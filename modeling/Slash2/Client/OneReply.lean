/-
# One reply for each request

The reply is sent by the last reference to the request, and the references are counted
right: `msl_io` and each biorq have one, and a biorq drops its own exactly once, because the
thread that completes it has found itself the only one with a reference and nobody can take a
new one meanwhile (`Shape`).

Key theorems: `step_inv`, `one_reply`.
-/
import Slash2.Client.Refs
import Slash2.Lib.Slots

namespace Slash2.Client

open Nat (zero_le)
open Option (bind_eq_some_iff map_eq_some_iff)

namespace Io.Refs

open Lib List
open Residency (slashBmapSize)

variable {io' : IoPc} {q' : Fsrq} {rc : ℤ} {r' : Rq}

/-- All biorqs are built at step 5, and a direct-I/O biorq is given up when no callback uses it. -/
def Safe (s : State) : Label → Prop
  | .drop => s.rqs.length = s.nr
  | .check i n => ∀ r ∈ s.rqs[i]?, ∀ tk ∈ r.toks[n]?, tk.kind = .io → r.req.dio →
      r.waking = 0 ∧ r.toks.length = 1
  | _ => True

instance (s : State) (l : Label) : Decidable (Safe s l) := by
  cases l <;> unfold Safe <;> infer_instance

/-! ### The life of a biorq -/

/-- The reference of `msl_io` before it is given up. -/
def ioTok : Tok := ⟨.io, .held⟩

def Idle (tk : Tok) : Prop := tk.kind ≠ .flush ∧ (tk.pc = .held ∨ tk.pc = .listed)

def Pc.completing : Pc → Bool
  | .copying | .replying _ _ => true
  | .listed | .held | .flushing | .dropping => false

/-- The references of a biorq: has it dropped its own, and is `BIORQ_FLUSHRDY` set? -/
inductive Shape (rw : Rw) : Bool → Bool → List Tok → Prop where
  | working {toks : List Tok} (ne : toks ≠ []) (idle : ∀ tk ∈ toks, Idle tk) : Shape rw false false toks
  | copying {k : Kind} (hk : k ≠ .flush) : Shape rw false false [⟨k, .copying⟩]
  | replying {k : Kind} {len : ℕ} {fl : Bool} (hk : k ≠ .flush) : Shape rw false false [⟨k, .replying len fl⟩]
  | flushing {k : Kind} (hw : rw = .write) : Shape rw true false [⟨k, .flushing⟩]
  | dropping {k : Kind} : Shape rw true false [⟨k, .dropping⟩]
  | gone : Shape rw true false []
  | scheduled {toks : List Tok} (hw : rw = .write)
      (all : ∀ tk ∈ toks, tk.pc = .dropping ∨ tk = ⟨.flush, .held⟩) : Shape rw true true toks

namespace Shape

variable {rw : Rw} {ended flushrdy : Bool} {toks : List Tok} {tk : Tok}

section
variable (h : Shape rw ended flushrdy toks) (hm : tk ∈ toks)
include h hm

/-- Where one of the references can be. -/
theorem of_mem : (ended = false ∧ flushrdy = false ∧
      (Idle tk ∧ (∀ x ∈ toks, Idle x) ∨ toks = [tk] ∧ tk.kind ≠ .flush ∧ tk.pc.completing)) ∨
    (ended ∧ (rw = .write ∧ toks = [tk] ∧ tk.pc = .flushing ∨ tk.pc = .dropping ∨
      rw = .write ∧ flushrdy ∧ tk = ⟨.flush, .held⟩)) := by
  cases h with
  | working ne idle => exact .inl ⟨rfl, rfl, .inl ⟨idle tk hm, idle⟩⟩
  | scheduled hw all => exact .inr ⟨rfl, .inr ((all tk hm).imp_right fun h => ⟨hw, rfl, h⟩)⟩
  | gone => cases hm
  | copying hk | replying hk =>
    cases mem_singleton.mp hm
    exact .inl ⟨rfl, rfl, .inr ⟨rfl, hk, rfl⟩⟩
  | flushing hw =>
    cases mem_singleton.mp hm
    exact .inr ⟨rfl, .inl ⟨hw, rfl, rfl⟩⟩
  | dropping =>
    cases mem_singleton.mp hm
    exact .inr ⟨rfl, .inr (.inl rfl)⟩

theorem of_idle (hidle : Idle tk) : ended = false ∧ flushrdy = false ∧ ∀ tk ∈ toks, Idle tk := by
  have := h.of_mem hm
  grind [Idle, Pc.completing]

theorem of_completing (hpc : tk.pc.completing) :
    ended = false ∧ flushrdy = false ∧ toks = [tk] ∧ tk.kind ≠ .flush := by
  have := h.of_mem hm
  grind [Idle, Pc.completing]

theorem of_flushing (hpc : tk.pc = .flushing) :
    rw = .write ∧ ended ∧ toks = [tk] := by
  have := h.of_mem hm
  grind [Idle, Pc.completing]

theorem of_flush (hk : tk.kind = .flush) (hpc : tk.pc = .held) :
    rw = .write ∧ flushrdy := by
  have := h.of_mem hm
  grind [Idle]

end

theorem erase (h : Shape rw ended flushrdy toks) {n : ℕ} (hn : toks[n]? = some tk)
    (hpc : tk.pc = .dropping ∨ tk.kind = .flush ∧ tk.pc = .held) :
    ended ∧ Shape rw ended flushrdy (toks.eraseIdx n) := by
  have hm := mem_of_getElem? hn
  cases h with
  | working ne idle =>
    obtain ⟨hk, hidle⟩ := idle tk hm
    rcases hpc with hpc | ⟨hf, -⟩
    · simp [hpc] at hidle
    · exact absurd hf hk
  | scheduled hw all =>
    exact ⟨rfl, .scheduled hw fun tk' h' => all tk' (mem_of_mem_eraseIdx h')⟩
  | dropping =>
    obtain ⟨hlt, -⟩ := List.getElem?_eq_some_iff.mp hn
    obtain rfl : n = 0 := by
      simp only [length_singleton] at hlt
      omega
    exact ⟨rfl, .gone⟩
  | gone => cases hm
  | _ =>
    cases mem_singleton.mp hm
    simp at hpc

end Shape

/-- `msl_io` has not yet begun to give up biorq `i`. -/
def IoPc.ahead : IoPc → ℕ → Bool
  | .get _, _ | .launch _, _ | .out _, _ | .drop, _ => true
  | .release j, i => decide (j ≤ i)
  | .releasing j, i => decide (j < i)
  | .done, _ => false

/-- The reference of `msl_io` to the request. -/
def IoPc.hold : IoPc → ℕ
  | .get _ | .launch _ | .out _ | .drop => 1
  | .release _ | .releasing _ | .done => 0

/-- Direct I/O for biorq `j` has succeeded, if `msl_io` is here. -/
def IoPc.fetched : IoPc → ℤ → ℕ → Prop
  | .get _, _, _ => False
  | .launch i, _, j => j < i
  | .out rc, _, _ => rc = 0
  | .drop, err, _ | .release _, err, _ | .releasing _, err, _ | .done, err, _ => err = 0

/-- What holds of biorq `i`. -/
structure RqInv (q : Fsrq) (io : IoPc) (i : ℕ) (r : Rq) : Prop where
  ref : r.ref = r.toks.length
  rw : r.rw = q.rw
  shape : Shape r.rw r.ended r.flushrdy r.toks
  mine : io.ahead i → ioTok ∈ r.toks
  direct : (r.waking ≠ 0 ∨ ∃ tk ∈ r.toks, tk.kind = .dio) → ioTok ∈ r.toks
  cached : r.req.dio = false → r.waking = 0 ∧ ∀ tk ∈ r.toks, tk.kind ≠ .dio
  copied : ∀ tk ∈ r.toks, ∀ len fl, tk.pc = .replying len fl →
    len ≤ r.req.rq.len ∧ (fl → r.rw = .write) ∧ (q.err = 0 → q.copied)

def unended (rqs : List Rq) : ℕ := (rqs.map fun r => if r.ended then 0 else 1).sum

def endedLen (rqs : List Rq) : ℕ := (rqs.map fun r => if r.ended then r.req.rq.len else 0).sum

structure Base (s : State) : Prop where
  each : ∀ i r, s.rqs[i]? = some r → RqInv s.q s.io i r
  plan : s.rqs.map Rq.req = s.plan.take s.rqs.length
  total : (s.plan.map fun r => r.rq.len).sum ≤ s.q.size
  fits : s.plan.length ≤ s.nr
  getting : ∀ i, s.io = .get i → i ≤ s.rqs.length
  built : s.io.hold = 0 → s.rqs.length = s.nr
  writes : s.q.rw = .write → s.nr ≠ 0
  fetched : ∀ j r, s.rqs[j]? = some r → r.req.dio → s.io.fetched s.q.err j → s.q.copied
  failed : s.q.failed = false
  uaf : s.uaf = false

structure Inv (s : State) : Prop extends Base s where
  ref : s.q.ref = s.io.hold + unended s.rqs
  replied : s.q.replied ↔ s.q.ref = 0
  replies : s.replies = if s.q.replied then 1 else 0
  len : s.q.len ≤ endedLen s.rqs

section Alive

variable {s : State} {i : ℕ} {r : Rq}

theorem unended_pos {rqs : List Rq} (hi : rqs[i]? = some r) (he : r.ended = false) : 1 ≤ unended rqs := by
  have hmem : (1 : ℕ) ∈ rqs.map fun r => if r.ended then 0 else 1 := mem_map.mpr ⟨r, mem_of_getElem? hi, by simp [he]⟩
  exact single_le_sum (fun _ _ => zero_le _) _ hmem

theorem Inv.alive (h : Inv s) (hi : s.rqs[i]? = some r) (he : r.ended = false) : s.q.replied = false := by
  have hpos := unended_pos hi he
  have href := h.ref
  rw [← Bool.not_eq_true, h.replied]
  omega

theorem Inv.alive_io (h : Inv s) (hio : s.io.hold = 1) : s.q.replied = false := by
  have href := h.ref
  rw [← Bool.not_eq_true, h.replied]
  omega

theorem use_eq (h : s.q.replied = false) : s.use = s := by
  simp [State.use, h]

end Alive

/-! ### One biorq changes -/

structure Steady (q q' : Fsrq) : Prop where
  rw : q'.rw = q.rw
  size : q'.size = q.size
  err : q'.err = 0 → q.err = 0
  copied : q.copied → q'.copied

structure Books (q q' : Fsrq) : Prop extends Steady q q' where
  len : q'.len = q.len
  ref : q'.ref = q.ref
  replied : q'.replied = q.replied
  failed : q'.failed = q.failed

theorem Steady.refl (q : Fsrq) : Steady q q := ⟨rfl, rfl, id, id⟩

theorem Books.refl (q : Fsrq) : Books q q := ⟨Steady.refl q, rfl, rfl, rfl, rfl⟩

theorem books_seterr (q : Fsrq) (rc : ℤ) : Books q (mfsrqSeterr q rc) := by
  unfold mfsrqSeterr
  split_ifs with h
  · exact ⟨⟨rfl, rfl, fun _ => h, id⟩, rfl, rfl, rfl, rfl⟩
  · exact .refl q

variable {io : IoPc} {j : ℕ} {r : Rq}

theorem RqInv.other {q : Fsrq} (h : RqInv q io j r) (hb : Steady q q')
    (hahead : io'.ahead j → io.ahead j) : RqInv q' io' j r :=
  { h with
    rw := h.rw.trans hb.rw.symm
    mine := fun ha => h.mine (hahead ha)
    copied := fun tk htk len fl hpc => by
      obtain ⟨h1, h2, h3⟩ := h.copied tk htk len fl hpc
      exact ⟨h1, h2, fun he => hb.copied (h3 (hb.err he))⟩ }

/-- `msl_io` stays where it is, or goes on after a release. -/
def Follows (io io' : IoPc) : Prop := io' = io ∨ ∃ j, io = .releasing j ∧ io' = .release (j + 1)

theorem Follows.ahead (h : Follows io io') (ha : io'.ahead j) : io.ahead j := by
  rcases h with rfl | ⟨k, rfl, rfl⟩
  · exact ha
  · simpa [IoPc.ahead, Nat.succ_le_iff] using ha

theorem Follows.hold (h : Follows io io') : io'.hold = io.hold := by
  rcases h with rfl | ⟨k, rfl, rfl⟩ <;> rfl

variable {s : State} {i : ℕ}

theorem follows_release {tk : Tok} (h : tk.kind = .io → io = .releasing i) :
    Follows io (if tk.kind = .io then .release (i + 1) else io) := by
  split_ifs with hk
  · exact .inr ⟨i, h hk, rfl⟩
  · exact .inl rfl

theorem IoPc.fetched_of_err {q : Fsrq} (hb : Steady q q') (hf : io.fetched q'.err j) : io.fetched q.err j := by
  cases io <;> first | exact hf | exact hb.err hf

theorem Base.put (h : Base s) (hi : s.rqs[i]? = some r)
    (hb : Books s.q q') (hio : Follows s.io io') (hr : RqInv q' io' i r') (hreq : r'.req = r.req) :
    Base { s with q := q', io := io', rqs := s.rqs.set i r' } where
  each := fun j x hj => by
    rcases getElem?_set_cases hj with ⟨rfl, rfl⟩ | ⟨-, hj⟩
    · exact hr
    · exact (h.each j x hj).other hb.toSteady hio.ahead
  plan := by
    rw [map_set_of_eq Rq.req hi hreq, length_set]
    exact h.plan
  total := hb.size ▸ h.total
  fits := h.fits
  getting := fun k hk => by
    rw [length_set]
    rcases hio with rfl | ⟨j, -, rfl⟩
    · exact h.getting k hk
    · cases hk
  built := fun hz => by
    rw [length_set]
    exact h.built (hio.hold ▸ hz)
  writes := hb.rw ▸ h.writes
  fetched := fun j x hj hd hf => by
    have hf' : s.io.fetched s.q.err j := by
      rcases hio with rfl | ⟨k, hk, rfl⟩
      · exact IoPc.fetched_of_err hb.toSteady hf
      · rw [hk]
        exact hb.err hf
    rcases getElem?_set_cases hj with ⟨rfl, rfl⟩ | ⟨-, hj⟩
    · exact hb.copied (h.fetched j r hi (hreq ▸ hd) hf')
    · exact hb.copied (h.fetched j x hj hd hf')
  failed := hb.failed.trans h.failed
  uaf := h.uaf

theorem Inv.keep {t : State} (h : Inv s) (ht : Base t) (hb : Books s.q t.q) (hreplies : t.replies = s.replies)
    (hu : t.io.hold + unended t.rqs = s.io.hold + unended s.rqs) (hl : endedLen t.rqs = endedLen s.rqs) : Inv t where
  toBase := ht
  ref := by
    have href := h.ref
    rw [hb.ref]
    omega
  replied := by
    rw [hb.replied, hb.ref]
    exact h.replied
  replies := by
    rw [hreplies, hb.replied]
    exact h.replies
  len := by
    rw [hb.len, hl]
    exact h.len

theorem Inv.put (h : Inv s) (hi : s.rqs[i]? = some r)
    (hb : Books s.q q') (hio : Follows s.io io') (hr : RqInv q' io' i r') (hreq : r'.req = r.req)
    (hend : r'.ended = r.ended) : Inv { s with q := q', io := io', rqs := s.rqs.set i r' } := by
  refine h.keep (h.toBase.put hi hb hio hr hreq) hb rfl ?_ ?_
  · dsimp only [unended]
    rw [hio.hold, map_set_of_eq _ hi (by rw [hend])]
  · dsimp only [endedLen]
    rw [map_set_of_eq _ hi (by rw [hend, hreq])]

theorem Inv.setRq (h : Inv s) (hi : s.rqs[i]? = some r)
    (hr : RqInv s.q s.io i r') (hreq : r'.req = r.req) (hend : r'.ended = r.ended) : Inv (s.setRq i r') :=
  h.put hi (.refl _) (.inl rfl) hr hreq hend

theorem Base.update {k : ℕ} (h : Base s) (hq : Steady s.q q') (hfailed : q'.failed = false)
    (hahead : ∀ j, io'.ahead j → s.io.ahead j)
    (hget : ∀ j, io' = .get j → j ≤ s.rqs.length) (hbuilt : io'.hold = 0 → s.rqs.length = s.nr)
    (hf : ∀ j r, s.rqs[j]? = some r → r.req.dio → io'.fetched q'.err j → q'.copied) :
    Base { s with q := q', io := io', replies := k } :=
  { h with
    each := fun j x hj => (h.each j x hj).other hq (hahead j)
    total := hq.size ▸ h.total
    getting := hget
    built := hbuilt
    writes := hq.rw ▸ h.writes
    fetched := hf
    failed := hfailed }

theorem Inv.move (h : Inv s) (hb : Books s.q q') (hhold : io'.hold = s.io.hold)
    (hahead : ∀ j, io'.ahead j → s.io.ahead j) (hget : ∀ j, io' = .get j → j ≤ s.rqs.length)
    (hf : ∀ j r, s.rqs[j]? = some r → r.req.dio → io'.fetched q'.err j → q'.copied) :
    Inv { s with q := q', io := io' } :=
  h.keep (h.toBase.update hb.toSteady (hb.failed.trans h.failed) hahead hget (fun hz => h.built (hhold ▸ hz)) hf) hb rfl
    (by rw [hhold]) rfl

theorem Base.steady {k : ℕ} (h : Base s) (hq : Steady s.q q') (hfailed : q'.failed = false) :
    Base { s with q := q', replies := k } :=
  h.update hq hfailed (fun _ => id) h.getting h.built fun j x hj hd hf =>
    hq.copied (h.fetched j x hj hd (IoPc.fetched_of_err hq hf))

theorem Inv.seterr (h : Inv s) (rc : ℤ) : Inv { s with q := mfsrqSeterr s.q rc } := by
  have hb := books_seterr s.q rc
  exact h.keep (h.toBase.steady hb.toSteady (hb.failed.trans h.failed)) hb rfl rfl rfl

/-! ### References come and go -/

section Tokens

variable {q : Fsrq} {n : ℕ} {tk : Tok} {t : State}

theorem RqInv.alone (h : RqInv q io i r) (hone : r.ref = 1) (hn : r.toks[n]? = some tk) : r.toks = [tk] ∧ n = 0 := by
  obtain ⟨hlt, rfl⟩ := List.getElem?_eq_some_iff.mp hn
  obtain ⟨x, hx⟩ := length_eq_one_iff.mp (h.ref.symm.trans hone)
  have hz : n = 0 := by
    rw [hx, length_singleton] at hlt
    omega
  subst hz
  exact ⟨by simp [hx], rfl⟩

/-- While no thread completes the biorq, its references may be any idle ones. -/
theorem RqInv.retok (h : RqInv q io i r) (hm : tk ∈ r.toks) (hidle : Idle tk) {u : Tok} (hnew : Idle u)
    (hdio : u.kind = .dio → r.req.dio ∧ ioTok ∈ r.toks) {ref : ℕ} {wait : Bool} {toks : List Tok}
    (href : ref = toks.length) (hne : toks ≠ []) (hmem : ∀ x ∈ toks, x ∈ r.toks ∨ x = u)
    (hio : ioTok ∈ r.toks → ioTok ∈ toks) : RqInv q io i { r with ref := ref, wait := wait, toks := toks } := by
  obtain ⟨hend, hfl, hall⟩ := h.shape.of_idle hm hidle
  refine ⟨href, h.rw, ?_, fun ha => hio (h.mine ha), ?_, ?_, ?_⟩
  · rw [hend, hfl]
    refine .working hne fun x hx => ?_
    rcases hmem x hx with hx | rfl
    · exact hall x hx
    · exact hnew
  · rintro (hw | ⟨x, hx, hk⟩)
    · exact hio (h.direct (.inl hw))
    · rcases hmem x hx with hx | rfl
      · exact hio (h.direct (.inr ⟨x, hx, hk⟩))
      · exact hio (hdio hk).2
  · intro hd
    obtain ⟨hw, hno⟩ := h.cached hd
    refine ⟨hw, fun x hx => ?_⟩
    rcases hmem x hx with hx | rfl
    · exact hno x hx
    intro hk
    rw [(hdio hk).1] at hd
    cases hd
  · intro x hx len fl hpc
    rcases hmem x hx with hx | rfl
    · exact h.copied x hx len fl hpc
    · rcases hnew.2 with hp | hp <;> rw [hp] at hpc <;> cases hpc

theorem RqInv.incref (h : RqInv q io i r) (hm : tk ∈ r.toks) (hidle : Idle tk) {k : Kind} {pc : Pc}
    (hnew : Idle ⟨k, pc⟩) (hdio : k = .dio → r.req.dio ∧ ioTok ∈ r.toks) : RqInv q io i (r.incref k pc) :=
  h.retok hm hidle hnew hdio (by simp [h.ref]) (by simp) (fun x hx => by simpa using hx)
    fun hx => mem_append_left _ hx

theorem RqInv.tryadd (h : RqInv q io i r) (hm : tk ∈ r.toks) (hidle : Idle tk) : RqInv q io i r.tryadd := by
  unfold Rq.tryadd
  split_ifs
  · exact h
  · have h' : RqInv q io i (r.incref .wait .listed) := h.incref hm hidle ⟨by simp, .inr rfl⟩ (by simp)
    exact ⟨h'.ref, h'.rw, h'.shape, h'.mine, h'.direct, h'.cached, h'.copied⟩

theorem idle_ioTok : Idle ioTok := ⟨by simp [ioTok], .inl rfl⟩

theorem RqInv.drop (h : RqInv q io i r) (hn : r.toks[n]? = some tk)
    (hshape : Shape r.rw r.ended r.flushrdy (r.toks.eraseIdx n))
    (hmine : io'.ahead i → io.ahead i ∧ tk ≠ ioTok)
    (hdirect : (r.waking ≠ 0 ∨ ∃ x ∈ r.toks, x.kind = .dio) → tk ≠ ioTok) : RqInv q io' i (r.drop n tk.kind) := by
  have hm := List.mem_of_getElem? hn
  have hlt := (List.getElem?_eq_some_iff.mp hn).1
  have hkeep : ∀ x ∈ r.toks, x ≠ tk → x ∈ r.toks.eraseIdx n := by
    intro x hx hne
    obtain ⟨j, hj⟩ := List.mem_iff_getElem?.mp hx
    refine List.mem_eraseIdx_iff_getElem?.mpr ⟨j, fun hjn => ?_, hj⟩
    subst hjn
    exact hne (Option.some.inj (hj.symm.trans hn))
  have hsub : ∀ x ∈ r.toks.eraseIdx n, x ∈ r.toks := fun x hx => List.mem_of_mem_eraseIdx hx
  refine ⟨?_, h.rw, hshape, fun ha => ?_, fun hd => ?_, fun hd => ?_, fun x hx => h.copied x (hsub x hx)⟩
  · simp only [Rq.drop, List.length_eraseIdx, if_pos hlt, h.ref]
  · exact hkeep _ (h.mine (hmine ha).1) (hmine ha).2.symm
  · -- a thread that goes on to use the request was a direct-I/O callback
    have hd' : r.waking ≠ 0 ∨ ∃ x ∈ r.toks, x.kind = .dio := by
      rcases hd with hd | ⟨x, hx, hk⟩
      · by_cases hk : tk.kind = .dio
        · exact .inr ⟨tk, hm, hk⟩
        · exact .inl (by simpa [Rq.drop, hk] using hd)
      · exact .inr ⟨x, hsub x hx, hk⟩
    exact hkeep _ (h.direct hd') (hdirect hd').symm
  · obtain ⟨hw, hno⟩ := h.cached hd
    refine ⟨?_, fun x hx => hno x (hsub x hx)⟩
    simp only [Rq.drop, if_neg (hno tk hm)]
    exact hw

theorem RqInv.advance (h : RqInv q io i r) (hone : r.toks = [tk]) (hrw : q'.rw = q.rw) {pc : Pc}
    {ended flushrdy : Bool} (hahead : io'.ahead i = false) (hw : r.waking = 0) (hk : tk.kind ≠ .dio)
    (hshape : Shape r.rw ended flushrdy [⟨tk.kind, pc⟩]) (hcopied : ∀ len fl, pc = .replying len fl →
      len ≤ r.req.rq.len ∧ (fl → r.rw = .write) ∧ (q'.err = 0 → q'.copied)) :
    RqInv q' io' i { r with ended := ended, flushrdy := flushrdy, toks := [⟨tk.kind, pc⟩] } where
  ref := by
    have := h.ref
    rw [hone] at this
    exact this
  rw := h.rw.trans hrw.symm
  shape := hshape
  mine := fun ha => by
    rw [hahead] at ha
    cases ha
  direct := fun hd => by
    rcases hd with hd | ⟨x, hx, hd⟩
    · exact absurd hw hd
    · cases mem_singleton.mp hx
      exact absurd hd hk
  cached := fun hd => ⟨(h.cached hd).1, fun x hx => by
    cases mem_singleton.mp hx
    exact hk⟩
  copied := fun x hx len fl hpc => by
    cases mem_singleton.mp hx
    exact hcopied len fl hpc

theorem RqInv.not_ahead (h : RqInv q io i r) (hno : ioTok ∉ r.toks) : io.ahead i = false := by
  rw [← Bool.not_eq_true]
  exact fun ha => hno (h.mine ha)

theorem hold_eq_zero {io : IoPc} (h : io.ahead i = false) : io.hold = 0 := by
  cases io <;> first | rfl | cases h

theorem RqInv.settled (h : RqInv q io i r) (hno : ioTok ∉ r.toks) : r.waking = 0 ∧ ∀ x ∈ r.toks, x.kind ≠ .dio := by
  refine ⟨?_, fun x hx hk => hno (h.direct (.inr ⟨x, hx, hk⟩))⟩
  by_contra hw
  exact hno (h.direct (.inl hw))

theorem RqInv.sole (h : RqInv q io i r) (hn : r.toks[n]? = some tk) (hone : r.toks = [tk]) (hne : tk ≠ ioTok) :
    (∀ x, r.toks.set n x = [x]) ∧ io.ahead i = false ∧ r.waking = 0 ∧ tk.kind ≠ .dio := by
  have hno : ioTok ∉ r.toks := by
    rw [hone, mem_singleton]
    exact hne.symm
  have hzero : n = 0 := by
    have := (List.getElem?_eq_some_iff.mp hn).1
    simpa [hone] using this
  obtain ⟨hw, hall⟩ := h.settled hno
  refine ⟨fun x => ?_, h.not_ahead hno, hw, hall tk (mem_of_getElem? hn)⟩
  rw [hone, hzero]
  rfl

theorem Inv.withTok (h : Inv s) {f : Rq → Tok → Option State} (hst : s.withTok i n f = some t) :
    ∃ r tk, s.rqs[i]? = some r ∧ r.toks[n]? = some tk ∧ tk ∈ r.toks ∧ RqInv s.q s.io i r ∧ f r tk = some t := by
  obtain ⟨r, hi, hst⟩ := bind_eq_some_iff.mp hst
  obtain ⟨tk, hn, hst⟩ := bind_eq_some_iff.mp hst
  exact ⟨r, tk, hi, hn, mem_of_getElem? hn, h.each i r hi, hst⟩

theorem seterr_inv (h : Inv s) (hst : step s (.seterr i n rc) = some t) : Inv t := by
  obtain ⟨r, tk, hi, hn, hm, hr, hst⟩ := h.withTok hst
  simp only [seterr] at hst
  split_ifs at hst with hc
  have hidle : Idle tk := ⟨by rcases hc.1 with hk | hk <;> simp [hk], .inl hc.2⟩
  rw [use_eq (h.alive hi (hr.shape.of_idle hm hidle).1)] at hst
  cases hst
  exact h.seterr rc

theorem pop_inv (h : Inv s) (hst : step s (.pop i n rc) = some t) : Inv t := by
  obtain ⟨r, tk, hi, hn, hm, hr, hst⟩ := h.withTok hst
  simp only [pop] at hst
  split_ifs at hst with hc
  subst hc
  have hidle : Idle ⟨.wait, .listed⟩ := ⟨by simp, .inr rfl⟩
  rw [use_eq (h.alive hi (hr.shape.of_idle hm hidle).1)] at hst
  cases hst
  have hb := books_seterr s.q rc
  have hkeep : ioTok ∈ r.toks → ioTok ∈ r.toks.set n ⟨.wait, .held⟩ := by
    intro hx
    obtain ⟨j, hj⟩ := mem_iff_getElem?.mp hx
    refine mem_iff_getElem?.mpr ⟨j, ?_⟩
    rw [getElem?_set_ne, hj]
    rintro rfl
    cases hn.symm.trans hj
  refine h.put hi hb (.inl rfl) ((hr.other hb.toSteady id).retok hm hidle
    ⟨by simp, .inl rfl⟩ (by simp) ?_ (by simpa using ne_nil_of_mem hm)
    (fun x hx => mem_or_eq_of_mem_set hx) hkeep) rfl rfl
  rw [length_set]
  exact hr.ref

theorem readd_inv (h : Inv s) (hst : step s (.readd i n) = some t) : Inv t := by
  obtain ⟨r, tk, hi, hn, hm, hr, hst⟩ := h.withTok hst
  simp only [readd] at hst
  split_ifs at hst with hc
  cases hst
  subst hc
  refine h.setRq hi (hr.tryadd (mem_of_getElem? hn) ⟨by simp, .inl rfl⟩) ?_ ?_ <;>
  · unfold Rq.tryadd
    split_ifs <;> rfl

theorem check_inv (h : Inv s) (hok : Safe s (.check i n)) (hst : step s (.check i n) = some t) : Inv t := by
  obtain ⟨r, tk, hi, hn, hm, hr, hst⟩ := h.withTok hst
  have hok := hok r hi tk hn
  simp only [check] at hst
  split_ifs at hst with hc hlast
  · -- the last reference: the biorq is completed by this thread
    cases hst
    obtain ⟨hone, hzero⟩ := hr.alone hlast.1 hn
    have hkf : tk.kind ≠ .flush := by
      intro hk
      obtain ⟨hw, hfl⟩ := hr.shape.of_flush hm hk hc.1
      simp [hw, hfl] at hlast
    have hidle : Idle tk := ⟨hkf, .inl hc.1⟩
    obtain ⟨hend, hfl, -⟩ := hr.shape.of_idle hm hidle
    have hno : tk.kind ≠ .io → ioTok ∉ r.toks := by
      intro hk hio
      rw [hone, mem_singleton] at hio
      exact hk (by rw [← hio]; rfl)
    have hsettled : r.waking = 0 ∧ tk.kind ≠ .dio := by
      by_cases hk : tk.kind = .io
      · refine ⟨?_, by simp [hk]⟩
        cases hd : r.req.dio with
        | true => exact (hok hk hd).1
        | false => exact (hr.cached hd).1
      · obtain ⟨hw, hall⟩ := hr.settled (hno hk)
        exact ⟨hw, hall tk hm⟩
    have hahead : s.io.ahead i = false := by
      by_cases hk : tk.kind = .io
      · rw [hc.2 hk]
        simp [IoPc.ahead]
      · exact hr.not_ahead (hno hk)
    have hset : r.toks.set n ⟨tk.kind, .copying⟩ = [⟨tk.kind, .copying⟩] := by
      rw [hone, hzero]
      rfl
    rw [hset]
    refine h.setRq hi (hr.advance hone rfl hahead hsettled.1 hsettled.2 ?_ (by simp)) rfl rfl
    rw [hend, hfl]
    exact .copying hkf
  · -- another reference is left, or the flush code drops the last one
    cases hst
    have hio := follows_release hc.2
    refine h.put hi (.refl _) hio (hr.drop hn ?_ (fun ha => ?_) fun hd => ?_) rfl rfl
    · by_cases hk : tk.kind = .flush
      · exact (hr.shape.erase hn (.inr ⟨hk, hc.1⟩)).2
      obtain ⟨hend, hfl, hall⟩ := hr.shape.of_idle hm ⟨hk, .inl hc.1⟩
      have hlen : r.toks.length ≠ 1 := fun hl => hlast ⟨hr.ref.trans hl, .inr hfl⟩
      have hlt := (List.getElem?_eq_some_iff.mp hn).1
      rw [hend, hfl]
      refine .working (ne_nil_of_length_pos ?_) fun x hx => hall x (mem_of_mem_eraseIdx hx)
      rw [length_eraseIdx, if_pos hlt]
      omega
    · split_ifs at ha with hk
      · simp [IoPc.ahead] at ha
      · exact ⟨ha, fun he => hk (by rw [he]; rfl)⟩
    · rintro rfl
      cases hdio : r.req.dio with
      | true =>
        obtain ⟨-, hfl, -⟩ := hr.shape.of_idle hm idle_ioTok
        exact hlast ⟨hr.ref.trans (hok rfl hdio).2, .inr hfl⟩
      | false =>
        obtain ⟨hw, hall⟩ := hr.cached hdio
        rcases hd with hd | ⟨x, hx, hk⟩
        · exact hd hw
        · exact hall x hx hk

theorem books_addIovs (q : Fsrq) (i : ℕ) (vs : List Iov) : Books q { q.addIovs i vs with copied := true } := by
  unfold Fsrq.addIovs
  split <;> exact ⟨⟨rfl, rfl, id, fun _ => rfl⟩, rfl, rfl, rfl, rfl⟩

variable {fsz len : ℕ} {src : List Byte} {req : Ioreq}

theorem books_copy {q' : Fsrq} {pages : List Page} {fl : Bool}
    (h : mslBiorqCompleteFsrq q i req fsz pages src = some (q', len, fl)) :
    Books q q' ∧ len ≤ req.rq.len ∧ (fl → q.rw = .write) ∧
      (q'.err = 0 → req.dio = false → q'.copied) := by
  unfold mslBiorqCompleteFsrq at h
  split_ifs at h with herr hd
  · cases h
    exact ⟨.refl q, zero_le _, by simp, fun h0 => absurd h0 herr⟩
  · cases h
    exact ⟨.refl q, le_rfl, by simp, fun _ hf => by simp [hd] at hf⟩
  split at h
  · obtain ⟨vs, hvs, he⟩ := map_eq_some_iff.mp h
    cases he
    exact ⟨books_addIovs q i vs, mslPagesCopyout_sum_le hvs, by simp, by simp⟩
  rename_i hw
  obtain ⟨-, -, he⟩ := map_eq_some_iff.mp h
  cases he
  exact ⟨⟨⟨rfl, rfl, id, fun _ => rfl⟩, rfl, rfl, rfl, rfl⟩, le_rfl, fun _ => hw, fun _ _ => rfl⟩

theorem RqInv.of_completing (h : RqInv q io i r) (hn : r.toks[n]? = some tk) (hpc : tk.pc.completing) :
    r.toks = [tk] ∧ (∀ x, r.toks.set n x = [x]) ∧ r.ended = false ∧ r.flushrdy = false ∧ tk.kind ≠ .flush ∧
      io.ahead i = false ∧ r.waking = 0 ∧ tk.kind ≠ .dio := by
  obtain ⟨hend, hfl, hone, hk⟩ := h.shape.of_completing (mem_of_getElem? hn) hpc
  obtain ⟨hset, hahead, hw, hd⟩ := h.sole hn hone fun he => by cases he ▸ hpc
  exact ⟨hone, hset, hend, hfl, hk, hahead, hw, hd⟩

theorem copy_inv {pages : List Page} (h : Inv s) (hst : step s (.copy i n fsz pages src) = some t) : Inv t := by
  obtain ⟨r, tk, hi, hn, hm, hr, hst⟩ := h.withTok hst
  simp only [copy] at hst
  split_ifs at hst with hc
  obtain ⟨⟨q', len, fl⟩, hout, rfl⟩ := map_eq_some_iff.mp hst
  obtain ⟨hone, hset, hend, hfl, hk, hahead, hw, hd⟩ := hr.of_completing hn (by rw [hc]; rfl)
  obtain ⟨hb, hlen, hwrite, hcop⟩ := books_copy hout
  rw [use_eq (h.alive hi hend), hset]
  refine h.put hi hb (.inl rfl) (hr.advance hone hb.rw hahead hw hd ?_ ?_) rfl rfl
  · rw [hend, hfl]
    exact .replying hk
  · intro len' fl' hpc
    cases hpc
    refine ⟨hlen, fun hf => hr.rw.trans (hwrite hf), fun he => ?_⟩
    cases hdio : r.req.dio with
    | false => exact hcop he hdio
    | true =>
      -- `msl_io` has come to step 6 without an error, so the transfer had succeeded
      refine hb.copied (h.fetched i r hi hdio ?_)
      have hz := hold_eq_zero hahead
      cases hio : s.io <;> rw [hio] at hz <;> first | exact hb.err he | cases hz

theorem schedflush_inv (h : Inv s) (hst : step s (.schedflush i n) = some t) : Inv t := by
  obtain ⟨r, tk, hi, hn, hm, hr, hst⟩ := h.withTok hst
  simp only [schedflush] at hst
  split_ifs at hst with hc
  cases hst
  obtain ⟨hwrite, hend, hone⟩ := hr.shape.of_flushing hm hc
  obtain ⟨hset, hahead, hw, hd⟩ := hr.sole hn hone fun he => by cases he ▸ hc
  have hmem : ∀ x ∈ r.toks.set n ⟨tk.kind, .dropping⟩ ++ [⟨.flush, .held⟩],
      x = ⟨tk.kind, .dropping⟩ ∨ x = ⟨.flush, .held⟩ := by
    rw [hset]
    simp
  refine h.setRq hi ⟨?_, hr.rw, ?_, fun ha => ?_, ?_, fun hc => ⟨(hr.cached hc).1, fun x hx => ?_⟩, fun x hx => ?_⟩ rfl rfl
  · simp [Rq.incref, hr.ref]
  · rw [hend]
    refine .scheduled hwrite fun x hx => ?_
    rcases hmem x hx with rfl | rfl
    · exact .inl rfl
    · exact .inr rfl
  · rw [hahead] at ha
    cases ha
  · rintro (hwake | ⟨x, hx, hk⟩)
    · exact absurd hw hwake
    · rcases hmem x hx with rfl | rfl
      · exact absurd hk hd
      · cases hk
  · rcases hmem x hx with rfl | rfl
    · exact hd
    · simp
  · rcases hmem x hx with rfl | rfl <;> simp

theorem decref_inv (h : Inv s) (hst : step s (.decref i n) = some t) : Inv t := by
  obtain ⟨r, tk, hi, hn, hm, hr, hst⟩ := h.withTok hst
  simp only [decref] at hst
  split_ifs at hst with hc
  cases hst
  obtain ⟨-, hshape⟩ := hr.shape.erase hn (.inl hc.1)
  have hio := follows_release hc.2
  have hne : tk ≠ ioTok := by
    rintro rfl
    cases hc.1
  exact h.put hi (.refl _) hio (hr.drop hn hshape (fun ha => ⟨hio.ahead ha, hne⟩) fun _ => hne) rfl rfl

theorem wake_inv (h : Inv s) (hst : step s (.wake i) = some t) : Inv t := by
  obtain ⟨r, hi, hst⟩ := bind_eq_some_iff.mp hst
  have hr := h.each i r hi
  simp only [wake] at hst
  split_ifs at hst with hc
  cases hst
  have hio := hr.direct (.inl hc)
  have hend := (hr.shape.of_idle hio idle_ioTok).1
  rw [use_eq (h.alive hi hend)]
  refine h.setRq hi { hr with direct := fun _ => hio, cached := fun hd => ?_ } rfl rfl
  exact absurd (hr.cached hd).1 hc

/-! ### A reference to the request is dropped -/

theorem Base.endedLen_le (h : Base s) : endedLen s.rqs ≤ s.q.size := by
  have h1 : endedLen s.rqs ≤ (s.rqs.map fun r => r.req.rq.len).sum := by
    refine sum_le_sum fun r _ => ?_
    split_ifs
    · exact le_rfl
    · exact zero_le _
  have h2 : (s.rqs.map fun r => r.req.rq.len) = (s.plan.take s.rqs.length).map fun r => r.rq.len := by
    rw [← h.plan, map_map]
    rfl
  have h3 : ((s.plan.take s.rqs.length).map fun r => r.rq.len).sum ≤ (s.plan.map fun r => r.rq.len).sum :=
    ((take_sublist _ _).map _).sum_le_sum fun _ _ => zero_le _
  rw [h2] at h1
  exact h1.trans (h3.trans h.total)

theorem Base.complete (h : Base s) (href : s.q.ref = s.io.hold + unended s.rqs + 1)
    (hrep : s.q.replied = false) (hreplies : s.replies = 0) (hlen : s.q.len + len ≤ endedLen s.rqs)
    (hcop : s.q.ref = 1 → (s.q.addLen len).decref.needsCopied → s.q.copied) : Inv (s.complete len) := by
  have hfail : (s.q.addLen len).decref.failed = false := by
    have h1 := addLen_failed (hlen.trans h.endedLen_le)
    change ((s.q.addLen len).failed || decide ((s.q.addLen len).ref ≤ 0)) = false
    rw [h1, h.failed, addLen_ref, Bool.false_or, decide_eq_false_iff_not]
    omega
  have hlen' : (s.q.addLen len).decref.len ≤ endedLen s.rqs := (addLen_len_le s.q len).trans hlen
  have hsteady : Steady s.q (s.q.addLen len).decref :=
    ⟨addLen_rw _ _, addLen_size _ _, fun he => (addLen_err s.q len).symm.trans he,
      fun hc => (addLen_copied s.q len).trans hc⟩
  by_cases h1 : s.q.ref = 1
  · have hq := mslCompleteFsrq_last h1 len
    have hans : (s.q.addLen len).decref.answered.failed = false := by
      change ((s.q.addLen len).decref.failed || (s.q.addLen len).replied ||
        ((s.q.addLen len).decref.needsCopied && !(s.q.addLen len).copied)) = false
      rw [hfail, addLen_replied, hrep, addLen_copied]
      cases hn : (s.q.addLen len).decref.needsCopied with
      | false => rfl
      | true => rw [hcop h1 hn]; rfl
    unfold State.complete
    rw [hq]
    have hst : Steady s.q (s.q.addLen len).decref.answered := ⟨hsteady.rw, hsteady.size, hsteady.err, hsteady.copied⟩
    refine ⟨h.steady hst hans, ?_, ?_, ?_, hlen'⟩
    · change (s.q.addLen len).ref - 1 = s.io.hold + unended s.rqs
      rw [addLen_ref]
      omega
    · change true = true ↔ (s.q.addLen len).ref - 1 = 0
      rw [addLen_ref, h1]
      simp
    · change s.replies + 1 = 1
      rw [hreplies]
  · have hq := mslCompleteFsrq_more h1 len
    unfold State.complete
    rw [hq]
    refine ⟨h.steady hsteady hfail, ?_, ?_, ?_, hlen'⟩
    · change (s.q.addLen len).ref - 1 = s.io.hold + unended s.rqs
      rw [addLen_ref]
      omega
    · change (s.q.addLen len).replied = true ↔ (s.q.addLen len).ref - 1 = 0
      rw [addLen_replied, hrep, addLen_ref]
      simp only [Bool.false_eq_true, false_iff]
      omega
    · change (if (none : Option Reply).isSome then s.replies + 1 else s.replies) =
        if (s.q.addLen len).replied then 1 else 0
      rw [addLen_replied, hrep]
      exact hreplies

theorem reply_inv (h : Inv s) (hst : step s (.reply i n) = some t) : Inv t := by
  obtain ⟨r, tk, hi, hn, hm, hr, hst⟩ := h.withTok hst
  unfold reply at hst
  split at hst <;> cases hst
  rename_i len fl hpc
  obtain ⟨hone, hset, hend, hfl, hk, hahead, hw, hd⟩ := hr.of_completing hn (by rw [hpc]; rfl)
  obtain ⟨hlen, hwrite, hcop⟩ := hr.copied tk hm len fl hpc
  have halive := h.alive hi hend
  rw [use_eq halive, hset]
  have hr' : RqInv s.q s.io i { r with ended := true, toks := [⟨tk.kind, if fl then .flushing else .dropping⟩] } := by
    refine hr.advance hone rfl hahead hw hd ?_ fun _ _ hp => ?_
    · rw [hfl]
      split_ifs with hf
      · exact .flushing (hwrite hf)
      · exact .dropping
    · split_ifs at hp
  have hu := sum_map_set (x := { r with ended := true, toks := [⟨tk.kind, if fl then .flushing else .dropping⟩] })
    (fun r : Rq => if r.ended then 0 else 1) hi
  have hl := sum_map_set (x := { r with ended := true, toks := [⟨tk.kind, if fl then .flushing else .dropping⟩] })
    (fun r : Rq => if r.ended then r.req.rq.len else 0) hi
  simp only [hend, Bool.false_eq_true, if_false, if_true] at hu hl
  have href := h.ref
  have hsum := h.len
  refine (h.toBase.put hi (.refl _) (.inl rfl) hr' rfl).complete ?_ halive ?_ ?_ fun _ hneed => ?_
  · change s.q.ref = s.io.hold + unended (s.rqs.set i _) + 1
    unfold unended at href ⊢
    omega
  · rw [h.replies, halive]
    rfl
  · change s.q.len + len ≤ endedLen (s.rqs.set i _)
    unfold endedLen at hsum ⊢
    omega
  · refine hcop ?_
    have herr : (s.q.addLen len).decref.err = s.q.err := addLen_err s.q len
    rw [← herr]
    unfold Fsrq.needsCopied at hneed
    split at hneed
    · exact of_decide_eq_true (Bool.and_eq_true _ _ ▸ hneed).1
    · exact of_decide_eq_true hneed

/-! ### The thread in `msl_io` -/

theorem length_le_nr (h : Base s) : s.rqs.length ≤ s.nr := by
  have hl := congrArg length h.plan
  rw [length_map, length_take] at hl
  have := h.fits
  omega

section
variable (h : Inv s)
include h

theorem build_inv {k : ℕ} (hio : s.io = .get k) (hk : ¬ k < s.rqs.length)
    (hreq : s.plan[k]? = some req) (hio' : io' = .get (k + 1) ∨ io' = .launch 0) :
    Inv { s with io := io', q := s.q.addBiorq req, rqs := s.rqs ++ [bmpcBiorqNew req s.q.rw] } := by
  have hk' : k = s.rqs.length := Nat.le_antisymm (h.getting k hio) (Nat.not_lt.mp hk)
  have hhold : s.io.hold = 1 := by rw [hio]; rfl
  have hhold' : io'.hold = 1 := by rcases hio' with rfl | rfl <;> rfl
  have hnew : RqInv (s.q.addBiorq req) io' s.rqs.length (bmpcBiorqNew req s.q.rw) :=
    ⟨rfl, rfl, .working (by simp [bmpcBiorqNew]) (by simp [bmpcBiorqNew, Idle]), fun _ => mem_singleton.mpr rfl,
      fun _ => mem_singleton.mpr rfl, by simp [bmpcBiorqNew], by simp [bmpcBiorqNew]⟩
  have hget : ∀ {j x}, (s.rqs ++ [bmpcBiorqNew req s.q.rw])[j]? = some x →
      s.rqs[j]? = some x ∨ j = s.rqs.length ∧ x = bmpcBiorqNew req s.q.rw := by
    intro j x hj
    rcases Nat.lt_or_ge j s.rqs.length with hlt | hge
    · exact .inl (by rwa [getElem?_append_left hlt] at hj)
    rw [getElem?_append_right hge, getElem?_singleton] at hj
    split_ifs at hj with h0
    exact .inr ⟨by omega, (Option.some.inj hj).symm⟩
  have halive := h.alive_io hhold
  have href := h.ref
  refine ⟨⟨fun j x hj => ?_, ?_, h.total, h.fits, ?_, ?_, h.writes, ?_, h.failed, h.uaf⟩, ?_, ?_, h.replies, ?_⟩
  · rcases hget hj with hj | ⟨rfl, rfl⟩
    · refine (h.each j x hj).other ⟨rfl, rfl, id, id⟩ fun _ => ?_
      rw [hio]
      rfl
    · exact hnew
  · rw [map_append, h.plan, length_append, length_singleton, take_add_one, ← hk', hreq]
    rfl
  · intro j hj
    rw [length_append, length_singleton]
    rcases hio' with rfl | rfl
    · cases hj
      omega
    · cases hj
  · intro (hz : io'.hold = 0)
    omega
  · intro j x hj hd hf
    rcases hio' with rfl | rfl
    · exact absurd hf (by simp [IoPc.fetched])
    · exact absurd hf (by simp [IoPc.fetched])
  · have hu : unended (s.rqs ++ [bmpcBiorqNew req s.q.rw]) = unended s.rqs + 1 := by
      simp [unended, bmpcBiorqNew]
    change s.q.ref + 1 = _
    rw [hu, href, hhold, hhold']
    push_cast
    ring
  · change s.q.replied = true ↔ s.q.ref + 1 = 0
    rw [halive]
    simp only [Bool.false_eq_true, false_iff]
    omega
  · have hl : endedLen (s.rqs ++ [bmpcBiorqNew req s.q.rw]) = endedLen s.rqs := by
      simp [endedLen, bmpcBiorqNew]
    rw [hl]
    exact h.len

theorem bmap_inv (hst : step s (.bmap rc) = some t) : Inv t := by
  simp only [step, ioBmap] at hst
  split at hst
  · rename_i k hio
    have hhold : s.io.hold = 1 := by rw [hio]; rfl
    have hahead : ∀ j, s.io.ahead j := fun j => by rw [hio]; rfl
    rw [use_eq (h.alive_io hhold)] at hst
    generalize hnext : (if k + 1 < s.nr then IoPc.get (k + 1) else .launch 0) = io' at hst
    have hio' : io' = .get (k + 1) ∨ io' = .launch 0 := by
      rw [← hnext]
      split_ifs
      · exact .inl rfl
      · exact .inr rfl
    split_ifs at hst with hrc hk
    · cases hst
      exact h.move (.refl _) hhold.symm (fun j _ => hahead j) (by simp) fun _ _ _ _ hf => absurd hf hrc
    · cases hst
      refine h.move (.refl _) ?_ (fun j _ => hahead j) (fun j hj => ?_) fun _ _ _ _ hf => ?_
      · rcases hio' with rfl | rfl <;> exact hhold.symm
      · rcases hio' with rfl | rfl <;> cases hj
        exact hk
      · rcases hio' with rfl | rfl <;> simp [IoPc.fetched] at hf
    · obtain ⟨req, hreq, rfl⟩ := map_eq_some_iff.mp hst
      exact build_inv h hio hk hreq hio'
  · cases hst

theorem launch_inv (hst : step s .launch = some t) : Inv t := by
  simp only [step, ioLaunch] at hst
  split at hst
  · rename_i k hio
    obtain ⟨r, hk, hst⟩ := bind_eq_some_iff.mp hst
    have hr := h.each k r hk
    have hm := hr.mine (by rw [hio]; rfl)
    split_ifs at hst with hd hrw <;> cases hst
    · exact h.setRq hk (hr.incref hm idle_ioTok ⟨by simp, .inl rfl⟩ fun _ => ⟨hd, hm⟩) rfl rfl
    · exact h.setRq hk (hr.incref hm idle_ioTok ⟨by simp, .inl rfl⟩ (by simp)) rfl rfl
  · cases hst

theorem aiowait_inv (hst : step s .aiowait = some t) : Inv t := by
  simp only [step, ioAiowait] at hst
  split at hst
  · rename_i k hio
    obtain ⟨r, hk, hst⟩ := bind_eq_some_iff.mp hst
    have hr := h.each k r hk
    split_ifs at hst with hd
    cases hst
    refine h.setRq hk (hr.tryadd (hr.mine (by rw [hio]; rfl)) idle_ioTok) ?_ ?_ <;>
    · unfold Rq.tryadd
      split_ifs <;> rfl
  · cases hst

theorem launched_inv (hst : step s (.launched rc) = some t) : Inv t := by
  simp only [step, ioLaunched] at hst
  split at hst
  · rename_i k hio
    obtain ⟨r, hk, hst⟩ := map_eq_some_iff.mp hst
    have hhold : s.io.hold = 1 := by rw [hio]; rfl
    have hahead : ∀ j, s.io.ahead j := fun j => by rw [hio]; rfl
    rw [use_eq (h.alive_io hhold)] at hst
    split_ifs at hst with hrc hlast
    · cases hst
      exact h.move (.refl _) hhold.symm (fun j _ => hahead j) (by simp) fun _ _ _ _ hf => absurd hf hrc
    all_goals
      cases hst
      have hb : Books s.q { s.q with copied := s.q.copied || r.req.dio } :=
        ⟨⟨rfl, rfl, id, fun hc => by simp [hc]⟩, rfl, rfl, rfl, rfl⟩
      -- the biorqs up to this one have been fetched
      have hdone : ∀ j x, s.rqs[j]? = some x → x.req.dio = true → j ≤ k → (s.q.copied || r.req.dio) := by
        intro j x hj hd hle
        rcases Nat.lt_or_eq_of_le hle with hlt | rfl
        · rw [h.fetched j x hj hd (by rw [hio]; exact hlt)]
          rfl
        · cases hk.symm.trans hj
          simp [hd]
    · exact h.move hb hhold.symm (fun j _ => hahead j) (by simp) fun j x hj hd hf =>
        hdone j x hj hd (Nat.lt_succ_iff.mp hf)
    · refine h.move hb hhold.symm (fun j _ => hahead j) (by simp) fun j x hj hd _ => hdone j x hj hd ?_
      have hlt := (List.getElem?_eq_some_iff.mp hj).1
      have hnr := length_le_nr h.toBase
      omega
  · cases hst

theorem next_inv {retry : Bool} (hst : step s (.next retry) = some t) : Inv t := by
  simp only [step, ioNext] at hst
  split at hst
  · rename_i rc hio
    have hhold : s.io.hold = 1 := by rw [hio]; rfl
    have hahead : ∀ j, s.io.ahead j := fun j => by rw [hio]; rfl
    rw [use_eq (h.alive_io hhold)] at hst
    generalize hgive : (if |rc| = slerrIonOffline then -etimedout else rc) = rc' at hst
    split_ifs at hst with hrc hretry
    · cases hst
      exact h.move (.refl _) hhold.symm (fun j _ => hahead j) (by simp) fun j x hj hd _ =>
        h.fetched j x hj hd (by rw [hio]; exact hrc)
    · -- nobody is completing a biorq, so no reply is prepared under the old error
      cases hst
      refine ⟨{ h.toBase with
        each := fun j x hj => ?_
        getting := fun j hj => by cases hj; exact zero_le _
        built := by simp [IoPc.hold]
        fetched := by simp [IoPc.fetched] }, ?_, h.replied, h.replies, h.len⟩
      · have hr := h.each j x hj
        obtain ⟨-, -, hall⟩ := hr.shape.of_idle (hr.mine (hahead j)) idle_ioTok
        refine { hr with rw := hr.rw, mine := fun _ => hr.mine (hahead j), copied := fun tk htk len fl hpc => ?_ }
        rcases (hall tk htk).2 with hp | hp <;> rw [hpc] at hp <;> cases hp
      · change s.q.ref = _
        rw [h.ref, hhold]
        rfl
    · cases hst
      have hb := books_seterr s.q rc'
      have hne : (mfsrqSeterr s.q rc').err ≠ 0 := by
        have hrc' : rc' ≠ 0 := by
          rw [← hgive]
          split_ifs
          · decide
          · exact hrc
        unfold mfsrqSeterr
        split_ifs with h0
        · exact hrc'
        · exact h0
      exact h.move hb hhold.symm (fun j _ => hahead j) (by simp) fun _ _ _ _ hf => absurd hf hne
  · cases hst

theorem drop_inv (hok : Safe s .drop) (hst : step s .drop = some t) : Inv t := by
  simp only [step, ioDrop] at hst
  split at hst <;> cases hst
  rename_i hio
  have hhold : s.io.hold = 1 := by rw [hio]; rfl
  have hahead : ∀ j, s.io.ahead j := fun j => by rw [hio]; rfl
  have halive := h.alive_io hhold
  rw [use_eq halive]
  have hall : unended s.rqs = s.rqs.length := by
    have h1 : s.rqs.map (fun r => if r.ended then 0 else 1) = s.rqs.map fun _ => 1 := by
      refine map_congr_left fun r hr => ?_
      obtain ⟨j, hj⟩ := mem_iff_getElem?.mp hr
      have hrq := h.each j r hj
      rw [(hrq.shape.of_idle (hrq.mine (hahead j)) idle_ioTok).1]
      rfl
    rw [unended, h1]
    simp
  have href := h.ref
  have hbase : Base { s with io := .release 0 } :=
    h.toBase.update (.refl _) h.failed (fun j _ => hahead j) (by simp) (fun _ => hok) fun j x hj hd hf =>
      h.fetched j x hj hd (by rw [hio]; exact hf)
  refine hbase.complete ?_ halive ?_ h.len fun h1 hneed => ?_
  · change s.q.ref = 0 + unended s.rqs + 1
    omega
  · rw [h.replies, halive]
    rfl
  · -- there is no biorq, so it is a read of nothing
    have h1 : s.q.ref = 1 := h1
    have hnil : s.rqs = [] := length_eq_zero_iff.mp (by omega)
    have hlen : s.q.len = 0 := by simpa [hnil, endedLen] using h.len
    have hread : s.q.rw = .read := by
      cases hrw : s.q.rw with
      | read => rfl
      | write =>
        refine absurd ?_ (h.writes hrw)
        rw [← hok, hnil]
        rfl
    have hzero : (s.q.addLen 0).decref.len = 0 := by
      have := addLen_len_le s.q 0
      change (s.q.addLen 0).len = 0
      omega
    have hrw : (s.q.addLen 0).decref.rw = .read := (addLen_rw s.q 0).trans hread
    simp [Fsrq.needsCopied, hrw, hzero] at hneed

theorem release_inv (hst : step s .release = some t) : Inv t := by
  simp only [step, ioRelease] at hst
  split at hst
  · rename_i k hio
    have hz : s.io.hold = 0 := by rw [hio]; rfl
    have hlen := h.built hz
    split_ifs at hst with hk hk' <;> cases hst
    · obtain ⟨r, hr⟩ : ∃ r, s.rqs[k]? = some r := ⟨_, getElem?_eq_getElem hk'⟩
      have hrq := h.each k r hr
      have hend := (hrq.shape.of_idle (hrq.mine (by simp [hio, IoPc.ahead])) idle_ioTok).1
      rw [use_eq (h.alive hr hend)]
      refine h.move (.refl _) hz.symm (fun j hj => ?_) (by simp) fun j x hj hd hf =>
        h.fetched j x hj hd (by rw [hio]; exact hf)
      rw [hio]
      simp only [IoPc.ahead, decide_eq_true_eq] at hj ⊢
      exact hj.le
    · exact absurd (hlen ▸ hk) hk'
    · exact h.move (.refl _) hz.symm (by simp [IoPc.ahead]) (by simp) fun j x hj hd hf =>
        h.fetched j x hj hd (by rw [hio]; exact hf)
  · cases hst

theorem step_inv {l : Label} (hok : Safe s l) (hst : step s l = some t) : Inv t := by
  cases l with
  | bmap => exact bmap_inv h hst
  | launch => exact launch_inv h hst
  | aiowait => exact aiowait_inv h hst
  | launched => exact launched_inv h hst
  | next => exact next_inv h hst
  | drop => exact drop_inv h hok hst
  | release => exact release_inv h hst
  | seterr => exact seterr_inv h hst
  | pop => exact pop_inv h hst
  | readd => exact readd_inv h hst
  | check => exact check_inv h hok hst
  | copy => exact copy_inv h hst
  | reply => exact reply_inv h hst
  | schedflush => exact schedflush_inv h hst
  | decref => exact decref_inv h hst
  | wake => exact wake_inv h hst

end

end Tokens

theorem start_inv (dio : ℕ → Bool) (p : Request) (fsz : ℕ) (hnr : ¬ ioNr p fsz > maxBmapsReq)
    (hw : p.rw = .write → 0 < ioNr p fsz) : Inv (start dio p fsz) := by
  have hw' : p.rw = .write → (ioNr p fsz).toNat ≠ 0 := fun h => by
    have := hw h
    omega
  rw [start]
  split_ifs <;>
  exact ⟨⟨by simp, rfl, mslIoBiorqs_sum_le dio p fsz, length_mslIoBiorqs_le dio p fsz, by simp, by simp [IoPc.hold],
    hw', by simp, rfl, rfl⟩, rfl, by simp [mslFsrqinfoInit], rfl, zero_le _⟩

theorem step_refused {s : State} (hio : s.io = .done) (hrqs : s.rqs = []) (l : Label) : step s l = none := by
  cases l <;> simp [step, State.withTok, ioBmap, ioLaunch, ioAiowait, ioLaunched, ioNext, ioDrop, ioRelease, hio, hrqs]

/-- One reply, when all is done, and no use of the request after its last reference. -/
structure Sound (s : State) : Prop where
  once : s.replies ≤ 1
  ref : 0 ≤ s.q.ref
  asserts : s.q.failed = false
  unused : s.uaf = false
  sent : s.io = .done → (∀ r ∈ s.rqs, ∀ tk ∈ r.toks, tk.kind = .flush) → s.replies = 1

theorem Shape.ended_of_flush {rw : Rw} {ended flushrdy : Bool} {toks : List Tok} (h : Shape rw ended flushrdy toks)
    (hall : ∀ tk ∈ toks, tk.kind = .flush) : ended := by
  cases h with
  | working ne idle =>
    obtain ⟨tk, hm⟩ := exists_mem_of_ne_nil _ ne
    exact absurd (hall tk hm) (idle tk hm).1
  | copying hk => exact absurd (hall _ (mem_singleton.mpr rfl)) hk
  | replying hk => exact absurd (hall _ (mem_singleton.mpr rfl)) hk
  | _ => rfl

theorem Inv.sound {s : State} (h : Inv s) : Sound s where
  once := by
    rw [h.replies]
    split_ifs
    · exact le_rfl
    · exact zero_le _
  ref := by
    rw [h.ref]
    omega
  asserts := h.failed
  unused := h.uaf
  sent := fun hio hall => by
    have hzero : unended s.rqs = 0 := by
      refine sum_eq_zero fun x hx => ?_
      obtain ⟨r, hr, rfl⟩ := mem_map.mp hx
      obtain ⟨j, hj⟩ := mem_iff_getElem?.mp hr
      rw [(h.each j r hj).shape.ended_of_flush (hall r hr)]
      rfl
    have href := h.ref
    rw [hzero, hio] at href
    rw [h.replies, h.replied.mpr href]
    rfl

/-- **One reply**, for every request, if all steps are `Safe`. -/
theorem one_reply (dio : ℕ → Bool) (p : Request) (fsz : ℕ) (hw : p.rw = .write → 0 < ioNr p fsz) (ls : List Label)
    (hls : Admits step Safe (start dio p fsz) ls) {s : State} (hs : run step (start dio p fsz) ls = some s) :
    Sound s := by
  by_cases hnr : ioNr p fsz > maxBmapsReq
  · rw [start, if_pos hnr] at hs
    cases ls with
    | nil =>
      cases hs
      exact ⟨le_rfl, le_rfl, rfl, rfl, fun _ _ => rfl⟩
    | cons =>
      rw [run_cons, step_refused rfl rfl] at hs
      cases hs
  · exact (run_invariant (fun hs hc h => step_inv hs hc h) (start_inv dio p fsz hnr hw) hls hs).sound

def tenBytes : Request := ⟨.read, 0, 10, by decide⟩

def loaded : Page := { Page.fresh 0 fun _ => 1 with datardy := true }

/-- The RPC ends before `msl_io` gives the biorq up. -/
def readOnce : List Label :=
  [.bmap 0, .launch, .launched 0, .next false, .check 0 1, .drop, .release, .check 0 0, .copy 0 0 10 [loaded] [],
    .reply 0 0, .decref 0 0, .release]

theorem one_reply_read : ∃ s ∈ run step (start (fun _ => false) tenBytes 10) readOnce, s.replies = 1 ∧ Sound s := by
  have hrun : ∃ s ∈ run step (start (fun _ => false) tenBytes 10) readOnce,
      s.io = .done ∧ ∀ r ∈ s.rqs, ∀ tk ∈ r.toks, tk.kind = .flush := by decide +kernel
  obtain ⟨s, hs, hio, hall⟩ := hrun
  have hsound := one_reply (fun _ => false) tenBytes 10 (by decide) readOnce (by decide +kernel) hs
  exact ⟨s, hs, hsound.sent hio hall, hsound⟩

def atEof : Request := ⟨.read, 10, 10, by decide⟩

def twoParts : Request := ⟨.read, slashBmapSize - 1, 2, by decide⟩

def twoMegs : Request := ⟨.read, 0, 0x200000, by decide⟩

/-- Direct I/O with two RPCs. -/
def dioFails : List Label :=
  [.bmap 0, .launch, .launch, .seterr 0 2 (-5), .check 0 2, .wake 0, .launched (-5), .next false, .drop, .release,
    .check 0 0, .release, .check 0 0, .copy 0 0 0x200000 [] [], .reply 0 0, .decref 0 0, .wake 0]

/-- **The request is used after the reply**: at the end of the file, or without its second bmap. -/
theorem used_after_reply :
    (∃ s ∈ run step (start (fun _ => false) atEof 10) [.next false, .drop, .release], s.replies = 1 ∧ s.uaf = true) ∧
    (∃ s ∈ run step (start (fun _ => false) twoParts (slashBmapSize + 2))
        [.bmap 0, .bmap (-5), .next false, .drop, .release, .check 0 0, .copy 0 0 10 [] [], .reply 0 0, .decref 0 0,
          .release], s.replies = 1 ∧ s.uaf = true) ∧
    (∃ s ∈ run step (start (fun _ => true) twoMegs 0x200000) dioFails, s.replies = 1 ∧ s.uaf = true) := by
  decide +kernel

end Io.Refs
end Slash2.Client
