/-
# The lifetime of cached files

The reference count of a file is the number of references that calls and others have to it. In the middle of a step its
thread may have one more in hand: taking a reference puts one there, dropping one needs one there, and whoever keeps it
takes it out.

Key theorems: `sound_run`, `awaited_made`.
-/
import Slash2.Fidc.Cache
import Slash2.Lib.Run

namespace Slash2.Fidc

open Lib Lib.Holders List
open Option (bind_eq_some_iff)

structure Fcmh.Ok (f : Fcmh) : Prop where
  listed : f.onIdle ↔ f.refcnt = 0 ∧ f.fate = .hashed
  idle : f.idle → f.refcnt = 0
  flagged : f.onIdle → f.idle
  freed : f.fate ≠ .hashed → f.tofree ∧ f.refcnt = 0
  bad : f.bad → f.tofree
  fresh : f.initing → f.bad = false

def Fcmh.Live (f : Fcmh) : Prop := f.fate = .hashed ∧ f.tofree = false

def Pc.makes (id : ℕ) : Pc → ℕ
  | .ctor x => if x = id then 1 else 0
  | _ => 0

def State.makers (s : State) (id : ℕ) : ℕ := (s.calls.map (·.pc.makes id)).sum

/-- Initialised without error. -/
def State.Made (s : State) (id : ℕ) : Prop := ∃ f, s.fcmhs[id]? = some f ∧ f.initing = false ∧ f.bad = false

def State.Making (s : State) (id : ℕ) : Prop := ∃ f, s.fcmhs[id]? = some f ∧ f.initing ∧ f.waiting

/-- **The invariant**, with the references in hand. -/
structure Inv (e : ℕ → ℕ) (s : State) : Prop where
  alive : s.failed = false
  files : ∀ (id : ℕ) f, s.fcmhs[id]? = some f → f.Ok
  books : Books Fcmh.refcnt Fcmh.Live Fcmh.fid (fun x c => c.pc.refs x) e s.fcmhs s.held s.calls
  makers : ∀ (id : ℕ) f, s.fcmhs[id]? = some f → s.makers id = if f.initing then 1 else 0
  waits : ∀ c ∈ s.calls, ∀ id, c.pc = .waiting id → s.Making id
  held : ∀ id ∈ s.held, s.Made id
  rets : ∀ c ∈ s.calls, ∀ id, c.pc = .ret (some id) → s.Made id

variable {s t : State} {e e' : ℕ → ℕ} {id : ℕ} {f g : Fcmh} {i : ℕ} {c c' : Call}

theorem Pc.makes_le_refs (pc : Pc) (id : ℕ) : pc.makes id ≤ pc.refs id := by
  cases pc <;> simp [Pc.makes, Pc.refs]

theorem getElem?_setFcmh (hf : s.fcmhs[id]? = some f) : (s.setFcmh id g).fcmhs[id]? = some g :=
  getElem?_set_self (List.getElem?_eq_some_iff.mp hf).1

theorem lt_length (hf : s.fcmhs[id]? = some f) : id < s.fcmhs.length := (List.getElem?_eq_some_iff.mp hf).1

theorem Inv.counted (h : Inv e s) (hf : s.fcmhs[id]? = some f) : f.refcnt = s.refs id + e id := h.books.counted id f hf

/-! ### Waking up -/

theorem wake_refs (id x : ℕ) (c : Call) : (c.wake id).pc.refs x = c.pc.refs x := by
  unfold Call.wake
  split_ifs with h
  · rw [h]
    rfl
  · rfl

theorem wake_makes (id x : ℕ) (c : Call) : (c.wake id).pc.makes x = c.pc.makes x := by
  unfold Call.wake
  split_ifs with h
  · rw [h]
    rfl
  · rfl

theorem refs_wake (s : State) (id x : ℕ) : (s.wake id).refs x = s.refs x := refs_map fun c => wake_refs id x c

theorem makers_wake (s : State) (id x : ℕ) : (s.wake id).makers x = s.makers x := by
  simp only [State.makers, State.wake, map_map]
  exact congrArg _ (map_congr_left fun c _ => wake_makes id x c)

variable {x : ℕ}

theorem wake_waiting (h : (c.wake id).pc = .waiting x) : c.pc = .waiting x ∧ x ≠ id := by
  unfold Call.wake at h
  split_ifs at h with hc
  refine ⟨h, ?_⟩
  rintro rfl
  exact hc h

variable {r : Option ℕ}

theorem wake_ret (h : (c.wake id).pc = .ret r) : c.pc = .ret r := by
  unfold Call.wake at h
  split_ifs at h
  exact h

theorem Inv.wake (h : Inv e s) (id : ℕ) : Inv e (s.wake id) where
  alive := h.alive
  files := h.files
  books := h.books.of_refs (refs_wake s id)
  makers x f hf := (makers_wake s id x).trans (h.makers x f hf)
  waits a ha x hx := by
    obtain ⟨c, hc, rfl⟩ := mem_map.mp ha
    exact h.waits c hc x (wake_waiting hx).1
  held := h.held
  rets a ha x hx := by
    obtain ⟨c, hc, rfl⟩ := mem_map.mp ha
    exact h.rets c hc x (wake_ret hx)

theorem made_setFcmh (hf : s.fcmhs[id]? = some f) (hinit : g.initing = f.initing) (hbad : g.bad = f.bad)
    (h : s.Made x) : (s.setFcmh id g).Made x :=
  exists_getElem?_set hf (fun h => ⟨hinit.trans h.1, hbad.trans h.2⟩) h

theorem making_setFcmh (hf : s.fcmhs[id]? = some f) (hinit : g.initing = f.initing)
    (hwait : f.waiting → g.waiting) (h : s.Making x) : (s.setFcmh id g).Making x :=
  exists_getElem?_set hf (fun h => ⟨hinit.trans h.1, hwait h.2⟩) h

theorem Inv.setFcmh (h : Inv e s) (hf : s.fcmhs[id]? = some f) (hok : g.Ok) (hfid : g.fid = f.fid)
    (hlive : g.Live → f.Live) (hinit : g.initing = f.initing) (hwait : f.waiting → g.waiting) (hbad : g.bad = f.bad)
    (hcount : g.refcnt + e id = f.refcnt + e' id) (he : ∀ x, x ≠ id → e' x = e x) : Inv e' (s.setFcmh id g) where
  alive := h.alive
  files x f' hx := by
    rcases getElem?_set_cases hx with ⟨-, rfl⟩ | ⟨-, hx⟩
    · exact hok
    · exact h.files x f' hx
  books := h.books.set hf hfid hlive hcount he
  makers x f' hx := by
    rcases getElem?_set_cases hx with ⟨rfl, rfl⟩ | ⟨-, hx⟩
    · rw [hinit]
      exact h.makers x f hf
    · exact h.makers x f' hx
  waits c hc x hx := making_setFcmh hf hinit hwait (h.waits c hc x hx)
  held x hx := made_setFcmh hf hinit hbad (h.held x hx)
  rets c hc x hx := made_setFcmh hf hinit hbad (h.rets c hc x hx)

theorem refs_setCall (c' : Call) (hi : s.calls[i]? = some c) (x : ℕ) :
    (s.setCall i c').refs x + c.pc.refs x = s.refs x + c'.pc.refs x := refs_set hi x

theorem makers_setCall (c' : Call) (hi : s.calls[i]? = some c) (x : ℕ) :
    (s.setCall i c').makers x + c.pc.makes x = s.makers x + c'.pc.makes x :=
  sum_map_set (·.pc.makes x) hi

theorem Inv.setCall (h : Inv e s) (hi : s.calls[i]? = some c)
    (hrefs : ∀ x, c'.pc.refs x + e' x = c.pc.refs x + e x) (hmake : ∀ x, c'.pc.makes x = c.pc.makes x)
    (hknown : ∀ x, s.fcmhs.length ≤ x → c'.pc.refs x = 0)
    (hwait : ∀ x, c'.pc = .waiting x → s.Making x) (hret : ∀ x, c'.pc = .ret (some x) → s.Made x) :
    Inv e' (s.setCall i c') where
  alive := h.alive
  files := h.files
  books := h.books.setCall hi hrefs hknown
  makers x f hf := by
    have := makers_setCall c' hi x
    have := hmake x
    have := h.makers x f hf
    omega
  waits := forall_mem_set h.waits fun x hx => hwait x hx
  held := h.held
  rets := forall_mem_set h.rets fun x hx => hret x hx

theorem Inv.hold (h : Inv (hand id) s) (hm : s.Made id) : Inv nohand { s with held := id :: s.held } where
  alive := h.alive
  files := h.files
  books := by
    obtain ⟨f, hf, -⟩ := hm
    exact h.books.hold (lt_length hf)
  makers := h.makers
  waits := h.waits
  held := forall_mem_cons.mpr ⟨hm, h.held⟩
  rets := h.rets

theorem Inv.unhold (h : Inv nohand s) (hid : id ∈ s.held) : Inv (hand id) { s with held := s.held.erase id } where
  alive := h.alive
  files := h.files
  books := h.books.unhold hid
  makers := h.makers
  waits := h.waits
  held x hx := h.held x (mem_of_mem_erase hx)
  rets := h.rets

theorem Fcmh.Ok.opStart (h : f.Ok) (hl : f.fate = .hashed) : f.opStart.Ok where
  listed := by
    have := h.flagged
    simp only [Fcmh.opStart]
    cases hi : f.onIdle <;> simp_all
  idle := by simp [Fcmh.opStart]
  flagged hi := by
    have := h.flagged
    simp only [Fcmh.opStart] at hi ⊢
    cases hon : f.onIdle <;> simp_all
  freed hne := absurd hl hne
  bad := h.bad
  fresh := h.fresh

theorem Inv.opStart (h : Inv nohand s) (hf : s.fcmhs[id]? = some f) (hl : f.fate = .hashed) :
    Inv (hand id) (s.setFcmh id f.opStart) := by
  refine h.setFcmh hf ((h.files id f hf).opStart hl) rfl (fun h => h) rfl (fun h => h) rfl ?_ fun x hx => ?_
  · simp [Fcmh.opStart, nohand, hand]
  · simp [nohand, hand, hx]

theorem Inv.opDone (h : Inv (hand id) s) (hf : s.fcmhs[id]? = some f) : Inv nohand (s.opDone id f) := by
  have hok := h.files id f hf
  have hcount := h.counted hf
  have hpos : f.refcnt ≠ 0 := by
    simp only [hand, if_true] at hcount
    omega
  have hhashed : f.fate = .hashed := by
    by_contra hne
    exact hpos (hok.freed hne).2
  have hidle : f.idle = false := by
    by_contra hi
    exact hpos (hok.idle (by simpa using hi))
  have hlisted : f.onIdle = false := by
    by_contra hi
    exact hpos (hok.listed.mp (by simpa using hi)).1
  have he (x : ℕ) (hx : x ≠ id) : nohand x = hand id x := by simp [nohand, hand, hx]
  unfold State.opDone
  rw [if_neg hpos]
  split_ifs with hone hctor
  · -- the constructor has failed: it is freed at once
    refine h.setFcmh hf ⟨?_, ?_, ?_, ?_, ?_, ?_⟩ rfl ?_ rfl (fun h => h) rfl ?_ he
    · simp [hlisted]
    · exact fun _ => rfl
    · simp [hlisted]
    · exact fun _ => ⟨rfl, rfl⟩
    · exact fun _ => rfl
    · exact hok.fresh
    · exact fun hl => absurd hl.2 Bool.noConfusion
    · simp [hone, hand, nohand]
  · exact absurd ‹f.idle = true› (by simp [hidle])
  · apply Inv.wake
    refine h.setFcmh hf ⟨?_, ?_, ?_, ?_, ?_, ?_⟩ rfl (fun h => h) rfl (fun h => h) rfl ?_ he
    · simp [hhashed]
    · exact fun _ => rfl
    · exact fun _ => rfl
    · exact fun hne => absurd hhashed hne
    · exact hok.bad
    · exact hok.fresh
    · simp [hone, hand, nohand]
  · apply Inv.wake
    refine h.setFcmh hf ⟨?_, ?_, ?_, ?_, ?_, ?_⟩ rfl (fun h => h) rfl (fun h => h) rfl ?_ he
    · have : f.refcnt - 1 ≠ 0 := by omega
      simp [hlisted, this]
    · simp [hidle]
    · simp [hlisted]
    · exact fun hne => absurd hhashed hne
    · exact hok.bad
    · exact hok.fresh
    · simp only [hand, nohand, if_true]
      omega

theorem Fcmh.Ok.hashed_of_refcnt (h : f.Ok) (hpos : f.refcnt ≠ 0) : f.fate = .hashed := by
  by_contra hne
  exact hpos (h.freed hne).2

theorem scan_some {fid : ℕ} (h : Inv e s) (hs : s.scan fid = some id) :
    ∃ f, s.fcmhs[id]? = some f ∧ f.Live ∧ f.fid = fid := by
  obtain ⟨hlt, hp, -⟩ := findIdx?_eq_some_iff_getElem.mp hs
  have hf : s.fcmhs[id]? = some s.fcmhs[id] := getElem?_eq_getElem hlt
  simp only [Bool.and_eq_true, beq_iff_eq, Bool.not_eq_true'] at hp
  refine ⟨_, hf, ⟨?_, hp.2⟩, hp.1.2⟩
  by_contra hne
  exact absurd ((h.files id _ hf).freed hne).1 (by simp [hp.2])

theorem scan_none {fid : ℕ} (hs : s.scan fid = none) (hf : s.fcmhs[id]? = some f) (hl : f.Live) : f.fid ≠ fid := by
  have := findIdx?_eq_none_iff.mp hs f (mem_of_getElem? hf)
  rintro rfl
  simp [Fcmh.inTable, hl.1, hl.2] at this

theorem Inv.ret (h : Inv e s) (hi : s.calls[i]? = some c) (hpc : c.pc = .search)
    (hr : ∀ x, r = some x → s.Made x) : Inv e (s.setCall i { c with pc := .ret r }) := by
  refine h.setCall hi (fun x => by rw [hpc]; rfl) (fun x => by rw [hpc]; rfl) (fun _ _ => rfl) (fun x hx => nomatch hx) ?_
  intro x hx
  exact hr x (Pc.ret.inj hx)

section
variable (h : Inv nohand s) (hi : s.calls[i]? = some c) (hpc : c.pc = .search)
include h hi hpc

theorem found_inv (hf : s.fcmhs[id]? = some f) (hl : f.Live) (hinit : f.initing = false) (m : Option Modify) :
    Inv nohand (found s i c id f m) := by
  have hbad : f.bad = false := by
    by_contra hb
    have := (h.files id f hf).bad (by simpa using hb)
    exact absurd this (by simp [hl.2])
  have hmade : s.Made id := ⟨f, hf, hinit, hbad⟩
  have hstart := h.opStart hf hl.1
  -- `sfop_modify` changes only a flag that the invariant does not mention
  have hmod (b : Bool) : Inv (hand id) (s.setFcmh id { f.opStart with ctorFailed := b }) := by
    have hok := hstart.files id _ (getElem?_setFcmh hf)
    refine h.setFcmh hf { hok with } rfl (fun h => h) rfl (fun h => h) rfl ?_ fun x hx => ?_
    · simp [Fcmh.opStart, nohand, hand]
    · simp [nohand, hand, hx]
  unfold found
  cases m with
  | none =>
    have hret := hstart.ret hi hpc fun x hx => Option.some.inj hx ▸ made_setFcmh hf rfl rfl hmade
    exact hret.hold (made_setFcmh hf rfl rfl hmade)
  | some m =>
    simp only
    split_ifs
    · have hret := (hmod m.ctorFailed).ret hi hpc fun x hx => Option.some.inj hx ▸ made_setFcmh hf rfl rfl hmade
      exact hret.hold (made_setFcmh hf rfl rfl hmade)
    · have hret := (hmod m.ctorFailed).ret (r := none) hi hpc fun x hx => by cases hx
      exact hret.opDone (getElem?_setFcmh hf)

theorem create_inv (hs : s.scan c.fid = none) :
    Inv nohand { s.setCall i { c with pc := .ctor s.fcmhs.length } with fcmhs := s.fcmhs ++ [Fcmh.new c.fid] } := by
  set c' : Call := { c with pc := .ctor s.fcmhs.length } with hc'
  have hold {x : ℕ} {f : Fcmh} (hx : s.fcmhs[x]? = some f) : (s.fcmhs ++ [Fcmh.new c.fid])[x]? = some f :=
    getElem?_append_left (lt_length hx) ▸ hx
  have hmakers (x : ℕ) : (s.setCall i c').makers x = s.makers x + if s.fcmhs.length = x then 1 else 0 := by
    have := makers_setCall c' hi x
    rw [hpc] at this
    exact this
  refine ⟨h.alive, ?_, ?_, ?_, fun a ha x hx => ?_, fun x hx => ?_, fun a ha x hx => ?_⟩
  · refine forall_getElem?_snoc h.files ⟨?_, ?_, ?_, ?_, ?_, ?_⟩ <;> simp [Fcmh.new]
  · -- the scan has found no file of the FID
    refine (h.books.snoc rfl fun x f hf hl => scan_none hs hf hl).setCall hi (fun x => ?_) fun x hx => ?_
    · simp [hpc, hc', Pc.refs, hand, nohand, eq_comm]
    · rw [length_append] at hx
      exact if_neg (Nat.lt_of_lt_of_le (Nat.lt_succ_self _) hx).ne
  · refine forall_getElem?_snoc (fun x f hf => ?_) ?_
    · change (s.setCall i c').makers x = _
      rw [hmakers, if_neg (lt_length hf).ne']
      exact h.makers x f hf
    · change (s.setCall i c').makers _ = _
      have hle : s.makers s.fcmhs.length ≤ s.refs s.fcmhs.length := by
        refine le_trans (sum_le_sum fun c _ => c.pc.makes_le_refs _) (Nat.le_add_left _ _)
      have : s.refs _ = 0 := h.books.known _ le_rfl
      rw [hmakers]
      simp only [Fcmh.new, if_true]
      omega
  · rcases mem_or_eq_of_mem_set ha with ha | rfl
    · obtain ⟨f, hf, hm⟩ := h.waits a ha x hx
      exact ⟨f, hold hf, hm⟩
    · cases hx
  · obtain ⟨f, hf, hm⟩ := h.held x hx
    exact ⟨f, hold hf, hm⟩
  · rcases mem_or_eq_of_mem_set ha with ha | rfl
    · obtain ⟨f, hf, hm⟩ := h.rets a ha x hx
      exact ⟨f, hold hf, hm⟩
    · cases hx

theorem search_inv {m : Option Modify} (hs : search s i c m = some t) : Inv nohand t := by
  unfold search at hs
  split at hs
  · next id hscan =>
    obtain ⟨f, hf, hl, -⟩ := scan_some h hscan
    obtain ⟨f', hf', hs⟩ := bind_eq_some_iff.mp hs
    obtain rfl := Option.some.inj (hf.symm.trans hf')
    split_ifs at hs with hinit
    · -- another call makes the file: wait, with a reference
      cases hs
      have hok := ((h.files id f hf).opStart hl.1)
      have hwait : Inv (hand id) (s.setFcmh id { f.opStart with waiting := true }) := by
        refine h.setFcmh hf { hok with } rfl (fun h => h) rfl (fun _ => rfl) rfl ?_ fun x hx => ?_
        · simp [Fcmh.opStart, nohand, hand]
        · simp [nohand, hand, hx]
      refine hwait.setCall hi (fun x => ?_) (fun x => ?_) (fun x hx => ?_) (fun x hx => ?_) fun x hx => by cases hx
      · rw [hpc]
        simp [Pc.refs, hand, nohand, eq_comm]
      · rw [hpc]
        rfl
      · have hx : s.fcmhs.length ≤ x := by simpa [State.setFcmh] using hx
        exact if_neg (Nat.lt_of_lt_of_le (lt_length hf) hx).ne
      · obtain rfl := Pc.waiting.inj hx
        exact ⟨_, getElem?_setFcmh hf, hinit, rfl⟩
    · cases hs
      exact found_inv h hi hpc hf hl (by simpa using hinit) m
  · next hscan =>
    split_ifs at hs with hcreate htried <;> cases hs
    · exact create_inv h hi hpc hscan
    · refine h.setCall hi (fun _ => rfl) (fun _ => rfl) (fun x _ => ?_) (fun x hx => ?_) fun x hx => ?_
      · simp [hpc, Pc.refs]
      · cases hpc.symm.trans hx
      · cases hpc.symm.trans hx
    · exact h.ret hi hpc fun x hx => by cases hx

end

theorem Inv.refcnt_ne_zero (h : Inv e s) (hi : s.calls[i]? = some c) (hc : c.pc.refs id ≠ 0)
    (hf : s.fcmhs[id]? = some f) : f.refcnt ≠ 0 := by
  have hcount := h.counted hf
  have hle : c.pc.refs id ≤ s.refs id := le_refs (fun x c => c.pc.refs x) hi
  omega

theorem Inv.initing_of_ctor (h : Inv e s) (hi : s.calls[i]? = some c) (hpc : c.pc = .ctor id)
    (hf : s.fcmhs[id]? = some f) : f.initing := by
  have hone := h.makers id f hf
  have := makers_setCall { c with pc := .search } hi id
  rw [hpc] at this
  simp only [Pc.makes, if_true] at this
  by_contra hno
  rw [if_neg hno] at hone
  omega

section
variable (h : Inv nohand s) (hi : s.calls[i]? = some c) (hpc : c.pc = .ctor id) (hf : s.fcmhs[id]? = some f)
include h hi hpc hf

theorem Inv.made (hnowait : ∀ a ∈ s.calls, a.pc ≠ .waiting id) (hok : g.Ok)
    (hfid : g.fid = f.fid) (hlive : g.Live → f.Live) (hinit : g.initing = false) (hcount : g.refcnt = f.refcnt)
    (hr : ∀ x, r = some x → x = id ∧ g.bad = false) :
    Inv (hand id) ((s.setCall i { c with pc := .ret r }).setFcmh id g) := by
  set c' : Call := { c with pc := .ret r } with hc'
  have hmakers (x : ℕ) : (s.setCall i c').makers x + hand id x = s.makers x := by
    have := makers_setCall c' hi x
    rw [hpc] at this
    simpa [Pc.makes, hand, hc', eq_comm] using this
  have hiniting : f.initing := h.initing_of_ctor hi hpc hf
  have hone := h.makers id f hf
  rw [if_pos hiniting] at hone
  -- what was made before is another file
  have hmade {x : ℕ} (hx : s.Made x) : ((s.setCall i c').setFcmh id g).Made x := by
    obtain ⟨f', hf', hno, hb⟩ := hx
    have hne : id ≠ x := by
      rintro rfl
      obtain rfl := Option.some.inj (hf.symm.trans hf')
      exact absurd hiniting (by simp [hno])
    exact ⟨f', (getElem?_set_ne hne).trans hf', hno, hb⟩
  refine ⟨h.alive, fun x f' hx => ?_, ?_, fun x f' hx => ?_, fun a ha x hx => ?_, fun x hx => hmade (h.held x hx),
    fun a ha x hx => ?_⟩
  · rcases getElem?_set_cases hx with ⟨-, rfl⟩ | ⟨-, hx⟩
    · exact hok
    · exact h.files x f' hx
  · refine (h.books.setCall hi (fun x => ?_) fun _ _ => rfl).set hf hfid hlive (congrArg (· + _) hcount) fun _ _ => rfl
    simp [hpc, hc', Pc.refs, hand, nohand, eq_comm]
  · change (s.setCall i c').makers x = _
    have hx' := hmakers x
    rcases getElem?_set_cases hx with ⟨rfl, rfl⟩ | ⟨hne, hx⟩
    · rw [hand, if_pos rfl] at hx'
      simp only [hinit, Bool.false_eq_true, if_false]
      omega
    · rw [hand, if_neg hne] at hx'
      exact hx'.trans (h.makers x f' hx)
  · rcases mem_or_eq_of_mem_set ha with ha | rfl
    · obtain ⟨f', hf', hm⟩ := h.waits a ha x hx
      have hne : id ≠ x := by
        rintro rfl
        exact hnowait a ha hx
      exact ⟨f', (getElem?_set_ne hne).trans hf', hm⟩
    · cases hx
  · rcases mem_or_eq_of_mem_set ha with ha | rfl
    · exact hmade (h.rets a ha x hx)
    · obtain ⟨rfl, hb⟩ := hr x (Pc.ret.inj hx)
      exact ⟨g, getElem?_set_self (lt_length hf), hinit, hb⟩

theorem finish_inv {r : Outcome} : Inv nohand (finish s i c id f r) := by
  -- nobody waits when everybody who did was woken up
  obtain ⟨s', hs', h', hi', hfcmhs, hheld, hnowait⟩ : ∃ s', (if f.waiting then s.wake id else s) = s' ∧ Inv nohand s' ∧
      s'.calls[i]? = some c ∧ s'.fcmhs = s.fcmhs ∧ s'.held = s.held ∧ ∀ a ∈ s'.calls, a.pc ≠ .waiting id := by
    by_cases hw : f.waiting
    · refine ⟨s.wake id, if_pos hw, h.wake id, ?_, rfl, rfl, fun a ha hwait => ?_⟩
      · have hc : c.wake id = c := by simp [Call.wake, hpc]
        simp only [State.wake, getElem?_map, hi, Option.map_some, hc]
      · obtain ⟨a, -, rfl⟩ := mem_map.mp ha
        exact (wake_waiting hwait).2 rfl
    refine ⟨s, if_neg hw, h, hi, rfl, rfl, fun a ha hwait => ?_⟩
    obtain ⟨f', hf', -, hw'⟩ := h.waits a ha id hwait
    obtain rfl := Option.some.inj (hf.symm.trans hf')
    exact hw hw'
  have hf' : s'.fcmhs[id]? = some f := hfcmhs ▸ hf
  have hok := h'.files id f hf'
  have hiniting : f.initing := h.initing_of_ctor hi hpc hf
  have hpos : f.refcnt ≠ 0 := h.refcnt_ne_zero hi (by simp [hpc, Pc.refs]) hf
  unfold finish
  simp only [hs']
  split_ifs
  · -- the file was made: one reference more, for the caller
    have hmade := h'.made (g := f.finish r) hi' hpc hf' hnowait { hok with fresh := fun h => nomatch h }
      rfl (fun h => h) rfl rfl fun x hx => ⟨(Option.some.inj hx).symm, hok.fresh hiniting⟩
    have hget : (s'.fcmhs.set id (f.finish r))[id]? = some (f.finish r) := getElem?_set_self (lt_length hf')
    have hstart := (hmade.hold ⟨_, hget, rfl, hok.fresh hiniting⟩).opStart hget (hok.hashed_of_refcnt hpos)
    simp only [State.setFcmh, set_set] at hstart
    exact hstart.opDone (getElem?_set_self (lt_length hf'))
  · have hbad : (f.finish r).fail.Ok :=
      { hok with
        fresh := fun h => nomatch h
        freed := fun h => And.intro rfl (hok.freed h).2
        bad := fun _ => rfl }
    have hmade := h'.made (r := none) hi' hpc hf' hnowait hbad rfl
      (fun h => absurd h.2 Bool.noConfusion) rfl rfl fun x hx => nomatch hx
    exact hmade.opDone (getElem?_set_self (lt_length hf'))

end

theorem Inv.hashed_of_held (h : Inv e s) (hid : id ∈ s.held) (hf : s.fcmhs[id]? = some f) : f.fate = .hashed := by
  apply (h.files id f hf).hashed_of_refcnt
  have hcount := h.counted hf
  have hpos : 0 < s.refs id := refs_pos_of_held hid
  omega

theorem resume_inv (h : Inv nohand s) (hi : s.calls[i]? = some c) (hpc : c.pc = .woken id)
    (hf : s.fcmhs[id]? = some f) : Inv nohand ((s.setCall i { c with pc := .search }).opDone id f) := by
  have hcall : Inv (hand id) (s.setCall i { c with pc := .search }) := by
    refine h.setCall hi (fun x => ?_) (fun x => ?_) (fun _ _ => rfl) (fun x hx => nomatch hx) fun x hx => nomatch hx
    · rw [hpc]
      simp [Pc.refs, hand, nohand, eq_comm]
    · rw [hpc]
      rfl
  exact hcall.opDone hf

theorem Inv.free (h : Inv nohand s) (hf : s.fcmhs[id]? = some f) (hfate : f.fate ≠ .hashed) {fate : Fate}
    (hnew : fate ≠ .hashed) : Inv nohand (s.setFcmh id { f with fate }) := by
  have hok := h.files id f hf
  have hlisted : f.onIdle = false := by
    by_contra hi
    exact hfate (hok.listed.mp (by simpa using hi)).2
  refine h.setFcmh hf ?_ rfl (fun hl => absurd hl.1 hnew) rfl (fun h => h) rfl rfl fun _ _ => rfl
  exact { hok with
    listed := by simp [hlisted, hnew]
    freed := fun _ => hok.freed hfate }

theorem step_inv {o : Op} (h : Inv nohand s) (hs : step s o = some t) : Inv nohand t := by
  cases o with
  | lookup fid create load =>
    cases hs
    have hmakers (x : ℕ) :
        { s with calls := s.calls ++ [Call.begin fid create load] }.makers x = s.makers x := by
      simp [State.makers, Pc.makes, Call.begin]
    have hcall {a : Call} (ha : a ∈ s.calls ++ [Call.begin fid create load]) : a ∈ s.calls ∨ a.pc = .search := by
      rcases mem_append.mp ha with ha | ha
      · exact .inl ha
      · exact .inr (mem_singleton.mp ha ▸ rfl)
    exact { h with
      books := h.books.of_refs fun _ => refs_snoc rfl
      makers := fun x f hf => (hmakers x).trans (h.makers x f hf)
      waits := fun a ha x hx => (hcall ha).elim (h.waits a · x hx) fun hpc => by cases hpc.symm.trans hx
      rets := fun a ha x hx => (hcall ha).elim (h.rets a · x hx) fun hpc => by cases hpc.symm.trans hx }
  | search =>
    obtain ⟨c, hc, hs⟩ := bind_eq_some_iff.mp hs
    split_ifs at hs with hpc
    exact search_inv h hc hpc hs
  | resume =>
    obtain ⟨c, hc, hs⟩ := bind_eq_some_iff.mp hs
    split at hs
    · next id hpc =>
      obtain ⟨f, hf, hs⟩ := bind_eq_some_iff.mp hs
      cases hs
      exact resume_inv h hc hpc hf
    · cases hs
  | finish =>
    obtain ⟨c, hc, hs⟩ := bind_eq_some_iff.mp hs
    split at hs
    · next id hpc =>
      obtain ⟨f, hf, -, rfl⟩ := bind_unless hs
      exact finish_inv h hc hpc hf
    · cases hs
  | opStart id =>
    obtain ⟨f, hf, hid, rfl⟩ := bind_guard hs
    exact (h.opStart hf (h.hashed_of_held hid hf)).hold (made_setFcmh hf rfl rfl (h.held id hid))
  | opDone =>
    obtain ⟨f, hf, hid, rfl⟩ := bind_guard hs
    exact (h.unhold hid).opDone hf
  | reap id =>
    obtain ⟨f, hf, hs⟩ := bind_eq_some_iff.mp hs
    have hok := h.files id f hf
    split_ifs at hs with hon hassert
    · cases hs
      refine h.setFcmh hf ⟨?_, hok.idle, ?_, ?_, fun _ => rfl, hok.fresh⟩ rfl ?_ rfl (fun h => h) rfl rfl fun _ _ => rfl
      · simp
      · simp
      · exact fun _ => ⟨rfl, hassert.1⟩
      · exact fun hl => absurd hl.2 Bool.noConfusion
    · exact absurd ⟨(hok.listed.mp hon).1, hok.flagged hon⟩ hassert
  | remove =>
    obtain ⟨f, hf, hfate, rfl⟩ := bind_guard hs
    exact h.free hf (by simp [hfate]) (by decide)
  | destroy id =>
    obtain ⟨f, hf, hs⟩ := bind_eq_some_iff.mp hs
    split_ifs at hs with hfate hassert
    · cases hs
      exact h.free hf (by simp [hfate]) (by decide)
    have hzero := ((h.files id f hf).freed (by simp [hfate])).2
    refine absurd ⟨hzero, fun c hc hwait => ?_⟩ hassert
    obtain ⟨i, hi⟩ := mem_iff_getElem?.mp hc
    exact h.refcnt_ne_zero hi (by simp [hwait, Pc.refs]) hf hzero

theorem inv_init : Inv nohand State.init where
  alive := rfl
  files _ _ h := by simp [State.init] at h
  books := ⟨fun _ _ h => by simp [State.init] at h, fun _ _ => rfl, fun _ _ _ _ h => by simp [State.init] at h⟩
  makers _ _ h := by simp [State.init] at h
  waits _ h := absurd h not_mem_nil
  held _ h := absurd h not_mem_nil
  rets _ h := absurd h not_mem_nil

theorem refs_opDone (s : State) (id : ℕ) (f : Fcmh) (x : ℕ) : (s.opDone id f).refs x = s.refs x := by
  unfold State.opDone
  split_ifs
  · rfl
  · rfl
  · rfl
  · exact refs_wake _ id x
  · exact refs_wake _ id x

theorem opDone_search (s : State) (id : ℕ) (f : Fcmh) (hi : s.calls[i]? = some c) (hpc : c.pc = .search) :
    ((s.opDone id f).calls[i]?).map Call.pc = some .search := by
  have hwake : c.wake id = c := by simp [Call.wake, hpc]
  unfold State.opDone
  split_ifs <;> simp [State.setFcmh, State.wake, hi, hwake, hpc]

theorem Inv.sound (h : Inv nohand s) : Sound s where
  asserts := h.alive
  unique i j f g hf hg hin hin' hno hno' heq := by
    have hlive {id : ℕ} {f : Fcmh} (hf : s.fcmhs[id]? = some f) (hno : f.tofree = false) : f.Live := by
      refine ⟨?_, hno⟩
      by_contra hne
      exact absurd ((h.files id f hf).freed hne).1 (by simp [hno])
    exact h.books.unique i j f g hf hg (hlive hf hno) (hlive hg hno') heq
  idle id f hf := by
    have hok := h.files id f hf
    exact ⟨fun hon => ⟨hok.flagged hon, hok.listed.mp hon⟩, fun hon => hok.listed.mpr hon.2⟩
  busy id f hf hoff := by
    by_contra hno
    obtain ⟨hzero, hhashed⟩ := not_or.mp hno
    have := (h.files id f hf).listed.mpr ⟨Nat.eq_zero_of_not_pos hzero, not_not.mp hhashed⟩
    exact absurd this (by simp [hoff])
  counted _ _ := h.counted
  lifetime id f hf hfate := (h.counted hf).symm.trans ((h.files id f hf).freed hfate).2
  waiters c hc id hpc := by
    obtain ⟨f, hf, hinit, -⟩ := h.waits c hc id hpc
    exact ⟨f, hf, hinit⟩
  woken i c id hi hpc := by
    have hrefs := refs_setCall { c with pc := .search } hi id
    simp only [hpc, Pc.refs, if_true] at hrefs
    obtain ⟨f, hf⟩ : ∃ f, s.fcmhs[id]? = some f := by
      rcases Nat.lt_or_ge id s.fcmhs.length with hlt | hge
      · exact ⟨_, getElem?_eq_getElem hlt⟩
      · have : s.refs id = 0 := h.books.known id hge
        omega
    refine ⟨f, _, hf, by simp only [step, hi, Option.bind_eq_bind, Option.bind_some, hpc, hf]; rfl, ?_, ?_⟩
    · rw [refs_opDone]
      exact hrefs
    · exact opDone_search _ id f (getElem?_set_self (List.getElem?_eq_some_iff.mp hi).1) rfl
  returned c hc id hpc := by
    obtain ⟨f, hf, -, hbad⟩ := h.rets c hc id hpc
    exact ⟨f, hf, hbad⟩

/-- **The cache of files is sound** in every run of any calls. -/
theorem sound_run (os : List Op) (t : State) (h : run step State.init os = some t) : Sound t :=
  (run_keeps step_inv inv_init h).sound

def contended : List Op :=
  [.lookup 7 true false, .search 0 none, .search 0 none, .lookup 7 true false, .search 1 none,
    .finish 0 .ctorFailed, .resume 1, .remove 0, .destroy 0]

theorem sound_run_contended : ∃ t ∈ run step State.init contended, Sound t ∧ t.fcmhs.map Fcmh.fate = [.destroyed] := by
  have h : ∃ t ∈ run step State.init contended, t.fcmhs.map Fcmh.fate = [.destroyed] := by decide +kernel
  obtain ⟨t, ht, hfate⟩ := h
  exact ⟨t, ht, sound_run contended t ht, hfate⟩

/-- Who waited for a failed constructor searches again. -/
theorem waiter_served : (∃ t ∈ run step State.init (contended ++ [.search 1 none, .search 1 none, .finish 1 .ok]),
      ∃ c ∈ t.calls, ∃ id ∈ c.awaited, (t.fcmhs[id]?).map Fcmh.ctorFailed = some true ∧ c.pc = .ret (some 1)) ∧
    ∃ t ∈ run step State.init [.lookup 7 true true, .search 0 none, .search 0 none, .finish 0 .loadFailed],
      ∃ f ∈ t.fcmhs, f.onIdle ∧ f.tofree := by
  constructor <;> decide +kernel

/-- **Nobody waits in vain**: one call makes the file. Those in use are made. -/
theorem awaited_made (os : List Op) (t : State) (h : run step State.init os = some t) :
    (∀ c ∈ t.calls, ∀ id, c.pc = .waiting id → t.makers id = 1) ∧ ∀ id ∈ t.held, t.Made id := by
  have hi := run_keeps step_inv inv_init h
  refine ⟨fun c hc id hw => ?_, hi.held⟩
  obtain ⟨f, hf, hinit, -⟩ := hi.waits c hc id hw
  rw [hi.makers id f hf, if_pos hinit]

theorem awaited_made_contended : ∃ t : State, (∃ c ∈ t.calls, c.pc = .waiting 0) ∧ t.makers 0 = 1 := by
  obtain ⟨t, ht, c, hc, hw⟩ : ∃ t ∈ run step State.init (contended.take 5), ∃ c ∈ t.calls, c.pc = .waiting 0 := by
    decide +kernel
  exact ⟨t, ⟨c, hc, hw⟩, (awaited_made _ t ht).1 c hc 0 hw⟩

end Slash2.Fidc
