/-
# The lifetime of cached bmaps

The operation count of a bmap is the number of references to it, with the one that the thread of the step may have in
hand. A call that has made a bmap finds the mode set that it has set itself, since no mode is ever taken away.

Key theorems: `step_inv`, `sound_of_run`.
-/
import Slash2.Bmapc.Cache
import Slash2.Lib.Run

namespace Slash2.Bmapc

open Lib Lib.Holders List Option

structure Bmap.Ok (b : Bmap) : Prop where
  tofree : b.tofree ↔ b.opcnt = 0
  freed : b.freed → b.tofree

def Call.Fits (chng : Bool) (s : State) (c : Call) : Prop :=
  match c.pc with
  | .lookup | .waiting _ => c.made = false
  | .modechng id => c.made = false ∧ ∃ b, s.bmaps[id]? = some b ∧ b.init = false
  | .retrieve id => c.made ∧ ∃ b, s.bmaps[id]? = some b ∧ b.has c.rw
  | .ret (some (_, b)) => c.async = false → c.Right chng b
  | .ret none => True

def Bmap.key (b : Bmap) : ℕ × ℕ := (b.file, b.no)

/-- **The invariant**, with the references in hand. -/
structure Inv (chng : Bool) (e : ℕ → ℕ) (s : State) : Prop where
  alive : s.failed = false
  bmaps : ∀ (id : ℕ) b, s.bmaps[id]? = some b → b.Ok
  books : Books Bmap.opcnt (·.freed = false) Bmap.key (fun x c => c.pc.refs x) e s.bmaps s.held s.calls
  calls : ∀ c ∈ s.calls, c.Fits chng s

variable {chng : Bool} {s t : State} {e e' : ℕ → ℕ} {id : ℕ} {b b' : Bmap} {i : ℕ} {c c' : Call}

theorem lt_length (hb : s.bmaps[id]? = some b) : id < s.bmaps.length := (List.getElem?_eq_some_iff.mp hb).1

theorem Inv.counted (h : Inv chng e s) (hb : s.bmaps[id]? = some b) : b.opcnt = s.refs id + e id :=
  h.books.counted id b hb

theorem getElem?_setBmap (hb : s.bmaps[id]? = some b) : (s.setBmap id b').bmaps[id]? = some b' :=
  getElem?_set_self (lt_length hb)

theorem setBmap_self (hb : s.bmaps[id]? = some b) : s.setBmap id b = s := by
  obtain ⟨-, rfl⟩ := List.getElem?_eq_some_iff.mp hb
  simp [State.setBmap]

theorem setBmap_setBmap (s : State) (id : ℕ) (b b' : Bmap) : (s.setBmap id b).setBmap id b' = s.setBmap id b' := by
  simp [State.setBmap]

theorem has_setMode (b : Bmap) (rw : Option Rw) : (b.setMode rw).has rw := by
  cases rw with
  | none => rfl
  | some rw => cases rw <;> rfl

theorem has_setMode_of_has {rw : Option Rw} (b : Bmap) (rw' : Option Rw) (h : b.has rw) : (b.setMode rw').has rw := by
  cases rw' with
  | none => exact h
  | some rw' => rcases rw with _ | ⟨_⟩ | ⟨_⟩ <;> cases rw' <;> first | exact h | rfl

theorem has_congr (hrd : b'.rd = b.rd) (hwr : b'.wr = b.wr) (rw : Option Rw) : b'.has rw = b.has rw := by
  rcases rw with _ | ⟨_⟩ | ⟨_⟩
  · rfl
  · exact hrd
  · exact hwr

structure Bmap.Later (b b' : Bmap) : Prop where
  key : b'.key = b.key
  freed : b'.freed = false → b.freed = false
  mode : ∀ rw, b.has rw → b'.has rw
  init : b.init = false → b'.init = false

theorem Bmap.Later.of_modes (hkey : b'.key = b.key) (hfreed : b'.freed = false → b.freed = false)
    (hrd : b'.rd = b.rd) (hwr : b'.wr = b.wr) (hinit : b.init = false → b'.init = false) : b.Later b' :=
  ⟨hkey, hfreed, fun rw h => (has_congr hrd hwr rw).trans h, hinit⟩

theorem setMode_eq (b : Bmap) (rw : Option Rw) :
    b.setMode rw = { b with rd := (b.setMode rw).rd, wr := (b.setMode rw).wr } := by
  rcases rw with _ | ⟨_⟩ | ⟨_⟩ <;> rfl

theorem made_of_fits (h : c.Fits chng s) (hpc : c.pc = .lookup ∨ ∃ id, c.pc = .waiting id) : c.made = false := by
  unfold Call.Fits at h
  rcases hpc with hpc | ⟨id, hpc⟩ <;> rwa [hpc] at h

/-! ### Changing a bmap, a call and the references of others -/

theorem fits_setBmap (hb : s.bmaps[id]? = some b) (hlater : b.Later b') (h : c.Fits chng s) :
    c.Fits chng (s.setBmap id b') := by
  unfold Call.Fits at *
  split at h
  · exact h
  · exact h
  · exact ⟨h.1, exists_getElem?_set hb hlater.init h.2⟩
  · exact ⟨h.1, exists_getElem?_set hb (hlater.mode _) h.2⟩
  · exact h
  · trivial

theorem Inv.setBmap (h : Inv chng e s) (hb : s.bmaps[id]? = some b) (hok : b'.Ok) (hlater : b.Later b')
    (hcount : b'.opcnt + e id = b.opcnt + e' id) (he : ∀ x, x ≠ id → e' x = e x) : Inv chng e' (s.setBmap id b') where
  alive := h.alive
  bmaps x a hx := by
    rcases getElem?_set_cases hx with ⟨-, rfl⟩ | ⟨-, hx⟩
    · exact hok
    · exact h.bmaps x a hx
  books := h.books.set hb hlater.key hlater.freed hcount he
  calls c hc := fits_setBmap hb hlater (h.calls c hc)

theorem Inv.setCall (h : Inv chng e s) (hi : s.calls[i]? = some c)
    (hrefs : ∀ x, c'.pc.refs x + e' x = c.pc.refs x + e x) (hknown : ∀ x, s.bmaps.length ≤ x → c'.pc.refs x = 0)
    (hfits : c'.Fits chng s) : Inv chng e' (s.setCall i c') where
  alive := h.alive
  bmaps := h.bmaps
  books := h.books.setCall hi hrefs hknown
  calls := forall_mem_set h.calls hfits

theorem Inv.hold (h : Inv chng (hand id) s) (hlt : id < s.bmaps.length) :
    Inv chng nohand { s with held := id :: s.held } :=
  ⟨h.alive, h.bmaps, h.books.hold hlt, h.calls⟩

theorem Inv.unhold (h : Inv chng nohand s) (hid : id ∈ s.held) :
    Inv chng (hand id) { s with held := s.held.erase id } :=
  ⟨h.alive, h.bmaps, h.books.unhold hid, h.calls⟩

theorem Inv.opStart (h : Inv chng nohand s) (hb : s.bmaps[id]? = some b) (ht : b.tofree = false) :
    Inv chng (hand id) (s.setBmap id { b with opcnt := b.opcnt + 1 }) := by
  have hok := h.bmaps id b hb
  refine h.setBmap hb ⟨?_, hok.freed⟩ (.of_modes rfl (fun h => h) rfl rfl fun h => h) ?_ fun x hx => hand_ne hx
  · simp [ht]
  · simp [nohand]

theorem Inv.opDone (h : Inv chng (hand id) s) (hb : s.bmaps[id]? = some b) : Inv chng nohand (s.opDone id b) := by
  have hok := h.bmaps id b hb
  have hpos : b.opcnt ≠ 0 := by
    have := h.counted hb
    rw [hand_self] at this
    omega
  have htofree : b.tofree = false := by
    by_contra ht
    exact hpos (hok.tofree.mp (by simpa using ht))
  have he (x : ℕ) (hx : x ≠ id) : nohand x = hand id x := (hand_ne hx).symm
  unfold State.opDone
  rw [if_neg hpos]
  split_ifs with hone
  · refine h.setBmap hb ⟨?_, fun _ => rfl⟩ (.of_modes rfl (fun h => h) rfl rfl fun h => h) ?_ he
    · simp
    · simp [hone, nohand]
  refine h.setBmap hb ⟨?_, hok.freed⟩ (.of_modes rfl (fun h => h) rfl rfl fun h => h) ?_ he
  · have : b.opcnt - 1 ≠ 0 := by omega
    simp [htofree, this]
  · simp only [hand_self, nohand]
    omega

section
variable {pc : Pc} (h : Inv chng e (s.setBmap id b)) (hb : (s.setBmap id b).bmaps[id]? = some b)
  (hi : s.calls[i]? = some c) (hsum : ∀ x, c.pc.refs x + e x = hand id x)
include h hb hi hsum

theorem ret_inv (hright : c.async = false → c.Right chng b) : Inv chng nohand (s.ret i c id b) := by
  have hcall : Inv chng (hand id) ((s.setBmap id b).setCall i { c with pc := .ret (some (id, b)) }) := by
    refine h.setCall hi (fun x => ?_) (fun _ _ => rfl) ?_
    · rw [hsum]
      exact Nat.zero_add _
    · intro hasync
      exact { hright hasync with }
  exact hcall.hold (lt_length hb)

theorem keep_inv (hpc : pc = .waiting id ∨ pc = .modechng id) (hfits : Call.Fits chng (s.setBmap id b) { c with pc }) :
    Inv chng nohand ((s.setCall i { c with pc }).setBmap id b) := by
  have hrefs (x : ℕ) : pc.refs x = hand id x := by
    rcases hpc with rfl | rfl <;> simp [Pc.refs, hand, eq_comm]
  refine Inv.setCall h hi (fun x => ?_) (fun x hx => ?_) hfits
  · rw [hsum]
    exact hrefs x
  · exact (hrefs x).trans (hand_ne (Nat.lt_of_lt_of_le (lt_length hb) hx).ne')

theorem proceed_inv (hmade : c.made = false) : Inv chng nohand (proceed chng s i c id b) := by
  unfold proceed
  split_ifs with hasync hflags hmode
  · exact ret_inv h hb hi hsum fun hno => absurd hasync (by simp [hno])
  · exact keep_inv h hb hi hsum (.inl rfl) hmade
  · have hok := h.bmaps id b hb
    have hset : Inv chng e (s.setBmap id { b with modechng := true }) := by
      rw [← setBmap_setBmap s id b]
      exact h.setBmap hb { hok with } (.of_modes rfl (fun h => h) rfl rfl fun h => h) rfl fun _ _ => rfl
    have hget : (s.setBmap id { b with modechng := true }).bmaps[id]? = some { b with modechng := true } := by
      rw [← setBmap_setBmap s id b]
      exact getElem?_setBmap hb
    refine keep_inv hset hget hi hsum (.inr rfl) ⟨hmade, _, hget, ?_⟩
    simpa using fun hinit => hflags (.inl hinit)
  · refine ret_inv h hb hi hsum fun _ => ⟨?_, fun _ => ?_, fun hor => ?_⟩
    · simpa using fun hinit => hflags (.inl hinit)
    · simpa using fun hchng => hflags (.inr hchng)
    · by_contra hno
      refine hmode ⟨by simpa using hno, ?_⟩
      exact hor.resolve_left (by simp [hmade])

end

variable {ok : Bool}

theorem settle_inv (h : Inv chng e (s.setBmap id b)) (hb : (s.setBmap id b).bmaps[id]? = some b)
    (hi : s.calls[i]? = some c) (hsum : ∀ x, c.pc.refs x + e x = hand id x)
    (hright : ok → c.async = false → c.Right chng b) : Inv chng nohand (settle s i c id b ok) := by
  unfold settle
  split_ifs with hok
  · exact ret_inv h hb hi hsum (hright hok)
  have hcall : Inv chng (hand id) ((s.setBmap id b).setCall i { c with pc := .ret none }) := by
    refine h.setCall hi (fun x => ?_) (fun _ _ => rfl) trivial
    rw [hsum]
    exact Nat.zero_add _
  exact hcall.opDone hb

theorem find_none {file no : ℕ} (h : s.find file no = none) (hb : s.bmaps[id]? = some b) (hf : b.freed = false) :
    b.key ≠ (file, no) := by
  rintro ⟨⟩
  have := findIdx?_eq_none_iff.mp h b (mem_of_getElem? hb)
  simp [hf] at this

theorem create_inv (h : Inv chng nohand s) (hi : s.calls[i]? = some c) (hpc : c.pc = .lookup)
    (hfind : s.find c.file c.no = none) :
    Inv chng nohand { s.setCall i { c with made := true, pc := .retrieve s.bmaps.length } with
      bmaps := s.bmaps ++ [Bmap.new c.file c.no c.rw] } := by
  set c' : Call := { c with made := true, pc := .retrieve s.bmaps.length } with hc'
  set new := Bmap.new c.file c.no c.rw with hnew
  have hfields : new.opcnt = 1 ∧ new.tofree = false ∧ new.freed = false ∧ new.key = (c.file, c.no) := by
    rw [hnew, Bmap.new, setMode_eq]
    exact ⟨rfl, rfl, rfl, rfl⟩
  obtain ⟨hcnt, htofree, hfreed, hkey⟩ := hfields
  have hold {x : ℕ} {a : Bmap} (hx : s.bmaps[x]? = some a) : (s.bmaps ++ [new])[x]? = some a :=
    getElem?_append_left (lt_length hx) ▸ hx
  refine ⟨h.alive, ?_, ?_, fun a ha => ?_⟩
  · refine forall_getElem?_snoc h.bmaps ⟨?_, ?_⟩
    · simp [hcnt, htofree]
    · simp [hfreed]
  · refine (h.books.snoc hcnt fun x a hx hf => hkey ▸ find_none hfind hx hf).setCall hi (fun x => ?_) fun x hx => ?_
    · simp [hpc, hc', Pc.refs, hand, nohand, eq_comm]
    · rw [length_append] at hx
      exact if_neg (Nat.lt_of_lt_of_le (Nat.lt_succ_self _) hx).ne
  · rcases mem_or_eq_of_mem_set ha with ha | rfl
    · have hfits := h.calls a ha
      unfold Call.Fits at *
      split at hfits
      · exact hfits
      · exact hfits
      · obtain ⟨hmade, b, hb, hinit⟩ := hfits
        exact ⟨hmade, b, hold hb, hinit⟩
      · obtain ⟨hmade, b, hb, hhas⟩ := hfits
        exact ⟨hmade, b, hold hb, hhas⟩
      · exact hfits
      · trivial
    · exact ⟨rfl, new, getElem?_concat_length, has_setMode _ _⟩

theorem lookup_inv (h : Inv chng nohand s) (hi : s.calls[i]? = some c) (hpc : c.pc = .lookup)
    (hs : lookup chng s i c = some t) : Inv chng nohand t := by
  have hmade : c.made = false := made_of_fits (h.calls c (mem_of_getElem? hi)) (.inl hpc)
  unfold lookup at hs
  split at hs
  · next id hfind =>
    obtain ⟨b, hb, hs⟩ := bind_eq_some_iff.mp hs
    split_ifs at hs with htofree <;> cases hs
    · exact h
    have hstart := h.opStart hb (by simpa using htofree)
    refine proceed_inv hstart (getElem?_setBmap hb) hi (fun x => ?_) hmade
    rw [hpc]
    exact Nat.zero_add _
  · next hfind =>
    split_ifs at hs with hcreate hnew <;> cases hs
    · exact create_inv h hi hpc hfind
    · refine h.setCall hi (fun _ => rfl) (fun x _ => ?_) ?_
      · simp [hpc, Pc.refs]
      · unfold Call.Fits
        simpa [hpc] using hmade
    · exact h.setCall hi (fun x => by rw [hpc]; rfl) (fun _ _ => rfl) trivial

theorem Inv.tofree_of_refs (h : Inv chng nohand s) (hb : s.bmaps[id]? = some b) (hpos : 0 < s.refs id) :
    b.tofree = false := by
  have hcount : b.opcnt = s.refs id := h.counted hb
  by_contra ht
  have := (h.bmaps id b hb).tofree.mp (by simpa using ht)
  omega

theorem retrieved_inv (h : Inv chng nohand s) (hi : s.calls[i]? = some c) (hpc : c.pc = .retrieve id)
    (hb : s.bmaps[id]? = some b) :
    Inv chng nohand (settle s i c id (if c.async then b else { b with init := false }) ok) := by
  have hok := h.bmaps id b hb
  obtain ⟨hmade, hhas⟩ : c.made ∧ b.has c.rw := by
    have hfits := h.calls c (mem_of_getElem? hi)
    unfold Call.Fits at hfits
    rw [hpc] at hfits
    obtain ⟨hmade, b', hb', hhas⟩ := hfits
    obtain rfl := some.inj (hb.symm.trans hb')
    exact ⟨hmade, hhas⟩
  have hset : Inv chng nohand (s.setBmap id (if c.async then b else { b with init := false })) := by
    split_ifs
    · rwa [setBmap_self hb]
    · exact h.setBmap hb { hok with } (.of_modes rfl (fun h => h) rfl rfl fun _ => rfl) rfl fun _ _ => rfl
  refine settle_inv hset (getElem?_setBmap hb) hi (fun x => ?_) fun _ hasync => ?_
  · rw [hpc]
    simp [Pc.refs, hand, nohand, eq_comm]
  · rw [if_neg (by simp [hasync])]
    refine ⟨rfl, fun hno => absurd hmade (by simp [hno]), fun _ => ?_⟩
    exact (has_congr rfl rfl c.rw).trans hhas

theorem changed_inv (h : Inv chng nohand s) (hi : s.calls[i]? = some c) (hpc : c.pc = .modechng id)
    (hb : s.bmaps[id]? = some b) : Inv chng nohand (settle s i c id
      (if ok then Bmap.setMode { b with modechng := false } c.rw else { b with modechng := false }) ok) := by
  have hok := h.bmaps id b hb
  have hinit : b.init = false := by
    have hfits := h.calls c (mem_of_getElem? hi)
    unfold Call.Fits at hfits
    rw [hpc] at hfits
    obtain ⟨-, b', hb', hinit⟩ := hfits
    obtain rfl := some.inj (hb.symm.trans hb')
    exact hinit
  have hclear : Inv chng nohand (s.setBmap id { b with modechng := false }) :=
    h.setBmap hb { hok with } (.of_modes rfl (fun h => h) rfl rfl fun h => h) rfl fun _ _ => rfl
  have hget : (s.setBmap id { b with modechng := false }).bmaps[id]? = some { b with modechng := false } :=
    getElem?_setBmap hb
  have hsum (x : ℕ) : c.pc.refs x + nohand x = hand id x := by
    rw [hpc]
    simp [Pc.refs, hand, nohand, eq_comm]
  cases ok with
  | false => exact settle_inv hclear hget hi hsum fun hf => absurd hf Bool.false_ne_true
  | true =>
    have hmodes (rw : Option Rw) (h : Bmap.has { b with modechng := false } rw) := has_setMode_of_has _ c.rw h
    have hhas := has_setMode { b with modechng := false } c.rw
    rw [setMode_eq]
    refine settle_inv ?_ (getElem?_setBmap hb) hi hsum fun _ _ => ⟨hinit, fun _ => rfl, fun _ => hhas⟩
    · rw [← setBmap_setBmap s id { b with modechng := false }]
      exact hclear.setBmap hget { hok with } ⟨rfl, fun h => h, hmodes, fun h => h⟩ rfl fun _ _ => rfl

theorem step_inv {o : Op} (h : Inv chng nohand s) (hs : step chng s o = some t) : Inv chng nohand t := by
  cases o with
  | get =>
    cases hs
    exact { h with
      books := h.books.of_refs fun _ => refs_snoc rfl
      calls := forall_mem_snoc h.calls rfl }
  | lookup =>
    obtain ⟨c, hc, hs⟩ := bind_eq_some_iff.mp hs
    split_ifs at hs with hpc
    exact lookup_inv h hc hpc hs
  | retrieved i ok =>
    obtain ⟨c, hc, hs⟩ := bind_eq_some_iff.mp hs
    split at hs
    · next id hpc =>
      obtain ⟨b, hb, hs⟩ := bind_eq_some_iff.mp hs
      have hnot : ¬(c.noretrieve ∧ ok = false) := fun hno => by simp [hno] at hs
      rw [if_neg hnot] at hs
      cases hs
      exact retrieved_inv h hc hpc hb
    · cases hs
  | check =>
    obtain ⟨c, hc, hs⟩ := bind_eq_some_iff.mp hs
    split at hs
    · next id hpc =>
      obtain ⟨b, hb, hs⟩ := bind_eq_some_iff.mp hs
      cases hs
      have hself : Inv chng nohand (s.setBmap id b) := by rwa [setBmap_self hb]
      refine proceed_inv hself (getElem?_setBmap hb) hc (fun x => ?_) ?_
      · rw [hpc]
        simp [Pc.refs, hand, nohand, eq_comm]
      · exact made_of_fits (h.calls c (mem_of_getElem? hc)) (.inr ⟨id, hpc⟩)
    · cases hs
  | changed =>
    obtain ⟨c, hc, hs⟩ := bind_eq_some_iff.mp hs
    split at hs
    · next id hpc =>
      obtain ⟨b, hb, hs⟩ := bind_eq_some_iff.mp hs
      cases hs
      exact changed_inv h hc hpc hb
    · cases hs
  | ready id =>
    obtain ⟨b, hb, -, rfl⟩ := bind_guard hs
    have hok := h.bmaps id b hb
    exact h.setBmap hb { hok with } (.of_modes rfl (fun h => h) rfl rfl fun _ => rfl) rfl fun _ _ => rfl
  | opStart =>
    obtain ⟨b, hb, hid, rfl⟩ := bind_guard hs
    have ht := h.tofree_of_refs hb (refs_pos_of_held hid)
    exact (h.opStart hb ht).hold (lt_length (getElem?_setBmap hb))
  | opDone =>
    obtain ⟨b, hb, hid, rfl⟩ := bind_guard hs
    exact (h.unhold hid).opDone hb
  | remove id =>
    obtain ⟨b, hb, hfree, rfl⟩ := bind_guard hs
    have hok := h.bmaps id b hb
    exact h.setBmap hb ⟨hok.tofree, fun _ => hfree.1⟩ (.of_modes rfl (fun h => by cases h) rfl rfl fun h => h)
      rfl fun _ _ => rfl

theorem inv_init : Inv chng nohand State.init where
  alive := rfl
  bmaps _ _ h := by simp [State.init] at h
  books := ⟨fun _ _ h => by simp [State.init] at h, fun _ _ => rfl, fun _ _ _ _ h => by simp [State.init] at h⟩
  calls _ h := absurd h not_mem_nil

theorem Inv.sound (h : Inv chng nohand s) : Sound chng s where
  asserts := h.alive
  unique i j b b' hi hj hf hf' hfile hno := h.books.unique i j b b' hi hj hf hf' (Prod.ext hfile hno)
  counted _ _ := h.counted
  tofree id b hb := (h.bmaps id b hb).tofree
  removed id b hb := by
    have hok := h.bmaps id b hb
    refine ⟨fun hf => hok.tofree.mp (hok.freed hf), fun hf => ?_⟩
    rw [← hok.tofree]
    simp only [step, hb, bind_eq_bind, bind_some, hf, and_true]
    split_ifs with ht <;> simp [ht]
  returned c hc id b hpc := by
    have hfits := h.calls c hc
    unfold Call.Fits at hfits
    rwa [hpc] at hfits

/-- **The cache of bmaps is sound** in every run of any calls. -/
theorem sound_of_run (chng : Bool) (os : List Op) (t : State) (h : run (step chng) State.init os = some t) :
    Sound chng t :=
  (run_keeps step_inv inv_init h).sound

def upgrade : List Op :=
  [.get 1 0 (some .read) true false false, .lookup 0, .lookup 0, .get 1 0 (some .write) true false false, .lookup 1,
    .retrieved 0 true, .check 1, .changed 1 false, .opDone 0, .remove 0]

theorem sound_of_upgrade :
    ∃ t ∈ run (step true) State.init upgrade, Sound true t ∧ t.bmaps.map Bmap.freed = [true] := by
  have h : ∃ t ∈ run (step true) State.init upgrade, t.bmaps.map Bmap.freed = [true] := by decide +kernel
  obtain ⟨t, ht, hfreed⟩ := h
  exact ⟨t, ht, sound_of_run true upgrade t ht, hfreed⟩

/-- A bmap is returned without the mode asked for, or while it is retrieved. -/
theorem returned_early : (∃ b, b.has (some .write) = false ∧
      ∃ t ∈ run (step false) State.init [.get 1 0 (some .read) true false false, .lookup 0, .lookup 0, .retrieved 0 true,
        .get 1 0 (some .write) true false false, .lookup 1], (t.calls[1]?).map Call.pc = some (.ret (some (0, b)))) ∧
    ∃ b, b.init ∧ ∃ t ∈ run (step true) State.init [.get 1 0 (some .read) true false false, .lookup 0, .lookup 0,
        .get 1 0 (some .read) true true false, .lookup 1], (t.calls[1]?).map Call.pc = some (.ret (some (0, b))) := by
  constructor
  · refine ⟨⟨1, 0, 2, true, false, false, false, false, false⟩, rfl, ?_⟩
    decide +kernel
  · refine ⟨⟨1, 0, 2, true, false, true, false, false, false⟩, rfl, ?_⟩
    decide +kernel

end Slash2.Bmapc
