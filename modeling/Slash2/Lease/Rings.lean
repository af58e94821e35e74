/-
# The chains of leases

`Rings` describes the pointers of `Bml`: the attached leases are the cells of a list
of circular chains, one for each client, whose heads are `bmi_leases`; `BML_CHAIN` is
on all cells but the heads, and the counters are the numbers of chains with and
without a write lease. It is a statement about the links only (`Book`), so what
direct I/O and the assignment of servers change does not matter to it.

Key theorems: `Rings.replace`, `Rings.snoc`, `Rings.drop`.
-/
import Mathlib.Data.Finset.Card
import Slash2.Lease.Bml

namespace Slash2.Lease

open Lib List Function

structure Book where
  leases : List ℕ
  link : ℕ → Link
  next : ℕ
  writers : ℤ
  readers : ℤ

def Bmap.book (b : Bmap) : Book :=
  ⟨b.leases, fun l => (b.bml l).toLink, b.next, b.writers, b.readers⟩

structure Ring where
  head : ℕ
  tail : List ℕ

def Ring.ids (r : Ring) : List ℕ := r.head :: r.tail

/-- A circle of one client's leases; `BML_CHAIN` on all but the head. -/
structure RingOk (k : ℕ → Link) (r : Ring) : Prop where
  links : Links (fun l => (k l).chain) r.head r.tail r.head
  client : ∀ l ∈ r.tail, (k l).cnp = (k r.head).cnp
  head : (k r.head).chained = false
  tail : ∀ l ∈ r.tail, (k l).chained
  mode : ∀ l ∈ r.ids, (k l).read = !(k l).write

def hasWrite (k : ℕ → Link) (r : Ring) : Bool := r.ids.any fun l => (k l).write

def cells (L : List Ring) : List ℕ := L.flatMap Ring.ids

def clients (k : ℕ → Link) (L : List Ring) : List Nidpid := L.map fun r => (k r.head).cnp

structure Rings (s : Book) (L : List Ring) : Prop where
  heads : s.leases.Perm (L.map Ring.head)
  ok : ∀ r ∈ L, RingOk s.link r
  nodup : (cells L).Nodup
  distinct : (clients s.link L).Nodup
  attached : ∀ l, l ∈ cells L ↔ (s.link l).bmi
  bound : ∀ l ∈ cells L, l < s.next
  writers : s.writers = L.countP (hasWrite s.link)
  readers : s.readers = L.countP fun r => !hasWrite s.link r

/-! ### Lists of chains -/

@[simp] theorem cells_nil : cells [] = [] := rfl

@[simp] theorem cells_cons (r : Ring) (L : List Ring) : cells (r :: L) = r.ids ++ cells L := by
  simp [cells]

variable {L : List Ring} {l : ℕ}

theorem mem_cells : l ∈ cells L ↔ ∃ r ∈ L, l ∈ r.ids := mem_flatMap

variable {r : Ring}

theorem head_mem_cells (hr : r ∈ L) : r.head ∈ cells L := mem_cells.mpr ⟨r, hr, mem_cons_self⟩

variable {k : ℕ → Link}

theorem RingOk.client_ids (h : RingOk k r) (hl : l ∈ r.ids) : (k l).cnp = (k r.head).cnp := by
  rcases mem_cons.mp hl with rfl | hl
  · rfl
  · exact h.client l hl

theorem RingOk.congr {k' : ℕ → Link} (h : RingOk k r) (hk : ∀ x ∈ r.ids, (k' x).chain = (k x).chain ∧
    (k' x).cnp = (k x).cnp ∧ (k' x).chained = (k x).chained ∧
      ((k x).read = !(k x).write → (k' x).read = !(k' x).write)) : RingOk k' r := by
  have htail {x : ℕ} (hx : x ∈ r.tail) := hk x (mem_cons_of_mem _ hx)
  obtain ⟨-, hcnp, hchained, -⟩ := hk r.head mem_cons_self
  refine ⟨h.links.congr fun x hx => (hk x hx).1, fun x hx => ?_, hchained.trans h.head,
    fun x hx => (htail hx).2.2.1.trans (h.tail x hx), fun x hx => (hk x hx).2.2.2 (h.mode x hx)⟩
  rw [(htail hx).2.1, hcnp]
  exact h.client x hx

variable {s : Book}

theorem Rings.perm {L' : List Ring} (h : Rings s L) (hp : L.Perm L') : Rings s L' where
  heads := h.heads.trans (hp.map _)
  ok r hr := h.ok r (hp.mem_iff.mpr hr)
  nodup := (hp.flatMap_right _).nodup_iff.mp h.nodup
  distinct := (hp.map _).nodup_iff.mp h.distinct
  attached l := ((hp.flatMap_right _).mem_iff).symm.trans (h.attached l)
  bound l hl := h.bound l ((hp.flatMap_right _).mem_iff.mpr hl)
  writers := h.writers.trans (by rw [hp.countP_eq])
  readers := h.readers.trans (by rw [hp.countP_eq])

theorem Rings.split (h : Rings s L) (c : Nidpid) :
    (∃ r L', Rings s (r :: L') ∧ (s.link r.head).cnp = c) ∨ c ∉ clients s.link L := by
  by_cases hc : c ∈ clients s.link L
  · obtain ⟨r, hr, rfl⟩ := mem_map.mp hc
    obtain ⟨A, B, rfl⟩ := append_of_mem hr
    exact .inl ⟨r, A ++ B, h.perm perm_middle, rfl⟩
  · exact .inr hc

theorem Rings.split_cell (h : Rings s L) (hl : (s.link l).bmi) : ∃ r L', Rings s (r :: L') ∧ l ∈ r.ids := by
  obtain ⟨r, hr, hlr⟩ := mem_cells.mp ((h.attached l).mpr hl)
  obtain ⟨A, B, rfl⟩ := append_of_mem hr
  exact ⟨r, A ++ B, h.perm perm_middle, hlr⟩

section
variable (h : Rings s (r :: L))
include h

theorem Rings.ok_first : RingOk s.link r := h.ok r mem_cons_self

theorem Rings.ids_nodup : r.ids.Nodup := (nodup_append.mp (cells_cons r L ▸ h.nodup)).1

theorem Rings.ids_disjoint (hl : l ∈ r.ids) : l ∉ cells L :=
  fun hl' => (nodup_append.mp (cells_cons r L ▸ h.nodup)).2.2 l hl l hl' rfl

theorem Rings.mem_first (hl : l ∈ r.ids) : (s.link l).bmi ∧ l < s.next := by
  have hmem : l ∈ cells (r :: L) := mem_cells.mpr ⟨r, mem_cons_self, hl⟩
  exact ⟨(h.attached l).mp hmem, h.bound l hmem⟩

theorem Rings.length_lt : r.tail.length < s.next := by
  have hsub : r.ids ⊆ range s.next := fun l hl => mem_range.mpr (h.mem_first hl).2
  have hle := (subperm_of_subset h.ids_nodup hsub).length_le
  rw [length_range] at hle
  exact hle

end

/-! ### One chain changes -/

theorem Rings.replace {s s' : Book} {M M' L : List Ring} (h : Rings s (M ++ L))
    (hframe : ∀ l ∈ cells L, s'.link l = s.link l) (hheads : s'.leases.Perm ((M' ++ L).map Ring.head))
    (hok : ∀ r ∈ M', RingOk s'.link r) (hnd : (cells M').Nodup) (hdisj : ∀ l ∈ cells M', l ∉ cells L)
    (hcl : (clients s'.link M' ++ clients s.link L).Nodup)
    (hatt : ∀ l, l ∉ cells L → (l ∈ cells M' ↔ (s'.link l).bmi))
    (hnext : s.next ≤ s'.next) (hbound : ∀ l ∈ cells M', l < s'.next)
    (hw : s'.writers - M'.countP (hasWrite s'.link) = s.writers - M.countP (hasWrite s.link))
    (hr : s'.readers - M'.countP (fun r => !hasWrite s'.link r) = s.readers - M.countP fun r => !hasWrite s.link r) :
    Rings s' (M' ++ L) := by
  have hcells : ∀ M : List Ring, cells (M ++ L) = cells M ++ cells L := fun M => by simp [cells]
  have hsame {r : Ring} (hr : r ∈ L) {l : ℕ} (hl : l ∈ r.ids) : s'.link l = s.link l :=
    hframe l (mem_cells.mpr ⟨r, hr, hl⟩)
  have hwrite {r : Ring} (hr : r ∈ L) : hasWrite s'.link r = hasWrite s.link r := by
    rw [Bool.eq_iff_iff, hasWrite, hasWrite, any_eq_true, any_eq_true]
    exact exists_congr fun l => and_congr_right fun hl => by rw [hsame hr hl]
  constructor
  case heads => exact hheads
  case ok =>
    intro r hr
    rcases mem_append.mp hr with hr | hr
    · exact hok r hr
    refine (h.ok r (mem_append_right M hr)).congr fun x hx => ?_
    rw [hsame hr hx]
    exact ⟨rfl, rfl, rfl, id⟩
  case nodup =>
    have hL : (cells L).Nodup := (nodup_append.mp (hcells M ▸ h.nodup)).2.1
    rw [hcells]
    exact nodup_append.mpr ⟨hnd, hL, fun a ha b hb hab => hdisj a ha (hab ▸ hb)⟩
  case distinct =>
    have hL : clients s'.link L = clients s.link L := map_congr_left fun r hr => by rw [hsame hr mem_cons_self]
    have happ : clients s'.link (M' ++ L) = clients s'.link M' ++ clients s'.link L := map_append
    rw [happ, hL]
    exact hcl
  case attached =>
    intro l
    by_cases hl : l ∈ cells L
    · rw [hframe l hl, ← h.attached l, hcells, hcells]
      simp [hl]
    · rw [← hatt l hl, hcells]
      simp [hl]
  case bound =>
    intro l hl
    rw [hcells] at hl
    rcases mem_append.mp hl with hl | hl
    · exact hbound l hl
    · exact lt_of_lt_of_le (h.bound l (by rw [hcells]; exact mem_append_right _ hl)) hnext
  case writers =>
    have hL : L.countP (hasWrite s'.link) = L.countP (hasWrite s.link) := countP_congr fun r hr => by rw [hwrite hr]
    have hs := h.writers
    rw [countP_append] at hs ⊢
    omega
  case readers =>
    have hL : L.countP (fun r => !hasWrite s'.link r) = L.countP (fun r => !hasWrite s.link r) :=
      countP_congr fun r hr => by rw [hwrite hr]
    have hs := h.readers
    rw [countP_append] at hs ⊢
    omega

/-! ### Read and write leases of a chain -/

def wcount (k : ℕ → Link) (r : Ring) : ℕ := r.ids.countP fun l => (k l).write

def rcount (k : ℕ → Link) (r : Ring) : ℕ := r.ids.countP fun l => (k l).read

theorem wcount_eq_zero : wcount k r = 0 ↔ hasWrite k r = false := by
  simp [wcount, hasWrite, countP_eq_zero]

theorem wcount_ne_zero (h : hasWrite k r) : wcount k r ≠ 0 := fun h0 => by
    rw [wcount_eq_zero.mp h0] at h
    cases h

theorem RingOk.wcount_add_rcount (h : RingOk k r) : wcount k r + rcount k r = r.ids.length := by
  have hr : rcount k r = r.ids.countP fun l => !(k l).write := countP_congr fun l hl => by rw [h.mode l hl]
  rw [wcount, hr, length_eq_countP_add_countP fun l => (k l).write]
  simp

section
variable (k : ℕ → Link)

/-- The links with a new lease `l` after `tmp`, the last of `h`. -/
def snocLinks (l tmp h : ℕ) : ℕ → Link :=
  update (update k tmp { k tmp with chain := l }) l
    { k l with chained := true, chain := h, bmi := true }

def Ring.last (r : Ring) : ℕ := r.ids.getLast (cons_ne_nil _ _)

theorem Ring.last_mem (r : Ring) : r.last ∈ r.ids := getLast_mem _

theorem snocLinks_self (l tmp h : ℕ) : snocLinks k l tmp h l = { k l with chained := true, chain := h, bmi := true } :=
  update_self ..

variable {x : ℕ}

theorem snocLinks_old (tmp h : ℕ) (hx : x ≠ l) : ∃ c, snocLinks k l tmp h x = { k x with chain := c } := by
  unfold snocLinks
  rw [update_of_ne hx]
  by_cases hxt : x = tmp
  · subst hxt
    exact ⟨l, update_self ..⟩
  · exact ⟨(k x).chain, update_of_ne hxt ..⟩

theorem snocLinks_other {tmp : ℕ} (h : ℕ) (hx : x ≠ l) (hxt : x ≠ tmp) : snocLinks k l tmp h x = k x := by
  unfold snocLinks
  rw [update_of_ne hx, update_of_ne hxt]

theorem snocLinks_chain (l tmp h : ℕ) : (fun x => (snocLinks k l tmp h x).chain) =
      update (update (fun x => (k x).chain) tmp l) l h := by
  funext x
  by_cases hx : x = l
  · subst hx
    simp [snocLinks]
  by_cases hxt : x = tmp
  · subst hxt
    simp [snocLinks, update_of_ne hx]
  · simp [snocLinks, update_of_ne hx, update_of_ne hxt]

end

theorem RingOk.snoc (h : RingOk k r) (hnd : r.ids.Nodup)
    (hl : l ∉ r.ids) (hc : (k l).cnp = (k r.head).cnp) (hm : (k l).read = !(k l).write) :
    RingOk (snocLinks k l r.last r.head) ⟨r.head, r.tail ++ [l]⟩ := by
  have hne {x : ℕ} (hx : x ∈ r.ids) : x ≠ l := fun hxl => hl (hxl ▸ hx)
  have hhead : r.head ∈ r.ids := mem_cons_self
  obtain ⟨c, hc0⟩ := snocLinks_old k r.last r.head (hne hhead)
  have hnew := snocLinks_self k l r.last r.head
  constructor
  case links =>
    rw [snocLinks_chain]
    exact h.links.snoc hnd hl
  case client =>
    intro x hx
    rw [hc0]
    rcases mem_append.mp hx with hx | hx
    · obtain ⟨c', hcx⟩ := snocLinks_old k r.last r.head (hne (mem_cons_of_mem _ hx))
      rw [hcx]
      exact h.client x hx
    · rw [mem_singleton.mp hx, hnew]
      exact hc
  case head =>
    rw [hc0]
    exact h.head
  case tail =>
    intro x hx
    rcases mem_append.mp hx with hx | hx
    · obtain ⟨c', hcx⟩ := snocLinks_old k r.last r.head (hne (mem_cons_of_mem _ hx))
      rw [hcx]
      exact h.tail x hx
    · rw [mem_singleton.mp hx, hnew]
  case mode =>
    intro x hx
    rcases mem_append.mp (show x ∈ r.ids ++ [l] from hx) with hx | hx
    · obtain ⟨c', hcx⟩ := snocLinks_old k r.last r.head (hne hx)
      rw [hcx]
      exact h.mode x hx
    · rw [mem_singleton.mp hx, hnew]
      exact hm

theorem hasWrite_snoc (hl : l ∉ r.ids) : hasWrite (snocLinks k l r.last r.head) ⟨r.head, r.tail ++ [l]⟩ =
      (hasWrite k r || (k l).write) := by
  have hold : (r.ids.any fun x => (snocLinks k l r.last r.head x).write) = hasWrite k r := by
    rw [Bool.eq_iff_iff, hasWrite, any_eq_true, any_eq_true]
    refine exists_congr fun x => and_congr_right fun hx => ?_
    obtain ⟨c, hcx⟩ := snocLinks_old k r.last r.head (fun hxl : x = l => hl (hxl ▸ hx))
    rw [hcx]
  have happ : hasWrite (snocLinks k l r.last r.head) ⟨r.head, r.tail ++ [l]⟩ =
      (r.ids ++ [l]).any fun x => (snocLinks k l r.last r.head x).write := rfl
  rw [happ, any_append, hold, any_cons, any_nil, Bool.or_false, snocLinks_self]

theorem Rings.snoc (h : Rings s (r :: L)) (hl : (s.link l).bmi = false) (hlt : l < s.next)
    (hc : (s.link l).cnp = (s.link r.head).cnp) (hm : (s.link l).read = !(s.link l).write) {w rd : ℤ}
    (hw : w - ([⟨r.head, r.tail ++ [l]⟩] : List Ring).countP (hasWrite (snocLinks s.link l r.last r.head)) =
      s.writers - [r].countP (hasWrite s.link)) (hr : rd - ([⟨r.head, r.tail ++ [l]⟩] : List Ring).countP
        (fun r' => !hasWrite (snocLinks s.link l r.last r.head) r') =
      s.readers - [r].countP fun r' => !hasWrite s.link r') :
    Rings ⟨s.leases, snocLinks s.link l r.last r.head, s.next, w, rd⟩ (⟨r.head, r.tail ++ [l]⟩ :: L) := by
  have hnew : l ∉ cells (r :: L) := fun hmem => by
    rw [(h.attached l).mp hmem] at hl
    cases hl
  have hlr : l ∉ r.ids := fun hmem => hnew (mem_append_left _ hmem)
  have hlL : l ∉ cells L := fun hmem => hnew (mem_append_right _ hmem)
  have hids : cells [(⟨r.head, r.tail ++ [l]⟩ : Ring)] = r.ids ++ [l] := by simp [Ring.ids]
  have hframe : ∀ x ∈ cells L, snocLinks s.link l r.last r.head x = s.link x := by
    intro x hx
    refine snocLinks_other _ _ (fun hxl => hlL (hxl ▸ hx)) fun hxt => ?_
    exact h.ids_disjoint r.last_mem (hxt ▸ hx)
  show Rings _ ([⟨r.head, r.tail ++ [l]⟩] ++ L)
  refine Rings.replace h hframe h.heads ?_ ?_ ?_ ?_ ?_ le_rfl ?_ hw hr
  · intro r' hr'
    rw [mem_singleton.mp hr']
    exact h.ok_first.snoc h.ids_nodup hlr hc hm
  · rw [hids]
    exact nodup_append.mpr ⟨h.ids_nodup, nodup_singleton l,
      fun a ha b hb hab => hlr ((mem_singleton.mp hb) ▸ hab ▸ ha)⟩
  · intro x hx
    rw [hids] at hx
    rcases mem_append.mp hx with hx | hx
    · exact h.ids_disjoint hx
    · rw [mem_singleton.mp hx]
      exact hlL
  · obtain ⟨c, hc0⟩ := snocLinks_old s.link r.last r.head (fun hx : r.head = l =>
      hlr (hx ▸ mem_cons_self))
    have hfirst : clients (snocLinks s.link l r.last r.head) [⟨r.head, r.tail ++ [l]⟩] =
        clients s.link [r] := by simp [clients, hc0]
    rw [hfirst]
    exact h.distinct
  · intro x hx
    rw [hids]
    by_cases hxl : x = l
    · subst hxl
      simp [snocLinks_self]
    obtain ⟨c, hcx⟩ := snocLinks_old s.link r.last r.head hxl
    show _ ↔ (snocLinks s.link l r.last r.head x).bmi = true
    rw [hcx, ← h.attached x]
    simp [hxl, hx]
  · intro x hx
    rw [hids] at hx
    rcases mem_append.mp hx with hx | hx
    · exact (h.mem_first hx).2
    · rw [mem_singleton.mp hx]
      exact hlt

def firstLinks (k : ℕ → Link) (l : ℕ) : ℕ → Link :=
  update k l { k l with chain := l, bmi := true }

theorem Rings.first (h : Rings s L) (hl : (s.link l).bmi = false) (hlt : l < s.next)
    (hc : (s.link l).cnp ∉ clients s.link L) (hch : (s.link l).chained = false)
    (hm : (s.link l).read = !(s.link l).write) {w rd : ℤ} (hw : w = s.writers + if (s.link l).write then 1 else 0)
    (hr : rd = s.readers + if (s.link l).write then 0 else 1) :
    Rings ⟨s.leases ++ [l], firstLinks s.link l, s.next, w, rd⟩ (⟨l, []⟩ :: L) := by
  have hlL : l ∉ cells L := fun hmem => by
    rw [(h.attached l).mp hmem] at hl
    cases hl
  have hself : firstLinks s.link l l = { s.link l with chain := l, bmi := true } := update_self ..
  have hne {x : ℕ} (hx : x ≠ l) : firstLinks s.link l x = s.link x := update_of_ne hx ..
  have hids : cells [(⟨l, []⟩ : Ring)] = [l] := rfl
  have hwrite : hasWrite (firstLinks s.link l) ⟨l, []⟩ = (s.link l).write := by
    simp [hasWrite, Ring.ids, hself]
  show Rings _ ([⟨l, []⟩] ++ L)
  refine Rings.replace (show Rings s ([] ++ L) from h) ?_ ?_ ?_ ?_ ?_ ?_ ?_ le_rfl ?_ ?_ ?_
  · exact fun x hx => hne fun hxl => hlL (hxl ▸ hx)
  · exact (h.heads.append_right [l]).trans perm_append_comm
  · intro r' hr'
    rw [mem_singleton.mp hr']
    have hmode : ∀ x ∈ [l], (firstLinks s.link l x).read = !(firstLinks s.link l x).write := by
      intro x hx
      rw [mem_singleton.mp hx, hself]
      exact hm
    exact ⟨by simp [hself], fun x hx => (nomatch hx), by simp [hself, hch], fun x hx => (nomatch hx), hmode⟩
  · exact nodup_singleton l
  · intro x hx
    rw [hids, mem_singleton] at hx
    exact hx ▸ hlL
  · have hfirst : clients (firstLinks s.link l) [⟨l, []⟩] = [(s.link l).cnp] := by
      simp [clients, hself]
    rw [hfirst]
    exact nodup_cons.mpr ⟨hc, h.distinct⟩
  · intro x hx
    rw [hids]
    show _ ↔ (firstLinks s.link l x).bmi = true
    by_cases hxl : x = l
    · subst hxl
      simp [hself]
    · rw [hne hxl, ← h.attached x]
      simp [hxl, hx]
  · intro x hx
    rw [hids, mem_singleton] at hx
    exact hx ▸ hlt
  · cases hlw : (s.link l).write <;> simp [hw, hwrite, hlw]
  · cases hlw : (s.link l).write <;> simp [hr, hwrite, hlw]

/-! ### A lease is upgraded -/

def writeLinks (k : ℕ → Link) (l : ℕ) : ℕ → Link :=
  update k l { k l with read := false, write := true }

theorem Rings.upgrade {s : Book} {L : List Ring} {l : ℕ} (h : Rings s (r :: L)) (hl : l ∈ r.ids) {w rd : ℤ}
    (hw : w = s.writers + if hasWrite s.link r then 0 else 1)
    (hr : rd = s.readers - if hasWrite s.link r then 0 else 1) :
    Rings ⟨s.leases, writeLinks s.link l, s.next, w, rd⟩ (r :: L) := by
  have hself : writeLinks s.link l l = { s.link l with read := false, write := true } := update_self ..
  have hne {x : ℕ} (hx : x ≠ l) : writeLinks s.link l x = s.link x := update_of_ne hx ..
  -- a link keeps everything but its mode
  have hkeep (x : ℕ) : (writeLinks s.link l x).chain = (s.link x).chain ∧
      (writeLinks s.link l x).cnp = (s.link x).cnp ∧ (writeLinks s.link l x).chained = (s.link x).chained ∧
      (writeLinks s.link l x).bmi = (s.link x).bmi ∧
      ((s.link x).read = !(s.link x).write → (writeLinks s.link l x).read = !(writeLinks s.link l x).write) := by
    by_cases hx : x = l
    · subst hx
      rw [hself]
      exact ⟨rfl, rfl, rfl, rfl, fun _ => rfl⟩
    · rw [hne hx]
      exact ⟨rfl, rfl, rfl, rfl, id⟩
  have hwrite : hasWrite (writeLinks s.link l) r := any_eq_true.mpr ⟨l, hl, by rw [hself]⟩
  have hcell : cells [r] = r.ids := by simp
  show Rings _ ([r] ++ L)
  refine Rings.replace (show Rings s ([r] ++ L) from h) ?_ h.heads ?_ ?_ ?_ ?_ ?_ le_rfl ?_ ?_ ?_
  · exact fun x hx => hne fun hxl => h.ids_disjoint hl (hxl ▸ hx)
  · intro r' hr'
    rw [mem_singleton.mp hr']
    refine h.ok_first.congr fun x _ => ?_
    obtain ⟨hchain, hcnp, hchained, -, hmode⟩ := hkeep x
    exact ⟨hchain, hcnp, hchained, hmode⟩
  · rw [hcell]
    exact h.ids_nodup
  · rw [hcell]
    exact fun x hx => h.ids_disjoint hx
  · have hfirst : clients (writeLinks s.link l) [r] = clients s.link [r] := by simp [clients, (hkeep r.head).2.1]
    rw [hfirst]
    exact h.distinct
  · intro x hx
    rw [(hkeep x).2.2.2.1, ← h.attached x]
    simp [hx]
  · rw [hcell]
    exact fun x hx => (h.mem_first hx).2
  · cases hrw : hasWrite s.link r <;> simp [hw, hwrite, hrw]
  · cases hrw : hasWrite s.link r <;> simp [hr, hwrite, hrw]

/-- The links after `l` has been taken out from behind `tail`. -/
def unlinkLinks (k : ℕ → Link) (l tail : ℕ) : ℕ → Link :=
  update (update k tail { k tail with chain := (k l).chain }) l
    { k l with bmi := false }

section Unlink

variable {tail : ℕ}

theorem unlinkLinks_self : unlinkLinks k l tail l = { k l with bmi := false } := update_self ..

theorem unlinkLinks_old (k : ℕ → Link) (tail : ℕ) (hx : x ≠ l) :
    ∃ c, unlinkLinks k l tail x = { k x with chain := c } := by
  unfold unlinkLinks
  rw [update_of_ne hx]
  by_cases hxt : x = tail
  · subst hxt
    exact ⟨(k l).chain, update_self ..⟩
  · exact ⟨(k x).chain, update_of_ne hxt ..⟩

theorem unlinkLinks_other (hx : x ≠ l) (hxt : x ≠ tail) : unlinkLinks k l tail x = k x := by
  unfold unlinkLinks
  rw [update_of_ne hx, update_of_ne hxt]

theorem unlinkLinks_chain (hlt : l ≠ tail) : (fun x => (unlinkLinks k l tail x).chain) =
    update (fun x => (k x).chain) tail (k l).chain := by
  funext x
  by_cases hx : x = l
  · subst hx
    simp [unlinkLinks, update_of_ne hlt]
  by_cases hxt : x = tail
  · subst hxt
    simp [unlinkLinks, update_of_ne hx]
  · simp [unlinkLinks, update_of_ne hx, update_of_ne hxt]

theorem RingOk.unlink {h : ℕ} {t u : List ℕ} (hok : RingOk k ⟨h, t ++ l :: u⟩) (hnd : (h :: (t ++ l :: u)).Nodup) :
    RingOk (unlinkLinks k l (Ring.last ⟨h, t⟩)) ⟨h, t ++ u⟩ := by
  have hsub {x : ℕ} (hx : x ∈ t ++ u) : x ∈ t ++ l :: u := (sublist_cons_self l u).append_left t |>.subset hx
  have hperm : (h :: t ++ l :: u).Perm (l :: (h :: t ++ u)) := perm_middle
  have hne {x : ℕ} (hx : x ∈ h :: (t ++ u)) : x ≠ l := fun hxl =>
    (nodup_cons.mp (hperm.nodup_iff.mp hnd)).1 (hxl ▸ hx)
  have hlast : l ≠ Ring.last ⟨h, t⟩ := fun hl =>
    hne (mem_append_left u (Ring.last_mem ⟨h, t⟩)) hl.symm
  obtain ⟨c, hhead⟩ := unlinkLinks_old k (Ring.last ⟨h, t⟩) (hne mem_cons_self)
  constructor
  case links =>
    rw [unlinkLinks_chain hlast]
    exact hok.links.unlink hnd
  case client =>
    intro x hx
    obtain ⟨c', hx'⟩ := unlinkLinks_old k (Ring.last ⟨h, t⟩) (hne (mem_cons_of_mem _ hx))
    rw [hx', hhead]
    exact hok.client x (hsub hx)
  case head =>
    rw [hhead]
    exact hok.head
  case tail =>
    intro x hx
    obtain ⟨c', hx'⟩ := unlinkLinks_old k (Ring.last ⟨h, t⟩) (hne (mem_cons_of_mem _ hx))
    rw [hx']
    exact hok.tail x (hsub hx)
  case mode =>
    intro x hx
    obtain ⟨c', hx'⟩ := unlinkLinks_old k (Ring.last ⟨h, t⟩) (hne hx)
    rw [hx']
    rcases mem_cons.mp hx with rfl | hx
    · exact hok.mode _ mem_cons_self
    · exact hok.mode x (mem_cons_of_mem _ (hsub hx))

/-- The links after `c` has become a head. -/
def headLinks (k : ℕ → Link) (c : ℕ) : ℕ → Link :=
  update k c { k c with chained := false }

theorem headLinks_self (k : ℕ → Link) (c : ℕ) : headLinks k c c = { k c with chained := false } := update_self ..

theorem headLinks_other (k : ℕ → Link) {c : ℕ} (hx : x ≠ c) : headLinks k c x = k x := update_of_ne hx ..

theorem headLinks_chain (k : ℕ → Link) (c : ℕ) : (fun x => (headLinks k c x).chain) = fun x => (k x).chain := by
  funext x
  by_cases hx : x = c
  · subst hx
    rw [headLinks_self]
  · rw [headLinks_other k hx]

theorem RingOk.behead {c : ℕ} {t : List ℕ} (hok : RingOk k ⟨l, c :: t⟩) (hnd : (l :: c :: t).Nodup) :
    RingOk (unlinkLinks (headLinks k c) l (Ring.last ⟨c, t⟩)) ⟨c, t⟩ := by
  have hne {x : ℕ} (hx : x ∈ c :: t) : x ≠ l := fun hxl => (nodup_cons.mp hnd).1 (hxl ▸ hx)
  have hct : c ∉ t := (nodup_cons.mp (nodup_cons.mp hnd).2).1
  have hlast : l ≠ Ring.last ⟨c, t⟩ := fun hl => hne (Ring.last_mem ⟨c, t⟩) hl.symm
  have hlc : l ≠ c := (hne mem_cons_self).symm
  -- behind the new head only the pointer of the last cell has changed
  have htail {x : ℕ} (hx : x ∈ t) :
      ∃ d, unlinkLinks (headLinks k c) l (Ring.last ⟨c, t⟩) x = { k x with chain := d } := by
    obtain ⟨d, hd⟩ := unlinkLinks_old (headLinks k c) (Ring.last ⟨c, t⟩) (hne (mem_cons_of_mem c hx))
    rw [headLinks_other k (fun hxc : x = c => hct (hxc ▸ hx))] at hd
    exact ⟨d, hd⟩
  obtain ⟨c₀, hhead⟩ := unlinkLinks_old (headLinks k c) (Ring.last ⟨c, t⟩) (hne mem_cons_self)
  rw [headLinks_self] at hhead
  have hcl : (k c).cnp = (k l).cnp := hok.client c mem_cons_self
  constructor
  case links =>
    have hnext : (k l).chain = c := hok.links.1
    rw [unlinkLinks_chain hlast, headLinks_chain, headLinks_other k hlc, hnext]
    exact hok.links.2.redirect (nodup_cons.mp hnd).2
  case client =>
    intro x hx
    obtain ⟨c', hx'⟩ := htail hx
    rw [hx', hhead]
    exact (hok.client x (mem_cons_of_mem c hx)).trans hcl.symm
  case head => rw [hhead]
  case tail =>
    intro x hx
    obtain ⟨c', hx'⟩ := htail hx
    rw [hx']
    exact hok.tail x (mem_cons_of_mem c hx)
  case mode =>
    intro x hx
    rcases mem_cons.mp hx with rfl | hx
    · rw [hhead]
      exact hok.mode _ (mem_cons_of_mem l mem_cons_self)
    obtain ⟨c', hx'⟩ := htail hx
    rw [hx']
    exact hok.mode x (mem_cons_of_mem l (mem_cons_of_mem c hx))

end Unlink

section Drop

variable {k' : ℕ → Link} {leases' : List ℕ} {w rd : ℤ}

theorem hasWrite_congr {k k' : ℕ → Link} (h : ∀ x ∈ r.ids, (k' x).write = (k x).write) :
    hasWrite k' r = hasWrite k r := by
  rw [Bool.eq_iff_iff, hasWrite, hasWrite, any_eq_true, any_eq_true]
  exact exists_congr fun x => and_congr_right fun hx => by rw [h x hx]

theorem Rings.drop (h : Rings s (r :: L)) {r' : Ring} (hperm : r.ids.Perm (l :: r'.ids))
    (hok : RingOk k' r') (hframe : ∀ x, x ∉ r.ids → k' x = s.link x)
    (hold : ∀ x ∈ r'.ids, ∃ g c, k' x = { s.link x with chained := g, chain := c })
    (hl : (k' l).bmi = false) (hheads : leases'.Perm (r'.head :: L.map Ring.head))
    (hw : w - [r'].countP (hasWrite s.link) = s.writers - [r].countP (hasWrite s.link))
    (hr : rd - [r'].countP (fun r => !hasWrite s.link r) = s.readers - [r].countP fun r => !hasWrite s.link r) :
    Rings ⟨leases', k', s.next, w, rd⟩ (r' :: L) := by
  have hsub {x : ℕ} (hx : x ∈ r'.ids) : x ∈ r.ids := hperm.mem_iff.mpr (mem_cons_of_mem l hx)
  have hcell : cells [r'] = r'.ids := by simp
  have hbmi {x : ℕ} (hx : x ∈ r'.ids) : (k' x).bmi := by
    obtain ⟨g, c, hc⟩ := hold x hx
    rw [hc]
    exact (h.mem_first (hsub hx)).1
  have hcl : (k' r'.head).cnp = (s.link r.head).cnp := by
    obtain ⟨g, c, hc⟩ := hold r'.head mem_cons_self
    rw [hc]
    exact h.ok_first.client_ids (hsub mem_cons_self)
  have hwr : hasWrite k' r' = hasWrite s.link r' := hasWrite_congr fun x hx => by
    obtain ⟨g, c, hc⟩ := hold x hx
    rw [hc]
  show Rings _ ([r'] ++ L)
  refine Rings.replace (show Rings s ([r] ++ L) from h) ?_ hheads ?_ ?_ ?_ ?_ ?_ le_rfl ?_ ?_ ?_
  · exact fun x hx => hframe x fun hxr => h.ids_disjoint hxr hx
  · intro q hq
    rw [mem_singleton.mp hq]
    exact hok
  · rw [hcell]
    exact (nodup_cons.mp (hperm.nodup_iff.mp h.ids_nodup)).2
  · rw [hcell]
    exact fun x hx => h.ids_disjoint (hsub hx)
  · have hfirst : clients k' [r'] = clients s.link [r] := by simp [clients, hcl]
    rw [hfirst]
    exact h.distinct
  · intro x hx
    show _ ↔ (k' x).bmi = true
    by_cases hxr : x ∈ r.ids
    · rcases mem_cons.mp (hperm.mem_iff.mp hxr) with rfl | hx'
      · have hnot : x ∉ r'.ids := (nodup_cons.mp (hperm.nodup_iff.mp h.ids_nodup)).1
        simp [hnot, hl]
      · simp [hx', hbmi hx']
    rw [hframe x hxr, ← h.attached x]
    have hnot : x ∉ r'.ids := fun hx' => hxr (hsub hx')
    simp [hxr, hnot, hx]
  · rw [hcell]
    exact fun x hx => (h.mem_first (hsub hx)).2
  · simpa only [countP_singleton, hwr] using hw
  · simpa only [countP_singleton, hwr] using hr

theorem Rings.dropSole (h : Rings s (⟨l, []⟩ :: L)) (hframe : ∀ x, x ≠ l → k' x = s.link x)
    (hl : (k' l).bmi = false) (hheads : leases'.Perm (L.map Ring.head))
    (hw : w = s.writers - if (s.link l).write then 1 else 0) (hr : rd = s.readers - if (s.link l).write then 0 else 1) :
    Rings ⟨leases', k', s.next, w, rd⟩ L := by
  have hlL : l ∉ cells L := h.ids_disjoint mem_cons_self
  have hwrite : hasWrite s.link ⟨l, []⟩ = (s.link l).write := by simp [hasWrite, Ring.ids]
  show Rings _ ([] ++ L)
  refine Rings.replace (show Rings s ([⟨l, []⟩] ++ L) from h) ?_ hheads ?_ ?_ ?_ ?_ ?_ le_rfl ?_ ?_ ?_
  · exact fun x hx => hframe x fun hxl => hlL (hxl ▸ hx)
  · exact fun q hq => (nomatch hq)
  · exact nodup_nil
  · exact fun x hx => (nomatch hx)
  · exact (nodup_cons.mp h.distinct).2
  · intro x hx
    show _ ↔ (k' x).bmi = true
    by_cases hxl : x = l
    · subst hxl
      simp [hl]
    · rw [hframe x hxl, ← h.attached x]
      simp [Ring.ids, hxl, hx]
  · exact fun x hx => (nomatch hx)
  · cases hlw : (s.link l).write <;> simp [hw, hwrite, hlw]
  · cases hlw : (s.link l).write <;> simp [hr, hwrite, hlw]

end Drop

end Slash2.Lease
