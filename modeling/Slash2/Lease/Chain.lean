/-
# Operations on the chains

What the lease operations do to the chains of `Rings`: `mds_bmap_dupls_find` finds a
client's chain and counts it, adding puts the new lease at its end, an upgrade turns
one of its read leases into a write lease, and a removal takes one out, with a new
head where the old one goes.

Key theorems: `mdsBmapBmlAdd_rings`, `mdsBmapBmlRelease_rings`.
-/
import Slash2.Lease.Frame
import Slash2.Lease.Rings

namespace Slash2.Lease

open Lib List Option Function

/-! ### What does not touch the bookkeeping -/

theorem book_modify (b : Bmap) (l : ℕ) (f : Bml → Bml) : (b.modify l f).book =
      { b.book with link := update b.book.link l (f (b.bml l)).toLink } := by
  have hlink : (fun x => (update b.bml l (f (b.bml l)) x).toLink) = update b.book.link l (f (b.bml l)).toLink := by
    funext x
    by_cases hx : x = l
    · subst hx
      simp
    · simp [update_of_ne hx, Bmap.book]
  rw [← hlink]
  rfl

theorem setChain_book (b : Bmap) (l c : ℕ) : (b.setChain l c).book =
    { b.book with link := update b.book.link l { b.book.link l with chain := c } } :=
  book_modify b l _

theorem book_modify_same (b : Bmap) (l : ℕ) (f : Bml → Bml)
    (hf : ∀ m, (f m).toLink = m.toLink := by intro; rfl) : (b.modify l f).book = b.book := by
  rw [book_modify, hf]
  have : update b.book.link l (b.bml l).toLink = b.book.link := update_eq_self l b.book.link
  rw [this]

variable {b' : Bmap} {rc : ℤ} {e : Env} {d : Dupls} {k : ℕ → Link} {b : Bmap}

theorem mdsBmapDirectio_book {rw' : Rw} {want : Bool} {np : Nidpid}
    (h : mdsBmapDirectio b rw' want np = some (b', rc)) : b'.book = b.book := by
  obtain ⟨g, p, q, cbs, rfl⟩ := mdsBmapDirectio_marked h
  rfl

variable {l : ℕ}

theorem Reassigned.book (h : Reassigned l b b') : b'.book = b.book := by
  obtain ⟨i, s, f, n, w, q, a, rfl⟩ := h
  exact book_modify_same b l fun m => { m with ios := i, seq := s, assfail := f }

variable {r : Ring} {L : List Ring}

theorem Rings.visits_first (h : Rings b.book (r :: L)) : visits b.chain r.head b.next r.head = some r.ids :=
  visits_of_links h.ok_first.links (nodup_cons.mp h.ids_nodup).1 h.length_lt

theorem duplsFind_ring (h : Rings b.book (r :: L)) : mdsBmapDuplsFind b (b.bml r.head).cnp =
      some ⟨some r.head, wcount b.book.link r, rcount b.book.link r⟩ := by
  have hfilter : b.leases.filter (fun l => (b.bml l).cnp = (b.bml r.head).cnp) = [r.head] := by
    have hnd : (b.bml r.head).cnp ∉ clients b.book.link L := (nodup_cons.mp h.distinct).1
    have hothers : (L.map Ring.head).filter (fun l => (b.bml l).cnp = (b.bml r.head).cnp) = [] := by
      rw [filter_eq_nil_iff]
      intro l hl hc
      obtain ⟨r', hr', rfl⟩ := mem_map.mp hl
      exact hnd (mem_map.mpr ⟨r', hr', of_decide_eq_true hc⟩)
    have hperm := h.heads.filter fun l => decide ((b.bml l).cnp = (b.bml r.head).cnp)
    rw [map_cons, filter_cons_of_pos (by simp), hothers] at hperm
    exact perm_singleton.mp hperm
  have hw : (r.ids.countP fun l => !(b.bml l).read) = wcount b.book.link r := by
    refine countP_congr fun l hl => ?_
    have hmode : (b.bml l).read = !(b.bml l).write := h.ok_first.mode l hl
    simp [hmode, Bmap.book]
  unfold mdsBmapDuplsFind
  rw [hfilter]
  simp only [h.visits_first, map_some, hw]
  rfl

theorem duplsFind_none (h : Rings b.book L) {c : Nidpid}
    (hc : c ∉ clients b.book.link L) : mdsBmapDuplsFind b c = some ⟨none, 0, 0⟩ := by
  have hfilter : b.leases.filter (fun l => (b.bml l).cnp = c) = [] := by
    rw [filter_eq_nil_iff]
    intro l hl hlc
    obtain ⟨r, hr, rfl⟩ := mem_map.mp (h.heads.mem_iff.mp hl)
    exact hc (mem_map.mpr ⟨r, hr, of_decide_eq_true hlc⟩)
  unfold mdsBmapDuplsFind
  rw [hfilter]

/-! ### Adding -/

theorem Rings.not_mem {s : Book} (h : Rings s L) (hl : (s.link l).bmi = false) : l ∉ s.leases := fun hmem => by
  obtain ⟨r, hr, rfl⟩ := mem_map.mp (h.heads.mem_iff.mp hmem)
  rw [(h.attached _).mp (head_mem_cells hr)] at hl
  cases hl

theorem before_last (h : Rings b.book (r :: L)) : before b.chain r.head b.next r.head = some r.last :=
  before_of_links h.ok_first.links (nodup_cons.mp h.ids_nodup).1 h.length_lt

theorem attach_ring (h : Rings b.book (r :: L)) (hl : (b.bml l).bmi = false) (hd : d.head = some r.head) :
    ∃ b', attach l d b = some b' ∧ b'.book = { b.book with link := snocLinks b.book.link l r.last r.head } := by
  have hlast : r.last ≠ l := fun hrl => by
    have hbmi := (h.mem_first r.last_mem).1
    rw [hrl] at hbmi
    exact absurd hbmi (by simpa [Bmap.book] using hl)
  refine ⟨(b.setChain r.last l).modify l fun m =>
    { m with chained := true, chain := r.head, bmi := true }, ?_, ?_⟩
  · have hnot : l ∉ b.leases := h.not_mem hl
    unfold attach
    simp only [hd, before_last h, bind_some, if_neg hnot]
  · have hsame : (b.setChain r.last l).bml l = b.bml l := update_of_ne hlast.symm ..
    rw [book_modify, setChain_book, hsame]
    rfl

theorem attach_first (hd : d.head = none) : ∃ b', attach l d b = some b' ∧ b'.book =
      { b.book with leases := b.leases ++ [l], link := firstLinks b.book.link l } := by
  refine ⟨{ b.modify l fun m => { m with chain := l, bmi := true } with
    leases := b.leases ++ [l] }, by simp only [attach, hd], ?_⟩
  have hlink := congrArg Book.link (book_modify b l fun m => { m with chain := l, bmi := true })
  exact congrArg (fun k => (⟨b.leases ++ [l], k, b.next, b.writers, b.readers⟩ : Book)) hlink

/-- What `mds_bmap_dupls_find` finds of a chain. -/
def Ring.dupls (k : ℕ → Link) (r : Ring) : Dupls := ⟨some r.head, wcount k r, rcount k r⟩

theorem RingOk.rcount_ne_zero (h : RingOk k r) (hw : hasWrite k r = false) : rcount k r ≠ 0 := by
  have hsum := h.wcount_add_rcount
  have hlen : r.ids.length = r.tail.length + 1 := rfl
  rw [wcount_eq_zero.mpr hw] at hsum
  omega

def Book.count (s : Book) (w r : ℤ) : Book :=
  ⟨s.leases, s.link, s.next, s.writers + w, s.readers + r⟩

theorem countWriter_book (d : Dupls) (b : Bmap) : (countWriter d b).book =
    b.book.count (if d.wlease = 0 then 1 else 0) (if d.wlease = 0 ∧ d.rlease ≠ 0 then -1 else 0) := by
  unfold countWriter
  by_cases hw : d.wlease = 0 <;> by_cases hr : d.rlease = 0 <;>
    simp [hw, hr, Bmap.book, Book.count, Int.sub_eq_add_neg]

theorem countReader_book (d : Dupls) (b : Bmap) : (countReader d b).book =
    b.book.count 0 (if d.wlease = 0 ∧ d.rlease = 0 then 1 else 0) := by
  unfold countReader
  split <;> simp [Bmap.book, Book.count]

section Add

variable {b₁ : Bmap}

section
variable (h : Rings b.book (r :: L)) (hl : (b.bml l).bmi = false)
include h hl

theorem Rings.not_mem_ids : l ∉ r.ids := fun hmem => by
    have hbmi : (b.bml l).bmi := (h.mem_first hmem).1
    rw [hl] at hbmi
    cases hbmi

section
variable (hlt : l < b.next) (hc : (b.bml l).cnp = (b.bml r.head).cnp) (hm : (b.bml l).read = !(b.bml l).write)
include hlt hc hm

theorem countWriter_snoc
    
    (hw : (b.bml l).write) (hb : b₁.book = { b.book with link := snocLinks b.book.link l r.last r.head }) :
    Rings (countWriter (r.dupls b.book.link) b₁).book (⟨r.head, r.tail ++ [l]⟩ :: L) := by
  have hnew : hasWrite (snocLinks b.book.link l r.last r.head) ⟨r.head, r.tail ++ [l]⟩ := by
    rw [hasWrite_snoc (h.not_mem_ids hl)]
    exact Bool.or_eq_true_iff.mpr (.inr hw)
  rw [countWriter_book, hb]
  refine h.snoc hl hlt hc hm ?_ ?_ <;> rw [countP_singleton, countP_singleton, hnew]
  · cases hrw : hasWrite b.book.link r with
    | false => simp [Ring.dupls, wcount_eq_zero.mpr hrw]
    | true => simp [Ring.dupls, wcount_ne_zero hrw]
  · cases hrw : hasWrite b.book.link r with
    | false =>
      simp [Ring.dupls, wcount_eq_zero.mpr hrw, h.ok_first.rcount_ne_zero hrw, Int.sub_eq_add_neg]
    | true => simp [Ring.dupls, wcount_ne_zero hrw]

theorem countReader_snoc
    
    (hw : (b.bml l).write = false) (hb : b₁.book = { b.book with link := snocLinks b.book.link l r.last r.head }) :
    Rings (countReader (r.dupls b.book.link) b₁).book (⟨r.head, r.tail ++ [l]⟩ :: L) := by
  have hnew : hasWrite (snocLinks b.book.link l r.last r.head) ⟨r.head, r.tail ++ [l]⟩ = hasWrite b.book.link r := by
    have hlw : (b.book.link l).write = false := hw
    rw [hasWrite_snoc (h.not_mem_ids hl), hlw, Bool.or_false]
  have hnone : ¬ ((r.dupls b.book.link).wlease = 0 ∧ (r.dupls b.book.link).rlease = 0) :=
    fun h0 => h.ok_first.rcount_ne_zero (wcount_eq_zero.mp h0.1) h0.2
  rw [countReader_book, hb, if_neg hnone]
  refine h.snoc hl hlt hc hm ?_ ?_ <;>
    simp only [countP_singleton, hnew, Int.add_zero]

end

end

theorem count_first (h : Rings b.book L) (hl : (b.bml l).bmi = false) (hlt : l < b.next)
    (hc : (b.bml l).cnp ∉ clients b.book.link L) (hch : (b.bml l).chained = false)
    (hm : (b.bml l).read = !(b.bml l).write) (hd : d = ⟨none, 0, 0⟩)
    (hb : b₁.book = { b.book with leases := b.leases ++ [l], link := firstLinks b.book.link l }) :
    Rings (if (b.bml l).write then countWriter d b₁ else countReader d b₁).book (⟨l, []⟩ :: L) := by
  subst hd
  have hlw : (b.book.link l).write = (b.bml l).write := rfl
  cases hw : (b.bml l).write
  · rw [if_neg (by simp), countReader_book, hb]
    exact h.first hl hlt hc hch hm (by simp [hlw, hw]) (by simp [hlw, hw])
  · rw [if_pos rfl, countWriter_book, hb]
    exact h.first hl hlt hc hch hm (by simp [hlw, hw]) (by simp [hlw, hw])

end Add

structure Fresh (b : Bmap) (l : ℕ) : Prop where
  bound : l < b.next
  bmi : (b.bml l).bmi = false
  chained : (b.bml l).chained = false
  mode : (b.bml l).read = !(b.bml l).write

theorem Fresh.of_book (h : Fresh b l) (hb : b'.book = b.book) : Fresh b' l := by
  have hlink : (b'.bml l).toLink = (b.bml l).toLink := congrFun (congrArg Book.link hb) l
  have hnext : b'.next = b.next := congrArg Book.next hb
  refine ⟨hnext ▸ h.bound, ?_, ?_, ?_⟩
  · rw [hlink]
    exact h.bmi
  · rw [hlink]
    exact h.chained
  · rw [hlink]
    exact h.mode

theorem mdsBmapBmlAdd_rings (hR : Rings b.book L)
    (hl : Fresh b l) (h : mdsBmapBmlAdd e l b = some (b', rc)) : ∃ L', Rings b'.book L' := by
  rcases mdsBmapBmlAdd_cases h with ⟨-, hdio⟩ | ⟨b₀, rc₀, d, b₁, hdio, -, hd, hatt, hmode⟩
  · exact ⟨L, mdsBmapDirectio_book hdio ▸ hR⟩
  have hbook := mdsBmapDirectio_book hdio
  have hlink : (b₀.bml l).toLink = (b.bml l).toLink := congrFun (congrArg Book.link hbook) l
  have hR₀ : Rings b₀.book L := hbook ▸ hR
  have hl₀ := hl.of_book hbook
  have hcnp : (b₀.bml l).cnp = (b.bml l).cnp := congrArg Link.cnp hlink
  have hwrite : (b₀.bml l).write = (b.bml l).write := congrArg Link.write hlink
  -- the counters are those of the lease's mode, the rest leaves the bookkeeping alone
  have hb' : b'.book = (if (b₀.bml l).write then countWriter d b₁ else countReader d b₁).book := by
    rcases hmode with ⟨hw, h⟩ | ⟨hw, -, rfl⟩
    · rw [hwrite, hw, if_pos rfl]
      exact (addAssign_reassigned h).book
    · have hseq : (b₁.modify l (Bml.numbered e.seq)).book = b₁.book := book_modify_same b₁ l _
      rw [hwrite, hw, if_neg (by simp), countReader_book, countReader_book, hseq]
  rw [hb']
  rcases hR₀.split (b.bml l).cnp with ⟨r, L', hR', hc⟩ | hc
  · have hc' : (b₀.bml l).cnp = (b₀.bml r.head).cnp := hcnp.trans hc.symm
    have hd' : d = r.dupls b₀.book.link := by
      have hfind := duplsFind_ring hR'
      rw [← hc', hcnp, hd] at hfind
      exact some.inj hfind
    subst hd'
    obtain ⟨b₂, hatt', hbook₂⟩ := attach_ring (d := r.dupls b₀.book.link) hR' hl₀.bmi rfl
    obtain rfl : b₁ = b₂ := some.inj (hatt.symm.trans hatt')
    cases hw : (b₀.bml l).write
    · exact ⟨_, countReader_snoc hR' hl₀.bmi hl₀.bound hc' hl₀.mode hw hbook₂⟩
    · exact ⟨_, countWriter_snoc hR' hl₀.bmi hl₀.bound hc' hl₀.mode hw hbook₂⟩
  · have hd' : d = ⟨none, 0, 0⟩ := some.inj (hd.symm.trans (duplsFind_none hR₀ hc))
    obtain ⟨b₂, hatt', hbook₂⟩ := attach_first (d := d) (by rw [hd'])
    obtain rfl : b₁ = b₂ := some.inj (hatt.symm.trans hatt')
    exact ⟨_, count_first hR₀ hl₀.bmi hl₀.bound (hcnp ▸ hc) hl₀.chained hl₀.mode hd' hbook₂⟩

/-! ### Upgrading -/

theorem duplsFind_of_mem {r : Ring} (h : Rings b.book (r :: L))
    (hl : l ∈ r.ids) : mdsBmapDuplsFind b (b.bml l).cnp = some (r.dupls b.book.link) := by
  have hc : (b.bml l).cnp = (b.bml r.head).cnp := h.ok_first.client_ids hl
  rw [hc]
  exact duplsFind_ring h

theorem mdsBmapBmlChwrmode_rings {rc : Option ℤ}
    (hR : Rings b.book L) (hl : (b.bml l).bmi) (h : mdsBmapBmlChwrmode e l b = some (b', rc)) :
    ∃ L', Rings b'.book L' := by
  rcases mdsBmapBmlChwrmode_cases h with ⟨-, rfl, -⟩ | ⟨-, b₀, rc₀, hdio, hcont⟩
  · exact ⟨L, hR⟩
  have hbook₀ := mdsBmapDirectio_book hdio
  rcases hcont with ⟨-, rfl, -⟩ | ⟨-, b₁, rc₁, hios, hturn⟩
  · exact ⟨L, hbook₀ ▸ hR⟩
  have hbook : b₁.book = b.book := (iosChange_reassigned hios).book.trans hbook₀
  have hR₁ : Rings b₁.book L := hbook ▸ hR
  rcases hturn with ⟨-, rfl, -⟩ | ⟨-, -, d, hd, rfl⟩
  · refine ⟨L, ?_⟩
    rw [book_modify_same b₁ l Bml.refused]
    exact hR₁
  have hlink : (b₁.bml l).toLink = (b.bml l).toLink := congrFun (congrArg Book.link hbook) l
  have hbmi : (b₁.book.link l).bmi := (congrArg Link.bmi hlink).trans hl
  obtain ⟨r, L', hR', hlr⟩ := hR₁.split_cell hbmi
  have hcnp : (b₁.bml l).cnp = (b.bml l).cnp := congrArg Link.cnp hlink
  obtain rfl : d = r.dupls b₁.book.link := by
    have hfind := duplsFind_of_mem hR' hlr
    rw [hcnp, hd] at hfind
    exact some.inj hfind
  refine ⟨r :: L', ?_⟩
  rw [book_modify]
  cases hrw : hasWrite b₁.book.link r with
  | false =>
    have hz : (r.dupls b₁.book.link).wlease = 0 := wcount_eq_zero.mpr hrw
    simp only [countUpgrade, if_pos hz]
    exact hR'.upgrade hlr (by rw [hrw]; rfl) (by rw [hrw]; rfl)
  | true =>
    have hz : (r.dupls b₁.book.link).wlease ≠ 0 := wcount_ne_zero hrw
    simp only [countUpgrade, if_neg hz]
    exact hR'.upgrade hlr (by rw [hrw]; exact (Int.add_zero _).symm) (by rw [hrw]; exact (Int.sub_zero _).symm)

theorem wcount_perm {r r' : Ring} (hperm : r.ids.Perm (l :: r'.ids)) :
    wcount k r = wcount k r' + if (k l).write then 1 else 0 := by
  rw [wcount, hperm.countP_eq, countP_cons]
  rfl

theorem rcount_perm {r r' : Ring} (hperm : r.ids.Perm (l :: r'.ids)) :
    rcount k r = rcount k r' + if (k l).read then 1 else 0 := by
  rw [rcount, hperm.countP_eq, countP_cons]
  rfl

theorem Rings.counted (h : Rings b.book (r :: L)) : (hasWrite b.book.link r → b.writers > 0) ∧
      (hasWrite b.book.link r = false → b.readers > 0) := by
  have hw : b.writers = _ := h.writers
  have hr : b.readers = _ := h.readers
  rw [countP_cons] at hw hr
  constructor
  · intro hrw
    rw [if_pos hrw] at hw
    omega
  · intro hrw
    rw [if_pos (by rw [hrw]; rfl)] at hr
    omega

theorem uncount_drop (h : Rings b.book (r :: L)) (r' : Ring) (hperm : r.ids.Perm (l :: r'.ids))
    (b₁ : Bmap) (hw₁ : b₁.writers = b.writers) (hr₁ : b₁.readers = b.readers) :
    ∃ b₂ w rd, uncount (b.bml l) (r.dupls b.book.link) b₁ = some b₂ ∧
      b₂.book = { b₁.book with writers := w, readers := rd } ∧
      w - [r'].countP (hasWrite b.book.link) = b.writers - [r].countP (hasWrite b.book.link) ∧
      rd - [r'].countP (fun r => !hasWrite b.book.link r) =
        b.readers - [r].countP fun r => !hasWrite b.book.link r := by
  have hl : l ∈ r.ids := hperm.mem_iff.mpr mem_cons_self
  have hmode : (b.bml l).read = !(b.bml l).write := h.ok_first.mode l hl
  have hwc := wcount_perm (k := b.book.link) hperm
  have hrc := rcount_perm (k := b.book.link) hperm
  have hsum := h.ok_first.wcount_add_rcount
  have hlen : r.ids.length = r'.tail.length + 2 := by simpa [Ring.ids] using hperm.length_eq
  obtain ⟨hpos, -⟩ := h.counted
  have hlw : (b.book.link l).write = (b.bml l).write := rfl
  have hlr : (b.book.link l).read = (b.bml l).read := rfl
  unfold uncount Ring.dupls
  cases hwrite : (b.bml l).write
  · -- a read lease: the rest of the chain has the same write leases, and it is not empty
    simp only [hlw, hlr, hmode, hwrite, Bool.not_false, if_true, Bool.false_eq_true, if_false] at hwc hrc
    have hnone : ¬ (wcount b.book.link r = 0 ∧ rcount b.book.link r = 1) := by omega
    have hsame : hasWrite b.book.link r' = hasWrite b.book.link r := by
      rw [Bool.eq_iff_iff, ← not_iff_not, Bool.not_eq_true, Bool.not_eq_true, ← wcount_eq_zero, ← wcount_eq_zero, hwc]
      rfl
    refine ⟨b₁, b.writers, b.readers, ?_, ?_, ?_, ?_⟩
    · simp only [hmode, hwrite, Bool.not_false, not_true_eq_false, Bool.false_eq_true, if_false, if_neg hnone]
    · rw [← hw₁, ← hr₁]
      rfl
    · simp only [countP_singleton, hsame]
    · simp only [countP_singleton, hsame]
  · simp only [hlw, hlr, hmode, hwrite, Bool.not_true, if_true, Bool.false_eq_true, if_false] at hwc hrc
    have hrw : hasWrite b.book.link r := by
      rw [← Bool.not_eq_false, ← wcount_eq_zero]
      omega
    by_cases hone : wcount b.book.link r = 1
    · -- the client's last write lease: its other leases make it a reader
      have hrw' : hasWrite b.book.link r' = false := wcount_eq_zero.mp (by omega)
      have hrne : rcount b.book.link r ≠ 0 := by omega
      refine ⟨{ b₁ with writers := b.writers - 1, readers := b.readers + 1 }, b.writers - 1,
        b.readers + 1, ?_, rfl, ?_, ?_⟩
      · simp only [if_true, if_pos hone, hw₁, if_pos (hpos hrw), hr₁, if_pos hrne]
      · simp [hrw, hrw']
      · simp [hrw, hrw']
    · have hrw' : hasWrite b.book.link r' := by
        rw [← Bool.not_eq_false, ← wcount_eq_zero]
        omega
      refine ⟨b₁, b.writers, b.readers, ?_, ?_, ?_, ?_⟩
      · simp only [if_true, if_neg hone]
      · rw [← hw₁, ← hr₁]
        rfl
      · simp only [countP_singleton, hrw, hrw']
      · simp only [countP_singleton, hrw, hrw']

theorem uncount_sole (h : Rings b.book (⟨l, []⟩ :: L)) (b₁ : Bmap)
    (hw₁ : b₁.writers = b.writers) (hr₁ : b₁.readers = b.readers) :
    ∃ b₂, uncount (b.bml l) (Ring.dupls b.book.link ⟨l, []⟩) b₁ = some b₂ ∧
      b₂.book = { b₁.book with writers := b.writers - if (b.bml l).write then 1 else 0,
                               readers := b.readers - if (b.bml l).write then 0 else 1 } := by
  have hmode : (b.bml l).read = !(b.bml l).write := h.ok_first.mode l mem_cons_self
  obtain ⟨hpos, hpos'⟩ := h.counted
  have hhas : hasWrite b.book.link ⟨l, []⟩ = (b.bml l).write := by
    simp [hasWrite, Ring.ids, Bmap.book]
  unfold uncount
  cases hwrite : (b.bml l).write
  · have hwc : wcount b.book.link ⟨l, []⟩ = 0 := by simp [wcount, Ring.ids, Bmap.book, hwrite]
    have hrc : rcount b.book.link ⟨l, []⟩ = 1 := by
      simp [rcount, Ring.ids, Bmap.book, hmode, hwrite]
    have hrd : 0 < b.readers := hpos' (hhas.trans hwrite)
    refine ⟨{ b₁ with readers := b.readers - 1 }, ?_, ?_⟩
    · simp [Ring.dupls, hwc, hrc, hmode, hwrite, hrd, hr₁]
    · simp [Bmap.book, hw₁]
  · have hwc : wcount b.book.link ⟨l, []⟩ = 1 := by simp [wcount, Ring.ids, Bmap.book, hwrite]
    have hrc : rcount b.book.link ⟨l, []⟩ = 0 := by
      simp [rcount, Ring.ids, Bmap.book, hmode, hwrite]
    have hwr : 0 < b.writers := hpos (hhas.trans hwrite)
    refine ⟨{ b₁ with writers := b.writers - 1 }, ?_, ?_⟩
    · simp [Ring.dupls, hwc, hrc, hwr, hw₁]
    · simp [Bmap.book, hr₁]

theorem Rings.not_chained {s : Book} {L : List Ring} (h : Rings s L) {l : ℕ}
    (hl : (s.link l).chained) : l ∉ s.leases := fun hmem => by
  obtain ⟨r, hr, rfl⟩ := mem_map.mp (h.heads.mem_iff.mp hmem)
  rw [(h.ok r hr).head] at hl
  cases hl

theorem delLocked_eq {n tail : ℕ} (h : Rings b.book (r :: L)) (hl : l ∈ r.ids)
    (hn : r.ids.length = n) (hb : before b.chain l b.next r.head = some tail) : mdsBmapBmlDelLocked l b =
      (unlink l tail r.head n b).bind (uncount (b.bml l) (r.dupls b.book.link)) := by
  have hsum : (r.dupls b.book.link).wlease + (r.dupls b.book.link).rlease = n := h.ok_first.wcount_add_rcount.trans hn
  have hpos : n ≠ 0 := hn ▸ (by simp [Ring.ids])
  have hhead : (b.bml r.head).chained = false := h.ok_first.head
  have hno : ¬ (n = 0 ∨ (b.bml r.head).chained = true) := by simp [hpos, hhead]
  unfold mdsBmapBmlDelLocked
  rw [duplsFind_of_mem h hl, bind_some, show (r.dupls b.book.link).head = some r.head from rfl,
    bind_some, hsum, if_neg hno, hb, bind_some]

theorem delLocked_chained {h₀ : ℕ} {t u : List ℕ} (h : Rings b.book (⟨h₀, t ++ l :: u⟩ :: L)) :
    ∃ b₁, mdsBmapBmlDelLocked l b = some b₁ ∧ Rings (detach l b₁).book (⟨h₀, t ++ u⟩ :: L) := by
  have hnd : (h₀ :: (t ++ l :: u)).Nodup := h.ids_nodup
  have hperm : (h₀ :: t ++ l :: u).Perm (l :: (h₀ :: t ++ u)) := perm_middle
  have hlt : l ∉ h₀ :: (t ++ u) := (nodup_cons.mp (hperm.nodup_iff.mp hnd)).1
  have hmem : l ∈ (⟨h₀, t ++ l :: u⟩ : Ring).ids := hperm.mem_iff.mpr mem_cons_self
  have hch : (b.bml l).chained := h.ok_first.tail l (by simp)
  have hlast : Ring.last ⟨h₀, t⟩ ≠ l := fun hl =>
    hlt (mem_append_left u (hl ▸ Ring.last_mem ⟨h₀, t⟩))
  have hbefore : before b.chain l b.next h₀ = some (Ring.last ⟨h₀, t⟩) := by
    refine before_of_links (links_append.mp h.ok_first.links).1 (fun hl => hlt ?_) ?_
    · exact mem_cons_of_mem _ (mem_append_left u hl)
    · refine lt_of_le_of_lt ?_ h.length_lt
      simp
  have hlen : (⟨h₀, t ++ l :: u⟩ : Ring).ids.length = t.length + u.length + 2 := by
    simp [Ring.ids]
    omega
  have hno : ¬ (l ∈ b.leases ∨ t.length + u.length + 2 ≤ 1) := by
    have := h.not_chained hch
    simp only [not_or]
    exact ⟨this, by omega⟩
  obtain ⟨b₂, w, rd, hun, hbook, hw, hr⟩ := uncount_drop h ⟨h₀, t ++ u⟩ hperm
    (b.setChain (Ring.last ⟨h₀, t⟩) (b.bml l).chain) rfl rfl
  refine ⟨b₂, ?_, ?_⟩
  · rw [delLocked_eq h hmem hlen hbefore]
    unfold unlink
    simp only [hch, if_true, if_neg hno, bind_some]
    exact hun
  · have hlink : (detach l b₂).book = ⟨b.leases, unlinkLinks b.book.link l (Ring.last ⟨h₀, t⟩), b.next, w, rd⟩ := by
      rw [setChain_book] at hbook
      have hl₂ : (b₂.bml l).toLink = b.book.link l :=
        (congrFun (congrArg Book.link hbook) l).trans (update_of_ne hlast.symm ..)
      rw [detach, book_modify, hbook, hl₂]
      rfl
    rw [hlink]
    refine h.drop hperm (h.ok_first.unlink hnd) (fun x hx => ?_) (fun x hx => ?_) ?_ h.heads hw hr
    · refine unlinkLinks_other (fun hxl => hx (hxl ▸ hmem)) fun hxt => hx ?_
      rw [hxt]
      exact hperm.mem_iff.mpr (mem_cons_of_mem l (mem_append_left u (Ring.last_mem ⟨h₀, t⟩)))
    · obtain ⟨c, hc⟩ := unlinkLinks_old b.book.link (Ring.last ⟨h₀, t⟩) (fun hxl : x = l => hlt (hxl ▸ hx))
      exact ⟨_, c, hc⟩
    · rw [unlinkLinks_self]

theorem delLocked_head {c : ℕ} {t : List ℕ} (h : Rings b.book (⟨l, c :: t⟩ :: L)) :
    ∃ b₁, mdsBmapBmlDelLocked l b = some b₁ ∧ Rings (detach l b₁).book (⟨c, t⟩ :: L) := by
  have hnd : (l :: c :: t).Nodup := h.ids_nodup
  have hl : l ∉ c :: t := (nodup_cons.mp hnd).1
  have hlc : l ≠ c := fun hlc => hl (hlc ▸ mem_cons_self)
  have hlast : l ≠ Ring.last ⟨c, t⟩ := fun hll => hl (hll ▸ Ring.last_mem ⟨c, t⟩)
  have hch : (b.bml l).chained = false := h.ok_first.head
  have hchain : (b.bml l).chain = c := h.ok_first.links.1
  have hcch : (b.bml c).chained := h.ok_first.tail c mem_cons_self
  have hbefore : before b.chain l b.next l = some (Ring.last ⟨c, t⟩) := by
    rw [before_last h]
    exact congrArg some (getLast_cons (cons_ne_nil c t))
  have hno : ¬ (¬ (b.bml c).chained = true ∨ c ∈ b.leases) := by
    have := h.not_chained hcch
    simp only [not_or, not_not]
    exact ⟨hcch, this⟩
  obtain ⟨b₂, w, rd, hun, hbook, hw, hr⟩ := uncount_drop h ⟨c, t⟩ (.refl _)
    ({ b.modify c fun m => { m with chained := false } with
        leases := b.leases.erase l ++ [c] }.setChain (Ring.last ⟨c, t⟩) c) rfl rfl
  refine ⟨b₂, ?_, ?_⟩
  · rw [delLocked_eq h mem_cons_self rfl hbefore]
    unfold unlink
    simp only [hch, hchain, if_neg hno, Bool.false_eq_true, if_false, ne_eq, not_true_eq_false,
      if_pos (show (Ring.ids ⟨l, c :: t⟩).length > 1 by simp [Ring.ids]), bind_some]
    exact hun
  · have hlink : (detach l b₂).book = ⟨b.leases.erase l ++ [c],
        unlinkLinks (headLinks b.book.link c) l (Ring.last ⟨c, t⟩), b.next, w, rd⟩ := by
      have hmod : ({ b.modify c fun m => { m with chained := false } with
          leases := b.leases.erase l ++ [c] } : Bmap).book =
            ⟨b.leases.erase l ++ [c], headLinks b.book.link c, b.next, b.writers, b.readers⟩ :=
        congrArg (fun s : Book => { s with leases := b.leases.erase l ++ [c] })
          (book_modify b c fun m => { m with chained := false })
      rw [setChain_book, hmod] at hbook
      have hl₂ : (b₂.bml l).toLink = headLinks b.book.link c l :=
        (congrFun (congrArg Book.link hbook) l).trans (update_of_ne hlast ..)
      have hunlink : unlinkLinks (headLinks b.book.link c) l (Ring.last ⟨c, t⟩) =
          update (update (headLinks b.book.link c) (Ring.last ⟨c, t⟩)
            { headLinks b.book.link c (Ring.last ⟨c, t⟩) with chain := c }) l
              { headLinks b.book.link c l with bmi := false } := by
        have hnext : (headLinks b.book.link c l).chain = c := by
          rw [headLinks_other _ hlc]
          exact hchain
        rw [unlinkLinks, hnext]
      rw [detach, book_modify, hbook, hl₂, hunlink]
    rw [hlink]
    refine h.drop (.refl _) (h.ok_first.behead hnd) (fun x hx => ?_) (fun x hx => ?_) ?_ ?_ hw hr
    · have hxl : x ≠ l := fun hxl => hx (hxl ▸ mem_cons_self)
      have hxc : x ≠ c := fun hxc => hx (hxc ▸ mem_cons_of_mem l mem_cons_self)
      have hxt : x ≠ Ring.last ⟨c, t⟩ := fun hxt =>
        hx (hxt ▸ mem_cons_of_mem l (Ring.last_mem ⟨c, t⟩))
      rw [unlinkLinks_other hxl hxt, headLinks_other _ hxc]
    · -- the pointer of the last cell changes, and the flag of the new head
      obtain ⟨d, hd⟩ := unlinkLinks_old (headLinks b.book.link c) (Ring.last ⟨c, t⟩)
        (fun hxl : x = l => hl (hxl ▸ hx))
      rw [hd]
      by_cases hxc : x = c
      · subst hxc
        rw [headLinks_self]
        exact ⟨false, d, rfl⟩
      · rw [headLinks_other _ hxc]
        exact ⟨_, d, rfl⟩
    · rw [unlinkLinks_self]
    · have herase := h.heads.erase l
      rw [map_cons, erase_cons_head] at herase
      exact (herase.append_right [c]).trans perm_append_comm

theorem delLocked_sole (h : Rings b.book (⟨l, []⟩ :: L)) :
    ∃ b₁, mdsBmapBmlDelLocked l b = some b₁ ∧ Rings (detach l b₁).book L := by
  have hch : (b.bml l).chained = false := h.ok_first.head
  have hchain : (b.bml l).chain = l := h.ok_first.links
  have hbefore : before b.chain l b.next l = some l := before_last h
  obtain ⟨b₂, hun, hbook⟩ := uncount_sole h { b with leases := b.leases.erase l } rfl rfl
  refine ⟨b₂, ?_, ?_⟩
  · rw [delLocked_eq h mem_cons_self rfl hbefore]
    unfold unlink
    simp only [hch, hchain, Bool.false_eq_true, if_false, ne_eq, not_true_eq_false,
      if_neg (show ¬ (Ring.ids ⟨l, []⟩).length > 1 by simp [Ring.ids]), bind_some]
    exact hun
  · rw [detach, book_modify, hbook]
    refine h.dropSole (fun x hx => update_of_ne hx ..) ?_ ?_ rfl rfl
    · rw [update_self]
    · have herase := h.heads.erase l
      rw [map_cons, erase_cons_head] at herase
      exact herase

theorem mdsBmapBmlDelLocked_rings (hR : Rings b.book L) (hl : (b.bml l).bmi) :
    ∃ b₁ L', mdsBmapBmlDelLocked l b = some b₁ ∧ Rings (detach l b₁).book L' := by
  obtain ⟨⟨h₀, t⟩, L', hR', hmem⟩ := hR.split_cell hl
  by_cases hhead : l = h₀
  · subst hhead
    cases t with
    | nil =>
      obtain ⟨b₁, hdel, hR₁⟩ := delLocked_sole hR'
      exact ⟨b₁, L', hdel, hR₁⟩
    | cons =>
      obtain ⟨b₁, hdel, hR₁⟩ := delLocked_head hR'
      exact ⟨b₁, _, hdel, hR₁⟩
  · have htail : l ∈ t := (mem_cons.mp hmem).resolve_left hhead
    obtain ⟨u, v, rfl⟩ := append_of_mem htail
    obtain ⟨b₁, hdel, hR₁⟩ := delLocked_chained hR'
    exact ⟨b₁, _, hdel, hR₁⟩

theorem clearDio_book (b : Bmap) : (clearDio b).book = b.book := by
  unfold clearDio
  split <;> rfl

theorem releaseAssign_book {m : Bml} (h : releaseAssign m b = some b') : b'.book = b.book := by
  obtain ⟨a, w, rfl⟩ := releaseAssign_eq h
  rfl

theorem pool_book (l : ℕ) (b : Bmap) : (pool l b).book = b.book := book_modify_same b l _

theorem mdsBmapBmlRelease_rings (hR : Rings b.book L)
    (h : mdsBmapBmlRelease l b = some b') : ∃ L', Rings b'.book L' := by
  rcases mdsBmapBmlRelease_cases h with
    ⟨-, -, rfl⟩ | ⟨-, -, rfl⟩ | ⟨-, -, hl, b₁, b₂, hdel, hrel, rfl⟩
  · rw [book_modify_same b l Bml.unref]
    exact ⟨L, hR⟩
  · rw [pool_book]
    exact ⟨L, hR⟩
  obtain ⟨b₁', L', hdel', hR'⟩ := mdsBmapBmlDelLocked_rings hR hl
  obtain rfl : b₁ = b₁' := some.inj (hdel.symm.trans hdel')
  have hbook : b₂.book = (detach l b₁).book := by
    split at hrel
    · exact (releaseAssign_book hrel).trans (clearDio_book _)
    · cases hrel
      exact clearDio_book _
  rw [pool_book, hbook]
  exact ⟨L', hR'⟩

end Slash2.Lease
