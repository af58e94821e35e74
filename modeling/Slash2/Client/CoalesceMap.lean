/-
# The pages of a coalescer

When a coalescer is handed out, `bmap_flush_coalesce_prep` collects the pages of its requests, each one once, and
`bmap_flush_coalesce_map` makes an I/O vector out of them. Both go by the requests and the pages alone, and assert that
this comes to the size that was computed before.

Key theorem: `coalesced_mapped`.
-/
import Mathlib.Algebra.Ring.Nat
import Slash2.Client.Coalesce

namespace Slash2.Client.Coalesce

open Lib List
open Option (bind_some)

def bmpcBufsz : ℕ := 32768

def bmpcCoalesceMaxIov : ℕ := lnetMtu / bmpcBufsz + 1

/-- A page is added to the coalescer, if it is new. -/
def addPage (acc : List Bmpce) (p : Bmpce) : Option (List Bmpce) :=
  match acc.getLast? with
  | none => some [p]
  | some q =>
    if p.off ≤ q.off then some acc
    else if p.off = q.off + bmpcBufsz then some (acc ++ [p])
    else none

/-- The loop over the pages of a request, with `off` and `reqsz` -/
def prepPages (start : ℕ) : List Bmpce → Bool → ℕ → ℕ → List Bmpce → Option (List Bmpce)
  | [], _, _, reqsz, acc => if reqsz = 0 then some acc else none
  | p :: ps, first, off, reqsz, acc =>
    -- `bmpce_usecheck`
    if p.ref = 0 ∨ p.off ≠ if first then start - start % bmpcBufsz else off then none
    else
      let tlen := min reqsz (if first then bmpcBufsz - (off - p.off) else bmpcBufsz)
      (addPage acc p).bind (prepPages start ps false (off + tlen) (reqsz - tlen))

def prepLoop : List Biorq → Option (Biorq × ℕ) → List Bmpce → Option (Option (Biorq × ℕ) × List Bmpce)
  | [], e, acc => some (e, acc)
  | r :: rs, none, acc =>
    (prepPages r.off r.pages true r.off r.len acc).bind (prepLoop rs (some (r, r.off)))
  | r :: rs, some (e, loff), acc =>
    if r.off < loff ∨ e.voff < r.off then none
    else
      (prepPages r.off r.pages true r.off r.len acc).bind
        (prepLoop rs (some (if e.voff < r.voff then r else e, r.off)))

def bmapFlushCoalescePrep (bwc : Coalescer) : Option (List Bmpce) := do
  let (e, pages) ← prepLoop bwc.biorqs none []
  let (e, _) ← e
  let r ← bwc.biorqs.head?
  if bwc.size = (e.off - r.off) + e.len then some pages else none

/-- `struct iovec` -/
structure Iov where
  base : ℕ
  /-- `iov_len` -/
  len : ℕ

/-- The loop over the pages, with what is left of `tot_reqsz` -/
def mapIovs (off : ℕ) : List Bmpce → Bool → ℕ → List Iov × ℕ
  | [], _, tot => ([], tot)
  | p :: ps, first, tot =>
    let len := min tot (if first then bmpcBufsz - (off - p.off) else bmpcBufsz)
    let (iovs, tot) := mapIovs off ps false (tot - len)
    (⟨p.base + if first then off - p.off else 0, len⟩ :: iovs, tot)

/-- `bmap_flush_coalesce_map`: the pages and the I/O vector -/
def bmapFlushCoalesceMap (bwc : Coalescer) : Option (List Bmpce × List Iov) := do
  let pages ← bmapFlushCoalescePrep bwc
  let r ← bwc.biorqs.head?
  if bwc.soff ≠ r.off then none
  else
    let (iovs, tot) := mapIovs r.off pages true bwc.size
    if bmpcCoalesceMaxIov < iovs.length ∨ tot ≠ 0 then none else some (pages, iovs)

/-- The numbers of the pages that `n` bytes from `off` on lie in. -/
def pageNos (off n : ℕ) : List ℕ := range' (off / bmpcBufsz) ((off + n - 1) / bmpcBufsz + 1 - off / bmpcBufsz)

/-- The pages of a bmap, each at its offset and referenced. -/
structure PageTree (pg : ℕ → Bmpce) : Prop where
  off : ∀ k, (pg k).off = k * bmpcBufsz
  ref : ∀ k, 0 < (pg k).ref

/-- The request has all its pages, and fits one RPC. -/
structure Biorq.Covered (pg : ℕ → Bmpce) (r : Biorq) : Prop where
  pos : 1 ≤ r.len
  mtu : r.len ≤ lnetMtu
  pages : r.pages = (pageNos r.off r.len).map pg

/-- The vectors are consecutive pieces of pages, from `a` to `z`. -/
def Tiles : ℕ → ℕ → List Bmpce → List Iov → Prop
  | a, z, [], [] => a = z
  | a, z, p :: ps, v :: vs =>
    (p.off ≤ a ∧ v.base = p.base + (a - p.off)) ∧ (0 < v.len ∧ a + v.len ≤ p.off + bmpcBufsz) ∧ Tiles (a + v.len) z ps vs
  | _, _, _, _ => False

/-- **What is claimed of a coalescer.** -/
structure Mapped (pg : ℕ → Bmpce) (bwc : Coalescer) (pages : List Bmpce) (iovs : List Iov) : Prop where
  union : ∀ p, (bwc.soff ≤ p ∧ p < bwc.soff + bwc.size) ↔ ∃ r ∈ bwc.biorqs, r.off ≤ p ∧ p < r.voff
  size : bwc.size ≤ lnetMtu
  pages_eq : pages = (pageNos bwc.soff bwc.size).map pg
  tiles : Tiles bwc.soff (bwc.soff + bwc.size) pages iovs
  sum : (iovs.map Iov.len).sum = bwc.size
  fit : pages.length ≤ bmpcCoalesceMaxIov ∧ iovs.length ≤ bmpcCoalesceMaxIov

variable {pg : ℕ → Bmpce} {a z k n : ℕ}

/-- The pages with numbers from `a` up to `z`. -/
def stretch (pg : ℕ → Bmpce) (a z : ℕ) : List Bmpce := (range' a (z - a)).map pg

theorem stretch_self : stretch pg a a = [] := by simp [stretch]

theorem stretch_succ (h : a ≤ z) : stretch pg a (z + 1) = stretch pg a z ++ [pg z] := by
  unfold stretch
  rw [Nat.succ_sub h, range'_concat, map_append, Nat.one_mul, Nat.add_sub_cancel' h]
  rfl

theorem addPage_stretch (hpg : PageTree pg) (ha : a ≤ k) (hz : k ≤ z) :
    addPage (stretch pg a z) (pg k) = some (stretch pg a (max z (k + 1))) := by
  rcases Nat.eq_or_lt_of_le (ha.trans hz) with rfl | hlt
  · obtain rfl : a = k := Nat.le_antisymm ha hz
    rw [max_eq_right (Nat.le_succ a), stretch_succ le_rfl, stretch_self]
    rfl
  obtain ⟨y, rfl⟩ : ∃ y, z = y + 1 := ⟨z - 1, by omega⟩
  have hlast : (stretch pg a (y + 1)).getLast? = some (pg y) := by
    rw [stretch_succ (Nat.le_of_lt_succ hlt), getLast?_concat]
  unfold addPage
  simp only [hlast, hpg.off]
  rcases Nat.eq_or_lt_of_le hz with rfl | hk
  · rw [if_neg (by unfold bmpcBufsz; omega), if_pos (by unfold bmpcBufsz; omega), max_eq_right (Nat.le_succ _),
      stretch_succ (Nat.le_of_lt hlt)]
  · rw [if_pos (by unfold bmpcBufsz; omega), max_eq_left (by omega)]

theorem prepPages_rest (hpg : PageTree pg) (start : ℕ) : ∀ {n k z off q : ℕ}, (q + bmpcBufsz - 1) / bmpcBufsz = n →
    (0 < n → off = k * bmpcBufsz) → a ≤ k → k ≤ z →
    prepPages start ((range' k n).map pg) false off q (stretch pg a z) = some (stretch pg a (max z (k + n)))
  | 0, k, z, off, q, hn, _, _, hz => by
    have hq : q = 0 := by
      unfold bmpcBufsz at hn
      omega
    rw [Nat.add_zero, max_eq_left hz]
    exact if_pos hq
  | n + 1, k, z, off, q, hn, hoff, ha, hz => by
    have hoff := hoff (Nat.succ_pos n)
    unfold bmpcBufsz at hn hoff
    rw [range'_succ, map_cons, prepPages]
    simp only [Bool.false_eq_true, if_false]
    rw [if_neg, addPage_stretch hpg ha hz, bind_some, prepPages_rest hpg start]
    · congr 2
      omega
    · unfold bmpcBufsz
      omega
    · unfold bmpcBufsz
      omega
    · omega
    · omega
    · rintro (href | hne)
      · exact absurd (hpg.ref k) (by omega)
      · apply hne
        rw [hpg.off, hoff]
        rfl

theorem prepPages_spec (hpg : PageTree pg) {r : Biorq} (hr : r.Covered pg) (ha : a ≤ r.off / bmpcBufsz)
    (hz : r.off / bmpcBufsz ≤ z) : prepPages r.off r.pages true r.off r.len (stretch pg a z) =
      some (stretch pg a (max z ((r.voff - 1) / bmpcBufsz + 1))) := by
  have hpos := hr.pos
  obtain ⟨n, hn⟩ : ∃ n, (r.off + r.len - 1) / bmpcBufsz + 1 - r.off / bmpcBufsz = n + 1 :=
    ⟨(r.off + r.len - 1) / bmpcBufsz - r.off / bmpcBufsz, by unfold bmpcBufsz; omega⟩
  rw [hr.pages, pageNos, hn, range'_succ, map_cons, prepPages]
  simp only [if_true, hpg.off]
  rw [if_neg, addPage_stretch hpg ha hz, bind_some, prepPages_rest hpg r.off]
  · congr 2
    unfold Biorq.voff
    omega
  · unfold bmpcBufsz at hn ⊢
    omega
  · unfold bmpcBufsz at hn ⊢
    omega
  · omega
  · omega
  · rintro (href | hne)
    · exact absurd (hpg.ref (r.off / bmpcBufsz)) (by omega)
    · apply hne
      unfold bmpcBufsz
      omega

theorem prepLoop_spec (hpg : PageTree pg) (soff : ℕ) : ∀ (rs : List Biorq) (e : Biorq) (loff : ℕ),
    (∀ r ∈ rs, r.Covered pg ∧ soff ≤ r.off ∧ loff ≤ r.off) → rs.Pairwise (fun a b => a.off ≤ b.off) →
    Joined Biorq.off Biorq.voff e.voff rs → soff < e.voff →
    ∃ e' loff', prepLoop rs (some (e, loff)) (stretch pg (soff / bmpcBufsz) ((e.voff - 1) / bmpcBufsz + 1)) =
        some (some (e', loff'), stretch pg (soff / bmpcBufsz) ((e'.voff - 1) / bmpcBufsz + 1)) ∧
      e'.voff = reach Biorq.voff e.voff rs ∧ (e' = e ∨ e' ∈ rs)
  | [], e, loff, _, _, _, _ => ⟨e, loff, rfl, rfl, .inl rfl⟩
  | r :: rs, e, loff, hrs, hsorted, hjoined, hsoff => by
    obtain ⟨hcov, hs, hloff⟩ := hrs r mem_cons_self
    obtain ⟨hle, hjoined⟩ := hjoined
    obtain ⟨hr, hsorted⟩ := pairwise_cons.mp hsorted
    -- the request that reaches further from now on
    obtain ⟨f, hf⟩ : ∃ f, (if e.voff < r.voff then r else e) = f := ⟨_, rfl⟩
    have hvoff : f.voff = max e.voff r.voff := by
      rw [← hf]
      split_ifs <;> omega
    have hfmem : f = e ∨ f = r := by
      rw [← hf]
      split_ifs
      · exact .inr rfl
      · exact .inl rfl
    have hpages : prepPages r.off r.pages true r.off r.len
        (stretch pg (soff / bmpcBufsz) ((e.voff - 1) / bmpcBufsz + 1)) =
        some (stretch pg (soff / bmpcBufsz) ((f.voff - 1) / bmpcBufsz + 1)) := by
      rw [prepPages_spec hpg hcov]
      · congr 2
        unfold bmpcBufsz
        omega
      · unfold bmpcBufsz
        omega
      · unfold bmpcBufsz
        omega
    obtain ⟨e', loff', hloop, hreach, hmem⟩ := prepLoop_spec hpg soff rs f r.off
      (fun x hx => ⟨(hrs x (mem_cons_of_mem r hx)).1, (hrs x (mem_cons_of_mem r hx)).2.1, hr x hx⟩) hsorted
      (hvoff ▸ hjoined) (by omega)
    refine ⟨e', loff', ?_, ?_, ?_⟩
    · rw [prepLoop, if_neg (by omega), hpages, hf]
      exact hloop
    · rw [hreach, hvoff]
      rfl
    · rcases hmem with rfl | hmem
      · rcases hfmem with h | h
        · exact .inl h
        · exact .inr (h ▸ mem_cons_self)
      · exact .inr (mem_cons_of_mem r hmem)

/-! ### I/O vectors -/

theorem Tiles.sum : ∀ {a z : ℕ} {ps : List Bmpce} {vs : List Iov}, Tiles a z ps vs → a + (vs.map Iov.len).sum = z
  | _, _, [], [], h => h
  | a, z, p :: ps, v :: vs, h => by
    have := h.2.2.sum
    rw [map_cons, sum_cons]
    omega

theorem Tiles.length : ∀ {a z : ℕ} {ps : List Bmpce} {vs : List Iov}, Tiles a z ps vs → vs.length = ps.length
  | _, _, [], [], _ => rfl
  | _, _, _ :: _, _ :: _, h => congrArg (· + 1) h.2.2.length

theorem mapIovs_rest (hpg : PageTree pg) (off : ℕ) : ∀ (n k pos t : ℕ), (t + bmpcBufsz - 1) / bmpcBufsz = n →
    (0 < n → pos = k * bmpcBufsz) → ∃ iovs, mapIovs off ((range' k n).map pg) false t = (iovs, 0) ∧
      Tiles pos (pos + t) ((range' k n).map pg) iovs
  | 0, k, pos, t, hn, _ => by
    have ht : t = 0 := by
      unfold bmpcBufsz at hn
      omega
    subst ht
    exact ⟨[], rfl, rfl⟩
  | n + 1, k, pos, t, hn, hpos => by
    have hoff := hpg.off k
    unfold bmpcBufsz at hn hpos hoff
    obtain ⟨iovs, hmap, htiles⟩ := mapIovs_rest hpg off n (k + 1) (pos + min t bmpcBufsz)
      (t - min t bmpcBufsz) (by unfold bmpcBufsz; omega) (by unfold bmpcBufsz; omega)
    refine ⟨⟨(pg k).base, min t bmpcBufsz⟩ :: iovs, ?_, ⟨?_, ?_⟩, ⟨?_, ?_⟩, ?_⟩
    · rw [range'_succ, map_cons, mapIovs]
      simp only [Bool.false_eq_true, if_false, Nat.add_zero, hmap]
    · omega
    · rw [show pos - (pg k).off = 0 by omega, Nat.add_zero]
    · unfold bmpcBufsz
      simp only
      omega
    · simp only
      omega
    · convert htiles using 1
      omega

theorem mapIovs_spec (hpg : PageTree pg) (soff : ℕ) {size : ℕ} (hsize : 1 ≤ size) :
    ∃ iovs, mapIovs soff ((pageNos soff size).map pg) true size = (iovs, 0) ∧
      Tiles soff (soff + size) ((pageNos soff size).map pg) iovs := by
  have hoff := hpg.off (soff / bmpcBufsz)
  obtain ⟨n, hn⟩ : ∃ n, (soff + size - 1) / bmpcBufsz + 1 - soff / bmpcBufsz = n + 1 :=
    ⟨(soff + size - 1) / bmpcBufsz - soff / bmpcBufsz, by unfold bmpcBufsz; omega⟩
  obtain ⟨len, hlen⟩ : ∃ len, min size (bmpcBufsz - (soff - (pg (soff / bmpcBufsz)).off)) = len := ⟨_, rfl⟩
  obtain ⟨iovs, hmap, htiles⟩ := mapIovs_rest hpg soff n (soff / bmpcBufsz + 1) (soff + len)
    (size - len) (by unfold bmpcBufsz at *; omega) (by unfold bmpcBufsz at *; omega)
  refine ⟨⟨(pg (soff / bmpcBufsz)).base + (soff - (pg (soff / bmpcBufsz)).off), len⟩ :: iovs, ?_, ?_⟩
  · rw [pageNos, hn, range'_succ, map_cons, mapIovs]
    simp only [if_true, hlen, hmap]
  · rw [pageNos, hn]
    refine ⟨⟨?_, rfl⟩, ⟨?_, ?_⟩, ?_⟩
    · unfold bmpcBufsz at *
      omega
    · unfold bmpcBufsz at *
      simp only
      omega
    · unfold bmpcBufsz at *
      simp only
      omega
    · convert htiles using 1
      omega

/-! ### A coalescer that is handed out -/

variable {bwc : Coalescer} {first : Biorq} {rest : List Biorq}

theorem Coalescer.Group.union (h : bwc.Group first rest) (p : ℕ) :
    (bwc.soff ≤ p ∧ p < bwc.soff + bwc.size) ↔ ∃ r ∈ bwc.biorqs, r.off ≤ p ∧ p < r.voff := by
  have hle : first.off ≤ first.voff := Nat.le_add_right first.off first.len
  rw [h.size, h.soff, h.biorqs, lt_reach_iff hle h.after h.joined p]
  simp only [mem_cons, exists_eq_or_imp]

section
variable (hpg : PageTree pg) (h : bwc.Group first rest) (hcov : ∀ r ∈ bwc.biorqs, r.Covered pg)
  (hsorted : bwc.biorqs.Pairwise fun a b => a.off ≤ b.off)
include hpg h hcov hsorted

theorem bmapFlushCoalescePrep_group : bmapFlushCoalescePrep bwc = some ((pageNos bwc.soff bwc.size).map pg) := by
  rw [h.biorqs] at hcov hsorted
  have hfirst := hcov first mem_cons_self
  obtain ⟨hrest, hsorted⟩ := pairwise_cons.mp hsorted
  have hpos := hfirst.pos
  have hvoff : first.off < first.voff := Nat.lt_add_of_pos_right hpos
  obtain ⟨e, loff, hloop, hreach, hmem⟩ := prepLoop_spec hpg first.off rest first first.off
    (fun r hr => ⟨hcov r (mem_cons_of_mem first hr), hrest r hr, hrest r hr⟩) hsorted h.joined hvoff
  have hsize : bwc.soff + bwc.size = e.voff := by
    rw [h.size, hreach]
  have hoff : first.off ≤ e.off := by
    rcases hmem with rfl | hmem
    · exact le_rfl
    · exact hrest e hmem
  have hprep : prepLoop (first :: rest) none [] =
      some (some (e, loff), stretch pg (first.off / bmpcBufsz) ((e.voff - 1) / bmpcBufsz + 1)) := by
    have hpages := prepPages_spec hpg hfirst (le_refl (first.off / bmpcBufsz)) (le_refl (first.off / bmpcBufsz))
    rw [stretch_self, max_eq_right (by unfold bmpcBufsz; omega)] at hpages
    rw [prepLoop, hpages]
    exact hloop
  unfold bmapFlushCoalescePrep
  simp only [hprep, h.biorqs, Option.bind_eq_bind, bind_some, head?_cons]
  have hsoff := h.soff
  rw [if_pos (by unfold Biorq.voff at hsize; omega), pageNos, hsize, h.soff]
  rfl

theorem Coalescer.Group.mapped :
    ∃ pages iovs, bmapFlushCoalesceMap bwc = some (pages, iovs) ∧ Mapped pg bwc pages iovs := by
  have hmtu := h.mtu
  have hpos : 1 ≤ bwc.size := by
    have hfirst := (hcov first (h.biorqs ▸ mem_cons_self)).pos
    have hle := le_reach Biorq.voff first.voff rest
    have hsize := h.size
    rw [h.soff] at hsize
    unfold Biorq.voff at hle hsize
    omega
  obtain ⟨iovs, hmap, htiles⟩ := mapIovs_spec hpg bwc.soff hpos
  have hlen : ((pageNos bwc.soff bwc.size).map pg).length ≤ bmpcCoalesceMaxIov := by
    unfold pageNos bmpcCoalesceMaxIov
    rw [length_map, length_range']
    unfold lnetMtu at *
    unfold bmpcBufsz
    omega
  have hsum := htiles.sum
  refine ⟨_, iovs, ?_, h.union, hmtu, rfl, htiles, by omega, hlen, htiles.length ▸ hlen⟩
  unfold bmapFlushCoalesceMap
  simp only [bmapFlushCoalescePrep_group hpg h hcov hsorted, h.biorqs, Option.bind_eq_bind, bind_some, head?_cons]
  rw [if_neg (not_not.mpr h.soff), ← h.soff, hmap]
  rw [if_neg]
  rintro (hlt | hne)
  · rw [htiles.length] at hlt
    omega
  · exact hne rfl

end

/-- **Writes are coalesced right**, from any index, at any time. -/
theorem coalesced_mapped (hpg : PageTree pg) (now : ℕ → ℕ) (biorqs : List Biorq)
    (hsorted : biorqs.Pairwise fun a b => a.off ≤ b.off) (hcov : ∀ r ∈ biorqs, r.Covered pg) (index : ℕ)
    (hindex : index < biorqs.length) : ∃ res index', bmapFlushTrycoalesce now biorqs index = some (res, index') ∧
      ∀ bwc ∈ res, ∃ pages iovs, bmapFlushCoalesceMap bwc = some (pages, iovs) ∧ Mapped pg bwc pages iovs := by
  obtain ⟨res, n, htry, -, -, hsub, -, -⟩ := bmapFlushTrycoalesce_spec (fun i => Nat.zero_le (now i)) hsorted hindex
  refine ⟨res, index + n, htry, fun bwc hbwc => ?_⟩
  obtain rfl := Option.mem_def.mp hbwc
  obtain ⟨first, rest, hgroup⟩ := bmapFlushTrycoalesce_group hsorted (fun r hr => (hcov r hr).mtu) htry
  have hsub : bwc.biorqs.Sublist biorqs := hsub.trans ((take_sublist _ _).trans (drop_sublist _ _))
  exact hgroup.mapped hpg (fun r hr => hcov r (hsub.subset hr)) (hsorted.sublist hsub)

/-! ### A bmap with three requests -/

def somePages (k : ℕ) : Bmpce := ⟨k * bmpcBufsz, 1, 1000000 + k * bmpcBufsz⟩

theorem pageTree_somePages : PageTree somePages := ⟨fun _ => rfl, fun _ => Nat.one_pos⟩

def someBiorqs : List Biorq :=
  [⟨1, 100, 200, true, 0, [somePages 0]⟩, ⟨2, 250, 40000, false, 0, [somePages 0, somePages 1]⟩,
    ⟨3, 90000, 10, false, 0, [somePages 2]⟩]

theorem coalesced_someBiorqs : ∃ bwc index', bmapFlushTrycoalesce (fun _ => 0) someBiorqs 0 = some (some bwc, index') ∧
      ∃ pages iovs, bmapFlushCoalesceMap bwc = some (pages, iovs) ∧ Mapped somePages bwc pages iovs := by
  have hcov : ∀ r ∈ someBiorqs, r.Covered somePages := by
    have h : ∀ r ∈ someBiorqs, 1 ≤ r.len ∧ r.len ≤ lnetMtu ∧ r.pages = (pageNos r.off r.len).map somePages := by
      decide +kernel
    exact fun r hr => ⟨(h r hr).1, (h r hr).2.1, (h r hr).2.2⟩
  obtain ⟨res, index', htry, hres⟩ :=
    coalesced_mapped pageTree_somePages (fun _ => 0) someBiorqs (by decide +kernel) hcov 0 (by decide)
  have hsome : ((bmapFlushTrycoalesce (fun _ => 0) someBiorqs 0).bind Prod.fst).isSome := by decide +kernel
  rw [htry] at hsome
  obtain ⟨bwc, rfl⟩ := Option.isSome_iff_exists.mp hsome
  exact ⟨bwc, index', htry, hres bwc rfl⟩

end Slash2.Client.Coalesce
