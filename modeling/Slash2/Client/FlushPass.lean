/-
# One pass of the flush thread over a bmap

`bmap_flush` lists the requests in the tree of new requests of a bmap and calls `bmap_flush_trycoalesce` with an index
that goes through the list, until it returns nothing or the list is at its end. What a coalescer holds is taken off the
tree and sent; requests that cannot be sent are put back or given up, one by one.

Key theorem: `pass_covers`.
-/
import Slash2.Client.Coalesce
import Mathlib.Data.List.Nodup

namespace Slash2.Client.Coalesce

open List Option

/-! ### The pass -/

/-- The tree after `bmap_flush_send_rpcs`: `keeps` the requests put back, or never taken off -/
def bmapFlushSendRpcs (tree : List Biorq) (bwc : Coalescer) (keeps : Biorq → Bool) : List Biorq :=
  tree.filter fun r => decide (r ∉ bwc.biorqs) || keeps r

/-- The loop of `bmap_flush`, from index `j`, with call `k`: the coalescers and the tree. -/
def passLoop (now : ℕ → ℕ → ℕ) (keeps : ℕ → Biorq → Bool) (reqs : List Biorq) :
    ℕ → ℕ → ℕ → List Biorq → Option (List Coalescer × List Biorq)
  | 0, _, j, tree => if j < reqs.length then none else some ([], tree)
  | fuel + 1, k, j, tree =>
    if j < reqs.length then do
      let (res, j) ← bmapFlushTrycoalesce (now k) reqs j
      match res with
      | none => some ([], tree)
      | some bwc => do
        let (bwcs, tree) ← passLoop now keeps reqs fuel (k + 1) j (bmapFlushSendRpcs tree bwc (keeps k))
        some (bwc :: bwcs, tree)
    else some ([], tree)

def bmapFlushPass (now : ℕ → ℕ → ℕ) (keeps : ℕ → Biorq → Bool) (tree : List Biorq) (fuel : ℕ) :
    Option (List Coalescer × List Biorq) :=
  passLoop now keeps tree fuel 0 0 tree

def handedOut (bwcs : List Coalescer) : List Biorq := bwcs.flatMap Coalescer.biorqs

/-- What the loop does with the requests that are left. -/
structure Covers (t₀ : ℕ) (rs tree : List Biorq) (bwcs : List Coalescer) (tree' : List Biorq) : Prop where
  sub : (handedOut bwcs).Sublist rs
  placed : ∀ r ∈ rs, r.expired t₀ → r ∈ handedOut bwcs
  stays : ∀ r ∈ tree, r ∉ handedOut bwcs → r ∈ tree'

variable {t₀ : ℕ} {reqs tree tree' : List Biorq} {bwcs : List Coalescer} {bwc : Coalescer} {n : ℕ} {rs : List Biorq}

theorem covers_nil (h : ∀ r ∈ rs, r.expired t₀ = false) : Covers t₀ rs tree [] tree where
  sub := nil_sublist rs
  placed r hr hexp := absurd hexp (by simp [h r hr])
  stays _ hr _ := hr

theorem Covers.cons {keeps : Biorq → Bool}
    (h : Covers t₀ (rs.drop n) (bmapFlushSendRpcs tree bwc keeps) bwcs tree') (hsub : bwc.biorqs.Sublist (rs.take n))
    (hplaced : ∀ r ∈ rs.take n, r.expired t₀ → r ∈ bwc.biorqs) : Covers t₀ rs tree (bwc :: bwcs) tree' where
  sub := by
    rw [← take_append_drop n rs]
    exact hsub.append h.sub
  placed r hr hexp := by
    rw [← take_append_drop n rs] at hr
    apply mem_append.mpr
    rcases mem_append.mp hr with hr | hr
    · exact .inl (hplaced r hr hexp)
    · exact .inr (h.placed r hr hexp)
  stays r hr hout := by
    obtain ⟨hbwc, hbwcs⟩ := not_or.mp fun hor => hout (mem_append.mpr hor)
    refine h.stays r (mem_filter.mpr ⟨hr, ?_⟩) hbwcs
    simp [hbwc]

theorem passLoop_covers {now : ℕ → ℕ → ℕ} (keeps : ℕ → Biorq → Bool) (ht : ∀ k i, t₀ ≤ now k i)
    (hsorted : reqs.Pairwise fun a b => a.off ≤ b.off) : ∀ (d k j : ℕ) (tree : List Biorq), reqs.length - j ≤ d →
    ∃ bwcs tree', (∀ fuel, d ≤ fuel → passLoop now keeps reqs fuel k j tree = some (bwcs, tree')) ∧
      Covers t₀ (reqs.drop j) tree bwcs tree' := by
  intro d
  induction d with
  | zero =>
    intro k j tree hd
    have hj : ¬j < reqs.length := by omega
    refine ⟨[], tree, fun fuel _ => ?_, covers_nil fun r hr => ?_⟩
    · cases fuel <;> exact if_neg hj
    · rw [drop_eq_nil_of_le (Nat.not_lt.mp hj)] at hr
      exact absurd hr not_mem_nil
  | succ d ih =>
    intro k j tree hd
    by_cases hj : j < reqs.length
    · obtain ⟨res, n, htry, hn, hle, hsub, hplaced, hnone⟩ := bmapFlushTrycoalesce_spec (ht k) hsorted hj
      cases res with
      | none =>
        refine ⟨[], tree, fun fuel hfuel => ?_, covers_nil fun r hr => ?_⟩
        · obtain ⟨fuel, rfl⟩ := Nat.exists_eq_succ_of_ne_zero (show fuel ≠ 0 by omega)
          rw [passLoop, if_pos hj, htry]
          rfl
        · by_contra hexp
          have htake : (reqs.drop j).take n = reqs.drop j := by
            apply take_of_length_le
            rw [length_drop]
            have := hnone rfl
            omega
          obtain ⟨bwc, hbwc, -⟩ := hplaced r (htake.symm ▸ hr) (by simpa using hexp)
          exact absurd hbwc (not_mem_none bwc)
      | some bwc =>
        obtain ⟨bwcs, tree', hloop, hcov⟩ := ih (k + 1) (j + n) (bmapFlushSendRpcs tree bwc (keeps k)) (by omega)
        refine ⟨bwc :: bwcs, tree', fun fuel hfuel => ?_, ?_⟩
        · obtain ⟨fuel, rfl⟩ := Nat.exists_eq_succ_of_ne_zero (show fuel ≠ 0 by omega)
          rw [passLoop, if_pos hj, htry]
          simp only [bind_eq_bind, bind_some, hloop fuel (by omega)]
        · rw [← drop_drop] at hcov
          refine hcov.cons hsub fun r hr hexp => ?_
          obtain ⟨b, hb, hr⟩ := hplaced r hr hexp
          cases hb
          exact hr
    · refine ⟨[], tree, fun fuel _ => ?_, covers_nil fun r hr => ?_⟩
      · cases fuel <;> exact if_neg hj
      · rw [drop_eq_nil_of_le (Nat.not_lt.mp hj)] at hr
        exact absurd hr not_mem_nil

/-! ### The pass as a whole -/

/-- **What is claimed of a pass.** -/
structure PassOk (t₀ : ℕ) (tree : List Biorq) (bwcs : List Coalescer) (tree' : List Biorq) : Prop where
  placed : ∀ r ∈ tree, r.expired t₀ → ∃ bwc ∈ bwcs, r ∈ bwc.biorqs
  once : ∀ (n n' : ℕ) bwc bwc' r, bwcs[n]? = some bwc → bwcs[n']? = some bwc' → r ∈ bwc.biorqs → r ∈ bwc'.biorqs →
    n = n'
  nodup : ∀ bwc ∈ bwcs, bwc.biorqs.Nodup
  stays : ∀ r ∈ tree, (∀ bwc ∈ bwcs, r ∉ bwc.biorqs) → r ∈ tree'

theorem Covers.passOk (h : Covers t₀ tree tree bwcs tree') (hnodup : tree.Nodup) : PassOk t₀ tree bwcs tree' := by
  obtain ⟨hself, hapart⟩ := nodup_flatMap.mp (hnodup.sublist h.sub)
  refine ⟨fun r hr hexp => mem_flatMap.mp (h.placed r hr hexp), ?_, hself, fun r hr hno => ?_⟩
  · intro n n' bwc bwc' r hn hn' hr hr'
    obtain ⟨hlt, rfl⟩ := List.getElem?_eq_some_iff.mp hn
    obtain ⟨hlt', rfl⟩ := List.getElem?_eq_some_iff.mp hn'
    rcases Nat.lt_trichotomy n n' with hcmp | hcmp | hcmp
    · exact absurd hr' (disjoint_left.mp (pairwise_iff_getElem.mp hapart n n' hlt hlt' hcmp) hr)
    · exact hcmp
    · exact absurd hr (disjoint_left.mp (pairwise_iff_getElem.mp hapart n' n hlt' hlt hcmp) hr')
  · refine h.stays r hr fun hout => ?_
    obtain ⟨bwc, hbwc, hmem⟩ := mem_flatMap.mp hout
    exact hno bwc hbwc hmem

/-- **A pass covers what it lists**, at any speed and with any fate. -/
theorem pass_covers (now : ℕ → ℕ → ℕ) (keeps : ℕ → Biorq → Bool) (ht : ∀ k i, t₀ ≤ now k i) (tree : List Biorq)
    (hsorted : tree.Pairwise fun a b => a.off ≤ b.off) (hnodup : tree.Nodup) :
    ∃ bwcs tree', (∀ fuel, tree.length ≤ fuel → bmapFlushPass now keeps tree fuel = some (bwcs, tree')) ∧
      PassOk t₀ tree bwcs tree' := by
  obtain ⟨bwcs, tree', hloop, hcov⟩ := passLoop_covers keeps ht hsorted tree.length 0 0 tree (Nat.sub_le _ _)
  exact ⟨bwcs, tree', hloop, hcov.passOk hnodup⟩

def fourBiorqs : List Biorq :=
  [⟨1, 0, 100, true, 0, []⟩, ⟨2, 100, 50, false, 9, []⟩, ⟨3, 200, 10, false, 5, []⟩, ⟨4, 300, 10, false, 9, []⟩]

/-- Two are sent together, and the third is put back. -/
theorem pass_fourBiorqs : ∃ bwcs tree', bmapFlushPass (fun k _ => 5 + k) (fun k _ => k == 1) fourBiorqs 4 =
      some (bwcs, tree') ∧ bwcs.map (fun bwc => bwc.biorqs.map Biorq.id) = [[1, 2], [3]] ∧
      tree'.map Biorq.id = [3, 4] ∧ PassOk 5 fourBiorqs bwcs tree' := by
  obtain ⟨bwcs, tree', hpass, hok⟩ := pass_covers (fun k _ => 5 + k) (fun k _ => k == 1)
    (fun k _ => Nat.le_add_right 5 k) fourBiorqs (by decide +kernel) (by decide +kernel)
  have hrun : (bmapFlushPass (fun k _ => 5 + k) (fun k _ => k == 1) fourBiorqs 4).map
      (fun p => (p.1.map fun bwc => bwc.biorqs.map Biorq.id, p.2.map Biorq.id)) = some ([[1, 2], [3]], [3, 4]) := by
    decide +kernel
  rw [hpass 4 le_rfl] at hrun
  obtain ⟨hbwcs, htree⟩ := Prod.mk.inj (some.inj hrun)
  exact ⟨bwcs, tree', hpass 4 le_rfl, hbwcs, htree, hok⟩

end Slash2.Client.Coalesce
