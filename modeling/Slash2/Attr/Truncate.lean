/-
# How a change of the size is classified

`slm_rmc_handle_setattr` tells a full truncation from a partial one and from an extension by the
requested and the current size. It clears the block counts of the replicas before it knows whether
the attributes can be set, and takes back a generation that was never raised if they cannot.

Key theorems: `setattr_harmless_iff`, `setattr_classified_iff`.
-/
import Slash2.Attr.Blocks

namespace Slash2.Attr

variable {f : MdsFile}

/-- `slm_rmc_handle_setattr` raises the generation. -/
def MdsFile.FullTruncate (f : MdsFile) (q : ToSet) : Prop := ∃ n ∈ q.size, n = 0 ∨ f.stat.size = 0

/-- What a SETATTR of a size is for. -/
def Classified (f : MdsFile) (n : ℕ) (ok : Bool) (out : MdsFile × Rc) : Prop :=
  if n ≠ 0 ∧ n < f.stat.size then out = (f, .notsup)
  else if ok = false then out = (f, .other)
  else if n = 0 then
    out.1.stat = ⟨0, (f.stat.gen + 1) % 0x10000000000000000, f.stat.ptruncgen⟩ ∧ out.1.blocks = 0 ∧ out.1.Cleared ∧
      out.2 = .ok
  else out = ({ f with stat := { f.stat with size := n } }, .ok)

theorem gen_pred_ne (g : ℕ) : (g + 0xffffffffffffffff) % 0x10000000000000000 ≠ g := by omega

theorem gen_succ_ne (g : ℕ) : (g + 1) % 0x10000000000000000 ≠ g := by omega

theorem clearNblks_repls_eq_iff : f.clearNblks.repls = f.repls ↔ f.Cleared := by
  refine ⟨fun h r hr => cleared_clearNblks f r (h ▸ hr), fun h => ?_⟩
  refine (List.map_congr_left fun r hr => ?_).trans (List.map_id f.repls)
  rw [← h r hr, id]

/-- A full truncation whose attributes cannot be set. -/
theorem setattr_failed {q : ToSet} (h : f.FullTruncate q) : slmRmcHandleSetattr f q false =
    ({ f.clearNblks with stat := { f.stat with gen := (f.stat.gen + 0xffffffffffffffff) % 0x10000000000000000 } }, .other) := by
  obtain ⟨n, hn, hfull⟩ := h
  simp [slmRmcHandleSetattr, Option.mem_def.mp hn, hfull]

/-- **A failed truncation does harm**: it lowers the generation, and clears block counts. -/
theorem setattr_harmless_iff (f : MdsFile) (q : ToSet) (ok : Bool) :
    (((slmRmcHandleSetattr f q ok).2 ≠ .ok → (slmRmcHandleSetattr f q ok).1 = f) ↔ (f.FullTruncate q → ok = true)) ∧
      (f.FullTruncate q → (slmRmcHandleSetattr f q false).1.stat.gen ≠ f.stat.gen ∧
        ((slmRmcHandleSetattr f q false).1.repls = f.repls ↔ f.Cleared)) := by
  refine ⟨⟨fun h hfull => ?_, fun h hrc => ?_⟩, fun hfull => ?_⟩
  · by_contra hok
    rw [Bool.not_eq_true] at hok
    subst hok
    rw [setattr_failed hfull] at h
    exact gen_pred_ne f.stat.gen (congrArg (·.stat.gen) (h (by simp)))
  · revert hrc
    unfold slmRmcHandleSetattr
    split
    · rename_i n hn
      by_cases hfull : n = 0 ∨ f.stat.size = 0
      · simp [h ⟨n, hn, hfull⟩, hfull]
      · split_ifs <;> simp
    · simp
  · rw [setattr_failed hfull]
    exact ⟨gen_pred_ne _, clearNblks_repls_eq_iff (f := f)⟩

/-- Eight blocks at the only replica, in generation 3. -/
def written : MdsFile := ⟨⟨4096, 3, 0⟩, 8, [⟨7, 8⟩], [⟨7, 8⟩]⟩

theorem truncate_failed_written : slmRmcHandleSetattr written ⟨some 0, true⟩ false =
    (⟨⟨4096, 2, 0⟩, 8, [⟨7, 0⟩], [⟨7, 8⟩]⟩, .other) := by decide

/-- **How a size is classified**: rightly if it is zero and can be set, or no size is zero. -/
theorem setattr_classified_iff (f : MdsFile) (n : ℕ) (mtime ok : Bool) :
    Classified f n ok (slmRmcHandleSetattr f ⟨some n, mtime⟩ ok) ↔ if n = 0 then ok = true else f.stat.size ≠ 0 := by
  have hgen := gen_succ_ne f.stat.gen
  have hpred := gen_pred_ne f.stat.gen
  by_cases hfull : n = 0 ∨ f.stat.size = 0
  · have hsmall : ¬ (n ≠ 0 ∧ n < f.stat.size) := by omega
    rw [Classified, if_neg hsmall]
    cases ok with
    | false =>
      rw [setattr_failed ⟨n, rfl, hfull⟩]
      refine iff_of_false (fun h => hpred (congrArg (·.1.stat.gen) h)) ?_
      split_ifs with hn
      · simp
      · exact not_not.mpr (hfull.resolve_left hn)
    | true =>
      rw [if_neg (by decide)]
      simp only [slmRmcHandleSetattr, if_pos hfull, if_true]
      split_ifs with hn
      · exact iff_of_true ⟨by rw [hn], trivial, cleared_clearNblks f, trivial⟩ trivial
      · exact iff_of_false (fun h => hgen (congrArg (·.1.stat.gen) h)) (not_not.mpr (hfull.resolve_left hn))
  · obtain ⟨hn, hs⟩ := not_or.mp hfull
    rw [if_neg hn]
    refine iff_of_true ?_ hs
    simp only [Classified, slmRmcHandleSetattr, hn, ne_eq, not_false_eq_true, true_and, if_false]
    split_ifs <;> simp_all

theorem first_size_truncates : slmRmcHandleSetattr ⟨⟨0, 3, 0⟩, 8, [⟨7, 8⟩], [⟨7, 8⟩]⟩ ⟨some 100, true⟩ true =
    (⟨⟨100, 4, 0⟩, 0, [⟨7, 0⟩], [⟨7, 8⟩]⟩, .ok) := by decide

end Slash2.Attr
