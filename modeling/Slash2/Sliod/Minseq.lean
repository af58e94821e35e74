/-
# The minimum sequence number of an I/O server

An I/O server refuses leases below `bim_minseq`. Each request asks for it with `bim_getcurseq`,
which gets a new one from the MDS when the last is old, and tries again while it is not accepted.

Key theorem: `minseq_tolerant_iff`.
-/
import Slash2.Lease.Timeo

namespace Slash2.Minseq

open Timeo

/-- A sequence number of 64 bits, other than `BMAPSEQ_ANY`. -/
abbrev Seq := Fin bmapseqAny

/-- `invalid` of `bim_updateseq`. -/
def bimInvalid (minseq seq : ℕ) : Bool :=
  decide (seq = bmapseqAny ∨ ¬ (seq = minseq ∨ seq > minseq ∨ minseq = bmapseqAny ∨ seq ≥ bimLess minseq))

/-- The rounds of `bim_getcurseq` that ask the MDS, with its answers, `none` for a failed RPC: `bim_minseq`, and the
answers not used, or `none` if it still tries. -/
def bimGetcurseq (minseq : ℕ) : List (Option ℕ) → ℕ × Option (List (Option ℕ))
  | [] => (minseq, none)
  | none :: as => bimGetcurseq minseq as
  | some seq :: as =>
    if bimInvalid minseq seq then bimGetcurseq (bimUpdateseq minseq seq) as else (bimUpdateseq minseq seq, some as)

/-- The number is accepted exactly if it is not too far below. -/
structure Tolerant (m s : Seq) : Prop where
  accepted : m.val ≤ s + bmapSeqlogFactor → bimInvalid m s = false ∧ bimUpdateseq m s = s
  refused : ¬ m.val ≤ s + bmapSeqlogFactor → bimInvalid m s ∧ bimUpdateseq m s = m

/-- Each number is not too far below the one before; `k` RPCs fail before it comes. -/
def Follows : Seq → List (ℕ × Seq) → Prop
  | _, [] => True
  | m, (_, s) :: cs => m.val ≤ s + bmapSeqlogFactor ∧ Follows s cs

/-- Each call returns with the first number it gets, whatever would come `after`. -/
def Prompt : Seq → List (ℕ × Seq) → Prop
  | _, [] => True
  | m, (k, s) :: cs => (∀ after, bimGetcurseq m (List.replicate k none ++ some s.val :: after) = (s.val, some after)) ∧
      Prompt s cs

/-- A number is not below a minimum under `BMAP_SEQLOG_FACTOR`. -/
def Wide (m s : Seq) : Prop := m ≤ s ∨ bmapSeqlogFactor ≤ m

/-- So for each next number. -/
def AllWide : Seq → List (ℕ × Seq) → Prop
  | _, [] => True
  | m, (_, s) :: cs => Wide m s ∧ AllWide s cs

variable {m s : Seq}

theorem bimInvalid_iff : bimInvalid m s ↔ s < m ∧ s.val < bimLess m := by
  simp only [bimInvalid, decide_eq_true_eq, Fin.lt_def]
  omega

theorem bimUpdateseq_eq : bimUpdateseq m s = if bimInvalid m s then m.val else s.val := by
  simp only [bimInvalid_iff, bimUpdateseq, Fin.lt_def]
  split_ifs <;> omega

theorem bimLess_eq (h : bmapSeqlogFactor ≤ m) : bimLess m = m - bmapSeqlogFactor := by
  have hm : m.val < 0xffffffffffffffff := m.isLt
  simp only [bimLess, bmapSeqlogFactor] at h ⊢
  omega

/-- Below `BMAP_SEQLOG_FACTOR` the subtraction wraps, and no lower number is accepted. -/
theorem lt_bimLess (h : ¬ bmapSeqlogFactor ≤ m) (hs : s < m) : s.val < bimLess m := by
  simp only [bimLess, bmapSeqlogFactor, Fin.lt_def] at h hs ⊢
  omega

theorem bimInvalid_of_wide (h : Wide m s) : bimInvalid m s ↔ ¬ m.val ≤ s + bmapSeqlogFactor := by
  rw [bimInvalid_iff, Fin.lt_def]
  rcases h with h | h
  · have := Fin.le_def.mp h
    omega
  · rw [bimLess_eq h]
    omega

theorem bimInvalid_of_not_wide (h : ¬ Wide m s) : bimInvalid m s := by
  obtain ⟨hlt, hm⟩ := not_or.mp h
  exact bimInvalid_iff.mpr ⟨Fin.not_le.mp hlt, lt_bimLess hm (Fin.not_le.mp hlt)⟩

theorem near_of_not_wide (h : ¬ Wide m s) : m.val ≤ s + bmapSeqlogFactor := by
  have := (not_or.mp h).2
  omega

theorem tolerant_iff : Tolerant m s ↔ Wide m s := by
  refine ⟨fun h => by_contra fun hw => ?_, fun h => ⟨fun hn => ?_, fun hn => ?_⟩⟩
  · exact Bool.noConfusion ((bimInvalid_of_not_wide hw).symm.trans (h.accepted (near_of_not_wide hw)).1)
  · have hv : bimInvalid m s = false := Bool.eq_false_iff.mpr (mt (bimInvalid_of_wide h).mp (not_not.mpr hn))
    exact ⟨hv, by rw [bimUpdateseq_eq, hv, if_neg Bool.false_ne_true]⟩
  · have hv := (bimInvalid_of_wide h).mpr hn
    exact ⟨hv, by rw [bimUpdateseq_eq, hv, if_pos rfl]⟩

theorem bimGetcurseq_fails (k : ℕ) (as : List (Option ℕ)) (n : ℕ) :
    bimGetcurseq n (List.replicate k none ++ as) = bimGetcurseq n as := by
  induction k with
  | zero => rfl
  | succ k ih => rw [List.replicate_succ, List.cons_append, bimGetcurseq, ih]

theorem prompt_head_iff (k : ℕ) (hn : m.val ≤ s + bmapSeqlogFactor) :
    (∀ after, bimGetcurseq m (List.replicate k none ++ some s.val :: after) = (s.val, some after)) ↔ Wide m s := by
  simp only [bimGetcurseq_fails, bimGetcurseq]
  refine ⟨fun h => by_contra fun hw => ?_, fun h after => ?_⟩
  · -- refused, and nothing more comes
    simpa [bimInvalid_of_not_wide hw, bimGetcurseq] using congrArg Prod.snd (h [])
  · obtain ⟨hv, hu⟩ := (tolerant_iff.mpr h).accepted hn
    rw [hv, hu, if_neg Bool.false_ne_true]

theorem prompt_iff : ∀ {m : Seq} {cs : List (ℕ × Seq)}, Follows m cs → (Prompt m cs ↔ AllWide m cs)
  | _, [], _ => Iff.rfl
  | _, (k, _) :: _, h => and_congr (prompt_head_iff k h.1) (prompt_iff h.2)

/-- **A number is accepted if it is not too far below** exactly if the subtraction does not wrap, and so `bim_getcurseq`
returns with the first it gets. -/
theorem minseq_tolerant_iff (m : Seq) : (∀ s, Tolerant m s ↔ Wide m s) ∧
    ∀ cs, Follows m cs → (Prompt m cs ↔ AllWide m cs) :=
  ⟨fun _ => tolerant_iff, fun _ => prompt_iff⟩

/-- **Fifty is never followed by zero**, however often the MDS answers. -/
theorem minseq_refused_forever : bimInvalid 50 0 = true ∧ bimUpdateseq 50 0 = 50 ∧
    ∀ n, bimGetcurseq 50 (List.replicate n (some 0)) = (50, none) := by
  refine ⟨by decide, by decide, fun n => ?_⟩
  induction n with
  | zero => rfl
  | succ n ih => exact ih

end Slash2.Minseq
