/-
# The answer to a batch of reclaims

An I/O server punches each entry of the batch out of its file. The case for `SRMT_PRECLAIM` in
`sli_rim_handle_batch` has no `break`: whatever the entries came to, the answer is that reclaims
are not supported, and `slm_batch_preclaim_cb` takes it for all of them.

Key theorem: `preclaim_told_iff`.
-/
import Slash2.Residency.Preclaim

namespace Slash2.Upsch.Preclaim

open Residency

/-- A batch: of each entry the code of `sli_fcmh_get`, and `errno` of `fallocate`. -/
structure Batch where
  bulkRc : ℤ
  ents : List (ℤ × ℤ)

def Batch.env (b : Batch) (e : ℤ × ℤ) : IosEnv := ⟨b.bulkRc, true, e.1, e.2⟩

/-- `sli_rim_handle_batch` of SRMT_PRECLAIM; the code of the loop is lost in the default case. -/
def sliRimHandlePreclaim (b : Batch) : PreclaimRc := if b.ents = [] ∨ b.bulkRc ≠ 0 then .error else .notsup

/-- The answer tells what was done, and so does the state each replica gets. -/
structure Told (site : Site) (b : Batch) : Prop where
  ok : sliRimHandlePreclaim b = .ok ↔ ∀ e ∈ b.ents, punches (b.env e)
  notsup : sliRimHandlePreclaim b = .notsup → ∀ e ∈ b.ents, punches (b.env e) = false
  error : (∃ e ∈ b.ents, punches (b.env e) = false) → sliRimHandlePreclaim b ≠ .ok
  invalid : ∀ e ∈ b.ents, ∀ lenv k ios s t, slmBatchPreclaimCb site lenv k ios (sliRimHandlePreclaim b) s = some t →
    ∀ i, s.state k i = .garbageSched → t.state k i = .invalid → punches (b.env e)
  garbage : ∀ e ∈ b.ents, ∀ lenv k ios s t, slmBatchPreclaimCb site lenv k ios (sliRimHandlePreclaim b) s = some t →
    ∀ i, s.state k i = .garbageSched → t.state k i = .garbage ∨ s.notsup ios = false ∧ t.notsup ios →
      punches (b.env e) = false

variable {site : Site} {b : Batch}

theorem sliRimHandlePreclaim_ne_ok : sliRimHandlePreclaim b ≠ .ok := by
  unfold sliRimHandlePreclaim
  split <;> simp

/-- Nothing is reclaimed for the MDS. -/
theorem state_ne_invalid {lenv : LookupEnv} {k : BmapId} {ios : IosId} {s t : St} {i : ℕ}
    (h : slmBatchPreclaimCb site lenv k ios (sliRimHandlePreclaim b) s = some t) (hs : s.state k i = .garbageSched) :
    t.state k i ≠ .invalid := by
  obtain ⟨n, -, -, hstate⟩ := slmBatchPreclaimCb_state h
  rw [hstate, hs, tractOne_move, reclaimed, if_neg sliRimHandlePreclaim_ne_ok]
  split <;> simp

/-- **The answer to a batch of reclaims is right** exactly if it has entries and nothing was punched. -/
theorem preclaim_told_iff (site : Site) (b : Batch) :
    Told site b ↔ b.ents ≠ [] ∧ ∀ e ∈ b.ents, punches (b.env e) = false := by
  constructor
  · intro h
    have hne : b.ents ≠ [] := fun hnil => sliRimHandlePreclaim_ne_ok (h.ok.mpr (by simp [hnil]))
    refine ⟨hne, ?_⟩
    by_cases hb : b.bulkRc = 0
    · exact h.notsup (if_neg (not_or.mpr ⟨hne, not_not.mpr hb⟩))
    · exact fun e _ => by simp [punches, Batch.env, hb]
  · rintro ⟨hne, hnone⟩
    obtain ⟨e, he⟩ := List.exists_mem_of_ne_nil _ hne
    refine ⟨⟨fun h => absurd h sliRimHandlePreclaim_ne_ok, fun h => ?_⟩, fun _ => hnone, fun _ => sliRimHandlePreclaim_ne_ok,
      fun _ _ _ _ _ _ _ h i hs hi => absurd hi (state_ne_invalid h hs), fun e he _ _ _ _ _ _ _ _ _ => hnone e he⟩
    exact absurd ((h e he).symm.trans (hnone e he)) Bool.noConfusion

/-- **A region is punched, and said to be unsupported.** -/
theorem preclaim_punched : punches (Batch.env ⟨0, [(0, 0)]⟩ (0, 0)) = true ∧
    sliRimHandlePreclaim ⟨0, [(0, 0)]⟩ = .notsup := by decide

end Slash2.Upsch.Preclaim
