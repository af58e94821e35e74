/-
# Paging work in

`upd_proc_pagein_unit` has the rows of a bmap deleted that has no work. By `pagein_keeps_iff` garbage is not taken for
work, and if the file or the bmap cannot be loaded the rows of all bmaps of the file are deleted.
-/
import Slash2.Residency.UpschAgree

namespace Slash2.Upsch

open Residency List

def pageinRet : Retifset
  | .replQueued | .truncpndg => 1
  | _ => 0

def pageinWalk (site : Site) (k : BmapId) (s : St) : ℤ :=
  (mdsReplBmapWalk Tract.init pageinRet ⟨true, false⟩ [] (fun _ _ u => u) (site.nrepls k) (s.bmap k).repls ()).rc

/-- The work item for `slm_wk_upsch_purge`, where `none` is `BMAPNO_ANY`. -/
def updProcPageinUnit (site : Site) (k : BmapId) (fcmhRc bmapRc : ℤ) (s : St) : Option (ℕ × Option ℕ) :=
  if fcmhRc ≠ 0 ∨ bmapRc ≠ 0 then some (k.fid, none)
  else if pageinWalk site k s ≠ 0 then none
  else some (k.fid, some k.bno)

/-- The rows `slm_wk_upsch_purge` deletes are those of the bmap. -/
def slmWkUpschPurge (wk : ℕ × Option ℕ) (k : BmapId) : Bool := k.fid = wk.1 ∧ wk.2.all (k.bno = ·)

/-- States the scheduler acts on. -/
def HasWork (v : Breplst) : Prop := v = .replQueued ∨ v = .truncpndg ∨ v = .garbage

theorem pageinWalk_ne_zero_iff (site : Site) (k : BmapId) (s : St) :
    pageinWalk site k s ≠ 0 ↔ ∃ n < site.nrepls k, s.state k n = .replQueued ∨ s.state k n = .truncpndg := by
  have hret : ∀ v, pageinRet v ≠ 0 ↔ v = .replQueued ∨ v = .truncpndg := by
    intro v
    cases v <;> decide
  have hmem : ∀ x, x ∈ answers pageinRet (s.state k) (range (site.nrepls k)) ↔
      (∃ n < site.nrepls k, pageinRet (s.state k n) = x) ∧ x ≠ 0 := by
    simp [answers]
  rw [pageinWalk, (mdsReplBmapWalk_spec _ _ _ _ nodup_nil (by simp) (site.nrepls_le k) _ _).2, answer, if_pos rfl]
  change (answers pageinRet (s.state k) (range (site.nrepls k))).headD 0 ≠ 0 ↔ _
  simp only [← hret]
  cases h : answers pageinRet (s.state k) (range (site.nrepls k)) with
  | nil =>
    simp only [h, not_mem_nil, false_iff] at hmem
    refine iff_of_false (absurd rfl) ?_
    rintro ⟨n, hn, hne⟩
    exact hmem _ ⟨⟨n, hn, rfl⟩, hne⟩
  | cons x xs =>
    obtain ⟨⟨n, hn, rfl⟩, hne⟩ := (hmem x).mp (h ▸ mem_cons_self)
    exact iff_of_true hne ⟨n, hn, hne⟩

variable (site : Site) (k : BmapId) (fcmhRc bmapRc : ℤ) (s : St)

/-- **Only rows without work are deleted if and only if the bmap is loaded, and other work waits or no garbage.** -/
theorem pagein_keeps_iff : (∀ wk ∈ updProcPageinUnit site k fcmhRc bmapRc s, ∀ k', slmWkUpschPurge wk k' = true →
      k' = k ∧ ∀ n < site.nrepls k, ¬ HasWork (s.state k n)) ↔
    (fcmhRc = 0 ∧ bmapRc = 0) ∧ ((∃ n < site.nrepls k, s.state k n = .replQueued ∨ s.state k n = .truncpndg) ∨
      ∀ n < site.nrepls k, s.state k n ≠ .garbage) := by
  rw [← pageinWalk_ne_zero_iff]
  unfold updProcPageinUnit
  split_ifs with hrc hwalk
  · refine iff_of_false (fun h => ?_) fun h => hrc.elim (absurd h.1.1) (absurd h.1.2)
    obtain ⟨heq, -⟩ := h _ rfl ⟨k.fid, k.bno + 1⟩ (by simp [slmWkUpschPurge])
    exact absurd (congrArg BmapId.bno heq) (by simp)
  · exact iff_of_true (fun _ h => nomatch h) ⟨not_or.mp hrc |>.imp not_not.mp not_not.mp, .inl hwalk⟩
  constructor
  · intro h
    obtain ⟨-, hnone⟩ := h _ rfl k (by simp [slmWkUpschPurge])
    exact ⟨not_or.mp hrc |>.imp not_not.mp not_not.mp, .inr fun n hn hg => hnone n hn (.inr (.inr hg))⟩
  · rintro ⟨-, hw | hg⟩ wk ⟨⟩ k' hk'
    · exact absurd hw hwalk
    have hk : k'.fid = k.fid ∧ k'.bno = k.bno := by simpa [slmWkUpschPurge] using hk'
    refine ⟨by cases k'; cases k; simpa using hk, fun n hn => ?_⟩
    rintro (hq | ht | hgarb)
    · exact hwalk ((pageinWalk_ne_zero_iff ..).mpr ⟨n, hn, .inl hq⟩)
    · exact hwalk ((pageinWalk_ne_zero_iff ..).mpr ⟨n, hn, .inr ht⟩)
    · exact hg n hn hgarb

/-- Garbage is purged; and if the bmap cannot be loaded another bmap is, which has a copy queued. -/
theorem pagein_purges_work :
    (updProcPageinUnit duoSite duoKey 0 0 { duoStart with bmap := fun _ => duoBmap .valid .garbage }).map
      (slmWkUpschPurge · duoKey) = some true ∧
    (updProcPageinUnit duoSite duoKey 0 5 { duoStart with bmap := fun _ => duoBmap .valid .replQueued }).map
      (slmWkUpschPurge · ⟨7, 1⟩) = some true := by
  decide +kernel

end Slash2.Upsch
