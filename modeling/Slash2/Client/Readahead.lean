/-
# Reading ahead

`msreadaheadthr_main` takes the readahead requests off their queue. Its pointers to the file and
to the bmap outlive an iteration: a lookup that fails clears its own pointer, but a file lookup that
fails leaves the bmap pointer as it was.

Key theorem: `references_exact_iff`.
-/
import Mathlib.Data.List.Perm.Basic

namespace Slash2.Client.Readahead

open List

/-! ### The readahead thread -/

inductive Ptr where
  | garbage
  | null
  /-- what the lookup of iteration `k` returned -/
  | ref (k : ℕ)
  deriving DecidableEq

inductive Held where
  | file (p : Ptr)
  | bmap (p : Ptr)
  deriving DecidableEq

/-- How an iteration goes: `fidc_lookup`, `bmap_get` and `BMAPF_DIO`. -/
structure Outcome where
  file : Bool
  bmap : Bool
  dio : Bool

/-- The references an iteration acquires and drops, and whether it reads. -/
structure Pass where
  acquired : List Held
  dropped : List Held
  reads : Bool

variable (k : ℕ) (b : Ptr) (o : Outcome) (os : List Outcome) {x : Held}

/-- `f`, which `fidc_lookup` clears first. -/
def fileOf : Ptr := if o.file then .ref k else .null

/-- `b`, which `bmap_get` clears first if it is called at all. -/
def bmapOf : Ptr := if o.file then if o.bmap then .ref k else .null else b

/-- An iteration of `msreadaheadthr_main`. -/
def pass : Pass where
  acquired := (if o.file then [.file (.ref k)] else []) ++ if o.file && o.bmap then [.bmap (.ref k)] else []
  dropped := (if bmapOf k b o = .null then [] else [.bmap (bmapOf k b o)]) ++
    if fileOf k o = .null then [] else [.file (fileOf k o)]
  reads := o.file && o.bmap && !o.dio

/-- `msreadaheadthr_main` from iteration `k` on. -/
def msreadaheadthrMain : ℕ → Ptr → List Outcome → List Pass
  | _, _, [] => []
  | k, b, o :: os => pass k b o :: msreadaheadthrMain (k + 1) (bmapOf k b o) os

/-- Each iteration drops what it acquired, so that none is left and none is dropped twice. -/
structure Exact (ps : List Pass) : Prop where
  each : ∀ p ∈ ps, p.dropped.Perm p.acquired
  held : (ps.flatMap Pass.dropped).Perm (ps.flatMap Pass.acquired)
  once : (ps.flatMap Pass.dropped).Nodup

/-- The file lookup fails only when `b` is NULL. -/
def Cleared : ℕ → Ptr → List Outcome → Prop
  | _, _, [] => True
  | k, b, o :: os => (o.file = false → b = .null) ∧ Cleared (k + 1) (bmapOf k b o) os

theorem dropped_perm_iff : (pass k b o).dropped.Perm (pass k b o).acquired ↔ (o.file = false → b = .null) := by
  obtain ⟨file, bmap, dio⟩ := o
  cases file
  · by_cases hb : b = .null <;> simp [pass, bmapOf, fileOf, hb]
  cases bmap
  · simp [pass, bmapOf, fileOf]
  · simpa [pass, bmapOf, fileOf] using Perm.swap ..

theorem each_iff : (∀ p ∈ msreadaheadthrMain k b os, p.dropped.Perm p.acquired) ↔ Cleared k b os := by
  induction os generalizing k b with
  | nil => simp [msreadaheadthrMain, Cleared]
  | cons o os ih => simp only [msreadaheadthrMain, Cleared, forall_mem_cons, dropped_perm_iff, ih]

theorem acquired_from (h : x ∈ (pass k b o).acquired) : x = .file (.ref k) ∨ x = .bmap (.ref k) := by
  simp only [pass, mem_append] at h
  rcases h with h | h
  · split at h <;> simp_all
  · split at h <;> simp_all

/-- What is acquired from iteration `k` on was not acquired before. -/
theorem acquired_nodup : ((msreadaheadthrMain k b os).flatMap Pass.acquired).Nodup ∧
    ∀ x ∈ (msreadaheadthrMain k b os).flatMap Pass.acquired, ∃ j ≥ k, x = .file (.ref j) ∨ x = .bmap (.ref j) := by
  induction os generalizing k b with
  | nil => simp [msreadaheadthrMain]
  | cons o os ih =>
    obtain ⟨hnd, hfrom⟩ := ih (k + 1) (bmapOf k b o)
    refine ⟨nodup_append.mpr ⟨?_, hnd, fun x hx y hy hxy => ?_⟩, fun x hx => ?_⟩
    · obtain ⟨file, bmap, dio⟩ := o
      cases file <;> cases bmap <;> simp [pass]
    · obtain ⟨j, hj, hy⟩ := hfrom y hy
      rcases acquired_from k b o hx with rfl | rfl <;> rcases hy with rfl | rfl <;> cases hxy <;> omega
    · rcases mem_append.mp hx with hx | hx
      · exact ⟨k, Nat.le_refl k, acquired_from k b o hx⟩
      · obtain ⟨j, hj, hx⟩ := hfrom x hx
        exact ⟨j, by omega, hx⟩

/-- **The thread drops exactly its references if and only if no file lookup fails while `b` is left from before.** -/
theorem references_exact_iff : Exact (msreadaheadthrMain 0 .garbage os) ↔ Cleared 0 .garbage os := by
  rw [← each_iff]
  refine ⟨Exact.each, fun h => ?_⟩
  have hperm : ((msreadaheadthrMain 0 .garbage os).flatMap Pass.dropped).Perm
      ((msreadaheadthrMain 0 .garbage os).flatMap Pass.acquired) := Perm.flatMap_left _ h
  exact ⟨h, hperm, hperm.nodup_iff.mpr (acquired_nodup 0 .garbage os).1⟩

/-- The second file lookup fails, and the bmap of the first request is dropped again. -/
theorem bmap_dropped_twice : ¬Exact (msreadaheadthrMain 0 .garbage [⟨true, true, false⟩, ⟨false, false, false⟩]) :=
  fun h => by simpa [msreadaheadthrMain, pass, bmapOf, fileOf] using h.once

end Slash2.Client.Readahead
