/-
# Lists that are extended and shuffled

A list of candidates is made in rounds: in each round things are added that are not on it yet, and what was added is
then shuffled, from the place where the round has begun. A round leaves what was on the list where it was.
-/
import Mathlib.Data.List.Basic

namespace Slash2.Lib

open List

variable {α β : Type*} {a b c : List α} {P Q : α → Prop}

/-- `b` is `a` with the things of `P` that it lacks. -/
structure Extends (a b : List α) (P : α → Prop) : Prop where
  keeps : ∃ t, b = a ++ t
  mem : ∀ x, x ∈ b ↔ x ∈ a ∨ P x

theorem Extends.refl (a : List α) : Extends a a fun _ => False := by
  refine ⟨⟨[], (append_nil a).symm⟩, fun x => ?_⟩
  rw [or_false]

theorem Extends.trans (h : Extends a b P) (h' : Extends b c Q) : Extends a c fun x => P x ∨ Q x := by
  obtain ⟨t, rfl⟩ := h.keeps
  obtain ⟨t', rfl⟩ := h'.keeps
  refine ⟨⟨t ++ t', append_assoc a t t'⟩, fun x => ?_⟩
  rw [h'.mem, h.mem, or_assoc]

theorem Extends.congr (h : Extends a b P) (hPQ : ∀ x, P x ↔ Q x) : Extends a b Q :=
  ⟨h.keeps, fun x => (h.mem x).trans (or_congr_right (hPQ x))⟩

theorem Extends.foldl {f : List α → β → List α} {P : β → α → Prop} (hf : ∀ a r, Extends a (f a r) (P r)) :
    ∀ (rs : List β) (a : List α), Extends a (rs.foldl f a) fun x => ∃ r ∈ rs, P r x
  | [], a => (Extends.refl a).congr fun x => by simp
  | r :: rs, a => by
    refine ((hf a r).trans (Extends.foldl hf rs (f a r))).congr fun x => ?_
    rw [exists_mem_cons_iff]

/-! ### Adding what is not there -/

def addIfdne [DecidableEq α] (a : List α) (x : α) : List α := if x ∈ a then a else a ++ [x]

theorem Extends.addIfdne [DecidableEq α] (a : List α) (x : α) : Extends a (addIfdne a x) (· = x) := by
  rw [Lib.addIfdne]
  by_cases hx : x ∈ a
  · rw [if_pos hx]
    refine ⟨⟨[], (append_nil a).symm⟩, fun y => (or_iff_left_of_imp ?_).symm⟩
    rintro rfl
    exact hx
  rw [if_neg hx]
  refine ⟨⟨[x], rfl⟩, fun y => ?_⟩
  rw [mem_append, mem_singleton]

theorem Extends.foldl_addIfdne [DecidableEq α] (xs a : List α) : Extends a (xs.foldl Lib.addIfdne a) (· ∈ xs) :=
  (Extends.foldl Extends.addIfdne xs a).congr fun x => by simp

def swapAt (l : List α) (i j : ℕ) : List α :=
  match l[i]?, l[j]? with
  | some x, some y => (l.set i y).set j x
  | _, _ => l

theorem swapAt_perm (l : List α) (i j : ℕ) : (swapAt l i j).Perm l := by
  rw [swapAt]
  split
  case h_1 x y hx hy =>
    obtain ⟨hi, rfl⟩ := List.getElem?_eq_some_iff.mp hx
    obtain ⟨hj, rfl⟩ := List.getElem?_eq_some_iff.mp hy
    exact set_set_perm hi hj
  case h_2 => exact .refl l

theorem swapAt_append (l m : List α) (i j : ℕ) : swapAt (l ++ m) (l.length + i) (l.length + j) = l ++ swapAt m i j := by
  have hget : ∀ k, (l ++ m)[l.length + k]? = m[k]? := fun k => by
    rw [getElem?_append_right (Nat.le_add_right _ _), Nat.add_sub_cancel_left]
  have hset : ∀ m k x, (l ++ m).set (l.length + k) x = l ++ m.set k x := fun m k x => by
    rw [set_append_right _ _ (Nat.le_add_right _ _), Nat.add_sub_cancel_left]
  rw [swapAt, swapAt, hget, hget]
  split
  · rw [hset, hset]
  · rfl

/-- Exchange each element from `begin` on with the `rnd i`-th of those left. -/
def shuffleFrom (rnd : ℕ → ℕ) (begin : ℕ) (l : List α) : List α :=
  (range' 1 (l.length - begin - 1)).foldl (fun l i => swapAt l (begin + i) (begin + rnd i % (i + 1))) l

theorem foldl_swapAt_append (rnd : ℕ → ℕ) (l : List α) : ∀ (is : List ℕ) (m : List α), ∃ m', m'.Perm m ∧
    is.foldl (fun l' i => swapAt l' (l.length + i) (l.length + rnd i % (i + 1))) (l ++ m) = l ++ m'
  | [], m => ⟨m, List.Perm.refl m, rfl⟩
  | i :: is, m => by
    rw [foldl_cons, swapAt_append]
    obtain ⟨m', hperm, heq⟩ := foldl_swapAt_append rnd l is (swapAt m i (rnd i % (i + 1)))
    exact ⟨m', hperm.trans (swapAt_perm m _ _), heq⟩

theorem Extends.shuffleFrom (h : Extends a b P) (rnd : ℕ → ℕ) : Extends a (Lib.shuffleFrom rnd a.length b) P := by
  obtain ⟨t, rfl⟩ := h.keeps
  obtain ⟨t', hperm, heq⟩ := foldl_swapAt_append rnd a (range' 1 ((a ++ t).length - a.length - 1)) t
  rw [Lib.shuffleFrom, heq]
  refine ⟨⟨t', rfl⟩, fun x => ?_⟩
  rw [← h.mem, mem_append, mem_append, hperm.mem_iff]

end Slash2.Lib
