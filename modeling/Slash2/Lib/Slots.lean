/-
# Lists changed at one place

A table of things that are numbered by their places in a list, where a step changes one of
them or adds one at the end. What is read off all of them changes accordingly: a field that
stays the same, and a sum over them. A loop over the table may also take things out of it or
change them on its way, until it has found what it is looking for.
-/
import Mathlib.Algebra.BigOperators.Group.List.Basic

namespace Slash2.Lib

open List Option

variable {α β : Type*} {l : List α} {i : ℕ} {a x : α}

theorem map_set_of_eq (f : α → β) (hi : l[i]? = some a) (hf : f x = f a) : (l.set i x).map f = l.map f := by
  refine ext_getElem? fun j => ?_
  rw [getElem?_map, getElem?_map, getElem?_set]
  split_ifs with h1 h2
  · subst h1
    rw [hi, map_some, map_some, hf]
  · subst h1
    rw [getElem?_eq_none (Nat.not_lt.mp h2)]
  · rfl

theorem getElem?_set_cases {j : ℕ} {y : α} (h : (l.set i x)[j]? = some y) : j = i ∧ y = x ∨ j ≠ i ∧ l[j]? = some y := by
  rw [getElem?_set] at h
  split_ifs at h with h1 h2
  · exact .inl ⟨h1.symm, (some.inj h).symm⟩
  · exact .inr ⟨fun hj => h1 hj.symm, h⟩

theorem exists_getElem?_set {j : ℕ} {P : α → Prop} (hi : l[i]? = some a) (hP : P a → P x) (h : ∃ b, l[j]? = some b ∧ P b) :
    ∃ b, (l.set i x)[j]? = some b ∧ P b := by
  obtain ⟨b, hb, hPb⟩ := h
  by_cases hne : i = j
  · subst hne
    obtain rfl := Option.some.inj (hi.symm.trans hb)
    exact ⟨x, List.getElem?_set_self (List.getElem?_eq_some_iff.mp hi).1, hP hPb⟩
  · exact ⟨b, (List.getElem?_set_ne hne).trans hb, hPb⟩

theorem sum_map_set {M : Type*} [AddCommMonoid M] (f : α → M) : ∀ {l : List α} {i : ℕ}, l[i]? = some a →
    ((l.set i x).map f).sum + f a = (l.map f).sum + f x
  | [], i, h => by simp at h
  | b :: l, 0, h => by
    cases h
    simp only [set_cons_zero, map_cons, sum_cons]
    rw [add_right_comm, add_comm (f x)]
    exact add_right_comm _ _ _
  | b :: l, i + 1, h => by
    have ih := sum_map_set f (l := l) (i := i) (by simpa using h)
    simp only [set_cons_succ, map_cons, sum_cons, add_assoc]
    rw [ih]

theorem exists_mapM_iff {β : Type*} {f : α → Option β} {P : β → Prop} : ∀ {l : List α},
    (∃ r, l.mapM f = some r ∧ ∀ b ∈ r, P b) ↔ ∀ a ∈ l, ∃ b, f a = some b ∧ P b
  | [] => by simp
  | a :: l => by
    rw [forall_mem_cons, ← exists_mapM_iff, mapM_cons]
    cases f a with
    | none => simp
    | some =>
      cases l.mapM f with
      | none => simp
      | some => simp

theorem getElem?_snoc_cases {n : ℕ} {b : α} (h : (l ++ [a])[n]? = some b) :
    n < l.length ∧ l[n]? = some b ∨ n = l.length ∧ b = a := by
  rcases Nat.lt_or_ge n l.length with hlt | hge
  · rw [getElem?_append_left hlt] at h
    exact .inl ⟨hlt, h⟩
  rw [getElem?_append_right hge] at h
  obtain ⟨hn0, hb⟩ := List.getElem?_eq_some_iff.mp h
  rw [length_singleton] at hn0
  rw [getElem_singleton] at hb
  exact .inr ⟨by omega, hb.symm⟩

theorem forall_getElem?_snoc {P : ℕ → α → Prop} (hl : ∀ n b, l[n]? = some b → P n b) (ha : P l.length a) :
    ∀ n b, (l ++ [a])[n]? = some b → P n b := by
  intro n b hn
  rcases getElem?_snoc_cases hn with ⟨-, hb⟩ | ⟨rfl, rfl⟩
  · exact hl n b hb
  · exact ha

/-! ### The same change at several places -/

def modifyAll (g : List ℕ) (f : α → α) (l : List α) : List α := g.foldl (fun l k => l.modify k f) l

theorem getElem?_modifyAll {f : α → α} (hf : ∀ a, f (f a) = f a) (j : ℕ) : ∀ (g : List ℕ) (l : List α),
    (modifyAll g f l)[j]? = if j ∈ g then l[j]?.map f else l[j]?
  | [], l => by rw [if_neg not_mem_nil]; rfl
  | k :: g, l => by
    have ih := getElem?_modifyAll hf j g (l.modify k f)
    rw [getElem?_modify] at ih
    refine ih.trans ?_
    rcases eq_or_ne j k with rfl | hne
    · cases l[j]? <;> simp [hf]
    · simp only [Ne.symm hne, if_false, id_map', mem_cons, hne, false_or]

/-- A loop leaves `kept` in place of a thing, and goes on or ends. -/
inductive Visit (α β : Type*) where
  | pass (kept : List α)
  | stop (kept : List α) (result : β)

def Visit.kept : Visit α β → List α
  | .pass k | .stop k _ => k

def Visit.stops : Visit α β → Bool
  | .pass _ => false
  | .stop _ _ => true

/-- A loop over a table: what is left, and the result, or `last`. -/
def sweep (f : α → Visit α β) (last : β) : List α → List α × β
  | [] => ([], last)
  | a :: l =>
    match f a with
    | .stop k r => (k ++ l, r)
    | .pass k => (k ++ (sweep f last l).1, (sweep f last l).2)

theorem mem_sweep {f : α → Visit α β} {last : β} : ∀ {l : List α}, x ∈ (sweep f last l).1 →
    x ∈ l ∨ ∃ a ∈ l, x ∈ (f a).kept
  | [], h => absurd h not_mem_nil
  | a :: l, h => by
    unfold sweep at h
    rcases hf : f a with k | ⟨k, r⟩
    · rw [hf] at h
      rcases mem_append.mp h with h | h
      · exact .inr ⟨a, mem_cons_self, hf ▸ h⟩
      rcases mem_sweep h with h | ⟨b, hb, hx⟩
      · exact .inl (mem_cons_of_mem a h)
      · exact .inr ⟨b, mem_cons_of_mem a hb, hx⟩
    rw [hf] at h
    rcases mem_append.mp h with h | h
    · exact .inr ⟨a, mem_cons_self, hf ▸ h⟩
    · exact .inl (mem_cons_of_mem a h)

/-- The result is that of the first visit which stops. -/
theorem sweep_result (f : α → Visit α β) (last : β) : ∀ l : List α,
    (sweep f last l).2 = last ∨ ∃ a, l.find? (fun a => (f a).stops) = some a ∧ ∃ k, f a = .stop k (sweep f last l).2
  | [] => .inl rfl
  | a :: l => by
    unfold sweep
    rcases hf : f a with k | ⟨k, r⟩
    · rw [find?_cons_of_neg (by simp [hf, Visit.stops])]
      exact sweep_result f last l
    · exact .inr ⟨a, find?_cons_of_pos (by simp [hf, Visit.stops]), k, hf⟩

end Slash2.Lib
