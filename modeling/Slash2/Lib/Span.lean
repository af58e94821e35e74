/-
# Spans of positions

A span is `n` positions from `s` on. The smallest span that contains two given ones
is their union exactly if they touch, that is, overlap or adjoin; otherwise it also
contains a position that is in neither.
-/
import Mathlib.Order.MinMax

namespace Slash2.Lib

open List

/-- Position `p` is one of the `n` positions from `s` on. -/
def InSpan (s n p : ℕ) : Prop := s ≤ p ∧ p < s + n
  deriving Decidable

def Touch (s n s' n' : ℕ) : Prop := s' ≤ s + n ∧ s ≤ s' + n'
  deriving Decidable

def hullStart (s s' : ℕ) : ℕ := if s < s' then s else s'

def hullLen (s n s' n' : ℕ) : ℕ :=
  (if s + n > s' + n' then s + n else s' + n') - hullStart s s'

theorem hullStart_add_hullLen (s n s' n' : ℕ) : hullStart s s' + hullLen s n s' n' = max (s + n) (s' + n') := by
  unfold hullLen hullStart
  split_ifs <;> omega

theorem inSpan_hull {s n s' n' : ℕ} (h : Touch s n s' n') (p : ℕ) :
    InSpan (hullStart s s') (hullLen s n s' n') p ↔ InSpan s n p ∨ InSpan s' n' p := by
  obtain ⟨h1, h2⟩ := h
  have hend := hullStart_add_hullLen s n s' n'
  have hstart : hullStart s s' = min s s' := by
    unfold hullStart
    split_ifs <;> omega
  unfold InSpan
  omega

theorem exists_gap {s n s' n' : ℕ} (hn : 0 < n) (hn' : 0 < n') (h : ¬ Touch s n s' n') :
    ∃ p, InSpan (hullStart s s') (hullLen s n s' n') p ∧ ¬ InSpan s n p ∧ ¬ InSpan s' n' p := by
  have hend := hullStart_add_hullLen s n s' n'
  have hstart : hullStart s s' = min s s' := by
    unfold hullStart
    split_ifs <;> omega
  unfold Touch at h
  unfold InSpan
  rcases Nat.lt_or_ge (s + n) s' with hlt | hge
  · exact ⟨s + n, by omega, by omega, by omega⟩
  · exact ⟨s' + n', by omega, by omega, by omega⟩

/-! ### Spans joined one after the other -/

section

variable {α : Type*} (lo hi : α → ℕ)

/-- How far the spans reach, together with what reaches up to `z`. -/
def reach (z : ℕ) (l : List α) : ℕ := l.foldl (fun z a => max z (hi a)) z

/-- Each span starts where `z` and those before reach, or earlier. -/
def Joined : ℕ → List α → Prop
  | _, [] => True
  | z, a :: l => lo a ≤ z ∧ Joined (max z (hi a)) l

@[simp] theorem reach_nil (z : ℕ) : reach hi z [] = z := rfl

@[simp] theorem reach_cons (z : ℕ) (a : α) (l : List α) : reach hi z (a :: l) = reach hi (max z (hi a)) l := rfl

theorem reach_snoc (z : ℕ) (l : List α) (a : α) : reach hi z (l ++ [a]) = max (reach hi z l) (hi a) := by
  simp [reach]

theorem le_reach : ∀ (z : ℕ) (l : List α), z ≤ reach hi z l
  | _, [] => le_rfl
  | z, a :: l => (le_max_left z (hi a)).trans (le_reach _ l)

variable {lo hi}

theorem joined_snoc : ∀ {z : ℕ} {l : List α} {a : α}, Joined lo hi z (l ++ [a]) ↔ Joined lo hi z l ∧ lo a ≤ reach hi z l
  | z, [], a => by simp [Joined]
  | z, b :: l, a => by
    simp only [cons_append, Joined, reach_cons, joined_snoc, and_assoc]

theorem lt_reach_iff {s : ℕ} : ∀ {z : ℕ} {l : List α}, s ≤ z → (∀ a ∈ l, s ≤ lo a) → Joined lo hi z l →
    ∀ p, (s ≤ p ∧ p < reach hi z l ↔ (s ≤ p ∧ p < z) ∨ ∃ a ∈ l, lo a ≤ p ∧ p < hi a)
  | z, [], _, _, _, p => by simp
  | z, a :: l, hz, hs, h, p => by
    have hsa := hs a mem_cons_self
    have hza := h.1
    have ih := lt_reach_iff (hz.trans (le_max_left z (hi a))) (fun b hb => hs b (mem_cons_of_mem a hb)) h.2 p
    rw [reach_cons, ih]
    simp only [mem_cons, exists_eq_or_imp, ← or_assoc]
    apply or_congr_left
    omega

end

end Slash2.Lib
