/-
# Going through an ordered list by cursors

The elements of a list have keys that increase. A cursor is a number: what is up to it has been
seen, what is after it is still to come. Whoever takes the first few elements after a cursor and
moves it to the key of the last one has split the list at another place, and has skipped or
repeated none.
-/
import Mathlib.Data.List.TakeWhile

namespace Slash2.Lib.Cursor

open List

variable {α : Type*} (key : α → ℕ)

/-- What has been seen at cursor `c`. -/
def upto (l : List α) (c : ℕ) : List α := l.takeWhile (key · ≤ c)

/-- What is still to come at cursor `c`. -/
def after (l : List α) (c : ℕ) : List α := l.dropWhile (key · ≤ c)

abbrev Increasing (l : List α) : Prop := l.Pairwise (key · < key ·)

variable {key} {l s t : List α} {a : α} {c c' : ℕ}

@[simp] theorem upto_append_after (l : List α) (c : ℕ) : upto key l c ++ after key l c = l :=
  takeWhile_append_dropWhile

theorem le_of_mem_upto (h : a ∈ upto key l c) : key a ≤ c := by
  simpa using mem_takeWhile_imp h

theorem lt_of_mem_after (hl : Increasing key l) (h : a ∈ after key l c) : c < key a := by
  unfold after at h
  rcases hd : l.dropWhile (key · ≤ c) with _ | ⟨b, m⟩
  · rw [hd] at h
    exact absurd h not_mem_nil
  have hb : c < key b := by
    have hne : l.dropWhile (key · ≤ c) ≠ [] := by rw [hd]; exact cons_ne_nil b m
    have := head_dropWhile_not (key · ≤ c) hne
    simpa [hd] using this
  rw [hd] at h
  rcases mem_cons.mp h with rfl | hm
  · exact hb
  · have hinc : Increasing key (b :: m) := hd ▸ hl.sublist (dropWhile_sublist _)
    exact hb.trans (rel_of_pairwise_cons hinc hm)

theorem after_eq_self (h : ∀ a ∈ l, c < key a) : after key l c = l := by
  rcases l with _ | ⟨a, l⟩
  · rfl
  · exact dropWhile_cons_of_neg (by simpa using h a mem_cons_self)

theorem after_eq_of_append (hs : ∀ a ∈ s, key a ≤ c) (ht : ∀ a ∈ t, c < key a) : after key (s ++ t) c = t := by
  unfold after
  rw [dropWhile_append_of_pos (by simpa using hs)]
  exact after_eq_self ht

theorem le_getLast (hl : Increasing key s) (hs : s ≠ []) (ha : a ∈ s) : key a ≤ key (s.getLast hs) := by
  rw [← dropLast_concat_getLast hs] at hl ha
  rcases mem_append.mp ha with ha | ha
  · exact ((pairwise_append.mp hl).2.2 a ha _ (mem_singleton_self _)).le
  · rw [mem_singleton.mp ha]

theorem after_getLast (hl : Increasing key l) (h : after key l c = s ++ t) (hs : s ≠ []) :
    after key l (key (s.getLast hs)) = t := by
  have hsplit : l = (upto key l c ++ s) ++ t := by rw [append_assoc, ← h, upto_append_after]
  have hst : Increasing key (s ++ t) := h ▸ hl.sublist (dropWhile_sublist _)
  have hlast : c < key (s.getLast hs) := lt_of_mem_after hl (h ▸ mem_append_left t (getLast_mem hs))
  obtain ⟨hinc, -, hst⟩ := pairwise_append.mp hst
  rw [hsplit]
  refine after_eq_of_append (fun a ha => ?_) fun a ha => hst _ (getLast_mem hs) a ha
  rcases mem_append.mp ha with ha | ha
  · exact (le_of_mem_upto ha).trans hlast.le
  · exact le_getLast hinc hs ha

theorem upto_getLast (hl : Increasing key l) (h : after key l c = s ++ t) (hs : s ≠ []) :
    upto key l (key (s.getLast hs)) = upto key l c ++ s := by
  have hafter := after_getLast hl h hs
  apply (append_left_inj t).mp
  calc upto key l (key (s.getLast hs)) ++ t = l := by rw [← hafter, upto_append_after]
    _ = upto key l c ++ s ++ t := by rw [append_assoc, ← h, upto_append_after]

theorem after_after (l : List α) (h : c ≤ c') : after key (after key l c) c' = after key l c' := by
  induction l with
  | nil => rfl
  | cons a l ih =>
    by_cases ha : key a ≤ c
    · have h1 : after key (a :: l) c = after key l c := dropWhile_cons_of_pos (by simpa using ha)
      have h2 : after key (a :: l) c' = after key l c' := dropWhile_cons_of_pos (by simpa using ha.trans h)
      rw [h1, h2, ih]
    · have h1 : after key (a :: l) c = a :: l := dropWhile_cons_of_neg (by simpa using ha)
      rw [h1]

theorem after_append_of_mem (hst : Increasing key (s ++ t)) (hc : ∃ a ∈ s, key a = c) :
    after key (s ++ t) c = after key s c ++ t := by
  unfold after
  rw [dropWhile_append]
  split_ifs with he
  · rw [isEmpty_iff.mp he]
    obtain ⟨a, ha, rfl⟩ := hc
    exact after_eq_self fun b hb => (pairwise_append.mp hst).2.2 a ha b hb
  · rfl

end Slash2.Lib.Cursor
