/-
# Windows of a function

The values of a function on `n` consecutive positions, as a list. A window splits where its
range splits, so what is put together from adjoining pieces in their order is the window on
the whole range.
-/
import Mathlib.Data.List.Basic

namespace Slash2.Lib

open List

variable {α : Type*} (f : ℕ → α)

/-- The values of `f` at `a`, …, `a + n - 1`. -/
def window (a n : ℕ) : List α := (range n).map fun j => f (a + j)

@[simp] theorem window_zero (a : ℕ) : window f a 0 = [] := rfl

@[simp] theorem length_window (a n : ℕ) : (window f a n).length = n := by
  simp [window]

theorem window_add (a m n : ℕ) : window f a (m + n) = window f a m ++ window f (a + m) n := by
  simp only [window, range_add, map_append, map_map, Function.comp_def, Nat.add_assoc]

theorem window_congr {f g : ℕ → α} {a b n : ℕ} (h : ∀ j < n, f (a + j) = g (b + j)) : window f a n = window g b n :=
  map_congr_left fun j hj => h j (mem_range.mp hj)

end Slash2.Lib
