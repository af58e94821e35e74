/-
# Values carried on in order

Values are made one after another and carried through stages to a receiver; on the way a later
value may take the place of an earlier one. `Carried made held` says that what has been received
or is still held keeps the order in which it was made, and ends with the last value made.
-/
import Mathlib.Data.List.Basic

namespace Slash2.Lib

open List

variable {α : Type*}

structure Carried (made held : List α) : Prop where
  inOrder : held.Sublist made
  last : held.getLast? = made.getLast?

namespace Carried

variable {made held l m : List α} {x y : α}

theorem nil : Carried ([] : List α) [] := ⟨List.Sublist.slnil, rfl⟩

theorem snoc (h : Carried made held) (x : α) : Carried (made ++ [x]) (held ++ [x]) :=
  ⟨h.inOrder.append_right [x], by simp⟩

theorem overwrite (h : Carried made (l ++ y :: x :: m)) : Carried made (l ++ x :: m) where
  inOrder := (List.Sublist.append_left (sublist_cons_self y (x :: m)) l).trans h.inOrder
  last := by
    rw [← h.last, getLast?_append, getLast?_append, getLast?_cons_cons]

theorem received (h : Carried made (l ++ m)) : l.Sublist made := (sublist_append_left l m).trans h.inOrder

end Carried

end Slash2.Lib
