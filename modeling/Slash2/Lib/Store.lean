/-
# A store whose writes reach the disk in order

Writes to a file are seen at once by whoever reads it and become durable later, in the order they
were made. `Store` keeps every version a file has had since it was last opened, so that what a
crash may leave is one of a list, and a property of the file that has to survive crashes is one
that all versions have.
-/
import Mathlib.Data.List.Basic

namespace Slash2.Lib

variable {D : Type*}

structure Store (D : Type*) where
  cur : D
  old : List D

def Store.opened (d : D) : Store D := ⟨d, []⟩

variable (s : Store D)

def Store.write (d : D) : Store D := ⟨d, s.cur :: s.old⟩

/-- What a crash leaves that loses the last `k` writes. -/
def Store.version : ℕ → D
  | 0 => s.cur
  | k + 1 => s.old[k]?.getD s.cur

@[simp] theorem Store.write_cur (d : D) : (s.write d).cur = d := rfl

@[simp] theorem Store.version_zero : s.version 0 = s.cur := rfl

@[simp] theorem Store.version_opened (d : D) (k : ℕ) : (Store.opened d).version k = d := by
  cases k <;> rfl

theorem Store.version_write (d : D) (k : ℕ) : (s.write d).version k = d ∨ ∃ j, (s.write d).version k = s.version j := by
  cases k with
  | zero => exact .inl rfl
  | succ k =>
    cases k with
    | zero => exact .inr ⟨0, rfl⟩
    | succ k =>
      cases hk : s.old[k]? with
      | none => exact .inl (by simp [version, write, hk])
      | some => exact .inr ⟨k + 1, by simp [version, write, hk]⟩

variable {P : D → Prop} {d : D}

theorem forall_version_write {s : Store D} (hs : ∀ k, P (s.version k))
    (hd : P d) (k : ℕ) : P ((s.write d).version k) := by
  rcases s.version_write d k with h | ⟨j, h⟩
  · rw [h]
    exact hd
  · rw [h]
    exact hs j

theorem forall_version_opened (hd : P d) (k : ℕ) : P ((Store.opened d).version k) := by
  rw [Store.version_opened]
  exact hd

end Slash2.Lib
