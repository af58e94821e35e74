/-
# A table with a unique key

A database table whose rows are found by a unique key, and the three statements
that change one row: insert, delete, update. Each statement is atomic. An insert
for a key that has a row fails: the row stays as it is and the table remembers
that such an insert was attempted.

Key theorems: `execAll_rows_of_mem`, `execAll_clash`.
-/
import Mathlib.Data.List.Nodup
import Mathlib.Data.List.Perm.Basic

namespace Slash2.Lib

open List Function

variable {κ ρ : Type*}

structure Table (κ ρ : Type*) where
  rows : κ → Option ρ
  clash : Bool

inductive Stmt (κ ρ : Type*) where
  | insert (k : κ) (r : ρ)
  | delete (k : κ)
  | update (k : κ) (f : ρ → ρ)

namespace Stmt

def key : Stmt κ ρ → κ
  | insert k _ => k
  | delete k => k
  | update k _ => k

def onRow : Stmt κ ρ → Option ρ → Option ρ
  | insert _ r, o => some (o.getD r)
  | delete _, _ => none
  | update _ f, o => o.map f

def clashes : Stmt κ ρ → Option ρ → Bool
  | insert _ _, o => o.isSome
  | delete _, _ => false
  | update _ _, _ => false

def isInsert : Stmt κ ρ → Bool
  | insert _ _ => true
  | _ => false

def isDelete : Stmt κ ρ → Bool
  | delete _ => true
  | _ => false

def isUpdate : Stmt κ ρ → Bool
  | update _ _ => true
  | _ => false

end Stmt

def inPhases (l : List (Stmt κ ρ)) : List (Stmt κ ρ) :=
  l.filter Stmt.isInsert ++ l.filter Stmt.isDelete ++ l.filter Stmt.isUpdate

theorem inPhases_perm (l : List (Stmt κ ρ)) : (inPhases l).Perm l := by
  induction l with
  | nil => exact List.Perm.nil
  | cons x l ih =>
    unfold inPhases at ih ⊢
    cases x with
    | insert => exact ih.cons _
    | delete =>
      refine List.Perm.trans ?_ (ih.cons _)
      simp only [Stmt.isInsert, Stmt.isDelete, Stmt.isUpdate, filter_cons, if_true,
        Bool.false_eq_true, if_false, append_assoc, cons_append]
      exact perm_middle
    | update =>
      refine List.Perm.trans ?_ (ih.cons _)
      exact perm_middle

namespace Table

variable [DecidableEq κ] (t : Table κ ρ)

def exec (x : Stmt κ ρ) : Table κ ρ where
  rows := update t.rows x.key (x.onRow (t.rows x.key))
  clash := t.clash || x.clashes (t.rows x.key)

def execAll (l : List (Stmt κ ρ)) : Table κ ρ := l.foldl exec t

@[simp] theorem exec_rows_key (x : Stmt κ ρ) : (t.exec x).rows x.key = x.onRow (t.rows x.key) :=
  update_self ..

variable {x : Stmt κ ρ} {k : κ}

theorem exec_rows_of_ne (h : k ≠ x.key) : (t.exec x).rows k = t.rows k := update_of_ne h ..

@[simp] theorem exec_clash (x : Stmt κ ρ) : (t.exec x).clash = (t.clash || x.clashes (t.rows x.key)) := rfl

@[simp] theorem execAll_nil : t.execAll [] = t := rfl

@[simp] theorem execAll_cons (x : Stmt κ ρ) (l : List (Stmt κ ρ)) : t.execAll (x :: l) = (t.exec x).execAll l := rfl

theorem execAll_rows_of_notMem : ∀ (l : List (Stmt κ ρ)) (t : Table κ ρ),
    k ∉ l.map Stmt.key → (t.execAll l).rows k = t.rows k
  | [], _, _ => rfl
  | x :: l, t, h => by
    obtain ⟨hx, hl⟩ := not_or.mp (mt mem_cons.mpr h)
    rw [execAll_cons, execAll_rows_of_notMem l _ hl, exec_rows_of_ne t hx]

theorem execAll_rows_of_mem : ∀ (l : List (Stmt κ ρ)) (t : Table κ ρ),
    (l.map Stmt.key).Nodup → x ∈ l → (t.execAll l).rows x.key = x.onRow (t.rows x.key)
  | y :: l, t, hn, hx => by
    obtain ⟨hy, hn⟩ := nodup_cons.mp hn
    rw [execAll_cons]
    rcases mem_cons.mp hx with rfl | hx
    · rw [execAll_rows_of_notMem l _ hy, exec_rows_key]
    · have hne : x.key ≠ y.key := fun h => hy (h ▸ mem_map_of_mem hx)
      rw [execAll_rows_of_mem l _ hn hx, exec_rows_of_ne t hne]

theorem execAll_clash : ∀ (l : List (Stmt κ ρ)) (t : Table κ ρ), (l.map Stmt.key).Nodup →
    ((t.execAll l).clash ↔ t.clash ∨ ∃ x ∈ l, x.clashes (t.rows x.key))
  | [], t, _ => by simp
  | y :: l, t, hn => by
    obtain ⟨hy, hn⟩ := nodup_cons.mp hn
    -- the later statements find their rows as they were before `y`
    have hrow : ∀ x ∈ l, (t.exec y).rows x.key = t.rows x.key := fun x hx =>
      exec_rows_of_ne t fun h => hy (h ▸ mem_map_of_mem hx)
    have hex : (∃ x ∈ l, x.clashes ((t.exec y).rows x.key) = true) ↔ ∃ x ∈ l, x.clashes (t.rows x.key) :=
      exists_congr fun x => and_congr_right fun hx => by rw [hrow x hx]
    rw [execAll_cons, execAll_clash l _ hn, hex, exec_clash, Bool.or_eq_true, exists_mem_cons_iff, or_assoc]

end Table

end Slash2.Lib
