/-
# Circular chains

A chain of cells linked through a pointer field, here a function `next : α → α`.
`Links next a l z` says that following the pointers from `a` passes the cells of `l`,
in this order, and then arrives at `z`; a circular chain with head `h` is
`Links next h l h`. Splitting a chain at a cell and redirecting the pointer of its
last cell are the two moves all insertions and removals are made of.

Key theorem: `Links.unlink`.
-/
import Mathlib.Data.List.Nodup

namespace Slash2.Lib

open List Function

variable {α : Type*}

/-- The pointers lead from `a` through the cells of `l` to `z`. -/
def Links (next : α → α) : α → List α → α → Prop
  | a, [], z => next a = z
  | a, b :: l, z => next a = b ∧ Links next b l z

variable {next : α → α} {z b a : α}

@[simp] theorem links_nil : Links next a [] z ↔ next a = z := Iff.rfl

@[simp] theorem links_cons {l : List α} : Links next a (b :: l) z ↔ next a = b ∧ Links next b l z := Iff.rfl

theorem links_append {m : List α} :
    ∀ {a : α} {l : List α}, Links next a (l ++ b :: m) z ↔ Links next a l b ∧ Links next b m z
  | _, [] => Iff.rfl
  | _, c :: l => by
    rw [cons_append, links_cons, links_append, links_cons, and_assoc]

theorem Links.congr {next' : α → α} : ∀ {a : α} {l : List α},
    (∀ x ∈ a :: l, next' x = next x) → Links next a l z → Links next' a l z
  | a, [], h, hl => (h a mem_cons_self).trans hl
  | a, _ :: _, h, hl =>
    ⟨(h a mem_cons_self).trans hl.1, hl.2.congr fun x hx => h x (mem_cons_of_mem a hx)⟩

section Update

variable [DecidableEq α]

theorem Links.redirect {w : α} : ∀ {a : α} {l : List α}, Links next a l z → (a :: l).Nodup →
      Links (update next ((a :: l).getLast (cons_ne_nil a l)) w) a l w
  | a, [], _, _ => by simp
  | a, b :: l, hl, hnd => by
    have hne : a ≠ (b :: l).getLast (cons_ne_nil b l) := fun h =>
      (nodup_cons.mp hnd).1 (h ▸ getLast_mem _)
    rw [getLast_cons (cons_ne_nil b l)]
    refine ⟨?_, hl.2.redirect (nodup_cons.mp hnd).2⟩
    rw [update_of_ne hne]
    exact hl.1

theorem Links.snoc {h : α} {t : List α} (hl : Links next h t h) (hnd : (h :: t).Nodup) (hb : b ∉ h :: t) :
    Links (update (update next ((h :: t).getLast (cons_ne_nil h t)) b) b h) h (t ++ [b]) h := by
  refine links_append.mpr ⟨(hl.redirect hnd).congr fun x hx => ?_, update_self ..⟩
  have hne : x ≠ b := fun hxb => hb (hxb ▸ hx)
  rw [update_of_ne hne]

theorem Links.unlink {l m : List α} (hl : Links next a (l ++ b :: m) z) (hnd : (a :: (l ++ b :: m)).Nodup) :
    Links (update next ((a :: l).getLast (cons_ne_nil a l)) (next b)) a (l ++ m) z := by
  obtain ⟨hab, hbz⟩ := links_append.mp hl
  have hnd' : (a :: l).Nodup ∧ (b :: m).Nodup ∧ ∀ x ∈ a :: l, ∀ y ∈ b :: m, x ≠ y := nodup_append.mp hnd
  obtain ⟨hndl, -, hdisj⟩ := hnd'
  cases m with
  | nil =>
    rw [append_nil, links_nil.mp hbz]
    exact hab.redirect hndl
  | cons =>
    obtain ⟨hbc, hcz⟩ := hbz
    rw [hbc]
    refine links_append.mpr ⟨hab.redirect hndl, hcz.congr fun x hx => ?_⟩
    refine update_of_ne (fun hxl => ?_) ..
    exact hdisj _ (getLast_mem _) x (mem_cons_of_mem b hx) hxl.symm

end Update

section Loops

variable [DecidableEq α]

/-- The cells met by `do { … a = a->next; } while (a != z)`. -/
def visits (next : α → α) (z : α) : ℕ → α → Option (List α)
  | 0, _ => none
  | n + 1, a => if next a = z then some [a] else (visits next z n (next a)).map (a :: ·)

/-- The cell `while (a->next != z) a = a->next` stops at. -/
def before (next : α → α) (z : α) : ℕ → α → Option α
  | 0, _ => none
  | n + 1, a => if next a = z then some a else before next z n (next a)

theorem visits_of_links : ∀ {l : List α} {a : α} {n : ℕ},
    Links next a l z → z ∉ l → l.length < n → visits next z n a = some (a :: l)
  | [], a, n + 1, hl, _, _ => by
    rw [visits, if_pos (links_nil.mp hl)]
  | b :: l, a, n + 1, hl, hz, hn => by
    have hne : next a ≠ z := fun h => hz (by rw [← h, hl.1]; exact mem_cons_self)
    have ih := visits_of_links hl.2 (fun h => hz (mem_cons_of_mem b h)) (Nat.lt_of_succ_lt_succ hn)
    rw [visits, if_neg hne, hl.1, ih]
    rfl

theorem before_of_links : ∀ {l : List α} {a : α} {n : ℕ}, Links next a l z → z ∉ l → l.length < n →
      before next z n a = some ((a :: l).getLast (cons_ne_nil a l))
  | [], a, n + 1, hl, _, _ => by
    rw [before, if_pos (links_nil.mp hl)]
    rfl
  | b :: l, a, n + 1, hl, hz, hn => by
    have hne : next a ≠ z := fun h => hz (by rw [← h, hl.1]; exact mem_cons_self)
    have ih := before_of_links hl.2 (fun h => hz (mem_cons_of_mem b h)) (Nat.lt_of_succ_lt_succ hn)
    rw [before, if_neg hne, hl.1, ih, getLast_cons (cons_ne_nil b l)]

end Loops

end Slash2.Lib
