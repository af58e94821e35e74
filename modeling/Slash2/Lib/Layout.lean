/-
# Values laid out in bytes, and files of bytes

A `Layout` says how the values of a type stand in memory or on disk: how many bytes they
take, which, and how to get the value back. Words are stored with the least significant
byte first; a record is built up from its fields with `Layout.prod`, `Layout.vec` and
`Layout.iso`.
-/
import Mathlib.Algebra.Ring.Nat

namespace Slash2.Lib

open List (drop_drop length_take)

abbrev Byte := BitVec 8

/-! ### Words -/

/-- The `n` low bytes of a number, the least significant one first. -/
def leBytes : ℕ → ℕ → List Byte
  | 0, _ => []
  | n + 1, v => BitVec.ofNat 8 v :: leBytes n (v / 256)

def leVal : List Byte → ℕ
  | [] => 0
  | b :: bs => b.toNat + 256 * leVal bs

theorem length_leBytes : ∀ n v : ℕ, (leBytes n v).length = n
  | 0, _ => rfl
  | n + 1, v => by rw [leBytes, List.length_cons, length_leBytes n]

theorem leVal_leBytes : ∀ n v : ℕ, leVal (leBytes n v) = v % 2 ^ (8 * n)
  | 0, v => by simp [leBytes, leVal, Nat.mod_one]
  | n + 1, v => by
    rw [leBytes, leVal, leVal_leBytes n, BitVec.toNat_ofNat, Nat.mul_succ, Nat.pow_add, Nat.mul_comm (2 ^ (8 * n)),
      Nat.mod_mul]

structure Layout (α : Type*) where
  size : ℕ
  put : α → List Byte
  get : List Byte → α
  length_put : ∀ a, (put a).length = size
  get_put : ∀ a, get (put a) = a

attribute [simp] Layout.length_put Layout.get_put

namespace Layout

variable {α β : Type*}

/-- A word of `n` bytes. -/
def word (n : ℕ) : Layout (BitVec (8 * n)) where
  size := n
  put v := leBytes n v.toNat
  get bs := BitVec.ofNat _ (leVal bs)
  length_put v := length_leBytes n _
  get_put v := by
    apply BitVec.eq_of_toNat_eq
    rw [BitVec.toNat_ofNat, leVal_leBytes, Nat.mod_mod, Nat.mod_eq_of_lt v.isLt]

def prod (L : Layout α) (M : Layout β) : Layout (α × β) where
  size := L.size + M.size
  put v := L.put v.1 ++ M.put v.2
  get bs := (L.get (bs.take L.size), M.get (bs.drop L.size))
  length_put v := by simp
  get_put v := by
    rw [List.take_left' (L.length_put _), List.drop_left' (L.length_put _), L.get_put, M.get_put]

theorem take_drop_flatMap (L : Layout α) : ∀ (l : List α) {i : ℕ} (h : i < l.length),
    ((l.flatMap L.put).drop (i * L.size)).take L.size = L.put l[i]
  | [], i, h => absurd h (Nat.not_lt_zero i)
  | a :: l, 0, _ => by
    rw [Nat.zero_mul, List.drop_zero, List.flatMap_cons, List.take_left' (L.length_put a), List.getElem_cons_zero]
  | a :: l, i + 1, h => by
    have hdrop : ((a :: l).flatMap L.put).drop ((i + 1) * L.size) = (l.flatMap L.put).drop (i * L.size) := by
      rw [List.flatMap_cons, Nat.succ_mul, Nat.add_comm, ← drop_drop, List.drop_left' (L.length_put a)]
    rw [hdrop, take_drop_flatMap L l (Nat.lt_of_succ_lt_succ h), List.getElem_cons_succ]

def vec (L : Layout α) (n : ℕ) : Layout (Vector α n) where
  size := n * L.size
  put v := v.toList.flatMap L.put
  get bs := Vector.ofFn fun i => L.get ((bs.drop (i * L.size)).take L.size)
  length_put v := by
    rw [List.length_flatMap, List.map_congr_left fun a _ => L.length_put a, List.map_const',
      List.sum_replicate_nat, Vector.length_toList]
  get_put v := by
    ext i h
    rw [Vector.getElem_ofFn, take_drop_flatMap L v.toList (by simpa using h), L.get_put]
    simp

def iso (L : Layout α) (f : α → β) (g : β → α) (h : ∀ b, f (g b) = b) : Layout β where
  size := L.size
  put b := L.put (g b)
  get bs := f (L.get bs)
  length_put b := L.length_put _
  get_put b := by rw [L.get_put, h]

end Layout

variable {off n off' : ℕ} {f bs : List Byte}

namespace Bytes

/-- Up to `n` bytes from `off` on. -/
def pread (off n : ℕ) (f : List Byte) : List Byte := (f.drop off).take n

/-- Put `bs` at `off`. -/
def pwrite (off : ℕ) (bs f : List Byte) : List Byte :=
  f.take off ++ List.replicate (off - f.length) 0 ++ bs ++ f.drop (off + bs.length)

theorem length_pwrite (off : ℕ) (bs f : List Byte) : (pwrite off bs f).length = max f.length (off + bs.length) := by
  simp only [pwrite, List.length_append, length_take, List.length_replicate, List.length_drop]
  omega

theorem pread_eq_nil (h : f.length ≤ off) : pread off n f = [] := by
  rw [pread, List.drop_eq_nil_of_le h, List.take_nil]

theorem length_pwrite_head (off : ℕ) (f : List Byte) :
    (f.take off ++ List.replicate (off - f.length) 0).length = off := by
  simp only [List.length_append, length_take, List.length_replicate]
  omega

theorem pread_pwrite_self (f : List Byte) (h : bs.length = n) : pread off n (pwrite off bs f) = bs := by
  subst h
  rw [pread, pwrite, List.append_assoc, List.drop_left' (length_pwrite_head off f), List.take_left' rfl]

theorem pread_pwrite_inside (f : List Byte) {k : ℕ} (h : k + n ≤ bs.length) :
    pread (off + k) n (pwrite off bs f) = (bs.drop k).take n := by
  have hself : pread off bs.length (pwrite off bs f) = bs := pread_pwrite_self f rfl
  calc pread (off + k) n (pwrite off bs f) = ((pread off bs.length (pwrite off bs f)).drop k).take n := by
        rw [pread, pread, List.drop_take, List.take_take, drop_drop, Nat.min_eq_left (by omega)]
    _ = (bs.drop k).take n := by rw [hself]

theorem pread_pwrite_after (h : off + bs.length ≤ off') : pread off' n (pwrite off bs f) = pread off' n f := by
  have hlen : (f.take off ++ List.replicate (off - f.length) 0 ++ bs).length = off + bs.length := by
    rw [List.length_append, length_pwrite_head]
  have hdrop : (pwrite off bs f).drop off' = f.drop off' := by
    obtain ⟨k, rfl⟩ := Nat.exists_eq_add_of_le h
    rw [pwrite, ← drop_drop, List.drop_left' hlen, drop_drop]
  rw [pread, pread, hdrop]

theorem pread_pwrite_before (h : off' + n ≤ off) :
    pread off' n (pwrite off bs f) = pread off' n (f.take off ++ List.replicate (off - f.length) 0) := by
  have hlen := length_pwrite_head off f
  have hle : n ≤ ((f.take off ++ List.replicate (off - f.length) 0).drop off').length := by
    rw [List.length_drop]
    omega
  rw [pread, pread, pwrite, List.append_assoc, List.drop_append_of_le_length (by omega),
    List.take_append_of_le_length hle]

theorem pread_pwrite_before_of_le (h : off' + n ≤ off) (hf : off' + n ≤ f.length) :
    pread off' n (pwrite off bs f) = pread off' n f := by
  rw [pread_pwrite_before h]
  have hle : off' ≤ (f.take off).length := by
    rw [length_take]
    omega
  have hle' : n ≤ ((f.take off).drop off').length := by
    rw [List.length_drop, length_take]
    omega
  rw [pread, List.drop_append_of_le_length hle, List.take_append_of_le_length hle', List.drop_take,
    List.take_take, Nat.min_eq_left (by omega), pread]

theorem pread_pwrite_gap (hf : f.length ≤ off') (h : off' + n ≤ off) :
    pread off' n (pwrite off bs f) = List.replicate n 0 := by
  have hle : f.length ≤ off := by omega
  rw [pread_pwrite_before h, List.take_of_length_le hle, pread, List.drop_append, List.drop_eq_nil_of_le hf,
    List.nil_append, List.drop_replicate, List.take_replicate, Nat.min_eq_left (by omega)]

end Bytes
end Slash2.Lib
