/-
# Lists cut into chunks

A list is gone through from the left and cut into chunks of elements that are adjacent, each one to the next, and at
most so many: a chunk ends when it is full, at the end of the list, or when the next element is not adjacent.
-/
import Mathlib.Data.List.Chain

namespace Slash2.Lib

open List

variable {α : Type*} (max : ℕ) (adj : α → α → Bool)

def breaks (cur : List α) (a : α) : Bool :=
  match cur.getLast? with
  | none => false
  | some z => !adj z a

/-- The chunks of a list, `cur` having been gathered. -/
def chunks : List α → List α → List (List α)
  | _, [] => []
  | cur, a :: l =>
    let cut := breaks adj cur a
    let new := (if cut then [] else cur) ++ [a]
    let rest := if new.length = max ∨ l = [] then new :: chunks [] l else chunks new l
    if cut then cur :: rest else rest

variable {max adj} {cur l g : List α} {a : α}

theorem chunks_join (h : breaks adj cur a = false) : chunks max adj cur (a :: l) =
    if (cur ++ [a]).length = max ∨ l = [] then (cur ++ [a]) :: chunks max adj [] l else chunks max adj (cur ++ [a]) l := by
  simp only [chunks, h, Bool.false_eq_true, if_false]

theorem chunks_cut (h : breaks adj cur a) : chunks max adj cur (a :: l) = cur :: chunks max adj [] (a :: l) := by
  have hone : breaks adj [] a = false := rfl
  rw [chunks_join hone]
  simp only [chunks, h, if_true]

theorem flatten_chunks : ∀ {l cur : List α}, l ≠ [] ∨ cur = [] → (chunks max adj cur l).flatten = cur ++ l
  | [], cur, h => by
    obtain rfl : cur = [] := h.resolve_left fun hne => hne rfl
    rfl
  | a :: l, cur, _ => by
    have hjoin (cur : List α) (hcut : breaks adj cur a = false) : (chunks max adj cur (a :: l)).flatten = cur ++ a :: l := by
      rw [chunks_join hcut]
      split_ifs with hend
      · rw [flatten_cons, flatten_chunks (.inr rfl), nil_append, append_cons cur a l]
      · rw [flatten_chunks (.inl fun hl => hend (.inr hl)), append_cons cur a l]
    cases hcut : breaks adj cur a with
    | true => rw [chunks_cut hcut, flatten_cons, hjoin [] rfl, nil_append]
    | false => exact hjoin cur hcut

theorem chunks_nil_flatten : (chunks max adj [] l).flatten = l := flatten_chunks (.inr rfl)

structure IsChunk (max : ℕ) (adj : α → α → Bool) (g : List α) : Prop where
  chain : g.IsChain fun a b => adj a b
  length : g.length ≤ max

theorem IsChunk.snoc (h : IsChunk max adj cur) (hlt : cur.length < max) (hcut : breaks adj cur a = false) :
    IsChunk max adj (cur ++ [a]) := by
  refine ⟨isChain_append.mpr ⟨h.chain, isChain_singleton a, fun z hz b hb => ?_⟩, ?_⟩
  · obtain rfl : a = b := by simpa using hb
    rw [breaks, Option.mem_def.mp hz] at hcut
    simpa using hcut
  · rw [length_append]
    exact hlt

theorem chunks_chunk (hmax : 0 < max) : ∀ {l cur : List α}, IsChunk max adj cur → cur.length < max →
    ∀ g ∈ chunks max adj cur l, IsChunk max adj g
  | [], _, _, _, _, hg => absurd hg not_mem_nil
  | a :: l, cur, hcur, hlt, g, hg => by
    have hjoin (cur : List α) (hcur : IsChunk max adj cur) (hlt : cur.length < max) (hcut : breaks adj cur a = false)
        (hg : g ∈ chunks max adj cur (a :: l)) : IsChunk max adj g := by
      have hnew := hcur.snoc hlt hcut
      rw [chunks_join hcut] at hg
      split_ifs at hg with hend
      · rcases mem_cons.mp hg with rfl | hg
        · exact hnew
        · exact chunks_chunk hmax ⟨isChain_nil, Nat.zero_le _⟩ hmax g hg
      · have hne : (cur ++ [a]).length ≠ max := fun heq => hend (.inl heq)
        exact chunks_chunk hmax hnew (lt_of_le_of_ne hnew.length hne) g hg
    cases hcut : breaks adj cur a with
    | true =>
      rw [chunks_cut hcut] at hg
      rcases mem_cons.mp hg with rfl | hg
      · exact hcur
      · exact hjoin [] ⟨isChain_nil, Nat.zero_le _⟩ hmax rfl hg
    | false => exact hjoin cur hcur hlt hcut hg

end Slash2.Lib
