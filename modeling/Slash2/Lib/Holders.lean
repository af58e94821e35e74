/-
# Who refers to what

References to things that are numbered, some held by a list of holders and others by threads, each of which refers to
as many as the point it has reached says. In the middle of a step the thread that makes it may have one more in hand.
-/
import Mathlib.Algebra.Order.BigOperators.Group.List
import Mathlib.Algebra.Order.Ring.Nat
import Slash2.Lib.Slots

namespace Slash2.Lib.Holders

open List

/-- The references to `id`. -/
def refs {C : Type*} (uses : ℕ → C → ℕ) (held : List ℕ) (cs : List C) (id : ℕ) : ℕ :=
  held.count id + (cs.map (uses id)).sum

def nohand : ℕ → ℕ := fun _ => 0

def hand (id : ℕ) : ℕ → ℕ := fun x => if x = id then 1 else 0

variable {C : Type*} {uses : ℕ → C → ℕ} {held : List ℕ} {cs : List C} {c c' : C} {i id x : ℕ}

@[simp] theorem hand_self : hand id id = 1 := if_pos rfl

theorem hand_ne (h : x ≠ id) : hand id x = 0 := if_neg h

theorem refs_set (hi : cs[i]? = some c) (x : ℕ) :
    refs uses held (cs.set i c') x + uses x c = refs uses held cs x + uses x c' := by
  have := sum_map_set (x := c') (uses x) hi
  simp only [refs]
  omega

theorem refs_map {f : C → C} (h : ∀ c, uses x (f c) = uses x c) :
    refs uses held (cs.map f) x = refs uses held cs x := by
  simp only [refs, map_map]
  exact congrArg _ (congrArg _ (map_congr_left fun c _ => h c))

theorem refs_snoc (h : uses x c = 0) : refs uses held (cs ++ [c]) x = refs uses held cs x := by
  simp [refs, h]

theorem refs_hold (id x : ℕ) : refs uses (id :: held) cs x = refs uses held cs x + hand id x := by
  simp only [refs, hand, count_cons, beq_iff_eq, eq_comm (a := id)]
  omega

theorem refs_unhold (hid : id ∈ held) (x : ℕ) : refs uses (held.erase id) cs x + hand id x = refs uses held cs x := by
  have hcount : (held.erase id).count x = held.count x - if id == x then 1 else 0 := count_erase
  have hpos : 0 < held.count id := count_pos_iff.mpr hid
  simp only [refs, hand]
  split_ifs with hx
  · subst hx
    simp only [beq_self_eq_true, if_true] at hcount
    omega
  · simp only [beq_iff_eq, Ne.symm hx, if_false] at hcount
    omega

theorem refs_pos_of_held (hid : id ∈ held) : 0 < refs uses held cs id :=
  Nat.lt_of_lt_of_le (count_pos_iff.mpr hid) (Nat.le_add_right _ _)

theorem le_refs (uses : ℕ → C → ℕ) (hi : cs[i]? = some c) : uses x c ≤ refs uses held cs x :=
  le_trans (le_sum_of_mem (mem_map_of_mem (mem_of_getElem? hi))) (Nat.le_add_left _ _)

/-! ### A table of things that count their references -/

/-- Each thing counts the references to it and those in hand `e`; live ones have different keys. -/
structure Books {A K : Type*} (cnt : A → ℕ) (live : A → Prop) (key : A → K) (uses : ℕ → C → ℕ) (e : ℕ → ℕ)
    (tab : List A) (held : List ℕ) (cs : List C) : Prop where
  counted : ∀ (id : ℕ) a, tab[id]? = some a → cnt a = refs uses held cs id + e id
  known : ∀ id, tab.length ≤ id → refs uses held cs id = 0
  unique : ∀ (i j : ℕ) a b, tab[i]? = some a → tab[j]? = some b → live a → live b → key a = key b → i = j

namespace Books

variable {A K : Type*} {cnt : A → ℕ} {live : A → Prop} {key : A → K} {e e' : ℕ → ℕ} {tab : List A} {a a' : A}

theorem set (h : Books cnt live key uses e tab held cs) (ha : tab[id]? = some a) (hkey : key a' = key a)
    (hlive : live a' → live a) (hcount : cnt a' + e id = cnt a + e' id) (he : ∀ x, x ≠ id → e' x = e x) :
    Books cnt live key uses e' (tab.set id a') held cs where
  counted x b hx := by
    rcases getElem?_set_cases hx with ⟨rfl, rfl⟩ | ⟨hne, hx⟩
    · have := h.counted x a ha
      omega
    · rw [he x hne]
      exact h.counted x b hx
  known x hx := h.known x (by simpa using hx)
  unique := by
    -- what is live now stands for one with the same key that was live before
    have hold {j : ℕ} {b : A} (hj : (tab.set id a')[j]? = some b) (hl : live b) :
        ∃ b₀, tab[j]? = some b₀ ∧ live b₀ ∧ key b₀ = key b := by
      rcases getElem?_set_cases hj with ⟨rfl, rfl⟩ | ⟨-, hj⟩
      · exact ⟨a, ha, hlive hl, hkey.symm⟩
      · exact ⟨b, hj, hl, rfl⟩
    intro i j b₁ b₂ hi hj h₁ h₂ heq
    obtain ⟨c₁, hc₁, hl₁, he₁⟩ := hold hi h₁
    obtain ⟨c₂, hc₂, hl₂, he₂⟩ := hold hj h₂
    exact h.unique i j c₁ c₂ hc₁ hc₂ hl₁ hl₂ (he₁.trans (heq.trans he₂.symm))

theorem setCall (h : Books cnt live key uses e tab held cs) (hi : cs[i]? = some c)
    (hrefs : ∀ x, uses x c' + e' x = uses x c + e x) (hknown : ∀ x, tab.length ≤ x → uses x c' = 0) :
    Books cnt live key uses e' tab held (cs.set i c') := by
  have hset (x : ℕ) : refs uses held (cs.set i c') x + uses x c = refs uses held cs x + uses x c' := refs_set hi x
  refine ⟨fun x a hx => ?_, fun x hx => ?_, h.unique⟩
  · have := h.counted x a hx
    have := hset x
    have := hrefs x
    omega
  · have := h.known x hx
    have := hset x
    have := hknown x hx
    omega

theorem hold (h : Books cnt live key uses (hand id) tab held cs) (hlt : id < tab.length) :
    Books cnt live key uses nohand tab (id :: held) cs where
  counted x a hx := (h.counted x a hx).trans (refs_hold id x).symm
  known x hx := by
    rw [refs_hold, hand_ne (Nat.lt_of_lt_of_le hlt hx).ne']
    exact h.known x hx
  unique := h.unique

theorem unhold (h : Books cnt live key uses nohand tab held cs) (hid : id ∈ held) :
    Books cnt live key uses (hand id) tab (held.erase id) cs where
  counted x a hx := (h.counted x a hx).trans (refs_unhold hid x).symm
  known x hx := Nat.eq_zero_of_add_eq_zero_right ((refs_unhold hid x).trans (h.known x hx))
  unique := h.unique

theorem of_refs {cs' : List C} (h : Books cnt live key uses e tab held cs)
    (hrefs : ∀ x, refs uses held cs' x = refs uses held cs x) : Books cnt live key uses e tab held cs' where
  counted x a hx := (h.counted x a hx).trans (by rw [hrefs])
  known x hx := (hrefs x).trans (h.known x hx)
  unique := h.unique

/-- A new thing, with one reference in hand. -/
theorem snoc (h : Books cnt live key uses nohand tab held cs) (hcnt : cnt a = 1)
    (hnew : ∀ (x : ℕ) b, tab[x]? = some b → live b → key b ≠ key a) :
    Books cnt live key uses (hand tab.length) (tab ++ [a]) held cs where
  counted := by
    refine forall_getElem?_snoc (fun x b hx => ?_) ?_
    · rw [hand_ne (List.getElem?_eq_some_iff.mp hx).1.ne]
      exact h.counted x b hx
    · rw [hcnt, hand_self, h.known _ le_rfl]
  known x hx := h.known x (by rw [length_append] at hx; omega)
  unique x y b₁ b₂ hx hy h₁ h₂ heq := by
    rcases getElem?_snoc_cases hx with ⟨-, hold⟩ | ⟨rfl, rfl⟩
    · rcases getElem?_snoc_cases hy with ⟨-, hold'⟩ | ⟨-, rfl⟩
      · exact h.unique x y b₁ b₂ hold hold' h₁ h₂ heq
      · exact absurd heq (hnew x b₁ hold h₁)
    rcases getElem?_snoc_cases hy with ⟨-, hold'⟩ | ⟨rfl, -⟩
    · exact absurd heq.symm (hnew y b₂ hold' h₂)
    · rfl

end Books
end Slash2.Lib.Holders
