/-
# Runs of a partial step function

A system here is a step function `step : S → A → Option S`: the label `a` holds
what the scheduler and the environment choose (who acts, with which outcome), and
`none` says the step cannot be taken. A run is the list of its labels, so a
concrete run can be evaluated.

Key theorems: `run_invariant`, `run_keeps`.
-/
import Mathlib.Data.List.Basic

namespace Slash2.Lib

open List Option

variable {S A : Type*}

def run (step : S → A → Option S) : S → List A → Option S
  | s, [] => some s
  | s, a :: as => (step s a).bind fun t => run step t as

variable {step : S → A → Option S} {ok : S → A → Prop} {I : S → Prop}

@[simp] theorem run_nil (step : S → A → Option S) (s : S) : run step s [] = some s := rfl

@[simp] theorem run_cons (step : S → A → Option S) (s : S) (a : A) (as : List A) :
    run step s (a :: as) = (step s a).bind fun t => run step t as := rfl

theorem run_append (bs : List A) :
    ∀ (as : List A) {s t : S}, run step s as = some t → run step s (as ++ bs) = run step t bs
  | [], _, _, h => by
    cases h
    rfl
  | a :: as, s, t, h => by
    obtain ⟨u, hu, h⟩ := bind_eq_some_iff.mp h
    rw [cons_append, run_cons, hu]
    exact run_append bs as h

section
variable {α β : Type*} {x : Option α} {p : α → Prop} [DecidablePred p] {f : α → β} {t : β}

/-- A step that is taken for the value of `x` if it meets `p`. -/
theorem bind_guard (h : (x.bind fun a => if p a then some (f a) else none) = some t) : ∃ a, x = some a ∧ p a ∧ t = f a := by
  obtain ⟨a, ha, h⟩ := bind_eq_some_iff.mp h
  obtain ⟨hp, ⟨⟩⟩ := ite_none_right_eq_some.mp h
  exact ⟨a, ha, hp, rfl⟩

/-- A step that is taken unless it meets `p`. -/
theorem bind_unless (h : (x.bind fun a => if p a then none else some (f a)) = some t) :
    ∃ a, x = some a ∧ ¬p a ∧ t = f a := by
  obtain ⟨a, ha, h⟩ := bind_eq_some_iff.mp h
  obtain ⟨hp, ⟨⟩⟩ := ite_none_left_eq_some.mp h
  exact ⟨a, ha, hp, rfl⟩

end

section
variable {α : Type*} {p : α → Prop} {l : List α} {a : α}

/-- What holds of all threads still does if one of them changes, or a new one starts, of which it holds. -/
theorem forall_mem_set {i : ℕ} (h : ∀ x ∈ l, p x) (ha : p a) : ∀ x ∈ l.set i a, p x := by
  intro x hx
  rcases mem_or_eq_of_mem_set hx with hx | rfl
  · exact h x hx
  · exact ha

theorem forall_mem_snoc (h : ∀ x ∈ l, p x) (ha : p a) : ∀ x ∈ l ++ [a], p x :=
  forall_mem_append.mpr ⟨h, forall_mem_singleton.mpr ha⟩

end

/-- Every label of the run is taken from a state that meets `ok`. -/
def Admits (step : S → A → Option S) (ok : S → A → Prop) : S → List A → Prop
  | _, [] => True
  | s, a :: as => ok s a ∧ ∀ t ∈ step s a, Admits step ok t as

theorem admits_true : ∀ (as : List A) {s : S}, Admits step (fun _ _ => True) s as
  | [], _ => trivial
  | _ :: as, _ => ⟨trivial, fun _ _ => admits_true as⟩

theorem admits_append : ∀ {as bs : List A} {s t : S}, Admits step ok s (as ++ bs) → run step s as = some t →
      Admits step ok s as ∧ Admits step ok t bs
  | [], _, _, _, h, hr => by
    cases hr
    exact ⟨trivial, h⟩
  | _ :: _, _, _, _, h, hr => by
    obtain ⟨u, hu, hr⟩ := bind_eq_some_iff.mp hr
    obtain ⟨-, hbs⟩ := admits_append (h.2 u hu) hr
    refine ⟨⟨h.1, fun v hv => ?_⟩, hbs⟩
    obtain rfl : u = v := some.inj (hu.symm.trans hv)
    exact (admits_append (h.2 u hu) hr).1

instance decidableAdmits (step : S → A → Option S) (ok : S → A → Prop)
    [∀ s a, Decidable (ok s a)] : ∀ (s : S) (as : List A), Decidable (Admits step ok s as)
  | _, [] => isTrue trivial
  | s, a :: as =>
    have : Decidable (∀ t ∈ step s a, Admits step ok t as) :=
      match h : step s a with
      | none => isTrue fun t ht => by simp at ht
      | some u =>
        match decidableAdmits step ok u as with
        | isTrue hu => isTrue fun t ht => by cases ht; exact hu
        | isFalse hu => isFalse fun H => hu (H u rfl)
    inferInstanceAs (Decidable (_ ∧ _))

theorem run_invariant (hstep : ∀ {s a t}, I s → ok s a → step s a = some t → I t) :
    ∀ {as : List A} {s t : S}, I s → Admits step ok s as → run step s as = some t → I t
  | [], s, t, hs, _, hr => by
    cases hr
    exact hs
  | a :: as, s, t, hs, ha, hr => by
    obtain ⟨u, hu, hr⟩ := bind_eq_some_iff.mp hr
    exact run_invariant hstep (hstep hs ha.1 hu) (ha.2 u hu) hr

theorem run_keeps (hstep : ∀ {s a t}, I s → step s a = some t → I t) {as : List A} {s t : S}
    (hs : I s) (hr : run step s as = some t) : I t :=
  run_invariant (fun hs _ h => hstep hs h) hs (admits_true as) hr

theorem run_rel {R : S → S → Prop} (hrefl : ∀ s, R s s) (htrans : ∀ {s t u}, R s t → R t u → R s u)
    (hstep : ∀ {s a t}, I s → ok s a → step s a = some t → I t ∧ R s t) :
    ∀ {as : List A} {s t : S}, I s → Admits step ok s as → run step s as = some t → R s t
  | [], s, t, _, _, hr => by
    cases hr
    exact hrefl s
  | a :: as, s, t, hs, ha, hr => by
    obtain ⟨u, hu, hr⟩ := bind_eq_some_iff.mp hr
    obtain ⟨hIu, hRu⟩ := hstep hs ha.1 hu
    exact htrans hRu (run_rel hrefl htrans hstep hIu (ha.2 u hu) hr)

theorem forall_run_iff_admits {P : S → Prop} (hP : ∀ {s}, I s → P s)
    (hstep : ∀ {s a t}, I s → ok s a → step s a = some t → I t)
    (hbad : ∀ {s a}, I s → ¬ ok s a → ∃ t, step s a = some t ∧ ¬ P t) : ∀ (as : List A) {s : S}, I s →
      ((∀ bs cs t, as = bs ++ cs → run step s bs = some t → P t) ↔ Admits step ok s as)
  | [], s, hs => by
    refine ⟨fun _ => trivial, fun _ bs cs t has hr => ?_⟩
    obtain ⟨rfl, -⟩ := append_eq_nil_iff.mp has.symm
    cases hr
    exact hP hs
  | a :: as, s, hs => by
    constructor
    · intro hall
      have hok : ok s a := by
        by_contra hno
        obtain ⟨t, ht, hnP⟩ := hbad hs hno
        exact hnP (hall [a] as t rfl (by simp [ht]))
      refine ⟨hok, fun t ht => ?_⟩
      refine (forall_run_iff_admits hP hstep hbad as (hstep hs hok ht)).mp fun bs cs u has hr => ?_
      refine hall (a :: bs) cs u (by rw [has]; rfl) ?_
      rw [run_cons, ht]
      exact hr
    · rintro ⟨hok, hrest⟩ bs cs u has hr
      cases bs with
      | nil =>
        cases hr
        exact hP hs
      | cons b bs =>
        obtain ⟨rfl, hcs⟩ := cons.inj has
        obtain ⟨t, ht, hr⟩ := bind_eq_some_iff.mp hr
        exact (forall_run_iff_admits hP hstep hbad as (hstep hs hok ht)).mpr (hrest t ht) bs cs u hcs hr

end Slash2.Lib
