/-
# Programs that can be cut off

A program here runs on a state that outlives it, a disk for instance. It ends in one of
three ways: it returns a value, it fails with an error, or the system goes down in the
middle of it. In each case it leaves a state behind.

Key theorem: `Ends.bind`.
-/
import Mathlib.Data.Nat.Notation

namespace Slash2.Lib

inductive End (σ ε α : Type) where
  | done (a : α) (s : σ)
  | fail (e : ε) (s : σ)
  | down (s : σ)
  deriving DecidableEq

def End.state {σ ε α : Type} : End σ ε α → σ
  | .done _ s | .fail _ s | .down s => s

def Prog (σ ε α : Type) := σ → End σ ε α

namespace Prog

variable {σ ε α β : Type}

/-- Return `a`. -/
def ret (a : α) : Prog σ ε α := fun s => .done a s

variable (m : Prog σ ε α)

def andThen (f : α → Prog σ ε β) : Prog σ ε β := fun s =>
  match m s with
  | .done a t => f a t
  | .fail e t => .fail e t
  | .down t => .down t

instance : Monad (Prog σ ε) where
  pure := ret
  bind := andThen

def error (e : ε) : Prog σ ε α := fun s => .fail e s

def halt : Prog σ ε α := fun s => .down s

def update (f : σ → σ) : Prog σ ε Unit := fun s => .done () (f s)

def ofExcept : Except ε α → Prog σ ε α
  | .ok a => ret a
  | .error e => error e

def look (f : σ → Except ε α) : Prog σ ε α := fun s => ofExcept (f s) s

/-- Run `m` and take its error for a value. -/
def attempt : Prog σ ε (Except ε α) := fun s =>
  match m s with
  | .done a t => .done (.ok a) t
  | .fail e t => .done (.error e) t
  | .down t => .down t

/-- Run `m`, and after an error `h`, whatever comes of that. -/
def onFail (h : Prog σ ε Unit) : Prog σ ε α := do
  match ← m.attempt with
  | .ok a => ret a
  | .error e => do
    let _ ← h.attempt
    error e

end Prog

/-! ### What a program ends with -/

section Rules

variable {σ ε α β : Type}

/-- `m` returns with `Q`, fails with `E` or goes down with `C`. -/
def Ends (m : Prog σ ε α) (s : σ) (Q : α → σ → Prop) (E : ε → σ → Prop) (C : σ → Prop) : Prop :=
  match m s with
  | .done a t => Q a t
  | .fail e t => E e t
  | .down t => C t

variable {s : σ} {Q Q' : α → σ → Prop} {E E' : ε → σ → Prop} {C C' : σ → Prop} {m : Prog σ ε α} {a : α}

theorem ends_pure (h : Q a s) : Ends (pure a : Prog σ ε α) s Q E C := h

theorem ends_ret (h : Q a s) : Ends (Prog.ret a : Prog σ ε α) s Q E C := h

theorem ends_error {e : ε} (h : E e s) : Ends (Prog.error e : Prog σ ε α) s Q E C := h

theorem ends_halt (h : C s) : Ends (Prog.halt : Prog σ ε α) s Q E C := h

theorem ends_update {f : σ → σ} {Q : Unit → σ → Prop} (h : Q () (f s)) :
    Ends (Prog.update f : Prog σ ε Unit) s Q E C := h

theorem ends_ofExcept {r : Except ε α} (hok : ∀ a, r = .ok a → Q a s) (herr : ∀ e, r = .error e → E e s) :
    Ends (Prog.ofExcept r) s Q E C := by
  cases r with
  | ok a => exact hok a rfl
  | error e => exact herr e rfl

theorem ends_look {f : σ → Except ε α} (hok : ∀ a, f s = .ok a → Q a s)
    (herr : ∀ e, f s = .error e → E e s) : Ends (Prog.look f) s Q E C :=
  ends_ofExcept hok herr

theorem Ends.mono (h : Ends m s Q' E' C') (hQ : ∀ a t, Q' a t → Q a t) (hE : ∀ e t, E' e t → E e t)
    (hC : ∀ t, C' t → C t) : Ends m s Q E C := by
  unfold Ends at h ⊢
  split <;> rename_i hm <;> rw [hm] at h
  · exact hQ _ _ h
  · exact hE _ _ h
  · exact hC _ h

theorem Ends.bind {f : α → Prog σ ε β} {R : β → σ → Prop} (h : Ends m s Q E C)
    (hf : ∀ a t, Q a t → Ends (f a) t R E C) : Ends (m >>= f) s R E C := by
  change Ends (m.andThen f) s R E C
  unfold Ends Prog.andThen at *
  cases hm : m s <;> rw [hm] at h
  · exact hf _ _ h
  · exact h
  · exact h

theorem Ends.attempt {R : Except ε α → σ → Prop} (h : Ends m s (fun a => R (.ok a)) (fun e => R (.error e)) C) :
    Ends m.attempt s R E C := by
  unfold Ends Prog.attempt at *
  cases hm : m s <;> rw [hm] at h <;> exact h

theorem Ends.onFail {h : Prog σ ε Unit} {D : ε → σ → Prop} (hm : Ends m s Q D C)
    (hh : ∀ e t, D e t → Ends h t (fun _ => E e) (fun _ => E e) C) : Ends (m.onFail h) s Q E C := by
  refine Ends.bind (Q := fun r t => match r with | .ok a => Q a t | .error e => D e t)
    (Ends.attempt hm) fun r t hr => ?_
  cases r with
  | ok => exact ends_ret hr
  | error e =>
    refine Ends.bind (Q := fun _ => E e) (Ends.attempt (hh e t hr)) fun _ u hu => ?_
    exact ends_error hu

theorem Ends.state {P : σ → Prop} (h : Ends m s (fun _ => P) (fun _ => P) P) : P (m s).state := by
  unfold Ends at h
  cases hm : m s <;> rw [hm] at h <;> exact h

theorem Ends.exists_done (h : Ends m s Q (fun _ _ => False) (fun _ => False)) : ∃ a t, m s = .done a t ∧ Q a t := by
  unfold Ends at h
  cases hm : m s <;> rw [hm] at h
  · exact ⟨_, _, rfl, h⟩
  · exact h.elim
  · exact h.elim

theorem Ends.of_done (h : Ends m s Q E C) {t : σ} (hm : m s = .done a t) : Q a t := by
  unfold Ends at h
  rwa [hm] at h

end Rules

end Slash2.Lib
