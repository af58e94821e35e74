/-
# The command that backs up the update database

The thread `slmbkdbthr` dumps the database through a shell and escapes the two path names in the
command with `str_escmeta`, into arrays on its stack that are not initialised.

Key theorem: `escapes_iff`.
-/
import Mathlib.Data.List.Basic

namespace Slash2.Residency.Backup

open List

def pathMax : ℕ := 4096

/-- A string, without its NUL. -/
abbrev CStr := { s : List UInt8 // 0 ∉ s }

/-- An array of `PATH_MAX` characters. -/
abbrev Buf := { b : List UInt8 // b.length = pathMax }

def backslash : UInt8 := 92

def quote : UInt8 := 39

/-- `*o = c`, where `none` is a write outside the array. -/
def put (out : List UInt8) (o : ℕ) (c : UInt8) : Option (List UInt8) :=
  if o < out.length then some (out.set o c) else none

/-- The loop of `str_escmeta`, from the rest of the input. -/
def escLoop : List UInt8 → ℕ → List UInt8 → Option (List UInt8)
  | [], _, out => some out
  | c :: cs, o, out =>
    if o < pathMax - 1 then
      if c = backslash ∨ c = quote then
        (put out o backslash).bind fun out => (put out (o + 1) c).bind fun out => escLoop cs (o + 2) out
      else (put out o c).bind fun out => escLoop cs (o + 1) out
    else some out

def strEscmeta (s : CStr) (out : Buf) : Option (List UInt8) :=
  (escLoop s.1 0 out.1).bind fun out => put out (pathMax - 1) 0

/-- The string with its metacharacters escaped. -/
def escape (s : List UInt8) : List UInt8 :=
  s.flatMap fun c => if c = backslash ∨ c = quote then [backslash, c] else [c]

/-- What `str_escmeta` is for: no write outside the array, and the escaped string in it if there is room. -/
def Escapes (s : CStr) (out : Buf) : Prop :=
  ∃ r, strEscmeta s out = some r ∧ ((escape s.1).length < pathMax → escape s.1 ++ [0] <+: r)

/-! ### The loop -/

theorem put_eq {out : List UInt8} {o : ℕ} (h : o < out.length) (c : UInt8) : put out o c = some (out.set o c) :=
  if_pos h

theorem escLoop_inside : ∀ (s : List UInt8) (o : ℕ) (out : List UInt8), out.length = pathMax →
    ∃ r, escLoop s o out = some r ∧ r.length = pathMax
  | [], _, out, h => ⟨out, rfl, h⟩
  | c :: cs, o, out, h => by
    unfold escLoop
    split_ifs with ho hc
    · rw [put_eq (by omega), Option.bind_some, put_eq (by simp; omega)]
      exact escLoop_inside cs _ _ (by simpa using h)
    · rw [put_eq (by omega)]
      exact escLoop_inside cs _ _ (by simpa using h)
    · exact ⟨out, rfl, h⟩

theorem put_append {e : List UInt8} {o : ℕ} (h : e.length = o) (x c : UInt8) (t : List UInt8) :
    put (e ++ x :: t) o c = some (e ++ [c] ++ t) := by
  simp [put_eq, ← h]

theorem escape_cons (c : UInt8) (cs : List UInt8) :
    escape (c :: cs) = (if c = backslash ∨ c = quote then [backslash, c] else [c]) ++ escape cs := flatMap_cons

/-- The loop writes the escaped string over what follows `e`. -/
theorem escLoop_fits : ∀ (s : List UInt8) (o : ℕ) (e t : List UInt8), e.length = o → o + t.length = pathMax →
    o + (escape s).length < pathMax → escLoop s o (e ++ t) = some (e ++ escape s ++ t.drop (escape s).length)
  | [], _, e, t, _, _, _ => by simp [escLoop, escape]
  | c :: cs, o, e, t, ho, hlen, hfit => by
    rw [escape_cons, length_append] at hfit
    rw [escape_cons]
    unfold escLoop
    split_ifs at hfit with hc
    · match t, hlen, hfit with
      | x :: y :: t, hlen, hfit =>
        simp only [length_cons, length_nil] at hlen hfit
        rw [if_pos (by omega), if_pos hc, if_pos hc, put_append ho, Option.bind_some, put_append (by simp [ho]),
          Option.bind_some, escLoop_fits cs (o + 2) _ t (by simp [ho]) (by omega) (by omega)]
        simp
      | [_], hlen, hfit | [], hlen, hfit =>
        simp only [length_cons, length_nil] at hlen hfit
        omega
    · match t, hlen, hfit with
      | x :: t, hlen, hfit =>
        simp only [length_cons, length_nil] at hlen hfit
        rw [if_pos (by omega), if_neg hc, if_neg hc, put_append ho, Option.bind_some,
          escLoop_fits cs (o + 1) _ t (by simp [ho]) (by omega) (by omega)]
        simp
      | [], hlen, hfit =>
        simp only [length_cons, length_nil] at hlen hfit
        omega

theorem strEscmeta_fits (s : CStr) (out : Buf) (hfit : (escape s.1).length < pathMax) : strEscmeta s out =
      some (escape s.1 ++ (out.1.drop (escape s.1).length).set (pathMax - 1 - (escape s.1).length) 0) := by
  have hlen : 0 + out.1.length = pathMax := by omega
  have hloop := escLoop_fits s.1 0 [] out.1 rfl hlen (by omega)
  rw [nil_append, nil_append] at hloop
  rw [strEscmeta, hloop, Option.bind_some, put_eq (by simp; omega), set_append_right _ _ (by omega)]

theorem nul_prefix_iff (w : List UInt8) : [0] <+: w ↔ w[0]? = some 0 := by
  cases w <;> simp [cons_prefix_iff]

/-- **The escaped string and a NUL are left if and only if there was a NUL, or there is no room to spare.** -/
theorem escapes_iff (s : CStr) (out : Buf) :
    Escapes s out ↔ ((escape s.1).length < pathMax - 1 → out.1[(escape s.1).length]? = some 0) := by
  unfold Escapes
  by_cases hfit : (escape s.1).length < pathMax
  · rw [strEscmeta_fits s out hfit]
    simp only [Option.some_inj, exists_eq_left', hfit, true_imp_iff, prefix_append_right_inj, nul_prefix_iff,
      getElem?_set, getElem?_drop, length_drop]
    split_ifs with h₁ h₂
    · simp; omega
    · omega
    · simp; omega
  · obtain ⟨r, hr, hlen⟩ := escLoop_inside s.1 0 out.1 out.2
    refine iff_of_true ⟨r.set (pathMax - 1) 0, ?_, fun h => absurd h hfit⟩ fun h => absurd h (by omega)
    rw [strEscmeta, hr, Option.bind_some, put_eq (by rw [hlen]; decide)]

/-- The empty string: the array is left as it was, but for its last character. -/
theorem escape_no_nul : ¬Escapes ⟨[], by simp⟩ ⟨replicate pathMax 120, length_replicate⟩ := by
  rintro ⟨r, hr, hpre⟩
  rw [strEscmeta_fits _ _ (by decide), Option.some_inj] at hr
  have h := (nul_prefix_iff r).1 (hpre (by decide))
  simp only [← hr, escape, flatMap_nil, nil_append, length_nil, drop_zero, getElem?_set, length_replicate,
    getElem?_replicate] at h
  exact absurd h (by decide)

end Slash2.Residency.Backup
