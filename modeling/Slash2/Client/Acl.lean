/-
# ACLs of files

The client fetches the ACL of a file as an extended attribute from the metadata server, into a
small buffer first and then into one of the size it has been told.

Key theorem: `acl_whole_iff`.
-/
import Mathlib.Data.List.Basic
import Slash2.Slerr

namespace Slash2.Client.Acl

open List

/-! ### Fetching -/

def enodata : ℤ := 61

def slXattrSizeMax : ℕ := 4096

/-- The attribute of a file, whether the client knows that it has none, and how the RPCs fail, if not with 0. -/
structure Stored where
  attr : Option (List UInt8)
  /-- `FCMH_CLI_XATTR_INFO`, still valid, with `fci_xattrsize` 0 -/
  cached : Bool
  fail₁ : ℤ
  fail₂ : ℤ

/-- `slm_rmc_handle_getxattr` and `mdsio_getxattr`: `valuelen` and the data sent. -/
def slmRmcHandleGetxattr (attr : Option (List UInt8)) (size : ℕ) : Except ℤ (ℕ × List UInt8) :=
  if size > slXattrSizeMax then .error einval
  else match attr with
    | none => .error enodata
    | some v => if size = 0 then .ok (v.length, []) else if size < v.length then .error erange else .ok (v.length, v)

/-- `rc`, the buffer and `*retsz`. -/
structure Got where
  rc : ℤ
  buf : List UInt8
  retsz : ℕ

variable (x : Stored)

/-- `slc_getxattr`, with an RPC that fails with `fail`. -/
def slcGetxattr (fail : ℤ) (buf : List UInt8) (retsz : ℕ) : Got :=
  if x.cached then ⟨enodata, buf, retsz⟩
  else if fail ≠ 0 then ⟨fail, buf, retsz⟩
  else match slmRmcHandleGetxattr x.attr buf.length with
    | .error rc => ⟨rc, buf, retsz⟩
    | .ok (len, v) => ⟨0, v ++ buf.drop v.length, len⟩

inductive Result where
  | null
  /-- the bytes given to `pfl_acl_from_xattr` -/
  | parsed (v : List UInt8)
  /-- it reads beyond the buffer -/
  | overread
  deriving DecidableEq

def pflAclFromXattr (buf : List UInt8) (n : ℕ) : Result := if n ≤ buf.length then .parsed (buf.take n) else .overread

def trybuf : List UInt8 := replicate 64 0

/-- The first call of `slc_acl_get_fcmh`. -/
def firstTry : Got := slcGetxattr x x.fail₁ trybuf 0

/-- The second call, after ERANGE. -/
def secondTry (retsz : ℕ) : Result :=
  let r := slcGetxattr x x.fail₂ (replicate retsz 0) retsz
  if r.rc ≠ 0 then .null else pflAclFromXattr r.buf r.retsz

def slcAclGetFcmh : Result :=
  let t := firstTry x
  if t.rc = 0 then pflAclFromXattr t.buf t.retsz else if t.rc = erange then secondTry x t.retsz else .null

/-- The whole attribute, or NULL with a reason; and the size of the second buffer. -/
structure Whole (x : Stored) : Prop where
  null : slcAclGetFcmh x = .null → x.attr = none ∨ x.cached = false ∧ (x.fail₁ ≠ 0 ∨ x.fail₂ ≠ 0)
  parsed : slcAclGetFcmh x ≠ .null → ∃ v, x.attr = some v ∧ slcAclGetFcmh x = .parsed v
  retry : ∀ v, x.attr = some v → x.cached = false → x.fail₁ = 0 → 64 < v.length → v.length ≤ (firstTry x).retsz

theorem slcGetxattr_none (hx : x.attr = none) (fail : ℤ) (buf : List UInt8) (n : ℕ) :
    (slcGetxattr x fail buf n).rc ≠ 0 := by
  unfold slcGetxattr slmRmcHandleGetxattr
  rw [hx]
  split_ifs with _ hf
  case pos => simp [enodata]
  case pos => exact hf
  all_goals simp [enodata, einval]

section
variable (v : List UInt8) (f₁ f₂ : ℤ)

theorem firstTry_eq : firstTry ⟨some v, false, f₁, f₂⟩ = if f₁ ≠ 0 then ⟨f₁, trybuf, 0⟩
    else if 64 < v.length then ⟨erange, trybuf, 0⟩ else ⟨0, v ++ trybuf.drop v.length, v.length⟩ := by
  have hlen : trybuf.length = 64 := length_replicate
  by_cases hv : 64 < v.length <;> simp [firstTry, slcGetxattr, slmRmcHandleGetxattr, hlen, slXattrSizeMax, hv]

/-- The second call has a buffer of no bytes, and is told the length. -/
theorem secondTry_eq : secondTry ⟨some v, false, f₁, f₂⟩ 0 =
    if f₂ ≠ 0 then .null else if v = [] then .parsed [] else .overread := by
  by_cases hf : f₂ = 0
  · simp [secondTry, slcGetxattr, slmRmcHandleGetxattr, pflAclFromXattr, hf]
  · simp [secondTry, slcGetxattr, hf]

theorem slcAclGetFcmh_eq : slcAclGetFcmh ⟨some v, false, f₁, f₂⟩ =
    if f₁ = 0 ∧ v.length ≤ 64 then .parsed v
    else if (f₁ = 0 ∨ f₁ = erange) ∧ f₂ = 0 then if v = [] then .parsed [] else .overread
    else .null := by
  have he : erange ≠ 0 := by decide
  unfold slcAclGetFcmh
  rw [firstTry_eq]
  by_cases h₁ : f₁ = 0
  · by_cases hv : 64 < v.length
    · simp [h₁, hv, he, secondTry_eq, Nat.not_le.2 hv]
    · simp [h₁, hv, pflAclFromXattr]
  by_cases h₂ : f₁ = erange
  · simp [h₂, he, secondTry_eq]
  · simp [h₁, h₂]

theorem whole_some_iff : Whole ⟨some v, false, f₁, f₂⟩ ↔
    (f₁ = 0 → v.length ≤ 64) ∧ (f₁ = erange → f₂ ≠ 0 ∨ v = []) := by
  have hval := slcAclGetFcmh_eq v f₁ f₂
  constructor
  · intro h
    refine ⟨fun h₁ => ?_, fun h₁ => ?_⟩
    · by_contra hv
      have hle := h.retry v rfl rfl h₁ (by omega)
      simp [firstTry_eq, h₁, Nat.not_le.1 hv] at hle
      simp [hle] at hv
    · by_contra hc
      rw [not_or, not_not] at hc
      have hover : slcAclGetFcmh ⟨some v, false, f₁, f₂⟩ = .overread := by
        rw [hval, if_neg (fun h => absurd (h₁ ▸ h.1) (by decide)), if_pos ⟨.inr h₁, hc.1⟩, if_neg hc.2]
      obtain ⟨w, _, hw⟩ := h.parsed (by simp [hover])
      simp [hover] at hw
  · rintro ⟨hfit, hrange⟩
    refine ⟨fun hn => .inr ⟨rfl, ?_⟩, fun hn => ⟨v, rfl, ?_⟩, fun w hw _ h₁ hlt => ?_⟩
    · by_contra hc
      rw [not_or, not_not] at hc
      rw [hval, if_pos ⟨hc.1, hfit hc.1⟩] at hn
      cases hn
    · by_cases h₁ : f₁ = 0
      · rw [hval, if_pos ⟨h₁, hfit h₁⟩]
      rw [hval, if_neg fun h => h₁ h.1] at hn ⊢
      split at hn
      case isFalse => exact absurd rfl hn
      case isTrue h =>
        have hv : v = [] := (hrange (h.1.resolve_left h₁)).resolve_left (not_not.2 h.2)
        rw [if_pos h, if_pos hv, hv]
    · cases hw
      exact absurd (hfit h₁) (by omega)

end

/-- **An ACL of the whole attribute comes back if and only if it fits into the first buffer and is not believed absent.** -/
theorem acl_whole_iff (x : Stored) : Whole x ↔ ∀ v, x.attr = some v → x.cached = false ∧
    (x.fail₁ = 0 → v.length ≤ 64) ∧ (x.fail₁ = erange → x.fail₂ ≠ 0 ∨ v = []) := by
  obtain ⟨attr, cached, f₁, f₂⟩ := x
  cases attr with
  | none =>
    have hnull : slcAclGetFcmh ⟨none, cached, f₁, f₂⟩ = .null := by
      simp [slcAclGetFcmh, firstTry, secondTry, slcGetxattr_none]
    exact iff_of_true ⟨fun _ => .inl rfl, fun h => absurd hnull h, fun _ h => by cases h⟩ fun _ h => by cases h
  | some v =>
    cases cached with
    | true =>
      have hnull : slcAclGetFcmh ⟨some v, true, f₁, f₂⟩ = .null := by
        simp [slcAclGetFcmh, firstTry, slcGetxattr, enodata, erange]
      refine iff_of_false (fun h => ?_) fun h => ?_
      · rcases h.null hnull with h | h <;> simp at h
      · simpa using h v rfl
    | false => simp [whole_some_iff]

/-- An attribute of 65 bytes, and no RPC fails: the buffer of the second call has no byte. -/
theorem acl_retry_empty : ¬Whole ⟨some (replicate 65 0), false, 0, 0⟩ := by
  intro h
  exact absurd (h.retry _ rfl rfl rfl (by decide)) (by decide)

end Slash2.Client.Acl
