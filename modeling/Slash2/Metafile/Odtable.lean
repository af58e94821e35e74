/-
# Slots of an on-disk table

A slot has an object, padding and a footer. `slm_odt_write` and `slm_odt_read` take an object, a
footer or both, and move the offset past the parts that are not there. For an object alone they
also move it past the padding, which comes after the object.

Key theorem: `slotted_iff`.
-/
import Slash2.Lib.Layout

namespace Slash2.Metafile

open Lib Lib.Bytes List Option

/-- `struct pfl_odt_hdr`, the file, and `slm_odt_zerobuf`. -/
structure Odt where
  start : ℕ
  objsz : ℕ
  slotsz : ℕ
  /-- `sizeof(struct pfl_odt_entftr)` -/
  ftrsz : ℕ
  nitems : ℕ
  fits : objsz + ftrsz ≤ slotsz
  file : List Byte
  covers : start + nitems * slotsz ≤ file.length
  zerobuf : List Byte
  length_zerobuf : zerobuf.length = slotsz - objsz - ftrsz

namespace Odt

variable (t : Odt)

def pad : ℕ := t.slotsz - t.objsz - t.ftrsz

/-- The offset, in both functions. -/
def off (elem : ℕ) (p f : Bool) : ℕ :=
  let off := elem * t.slotsz + t.start
  let off := if p then off else off + t.objsz
  if p && f then off else off + t.pad

def slmOdtWrite (p f : Option (List Byte)) (elem : ℕ) : List Byte :=
  let iov := p.getD [] ++ (if p.isSome && f.isSome then t.zerobuf else []) ++ f.getD []
  pwrite (t.off elem p.isSome f.isSome) iov t.file

/-- `slm_odt_read`; `none` if its assertion fails. -/
def slmOdtRead (file : List Byte) (elem : ℕ) (p f : Bool) : Option (Option (List Byte) × Option (List Byte)) :=
  let expect := (if p then t.objsz else 0) + (if p && f then t.pad else 0) + if f then t.ftrsz else 0
  let bs := pread (t.off elem p f) expect file
  if bs.length ≠ expect then none
  else some (if p then some (bs.take t.objsz) else none,
    if f then some (bs.drop (if p then t.objsz + t.pad else 0)) else none)

/-- **What was written is read**, and the other part stays. -/
structure Slotted : Prop where
  back : ∀ i < t.nitems, ∀ p f, p.length = t.objsz → f.length = t.ftrsz →
    t.slmOdtRead (t.slmOdtWrite (some p) (some f) i) i true true = some (some p, some f) ∧
    t.slmOdtRead (t.slmOdtWrite (some p) (some f) i) i true false = some (some p, none) ∧
    t.slmOdtRead (t.slmOdtWrite (some p) (some f) i) i false true = some (none, some f)
  object : ∀ i < t.nitems, ∀ p, p.length = t.objsz → ∀ off n,
    off + n ≤ i * t.slotsz + t.start ∨ i * t.slotsz + t.start + t.objsz + t.pad ≤ off →
    pread off n (t.slmOdtWrite (some p) none i) = pread off n t.file
  footer : ∀ i < t.nitems, ∀ f, f.length = t.ftrsz → ∀ off n,
    off + n ≤ i * t.slotsz + t.start + t.objsz + t.pad ∨ (i + 1) * t.slotsz + t.start ≤ off →
    pread off n (t.slmOdtWrite none (some f) i) = pread off n t.file

variable {t}

theorem slotsz_eq : t.slotsz = t.objsz + t.pad + t.ftrsz := by
  have := t.fits
  unfold pad
  omega

theorem slot_le {i : ℕ} (hi : i < t.nitems) : i * t.slotsz + t.start + t.slotsz ≤ t.file.length := by
  have hmul : (i + 1) * t.slotsz ≤ t.nitems * t.slotsz := Nat.mul_le_mul_right _ hi
  have := t.covers
  rw [Nat.succ_mul] at hmul
  omega

variable {p f : List Byte} {i : ℕ}

section
variable (hp : p.length = t.objsz) (hf : f.length = t.ftrsz)
include hp hf

/-- Reading a part of a slot that was written whole. -/
theorem pread_write {k n : ℕ} (h : k + n ≤ t.slotsz) :
    pread (i * t.slotsz + t.start + k) n (t.slmOdtWrite (some p) (some f) i) = ((p ++ t.zerobuf ++ f).drop k).take n := by
  refine pread_pwrite_inside t.file ?_
  have hz : t.zerobuf.length = t.pad := t.length_zerobuf
  have := slotsz_eq (t := t)
  simp only [length_append, getD_some, isSome_some, Bool.and_self, if_true, hp, hf, hz]
  omega

theorem read_both : t.slmOdtRead (t.slmOdtWrite (some p) (some f) i) i true true = some (some p, some f) := by
  have hz : t.zerobuf.length = t.pad := t.length_zerobuf
  have hread := pread_write (i := i) hp hf (by rw [slotsz_eq, Nat.zero_add])
  have hlen : (p ++ t.zerobuf ++ f).length = t.objsz + t.pad + t.ftrsz := by
    simp [hp, hf, hz, Nat.add_assoc]
  rw [drop_zero, ← hlen, take_length, hlen, Nat.add_zero] at hread
  simp only [slmOdtRead, off, Bool.and_self, if_true, hread, hlen, ne_eq, not_true_eq_false, if_false]
  rw [append_assoc, take_left' hp, ← append_assoc, drop_left' (by simp [hp, hz])]

theorem read_footer : t.slmOdtRead (t.slmOdtWrite (some p) (some f) i) i false true = some (none, some f) := by
  have hz : t.zerobuf.length = t.pad := t.length_zerobuf
  have hread := pread_write (i := i) hp hf (Nat.le_of_eq slotsz_eq.symm)
  rw [drop_left' (by simp [hp, hz]), ← hf, take_length, hf, ← Nat.add_assoc] at hread
  simp [slmOdtRead, off, hread, hf]

/-- An object alone is read from the middle of the slot. -/
theorem read_object : t.slmOdtRead (t.slmOdtWrite (some p) (some f) i) i true false =
      some (some (((p ++ t.zerobuf ++ f).drop t.pad).take t.objsz), none) := by
  have hz : t.zerobuf.length = t.pad := t.length_zerobuf
  have hread := pread_write (i := i) hp hf (k := t.pad) (n := t.objsz) (by have := slotsz_eq (t := t); omega)
  have hlen : t.objsz ≤ p.length + (t.zerobuf.length + f.length) - t.pad := by omega
  simp [slmOdtRead, off, hread, take_take, Nat.min_eq_left hlen]

end

/-- **Slots are right** exactly without padding, objects or slots. -/
theorem slotted_iff (t : Odt) : t.Slotted ↔ t.pad = 0 ∨ t.objsz = 0 ∨ t.nitems = 0 := by
  refine ⟨fun h => ?_, fun h => ⟨fun i hi p f hp hf => ⟨read_both hp hf, ?_, read_footer hp hf⟩, ?_, ?_⟩⟩
  · -- an object that differs in its first byte only would be read the same
    by_contra hne
    obtain ⟨hpad, hobj, hn⟩ : t.pad ≠ 0 ∧ t.objsz ≠ 0 ∧ t.nitems ≠ 0 := by simpa using hne
    have hread (b : Byte) := (h.back 0 (Nat.pos_of_ne_zero hn) (b :: replicate (t.objsz - 1) 0)
      (replicate t.ftrsz 0) (by simp; omega) (by simp)).2.1
    obtain ⟨k, hk⟩ := Nat.exists_eq_succ_of_ne_zero hpad
    have hsame : some (some ((0 : Byte) :: replicate (t.objsz - 1) 0), (none : Option (List Byte))) =
        some (some (1 :: replicate (t.objsz - 1) 0), none) := by
      rw [← hread 0, ← hread 1, read_object (by simp; omega) (by simp), read_object (by simp; omega) (by simp), hk]
      rfl
    simp at hsame
  · rw [read_object hp hf]
    rcases h with hpad | hobj | hn
    · rw [hpad, drop_zero, append_assoc, take_left' hp]
    · rw [hobj, take_zero, length_eq_zero_iff.mp (hp.trans hobj)]
    · omega
  · intro i hi p hp off n hoff
    have hle := slot_le hi
    rcases hoff with hoff | hoff
    · exact pread_pwrite_before_of_le (by simp [Odt.off]; omega) (by omega)
    · exact pread_pwrite_after (by simp [Odt.off, hp]; omega)
  · intro i hi f hf off n hoff
    have hle := slot_le hi
    have := slotsz_eq (t := t)
    rw [Nat.succ_mul] at hoff
    rcases hoff with hoff | hoff
    · exact pread_pwrite_before_of_le (by simp [Odt.off]; omega) (by omega)
    · exact pread_pwrite_after (by simp [Odt.off, hf]; omega)

/-- Objects of two bytes and a footer of one in a slot of four. -/
def padded : Odt := ⟨0, 2, 4, 1, 1, Nat.le_of_ble_eq_true rfl, [0, 0, 0, 0], Nat.le_of_ble_eq_true rfl, [0], rfl⟩

theorem padded_object_shifted :
    padded.slmOdtRead (padded.slmOdtWrite (some [5, 6]) (some [7]) 0) 0 true false = some (some [6, 0], none) := by
  decide

end Odt

end Slash2.Metafile
