/-
# BMAPCRCWRT

An I/O server sends the checksums of several bmaps in one bulk transfer. The request says how many
each update has, and so does the update itself. `slm_rmi_handle_bmap_crcwrt` notes it if the two
differ or a slot is out of range, and hands the update on all the same. The bulk data is seen in
units of 16 bytes: a checksum with its slot takes one, the head of an update three.

Key definitions: `mdsBmapCrcWrite`, `slmRmiHandleBmapCrcwrt`, `Handled`, `CrcEnv.Refuses`.
Key theorems: `crcup_right_iff`, `crcwrt_handled_iff`.
-/
import Mathlib.Data.BitVec
import Slash2.Lib.Slots
import Slash2.Slerr

namespace Slash2.Journal

open Lib Option

def maxBmapNcrcUpdates : ℕ := 64

def ebadf : ℤ := 9

def slerrGenInvalid : ℤ := 1021

def crcsPerBmap : ℕ := 128

/-- `nups` of the `struct srm_bmap_crcup` at the start of `b`. -/
def nupsAt (b : List (BitVec 128)) : ℕ := ((b[2]?.getD 0).extractLsb' 32 32).toNat

def genAt (b : List (BitVec 128)) : ℕ := ((b[0]?.getD 0).extractLsb' 64 64).toNat

/-- `crcs[j].slot`, as many as it says it has. -/
def slotsAt (b : List (BitVec 128)) : List ℕ :=
  ((b.drop 3).take (nupsAt b)).map fun w => (w.extractLsb' 64 32).toNat

/-- What a call of `mds_bmap_crc_write` meets. -/
structure CrcEnv where
  /-- `slfid_to_vfsid`, and whether it is the current one -/
  vfsRc : ℤ
  current : Bool
  /-- `slm_fcmh_get` -/
  fcmhRc : ℤ
  gen : ℕ
  /-- `bmap_lookup` -/
  bmapRc : ℤ
  /-- `bmi_wr_ion` is the sender -/
  wrIon : Bool
  /-- `BMAPF_CRC_UP` -/
  crcUp : Bool
  /-- `mds_bmap_crc_update` -/
  updateRc : ℤ
  /-- `PFLERR_ALREADY`, which the source does not define -/
  already : { n : ℤ // n ≠ 0 }

variable (e : CrcEnv)

/-- `mds_bmap_crc_write`: its code, and whether it called `mds_bmap_crc_update`. -/
def mdsBmapCrcWrite (gen : ℕ) : ℤ × Bool :=
  if e.vfsRc ≠ 0 then (e.vfsRc, false)
  else if e.current = false then (-einval, false)
  else if e.fcmhRc ≠ 0 then (if e.fcmhRc = enoent then 0 else -e.fcmhRc, false)
  else if e.gen ≠ gen then (-(if e.gen > gen then slerrGenOld else slerrGenInvalid), false)
  else if e.bmapRc ≠ 0 then (-ebadf, false)
  else if e.wrIon = false then (-einval, false)
  else if e.crcUp then (-e.already, false)
  else (e.updateRc, true)

/-- The file of an update has been deleted. -/
def CrcEnv.Deleted : Prop := e.vfsRc = 0 ∧ e.current ∧ e.fcmhRc = enoent

theorem mdsBmapCrcWrite_ignored (gen : ℕ) : mdsBmapCrcWrite e gen = (0, false) ↔ e.Deleted := by
  have halready := e.already.2
  unfold mdsBmapCrcWrite CrcEnv.Deleted
  split_ifs <;> simp_all [einval, enoent, ebadf, slerrGenOld, slerrGenInvalid]

/-- `mds_bmap_crc_write` does not come to the update. -/
def CrcEnv.Refuses (gen : ℕ) : Prop :=
  e.vfsRc ≠ 0 ∨ e.current = false ∨ e.fcmhRc ≠ 0 ∨ e.gen ≠ gen ∨ e.bmapRc ≠ 0 ∨ e.wrIon = false ∨ e.crcUp

theorem mdsBmapCrcWrite_refuses (gen : ℕ) : (mdsBmapCrcWrite e gen).2 = false ↔ e.Refuses gen := by
  unfold mdsBmapCrcWrite CrcEnv.Refuses
  split_ifs <;> simp_all

/-- An update, with what became of it. -/
structure Crcup where
  /-- its count is that of the request, and its slots exist -/
  valid : Bool
  /-- `mds_bmap_crc_update` was called -/
  updated : Bool
  applied : Bool
  /-- `crcup_rc` -/
  rc : ℤ

/-- The loop body, for an update at the start of `b` with `k` checksums; `none` if it reads beyond. -/
def crcup (k : ℕ) (b : List (BitVec 128)) : Option Crcup :=
  let slots := slotsAt b
  if b.length < 3 + nupsAt b then none
  else
    let rc := if nupsAt b ≠ k then -einval else 0
    let rc := if slots.any (· ≥ crcsPerBmap) then -erange else rc
    let w := mdsBmapCrcWrite e (genAt b)
    some ⟨decide (rc = 0), w.2, w.2 && w.1 = 0, if w.1 ≠ 0 then w.1 else rc⟩

/-- The updates, each with its count and the buffer from there on. -/
def updates : List ℕ → List (BitVec 128) → List (ℕ × List (BitVec 128))
  | [], _ => []
  | k :: ks, b => (k, b) :: updates ks (b.drop (3 + k))

inductive CrcwrtRep where
  | refused (rc : ℤ)
  | done (ups : List Crcup)

/-- `slm_rmi_handle_bmap_crcwrt`; `env` is met in each round. -/
def slmRmiHandleBmapCrcwrt (ncrcs : List ℕ) (bulkRc : ℤ) (buf : List (BitVec 128)) (env : ℕ → CrcEnv) :
    Option CrcwrtRep :=
  if ncrcs.length > maxBmapNcrcUpdates then some (.refused (-einval))
  else if bulkRc ≠ 0 then some (.refused bulkRc)
  else ((updates ncrcs buf).zipIdx.mapM fun x => crcup (env x.2) x.1.1 x.1.2).map .done

/-- What is not valid changes no bmap, and the code tells if it was applied. -/
def Crcup.Right (u : Crcup) : Prop := (u.updated → u.valid) ∧ (u.rc = 0 ↔ u.applied)

/-- Nothing is read beyond the buffer, and each update is right. -/
def Handled (out : Option CrcwrtRep) : Prop :=
  ∃ r ∈ out, ∀ ups, r = .done ups → ∀ u ∈ ups, u.Right

/-- `k` CRCs, of slivers that a bmap has. -/
def validAt (k : ℕ) (b : List (BitVec 128)) : Prop := nupsAt b = k ∧ ∀ n ∈ slotsAt b, n < crcsPerBmap
  deriving Decidable

theorem crcup_right_iff (k : ℕ) (b : List (BitVec 128)) : (∃ u, crcup e k b = some u ∧ u.Right) ↔
    3 + nupsAt b ≤ b.length ∧ if validAt k b then ¬ e.Deleted else e.Refuses (genAt b) := by
  unfold crcup
  by_cases hfit : b.length < 3 + nupsAt b
  · simp [hfit]
  have hany : (slotsAt b).any (· ≥ crcsPerBmap) = false ↔ ∀ n ∈ slotsAt b, n < crcsPerBmap := by simp
  have hignored := mdsBmapCrcWrite_ignored e (genAt b)
  have hrefuses := mdsBmapCrcWrite_refuses e (genAt b)
  generalize mdsBmapCrcWrite e (genAt b) = w at hignored hrefuses ⊢
  obtain ⟨rc, updated⟩ := w
  simp only [hfit, if_false, some.injEq, exists_eq_left', Nat.not_lt.mp hfit, true_and]
  by_cases hv : validAt k b
  · -- the codes of the checks are zero, so what is returned is the code of `mds_bmap_crc_write`
    rw [if_pos hv, ← hignored]
    cases updated <;> simp [Crcup.Right, hv.1, hany.mpr hv.2]
  rw [if_neg hv, ← hrefuses]
  have hbad : (if (slotsAt b).any (· ≥ crcsPerBmap) then -erange else if nupsAt b ≠ k then -einval else 0) ≠ 0 := by
    split_ifs with hs hk
    · decide
    · decide
    · exact absurd ⟨not_not.mp hk, hany.mp (by simpa using hs)⟩ hv
  generalize (if (slotsAt b).any (· ≥ crcsPerBmap) then -erange else if nupsAt b ≠ k then -einval else 0) = c at hbad
  cases updated
  · by_cases hrc : rc = 0 <;> simp [Crcup.Right, hbad, hrc]
  · simp [Crcup.Right, hbad]

/-- **CRC updates are handled right** exactly if the request is refused, or no update reads beyond the buffer, none
that is valid is for a deleted file, and what is not valid is for a volume, a file, a generation or a bmap that is not
there, by another sender or while an update is under way. -/
theorem crcwrt_handled_iff (ncrcs : List ℕ) (bulkRc : ℤ) (buf : List (BitVec 128)) (env : ℕ → CrcEnv) :
    Handled (slmRmiHandleBmapCrcwrt ncrcs bulkRc buf env) ↔ (ncrcs.length > maxBmapNcrcUpdates ∨ bulkRc ≠ 0) ∨
      ∀ x ∈ (updates ncrcs buf).zipIdx, 3 + nupsAt x.1.2 ≤ x.1.2.length ∧
        if validAt x.1.1 x.1.2 then ¬ (env x.2).Deleted else (env x.2).Refuses (genAt x.1.2) := by
  unfold slmRmiHandleBmapCrcwrt
  by_cases hn : ncrcs.length > maxBmapNcrcUpdates
  · rw [if_pos hn]
    exact iff_of_true ⟨_, rfl, fun _ h => by cases h⟩ (.inl (.inl hn))
  by_cases hb : bulkRc ≠ 0
  · rw [if_neg hn, if_pos hb]
    exact iff_of_true ⟨_, rfl, fun _ h => by cases h⟩ (.inl (.inr hb))
  rw [if_neg hn, if_neg hb, or_iff_right (not_or.mpr ⟨hn, hb⟩)]
  simp only [← crcup_right_iff, ← exists_mapM_iff]
  constructor
  · rintro ⟨r, hr, hright⟩
    obtain ⟨ups, hups, rfl⟩ := map_eq_some_iff.mp hr
    exact ⟨ups, hups, hright ups rfl⟩
  · rintro ⟨ups, hups, hright⟩
    refine ⟨.done ups, map_eq_some_iff.mpr ⟨ups, hups, rfl⟩, ?_⟩
    rintro _ ⟨⟩
    exact hright

def ready : CrcEnv := ⟨0, true, 0, 0, 0, true, false, 0, ⟨1, Int.one_ne_zero⟩⟩

/-- **Handled wrong**: slot 200 is applied, with an error; a deleted file's is not, without one; a short one is read
beyond the buffer. -/
theorem crcwrt_wrong :
    (slmRmiHandleBmapCrcwrt [1] 0 [0, 0, 0x100000000, 200 <<< 64] fun _ => ready) = some (.done [⟨false, true, true, -erange⟩]) ∧
    (slmRmiHandleBmapCrcwrt [1] 0 [0, 0, 0x100000000, 5 <<< 64] fun _ => { ready with fcmhRc := enoent }) =
      some (.done [⟨true, false, false, 0⟩]) ∧
    (slmRmiHandleBmapCrcwrt [1] 0 [0, 0, 0x200000000, 5 <<< 64] fun _ => ready) = none := by
  refine ⟨rfl, rfl, rfl⟩

end Slash2.Journal
