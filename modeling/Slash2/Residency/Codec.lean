/-
# The packed residency table of a bmap

A bmap keeps one three-bit state per replica, packed without padding into 24
bytes, so that an entry may straddle a byte boundary. `SL_REPL_GET_BMAP_IOS_STAT` and
`SL_REPL_SET_BMAP_IOS_STAT` go by the bytes. A table is 64 independent cells: a set is seen by
the get of the same entry and by no other.

Key theorem: `residency_codec`.
-/
import Mathlib.Tactic.IntervalCases

namespace Slash2.Residency

inductive Breplst where
  | invalid
  | replSched
  | replQueued
  | valid
  | truncpndg
  | truncpndgSched
  | garbage
  | garbageSched
  deriving DecidableEq

/-- The code `BREPLST_*` of a state. -/
def Breplst.code : Breplst → BitVec 3
  | .invalid => 0
  | .replSched => 1
  | .replQueued => 2
  | .valid => 3
  | .truncpndg => 4
  | .truncpndgSched => 5
  | .garbage => 6
  | .garbageSched => 7

def Breplst.ofCode (c : BitVec 3) : Breplst :=
  if c = 0 then .invalid else if c = 1 then .replSched else if c = 2 then .replQueued
  else if c = 3 then .valid else if c = 4 then .truncpndg else if c = 5 then .truncpndgSched
  else if c = 6 then .garbage else .garbageSched

@[simp] theorem Breplst.ofCode_code (s : Breplst) : Breplst.ofCode s.code = s := by
  cases s <;> rfl

/-! ### Constants -/

def nbby : ℕ := 8

def slBitsPerReplica : ℕ := 3

def slMaxReplicas : ℕ := 64

def slReplicaNbytes : ℕ := 24

def slReplicaMask : BitVec 8 := 7

/-- `bcs_repls` / `bmi_repls`: the packed table. -/
abbrev Repls := Vector (BitVec 8) slReplicaNbytes

variable (d : Repls)

/-- Byte `n` of the table. -/
def Repls.byte (n : ℕ) : BitVec 8 := d[n]?.getD 0

/-- `SL_REPL_GET_BMAP_IOS_STAT` -/
def slReplGetBmapIosStat (off : ℕ) : BitVec 3 :=
  let lo := d.byte (off / nbby) >>> (off % nbby)
  let hi := if off % nbby + slBitsPerReplica > nbby then
      d.byte (off / nbby + 1) <<< (slBitsPerReplica - (off % nbby + slBitsPerReplica - nbby))
    else 0
  (slReplicaMask &&& (lo ||| hi)).setWidth 3

/-- `SL_REPL_SET_BMAP_IOS_STAT`: the low byte, then the bits that spill over. -/
def slReplSetBmapIosStat (off : ℕ) (val : BitVec 3) : Repls :=
  let v : BitVec 8 := val.setWidth 8
  let d : Repls := d.setIfInBounds (off / nbby)
    ((d.byte (off / nbby) &&& ~~~(slReplicaMask <<< (off % nbby))) ||| (v <<< (off % nbby)))
  if off % nbby + slBitsPerReplica > nbby then
    let j := slBitsPerReplica - (off % nbby + slBitsPerReplica - nbby)
    d.setIfInBounds (off / nbby + 1)
      ((d.byte (off / nbby + 1) &&& ~~~(slReplicaMask >>> j)) ||| (v >>> j))
  else d

/-- The state of replica `k`. -/
def stateAt (k : ℕ) : Breplst :=
  Breplst.ofCode (slReplGetBmapIosStat d (k * slBitsPerReplica))

/-- Give replica `k` a new state. -/
def setState (k : ℕ) (v : Breplst) : Repls :=
  slReplSetBmapIosStat d (k * slBitsPerReplica) v.code

/-- Bit `n` of the whole table. -/
def tblBit (n : ℕ) : Bool := (d.byte (n / nbby)).getLsbD (n % nbby)

theorem byte_setIfInBounds (m n : ℕ) (b : BitVec 8) (hm : m < slReplicaNbytes) :
    Repls.byte (d.setIfInBounds m b) n = if m = n then b else d.byte n := by
  unfold Repls.byte
  by_cases h : m = n
  · subst h
    simp [hm]
  · simp [h]

theorem slReplicaMask_getLsbD (i : ℕ) : slReplicaMask.getLsbD i = decide (i < 3) := by
  by_cases h : i < 3
  · interval_cases i <;> rfl
  by_cases h8 : i < 8
  · interval_cases i <;> first | omega | rfl
  · simp [h, BitVec.getLsbD_of_ge slReplicaMask i (by omega)]

variable {k : ℕ}

theorem lowByte_getLsbD (b : BitVec 8) (c : BitVec 3) {r : ℕ} (hk : k < 8) :
    ((b &&& ~~~(slReplicaMask <<< r)) ||| (c.setWidth 8 <<< r)).getLsbD k =
      if r ≤ k ∧ k < r + 3 then c.getLsbD (k - r) else b.getLsbD k := by
  simp only [BitVec.getLsbD_or, BitVec.getLsbD_and, BitVec.getLsbD_not, BitVec.getLsbD_shiftLeft,
    BitVec.getLsbD_setWidth, slReplicaMask_getLsbD]
  by_cases h1 : k < r
  · simp [h1, hk]
  by_cases h2 : k < r + 3
  · have : k - r < 3 := by omega
    have : k - r < 8 := by omega
    simp [*, Nat.not_lt.mp h1]
  · have : ¬ k - r < 3 := by omega
    simp [h1, h2, hk, this, BitVec.getLsbD_of_ge c (k - r) (by omega)]

theorem highByte_getLsbD (b : BitVec 8) (c : BitVec 3) {j : ℕ} (hk : k < 8) :
    ((b &&& ~~~(slReplicaMask >>> j)) ||| (c.setWidth 8 >>> j)).getLsbD k =
      if j + k < 3 then c.getLsbD (j + k) else b.getLsbD k := by
  simp only [BitVec.getLsbD_or, BitVec.getLsbD_and, BitVec.getLsbD_not, BitVec.getLsbD_ushiftRight,
    BitVec.getLsbD_setWidth, slReplicaMask_getLsbD]
  by_cases h : j + k < 3
  · have : j + k < 8 := by omega
    simp [h, hk, this]
  · simp [h, hk, BitVec.getLsbD_of_ge c (j + k) (by omega)]

theorem tblBit_set (v : BitVec 3) {off : ℕ} (hoff : off + 3 ≤ 192) (n : ℕ) : tblBit (slReplSetBmapIosStat d off v) n =
      if off ≤ n ∧ n < off + 3 then v.getLsbD (n - off) else tblBit d n := by
  have hn : n % 8 < 8 := Nat.mod_lt _ (by omega)
  have hq : off / 8 < slReplicaNbytes := by unfold slReplicaNbytes; omega
  unfold slReplSetBmapIosStat tblBit
  by_cases hs : off % nbby + slBitsPerReplica > nbby
  · simp only [if_pos hs]
    simp only [nbby, slBitsPerReplica] at hs ⊢
    have hq' : off / 8 + 1 < slReplicaNbytes := by unfold slReplicaNbytes; omega
    rw [byte_setIfInBounds _ _ _ _ hq', byte_setIfInBounds _ _ _ _ hq,
      byte_setIfInBounds _ _ _ _ hq, if_neg (by omega : ¬ off / 8 = off / 8 + 1)]
    by_cases h1 : off / 8 + 1 = n / 8
    · rw [if_pos h1, highByte_getLsbD _ _ hn, h1]
      by_cases h : n < off + 3
      · rw [if_pos (by omega), if_pos ⟨by omega, h⟩]
        congr 1
        omega
      · rw [if_neg (by omega), if_neg (by omega)]
    rw [if_neg h1]
    by_cases h2 : off / 8 = n / 8
    · rw [if_pos h2, lowByte_getLsbD _ _ hn, h2]
      by_cases h : off ≤ n
      · rw [if_pos (by omega), if_pos (by omega)]
        congr 1
        omega
      · rw [if_neg (by omega), if_neg (by omega)]
    · rw [if_neg h2, if_neg (by omega)]
  · simp only [if_neg hs]
    simp only [nbby, slBitsPerReplica] at hs ⊢
    rw [byte_setIfInBounds _ _ _ _ hq]
    by_cases h2 : off / 8 = n / 8
    · rw [if_pos h2, lowByte_getLsbD _ _ hn, h2]
      by_cases h : off ≤ n ∧ n < off + 3
      · rw [if_pos (by omega), if_pos h]
        congr 1
        omega
      · rw [if_neg (by omega), if_neg h]
    · rw [if_neg h2, if_neg (by omega)]

theorem get_getLsbD (off : ℕ) {i : ℕ} (hi : i < 3) : (slReplGetBmapIosStat d off).getLsbD i = tblBit d (off + i) := by
  unfold slReplGetBmapIosStat tblBit
  split_ifs with hs
  · simp only [nbby, slBitsPerReplica] at hs ⊢
    simp only [BitVec.getLsbD_setWidth, BitVec.getLsbD_and, BitVec.getLsbD_or, BitVec.getLsbD_ushiftRight,
      BitVec.getLsbD_shiftLeft, slReplicaMask_getLsbD, show 3 - (off % 8 + 3 - 8) = 8 - off % 8 by omega]
    by_cases h : off % 8 + i < 8
    · have hlo : i < 8 - off % 8 := by omega
      rw [show (off + i) / 8 = off / 8 by omega, show (off + i) % 8 = off % 8 + i by omega]
      simp [hi, hlo]
    have hhi : ¬ i < 8 - off % 8 := by omega
    have hi8 : i < 8 := by omega
    rw [show (off + i) / 8 = off / 8 + 1 by omega, show (off + i) % 8 = i - (8 - off % 8) by omega,
      BitVec.getLsbD_of_ge _ _ (by omega)]
    simp [hi, hi8, hhi]
  · simp only [nbby, slBitsPerReplica] at hs ⊢
    rw [show (off + i) / 8 = off / 8 by omega, show (off + i) % 8 = off % 8 + i by omega]
    simp [slReplicaMask_getLsbD, hi]

/-! ### The table as 64 cells -/

section
variable (v : BitVec 3) (hk : k < slMaxReplicas)
include hk

theorem get_set_self :
    slReplGetBmapIosStat (slReplSetBmapIosStat d (k * slBitsPerReplica) v) (k * slBitsPerReplica) = v := by
  unfold slMaxReplicas at hk
  apply BitVec.eq_of_getLsbD_eq
  intro i hi
  unfold slBitsPerReplica
  rw [get_getLsbD _ _ hi, tblBit_set _ _ (by omega), if_pos (by omega), Nat.add_sub_cancel_left]

theorem get_set_ne {m : ℕ} (h : m ≠ k) :
    slReplGetBmapIosStat (slReplSetBmapIosStat d (k * slBitsPerReplica) v) (m * slBitsPerReplica) =
      slReplGetBmapIosStat d (m * slBitsPerReplica) := by
  unfold slMaxReplicas at hk
  apply BitVec.eq_of_getLsbD_eq
  intro i hi
  unfold slBitsPerReplica
  rw [get_getLsbD _ _ hi, get_getLsbD _ _ hi, tblBit_set _ _ (by omega), if_neg (by omega)]

end

section
variable (v : Breplst) (hk : k < slMaxReplicas)
include d v hk

@[simp] theorem stateAt_setState_self : stateAt (setState d k v) k = v := by
  rw [stateAt, setState, get_set_self d v.code hk, Breplst.ofCode_code]

theorem stateAt_setState_ne {m : ℕ} (h : m ≠ k) : stateAt (setState d k v) m = stateAt d m := by
  rw [stateAt, setState, get_set_ne d v.code hk h, stateAt]

theorem stateAt_setState (m : ℕ) : stateAt (setState d k v) m = if m = k then v else stateAt d m := by
  split_ifs with h
  · rw [h, stateAt_setState_self d v hk]
  · rw [stateAt_setState_ne d v hk h]

end

/-- `SL_REPL_GET_BMAP_IOS_STAT` with each byte looked up: `none` is a read outside the table. -/
def getChecked (off : ℕ) : Option (BitVec 3) := do
  let lo ← d[off / nbby]?
  let hi ← if off % nbby + slBitsPerReplica > nbby then d[off / nbby + 1]? else some 0
  some ((slReplicaMask &&& (lo >>> (off % nbby) |||
    hi <<< (slBitsPerReplica - (off % nbby + slBitsPerReplica - nbby)))).setWidth 3)

def putChecked (n : ℕ) (f : BitVec 8 → BitVec 8) : Option Repls :=
  d[n]?.map fun b => d.setIfInBounds n (f b)

/-- `SL_REPL_SET_BMAP_IOS_STAT`, in the same way. -/
def setChecked (off : ℕ) (val : BitVec 3) : Option Repls := do
  let d ← putChecked d (off / nbby) fun b =>
    (b &&& ~~~(slReplicaMask <<< (off % nbby))) ||| (val.setWidth 8 <<< (off % nbby))
  if off % nbby + slBitsPerReplica > nbby then
    let j := slBitsPerReplica - (off % nbby + slBitsPerReplica - nbby)
    putChecked d (off / nbby + 1) fun b => (b &&& ~~~(slReplicaMask >>> j)) ||| (val.setWidth 8 >>> j)
  else some d

section
variable {off : ℕ} (hoff : off + 3 ≤ 192)
include hoff

theorem bytes_lt : off / nbby < slReplicaNbytes ∧
    (off % nbby + slBitsPerReplica > nbby → off / nbby + 1 < slReplicaNbytes) := by
  unfold nbby slBitsPerReplica slReplicaNbytes
  omega

theorem getChecked_eq : getChecked d off = some (slReplGetBmapIosStat d off) := by
  obtain ⟨hq, hq'⟩ := bytes_lt hoff
  unfold getChecked slReplGetBmapIosStat Repls.byte
  by_cases hs : off % nbby + slBitsPerReplica > nbby
  · simp [hs, hq, hq' hs]
  · simp [hs, hq]

theorem setChecked_eq (val : BitVec 3) : setChecked d off val = some (slReplSetBmapIosStat d off val) := by
  obtain ⟨hq, hq'⟩ := bytes_lt hoff
  unfold setChecked slReplSetBmapIosStat Repls.byte
  by_cases hs : off % nbby + slBitsPerReplica > nbby
  · simp [hs, hq, hq' hs, putChecked]
  · simp [hs, hq, putChecked]

end

/-- **The residency table is a codec**: a set is read back at its entry and at no other, inside the table. -/
theorem residency_codec (d : Repls) (i : Fin slMaxReplicas) (v : BitVec 3) :
    ∃ d', setChecked d (i * slBitsPerReplica) v = some d' ∧ getChecked d' (i * slBitsPerReplica) = some v ∧
      ∀ j ≠ i, ∃ w, getChecked d (j * slBitsPerReplica) = some w ∧ getChecked d' (j * slBitsPerReplica) = some w := by
  have hin (k : Fin slMaxReplicas) : k * slBitsPerReplica + 3 ≤ 192 := by
    have := k.isLt
    unfold slMaxReplicas at this
    unfold slBitsPerReplica
    omega
  refine ⟨_, setChecked_eq d (hin i) v, ?_, fun j hj => ⟨_, getChecked_eq d (hin j), ?_⟩⟩
  · rw [getChecked_eq _ (hin i), get_set_self d v i.isLt]
  · rw [getChecked_eq _ (hin j), get_set_ne d v i.isLt (Fin.val_ne_of_ne hj)]

end Slash2.Residency
