/-
# The file size a client has cached

A client keeps the attributes of a file in its `fidc_membh`. Writes raise the cached size and
mark it dirty; a dirty size is sent to the MDS by `msl_flush_ioattrs`, and every RPC reply that
carries attributes goes through `slc_fcmh_setattrf`. That function keeps a larger local size, since
the MDS may not know of it yet, unless it is told to clobber.

Key theorems: `Keeps.size_le`, `size_kept`, `size_clobbered`.
-/
import Mathlib.Order.MinMax
import Slash2.Lib.Run

namespace Slash2.Attr

open Lib Option

/-! ### Attributes -/

def fgenAny : ℕ := 0xffffffffffffffff

/-- `struct srt_stat`, as far as the size goes. -/
structure Stat where
  size : ℕ
  /-- `sst_gen`, raised by a full truncation -/
  gen : ℕ
  /-- `sst_ptruncgen`, raised by a partial one -/
  ptruncgen : ℕ
  deriving DecidableEq

/-- `struct fidc_membh` of a regular file on a client. -/
structure Fcmh where
  stat : Stat
  haveAttrs : Bool
  dirtyDsize : Bool
  dirtyMtime : Bool

variable (f : Fcmh) (sstb : Stat)

/-- The generation `slc_fcmh_setattrf` compares with. -/
def Fcmh.genFor : ℕ := if f.stat.gen = fgenAny then sstb.gen else f.stat.gen

/-- `slc_fcmh_setattrf`; `clobber` is `FCMH_SETATTRF_CLOBBER`. -/
def slcFcmhSetattrf (clobber : Bool) : Fcmh :=
  if f.genFor sstb > sstb.gen then f
  else
    let keep := (clobber || !f.haveAttrs) = false ∧ f.stat.ptruncgen = sstb.ptruncgen ∧ f.genFor sstb = sstb.gen ∧
      f.stat.size > sstb.size
    { f with stat := { sstb with size := if keep then f.stat.size else sstb.size }, haveAttrs := true }

/-- `msl_update_attributes` for a write of `[off, off + len)`. -/
def mslUpdateAttributes (off len : ℕ) : Fcmh :=
  if off + len > f.stat.size then
    { f with stat := { f.stat with size := off + len }, dirtyDsize := true, dirtyMtime := true }
  else { f with dirtyMtime := true }

structure ToSet where
  size : Option ℕ
  mtime : Bool

/-- `msl_flush_ioattrs` up to the RPC. -/
def mslFlushIoattrs : Fcmh × ToSet :=
  ({ f with dirtyDsize := false, dirtyMtime := false }, ⟨if f.dirtyDsize then some f.stat.size else none, f.dirtyMtime⟩)

/-- The end of an RPC; `slc_rmc_retry_pfcc` knows `transient` errors. -/
inductive Rc where
  | ok
  | notsup
  | transient
  | other
  deriving DecidableEq

/-- `slc_rmc_retry_pfcc`; `pfcc` if there is a client context. -/
def slcRmcRetryPfcc (pfcc : Bool) : Rc → Bool
  | .transient => pfcc
  | .ok | .notsup | .other => false

/-- `msl_flush_ioattrs` after the RPC. -/
def mslFlushIoattrsDone (q : ToSet) (rc : Rc) : Fcmh :=
  if rc ≠ .ok ∧ slcRmcRetryPfcc false rc = true then
    { f with dirtyDsize := f.dirtyDsize || q.size.isSome, dirtyMtime := f.dirtyMtime || q.mtime }
  else f

/-- `msl_setattr` clobbers if it was to set the size or the time. -/
def ToSet.clobbers (q : ToSet) : Bool := q.size.isSome || q.mtime

@[simp] theorem mslFlushIoattrsDone_eq (q : ToSet) (rc : Rc) : mslFlushIoattrsDone f q rc = f := by
  cases rc <;> rfl

/-- Attributes that are not old and clobber, or follow a truncation, carry no smaller size than the cached one. -/
def Keeps (clobber : Bool) : Prop :=
  f.genFor sstb ≤ sstb.gen →
    (clobber || !f.haveAttrs) ∨ f.stat.ptruncgen ≠ sstb.ptruncgen ∨ f.genFor sstb ≠ sstb.gen →
      f.stat.size ≤ sstb.size
  deriving Decidable

theorem Keeps.size_le {f : Fcmh} {sstb : Stat} {clobber : Bool} (h : Keeps f sstb clobber) :
    f.stat.size ≤ (slcFcmhSetattrf f sstb clobber).stat.size := by
  simp only [slcFcmhSetattrf]
  split_ifs with hold hkeep
  · exact le_rfl
  · exact le_rfl
  -- the reply's size is taken: it is not smaller, or one of the other tests has failed
  by_contra hlt
  refine hlt (h (not_lt.mp hold) ?_)
  by_contra hno
  simp only [not_or, Bool.not_eq_true, not_not] at hno
  exact hkeep ⟨hno.1, hno.2.1, hno.2.2, not_le.mp hlt⟩

theorem keeps_of_same {f : Fcmh} {sstb : Stat} {clobber : Bool} (hgen : sstb.gen ≤ f.genFor sstb)
    (hptrunc : sstb.ptruncgen = f.stat.ptruncgen)
    (h : (clobber || !f.haveAttrs) → sstb.gen = f.genFor sstb → f.stat.size ≤ sstb.size) :
    Keeps f sstb clobber := by
  intro hnew hcase
  have hsame := hgen.antisymm hnew
  rcases hcase with hc | hne | hne
  · exact h hc hsame
  · exact absurd hptrunc.symm hne
  · exact absurd hsame.symm hne

/-! ### One client -/

structure Rpc where
  toSet : ToSet
  /-- sent by `mslfsop_setattr`, which restores the flags if it fails -/
  op : Bool

structure Client where
  fcmh : Fcmh
  setattr : Option Rpc
  written : ℕ

inductive Label where
  | write (off len : ℕ)
  | flush
  /-- `mslfsop_setattr`, with the dirty attributes -/
  | setattr (mtime : Bool)
  | reply (sstb : Stat)
  | fail (rc : Rc)
  /-- attributes in the reply to another RPC; `clobber` for CREATE -/
  | refresh (sstb : Stat) (clobber : Bool)

def Rpc.failed (r : Rpc) (f : Fcmh) (rc : Rc) : Fcmh :=
  if r.op then { f with dirtyDsize := f.dirtyDsize || r.toSet.size.isSome, dirtyMtime := f.dirtyMtime || r.toSet.mtime }
  else mslFlushIoattrsDone f r.toSet rc

variable (s : Client)

def step : Label → Option Client
  | .write off len => some { s with fcmh := mslUpdateAttributes s.fcmh off len, written := max s.written (off + len) }
  | .flush =>
    let out := mslFlushIoattrs s.fcmh
    if s.setattr.isSome then none
    else if out.2.clobbers then some { s with fcmh := out.1, setattr := some ⟨out.2, false⟩ }
    else some s
  | .setattr mtime =>
    let out := mslFlushIoattrs s.fcmh
    if s.setattr.isSome then none
    else some { s with fcmh := out.1, setattr := some ⟨{ out.2 with mtime := out.2.mtime || mtime }, true⟩ }
  | .reply sstb => s.setattr.map fun r =>
      { s with fcmh := slcFcmhSetattrf s.fcmh sstb r.toSet.clobbers, setattr := none }
  | .fail rc => s.setattr.map fun r => { s with fcmh := r.failed s.fcmh rc, setattr := none }
  | .refresh sstb clobber => some { s with fcmh := slcFcmhSetattrf s.fcmh sstb clobber }

/-- Attributes that arrive are of no newer generation and no other truncation. -/
def Untruncated : Label → Prop
  | .reply sstb | .refresh sstb _ => sstb.gen ≤ s.fcmh.genFor sstb ∧ sstb.ptruncgen = s.fcmh.stat.ptruncgen
  | .write _ _ | .flush | .setattr _ | .fail _ => True

/-- Attributes that clobber carry no smaller size than the cached one. -/
def Roomy : Label → Prop
  | .reply sstb => ∀ r ∈ s.setattr, (r.toSet.clobbers || !s.fcmh.haveAttrs) → sstb.gen = s.fcmh.genFor sstb →
      s.fcmh.stat.size ≤ sstb.size
  | .refresh sstb clobber => (clobber || !s.fcmh.haveAttrs) → sstb.gen = s.fcmh.genFor sstb →
      s.fcmh.stat.size ≤ sstb.size
  | .write _ _ | .flush | .setattr _ | .fail _ => True

instance (l : Label) : Decidable (Untruncated s l) := by
  cases l <;> unfold Untruncated <;> infer_instance

instance (l : Label) : Decidable (Roomy s l) := by
  cases l <;> unfold Roomy <;> infer_instance

section Steps

variable {s} {t : Client}

theorem mslUpdateAttributes_size (off len : ℕ) :
    (mslUpdateAttributes f off len).stat.size = max f.stat.size (off + len) := by
  unfold mslUpdateAttributes
  split_ifs with h
  · exact (max_eq_right (le_of_lt h)).symm
  · exact (max_eq_left (not_lt.mp h)).symm

theorem Rpc.failed_stat (r : Rpc) (f : Fcmh) (rc : Rc) : (r.failed f rc).stat = f.stat := by
  unfold Rpc.failed
  split_ifs
  · rfl
  · rw [mslFlushIoattrsDone_eq]

theorem step_written {l : Label} (h : s.written ≤ s.fcmh.stat.size) (hl : Untruncated s l ∧ Roomy s l)
    (hst : step s l = some t) : t.written ≤ t.fcmh.stat.size := by
  obtain ⟨hun, hroom⟩ := hl
  revert hst
  fun_cases step s l <;> intro hst <;> try cases hst
  next =>
    rw [mslUpdateAttributes_size]
    exact max_le_max_right _ h
  next => exact h
  next => exact h
  next => exact h
  next =>
    obtain ⟨r, hr, rfl⟩ := map_eq_some_iff.mp hst
    exact h.trans (keeps_of_same hun.1 hun.2 (hroom r hr)).size_le
  next =>
    obtain ⟨r, -, rfl⟩ := map_eq_some_iff.mp hst
    rw [r.failed_stat]
    exact h
  next => exact h.trans (keeps_of_same hun.1 hun.2 hroom).size_le

end Steps

/-- **Client size monotonicity**: the cached size covers every completed write, if no reply clobbers a larger size. -/
theorem size_kept (f : Fcmh) (ls : List Label)
    (hls : Admits step (fun s l => Untruncated s l ∧ Roomy s l) ⟨f, none, 0⟩ ls) {s : Client}
    (hs : run step ⟨f, none, 0⟩ ls = some s) : s.written ≤ s.fcmh.stat.size :=
  run_invariant (fun h hl hst => step_written h hl hst) (Nat.zero_le _) hls hs

def emptyFile : Fcmh := ⟨⟨0, 3, 0⟩, true, false, false⟩

/-- Ten bytes are flushed, and a refresh brings the old attributes. -/
theorem size_kept_flushed :
    ∃ s ∈ run step ⟨emptyFile, none, 0⟩ [.write 0 10, .flush, .reply ⟨10, 3, 0⟩, .write 10 20, .refresh ⟨10, 3, 0⟩ false],
      s.written = 30 ∧ s.written ≤ s.fcmh.stat.size :=
  ⟨_, rfl, rfl, size_kept emptyFile
    [.write 0 10, .flush, .reply ⟨10, 3, 0⟩, .write 10 20, .refresh ⟨10, 3, 0⟩ false] (by decide) rfl⟩

/-- **A completed write is cut off** by the reply to the flush of an earlier one. -/
theorem size_clobbered : (∃ s ∈ run step ⟨emptyFile, none, 0⟩ [.write 0 10, .flush, .write 10 20, .reply ⟨10, 3, 0⟩],
      s.written = 30 ∧ s.fcmh.stat.size = 10 ∧ s.fcmh.dirtyDsize = true) ∧
    ∃ s ∈ run step ⟨emptyFile, none, 0⟩ [.write 0 10, .refresh ⟨0, 3, 0⟩ true],
      s.written = 10 ∧ s.fcmh.stat.size = 0 := by
  decide

end Slash2.Attr
