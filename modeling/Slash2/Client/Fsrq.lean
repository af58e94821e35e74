/-
# The request behind a read or a write

`msl_io` turns a read or a write of the file system into one request, `struct msl_fsrqinfo`,
with a biorq (`struct bmpc_ioreq`) for each bmap it covers. The request counts who still
works on it: the thread in `msl_io` and each biorq. A biorq that has ended copies its data
(`msl_biorq_complete_fsrq`) and drops its reference, and the last reference sends the reply
(`_msl_complete_fsrq`).

Key theorem: `mslPagesCopyout_bytes`.
-/
import Mathlib.Tactic.Ring
import Slash2.Client.Page
import Slash2.Lib.Window
import Slash2.Residency.Replicate

namespace Slash2.Client.Io

open Lib List
open Nat (add_mul one_mul zero_add zero_le)
open Residency (slashBmapSize)

/-! ### How `msl_io` cuts a request -/

/-- `enum rw` -/
inductive Rw where
  | read
  | write
  deriving DecidableEq

def maxBmapsReq : ℕ := 2

/-- A read or a write; its end fits into an `off_t`. -/
structure Request where
  rw : Rw
  off : ℕ
  size : ℕ
  fits : off + size < 0x8000000000000000

def sub64 (a b : ℕ) : ℕ := (a + 0x10000000000000000 - b) % 0x10000000000000000

variable (p : Request)

/-- `size` in `msl_io`: a read is cut at the end of the file. -/
def ioSize (fsz : ℕ) : ℕ :=
  if p.rw = .read ∧ p.size + p.off > fsz then sub64 fsz p.off else p.size

/-- `nr` in `msl_io`: the bmaps covered, as an `int`. -/
def ioNr (fsz : ℕ) : ℤ :=
  Int.bmod (↑(sub64 (p.off + ioSize p fsz) 1 / slashBmapSize) - ↑(p.off / slashBmapSize) + 1) 0x100000000

/-- A read beyond the end of the file, or empty. -/
def pastEof (fsz : ℕ) : Prop := p.rw = .read ∧ (ioSize p fsz = 0 ∨ p.off ≥ fsz)
  deriving Decidable

/-- What a biorq is built with. -/
structure Ioreq where
  bno : ℕ
  rq : Biorq
  dio : Bool

def Ioreq.foff (r : Ioreq) : ℕ := r.bno * slashBmapSize + r.rq.off

/-- The loop of step 1 of `msl_io`: `n` biorqs to build, from number `i`; `bmap_get` takes an `sl_bmapno_t`. -/
def buildLoop (dio : ℕ → Bool) (start : ℕ) : ℕ → ℕ → ℕ → ℕ → ℕ → List Ioreq
  | 0, _, _, _, _ => []
  | n + 1, i, roff, tlen, tsize =>
    ⟨(start + i) % 0x100000000, ⟨roff - i * slashBmapSize, tlen⟩, dio ((start + i) % 0x100000000)⟩ ::
      buildLoop dio start n (i + 1) (roff + tlen) (min slashBmapSize (tsize - tlen)) (tsize - tlen)

/-- The biorqs `msl_io` builds if every bmap can be had. -/
def mslIoBiorqs (dio : ℕ → Bool) (p : Request) (fsz : ℕ) : List Ioreq :=
  if pastEof p fsz then []
  else
    let start := p.off / slashBmapSize
    let roff := p.off - start * slashBmapSize
    buildLoop dio start (ioNr p fsz).toNat 0 roff (min (slashBmapSize - roff) (ioSize p fsz)) (ioSize p fsz)

/-- An entry of a reply's vector: part of a page, or the buffer, of biorq `i`. -/
inductive Vec where
  | page (i : ℕ) (v : Iov)
  | buf (i len : ℕ)

/-- `pscfs_reply_read` or `pscfs_reply_write`. -/
inductive Reply where
  | read (iov : List Vec) (rc : ℤ)
  | write (len : ℕ) (rc : ℤ)

/-- `struct msl_fsrqinfo` -/
structure Fsrq where
  rw : Rw
  /-- `mfsrq_biorq`: the biorqs in the order of their bmaps -/
  biorq : List Ioreq
  size : ℕ
  /-- `mfsrq_len`: how much has been read or written -/
  len : ℕ
  err : ℤ
  /-- `mfsrq_ref`: one for each biorq and for `msl_io` -/
  ref : ℤ
  /-- `mfsrq_iovs`, `none` for `NULL` -/
  iovs : Option (List Vec)
  copied : Bool
  replied : Bool
  /-- an assertion of `_msl_complete_fsrq` has failed -/
  failed : Bool

def mslFsrqinfoInit (fsz : ℕ) : Fsrq :=
  ⟨p.rw, [], ioSize p fsz, 0, 0, 1, none, false, false, false⟩

variable (q : Fsrq)

/-- `mfsrq_seterr`: the first error stays. -/
def mfsrqSeterr (rc : ℤ) : Fsrq := if q.err = 0 then { q with err := rc } else q

def mfsrqClrerr : Fsrq := { q with err := 0 }

def Fsrq.addBiorq (r : Ioreq) : Fsrq := { q with biorq := q.biorq ++ [r], ref := q.ref + 1 }

def Fsrq.addLen (len : ℕ) : Fsrq :=
  if q.err = 0 then { q with len := q.len + len, failed := q.failed || decide (q.size < q.len + len) } else q

def Fsrq.decref : Fsrq := { q with ref := q.ref - 1, failed := q.failed || decide (q.ref ≤ 0) }

/-- Data are sent back, so they must be copied (`MFSRQ_COPIED`). -/
def Fsrq.needsCopied : Bool :=
  match q.rw with
  | .read => decide (q.err = 0) && decide (q.len ≠ 0)
  | .write => decide (q.err = 0)

/-- `MFSRQ_FSREPLIED` is set. -/
def Fsrq.answered : Fsrq :=
  { q with replied := true, failed := q.failed || q.replied || (q.needsCopied && !q.copied) }

/-- The buffers of the first `MAX_BMAPS_REQ` biorqs. -/
def bufs (rs : List Ioreq) : List Vec := (rs.take maxBmapsReq).mapIdx fun i r => .buf i r.rq.len

def Fsrq.answer : Reply :=
  match q.rw with
  | .read =>
    if q.err ≠ 0 then .read [] |q.err|
    else if q.len = 0 then .read [] 0
    else
      match q.iovs with
      | some vs => .read vs 0
      | none => .read (bufs q.biorq) 0
  | .write => .write q.len |q.err|

/-- `_msl_complete_fsrq`: the last reference sends the reply. -/
def mslCompleteFsrq (len : ℕ) : Fsrq × Option Reply :=
  let q := (q.addLen len).decref
  if q.ref ≠ 0 then (q, none) else (q.answered, some q.answer)

/-- `rflen` in `msl_pages_copyout`. -/
def rflen (fsz bno : ℕ) : ℕ := sub64 fsz (bno * slashBmapSize)

/-- The iovs a biorq adds; `mfsrq_iovs` stays `NULL` if none. -/
def Fsrq.addIovs (i : ℕ) (vs : List Iov) : Fsrq :=
  if vs = [] then q else { q with iovs := some (q.iovs.getD [] ++ vs.map (Vec.page i)) }

/-- `msl_biorq_complete_fsrq` up to `msl_complete_fsrq`: also the length, and whether to flush. -/
def mslBiorqCompleteFsrq (i : ℕ) (r : Ioreq) (fsz : ℕ) (pages : List Page) (src : List Byte) :
    Option (Fsrq × ℕ × Bool) :=
  if q.err ≠ 0 then some (q, 0, false)
  else if r.dio then some (q, r.rq.len, false)
  else
    match q.rw with
    | .read => (mslPagesCopyout r.rq (rflen fsz r.bno) pages).map fun vs =>
        ({ q.addIovs i vs with copied := true }, (vs.map Iov.len).sum, false)
    | .write => (mslPagesCopyin r.rq pages src).map fun _ => ({ q with copied := true }, r.rq.len, true)

section
variable (len : ℕ)

@[simp] theorem addLen_ref : (q.addLen len).ref = q.ref := by
  unfold Fsrq.addLen
  split_ifs <;> rfl

@[simp] theorem addLen_err : (q.addLen len).err = q.err := by
  unfold Fsrq.addLen
  split_ifs <;> rfl

@[simp] theorem addLen_rw : (q.addLen len).rw = q.rw := by
  unfold Fsrq.addLen
  split_ifs <;> rfl

@[simp] theorem addLen_copied : (q.addLen len).copied = q.copied := by
  unfold Fsrq.addLen
  split_ifs <;> rfl

@[simp] theorem addLen_size : (q.addLen len).size = q.size := by
  unfold Fsrq.addLen
  split_ifs <;> rfl

@[simp] theorem addLen_biorq : (q.addLen len).biorq = q.biorq := by
  unfold Fsrq.addLen
  split_ifs <;> rfl

@[simp] theorem addLen_replied : (q.addLen len).replied = q.replied := by
  unfold Fsrq.addLen
  split_ifs <;> rfl

end

variable {p q} {fsz : ℕ}

theorem foldl_addBiorq (rs : List Ioreq) : ∀ q : Fsrq,
    rs.foldl Fsrq.addBiorq q = { q with biorq := q.biorq ++ rs, ref := q.ref + rs.length } := by
  induction rs with
  | nil => intro q; simp
  | cons r rs ih =>
    intro q
    rw [foldl_cons, ih]
    simp only [Fsrq.addBiorq, append_assoc, singleton_append, length_cons]
    congr 1
    push_cast
    ring

theorem mslCompleteFsrq_more (h : q.ref ≠ 1) (len : ℕ) : mslCompleteFsrq q len = ((q.addLen len).decref, none) := by
  have hne : (q.addLen len).decref.ref ≠ 0 := by
    change (q.addLen len).ref - 1 ≠ 0
    rw [addLen_ref]
    omega
  rw [mslCompleteFsrq, if_pos hne]

theorem mslCompleteFsrq_last (h : q.ref = 1) (len : ℕ) :
    mslCompleteFsrq q len = ((q.addLen len).decref.answered, some (q.addLen len).decref.answer) := by
  have hz : ¬ (q.addLen len).decref.ref ≠ 0 := by
    change ¬ (q.addLen len).ref - 1 ≠ 0
    rw [addLen_ref]
    omega
  rw [mslCompleteFsrq, if_neg hz]

theorem addLen_len_le (q : Fsrq) (len : ℕ) : (q.addLen len).len ≤ q.len + len := by
  unfold Fsrq.addLen
  split_ifs
  · exact le_rfl
  · exact Nat.le_add_right _ _

theorem addLen_failed {len : ℕ} (h : q.len + len ≤ q.size) : (q.addLen len).failed = q.failed := by
  unfold Fsrq.addLen
  split_ifs
  · simp [Nat.not_lt.mpr h]
  · rfl

/-! ### What the biorqs hold -/

/-- What the client has of the file, bmap by bmap. -/
structure Contents where
  dio : ℕ → Bool
  page : ℕ → ℕ → Page
  direct : ℕ → ℕ → Byte
  page_off : ∀ bno o, (page bno o).off = o

/-- The byte at position `o` of bmap `bno`. -/
def Contents.bmapByte (c : Contents) (bno o : ℕ) : Byte :=
  if c.dio bno then c.direct bno o else (c.page bno (o - o % bmpcBufsz)).base (o % bmpcBufsz)

/-- The byte at position `o` of the file, whose bmaps are numbered by an `sl_bmapno_t`. -/
def Contents.byteAt (c : Contents) (o : ℕ) : Byte := c.bmapByte (o / slashBmapSize % 0x100000000) (o % slashBmapSize)

/-- `npages` in `msl_biorq_build` -/
def npages (r : Ioreq) : ℕ :=
  let alen := r.rq.len + r.rq.off % bmpcBufsz
  if alen % bmpcBufsz = 0 then alen / bmpcBufsz else alen / bmpcBufsz + 1

/-- The pages of `msl_biorq_build`: none for direct I/O. -/
def biorqPages (c : Contents) (r : Ioreq) : List Page :=
  if r.dio then []
  else (range (npages r)).map fun i => c.page r.bno (r.rq.off - r.rq.off % bmpcBufsz + i * bmpcBufsz)

theorem slashBmapSize_eq : slashBmapSize = 134217728 := rfl

theorem sub64_of_le {a b : ℕ} (h : b ≤ a) (ha : a - b < 0x10000000000000000) : sub64 a b = a - b := by
  unfold sub64
  omega

theorem ioSize_read (hrw : p.rw = .read) (h : p.off < fsz) : ioSize p fsz = min p.size (fsz - p.off) := by
  have hfits := p.fits
  unfold ioSize
  split_ifs with hcut
  · rw [sub64_of_le h.le (by omega)]
    omega
  · have : ¬ p.size + p.off > fsz := fun hgt => hcut ⟨hrw, hgt⟩
    omega

def lastBmap (p : Request) (fsz : ℕ) : ℕ := (p.off + ioSize p fsz - 1) / slashBmapSize

/-- The request has bytes, in at most two bmaps. -/
def Spans (p : Request) (fsz : ℕ) : Prop := 0 < ioSize p fsz ∧ lastBmap p fsz < p.off / slashBmapSize + 2
  deriving Decidable

theorem Spans.off_lt (hs : Spans p fsz) (hrw : p.rw = .read) : p.off < fsz := by
  by_contra hge
  obtain ⟨hpos, hlast⟩ := hs
  have hfits := p.fits
  have hsize : ioSize p fsz = sub64 fsz p.off := by
    by_cases hcut : p.size + p.off > fsz
    · exact if_pos ⟨hrw, hcut⟩
    · have hz : ioSize p fsz = p.size := if_neg fun h => hcut h.2
      omega
  unfold lastBmap at hlast
  rw [hsize] at hpos hlast
  unfold sub64 at hpos hlast
  rw [slashBmapSize_eq] at hlast
  omega

theorem Spans.not_pastEof (hs : Spans p fsz) : ¬ pastEof p fsz := by
  rintro ⟨hrw, h0 | hge⟩
  · exact hs.1.ne' h0
  · exact absurd (hs.off_lt hrw) (Nat.not_lt.mpr hge)

theorem Spans.end_lt (hs : Spans p fsz) : p.off + ioSize p fsz < 0x8000000000000000 := by
  have hfits := p.fits
  cases hrw : p.rw with
  | read =>
    rw [ioSize_read hrw (hs.off_lt hrw)]
    omega
  | write =>
    have hsize : ioSize p fsz = p.size := if_neg fun h => by rw [hrw] at h; cases h.1
    omega

theorem ioNr_eq (hs : Spans p fsz) : ioNr p fsz = (lastBmap p fsz - p.off / slashBmapSize + 1 : ℕ) := by
  have hle := hs.end_lt
  obtain ⟨hpos, hlast⟩ := hs
  have hmono : p.off / slashBmapSize ≤ lastBmap p fsz := Nat.div_le_div_right (by omega)
  unfold ioNr
  rw [sub64_of_le (by omega) (by omega)]
  change Int.bmod (↑(lastBmap p fsz) - ↑(p.off / slashBmapSize) + 1) 0x100000000 = _
  rw [Int.bmod_eq_of_le (by omega) (by omega)]
  omega

/-- The loop is in bmap `i`; what is left needs `n` bmaps. -/
def Needs (n i roff tsize : ℕ) : Prop :=
  (n = 0 → tsize = 0) ∧
    (n ≠ 0 → 0 < tsize ∧ i * slashBmapSize ≤ roff ∧ roff < (i + 1) * slashBmapSize ∧
      roff + tsize ≤ (i + n) * slashBmapSize ∧ (i + n) * slashBmapSize < roff + tsize + slashBmapSize)

theorem Needs.next {n i roff tsize tlen : ℕ} (h : Needs (n + 1) i roff tsize)
    (htlen : tlen = min ((i + 1) * slashBmapSize - roff) tsize) : Needs n (i + 1) (roff + tlen) (tsize - tlen) ∧
      min slashBmapSize (tsize - tlen) = min ((i + 1 + 1) * slashBmapSize - (roff + tlen)) (tsize - tlen) := by
  obtain ⟨-, hlo, hhi, hcover, hlast⟩ := h.2 (Nat.succ_ne_zero n)
  simp only [add_mul, one_mul] at hlo hhi hcover hlast htlen
  have hn : n = 0 ∧ n * slashBmapSize = 0 ∨ n ≠ 0 ∧ slashBmapSize ≤ n * slashBmapSize := by
    rcases Nat.eq_zero_or_pos n with rfl | hn
    · exact .inl ⟨rfl, Nat.zero_mul _⟩
    · exact .inr ⟨hn.ne', Nat.le_mul_of_pos_left _ hn⟩
  simp only [Needs, add_mul, one_mul]
  rcases Nat.le_total (i * slashBmapSize + slashBmapSize - roff) tsize with hle | hle
  · have hend : roff + tlen = i * slashBmapSize + slashBmapSize := by omega
    refine ⟨by omega, ?_⟩
    rw [hend, Nat.add_sub_cancel_left]
  rw [Nat.min_eq_right hle] at htlen
  subst htlen
  refine ⟨by omega, ?_⟩
  rw [Nat.sub_self, Nat.min_zero, Nat.min_zero]

/-- The biorq is inside its bmap, and ends at `lim` at most. -/
structure Inside (dio : ℕ → Bool) (lim : ℕ) (r : Ioreq) : Prop where
  bno : r.bno < 0x100000000
  bmap : r.rq.off + r.rq.len ≤ slashBmapSize
  pos : 0 < r.rq.len
  mode : r.dio = dio r.bno
  end_le : r.foff + r.rq.len ≤ lim

variable {α : Type*} (f : ℕ → ℕ → α)

/-- `f` at the position of a byte, by bmap and offset. -/
def byBmap (o : ℕ) : α := f (o / slashBmapSize % 0x100000000) (o % slashBmapSize)

theorem window_byBmap (n x len : ℕ) :
    window (byBmap f) (n % 0x100000000 * slashBmapSize + x) len = window (byBmap f) (n * slashBmapSize + x) len := by
  refine window_congr fun j _ => ?_
  have hno : (n % 0x100000000 * slashBmapSize + x + j) / slashBmapSize % 0x100000000 =
      (n * slashBmapSize + x + j) / slashBmapSize % 0x100000000 := by
    rw [slashBmapSize_eq]
    omega
  have hoff : (n % 0x100000000 * slashBmapSize + x + j) % slashBmapSize = (n * slashBmapSize + x + j) % slashBmapSize := by
    rw [slashBmapSize_eq]
    omega
  unfold byBmap
  rw [hno, hoff]

theorem buildLoop_tile (dio : ℕ → Bool) (start n : ℕ) :
    ∀ i roff tlen tsize : ℕ, Needs n i roff tsize → tlen = min ((i + 1) * slashBmapSize - roff) tsize →
      (buildLoop dio start n i roff tlen tsize).flatMap (fun r => window (byBmap f) r.foff r.rq.len) =
          window (byBmap f) (start * slashBmapSize + roff) tsize ∧
        ∀ r ∈ buildLoop dio start n i roff tlen tsize, Inside dio (start * slashBmapSize + roff + tsize) r := by
  induction n with
  | zero =>
    intro i roff tlen tsize h _
    rw [h.1 rfl]
    simp [buildLoop]
  | succ n ih =>
    intro i roff tlen tsize h htlen
    obtain ⟨hnext, hmin⟩ := h.next htlen
    obtain ⟨hflat, hall⟩ := ih (i + 1) (roff + tlen) (min slashBmapSize (tsize - tlen)) (tsize - tlen) hnext hmin
    obtain ⟨hpos, hlo, hhi, hcover, hlast⟩ := h.2 (Nat.succ_ne_zero n)
    have hle : tlen ≤ tsize := htlen ▸ Nat.min_le_right _ _
    have hle' : tlen ≤ (i + 1) * slashBmapSize - roff := htlen ▸ Nat.min_le_left _ _
    have hpos : 0 < tlen := by
      omega
    have hfoff : (start + i) * slashBmapSize + (roff - i * slashBmapSize) = start * slashBmapSize + roff := by
      rw [add_mul]
      omega
    refine ⟨?_, ?_⟩
    · rw [buildLoop, flatMap_cons, hflat, ← Nat.add_assoc]
      change window (byBmap f) ((start + i) % 0x100000000 * slashBmapSize + (roff - i * slashBmapSize)) tlen ++ _ = _
      rw [window_byBmap, hfoff, ← window_add, Nat.add_sub_cancel' hle]
    · intro r hr
      rcases mem_cons.mp hr with rfl | hr
      · refine ⟨Nat.mod_lt _ (by decide), ?_, hpos, rfl, ?_⟩
        · change roff - i * slashBmapSize + tlen ≤ slashBmapSize
          rw [add_mul] at hle' hhi
          omega
        · have hle := Nat.mul_le_mul_right slashBmapSize (Nat.mod_le (start + i) 0x100000000)
          change (start + i) % 0x100000000 * slashBmapSize + (roff - i * slashBmapSize) + tlen ≤ _
          omega
      · have hr := hall r hr
        exact { hr with end_le := by have := hr.end_le; omega }

section
variable (dio : ℕ → Bool)
include dio

theorem length_buildLoop (start n : ℕ) : ∀ i roff tlen tsize, (buildLoop dio start n i roff tlen tsize).length = n := by
  induction n with
  | zero => intro i roff tlen tsize; rfl
  | succ n ih => intro i roff tlen tsize; rw [buildLoop, length_cons, ih]

theorem buildLoop_sum_le (start n : ℕ) : ∀ i roff tlen tsize, tlen ≤ tsize →
    ((buildLoop dio start n i roff tlen tsize).map fun r => r.rq.len).sum ≤ tsize := by
  induction n with
  | zero => intro i roff tlen tsize _; exact zero_le _
  | succ n ih =>
    intro i roff tlen tsize hle
    have h := ih (i + 1) (roff + tlen) _ _ (Nat.min_le_right slashBmapSize (tsize - tlen))
    rw [buildLoop, map_cons, sum_cons]
    change tlen + _ ≤ tsize
    omega

theorem mslIoBiorqs_sum_le (p : Request) (fsz : ℕ) :
    ((mslIoBiorqs dio p fsz).map fun r => r.rq.len).sum ≤ ioSize p fsz := by
  unfold mslIoBiorqs
  split_ifs
  · exact zero_le _
  · exact buildLoop_sum_le _ _ _ _ _ _ _ (Nat.min_le_right _ _)

theorem length_mslIoBiorqs_le (p : Request) (fsz : ℕ) : (mslIoBiorqs dio p fsz).length ≤ (ioNr p fsz).toNat := by
  unfold mslIoBiorqs
  split_ifs
  · exact zero_le _
  · exact (length_buildLoop _ _ _ _ _ _ _).le

theorem length_mslIoBiorqs (hs : Spans p fsz) :
    (mslIoBiorqs dio p fsz).length = lastBmap p fsz - p.off / slashBmapSize + 1 := by
  rw [mslIoBiorqs, if_neg hs.not_pastEof, length_buildLoop, ioNr_eq hs, Int.toNat_natCast]

end

theorem mslIoBiorqs_tile (dio : ℕ → Bool) (hs : Spans p fsz) :
    (mslIoBiorqs dio p fsz).flatMap (fun r => window (byBmap f) r.foff r.rq.len) =
        window (byBmap f) p.off (ioSize p fsz) ∧
      ∀ r ∈ mslIoBiorqs dio p fsz, Inside dio (p.off + ioSize p fsz) r := by
  have hnr := ioNr_eq hs
  have hpos := hs.1
  have hdiv := Nat.div_add_mod p.off slashBmapSize
  have hmod := Nat.mod_lt p.off (show 0 < slashBmapSize by decide)
  have hdiv' := Nat.div_add_mod (p.off + ioSize p fsz - 1) slashBmapSize
  have hmod' := Nat.mod_lt (p.off + ioSize p fsz - 1) (show 0 < slashBmapSize by decide)
  have hmono : p.off / slashBmapSize ≤ lastBmap p fsz := Nat.div_le_div_right (by omega)
  have hlast : lastBmap p fsz * slashBmapSize + (p.off + ioSize p fsz - 1) % slashBmapSize + 1 =
      p.off + ioSize p fsz := by
    have : slashBmapSize * lastBmap p fsz + _ = _ := hdiv'
    rw [Nat.mul_comm] at this
    omega
  have hcount : (lastBmap p fsz - p.off / slashBmapSize + 1) * slashBmapSize + p.off / slashBmapSize * slashBmapSize =
      lastBmap p fsz * slashBmapSize + slashBmapSize := by
    rw [← add_mul, ← Nat.succ_mul]
    congr 1
    omega
  rw [Nat.mul_comm] at hdiv
  rw [mslIoBiorqs, if_neg hs.not_pastEof, hnr]
  have htile := buildLoop_tile f dio (p.off / slashBmapSize) (lastBmap p fsz - p.off / slashBmapSize + 1) 0
    (p.off - p.off / slashBmapSize * slashBmapSize)
    (min (slashBmapSize - (p.off - p.off / slashBmapSize * slashBmapSize)) (ioSize p fsz)) (ioSize p fsz)
    ⟨fun hz => by omega, fun _ => by rw [zero_add, zero_add]; omega⟩
    (by rw [one_mul])
  rwa [show p.off / slashBmapSize * slashBmapSize + (p.off - p.off / slashBmapSize * slashBmapSize) = p.off by
    omega] at htile

/-! ### The bytes of a copy-out -/

def iovBytes (pages : List Page) (v : Iov) : List (Option Byte) :=
  window (fun o => pages[v.page]?.map fun e => e.base o) v.pos v.len

theorem copyoutLoop_bytes {valid : ℕ → Option Bool} (pages : List Page) (g : ℕ → Byte) :
    ∀ (es : List Page) (i toff tsize : ℕ) {out : List Iov}, (∀ e es', es = e :: es' → Enters (i = 0) e toff) →
      List.IsChain (fun a b => b.off = a.off + bmpcBufsz) es → (∀ j e, es[j]? = some e → pages[i + j]? = some e) →
      (∀ e ∈ es, ∀ o < bmpcBufsz, e.base o = g (e.off + o)) → copyoutLoop valid i es toff tsize = some out →
      out.flatMap (iovBytes pages) = window (fun o => some (g o)) toff tsize
  | [], i, toff, tsize, out, _, _, _, _, h => by
    simp only [copyoutLoop] at h
    split_ifs at h with h0
    cases h
    subst h0
    simp
  | e :: es, i, toff, tsize, out, hent, hch, hget, hg, h => by
    have he := hent e es rfl
    simp only [copyoutLoop] at h
    split_ifs at h with h0 hv
    · cases h
      subst h0
      simp
    obtain ⟨rest, hrest, rfl⟩ := Option.map_eq_some_iff.mp h
    have hn := nbytes_eq he tsize
    obtain ⟨hlo, hhi, -⟩ := he
    have hpage : pages[i]? = some e := hget 0 e rfl
    have hhead : iovBytes pages ⟨i, toff - e.off, e.nbytes (i = 0) toff tsize⟩ =
        window (fun o => some (g o)) toff (e.nbytes (i = 0) toff tsize) := by
      refine window_congr fun j hj => ?_
      have hj : j < e.nbytes (i = 0) toff tsize := hj
      change pages[i]?.map (fun e' => e'.base (toff - e.off + j)) = some (g (toff + j))
      rw [hpage, Option.map_some, hg e mem_cons_self _ (by omega)]
      congr 2
      omega
    have htail : rest.flatMap (iovBytes pages) = window (fun o => some (g o))
        (toff + e.nbytes (i = 0) toff tsize) (tsize - e.nbytes (i = 0) toff tsize) := by
      by_cases hmore : tsize - e.nbytes (i = 0) toff tsize = 0
      · -- nothing is left for the later pages
        rw [hmore] at hrest ⊢
        have hnil : rest = [] := by
          cases es <;> simpa [copyoutLoop] using hrest.symm
        rw [hnil]
        rfl
      refine copyoutLoop_bytes pages g es (i + 1) _ _ (fun e' es' hes => ?_) hch.tail (fun j e' hj => ?_)
        (fun e' he' => hg e' (mem_cons_of_mem e he')) hrest
      · rw [hes] at hch
        exact enters_next (hent e es rfl) (isChain_cons_cons.mp hch).1 hmore
      · rw [show i + 1 + j = i + (j + 1) by omega]
        exact hget (j + 1) e' hj
    rw [flatMap_cons, hhead, htail, ← window_add]
    congr 1
    omega

theorem copyoutLoop_sum {valid : ℕ → Option Bool} : ∀ (es : List Page) (i toff tsize : ℕ) {out : List Iov},
    copyoutLoop valid i es toff tsize = some out → (out.map Iov.len).sum = tsize
  | [], _, _, tsize, out, h => by
    simp only [copyoutLoop] at h
    split_ifs at h with h0
    cases h
    exact h0.symm
  | e :: es, i, toff, tsize, out, h => by
    simp only [copyoutLoop] at h
    split_ifs at h with h0 hv
    · cases h
      exact h0.symm
    obtain ⟨rest, hrest, rfl⟩ := Option.map_eq_some_iff.mp h
    have ih := copyoutLoop_sum es (i + 1) _ _ hrest
    have hle : e.nbytes (i = 0) toff tsize ≤ tsize := by
      unfold Page.nbytes
      split_ifs <;> exact Nat.min_le_right _ _
    rw [map_cons, sum_cons, ih]
    exact Nat.add_sub_cancel' hle

theorem mslPagesCopyout_sum_le {r : Biorq} {rf : ℕ} {pages : List Page} {out : List Iov}
    (h : mslPagesCopyout r rf pages = some out) : (out.map Iov.len).sum ≤ r.len := by
  simp only [mslPagesCopyout] at h
  split_ifs at h with hcut h0 h0
  · cases h
    exact zero_le _
  · rw [copyoutLoop_sum _ _ _ _ h]
    omega
  · cases h
    exact zero_le _
  · rw [copyoutLoop_sum _ _ _ _ h]

section Pages

variable (c : Contents) (r : Ioreq)

theorem mem_biorqPages (hd : r.dio = false) {e : Page} (he : e ∈ biorqPages c r) :
    e = c.page r.bno e.off ∧ e.off % bmpcBufsz = 0 := by
  simp only [biorqPages, hd, Bool.false_eq_true, if_false, mem_map] at he
  obtain ⟨i, -, rfl⟩ := he
  rw [c.page_off]
  refine ⟨rfl, ?_⟩
  simp only [bmpcBufsz]
  omega

theorem biorqPages_ne_nil (hd : r.dio = false) (hlen : 0 < r.rq.len) : biorqPages c r ≠ [] := by
  have hb : bmpcBufsz = 32768 := rfl
  simp only [biorqPages, hd, Bool.false_eq_true, if_false, ne_eq, map_eq_nil_iff, range_eq_nil, npages, hb]
  split_ifs
  · omega
  · exact not_false

theorem laid_biorqPages (hd : r.dio = false) : Laid r.rq (biorqPages c r) := by
  have hchain : List.IsChain (fun a b : Page => b.off = a.off + bmpcBufsz) (biorqPages c r) := by
    simp only [biorqPages, hd, Bool.false_eq_true, if_false]
    rw [isChain_map, isChain_range]
    intro i _
    rw [c.page_off, c.page_off, Nat.succ_mul]
    omega
  cases hp : biorqPages c r with
  | nil => trivial
  | cons e =>
    rw [hp] at hchain
    have hoff : e.off = r.rq.off - r.rq.off % bmpcBufsz := by
      simp only [biorqPages, hd, Bool.false_eq_true, if_false] at hp
      have h0 := congrArg head? hp
      simp only [head?_map, head?_range, head?_cons] at h0
      split_ifs at h0 with hz
      · cases h0
      · simp only [Option.map_some, Option.some.injEq, Nat.zero_mul, Nat.add_zero] at h0
        rw [← h0, c.page_off]
    refine ⟨by omega, ?_, hchain⟩
    rw [hoff]
    simp only [bmpcBufsz]
    omega

theorem mslPagesCopyout_bytes (hd : r.dio = false) (hdio : c.dio r.bno = false) (hlen : 0 < r.rq.len)
    {rf : ℕ} (hrf : r.rq.off + r.rq.len ≤ rf) {out : List Iov}
    (h : mslPagesCopyout r.rq rf (biorqPages c r) = some out) :
    out.flatMap (iovBytes (biorqPages c r)) = window (fun o => some (c.bmapByte r.bno o)) r.rq.off r.rq.len := by
  have hlaid := laid_biorqPages c r hd
  have hne := biorqPages_ne_nil c r hd hlen
  simp only [mslPagesCopyout, if_neg (Nat.not_lt.mpr hrf), hlen.ne', hne, or_self, if_false] at h
  refine copyoutLoop_bytes (biorqPages c r) (c.bmapByte r.bno) (biorqPages c r) 0 _ _ (fun e es hes => ?_)
    ?_ (fun j e hj => by rwa [zero_add]) (fun e he o ho => ?_) h
  · rw [hes] at hlaid
    exact ⟨hlaid.1, hlaid.2.1, fun hf => by simp at hf⟩
  · cases hp : biorqPages c r with
    | nil => exact isChain_nil
    | cons =>
      rw [hp] at hlaid
      exact hlaid.2.2
  · obtain ⟨hpage, hmod⟩ := mem_biorqPages c r hd he
    have h1 : (e.off + o) % bmpcBufsz = o := by
      rw [Nat.add_mod, hmod, zero_add, Nat.mod_mod, Nat.mod_eq_of_lt ho]
    rw [Contents.bmapByte, hdio, if_neg Bool.false_ne_true, h1, Nat.add_sub_cancel, ← hpage]

end Pages

end Slash2.Client.Io
