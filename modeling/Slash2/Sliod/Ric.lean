/-
# Reads and writes of a client at an I/O server

`sli_ric_handle_io` checks a request and cuts it at the slivers, of which it may use two. After
the bulk transfer of a write `sli_ric_write_sliver` writes the blocks back, from the start of the
first, and the slivers are released.

Key theorems: `io_split_iff`, `write_back`, `failed_write_unpublished_iff`.
-/
import Slash2.Residency.Replicate
import Slash2.Sliod.Slvr

namespace Slash2.Ric

open Residency Sliver List

def lnetMtu : ℕ := 1024 * 1024

def slashSlvrBlksz : ℕ := 32 * 1024

def slashBlksPerSlvr : ℕ := slashSlvrSize / slashSlvrBlksz

/-- The part of `len` bytes at `roff` of a sliver. -/
structure Part where
  slvr : ℕ
  roff : ℕ
  len : ℕ
  deriving DecidableEq

/-- Where it starts in the bmap. -/
def Part.start (p : Part) : ℕ := p.slvr * slashSlvrSize + p.roff

def slvrnoOf (off : ℕ) : ℕ := off / slashSlvrSize

/-- `roff`, in the sliver -/
def roffOf (off : ℕ) : ℕ := off - slvrnoOf off * slashSlvrSize

/-! ### Cutting at slivers -/

/-- What is `tsize` long from `roff` of sliver `slvrno` on, cut at `n` slivers. -/
def cut : ℕ → ℕ → ℕ → ℕ → List Part
  | 0, _, _, _ => []
  | n + 1, slvrno, roff, tsize =>
    let len := min tsize (slashSlvrSize - roff)
    ⟨slvrno, roff, len⟩ :: cut n (slvrno + 1) 0 (tsize - len)

/-- It ends in the last of `n` slivers. -/
structure Fits (n roff tsize : ℕ) : Prop where
  roff_lt : roff < slashSlvrSize
  le : roff + tsize ≤ n * slashSlvrSize
  last : n ≠ 0 → 0 < tsize ∧ (n - 1) * slashSlvrSize < roff + tsize

/-- The parts, in order, are what is from `a` to `b`. -/
def Tiles (b : ℕ) : ℕ → List Part → Prop
  | a, [] => a = b
  | a, p :: ps => p.start = a ∧ Tiles b (a + p.len) ps

/-- The part is inside its sliver, which is one of the bmap. -/
structure Part.Inside (p : Part) : Prop where
  slvr_lt : p.slvr < slashSlvrsPerBmap
  pos : 0 < p.len
  le : p.roff + p.len ≤ slashSlvrSize

variable {n slvrno roff tsize : ℕ}

theorem slvrSize_eq : slashSlvrSize = 1048576 := rfl

theorem Fits.head (h : Fits (n + 1) roff tsize) : 0 < min tsize (slashSlvrSize - roff) :=
  Nat.lt_min.mpr ⟨(h.last n.succ_ne_zero).1, Nat.sub_pos_of_lt h.roff_lt⟩

theorem Fits.tail (h : Fits (n + 1) roff tsize) : Fits n 0 (tsize - min tsize (slashSlvrSize - roff)) := by
  obtain ⟨hr, hle, hlast⟩ := h
  have hl := (hlast n.succ_ne_zero).2
  rw [slvrSize_eq] at hr hle hl
  refine ⟨Nat.zero_lt_of_lt hr, ?_, fun hn => ?_⟩
  all_goals
    rewrite [slvrSize_eq]
    omega

/-- Past the end of a sliver the next starts. -/
theorem Fits.next (h : Fits (n + 2) roff tsize) :
    slvrno * slashSlvrSize + roff + min tsize (slashSlvrSize - roff) = (slvrno + 1) * slashSlvrSize + 0 := by
  have hr := h.roff_lt
  have hl := (h.last (n + 1).succ_ne_zero).2
  rw [slvrSize_eq] at hr hl ⊢
  omega

theorem cut_tiles : ∀ {n k roff tsize : ℕ}, Fits n roff tsize →
    Tiles (k * slashSlvrSize + roff + tsize) (k * slashSlvrSize + roff) (cut n k roff tsize)
  | 0, _, _, _, h => by
    have := h.le
    simp only [cut, Tiles]
    omega
  | 1, _, _, _, h => by
    have := h.le
    simp only [cut, Tiles, Part.start, true_and]
    omega
  | n + 2, slvrno, roff, tsize, h => by
    refine ⟨rfl, ?_⟩
    have hb : slvrno * slashSlvrSize + roff + tsize =
        (slvrno + 1) * slashSlvrSize + 0 + (tsize - min tsize (slashSlvrSize - roff)) := by
      rw [← h.next]
      omega
    rw [h.next, hb]
    exact cut_tiles h.tail

theorem cut_inside : ∀ {n slvrno roff tsize : ℕ}, Fits n roff tsize → slvrno + n ≤ slashSlvrsPerBmap →
    ∀ p ∈ cut n slvrno roff tsize, p.Inside
  | 0, _, _, _, _, _ => by simp [cut]
  | n + 1, slvrno, roff, tsize, h, hn => by
    have hle : roff + min tsize (slashSlvrSize - roff) ≤ slashSlvrSize := by
      have := h.roff_lt
      omega
    have hlt : slvrno < slashSlvrsPerBmap := Nat.lt_of_lt_of_le (Nat.lt_add_of_pos_right n.succ_pos) hn
    exact forall_mem_cons.mpr ⟨⟨hlt, h.head, hle⟩, cut_inside h.tail (by omega)⟩

theorem length_cut : ∀ n slvrno roff tsize, (cut n slvrno roff tsize).length = n
  | 0, _, _, _ => rfl
  | n + 1, _, _, _ => congrArg Nat.succ (length_cut n _ _ _)

/-- Each byte is in one of the parts. -/
theorem Tiles.mem {b : ℕ} : ∀ {a : ℕ} {ps : List Part}, Tiles b a ps → ∀ {x}, a ≤ x → x < b →
    ∃ p ∈ ps, p.start ≤ x ∧ x < p.start + p.len
  | _, [], h, x, hax, hxb => absurd (h ▸ hax) (Nat.not_le.mpr hxb)
  | a, p :: ps, ⟨hp, hps⟩, x, hax, hxb => by
    rcases Nat.lt_or_ge x (a + p.len) with hx | hx
    · exact ⟨p, mem_cons_self, by rwa [hp], by rwa [hp]⟩
    · obtain ⟨q, hq, hx⟩ := hps.mem hx hxb
      exact ⟨q, mem_cons_of_mem p hq, hx⟩

/-- No part leaves what is from `a` to `b`. -/
theorem Tiles.within {b : ℕ} : ∀ {a : ℕ} {ps : List Part}, Tiles b a ps →
    a ≤ b ∧ ∀ p ∈ ps, a ≤ p.start ∧ p.start + p.len ≤ b
  | _, [], h => ⟨h.le, by simp⟩
  | a, p :: ps, ⟨hp, hps⟩ => by
    obtain ⟨hab, hin⟩ := hps.within
    refine ⟨by omega, forall_mem_cons.mpr ⟨⟨hp.ge, by rwa [hp]⟩, fun q hq => ?_⟩⟩
    exact ⟨(Nat.le_add_right a p.len).trans (hin q hq).1, (hin q hq).2⟩

/-! ### The parts of a request -/

/-- `struct srm_io_req`; `bench` is `SRM_IOF_BENCH`. -/
structure IoReq where
  size : Fin 0x100000000
  offset : Fin 0x100000000
  bench : Bool

variable (mq : IoReq)

/-- `mq->offset + mq->size`, of 32 bits. -/
def IoReq.sum : ℕ := (mq.offset + mq.size : ℕ) % 0x100000000

/-- What `slvr_io_prep` returns. -/
inductive Prep where
  | ready
  | aiowait
  | error (rc : ℤ)

inductive Split where
  | refused (rc : ℤ)
  | bench
  | failed (rc : ℤ) (ps : List Part)
  /-- an assertion fails -/
  | asserts
  | parts (needaio : Bool) (ps : List Part)
  deriving DecidableEq

def Split.cons (p : Part) : Split → Split
  | .failed rc ps => .failed rc (p :: ps)
  | .parts aio ps => .parts aio (p :: ps)
  | s => s

/-- The loop over so many slivers, from `slvrno` on. -/
def splitLoop (prep : ℕ → Prep) : ℕ → ℕ → ℕ → ℕ → Bool → Split
  | 0, _, _, tsize, needaio => if tsize ≠ 0 then .asserts else .parts needaio []
  | n + 1, slvrno, roff, tsize, needaio =>
    let len := min tsize (slashSlvrSize - roff)
    match prep slvrno with
    | .error rc => .failed rc [⟨slvrno, roff, len⟩]
    | r =>
      if len = 0 then .asserts
      else (splitLoop prep n (slvrno + 1) 0 (tsize - len) (needaio || r matches .aiowait)).cons ⟨slvrno, roff, len⟩

def IoReq.nslvrs : ℕ :=
  if slvrnoOf ((mq.sum + 0xffffffff) % 0x100000000) > slvrnoOf mq.offset then 2 else 1

/-- `sli_ric_handle_io` up to the bulk transfer; `rc` is the first code of its other checks, `sli_fcmh_get` and
`bmap_get`. -/
def sliRicHandleIo (rc : ℤ) (prep : ℕ → Prep) : Split :=
  if mq.size.val = 0 ∨ mq.size > lnetMtu then .refused (-einval)
  else if mq.bench then .bench
  else if mq.sum > slashBmapSize then .refused (-erange)
  else if rc ≠ 0 then .refused rc
  else splitLoop prep mq.nslvrs (slvrnoOf mq.offset) (roffOf mq.offset) mq.size false

/-- Parts inside slivers that tile the request, or an error. -/
def Split.Right : Split → Prop
  | .refused _ | .bench => True
  | .failed _ ps => ∀ p ∈ ps, p.Inside
  | .asserts => False
  | .parts _ ps => ps.length ≤ 2 ∧ (∀ p ∈ ps, p.Inside) ∧ Tiles (mq.offset + mq.size) mq.offset ps

/-- It is refused for its size, or the sum does not wrap. -/
def IoReq.Plain : Prop :=
  mq.size.val = 0 ∨ lnetMtu < mq.size ∨ mq.bench ∨ (mq.offset + mq.size : ℕ) < 0x100000000

theorem splitLoop_cut (prep : ℕ → Prep) : ∀ {n k roff tsize : ℕ} (aio : Bool), Fits n roff tsize →
    (∃ rc ps, splitLoop prep n k roff tsize aio = .failed rc ps ∧ ps <+: cut n k roff tsize) ∨
      ∃ aio', splitLoop prep n k roff tsize aio = .parts aio' (cut n k roff tsize)
  | 0, _, roff, tsize, aio, h => by
    have := h.le
    exact .inr ⟨aio, if_neg (by omega)⟩
  | n + 1, slvrno, roff, tsize, aio, h => by
    have hlen := Nat.pos_iff_ne_zero.mp h.head
    have hnext (aio') := splitLoop_cut prep (k := slvrno + 1) aio' h.tail
    rw [cut]
    cases hp : prep slvrno with
    | error rc => exact .inl ⟨rc, _, by rw [splitLoop, hp], prefix_append [_] _⟩
    | _ =>
      rw [splitLoop, hp]
      simp only [if_neg hlen]
      rcases hnext _ with ⟨rc, ps, hs, hps⟩ | ⟨aio', hs⟩
      · exact .inl ⟨rc, _ :: ps, by rw [hs, Split.cons], cons_prefix_cons.mpr ⟨rfl, hps⟩⟩
      · exact .inr ⟨aio', by rw [hs, Split.cons]⟩

variable {mq}

theorem fits_of_inside (h0 : mq.size.val ≠ 0) (hmtu : mq.size ≤ lnetMtu)
    (hin : (mq.offset + mq.size : ℕ) ≤ slashBmapSize) : slvrnoOf mq.offset + mq.nslvrs ≤ slashSlvrsPerBmap ∧
      mq.nslvrs ≤ 2 ∧ Fits mq.nslvrs (roffOf mq.offset) mq.size := by
  have hsum : mq.sum = mq.offset + mq.size := Nat.mod_eq_of_lt (Nat.lt_of_le_of_lt hin (by decide))
  rw [IoReq.nslvrs, roffOf, slvrnoOf, slvrnoOf]
  have hmtu' : mq.size.val ≤ 1048576 := hmtu
  have hin' : (mq.offset + mq.size : ℕ) ≤ 134217728 := hin
  rw [slvrSize_eq, show slashSlvrsPerBmap = 128 from rfl]
  split
  all_goals
    refine ⟨by omega, by omega, ?_, ?_, fun _ => ⟨by omega, ?_⟩⟩
    all_goals
      rewrite [slvrSize_eq]
      omega

theorem split_right (h0 : mq.size.val ≠ 0) (hmtu : mq.size ≤ lnetMtu)
    (hin : (mq.offset + mq.size : ℕ) ≤ slashBmapSize) (prep : ℕ → Prep) :
    (splitLoop prep mq.nslvrs (slvrnoOf mq.offset) (roffOf mq.offset) mq.size false).Right mq := by
  obtain ⟨hn, hle, hf⟩ := fits_of_inside h0 hmtu hin
  have hoff : slvrnoOf mq.offset * slashSlvrSize + roffOf mq.offset = mq.offset.val :=
    Nat.add_sub_of_le (Nat.div_mul_le_self _ _)
  rcases splitLoop_cut prep false hf with ⟨rc, ps, hs, hps⟩ | ⟨aio, hs⟩
  · rw [hs]
    exact fun p hp => cut_inside hf hn p (hps.subset hp)
  rw [hs]
  refine ⟨(length_cut ..).trans_le hle, cut_inside hf hn, ?_⟩
  have := cut_tiles (k := slvrnoOf mq.offset) hf
  rwa [hoff] at this

/-- Past the wrap the request is at sliver 4095. -/
theorem split_wrapped (h0 : ¬ (mq.size.val = 0 ∨ mq.size > lnetMtu)) (hw : 0x100000000 ≤ (mq.offset + mq.size : ℕ)) :
    mq.sum ≤ slashBmapSize ∧ slvrnoOf mq.offset = 4095 ∧ mq.nslvrs = 1 := by
  obtain ⟨h0, hmtu⟩ := not_or.mp h0
  have hmtu' : mq.size.val ≤ 1048576 := Nat.not_lt.mp hmtu
  have hsum : mq.sum = mq.offset + mq.size - 0x100000000 := by
    rw [IoReq.sum]
    omega
  refine ⟨?_, ?_, if_neg ?_⟩
  · rw [show slashBmapSize = 134217728 from rfl]
    omega
  all_goals
    simp only [slvrnoOf]
    rewrite [slvrSize_eq]
    omega

/-- **Requests are cut at slivers of the bmap** exactly if the sum of offset and size does not wrap. -/
theorem io_split_iff (mq : IoReq) : (∀ rc prep, (sliRicHandleIo mq rc prep).Right mq) ↔ mq.Plain := by
  constructor
  · intro h
    by_contra hp
    obtain ⟨h0, hmtu, hb, hw⟩ : mq.size.val ≠ 0 ∧ ¬ lnetMtu < mq.size ∧ mq.bench ≠ true ∧
        ¬ (mq.offset + mq.size : ℕ) < 0x100000000 := by simpa [IoReq.Plain] using hp
    have hsize : ¬ (mq.size.val = 0 ∨ mq.size > lnetMtu) := not_or.mpr ⟨h0, hmtu⟩
    obtain ⟨hsum, hslvr, hn⟩ := split_wrapped hsize (Nat.not_lt.mp hw)
    -- the sliver is looked up, and `slvr_io_prep` fails
    have hright := h 0 fun _ => .error 1
    rw [sliRicHandleIo, if_neg hsize, if_neg hb, if_neg (Nat.not_lt.mpr hsum), if_neg (not_not.mpr rfl), hn,
      hslvr] at hright
    have hlt : 4095 < slashSlvrsPerBmap := (hright _ mem_cons_self).slvr_lt
    exact absurd hlt (by decide)
  · intro h rc prep
    rw [sliRicHandleIo]
    split_ifs with hsize hb hsum hrc
    all_goals try exact trivial
    obtain ⟨h0, hmtu⟩ := not_or.mp hsize
    have hw : (mq.offset + mq.size : ℕ) < 0x100000000 := by
      rcases h with h | h | h | h
      exacts [absurd h h0, absurd h hmtu, absurd h hb, h]
    rw [IoReq.sum, Nat.mod_eq_of_lt hw] at hsum
    exact split_right h0 (Nat.not_lt.mp hmtu) (Nat.not_lt.mp hsum) prep

/-- **A wrapped request** is at sliver 4095. -/
theorem io_split_wrapped : ∃ ps, sliRicHandleIo ⟨2, 0xffffffff, false⟩ 0 (fun _ => .error 5) = .failed 5 ps ∧
    ∃ p ∈ ps, p.slvr = 4095 :=
  ⟨[⟨4095, 1048575, 1⟩], by decide +kernel, _, mem_cons_self, rfl⟩

/-! ### Writing back -/

/-- A range of a bmap that a write may have. -/
structure Extent where
  off : ℕ
  size : ℕ
  pos : 0 < size
  le : size ≤ lnetMtu
  inside : off + size ≤ slashBmapSize

/-- The slivers that cover it. -/
def Extent.nslvrs (e : Extent) : ℕ := slvrnoOf (e.off + e.size - 1) - slvrnoOf e.off + 1

/-- The code of a write, the size left and the writes issued, each at the byte `off` of `slvr_fsio`. -/
structure Written where
  rc : ℤ
  left : ℕ
  writes : List Part

/-- The loop of `sli_ric_write_sliver`; `errno` is zero for a sliver that can be written. Asynchronous waits are for
reads only. -/
def writeLoop (errno : ℕ → ℕ) : ℕ → ℕ → ℕ → ℕ → Written
  | 0, _, _, tsize => ⟨0, tsize, []⟩
  | n + 1, slvrno, sblk, tsize =>
    let tsz := min ((slashBlksPerSlvr - sblk) * slashSlvrBlksz) tsize
    let w : Part := ⟨slvrno, sblk * slashSlvrBlksz, tsz⟩
    if errno slvrno ≠ 0 then ⟨-errno slvrno, tsize - tsz, [w]⟩
    else
      let r := writeLoop errno n (slvrno + 1) 0 (tsize - tsz)
      ⟨r.rc, r.left, w :: r.writes⟩

/-- `sli_ric_write_sliver` up to its assertion. -/
def sliRicWriteSliver (off size nslvrs : ℕ) (errno : ℕ → ℕ) : Written :=
  writeLoop errno nslvrs (slvrnoOf off) (roffOf off / slashSlvrBlksz) (size + (roffOf off &&& slashSlvrBlksz - 1))

/-- What is written, and that the assertion of `sli_ric_write_sliver` holds. -/
structure WrittenBack (e : Extent) (errno : ℕ → ℕ) (r : Written) : Prop where
  aligned : ∀ w ∈ r.writes, w.roff % slashSlvrBlksz = 0
  inside : ∀ w ∈ r.writes, w.Inside
  within : ∀ w ∈ r.writes, e.off / slashSlvrBlksz * slashSlvrBlksz ≤ w.start ∧ w.start + w.len ≤ e.off + e.size
  /-- unless an earlier write than the last fails -/
  covers : (∀ i, slvrnoOf e.off ≤ i → i + 1 < slvrnoOf e.off + e.nslvrs → errno i = 0) →
    ∀ x, e.off ≤ x → x < e.off + e.size → ∃ w ∈ r.writes, w.start ≤ x ∧ x < w.start + w.len
  left : r.rc = 0 → r.left = 0

/-- The rest of the blocks of a sliver is the rest of its bytes. -/
theorem blocks_left (sblk : ℕ) :
    (slashBlksPerSlvr - sblk) * slashSlvrBlksz = slashSlvrSize - sblk * slashSlvrBlksz := Nat.sub_mul ..

theorem writeLoop_cut (errno : ℕ → ℕ) : ∀ {n k sblk tsize : ℕ}, Fits n (sblk * slashSlvrBlksz) tsize →
    let r := writeLoop errno n k sblk tsize
    r.writes <+: cut n k (sblk * slashSlvrBlksz) tsize ∧ (∀ w ∈ r.writes, w.roff % slashSlvrBlksz = 0) ∧
      ((∀ i, k ≤ i → i + 1 < k + n → errno i = 0) → r.writes = cut n k (sblk * slashSlvrBlksz) tsize) ∧
      (r.rc = 0 → r.left = 0)
  | 0, _, _, tsize, h => by
    refine ⟨prefix_rfl, by simp [writeLoop], fun _ => rfl, fun _ => ?_⟩
    have := h.le
    simp only [writeLoop]
    omega
  | n + 1, slvrno, sblk, tsize, h => by
    have htail := h.tail
    rw [min_comm] at htail
    simp only [writeLoop, cut, blocks_left, min_comm tsize]
    split_ifs with he
    · refine ⟨prefix_append [_] _, by simp, fun hok => ?_, fun hrc => ?_⟩
      · -- an error at the last sliver leaves nothing out
        obtain rfl : n = 0 := by_contra fun hn => he (hok slvrno (Nat.le_refl _) (by omega))
        rfl
      · exact absurd (Int.neg_eq_zero.mp hrc) (Int.natCast_ne_zero.mpr he)
    have hz : 0 = 0 * slashSlvrBlksz := (Nat.zero_mul _).symm
    obtain ⟨hpre, hal, hall, hleft⟩ := writeLoop_cut errno (hz ▸ htail)
    rw [← hz] at hpre hall
    refine ⟨cons_prefix_cons.mpr ⟨rfl, hpre⟩, forall_mem_cons.mpr ⟨Nat.mul_mod_left .., hal⟩, fun hok => ?_, hleft⟩
    rw [hall fun i hi hn => hok i (Nat.le_of_succ_le hi) (by omega)]

variable {e : Extent}

theorem Extent.fits : slvrnoOf e.off + e.nslvrs ≤ slashSlvrsPerBmap ∧
      Fits e.nslvrs (roffOf e.off / slashSlvrBlksz * slashSlvrBlksz) (e.size + roffOf e.off % slashSlvrBlksz) := by
  obtain ⟨off, size, hpos, hle, hin⟩ := e
  have hin' : off + size ≤ 134217728 := hin
  simp only [Extent.nslvrs, roffOf, slvrnoOf]
  rw [slvrSize_eq, show slashSlvrsPerBmap = 128 from rfl, show slashSlvrBlksz = 32768 from rfl]
  refine ⟨by omega, ?_, ?_, fun _ => ⟨by omega, ?_⟩⟩
  all_goals
    rewrite [slvrSize_eq]
    omega

/-- The first block, and the end, in the bmap. -/
theorem Extent.ends : slvrnoOf e.off * slashSlvrSize + roffOf e.off / slashSlvrBlksz * slashSlvrBlksz =
        e.off / slashSlvrBlksz * slashSlvrBlksz ∧
      e.off / slashSlvrBlksz * slashSlvrBlksz + (e.size + roffOf e.off % slashSlvrBlksz) = e.off + e.size := by
  rw [roffOf, slvrnoOf, slvrSize_eq, show slashSlvrBlksz = 32768 from rfl]
  omega

/-- **Blocks are written back** from the first that a write touches to its end. -/
theorem write_back (e : Extent) (errno : ℕ → ℕ) :
    WrittenBack e errno (sliRicWriteSliver e.off e.size e.nslvrs errno) := by
  obtain ⟨hn, hf⟩ := e.fits
  obtain ⟨hstart, hend⟩ := e.ends
  have htiles := cut_tiles (k := slvrnoOf e.off) hf
  rw [hstart, hend] at htiles
  obtain ⟨hpre, hal, hall, hleft⟩ := writeLoop_cut errno hf
  have hr := (Nat.and_two_pow_sub_one_eq_mod (roffOf e.off) 15).symm
  simp only [show 2 ^ 15 = slashSlvrBlksz from rfl] at hr
  rw [sliRicWriteSliver, ← hr]
  refine ⟨hal, fun w hw => cut_inside hf hn w (hpre.subset hw), fun w hw => htiles.within.2 w (hpre.subset hw),
    fun hok x hx hlt => ?_, hleft⟩
  rw [hall hok]
  exact htiles.mem ((Nat.div_mul_le_self ..).trans hx) hlt

/-! ### The end of a write -/

/-- A write whose slivers were prepared by `slvr_io_prep`, and read by AIO before the bulk transfer if they had to be. -/
structure WriteRq where
  extent : Extent
  slvrs : List Slvr
  slvrs_length : slvrs.length = extent.nslvrs
  prepared : ∀ s ∈ slvrs, s.dataerr = false ∧ s.refcnt ≠ 0 ∧ s.lru = s.onLru

/-- `sli_ric_handle_io` of a write from the bulk transfer on: `mp->rc`, and the slivers before and after. -/
def sliRicHandleWrite (q : WriteRq) (bulkRc : ℤ) (errno : ℕ → ℕ) : ℤ × List (Slvr × Unpin) :=
  let out (rc : ℤ) := q.slvrs.map fun s => (s, slvrWioDone (slvrIoDone s rc))
  if bulkRc ≠ 0 then (bulkRc, out bulkRc)
  -- the code is in `mp->rc`; `rc` is still zero
  else ((sliRicWriteSliver q.extent.off q.extent.size q.slvrs.length errno).rc, out 0)

/-- The write of a sliver fails. -/
def WriteFails (q : WriteRq) (bulkRc : ℤ) (errno : ℕ → ℕ) : Prop :=
  bulkRc = 0 ∧ (sliRicWriteSliver q.extent.off q.extent.size q.slvrs.length errno).rc ≠ 0

/-- The client gets the error, and no sliver is ready, or newly scheduled for its CRC. -/
structure Unpublished (q : WriteRq) (errno : ℕ → ℕ) (r : ℤ × List (Slvr × Unpin)) : Prop where
  rc : r.1 = (sliRicWriteSliver q.extent.off q.extent.size q.slvrs.length errno).rc
  slvrs : ∀ p ∈ r.2, ∀ t, p.2 = .keep t → t.datardy = false ∧ (t.onCrcq → p.1.onCrcq)

/-- A prepared sliver is ready after the code zero. -/
theorem wioDone_ready {s : Slvr} (he : s.dataerr = false) (hr : s.refcnt ≠ 0) (hl : s.lru = s.onLru) :
    ∃ t, slvrWioDone (slvrIoDone s 0) = .keep t ∧ t.datardy := by
  cases h : s.onLru <;> simp [slvrWioDone, slvrIoDone, slvrScheduleCrc, he, hr, hl, h]

/-- **Failed writes are published**: they are not exactly if none fails. -/
theorem failed_write_unpublished_iff (q : WriteRq) (bulkRc : ℤ) (errno : ℕ → ℕ) :
    (WriteFails q bulkRc errno → Unpublished q errno (sliRicHandleWrite q bulkRc errno)) ↔
      ¬ WriteFails q bulkRc errno := by
  refine ⟨fun h hf => ?_, fun h hf => absurd hf h⟩
  have hu := (h hf).slvrs
  rw [sliRicHandleWrite, if_neg (not_not.mpr hf.1)] at hu
  obtain ⟨s, hs⟩ := exists_mem_of_length_pos (by rw [q.slvrs_length]; exact Nat.succ_pos _)
  obtain ⟨he, hr, hl⟩ := q.prepared s hs
  obtain ⟨t, ht, hrdy⟩ := wioDone_ready he hr hl
  exact Bool.noConfusion (hrdy.symm.trans (hu _ (mem_map_of_mem hs) t ht).1)

/-- A write of a byte, and its sliver. -/
def oneByte : WriteRq where
  extent := ⟨0, 1, Nat.one_pos, Nat.le_of_ble_eq_true rfl, Nat.le_of_ble_eq_true rfl⟩
  slvrs := [{ slvrNew with faulting := true }]
  slvrs_length := rfl
  prepared := by simp [slvrNew]

/-- **A failed write is published**: the client gets the error, and the CRC is scheduled. -/
theorem failed_write_published : WriteFails oneByte 0 (fun _ => 5) ∧ (sliRicHandleWrite oneByte 0 fun _ => 5).1 = -5 ∧
    ∃ p ∈ (sliRicHandleWrite oneByte 0 fun _ => 5).2, ∃ t, p.2 = .keep t ∧ t.datardy = true ∧ p.1.onCrcq = false ∧
      t.onCrcq = true :=
  ⟨⟨rfl, by decide⟩, rfl, _, mem_cons_self, _, rfl, rfl, rfl, rfl⟩

end Slash2.Ric
