/-
# A request is cut into biorqs, and tried again

`msl_io` goes through the bmaps that a request covers, looks each one up and builds a biorq for its part. If a bmap
cannot be had the thread may try again from the start; biorqs that exist are kept. The offset and the lengths are set
anew then, but the buffer is not: it has been advanced by the part in the first bmap, and is advanced once more. The
number of a bmap is an `sl_bmapno_t`, so that one from `2 ^ 32` on is taken for another one.

Key definitions: `mslIoSplit`, `Split`, `Straight`, `Numbered`. Key theorems: `ioPass_two`, `split_iff`, `buffer_skipped`.
-/
import Slash2.Client.Fsrq

namespace Slash2.Client.Io

open Lib List Option
open Residency (slashBmapSize)

/-! ### Building biorqs -/

/-- `biorq_buf` -/
inductive Buf where
  | null
  | app (p : ℕ)
  /-- allocated by `bmpc_biorq_new`, for a read with direct I/O -/
  | own
  deriving DecidableEq

structure Built where
  rq : Ioreq
  buf : Buf

/-- `msl_biorq_build` with `bmpc_biorq_new` -/
def mslBiorqBuild (dio : ℕ → Bool) (rw : Rw) (buf : Option ℕ) (bno roff len : ℕ) : Option Built :=
  if len = 0 ∨ slashBmapSize < roff + len then none
  else
    some ⟨⟨bno, ⟨roff, len⟩, dio bno⟩, if dio bno ∧ rw = .read then .own else (buf.map Buf.app).getD .null⟩

/-- What a pass leaves to the next one: `buf`, and `mfsrq_biorq` -/
structure Carried where
  buf : Option ℕ
  biorqs : List Built

def Carried.biorq (io : Carried) (dio : ℕ → Bool) (rw : Rw) (start i roff tlen : ℕ) : Option Carried :=
  match io.biorqs[i]? with
  | some _ => some io
  | none =>
    (mslBiorqBuild dio rw io.buf ((start + i) % 0x100000000) (roff - i * slashBmapSize) tlen).map fun r =>
      { io with biorqs := io.biorqs ++ [r] }

/-- The loop of step 1, with `n` bmaps to go. -/
def splitLoop (dio : ℕ → Bool) (rw : Rw) (start : ℕ) (fail : Option ℕ) : ℕ → ℕ → ℕ → ℕ → ℕ → Carried → Option Carried
  | 0, _, _, _, _, io => some io
  | n + 1, i, roff, tlen, tsize, io =>
    if tsize = 0 then none
    else if fail = some i then some io
    else do
      let io ← io.biorq dio rw start i roff tlen
      if n = 0 then some io
      else
        splitLoop dio rw start fail n (i + 1) (roff + tlen) (min slashBmapSize (tsize - tlen)) (tsize - tlen)
          { io with buf := io.buf.map (· + tlen) }

/-- `msl_io` from `restart` to step 2 -/
def ioPass (dio : ℕ → Bool) (p : Request) (fsz : ℕ) (io : Carried) (fail : Option ℕ) : Option Carried :=
  let start := p.off / slashBmapSize
  let roff := p.off - start * slashBmapSize
  splitLoop dio p.rw start fail (ioNr p fsz).toNat 0 roff (min (slashBmapSize - roff) (ioSize p fsz)) (ioSize p fsz) io

/-- The buffer that `mslfsop_write` and `mslfsop_read` hand over. -/
def Request.appBuf (p : Request) (buf : ℕ) : Option ℕ := if p.rw = .write then some buf else none

/-- The biorqs of `msl_io` after these passes -/
def mslIoSplit (dio : ℕ → Bool) (p : Request) (fsz buf : ℕ) (passes : List (Option ℕ)) : Option (List Built) :=
  if (maxBmapsReq : ℤ) < ioNr p fsz ∨ pastEof p fsz then some []
  else (passes.foldlM (ioPass dio p fsz) ⟨p.appBuf buf, []⟩).map Carried.biorqs

/-- **The biorqs are the parts of the range**, with their bytes. -/
structure Split (p : Request) (fsz buf : ℕ) (bs : List Built) : Prop where
  part : ∀ (i : ℕ) b, bs[i]? = some b → b.rq.bno = p.off / slashBmapSize + i ∧
    ∀ x, InSpan b.rq.foff b.rq.rq.len x ↔ InSpan p.off (ioSize p fsz) x ∧ x / slashBmapSize = b.rq.bno
  whole : bs.length = (ioNr p fsz).toNat → ∀ x, InSpan p.off (ioSize p fsz) x →
    ∃! i : ℕ, ∃ b, bs[i]? = some b ∧ InSpan b.rq.foff b.rq.rq.len x
  buffer : p.rw = .write → ∀ b ∈ bs, b.buf = .app (buf + (b.rq.foff - p.off))

def stopped (fail : Option ℕ) : Bool := fail = some 0 || fail = some 1

/-- No write, one bmap, or no pass finds only the first bmap. -/
def Straight (p : Request) (fsz : ℕ) (passes : List (Option ℕ)) : Prop :=
  p.rw = .read ∨ ioNr p fsz = 1 ∨ some 1 ∉ passes.takeWhile stopped ∨ ∀ x ∈ passes, stopped x
  deriving Decidable

/-- A bmap that some pass gets has a number that fits an `sl_bmapno_t`. -/
def Numbered (p : Request) (fsz : ℕ) (passes : List (Option ℕ)) : Prop :=
  ∀ i < (ioNr p fsz).toNat, (∃ x ∈ passes, ∀ k ∈ x, i < k) → p.off / slashBmapSize + i < 0x100000000

instance (p : Request) (fsz : ℕ) (passes : List (Option ℕ)) : Decidable (Numbered p fsz passes) :=
  inferInstanceAs (Decidable (∀ i < (ioNr p fsz).toNat, (∃ x ∈ passes, ∀ k ∈ x, i < k) → _))

/-! ### One pass -/

section
variable (dio : ℕ → Bool) (p : Request) (fsz buf : ℕ)

def Request.roff : ℕ := p.off - p.off / slashBmapSize * slashBmapSize

def firstLen : ℕ := min (slashBmapSize - p.roff) (ioSize p fsz)

/-- The pointer to a biorq's bytes, `k` times past the first bmap. -/
def bufAfter (k : ℕ) : Option ℕ := (p.appBuf buf).map (· + k * firstLen p fsz)

def builtBuf (bno k : ℕ) : Buf :=
  if dio bno ∧ p.rw = .read then .own else ((bufAfter p fsz buf k).map Buf.app).getD .null

def Request.bno (i : ℕ) : ℕ := (p.off / slashBmapSize + i) % 0x100000000

def firstBuilt : Built :=
  ⟨⟨p.bno 0, ⟨p.roff, firstLen p fsz⟩, dio (p.bno 0)⟩, builtBuf dio p fsz buf (p.bno 0) 0⟩

/-- The second biorq, built `m` times past the first bmap. -/
def secondBuilt (m : ℕ) : Built :=
  ⟨⟨p.bno 1, ⟨0, ioSize p fsz - firstLen p fsz⟩, dio (p.bno 1)⟩, builtBuf dio p fsz buf (p.bno 1) m⟩

inductive Stage where
  | fresh
  /-- the first biorq is built, and the loop went past it `k` times -/
  | one (k : ℕ)
  /-- the second too, `m` times past the first bmap -/
  | two (k m : ℕ)

def Stage.first : Stage → Stage
  | .fresh => .one 0
  | st => st

def Stage.past : Stage → Stage
  | .fresh => .fresh
  | .one k => .one (k + 1)
  | .two k m => .two (k + 1) m

def Stage.second : Stage → Stage
  | .one k => .two k k
  | st => st

def Stage.next (st : Stage) (fail : Option ℕ) : Stage :=
  if fail = some 0 then st else if fail = some 1 then st.first.past else st.first.past.second

def Stage.nextOne (st : Stage) (fail : Option ℕ) : Stage := if fail = some 0 then st else st.first

/-- How many biorqs are built. -/
def Stage.built : Stage → ℕ
  | .fresh => 0
  | .one _ => 1
  | .two _ _ => 2

def Stage.carried : Stage → Carried
  | .fresh => ⟨bufAfter p fsz buf 0, []⟩
  | .one k => ⟨bufAfter p fsz buf k, [firstBuilt dio p fsz buf]⟩
  | .two k m => ⟨bufAfter p fsz buf k, [firstBuilt dio p fsz buf, secondBuilt dio p fsz buf m]⟩

end

variable {dio : ℕ → Bool} {p : Request} {fsz buf : ℕ}

theorem roff_lt (p : Request) : p.roff < slashBmapSize := by
  unfold Request.roff
  rw [slashBmapSize_eq]
  omega

structure TwoBmaps (p : Request) (fsz : ℕ) : Prop where
  gt : slashBmapSize - p.roff < ioSize p fsz
  le : ioSize p fsz ≤ slashBmapSize - p.roff + slashBmapSize

theorem Spans.cases (hs : Spans p fsz) :
    ioNr p fsz = 1 ∧ 0 < ioSize p fsz ∧ ioSize p fsz ≤ slashBmapSize - p.roff ∨ ioNr p fsz = 2 ∧ TwoBmaps p fsz := by
  have hnr := ioNr_eq hs
  obtain ⟨hpos, hlast⟩ := hs
  rcases Nat.lt_or_ge (p.off / slashBmapSize) (lastBmap p fsz) with hlt | hge
  · right
    refine ⟨by rw [hnr]; omega, ?_, ?_⟩ <;>
    · unfold lastBmap at *
      unfold Request.roff
      rw [slashBmapSize_eq] at *
      omega
  left
  refine ⟨by rw [hnr]; omega, hpos, ?_⟩
  unfold lastBmap at *
  unfold Request.roff
  rw [slashBmapSize_eq] at *
  omega

theorem bufAfter_succ (k : ℕ) : (bufAfter p fsz buf k).map (· + firstLen p fsz) = bufAfter p fsz buf (k + 1) := by
  unfold bufAfter
  rw [Option.map_map]
  refine congrArg (Option.map · (p.appBuf buf)) (funext fun x => ?_)
  rw [Function.comp_apply, Nat.succ_mul, Nat.add_assoc]

theorem mslBiorqBuild_ok {rw : Rw} {b : Option ℕ} {bno roff len : ℕ} (hlen : 0 < len)
    (hle : roff + len ≤ slashBmapSize) : mslBiorqBuild dio rw b bno roff len =
      some ⟨⟨bno, ⟨roff, len⟩, dio bno⟩, if dio bno ∧ rw = .read then .own else (b.map Buf.app).getD .null⟩ :=
  if_neg fun h => h.elim hlen.ne' (Nat.not_lt.mpr hle)

theorem carried_first (hpos : 0 < ioSize p fsz) (st : Stage) :
    (st.carried dio p fsz buf).biorq dio p.rw (p.off / slashBmapSize) 0 p.roff (firstLen p fsz) =
      some (st.first.carried dio p fsz buf) := by
  cases st with
  | fresh =>
    have hlt := roff_lt p
    have hlen : 0 < firstLen p fsz := by unfold firstLen; omega
    have hle : p.roff - 0 * slashBmapSize + firstLen p fsz ≤ slashBmapSize := by unfold firstLen; omega
    change Option.map _ (mslBiorqBuild dio p.rw _ _ _ _) = _
    rw [mslBiorqBuild_ok hlen hle, Nat.zero_mul, Nat.sub_zero]
    rfl
  | one k | two k m => rfl

theorem carried_second (htwo : TwoBmaps p fsz) (st : Stage) (hst : st ≠ .fresh) :
    (st.carried dio p fsz buf).biorq dio p.rw (p.off / slashBmapSize) 1 (p.roff + firstLen p fsz)
      (min slashBmapSize (ioSize p fsz - firstLen p fsz)) = some (st.second.carried dio p fsz buf) := by
  obtain ⟨hgt, hle⟩ := htwo
  have hlt := roff_lt p
  have hfirst : firstLen p fsz = slashBmapSize - p.roff := by unfold firstLen; omega
  cases st with
  | fresh => exact absurd rfl hst
  | one k =>
    change Option.map _ (mslBiorqBuild dio p.rw _ _ _ _) = _
    have hzero : p.roff + firstLen p fsz - 1 * slashBmapSize = 0 := by omega
    have hmin : min slashBmapSize (ioSize p fsz - firstLen p fsz) = ioSize p fsz - firstLen p fsz := by omega
    rw [hzero, hmin, mslBiorqBuild_ok (by omega) (by omega)]
    rfl
  | two k m => rfl

theorem ioPass_eq (io : Carried) (fail : Option ℕ) : ioPass dio p fsz io fail =
    splitLoop dio p.rw (p.off / slashBmapSize) fail (ioNr p fsz).toNat 0 p.roff (firstLen p fsz) (ioSize p fsz) io := by
  rfl

theorem past_carried (st : Stage) : { st.first.carried dio p fsz buf with
    buf := (st.first.carried dio p fsz buf).buf.map (· + firstLen p fsz) } = st.first.past.carried dio p fsz buf := by
  cases st <;> simp only [Stage.first, Stage.past, Stage.carried, bufAfter_succ, Nat.zero_add]

theorem ioPass_two (hnr : ioNr p fsz = 2) (htwo : TwoBmaps p fsz) (st : Stage) (fail : Option ℕ) :
    ioPass dio p fsz (st.carried dio p fsz buf) fail = some ((st.next fail).carried dio p fsz buf) := by
  have hpos : 0 < ioSize p fsz := Nat.zero_lt_of_lt htwo.gt
  have hrest : ioSize p fsz - firstLen p fsz ≠ 0 := by
    have := htwo.gt
    unfold firstLen
    omega
  have htoNat : (ioNr p fsz).toNat = 2 := by rw [hnr]; rfl
  rw [ioPass_eq, htoNat, splitLoop, if_neg hpos.ne']
  unfold Stage.next
  by_cases hfirst : fail = some 0
  · rw [if_pos hfirst, if_pos hfirst]
  rw [if_neg hfirst, if_neg hfirst, carried_first hpos]
  rw [bind_eq_bind, bind_some, if_neg one_ne_zero, past_carried, splitLoop, if_neg hrest]
  by_cases hsecond : fail = some 1
  · rw [if_pos hsecond, if_pos hsecond]
  rw [if_neg hsecond, if_neg hsecond, carried_second htwo _ (by cases st <;> exact Stage.noConfusion)]
  rw [bind_eq_bind, bind_some, if_pos rfl]

theorem ioPass_one (hnr : ioNr p fsz = 1) (hpos : 0 < ioSize p fsz) (st : Stage) (fail : Option ℕ) :
    ioPass dio p fsz (st.carried dio p fsz buf) fail = some ((st.nextOne fail).carried dio p fsz buf) := by
  have htoNat : (ioNr p fsz).toNat = 1 := by rw [hnr]; rfl
  rw [ioPass_eq, htoNat, splitLoop, if_neg hpos.ne']
  unfold Stage.nextOne
  by_cases hfirst : fail = some 0
  · rw [if_pos hfirst, if_pos hfirst]
  rw [if_neg hfirst, if_neg hfirst, carried_first hpos, bind_eq_bind, bind_some, if_pos rfl]

/-! ### All passes -/

theorem foldlM_carried {f : Carried → Option ℕ → Option Carried} {next : Stage → Option ℕ → Stage}
    (h : ∀ st fail, f (st.carried dio p fsz buf) fail = some ((next st fail).carried dio p fsz buf)) :
    ∀ (passes : List (Option ℕ)) (st : Stage), passes.foldlM f (st.carried dio p fsz buf) =
      some ((passes.foldl next st).carried dio p fsz buf)
  | [], _ => rfl
  | fail :: passes, st => by
    rw [foldlM_cons, h, foldl_cons]
    exact foldlM_carried h passes (next st fail)

theorem foldl_built {next : Stage → Option ℕ → Stage} {i : ℕ}
    (h : ∀ st x, i < (next st x).built ↔ i < st.built ∨ ∀ k ∈ x, i < k) : ∀ (passes : List (Option ℕ)) (st : Stage),
      i < (passes.foldl next st).built ↔ i < st.built ∨ ∃ x ∈ passes, ∀ k ∈ x, i < k
  | [], _ => by simp
  | x :: passes, st => by
    rw [foldl_cons, foldl_built h passes, h, exists_mem_cons_iff]
    exact or_assoc

theorem built_next {i : ℕ} (hi : i < 2) (st : Stage) (x : Option ℕ) :
    i < (st.next x).built ↔ i < st.built ∨ ∀ k ∈ x, i < k := by
  match x with
  | none | some 0 | some 1 | some (n + 2) =>
    cases st <;> simp [Stage.next, Stage.first, Stage.past, Stage.second, Stage.built] <;> omega

theorem built_nextOne (st : Stage) (x : Option ℕ) : 0 < (st.nextOne x).built ↔ 0 < st.built ∨ ∀ k ∈ x, 0 < k := by
  match x with
  | none | some 0 | some (n + 1) => cases st <;> simp [Stage.nextOne, Stage.first, Stage.built]

theorem foldl_nextOne : ∀ (passes : List (Option ℕ)) (st : Stage), st = .fresh ∨ st = .one 0 →
    passes.foldl Stage.nextOne st = .fresh ∨ passes.foldl Stage.nextOne st = .one 0
  | [], _, h => h
  | fail :: passes, st, h => by
    refine foldl_nextOne passes _ ?_
    unfold Stage.nextOne
    split_ifs
    · exact h
    · rcases h with rfl | rfl <;> exact .inr rfl

theorem next_zero (st : Stage) : st.next (some 0) = st := if_pos rfl

theorem next_one (st : Stage) : st.next (some 1) = st.first.past := rfl

theorem next_through {fail : Option ℕ} (h : stopped fail = false) (st : Stage) :
    st.next fail = st.first.past.second := by
  simp only [stopped, Bool.or_eq_false_iff, decide_eq_false_iff_not] at h
  rw [Stage.next, if_neg h.1, if_neg h.2]

theorem stopped_cases (fail : Option ℕ) : fail = some 0 ∨ fail = some 1 ∨ stopped fail = false := by
  by_cases h0 : fail = some 0
  · exact .inl h0
  by_cases h1 : fail = some 1
  · exact .inr (.inl h1)
  · exact .inr (.inr (by simp [stopped, h0, h1]))

def Stage.Right : Stage → Prop
  | .fresh | .one _ => True
  | .two _ m => m = 1

theorem foldl_next_two (m : ℕ) : ∀ (passes : List (Option ℕ)) (k : ℕ),
    (passes.foldl Stage.next (.two k m)).Right ↔ m = 1
  | [], _ => Iff.rfl
  | fail :: passes, k => by
    rw [foldl_cons]
    rcases stopped_cases fail with rfl | rfl | h
    · exact foldl_next_two m passes k
    · exact foldl_next_two m passes (k + 1)
    · rw [next_through h]
      exact foldl_next_two m passes (k + 1)

theorem foldl_next_one : ∀ (passes : List (Option ℕ)) (k : ℕ), 0 < k →
    ((passes.foldl Stage.next (.one k)).Right ↔ ∀ x ∈ passes, stopped x)
  | [], _, _ => by simp [Stage.Right]
  | fail :: passes, k, hk => by
    rw [foldl_cons, forall_mem_cons]
    rcases stopped_cases fail with rfl | rfl | h
    · rw [next_zero, foldl_next_one passes k hk]
      exact (and_iff_right rfl).symm
    · rw [next_one]
      exact (foldl_next_one passes (k + 1) (Nat.succ_pos k)).trans (and_iff_right rfl).symm
    rw [next_through h, h]
    refine (foldl_next_two (k + 1) passes (k + 1)).trans ⟨fun hk1 => ?_, fun hno => absurd hno.1 Bool.false_ne_true⟩
    omega

theorem foldl_next_fresh : ∀ passes : List (Option ℕ), (passes.foldl Stage.next .fresh).Right ↔
    some 1 ∉ passes.takeWhile stopped ∨ ∀ x ∈ passes, stopped x
  | [] => by simp [Stage.Right]
  | fail :: passes => by
    rw [foldl_cons, forall_mem_cons]
    rcases stopped_cases fail with rfl | rfl | h
    · rw [next_zero, foldl_next_fresh passes, takeWhile_cons_of_pos rfl, mem_cons]
      simp [stopped]
    · rw [next_one, takeWhile_cons_of_pos rfl]
      refine (foldl_next_one passes 1 Nat.one_pos).trans ?_
      simp [stopped]
    · rw [next_through h, takeWhile_cons_of_neg (by simp [h])]
      exact (foldl_next_two 1 passes 1).trans (by simp)

/-! ### The parts of the range -/

theorem builtBuf_write (hrw : p.rw = .write) (bno k : ℕ) :
    builtBuf dio p fsz buf bno k = .app (buf + k * firstLen p fsz) := by
  simp [builtBuf, bufAfter, Request.appBuf, hrw]

section First
variable (hno : p.off / slashBmapSize < 0x100000000)
include hno

theorem first_bno : (firstBuilt dio p fsz buf).rq.bno = p.off / slashBmapSize := Nat.mod_eq_of_lt hno

theorem first_foff : (firstBuilt dio p fsz buf).rq.foff = p.off := by
  rw [Ioreq.foff, first_bno hno]
  unfold firstBuilt Request.roff
  dsimp only
  rw [slashBmapSize_eq]
  omega

theorem part_first (x : ℕ) : InSpan (firstBuilt dio p fsz buf).rq.foff (firstBuilt dio p fsz buf).rq.rq.len x ↔
    InSpan p.off (ioSize p fsz) x ∧ x / slashBmapSize = (firstBuilt dio p fsz buf).rq.bno := by
  rw [first_foff hno, first_bno hno]
  unfold firstBuilt InSpan firstLen Request.roff
  dsimp only
  rw [slashBmapSize_eq]
  omega

theorem buffer_first (hrw : p.rw = .write) :
    (firstBuilt dio p fsz buf).buf = .app (buf + ((firstBuilt dio p fsz buf).rq.foff - p.off)) := by
  rw [first_foff hno, Nat.sub_self]
  refine (builtBuf_write hrw _ 0).trans ?_
  rw [Nat.zero_mul]

end First

section Second
variable (htwo : TwoBmaps p fsz) (hno : p.off / slashBmapSize + 1 < 0x100000000) (m : ℕ)
include hno

theorem second_bno : (secondBuilt dio p fsz buf m).rq.bno = p.off / slashBmapSize + 1 := Nat.mod_eq_of_lt hno

include htwo

theorem second_foff : (secondBuilt dio p fsz buf m).rq.foff = p.off + firstLen p fsz := by
  obtain ⟨hgt, hle⟩ := htwo
  rw [Ioreq.foff, second_bno hno]
  unfold secondBuilt firstLen Request.roff at *
  dsimp only
  rw [slashBmapSize_eq] at *
  omega

theorem part_second (x : ℕ) :
    InSpan (secondBuilt dio p fsz buf m).rq.foff (secondBuilt dio p fsz buf m).rq.rq.len x ↔
      InSpan p.off (ioSize p fsz) x ∧ x / slashBmapSize = (secondBuilt dio p fsz buf m).rq.bno := by
  rw [second_foff htwo hno, second_bno hno]
  obtain ⟨hgt, hle⟩ := htwo
  unfold secondBuilt InSpan firstLen Request.roff at *
  dsimp only
  rw [slashBmapSize_eq] at *
  omega

theorem buffer_second (hrw : p.rw = .write) :
    (secondBuilt dio p fsz buf m).buf = .app (buf + ((secondBuilt dio p fsz buf m).rq.foff - p.off)) ↔ m = 1 := by
  have hpos : 0 < firstLen p fsz := by
    have hgt := htwo.gt
    have hlt := roff_lt p
    unfold firstLen
    omega
  have hbuf : (secondBuilt dio p fsz buf m).buf = .app (buf + m * firstLen p fsz) := builtBuf_write hrw _ m
  rw [second_foff htwo hno, hbuf, Nat.add_sub_cancel_left, Buf.app.injEq, Nat.add_right_inj]
  constructor
  · intro h
    exact Nat.eq_of_mul_eq_mul_right hpos (h.trans (Nat.one_mul _).symm)
  · rintro rfl
    exact Nat.one_mul _

end Second

theorem split_nil (hnr : 0 < ioNr p fsz) : Split p fsz buf [] where
  part i b h := by simp at h
  whole hlen := by
    rw [length_nil] at hlen
    omega
  buffer _ b hb := absurd hb not_mem_nil

theorem split_one (hno : p.off / slashBmapSize < 0x100000000)
    (hone : ioNr p fsz = 1 → ioSize p fsz ≤ slashBmapSize - p.roff) : Split p fsz buf [firstBuilt dio p fsz buf] where
  part i b h := by
    obtain ⟨rfl, rfl⟩ : i = 0 ∧ b = firstBuilt dio p fsz buf := by
      cases i with
      | zero => exact ⟨rfl, (some.inj h).symm⟩
      | succ => simp at h
    exact ⟨first_bno hno, part_first hno⟩
  whole hlen x hx := by
    have hnr : ioNr p fsz = 1 := by
      rw [length_singleton] at hlen
      omega
    have hle := hone hnr
    refine ⟨0, ⟨_, rfl, (part_first hno x).mpr ⟨hx, ?_⟩⟩, fun i ⟨b, hb, _⟩ => ?_⟩
    · rw [first_bno hno]
      unfold InSpan Request.roff at *
      rw [slashBmapSize_eq] at *
      omega
    · cases i with
      | zero => rfl
      | succ => simp at hb
  buffer hrw b hb := by
    rw [mem_singleton.mp hb]
    exact buffer_first hno hrw

theorem split_two_iff (htwo : TwoBmaps p fsz) (hno : p.off / slashBmapSize + 1 < 0x100000000) (m : ℕ) :
    Split p fsz buf [firstBuilt dio p fsz buf, secondBuilt dio p fsz buf m] ↔ p.rw = .read ∨ m = 1 := by
  constructor
  · intro h
    cases hrw : p.rw with
    | read => exact .inl rfl
    | write => exact .inr ((buffer_second htwo hno m hrw).mp (h.buffer hrw _ (mem_cons_of_mem _ mem_cons_self)))
  · intro hm
    have hno₀ := Nat.lt_of_succ_lt hno
    have hat {i : ℕ} {b : Built} (h : [firstBuilt dio p fsz buf, secondBuilt dio p fsz buf m][i]? = some b) :
        i = 0 ∧ b = firstBuilt dio p fsz buf ∨ i = 1 ∧ b = secondBuilt dio p fsz buf m := by
      match i, h with
      | 0, h => exact .inl ⟨rfl, (some.inj h).symm⟩
      | 1, h => exact .inr ⟨rfl, (some.inj h).symm⟩
    refine ⟨fun i b h => ?_, fun _ x hx => ?_, fun hrw b hb => ?_⟩
    · rcases hat h with ⟨rfl, rfl⟩ | ⟨rfl, rfl⟩
      · exact ⟨first_bno hno₀, part_first hno₀⟩
      · exact ⟨second_bno hno m, part_second htwo hno m⟩
    · -- the byte lies in the first bmap or in the second
      have hbmap : x / slashBmapSize = p.off / slashBmapSize ∨ x / slashBmapSize = p.off / slashBmapSize + 1 := by
        obtain ⟨hgt, hle⟩ := htwo
        unfold InSpan Request.roff at *
        rw [slashBmapSize_eq] at *
        omega
      have hfirst := @part_first dio p fsz buf hno₀ x
      have hsecond := @part_second dio p fsz buf htwo hno m x
      rw [first_bno hno₀] at hfirst
      rw [second_bno hno] at hsecond
      rcases hbmap with hbmap | hbmap
      · refine ⟨0, ⟨_, rfl, hfirst.mpr ⟨hx, hbmap⟩⟩, fun i ⟨b, hb, hin⟩ => ?_⟩
        rcases hat hb with ⟨rfl, -⟩ | ⟨-, rfl⟩
        · rfl
        · have := (hsecond.mp hin).2
          omega
      refine ⟨1, ⟨_, rfl, hsecond.mpr ⟨hx, hbmap⟩⟩, fun i ⟨b, hb, hin⟩ => ?_⟩
      rcases hat hb with ⟨-, rfl⟩ | ⟨rfl, -⟩
      · have := (hfirst.mp hin).2
        omega
      · rfl
    · rcases mem_cons.mp hb with rfl | hb
      · exact buffer_first hno₀ hrw
      · rw [mem_singleton.mp hb]
        refine (buffer_second htwo hno m hrw).mpr (hm.resolve_left ?_)
        rw [hrw]
        decide

/-- A biorq has the number its bmap should have only if that number fits. -/
theorem Split.numbered {st : Stage} (h : Split p fsz buf (st.carried dio p fsz buf).biorqs) :
    ∀ i < st.built, p.off / slashBmapSize + i < 0x100000000 := by
  have hfit {i : ℕ} {b : Built} (hb : (st.carried dio p fsz buf).biorqs[i]? = some b) (hno : b.rq.bno = p.bno i) :
      p.off / slashBmapSize + i < 0x100000000 := by
    rw [← (h.part i b hb).1, hno]
    exact Nat.mod_lt _ (by decide)
  cases st with
  | fresh => exact fun i hi => absurd hi (Nat.not_lt_zero i)
  | one k =>
    rintro (_ | i) hi
    · exact hfit rfl rfl
    · exact absurd (Nat.lt_of_succ_lt_succ hi) (Nat.not_lt_zero i)
  | two k m =>
    rintro (_ | _ | i) hi
    · exact hfit rfl rfl
    · exact hfit rfl rfl
    · exact absurd (Nat.lt_of_succ_lt_succ (Nat.lt_of_succ_lt_succ hi)) (Nat.not_lt_zero i)

theorem split_stage_iff (hnr : ioNr p fsz = 2) (htwo : TwoBmaps p fsz) (st : Stage) :
    Split p fsz buf (st.carried dio p fsz buf).biorqs ↔
      (p.rw = .read ∨ st.Right) ∧ ∀ i < st.built, p.off / slashBmapSize + i < 0x100000000 := by
  cases st with
  | fresh => exact iff_of_true (split_nil (by omega)) ⟨.inr trivial, fun i hi => absurd hi (Nat.not_lt_zero i)⟩
  | one k => exact ⟨fun h => ⟨.inr trivial, h.numbered⟩, fun h => split_one (h.2 0 Nat.one_pos) (by omega)⟩
  | two k m =>
    exact ⟨fun h => ⟨(split_two_iff htwo (h.numbered 1 Nat.one_lt_two) m).mp h, h.numbered⟩,
      fun h => (split_two_iff htwo (h.2 1 Nat.one_lt_two) m).mpr h.1⟩

theorem numbered_iff {next : Stage → Option ℕ → Stage} {n : ℕ} (hnr : ioNr p fsz = n) (passes : List (Option ℕ))
    (hnext : ∀ i < n, ∀ st x, i < (next st x).built ↔ i < st.built ∨ ∀ k ∈ x, i < k)
    (hle : (passes.foldl next .fresh).built ≤ n) : Numbered p fsz passes ↔
      ∀ i < (passes.foldl next .fresh).built, p.off / slashBmapSize + i < 0x100000000 := by
  have hbuilt {i : ℕ} (hi : i < n) : i < (passes.foldl next .fresh).built ↔ ∃ x ∈ passes, ∀ k ∈ x, i < k :=
    (foldl_built (hnext i hi) passes .fresh).trans (or_iff_right (Nat.not_lt_zero i))
  rw [Numbered, hnr, Int.toNat_natCast]
  exact ⟨fun h i hi => h i (hi.trans_le hle) ((hbuilt (hi.trans_le hle)).mp hi), fun h i hi hx => h i ((hbuilt hi).mpr hx)⟩

theorem built_le (st : Stage) : st.built ≤ 2 := by
  cases st <;> simp [Stage.built]

/-- **The biorqs are the parts of the range, exactly if** the request is `Straight` and its bmaps are `Numbered`. -/
theorem split_iff (dio : ℕ → Bool) (p : Request) (fsz buf : ℕ) (hs : Spans p fsz) (passes : List (Option ℕ)) :
    ∃ bs, mslIoSplit dio p fsz buf passes = some bs ∧
      (Split p fsz buf bs ↔ Straight p fsz passes ∧ Numbered p fsz passes) := by
  have hstart : (⟨p.appBuf buf, []⟩ : Carried) = Stage.carried dio p fsz buf .fresh := by
    unfold Stage.carried bufAfter
    simp only [Nat.zero_mul, Nat.add_zero, Option.map_id']
  have hio : ∀ t, passes.foldlM (ioPass dio p fsz) (Stage.carried dio p fsz buf .fresh) = some t →
      mslIoSplit dio p fsz buf passes = some t.biorqs := by
    intro t ht
    have hbound : ¬((maxBmapsReq : ℤ) < ioNr p fsz ∨ pastEof p fsz) := by
      rintro (hlt | heof)
      · rcases hs.cases with ⟨hnr, -⟩ | ⟨hnr, -⟩ <;> rw [hnr] at hlt <;> exact absurd hlt (by decide)
      · exact hs.not_pastEof heof
    rw [mslIoSplit, if_neg hbound, hstart, ht, Option.map_some]
  rcases hs.cases with ⟨hnr, hpos, hle'⟩ | ⟨hnr, htwo⟩
  · refine ⟨_, hio _ (foldlM_carried (ioPass_one hnr hpos) passes .fresh), ?_⟩
    have hone := foldl_nextOne passes .fresh (.inl rfl)
    have hle : (passes.foldl Stage.nextOne .fresh).built ≤ 1 := by rcases hone with h | h <;> rw [h] <;> decide
    rw [and_iff_right (.inr (.inl hnr)), numbered_iff hnr passes (fun i hi => Nat.lt_one_iff.mp hi ▸ built_nextOne) hle]
    rcases hone with h | h <;> rw [h]
    · exact iff_of_true (split_nil (by omega)) fun i hi => absurd hi (Nat.not_lt_zero i)
    · exact ⟨fun h => h.numbered, fun h => split_one (h 0 Nat.one_pos) fun _ => hle'⟩
  · refine ⟨_, hio _ (foldlM_carried (ioPass_two hnr htwo) passes .fresh), ?_⟩
    have hnum := numbered_iff hnr passes (fun i hi => built_next hi) (built_le _)
    rw [split_stage_iff hnr htwo, foldl_next_fresh, ← hnum]
    unfold Straight
    rw [hnr]
    simp

def acrossBmaps : Request := ⟨.write, 134217628, 300, by decide⟩

/-- The first bmap is not found the first time. -/
theorem split_acrossBmaps : ∃ bs, mslIoSplit (fun _ => false) acrossBmaps 0 1000 [some 0, none] = some bs ∧
    bs.map Built.buf = [.app 1000, .app 1100] ∧ Split acrossBmaps 0 1000 bs := by
  have hs : Spans acrossBmaps 0 := by decide +kernel
  obtain ⟨bs, hbs, hiff⟩ := split_iff (fun _ => false) acrossBmaps 0 1000 hs [some 0, none]
  have hbuf : (mslIoSplit (fun _ => false) acrossBmaps 0 1000 [some 0, none]).map (fun bs => bs.map Built.buf) =
      some [.app 1000, .app 1100] := by decide +kernel
  rw [hbs] at hbuf
  exact ⟨bs, hbs, some.inj hbuf, hiff.mpr (by decide +kernel)⟩

/-- The second biorq skips 100 bytes of the buffer. -/
theorem buffer_skipped : ∃ bs, mslIoSplit (fun _ => false) acrossBmaps 0 1000 [some 1, none] = some bs ∧
    (∃ b ∈ bs, b.rq.foff = acrossBmaps.off + 100 ∧ b.buf = .app 1200) ∧ ¬Split acrossBmaps 0 1000 bs := by
  have h : ∃ bs ∈ mslIoSplit (fun _ => false) acrossBmaps 0 1000 [some 1, none],
      ∃ b ∈ bs, b.rq.foff = acrossBmaps.off + 100 ∧ b.buf = .app 1200 := by decide +kernel
  obtain ⟨bs, hbs, b, hb, hfoff, hbuf⟩ := h
  refine ⟨bs, hbs, ⟨b, hb, hfoff, hbuf⟩, fun hsplit => ?_⟩
  have hright := hsplit.buffer rfl b hb
  rw [hbuf, hfoff, Nat.add_sub_cancel_left] at hright
  exact absurd hright (by decide)

end Slash2.Client.Io
