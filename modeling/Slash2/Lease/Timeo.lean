/-
# The table of lease sequence numbers

Every lease gets a sequence number, and the MDS tells the I/O servers the lowest
number still in use, `btt_minseq`, so that they can refuse a client whose lease has
timed out. The leases stand in one list in the order they were granted or renewed,
and whenever the head of the list leaves, `btt_minseq` becomes the number of the new
head, or the last number handed out if there is none.

Key theorem: `step_bounded`.
-/
import Mathlib.Data.List.Nodup
import Mathlib.Order.Nat
import Slash2.Lib.Run

namespace Slash2.Timeo

open Lib Option Function

def bmapseqAny : ℕ := 0xffffffffffffffff

def bmapSeqlogFactor : ℕ := 100

inductive Stage where
  | idle
  /-- a number is stored, and `mds_bmap_timeotbl_mdsi` is next -/
  | reading
  /-- `mds_bmap_timeotbl_mdsi` has its number -/
  | took (r : Option ℕ)
  /-- removed from the list, to be put at the end -/
  | requeued (r : Option ℕ)
  /-- at its new place; the number is yet to be stored -/
  | queued (n : ℕ)
  deriving DecidableEq

/-- `struct bmap_mds_lease`, for the table. -/
structure Bml where
  /-- `bml_seq` -/
  seq : ℕ
  timeoq : Bool
  live : Bool
  stage : Stage
  deriving DecidableEq

/-- What `mds_bml_new` makes. -/
def mdsBmlNew : Bml := ⟨0, false, false, .idle⟩

/-- `struct bmap_iod_minseq`, with the reply on its way. -/
structure Bim where
  minseq : ℕ
  reply : Option ℕ

/-- `struct bmap_timeo_table`, the leases, and one I/O server. -/
structure Tbl (L : Type*) where
  maxseq : ℕ
  minseq : ℕ
  leases : List L
  bml : L → Bml
  /-- the counter of `mds_bmap_timeotbl_journal_seqno` -/
  log : ℕ
  /-- the `MDS_LOG_BMAP_SEQ` entries, high and low mark, oldest first -/
  jrnl : List (ℕ × ℕ)
  bim : Bim

variable {L : Type*} [DecidableEq L] (s : Tbl L)

def Tbl.modify (l : L) (b : Bml) : Tbl L := { s with bml := update s.bml l b }

@[simp] theorem modify_self (l : L) (b : Bml) : (s.modify l b).bml l = b := update_self ..

theorem modify_ne {l x : L} (b : Bml) (h : x ≠ l) : (s.modify l b).bml x = s.bml x := update_of_ne h ..

def mdsBmapTimeotblJournalSeqno : Tbl L :=
  { s with
    log := s.log + 1
    jrnl := if (s.log + 1) % bmapSeqlogFactor = 0 then s.jrnl ++ [(s.maxseq, s.minseq)] else s.jrnl }

/-- `mds_bmap_timeotbl_getnextseq`: zero is skipped. -/
def Tbl.next : ℕ := if s.maxseq + 1 = bmapseqAny then 1 else s.maxseq + 1

def mdsBmapTimeotblGetnextseq : Tbl L :=
  mdsBmapTimeotblJournalSeqno { s with maxseq := s.next }

/-- The low mark once the head has left `rest` behind. -/
def Tbl.low : List L → ℕ
  | [] => s.maxseq
  | h :: _ => (s.bml h).seq

def mdsBmapTimeotblRemove (l : L) (s : Tbl L) : Tbl L :=
  let rest := s.leases.erase l
  if s.leases.head? = some l then
    mdsBmapTimeotblJournalSeqno { s with leases := rest, minseq := s.low rest }
  else { s with leases := rest }

/-- `bim_minseq - BMAP_SEQLOG_FACTOR`, a 64-bit subtraction. -/
def bimLess (n : ℕ) : ℕ := (n + 0x10000000000000000 - bmapSeqlogFactor) % 0x10000000000000000

def bimUpdateseq (minseq seq : ℕ) : ℕ :=
  if seq = bmapseqAny then minseq
  else if seq = minseq then minseq
  else if seq > minseq ∨ minseq = bmapseqAny then seq
  else if seq ≥ bimLess minseq then seq
  else minseq

/-- `sli_ric_handle_io`: `-PFLERR_KEYEXPIRED`. -/
def Bim.rejects (b : Bim) (sbdSeq : ℕ) : Prop := sbdSeq < b.minseq
  deriving Decidable

inductive Act (L : Type*) where
  /-- the read path of `mds_bmap_bml_add` stores a number -/
  | getnextseq (l : L)
  /-- `mds_bmap_timeotbl_mdsi(BTE_ADD)` takes a number -/
  | take (l : L)
  | requeue (l : L)
  | append (l : L)
  | store (l : L)
  /-- `mds_bmap_add_repl` fails before the number is stored -/
  | fail (l : L)
  /-- `mds_bmap_timeotbl_mdsi(BTE_DEL)` -/
  | del (l : L)
  /-- `mds_bmap_timeotbl_mdsi(BTE_REATTACH)` -/
  | reattach (l : L) (seq : ℕ)
  /-- the MDS answers `SRMT_GETBMAPMINSEQ` -/
  | ask
  | reply

/-- `BTE_REATTACH`: above the high mark it raises it, below the low one the lease has expired. -/
def reattach (l : L) (seq : ℕ) (s : Tbl L) : Tbl L :=
  let live := s.maxseq < seq ∨ s.minseq ≤ seq
  { s with maxseq := max s.maxseq seq, leases := s.leases ++ [l] }.modify l ⟨seq, true, live, .idle⟩

variable (b : Bml)

def Bml.atPlace : Option ℕ → Bml
  | some n => { b with timeoq := true, stage := .queued n }
  | none => { b with timeoq := true, live := true, stage := .idle }

def step : Act L → Option (Tbl L)
  | .getnextseq l =>
    if s.bml l = mdsBmlNew then
      some ((mdsBmapTimeotblGetnextseq s).modify l { mdsBmlNew with seq := s.next, stage := .reading })
    else none
  | .take l =>
    match (s.bml l).stage with
    | .idle => some ((mdsBmapTimeotblGetnextseq s).modify l { s.bml l with stage := .took (some s.next) })
    | .reading => some ((mdsBmapTimeotblGetnextseq s).modify l { s.bml l with stage := .took none })
    | _ => none
  | .requeue l =>
    match (s.bml l).stage, (s.bml l).timeoq with
    | .took r, true => some ((mdsBmapTimeotblRemove l s).modify l { s.bml l with stage := .requeued r })
    | _, _ => none
  | .append l =>
    match (s.bml l).stage, (s.bml l).timeoq with
    | .took r, false | .requeued r, true =>
      some ({ s with leases := s.leases ++ [l] }.modify l ((s.bml l).atPlace r))
    | _, _ => none
  | .store l =>
    match (s.bml l).stage with
    | .queued n => some (s.modify l { s.bml l with seq := n, live := true, stage := .idle })
    | _ => none
  | .fail l =>
    match (s.bml l).stage with
    | .queued _ => some (s.modify l { s.bml l with stage := .idle })
    | _ => none
  | .del l =>
    -- the last reference is gone, so no grant is under way
    match (s.bml l).stage, (s.bml l).timeoq with
    | .idle, true =>
      some ((mdsBmapTimeotblRemove l s).modify l { s.bml l with timeoq := false, live := false })
    | _, _ => none
  | .reattach l seq => if s.bml l = mdsBmlNew ∧ seq < bmapseqAny then some (reattach l seq s) else none
  | .ask =>
    if s.bim.reply = none then some { s with bim := { s.bim with reply := some s.minseq } } else none
  | .reply =>
    s.bim.reply.map fun n => { s with bim := ⟨bimUpdateseq s.bim.minseq n, none⟩ }

/-! ### Which number a lease has -/

def Bml.number : ℕ :=
  match b.stage with
  | .queued n => n
  | _ => b.seq

def Bml.due : Option ℕ :=
  match b.stage with
  | .reading => some b.seq
  | .took r | .requeued r => some (r.getD b.seq)
  | _ => none

/-- No number of the lease is above `m`. -/
def Bml.Below (m : ℕ) : Prop := b.seq ≤ m ∧ b.number ≤ m ∧ ∀ n ∈ b.due, n ≤ m

theorem Bml.Below.mono {b : Bml} {m m' : ℕ} (h : b.Below m) (hm : m ≤ m') : b.Below m' :=
  ⟨h.1.trans hm, h.2.1.trans hm, fun n hn => (h.2.2 n hn).trans hm⟩

structure Bounded (s : Tbl L) : Prop where
  min_le_max : s.minseq ≤ s.maxseq
  below : ∀ l, (s.bml l).Below s.maxseq

variable {s}

omit [DecidableEq L] in
theorem Bounded.raise (h : Bounded s) {m : ℕ} (hm : s.maxseq ≤ m) : Bounded { s with maxseq := m } :=
  ⟨h.min_le_max.trans hm, fun l => (h.below l).mono hm⟩

theorem Bounded.modify (h : Bounded s) (l : L) {b : Bml} (hb : b.Below s.maxseq) : Bounded (s.modify l b) := by
  refine ⟨h.min_le_max, fun x => ?_⟩
  by_cases hxl : x = l
  · rw [hxl, modify_self]
    exact hb
  · rw [modify_ne s b hxl]
    exact h.below x

omit [DecidableEq L] in
theorem next_eq (h : s.maxseq + 1 ≠ bmapseqAny) : s.next = s.maxseq + 1 := if_neg h

section
variable (s : Tbl L)

theorem remove_leases (l : L) : (mdsBmapTimeotblRemove l s).leases = s.leases.erase l := by
  unfold mdsBmapTimeotblRemove
  split <;> rfl

theorem remove_bml (l : L) : (mdsBmapTimeotblRemove l s).bml = s.bml := by
  unfold mdsBmapTimeotblRemove
  split <;> rfl

theorem remove_maxseq (l : L) : (mdsBmapTimeotblRemove l s).maxseq = s.maxseq := by
  unfold mdsBmapTimeotblRemove
  split <;> rfl

theorem remove_bim (l : L) : (mdsBmapTimeotblRemove l s).bim = s.bim := by
  unfold mdsBmapTimeotblRemove
  split <;> rfl

def NoWrap : Act L → Prop
  | .getnextseq _ | .take _ => s.maxseq + 1 ≠ bmapseqAny
  | _ => True

instance (a : Act L) : Decidable (NoWrap s a) := by
  cases a <;> unfold NoWrap <;> infer_instance

end

omit [DecidableEq L] in
theorem Bounded.low_le_max (h : Bounded s) (rest : List L) : s.low rest ≤ s.maxseq := by
  cases rest with
  | nil => exact le_rfl
  | cons x => exact (h.below x).1

theorem Bounded.remove (h : Bounded s) (l : L) : Bounded (mdsBmapTimeotblRemove l s) := by
  unfold mdsBmapTimeotblRemove
  split
  · exact ⟨h.low_le_max _, h.below⟩
  · exact ⟨h.min_le_max, h.below⟩

theorem Bounded.reattach (h : Bounded s) (l : L) (seq : ℕ) : Bounded (reattach l seq s) := by
  have hr := h.raise (Nat.le_max_left s.maxseq seq)
  refine Bounded.modify (s := { s with maxseq := max s.maxseq seq, leases := s.leases ++ [l] })
    ⟨hr.min_le_max, hr.below⟩ l ⟨Nat.le_max_right .., Nat.le_max_right .., ?_⟩
  simp [Bml.due]

theorem atPlace_number (r : Option ℕ) : (b.atPlace r).number = r.getD b.seq := by
  cases r <;> rfl

theorem atPlace_seq (r : Option ℕ) : (b.atPlace r).seq = b.seq := by cases r <;> rfl

theorem atPlace_due (r : Option ℕ) : (b.atPlace r).due = none := by cases r <;> rfl

theorem step_bounded {s t : Tbl L} {a : Act L} (h : Bounded s) (hw : NoWrap s a)
    (hs : step s a = some t) : Bounded t := by
  have htake : s.maxseq + 1 ≠ bmapseqAny → ∀ l {b : Bml}, b.Below (s.maxseq + 1) →
      Bounded ((mdsBmapTimeotblGetnextseq s).modify l b) := by
    intro hw l b hb
    rw [← next_eq hw] at hb
    have hr := h.raise (m := s.next) (by rw [next_eq hw]; omega)
    exact Bounded.modify (s := mdsBmapTimeotblGetnextseq s) ⟨hr.min_le_max, hr.below⟩ l hb
  have hb l := ((h.below l).mono (Nat.le_succ _)).1
  have happend {l r} (hdue : (s.bml l).due = some (r.getD (s.bml l).seq)) :
      Bounded ({ s with leases := s.leases ++ [l] }.modify l ((s.bml l).atPlace r)) := by
    refine Bounded.modify (s := { s with leases := s.leases ++ [l] }) ⟨h.min_le_max, h.below⟩ l ?_
    exact ⟨(atPlace_seq ..).trans_le (h.below l).1,
      (atPlace_number ..).trans_le ((h.below l).2.2 _ hdue), by simp [atPlace_due]⟩
  revert hs
  fun_cases step s a <;> intro hs <;> try cases hs
  next l _ => exact htake hw l (by rw [next_eq hw]; simp [Bml.Below, Bml.number, Bml.due])
  next l _ => exact htake hw l ⟨hb l, hb l, by simp [Bml.due, next_eq hw]⟩
  next l _ => exact htake hw l ⟨hb l, hb l, by simpa [Bml.due] using hb l⟩
  next l r _ hst =>
    refine (h.remove l).modify l ?_
    rw [remove_maxseq]
    refine ⟨(h.below l).1, (h.below l).1, fun n hn => (h.below l).2.2 n ?_⟩
    simpa [Bml.due, hst] using hn
  next hst => exact happend (by simp [Bml.due, hst])
  next hst => exact happend (by simp [Bml.due, hst])
  next l n hst =>
    have hle : n ≤ s.maxseq := by simpa [Bml.number, hst] using (h.below l).2.1
    exact h.modify l ⟨hle, hle, by simp [Bml.due]⟩
  next l _ _ => exact h.modify l ⟨(h.below l).1, (h.below l).1, by simp [Bml.due]⟩
  next l _ hst =>
    refine (h.remove l).modify l ?_
    rw [remove_maxseq]
    refine ⟨(h.below l).1, ?_, by simp [Bml.due, hst]⟩
    simpa [Bml.number, hst] using (h.below l).1
  next l seq _ => exact h.reattach l seq
  next => exact ⟨h.min_le_max, h.below⟩
  next =>
    obtain ⟨n, -, rfl⟩ := map_eq_some_iff.mp hs
    exact ⟨h.min_le_max, h.below⟩

def Tbl.high (s : Tbl L) : Act L → ℕ
  | .getnextseq _ | .take _ => s.next
  | .reattach _ seq => max s.maxseq seq
  | _ => s.maxseq

theorem step_maxseq {t : Tbl L} {a : Act L} (hs : step s a = some t) : t.maxseq = s.high a := by
  cases a with
  | getnextseq | reattach | ask =>
    obtain ⟨-, hs⟩ := ite_none_right_eq_some.mp hs
    cases hs
    rfl
  | take | append | store | fail =>
    simp only [step] at hs
    split at hs <;> cases hs <;> rfl
  | requeue l | del l =>
    simp only [step] at hs
    split at hs <;> cases hs
    exact remove_maxseq s l
  | reply =>
    obtain ⟨n, -, hs⟩ := map_eq_some_iff.mp hs
    cases hs
    rfl

theorem maxseq_le_step {t : Tbl L} {a : Act L} (hw : NoWrap s a) (hs : step s a = some t) : s.maxseq ≤ t.maxseq := by
  rw [step_maxseq hs]
  cases a with
  | getnextseq | take =>
    rw [Tbl.high, next_eq hw]
    omega
  | reattach => exact Nat.le_max_left ..
  | _ => exact le_rfl

/-- After `mds_bmap_timeotbl_init` and `mds_bmap_setcurseq`, with an I/O server at `bim`. -/
def Tbl.start (maxseq minseq bim : ℕ) : Tbl L :=
  ⟨maxseq, minseq, [], fun _ => mdsBmlNew, 0, [], ⟨bim, none⟩⟩

omit [DecidableEq L] in
theorem start_bounded {maxseq minseq bim : ℕ} (hmin : minseq ≤ maxseq) :
    Bounded (Tbl.start maxseq minseq bim : Tbl L) :=
  ⟨hmin, fun _ => ⟨Nat.zero_le _, Nat.zero_le _, by simp [Tbl.start, mdsBmlNew, Bml.due]⟩⟩

end Slash2.Timeo
