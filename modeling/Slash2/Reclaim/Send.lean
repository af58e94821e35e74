/-
# Telling the I/O servers

A thread of the MDS goes through the reclaim log from the lowest batch an I/O server is still at.
It sends every connected I/O server that is at this batch the records it lacks, records the
progress and removes the log file before this one if all are through with both. Meanwhile entries
are appended, and the MDS may go down at any point.
-/
import Mathlib.Data.List.TakeWhile
import Slash2.Lib.Run
import Slash2.Lib.Store
import Slash2.Reclaim.Log

namespace Slash2.Reclaim

open Residency Lib List Option Function

/-- `struct reclaim_arg`, and the records not answered. -/
structure Rarg where
  batchno : ℕ
  next : ℕ
  xid : ℕ
  count : ℕ
  ndone : ℕ
  record : Bool
  pend : IosId → Option (List Rec)

/-- `slmjreclaimthr_main` -/
inductive Thr where
  | idle
  | loop (batchno : ℕ)
  | sending (r : Rarg)

structure Mds where
  store : Store Disk
  conf : Conf
  si : IosId → Si
  prg : Prg
  cleanup : Bool
  thr : Thr
  acked : List (IosId × Rec)

def Mds.fresh (c : Conf) : Mds where
  store := Store.opened Disk.mkfs
  conf := c
  si _ := ⟨0, 0, false⟩
  prg := ⟨.closed, 0, 0, 0⟩
  cleanup := true
  thr := .idle
  acked := []

/-- `mds_reclaim_lwm`, without garbage collection some do not count. -/
def mdsReclaimLwm (ids : List IosId) (si : IosId → Si) (f : Si → ℕ) : ℕ :=
  ((ids.filter fun i => !(si i).disableGc).map fun i => f (si i)).foldr min uint64Max

/-- `mds_reclaim_hwm` of the batch numbers. -/
def mdsReclaimHwm (ids : List IosId) (si : IosId → Si) : ℕ := hwm ids fun i => (si i).batchno

/-! ### Progress and removal -/

/-- `mds_record_reclaim_prog` -/
def Disk.record (d : Disk) (ids : List IosId) (si : IosId → Si) : Disk :=
  { d with prog := fun i => if i ∈ ids then some ⟨(si i).xid, (si i).batchno⟩ else d.prog i }

variable (st : Store Disk)

def mdsRemoveLogfile (n : ℕ) : Store Disk :=
  match st.cur.files n with
  | some _ => st.write (st.cur.setFile n none)
  | none => st

/-- The loop of `mds_remove_logfiles`, until ten were not found. -/
def removeFrom : ℕ → ℕ → Store Disk → Store Disk
  | 0, _, st => st
  | i + 1, notfound, st =>
    match st.cur.files i with
    | some _ => removeFrom i notfound (mdsRemoveLogfile st i)
    | none => if 10 < notfound + 1 then st else removeFrom i (notfound + 1) st

/-- `mds_remove_logfiles`, from two before `batchno`. -/
def mdsRemoveLogfiles (batchno : ℕ) : Store Disk :=
  if batchno < 0x8000000000000000 then removeFrom (batchno - 1) 0 st else st

/-- `record` progress, and remove the file before if `all`. -/
def conclude (ids : List IosId) (si : IosId → Si) (record all : Bool) (batchno : ℕ) : Store Disk :=
  let st := if record then st.write (st.cur.record ids si) else st
  if all = true ∧ 1 ≤ batchno then mdsRemoveLogfile st (batchno - 1) else st

def skipSi (batchno : ℕ) (si : Si) : Si :=
  if si.batchno = batchno then { si with batchno := si.batchno + 1 } else si

def mdsSkipReclaimBatch (batchno : ℕ) (s : Mds) : Mds :=
  if s.prg.curBatchno ≤ batchno then s
  else
    let si := fun i => skipSi batchno (s.si i)
    let didwork := s.conf.ids.countP fun i => batchno ≤ (s.si i).batchno
    let record := s.conf.ids.any fun i => (s.si i).batchno = batchno
    { s with
      si := si
      store := conclude s.store s.conf.ids si record (didwork = s.conf.ids.length) batchno }

/-- What `mds_send_batch_reclaim` does about one I/O server. -/
inductive Ask where
  | skip
  | done
  | send (rs : List Rec)
  deriving DecidableEq

/-- The loop body: a file of `rs`, up to transaction `xid`. -/
def ask (batchno xid : ℕ) (rs : List Rec) (connected : Bool) (si : Si) : Ask :=
  if si.disableGc || !connected then .skip
  else if si.batchno < batchno then .skip
  else if batchno < si.batchno ∨ (rs.length + 1 < slmReclaimBatchNents ∧ xid < si.xid) then .done
  else .send (if si.xid ≤ xid then rs.dropWhile fun r => r.xid < si.xid else rs)

def Ask.records : Ask → Option (List Rec)
  | .send rs => some rs
  | _ => none

def nextBatchno (ids : List IosId) (si : IosId → Si) (conn : IosId → Bool) : ℕ :=
  ((ids.filter fun i => !(si i).disableGc && conn i).map fun i => (si i).batchno).foldr min uint64Max

variable (s : Mds)

def Mds.resume (didwork next : ℕ) : Mds :=
  { s with thr := if 0 < didwork ∧ next ≤ mdsReclaimHwm s.conf.ids s.si then .loop next else .idle }

/-- The requests for a file with the entries `rs`. -/
def sendArg (conn : IosId → Bool) (batchno : ℕ) (rs : List Rec) (s : Mds) : Rarg :=
  let xid := (rs.getLast?.map Rec.xid).getD 0
  let asked := fun i => ask batchno xid rs (conn i) (s.si i)
  let nb := nextBatchno s.conf.ids s.si conn
  { batchno := batchno
    next := if nb ≠ uint64Max ∧ nb ≠ batchno then nb else batchno + 1
    xid := xid
    count := rs.length + 1
    ndone := s.conf.ids.countP fun i => asked i = .done
    record := false
    pend := fun i => if i ∈ s.conf.ids then (asked i).records else none }

/-- `mds_send_batch_reclaim` before it waits. -/
def mdsSendBatchReclaim (conn : IosId → Bool) (batchno : ℕ) (s : Mds) : Mds :=
  match s.store.cur.files batchno with
  | none =>
    if batchno < s.prg.curBatchno then (mdsSkipReclaimBatch batchno s).resume 1 (batchno + 1)
    else { s with thr := .idle }
  | some [] => { s with thr := .idle }
  | some (_ :: rs) =>
    if rs = [] then { s with thr := .idle }
    else if slmReclaimBatchNents < rs.length + 1 then
      (mdsSkipReclaimBatch batchno s).resume 1 (batchno + 1)
    else { s with thr := .sending (sendArg conn batchno rs s) }

def ackSi (r : Rarg) (si : Si) : Si :=
  { si with
    xid := r.xid + 1
    batchno := if r.count = slmReclaimBatchNents then si.batchno + 1 else si.batchno }

/-- `slm_rim_reclaim_cb` for an I/O server that was sent `rs`. -/
def slmRimReclaimCb (r : Rarg) (i : IosId) (rs : List Rec) (ok : Bool) (s : Mds) : Mds :=
  let pend := update r.pend i none
  match ok with
  | true =>
    { s with
      si := update s.si i (ackSi r (s.si i))
      thr := .sending { r with pend := pend, ndone := r.ndone + 1, record := true }
      acked := s.acked ++ rs.map fun e => (i, e) }
  | false => { s with thr := .sending { r with pend := pend } }

/-- The part of `mds_send_batch_reclaim` after the replies. -/
def sendDone (r : Rarg) (s : Mds) : Mds :=
  Mds.resume
    { s with
      store := conclude s.store s.conf.ids s.si r.record
        (r.ndone = s.conf.ids.length ∧ r.count = slmReclaimBatchNents) r.batchno }
    r.ndone r.next

inductive Label where
  /-- `mds_write_logentry` opens the log file -/
  | openLog
  | header
  | entry (xid fid gen : ℕ)
  | wake
  | send (conn : IosId → Bool)
  | reply (i : IosId) (ok : Bool)
  | finish
  | gc (i : IosId) (off : Bool)
  /-- a restart that loses the last `k` writes -/
  | restart (k : ℕ) (c : Conf)

def Mds.put (w : Disk × Prg) : Mds := { s with store := s.store.write w.1, prg := w.2 }

def Mds.wake : Mds :=
  let batchno := mdsReclaimLwm s.conf.ids s.si Si.batchno
  { s with
    store := if s.cleanup then mdsRemoveLogfiles s.store batchno else s.store
    cleanup := false
    thr := .loop batchno }

def Mds.nothingNew : Prop :=
  s.prg.curXid = 0 ∨ s.prg.curXid < mdsReclaimLwm s.conf.ids s.si Si.xid
  deriving Decidable

def step : Label → Option Mds
  | .openLog =>
    if s.prg.stage = .closed then (openLog s.store.cur s.prg).map s.put else none
  | .header =>
    if s.prg.stage = .created then some (s.put (writeHeader s.store.cur s.prg)) else none
  | .entry xid fid gen =>
    if s.prg.stage = .ready then
      (writeEntry s.conf.ids xid fid gen s.store.cur s.prg).map s.put
    else none
  | .wake =>
    match s.thr with
    | .idle => some s.wake
    | _ => none
  | .send conn =>
    match s.thr with
    | .loop batchno =>
      some (if s.nothingNew then { s with thr := .idle } else mdsSendBatchReclaim conn batchno s)
    | _ => none
  | .reply i ok =>
    match s.thr with
    | .sending r => (r.pend i).map fun rs => slmRimReclaimCb r i rs ok s
    | _ => none
  | .finish =>
    match s.thr with
    | .sending r => if ∀ i ∈ s.conf.ids, r.pend i = none then some (sendDone r s) else none
    | _ => none
  | .gc i off => some { s with si := update s.si i { s.si i with disableGc := off } }
  | .restart k c =>
    (mdsJournalInit c (s.store.version k)).map fun (d, p, si) =>
      { store := (Store.opened (s.store.version k)).write d
        conf := c
        si := si
        prg := p
        cleanup := true
        thr := .idle
        acked := s.acked }

/-! ### What the thread can do in a step -/

section Thread

variable {s} {t : Mds}

theorem step_wake (h : step s .wake = some t) : t = s.wake := by
  simp only [step] at h
  split at h
  · exact (some.inj h).symm
  · cases h

theorem step_send {conn : IosId → Bool} (h : step s (.send conn) = some t) :
    ∃ b, s.thr = .loop b ∧ (t = { s with thr := .idle } ∨ t = mdsSendBatchReclaim conn b s) := by
  simp only [step] at h
  split at h <;> cases h
  rename_i b hs
  refine ⟨b, hs, ?_⟩
  split_ifs
  · exact .inl rfl
  · exact .inr rfl

theorem step_reply {i : IosId} {ok : Bool} (h : step s (.reply i ok) = some t) :
    ∃ r rs, s.thr = .sending r ∧ r.pend i = some rs ∧ t = slmRimReclaimCb r i rs ok s := by
  simp only [step] at h
  split at h
  · rename_i r hs
    obtain ⟨rs, hi, rfl⟩ := map_eq_some_iff.mp h
    exact ⟨r, rs, hs, hi, rfl⟩
  · cases h

theorem step_finish (h : step s .finish = some t) : ∃ r, s.thr = .sending r ∧ t = sendDone r s := by
  simp only [step] at h
  split at h
  · rename_i r hs
    obtain ⟨-, h⟩ := ite_none_right_eq_some.mp h
    exact ⟨r, hs, (some.inj h).symm⟩
  · cases h

theorem gc_progress (si : IosId → Si) (i : IosId) (off : Bool) (j : IosId) :
    (update si i { si i with disableGc := off } j).batchno = (si j).batchno ∧
      (update si i { si i with disableGc := off } j).xid = (si j).xid := by
  by_cases hj : j = i
  · rw [hj, update_self]
    exact ⟨rfl, rfl⟩
  · rw [update_of_ne hj]
    exact ⟨rfl, rfl⟩

end Thread

variable {batchno xid : ℕ} {rs sent : List Rec} {connected : Bool} {si : Si}

theorem ask_send_mem (h : ask batchno xid rs connected si = .send sent) {e : Rec} (he : e ∈ rs) :
    e ∈ sent ∨ e.xid < si.xid := by
  unfold ask at h
  split_ifs at h with h₁ h₂ h₃ h₄ <;> cases h
  · rw [← takeWhile_append_dropWhile (p := fun r : Rec => decide (r.xid < si.xid)) (l := rs), mem_append] at he
    rcases he with he | he
    · exact .inr (by simpa using mem_takeWhile_imp he)
    · exact .inl he
  · exact .inl he

theorem ask_send_batchno (h : ask batchno xid rs connected si = .send sent) : si.batchno = batchno := by
  unfold ask at h
  split_ifs at h with h₁ h₂ h₃ h₄
  all_goals
    omega

theorem ask_records (h : (ask batchno xid rs connected si).records = some sent) :
    ask batchno xid rs connected si = .send sent := by
  cases hask : ask batchno xid rs connected si with
  | skip => rw [hask] at h; cases h
  | done => rw [hask] at h; cases h
  | send => rw [hask] at h; cases h; rfl

theorem ask_done_batchno (hfull : rs.length + 1 = slmReclaimBatchNents)
    (h : ask batchno xid rs connected si = .done) : batchno < si.batchno := by
  unfold ask at h
  split_ifs at h with h₁ h₂ h₃
  omega

/-! ### Low-water marks -/

theorem foldr_min_eq {l : List ℕ} {b : ℕ} : l.foldr min b = b ∨ l.foldr min b ∈ l := by
  induction l with
  | nil => exact .inl rfl
  | cons a l ih =>
    rw [foldr_cons]
    rcases Nat.le_total a (l.foldr min b) with h | h
    · rw [Nat.min_eq_left h]
      exact .inr mem_cons_self
    · rw [Nat.min_eq_right h]
      exact ih.imp_right (mem_cons_of_mem a)

variable {si : IosId → Si}

theorem exists_lwm {c : Conf} (h : ∀ i ∈ c.ids, (si i).batchno ≤ uint64Max) :
    ∃ j ∈ c.ids, (si j).batchno ≤ mdsReclaimLwm c.ids si Si.batchno := by
  unfold mdsReclaimLwm
  rcases foldr_min_eq with hl | hl
  · obtain ⟨j, hj⟩ := exists_mem_of_ne_nil c.ids c.ne
    exact ⟨j, hj, by rw [hl]; exact h j hj⟩
  · obtain ⟨j, hj, heq⟩ := mem_map.mp hl
    exact ⟨j, (mem_filter.mp hj).1, Nat.le_of_eq heq⟩

theorem exists_nextBatchno {ids : List IosId} {conn : IosId → Bool} (h : nextBatchno ids si conn ≠ uint64Max) :
    ∃ j ∈ ids, (si j).batchno = nextBatchno ids si conn := by
  rcases foldr_min_eq (l := (ids.filter fun i => !(si i).disableGc && conn i).map
    fun i => (si i).batchno) with hl | hl
  · exact absurd hl h
  · obtain ⟨j, hj, heq⟩ := mem_map.mp hl
    exact ⟨j, (mem_filter.mp hj).1, heq⟩

variable {st} {P : Store Disk → Prop}

theorem mdsRemoveLogfile_cases {n : ℕ} (hst : P st)
    (hrm : P (st.write (st.cur.setFile n none))) : P (mdsRemoveLogfile st n) := by
  unfold mdsRemoveLogfile
  cases st.cur.files n with
  | none => exact hst
  | some => exact hrm

theorem mdsRemoveLogfiles_cases {b : ℕ} (hrm : ∀ st n, n + 2 ≤ b → P st → P (mdsRemoveLogfile st n)) (hst : P st) :
    P (mdsRemoveLogfiles st b) := by
  have hfrom : ∀ i notfound st, i + 1 ≤ b ∨ i = 0 → P st → P (removeFrom i notfound st) := by
    intro i
    induction i with
    | zero => exact fun _ _ _ h => h
    | succ i ih =>
      intro notfound st hi h
      unfold removeFrom
      cases st.cur.files i with
      | some => exact ih _ _ (by omega) (hrm st i (by omega) h)
      | none =>
        split_ifs
        · exact h
        · exact ih _ _ (by omega) h
  unfold mdsRemoveLogfiles
  split_ifs
  · exact hfrom _ _ _ (by omega) hst
  · exact hst

end Slash2.Reclaim
