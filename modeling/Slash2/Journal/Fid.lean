/-
# File IDs across a crash

The MDS hands out file IDs from a counter in memory, `slm_next_fid`. The cursor file
holds a copy of the counter and the number of the last transaction group that is on
disk. On a restart the counter is set from the cursor, and every entry of the journal
of a later group that made a file, a directory or a link moves it on by one. The ID in
the entry is not looked at.

Key theorem: `fid_run`.
-/
import Mathlib.Data.List.Perm.Basic
import Mathlib.Order.Nat
import Slash2.Lib.Run
import Slash2.Lib.Store

namespace Slash2.Fid

open Lib List Option

/-! ### The fields of a file ID -/

/-- `slfid_t` -/
abbrev Slfid := BitVec 64

def maxvalmask (nb : ℕ) : BitVec 64 := (1#64 <<< nb) - 1#64

variable (fid : Slfid)

def fidGetField (shft nb : ℕ) : BitVec 64 := (fid >>> shft) &&& maxvalmask nb

def fidSetField (val : BitVec 64) (shft nb : ℕ) : Slfid :=
  (fid &&& ~~~(maxvalmask nb <<< shft)) ||| ((val &&& maxvalmask nb) <<< shft)

def slashFidInumBits : ℕ := 42

def slashFidMdsidBits : ℕ := 10

/-- `SLASH_FID_MDSID_SHFT` -/
def slashFidMdsidShft : ℕ := 50

def fidGetInum : BitVec 64 := fidGetField fid 0 slashFidInumBits

def fidGetSiteid : BitVec 64 := fidGetField fid slashFidMdsidShft slashFidMdsidBits

def fidSetSiteid (id : BitVec 64) : Slfid :=
  fidSetField fid id slashFidMdsidShft slashFidMdsidBits

def fidMaxInum : BitVec 64 := maxvalmask slashFidInumBits

def slfidMin : Slfid := 3

def inum : ℕ := (fidGetInum fid).toNat

theorem inum_eq : inum fid = fid.toNat % 0x40000000000 := by
  exact Nat.and_two_pow_sub_one_eq_mod fid.toNat 42

theorem inum_le : inum fid ≤ 0x3ffffffffff := by
  rw [inum_eq]
  omega

variable {fid}

theorem inum_succ (h : inum fid < 0x3ffffffffff) : inum (fid + 1) = inum fid + 1 := by
  rw [inum_eq] at h ⊢
  rw [inum_eq, BitVec.toNat_add]
  have : (1 : BitVec 64).toNat = 1 := rfl
  omega

theorem maxvalmask_inum_getElem {i : ℕ} (hi : i < 64) (hlow : 50 ≤ i) : (maxvalmask slashFidInumBits)[i] = false := by
  refine Nat.testBit_lt_two_pow (Nat.lt_of_lt_of_le ?_ (Nat.pow_le_pow_right Nat.two_pos hlow))
  decide

theorem inum_fidSetSiteid (fid : Slfid) (id : BitVec 64) : inum (fidSetSiteid fid id) = inum fid := by
  have hbits : fidGetInum (fidSetSiteid fid id) = fidGetInum fid := by
    ext i hi
    simp only [fidGetInum, fidSetSiteid, fidGetField, fidSetField, slashFidMdsidShft, BitVec.ushiftRight_zero,
      BitVec.getElem_and, BitVec.getElem_or, BitVec.getElem_not, BitVec.getElem_shiftLeft]
    by_cases hlow : i < 50
    · simp [hlow]
    · simp [maxvalmask_inum_getElem hi (Nat.not_lt.mp hlow)]
  rw [inum, hbits, inum]

/-- `slm_get_next_slashfid`: the ID and the counter, or `ENOSPC`. -/
def slmGetNextSlashfid (next : Slfid) : Option (Slfid × Slfid) :=
  if fidGetInum next ≥ fidMaxInum then none else some (next, next + 1)

def advance (next : Slfid) : Slfid :=
  match slmGetNextSlashfid next with
  | some (_, n) => n
  | none => next

variable {n : Slfid}

theorem slmGetNextSlashfid_eq_some {next f : Slfid} (h : slmGetNextSlashfid next = some (f, n)) :
    f = next ∧ n = next + 1 ∧ inum n = inum next + 1 := by
  obtain ⟨hlt, h⟩ := ite_none_left_eq_some.mp h
  cases h
  have hlt : inum next < 0x3ffffffffff := by
    exact BitVec.lt_def.mp (BitVec.not_le.mp hlt)
  exact ⟨rfl, rfl, inum_succ hlt⟩

theorem inum_advance (next : Slfid) : inum (advance next) = min 0x3ffffffffff (inum next + 1) := by
  unfold advance
  split
  · rename_i f n h
    obtain ⟨-, -, hn⟩ := slmGetNextSlashfid_eq_some h
    have := inum_le n
    omega
  rename_i h
  -- the counter is at its end and stays there
  have hge : fidMaxInum ≤ fidGetInum next := by
    by_contra hlt
    simp [slmGetNextSlashfid, hlt] at h
  have hge : 0x3ffffffffff ≤ inum next := by
    exact BitVec.le_def.mp hge
  have := inum_le next
  omega

/-! ### Requests, the journal and the cursor -/

/-- The operations of the log, `NS_OP_*`. -/
inductive NsOp where
  | create | link | mkdir | rename | rmdir | setsize | setattr | symlink | unlink | reclaim
  deriving DecidableEq

inductive Req where
  | create | mkdir | mknod | symlink | forwardCreate | forwardMkdir | forwardSymlink | importFile

/-- What `mdslog_namespace` logs for the request. -/
def Req.logged : Req → Option NsOp
  | .create | .mknod | .forwardCreate | .importFile => some .create
  | .mkdir | .forwardMkdir => some .mkdir
  | .symlink => some .symlink
  | .forwardSymlink => none

structure Jent where
  op : NsOp
  txg : ℕ

/-- `mds_replay_handler` takes an ID for the entry. -/
def Jent.counts (e : Jent) : Bool :=
  e.op = .create || e.op = .mkdir || e.op = .link || e.op = .symlink

/-- `mds_replay_handler`, for the counter. -/
def mdsReplayHandler (next : Slfid) (e : Jent) : Slfid := if e.counts then advance next else next

structure Cursor where
  commitTxg : ℕ
  /-- `pjc_fid` -/
  fid : Slfid
  /-- IDs without an entry handed out before it was written -/
  bare : ℕ

structure Mds where
  /-- `slm_next_fid` -/
  next : Slfid
  txg : ℕ
  /-- `start_txg` of `mds_update_cursor` -/
  startTxg : ℕ
  pending : List Jent
  jrnl : List Jent
  file : Store Cursor
  handed : List Slfid
  /-- how many IDs were handed out to operations that write no entry -/
  bare : ℕ

/-- A file system as `slmkfs` makes it for a site. -/
def Mds.format (site : BitVec 64) : Mds :=
  let fid := fidSetSiteid slfidMin site
  ⟨fid, 1, 0, [], [], Store.opened ⟨0, fid, 0⟩, [], 0⟩

/-- `mds_open_cursor`, for the counter; the assertion may fail. -/
def mdsOpenCursor (site : BitVec 64) (c : Cursor) : Option Slfid :=
  if slfidMin ≤ c.fid then
    some (if fidGetSiteid c.fid = 0 then fidSetSiteid c.fid site else c.fid)
  else none

/-- A restart: entries above the cursor's group are replayed. -/
def recover (site : BitVec 64) (c : Cursor) (es : List Jent) (txg : ℕ) (s : Mds) : Option Mds :=
  (mdsOpenCursor site c).map fun fid =>
    { s with
      next := (es.filter fun e => c.commitTxg < e.txg).foldl mdsReplayHandler fid
      txg := txg
      startTxg := c.commitTxg
      pending := []
      jrnl := es
      file := Store.opened c }

inductive Ev where
  | alloc (r : Req)
  | request (op : NsOp)
  /-- `mdslog_namespace` for the `i`th pending operation -/
  | log (i : ℕ)
  | close
  /-- `mds_update_cursor(flag = 1)`: the group is quiescent -/
  | quiesce (txg : ℕ)
  /-- `mds_update_cursor(flag = 0)` and the write of the cursor -/
  | cursor
  /-- A crash: the last `k` cursor writes are lost, `m` entries are left. -/
  | crash (k m txg : ℕ)

def step (site : BitVec 64) (s : Mds) : Ev → Option Mds
  | .alloc r =>
    match slmGetNextSlashfid s.next with
    | none => some s
    | some (f, n) =>
      match r.logged with
      | some op => some { s with next := n, handed := f :: s.handed, pending := ⟨op, s.txg⟩ :: s.pending }
      | none => some { s with next := n, handed := f :: s.handed, bare := s.bare + 1 }
  | .request op => some { s with pending := ⟨op, s.txg⟩ :: s.pending }
  | .log i =>
    s.pending[i]?.map fun e => { s with pending := s.pending.eraseIdx i, jrnl := s.jrnl ++ [e] }
  | .close => some { s with txg := s.txg + 1 }
  | .quiesce t =>
    if t < s.txg ∧ ∀ e ∈ s.pending, t < e.txg then some { s with startTxg := t } else none
  | .cursor => some { s with file := s.file.write ⟨s.startTxg, s.next, s.bare⟩ }
  | .crash k m t =>
    if (s.file.version k).commitTxg < t then recover site (s.file.version k) (s.jrnl.take m) t s else none

def Cursor.counted (c : Cursor) (es : List Jent) : ℕ := es.countP fun e => c.commitTxg < e.txg && e.counts

/-- A crash loses no entry that counts, and no FID given out without one since the cursor was written. -/
def Safe (s : Mds) : Ev → Prop
  | .crash k m _ =>
    (∀ e ∈ s.pending, e.counts = false) ∧ (s.file.version k).counted (s.jrnl.drop m) = 0 ∧
      s.bare = (s.file.version k).bare
  | _ => True

instance (s : Mds) (a : Ev) : Decidable (Safe s a) := by
  cases a <;> unfold Safe <;> infer_instance

theorem inum_replay (c : Cursor) (es : List Jent) (next : Slfid) :
    inum ((es.filter fun e => c.commitTxg < e.txg).foldl mdsReplayHandler next) =
      min 0x3ffffffffff (inum next + c.counted es) := by
  induction es generalizing next with
  | nil =>
    have := inum_le next
    simp [Cursor.counted]
    omega
  | cons e es ih =>
    by_cases htxg : c.commitTxg < e.txg
    · by_cases hc : e.counts = true
      · have hcount : c.counted (e :: es) = c.counted es + 1 := by simp [Cursor.counted, htxg, hc]
        rw [filter_cons_of_pos (by simpa using htxg), foldl_cons, ih, mdsReplayHandler, if_pos hc,
          inum_advance, hcount]
        omega
      · have hcount : c.counted (e :: es) = c.counted es := by simp [Cursor.counted, hc]
        rw [filter_cons_of_pos (by simpa using htxg), foldl_cons, ih, mdsReplayHandler, if_neg hc, hcount]
    · have hcount : c.counted (e :: es) = c.counted es := by simp [Cursor.counted, htxg]
      rw [filter_cons_of_neg (by simpa using htxg), ih, hcount]

variable {c : Cursor} {s : Mds} {site : BitVec 64}

theorem inum_mdsOpenCursor (h : mdsOpenCursor site c = some fid) : inum fid = inum c.fid := by
  obtain ⟨-, h⟩ := ite_none_right_eq_some.mp h
  cases h
  split
  · exact inum_fidSetSiteid c.fid site
  · rfl

theorem counted_append (c : Cursor) (es es' : List Jent) :
    c.counted (es ++ es') = c.counted es + c.counted es' := countP_append

/-- What `mds_update_cursor` would write now. -/
def Mds.snapshot (s : Mds) : Cursor := ⟨s.startTxg, s.next, s.bare⟩

/-- A restart from `c` does not fall behind. -/
structure Covers (c : Cursor) (s : Mds) : Prop where
  txg : c.commitTxg < s.txg
  pending : ∀ e ∈ s.pending, c.commitTxg < e.txg
  bare : c.bare ≤ s.bare
  next : inum s.next ≤ inum c.fid + c.counted s.jrnl + c.counted s.pending + (s.bare - c.bare)

structure Counted (s : Mds) : Prop where
  handed : ∀ f ∈ s.handed, inum f < inum s.next
  now : Covers s.snapshot s
  file : ∀ k, Covers (s.file.version k) s

theorem counted_cons (c : Cursor) (e : Jent) (es : List Jent) :
    c.counted (e :: es) = c.counted es + if c.commitTxg < e.txg ∧ e.counts = true then 1 else 0 := by
  simp [Cursor.counted, countP_cons]

theorem Covers.join (h : Covers c s) (op : NsOp) : Covers c { s with pending := ⟨op, s.txg⟩ :: s.pending } := by
  refine ⟨h.txg, ?_, h.bare, ?_⟩
  · simpa using ⟨h.txg, h.pending⟩
  · have := h.next
    simp only [counted_cons]
    omega

theorem Covers.alloc {r : Req} {op : NsOp} (h : Covers c s)
    (hn : inum n = inum s.next + 1) (hr : r.logged = some op) (fs : List Slfid) :
    Covers c { s with next := n, handed := fs, pending := ⟨op, s.txg⟩ :: s.pending } := by
  have hcounts : (Jent.mk op s.txg).counts := by
    cases r <;> cases hr <;> rfl
  refine ⟨h.txg, (h.join op).pending, h.bare, ?_⟩
  have := h.next
  simp only [counted_cons, hcounts, h.txg, hn]
  simp
  omega

theorem Covers.allocBare (h : Covers c s) (hn : inum n = inum s.next + 1) (fs : List Slfid) :
    Covers c { s with next := n, handed := fs, bare := s.bare + 1 } := by
  have hnext := h.next
  have hbare := h.bare
  refine ⟨h.txg, h.pending, by dsimp only; omega, ?_⟩
  dsimp only
  omega

theorem Covers.log {i : ℕ} {e : Jent} (h : Covers c s) (he : s.pending[i]? = some e) :
    Covers c { s with pending := s.pending.eraseIdx i, jrnl := s.jrnl ++ [e] } := by
  refine ⟨h.txg, fun x hx => h.pending x (mem_of_mem_eraseIdx hx), h.bare, ?_⟩
  obtain ⟨hi, rfl⟩ := List.getElem?_eq_some_iff.mp he
  have hsum : c.counted s.pending = c.counted [s.pending[i]] + c.counted (s.pending.eraseIdx i) := by
    rw [← counted_append]
    exact ((getElem_cons_eraseIdx_perm hi).countP_eq _).symm
  have := h.next
  simp only [counted_append]
  omega

theorem recover_counted {m txg : ℕ} {t : Mds} (h : Counted s) (hc : Covers c s)
    (htxg : c.commitTxg < txg) (hp : ∀ e ∈ s.pending, e.counts = false)
    (hm : c.counted (s.jrnl.drop m) = 0) (hbare : s.bare = c.bare)
    (hs : recover site c (s.jrnl.take m) txg s = some t) : Counted t := by
  obtain ⟨fid, hfid, rfl⟩ := map_eq_some_iff.mp hs
  have hrec := inum_replay c (s.jrnl.take m) fid
  rw [inum_mdsOpenCursor hfid] at hrec
  -- nothing is lost, so what the journal counted for it still does
  have hjrnl : c.counted s.jrnl = c.counted (s.jrnl.take m) := by
    conv_lhs => rw [← take_append_drop m s.jrnl, counted_append, hm]
    rfl
  have hpend : c.counted s.pending = 0 := countP_eq_zero.mpr fun e he => by simp [hp e he]
  have hnext := hc.next
  have hmax := inum_le s.next
  have hle : inum s.next ≤
      inum (((s.jrnl.take m).filter fun e => c.commitTxg < e.txg).foldl mdsReplayHandler fid) := by
    omega
  refine ⟨fun f hf => (h.handed f hf).trans_le hle, ?_, forall_version_opened (P := (Covers · _)) ?_⟩
  · refine ⟨htxg, by simp, le_rfl, ?_⟩
    simp only [Mds.snapshot]
    omega
  · refine ⟨htxg, by simp, hbare.ge, ?_⟩
    dsimp only
    omega

theorem step_counted {t : Mds} {a : Ev} (h : Counted s) (ho : Safe s a) (hs : step site s a = some t) : Counted t := by
  have hhanded {n : Slfid} (hn : inum n = inum s.next + 1) : ∀ g ∈ s.next :: s.handed, inum g < inum n := by
    intro g hg
    rcases mem_cons.mp hg with rfl | hg
    · omega
    · have := h.handed g hg
      omega
  revert hs
  fun_cases step site s a <;> intro hs <;> try cases hs
  next => exact h
  next hf op hr =>
    obtain ⟨rfl, -, hn⟩ := slmGetNextSlashfid_eq_some hf
    refine ⟨hhanded hn, ?_, fun k => (h.file k).alloc hn hr _⟩
    exact ⟨h.now.txg, (h.now.join op).pending, le_rfl, by simp [Mds.snapshot]; omega⟩
  next hf _ =>
    obtain ⟨rfl, -, hn⟩ := slmGetNextSlashfid_eq_some hf
    refine ⟨hhanded hn, ?_, fun k => (h.file k).allocBare hn _⟩
    exact ⟨h.now.txg, h.now.pending, le_rfl, by simp [Mds.snapshot]; omega⟩
  next op => exact ⟨h.handed, h.now.join op, fun k => (h.file k).join op⟩
  next =>
    obtain ⟨e, he, rfl⟩ := map_eq_some_iff.mp hs
    exact ⟨h.handed, h.now.log he, fun k => (h.file k).log he⟩
  next =>
    have hclose : ∀ c, Covers c s → Covers c { s with txg := s.txg + 1 } := fun c hc =>
      ⟨Nat.lt_succ_of_lt hc.txg, hc.pending, hc.bare, hc.next⟩
    exact ⟨h.handed, hclose _ h.now, fun k => hclose _ (h.file k)⟩
  next hq =>
    refine ⟨h.handed, ⟨hq.1, hq.2, le_rfl, by simp [Mds.snapshot]; omega⟩, fun k => ?_⟩
    exact ⟨(h.file k).txg, (h.file k).pending, (h.file k).bare, (h.file k).next⟩
  next =>
    have hnow : Covers s.snapshot { s with file := s.file.write s.snapshot } :=
      ⟨h.now.txg, h.now.pending, h.now.bare, h.now.next⟩
    refine ⟨h.handed, hnow, forall_version_write (P := (Covers · _)) (fun k => ?_) hnow⟩
    exact ⟨(h.file k).txg, (h.file k).pending, (h.file k).bare, (h.file k).next⟩
  next k _ _ htxg =>
    obtain ⟨hp, hm, hbare⟩ := ho
    exact recover_counted h (h.file k) htxg hp hm hbare hs

theorem format_counted (site : BitVec 64) : Counted (Mds.format site) := by
  have hcov : Covers ⟨0, fidSetSiteid slfidMin site, 0⟩ (Mds.format site) :=
    ⟨Nat.one_pos, by simp [Mds.format], le_rfl, by simp [Mds.format]; omega⟩
  exact ⟨by simp [Mds.format], hcov, forall_version_opened (P := (Covers · _)) hcov⟩

/-- **File IDs are not reused**, if crashes leave no ID without its entry. -/
theorem fid_run (site : BitVec 64) {as : List Ev} {t : Mds} (hok : Admits (step site) Safe (Mds.format site) as)
    (ht : run (step site) (Mds.format site) as = some t) {f n : Slfid}
    (hf : slmGetNextSlashfid t.next = some (f, n)) : ∀ g ∈ t.handed, inum g < inum f := by
  have h : Counted t := run_invariant step_counted (format_counted site) hok ht
  obtain ⟨rfl, -⟩ := slmGetNextSlashfid_eq_some hf
  exact h.handed

def replayedRun : List Ev :=
  [.alloc .create, .log 0, .close, .quiesce 1, .cursor, .alloc .mkdir, .log 0, .crash 0 2 3]

/-- Both are counted. -/
theorem fid_run_replayed : ∃ t : Mds, run (step 7) (Mds.format 7) replayedRun = some t ∧ t.handed.length = 2 ∧
      slmGetNextSlashfid t.next = some (fidSetSiteid 5 7, fidSetSiteid 6 7) ∧
      ∀ g ∈ t.handed, inum g < inum (fidSetSiteid 5 7) :=
  have hok : Admits (step 7) Safe (Mds.format 7) replayedRun := by decide
  ⟨_, rfl, rfl, by decide, fid_run 7 hok rfl (n := fidSetSiteid 6 7) (by decide)⟩

/-- A link for another MDS, a crash that loses nothing, and the same ID. -/
theorem fid_reused : ∃ t ∈ run (step 7) (Mds.format 7) [.alloc .forwardSymlink, .crash 0 0 2, .alloc .create],
      t.handed = [fidSetSiteid 3 7, fidSetSiteid 3 7] := by
  decide

end Slash2.Fid
