/-
# The update scheduler's table

The MDS keeps a database table `upsch` with one row for each replica of a bmap
that waits for work: a copy, a partial truncation, a reclaim. A row is found by
the resource, the file and the bmap number, and its status says if the work is
queued (`'Q'`) or given to a server (`'S'`).

Key theorems: `slmReplUpdWrite_status`, `slmReplUpdWrite_clash`.
-/
import Slash2.Lib.Run
import Slash2.Lib.Table
import Slash2.Residency.Replicate

namespace Slash2.Upsch

open Lib Residency Option Function

/-! ### The table and the state -/

/-- The column `status`: `'Q'` or `'S'`. -/
inductive Status where
  | q
  | s
  deriving DecidableEq

structure Row where
  status : Status
  sysPrio : ℤ
  usrPrio : ℤ

structure BmapId where
  fid : ℕ
  bno : ℕ
  deriving DecidableEq

/-- `UNIQUE(resid, fid, bno)` -/
abbrev Key := IosId × BmapId

structure Site where
  ino : ℕ → Inode
  /-- `libsl_id2res` finds the resource -/
  known : IosId → Bool
  repl_inj : ∀ fid, ∀ i < (ino fid).nrepls, ∀ j < (ino fid).nrepls,
    fcmh2Repl (ino fid) i = fcmh2Repl (ino fid) j → i = j

namespace Site

/-- `fcmh_2_nrepls` -/
def nrepls (site : Site) (k : BmapId) : ℕ := (site.ino k.fid).nrepls

def res (site : Site) (k : BmapId) (n : ℕ) : IosId := fcmh2Repl (site.ino k.fid) n

theorem nrepls_le (site : Site) (k : BmapId) : site.nrepls k ≤ slMaxReplicas := (site.ino k.fid).nrepls_le

theorem res_inj (site : Site) {k : BmapId} {i j : ℕ} (hi : i < site.nrepls k)
    (hj : j < site.nrepls k) (h : site.res k i = site.res k j) : i = j :=
  site.repl_inj k.fid i hi j hj h

end Site

/-- Bmaps, database and `SIF_PRECLAIM_NOTSUP`. -/
structure St where
  bmap : BmapId → Bmap
  upsch : Table Key Row
  notsup : IosId → Bool

variable (site : Site) (s : St)

def supports (i : IosId) : Bool := site.known i && !s.notsup i

namespace St

def state (k : BmapId) (n : ℕ) : Breplst := stateAt (s.bmap k).repls n

def status (s : St) (i : IosId) (k : BmapId) : Option Status := (s.upsch.rows (i, k)).map Row.status

def setBmap (k : BmapId) (b : Bmap) : St := { s with bmap := update s.bmap k b }

def setRepls (k : BmapId) (d : Repls) : St := s.setBmap k { s.bmap k with repls := d }

/-- `UPDATE upsch SET status = ? -/
def setStatus (i : IosId) (k : BmapId) (st : Status) : St :=
  { s with upsch := s.upsch.exec (.update (i, k) fun r => { r with status := st }) }

end St

inductive Push where
  | add
  | del
  | chg (stat : Option Status)
  deriving DecidableEq

def updPush (supp prio : Bool) (vold vnew : Breplst) : Option Push :=
  if vold = vnew then none
  else if (vold ≠ .replSched ∧ vnew = .replQueued) ∨ (vnew = .garbage ∧ supp) then some .add
  else if (vold = .replQueued ∨ vold = .replSched ∨ vold = .truncpndgSched ∨ vold = .truncpndg ∨
      vold = .garbageSched ∨ vold = .valid) ∧
      (vnew = .garbage ∨ vnew = .valid ∨ vnew = .invalid) then some .del
  else if vold = .replSched ∨ vold = .truncpndgSched then some (.chg (some .q))
  else if (vold ≠ .replQueued ∧ vnew = .replQueued) ∨ (vold ≠ .truncpndg ∧ vnew = .truncpndg) then
    some (.chg (some .s))
  else if prio then some (.chg none)
  else none

/-- `IFNULL(?, old)`, where `-1` is bound as NULL. -/
def ifnull (v old : ℤ) : ℤ := if v = -1 then old else v

variable (k : BmapId)

def updStmt (sprio uprio : ℤ) (resid : IosId) : Push → Option (Stmt Key Row)
  | .add => if site.known resid then some (.insert (resid, k) ⟨.q, sprio, uprio⟩) else none
  | .del => some (.delete (resid, k))
  | .chg stat => some (.update (resid, k) fun r =>
      ⟨stat.getD r.status, ifnull sprio r.sysPrio, ifnull uprio r.usrPrio⟩)

/-- What the loop of `slm_repl_upd_write` makes of replica `n`. -/
def replStmt (sprio uprio : ℤ) (orepls : Repls) (s : St) (n : ℕ) : Option (Stmt Key Row) :=
  (updPush (supports site s (site.res k n)) (decide (sprio ≠ -1 ∨ uprio ≠ -1)) (stateAt orepls n)
    (s.state k n)).bind (updStmt site k sprio uprio (site.res k n))

/-- The arrays `add`, `del` and `chg`, executed one by one. -/
def replStmts (sprio uprio : ℤ) (orepls : Repls) (s : St) : List (Stmt Key Row) :=
  inPhases ((List.range (site.nrepls k)).filterMap (replStmt site k sprio uprio orepls s))

def slmReplUpdWrite (sprio uprio : ℤ) (orepls : Repls) (s : St) : St :=
  { s with upsch := s.upsch.execAll (replStmts site k sprio uprio orepls s) }

/-- A committed change; `bmi_orepls` is what was found. -/
def commit (new : Bmap) (sprio uprio : ℤ) (s : St) : St :=
  slmReplUpdWrite site k sprio uprio (s.bmap k).repls (s.setBmap k new)

def commitRepls (d : Repls) (s : St) : St :=
  commit site k { s.bmap k with repls := d } (-1) (-1) s

/-- The translation `mds_repl_addrq` commits. -/
def addrqTract : Tract
  | .invalid | .replSched | .garbage | .garbageSched => some .replQueued
  | _ => none

/-- The translation `mds_repl_delrq` commits. -/
def delrqTract : Tract
  | .replQueued | .replSched | .valid => some .garbage
  | _ => none

/-- What `slm_ptrunc_apply` commits at the new end. -/
def ptruncTract : Tract := tractOne .valid .truncpndg

/-- Translated replicas `iosidx`, or all. -/
def translated (tract : Tract) (iosidx : List ℕ) (s : St) : Bmap :=
  { s.bmap k with repls := (mdsReplBmapWalk tract (fun _ => 0) WalkFlags.none iosidx
      (fun _ _ u => u) (site.nrepls k) (s.bmap k).repls ()).repls }

/-! ### Copies -/

/-- `slm_upsch_tryrepl` gets to the batch queue. -/
def asksBatch (env : TryEnv) (bno : ℕ) (b : Bmap) (dst : ℕ) : Bool :=
  env.bwAvail && env.csvc && !noLength env.fsz bno && decide (stateAt b.repls dst = .replQueued)

/-- `slm_upsch_tryrepl` with its database statements. -/
def upschTryrepl (env : TryEnv) (hasData : ℕ → Bool) (k : BmapId) (dst : ℕ) (s : St) : Option St :=
  match slmUpschTryrepl env k.bno hasData (s.bmap k) dst with
  | .fatal => none
  | .sent d _ => some ((s.setRepls k d).setStatus (site.res k dst) k .s)
  | .kept d =>
    if slmBmapCalcRepltraffic env.fsz k.bno hasData = 0 then some (commitRepls site k d s)
    else if asksBatch env k.bno (s.bmap k) dst then
      -- the batch queue refused the request: `'S'` has been written and `'Q'` follows it
      some (((s.setRepls k d).setStatus (site.res k dst) k .s).setStatus (site.res k dst) k .q)
    else some (s.setRepls k d)

/-- `slm_batch_repl_cb` queues the replica again. -/
def requeues (gen bgen : BitVec 32) (a : Answer) : Bool :=
  ¬ (a.ecode = 0 ∧ checkedRc gen bgen a = some 0) ∧
    (checkedRc gen bgen a = none ∨ checkedRc gen bgen a = some slerrIonOffline)

/-- `slm_batch_repl_cb` on one entry, with the database. -/
def upschBatchReplCb (dst : ℕ) (bgen : BitVec 32) (a : Answer) (s : St) : St :=
  let b := s.bmap k
  let s1 := if requeues b.gen bgen a then s.setStatus (site.res k dst) k .q else s
  let ap := replApply (batchTract b.gen bgen a) (batchRetifset b.gen bgen a) b.repls dst
  if ap.rc ≠ 0 then commitRepls site k ap.repls s1 else s1.setRepls k ap.repls

/-- What `slm_upsch_tryptrunc` meets. -/
structure PtruncEnv where
  csvc : Bool
  newreqRc : ℤ
  sendRc : ℤ

/-- `slm_upsch_finish_ptrunc`: an error puts the state back. -/
def slmUpschFinishPtrunc (dst : ℕ) (rc : ℤ) (s : St) : St :=
  if rc ≠ 0 then
    s.setRepls k (replApply (tractOne .truncpndgSched .truncpndg) (fun _ => 0) (s.bmap k).repls dst).repls
  else s

/-- Some replica is `TRUNCPNDG_SCHED`. -/
def ptruncBusy (s : St) : Bool :=
  (mdsReplBmapWalk Tract.init (fun v => if v = .truncpndgSched then 1 else 0) ⟨true, false⟩ []
    (fun _ _ u => u) (site.nrepls k) (s.bmap k).repls ()).rc ≠ 0

def slmUpschTryptrunc (env : PtruncEnv) (k : BmapId) (dst : ℕ) (s : St) : St :=
  if ptruncBusy site k s then s
  -- without a request the finishing function gets no bmap and changes nothing
  else if env.csvc = false ∨ env.newreqRc ≠ 0 then s
  else
    let a := replApply (tractOne .truncpndg .truncpndgSched) brepInitIdx (s.bmap k).repls dst
    if a.rc = Breplst.truncpndg.code.toNat then
      if env.sendRc = 0 then s.setRepls k a.repls
      else slmUpschFinishPtrunc k dst env.sendRc (s.setRepls k a.repls)
    else s.setRepls k a.repls

/-! ### Reclaim -/

/-- What `slm_upsch_trypreclaim` meets. -/
structure PreclaimEnv where
  csvc : Bool
  batchRc : ℤ

def slmUpschTrypreclaim (env : PreclaimEnv) (k : BmapId) (dst : ℕ) (s : St) : St :=
  if s.notsup (site.res k dst) then s
  else if env.csvc = false then s
  else if env.batchRc ≠ 0 then s
  else commitRepls site k
    (replApply (tractOne .garbage .garbageSched) brepInitIdx (s.bmap k).repls dst).repls s

inductive PreclaimRc where
  | ok
  | notsup
  | error
  deriving DecidableEq

/-- The server does not take reclaims. -/
def noteNotsup (ios : IosId) (rc : PreclaimRc) (s : St) : St :=
  if rc = .notsup then { s with notsup := update s.notsup ios true } else s

/-- The state after a reclaim. -/
def reclaimed (rc : PreclaimRc) : Breplst := if rc = .ok then .invalid else .garbage

/-- `mds_repl_iosv_lookup` of one resource. -/
def iosvLookup (lenv : LookupEnv) (k : BmapId) (ios : IosId) : Option ℕ :=
  match iosSearch lenv (site.ino k.fid) ios (List.range (site.nrepls k)) with
  | .ok idx => idx
  | .error _ => none

/-- `slm_batch_preclaim_cb` on one entry. -/
def slmBatchPreclaimCb (lenv : LookupEnv) (k : BmapId) (ios : IosId) (rc : PreclaimRc) (s : St) : Option St :=
  (iosvLookup site lenv k ios).map fun idx => commitRepls site k (mdsReplBmapWalk
    (tractOne .garbageSched (reclaimed rc)) (fun _ => 0) WalkFlags.none [idx] (fun _ _ u => u)
    (site.nrepls k) (s.bmap k).repls ()).repls (noteNotsup ios rc s)

inductive Label where
  | change (k : BmapId) (new : Bmap) (sprio uprio : ℤ)
  | tryrepl (k : BmapId) (dst : ℕ) (env : TryEnv) (hasData : ℕ → Bool)
  | batchReplCb (k : BmapId) (dst : ℕ) (bgen : BitVec 32) (a : Answer)
  | tryptrunc (k : BmapId) (dst : ℕ) (env : PtruncEnv)
  | finishPtrunc (k : BmapId) (dst : ℕ) (rc : ℤ)
  | trypreclaim (k : BmapId) (dst : ℕ) (env : PreclaimEnv)
  | batchPreclaimCb (k : BmapId) (ios : IosId) (rc : PreclaimRc) (lenv : LookupEnv)

def target (dst : ℕ) : Bool :=
  decide (dst < site.nrepls k) && site.known (site.res k dst)

def step : Label → Option St
  | .change k new sprio uprio => some (commit site k new sprio uprio s)
  | .tryrepl k dst env hasData =>
    if target site k dst then upschTryrepl site env hasData k dst s else none
  | .batchReplCb k dst bgen a =>
    if target site k dst then some (upschBatchReplCb site k dst bgen a s) else none
  | .tryptrunc k dst env =>
    if target site k dst then some (slmUpschTryptrunc site env k dst s) else none
  | .finishPtrunc k dst rc =>
    if target site k dst then some (slmUpschFinishPtrunc k dst rc s) else none
  | .trypreclaim k dst env =>
    if target site k dst then some (slmUpschTrypreclaim site env k dst s) else none
  | .batchPreclaimCb k ios rc lenv => slmBatchPreclaimCb site lenv k ios rc s

/-! ### The fields after an update -/

section Fields

@[simp] theorem setBmap_bmap (b : Bmap) : (s.setBmap k b).bmap k = b := update_self ..

theorem setBmap_bmap_of_ne (b : Bmap) {k' : BmapId} (h : k' ≠ k) : (s.setBmap k b).bmap k' = s.bmap k' :=
  update_of_ne h ..

@[simp] theorem setBmap_state (b : Bmap) (n : ℕ) : (s.setBmap k b).state k n = stateAt b.repls n := by
  rw [St.state, setBmap_bmap]

@[simp] theorem setRepls_state (d : Repls) (n : ℕ) : (s.setRepls k d).state k n = stateAt d n := setBmap_state s k _ n

@[simp] theorem setStatus_clash (i : IosId) (st : Status) : (s.setStatus i k st).upsch.clash = s.upsch.clash :=
  Bool.or_false _

@[simp] theorem setStatus_status (i : IosId) (st : Status) :
    (s.setStatus i k st).status i k = (s.status i k).map fun _ => st := by
  have h : (s.setStatus i k st).upsch.rows (i, k) = (s.upsch.rows (i, k)).map fun r => { r with status := st } :=
    Table.exec_rows_key s.upsch (.update (i, k) fun r => { r with status := st })
  rw [St.status, h, St.status, map_map, map_map]
  rfl

theorem setStatus_setStatus (i : IosId) (st st' : Status) :
    (s.setStatus i k st).setStatus i k st' = s.setStatus i k st' := by
  simp only [St.setStatus, Table.exec, Stmt.key, Stmt.onRow, Stmt.clashes, update_self,
    update_idem, Bool.or_false, map_map, comp_def]

@[simp] theorem setRepls_repls (d : Repls) : ((s.setRepls k d).bmap k).repls = d := by
  rw [St.setRepls, setBmap_bmap]

@[simp] theorem setRepls_setRepls (d d' : Repls) : (s.setRepls k d).setRepls k d' = s.setRepls k d' := by
  simp only [St.setRepls, St.setBmap, update_self, update_idem]

theorem setStatus_rows_of_ne (i : IosId) (st : Status) {key : Key} (h : key ≠ (i, k)) :
    (s.setStatus i k st).upsch.rows key = s.upsch.rows key :=
  Table.exec_rows_of_ne s.upsch h

end Fields

def statusAfter : Option Push → Option Status → Option Status
  | none, o => o
  | some .add, o => some (o.getD .q)
  | some .del, _ => none
  | some (.chg stat), o => o.map fun x => stat.getD x

section Write

variable {k} {site s} {sprio uprio : ℤ} {orepls : Repls} {x : Stmt Key Row}

theorem updStmt_key {resid : IosId} {p : Push}
    (h : updStmt site k sprio uprio resid p = some x) : x.key = (resid, k) := by
  cases p with
  | add =>
    simp only [updStmt] at h
    split at h <;> cases h
    rfl
  | del =>
    cases h
    rfl
  | chg =>
    cases h
    rfl

variable {n : ℕ}

theorem replStmt_key (h : replStmt site k sprio uprio orepls s n = some x) : x.key = (site.res k n, k) := by
  obtain ⟨p, -, hp⟩ := bind_eq_some_iff.mp h
  exact updStmt_key hp

theorem replStmts_nodup (site : Site) (k : BmapId) (sprio uprio : ℤ) (orepls : Repls) (s : St) :
    ((replStmts site k sprio uprio orepls s).map Stmt.key).Nodup := by
  refine (((inPhases_perm _).map Stmt.key).nodup_iff).mpr ?_
  rw [List.Nodup, List.pairwise_map, List.pairwise_filterMap]
  refine List.Pairwise.imp_of_mem ?_ (List.nodup_range)
  intro i j hi hj hij x hx y hy hxy
  rw [replStmt_key hx, replStmt_key hy] at hxy
  exact hij (site.res_inj (List.mem_range.mp hi) (List.mem_range.mp hj) (Prod.mk.inj hxy).1)

theorem mem_replStmts : x ∈ replStmts site k sprio uprio orepls s ↔
      ∃ n < site.nrepls k, replStmt site k sprio uprio orepls s n = some x := by
  rw [replStmts, (inPhases_perm _).mem_iff, List.mem_filterMap]
  simp only [List.mem_range]

theorem slmReplUpdWrite_rows_of_ne {i : IosId} {k' : BmapId} (h : k' ≠ k) :
    (slmReplUpdWrite site k sprio uprio orepls s).upsch.rows (i, k') = s.upsch.rows (i, k') := by
  refine Table.execAll_rows_of_notMem _ _ fun hmem => ?_
  obtain ⟨x, hx, hkey⟩ := List.mem_map.mp hmem
  obtain ⟨n, -, hn⟩ := mem_replStmts.mp hx
  rw [replStmt_key hn] at hkey
  exact h (Prod.mk.inj hkey).2.symm

theorem slmReplUpdWrite_rows (hn : n < site.nrepls k) :
    (slmReplUpdWrite site k sprio uprio orepls s).upsch.rows (site.res k n, k) =
      match replStmt site k sprio uprio orepls s n with
      | none => s.upsch.rows (site.res k n, k)
      | some x => x.onRow (s.upsch.rows (site.res k n, k)) := by
  cases hst : replStmt site k sprio uprio orepls s n with
  | none =>
    refine Table.execAll_rows_of_notMem _ _ fun hmem => ?_
    obtain ⟨x, hx, hkey⟩ := List.mem_map.mp hmem
    obtain ⟨m, hm, hxm⟩ := mem_replStmts.mp hx
    rw [replStmt_key hxm] at hkey
    obtain rfl := site.res_inj hm hn (Prod.mk.inj hkey).1
    rw [hst] at hxm
    cases hxm
  | some =>
    have hrow := Table.execAll_rows_of_mem _ s.upsch (replStmts_nodup site k sprio uprio orepls s)
      (mem_replStmts.mpr ⟨n, hn, hst⟩)
    rw [replStmt_key hst] at hrow
    exact hrow

theorem slmReplUpdWrite_status (hn : n < site.nrepls k) (hknown : site.known (site.res k n)) :
    (slmReplUpdWrite site k sprio uprio orepls s).status (site.res k n) k =
      statusAfter (updPush (supports site s (site.res k n)) (decide (sprio ≠ -1 ∨ uprio ≠ -1))
        (stateAt orepls n) (s.state k n)) (s.status (site.res k n) k) := by
  rw [St.status, slmReplUpdWrite_rows hn, replStmt]
  cases updPush (supports site s (site.res k n)) (decide (sprio ≠ -1 ∨ uprio ≠ -1))
      (stateAt orepls n) (s.state k n) with
  | none => rfl
  | some p =>
    cases p with
    | add =>
      simp only [bind_some, updStmt, hknown, if_true, Stmt.onRow, statusAfter, St.status]
      cases s.upsch.rows (site.res k n, k) <;> rfl
    | del => rfl
    | chg =>
      simp only [bind_some, updStmt, Stmt.onRow, statusAfter, St.status, map_map]
      rfl

theorem slmReplUpdWrite_clash : (slmReplUpdWrite site k sprio uprio orepls s).upsch.clash ↔
      s.upsch.clash ∨ ∃ n < site.nrepls k, site.known (site.res k n) ∧
        updPush (supports site s (site.res k n)) (decide (sprio ≠ -1 ∨ uprio ≠ -1))
          (stateAt orepls n) (s.state k n) = some .add ∧ (s.upsch.rows (site.res k n, k)).isSome := by
  rw [slmReplUpdWrite, Table.execAll_clash _ _ (replStmts_nodup site k sprio uprio orepls s)]
  refine or_congr_right ⟨?_, ?_⟩
  · rintro ⟨x, hx, hclash⟩
    obtain ⟨n, hn, hst⟩ := mem_replStmts.mp hx
    obtain ⟨p, hp, hst⟩ := bind_eq_some_iff.mp hst
    cases p with
    | add =>
      simp only [updStmt] at hst
      obtain ⟨hknown, ⟨⟩⟩ := ite_none_right_eq_some.mp hst
      exact ⟨n, hn, hknown, hp, hclash⟩
    | del =>
      cases hst
      cases hclash
    | chg =>
      cases hst
      cases hclash
  · rintro ⟨n, hn, hknown, hp, hrow⟩
    refine ⟨.insert (site.res k n, k) ⟨.q, sprio, uprio⟩, mem_replStmts.mpr ⟨n, hn, ?_⟩, hrow⟩
    rw [replStmt, hp]
    simp only [bind_some, updStmt, hknown, if_true]

end Write

end Slash2.Upsch
