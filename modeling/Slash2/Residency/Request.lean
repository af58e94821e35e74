/-
# Requests for replicas and the scheduler's pass over a bmap

A user asks for a replica with `mds_repl_addrq` and gives one back with
`mds_repl_delrq`, for one bmap or for all bmaps of a file. Both translate the
residency tables and hand the changed ones to `mds_bmap_write`. `upd_proc_bmap` is
the scheduler's pass over the replicas of one bmap: it tries to arrange copies,
partial truncations and reclaims, and gives up a queued copy for which no source
exists.
-/
import Slash2.Residency.UpschAgree

namespace Slash2.Upsch

open Lib Residency List Option

/-- The scheduler's state, and the tables handed to `mds_bmap_write`. -/
structure Mds where
  st : St
  handed : List (BmapId × Bmap)

namespace Mds

def state (m : Mds) (k : BmapId) (n : ℕ) : Breplst := m.st.state k n

/-- `mds_bmap_write_logrepls` of a changed bmap. -/
def logrepls (site : Site) (k : BmapId) (new : Bmap) (sprio uprio : ℤ) (m : Mds) : Mds :=
  ⟨commit site k new sprio uprio m.st, (k, new) :: m.handed⟩

def setRepls (k : BmapId) (d : Repls) (m : Mds) : Mds := { m with st := m.st.setRepls k d }

end Mds

/-! ### Looking up the resources of a request -/

/-- The loop for duplicates: `last` is the entry compared next. -/
def iosidxDup : Option ℕ → List ℕ → Bool
  | _, [] => false
  | last, k :: ks => decide (last = some k) || iosidxDup ks.head? ks

def iosvLookups (site : Site) (lenv : LookupEnv) (fid : ℕ) : List IosId → Option (List ℕ)
  | [] => some []
  | ios :: iosv =>
    match iosvLookup site lenv ⟨fid, 0⟩ ios with
    | none => none
    | some i => (iosvLookups site lenv fid iosv).map (i :: ·)

variable (site : Site)

/-- `_mds_repl_iosv_lookup`: the sorted indices. -/
def mdsReplIosvLookup (lenv : LookupEnv) (fid : ℕ) (iosv : List IosId) : Option (List ℕ) :=
  match iosvLookups site lenv fid iosv with
  | none => none
  | some iosidx =>
    if iosidxDup none (iosidx.insertionSort (· ≤ ·)) then none
    else some (iosidx.insertionSort (· ≤ ·))

inductive Ftype where
  | dir
  | reg
  | other
  deriving DecidableEq

structure RqEnv where
  /-- `slm_fcmh_get` succeeds -/
  fcmhGet : Bool
  ftype : Ftype
  lenv : LookupEnv
  nvalidbmaps : ℕ
  bmapExists : ℕ → Bool
  /-- `bmap_get` succeeds -/
  bmapGet : ℕ → Bool

inductive RqRc where
  | ok
  | einval
  | eopnotsupp
  | failed
  | already
  | replAlreadyAct
  | replNotAct
  | lastrepl
  | bmapInvalid

/-- Flags `0` `F_LOG`, `1` `F_REPORT`, `2` `F_ALREADY`. -/
def hasFlag (rc : ℤ) (b : ℕ) : Bool := rc.toNat.testBit b

def existsValid (k : BmapId) (s : St) : Bool :=
  (mdsReplBmapWalk Tract.init (fun v => if v = .valid then 1 else 0) ⟨true, false⟩ []
    (fun _ _ u => u) (site.nrepls k) (s.bmap k).repls ()).rc ≠ 0

def addrqRetAll : Retifset
  | .invalid | .garbage | .garbageSched => 3
  | .replSched => 1
  | .valid => 2
  | _ => 0

def addrqRetOne : Retifset
  | .invalid | .replSched | .garbage | .garbageSched => 1
  | .replQueued | .valid => 4
  | _ => 0

variable (ret : Retifset)

def addrqBmap (site : Site) (k : BmapId) (iosidx : List ℕ) (sprio uprio : ℤ) (m : Mds) : ℤ × Mds :=
  let w := mdsReplBmapWalk addrqTract ret WalkFlags.none iosidx (fun _ _ u => u) (site.nrepls k)
    (m.st.bmap k).repls ()
  (w.rc,
    if hasFlag w.rc 0 then
      m.logrepls site k { m.st.bmap k with repls := w.repls } sprio uprio
    else if sprio ≠ -1 ∨ uprio ≠ -1 then
      { m with st := slmReplUpdWrite site k sprio uprio (m.st.bmap k).repls (m.st.setRepls k w.repls) }
    else m.setRepls k w.repls)

def someInact (k : BmapId) (iosidx : List ℕ) (m : Mds) : Bool :=
  (mdsReplBmapWalk Tract.init (fun v => if v = .valid then 0 else 1) ⟨true, false⟩ iosidx
    (fun _ _ u => u) (site.nrepls k) (m.st.bmap k).repls ()).rc ≠ 0

/-- The loop over all bmaps, with `repl_some_act`, `repl_all_act`. -/
def addrqAll (site : Site) (env : RqEnv) (fid : ℕ) (iosidx : List ℕ) (sprio uprio : ℤ) :
    List ℕ → Bool → Bool → Mds → Bool × Bool × Mds
  | [], someAct, allAct, m => (someAct, allAct, m)
  | bno :: bnos, someAct, allAct, m =>
    if env.bmapGet bno = false then addrqAll site env fid iosidx sprio uprio bnos someAct allAct m
    else if existsValid site ⟨fid, bno⟩ m.st = false then
      -- uninitialized, or all zeroes
      addrqAll site env fid iosidx sprio uprio bnos someAct allAct m
    else
      let r := addrqBmap addrqRetAll site ⟨fid, bno⟩ iosidx sprio uprio m
      addrqAll site env fid iosidx sprio uprio bnos (someAct || hasFlag r.1 1)
        (allAct && !someInact site ⟨fid, bno⟩ iosidx r.2) r.2

/-- `mds_repl_addrq`; no bmap number stands for all bmaps. -/
def mdsReplAddrq (env : RqEnv) (fid : ℕ) (bmapno : Option ℕ) (iosv : List IosId)
    (sprio uprio : ℤ) (m : Mds) : RqRc × Mds :=
  if iosv.length < 1 ∨ slMaxReplicas < iosv.length then (.einval, m)
  else if env.fcmhGet = false then (.failed, m)
  else if env.ftype = .other then (.eopnotsupp, m)
  else match mdsReplIosvLookup site env.lenv fid iosv with
    | none => (.failed, m)
    | some iosidx =>
      if env.ftype = .dir then (.ok, m)
      else match bmapno with
        | none =>
          let r := addrqAll site env fid iosidx sprio uprio (range env.nvalidbmaps) false true m
          (if env.nvalidbmaps ≠ 0 ∧ r.1 = false then .already
            else if env.nvalidbmaps ≠ 0 ∧ r.2.1 then .replAlreadyAct else .ok, r.2.2)
        | some bno =>
          if env.bmapExists bno = false then (.bmapInvalid, m)
          else if env.bmapGet bno = false then (.failed, m)
          -- `SLERR_BMAP_ZERO`, which the caller is not told
          else if existsValid site ⟨fid, bno⟩ m.st = false then (.ok, m)
          else
            let r := addrqBmap addrqRetOne site ⟨fid, bno⟩ iosidx sprio uprio m
            (if hasFlag r.1 0 then .ok else if hasFlag r.1 2 then .already else .replNotAct, r.2)

/-- `slm_repl_countvalid_cb`: valid replicas not named. -/
def slmReplCountvalidCb (idx : List ℕ) (iosidx : ℕ) (val : Breplst) (n : ℕ) : ℕ :=
  if val ≠ .valid then n else if idx.contains iosidx then n else n + 1

def countvalid (k : BmapId) (idx : List ℕ) (s : St) : ℕ :=
  (mdsReplBmapWalk Tract.init (fun _ => 0) WalkFlags.none [] (slmReplCountvalidCb idx)
    (site.nrepls k) (s.bmap k).repls 0).cbarg

def delrqRetAll : Retifset
  | .valid | .replQueued | .replSched => 1
  | _ => 0

def delrqRetOne : Retifset
  | .garbage | .garbageSched => 2
  | .replQueued | .replSched | .valid => 1
  | _ => 0

def delrqBmap (site : Site) (k : BmapId) (iosidx : List ℕ) (m : Mds) : ℤ × Mds :=
  let w := mdsReplBmapWalk delrqTract ret WalkFlags.none iosidx (fun _ _ u => u) (site.nrepls k)
    (m.st.bmap k).repls ()
  (w.rc,
    if hasFlag w.rc 0 then m.logrepls site k { m.st.bmap k with repls := w.repls } (-1) (-1)
    else m.setRepls k w.repls)

/-- The loop over all bmaps, with `all_invalid`. -/
def delrqAll (site : Site) (env : RqEnv) (fid : ℕ) (iosidx : List ℕ) : List ℕ → RqRc → ℕ → Mds → RqRc × ℕ × Mds
  | [], rc, allInvalid, m => (rc, allInvalid, m)
  | bno :: bnos, rc, allInvalid, m =>
    if env.bmapGet bno = false then delrqAll site env fid iosidx bnos rc allInvalid m
    else if 0 < countvalid site ⟨fid, bno⟩ iosidx m.st then
      let r := delrqBmap delrqRetAll site ⟨fid, bno⟩ iosidx m
      delrqAll site env fid iosidx bnos (if r.1 ≠ 0 then .ok else rc) allInvalid r.2
    else delrqAll site env fid iosidx bnos rc (allInvalid + 1) m

/-- `mds_repl_delrq`; no bmap number stands for all bmaps. -/
def mdsReplDelrq (env : RqEnv) (fid : ℕ) (bmapno : Option ℕ) (iosv : List IosId) (m : Mds) : RqRc × Mds :=
  if iosv.length < 1 ∨ slMaxReplicas < iosv.length then (.einval, m)
  else if env.fcmhGet = false then (.failed, m)
  else match mdsReplIosvLookup site env.lenv fid iosv with
    | none => (.failed, m)
    | some iosidx =>
      if env.ftype = .dir then (.ok, m)
      else match bmapno with
        | none =>
          let r := delrqAll site env fid iosidx (range env.nvalidbmaps) .replNotAct 0 m
          (if r.2.1 = env.nvalidbmaps then .lastrepl else r.1, r.2.2)
        | some bno =>
          if env.bmapExists bno = false then (.bmapInvalid, m)
          else if env.bmapGet bno = false then (.failed, m)
          else if 0 < countvalid site ⟨fid, bno⟩ iosidx m.st then
            let r := delrqBmap delrqRetOne site ⟨fid, bno⟩ iosidx m
            (if hasFlag r.1 0 then .ok else if hasFlag r.1 1 then .einval else .replNotAct, r.2)
          else (.lastrepl, m)

/-- `slm_upsch_tryrepl`: sent, or nothing to copy. -/
def mdsTryrepl (env : TryEnv) (hasData : ℕ → Bool) (k : BmapId) (dst : ℕ) (m : Mds) : Option (Bool × Mds) :=
  match upschTryrepl site env hasData k dst m.st with
  | none => none
  | some t =>
    if slmBmapCalcRepltraffic env.fsz k.bno hasData = 0 then
      some (true, ⟨t, (k, t.bmap k) :: m.handed⟩)
    else match slmUpschTryrepl env k.bno hasData (m.st.bmap k) dst with
      | .sent _ _ => some (true, { m with st := t })
      | _ => some (false, { m with st := t })

/-- `slm_upsch_tryptrunc`: was it sent? -/
def mdsTryptrunc (env : PtruncEnv) (k : BmapId) (dst : ℕ) (m : Mds) : Bool × Mds :=
  (!ptruncBusy site k m.st && env.csvc && env.newreqRc == 0 && m.state k dst == .truncpndg &&
    env.sendRc == 0, { m with st := slmUpschTryptrunc site env k dst m.st })

/-- `slm_upsch_trypreclaim` gets to the batch queue and is taken. -/
def preclaimSends (env : PreclaimEnv) (k : BmapId) (dst : ℕ) (s : St) : Bool :=
  !s.notsup (site.res k dst) && env.csvc && env.batchRc == 0

/-- `slm_upsch_trypreclaim`: is it in a batch? -/
def mdsTrypreclaim (env : PreclaimEnv) (wrote : Bool) (k : BmapId) (dst : ℕ) (m : Mds) : Bool × Mds :=
  let t := slmUpschTrypreclaim site env k dst m.st
  if preclaimSends site env k dst m.st then (wrote, ⟨t, (k, t.bmap k) :: m.handed⟩)
  else (false, { m with st := t })

structure UpdEnv where
  /-- `BMAPF_REPLMODWR` is set -/
  replmodwr : Bool
  /-- there is a write lease, `bmi_wr_ion` -/
  wrIon : Bool
  dsts : List ℕ
  /-- the order in which sources are visited, by destination and pass -/
  srcs : ℕ → Bool → List ℕ
  /-- archival, or without leases: for the second pass -/
  backup : ℕ → Bool
  csvc : ℕ → Bool
  tryEnv : ℕ → ℕ → TryEnv
  hasData : ℕ → Bool
  ptrunc : ℕ → PtruncEnv
  preclaim : ℕ → PreclaimEnv
  wrote : ℕ → Bool

/-- `FOREACH_RND`: every index, in the given order. -/
def foreachRnd (order : List ℕ) (n : ℕ) : List ℕ :=
  (order.filter (· < n)).dedup ++ (range n).filter (!order.contains ·)

section Pass

variable (env : UpdEnv) (k : BmapId)

/-- A pass over the sources, with `valid_exists`. -/
def srcLoop (dst : ℕ) (pass : Bool) : List ℕ → Bool → Mds → Option (Bool × Bool × Mds)
  | [], ve, m => some (false, ve, m)
  | src :: srcs, ve, m =>
    if src = dst then srcLoop dst pass srcs ve m
    -- skip old and inactive replicas
    else if site.known (site.res k src) = false ∨ m.state k src ≠ .valid then
      srcLoop dst pass srcs ve m
    else if xor pass (env.backup src) then srcLoop dst pass srcs true m
    else if env.csvc src = false then srcLoop dst pass srcs true m
    else match mdsTryrepl site (env.tryEnv src dst) env.hasData k dst m with
      | none => none
      | some (true, m') => some (true, true, m')
      | some (false, m') => srcLoop dst pass srcs true m'

def cancelRepl (dst : ℕ) (m : Mds) : Bool × Mds :=
  let a := replApply (tractOne .replQueued .garbage) (fun v => if v = .replQueued then 1 else 0)
    (m.st.bmap k).repls dst
  if a.rc ≠ 0 then (true, m.logrepls site k { m.st.bmap k with repls := a.repls } (-1) (-1))
  else (false, m.setRepls k a.repls)

/-- A queued destination, with `valid_exists`. -/
def procQueued (dst : ℕ) (ve : Bool) (m : Mds) : Option (Bool × Bool × Mds) :=
  if env.wrIon then some (false, ve, m)
  else match srcLoop site env k dst false (foreachRnd (env.srcs dst false) (site.nrepls k)) ve m with
    | none => none
    | some (true, ve, m) => some (true, ve, m)
    | some (false, ve, m) =>
      match srcLoop site env k dst true (foreachRnd (env.srcs dst true) (site.nrepls k)) ve m with
      | none => none
      | some (true, ve, m) => some (true, ve, m)
      | some (false, true, m) => some (false, true, m)
      | some (false, false, m) =>
        let r := cancelRepl site k dst m
        some (r.1, false, r.2)

def procDst (dst : ℕ) (ve : Bool) (m : Mds) : Option (Bool × Bool × Mds) :=
  match m.state k dst with
  | .replQueued => procQueued site env k dst ve m
  | .truncpndg =>
    let r := mdsTryptrunc site (env.ptrunc dst) k dst m
    some (r.1, ve, r.2)
  | .garbage =>
    let r := mdsTrypreclaim site (env.preclaim dst) (env.wrote dst) k dst m
    some (r.1, ve, r.2)
  | _ => some (false, ve, m)

def dstLoop : List ℕ → Bool → Mds → Option Mds
  | [], _, m => some m
  | dst :: dsts, ve, m =>
    if site.known (site.res k dst) = false then dstLoop dsts ve m
    else match procDst site env k dst ve m with
      | none => none
      | some (true, _, m') => some m'
      | some (false, ve', m') => dstLoop dsts ve' m'

/-- `upd_proc_bmap`; `none` if the MDS ends in `slm_upsch_tryrepl`. -/
def updProcBmap (m : Mds) : Option Mds :=
  if env.replmodwr then some m
  else dstLoop site env k (foreachRnd env.dsts (site.nrepls k)) false m

end Pass

/-! ### The callbacks -/

/-- `slm_batch_repl_cb` on one entry. -/
def mdsBatchReplCb (k : BmapId) (dst : ℕ) (bgen : BitVec 32) (a : Answer) (m : Mds) : Mds :=
  let t := upschBatchReplCb site k dst bgen a m.st
  if batchRetifset (m.st.bmap k).gen bgen a (m.state k dst) ≠ 0 then ⟨t, (k, t.bmap k) :: m.handed⟩
  else { m with st := t }

/-- `slm_batch_preclaim_cb` on one entry. -/
def mdsBatchPreclaimCb (lenv : LookupEnv) (k : BmapId) (ios : IosId) (rc : PreclaimRc) (m : Mds) : Option Mds :=
  (slmBatchPreclaimCb site lenv k ios rc m.st).map fun t => ⟨t, (k, t.bmap k) :: m.handed⟩

theorem iosidxDup_iff : ∀ ks : List ℕ, iosidxDup none ks ↔ 2 ≤ ks.length
  | [] | [_] => by simp [iosidxDup]
  | _ :: _ :: _ => by simp [iosidxDup]

variable {site} {lenv : LookupEnv} {fid : ℕ}

theorem iosvLookups_length : ∀ {iosv : List IosId}
    {iosidx : List ℕ}, iosvLookups site lenv fid iosv = some iosidx → iosidx.length = iosv.length
  | [], _, h => by
    cases h
    rfl
  | ios :: iosv, _, h => by
    simp only [iosvLookups] at h
    split at h
    · cases h
    · obtain ⟨is, his, rfl⟩ := map_eq_some_iff.mp h
      rw [length_cons, length_cons, iosvLookups_length his]

variable {iosv : List IosId} {iosidx : List ℕ}

theorem mdsReplIosvLookup_eq_some (hlen : ¬(iosv.length < 1 ∨ slMaxReplicas < iosv.length))
    (h : mdsReplIosvLookup site lenv fid iosv = some iosidx) :
    ∃ ios i, iosv = [ios] ∧ iosidx = [i] ∧ i < site.nrepls ⟨fid, 0⟩ ∧ site.res ⟨fid, 0⟩ i = ios := by
  unfold mdsReplIosvLookup at h
  split at h
  · cases h
  rename_i hidx
  split at h
  · cases h
  rename_i hdup
  have hle : iosv.length ≤ 1 := by
    rw [iosidxDup_iff, length_insertionSort, iosvLookups_length hidx] at hdup
    omega
  obtain ⟨ios, rfl⟩ : ∃ ios, iosv = [ios] := length_eq_one_iff.mp (le_antisymm hle (Nat.not_lt.mp (not_or.mp hlen).1))
  simp only [iosvLookups] at hidx
  split at hidx <;> cases hidx
  rename_i i hi
  cases h
  exact ⟨ios, i, rfl, rfl, iosvLookup_spec hi⟩

section Counts

variable {k : BmapId} {s : St}

theorem walkLoop_countvalid (idx : List ℕ) : ∀ (ks : List ℕ) (w : Walked ℕ),
    0 < (walkLoop Tract.init (fun _ => 0) WalkFlags.none (slmReplCountvalidCb idx) ks w).cbarg ↔
      0 < w.cbarg ∨ ∃ n ∈ ks, n ∉ idx ∧ stateAt w.repls n = .valid
  | [], w => by simp [walkLoop]
  | n :: ks, w => by
    have happ : mdsReplBmapApply Tract.init (fun _ => 0) WalkFlags.none (slmReplCountvalidCb idx) w.repls
        n w.cbarg = ⟨w.repls, slmReplCountvalidCb idx n (stateAt w.repls n) w.cbarg, 0, false⟩ := by
      simp [mdsReplBmapApply, Tract.init]
    rw [walkLoop, happ]
    simp only [Bool.false_eq_true, if_false]
    rw [walkLoop_countvalid idx ks]
    by_cases hv : stateAt w.repls n = .valid
    · by_cases hi : n ∈ idx
      · simp [slmReplCountvalidCb, hv, hi]
      · simp [slmReplCountvalidCb, hv, hi]
    · simp [slmReplCountvalidCb, hv]

theorem countvalid_pos {idx : List ℕ} : 0 < countvalid site k idx s ↔
    ∃ n < site.nrepls k, n ∉ idx ∧ s.state k n = .valid := by
  rw [countvalid, mdsReplBmapWalk, walkLoop_countvalid]
  simp [walkTargets, St.state]

end Counts

/-! ### The tables after a request -/

section States

variable {k : BmapId} {m : Mds}

theorem commit_state_eq (new : Bmap) (sprio uprio : ℤ) (s : St) (k' : BmapId) (n : ℕ) :
    (commit site k new sprio uprio s).state k' n =
      if k' = k then stateAt new.repls n else s.state k' n := by
  split_ifs with h
  · rw [h, commit_state]
  · rw [St.state, commit_bmap_of_ne h, St.state]

theorem setRepls_state_eq (d : Repls) (s : St) (k' : BmapId) (n : ℕ) :
    (s.setRepls k d).state k' n = if k' = k then stateAt d n else s.state k' n := by
  split_ifs with h
  · rw [h, setRepls_state]
  · rw [St.state, St.setRepls, setBmap_bmap_of_ne _ _ _ h, St.state]

section
variable (hne : iosidx ≠ []) (hnd : iosidx.Nodup) (hlt : ∀ i ∈ iosidx, i < site.nrepls k)
include hne hnd hlt

theorem walked_stateAt (tract : Tract) (s : St) (k' : BmapId) (n : ℕ) :
    (if k' = k then stateAt (mdsReplBmapWalk tract ret WalkFlags.none iosidx (fun _ _ u => u)
        (site.nrepls k) (s.bmap k).repls ()).repls n else s.state k' n) =
      if k' = k ∧ n ∈ iosidx then tract.move (s.state k n) else s.state k' n := by
  have htargets : walkTargets WalkFlags.none iosidx (site.nrepls k) = iosidx := by
    simp [walkTargets, hne, WalkFlags.none]
  rw [mdsReplBmapWalk_stateAt _ _ _ rfl hnd hlt (site.nrepls_le k), htargets]
  by_cases hk : k' = k
  · subst hk
    simp only [true_and, if_true]
    rfl
  · simp only [hk, false_and, if_false]

theorem addrqBmap_stateAt (sprio uprio : ℤ) (k' : BmapId) (n : ℕ) :
    (addrqBmap ret site k iosidx sprio uprio m).2.state k' n =
      if k' = k ∧ n ∈ iosidx then addrqTract.move (m.state k n) else m.state k' n := by
  refine Eq.trans ?_ (walked_stateAt ret hne hnd hlt addrqTract m.st k' n)
  simp only [addrqBmap]
  split
  · exact commit_state_eq _ _ _ _ _ _
  split
  · exact setRepls_state_eq _ _ _ _
  · exact setRepls_state_eq _ _ _ _

theorem delrqBmap_stateAt (k' : BmapId) (n : ℕ) : (delrqBmap ret site k iosidx m).2.state k' n =
      if k' = k ∧ n ∈ iosidx then delrqTract.move (m.state k n) else m.state k' n := by
  refine Eq.trans ?_ (walked_stateAt ret hne hnd hlt delrqTract m.st k' n)
  simp only [delrqBmap]
  split
  · exact commit_state_eq _ _ _ _ _ _
  · exact setRepls_state_eq _ _ _ _

end

variable {i : ℕ}

theorem addrqBmap_state (hi : i < site.nrepls k) (sprio uprio : ℤ) (k' : BmapId) (n : ℕ) :
    (addrqBmap ret site k [i] sprio uprio m).2.state k' n =
      if k' = k ∧ n = i then addrqTract.move (m.state k n) else m.state k' n := by
  rw [addrqBmap_stateAt ret (cons_ne_nil i []) (nodup_singleton i) (by simpa using hi)]
  simp only [mem_singleton]

theorem delrqBmap_state (hi : i < site.nrepls k) (k' : BmapId) (n : ℕ) : (delrqBmap ret site k [i] m).2.state k' n =
      if k' = k ∧ n = i then delrqTract.move (m.state k n) else m.state k' n := by
  rw [delrqBmap_stateAt ret (cons_ne_nil i []) (nodup_singleton i) (by simpa using hi)]
  simp only [mem_singleton]

def QueuedAt (named : BmapId → ℕ → Prop) (m t : Mds) : Prop :=
  ∀ k n, t.state k n = m.state k n ∨
    (named k n ∧ m.state k n ≠ .valid ∧ t.state k n = .replQueued)

variable {named : BmapId → ℕ → Prop}

theorem QueuedAt.trans {m t u : Mds} (h : QueuedAt named m t) (h' : QueuedAt named t u) : QueuedAt named m u := by
  intro k n
  rcases h k n with hs | ⟨hn, hv, hq⟩
  · rw [← hs]
    exact h' k n
  rcases h' k n with hs' | ⟨-, -, hq'⟩
  · exact .inr ⟨hn, hv, hs'.trans hq⟩
  · exact .inr ⟨hn, hv, hq'⟩

theorem addrqBmap_queuedAt (hi : i < site.nrepls k) (sprio uprio : ℤ) (hnamed : named k i) :
    QueuedAt named m (addrqBmap ret site k [i] sprio uprio m).2 := by
  intro k' n
  rw [addrqBmap_state ret hi]
  split_ifs with h
  · obtain ⟨rfl, rfl⟩ := h
    cases hv : m.state k' n <;> simp [Tract.move, addrqTract, hnamed]
  · exact .inl rfl

def Names (site : Site) (lenv : LookupEnv) (fid : ℕ) (bmapno : Option ℕ) (iosv : List IosId)
    (k : BmapId) (n : ℕ) : Prop :=
  k.fid = fid ∧ (∀ bno ∈ bmapno, k.bno = bno) ∧ mdsReplIosvLookup site lenv fid iosv = some [n]
  deriving Decidable

theorem addrqAll_queuedAt {env : RqEnv}
    (hl : mdsReplIosvLookup site env.lenv fid iosv = some [i]) (hi : i < site.nrepls ⟨fid, 0⟩)
    (sprio uprio : ℤ) : ∀ (bnos : List ℕ) (someAct allAct : Bool) (m : Mds),
      QueuedAt (Names site env.lenv fid none iosv) m (addrqAll site env fid [i] sprio uprio bnos someAct allAct m).2.2
  | [], _, _, _ => fun _ _ => .inl rfl
  | bno :: bnos, someAct, allAct, m => by
    rw [addrqAll]
    split
    · exact addrqAll_queuedAt hl hi sprio uprio bnos _ _ m
    split
    · exact addrqAll_queuedAt hl hi sprio uprio bnos _ _ m
    · exact (addrqBmap_queuedAt addrqRetAll (k := ⟨fid, bno⟩) hi sprio uprio
        ⟨rfl, by simp, hl⟩).trans (addrqAll_queuedAt hl hi sprio uprio bnos _ _ _)

theorem mdsReplAddrq_queuedAt (site : Site) (env : RqEnv) (fid : ℕ) (bmapno : Option ℕ)
    (iosv : List IosId) (sprio uprio : ℤ) (m : Mds) : QueuedAt (Names site env.lenv fid bmapno iosv) m
      (mdsReplAddrq site env fid bmapno iosv sprio uprio m).2 := by
  have hrefl : QueuedAt (Names site env.lenv fid bmapno iosv) m m := fun _ _ => .inl rfl
  fun_cases mdsReplAddrq site env fid bmapno iosv sprio uprio m <;> try exact hrefl
  next hlen _ _ _ hl _ _ =>
    obtain ⟨-, i, -, rfl, hi, -⟩ := mdsReplIosvLookup_eq_some hlen hl
    exact addrqAll_queuedAt hl hi sprio uprio _ _ _ m
  next hlen _ _ _ hl _ bno _ _ _ _ =>
    obtain ⟨-, i, -, rfl, hi, -⟩ := mdsReplIosvLookup_eq_some hlen hl
    exact addrqBmap_queuedAt addrqRetOne (k := ⟨fid, bno⟩) hi sprio uprio ⟨rfl, by simp, hl⟩

end States

/-! ### The tables after the scheduler's functions -/

section Scheduler

variable {k : BmapId} {dst : ℕ} {s : St}

theorem commitRepls_state_eq (d : Repls) (k' : BmapId) (n : ℕ) :
    (commitRepls site k d s).state k' n = if k' = k then stateAt d n else s.state k' n :=
  commit_state_eq _ _ _ _ _ _

theorem applied_state (tract : Tract) (retifset : Retifset) (hdst : dst < site.nrepls k) (k' : BmapId) (n : ℕ) :
    (if k' = k then stateAt (replApply tract retifset (s.bmap k).repls dst).repls n
      else s.state k' n) =
      if k' = k ∧ n = dst then tract.move (s.state k n) else s.state k' n := by
  rw [replApply_stateAt _ _ _ (lt_of_lt_of_le hdst (site.nrepls_le k))]
  by_cases hk : k' = k
  · subst hk
    by_cases hn : n = dst <;> simp [hn, St.state]
  · simp [hk]

theorem upschTryrepl_state (hdst : dst < site.nrepls k) {env : TryEnv} {hasData : ℕ → Bool} {t : St}
    (h : upschTryrepl site env hasData k dst s = some t) (k' : BmapId) (n : ℕ) :
    t.state k' n = s.state k' n ∨ (k' = k ∧ n = dst ∧ s.state k dst = .replQueued ∧
      ((slmBmapCalcRepltraffic env.fsz k.bno hasData = 0 ∧ t.state k dst = .valid) ∨
        ((∃ d, slmUpschTryrepl env k.bno hasData (s.bmap k) dst = .sent d (s.bmap k).gen) ∧
          t.state k dst = .replSched))) := by
  have hlt := lt_of_lt_of_le hdst (site.nrepls_le k)
  unfold upschTryrepl at h
  split at h
  · cases h
  · rename_i d _ hsent
    obtain ⟨rfl, hq, hd⟩ := slmUpschTryrepl_sent hlt hsent
    cases h
    have hst : ∀ k' n, ((s.setRepls k d).setStatus (site.res k dst) k .s).state k' n =
        if k' = k then stateAt d n else s.state k' n := setRepls_state_eq d s
    by_cases hkn : k' = k ∧ n = dst
    · obtain ⟨rfl, rfl⟩ := hkn
      refine .inr ⟨rfl, rfl, hq, .inr ⟨⟨d, hsent⟩, ?_⟩⟩
      rw [hst, if_pos rfl, hd, if_pos rfl]
    refine .inl ?_
    rw [hst]
    split_ifs with hk
    · rw [hd, if_neg fun hn => hkn ⟨hk, hn⟩, hk]
      rfl
    · rfl
  · rename_i d hkept
    -- what is in the table decides the case; where it was written to does not matter
    have hst : ∀ k' n, t.state k' n = if k' = k then stateAt d n else s.state k' n := by
      split at h
      · cases h
        exact commitRepls_state_eq d
      split at h <;> cases h
      · exact setRepls_state_eq d s
      · exact setRepls_state_eq d s
    rcases slmUpschTryrepl_kept hlt hkept with hd | ⟨hamt, hq, hd⟩
    · refine .inl ?_
      rw [hst]
      split_ifs with hk
      · rw [hd, hk]
        rfl
      · rfl
    by_cases hkn : k' = k ∧ n = dst
    · obtain ⟨rfl, rfl⟩ := hkn
      refine .inr ⟨rfl, rfl, hq, .inl ⟨hamt, ?_⟩⟩
      rw [hst, if_pos rfl, hd, if_pos rfl]
    refine .inl ?_
    rw [hst]
    split_ifs with hk
    · rw [hd, if_neg fun hn => hkn ⟨hk, hn⟩, hk]
      rfl
    · rfl

theorem slmUpschTrypreclaim_state (hdst : dst < site.nrepls k) (env : PreclaimEnv) (k' : BmapId)
    (n : ℕ) : (slmUpschTrypreclaim site env k dst s).state k' n =
      if (k' = k ∧ n = dst) ∧ preclaimSends site env k dst s = true then
        (tractOne .garbage .garbageSched).move (s.state k n)
      else s.state k' n := by
  unfold slmUpschTrypreclaim
  split
  · rw [if_neg (by simp_all [preclaimSends])]
  split
  · rw [if_neg (by simp_all [preclaimSends])]
  split
  · rw [if_neg (by simp_all [preclaimSends])]
  have hsends : preclaimSends site env k dst s := by simp_all [preclaimSends]
  rw [commitRepls_state_eq, applied_state _ _ hdst]
  simp only [hsends, and_true]

theorem upschBatchReplCb_state (hdst : dst < site.nrepls k) (bgen : BitVec 32) (a : Answer)
    (k' : BmapId) (n : ℕ) : (upschBatchReplCb site k dst bgen a s).state k' n =
      if k' = k ∧ n = dst then (batchTract (s.bmap k).gen bgen a).move (s.state k n)
      else s.state k' n := by
  rw [← applied_state _ (batchRetifset (s.bmap k).gen bgen a) hdst]
  unfold upschBatchReplCb
  -- the status of the row is not part of the residency tables
  by_cases hq : requeues (s.bmap k).gen bgen a <;> simp only [hq, if_true, Bool.false_eq_true, if_false]
  all_goals
    split
    · exact commitRepls_state_eq _ _ _
    · exact setRepls_state_eq _ _ _ _

theorem slmBatchPreclaimCb_state {ios : IosId} {rc : PreclaimRc} {t : St}
    (h : slmBatchPreclaimCb site lenv k ios rc s = some t) : ∃ i < site.nrepls k,
      site.res k i = ios ∧ ∀ k' n, t.state k' n =
        if k' = k ∧ n = i then (tractOne .garbageSched (reclaimed rc)).move (s.state k n)
        else s.state k' n := by
  obtain ⟨i, hidx, rfl⟩ := map_eq_some_iff.mp h
  obtain ⟨hi, hres⟩ := iosvLookup_spec hidx
  refine ⟨i, hi, hres, fun k' n => ?_⟩
  have h := walked_stateAt (fun _ => 0) (cons_ne_nil i []) (nodup_singleton i) (by simpa using hi)
    (tractOne .garbageSched (reclaimed rc)) s k' n
  rw [commitRepls_state_eq, St.state, noteNotsup_bmap, ← St.state, h]
  simp only [mem_singleton]

end Scheduler

def easyRq : RqEnv := ⟨true, .reg, ⟨0, le_refl 0, fun _ => true⟩, 1, fun _ => true, fun _ => true⟩

end Slash2.Upsch
