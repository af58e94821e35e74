/-
# The check before a bmap is written

`mds_bmap_write` ends the MDS if the table it is given has no replica that is valid,
garbage or waiting for a truncation, and the replay of the journal makes the same
check. A bmap that has been written once has a valid replica, and almost nothing
takes the last one away: a request to give replicas back counts those that stay, and
the scheduler and its callbacks leave valid replicas alone.

Key theorem: `handed_run`.
-/
import Slash2.Residency.Request

namespace Slash2.Upsch.Active

open Lib Residency

/-- `mds_brepls_check` of a replayed table. -/
def mdsBreplsCheck (d : Repls) (nr : ℕ) : Bool :=
  decide (0 < nr ∧ nr ≤ slMaxReplicas) &&
    (List.range nr).any fun i => decide (holdsData (stateAt d i) ≠ 0)

/-! ### Changes of residency -/

inductive Change where
  /-- replica `i` is written to; `defer` leaves the bmap to the caller -/
  | activate (k : BmapId) (i : ℕ) (defer : Bool) (pw : Pwritev)
  | addrq (env : RqEnv) (fid : ℕ) (bmapno : Option ℕ) (iosv : List IosId) (sprio uprio : ℤ)
  | delrq (env : RqEnv) (fid : ℕ) (bmapno : Option ℕ) (iosv : List IosId)
  | updProc (k : BmapId) (env : UpdEnv)
  | replCb (k : BmapId) (dst : ℕ) (bgen : BitVec 32) (a : Answer)
  | preclaimCb (k : BmapId) (ios : IosId) (rc : PreclaimRc) (lenv : LookupEnv)
  | finishPtrunc (k : BmapId) (dst : ℕ) (rc : ℤ)

/-- `_mds_repl_inv_except`, and `mds_bmap_write` of its table. -/
def activate (site : Site) (k : BmapId) (i : ℕ) (defer : Bool) (pw : Pwritev) (m : Mds) : Mds :=
  m.logrepls site k (mdsReplInvExceptDefer (site.ino k.fid) (m.st.bmap k) i defer pw).bmap (-1) (-1)

def step (site : Site) (m : Mds) : Change → Option Mds
  | .activate k i defer pw => if i < site.nrepls k then some (activate site k i defer pw m) else none
  | .addrq env fid bmapno iosv sprio uprio =>
    some (mdsReplAddrq site env fid bmapno iosv sprio uprio m).2
  | .delrq env fid bmapno iosv => some (mdsReplDelrq site env fid bmapno iosv m).2
  | .updProc k env => updProcBmap site env k m
  | .replCb k dst bgen a =>
    if dst < site.nrepls k then some (mdsBatchReplCb site k dst bgen a m) else none
  | .preclaimCb k ios rc lenv => mdsBatchPreclaimCb site lenv k ios rc m
  | .finishPtrunc k dst rc =>
    if dst < site.nrepls k then some { m with st := slmUpschFinishPtrunc k dst rc m.st } else none

/-- Activated replicas of `k` are invalid, valid or garbage. -/
def Expected (k : BmapId) (m : Mds) : Change → Prop
  | .activate k' i _ _ =>
    k' = k → m.state k i = .invalid ∨ m.state k i = .valid ∨ m.state k i = .garbage
  | _ => True

instance (k : BmapId) (m : Mds) (c : Change) : Decidable (Expected k m c) := by
  cases c <;> unfold Expected <;> infer_instance

structure HasValid (site : Site) (k : BmapId) (m : Mds) : Prop where
  valid : ∃ n < site.nrepls k, m.state k n = .valid
  handed : ∀ b, (k, b) ∈ m.handed → ∃ n < site.nrepls k, stateAt b.repls n = .valid

def KeepsValid (s t : St) : Prop := ∀ k n, s.state k n = .valid → t.state k n = .valid

def Hands (m t : Mds) : Prop :=
  t.handed = m.handed ∨ ∃ k, t.handed = (k, t.st.bmap k) :: m.handed

section Keep

variable {site : Site} {k : BmapId} {m t : Mds} {s : St}

theorem KeepsValid.trans {s t u : St} (h : KeepsValid s t) (h' : KeepsValid t u) : KeepsValid s u :=
  fun k n hv => h' k n (h k n hv)

theorem HasValid.next (h : HasValid site k m) (hv : ∃ n < site.nrepls k, t.state k n = .valid)
    (hh : Hands m t) : HasValid site k t := by
  refine ⟨hv, fun b hb => ?_⟩
  rcases hh with hh | ⟨k', hh⟩
  · rw [hh] at hb
    exact h.handed b hb
  rw [hh] at hb
  rcases List.mem_cons.mp hb with hb | hb
  · obtain ⟨rfl, rfl⟩ := Prod.mk.inj hb
    exact hv
  · exact h.handed b hb

theorem HasValid.keep (h : HasValid site k m) (hk : KeepsValid m.st t.st) (hh : Hands m t) : HasValid site k t := by
  obtain ⟨n, hn, hv⟩ := h.valid
  exact h.next ⟨n, hn, hk k n hv⟩ hh

theorem hands_logrepls (new : Bmap) (sprio uprio : ℤ) : Hands m (m.logrepls site k new sprio uprio) :=
  .inr ⟨k, by rw [Mds.logrepls, commit, slmReplUpdWrite, setBmap_bmap]⟩

theorem setRepls_keepsValid {d : Repls} (h : ∀ n, s.state k n = .valid → stateAt d n = .valid) :
    KeepsValid s (s.setRepls k d) := by
  intro k' n hv
  rw [setRepls_state_eq]
  split_ifs with hk
  · exact h n (hk ▸ hv)
  · exact hv

theorem commitRepls_keepsValid {d : Repls} (h : ∀ n, s.state k n = .valid → stateAt d n = .valid) :
    KeepsValid s (commitRepls site k d s) := by
  intro k' n hv
  rw [commitRepls, commit_state_eq]
  split_ifs with hk
  · exact h n (hk ▸ hv)
  · exact hv

theorem translated_keepsValid {tract : Tract} (ht : tract.move .valid = .valid) {t : St}
    (hst : ∀ k' n, ∃ (P : Prop) (_ : Decidable P), (P → k' = k) ∧
      t.state k' n = if P then tract.move (s.state k n) else s.state k' n) : KeepsValid s t := by
  intro k' n hv
  obtain ⟨P, _, hP, hs⟩ := hst k' n
  rw [hs]
  split_ifs with h
  · rw [← hP h, hv, ht]
  · exact hv

theorem replApply_keepsValid {t : Tract} (ht : t.move .valid = .valid) (retifset : Retifset)
    {dst : ℕ} (hdst : dst < site.nrepls k) {n : ℕ} (hv : s.state k n = .valid) :
    stateAt (replApply t retifset (s.bmap k).repls dst).repls n = .valid := by
  rw [replApply_stateAt _ _ _ (lt_of_lt_of_le hdst (site.nrepls_le k))]
  split_ifs with h
  · subst h
    rw [show stateAt (s.bmap k).repls n = .valid from hv, ht]
  · exact hv

end Keep

/-! ### The scheduler and its callbacks -/

section Scheduler

variable {site : Site} {k : BmapId} {dst : ℕ} {env : TryEnv} {hasData : ℕ → Bool}

section
variable (hdst : dst < site.nrepls k)
include hdst

theorem upschTryrepl_keepsValid {s t : St} (h : upschTryrepl site env hasData k dst s = some t) : KeepsValid s t := by
  intro k' n hv
  rcases upschTryrepl_state hdst h k' n with hs | ⟨rfl, rfl, hq, -⟩
  · rw [hs]
    exact hv
  · exact absurd (hq.symm.trans hv) (by decide)

theorem mdsTryrepl_spec {m t : Mds}
    {r : Bool} (h : mdsTryrepl site env hasData k dst m = some (r, t)) : KeepsValid m.st t.st ∧ Hands m t := by
  unfold mdsTryrepl at h
  split at h
  · cases h
  rename_i hu
  have hkeep := upschTryrepl_keepsValid hdst hu
  split at h
  · cases h
    exact ⟨hkeep, .inr ⟨k, rfl⟩⟩
  split at h <;>
  · cases h
    exact ⟨hkeep, .inl rfl⟩

theorem finishPtrunc_keepsValid (rc : ℤ) (s : St) : KeepsValid s (slmUpschFinishPtrunc k dst rc s) := by
  unfold slmUpschFinishPtrunc
  split
  · exact setRepls_keepsValid fun n hv => replApply_keepsValid rfl _ hdst hv
  · exact fun _ _ hv => hv

theorem tryptrunc_keepsValid (env : PtruncEnv) (s : St) : KeepsValid s (slmUpschTryptrunc site env k dst s) := by
  have hsched := setRepls_keepsValid (s := s) fun n hv =>
    replApply_keepsValid (t := tractOne .truncpndg .truncpndgSched) rfl brepInitIdx hdst hv
  simp only [slmUpschTryptrunc]
  split
  · exact fun _ _ hv => hv
  split
  · exact fun _ _ hv => hv
  split
  · split
    · exact hsched
    · exact hsched.trans (finishPtrunc_keepsValid hdst _ _)
  · exact hsched

theorem trypreclaim_keepsValid (env : PreclaimEnv) (s : St) : KeepsValid s (slmUpschTrypreclaim site env k dst s) :=
  translated_keepsValid rfl fun k' n => ⟨_, _, fun h => h.1.1, slmUpschTrypreclaim_state hdst env k' n⟩

theorem mdsTrypreclaim_spec (env : PreclaimEnv) (wrote : Bool) (m : Mds) :
    KeepsValid m.st (mdsTrypreclaim site env wrote k dst m).2.st ∧
      Hands m (mdsTrypreclaim site env wrote k dst m).2 := by
  simp only [mdsTrypreclaim]
  split
  · exact ⟨trypreclaim_keepsValid hdst _ _, .inr ⟨k, rfl⟩⟩
  · exact ⟨trypreclaim_keepsValid hdst _ _, .inl rfl⟩

theorem cancelRepl_spec (m : Mds) :
    KeepsValid m.st (cancelRepl site k dst m).2.st ∧ Hands m (cancelRepl site k dst m).2 := by
  simp only [cancelRepl]
  split
  · exact ⟨commitRepls_keepsValid fun n hv => replApply_keepsValid rfl _ hdst hv, hands_logrepls _ _ _⟩
  · exact ⟨setRepls_keepsValid fun n hv => replApply_keepsValid rfl _ hdst hv, .inl rfl⟩

theorem batchReplCb_keepsValid (bgen : BitVec 32) (a : Answer) (s : St) :
    KeepsValid s (upschBatchReplCb site k dst bgen a s) :=
  translated_keepsValid (batchTract_valid _ bgen a) fun k' n =>
    ⟨_, _, And.left, upschBatchReplCb_state hdst bgen a k' n⟩

end

theorem batchPreclaimCb_keepsValid {lenv : LookupEnv} {ios : IosId} {rc : PreclaimRc} {s t : St}
    (h : slmBatchPreclaimCb site lenv k ios rc s = some t) : KeepsValid s t := by
  obtain ⟨i, -, -, hst⟩ := slmBatchPreclaimCb_state h
  exact translated_keepsValid rfl fun k' n => ⟨_, _, And.left, hst k' n⟩

end Scheduler

/-! ### The pass over a bmap -/

section Pass

variable {site : Site} {env : UpdEnv} {k k' : BmapId}

theorem mem_foreachRnd {order : List ℕ} {n i : ℕ} (h : i ∈ foreachRnd order n) : i < n := by
  rcases List.mem_append.mp h with h | h
  · simpa using (List.mem_filter.mp (List.mem_dedup.mp h)).2
  · exact List.mem_range.mp (List.mem_filter.mp h).1

variable {dst : ℕ}

theorem srcLoop_hasValid (hdst : dst < site.nrepls k') (pass : Bool) (srcs : List ℕ) (ve : Bool) {m t : Mds}
    {r ve' : Bool} (hm : HasValid site k m) (h : srcLoop site env k' dst pass srcs ve m = some (r, ve', t)) :
    HasValid site k t := by
  fun_induction srcLoop site env k' dst pass srcs ve m
  case case1 =>
    cases h
    exact hm
  case case2 ih | case3 ih | case4 ih | case5 ih => exact ih hm h
  case case6 => cases h
  case case7 hm' =>
    cases h
    obtain ⟨hk, hh⟩ := mdsTryrepl_spec hdst hm'
    exact hm.keep hk hh
  case case8 hm' ih =>
    obtain ⟨hk, hh⟩ := mdsTryrepl_spec hdst hm'
    exact ih (hm.keep hk hh) h

theorem procQueued_hasValid (hdst : dst < site.nrepls k') {ve : Bool} {m t : Mds}
    {r ve' : Bool} (hm : HasValid site k m) (h : procQueued site env k' dst ve m = some (r, ve', t)) :
    HasValid site k t := by
  revert h
  fun_cases procQueued site env k' dst ve m <;> intro h <;> cases h
  next => exact hm
  next hsrc => exact srcLoop_hasValid hdst _ _ _ hm hsrc
  next hfirst hsrc => exact srcLoop_hasValid hdst _ _ _ (srcLoop_hasValid hdst _ _ _ hm hfirst) hsrc
  next hfirst hsrc => exact srcLoop_hasValid hdst _ _ _ (srcLoop_hasValid hdst _ _ _ hm hfirst) hsrc
  next hfirst _ hsrc _ =>
    obtain ⟨hk, hh⟩ := cancelRepl_spec hdst _
    exact (srcLoop_hasValid hdst _ _ _ (srcLoop_hasValid hdst _ _ _ hm hfirst) hsrc).keep hk hh

theorem procDst_hasValid (hdst : dst < site.nrepls k') {ve : Bool} {m t : Mds}
    {r ve' : Bool} (hm : HasValid site k m) (h : procDst site env k' dst ve m = some (r, ve', t)) :
    HasValid site k t := by
  unfold procDst at h
  split at h
  · exact procQueued_hasValid hdst hm h
  · cases h
    exact hm.keep (tryptrunc_keepsValid hdst _ _) (.inl rfl)
  · cases h
    obtain ⟨hk, hh⟩ := mdsTrypreclaim_spec hdst (env.preclaim dst) (env.wrote dst) m
    exact hm.keep hk hh
  · cases h
    exact hm

theorem dstLoop_hasValid (dsts : List ℕ) (ve : Bool) {m t : Mds} (hlt : ∀ dst ∈ dsts, dst < site.nrepls k')
    (hm : HasValid site k m) (h : dstLoop site env k' dsts ve m = some t) : HasValid site k t := by
  fun_induction dstLoop site env k' dsts ve m
  case case1 =>
    cases h
    exact hm
  case case2 ih => exact ih (List.forall_mem_cons.mp hlt).2 hm h
  case case3 => cases h
  case case4 hproc =>
    cases h
    exact procDst_hasValid (List.forall_mem_cons.mp hlt).1 hm hproc
  case case5 hproc ih =>
    obtain ⟨hdst, hdsts⟩ := List.forall_mem_cons.mp hlt
    exact ih hdsts (procDst_hasValid hdst hm hproc) h

theorem updProcBmap_hasValid {m t : Mds} (hm : HasValid site k m)
    (h : updProcBmap site env k' m = some t) : HasValid site k t := by
  unfold updProcBmap at h
  split at h
  · cases h
    exact hm
  · exact dstLoop_hasValid _ _ (fun _ => mem_foreachRnd) hm h

end Pass

/-! ### Requests and activations -/

section Requests

variable {site : Site} {k : BmapId} {m : Mds} (ret : Retifset)

theorem hands_addrqBmap (k' : BmapId) (iosidx : List ℕ) (sprio uprio : ℤ) :
    Hands m (addrqBmap ret site k' iosidx sprio uprio m).2 := by
  simp only [addrqBmap]
  split
  · exact hands_logrepls _ _ _
  · split <;> exact .inl rfl

variable {q : BmapId} {i : ℕ}

theorem addrqBmap_hasValid (hi : i < site.nrepls q) (sprio uprio : ℤ) (hm : HasValid site k m) :
    HasValid site k (addrqBmap ret site q [i] sprio uprio m).2 := by
  refine hm.keep (fun r n hv => ?_) (hands_addrqBmap _ _ _ _ _)
  refine (addrqBmap_state ret hi sprio uprio r n).trans ?_
  split_ifs with h
  · rw [← h.1, show m.state r n = .valid from hv]
    rfl
  · exact hv

variable {env : RqEnv}

theorem addrqAll_hasValid {fid : ℕ} (hi : i < site.nrepls ⟨fid, 0⟩)
    (sprio uprio : ℤ) : ∀ (bnos : List ℕ) (someAct allAct : Bool) {m : Mds}, HasValid site k m →
      HasValid site k (addrqAll site env fid [i] sprio uprio bnos someAct allAct m).2.2
  | [], _, _, _, hm => hm
  | bno :: bnos, someAct, allAct, m, hm => by
    rw [addrqAll]
    split
    · exact addrqAll_hasValid hi sprio uprio bnos _ _ hm
    split
    · exact addrqAll_hasValid hi sprio uprio bnos _ _ hm
    · exact addrqAll_hasValid hi sprio uprio bnos _ _
        (addrqBmap_hasValid addrqRetAll (q := ⟨fid, bno⟩) hi sprio uprio hm)

theorem addrq_hasValid (env : RqEnv) (fid : ℕ) (bmapno : Option ℕ) (iosv : List IosId)
    (sprio uprio : ℤ) (hm : HasValid site k m) :
    HasValid site k (mdsReplAddrq site env fid bmapno iosv sprio uprio m).2 := by
  fun_cases mdsReplAddrq site env fid bmapno iosv sprio uprio m <;> try exact hm
  next hlen _ _ _ hl _ _ =>
    obtain ⟨-, i, -, rfl, hi, -⟩ := mdsReplIosvLookup_eq_some hlen hl
    exact addrqAll_hasValid hi sprio uprio _ _ _ hm
  next hlen _ _ _ hl _ bno _ _ _ _ =>
    obtain ⟨-, i, -, rfl, hi, -⟩ := mdsReplIosvLookup_eq_some hlen hl
    exact addrqBmap_hasValid addrqRetOne (q := ⟨fid, bno⟩) hi sprio uprio hm

theorem hands_delrqBmap (k' : BmapId) (iosidx : List ℕ) : Hands m (delrqBmap ret site k' iosidx m).2 := by
  simp only [delrqBmap]
  split
  · exact hands_logrepls _ _ _
  · exact .inl rfl

theorem delrqBmap_hasValid (hi : i < site.nrepls q) (hcount : 0 < countvalid site q [i] m.st) (hm : HasValid site k m) :
    HasValid site k (delrqBmap ret site q [i] m).2 := by
  have hother : ∃ n < site.nrepls k, (k = q → n ≠ i) ∧ m.state k n = .valid := by
    by_cases hk : k = q
    · subst hk
      obtain ⟨n, hn, hni, hv⟩ := countvalid_pos.mp hcount
      exact ⟨n, hn, fun _ => by simpa using hni, hv⟩
    · obtain ⟨n, hn, hv⟩ := hm.valid
      exact ⟨n, hn, fun h => absurd h hk, hv⟩
  obtain ⟨n, hn, hni, hv⟩ := hother
  refine hm.next ⟨n, hn, ?_⟩ (hands_delrqBmap _ _ _)
  rw [delrqBmap_state ret hi, if_neg fun h => hni h.1 h.2]
  exact hv

theorem delrqAll_hasValid {fid : ℕ} (hi : i < site.nrepls ⟨fid, 0⟩) :
    ∀ (bnos : List ℕ) (rc : RqRc) (allInvalid : ℕ) {m : Mds}, HasValid site k m →
      HasValid site k (delrqAll site env fid [i] bnos rc allInvalid m).2.2
  | [], _, _, _, hm => hm
  | bno :: bnos, rc, allInvalid, m, hm => by
    rw [delrqAll]
    split
    · exact delrqAll_hasValid hi bnos _ _ hm
    split_ifs with hcount
    · exact delrqAll_hasValid hi bnos _ _ (delrqBmap_hasValid delrqRetAll hi hcount hm)
    · exact delrqAll_hasValid hi bnos _ _ hm

theorem delrq_hasValid (env : RqEnv) (fid : ℕ) (bmapno : Option ℕ) (iosv : List IosId)
    (hm : HasValid site k m) : HasValid site k (mdsReplDelrq site env fid bmapno iosv m).2 := by
  fun_cases mdsReplDelrq site env fid bmapno iosv m <;> try exact hm
  next hlen _ _ hl _ _ =>
    obtain ⟨-, i, -, rfl, hi, -⟩ := mdsReplIosvLookup_eq_some hlen hl
    exact delrqAll_hasValid hi _ _ _ hm
  next hlen _ _ hl _ _ _ _ hcount _ =>
    obtain ⟨-, i, -, rfl, hi, -⟩ := mdsReplIosvLookup_eq_some hlen hl
    exact delrqBmap_hasValid delrqRetOne hi hcount hm

theorem activate_hasValid {k' : BmapId} (hi : i < site.nrepls k') (defer : Bool)
    (pw : Pwritev) (hexp : Expected k m (.activate k' i defer pw)) (hm : HasValid site k m) :
    HasValid site k (activate site k' i defer pw m) := by
  by_cases hk : k' = k
  · subst hk
    refine hm.next ⟨i, hi, ?_⟩ (hands_logrepls _ _ _)
    refine (commit_state_eq _ _ _ _ _ _).trans ?_
    rw [if_pos rfl, mdsReplInvExceptDefer_self _ _ _ _ hi]
    rcases hexp rfl with h | h | h <;> rw [show stateAt (m.st.bmap k').repls i = _ from h] <;> rfl
  obtain ⟨n, hn, hv⟩ := hm.valid
  refine hm.next ⟨n, hn, ?_⟩ (hands_logrepls _ _ _)
  refine (commit_state_eq _ _ _ _ _ _).trans ?_
  rw [if_neg (Ne.symm hk)]
  exact hv

end Requests

theorem step_hasValid {site : Site} {k : BmapId} {m t : Mds} {c : Change} (hm : HasValid site k m)
    (hexp : Expected k m c) (h : step site m c = some t) : HasValid site k t := by
  revert h
  fun_cases step site m c <;> intro h <;> try cases h
  next hi => exact activate_hasValid hi _ _ hexp hm
  next => exact addrq_hasValid _ _ _ _ _ _ hm
  next => exact delrq_hasValid _ _ _ _ hm
  next => exact updProcBmap_hasValid hm h
  next k' dst bgen a hdst =>
    have hkeep := batchReplCb_keepsValid hdst bgen a m.st
    simp only [mdsBatchReplCb]
    split
    · exact hm.keep hkeep (.inr ⟨k', rfl⟩)
    · exact hm.keep hkeep (.inl rfl)
  next k' _ _ _ =>
    obtain ⟨u, hu, rfl⟩ := Option.map_eq_some_iff.mp h
    exact hm.keep (batchPreclaimCb_keepsValid hu) (.inr ⟨k', rfl⟩)
  next rc hdst => exact hm.keep (finishPtrunc_keepsValid hdst rc m.st) (.inl rfl)

theorem mdsBreplsCheck_iff (f : Inode) (b : Bmap) : mdsBreplsCheck b.repls f.nrepls = mdsBmapEnsureValid f b := by
  rw [Bool.eq_iff_iff, mdsBmapEnsureValid_iff, mdsBreplsCheck, Bool.and_eq_true, List.any_eq_true]
  simp only [List.mem_range, decide_eq_true_iff]
  constructor
  · exact fun h => h.2
  · rintro ⟨n, hn, hd⟩
    exact ⟨⟨Nat.zero_lt_of_lt hn, f.nrepls_le⟩, n, hn, hd⟩

/-- **No table without a replica**, if activations are `Expected`. -/
theorem handed_run (site : Site) (k : BmapId) {m : Mds}
    (hw : ∃ n < site.nrepls k, m.state k n = .valid) (hnone : m.handed = []) {cs : List Change}
    (hexp : Admits (step site) (Expected k) m cs) {t : Mds} (ht : run (step site) m cs = some t)
    {b : Bmap} (hb : (k, b) ∈ t.handed) : mdsBmapEnsureValid (site.ino k.fid) b = true ∧
      mdsBreplsCheck b.repls (site.nrepls k) = true := by
  have hm : HasValid site k m := ⟨hw, fun b hb => by simp [hnone] at hb⟩
  have hvalid := run_invariant (fun hs he h => step_hasValid hs he h) hm hexp ht
  obtain ⟨n, hn, hv⟩ := hvalid.handed b hb
  have hpass : mdsBmapEnsureValid (site.ino k.fid) b = true :=
    (mdsBmapEnsureValid_iff _ _).mpr ⟨n, hn, by rw [hv]; decide⟩
  exact ⟨hpass, (mdsBreplsCheck_iff _ _).trans hpass⟩

def newBmap (pol : Brpol) : Bmap := ⟨Vector.replicate slReplicaNbytes 0, 0, pol⟩

def newMds (pol : Brpol) : Mds := ⟨⟨fun _ => newBmap pol, ⟨fun _ => none, false⟩, fun _ => false⟩, []⟩

def easyPass : UpdEnv where
  replmodwr := false
  wrIon := false
  dsts := []
  srcs _ _ := []
  backup _ := false
  csvc _ := false
  tryEnv _ _ := ⟨false, false, 0, 0⟩
  hasData _ := false
  ptrunc _ := ⟨false, 0, 0⟩
  preclaim _ := ⟨true, 0⟩
  wrote _ := true

def strayWrite : List Change :=
  [.activate duoKey 0 false ⟨0, false⟩, .addrq easyRq 7 (some 0) [2] (-1) (-1), .activate duoKey 1 false ⟨0, false⟩]

def writtenMds (pol : Brpol) : Mds :=
  { activate duoSite duoKey 0 false ⟨0, false⟩ (newMds pol) with handed := [] }

/-- A second replica is asked for, and the first written again. -/
theorem handed_run_rewrite : ∃ t, run (step duoSite) (writtenMds .persist)
      [.addrq easyRq 7 (some 0) [2] (-1) (-1), .activate duoKey 0 false ⟨0, false⟩] = some t ∧
    (duoKey, t.st.bmap duoKey) ∈ t.handed ∧ mdsBmapEnsureValid (duoSite.ino 7) (t.st.bmap duoKey) = true := by
  have hrun : ∃ t ∈ run (step duoSite) (writtenMds .persist)
      [.addrq easyRq 7 (some 0) [2] (-1) (-1), .activate duoKey 0 false ⟨0, false⟩],
      (duoKey, t.st.bmap duoKey) ∈ t.handed := by decide +kernel
  obtain ⟨t, ht, hb⟩ := hrun
  exact ⟨t, ht, hb, (handed_run duoSite duoKey (by decide) rfl (by decide) ht hb).1⟩

/-- A write through a replica that is still queued. -/
theorem handed_without_replica : (∃ t ∈ run (step duoSite) (newMds .persist) strayWrite, ∃ e ∈ t.handed, e.1 = duoKey ∧
      mdsBmapEnsureValid (duoSite.ino 7) e.2 = false ∧ mdsBreplsCheck e.2.repls 2 = false) ∧
    (∃ t ∈ run (step duoSite) (newMds .onetime)
        (strayWrite ++ [.updProc duoKey easyPass, .preclaimCb duoKey 1 .ok easyRq.lenv]), ∃ e ∈ t.handed, e.1 = duoKey ∧
        mdsBmapEnsureValid (duoSite.ino 7) e.2 = false ∧ mdsBreplsCheck e.2.repls 2 = false) := by
  decide +kernel

end Slash2.Upsch.Active
