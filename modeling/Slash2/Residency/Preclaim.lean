/-
# Reclaiming a replica that is wanted again

A replica that is garbage is reclaimed: the MDS puts a request into a batch for its
server and marks the replica `GARBAGE_SCHED`; the server punches the bmap out of the
file; the answer makes the replica `INVALID`, or `GARBAGE` again. A request cannot be
called back once it is in the batch.

Key theorem: `punch_harmless`.
-/
import Slash2.Residency.Request

namespace Slash2.Upsch.Preclaim

open Lib Residency List Option

/-! ### The server -/

/-- What `sli_rim_handle_batch` meets with a reclaim. -/
structure IosEnv where
  bulkRc : ℤ
  /-- `HAVE_FALLOC_FL_PUNCH_HOLE` -/
  punchHole : Bool
  /-- the result of `sli_fcmh_get` -/
  fcmhRc : ℤ
  /-- `errno` of `fallocate`, zero if it succeeds -/
  errno : ℤ

def punches (env : IosEnv) : Bool :=
  env.bulkRc == 0 && env.punchHole && env.fcmhRc == 0 && env.errno == 0

/-- The answer of `sli_rim_handle_batch`. -/
def sliRimHandleBatch (env : IosEnv) : PreclaimRc := if env.bulkRc ≠ 0 then .error else .notsup

structure Copy where
  key : BmapId
  dst : ℕ
  bgen : BitVec 32
  copied : Bool

structure Reclaim where
  key : BmapId
  dst : ℕ
  served : Option PreclaimRc
  finished : Bool

structure Sys where
  mds : Mds
  copies : List Copy
  reclaims : List Reclaim

inductive Label where
  | addrq (env : RqEnv) (fid : ℕ) (bmapno : Option ℕ) (iosv : List IosId) (sprio uprio : ℤ)
  | trypreclaim (k : BmapId) (dst : ℕ) (env : PreclaimEnv) (wrote : Bool)
  | tryrepl (k : BmapId) (src dst : ℕ) (env : TryEnv) (hasData : ℕ → Bool)
  /-- the destination of the `n`-th copy has the data -/
  | copy (n : ℕ)
  /-- the `n`-th copy is answered -/
  | replCb (n : ℕ) (a : Answer)
  /-- the server processes the `n`-th reclaim -/
  | punch (n : ℕ) (env : IosEnv)
  /-- the `n`-th reclaim is answered, or its connection is lost -/
  | preclaimCb (n : ℕ) (lost : Bool) (lenv : LookupEnv)

variable (site : Site)

/-- What `upd_proc_bmap` asks for before it tries a copy. -/
def Arrangeable (m : Mds) (k : BmapId) (src dst : ℕ) : Prop :=
  target site k src ∧ target site k dst ∧ src ≠ dst ∧ m.state k src = .valid ∧
    m.state k dst = .replQueued
  deriving Decidable

/-- The copy `slm_upsch_tryrepl` put into a batch. -/
def sentCopy (env : TryEnv) (hasData : ℕ → Bool) (k : BmapId) (dst : ℕ) (m : Mds) : List Copy :=
  match slmUpschTryrepl env k.bno hasData (m.st.bmap k) dst with
  | .sent _ g => [⟨k, dst, g, false⟩]
  | _ => []

/-- The reclaim `slm_upsch_trypreclaim` put into a batch. -/
def sentReclaim (env : PreclaimEnv) (k : BmapId) (dst : ℕ) (m : Mds) : List Reclaim :=
  if preclaimSends site env k dst m.st then [⟨k, dst, none, false⟩] else []

def finishRc (lost : Bool) (r : Reclaim) : Option PreclaimRc := if lost then some .error else r.served

variable (s : Sys)

/-- One step; `none` if it cannot be taken. -/
def step : Label → Option Sys
  | .addrq env fid bmapno iosv sprio uprio =>
    some { s with mds := (mdsReplAddrq site env fid bmapno iosv sprio uprio s.mds).2 }
  | .trypreclaim k dst env wrote =>
    if target site k dst = true ∧ s.mds.state k dst = .garbage then
      some { s with
        mds := (mdsTrypreclaim site env wrote k dst s.mds).2
        reclaims := s.reclaims ++ sentReclaim site env k dst s.mds }
    else none
  | .tryrepl k src dst env hasData =>
    if Arrangeable site s.mds k src dst then
      (mdsTryrepl site env hasData k dst s.mds).map fun r =>
        { s with mds := r.2, copies := s.copies ++ sentCopy env hasData k dst s.mds }
    else none
  | .copy n => (s.copies[n]?).map fun c => { s with copies := s.copies.set n { c with copied := true } }
  | .replCb n a =>
    (s.copies[n]?).bind fun c =>
      -- a server reports success only for a copy it has made
      if a.rc = some 0 ∧ c.copied = false then none
      else some { s with
        mds := mdsBatchReplCb site c.key c.dst c.bgen a s.mds
        copies := s.copies.eraseIdx n }
  | .punch n env =>
    (s.reclaims[n]?).bind fun r =>
      if r.served = none then
        some { s with reclaims := s.reclaims.set n { r with served := some (sliRimHandleBatch env) } }
      else none
  | .preclaimCb n lost lenv =>
    (s.reclaims[n]?).bind fun r =>
      if r.finished then none
      else (finishRc lost r).bind fun rc =>
        (mdsBatchPreclaimCb site lenv r.key (site.res r.key r.dst) rc s.mds).map fun m =>
          { s with mds := m, reclaims := s.reclaims.set n { r with finished := true } }

/-! ### Harm -/

variable (k : BmapId)

/-- The step gives replica `n` its data. -/
def Copies (n : ℕ) (s : Sys) : Label → Prop
  | .copy i => ∃ c ∈ s.copies[i]?, c.key = k ∧ c.dst = n
  | .tryrepl k' _ dst env hasData =>
    k' = k ∧ dst = n ∧ slmBmapCalcRepltraffic env.fsz k.bno hasData = 0
  | _ => False

/-- The replica can become VALID without a copy. -/
def BecomesValid (n : ℕ) : Prop :=
  ∃ ls t, Admits (step site) (fun s l => ¬ Copies k n s l) s ls ∧ run (step site) s ls = some t ∧
    t.mds.state k n = .valid

/-- The step punches out the data of replica `n` of the bmap. -/
def Punches (n : ℕ) (s : Sys) : Label → Prop
  | .punch i env => punches env ∧ ∃ r ∈ s.reclaims[i]?, r.served = none ∧ r.key = k ∧ r.dst = n
  | _ => False

instance (n : ℕ) (s : Sys) (l : Label) : Decidable (Punches k n s l) := by
  cases l <;> unfold Punches <;> infer_instance

/-- No request for a replica being reclaimed, and no reclaim of one being copied. -/
def Prudent : Label → Prop
  | .addrq env fid bmapno iosv _ _ =>
    ∀ r ∈ s.reclaims, r.served = none → ¬ Names site env.lenv fid bmapno iosv r.key r.dst
  | .trypreclaim k dst _ _ => ∀ c ∈ s.copies, ¬ (c.key = k ∧ c.dst = dst)
  | _ => True

instance (l : Label) : Decidable (Prudent site s l) := by
  cases l <;> unfold Prudent <;> infer_instance

def Dead (v : Breplst) : Prop := v = .garbage ∨ v = .garbageSched ∨ v = .invalid

def CopiesLt : Prop := ∀ c ∈ s.copies, c.dst < site.nrepls c.key

structure Quiet (site : Site) (s : Sys) : Prop where
  copiesLt : CopiesLt site s
  dead : ∀ r ∈ s.reclaims, r.served = none → Dead (s.mds.state r.key r.dst)
  alone : ∀ r ∈ s.reclaims, r.served = none → ∀ c ∈ s.copies, ¬ (c.key = r.key ∧ c.dst = r.dst)

/-- A step changes the state of replica `n` from `v` to `w`. -/
def Moves (n : ℕ) (v w : Breplst) : Label → Prop
  | .addrq env fid bmapno iosv _ _ =>
    Names site env.lenv fid bmapno iosv k n ∧ v ≠ .valid ∧ w = .replQueued
  | .trypreclaim k' dst _ _ => k' = k ∧ dst = n ∧ v = .garbage ∧ w = .garbageSched
  | .tryrepl k' _ dst env hasData => k' = k ∧ dst = n ∧ v = .replQueued ∧
    ((slmBmapCalcRepltraffic env.fsz k.bno hasData = 0 ∧ w = .valid) ∨ w = .replSched)
  | .replCb i a => ∃ c ∈ s.copies[i]?, c.key = k ∧ c.dst = n ∧
    w = (batchTract (s.mds.st.bmap k).gen c.bgen a).move v
  | .preclaimCb _ _ _ => v = .garbageSched ∧ Dead w
  | _ => False

section State

variable {k} {site s} {t : Sys} {l : Label}

theorem mdsBatchReplCb_st (k : BmapId) (dst : ℕ) (bgen : BitVec 32) (a : Answer) (m : Mds) :
    (mdsBatchReplCb site k dst bgen a m).st = upschBatchReplCb site k dst bgen a m.st := by
  simp only [mdsBatchReplCb]
  split <;> rfl

theorem mdsTrypreclaim_st (env : PreclaimEnv) (wrote : Bool) (k : BmapId) (dst : ℕ) (m : Mds) :
    (mdsTrypreclaim site env wrote k dst m).2.st = slmUpschTrypreclaim site env k dst m.st := by
  simp only [mdsTrypreclaim]
  split <;> rfl

variable {dst : ℕ} {m : Mds}

theorem mdsTryrepl_st {env : TryEnv} {hasData : ℕ → Bool} {r : Bool × Mds}
    (h : mdsTryrepl site env hasData k dst m = some r) : upschTryrepl site env hasData k dst m.st = some r.2.st := by
  unfold mdsTryrepl at h
  split at h
  · cases h
  rename_i hu
  rw [hu]
  split at h
  · cases h
    rfl
  split at h <;>
  · cases h
    rfl

theorem target_lt (h : target site k dst) : dst < site.nrepls k :=
  of_decide_eq_true (Bool.and_eq_true_iff.mp h).1

theorem dead_reclaimed (rc : PreclaimRc) : Dead (reclaimed rc) := by
  cases rc
  · exact .inr (.inr rfl)
  · exact .inl rfl
  · exact .inl rfl

theorem mdsBatchPreclaimCb_state {lenv : LookupEnv} {ios : IosId} {rc : PreclaimRc} {m' : Mds}
    (h : mdsBatchPreclaimCb site lenv k ios rc m = some m') (k' : BmapId) (n : ℕ) : m'.state k' n = m.state k' n ∨
      (m.state k' n = .garbageSched ∧ m'.state k' n = reclaimed rc) := by
  obtain ⟨u, hu, rfl⟩ := map_eq_some_iff.mp h
  obtain ⟨i, -, -, hst⟩ := slmBatchPreclaimCb_state hu
  have hst := hst k' n
  split_ifs at hst with hkn
  · obtain ⟨rfl, -⟩ := hkn
    rw [tractOne_move] at hst
    split at hst
    · exact .inr ⟨‹_›, hst⟩
    · exact .inl hst
  · exact .inl hst

theorem step_state (hs : CopiesLt site s) (h : step site s l = some t) (k : BmapId) (n : ℕ) :
    t.mds.state k n = s.mds.state k n ∨ Moves site s k n (s.mds.state k n) (t.mds.state k n) l := by
  cases l with
  | addrq env fid bmapno iosv sprio uprio =>
    cases h
    exact mdsReplAddrq_queuedAt site env fid bmapno iosv sprio uprio s.mds k n
  | trypreclaim k' dst env wrote =>
    obtain ⟨hg, ⟨⟩⟩ := ite_none_right_eq_some.mp h
    have hst := slmUpschTrypreclaim_state (target_lt hg.1) env (s := s.mds.st) k n
    rw [← mdsTrypreclaim_st env wrote] at hst
    split_ifs at hst with hkn
    · obtain ⟨⟨rfl, rfl⟩, -⟩ := hkn
      refine .inr ⟨rfl, rfl, hg.2, ?_⟩
      rw [show (mdsTrypreclaim site env wrote k n s.mds).2.state k n = _ from hst,
        show s.mds.st.state k n = _ from hg.2]
      rfl
    · exact .inl hst
  | tryrepl =>
    obtain ⟨harr, h⟩ := ite_none_right_eq_some.mp h
    obtain ⟨r, hr, rfl⟩ := map_eq_some_iff.mp h
    rcases upschTryrepl_state (target_lt harr.2.1) (mdsTryrepl_st hr) k n with
      hst | ⟨rfl, rfl, hq, ⟨hamt, hw⟩ | ⟨-, hw⟩⟩
    · exact .inl hst
    · exact .inr ⟨rfl, rfl, hq, .inl ⟨hamt, hw⟩⟩
    · exact .inr ⟨rfl, rfl, hq, .inr hw⟩
  | copy =>
    obtain ⟨c, -, rfl⟩ := map_eq_some_iff.mp h
    exact .inl rfl
  | replCb i a =>
    obtain ⟨c, hc, h⟩ := bind_eq_some_iff.mp h
    split at h <;> cases h
    have hst := upschBatchReplCb_state (hs c (mem_of_getElem? hc)) c.bgen a (s := s.mds.st) k n
    rw [← mdsBatchReplCb_st] at hst
    split_ifs at hst with hkn
    · obtain ⟨rfl, rfl⟩ := hkn
      exact .inr ⟨c, hc, rfl, rfl, hst⟩
    · exact .inl hst
  | punch =>
    obtain ⟨r, -, h⟩ := bind_eq_some_iff.mp h
    split at h <;> cases h
    exact .inl rfl
  | preclaimCb =>
    obtain ⟨r, -, h⟩ := bind_eq_some_iff.mp h
    split at h
    · cases h
    obtain ⟨rc, -, h⟩ := bind_eq_some_iff.mp h
    obtain ⟨m, hm, rfl⟩ := map_eq_some_iff.mp h
    rcases mdsBatchPreclaimCb_state hm k n with hst | ⟨hv, hw⟩
    · exact .inl hst
    refine .inr ⟨hv, ?_⟩
    rw [hw]
    exact dead_reclaimed rc

theorem step_copies (h : step site s l = some t) {c : Copy} (hc : c ∈ t.copies) : c ∈ s.copies ∨
      (∃ i, l = .copy i ∧ ∃ c' ∈ s.copies[i]?, c = { c' with copied := true }) ∨
      (∃ k src dst env hasData, l = .tryrepl k src dst env hasData ∧ Arrangeable site s.mds k src dst ∧
        c.key = k ∧ c.dst = dst ∧ c.copied = false) := by
  cases l with
  | addrq env fid bmapno iosv sprio uprio =>
    cases h
    exact .inl hc
  | trypreclaim k' dst env wrote =>
    obtain ⟨-, ⟨⟩⟩ := ite_none_right_eq_some.mp h
    exact .inl hc
  | tryrepl k src dst env hasData =>
    obtain ⟨harr, h⟩ := ite_none_right_eq_some.mp h
    obtain ⟨r, hr, rfl⟩ := map_eq_some_iff.mp h
    rcases mem_append.mp hc with hc | hc
    · exact .inl hc
    refine .inr (.inr ⟨k, src, dst, env, hasData, rfl, harr, ?_⟩)
    unfold sentCopy at hc
    split at hc
    · cases mem_singleton.mp hc
      exact ⟨rfl, rfl, rfl⟩
    · simp at hc
  | copy i =>
    obtain ⟨c', hc', rfl⟩ := map_eq_some_iff.mp h
    rcases mem_or_eq_of_mem_set hc with hc | rfl
    · exact .inl hc
    · exact .inr (.inl ⟨i, rfl, c', hc', rfl⟩)
  | replCb i a =>
    obtain ⟨c', -, h⟩ := bind_eq_some_iff.mp h
    split at h <;> cases h
    exact .inl (mem_of_mem_eraseIdx hc)
  | punch i env =>
    obtain ⟨r, -, h⟩ := bind_eq_some_iff.mp h
    split at h <;> cases h
    exact .inl hc
  | preclaimCb i lost lenv =>
    obtain ⟨r, -, h⟩ := bind_eq_some_iff.mp h
    split at h
    · cases h
    obtain ⟨rc, -, h⟩ := bind_eq_some_iff.mp h
    obtain ⟨m, -, rfl⟩ := map_eq_some_iff.mp h
    exact .inl hc

theorem step_reclaims (h : step site s l = some t) {r : Reclaim} (hr : r ∈ t.reclaims) (hun : r.served = none) :
    (∃ r' ∈ s.reclaims, r'.served = none ∧ r'.key = r.key ∧ r'.dst = r.dst) ∨
      (∃ k dst env wrote, l = .trypreclaim k dst env wrote ∧ s.mds.state k dst = .garbage ∧
        t.copies = s.copies ∧ r.key = k ∧ r.dst = dst) := by
  cases l with
  | addrq env fid bmapno iosv sprio uprio =>
    cases h
    exact .inl ⟨r, hr, hun, rfl, rfl⟩
  | trypreclaim k dst env wrote =>
    obtain ⟨hg, ⟨⟩⟩ := ite_none_right_eq_some.mp h
    rcases mem_append.mp hr with hr | hr
    · exact .inl ⟨r, hr, hun, rfl, rfl⟩
    refine .inr ⟨k, dst, env, wrote, rfl, hg.2, rfl, ?_⟩
    unfold sentReclaim at hr
    split at hr
    · cases mem_singleton.mp hr
      exact ⟨rfl, rfl⟩
    · simp at hr
  | tryrepl k src dst env hasData =>
    obtain ⟨-, h⟩ := ite_none_right_eq_some.mp h
    obtain ⟨q, -, rfl⟩ := map_eq_some_iff.mp h
    exact .inl ⟨r, hr, hun, rfl, rfl⟩
  | copy i =>
    obtain ⟨c', -, rfl⟩ := map_eq_some_iff.mp h
    exact .inl ⟨r, hr, hun, rfl, rfl⟩
  | replCb i a =>
    obtain ⟨c', -, h⟩ := bind_eq_some_iff.mp h
    split at h <;> cases h
    exact .inl ⟨r, hr, hun, rfl, rfl⟩
  | punch i env =>
    obtain ⟨r', -, h⟩ := bind_eq_some_iff.mp h
    split at h <;> cases h
    rcases mem_or_eq_of_mem_set hr with hr | rfl
    · exact .inl ⟨r, hr, hun, rfl, rfl⟩
    · cases hun
  | preclaimCb i lost lenv =>
    obtain ⟨r', hr', h⟩ := bind_eq_some_iff.mp h
    split at h
    · cases h
    obtain ⟨rc, -, h⟩ := bind_eq_some_iff.mp h
    obtain ⟨m, -, rfl⟩ := map_eq_some_iff.mp h
    rcases mem_or_eq_of_mem_set hr with hr | rfl
    · exact .inl ⟨r, hr, hun, rfl, rfl⟩
    · exact .inl ⟨r', mem_of_getElem? hr', hun, rfl, rfl⟩

theorem step_copiesLt (hs : CopiesLt site s) (h : step site s l = some t) : CopiesLt site t := by
  intro c hc
  rcases step_copies h hc with hc | ⟨i, -, c', hc', rfl⟩ | ⟨k, src, dst, env, hd, -, harr, rfl, rfl, -⟩
  · exact hs c hc
  · exact hs c' (mem_of_getElem? hc')
  · exact target_lt harr.2.1

end State

/-! ### Nothing punched is valid again without a copy -/

section Harmless

variable {k} {site s} {t : Sys} {l : Label}

/-- Not valid, and no copy could make it so. -/
structure Gone (site : Site) (k : BmapId) (n : ℕ) (s : Sys) : Prop where
  copiesLt : CopiesLt site s
  notValid : s.mds.state k n ≠ .valid
  uncopied : ∀ c ∈ s.copies, c.key = k → c.dst = n → c.copied = false

theorem Dead.ne_valid {v : Breplst} (h : Dead v) : v ≠ .valid := by
  rcases h with rfl | rfl | rfl <;> decide

theorem step_gone {n : ℕ} (hs : Gone site k n s) (hl : ¬ Copies k n s l)
    (h : step site s l = some t) : Gone site k n t := by
  refine ⟨step_copiesLt hs.copiesLt h, ?_, ?_⟩
  · rcases step_state hs.copiesLt h k n with hst | hmv
    · rw [hst]
      exact hs.notValid
    intro hvalid
    rw [hvalid] at hmv
    cases l with
    | addrq => exact absurd hmv.2.2 (by decide)
    | trypreclaim => exact absurd hmv.2.2.2 (by decide)
    | tryrepl =>
      obtain ⟨hk, hn, -, ⟨hamt, -⟩ | hw⟩ := hmv
      · exact hl ⟨hk, hn, hamt⟩
      · exact absurd hw (by decide)
    | copy => exact hmv
    | replCb =>
      obtain ⟨c, hc, rfl, rfl, hmv⟩ := hmv
      have huncopied := hs.uncopied c (mem_of_getElem? hc) rfl rfl
      rcases batchTract_move_valid hmv.symm with hv | ⟨-, hrc, -⟩
      · exact hs.notValid hv
      obtain ⟨c', hc', h⟩ := bind_eq_some_iff.mp h
      obtain rfl : c = c' := some.inj (hc.symm.trans hc')
      rw [if_pos ⟨hrc, huncopied⟩] at h
      cases h
    | punch => exact hmv
    | preclaimCb => exact hmv.2.ne_valid rfl
  · intro c hc hk hn
    rcases step_copies h hc with hc | ⟨i, rfl, c', hc', rfl⟩ | ⟨k', src, dst, env, hd, -, -, -, -, hcop⟩
    · exact hs.uncopied c hc hk hn
    · exact absurd ⟨c', hc', hk, hn⟩ hl
    · exact hcop

theorem not_becomesValid {n : ℕ} (hs : Gone site k n s) : ¬ BecomesValid site s k n := by
  rintro ⟨ls, t, hls, ht, hv⟩
  exact (run_invariant (fun hs hl h => step_gone hs hl h) hs hls ht).notValid hv

theorem step_quiet (hs : Quiet site s) (hl : Prudent site s l) (h : step site s l = some t) : Quiet site t := by
  refine ⟨step_copiesLt hs.copiesLt h, ?_, ?_⟩
  · intro r hr hun
    rcases step_reclaims h hr hun with ⟨r', hr', hun', hk, hn⟩ | ⟨k, dst, env, wrote, rfl, hg, -, rfl, rfl⟩
    · rw [← hk, ← hn]
      have hdead := hs.dead r' hr' hun'
      rcases step_state hs.copiesLt h r'.key r'.dst with hst | hmv
      · rw [hst]
        exact hdead
      cases l with
      | addrq => exact absurd hmv.1 (hl r' hr' hun')
      | trypreclaim => exact .inr (.inl hmv.2.2.2)
      | tryrepl =>
        rw [hmv.2.2.1] at hdead
        rcases hdead with h | h | h <;> cases h
      | copy => exact absurd hmv id
      | replCb =>
        obtain ⟨c, hc, hck, hcn, -⟩ := hmv
        exact absurd ⟨hck, hcn⟩ (hs.alone r' hr' hun' c (mem_of_getElem? hc))
      | punch => exact absurd hmv id
      | preclaimCb => exact hmv.2
    · rcases step_state hs.copiesLt h r.key r.dst with hst | hmv
      · rw [hst]
        exact .inl hg
      · exact .inr (.inl hmv.2.2.2)
  · intro r hr hun c hc hkn
    rcases step_reclaims h hr hun with ⟨r', hr', hun', hk, hn⟩ | ⟨k, dst, env, wrote, rfl, hg, hcs, rfl, rfl⟩
    · rw [← hk, ← hn] at hkn
      rcases step_copies h hc with hc | ⟨i, -, c', hc', rfl⟩ | ⟨k, src, dst, env, hd, -, harr, hck, hcn, -⟩
      · exact hs.alone r' hr' hun' c hc hkn
      · exact hs.alone r' hr' hun' c' (mem_of_getElem? hc') hkn
      have hdead := hs.dead r' hr' hun'
      rw [← hkn.1, ← hkn.2, hck, hcn, harr.2.2.2.2] at hdead
      rcases hdead with h | h | h <;> cases h
    · rw [hcs] at hc
      exact hl c hc hkn

/-- **A punch does no harm**, in every run of prudent steps. -/
theorem punch_harmless (site : Site) {s₀ s : Sys} (hc : s₀.copies = []) (hr : s₀.reclaims = [])
    {ls : List Label} (hls : Admits (step site) (Prudent site) s₀ ls)
    (hs : run (step site) s₀ ls = some s) {l : Label} {k : BmapId} {n : ℕ} (hp : Punches k n s l) :
    ¬ BecomesValid site s k n := by
  have hquiet : Quiet site s₀ :=
    ⟨fun c h => by simp [hc] at h, fun r h => by simp [hr] at h, fun r h => by simp [hr] at h⟩
  have hq := run_invariant (fun hs hl h => step_quiet hs hl h) hquiet hls hs
  cases l with
  | punch =>
    obtain ⟨-, r, hri, hun, rfl, rfl⟩ := hp
    have hmem := mem_of_getElem? hri
    exact not_becomesValid ⟨hq.copiesLt, (hq.dead r hmem hun).ne_valid,
      fun c hc hk hn => absurd ⟨hk, hn⟩ (hq.alone r hmem hun c hc)⟩
  | _ => exact absurd hp id

end Harmless

def duoGarbage : Sys :=
  ⟨⟨⟨fun _ => duoBmap .valid .garbage, ⟨fun _ => none, false⟩, fun _ => false⟩, []⟩, [], []⟩

def goodIos : IosEnv := ⟨0, true, 0, 0⟩

def recopied : List Label :=
  [.trypreclaim duoKey 1 ⟨true, 0⟩ true, .addrq easyRq 7 (some 0) [2] (-1) (-1),
    .tryrepl duoKey 0 1 ⟨true, true, 1, 0⟩ fun i => i = 0, .copy 0]

/-- A reclaim of a replica nobody asks for. -/
theorem punch_harmless_garbage : ∃ s, run (step duoSite) duoGarbage
      [.trypreclaim duoKey 1 ⟨true, 0⟩ true] = some s ∧ Punches duoKey 1 s (.punch 0 goodIos) ∧
    ¬ BecomesValid duoSite s duoKey 1 := by
  have hrun : ∃ s ∈ run (step duoSite) duoGarbage [.trypreclaim duoKey 1 ⟨true, 0⟩ true],
      Punches duoKey 1 s (.punch 0 goodIos) := by decide +kernel
  obtain ⟨s, hs, hp⟩ := hrun
  exact ⟨s, hs, hp, punch_harmless duoSite rfl rfl (by decide +kernel) hs hp⟩

/-- The reclaim is processed after the copy. -/
theorem punched_while_valid : (∃ s ∈ run (step duoSite) duoGarbage (recopied ++ [.replCb 0 ⟨0, some 0⟩]),
      Punches duoKey 1 s (.punch 0 goodIos) ∧ s.mds.state duoKey 1 = .valid) ∧
    (∃ s, run (step duoSite) duoGarbage recopied = some s ∧ Punches duoKey 1 s (.punch 0 goodIos) ∧
      BecomesValid duoSite s duoKey 1) := by
  refine ⟨by decide +kernel, ?_⟩
  have hrun : ∃ s ∈ run (step duoSite) duoGarbage recopied, Punches duoKey 1 s (.punch 0 goodIos) ∧
        ∃ t ∈ run (step duoSite) s [.punch 0 goodIos, .replCb 0 ⟨0, some 0⟩],
          t.mds.state duoKey 1 = .valid := by decide +kernel
  obtain ⟨s, hs, hp, t, ht, hv⟩ := hrun
  exact ⟨s, hs, hp, [.punch 0 goodIos, .replCb 0 ⟨0, some 0⟩], t, ⟨id, fun _ _ => ⟨id, fun _ _ => trivial⟩⟩, ht, hv⟩

end Slash2.Upsch.Preclaim
