/-
# When the scheduler's table agrees with the residency tables

The purpose of `upsch`: for a replica on a server that takes partial reclaims
there is a row exactly while work is due or under way, with status `'Q'` exactly
while it is due; and no row is inserted twice.

Key theorems: `step_agrees_iff`, `upsch_agrees_run`.
-/
import Slash2.Residency.Upsch

namespace Slash2.Upsch

open Lib Residency Option
open Bool (and_eq_true_iff)

/-! ### Agreement -/

def need : Breplst → Option Status
  | .invalid | .valid => none
  | .replQueued | .truncpndg | .garbage => some .q
  | .replSched | .truncpndgSched | .garbageSched => some .s

/-- The work table says what the replicas need. -/
structure Agrees (site : Site) (s : St) : Prop where
  clash : s.upsch.clash = false
  row : ∀ k, ∀ n < site.nrepls k, supports site s (site.res k n) →
    s.status (site.res k n) k = need (s.state k n)

/-- Changes that `slm_repl_upd_write` follows rightly. -/
def rowFollows : Breplst → Breplst → Bool
  -- the row is inserted
  | .invalid, .replQueued | .valid, .replQueued | .invalid, .garbage | .valid, .garbage => true
  -- the row is deleted, or there is none
  | .replQueued, .valid | .replSched, .valid | .truncpndg, .valid | .truncpndgSched, .valid
  | .garbageSched, .valid | .invalid, .valid => true
  | .replQueued, .invalid | .replSched, .invalid | .truncpndg, .invalid | .truncpndgSched, .invalid
  | .garbageSched, .invalid | .valid, .invalid => true
  -- the row's status goes back to `'Q'`
  | .replSched, .replQueued | .replSched, .truncpndg | .truncpndgSched, .truncpndg => true
  -- the row keeps its status `'S'`
  | .garbageSched, .replSched | .garbageSched, .truncpndgSched => true
  | v, w => decide (v = w)

def requests (v w : Breplst) : Bool := w = .replQueued ∧ v ≠ .replQueued ∧ v ≠ .replSched

variable (site : Site)

/-- A change to `w` gets the right statement. -/
def PairSafe (s : St) (k : BmapId) (n : ℕ) (w : Breplst) : Prop :=
  (supports site s (site.res k n) → rowFollows (s.state k n) w) ∧
    (site.known (site.res k n) → supports site s (site.res k n) = false →
      requests (s.state k n) w → s.upsch.rows (site.res k n, k) = none)
  deriving Decidable

/-- `slm_batch_repl_cb` takes the branch that gives the replica up. -/
def givesUp (gen bgen : BitVec 32) (a : Answer) : Bool :=
  ¬ (a.ecode = 0 ∧ checkedRc gen bgen a = some 0) ∧
    ¬ (checkedRc gen bgen a = none ∨ checkedRc gen bgen a = some slerrIonOffline)

/-- `slm_upsch_tryptrunc` sends its request. -/
def ptruncSends (env : PtruncEnv) (k : BmapId) (s : St) : Bool :=
  !ptruncBusy site k s && (env.csvc && (env.newreqRc == 0 && env.sendRc == 0))

/-- What changes a replica leaves its row in the work table right. -/
def Safe (s : St) : Label → Prop
  | .change k new _ _ => ∀ n < site.nrepls k, PairSafe site s k n (stateAt new.repls n)
  | .tryrepl _ _ _ _ => True
  | .batchReplCb k dst bgen a =>
    target site k dst → supports site s (site.res k dst) →
      (requeues (s.bmap k).gen bgen a → s.state k dst ≠ .truncpndgSched ∧ s.state k dst ≠ .garbageSched) ∧
      (givesUp (s.bmap k).gen bgen a → s.state k dst ≠ .replSched)
  | .tryptrunc k dst env =>
    target site k dst → supports site s (site.res k dst) →
      ptruncSends site env k s → s.state k dst ≠ .truncpndg
  | .finishPtrunc k dst rc =>
    target site k dst → supports site s (site.res k dst) →
      rc ≠ 0 → s.state k dst ≠ .truncpndgSched
  | .trypreclaim k dst env =>
    target site k dst → supports site s (site.res k dst) →
      env.csvc → env.batchRc = 0 → s.state k dst ≠ .garbage
  | .batchPreclaimCb k ios rc lenv =>
    ∀ n ∈ iosvLookup site lenv k ios,
      rc = .error → supports site s ios → s.state k n ≠ .garbageSched

instance (s : St) (a : Label) : Decidable (Safe site s a) := by
  cases a <;> unfold Safe <;> infer_instance

/-! ### The 64 pairs -/

theorem rowFollows_iff (prio : Bool) (v w : Breplst) : rowFollows v w ↔
    (updPush true prio v w = some .add → need v = none) ∧ statusAfter (updPush true prio v w) (need v) = need w := by
  cases prio <;> cases v <;> cases w <;> decide

theorem updPush_unsupported (prio : Bool) (v w : Breplst) :
    updPush false prio v w = some .add ↔ requests v w := by
  cases prio <;> cases v <;> cases w <;> decide

@[simp] theorem updPush_self (supp prio : Bool) (v : Breplst) : updPush supp prio v v = none := if_pos rfl

theorem rowFollows_self (v : Breplst) : rowFollows v v := by
  cases v <;> rfl

theorem requests_self (v : Breplst) : requests v v = false := by
  cases v <;> rfl

section Pair

variable {site} {s : St} {k : BmapId} {n : ℕ}

theorem pairSafe_self : PairSafe site s k n (s.state k n) :=
  ⟨fun _ => rowFollows_self _, fun _ _ h => absurd h (by rw [requests_self]; decide)⟩

theorem pairSafe_iff {w : Breplst} (h : requests (s.state k n) w = false) : PairSafe site s k n w ↔
      (supports site s (site.res k n) → rowFollows (s.state k n) w) :=
  ⟨And.left, fun hw => ⟨hw, fun _ _ hr => absurd hr (by rw [h]; decide)⟩⟩

theorem pairSafe_iff_push (prio : Bool) (w : Breplst)
    (hrow : supports site s (site.res k n) → s.status (site.res k n) k = need (s.state k n)) :
    PairSafe site s k n w ↔ ¬ (site.known (site.res k n) ∧
        updPush (supports site s (site.res k n)) prio (s.state k n) w = some .add ∧
        (s.upsch.rows (site.res k n, k)).isSome) ∧ (supports site s (site.res k n) →
        statusAfter (updPush (supports site s (site.res k n)) prio (s.state k n) w)
          (s.status (site.res k n) k) = need w) := by
  have hnone : s.upsch.rows (site.res k n, k) = none ↔ s.status (site.res k n) k = none := map_eq_none_iff.symm
  have hsome : (s.upsch.rows (site.res k n, k)).isSome = true ↔ s.status (site.res k n) k ≠ none :=
    isSome_iff_ne_none.trans (not_congr hnone)
  unfold PairSafe
  rw [hsome, hnone]
  cases hsupp : supports site s (site.res k n) with
  | true =>
    have hknown : site.known (site.res k n) := (and_eq_true_iff.mp hsupp).1
    rw [hrow hsupp, rowFollows_iff prio]
    simp [hknown]
  | false => simp [updPush_unsupported]

end Pair

section Commit

variable {site} {s : St} {k : BmapId} {new : Bmap} {sprio uprio : ℤ} {n : ℕ}

@[simp] theorem commit_state : (commit site k new sprio uprio s).state k n = stateAt new.repls n :=
  setBmap_state s k new n

variable {k' : BmapId}

theorem commit_bmap_of_ne (h : k' ≠ k) : (commit site k new sprio uprio s).bmap k' = s.bmap k' :=
  setBmap_bmap_of_ne s k new h

theorem commit_rows_of_ne {i : IosId} (h : k' ≠ k) :
    (commit site k new sprio uprio s).upsch.rows (i, k') = s.upsch.rows (i, k') :=
  slmReplUpdWrite_rows_of_ne h

theorem commit_status (hn : n < site.nrepls k) (hknown : site.known (site.res k n)) :
    (commit site k new sprio uprio s).status (site.res k n) k =
      statusAfter (updPush (supports site s (site.res k n)) (decide (sprio ≠ -1 ∨ uprio ≠ -1))
        (s.state k n) (stateAt new.repls n)) (s.status (site.res k n) k) := by
  refine (slmReplUpdWrite_status hn hknown).trans ?_
  rw [setBmap_state]
  rfl

theorem commit_clash : (commit site k new sprio uprio s).upsch.clash ↔
    s.upsch.clash ∨ ∃ n < site.nrepls k, site.known (site.res k n) ∧
      updPush (supports site s (site.res k n)) (decide (sprio ≠ -1 ∨ uprio ≠ -1))
        (s.state k n) (stateAt new.repls n) = some .add ∧ (s.upsch.rows (site.res k n, k)).isSome := by
  refine slmReplUpdWrite_clash.trans ?_
  simp only [setBmap_state]
  rfl

theorem commit_rows_of_state_eq (hn : n < site.nrepls k) (h : stateAt new.repls n = s.state k n) :
    (commit site k new sprio uprio s).upsch.rows (site.res k n, k) = s.upsch.rows (site.res k n, k) := by
  refine (slmReplUpdWrite_rows hn).trans ?_
  have hno : replStmt site k sprio uprio (s.bmap k).repls (s.setBmap k new) n = none := by
    rw [replStmt, setBmap_state, h, St.state, updPush_self, bind_none]
  rw [hno]
  rfl

theorem commit_agrees_iff (hs : Agrees site s) : Agrees site (commit site k new sprio uprio s) ↔
    ∀ n < site.nrepls k, PairSafe site s k n (stateAt new.repls n) := by
  constructor
  · intro ht n hn
    refine (pairSafe_iff_push (decide (sprio ≠ -1 ∨ uprio ≠ -1)) _ (hs.row k n hn)).mpr
      ⟨fun hclash => ?_, fun hsupp => ?_⟩
    · have hno := ht.clash
      rw [commit_clash.mpr (.inr ⟨n, hn, hclash⟩)] at hno
      cases hno
    · have hrow := ht.row k n hn hsupp
      rwa [commit_status hn (and_eq_true_iff.mp hsupp).1, commit_state] at hrow
  · intro hsafe
    have hpush := fun n hn => (pairSafe_iff_push (decide (sprio ≠ -1 ∨ uprio ≠ -1)) _ (hs.row k n hn)).mp (hsafe n hn)
    constructor
    · rw [Bool.eq_false_iff, Ne, commit_clash]
      rintro (hold | ⟨n, hn, hclash⟩)
      · rw [hs.clash] at hold
        cases hold
      · exact (hpush n hn).1 hclash
    · intro k' n hn hsupp
      by_cases hk : k' = k
      · subst hk
        rw [commit_status hn (and_eq_true_iff.mp hsupp).1, commit_state]
        exact (hpush n hn).2 hsupp
      · rw [St.status, commit_rows_of_ne hk, St.state, commit_bmap_of_ne hk]
        exact hs.row k' n hn hsupp

end Commit

/-! ### Steps about one replica -/

/-- Only replica `n` and its row change, and no resource begins to take reclaims. -/
structure OnlyAt (site : Site) (k : BmapId) (n : ℕ) (s t : St) : Prop where
  state : ∀ m ≠ n, t.state k m = s.state k m
  row : ∀ m < site.nrepls k, m ≠ n →
    t.upsch.rows (site.res k m, k) = s.upsch.rows (site.res k m, k)
  bmap : ∀ k' ≠ k, t.bmap k' = s.bmap k'
  rows : ∀ k' ≠ k, ∀ i, t.upsch.rows (i, k') = s.upsch.rows (i, k')
  supp : ∀ i, supports site t i → supports site s i

section OnlyAt

variable {site} {s t u : St} {k : BmapId} {n : ℕ}

theorem OnlyAt.trans (h : OnlyAt site k n s t) (h' : OnlyAt site k n t u) : OnlyAt site k n s u where
  state m hm := (h'.state m hm).trans (h.state m hm)
  row m hm hne := (h'.row m hm hne).trans (h.row m hm hne)
  bmap k' hk := (h'.bmap k' hk).trans (h.bmap k' hk)
  rows k' hk i := (h'.rows k' hk i).trans (h.rows k' hk i)
  supp i hi := h.supp i (h'.supp i hi)

theorem OnlyAt.agrees_iff (h : OnlyAt site k n s t) (hn : n < site.nrepls k) (hs : Agrees site s) :
    Agrees site t ↔ t.upsch.clash = false ∧ (supports site t (site.res k n) →
      t.status (site.res k n) k = need (t.state k n)) := by
  refine ⟨fun ht => ⟨ht.clash, ht.row k n hn⟩, fun ⟨hclash, hrow⟩ => ⟨hclash, ?_⟩⟩
  intro k' m hm hsupp
  by_cases hk : k' = k
  · subst hk
    by_cases hmn : m = n
    · subst hmn
      exact hrow hsupp
    · rw [St.status, h.row m hm hmn, h.state m hmn]
      exact hs.row k' m hm (h.supp _ hsupp)
  · rw [St.status, h.rows k' hk, St.state, h.bmap k' hk]
    exact hs.row k' m hm (h.supp _ hsupp)

variable {d : Repls}

theorem setRepls_onlyAt (h : ∀ m ≠ n, stateAt d m = s.state k m) : OnlyAt site k n s (s.setRepls k d) where
  state m hm := (setRepls_state s k d m).trans (h m hm)
  row _ _ _ := rfl
  bmap _ hk := setBmap_bmap_of_ne s k _ hk
  rows _ _ _ := rfl
  supp _ hi := hi

theorem setStatus_onlyAt (hn : n < site.nrepls k) (st : Status) :
    OnlyAt site k n s (s.setStatus (site.res k n) k st) where
  state _ _ := rfl
  row _ hm hne := setStatus_rows_of_ne s k _ st fun h => hne (site.res_inj hm hn (Prod.mk.inj h).1)
  bmap _ _ := rfl
  rows _ hk _ := setStatus_rows_of_ne s k _ st fun h => hk (Prod.mk.inj h).2
  supp _ hi := hi

theorem commitRepls_onlyAt (h : ∀ m ≠ n, stateAt d m = s.state k m) : OnlyAt site k n s (commitRepls site k d s) where
  state m hm := commit_state.trans (h m hm)
  row m hm hne := commit_rows_of_state_eq hm (h m hne)
  bmap _ hk := commit_bmap_of_ne hk
  rows _ hk _ := commit_rows_of_ne hk
  supp _ hi := hi

section
variable (hs : Agrees site s) (hn : n < site.nrepls k) (h : ∀ m ≠ n, stateAt d m = s.state k m)
include hs hn h

theorem setRepls_agrees_iff : Agrees site (s.setRepls k d) ↔
      (supports site s (site.res k n) → need (s.state k n) = need (stateAt d n)) := by
  rw [(setRepls_onlyAt h).agrees_iff hn hs, setRepls_state]
  refine (and_iff_right hs.clash).trans (imp_congr_right fun hsupp => ?_)
  exact Eq.congr_left (hs.row k n hn hsupp)

theorem setStatus_agrees_iff (st : Status) :
    Agrees site ((s.setRepls k d).setStatus (site.res k n) k st) ↔ (supports site s (site.res k n) →
        (need (s.state k n)).map (fun _ => st) = need (stateAt d n)) := by
  rw [((setRepls_onlyAt h).trans (setStatus_onlyAt hn st)).agrees_iff hn hs, setStatus_clash, setStatus_status]
  refine (and_iff_right hs.clash).trans (imp_congr_right fun hsupp => ?_)
  rw [← hs.row k n hn hsupp, ← setRepls_state s k d n]
  rfl

theorem commitRepls_agrees_iff : Agrees site (commitRepls site k d s) ↔ PairSafe site s k n (stateAt d n) := by
  refine (commit_agrees_iff hs).trans ⟨fun hall => hall n hn, fun hpair m _ => ?_⟩
  by_cases hm : m = n
  · rw [hm]
    exact hpair
  · rw [h m hm]
    exact pairSafe_self

end

theorem commitRepls_clash (h : ∀ m ≠ n, stateAt d m = s.state k m)
    (hadd : ∀ prio, updPush (supports site s (site.res k n)) prio (s.state k n) (stateAt d n) ≠ some .add) :
    (commitRepls site k d s).upsch.clash = s.upsch.clash := by
  rw [Bool.eq_iff_iff, commitRepls, commit_clash]
  refine ⟨?_, .inl⟩
  rintro (hc | ⟨m, -, -, hm, -⟩)
  · exact hc
  · exfalso
    by_cases hmn : m = n
    · subst hmn
      exact hadd _ hm
    · rw [h m hmn, updPush_self] at hm
      cases hm

end OnlyAt

/-! ### The scheduler's functions -/

section Tryrepl

variable {site} {s t : St} {k : BmapId} {dst : ℕ} {env : TryEnv} {hasData : ℕ → Bool}

theorem upschTryrepl_agrees (hs : Agrees site s) (hn : dst < site.nrepls k)
    (h : upschTryrepl site env hasData k dst s = some t) : Agrees site t := by
  have hlt : dst < slMaxReplicas := lt_of_lt_of_le hn (site.nrepls_le k)
  unfold upschTryrepl at h
  cases htried : slmUpschTryrepl env k.bno hasData (s.bmap k) dst with
  | fatal =>
    rw [htried] at h
    cases h
  | sent d =>
    rw [htried] at h
    cases h
    obtain ⟨-, hq, hd⟩ := slmUpschTryrepl_sent hlt htried
    have hst : ∀ m ≠ dst, stateAt d m = s.state k m := fun m hm => by rw [hd, if_neg hm]; rfl
    refine (setStatus_agrees_iff hs hn hst .s).mpr fun _ => ?_
    have hv : s.state k dst = .replQueued := hq
    rw [hv, hd, if_pos rfl]
    rfl
  | kept d =>
    rw [htried] at h
    have hkept := slmUpschTryrepl_kept hlt htried
    by_cases hamt : slmBmapCalcRepltraffic env.fsz k.bno hasData = 0
    · -- an empty bmap: the queued replica is valid, and its row is deleted
      simp only [hamt, if_true] at h
      cases h
      rcases hkept with hd | ⟨-, hq, hd⟩
      · refine (commitRepls_agrees_iff hs hn fun m _ => hd m).mpr ?_
        rw [hd dst]
        exact pairSafe_self
      have hst : ∀ m ≠ dst, stateAt d m = s.state k m := fun m hm => by rw [hd, if_neg hm]; rfl
      refine (commitRepls_agrees_iff hs hn hst).mpr ?_
      rw [hd dst, if_pos rfl]
      have hv : s.state k dst = .replQueued := hq
      refine (pairSafe_iff ?_).mpr fun _ => ?_
      · rfl
      · rw [hv]
        rfl
    · have hd : ∀ m, stateAt d m = s.state k m := hkept.resolve_right fun h => hamt h.1
      simp only [hamt, if_false] at h
      split at h
      · -- refused by the batch queue: back to where it was, by two updates
        rename_i hask
        cases h
        have hq : s.state k dst = .replQueued := of_decide_eq_true (and_eq_true_iff.mp hask).2
        rw [setStatus_setStatus]
        refine (setStatus_agrees_iff hs hn (fun m _ => hd m) .q).mpr fun _ => ?_
        rw [hd, hq]
        rfl
      · cases h
        refine (setRepls_agrees_iff hs hn fun m _ => hd m).mpr fun _ => ?_
        rw [hd dst]

end Tryrepl

section Scheduler

variable {site} {s : St} {k : BmapId} {dst : ℕ} (tract : Tract) (retifset : Retifset)

theorem replApply_state_of_ne (hn : dst < site.nrepls k) :
    ∀ m ≠ dst, stateAt (replApply tract retifset (s.bmap k).repls dst).repls m = s.state k m := by
  intro m hm
  rw [replApply_stateAt tract retifset _ (lt_of_lt_of_le hn (site.nrepls_le k)), if_neg hm]
  rfl

theorem replApply_state (hn : dst < site.nrepls k) :
    stateAt (replApply tract retifset (s.bmap k).repls dst).repls dst = tract.move (s.state k dst) := by
  rw [replApply_stateAt tract retifset _ (lt_of_lt_of_le hn (site.nrepls_le k)), if_pos rfl]
  rfl

theorem slmUpschFinishPtrunc_agrees_iff (hs : Agrees site s) (hn : dst < site.nrepls k) (rc : ℤ) :
    Agrees site (slmUpschFinishPtrunc k dst rc s) ↔
      (supports site s (site.res k dst) → rc ≠ 0 → s.state k dst ≠ .truncpndgSched) := by
  unfold slmUpschFinishPtrunc
  split_ifs with hrc
  · rw [setRepls_agrees_iff hs hn (replApply_state_of_ne _ _ hn), replApply_state _ _ hn, tractOne_move]
    refine imp_congr_right fun _ => ?_
    cases s.state k dst <;> simp [need, hrc]
  · exact ⟨fun _ _ h => absurd h hrc, fun _ => hs⟩

theorem ptruncUndo_state (hn : dst < site.nrepls k) (hv : s.state k dst = .truncpndg) (m : ℕ) :
    stateAt (replApply (tractOne .truncpndgSched .truncpndg) (fun _ => 0)
      (replApply (tractOne .truncpndg .truncpndgSched) brepInitIdx (s.bmap k).repls dst).repls
        dst).repls m = s.state k m := by
  rw [replApply_stateAt _ _ _ (lt_of_lt_of_le hn (site.nrepls_le k)), replApply_state _ _ hn]
  split_ifs with hm
  · rw [hm, hv]
    rfl
  · exact replApply_state_of_ne _ _ hn m hm

theorem slmUpschTryptrunc_agrees_iff (hs : Agrees site s) (hn : dst < site.nrepls k)
    (env : PtruncEnv) : Agrees site (slmUpschTryptrunc site env k dst s) ↔
      (supports site s (site.res k dst) → ptruncSends site env k s → s.state k dst ≠ .truncpndg) := by
  unfold slmUpschTryptrunc ptruncSends
  split
  · rename_i hbusy
    simp [hbusy, hs]
  split
  · rename_i henv
    have hno : (env.csvc && (env.newreqRc == 0 && env.sendRc == 0)) = false := by
      rcases henv with h | h <;> simp [h]
    simp [hno, hs]
  rename_i hbusy henv
  obtain ⟨hcsvc, hnew⟩ := not_or.mp henv
  have hsends : (!ptruncBusy site k s && (env.csvc && (env.newreqRc == 0 && env.sendRc == 0))) = true ↔
      env.sendRc = 0 := by
    simp [Bool.eq_false_of_not_eq_true hbusy, Bool.eq_true_of_not_eq_false hcsvc, not_not.mp hnew]
  simp only [hsends, replApply_rc]
  split
  · rename_i hrc
    have hv : s.state k dst = .truncpndg := brepInitIdx_inj hrc
    split_ifs with hsend
    · rw [setRepls_agrees_iff hs hn (replApply_state_of_ne _ _ hn), replApply_state _ _ hn, hv]
      exact imp_congr_right fun _ => by simp [hsend, tractOne_move, need]
    refine iff_of_true ?_ fun _ h => absurd h hsend
    rw [slmUpschFinishPtrunc, if_pos hsend, setRepls_repls, setRepls_setRepls]
    have hd := ptruncUndo_state hn hv
    exact (setRepls_agrees_iff hs hn fun m _ => hd m).mpr fun _ => by rw [hd]
  · rename_i hrc
    have hv : s.state k dst ≠ .truncpndg := fun h => hrc (congrArg brepInitIdx h)
    refine iff_of_true ?_ fun _ _ => hv
    refine (setRepls_agrees_iff hs hn (replApply_state_of_ne _ _ hn)).mpr fun _ => ?_
    rw [replApply_state _ _ hn, tractOne_move, if_neg hv]

theorem slmUpschTrypreclaim_agrees_iff (hs : Agrees site s) (hn : dst < site.nrepls k)
    (env : PreclaimEnv) : Agrees site (slmUpschTrypreclaim site env k dst s) ↔
      (supports site s (site.res k dst) → env.csvc → env.batchRc = 0 → s.state k dst ≠ .garbage) := by
  unfold slmUpschTrypreclaim
  split
  · rename_i hnot
    have hno : supports site s (site.res k dst) = false := by simp [supports, hnot]
    simp [hno, hs]
  split
  · rename_i hcsvc
    simp [hcsvc, hs]
  split
  · rename_i hrc
    simp [hrc, hs]
  rename_i hcsvc hrc
  rw [commitRepls_agrees_iff hs hn (replApply_state_of_ne _ _ hn), replApply_state _ _ hn,
    tractOne_move, pairSafe_iff (by cases s.state k dst <;> rfl)]
  refine imp_congr_right fun _ => ?_
  have hc : env.csvc := Bool.eq_true_of_not_eq_false hcsvc
  have hr : env.batchRc = 0 := not_not.mp hrc
  cases s.state k dst <;> simp [rowFollows, hc, hr]

theorem iosSearch_repl (env : LookupEnv) (f : Inode) (ios : IosId) : ∀ (js : List ℕ) {j : ℕ},
    iosSearch env f ios js = .ok (some j) → fcmh2Repl f j = ios
  | [], j, h => by simp [iosSearch] at h
  | i :: js, j, h => by
    simp only [iosSearch] at h
    split at h
    · cases h
    split_ifs at h with hi
    · cases h
      exact hi
    · exact iosSearch_repl env f ios js h

variable {lenv : LookupEnv} {ios : IosId} {n : ℕ}

theorem iosvLookup_spec (h : iosvLookup site lenv k ios = some n) : n < site.nrepls k ∧ site.res k n = ios := by
  unfold iosvLookup at h
  split at h
  · rename_i hidx
    subst h
    exact ⟨List.mem_range.mp (iosSearch_mem _ _ _ _ hidx), iosSearch_repl _ _ _ _ hidx⟩
  · cases h

theorem noteNotsup_agrees (hs : Agrees site s) (ios : IosId) (rc : PreclaimRc) : Agrees site (noteNotsup ios rc s) := by
  unfold noteNotsup
  split
  · refine ⟨hs.clash, fun k n hn hsupp => hs.row k n hn ?_⟩
    obtain ⟨hknown, hflag⟩ := and_eq_true_iff.mp hsupp
    refine and_eq_true_iff.mpr ⟨hknown, ?_⟩
    by_cases hi : site.res k n = ios
    · simp [hi] at hflag
    · simpa [Function.update_of_ne hi] using hflag
  · exact hs

@[simp] theorem noteNotsup_bmap (ios : IosId) (rc : PreclaimRc) : (noteNotsup ios rc s).bmap = s.bmap := by
  unfold noteNotsup
  split <;> rfl

theorem supports_noteNotsup (ios : IosId) (rc : PreclaimRc) :
    supports site (noteNotsup ios rc s) ios = (decide (rc ≠ .notsup) && supports site s ios) := by
  unfold noteNotsup
  split_ifs with h
  · simp [supports, h]
  · simp [h]

theorem walkOne_stateAt (hn : n < site.nrepls k) (d : Repls) (m : ℕ) :
    stateAt (mdsReplBmapWalk tract retifset WalkFlags.none [n] (fun _ _ (u : Unit) => u)
      (site.nrepls k) d ()).repls m = if m = n then tract.move (stateAt d m) else stateAt d m := by
  have hlt : ∀ j ∈ [n], j < site.nrepls k := fun j hj => List.mem_singleton.mp hj ▸ hn
  rw [mdsReplBmapWalk_stateAt tract _ _ rfl (List.nodup_singleton n) hlt (site.nrepls_le k)]
  simp only [mem_walkTargets_one WalkFlags.none rfl]

theorem slmBatchPreclaimCb_agrees_iff (hs : Agrees site s)
    (hl : iosvLookup site lenv k ios = some n) (rc : PreclaimRc) {t : St}
    (h : slmBatchPreclaimCb site lenv k ios rc s = some t) : Agrees site t ↔
      (rc = .error → supports site s ios → s.state k n ≠ .garbageSched) := by
  obtain ⟨hn, rfl⟩ := iosvLookup_spec hl
  rw [slmBatchPreclaimCb, hl, map_some, some.injEq] at h
  subst h
  have hstate : ∀ m, (noteNotsup (site.res k n) rc s).state k m = s.state k m := fun m => by
    rw [St.state, noteNotsup_bmap, St.state]
  have hd := walkOne_stateAt (tractOne .garbageSched (reclaimed rc)) (fun _ => 0) hn (s.bmap k).repls
  rw [commitRepls_agrees_iff (noteNotsup_agrees hs _ rc) hn
    fun m hm => by rw [hd, if_neg hm, hstate]; rfl, hd, if_pos rfl, tractOne_move]
  change PairSafe _ _ _ _ (if s.state k n = .garbageSched then reclaimed rc else s.state k n) ↔ _
  split_ifs with hv
  · rw [pairSafe_iff (by rw [hstate, hv]; cases rc <;> rfl), supports_noteNotsup, hstate, hv]
    cases rc <;> simp [reclaimed, rowFollows]
  · rw [← hstate]
    exact iff_of_true pairSafe_self fun _ _ => by rw [hstate]; exact hv

/-! ### The answer to a copy -/

section Answer

variable (gen bgen : BitVec 32) (a : Answer)

theorem batch_cases : (requeues gen bgen a = false ∧ givesUp gen bgen a = false ∧
      (∀ v, (batchTract gen bgen a).move v = if v = .replSched ∨ v = .replQueued then .valid else v) ∧
      ∀ v, batchRetifset gen bgen a v ≠ 0 ↔ v = .replSched ∨ v = .replQueued) ∨
    (requeues gen bgen a ∧ givesUp gen bgen a = false ∧
      (∀ v, (batchTract gen bgen a).move v = if v = .replSched then .replQueued else v) ∧
      ∀ v, batchRetifset gen bgen a v ≠ 0 ↔ v = .replSched) ∨ (requeues gen bgen a = false ∧ givesUp gen bgen a ∧
      (∀ v, (batchTract gen bgen a).move v = if v = .replSched then .garbage else v) ∧
      ∀ v, batchRetifset gen bgen a v ≠ 0 ↔ v = .replSched) := by
  unfold requeues givesUp batchTract batchRetifset
  by_cases hok : a.ecode = 0 ∧ checkedRc gen bgen a = some 0
  · refine .inl ⟨by simp [hok], by simp [hok], fun v => ?_, fun v => ?_⟩
    · cases v <;> simp [hok, Tract.move]
    · cases v <;> simp [hok]
  by_cases hoff : checkedRc gen bgen a = none ∨ checkedRc gen bgen a = some slerrIonOffline
  · refine .inr (.inl ⟨by simp [hok, hoff], by simp [hoff], fun v => ?_, fun v => ?_⟩)
    · rw [if_neg hok, if_pos hoff, tractOne_move]
    · cases v <;> simp [hok]
  refine .inr (.inr ⟨by simp [hoff], by simp [hok, hoff], fun v => ?_, fun v => ?_⟩)
  · rw [if_neg hok, if_neg hoff, tractOne_move]
  · cases v <;> simp [hok]

end Answer

variable {bgen : BitVec 32} {a : Answer}

section
variable (hs : Agrees site s) (hn : dst < site.nrepls k)
include hs hn

theorem upschBatchReplCb_valid
    (hr : requeues (s.bmap k).gen bgen a = false) (hmove : ∀ v, (batchTract (s.bmap k).gen bgen a).move v =
      if v = .replSched ∨ v = .replQueued then .valid else v)
    (hret : ∀ v, batchRetifset (s.bmap k).gen bgen a v ≠ 0 ↔ v = .replSched ∨ v = .replQueued) :
    Agrees site (upschBatchReplCb site k dst bgen a s) := by
  unfold upschBatchReplCb
  simp only [replApply_rc, hr, Bool.false_eq_true, if_false]
  split_ifs with hrc
  · have hv : s.state k dst = .replSched ∨ s.state k dst = .replQueued := (hret _).mp hrc
    refine (commitRepls_agrees_iff hs hn (replApply_state_of_ne _ _ hn)).mpr ?_
    rw [replApply_state _ _ hn, hmove]
    rcases hv with hv | hv <;>
      exact (pairSafe_iff (by rw [hv]; rfl)).mpr fun _ => by rw [hv]; rfl
  have hv : ¬ (s.state k dst = .replSched ∨ s.state k dst = .replQueued) := fun h => hrc ((hret _).mpr h)
  refine (setRepls_agrees_iff hs hn (replApply_state_of_ne _ _ hn)).mpr fun _ => ?_
  rw [replApply_state _ _ hn, hmove, if_neg hv]

theorem upschBatchReplCb_requeued (hr : requeues (s.bmap k).gen bgen a)
    (hmove : ∀ v, (batchTract (s.bmap k).gen bgen a).move v = if v = .replSched then .replQueued else v)
    (hret : ∀ v, batchRetifset (s.bmap k).gen bgen a v ≠ 0 ↔ v = .replSched) :
    Agrees site (upschBatchReplCb site k dst bgen a s) ↔ (supports site s (site.res k dst) →
        s.state k dst ≠ .truncpndgSched ∧ s.state k dst ≠ .garbageSched) := by
  have hne := replApply_state_of_ne (s := s) (batchTract (s.bmap k).gen bgen a)
    (batchRetifset (s.bmap k).gen bgen a) hn
  have hdst := replApply_state (s := s) (batchTract (s.bmap k).gen bgen a) (batchRetifset (s.bmap k).gen bgen a) hn
  rw [hmove] at hdst
  unfold upschBatchReplCb
  simp only [replApply_rc, hr, if_true]
  split_ifs with hrc
  · have hv : s.state k dst = .replSched := (hret _).mp hrc
    rw [if_pos hv] at hdst
    have hv' : (s.setStatus (site.res k dst) k .q).state k dst = .replSched := hv
    refine iff_of_true ?_ fun _ => by rw [hv]; decide
    refine (((setStatus_onlyAt hn .q).trans (commitRepls_onlyAt hne)).agrees_iff hn hs).mpr ⟨?_, ?_⟩
    · have hne' : ∀ m ≠ dst, stateAt _ m = (s.setStatus (site.res k dst) k .q).state k m := hne
      rw [commitRepls_clash hne', setStatus_clash, hs.clash]
      intro prio
      rw [hdst, hv']
      cases supports site (s.setStatus (site.res k dst) k .q) (site.res k dst) <;> cases prio <;> decide
    · intro hsupp
      have hknown : site.known (site.res k dst) := (and_eq_true_iff.mp hsupp).1
      rw [commitRepls, commit_status hn hknown, commit_state, setStatus_status, hs.row k dst hn hsupp, hv, hv', hdst]
      cases supports site (s.setStatus (site.res k dst) k .q) (site.res k dst) <;> rfl
  · have hv : s.state k dst ≠ .replSched := fun h => hrc ((hret _).mpr h)
    refine (setStatus_agrees_iff hs hn hne .q).trans (imp_congr_right fun _ => ?_)
    rw [hdst]
    revert hv
    cases s.state k dst <;> simp [need]

theorem upschBatchReplCb_givenUp (hr : requeues (s.bmap k).gen bgen a = false)
    (hmove : ∀ v, (batchTract (s.bmap k).gen bgen a).move v = if v = .replSched then .garbage else v)
    (hret : ∀ v, batchRetifset (s.bmap k).gen bgen a v ≠ 0 ↔ v = .replSched) :
    Agrees site (upschBatchReplCb site k dst bgen a s) ↔
      (supports site s (site.res k dst) → s.state k dst ≠ .replSched) := by
  unfold upschBatchReplCb
  simp only [replApply_rc, hr, Bool.false_eq_true, if_false]
  split_ifs with hrc
  · have hv : s.state k dst = .replSched := (hret _).mp hrc
    rw [commitRepls_agrees_iff hs hn (replApply_state_of_ne _ _ hn), replApply_state _ _ hn, hmove,
      if_pos hv, pairSafe_iff (by rw [hv]; rfl), hv]
    exact imp_congr_right fun _ => by decide
  have hv : s.state k dst ≠ .replSched := fun h => hrc ((hret _).mpr h)
  refine iff_of_true ?_ fun _ => hv
  refine (setRepls_agrees_iff hs hn (replApply_state_of_ne _ _ hn)).mpr fun _ => ?_
  rw [replApply_state _ _ hn, hmove, if_neg hv]

theorem upschBatchReplCb_agrees_iff
    (bgen : BitVec 32) (a : Answer) : Agrees site (upschBatchReplCb site k dst bgen a s) ↔
      (supports site s (site.res k dst) → (requeues (s.bmap k).gen bgen a →
          s.state k dst ≠ .truncpndgSched ∧ s.state k dst ≠ .garbageSched) ∧
        (givesUp (s.bmap k).gen bgen a → s.state k dst ≠ .replSched)) := by
  rcases batch_cases (s.bmap k).gen bgen a with
    ⟨hr, hg, hmove, hret⟩ | ⟨hr, hg, hmove, hret⟩ | ⟨hr, hg, hmove, hret⟩
  · simp [hr, hg, upschBatchReplCb_valid hs hn hr hmove hret]
  · simp [hr, hg, upschBatchReplCb_requeued hs hn hr hmove hret]
  · simp [hr, hg, upschBatchReplCb_givenUp hs hn hr hmove hret]

end

end Scheduler

/-! ### Steps and runs -/

section Runs

variable {site} {s t : St}

theorem step_agrees_iff (hs : Agrees site s) {a : Label} (h : step site s a = some t) :
    Agrees site t ↔ Safe site s a := by
  have hlt {k : BmapId} {dst : ℕ} (htgt : target site k dst = true) : dst < site.nrepls k :=
    of_decide_eq_true (and_eq_true_iff.mp htgt).1
  revert h
  fun_cases step site s a <;> intro h <;> try cases h
  next => exact commit_agrees_iff hs
  next htgt => exact iff_of_true (upschTryrepl_agrees hs (hlt htgt) h) trivial
  next bgen a htgt => exact (upschBatchReplCb_agrees_iff hs (hlt htgt) bgen a).trans (imp_iff_right htgt).symm
  next env htgt => exact (slmUpschTryptrunc_agrees_iff hs (hlt htgt) env).trans (imp_iff_right htgt).symm
  next rc htgt => exact (slmUpschFinishPtrunc_agrees_iff hs (hlt htgt) rc).trans (imp_iff_right htgt).symm
  next env htgt => exact (slmUpschTrypreclaim_agrees_iff hs (hlt htgt) env).trans (imp_iff_right htgt).symm
  next rc _ =>
    obtain ⟨n, hl, -⟩ := map_eq_some_iff.mp h
    refine (slmBatchPreclaimCb_agrees_iff hs hl rc h).trans ?_
    simp only [Safe, hl, mem_some_iff, forall_eq']

theorem step_isSome_of_not_safe {a : Label} (h : ¬ Safe site s a) : ∃ t, step site s a = some t := by
  cases a with
  | change => exact ⟨_, rfl⟩
  | tryrepl => exact absurd trivial h
  | batchReplCb => exact ⟨_, if_pos (Classical.not_imp.mp h).1⟩
  | tryptrunc => exact ⟨_, if_pos (Classical.not_imp.mp h).1⟩
  | finishPtrunc => exact ⟨_, if_pos (Classical.not_imp.mp h).1⟩
  | trypreclaim => exact ⟨_, if_pos (Classical.not_imp.mp h).1⟩
  | batchPreclaimCb k ios rc lenv =>
    cases hl : iosvLookup site lenv k ios with
    | none => exact absurd (fun n hn => by rw [hl] at hn; cases hn) h
    | some => exact ⟨_, by rw [step, slmBatchPreclaimCb, hl, map_some]⟩

/-- **The scheduler's table agrees** in a run exactly if every step is safe. -/
theorem upsch_agrees_run (site : Site) {s : St} (hs : Agrees site s) (as : List Label) :
    (∀ bs cs t, as = bs ++ cs → run (step site) s bs = some t → Agrees site t) ↔
      Admits (step site) (Safe site) s as := by
  refine forall_run_iff_admits id ?_ ?_ as hs
  · intro s a t hs hsafe h
    exact (step_agrees_iff hs h).mpr hsafe
  · intro s a hs hno
    obtain ⟨t, ht⟩ := step_isSome_of_not_safe hno
    exact ⟨t, ht, fun h => hno ((step_agrees_iff hs ht).mp h)⟩

end Runs

def duoSite : Site where
  ino _ := ⟨#v[1, 2, 0, 0], Vector.replicate slInoxNreplicas 0, 2, by decide⟩
  known _ := true
  repl_inj _ := by decide

def duoBmap (v w : Breplst) : Bmap where
  repls := setState (setState (Vector.replicate slReplicaNbytes 0) 0 v) 1 w
  gen := 0
  replpol := .onetime

def duoStart : St := ⟨fun _ => duoBmap .valid .invalid, ⟨fun _ => none, false⟩, fun _ => false⟩

theorem duoStart_agrees : Agrees duoSite duoStart := by
  have hneed : ∀ n < 2, need (stateAt (duoBmap .valid .invalid).repls n) = none := by decide
  exact ⟨rfl, fun k n hn _ => (hneed n hn).symm⟩

def duoKey : BmapId := ⟨7, 0⟩

def duoScheduled : List Label :=
  [.change duoKey (duoBmap .valid .replQueued) (-1) (-1), .tryrepl duoKey 1 ⟨true, true, 1, 0⟩ fun i => i = 0]

def duoReclaim : List Label :=
  duoScheduled ++ [.batchReplCb duoKey 1 0 ⟨0, some 0⟩,
    .change duoKey (duoBmap .valid .garbage) (-1) (-1), .trypreclaim duoKey 1 ⟨true, 0⟩]

/-- A copy that succeeds. -/
theorem upsch_agrees_run_copied : ∃ t,
    run (step duoSite) duoStart (duoScheduled ++ [.batchReplCb duoKey 1 0 ⟨0, some 0⟩]) = some t ∧
      t.state duoKey 1 = .valid ∧ Agrees duoSite t := by
  have hrun : ∃ t ∈ run (step duoSite) duoStart
      (duoScheduled ++ [.batchReplCb duoKey 1 0 ⟨0, some 0⟩]), t.state duoKey 1 = .valid := by decide
  obtain ⟨t, ht, hv⟩ := hrun
  refine ⟨t, ht, hv, (upsch_agrees_run duoSite duoStart_agrees _).mpr ?_ _ [] t (List.append_nil _).symm ht⟩
  decide

/-- The agreement fails in three ways. -/
theorem upsch_disagrees : Agrees duoSite duoStart ∧
    (∃ t ∈ run (step duoSite) duoStart (duoScheduled ++ [.batchReplCb duoKey 1 0 ⟨0, some 5⟩]),
      t.state duoKey 1 = .garbage ∧ t.upsch.clash = true) ∧ (∃ t ∈ run (step duoSite) duoStart
        [.change duoKey (translated duoSite duoKey ptruncTract [] duoStart) (-1) (-1)],
      t.state duoKey 0 = .truncpndg ∧ t.upsch.rows (1, duoKey) = none) ∧ (∃ t ∈ run (step duoSite) duoStart duoReclaim,
      t.state duoKey 1 = .garbageSched ∧ t.status 2 duoKey = some .q) ∧
    ¬ ∀ as t, run (step duoSite) duoStart as = some t → Agrees duoSite t := by
  have hcopy : ∃ t ∈ run (step duoSite) duoStart (duoScheduled ++ [.batchReplCb duoKey 1 0 ⟨0, some 5⟩]),
      t.state duoKey 1 = .garbage ∧ t.upsch.clash = true := by decide
  refine ⟨duoStart_agrees, hcopy, by decide, by decide, fun hall => ?_⟩
  obtain ⟨t, ht, -, hclash⟩ := hcopy
  have hno := (hall _ t ht).clash
  rw [hclash] at hno
  cases hno

end Slash2.Upsch
