/-
# Giving back replicas

For each bmap `mds_repl_delrq` first counts the `VALID` replicas that the request does not name, in one walk over the
table, and gives back those it names in a second walk only if some are left. The data of a bmap is so never given back
as a whole: `delrq_keeps_last` says this of one bmap, for any list of replicas, and `delrqAll_valid` of the loop over
all bmaps of a file.

Key definitions: `delrqStep`, `LastKept`, `delrqAll`. Key theorems: `delrq_keeps_last`, `delrqAll_valid`.
-/
import Slash2.Residency.Request

namespace Slash2.Upsch

open Lib Residency

variable {site : Site} {k : BmapId} {iosidx : List ℕ} {m : Mds}

/-! ### What is done with one bmap -/

/-- The loop body of `mds_repl_delrq`: count, and walk if a `VALID` replica is left. -/
def delrqStep (ret : Retifset) (site : Site) (k : BmapId) (iosidx : List ℕ) (m : Mds) : Option ℤ × Mds :=
  if 0 < countvalid site k iosidx m.st then
    (some (delrqBmap ret site k iosidx m).1, (delrqBmap ret site k iosidx m).2)
  else (none, m)

/-- The return value of `mds_repl_delrq` for one bmap. -/
def delrqAnswer : Option ℤ → RqRc
  | some rc => if hasFlag rc 0 then .ok else if hasFlag rc 1 then .einval else .replNotAct
  | none => .lastrepl

/-- `mds_repl_delrq` of one bmap. -/
def delrqOne (site : Site) (env : RqEnv) (k : BmapId) (iosidx : List ℕ) (m : Mds) : RqRc × Mds :=
  if env.bmapExists k.bno = false then (.bmapInvalid, m)
  else if env.bmapGet k.bno = false then (.failed, m)
  else (delrqAnswer (delrqStep delrqRetOne site k iosidx m).1, (delrqStep delrqRetOne site k iosidx m).2)

variable {env : RqEnv}

theorem mdsReplDelrq_some {fid bno : ℕ} {iosv : List IosId} (hlen : 1 ≤ iosv.length)
    (hmax : iosv.length ≤ slMaxReplicas) (hget : env.fcmhGet) (hreg : env.ftype ≠ .dir)
    (hidx : mdsReplIosvLookup site env.lenv fid iosv = some iosidx) :
    mdsReplDelrq site env fid (some bno) iosv m = delrqOne site env ⟨fid, bno⟩ iosidx m := by
  have hsize : ¬ (iosv.length < 1 ∨ slMaxReplicas < iosv.length) := by omega
  simp only [mdsReplDelrq, delrqOne, delrqStep, hsize, hget, hreg, hidx, if_false, Bool.true_eq_false]
  split
  · rfl
  split
  · rfl
  split
  · rfl
  · rfl

theorem delrqAll_cons {fid bno : ℕ} {bnos : List ℕ} {rc : RqRc} {allInvalid : ℕ} (hget : env.bmapGet bno) :
    delrqAll site env fid iosidx (bno :: bnos) rc allInvalid m = delrqAll site env fid iosidx bnos
        (if (delrqStep delrqRetAll site ⟨fid, bno⟩ iosidx m).1.getD 0 ≠ 0 then .ok else rc)
        (if (delrqStep delrqRetAll site ⟨fid, bno⟩ iosidx m).1 = none then allInvalid + 1 else allInvalid)
        (delrqStep delrqRetAll site ⟨fid, bno⟩ iosidx m).2 := by
  rw [delrqAll, hget, if_neg (by simp), delrqStep]
  split
  · rfl
  · rfl

/-- What is left without the replicas `iosidx`. -/
structure LastKept (site : Site) (k : BmapId) (iosidx : List ℕ) (m m' : Mds) : Prop where
  valid : (∃ n < site.nrepls k, m.state k n = .valid) → ∃ n < site.nrepls k, m'.state k n = .valid
  last : (∀ n < site.nrepls k, m.state k n = .valid → n ∈ iosidx) → (m'.st.bmap k).repls = (m.st.bmap k).repls
  given : (¬ ∀ n < site.nrepls k, m.state k n = .valid → n ∈ iosidx) → ∀ n, m'.state k n =
    if n ∈ iosidx ∧ (m.state k n = .valid ∨ m.state k n = .replQueued ∨ m.state k n = .replSched) then .garbage
    else m.state k n

theorem delrqTract_move (v : Breplst) : delrqTract.move v =
    if v = .valid ∨ v = .replQueued ∨ v = .replSched then .garbage else v := by
  cases v <;> rfl

theorem countvalid_eq_zero_iff :
    ¬ 0 < countvalid site k iosidx m.st ↔ ∀ n < site.nrepls k, m.state k n = .valid → n ∈ iosidx := by
  rw [countvalid_pos]
  push Not
  exact ⟨fun h n hn hv => by_contra fun hni => h n hn hni hv, fun h n hn hni hv => hni (h n hn hv)⟩

theorem delrqStep_of_last (ret : Retifset) (hlast : ∀ n < site.nrepls k, m.state k n = .valid → n ∈ iosidx) :
    delrqStep ret site k iosidx m = (none, m) := by
  rw [delrqStep, if_neg (countvalid_eq_zero_iff.mpr hlast)]

section
variable (ret : Retifset) (hne : iosidx ≠ []) (hnd : iosidx.Nodup) (hlt : ∀ i ∈ iosidx, i < site.nrepls k)
include ret hne hnd hlt

theorem delrqStep_state (hleft : ¬ ∀ n < site.nrepls k, m.state k n = .valid → n ∈ iosidx) (k' : BmapId) (n : ℕ) :
    (delrqStep ret site k iosidx m).2.state k' n =
      if k' = k ∧ n ∈ iosidx then delrqTract.move (m.state k n) else m.state k' n := by
  rw [delrqStep, if_pos (not_not.mp (mt countvalid_eq_zero_iff.mp hleft))]
  exact delrqBmap_stateAt ret hne hnd hlt k' n

theorem delrqStep_valid {k' : BmapId} (hv : ∃ n < site.nrepls k', m.state k' n = .valid) :
    ∃ n < site.nrepls k', (delrqStep ret site k iosidx m).2.state k' n = .valid := by
  by_cases hlast : ∀ n < site.nrepls k, m.state k n = .valid → n ∈ iosidx
  · rw [delrqStep_of_last ret hlast]
    exact hv
  -- of this bmap, one that is not named
  have hother : ∃ n < site.nrepls k', ¬ (k' = k ∧ n ∈ iosidx) ∧ m.state k' n = .valid := by
    by_cases hk : k' = k
    · subst hk
      push Not at hlast
      obtain ⟨n, hn, hvn, hni⟩ := hlast
      exact ⟨n, hn, fun h => hni h.2, hvn⟩
    · obtain ⟨n, hn, hvn⟩ := hv
      exact ⟨n, hn, fun h => hk h.1, hvn⟩
  obtain ⟨n, hn, hni, hvn⟩ := hother
  refine ⟨n, hn, ?_⟩
  rw [delrqStep_state ret hne hnd hlt hlast, if_neg hni]
  exact hvn

theorem delrqStep_lastKept : LastKept site k iosidx m (delrqStep ret site k iosidx m).2 where
  valid := delrqStep_valid ret hne hnd hlt
  last hlast := by rw [delrqStep_of_last ret hlast]
  given hleft n := by
    rw [delrqStep_state ret hne hnd hlt hleft, delrqTract_move]
    by_cases hn : n ∈ iosidx
    · simp [hn]
    · simp [hn]

end

/-- **The last copy is kept**, for one bmap or all. -/
theorem delrq_keeps_last (site : Site) (k : BmapId) (iosidx : List ℕ) (hne : iosidx ≠ []) (hnd : iosidx.Nodup)
    (hlt : ∀ i ∈ iosidx, i < site.nrepls k) (m : Mds) :
    LastKept site k iosidx m (delrqStep delrqRetAll site k iosidx m).2 ∧
      LastKept site k iosidx m (delrqStep delrqRetOne site k iosidx m).2 ∧
      ∀ env : RqEnv, env.bmapExists k.bno = true → env.bmapGet k.bno = true →
        (∀ n < site.nrepls k, m.state k n = .valid → n ∈ iosidx) → delrqOne site env k iosidx m = (.lastrepl, m) ∧
          ∀ iosv : List IosId, 1 ≤ iosv.length → iosv.length ≤ slMaxReplicas → env.fcmhGet = true → env.ftype ≠ .dir →
            mdsReplIosvLookup site env.lenv k.fid iosv = some iosidx →
            mdsReplDelrq site env k.fid (some k.bno) iosv m = (.lastrepl, m) := by
  refine ⟨delrqStep_lastKept _ hne hnd hlt, delrqStep_lastKept _ hne hnd hlt, fun env hex hget hlast => ?_⟩
  have hone : delrqOne site env k iosidx m = (.lastrepl, m) := by
    rw [delrqOne, hex, hget, delrqStep_of_last _ hlast]
    rfl
  refine ⟨hone, fun iosv hlen hmax hfcmh hreg hidx => ?_⟩
  rw [mdsReplDelrq_some hlen hmax hfcmh hreg hidx]
  exact hone

def trioSite : Site where
  ino _ := inodeOf 3 (by decide)
  known _ := true
  repl_inj _ := by decide

def trioStart : Mds :=
  ⟨⟨fun _ => ⟨tableOf [.valid, .replQueued, .valid], 0, .onetime⟩, ⟨fun _ => none, false⟩, fun _ => false⟩, []⟩

/-- The first two go, the first and third do not. -/
theorem delrq_keeps_last_trio :
    LastKept trioSite duoKey [0, 1] trioStart (delrqStep delrqRetOne trioSite duoKey [0, 1] trioStart).2 ∧
      (delrqStep delrqRetOne trioSite duoKey [0, 1] trioStart).2.state duoKey 1 = .garbage ∧
      delrqOne trioSite easyRq duoKey [0, 2] trioStart = (.lastrepl, trioStart) := by
  have hgiven := (delrq_keeps_last trioSite duoKey [0, 1] (by decide) (by decide) (by decide) trioStart).2.1
  refine ⟨hgiven, ?_, (delrq_keeps_last trioSite duoKey [0, 2] (by decide) (by decide) (by decide) trioStart).2.2
    easyRq rfl rfl (by decide +kernel) |>.1⟩
  decide +kernel

theorem delrqAll_valid (site : Site) (env : RqEnv) (fid : ℕ) (hne : iosidx ≠ []) (hnd : iosidx.Nodup)
    (hlt : ∀ i ∈ iosidx, i < site.nrepls ⟨fid, 0⟩) (k : BmapId) : ∀ (bnos : List ℕ) (rc : RqRc) (allInvalid : ℕ)
    (m : Mds), (∃ n < site.nrepls k, m.state k n = .valid) →
      ∃ n < site.nrepls k, (delrqAll site env fid iosidx bnos rc allInvalid m).2.2.state k n = .valid
  | [], _, _, _, hv => hv
  | bno :: bnos, rc, allInvalid, m, hv => by
    by_cases hget : env.bmapGet bno = true
    · rw [delrqAll_cons hget]
      exact delrqAll_valid site env fid hne hnd hlt k bnos _ _ _
        (delrqStep_valid (k := ⟨fid, bno⟩) delrqRetAll hne hnd hlt hv)
    · rw [delrqAll, if_pos (Bool.not_eq_true _ ▸ hget)]
      exact delrqAll_valid site env fid hne hnd hlt k bnos _ _ _ hv

/-- The MDS after the first two replicas of both bmaps of a file were given back. -/
def trioGiven : Mds := (delrqAll trioSite easyRq 7 [0, 1] [0, 1] .ok 0 trioStart).2.2

theorem delrqAll_valid_trio :
    (trioGiven.state ⟨7, 0⟩ 0 = .garbage ∧ ∃ n < 3, trioGiven.state ⟨7, 0⟩ n = .valid) ∧
      trioGiven.state ⟨7, 1⟩ 0 = .garbage ∧ ∃ n < 3, trioGiven.state ⟨7, 1⟩ n = .valid := by
  have hgone : trioGiven.state ⟨7, 0⟩ 0 = .garbage ∧ trioGiven.state ⟨7, 1⟩ 0 = .garbage := by decide +kernel
  have hkept (bno : ℕ) (hv : ∃ n < 3, trioStart.state ⟨7, bno⟩ n = .valid) :
      ∃ n < 3, trioGiven.state ⟨7, bno⟩ n = .valid :=
    delrqAll_valid trioSite easyRq 7 (by decide) (by decide) (by decide) ⟨7, bno⟩ [0, 1] _ _ _ hv
  exact ⟨⟨hgone.1, hkept 0 (by decide +kernel)⟩, hgone.2, hkept 1 (by decide +kernel)⟩

end Slash2.Upsch
