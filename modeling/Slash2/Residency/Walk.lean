/-
# Walking the residency table

Every change the MDS makes to a residency table goes through one routine,
`_mds_repl_bmap_walk`. It visits replicas in order, at each one consults a return
matrix and then a translation matrix, both indexed by the state found, and returns
the return value of the last replica that had one. The flags choose which replicas
are visited and whether the first non-zero return value ends the walk.

Key theorems: `mdsReplBmapWalk_stateAt`, `walk_translates_selected`.
-/
import Mathlib.Data.List.Sort
import Slash2.Residency.Codec

namespace Slash2.Residency

open List Option

variable {σ : Type*}

/-- `tract`; `none` is `-1`. -/
abbrev Tract := Breplst → Option Breplst

/-- `retifset`; zero if there is none. -/
abbrev Retifset := Breplst → ℤ

/-- `brepls_init(tract, -1)`, or NULL. -/
def Tract.init : Tract := fun _ => none

/-- `brepls_init_idx`: every state returns its own code. -/
def brepInitIdx : Retifset := fun s => s.code.toNat

/-- `tract[val]` if it is not `-1`, else the state itself. -/
def Tract.move (tract : Tract) (s : Breplst) : Breplst := (tract s).getD s

/-- `REPL_WALKF_*` -/
structure WalkFlags where
  /-- `REPL_WALKF_SCIRCUIT`: short circuit on return value set -/
  scircuit : Bool
  /-- `REPL_WALKF_MODOTH`: modify everyone except specified IOS -/
  modoth : Bool

def WalkFlags.none : WalkFlags := ⟨false, false⟩

/-- What `_mds_repl_bmap_apply` leaves behind. -/
structure Applied (σ : Type*) where
  repls : Repls
  cbarg : σ
  rc : ℤ
  scircuit : Bool

/-- `_mds_repl_bmap_apply` on replica `k`. -/
def mdsReplBmapApply (tract : Tract) (retifset : Retifset) (flags : WalkFlags)
    (cbf : ℕ → Breplst → σ → σ) (d : Repls) (k : ℕ) (cbarg : σ) : Applied σ :=
  let val := stateAt d k
  let cbarg := cbf k val cbarg
  if retifset val ≠ 0 ∧ flags.scircuit then ⟨d, cbarg, retifset val, true⟩
  else match tract val with
    | some v => ⟨setState d k v, cbarg, retifset val, false⟩
    | none => ⟨d, cbarg, retifset val, false⟩

/-- The table, the callback's argument and `rc`. -/
structure Walked (σ : Type*) where
  repls : Repls
  cbarg : σ
  rc : ℤ

/-- The loop of `_mds_repl_bmap_walk` over the replicas it visits. -/
def walkLoop (tract : Tract) (retifset : Retifset) (flags : WalkFlags)
    (cbf : ℕ → Breplst → σ → σ) : List ℕ → Walked σ → Walked σ
  | [], w => w
  | k :: ks, w =>
    let a := mdsReplBmapApply tract retifset flags cbf w.repls k w.cbarg
    let w' : Walked σ := ⟨a.repls, a.cbarg, if a.rc ≠ 0 then a.rc else w.rc⟩
    if a.scircuit then w' else walkLoop tract retifset flags cbf ks w'

/-- `iosidx_in`: a binary search of the ascending vector `iosidx`. -/
def iosidxIn (idx : ℕ) (iosidx : List ℕ) : Bool := iosidx.contains idx

/-- The replicas the walk visits, out of `nr`. -/
def walkTargets (flags : WalkFlags) (iosidx : List ℕ) (nr : ℕ) : List ℕ :=
  if iosidx = [] then range nr
  else if flags.modoth then (range nr).filter fun k => !iosidxIn k iosidx
  else iosidx

def mdsReplBmapWalk (tract : Tract) (retifset : Retifset) (flags : WalkFlags) (iosidx : List ℕ)
    (cbf : ℕ → Breplst → σ → σ) (nr : ℕ) (d : Repls) (cbarg : σ) : Walked σ :=
  walkLoop tract retifset flags cbf (walkTargets flags iosidx nr) ⟨d, cbarg, 0⟩

/-! ### One replica -/

section Apply

variable (tract : Tract) (retifset : Retifset) (flags : WalkFlags) (cbf : ℕ → Breplst → σ → σ)

@[simp] theorem mdsReplBmapApply_rc (d : Repls) (k : ℕ) (c : σ) :
    (mdsReplBmapApply tract retifset flags cbf d k c).rc = retifset (stateAt d k) := by
  simp only [mdsReplBmapApply]
  split
  · rfl
  · split <;> rfl

theorem mdsReplBmapApply_scircuit (d : Repls) (k : ℕ) (c : σ) :
    (mdsReplBmapApply tract retifset flags cbf d k c).scircuit ↔
      retifset (stateAt d k) ≠ 0 ∧ flags.scircuit := by
  simp only [mdsReplBmapApply]
  split
  · simp_all
  · split <;> simp_all

theorem mdsReplBmapApply_stateAt (d : Repls) {k : ℕ} (hk : k < slMaxReplicas)
    (hs : ¬(retifset (stateAt d k) ≠ 0 ∧ flags.scircuit)) (c : σ) (m : ℕ) :
    stateAt (mdsReplBmapApply tract retifset flags cbf d k c).repls m =
      if m = k then tract.move (stateAt d k) else stateAt d m := by
  simp only [mdsReplBmapApply, if_neg hs]
  split
  · rename_i v hv
    rw [stateAt_setState d v hk, Tract.move, hv, getD_some]
  rename_i hv
  rw [Tract.move, hv, getD_none]
  split_ifs with h
  · rw [h]
  · rfl

end Apply

section Loop

variable (tract : Tract) (retifset : Retifset) (flags : WalkFlags) (cbf : ℕ → Breplst → σ → σ)

/-- The replicas of `ks` the walk gets past: with `SCIRCUIT`, those before the first return value. -/
def passed (st : ℕ → Breplst) (ks : List ℕ) : List ℕ :=
  if flags.scircuit then ks.takeWhile fun k => retifset (st k) = 0 else ks

/-- The return values other than zero, in the walk order. -/
def answers (st : ℕ → Breplst) (ks : List ℕ) : List ℤ := (ks.map fun k => retifset (st k)).filter (· ≠ 0)

/-- `rc` before the walk, replaced by the first of the return values or by the last. -/
def answer (st : ℕ → Breplst) (ks : List ℕ) (rc : ℤ) : ℤ :=
  if flags.scircuit then (answers retifset st ks).headD rc else (answers retifset st ks).getLastD rc

theorem answer_ne_zero (st : ℕ → Breplst) (ks : List ℕ) :
    answer retifset flags st ks 0 ≠ 0 ↔ ∃ k ∈ ks, retifset (st k) ≠ 0 := by
  have hne : ∀ v ∈ answers retifset st ks, v ≠ 0 := fun v hv => by simpa using (mem_filter.mp hv).2
  have hnil : answers retifset st ks ≠ [] ↔ ∃ k ∈ ks, retifset (st k) ≠ 0 := by simp [answers]
  rw [← hnil, answer]
  cases hl : answers retifset st ks with
  | nil => simp
  | cons v l =>
    rw [hl] at hne
    have hlast := hne _ (getLast_mem (cons_ne_nil v l))
    split
    · simpa using hne v mem_cons_self
    · exact ⟨fun _ => cons_ne_nil v l, fun _ => hlast⟩

/-- A walk over replicas that are still in the states `st`. -/
theorem walkLoop_spec (st : ℕ → Breplst) : ∀ (ks : List ℕ) (w : Walked σ), ks.Nodup →
    (∀ k ∈ ks, k < slMaxReplicas ∧ stateAt w.repls k = st k) →
    (∀ m, stateAt (walkLoop tract retifset flags cbf ks w).repls m =
      if m ∈ passed retifset flags st ks then tract.move (st m) else stateAt w.repls m) ∧
      (walkLoop tract retifset flags cbf ks w).rc = answer retifset flags st ks w.rc
  | [], w, _, _ => by simp [walkLoop, passed, answer, answers]
  | k :: ks, w, hn, hk => by
    obtain ⟨⟨hk0, hst⟩, hks⟩ := forall_mem_cons.mp hk
    obtain ⟨hnk, hn⟩ := nodup_cons.mp hn
    have hsc := mdsReplBmapApply_scircuit tract retifset flags cbf w.repls k w.cbarg
    rw [hst] at hsc
    simp only [walkLoop, mdsReplBmapApply_rc, hst]
    by_cases hs : retifset (st k) ≠ 0 ∧ flags.scircuit = true
    · rw [if_pos (hsc.mpr hs)]
      simp [passed, answer, answers, hs, mdsReplBmapApply, hst]
    rw [if_neg (mt hsc.mp hs)]
    have hap := mdsReplBmapApply_stateAt tract retifset flags cbf w.repls hk0 (hst ▸ hs) w.cbarg
    generalize mdsReplBmapApply tract retifset flags cbf w.repls k w.cbarg = a at hap
    -- the later replicas are still in the state the walk started from
    obtain ⟨hrep, hrc⟩ := walkLoop_spec st ks ⟨a.repls, a.cbarg, if retifset (st k) ≠ 0 then retifset (st k) else w.rc⟩
      hn fun j hj => ⟨(hks j hj).1, (hap j).trans ((if_neg (ne_of_mem_of_not_mem hj hnk)).trans (hks j hj).2)⟩
    refine ⟨fun m => ?_, ?_⟩
    · rw [hrep, hap, hst]
      by_cases hm : m = k
      · subst hm
        by_cases hf : flags.scircuit = true
        · simp [passed, hf, not_not.mp fun h => hs ⟨h, hf⟩]
        · simp [passed, hf]
      by_cases hf : flags.scircuit = true
      · simp [passed, hf, not_not.mp fun h => hs ⟨h, hf⟩, hm]
      · simp [passed, hf, hm]
    · rw [hrc]
      by_cases h0 : retifset (st k) = 0
      · simp [answer, answers, h0]
      have hf : flags.scircuit = false := Bool.eq_false_iff.mpr fun hf => hs ⟨h0, hf⟩
      simp only [answer, answers, hf, Bool.false_eq_true, if_false, map_cons, if_pos h0]
      rw [filter_cons_of_pos (by simpa using h0), getLastD_cons]

theorem walkLoop_id : ∀ (ks : List ℕ) (w : Walked σ), (∀ k ∈ ks, tract (stateAt w.repls k) = none) →
    (walkLoop tract retifset flags cbf ks w).repls = w.repls
  | [], _, _ => rfl
  | k :: ks, w, h => by
    obtain ⟨hk, hks⟩ := forall_mem_cons.mp h
    have hrepls : (mdsReplBmapApply tract retifset flags cbf w.repls k w.cbarg).repls = w.repls := by
      simp only [mdsReplBmapApply, hk]
      split_ifs <;> rfl
    rw [walkLoop, hrepls]
    split
    · rfl
    · exact walkLoop_id ks _ hks

end Loop

/-! ### The three kinds of walk -/

variable {iosidx : List ℕ}

theorem walkTargets_nodup (flags : WalkFlags) (h : iosidx.Nodup) (nr : ℕ) : (walkTargets flags iosidx nr).Nodup := by
  unfold walkTargets
  split
  · exact nodup_range
  split
  · exact nodup_range.filter _
  · exact h

variable {nr : ℕ}

theorem walkTargets_lt (flags : WalkFlags) (h : ∀ k ∈ iosidx, k < nr) : ∀ k ∈ walkTargets flags iosidx nr, k < nr := by
  intro k hk
  unfold walkTargets at hk
  split at hk
  · exact mem_range.mp hk
  split at hk
  · exact mem_range.mp (mem_filter.mp hk).1
  · exact h k hk

theorem mem_walkTargets_all (flags : WalkFlags) (nr k : ℕ) : k ∈ walkTargets flags [] nr ↔ k < nr := by
  simp [walkTargets]

theorem mem_walkTargets_modoth (flags : WalkFlags) (hm : flags.modoth) (i nr k : ℕ) :
    k ∈ walkTargets flags [i] nr ↔ k < nr ∧ k ≠ i := by
  simp [walkTargets, hm, iosidxIn]

theorem mem_walkTargets_one (flags : WalkFlags) (hm : flags.modoth = false) (i nr k : ℕ) :
    k ∈ walkTargets flags [i] nr ↔ k = i := by
  simp [walkTargets, hm]

section Walk

variable (tract : Tract) (retifset : Retifset) (cbf : ℕ → Breplst → σ → σ)

theorem mdsReplBmapWalk_spec (flags : WalkFlags) (hn : iosidx.Nodup) (hlt : ∀ k ∈ iosidx, k < nr)
    (hnr : nr ≤ slMaxReplicas) (d : Repls) (c : σ) :
    (∀ m, stateAt (mdsReplBmapWalk tract retifset flags iosidx cbf nr d c).repls m =
      if m ∈ passed retifset flags (stateAt d) (walkTargets flags iosidx nr)
        then tract.move (stateAt d m) else stateAt d m) ∧
      (mdsReplBmapWalk tract retifset flags iosidx cbf nr d c).rc =
        answer retifset flags (stateAt d) (walkTargets flags iosidx nr) 0 :=
  walkLoop_spec tract retifset flags cbf (stateAt d) _ ⟨d, c, 0⟩ (walkTargets_nodup flags hn nr)
    fun k hk => ⟨lt_of_lt_of_le (walkTargets_lt flags hlt k hk) hnr, rfl⟩

theorem mdsReplBmapWalk_stateAt {flags : WalkFlags} (hf : flags.scircuit = false)
    (hn : iosidx.Nodup) (hlt : ∀ k ∈ iosidx, k < nr) (hnr : nr ≤ slMaxReplicas) (d : Repls) (c : σ) (m : ℕ) :
    stateAt (mdsReplBmapWalk tract retifset flags iosidx cbf nr d c).repls m =
      if m ∈ walkTargets flags iosidx nr then tract.move (stateAt d m) else stateAt d m := by
  have h := (mdsReplBmapWalk_spec tract retifset cbf flags hn hlt hnr d c).1 m
  simpa only [passed, hf, Bool.false_eq_true, if_false] using h

theorem mdsReplBmapWalk_rc_ne_zero (flags : WalkFlags) (hn : iosidx.Nodup)
    (hlt : ∀ k ∈ iosidx, k < nr) (hnr : nr ≤ slMaxReplicas) (d : Repls) (c : σ) :
    (mdsReplBmapWalk tract retifset flags iosidx cbf nr d c).rc ≠ 0 ↔
      ∃ k ∈ walkTargets flags iosidx nr, retifset (stateAt d k) ≠ 0 := by
  rw [(mdsReplBmapWalk_spec tract retifset cbf flags hn hlt hnr d c).2, answer_ne_zero]

/-- An ascending list of distinct indices below `nr`, which is at most `SL_MAX_REPLICAS`. -/
structure Selection where
  nr : ℕ
  iosidx : List ℕ
  ascending : iosidx.Pairwise (· < ·)
  lt : ∀ k ∈ iosidx, k < nr
  le : nr ≤ slMaxReplicas

/-- All replicas if the list is empty, those not listed with `MODOTH`, else those listed. -/
def Selection.sel (t : Selection) (flags : WalkFlags) : List ℕ :=
  (range t.nr).filter fun k => t.iosidx = [] ∨ if flags.modoth then k ∉ t.iosidx else k ∈ t.iosidx

theorem Selection.walkTargets_eq (t : Selection) (flags : WalkFlags) :
    walkTargets flags t.iosidx t.nr = t.sel flags := by
  unfold walkTargets Selection.sel
  split
  · simp [*]
  split
  · simp [*, iosidxIn]
  refine t.ascending.eq_of_mem_iff (pairwise_lt_range.filter _) fun k => ?_
  simp only [*, mem_filter, mem_range]
  exact ⟨fun h => ⟨t.lt k h, by simpa using h⟩, fun h => by simpa using h.2⟩

/-- **The walk translates exactly the selected replicas, up to the first return value if it is to stop there, and
returns the last return value, or that first one.** -/
theorem walk_translates_selected (t : Selection) (flags : WalkFlags) (d : Repls) (c : σ) :
    let w := mdsReplBmapWalk tract retifset flags t.iosidx cbf t.nr d c
    (∀ m, stateAt w.repls m =
      if m ∈ passed retifset flags (stateAt d) (t.sel flags) then tract.move (stateAt d m) else stateAt d m) ∧
      w.rc = answer retifset flags (stateAt d) (t.sel flags) 0 := by
  have h := mdsReplBmapWalk_spec tract retifset cbf flags (t.ascending.imp ne_of_lt) t.lt t.le d c
  rwa [t.walkTargets_eq] at h

end Walk

/-- With `MODOTH` and `SCIRCUIT` the second of four replicas is translated, and the walk stops at the last one. -/
theorem walk_translates_selected_four : ∃ d : Repls,
    let w := mdsReplBmapWalk (fun v => if v = .valid then some .garbage else none) (fun v => if v = .replSched then 5 else 0)
      ⟨true, true⟩ [0, 2] (fun _ _ u => u) 4 d ()
    (range 4).map (stateAt d) = [.valid, .valid, .valid, .replSched] ∧
      (range 4).map (stateAt w.repls) = [.valid, .garbage, .valid, .replSched] ∧ w.rc = 5 := by
  refine ⟨setState (setState (setState (setState (Vector.replicate _ 0) 0 .valid) 1 .valid) 2 .valid) 3 .replSched,
    by decide +kernel, ?_⟩
  obtain ⟨hstate, hrc⟩ := walk_translates_selected (fun v => if v = .valid then some .garbage else none)
    (fun v => if v = .replSched then 5 else 0) (fun _ _ u => u) ⟨4, [0, 2], by decide, by decide, by decide⟩ ⟨true, true⟩
    (setState (setState (setState (setState (Vector.replicate _ 0) 0 .valid) 1 .valid) 2 .valid) 3 .replSched) ()
  rw [hrc, funext hstate]
  decide +kernel

end Slash2.Residency
