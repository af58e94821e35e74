/-
# Arranging a replica

The update scheduler of the MDS takes a queued replica and asks its server to copy
the bmap from a server whose replica is valid. `slm_upsch_tryrepl` marks the
replica scheduled and puts a request into a batch; the request carries the bmap's
generation. When the batch is answered `slm_batch_repl_cb` gives the replica its
new state.

Key definitions: `slmUpschTryrepl`, `slmBatchReplCb`. Key theorems: `repltraffic_exact_iff`, `slmUpschTryrepl_kept`,
`slmUpschTryrepl_sent`, `slmBatchReplCb_stateAt`.
-/
import Mathlib.Algebra.BigOperators.Intervals
import Mathlib.Algebra.Order.BigOperators.Group.Finset
import Slash2.Residency.Activate

namespace Slash2.Residency

/-! ### How much there is to copy -/

def slashSlvrSize : ℕ := 1024 * 1024

def slashSlvrsPerBmap : ℕ := 128

def slashBmapSize : ℕ := slashSlvrsPerBmap * slashSlvrSize

/-- `fcmh_nvalidbmaps`: `howmany(fsz, SLASH_BMAP_SIZE)`. -/
def fcmhNvalidbmaps (fsz : ℕ) : ℕ := (fsz + (slashBmapSize - 1)) / slashBmapSize

/-- `lastbno`, which is an `sl_bmapno_t`. -/
def lastbno (fsz : ℕ) : ℕ := fcmhNvalidbmaps fsz % 0x100000000 - 1

/-- `lastslvr` and `lastsize` -/
def lastSlvr (fsz : ℕ) : ℕ × ℕ :=
  if fsz ≠ 0 then
    let bmapsize := if fsz % slashBmapSize = 0 then slashBmapSize else fsz % slashBmapSize
    ((bmapsize - 1) / slashSlvrSize,
      if fsz % slashSlvrSize = 0 then slashSlvrSize else fsz % slashSlvrSize)
  else (0, 0)

/-- The loop of `slm_bmap_calc_repltraffic`; `hasData` is `BMAP_SLVR_DATA`. -/
def repltrafficLoop (hasData : ℕ → Bool) (atEnd : ℕ → Bool) (lastsize : ℕ) : List ℕ → ℕ → ℕ
  | [], amt => amt
  | i :: is, amt =>
    if hasData i then
      if atEnd i then amt + lastsize
      else repltrafficLoop hasData atEnd lastsize is (amt + slashSlvrSize)
    else repltrafficLoop hasData atEnd lastsize is amt

/-- `slm_bmap_calc_repltraffic` -/
def slmBmapCalcRepltraffic (fsz bmapno : ℕ) (hasData : ℕ → Bool) : ℕ :=
  repltrafficLoop hasData
    (fun i => bmapno = lastbno fsz ∧ i = (lastSlvr fsz).1) (lastSlvr fsz).2
    (List.range slashSlvrsPerBmap) 0

section Traffic
variable {hasData : ℕ → Bool}

/-- The bytes of a sliver that are below the end of the file. -/
def slvrBytes (fsz bmapno i : ℕ) : ℕ := min slashSlvrSize (fsz - (bmapno * slashBmapSize + i * slashSlvrSize))

/-- What there is to copy. -/
def dataBytes (fsz bmapno : ℕ) (hasData : ℕ → Bool) : ℕ :=
  ∑ i ∈ Finset.range slashSlvrsPerBmap, if hasData i then slvrBytes fsz bmapno i else 0

theorem repltrafficLoop_range {atEnd : ℕ → Bool} {lastsize : ℕ} :
    ∀ {n : ℕ} (tail : List ℕ), (∀ i < n, hasData i → ¬ atEnd i) →
      repltrafficLoop hasData atEnd lastsize (List.range n ++ tail) 0 =
        repltrafficLoop hasData atEnd lastsize tail (∑ i ∈ Finset.range n, if hasData i then slashSlvrSize else 0)
  | 0, _, _ => rfl
  | n + 1, tail, h => by
    rw [List.range_succ, List.append_assoc, repltrafficLoop_range _ fun i hi => h i (Nat.lt_succ_of_lt hi),
      Finset.sum_range_succ, List.singleton_append, repltrafficLoop]
    split_ifs with hd he
    · exact absurd he (h n (Nat.lt_succ_self n) hd)
    · rfl
    · rfl

theorem lastSlvr_lt (fsz : ℕ) : (lastSlvr fsz).1 < slashSlvrsPerBmap := by
  unfold lastSlvr slashBmapSize slashSlvrSize slashSlvrsPerBmap
  split_ifs <;> dsimp only <;> omega

theorem lastbno_le (fsz : ℕ) : lastbno fsz ≤ fcmhNvalidbmaps fsz - 1 := Nat.sub_le_sub_right (Nat.mod_le _ _) 1

section
variable {fsz bmapno : ℕ} (hno : bmapno ≤ fcmhNvalidbmaps fsz - 1)
include hno

theorem slvrBytes_before {i : ℕ} (hi : i < (lastSlvr fsz).1) : slvrBytes fsz bmapno i = slashSlvrSize := by
  unfold slvrBytes lastSlvr fcmhNvalidbmaps slashBmapSize slashSlvrSize slashSlvrsPerBmap at *
  split_ifs at hi <;> dsimp only at hi <;> omega

theorem le_slvrBytes_last : (lastSlvr fsz).2 ≤ slvrBytes fsz bmapno (lastSlvr fsz).1 := by
  unfold slvrBytes lastSlvr fcmhNvalidbmaps slashBmapSize slashSlvrSize slashSlvrsPerBmap at *
  split_ifs <;> dsimp only <;> omega

end

theorem slvrBytes_whole {fsz bmapno i : ℕ} :
    slvrBytes fsz bmapno i = slashSlvrSize ↔ bmapno * slashBmapSize + (i + 1) * slashSlvrSize ≤ fsz := by
  unfold slvrBytes slashBmapSize slashSlvrSize slashSlvrsPerBmap
  omega

/-- The bmap is the last one: the file ends in the sliver that is cut. -/
theorem slvrBytes_last {fsz : ℕ} (hfit : fcmhNvalidbmaps fsz < 0x100000000) :
    slvrBytes fsz (lastbno fsz) (lastSlvr fsz).1 = (lastSlvr fsz).2 ∧
      ∀ i, (lastSlvr fsz).1 < i → slvrBytes fsz (lastbno fsz) i = 0 := by
  rw [lastbno, Nat.mod_eq_of_lt hfit]
  unfold slvrBytes lastSlvr fcmhNvalidbmaps slashBmapSize slashSlvrSize slashSlvrsPerBmap
  split_ifs <;> exact ⟨by dsimp only; omega, fun i hi => by dsimp only at hi; omega⟩

/-- The number of the last bmap is cut: the bmap that has it is below the end of the file. -/
theorem slvrBytes_wrapped {fsz i : ℕ} (hno : 0x100000000 ≤ fcmhNvalidbmaps fsz) (hi : i < slashSlvrsPerBmap) :
    slvrBytes fsz (lastbno fsz) i = slashSlvrSize := by
  unfold slvrBytes lastbno fcmhNvalidbmaps slashBmapSize slashSlvrSize slashSlvrsPerBmap at *
  omega

theorem lastsize_whole {fsz : ℕ} (hfsz : fsz ≠ 0) : (lastSlvr fsz).2 = slashSlvrSize ↔ fsz % slashSlvrSize = 0 := by
  unfold lastSlvr slashSlvrSize
  split_ifs <;> dsimp only <;> omega

theorem lastSlvr_cut_iff (fsz : ℕ) (hasData : ℕ → Bool) :
    (slvrBytes fsz (lastbno fsz) (lastSlvr fsz).1 = (lastSlvr fsz).2 ∧
        ∀ i < slashSlvrsPerBmap, (lastSlvr fsz).1 < i → hasData i → slvrBytes fsz (lastbno fsz) i = 0) ↔
      fcmhNvalidbmaps fsz < 0x100000000 ∨
        fsz % slashSlvrSize = 0 ∧ ∀ i < slashSlvrsPerBmap, (lastSlvr fsz).1 < i → hasData i = false := by
  rcases Nat.lt_or_ge (fcmhNvalidbmaps fsz) 0x100000000 with hfit | hno
  · obtain ⟨hlast, hlater⟩ := slvrBytes_last hfit
    exact iff_of_true ⟨hlast, fun i _ hi _ => hlater i hi⟩ (.inl hfit)
  have hfsz : fsz ≠ 0 := by
    rintro rfl
    exact absurd hno (by decide)
  rw [or_iff_right hno.not_gt, slvrBytes_wrapped hno (lastSlvr_lt fsz), eq_comm, lastsize_whole hfsz]
  refine and_congr_right fun _ => forall₃_congr fun i hi _ => ?_
  rw [slvrBytes_wrapped hno hi, ← Bool.not_eq_true]
  exact imp_congr_right fun _ => iff_of_false (by decide) id

/-- **The estimate is the bytes there are to copy if and only if**, where a sliver is cut, the file has less than `2 ^ 32`
bmaps or is made of whole slivers and has no data behind the cut one; and where none is, every data sliver is below the
end of the file. -/
theorem repltraffic_exact_iff (fsz bmapno : ℕ) (hasData : ℕ → Bool) :
    slmBmapCalcRepltraffic fsz bmapno hasData = dataBytes fsz bmapno hasData ↔
      if bmapno = lastbno fsz ∧ hasData (lastSlvr fsz).1 then
        fcmhNvalidbmaps fsz < 0x100000000 ∨
          fsz % slashSlvrSize = 0 ∧ ∀ i < slashSlvrsPerBmap, (lastSlvr fsz).1 < i → hasData i = false
      else ∀ i < slashSlvrsPerBmap, hasData i → bmapno * slashBmapSize + (i + 1) * slashSlvrSize ≤ fsz := by
  have hlt := lastSlvr_lt fsz
  split_ifs with hcut
  · obtain ⟨hno, hd⟩ := hcut
    rw [← lastSlvr_cut_iff, ← hno]
    have hno' : bmapno ≤ fcmhNvalidbmaps fsz - 1 := hno ▸ lastbno_le fsz
    obtain ⟨k, hk⟩ := Nat.exists_eq_add_of_lt hlt
    have hsplit : List.range slashSlvrsPerBmap =
        List.range (lastSlvr fsz).1 ++ (lastSlvr fsz).1 :: (List.range k).map ((lastSlvr fsz).1 + 1 + ·) := by
      rw [hk, Nat.add_right_comm, List.range_add, List.range_succ, List.append_assoc, List.singleton_append]
    have hest : slmBmapCalcRepltraffic fsz bmapno hasData =
        (∑ i ∈ Finset.range (lastSlvr fsz).1, if hasData i then slashSlvrSize else 0) + (lastSlvr fsz).2 := by
      rw [slmBmapCalcRepltraffic, hsplit, repltrafficLoop_range, repltrafficLoop, if_pos hd, if_pos (by simp [hno])]
      exact fun i hi _ he => hi.ne (of_decide_eq_true he).2
    have hbelow : (∑ i ∈ Finset.range (lastSlvr fsz).1, if hasData i then slvrBytes fsz bmapno i else 0) =
        ∑ i ∈ Finset.range (lastSlvr fsz).1, if hasData i then slashSlvrSize else 0 :=
      Finset.sum_congr rfl fun i hi => by rw [slvrBytes_before hno' (Finset.mem_range.mp hi)]
    have hzero : (∑ i ∈ Finset.Ico ((lastSlvr fsz).1 + 1) slashSlvrsPerBmap,
        if hasData i then slvrBytes fsz bmapno i else 0) = 0 ↔
          ∀ i < slashSlvrsPerBmap, (lastSlvr fsz).1 < i → hasData i → slvrBytes fsz bmapno i = 0 := by
      simp only [Finset.sum_eq_zero_iff, Finset.mem_Ico, and_imp, ite_eq_right_iff]
      exact ⟨fun h i hi hl => h i hl hi, fun h i hl hi => h i hi hl⟩
    have hle := le_slvrBytes_last hno'
    rw [← hzero, hest, dataBytes, ← Finset.sum_range_add_sum_Ico _ (show (lastSlvr fsz).1 + 1 ≤ _ from hlt),
      Finset.sum_range_succ, if_pos hd, hbelow]
    omega
  · have hnever : ∀ i < slashSlvrsPerBmap, hasData i → ¬ decide (bmapno = lastbno fsz ∧ i = (lastSlvr fsz).1) := by
      intro i _ hd he
      obtain ⟨hno, rfl⟩ := of_decide_eq_true he
      exact hcut ⟨hno, hd⟩
    rw [slmBmapCalcRepltraffic, ← List.append_nil (List.range _), repltrafficLoop_range _ hnever, repltrafficLoop, eq_comm,
      dataBytes, Finset.sum_eq_sum_iff_of_le]
    · simp only [Finset.mem_range, ← slvrBytes_whole]
      refine forall₂_congr fun i _ => ?_
      by_cases hd : hasData i <;> simp [hd]
    · intro i _
      split_ifs
      · exact min_le_left _ _
      · exact le_rfl

/-- A file of one byte, with data in the second sliver; and one with more than `2 ^ 32` bmaps. -/
theorem repltraffic_wrong : (slmBmapCalcRepltraffic 1 0 (· == 1) = slashSlvrSize ∧ dataBytes 1 0 (· == 1) = 0) ∧
    slmBmapCalcRepltraffic 0x800000000000005 0 (· == 0) = 5 ∧
      dataBytes 0x800000000000005 0 (· == 0) = slashSlvrSize := by
  decide +kernel

end Traffic

/-- What `slm_upsch_tryrepl` meets outside the residency table. -/
structure TryEnv where
  /-- `resmpair_bw_adj` found bandwidth -/
  bwAvail : Bool
  csvc : Bool
  fsz : ℕ
  /-- the return value of `batchrq_add` -/
  batchRc : ℤ

/-- `pe.len` is zero: `-ENODATA`. -/
def noLength (fsz bmapno : ℕ) : Bool :=
  bmapno = lastbno fsz ∧
    (if fsz > bmapno * slashBmapSize then fsz - bmapno * slashBmapSize else fsz) = 0

/-- The outcome of `slm_upsch_tryrepl`. -/
inductive Tried where
  | fatal
  | kept (repls : Repls)
  | sent (repls : Repls) (bgen : BitVec 32)

/-- `mds_repl_bmap_apply(b, tract, retifset, off)` -/
def replApply (tract : Tract) (retifset : Retifset) (d : Repls) (k : ℕ) : Applied Unit :=
  mdsReplBmapApply tract retifset WalkFlags.none (fun _ _ u => u) d k ()

/-- One entry of a translation matrix, the rest `-1`. -/
def tractOne (s t : Breplst) : Tract := fun x => if x = s then some t else none

/-- `slm_upsch_tryrepl`, for the replica `dst`. -/
def slmUpschTryrepl (env : TryEnv) (bmapno : ℕ) (hasData : ℕ → Bool) (b : Bmap) (dst : ℕ) : Tried :=
  if slmBmapCalcRepltraffic env.fsz bmapno hasData = 0 then
    -- no data in this bmap; simply mark as replicated
    .kept (replApply (tractOne .replQueued .valid) (fun _ => 0) b.repls dst).repls
  else if env.bwAvail = false then .kept b.repls
  else if env.csvc = false then .kept b.repls
  else if noLength env.fsz bmapno then .kept b.repls
  else
    let a := replApply (tractOne .replQueued .replSched) brepInitIdx b.repls dst
    let undo := (replApply (tractOne .replSched .replQueued) (fun _ => 0) a.repls dst).repls
    if a.rc = Breplst.valid.code.toNat ∨ a.rc = Breplst.replSched.code.toNat then .fatal
    -- not queued any more: perhaps the user dequeued the replication request
    else if a.rc ≠ Breplst.replQueued.code.toNat then .kept undo
    else if env.batchRc ≠ 0 then .kept undo
    else .sent a.repls b.gen

structure Answer where
  /-- `ecode`, the result of the batch as a whole -/
  ecode : ℤ
  /-- `bp->rc`, `none` when there is no reply -/
  rc : Option ℤ

/-- Success for another generation is `SLERR_GEN_OLD`. -/
def checkedRc (gen bgen : BitVec 32) (a : Answer) : Option ℤ :=
  if a.rc = some 0 ∧ bgen ≠ gen then some slerrGenOld else a.rc

/-- What `slm_batch_repl_cb` applies to the destination. -/
def batchTract (gen bgen : BitVec 32) (a : Answer) : Tract :=
  if a.ecode = 0 ∧ checkedRc gen bgen a = some 0 then fun
    | .replSched | .replQueued => some .valid
    | _ => none
  else if checkedRc gen bgen a = none ∨ checkedRc gen bgen a = some slerrIonOffline then
    tractOne .replSched .replQueued
  else tractOne .replSched .garbage

def batchRetifset (gen bgen : BitVec 32) (a : Answer) : Retifset := fun
  | .replSched => 1
  | .replQueued => if a.ecode = 0 ∧ checkedRc gen bgen a = some 0 then 1 else 0
  | _ => 0

/-- `slm_batch_repl_cb` on one entry of the batch: the new table. -/
def slmBatchReplCb (b : Bmap) (dst : ℕ) (bgen : BitVec 32) (a : Answer) : Repls :=
  (replApply (batchTract b.gen bgen a) (batchRetifset b.gen bgen a) b.repls dst).repls

/-! ### What they do to the table -/

theorem replApply_stateAt (tract : Tract) (retifset : Retifset) (d : Repls) {k : ℕ} (hk : k < slMaxReplicas) (m : ℕ) :
    stateAt (replApply tract retifset d k).repls m =
      if m = k then tract.move (stateAt d k) else stateAt d m :=
  mdsReplBmapApply_stateAt tract retifset WalkFlags.none _ d hk (by simp [WalkFlags.none]) () m

@[simp] theorem replApply_rc (tract : Tract) (retifset : Retifset) (d : Repls) (k : ℕ) :
    (replApply tract retifset d k).rc = retifset (stateAt d k) :=
  mdsReplBmapApply_rc tract retifset WalkFlags.none _ d k ()

theorem tractOne_move (s t x : Breplst) : (tractOne s t).move x = if x = s then t else x := by
  unfold Tract.move tractOne
  split <;> rfl

variable {s : Breplst}

theorem brepInitIdx_inj {t : Breplst} (h : brepInitIdx s = t.code.toNat) : s = t := by
  cases s <;> cases t <;> first | rfl | exact absurd h (by decide)

section Tryrepl

variable {env : TryEnv} {bmapno : ℕ} {hasData : ℕ → Bool} {b : Bmap} {dst : ℕ}

theorem slmUpschTryrepl_kept (hdst : dst < slMaxReplicas) {d : Repls}
    (h : slmUpschTryrepl env bmapno hasData b dst = .kept d) : (∀ m, stateAt d m = stateAt b.repls m) ∨
      (slmBmapCalcRepltraffic env.fsz bmapno hasData = 0 ∧ stateAt b.repls dst = .replQueued ∧
        ∀ m, stateAt d m = if m = dst then .valid else stateAt b.repls m) := by
  -- both undo branches put back what the first translation changed
  have hundo (hs : (replApply (tractOne .replQueued .replSched) brepInitIdx b.repls dst).rc ≠
      Breplst.replSched.code.toNat) (m : ℕ) : stateAt (replApply (tractOne .replSched .replQueued) (fun _ => 0)
        (replApply (tractOne .replQueued .replSched) brepInitIdx b.repls dst).repls dst).repls m = stateAt b.repls m := by
    have hs' : stateAt b.repls dst ≠ .replSched := fun h => hs (by rw [replApply_rc, h]; rfl)
    rw [replApply_stateAt _ _ _ hdst, replApply_stateAt _ _ _ hdst, replApply_stateAt _ _ _ hdst,
      if_pos rfl, tractOne_move, tractOne_move]
    by_cases hm : m = dst
    · by_cases hq : stateAt b.repls dst = .replQueued <;> simp [hm, hq, hs']
    · simp [hm]
  revert h
  fun_cases slmUpschTryrepl env bmapno hasData b dst <;> intro h <;> try cases h
  next hamt =>
    by_cases hq : stateAt b.repls dst = .replQueued
    · refine .inr ⟨hamt, hq, fun m => ?_⟩
      rw [replApply_stateAt _ _ _ hdst, tractOne_move, if_pos hq]
    refine .inl fun m => ?_
    rw [replApply_stateAt _ _ _ hdst, tractOne_move]
    split_ifs with hm
    · rw [hm]
    · rfl
  next => exact .inl fun _ => rfl
  next => exact .inl fun _ => rfl
  next => exact .inl fun _ => rfl
  next hns _ => exact .inl (Tried.kept.inj h ▸ hundo (not_or.mp hns).2)
  next hns _ _ => exact .inl (Tried.kept.inj h ▸ hundo (not_or.mp hns).2)

theorem slmUpschTryrepl_sent (hdst : dst < slMaxReplicas) {d : Repls} {g : BitVec 32}
    (h : slmUpschTryrepl env bmapno hasData b dst = .sent d g) : g = b.gen ∧ stateAt b.repls dst = .replQueued ∧
      ∀ m, stateAt d m = if m = dst then .replSched else stateAt b.repls m := by
  revert h
  fun_cases slmUpschTryrepl env bmapno hasData b dst <;> intro h <;> try cases h
  rename_i hrc _
  have hq : stateAt b.repls dst = .replQueued := brepInitIdx_inj ((replApply_rc ..).symm.trans (not_not.mp hrc))
  refine ⟨rfl, hq, fun m => ?_⟩
  rw [replApply_stateAt _ _ _ hdst, tractOne_move, if_pos hq]

end Tryrepl

theorem slmBatchReplCb_stateAt (b : Bmap) {dst : ℕ} (hdst : dst < slMaxReplicas) (bgen : BitVec 32)
    (a : Answer) (m : ℕ) : stateAt (slmBatchReplCb b dst bgen a) m =
      if m = dst then (batchTract b.gen bgen a).move (stateAt b.repls dst) else stateAt b.repls m :=
  replApply_stateAt _ _ _ hdst m

variable {a : Answer}

theorem batchTract_move_valid {gen bgen : BitVec 32} (h : (batchTract gen bgen a).move s = .valid) :
    s = .valid ∨ (bgen = gen ∧ a.rc = some 0 ∧ (s = .replSched ∨ s = .replQueued)) := by
  unfold batchTract at h
  split at h
  · rename_i hok
    have hrc : bgen = gen ∧ a.rc = some 0 := by
      have hc := hok.2
      unfold checkedRc at hc
      split_ifs at hc with hne
      · exact absurd hc (by decide)
      refine ⟨?_, hc⟩
      by_contra hg
      exact hne ⟨hc, hg⟩
    cases s with
    | replSched => exact .inr ⟨hrc.1, hrc.2, .inl rfl⟩
    | replQueued => exact .inr ⟨hrc.1, hrc.2, .inr rfl⟩
    | _ => exact .inl h
  · split at h
    · rw [tractOne_move] at h
      split at h
      · exact absurd h (by decide)
      · exact .inl h
    · rw [tractOne_move] at h
      split at h
      · exact absurd h (by decide)
      · exact .inl h

theorem batchTract_valid (gen bgen : BitVec 32) (a : Answer) : (batchTract gen bgen a).move .valid = .valid := by
  unfold batchTract
  split
  · rfl
  · split <;> rfl

theorem batchTract_move_waiting {gen bgen : BitVec 32}
    (h : (batchTract gen bgen a).move s = .replSched ∨ (batchTract gen bgen a).move s = .replQueued) :
    s = .replSched ∨ s = .replQueued := by
  unfold batchTract at h
  split at h
  · cases s with
    | replSched => exact .inl rfl
    | replQueued => exact .inr rfl
    | _ => exact h
  split at h
  all_goals
    rw [tractOne_move] at h
    split at h
    · exact .inl ‹_›
    · exact h

end Slash2.Residency
