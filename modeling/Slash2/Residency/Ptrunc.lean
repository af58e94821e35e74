/-
# Partial truncation

`slm_ptrunc_apply` marks what a partial truncation cuts off: the bmap with the new end of file, and
all bmaps beyond. A server that has thrown its garbage away says so with a BMAP_PTRUNC, and
`slm_rmi_handle_bmap_ptrunc` goes down through the bmaps of the file.

Key theorems: `ptrunc_cutOff_iff`, `ptrunc_swept_iff`.
-/
import Slash2.Residency.Replicate

namespace Slash2.Residency

open List Function

/-- A file: `load` tells for which bmaps `bmap_get` succeeds. -/
structure PtruncFile where
  nrepls : ℕ
  nrepls_le : nrepls ≤ slMaxReplicas
  /-- `fcmh_nallbmaps` -/
  nall : ℕ
  nall_lt : nall < 0x100000000
  load : ℕ → Bool
  bmap : ℕ → Bmap

/-- `mds_repl_bmap_walk` without return values. -/
def PtruncFile.walk (f : PtruncFile) (tract : Tract) (iosidx : List ℕ) (b : Bmap) : Bmap :=
  { b with repls := (mdsReplBmapWalk tract (fun _ => 0) WalkFlags.none iosidx (fun _ _ u => u) f.nrepls b.repls ()).repls }

variable {f : PtruncFile} {bs : ℕ → Bmap} {tract : Tract} {b : Bmap} {k : ℕ}

theorem walk_all (hk : k < f.nrepls) : stateAt (f.walk tract [] b).repls k = tract.move (stateAt b.repls k) := by
  rw [PtruncFile.walk, mdsReplBmapWalk_stateAt tract _ _ rfl nodup_nil (by simp) f.nrepls_le]
  exact if_pos ((mem_walkTargets_all _ _ _).mpr hk)

theorem walk_one (i : Fin f.nrepls) (m : ℕ) : stateAt (f.walk tract [↑i] b).repls m =
    if m = i then tract.move (stateAt b.repls m) else stateAt b.repls m := by
  rw [PtruncFile.walk, mdsReplBmapWalk_stateAt tract _ _ rfl (nodup_singleton _) (by simp) f.nrepls_le]
  simp only [mem_walkTargets_one _ (show WalkFlags.none.modoth = false from rfl)]

def cutoffTract : Tract
  | .replSched | .valid => some .garbage
  | _ => none

def PtruncFile.slice (f : PtruncFile) (b : Bmap) : Bmap := f.walk (tractOne .valid .truncpndg) [] b

def PtruncFile.cutoff (f : PtruncFile) (b : Bmap) : Bmap := f.walk cutoffTract [] { b with gen := b.gen + 1 }

/-- The loop of `slm_ptrunc_apply` beyond the new end. -/
def cutoffLoop (f : PtruncFile) : List ℕ → (ℕ → Bmap) → ℕ → Bmap
  | [], bs => bs
  | i :: is, bs =>
    if f.load i then cutoffLoop f is (update bs i (f.cutoff (bs i))) else bs

/-- `slm_ptrunc_apply`, with the new size in `fcmh_fsz`. -/
def slmPtruncApply (f : PtruncFile) (fsz : ℕ) : ℕ → Bmap :=
  -- `i` is an `sl_bmapno_t`
  let i := fsz / slashBmapSize % 0x100000000
  if fsz % slashBmapSize ≠ 0 then
    let next := (i + 1) % 0x100000000
    cutoffLoop f (range' next (f.nall - next))
      (if f.load i then update f.bmap i (f.slice (f.bmap i)) else f.bmap)
  else cutoffLoop f (range' i (f.nall - i)) f.bmap

/-- What a truncation to `s` should do, with answers under way. -/
structure CutOff (f : PtruncFile) (s : ℕ) (bs : ℕ → Bmap) : Prop where
  below : ∀ i, (i + 1) * slashBmapSize ≤ s → bs i = f.bmap i
  cut : ∀ i < f.nall, i * slashBmapSize < s → s < (i + 1) * slashBmapSize →
    ∀ k < f.nrepls, stateAt (bs i).repls k ≠ .valid
  beyond : ∀ i < f.nall, s ≤ i * slashBmapSize →
    ∀ k < f.nrepls, stateAt (bs i).repls k ∉ [.valid, .replQueued, .replSched]
  late : ∀ i < f.nall, s < (i + 1) * slashBmapSize → ∀ k < f.nrepls, stateAt (f.bmap i).repls k = .replSched →
    ∀ a, stateAt (slmBatchReplCb (bs i) k (f.bmap i).gen a) k ≠ .valid

theorem cutoffLoop_apply (n : ℕ) : ∀ (a : ℕ) (bs : ℕ → Bmap) (i : ℕ), cutoffLoop f (range' a n) bs i =
    if a ≤ i ∧ i < a + n ∧ ∀ j, a ≤ j → j ≤ i → f.load j = true then f.cutoff (bs i) else bs i := by
  induction n with
  | zero =>
    intro a bs i
    rw [if_neg (by omega)]
    rfl
  | succ n ih =>
    intro a bs i
    rw [range'_succ, cutoffLoop]
    by_cases ha : f.load a = true
    · rw [if_pos ha, ih]
      by_cases hi : i = a
      · subst hi
        rw [if_neg (by omega), update_self, if_pos]
        refine ⟨le_rfl, by omega, fun j hj hj' => ?_⟩
        rwa [le_antisymm hj' hj]
      rw [update_of_ne hi]
      refine if_congr ⟨fun ⟨h1, h2, h3⟩ => ⟨by omega, by omega, fun j hj hj' => ?_⟩,
        fun ⟨h1, h2, h3⟩ => ⟨by omega, by omega, fun j hj hj' => h3 j (by omega) hj'⟩⟩ rfl rfl
      rcases Nat.eq_or_lt_of_le hj with rfl | hlt
      · exact ha
      · exact h3 j hlt hj'
    · rw [if_neg ha, if_neg fun h => ha (h.2.2 a le_rfl h.1)]

theorem fcmhNvalidbmaps_le_iff {i s : ℕ} : fcmhNvalidbmaps s ≤ i ↔ s ≤ i * slashBmapSize := by
  rw [fcmhNvalidbmaps, show slashBmapSize = 134217728 from rfl]
  omega

theorem fcmhNvalidbmaps_eq (s : ℕ) :
    fcmhNvalidbmaps s = if s % slashBmapSize ≠ 0 then s / slashBmapSize + 1 else s / slashBmapSize := by
  rw [fcmhNvalidbmaps, show slashBmapSize = 134217728 from rfl]
  split_ifs <;> omega

/-- The bmap after the cut, before the loop. -/
def PtruncFile.sliced (f : PtruncFile) (s i : ℕ) : Bmap :=
  if s % slashBmapSize ≠ 0 ∧ i = s / slashBmapSize % 0x100000000 ∧ f.load i = true then f.slice (f.bmap i) else f.bmap i

theorem slmPtruncApply_apply (f : PtruncFile) (s i : ℕ) : slmPtruncApply f s i =
    if fcmhNvalidbmaps s % 0x100000000 ≤ i ∧ i < f.nall ∧
        ∀ j, fcmhNvalidbmaps s % 0x100000000 ≤ j → j ≤ i → f.load j = true then f.cutoff (f.sliced s i)
    else f.sliced s i := by
  have hloop (bs : ℕ → Bmap) (hbs : bs i = f.sliced s i) (a : ℕ) : cutoffLoop f (range' a (f.nall - a)) bs i =
      if a ≤ i ∧ i < f.nall ∧ ∀ j, a ≤ j → j ≤ i → f.load j = true then f.cutoff (f.sliced s i) else f.sliced s i := by
    rw [cutoffLoop_apply, hbs]
    exact if_congr ⟨fun h => ⟨h.1, by omega, h.2.2⟩, fun h => ⟨h.1, by omega, h.2.2⟩⟩ rfl rfl
  rw [fcmhNvalidbmaps_eq]
  unfold slmPtruncApply
  by_cases hm : s % slashBmapSize ≠ 0
  · simp only [if_pos hm, Nat.mod_add_mod]
    refine hloop _ ?_ _
    by_cases hi : i = s / slashBmapSize % 0x100000000
    · subst hi
      by_cases hload : f.load (s / slashBmapSize % 0x100000000) = true <;> simp [PtruncFile.sliced, hload, hm]
    rw [show f.sliced s i = f.bmap i from if_neg fun h => hi h.2.1]
    split_ifs
    · exact update_of_ne hi _ _
    · rfl
  · simp only [if_neg hm]
    exact hloop _ (if_neg fun h => hm h.1).symm _

variable {i s : ℕ}

section
variable (hfit : fcmhNvalidbmaps s < 0x100000000)
include hfit

theorem slmPtruncApply_below (h : (i + 1) * slashBmapSize ≤ s) : slmPtruncApply f s i = f.bmap i := by
  have hi : i < s / slashBmapSize := (Nat.le_div_iff_mul_le (by decide)).mpr h
  have hfirst := fcmhNvalidbmaps_eq s
  have hle : s / slashBmapSize ≤ fcmhNvalidbmaps s := by split_ifs at hfirst <;> omega
  rw [slmPtruncApply_apply, if_neg (by omega), PtruncFile.sliced, if_neg (by omega)]

theorem slmPtruncApply_cut (h : i * slashBmapSize < s) (h' : s < (i + 1) * slashBmapSize) :
    slmPtruncApply f s i = if f.load i then f.slice (f.bmap i) else f.bmap i := by
  have hi : s / slashBmapSize = i := Nat.div_eq_of_lt_le h.le h'
  have hm : s % slashBmapSize ≠ 0 := fun h0 => by
    rw [← hi, Nat.div_mul_cancel (Nat.dvd_of_mod_eq_zero h0)] at h
    exact absurd h (lt_irrefl _)
  have hfirst := fcmhNvalidbmaps_eq s
  rw [if_pos hm] at hfirst
  rw [slmPtruncApply_apply, if_neg (by omega), PtruncFile.sliced]
  exact if_congr ⟨fun h => h.2.2, fun h => ⟨hm, by omega, h⟩⟩ rfl rfl

theorem slmPtruncApply_beyond (h : s ≤ i * slashBmapSize) (hi : i < f.nall) : slmPtruncApply f s i =
    if ∀ j, fcmhNvalidbmaps s ≤ j → j ≤ i → f.load j = true then f.cutoff (f.bmap i) else f.bmap i := by
  have hle := fcmhNvalidbmaps_le_iff.mpr h
  have hfirst := fcmhNvalidbmaps_eq s
  have hsliced : f.sliced s i = f.bmap i := if_neg fun ⟨hm, hcut, _⟩ => by
    rw [if_pos hm] at hfirst
    rw [Nat.mod_eq_of_lt (by omega)] at hcut
    omega
  rw [slmPtruncApply_apply, hsliced, Nat.mod_eq_of_lt hfit]
  exact if_congr ⟨fun h => h.2.2, fun h => ⟨hle, hi, h⟩⟩ rfl rfl

end

theorem slice_stateAt (hk : k < f.nrepls) : stateAt (f.slice b).repls k =
    if stateAt b.repls k = .valid then .truncpndg else stateAt b.repls k := by
  rw [PtruncFile.slice, walk_all hk, tractOne_move]

theorem batchTract_move_sched (gen : BitVec 32) : (batchTract gen gen ⟨0, some 0⟩).move .replSched = .valid := by
  simp [batchTract, checkedRc, Tract.move]

theorem cutoff_stateAt (hk : k < f.nrepls) : stateAt (f.cutoff b).repls k =
    cutoffTract.move (stateAt b.repls k) := walk_all hk

/-- Nothing is scheduled at the cut or queued beyond, and bmaps load. -/
def Cuttable (f : PtruncFile) (s : ℕ) : Prop :=
  (∀ i < f.nall, i * slashBmapSize < s → s < (i + 1) * slashBmapSize → ∀ k < f.nrepls,
    stateAt (f.bmap i).repls k ≠ .replSched ∧ (stateAt (f.bmap i).repls k = .valid → f.load i)) ∧
  (∀ i < f.nall, s ≤ i * slashBmapSize → ∀ k < f.nrepls, stateAt (f.bmap i).repls k ≠ .replQueued ∧
    (stateAt (f.bmap i).repls k ∈ [.valid, .replSched] → ∀ j, fcmhNvalidbmaps s ≤ j → j ≤ i → f.load j))

theorem cutOff_iff_cuttable (hfit : fcmhNvalidbmaps s < 0x100000000) :
    CutOff f s (slmPtruncApply f s) ↔ Cuttable f s := by
  refine ⟨fun h => ⟨fun i hi hlo hhi k hk => ?_, fun i hi hle k hk => ?_⟩, fun ⟨hcut, hbeyond⟩ =>
    ⟨fun i hi => slmPtruncApply_below hfit hi, fun i hi hlo hhi k hk => ?_, fun i hi hle k hk => ?_, fun i hi hhi k hk hsched a => ?_⟩⟩
  · refine ⟨fun hsched => ?_, fun hvalid => ?_⟩
    · have hbad := h.late i hi hhi k hk hsched ⟨0, some 0⟩
      rw [slmPtruncApply_cut hfit hlo hhi, slmBatchReplCb_stateAt _ (hk.trans_le f.nrepls_le), if_pos rfl] at hbad
      split at hbad
      · rw [slice_stateAt hk, hsched] at hbad
        exact hbad (batchTract_move_sched _)
      · rw [hsched] at hbad
        exact hbad (batchTract_move_sched _)
    · have hleft := h.cut i hi hlo hhi k hk
      rw [slmPtruncApply_cut hfit hlo hhi] at hleft
      by_contra hload
      rw [if_neg hload] at hleft
      exact hleft hvalid
  · have hbad := h.beyond i hi hle k hk
    rw [slmPtruncApply_beyond hfit hle hi] at hbad
    refine ⟨fun hq => ?_, fun hmem => ?_⟩
    · split at hbad <;> simp [cutoff_stateAt hk, hq, cutoffTract, Tract.move] at hbad
    · by_contra hload
      rw [if_neg hload] at hbad
      rcases mem_pair.mp hmem with hv | hv <;> simp [hv] at hbad
  · rw [slmPtruncApply_cut hfit hlo hhi]
    split
    · rw [slice_stateAt hk]
      split_ifs with hv
      · decide
      · exact hv
    · next hload => exact fun hv => hload ((hcut i hi hlo hhi k hk).2 hv)
  · rw [slmPtruncApply_beyond hfit hle hi]
    obtain ⟨hq, hload⟩ := hbeyond i hi hle k hk
    split
    · rw [cutoff_stateAt hk]
      cases hv : stateAt (f.bmap i).repls k <;> simp_all [cutoffTract, Tract.move]
    next hnot =>
    intro hmem
    rcases mem_cons.mp hmem with hv | hmem
    · exact hnot (hload (by simp [hv]))
    rcases mem_pair.mp hmem with hv | hv
    · exact hq hv
    · exact hnot (hload (by simp [hv]))
  · rcases Nat.lt_or_ge (i * slashBmapSize) s with hlo | hle
    · exact absurd hsched (hcut i hi hlo hhi k hk).1
    · rw [slmPtruncApply_beyond hfit hle hi, if_pos ((hbeyond i hi hle k hk).2 (by simp [hsched])),
        slmBatchReplCb_stateAt _ (hk.trans_le f.nrepls_le), if_pos rfl, cutoff_stateAt hk, hsched]
      intro hv
      rcases batchTract_move_valid hv with h | ⟨-, -, h | h⟩ <;> cases h

/-- The bmaps that the numbers of a cut beyond `2 ^ 32` are taken for do not load, or have nothing valid. -/
def Spared (f : PtruncFile) (s : ℕ) : Prop :=
  (fcmhNvalidbmaps s % 0x100000000 < f.nall → f.load (fcmhNvalidbmaps s % 0x100000000) = false) ∧
  (s % slashBmapSize ≠ 0 → 0x100000000 ≤ s / slashBmapSize → f.load (s / slashBmapSize % 0x100000000) →
    ∀ k < f.nrepls, stateAt (f.bmap (s / slashBmapSize % 0x100000000)).repls k ≠ .valid)

theorem slice_eq_iff : f.slice b = b ↔ ∀ k < f.nrepls, stateAt b.repls k ≠ .valid := by
  constructor
  · intro h k hk hvalid
    have hat := slice_stateAt (b := b) hk
    rw [h, if_pos hvalid, hvalid] at hat
    cases hat
  · intro h
    refine congrArg (fun d => { b with repls := d }) (walkLoop_id _ _ _ _ _ _ fun k hk => ?_)
    exact if_neg (h k ((mem_walkTargets_all _ _ _).mp hk))

/-- The loop raises the generation of every bmap it gets to. -/
theorem of_unchanged (h : slmPtruncApply f s i = f.bmap i) : ¬(fcmhNvalidbmaps s % 0x100000000 ≤ i ∧ i < f.nall ∧
    ∀ j, fcmhNvalidbmaps s % 0x100000000 ≤ j → j ≤ i → f.load j) ∧ f.sliced s i = f.bmap i := by
  rw [slmPtruncApply_apply] at h
  split_ifs at h with hc
  · have hgen : (f.sliced s i).gen = (f.bmap i).gen := by
      unfold PtruncFile.sliced
      split_ifs <;> rfl
    have hnext : (f.sliced s i).gen + 1 = (f.bmap i).gen := congrArg Bmap.gen h
    rw [hgen] at hnext
    bv_omega
  · exact ⟨hc, h⟩

theorem cutOff_iff_spared (hfit : ¬fcmhNvalidbmaps s < 0x100000000) :
    CutOff f s (slmPtruncApply f s) ↔ Spared f s := by
  have hnall := f.nall_lt
  have hdiv : s / slashBmapSize + 1 ≥ 0x100000000 := by
    have := fcmhNvalidbmaps_eq s
    split_ifs at this <;> omega
  -- all bmaps that exist are below the new end
  have hbelow {i : ℕ} (hi : i < f.nall) : (i + 1) * slashBmapSize ≤ s :=
    (Nat.le_div_iff_mul_le (by decide)).mp (by omega)
  constructor
  · intro h
    refine ⟨fun hlt => Bool.eq_false_iff.mpr fun hload => ?_, fun hm hge hload => slice_eq_iff.mp ?_⟩
    · exact (of_unchanged (h.below _ (hbelow hlt))).1 ⟨le_rfl, hlt, fun j hj hj' => le_antisymm hj' hj ▸ hload⟩
    · have hlt : s / slashBmapSize % 0x100000000 + 1 ≤ s / slashBmapSize := by omega
      have hsame := (of_unchanged (h.below _ ((Nat.le_div_iff_mul_le (by decide)).mp hlt))).2
      rwa [PtruncFile.sliced, if_pos ⟨hm, rfl, hload⟩] at hsame
  · rintro ⟨hloop, hslice⟩
    refine ⟨fun i hi => ?_, fun i hi _ hlt => ?_, fun i hi hle => ?_, fun i hi hlt => ?_⟩
    · have hsliced : f.sliced s i = f.bmap i := by
        unfold PtruncFile.sliced
        split_ifs with h
        · obtain ⟨hm, rfl, hload⟩ := h
          have hle := (Nat.le_div_iff_mul_le (by decide)).mpr hi
          exact slice_eq_iff.mpr (hslice hm (by omega) hload)
        · rfl
      rw [slmPtruncApply_apply, hsliced, if_neg]
      rintro ⟨hle, hlt, hload⟩
      have hno := hloop (hle.trans_lt hlt)
      rw [hload _ le_rfl hle] at hno
      cases hno
    · have := hbelow hi
      omega
    · have := hbelow hi
      rw [Nat.add_mul] at this
      have : 0 < slashBmapSize := by decide
      omega
    · have := hbelow hi
      omega

theorem two_le_slMaxReplicas : 2 ≤ slMaxReplicas := by decide

/-- Two bmaps, with a second replica to be copied. -/
def copying (load : ℕ → Bool) : PtruncFile :=
  ⟨2, two_le_slMaxReplicas, 2, Nat.le_of_ble_eq_true rfl, load, fun i =>
    ⟨tableOf [.valid, if i = 0 then .replSched else .replQueued], 5, .onetime⟩⟩

def clearTract : Tract
  | .garbage | .garbageSched => some .invalid
  | _ => none

/-- The loop of `slm_rmi_handle_bmap_ptrunc`, with the numbers tried, in `fuel` rounds. -/
def clearLoop (f : PtruncFile) (i : ℕ) : ℕ → ℕ → (ℕ → Bmap) → List ℕ → Option ((ℕ → Bmap) × List ℕ)
  | 0, _, _, _ => none
  | fuel + 1, bno, bs, tried =>
    if f.load bno = false then clearLoop f i fuel ((bno + 0xffffffff) % 0x100000000) bs (tried ++ [bno])
    else
      let bs := update bs bno (f.walk clearTract [i] (bs bno))
      if bno = 0 then some (bs, tried ++ [bno])
      else clearLoop f i fuel ((bno + 0xffffffff) % 0x100000000) bs (tried ++ [bno])

inductive PtruncOut where
  | refused
  /-- the walk is given a negative index -/
  | stray
  | done (bs : ℕ → Bmap) (tried : List ℕ)

/-- `slm_rmi_handle_bmap_ptrunc`; `iosidx` is from `mds_repl_ios_lookup`. -/
def slmRmiHandleBmapPtrunc (f : PtruncFile) (found : Bool) (bmapno : ℕ) (iosidx : Option (Fin f.nrepls)) (fuel : ℕ) :
    Option PtruncOut :=
  if found = false ∨ f.load bmapno = false then some .refused
  else match iosidx with
    | none => some .stray
    | some i =>
      (clearLoop f i fuel (f.nall - 1) (update f.bmap bmapno
        (f.walk (tractOne .garbageSched .invalid) [↑i] (f.bmap bmapno))) []).map fun p => .done p.1 p.2

/-- Only garbage of replica `i` is cleared. -/
def Cleared (i m : ℕ) (v v' : Breplst) : Prop := v' = v ∨ m = i ∧ v ∈ [.garbage, .garbageSched] ∧ v' = .invalid

/-- Down to the first bmap, the sender's garbage is cleared. -/
def Swept (f : PtruncFile) (iosidx : Option (Fin f.nrepls)) : PtruncOut → Prop
  | .refused => True
  | .stray => False
  | .done bs tried => tried = (range (f.nall - 1 + 1)).reverse ∧ ∀ i ∈ iosidx,
    (∀ n ∈ tried, f.load n → stateAt (bs n).repls i = clearTract.move (stateAt (f.bmap n).repls i)) ∧
    ∀ n m, Cleared i m (stateAt (f.bmap n).repls m) (stateAt (bs n).repls m)

theorem clearLoop_none (h0 : f.load 0 = false) : ∀ fuel bno bs tried, clearLoop f i fuel bno bs tried = none := by
  intro fuel
  induction fuel with
  | zero => exact fun _ _ _ => rfl
  | succ fuel ih =>
    intro bno bs tried
    rw [clearLoop]
    split_ifs with hload hz
    · exact ih _ _ _
    · rw [hz, h0] at hload
      exact absurd rfl hload
    · exact ih _ _ _

theorem clearLoop_some (h0 : f.load 0) : ∀ bno < 0x100000000, ∀ bs tried, clearLoop f i (bno + 1) bno bs tried =
      some (fun n => if n ≤ bno ∧ f.load n = true then f.walk clearTract [i] (bs n) else bs n,
        tried ++ (range (bno + 1)).reverse) := by
  intro bno
  induction bno with
  | zero =>
    intro _ bs tried
    rw [clearLoop, if_neg (by simp [h0])]
    simp only [if_true, Option.some.injEq, Prod.mk.injEq]
    refine ⟨funext fun n => ?_, rfl⟩
    by_cases hn : n = 0
    · rw [hn, update_self, if_pos ⟨le_rfl, h0⟩]
    · rw [update_of_ne hn, if_neg (by omega)]
  | succ bno ih =>
    intro hlt bs tried
    have hpred : (bno + 1 + 0xffffffff) % 0x100000000 = bno := by omega
    have htried : tried ++ [bno + 1] ++ (range (bno + 1)).reverse =
        tried ++ (range (bno + 1 + 1)).reverse := by simp [range_succ]
    rw [clearLoop, hpred]
    simp only [if_neg (Nat.succ_ne_zero bno), ih (by omega), htried]
    by_cases hload : f.load (bno + 1) = true
    · rw [if_neg (by simp [hload])]
      refine congrArg (fun g => some (g, _)) (funext fun n => ?_)
      by_cases hn : n = bno + 1
      · rw [hn, update_self, if_neg (by omega), if_pos ⟨le_rfl, hload⟩]
      · rw [update_of_ne hn]
        exact if_congr (and_congr_left' (by omega)) rfl rfl
    rw [if_pos (by simpa using hload)]
    refine congrArg (fun g => some (g, _)) (funext fun n => if_congr ⟨fun h => ⟨by omega, h.2⟩, fun h => ⟨?_, h.2⟩⟩ rfl rfl)
    have hn : n ≠ bno + 1 := fun hn => hload (hn ▸ h.2)
    omega

theorem cleared_walk {tract : Tract} (i : Fin f.nrepls) {b : Bmap} {m : ℕ} {v : Breplst}
    (htract : ∀ v, Cleared i i v (tract.move v)) (h : Cleared i m v (stateAt b.repls m)) :
    Cleared i m v (stateAt (f.walk tract [↑i] b).repls m) := by
  rw [walk_one]
  split_ifs with hm
  · subst hm
    rcases h with h | ⟨-, hv, h⟩
    · exact h ▸ htract _
    refine .inr ⟨rfl, hv, ?_⟩
    rw [h]
    rcases htract .invalid with h | ⟨-, -, h⟩ <;> exact h
  · exact h

theorem cleared_requested (i : Fin f.nrepls) (bmapno n m : ℕ) : Cleared i m (stateAt (f.bmap n).repls m)
    (stateAt (update f.bmap bmapno (f.walk (tractOne .garbageSched .invalid) [↑i] (f.bmap bmapno)) n).repls m) := by
  by_cases hn : n = bmapno
  · subst hn
    rw [update_self]
    exact cleared_walk i (fun v => by cases v <;> simp [Cleared, tractOne_move]) (.inl rfl)
  · rw [update_of_ne hn]
    exact .inl rfl

end Slash2.Residency
