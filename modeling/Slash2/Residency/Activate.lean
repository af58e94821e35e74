/-
# Activating a replica for writing

When an I/O server is bound to a bmap for writing, or reports new data for it, the
MDS makes that server's replica the only current one: `_mds_repl_inv_except` walks
the table twice, once over the active replica alone and once over all the others,
and then writes the bmap out. `mds_bmap_add_repl` finds (or adds) the server in the
inode's replica list first and calls it.

Key theorem: `mdsReplInvExcept_activates_iff`.
-/
import Slash2.Residency.Walk
import Slash2.Slerr

namespace Slash2.Residency

/-! ### The inode's replica list and the bmap -/

/-- `sl_ios_id_t` -/
abbrev IosId := ℕ

/-- `SL_DEF_REPLICAS`: replicas in the inode itself. -/
def slDefReplicas : ℕ := 4

/-- `SL_INOX_NREPLICAS`: those in its extension. -/
def slInoxNreplicas : ℕ := 60

structure Inode where
  inoRepls : Vector IosId slDefReplicas
  inoxRepls : Vector IosId slInoxNreplicas
  nrepls : ℕ
  nrepls_le : nrepls ≤ slMaxReplicas
  deriving DecidableEq

variable (f : Inode)

def fcmh2Repl (i : ℕ) : IosId :=
  if i < slDefReplicas then f.inoRepls[i]?.getD 0 else f.inoxRepls[i - slDefReplicas]?.getD 0

/-- Bmap replication policies `BRPOL_*`. -/
inductive Brpol where
  | onetime
  | persist
  deriving DecidableEq

structure Bmap where
  repls : Repls
  /-- `bes_gen`, a 32-bit counter that wraps -/
  gen : BitVec 32
  replpol : Brpol
  deriving DecidableEq

structure Pwritev where
  rc : ℤ
  /-- `nb != BMAP_OD_SZ` -/
  short : Bool

/-- States that have, or had, data for `mds_bmap_ensure_valid`. -/
def holdsData : Retifset
  | .valid | .garbage | .garbageSched | .truncpndg | .truncpndgSched => 1
  | _ => 0

variable (b : Bmap)

/-- `mds_bmap_ensure_valid`; if not it ends the MDS. -/
def mdsBmapEnsureValid : Bool :=
  (mdsReplBmapWalk Tract.init holdsData ⟨true, false⟩ [] (fun _ _ u => u) f.nrepls b.repls ()).rc ≠ 0

/-- `mds_bmap_write`, or `none` if the MDS ended before it. -/
def mdsBmapWrite (pw : Pwritev) : Option ℤ :=
  if mdsBmapEnsureValid f b then
    some (if pw.rc = 0 ∧ pw.short then slerrShortio else pw.rc)
  else none

/-- The return value, `none` if the MDS ended, and the bmap. -/
structure Ret where
  rc : Option ℤ
  bmap : Bmap

/-- `mds_repl_inv_requeue`: note a replica that was valid. -/
def mdsReplInvRequeue (idx : ℕ) (val : Breplst) (qv : List IosId) : List IosId :=
  if val = .valid then qv ++ [fcmh2Repl f idx] else qv

def tractActive : Tract
  | .invalid | .garbage => some .valid
  | _ => none

def retifsetActive : Retifset
  | .invalid | .valid => 0
  | s => brepInitIdx s

def tractOther (policy : Brpol) : Tract
  | .valid => some (if policy = .persist then .replQueued else .garbage)
  | .replSched => some .replQueued
  | _ => none

def retifsetOther : Retifset
  | .valid => 1
  | _ => 0

/-- `_mds_repl_inv_except(b, iosidx, defer)` -/
def mdsReplInvExceptDefer (iosidx : ℕ) (defer : Bool) (pw : Pwritev) : Ret :=
  -- ensure replica on active IOS is marked valid
  let w := mdsReplBmapWalk tractActive retifsetActive WalkFlags.none [iosidx] (fun _ _ u => u)
    f.nrepls b.repls ()
  -- invalidate all other replicas
  let w' := mdsReplBmapWalk (tractOther b.replpol) retifsetOther ⟨false, true⟩ [iosidx]
    (mdsReplInvRequeue f) f.nrepls w.repls []
  let b' : Bmap := { b with repls := w'.repls, gen := if w'.rc ≠ 0 then b.gen + 1 else b.gen }
  if defer then ⟨some w.rc, b'⟩
  else ⟨mdsBmapWrite f b' pw, b'⟩

/-- `mds_repl_inv_except(b, iosidx)` -/
def mdsReplInvExcept (iosidx : ℕ) (pw : Pwritev) : Ret :=
  mdsReplInvExceptDefer f b iosidx false pw

structure LookupEnv where
  /-- the result of `mds_inox_ensure_loaded`, zero or negative -/
  inoxRc : ℤ
  inoxRc_le : inoxRc ≤ 0
  resIsfs : IosId → Bool

/-- The loop of `_mds_repl_ios_lookup`: `.error` without the extension. -/
def iosSearch (env : LookupEnv) (f : Inode) (ios : IosId) : List ℕ → Except ℤ (Option ℕ)
  | [] => .ok none
  | j :: js =>
    if j = slDefReplicas ∧ env.inoxRc ≠ 0 then .error env.inoxRc
    else if fcmh2Repl f j = ios then .ok (some j)
    else iosSearch env f ios js

/-- Store `ios` in slot `j` of the replica list. -/
def Inode.setRepl (j : ℕ) (ios : IosId) : Inode :=
  if j < slDefReplicas then { f with inoRepls := f.inoRepls.setIfInBounds j ios }
  else { f with inoxRepls := f.inoxRepls.setIfInBounds (j - slDefReplicas) ios }

/-- `mds_repl_ios_lookup_add`: the position of `ios`, added if new; negative on failure. -/
def mdsReplIosLookupAdd (env : LookupEnv) (f : Inode) (ios : IosId) : ℤ × Inode :=
  match iosSearch env f ios (List.range f.nrepls) with
  | .error rc => (rc, f)
  | .ok (some j) => (j, f)
  | .ok none =>
    if env.resIsfs ios = false then (-slerrResBadtype, f)
    else if h : f.nrepls = slMaxReplicas then (-enospc, f)
    else if slDefReplicas ≤ f.nrepls ∧ env.inoxRc ≠ 0 then (env.inoxRc, f)
    else (f.nrepls, { f.setRepl f.nrepls ios with
      nrepls := f.nrepls + 1
      nrepls_le := Nat.lt_of_le_of_ne f.nrepls_le h })

/-- `mds_bmap_add_repl`: the lookup must not fail. -/
def mdsBmapAddRepl (env : LookupEnv) (f : Inode) (b : Bmap) (ios : IosId) (pw : Pwritev) : Ret × Inode :=
  match mdsReplIosLookupAdd env f ios with
  | (.ofNat iosidx, f') => (mdsReplInvExcept f' b iosidx pw, f')
  | (.negSucc _, f') => (⟨none, b⟩, f')

/-! ### What the two walks leave behind -/

/-- Some replica other than `i` is valid. -/
def OtherValid (i : ℕ) : Prop :=
  ∃ k < f.nrepls, k ≠ i ∧ stateAt b.repls k = .valid

instance (i : ℕ) : Decidable (OtherValid f b i) :=
  inferInstanceAs (Decidable (∃ k < f.nrepls, _))

section InvExcept

variable (i : ℕ) (defer : Bool) (pw : Pwritev)

theorem mdsReplInvExceptDefer_bmap :
    (mdsReplInvExceptDefer f b i defer pw).bmap = (mdsReplInvExceptDefer f b i true pw).bmap := by
  cases defer <;> rfl

variable {i}

section
variable (hi : i < f.nrepls)
include hi

theorem firstWalk_stateAt (m : ℕ) :
    stateAt (mdsReplBmapWalk tractActive retifsetActive WalkFlags.none [i] (fun _ _ u => u)
        f.nrepls b.repls ()).repls m =
      if m = i then tractActive.move (stateAt b.repls i) else stateAt b.repls m := by
  rw [mdsReplBmapWalk_stateAt _ _ _ rfl (List.nodup_singleton i) (by simpa using hi) f.nrepls_le]
  simp only [mem_walkTargets_one WalkFlags.none rfl]
  split_ifs with h
  · rw [h]
  · rfl

theorem mdsReplInvExceptDefer_stateAt (m : ℕ) : stateAt (mdsReplInvExceptDefer f b i defer pw).bmap.repls m =
      if m = i then tractActive.move (stateAt b.repls i)
      else if m < f.nrepls then (tractOther b.replpol).move (stateAt b.repls m)
      else stateAt b.repls m := by
  rw [mdsReplInvExceptDefer_bmap]
  simp only [mdsReplInvExceptDefer, if_true]
  rw [mdsReplBmapWalk_stateAt _ _ _ rfl (List.nodup_singleton i) (by simpa using hi) f.nrepls_le,
    firstWalk_stateAt f b hi]
  have hmem := mem_walkTargets_modoth ⟨false, true⟩ rfl i f.nrepls m
  by_cases hm : m = i
  · rw [if_neg (fun h => (hmem.mp h).2 hm), if_pos hm, if_pos hm]
  by_cases hlt : m < f.nrepls
  · rw [if_pos (hmem.mpr ⟨hlt, hm⟩), if_neg hm, if_neg hm, if_pos hlt]
  · rw [if_neg (fun h => hlt (hmem.mp h).1), if_neg hm, if_neg hm, if_neg hlt]

theorem mdsReplInvExceptDefer_self : stateAt (mdsReplInvExceptDefer f b i defer pw).bmap.repls i =
      tractActive.move (stateAt b.repls i) := by
  rw [mdsReplInvExceptDefer_stateAt f b defer pw hi, if_pos rfl]

theorem mdsReplInvExceptDefer_other {k : ℕ} (hk : k < f.nrepls) (hki : k ≠ i) :
    stateAt (mdsReplInvExceptDefer f b i defer pw).bmap.repls k = (tractOther b.replpol).move (stateAt b.repls k) := by
  rw [mdsReplInvExceptDefer_stateAt f b defer pw hi, if_neg hki, if_pos hk]

theorem mdsReplInvExceptDefer_gen : (mdsReplInvExceptDefer f b i defer pw).bmap.gen =
      if OtherValid f b i then b.gen + 1 else b.gen := by
  rw [mdsReplInvExceptDefer_bmap]
  refine if_congr ?_ rfl rfl
  rw [mdsReplBmapWalk_rc_ne_zero _ _ _ _ (List.nodup_singleton i) (by simpa using hi) f.nrepls_le]
  have hret : ∀ s : Breplst, retifsetOther s ≠ 0 ↔ s = .valid := by
    intro s
    cases s <;> simp [retifsetOther]
  constructor
  · rintro ⟨k, hk, hv⟩
    obtain ⟨hlt, hne⟩ := (mem_walkTargets_modoth _ rfl i f.nrepls k).mp hk
    rw [firstWalk_stateAt f b hi, if_neg hne, hret] at hv
    exact ⟨k, hlt, hne, hv⟩
  · rintro ⟨k, hlt, hne, hv⟩
    refine ⟨k, (mem_walkTargets_modoth _ rfl i f.nrepls k).mpr ⟨hlt, hne⟩, ?_⟩
    rw [firstWalk_stateAt f b hi, if_neg hne, hret]
    exact hv

end

end InvExcept

theorem mdsBmapEnsureValid_iff : mdsBmapEnsureValid f b ↔ ∃ k < f.nrepls, holdsData (stateAt b.repls k) ≠ 0 := by
  rw [mdsBmapEnsureValid, decide_eq_true_iff, mdsReplBmapWalk_rc_ne_zero _ _ _ _ List.nodup_nil (by simp) f.nrepls_le]
  simp only [mem_walkTargets_all]

/-! ### The lookup gives a replica of the new list -/

theorem iosSearch_mem (env : LookupEnv) (f : Inode) (ios : IosId) : ∀ (js : List ℕ) {j : ℕ},
    iosSearch env f ios js = .ok (some j) → j ∈ js
  | [], j, h => by simp [iosSearch] at h
  | j' :: js, j, h => by
    simp only [iosSearch] at h
    split at h
    · simp at h
    split at h
    · simp only [Except.ok.injEq, Option.some.injEq] at h
      simp [h]
    · exact List.mem_cons_of_mem _ (iosSearch_mem env f ios js h)

theorem iosSearch_error (env : LookupEnv) (f : Inode) (ios : IosId) : ∀ (js : List ℕ) {rc : ℤ},
    iosSearch env f ios js = .error rc → rc < 0
  | [], rc, h => by simp [iosSearch] at h
  | j :: js, rc, h => by
    simp only [iosSearch] at h
    split at h
    · have := env.inoxRc_le
      simp only [Except.error.injEq] at h
      omega
    split at h
    · simp at h
    · exact iosSearch_error env f ios js h

variable {env : LookupEnv} {ios : IosId} {i : ℕ}

theorem mdsReplIosLookupAdd_lt {f f' : Inode} (h : mdsReplIosLookupAdd env f ios = ((i : ℤ), f')) : i < f'.nrepls := by
  revert h
  fun_cases mdsReplIosLookupAdd env f ios <;> intro h <;> obtain ⟨hi, rfl⟩ := Prod.mk.inj h
  next rc hs =>
    have := iosSearch_error env f ios _ hs
    omega
  next j hs =>
    have := List.mem_range.mp (iosSearch_mem env f ios _ hs)
    omega
  next =>
    simp only [slerrResBadtype] at hi
    omega
  next =>
    simp only [enospc] at hi
    omega
  next =>
    have := env.inoxRc_le
    omega
  next =>
    simp only [Nat.cast_inj] at hi
    simp [hi]

theorem mdsBmapAddRepl_eq {f f' : Inode} (h : mdsReplIosLookupAdd env f ios = ((i : ℤ), f')) (b : Bmap) (pw : Pwritev) :
    mdsBmapAddRepl env f b ios pw = (mdsReplInvExcept f' b i pw, f') := by
  unfold mdsBmapAddRepl
  rw [h]

def HasValid (d : Repls) : Prop := ∃ k < f.nrepls, stateAt d k = .valid

/-- Only replica `i` is valid, and none is being made. -/
def OnlyValid (d : Repls) (i : ℕ) : Prop :=
  stateAt d i = .valid ∧ ∀ k < f.nrepls, k ≠ i → stateAt d k ≠ .valid ∧ stateAt d k ≠ .replSched

/-- Replica `i` becomes the only one, and no valid one is lost. -/
def Activates (i : ℕ) (call : Pwritev → Ret) : Prop :=
  ∀ pw, ((call pw).rc = some 0 → OnlyValid f (call pw).bmap.repls i) ∧
    (HasValid f b.repls → HasValid f (call pw).bmap.repls)

/-- The states expected of the replica, or none is valid. -/
def ExpectedActive (i : ℕ) : Prop :=
  stateAt b.repls i = .invalid ∨ stateAt b.repls i = .valid ∨ stateAt b.repls i = .garbage ∨
    mdsBmapEnsureValid f b = false

theorem tractActive_move_valid (s : Breplst) :
    tractActive.move s = .valid ↔ s = .invalid ∨ s = .valid ∨ s = .garbage := by
  cases s <;> simp [Tract.move, tractActive]

theorem tractOther_move_ne (pol : Brpol) (s : Breplst) :
    (tractOther pol).move s ≠ .valid ∧ (tractOther pol).move s ≠ .replSched := by
  cases s <;> cases pol <;> simp [Tract.move, tractOther]

variable {s : Breplst}

theorem holdsData_tractOther (pol : Brpol) (h : holdsData s = 0) : holdsData ((tractOther pol).move s) = 0 := by
  cases s <;> simp_all [Tract.move, tractOther, holdsData]

theorem holdsData_tractOther_of_ne (pol : Brpol) (h : holdsData s ≠ 0) (hv : s ≠ .valid) :
    holdsData ((tractOther pol).move s) ≠ 0 := by
  cases s <;> simp_all [Tract.move, tractOther, holdsData]

theorem tractActive_move_of_unexpected (h : ¬ tractActive.move s = .valid) : tractActive.move s = s := by
  cases s <;> simp_all [Tract.move, tractActive]

section Iff

variable {f b}

theorem onlyValid_of_move (hi : i < f.nrepls) (h : tractActive.move (stateAt b.repls i) = .valid)
    (pw : Pwritev) : OnlyValid f (mdsReplInvExcept f b i pw).bmap.repls i := by
  refine ⟨(mdsReplInvExceptDefer_self f b false pw hi).trans h, fun k hk hki => ?_⟩
  rw [mdsReplInvExcept, mdsReplInvExceptDefer_other f b false pw hi hk hki]
  exact tractOther_move_ne b.replpol _

section
variable (hi : i < f.nrepls) (h : ¬ tractActive.move (stateAt b.repls i) = .valid)
include hi h

theorem not_hasValid_of_move (pw : Pwritev) : ¬ HasValid f (mdsReplInvExcept f b i pw).bmap.repls := by
  rintro ⟨k, hk, hv⟩
  rw [mdsReplInvExcept] at hv
  by_cases hki : k = i
  · rw [hki, mdsReplInvExceptDefer_self f b false pw hi] at hv
    exact h hv
  · rw [mdsReplInvExceptDefer_other f b false pw hi hk hki] at hv
    exact (tractOther_move_ne b.replpol _).1 hv

theorem ensureValid_of_move (hv : ¬ HasValid f b.repls) (he : mdsBmapEnsureValid f b) (pw : Pwritev) :
    mdsBmapEnsureValid f (mdsReplInvExcept f b i pw).bmap := by
  obtain ⟨k, hk, hd⟩ := (mdsBmapEnsureValid_iff f b).mp he
  refine (mdsBmapEnsureValid_iff f _).mpr ⟨k, hk, ?_⟩
  rw [mdsReplInvExcept]
  by_cases hki : k = i
  · rw [hki, mdsReplInvExceptDefer_self f b false pw hi, tractActive_move_of_unexpected h, ← hki]
    exact hd
  · rw [mdsReplInvExceptDefer_other f b false pw hi hk hki]
    exact holdsData_tractOther_of_ne b.replpol hd fun hkv => hv ⟨k, hk, hkv⟩

theorem not_ensureValid_of_move (he : mdsBmapEnsureValid f b = false)
    (pw : Pwritev) : mdsBmapEnsureValid f (mdsReplInvExcept f b i pw).bmap = false := by
  have hnone : ∀ k < f.nrepls, holdsData (stateAt b.repls k) = 0 := by
    intro k hk
    by_contra hd
    rw [(mdsBmapEnsureValid_iff f b).mpr ⟨k, hk, hd⟩] at he
    exact Bool.noConfusion he
  rw [← Bool.not_eq_true, mdsBmapEnsureValid_iff]
  rintro ⟨k, hk, hd⟩
  apply hd
  rw [mdsReplInvExcept]
  by_cases hki : k = i
  · rw [hki, mdsReplInvExceptDefer_self f b false pw hi, tractActive_move_of_unexpected h]
    exact hnone i hi
  · rw [mdsReplInvExceptDefer_other f b false pw hi hk hki]
    exact holdsData_tractOther b.replpol (hnone k hk)

end

theorem mdsReplInvExcept_rc (pw : Pwritev) : (mdsReplInvExcept f b i pw).rc =
    mdsBmapWrite f (mdsReplInvExcept f b i pw).bmap pw := rfl

theorem activates_iff (hi : i < f.nrepls) : Activates f b i (mdsReplInvExcept f b i) ↔ ExpectedActive f b i := by
  by_cases hm : tractActive.move (stateAt b.repls i) = .valid
  · -- the first walk makes the active replica valid
    have hexp : ExpectedActive f b i := by
      rcases (tractActive_move_valid _).mp hm with h | h | h
      · exact .inl h
      · exact .inr (.inl h)
      · exact .inr (.inr (.inl h))
    refine ⟨fun _ => hexp, fun _ pw => ⟨fun _ => onlyValid_of_move hi hm pw, fun _ => ?_⟩⟩
    exact ⟨i, hi, (onlyValid_of_move hi hm pw).1⟩
  · constructor
    · intro hact
      by_contra hne
      have he : mdsBmapEnsureValid f b := by
        by_contra h
        exact hne (.inr (.inr (.inr (Bool.not_eq_true _ ▸ h))))
      by_cases hv : HasValid f b.repls
      · exact not_hasValid_of_move hi hm ⟨0, false⟩ ((hact ⟨0, false⟩).2 hv)
      -- the write succeeds, and with it the call
      have hrc : (mdsReplInvExcept f b i ⟨0, false⟩).rc = some 0 := by
        rw [mdsReplInvExcept_rc, mdsBmapWrite, ensureValid_of_move hi hm hv he]
        rfl
      exact hm ((mdsReplInvExceptDefer_self f b false _ hi).symm.trans ((hact _).1 hrc).1)
    · intro hexp pw
      have he : mdsBmapEnsureValid f b = false := by
        rcases hexp with h | h | h | h
        · exact absurd ((tractActive_move_valid _).mpr (.inl h)) hm
        · exact absurd ((tractActive_move_valid _).mpr (.inr (.inl h))) hm
        · exact absurd ((tractActive_move_valid _).mpr (.inr (.inr h))) hm
        · exact h
      refine ⟨fun hrc => ?_, fun hv => ?_⟩
      · -- the MDS ends in the check, so nothing is reported
        rw [mdsReplInvExcept_rc, mdsBmapWrite, not_ensureValid_of_move hi hm he] at hrc
        exact absurd hrc (by simp)
      · obtain ⟨k, hk, hkv⟩ := hv
        have : mdsBmapEnsureValid f b :=
          (mdsBmapEnsureValid_iff f b).mpr ⟨k, hk, by rw [hkv]; decide⟩
        exact absurd this (by simp [he])

end Iff

/-- **Write activation** works exactly if the replica's state is expected, or there are no data. -/
theorem mdsReplInvExcept_activates_iff (f : Inode) (b : Bmap) (i : ℕ) :
    (i < f.nrepls → (Activates f b i (mdsReplInvExcept f b i) ↔ ExpectedActive f b i)) ∧
    ∀ (env : LookupEnv) (f₀ : Inode) (ios : IosId), mdsReplIosLookupAdd env f₀ ios = ((i : ℤ), f) →
      (Activates f b i (fun pw => (mdsBmapAddRepl env f₀ b ios pw).1) ↔ ExpectedActive f b i) := by
  refine ⟨activates_iff, fun env f₀ ios h => ?_⟩
  have hcall : (fun pw => (mdsBmapAddRepl env f₀ b ios pw).1) = mdsReplInvExcept f b i := by
    funext pw
    rw [mdsBmapAddRepl_eq h]
  rw [hcall]
  exact activates_iff (mdsReplIosLookupAdd_lt h)

/-- A table with the given states, the rest `INVALID`. -/
def tableOf (l : List Breplst) : Repls :=
  l.zipIdx.foldl (fun d p => setState d p.2 p.1) (Vector.replicate slReplicaNbytes 0)

/-- An inode with `n` replicas, numbered from 1. -/
def inodeOf (n : ℕ) (h : n ≤ slMaxReplicas) : Inode :=
  ⟨Vector.ofFn fun j => j + 1, Vector.ofFn fun j => j + slDefReplicas + 1, n, h⟩

/-- A valid and a queued replica, and a write on the first. -/
theorem mdsReplInvExcept_activates_first :
    let f := inodeOf 2 (by decide)
    let b : Bmap := ⟨tableOf [.valid, .replQueued], 0, .onetime⟩
    Activates f b 0 (mdsReplInvExcept f b 0) ∧
      Activates f b 0 (fun pw => (mdsBmapAddRepl ⟨0, Int.le_refl 0, fun _ => true⟩ f b 1 pw).1) := by
  intro f b
  have hexp : ExpectedActive f b 0 := .inr (.inl (by decide))
  exact ⟨((mdsReplInvExcept_activates_iff f b 0).1 (by decide)).mpr hexp,
    ((mdsReplInvExcept_activates_iff f b 0).2 ⟨0, Int.le_refl 0, fun _ => true⟩ f 1 (by decide)).mpr hexp⟩

/-- A write on a server whose replica is queued. -/
theorem activation_lost :
    let f := inodeOf 2 (by decide)
    let b : Bmap := ⟨tableOf [.valid, .replQueued], 0, .onetime⟩
    let r := mdsReplInvExcept f b 1 ⟨0, false⟩
    r.rc = some 0 ∧ stateAt r.bmap.repls 0 = .garbage ∧ stateAt r.bmap.repls 1 = .replQueued ∧
      ¬ Activates f b 1 (mdsReplInvExcept f b 1) := by
  refine ⟨by decide, by decide, by decide, ?_⟩
  intro h
  have := ((h ⟨0, false⟩).1 (by decide)).1
  exact absurd this (by decide)

end Slash2.Residency
