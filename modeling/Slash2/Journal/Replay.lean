/-
# Replaying the journal entries of a bmap

The MDS journals a change of a bmap's residency table as a copy of the whole table,
and an update of its checksums as the values that changed. On a restart
`mds_replay_bmap` applies the entries to what it finds on disk.

Key theorem: `bmapRepls_restored_iff`.
-/
import Slash2.Residency.Replicate

namespace Slash2.Journal

open Residency List Option Function

/-! ### What is on disk -/

structure Bmapod extends Bmap where
  crcs : Fin slashSlvrsPerBmap → BitVec 64
  crcstates : Fin slashSlvrsPerBmap → BitVec 8

structure Fcmh where
  inode : Inode
  /-- `fcmh_2_replpol`: the policy for new bmaps -/
  replpol : Brpol
  replNblks : ℕ → BitVec 64
  nblks : BitVec 64
  size : BitVec 64

/-- A bmap and its file, loaded. -/
structure Loaded where
  f : Fcmh
  b : Bmapod

structure Fs where
  fcmh : ℕ → Option Fcmh
  bmap : ℕ → ℕ → Bmapod

/-- `slm_fcmh_get` and `bmap_getf` -/
def Fs.load (s : Fs) (fid bno : ℕ) : Option Loaded := (s.fcmh fid).map fun f => ⟨f, s.bmap fid bno⟩

def Fs.save (s : Fs) (fid bno : ℕ) (m : Loaded) : Fs :=
  ⟨update s.fcmh fid (some m.f), update s.bmap fid (update (s.bmap fid) bno m.b)⟩

@[simp] theorem Fs.save_bmap (s : Fs) (fid bno : ℕ) (m : Loaded) : (s.save fid bno m).bmap fid bno = m.b := by
  simp [Fs.save]

@[simp] theorem Fs.load_save (s : Fs) (fid bno : ℕ) (m : Loaded) : (s.save fid bno m).load fid bno = some m := by
  simp [Fs.load, Fs.save]

@[simp] theorem Fs.save_save (s : Fs) (fid bno : ℕ) (m m' : Loaded) :
    (s.save fid bno m).save fid bno m' = s.save fid bno m' := by
  simp [Fs.save]

theorem Fs.save_load {s : Fs} {fid bno : ℕ} {m : Loaded} (h : s.load fid bno = some m) : s.save fid bno m = s := by
  obtain ⟨f, hf, rfl⟩ := map_eq_some_iff.mp h
  simp [Fs.save, ← hf]

/-- `struct slmds_jent_bmap_repls` -/
structure SlmdsJentBmapRepls where
  fid : ℕ
  bmapno : ℕ
  bgen : BitVec 32
  replpol : Brpol
  nrepls : ℕ
  repls : Repls

/-- `struct srt_bmap_crcwire` -/
structure SrtBmapCrcwire where
  crc : BitVec 64
  slot : Fin slashSlvrsPerBmap

/-- `struct slmds_jent_bmap_crc` -/
structure SlmdsJentBmapCrc where
  fid : ℕ
  bmapno : ℕ
  iosid : IosId
  utimgen : BitVec 32
  fsize : BitVec 64
  aggrNblks : BitVec 64
  replNblks : BitVec 64
  extend : Bool
  crcs : List SrtBmapCrcwire

inductive Jent where
  | repls (e : SlmdsJentBmapRepls)
  | crc (e : SlmdsJentBmapCrc)

def Jent.place : Jent → ℕ × ℕ
  | .repls e => (e.fid, e.bmapno)
  | .crc e => (e.fid, e.bmapno)

def mdslogfillBmapRepls (fid bmapno : ℕ) (m : Loaded) : SlmdsJentBmapRepls where
  fid := fid
  bmapno := bmapno
  bgen := m.b.gen
  nrepls := m.f.inode.nrepls
  replpol := m.f.replpol
  repls := m.b.repls

/-- `mds_brepls_check`: whether it passes; if not it ends the MDS. -/
def mdsBreplsCheck (repls : Repls) (nr : ℕ) : Bool :=
  0 < nr ∧ nr ≤ slMaxReplicas ∧ ∃ k < nr, holdsData (stateAt repls k) ≠ 0

def tractReissue : Tract
  | .replSched => some .replQueued
  | .garbageSched => some .garbage
  | _ => none

/-- `mds_bmap_write`, with a write that succeeds. -/
def Loaded.write (m : Loaded) : Option Loaded :=
  (mdsBmapWrite m.f.inode m.b.toBmap ⟨0, false⟩).map fun _ => m

/-- `mds_repl_bmap_walk_all` over the table of the entry. -/
def reissueWalk (f : Inode) (d : Repls) : Repls :=
  (mdsReplBmapWalk tractReissue (fun _ => 0) WalkFlags.none [] (fun _ _ u => u) f.nrepls d ()).repls

/-- `mds_replay_bmap(B_REPLAY_OP_REPLS)` -/
def replayRepls (m : Loaded) (e : SlmdsJentBmapRepls) : Option Loaded :=
  if mdsBreplsCheck e.repls e.nrepls then
    Loaded.write ⟨m.f, { m.b with replpol := e.replpol, repls := reissueWalk m.f.inode e.repls }⟩
  else none

/-- `mds_repl_ios_lookup`, `none` for a negative result. -/
def mdsReplIosLookup (env : LookupEnv) (f : Inode) (ios : IosId) : Option ℕ :=
  match iosSearch env f ios (range f.nrepls) with
  | .ok r => r
  | .error _ => none

/-- `BMAP_SLVR_DATA | BMAP_SLVR_CRC` -/
def slvrDataCrc : BitVec 8 := 3

def replayCrcLoop (ws : List SrtBmapCrcwire) (b : Bmapod) : Bmapod :=
  ws.foldl (fun b w => { b with
    crcs := update b.crcs w.slot w.crc
    crcstates := update b.crcstates w.slot (b.crcstates w.slot ||| slvrDataCrc) }) b

/-- `mds_replay_bmap(B_REPLAY_OP_CRC)`. -/
def replayCrc (env : LookupEnv) (m : Loaded) (e : SlmdsJentBmapCrc) : Option Loaded :=
  match mdsReplIosLookup env m.f.inode e.iosid with
  | none => some m
  | some idx =>
    Loaded.write
      ⟨{ m.f with
          replNblks := update m.f.replNblks idx e.replNblks
          nblks := e.aggrNblks
          size := if e.extend then e.fsize else m.f.size }, replayCrcLoop e.crcs m.b⟩

/-- The two cases of `mds_replay_bmap`. -/
def replayLoaded (env : LookupEnv) (m : Loaded) : Jent → Option Loaded
  | .repls e => replayRepls m e
  | .crc e => replayCrc env m e

/-- `mds_replay_bmap`: `none` if the MDS ends in it. -/
def mdsReplayBmap (env : LookupEnv) (s : Fs) (e : Jent) : Option Fs :=
  match s.load e.place.1 e.place.2 with
  | none => some s
  | some m => (replayLoaded env m e).map (s.save e.place.1 e.place.2)

/-! ### The table comes back -/

def reissued : Breplst → Breplst
  | .replSched => .replQueued
  | .garbageSched => .garbage
  | s => s

theorem tractReissue_move (s : Breplst) : tractReissue.move s = reissued s := by cases s <;> rfl

theorem holdsData_reissued (s : Breplst) : holdsData (reissued s) = holdsData s := by cases s <;> rfl

theorem mdsBreplsCheck_iff (d : Repls) (nr : ℕ) : mdsBreplsCheck d nr ↔
    nr ≤ slMaxReplicas ∧ ∃ k < nr, holdsData (stateAt d k) ≠ 0 := by
  simp only [mdsBreplsCheck, decide_eq_true_iff]
  refine ⟨fun h => h.2, fun h => ⟨?_, h⟩⟩
  omega

theorem Loaded.write_eq (m : Loaded) : m.write = if mdsBmapEnsureValid m.f.inode m.b.toBmap then some m else none := by
  unfold Loaded.write mdsBmapWrite
  split <;> rfl

theorem reissueWalk_stateAt (f : Inode) (d : Repls) (k : ℕ) :
    stateAt (reissueWalk f d) k = if k < f.nrepls then reissued (stateAt d k) else stateAt d k := by
  rw [reissueWalk, mdsReplBmapWalk_stateAt _ _ _ rfl nodup_nil (by simp) f.nrepls_le, tractReissue_move]
  simp only [mem_walkTargets_all]

theorem replayRepls_eq (m : Loaded) (e : SlmdsJentBmapRepls) (hn : e.nrepls ≤ m.f.inode.nrepls)
    (hc : mdsBreplsCheck e.repls e.nrepls) : replayRepls m e =
      some ⟨m.f, { m.b with replpol := e.replpol, repls := reissueWalk m.f.inode e.repls }⟩ := by
  obtain ⟨-, k, hk, hd⟩ := (mdsBreplsCheck_iff _ _).mp hc
  rw [replayRepls, if_pos hc, Loaded.write_eq, if_pos]
  refine (mdsBmapEnsureValid_iff _ _).mpr ⟨k, hk.trans_le hn, ?_⟩
  rw [reissueWalk_stateAt, if_pos (hk.trans_le hn), holdsData_reissued]
  exact hd

/-- Policy and generation of `b`, and its first `n` states, with work in flight queued again. -/
def Restores (b b' : Bmapod) (n : ℕ) : Prop :=
  b'.replpol = b.replpol ∧ b'.gen = b.gen ∧ ∀ k < n, stateAt b'.repls k = reissued (stateAt b.repls k)

/-- **A residency table is restored** exactly if policy and generation are those on disk and some replica holds data.
-/
theorem bmapRepls_restored_iff (env : LookupEnv) (s : Fs) (fid bno : ℕ) (m : Loaded) {f : Fcmh}
    (hf : s.fcmh fid = some f) (hn : m.f.inode.nrepls ≤ f.inode.nrepls) :
    (∃ t, mdsReplayBmap env s (.repls (mdslogfillBmapRepls fid bno m)) = some t ∧
        Restores m.b (t.bmap fid bno) m.f.inode.nrepls) ↔ m.f.replpol = m.b.replpol ∧ (s.bmap fid bno).gen = m.b.gen ∧
        ∃ k < m.f.inode.nrepls, holdsData (stateAt m.b.repls k) ≠ 0 := by
  have hload : s.load fid bno = some ⟨f, s.bmap fid bno⟩ := by simp [Fs.load, hf]
  have hreplay : mdsReplayBmap env s (.repls (mdslogfillBmapRepls fid bno m)) =
      (replayRepls ⟨f, s.bmap fid bno⟩ (mdslogfillBmapRepls fid bno m)).map (s.save fid bno) := by
    simp [mdsReplayBmap, Jent.place, mdslogfillBmapRepls, hload, replayLoaded]
  have hcheck := mdsBreplsCheck_iff m.b.repls m.f.inode.nrepls
  rw [hreplay]
  constructor
  · rintro ⟨t, ht, hpol, hgen, -⟩
    obtain ⟨m', hm', rfl⟩ := map_eq_some_iff.mp ht
    obtain ⟨hc, -⟩ := ite_none_right_eq_some.mp hm'
    rw [replayRepls_eq ⟨f, s.bmap fid bno⟩ _ hn hc] at hm'
    cases hm'
    rw [Fs.save_bmap] at hpol hgen
    exact ⟨hpol, hgen, (hcheck.mp hc).2⟩
  · rintro ⟨hpol, hgen, hdata⟩
    have hc := hcheck.mpr ⟨m.f.inode.nrepls_le, hdata⟩
    rw [replayRepls_eq ⟨f, s.bmap fid bno⟩ (mdslogfillBmapRepls fid bno m) hn hc]
    refine ⟨_, rfl, ?_⟩
    rw [Fs.save_bmap]
    refine ⟨hpol, hgen, fun k hk => ?_⟩
    exact (reissueWalk_stateAt f.inode m.b.repls k).trans (if_pos (hk.trans_le hn))

def bmapodOf (l : List Breplst) (gen : BitVec 32) (pol : Brpol) : Bmapod :=
  ⟨⟨tableOf l, gen, pol⟩, fun _ => 0, fun _ => 0⟩

/-- A file with `n` replicas. -/
def fcmhOf (n : ℕ) (h : n ≤ slMaxReplicas) (pol : Brpol) : Fcmh := ⟨inodeOf n h, pol, fun _ => 0, 0, 0⟩

/-- A replica in flight, over an older table of the generation. -/
theorem bmapRepls_restored_inflight :
    let env : LookupEnv := ⟨0, Int.le_refl 0, fun _ => true⟩
    let f := fcmhOf 2 (by decide) .onetime
    let s : Fs := ⟨fun _ => some f, fun _ _ => bmapodOf [.valid, .replQueued] 1 .onetime⟩
    let b := bmapodOf [.valid, .replSched] 1 .onetime
    ∃ t, mdsReplayBmap env s (.repls (mdslogfillBmapRepls 5 0 ⟨f, b⟩)) = some t ∧ Restores b (t.bmap 5 0) 2 := by
  intro env f s b
  exact (bmapRepls_restored_iff env s 5 0 ⟨f, b⟩ rfl (Nat.le_refl 2)).mpr ⟨rfl, rfl, by decide⟩

/-- A policy and a generation of its own: both are lost. -/
theorem bmapRepls_not_restored :
    let env : LookupEnv := ⟨0, Int.le_refl 0, fun _ => true⟩
    let f := fcmhOf 2 (by decide) .onetime
    let s : Fs := ⟨fun _ => some f, fun _ _ => bmapodOf [.valid, .replQueued] 1 .persist⟩
    let b := bmapodOf [.valid, .replQueued] 2 .persist
    ∃ t ∈ mdsReplayBmap env s (.repls (mdslogfillBmapRepls 5 0 ⟨f, b⟩)),
      (t.bmap 5 0).replpol = .onetime ∧ (t.bmap 5 0).gen = 1 := by
  decide

end Slash2.Journal
