/-
# A checksum update and its replay

An I/O server reports the checksums of the slivers it wrote, together with the blocks
its replica takes. `mds_bmap_crc_update` brings the block counts up to date, makes the
server's replica the only current one, stores the checksums and journals them in pieces
of at most `SLJ_MDS_NCRCS`. If the replica was in an unexpected state, the residency
table is journaled as well.

Key theorem: `crcUpdate_replay_iff`.
-/
import Slash2.Journal.Replay

namespace Slash2.Journal

open Residency List Option Function

/-! ### The update -/

/-- `struct srm_bmap_crcup`; `nups` is the length of the list. -/
structure SrmBmapCrcup where
  fsize : BitVec 64
  nblks : BitVec 64
  utimgen : BitVec 32
  extend : Bool
  crcs : List SrtBmapCrcwire

def sljMdsNcrcs : ℕ := 24

def crcEntry (fid bno : ℕ) (ios : IosId) (f : Fcmh) (up : SrmBmapCrcup) (extend : Bool)
    (ws : List SrtBmapCrcwire) : Jent :=
  .crc ⟨fid, bno, ios, up.utimgen, up.fsize, f.nblks, up.nblks, extend, ws⟩

/-- The loop of `mdslog_bmap_crc`, in so many rounds. -/
def mdslogLoop (fid bno : ℕ) (ios : IosId) (f : Fcmh) (up : SrmBmapCrcup) : ℕ → Bool → List SrtBmapCrcwire → List Jent
  | 0, _, _ => []
  | _ + 1, _, [] => []
  | n + 1, extend, w :: ws =>
    crcEntry fid bno ios f up extend ((w :: ws).take sljMdsNcrcs) ::
      mdslogLoop fid bno ios f up n false ((w :: ws).drop sljMdsNcrcs)

def mdslogBmapCrc (fid bno : ℕ) (ios : IosId) (f : Fcmh) (up : SrmBmapCrcup) : List Jent :=
  mdslogLoop fid bno ios f up up.crcs.length up.extend up.crcs

variable (f : Fcmh)

def updateNblks (idx : ℕ) (up : SrmBmapCrcup) : Fcmh :=
  if up.nblks ≠ f.replNblks idx then
    { f with
      nblks := f.nblks + up.nblks - f.replNblks idx
      replNblks := update f.replNblks idx up.nblks }
  else f

variable (ws : List SrtBmapCrcwire)

def updateCrcLoop (b : Bmapod) : Bmapod :=
  ws.foldl (fun b w => { b with
    crcs := update b.crcs w.slot w.crc
    crcstates := update b.crcstates w.slot slvrDataCrc }) b

/-- `_mds_repl_inv_except(bmap, idx, 1)`. -/
def activate (m : Loaded) (idx : ℕ) : Ret := mdsReplInvExceptDefer m.f.inode m.b.toBmap idx true ⟨0, false⟩

variable (env : LookupEnv)

/-- `mds_bmap_crc_update`: the disk after it, and its journal entries. -/
def mdsBmapCrcUpdate (fid bno : ℕ) (ios : IosId) (up : SrmBmapCrcup) (m : Loaded) : Option (Loaded × List Jent) :=
  match mdsReplIosLookup env m.f.inode ios with
  | none => none
  | some idx =>
    let m₁ : Loaded := ⟨updateNblks m.f idx up, m.b⟩
    let r := activate m₁ idx
    let m₂ : Loaded := ⟨m₁.f, { m₁.b with toBmap := r.bmap }⟩
    let m₃ : Loaded := ⟨m₂.f, updateCrcLoop up.crcs m₂.b⟩
    if r.rc ≠ some 0 then
      m₂.write.bind fun _ => m₃.write.map fun m =>
        (m, .repls (mdslogfillBmapRepls fid bno m₂) :: mdslogBmapCrc fid bno ios m₃.f up)
    else m₃.write.map fun m => (m, mdslogBmapCrc fid bno ios m₃.f up)

def replayAll (s : Fs) (es : List Jent) : Option Fs := es.foldlM (mdsReplayBmap env) s

def setCrcs (g : Fin slashSlvrsPerBmap → BitVec 64) : Fin slashSlvrsPerBmap → BitVec 64 :=
  ws.foldl (fun g w => update g w.slot w.crc) g

def slots : List (Fin slashSlvrsPerBmap) := ws.map (·.slot)

variable {ws} {s : Breplst} {x : Fin slashSlvrsPerBmap}

theorem mem_slots_cons {w : SrtBmapCrcwire} : x ∈ slots (w :: ws) ↔ x = w.slot ∨ x ∈ slots ws := mem_cons

theorem setCrcs_of_notMem (hx : x ∉ slots ws) (g : Fin slashSlvrsPerBmap → BitVec 64) : setCrcs ws g x = g x := by
  induction ws generalizing g with
  | nil => rfl
  | cons w ws ih =>
    rw [mem_slots_cons, not_or] at hx
    rw [setCrcs, foldl_cons, ← setCrcs, ih hx.2, update_of_ne hx.1]

theorem setCrcs_congr {g g' : Fin slashSlvrsPerBmap → BitVec 64} (h : ∀ x ∉ slots ws, g x = g' x) :
    setCrcs ws g = setCrcs ws g' := by
  induction ws generalizing g g' with
  | nil => exact funext fun x => h x not_mem_nil
  | cons w ws ih =>
    refine ih fun x hx => ?_
    change update g w.slot w.crc x = update g' w.slot w.crc x
    by_cases hw : x = w.slot
    · rw [hw, update_self, update_self]
    · rw [update_of_ne hw, update_of_ne hw]
      exact h x fun hmem => (mem_slots_cons.mp hmem).elim hw hx

/-- Both loops: set the checksum of each sliver, and `upd` its flags. -/
def crcLoop (upd : BitVec 8 → BitVec 8) (ws : List SrtBmapCrcwire) (b : Bmapod) : Bmapod :=
  ws.foldl (fun b w => { b with
    crcs := update b.crcs w.slot w.crc
    crcstates := update b.crcstates w.slot (upd (b.crcstates w.slot)) }) b

section CrcLoop

variable (upd : BitVec 8 → BitVec 8)

theorem crcLoop_toBmap (ws : List SrtBmapCrcwire) (b : Bmapod) : (crcLoop upd ws b).toBmap = b.toBmap := by
  induction ws generalizing b with
  | nil => rfl
  | cons w ws ih => exact ih _

theorem crcLoop_crcs (ws : List SrtBmapCrcwire) (b : Bmapod) : (crcLoop upd ws b).crcs = setCrcs ws b.crcs := by
  induction ws generalizing b with
  | nil => rfl
  | cons w ws ih => exact ih _

theorem crcLoop_crcstates_of_notMem (hx : x ∉ slots ws) (b : Bmapod) :
    (crcLoop upd ws b).crcstates x = b.crcstates x := by
  induction ws generalizing b with
  | nil => rfl
  | cons w ws ih =>
    rw [mem_slots_cons, not_or] at hx
    rw [crcLoop, foldl_cons, ← crcLoop, ih hx.2]
    exact update_of_ne hx.1 ..

theorem crcLoop_crcstates_of_mem {f : BitVec 8 → BitVec 8} (hf : ∀ v, f (f v) = f v)
    (hx : x ∈ slots ws) (b : Bmapod) : (crcLoop f ws b).crcstates x = f (b.crcstates x) := by
  induction ws generalizing b with
  | nil => cases hx
  | cons w ws ih =>
    rw [crcLoop, foldl_cons, ← crcLoop]
    by_cases hws : x ∈ slots ws
    · rw [ih hws]
      by_cases hw : x = w.slot
      · simp [hw, hf]
      · simp [hw]
    rw [crcLoop_crcstates_of_notMem f hws]
    obtain rfl := (mem_slots_cons.mp hx).resolve_right hws
    exact update_self ..

end CrcLoop

theorem replayCrcLoop_append (ws ws' : List SrtBmapCrcwire) (b : Bmapod) :
    replayCrcLoop (ws ++ ws') b = replayCrcLoop ws' (replayCrcLoop ws b) := foldl_append

theorem replayCrcLoop_toBmap (ws : List SrtBmapCrcwire) (b : Bmapod) :
    (replayCrcLoop ws b).toBmap = b.toBmap := crcLoop_toBmap (· ||| slvrDataCrc) ws b

theorem replayCrcLoop_crcs (ws : List SrtBmapCrcwire) (b : Bmapod) : (replayCrcLoop ws b).crcs = setCrcs ws b.crcs :=
  crcLoop_crcs (· ||| slvrDataCrc) ws b

theorem replayCrcLoop_crcstates_of_notMem (hx : x ∉ slots ws)
    (b : Bmapod) : (replayCrcLoop ws b).crcstates x = b.crcstates x :=
  crcLoop_crcstates_of_notMem (· ||| slvrDataCrc) hx b

theorem replayCrcLoop_crcstates_of_mem (hx : x ∈ slots ws) (b : Bmapod) :
    (replayCrcLoop ws b).crcstates x = b.crcstates x ||| slvrDataCrc :=
  have hupd : ∀ v : BitVec 8, v ||| slvrDataCrc ||| slvrDataCrc = v ||| slvrDataCrc := fun v => by
    rw [BitVec.or_assoc, BitVec.or_self]
  crcLoop_crcstates_of_mem (f := (· ||| slvrDataCrc)) hupd hx b

theorem updateCrcLoop_toBmap (ws : List SrtBmapCrcwire) (b : Bmapod) :
    (updateCrcLoop ws b).toBmap = b.toBmap := crcLoop_toBmap (fun _ => slvrDataCrc) ws b

theorem updateCrcLoop_crcs (ws : List SrtBmapCrcwire) (b : Bmapod) : (updateCrcLoop ws b).crcs = setCrcs ws b.crcs :=
  crcLoop_crcs (fun _ => slvrDataCrc) ws b

theorem updateCrcLoop_crcstates_of_notMem (hx : x ∉ slots ws)
    (b : Bmapod) : (updateCrcLoop ws b).crcstates x = b.crcstates x :=
  crcLoop_crcstates_of_notMem (fun _ => slvrDataCrc) hx b

theorem updateCrcLoop_crcstates_of_mem (hx : x ∈ slots ws) (b : Bmapod) :
    (updateCrcLoop ws b).crcstates x = slvrDataCrc :=
  crcLoop_crcstates_of_mem (f := fun _ => slvrDataCrc) (fun _ => rfl) hx b

theorem replayCrcLoop_twice (ws : List SrtBmapCrcwire) (b : Bmapod) :
    replayCrcLoop ws (replayCrcLoop ws b) = replayCrcLoop ws b := by
  have hcrcs : (replayCrcLoop ws (replayCrcLoop ws b)).crcs = (replayCrcLoop ws b).crcs := by
    rw [replayCrcLoop_crcs, replayCrcLoop_crcs]
    exact setCrcs_congr fun x hx => setCrcs_of_notMem hx b.crcs
  have hstates : (replayCrcLoop ws (replayCrcLoop ws b)).crcstates = (replayCrcLoop ws b).crcstates := by
    funext x
    by_cases hx : x ∈ slots ws
    · rw [replayCrcLoop_crcstates_of_mem hx, replayCrcLoop_crcstates_of_mem hx, BitVec.or_assoc, BitVec.or_self]
    · rw [replayCrcLoop_crcstates_of_notMem hx]
  have hbmap := replayCrcLoop_toBmap ws (replayCrcLoop ws b)
  cases h : replayCrcLoop ws (replayCrcLoop ws b)
  cases h' : replayCrcLoop ws b
  simp_all

/-! ### Replaying all entries of an update -/

variable {es : List Jent} {m : Loaded} {fid bno : ℕ}

theorem replayAll_eq (hes : ∀ e ∈ es, e.place = (fid, bno)) {s : Fs} (hload : s.load fid bno = some m) :
    replayAll env s es = (es.foldlM (replayLoaded env) m).map (s.save fid bno) := by
  induction es generalizing s m with
  | nil => exact congrArg some (Fs.save_load hload).symm
  | cons e es ih =>
    obtain ⟨he, hes⟩ := forall_mem_cons.mp hes
    have hstep : mdsReplayBmap env s e = (replayLoaded env m e).map (s.save fid bno) := by
      simp only [mdsReplayBmap, he, hload]
    rw [replayAll, foldlM_cons, foldlM_cons, hstep]
    cases replayLoaded env m e with
    | none => rfl
    | some m' =>
      have hsave : (s.save fid bno m').save fid bno = s.save fid bno := funext (s.save_save fid bno m')
      exact (ih hes (s.load_save fid bno m')).trans (by rw [hsave]; rfl)

def crcFile (idx : ℕ) (nblks : BitVec 64) (up : SrmBmapCrcup) (extend : Bool) : Fcmh :=
  { f with
    replNblks := update f.replNblks idx up.nblks
    nblks := nblks
    size := if extend then up.fsize else f.size }

@[simp] theorem crcFile_inode (idx : ℕ) (nblks : BitVec 64) (up : SrmBmapCrcup) (e : Bool) :
    (crcFile f idx nblks up e).inode = f.inode := rfl

theorem crcFile_crcFile (idx : ℕ) (nblks : BitVec 64) (up : SrmBmapCrcup) (e e' : Bool) :
    crcFile (crcFile f idx nblks up e) idx nblks up e' = crcFile f idx nblks up (e || e') := by
  cases e <;> cases e' <;> simp [crcFile]

section Chunks

variable (fid bno : ℕ) (ios : IosId) (up : SrmBmapCrcup)

theorem mdslogLoop_place (f : Fcmh) : ∀ (n : ℕ) (extend : Bool) (ws : List SrtBmapCrcwire),
    ∀ e ∈ mdslogLoop fid bno ios f up n extend ws, e.place = (fid, bno)
  | 0, _, _, e, he => by simp [mdslogLoop] at he
  | _ + 1, _, [], e, he => by simp [mdslogLoop] at he
  | n + 1, extend, w :: ws, e, he => by
    rcases mem_cons.mp he with rfl | he
    · rfl
    · exact mdslogLoop_place f n false _ e he

theorem replayLoaded_crcEntry {idx : ℕ}
    (hidx : mdsReplIosLookup env m.f.inode ios = some idx) (f : Fcmh) (extend : Bool)
    (ws : List SrtBmapCrcwire) : replayLoaded env m (crcEntry fid bno ios f up extend ws) =
      if mdsBmapEnsureValid m.f.inode m.b.toBmap then
        some ⟨crcFile m.f idx f.nblks up extend, replayCrcLoop ws m.b⟩
      else none := by
  simp only [replayLoaded, crcEntry, replayCrc, hidx, Loaded.write_eq, replayCrcLoop_toBmap]
  rfl

theorem replay_mdslogLoop (f : Fcmh) {idx : ℕ} : ∀ (n : ℕ) (extend : Bool) (ws : List SrtBmapCrcwire)
    (m : Loaded), ws.length ≤ n → mdsReplIosLookup env m.f.inode ios = some idx → ws ≠ [] →
    (mdslogLoop fid bno ios f up n extend ws).foldlM (replayLoaded env) m =
      if mdsBmapEnsureValid m.f.inode m.b.toBmap then
        some ⟨crcFile m.f idx f.nblks up extend, replayCrcLoop ws m.b⟩
      else none
  | 0, _, ws, _, hn, _, hne => absurd (length_eq_zero_iff.mp (Nat.le_zero.mp hn)) hne
  | n + 1, extend, [], _, _, _, hne => absurd rfl hne
  | n + 1, extend, w :: ws, m, hn, hidx, _ => by
    rw [mdslogLoop, foldlM_cons, replayLoaded_crcEntry env fid bno ios up hidx]
    by_cases hv : mdsBmapEnsureValid m.f.inode m.b.toBmap
    · rw [if_pos hv, if_pos hv]
      have hsplit := take_append_drop sljMdsNcrcs (w :: ws)
      by_cases hd : (w :: ws).drop sljMdsNcrcs = []
      · rw [hd, append_nil] at hsplit
        rw [hd, hsplit]
        cases n <;> rfl
      have hlen : ((w :: ws).drop sljMdsNcrcs).length ≤ n := by
        rw [length_drop]
        simp only [length_cons, sljMdsNcrcs] at hn ⊢
        omega
      -- the rest is replayed on what the first entry left
      have ih := replay_mdslogLoop f n false _
        ⟨crcFile m.f idx f.nblks up extend, replayCrcLoop ((w :: ws).take sljMdsNcrcs) m.b⟩ hlen hidx hd
      simp only [replayCrcLoop_toBmap, crcFile_inode, if_pos hv, crcFile_crcFile, Bool.or_false,
        ← replayCrcLoop_append, hsplit] at ih
      exact ih
    · rw [if_neg hv, if_neg hv]
      rfl

end Chunks

/-! ### The update in closed form -/

variable {env} {ios : IosId} {idx : ℕ}

theorem mdsReplIosLookup_lt {f : Inode} (h : mdsReplIosLookup env f ios = some idx) : idx < f.nrepls := by
  unfold mdsReplIosLookup at h
  split at h
  · rename_i hr
    rw [h] at hr
    exact mem_range.mp (iosSearch_mem env f ios _ hr)
  · cases h

@[simp] theorem updateNblks_inode (idx : ℕ) (up : SrmBmapCrcup) : (updateNblks f idx up).inode = f.inode := by
  unfold updateNblks
  split <;> rfl

@[simp] theorem updateNblks_replpol (idx : ℕ) (up : SrmBmapCrcup) : (updateNblks f idx up).replpol = f.replpol := by
  unfold updateNblks
  split <;> rfl

def TableLogged (m : Loaded) (idx : ℕ) : Prop := retifsetActive (stateAt m.b.repls idx) ≠ 0
  deriving Decidable

theorem activate_rc (hidx : idx < m.f.inode.nrepls) : (activate m idx).rc ≠ some 0 ↔ TableLogged m idx := by
  change some _ ≠ some 0 ↔ _
  rw [Ne, some.injEq]
  refine (mdsReplBmapWalk_rc_ne_zero _ _ _ _ (nodup_singleton idx) (by simpa using hidx)
    m.f.inode.nrepls_le _ _).trans ?_
  simp only [mem_walkTargets_one WalkFlags.none rfl, exists_eq_left]
  rfl

def updated (m : Loaded) (idx : ℕ) (up : SrmBmapCrcup) : Loaded :=
  ⟨updateNblks m.f idx up, updateCrcLoop up.crcs { m.b with toBmap := (activate m idx).bmap }⟩

def entries (fid bno : ℕ) (ios : IosId) (m : Loaded) (idx : ℕ) (up : SrmBmapCrcup) : List Jent :=
  (if TableLogged m idx then
    [.repls (mdslogfillBmapRepls fid bno
      ⟨updateNblks m.f idx up, { m.b with toBmap := (activate m idx).bmap }⟩)] else []) ++
    mdslogBmapCrc fid bno ios (updateNblks m.f idx up) up

variable {up : SrmBmapCrcup}

theorem mdsBmapCrcUpdate_eq_some {m' : Loaded} (hidx : mdsReplIosLookup env m.f.inode ios = some idx)
    (h : mdsBmapCrcUpdate env fid bno ios up m = some (m', es)) :
    mdsBmapEnsureValid m.f.inode (activate m idx).bmap ∧ m' = updated m idx up ∧
      es = entries fid bno ios m idx up := by
  have hact : activate ⟨updateNblks m.f idx up, m.b⟩ idx = activate m idx := by
    simp only [activate, updateNblks_inode]
  simp only [mdsBmapCrcUpdate, hidx, hact, Loaded.write_eq, updateCrcLoop_toBmap, updateNblks_inode,
    activate_rc (mdsReplIosLookup_lt hidx)] at h
  by_cases hv : mdsBmapEnsureValid m.f.inode (activate m idx).bmap = true
  · refine ⟨hv, ?_⟩
    unfold entries
    split_ifs at h with hl
    · rw [if_pos hl]
      obtain ⟨rfl, rfl⟩ := Prod.mk.inj (some.inj h)
      exact ⟨rfl, rfl⟩
    rw [if_neg hl]
    obtain ⟨rfl, rfl⟩ := Prod.mk.inj (some.inj h)
    exact ⟨rfl, rfl⟩
  · simp [hv] at h

theorem entries_place (fid bno : ℕ) (ios : IosId) (m : Loaded) (idx : ℕ) (up : SrmBmapCrcup) :
    ∀ e ∈ entries fid bno ios m idx up, e.place = (fid, bno) := by
  intro e he
  rcases mem_append.mp he with he | he
  · split at he
    · rw [mem_singleton.mp he]
      rfl
    · cases he
  · exact mdslogLoop_place fid bno ios up _ _ _ _ e he

/-! ### Its replay in closed form -/

/-- The bmap on which the checksums are replayed. -/
def onTable (m : Loaded) (idx : ℕ) (b : Bmapod) : Bmapod :=
  if TableLogged m idx then
    { b with replpol := m.f.replpol, repls := reissueWalk m.f.inode (activate m idx).bmap.repls }
  else b

theorem onTable_crcs (m : Loaded) (idx : ℕ) (b : Bmapod) : (onTable m idx b).crcs = b.crcs := by
  unfold onTable
  split <;> rfl

theorem onTable_crcstates (m : Loaded) (idx : ℕ) (b : Bmapod) : (onTable m idx b).crcstates = b.crcstates := by
  unfold onTable
  split <;> rfl

theorem onTable_gen (m : Loaded) (idx : ℕ) (b : Bmapod) : (onTable m idx b).gen = b.gen := by
  unfold onTable
  split <;> rfl

theorem onTable_of_toBmap {b b' : Bmapod} (h : b'.toBmap = (onTable m idx b).toBmap) : onTable m idx b' = b' := by
  unfold onTable at h ⊢
  split_ifs with hl
  · rw [if_pos hl] at h
    have hrepls : b'.repls = reissueWalk m.f.inode (activate m idx).bmap.repls := by rw [h]
    have hpol : b'.replpol = m.f.replpol := by rw [h]
    rw [← hrepls, ← hpol]
  · rfl

def replayedFile (m : Loaded) (idx : ℕ) (up : SrmBmapCrcup) (f : Fcmh) : Fcmh :=
  if up.crcs = [] then f else crcFile f idx (updateNblks m.f idx up).nblks up up.extend

theorem replay_entries (hidx : mdsReplIosLookup env m.f.inode ios = some idx)
    (hv : mdsBmapEnsureValid m.f.inode (activate m idx).bmap) {n : Loaded} (hn : n.f.inode = m.f.inode) :
    (entries fid bno ios m idx up).foldlM (replayLoaded env) n =
      if up.crcs = [] ∨ mdsBmapEnsureValid m.f.inode (onTable m idx n.b).toBmap = true then
        some ⟨replayedFile m idx up n.f, replayCrcLoop up.crcs (onTable m idx n.b)⟩
      else none := by
  have htable : (if TableLogged m idx then
      [Jent.repls (mdslogfillBmapRepls fid bno ⟨updateNblks m.f idx up, { m.b with toBmap := (activate m idx).bmap }⟩)]
      else []).foldlM (replayLoaded env) n = some ⟨n.f, onTable m idx n.b⟩ := by
    unfold onTable
    split
    · have hc : mdsBreplsCheck (activate m idx).bmap.repls m.f.inode.nrepls :=
        (mdsBreplsCheck_iff _ _).mpr ⟨m.f.inode.nrepls_le, (mdsBmapEnsureValid_iff _ _).mp hv⟩
      have := replayRepls_eq n (mdslogfillBmapRepls fid bno
        ⟨updateNblks m.f idx up, { m.b with toBmap := (activate m idx).bmap }⟩)
        (by simp [mdslogfillBmapRepls, hn]) (by simpa [mdslogfillBmapRepls] using hc)
      simp only [foldlM_cons, foldlM_nil, replayLoaded, this]
      simp [mdslogfillBmapRepls, hn]
    · rfl
  rw [entries, foldlM_append, htable]
  by_cases hws : up.crcs = []
  · simp [hws, mdslogBmapCrc, mdslogLoop, replayedFile, replayCrcLoop]
  refine (replay_mdslogLoop env fid bno ios up _ _ _ up.crcs ⟨n.f, onTable m idx n.b⟩ le_rfl
    (by rw [← hidx, ← hn]) hws).trans ?_
  simp [hws, hn, replayedFile]

/-! ### When the two agree -/

/-- The same CRCs, replicas, generation and blocks. -/
structure Agrees (m n : Loaded) : Prop where
  crcs : m.b.crcs = n.b.crcs
  crcstates : m.b.crcstates = n.b.crcstates
  table : ∀ k, stateAt m.b.repls k = stateAt n.b.repls k
  gen : m.b.gen = n.b.gen
  replNblks : m.f.replNblks = n.f.replNblks
  nblks : m.f.nblks = n.f.nblks

def TableKept (m : Loaded) (idx : ℕ) : Prop :=
  if TableLogged m idx then
    stateAt m.b.repls idx ≠ .replSched ∧ ∀ k < m.f.inode.nrepls, stateAt m.b.repls k ≠ .garbageSched
  else
    stateAt m.b.repls idx = .valid ∧ ∀ k < m.f.inode.nrepls, k ≠ idx → stateAt m.b.repls k ≠ .replSched

instance (m : Loaded) (idx : ℕ) : Decidable (TableKept m idx) :=
  inferInstanceAs (Decidable (if TableLogged m idx then _ else _))

/-- The update changes nothing that its entry does not log. -/
structure Replayable (m : Loaded) (idx : ℕ) (up : SrmBmapCrcup) : Prop where
  blocks : up.crcs ≠ [] ∨ up.nblks = m.f.replNblks idx
  flags : ∀ x ∈ slots up.crcs, m.b.crcstates x ||| slvrDataCrc = slvrDataCrc
  gen : ¬ OtherValid m.f.inode m.b.toBmap idx
  table : TableKept m idx

theorem tractActive_move_eq_self (h : retifsetActive s = 0) : tractActive.move s = s ↔ s = .valid := by
  cases s <;> simp_all [Tract.move, tractActive, retifsetActive, brepInitIdx, Breplst.code]

theorem tractOther_move_eq_self {pol : Brpol} (h : s ≠ .valid) : (tractOther pol).move s = s ↔ s ≠ .replSched := by
  cases s <;> simp_all [Tract.move, tractOther]

theorem reissued_tractActive (h : retifsetActive s ≠ 0) :
    reissued (tractActive.move s) = tractActive.move s ↔ s ≠ .replSched ∧ s ≠ .garbageSched := by
  cases s <;> simp_all [Tract.move, tractActive, retifsetActive, reissued]

theorem reissued_tractOther (pol : Brpol) (s : Breplst) :
    reissued ((tractOther pol).move s) = (tractOther pol).move s ↔ s ≠ .garbageSched := by
  cases s <;> cases pol <;> simp [Tract.move, tractOther, reissued]

theorem activate_stateAt (hidx : idx < m.f.inode.nrepls) (k : ℕ) : stateAt (activate m idx).bmap.repls k =
      if k = idx then tractActive.move (stateAt m.b.repls idx)
      else if k < m.f.inode.nrepls then (tractOther m.b.replpol).move (stateAt m.b.repls k)
      else stateAt m.b.repls k :=
  mdsReplInvExceptDefer_stateAt m.f.inode m.b.toBmap true ⟨0, false⟩ hidx k

theorem activate_gen (hidx : idx < m.f.inode.nrepls) :
    m.b.gen = (activate m idx).bmap.gen ↔ ¬ OtherValid m.f.inode m.b.toBmap idx := by
  have h := mdsReplInvExceptDefer_gen m.f.inode m.b.toBmap true ⟨0, false⟩ hidx
  rw [activate, h]
  split_ifs with ho
  · refine iff_of_false (fun hg => ?_) (fun hn => hn ho)
    have h1 := congrArg BitVec.toNat hg
    rw [BitVec.toNat_add] at h1
    have h2 : (1 : BitVec 32).toNat = 1 := rfl
    omega
  · exact iff_of_true rfl ho

theorem onTable_stateAt_iff (hidx : idx < m.f.inode.nrepls) (ho : ¬ OtherValid m.f.inode m.b.toBmap idx) :
    (∀ k, stateAt (onTable m idx m.b).repls k = stateAt (activate m idx).bmap.repls k) ↔ TableKept m idx := by
  have hne : ∀ k < m.f.inode.nrepls, k ≠ idx → stateAt m.b.repls k ≠ .valid := fun k hk hki hv => ho ⟨k, hk, hki, hv⟩
  unfold onTable TableKept
  split_ifs with hl
  · simp only [reissueWalk_stateAt]
    constructor
    · intro h
      have hself := h idx
      rw [if_pos hidx, activate_stateAt hidx, if_pos rfl, reissued_tractActive hl] at hself
      refine ⟨hself.1, fun k hk => ?_⟩
      by_cases hki : k = idx
      · rw [hki]
        exact hself.2
      · have hother := h k
        rwa [if_pos hk, activate_stateAt hidx, if_neg hki, if_pos hk, reissued_tractOther] at hother
    · rintro ⟨hrs, hgs⟩ k
      split_ifs with hk
      · rw [activate_stateAt hidx]
        split
        · exact (reissued_tractActive hl).mpr ⟨hrs, hgs idx hidx⟩
        · exact (reissued_tractOther _ _).mpr (hgs k hk)
      · rfl
  · have hl : retifsetActive (stateAt m.b.repls idx) = 0 := not_not.mp hl
    constructor
    · intro h
      have hself := h idx
      rw [activate_stateAt hidx, if_pos rfl] at hself
      refine ⟨(tractActive_move_eq_self hl).mp hself.symm, fun k hk hki => ?_⟩
      have hother := h k
      rw [activate_stateAt hidx, if_neg hki, if_pos hk] at hother
      exact (tractOther_move_eq_self (hne k hk hki)).mp hother.symm
    · rintro ⟨hv, hrs⟩ k
      rw [activate_stateAt hidx]
      split
      · rename_i hki
        rw [hki]
        exact ((tractActive_move_eq_self hl).mpr hv).symm
      rename_i hki
      split_ifs with hk
      · exact ((tractOther_move_eq_self (hne k hk hki)).mpr (hrs k hk hki)).symm
      · rfl

theorem crcstates_agree_iff (ws : List SrtBmapCrcwire) (b b' : Bmapod) (hb : b.crcstates = b'.crcstates) :
    (replayCrcLoop ws b).crcstates = (updateCrcLoop ws b').crcstates ↔
      ∀ x ∈ slots ws, b.crcstates x ||| slvrDataCrc = slvrDataCrc := by
  constructor
  · intro h x hx
    rw [← replayCrcLoop_crcstates_of_mem hx b, h, updateCrcLoop_crcstates_of_mem hx]
  · intro h
    funext x
    by_cases hx : x ∈ slots ws
    · rw [replayCrcLoop_crcstates_of_mem hx, updateCrcLoop_crcstates_of_mem hx]
      exact h x hx
    · rw [replayCrcLoop_crcstates_of_notMem hx, updateCrcLoop_crcstates_of_notMem hx, hb]

theorem blocks_agree_iff (up : SrmBmapCrcup) :
    ((replayedFile m idx up m.f).replNblks = (updateNblks m.f idx up).replNblks ∧
      (replayedFile m idx up m.f).nblks = (updateNblks m.f idx up).nblks) ↔
      (up.crcs ≠ [] ∨ up.nblks = m.f.replNblks idx) := by
  by_cases hws : up.crcs = []
  · have hfile : replayedFile m idx up m.f = m.f := if_pos hws
    rw [hfile, or_iff_right (not_not.mpr hws)]
    unfold updateNblks
    split
    · rename_i hne
      refine iff_of_false (fun h => hne ?_) hne
      exact ((congrFun h.1 idx).trans (update_self ..)).symm
    · rename_i heq
      exact iff_of_true ⟨rfl, rfl⟩ (not_not.mp heq)
  · have hfile : replayedFile m idx up m.f = crcFile m.f idx (updateNblks m.f idx up).nblks up up.extend := if_neg hws
    rw [hfile]
    refine iff_of_true ⟨?_, rfl⟩ (.inl hws)
    unfold updateNblks crcFile
    split
    · rfl
    · rename_i heq
      rw [not_not.mp heq, update_eq_self]

theorem agrees_iff (hidx : idx < m.f.inode.nrepls) (up : SrmBmapCrcup) :
    Agrees ⟨replayedFile m idx up m.f, replayCrcLoop up.crcs (onTable m idx m.b)⟩ (updated m idx up) ↔
      Replayable m idx up := by
  have hrepls : ∀ b, (replayCrcLoop up.crcs b).repls = b.repls := fun b => by rw [replayCrcLoop_toBmap]
  have hgen : ∀ b, (replayCrcLoop up.crcs b).gen = b.gen := fun b => by rw [replayCrcLoop_toBmap]
  have hrepls' : ∀ b, (updateCrcLoop up.crcs b).repls = b.repls := fun b => by rw [updateCrcLoop_toBmap]
  have hgen' : ∀ b, (updateCrcLoop up.crcs b).gen = b.gen := fun b => by rw [updateCrcLoop_toBmap]
  have hflags := crcstates_agree_iff up.crcs (onTable m idx m.b)
    { m.b with toBmap := (activate m idx).bmap } (onTable_crcstates m idx m.b)
  rw [onTable_crcstates] at hflags
  constructor
  · rintro ⟨-, hst, htable, hg, hr, hn⟩
    simp only [updated, hgen, hgen', onTable_gen] at hg
    simp only [updated, hrepls, hrepls'] at htable
    have ho := (activate_gen hidx).mp hg
    exact ⟨(blocks_agree_iff up).mp ⟨hr, hn⟩, hflags.mp hst, ho, (onTable_stateAt_iff hidx ho).mp htable⟩
  · rintro ⟨hblocks, hfl, ho, htable⟩
    obtain ⟨hr, hn⟩ := (blocks_agree_iff up).mpr hblocks
    refine ⟨?_, hflags.mpr hfl, ?_, ?_, hr, hn⟩
    · simp only [updated, replayCrcLoop_crcs, updateCrcLoop_crcs, onTable_crcs]
    · simp only [updated, hrepls, hrepls']
      exact (onTable_stateAt_iff hidx ho).mpr htable
    · simp only [updated, hgen, hgen', onTable_gen]
      exact (activate_gen hidx).mpr ho

theorem onTable_ensureValid (hidx : idx < m.f.inode.nrepls) (h : Replayable m idx up)
    (hv : mdsBmapEnsureValid m.f.inode (activate m idx).bmap) :
    mdsBmapEnsureValid m.f.inode (onTable m idx m.b).toBmap := by
  obtain ⟨k, hk, hd⟩ := (mdsBmapEnsureValid_iff _ _).mp hv
  refine (mdsBmapEnsureValid_iff _ _).mpr ⟨k, hk, ?_⟩
  rw [(onTable_stateAt_iff hidx h.gen).mpr h.table k]
  exact hd

theorem replayedFile_twice (m : Loaded) (idx : ℕ) (up : SrmBmapCrcup) (f : Fcmh) :
    replayedFile m idx up (replayedFile m idx up f) = replayedFile m idx up f := by
  unfold replayedFile
  split
  · rfl
  · rw [crcFile_crcFile, Bool.or_self]

/-- **A checksum update and its replay** agree exactly if it is `Replayable`. -/
theorem crcUpdate_replay_iff {env : LookupEnv} {s : Fs} {ios : IosId} {up : SrmBmapCrcup}
    {m m' : Loaded} {es : List Jent} {idx : ℕ} (hload : s.load fid bno = some m)
    (hidx : mdsReplIosLookup env m.f.inode ios = some idx)
    (hlive : mdsBmapCrcUpdate env fid bno ios up m = some (m', es)) :
    ((∃ t n, replayAll env s es = some t ∧ t.load fid bno = some n ∧ Agrees n m') ↔ Replayable m idx up) ∧
      ∀ t, replayAll env s es = some t → replayAll env t es = some t := by
  obtain ⟨hv, rfl, rfl⟩ := mdsBmapCrcUpdate_eq_some hidx hlive
  have hlt := mdsReplIosLookup_lt hidx
  have hall := replayAll_eq env (entries_place fid bno ios m idx up) hload
  rw [replay_entries hidx hv rfl] at hall
  refine ⟨⟨?_, fun h => ?_⟩, fun t ht => ?_⟩
  · rintro ⟨t, n, ht, hn, hagree⟩
    rw [hall] at ht
    obtain ⟨n', hn', rfl⟩ := map_eq_some_iff.mp ht
    obtain ⟨-, hn'⟩ := ite_none_right_eq_some.mp hn'
    cases hn'
    rw [Fs.load_save] at hn
    cases hn
    exact (agrees_iff hlt up).mp hagree
  · rw [if_pos (.inr (onTable_ensureValid hlt h hv))] at hall
    exact ⟨_, _, hall, Fs.load_save .., (agrees_iff hlt up).mpr h⟩
  · rw [hall] at ht
    obtain ⟨n, hn, rfl⟩ := map_eq_some_iff.mp ht
    obtain ⟨hor, hn⟩ := ite_none_right_eq_some.mp hn
    cases hn
    have hinode : (replayedFile m idx up m.f).inode = m.f.inode := by
      unfold replayedFile
      split <;> rfl
    -- the second time the table, the file and the checksums are there already
    have htable := onTable_of_toBmap (replayCrcLoop_toBmap up.crcs (onTable m idx m.b))
    rw [replayAll_eq env (entries_place fid bno ios m idx up) (Fs.load_save ..), replay_entries hidx hv hinode]
    rw [htable, replayCrcLoop_toBmap, if_pos hor, replayCrcLoop_twice, replayedFile_twice, map_some, Fs.save_save]

def slot0 : Fin slashSlvrsPerBmap := ⟨0, by decide⟩

/-- One checksum and new blocks for the only replica. -/
theorem crcUpdate_replay_valid :
    let env : LookupEnv := ⟨0, Int.le_refl 0, fun _ => true⟩
    let m : Loaded := ⟨fcmhOf 1 (by decide) .onetime, bmapodOf [.valid] 0 .onetime⟩
    let s : Fs := ⟨fun _ => some m.f, fun _ _ => m.b⟩
    ∃ m' es, mdsBmapCrcUpdate env 5 0 1 ⟨100, 8, 0, true, [⟨7, slot0⟩]⟩ m = some (m', es) ∧ m'.f.nblks = 8 ∧
      (∃ t n, replayAll env s es = some t ∧ t.load 5 0 = some n ∧ Agrees n m') ∧
      ∀ t, replayAll env s es = some t → replayAll env t es = some t := by
  intro env m s
  have hsome : (mdsBmapCrcUpdate env 5 0 1 ⟨100, 8, 0, true, [⟨7, slot0⟩]⟩ m).isSome = true := by decide
  have hnblks : ∀ r ∈ mdsBmapCrcUpdate env 5 0 1 ⟨100, 8, 0, true, [⟨7, slot0⟩]⟩ m, r.1.f.nblks = 8 := by
    decide
  obtain ⟨⟨m', es⟩, hlive⟩ := isSome_iff_exists.mp hsome
  have hidx : mdsReplIosLookup env m.f.inode 1 = some 0 := by decide
  have h := crcUpdate_replay_iff (s := s) rfl hidx hlive
  refine ⟨m', es, hlive, hnblks _ hlive, h.1.mpr ⟨.inl (by decide), ?_, ?_, ?_⟩, h.2⟩ <;> decide

/-- A server's first write, over a sliver with a flag of its own. -/
theorem crcUpdate_replay_lost :
    let env : LookupEnv := ⟨0, Int.le_refl 0, fun _ => true⟩
    let m : Loaded := ⟨fcmhOf 2 (by decide) .onetime,
      { bmapodOf [.valid, .invalid] 0 .onetime with crcstates := fun _ => 8 }⟩
    let s : Fs := ⟨fun _ => some m.f, fun _ _ => m.b⟩
    ∃ r ∈ mdsBmapCrcUpdate env 5 0 2 ⟨100, 8, 0, true, [⟨7, slot0⟩]⟩ m, ∃ t ∈ replayAll env s r.2,
      stateAt r.1.b.repls 0 = .garbage ∧ stateAt r.1.b.repls 1 = .valid ∧ r.1.b.gen = 1 ∧
      r.1.b.crcstates slot0 = 3 ∧ stateAt (t.bmap 5 0).repls 0 = .valid ∧
      stateAt (t.bmap 5 0).repls 1 = .invalid ∧ (t.bmap 5 0).gen = 0 ∧ (t.bmap 5 0).crcstates slot0 = 11 := by
  decide

end Slash2.Journal
