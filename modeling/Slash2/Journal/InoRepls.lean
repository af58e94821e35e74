/-
# Replaying the replica list of an inode

The first four replicas of a file are listed in its inode, the others in an extension
block further on in the metadata file, which is there only if it was needed. A change of
the list is journaled as one entry with room for all 64, and on a restart
`mds_replay_ino` splits it up again.

Key theorem: `inoRepls_restored_iff`.
-/
import Slash2.Residency.Activate

namespace Slash2.InoRepls

open Residency Option Function

/-! ### The metadata file -/

/-- The part of `struct slm_ino_od` that the entry is about. -/
structure Ino where
  nrepls : ℕ
  /-- `ino_replpol`: the policy for new bmaps -/
  replpol : BitVec 32
  repls : Vector IosId slDefReplicas

/-- `struct slm_inox_od` -/
structure Inox where
  snaps : ℤ × ℤ × ℤ
  repls : Vector IosId slInoxNreplicas
  replNblks : Vector (BitVec 64) slInoxNreplicas
  deriving DecidableEq

/-- What `PSCALLOC` gives. -/
def Inox.zero : Inox := ⟨(0, 0, 0), Vector.replicate _ 0, Vector.replicate _ 0⟩

/-- What a metadata file has at `SL_EXTRAS_START_OFF`. -/
inductive Ext where
  | eof
  | hole
  | written (x : Inox) (crc : BitVec 64)
  deriving DecidableEq

/-- A file: its inode, the extension in memory (`inoh_extras`), and on disk. -/
structure Meta where
  ino : Ino
  extras : Option Inox
  ext : Ext

def fidAny : ℕ := 0xffffffffffffffff

/-- `mdsio_preadv` into the buffer and the checksum variable, and whether all was read. -/
def Ext.preadv (g : BitVec 64) : Ext → Inox × BitVec 64 × Bool
  | .eof => (Inox.zero, g, false)
  | .hole => (Inox.zero, 0, true)
  | .written x c => (x, c, true)

section Load

variable (crc64 : Inox → BitVec 64)

/-- `mds_inox_load_locked`: the extension, or nothing. -/
def mdsInoxLoadLocked (g : BitVec 64) (ext : Ext) : Option Inox :=
  let (x, odCrc, full) := ext.preadv g
  if odCrc = 0 ∧ x = Inox.zero then some x
  -- -SLERR_SHORTIO
  else if full = false then none
  -- -PFLERR_BADCRC
  else if crc64 x ≠ odCrc then none
  else some x

def mdsInoxEnsureLoaded (g : BitVec 64) (m : Meta) : Meta :=
  match m.extras with
  | some _ => m
  | none => { m with extras := mdsInoxLoadLocked crc64 g m.ext }

/-- `struct slmds_jent_ino_repls` -/
structure SlmdsJentInoRepls where
  fid : ℕ
  replpol : BitVec 32
  nrepls : ℕ
  repls : Vector IosId slMaxReplicas

def pack (lo : Vector IosId slDefReplicas) (hi : Vector IosId slInoxNreplicas) : Vector IosId slMaxReplicas :=
  Vector.ofFn fun i => if i < slDefReplicas then lo[i.val]?.getD 0 else hi[i - slDefReplicas]?.getD 0

/-- `mdslogfill_ino_repls`, for a regular file. -/
def mdslogfillInoRepls (fid : ℕ) (m : Meta) (buf : Vector IosId slInoxNreplicas) : Option SlmdsJentInoRepls :=
  if m.ino.nrepls = 0 then none
  else if m.ino.nrepls > slDefReplicas then
    m.extras.map fun x => ⟨fid, m.ino.replpol, m.ino.nrepls, pack m.ino.repls x.repls⟩
  else some ⟨fid, m.ino.replpol, m.ino.nrepls, pack m.ino.repls buf⟩

def SlmdsJentInoRepls.lo (e : SlmdsJentInoRepls) : Vector IosId slDefReplicas :=
  Vector.ofFn fun i => e.repls[i.val]?.getD 0

def SlmdsJentInoRepls.hi (e : SlmdsJentInoRepls) : Vector IosId slInoxNreplicas :=
  Vector.ofFn fun i => e.repls[slDefReplicas + i.val]?.getD 0

/-- The body of `mds_replay_ino` for a regular file. -/
def replayMeta (g : BitVec 64) (m : Meta) (e : SlmdsJentInoRepls) : Option Meta :=
  -- sanity check against null buffer
  if ∀ id ∈ e.repls, id = 0 then none
  else if slMaxReplicas < e.nrepls then none
  else if slDefReplicas < e.nrepls then
    -- whether the extension could be loaded is not looked at
    match (mdsInoxEnsureLoaded crc64 g m).extras with
    | none => none
    | some x =>
      let x' := { x with repls := e.hi }
      some ⟨⟨e.nrepls, e.replpol, e.lo⟩, some x', .written x' (crc64 x')⟩
  else some { m with ino := ⟨e.nrepls, e.replpol, e.lo⟩ }

/-- `mds_replay_ino` on the files by ID. -/
def mdsReplayIno (g : BitVec 64) (s : ℕ → Option Meta) (e : SlmdsJentInoRepls) : Option (ℕ → Option Meta) :=
  if e.fid = fidAny then some s
  else match s e.fid with
    | none => some s
    | some m => (replayMeta crc64 g m e).map fun m' => update s e.fid (some m')

/-! ### Packing and unpacking -/

theorem pack_getElem? (lo : Vector IosId slDefReplicas) (hi : Vector IosId slInoxNreplicas) {i : ℕ}
    (h : i < slMaxReplicas) : (pack lo hi)[i]? =
      some (if i < slDefReplicas then lo[i]?.getD 0 else hi[i - slDefReplicas]?.getD 0) := by
  rw [Vector.getElem?_eq_getElem h, pack, Vector.getElem_ofFn]

section
variable (fid n : ℕ) (pol : BitVec 32) (lo : Vector IosId slDefReplicas) (hi : Vector IosId slInoxNreplicas)
include fid n pol lo hi

theorem lo_pack : (SlmdsJentInoRepls.mk fid pol n (pack lo hi)).lo = lo := by
  ext i h
  have hmax : i < slMaxReplicas := Nat.lt_trans h (by decide)
  rw [SlmdsJentInoRepls.lo, Vector.getElem_ofFn, pack_getElem? lo hi hmax, getD_some, if_pos h,
    Vector.getElem?_eq_getElem h, getD_some]

theorem hi_pack : (SlmdsJentInoRepls.mk fid pol n (pack lo hi)).hi = hi := by
  ext i h
  have hmax : slDefReplicas + i < slMaxReplicas := Nat.add_lt_add_left h slDefReplicas
  rw [SlmdsJentInoRepls.hi, Vector.getElem_ofFn, pack_getElem? lo hi hmax, getD_some,
    if_neg (Nat.not_lt.mpr (Nat.le_add_right ..)), Nat.add_sub_cancel_left, Vector.getElem?_eq_getElem h, getD_some]

end

theorem mem_pack (lo : Vector IosId slDefReplicas) (hi : Vector IosId slInoxNreplicas) : lo[0]?.getD 0 ∈ pack lo hi :=
  Vector.mem_of_getElem? (i := 0) (pack_getElem? lo hi (by decide))

theorem mdsInoxLoadLocked_isSome_iff (g : BitVec 64) {ext : Ext} (hcrc : ∀ x c, ext = .written x c → c = crc64 x) :
    (mdsInoxLoadLocked crc64 g ext).isSome ↔ ext ≠ .eof ∨ g = 0 := by
  cases ext with
  | eof =>
    simp [mdsInoxLoadLocked, Ext.preadv]
  | hole => simp [mdsInoxLoadLocked, Ext.preadv]
  | written x c =>
    obtain rfl := hcrc x c rfl
    simp [mdsInoxLoadLocked, Ext.preadv]

theorem mdsInoxEnsureLoaded_isSome_iff (g : BitVec 64) {m : Meta} (hcrc : ∀ x c, m.ext = .written x c → c = crc64 x) :
    (mdsInoxEnsureLoaded crc64 g m).extras.isSome ↔ m.extras ≠ none ∨ m.ext ≠ .eof ∨ g = 0 := by
  unfold mdsInoxEnsureLoaded
  cases hx : m.extras with
  | some => simp [hx]
  | none => simpa using mdsInoxLoadLocked_isSome_iff crc64 g hcrc

/-- On disk `m'` has the replicas and policy of `m` in memory. -/
structure Restored (m m' : Meta) : Prop where
  nrepls : m'.ino.nrepls = m.ino.nrepls
  replpol : m'.ino.replpol = m.ino.replpol
  repls : m'.ino.repls = m.ino.repls
  inoxRepls : slDefReplicas < m.ino.nrepls →
    ∃ x x', m.extras = some x ∧ m'.ext = .written x' (crc64 x') ∧ x'.repls = x.repls

theorem mdslogfillInoRepls_eq_some {fid : ℕ} {m : Meta} {buf : Vector IosId slInoxNreplicas}
    {e : SlmdsJentInoRepls} (he : mdslogfillInoRepls fid m buf = some e) :
    0 < m.ino.nrepls ∧ ∃ hi, e = ⟨fid, m.ino.replpol, m.ino.nrepls, pack m.ino.repls hi⟩ ∧
      (slDefReplicas < m.ino.nrepls → ∃ x, m.extras = some x ∧ hi = x.repls) := by
  obtain ⟨hpos, he⟩ := ite_none_left_eq_some.mp he
  refine ⟨Nat.pos_of_ne_zero hpos, ?_⟩
  split_ifs at he with hle
  · obtain ⟨x, hx, rfl⟩ := map_eq_some_iff.mp he
    exact ⟨x.repls, rfl, fun _ => ⟨x, hx, rfl⟩⟩
  · cases he
    exact ⟨buf, rfl, fun hlt => absurd hlt hle⟩

/-- **A replica list is restored** exactly if it is short, the extension is there, or the variable is zero. -/
theorem inoRepls_restored_iff (g : BitVec 64) {s : ℕ → Option Meta} {fid : ℕ} (hfid : fid ≠ fidAny)
    {m₀ m : Meta} (hs : s fid = some m₀) (hcrc : ∀ x c, m₀.ext = .written x c → c = crc64 x)
    {buf : Vector IosId slInoxNreplicas} {e : SlmdsJentInoRepls}
    (he : mdslogfillInoRepls fid m buf = some e) (hn : m.ino.nrepls ≤ slMaxReplicas)
    (hid : m.ino.repls[0]?.getD 0 ≠ 0) :
    (∃ t m', mdsReplayIno crc64 g s e = some t ∧ t fid = some m' ∧ Restored crc64 m m') ↔
      m.ino.nrepls ≤ slDefReplicas ∨ m₀.extras ≠ none ∨ m₀.ext ≠ .eof ∨ g = 0 := by
  obtain ⟨-, hi, rfl, hx⟩ := mdslogfillInoRepls_eq_some he
  have hreplay : mdsReplayIno crc64 g s ⟨fid, m.ino.replpol, m.ino.nrepls, pack m.ino.repls hi⟩ =
      (replayMeta crc64 g m₀ ⟨fid, m.ino.replpol, m.ino.nrepls, pack m.ino.repls hi⟩).map
        fun m' => update s fid (some m') := by
    simp [mdsReplayIno, hfid, hs]
  have hnull : ¬ ∀ id ∈ pack m.ino.repls hi, id = 0 := fun h => hid (h _ (mem_pack ..))
  rw [hreplay, replayMeta, if_neg hnull, if_neg (Nat.not_lt.mpr hn), lo_pack, hi_pack]
  split_ifs with hlong
  · rw [or_iff_right (Nat.not_le.mpr hlong), ← mdsInoxEnsureLoaded_isSome_iff crc64 g hcrc]
    obtain ⟨x, hmx, rfl⟩ := hx hlong
    cases hload : (mdsInoxEnsureLoaded crc64 g m₀).extras with
    | none => simp
    | some =>
      refine iff_of_true ⟨_, _, rfl, update_self .., rfl, rfl, rfl, fun _ => ?_⟩ rfl
      exact ⟨x, _, hmx, rfl, rfl⟩
  · refine iff_of_true ⟨_, _, rfl, update_self .., rfl, rfl, rfl, fun h => ?_⟩ (.inl (Nat.not_lt.mp hlong))
    exact absurd h hlong

end Load

/-- A file with replicas 1 to `n`. -/
def metaOf (n : ℕ) (extras : Option Inox) (ext : Ext) : Meta :=
  ⟨⟨n, 0, Vector.ofFn fun i => i + 1⟩, extras, ext⟩

def inoxOf : Inox := { Inox.zero with repls := Vector.ofFn fun i => i + 5 }

/-- Five replicas, over a file with a bmap and no extension. -/
theorem inoRepls_restored_hole : ∃ t m', mdsReplayIno (fun _ => 7) 1 (fun _ => some (metaOf 1 none .hole))
        ⟨9, 0, 5, pack (Vector.ofFn fun i => i + 1) inoxOf.repls⟩ = some t ∧ t 9 = some m' ∧
      Restored (fun _ => 7) (metaOf 5 (some inoxOf) .hole) m' :=
  have he : mdslogfillInoRepls 9 (metaOf 5 (some inoxOf) .hole) (Vector.replicate _ 0) =
      some ⟨9, 0, 5, pack (Vector.ofFn fun i => i + 1) inoxOf.repls⟩ := rfl
  (inoRepls_restored_iff (fun _ => 7) 1 (by decide) rfl
    (fun x c h => by cases h) he (by decide) (by decide)).mpr (.inr (.inr (.inl (by decide))))

/-- The same without a bmap: the file ends before the extension. -/
theorem inoRepls_not_restored : ∃ e ∈ mdslogfillInoRepls 9 (metaOf 5 (some inoxOf) .eof) (Vector.replicate _ 0),
      (mdsReplayIno (fun _ => 7) 1 (fun _ => some (metaOf 1 none .eof)) e).isNone = true := by
  decide

end Slash2.InoRepls
