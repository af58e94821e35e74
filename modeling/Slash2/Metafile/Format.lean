/-
# The metadata file of a file, in two versions

The MDS keeps the inode of a file, an extension with more replicas and one record for each
bmap in a metadata file, each block followed by its checksum. Version 2 of the format added
block counts to the inode and the extension, which moved the extension from `0x400` to
`0x200` and the bmaps from `0x1000` to `0x600`.

Key theorem: `bmap_record_iff`.
-/
import Slash2.Lib.Layout
import Slash2.Residency.Activate

namespace Slash2.Metafile

open Lib Lib.Bytes Residency

/-! ### Blocks -/

def inoVersion : BitVec 16 := 2

/-- `struct slm_ino_od` -/
structure InoOd where
  version : BitVec 16
  flags : BitVec 16
  bsz : BitVec 32
  nrepls : BitVec 32
  replpol : BitVec 32
  repls : Vector (BitVec 32) slDefReplicas
  replNblks : Vector (BitVec 64) slDefReplicas
  deriving DecidableEq

def InoOd.layout : Layout InoOd :=
  ((Layout.word 2).prod <| (Layout.word 2).prod <| (Layout.word 4).prod <| (Layout.word 4).prod <|
      (Layout.word 4).prod <| ((Layout.word 4).vec slDefReplicas).prod <| (Layout.word 8).vec slDefReplicas).iso
    (fun (a, b, c, d, e, r, k) => ⟨a, b, c, d, e, r, k⟩)
    (fun i => (i.version, i.flags, i.bsz, i.nrepls, i.replpol, i.repls, i.replNblks)) fun _ => rfl

structure InoV1 where
  version : BitVec 16
  flags : BitVec 16
  bsz : BitVec 32
  nrepls : BitVec 32
  replpol : BitVec 32
  repls : Vector (BitVec 32) slDefReplicas
  deriving DecidableEq

def InoV1.layout : Layout InoV1 :=
  ((Layout.word 2).prod <| (Layout.word 2).prod <| (Layout.word 4).prod <| (Layout.word 4).prod <|
      (Layout.word 4).prod <| (Layout.word 4).vec slDefReplicas).iso
    (fun (a, b, c, d, e, r) => ⟨a, b, c, d, e, r⟩)
    (fun i => (i.version, i.flags, i.bsz, i.nrepls, i.replpol, i.repls)) fun _ => rfl

/-- `struct slm_inox_od` -/
structure InoxOd where
  /-- `sn_off`, `sn_nblks` and `sn_date` of the one snapshot -/
  snaps : Vector (BitVec 64) 3
  repls : Vector (BitVec 32) slInoxNreplicas
  replNblks : Vector (BitVec 64) slInoxNreplicas
  deriving DecidableEq

def InoxOd.layout : Layout InoxOd :=
  (((Layout.word 8).vec 3).prod <| ((Layout.word 4).vec slInoxNreplicas).prod <|
      (Layout.word 8).vec slInoxNreplicas).iso
    (fun (s, r, k) => ⟨s, r, k⟩) (fun x => (x.snaps, x.repls, x.replNblks)) fun _ => rfl

/-- What `PSCALLOC` gives. -/
def InoxOd.zero : InoxOd := ⟨Vector.replicate _ 0, Vector.replicate _ 0, Vector.replicate _ 0⟩

structure InoxV1 where
  snaps : Vector (BitVec 64) 3
  repls : Vector (BitVec 32) slInoxNreplicas

def InoxV1.layout : Layout InoxV1 :=
  (((Layout.word 8).vec 3).prod <| (Layout.word 4).vec slInoxNreplicas).iso
    (fun (s, r) => ⟨s, r⟩) (fun x => (x.snaps, x.repls)) fun _ => rfl

def slashCrcsPerBmap : ℕ := 128

/-- `struct bmap_ondisk`. -/
structure BmapOndisk where
  crcstates : Vector Byte slashCrcsPerBmap
  repls : Repls
  crcs : Vector (BitVec 64) slashCrcsPerBmap
  gen : BitVec 32
  replpol : BitVec 32

def BmapOndisk.layout : Layout BmapOndisk :=
  (((Layout.word 1).vec slashCrcsPerBmap).prod <| ((Layout.word 1).vec slReplicaNbytes).prod <|
      ((Layout.word 8).vec slashCrcsPerBmap).prod <| (Layout.word 4).prod <| Layout.word 4).iso
    (fun (s, r, c, g, p) => ⟨s, r, c, g, p⟩)
    (fun b => (b.crcstates, b.repls, b.crcs, b.gen, b.replpol)) fun _ => rfl

def slExtrasStartOff : ℕ := 0x200

def slBmapStartOff : ℕ := 0x600

def bmapOdSz : ℕ := BmapOndisk.layout.size + 8

/-- Where the current format has bmap `n`. -/
def bmapOff (n : ℕ) : ℕ := bmapOdSz * n + slBmapStartOff

def bmapOffV1 (n : ℕ) : ℕ := bmapOdSz * n + 0x1000

/-! ### Return codes -/

/-- The errors; those of `mdsio` are `errno` values. -/
inductive Rc where
  | shortio
  | badcrc
  | bmapInvalid
  | errno (e : ℕ)
  deriving DecidableEq

structure Got where
  buf : List Byte
  odCrc : BitVec 64
  nb : ℕ

/-- `mdsio_preadv` into zeros, and a checksum that holds `g`. -/
def preadv (n : ℕ) (g : BitVec 64) (off : ℕ) (f : List Byte) : Got :=
  let new := pread off (n + 8) f
  let all := new ++ (List.replicate n 0 ++ (Layout.word 8).put g).drop new.length
  ⟨all.take n, (Layout.word 8).get (all.drop n), new.length⟩

/-- `pfl_memchk` with zero. -/
def Got.zeroed (r : Got) : Bool := r.buf.all (· = 0)

variable {f : List Byte} {n off : ℕ} {b : BmapOndisk}

theorem preadv_end (g : BitVec 64) (h : f.length ≤ off) : preadv n g off f = ⟨List.replicate n 0, g, 0⟩ := by
  simp [preadv, pread_eq_nil h]

variable {c : BitVec 64}

theorem preadv_full {bs : List Byte} (g : BitVec 64) (hn : bs.length = n)
    (h : pread off (n + 8) f = bs ++ (Layout.word 8).put c) : preadv n g off f = ⟨bs, c, n + 8⟩ := by
  subst hn
  have hlen : ((Layout.word 8).put c).length = 8 := (Layout.word 8).length_put c
  have hrest : (List.replicate bs.length 0 ++ (Layout.word 8).put g).drop (bs.length + 8) = [] := by
    apply List.drop_eq_nil_of_le
    rw [List.length_append, List.length_replicate]
    rfl
  simp only [preadv, h, List.length_append, hlen, hrest, List.append_nil]
  rw [List.take_left' rfl, List.drop_left' rfl, Layout.get_put]

section Crc

variable (crc64 : List Byte → BitVec 64)

/-- A block as it is written, followed by `psc_crc64_calc` of it. -/
def block {α : Type} (L : Layout α) (a : α) : List Byte :=
  L.put a ++ (Layout.word 8).put (crc64 (L.put a))

theorem length_block {α : Type} (L : Layout α) (a : α) : (block crc64 L a).length = L.size + 8 := by
  rw [block, List.length_append, Layout.length_put]
  rfl

theorem preadv_block {α : Type} {L : Layout α} {a : α} (g : BitVec 64)
    (h : pread off (L.size + 8) f = block crc64 L a) : preadv L.size g off f = ⟨L.put a, crc64 (L.put a), L.size + 8⟩ :=
  preadv_full g (L.length_put a) h

/-- The inode that `mds_ino_read_v1` finds. -/
def inoV1 (f : List Byte) : Except Rc InoV1 :=
  let r := preadv InoV1.layout.size 0 0 f
  if r.nb ≠ InoV1.layout.size + 8 then .error .shortio
  else if crc64 r.buf ≠ r.odCrc then .error .badcrc
  else .ok (InoV1.layout.get r.buf)

/-- The fields that `mds_ino_read_v1` sets. -/
def InoV1.convert (v : InoV1) : InoOd where
  version := inoVersion
  flags := 0
  bsz := v.bsz
  nrepls := v.nrepls
  replpol := v.replpol
  repls := v.repls
  replNblks := Vector.replicate _ 0

def mdsInoReadV1 (f : List Byte) : Except Rc InoOd := (inoV1 crc64 f).map InoV1.convert

/-- `mds_inox_read_v1`, into an extension of zeros -/
def mdsInoxReadV1 (g : BitVec 64) (f : List Byte) : Except Rc InoxOd :=
  let r := preadv InoxV1.layout.size g 0x400 f
  if r.zeroed ∧ r.odCrc = 0 then .ok InoxOd.zero
  else if r.nb ≠ InoxV1.layout.size + 8 then .error .shortio
  else if crc64 r.buf ≠ r.odCrc then .error .badcrc
  else .ok { InoxOd.zero with repls := (InoxV1.layout.get r.buf).repls }

def mdsBmapReadV1 (n : ℕ) (f : List Byte) : Except Rc BmapOndisk :=
  let r := preadv BmapOndisk.layout.size 0 (bmapOffV1 n) f
  if r.nb = 0 then .error .bmapInvalid
  else if r.nb ≠ bmapOdSz then .error .shortio
  else if crc64 r.buf ≠ r.odCrc then .error .badcrc
  else .ok (BmapOndisk.layout.get r.buf)

/-- Bmap `n` was never written. -/
def MissingV1 (n : ℕ) (f : List Byte) : Prop :=
  let r := preadv BmapOndisk.layout.size 0 (bmapOffV1 n) f
  r.nb = 0 ∨ r.nb = bmapOdSz ∧ r.odCrc = 0 ∧ r.zeroed
  deriving Decidable

/-! ### The current readers -/

def mdsInoxLoadLocked (g : BitVec 64) (f : List Byte) : Except Rc InoxOd :=
  let r := preadv InoxOd.layout.size g slExtrasStartOff f
  if r.odCrc = 0 ∧ r.zeroed then .ok (InoxOd.layout.get r.buf)
  else if r.nb ≠ InoxOd.layout.size + 8 then .error .shortio
  else if crc64 r.buf ≠ r.odCrc then .error .badcrc
  else .ok (InoxOd.layout.get r.buf)

def bmapNullCrc : BitVec 64 := 0x436f5d7c450ed606

/-- `mds_bmap_initnew` of a bmap that is all zeros -/
def mdsBmapInitnew (pol : BitVec 32) : BmapOndisk where
  crcstates := Vector.replicate _ 0
  repls := Vector.replicate _ 0
  crcs := Vector.replicate _ bmapNullCrc
  gen := 0
  replpol := pol

/-- `mds_bmap_ensure_valid`: some of the `nr` replicas has, or had, data. -/
def ensureValid (nr : BitVec 32) (d : Repls) : Bool :=
  (mdsReplBmapWalk Tract.init holdsData ⟨true, false⟩ [] (fun _ _ u => u) nr.toNat d ()).rc ≠ 0

/-- `mds_bmap_read` of the record: `none` if the MDS ends in it. -/
def mdsBmapRead (noautoinst : Bool) (ino : InoOd) (n : ℕ) (f : List Byte) : Option (Except Rc BmapOndisk) :=
  let r := preadv BmapOndisk.layout.size 0 (bmapOff n) f
  if r.nb = 0 ∧ noautoinst then some (.error .bmapInvalid)
  else if r.nb = 0 ∨ (r.nb = bmapOdSz ∧ r.odCrc = 0 ∧ r.zeroed) then some (.ok (mdsBmapInitnew ino.replpol))
  else if r.nb = bmapOdSz ∧ r.odCrc ≠ crc64 r.buf then some (.error .badcrc)
  -- a block that is cut short is taken for a whole one
  else if ensureValid ino.nrepls (BmapOndisk.layout.get r.buf).repls then some (.ok (BmapOndisk.layout.get r.buf))
  else none

theorem Got.zeroed_iff {r : Got} : r.zeroed ↔ r.buf = List.replicate r.buf.length 0 := by
  simp [Got.zeroed, List.eq_replicate_iff]

variable {x : InoxOd}

theorem mdsInoxLoadLocked_of_block (g : BitVec 64)
    (h : pread slExtrasStartOff (InoxOd.layout.size + 8) f = block crc64 InoxOd.layout x) :
    mdsInoxLoadLocked crc64 g f = .ok x := by
  simp only [mdsInoxLoadLocked, preadv_block crc64 g h]
  split <;> simp

theorem stateAt_replicate (k : ℕ) : stateAt (Vector.replicate slReplicaNbytes 0) k = .invalid := by
  have hbyte : ∀ n, Repls.byte (Vector.replicate slReplicaNbytes 0) n = 0 := by
    intro n
    unfold Repls.byte
    rw [Vector.getElem?_replicate]
    split <;> rfl
  unfold stateAt slReplGetBmapIosStat
  simp only [hbyte]
  split <;> simp [Breplst.ofCode]

theorem walkLoop_replicate : ∀ ks : List ℕ, (walkLoop Tract.init holdsData ⟨true, false⟩ (fun _ _ u => u) ks
      ⟨Vector.replicate slReplicaNbytes 0, (), 0⟩).rc = 0
  | [] => rfl
  | k :: ks => by
    simp only [walkLoop, mdsReplBmapApply, stateAt_replicate]
    exact walkLoop_replicate ks

theorem ensureValid_replicate (nr : BitVec 32) : ensureValid nr (Vector.replicate _ 0) = false := by
  rw [ensureValid, decide_eq_false_iff_not, not_not]
  exact walkLoop_replicate _

theorem BmapOndisk.mem_put {x : Byte} (h : x ∈ b.repls) : x ∈ BmapOndisk.layout.put b := by
  have hx : x ∈ ((Layout.word 1).vec slReplicaNbytes).put b.repls :=
    List.mem_flatMap.mpr ⟨x, Vector.mem_toList_iff.mpr h, by simp [Layout.word, leBytes]⟩
  exact List.mem_append_right _ (List.mem_append_left _ hx)

theorem not_zeroed_of_ensureValid {nr : BitVec 32} (h : ensureValid nr b.repls)
    {k : ℕ} : (Got.mk (BmapOndisk.layout.put b) c k).zeroed = false := by
  by_contra hz
  have hall : ∀ x ∈ BmapOndisk.layout.put b, x = 0 := by simpa [Got.zeroed] using hz
  have hrepls : b.repls = Vector.replicate _ 0 := by
    ext i hi : 1
    rw [hall _ (BmapOndisk.mem_put (Vector.getElem_mem hi)), Vector.getElem_replicate]
  rw [hrepls, ensureValid_replicate] at h
  exact Bool.false_ne_true h

theorem repls_get_replicate :
    (BmapOndisk.layout.get (List.replicate BmapOndisk.layout.size 0)).repls = Vector.replicate _ 0 := by
  decide +kernel

variable {ino : InoOd}

theorem mdsBmapRead_of_block {noautoinst : Bool} (hv : ensureValid ino.nrepls b.repls)
    (h : pread (bmapOff n) bmapOdSz f = block crc64 BmapOndisk.layout b) :
    mdsBmapRead crc64 noautoinst ino n f = some (.ok b) := by
  simp only [mdsBmapRead, preadv_block crc64 0 h, not_zeroed_of_ensureValid hv, Layout.get_put, hv]
  simp [bmapOdSz]

theorem mdsBmapRead_of_end (noautoinst : Bool) (h : f.length ≤ bmapOff n) : mdsBmapRead crc64 noautoinst ino n f =
      some (if noautoinst then .error .bmapInvalid else .ok (mdsBmapInitnew ino.replpol)) := by
  simp only [mdsBmapRead, preadv_end 0 h]
  cases noautoinst <;> simp

theorem mdsBmapReadV1_of_block (h : pread (bmapOffV1 n) bmapOdSz f = block crc64 BmapOndisk.layout b) :
    mdsBmapReadV1 crc64 n f = .ok b := by
  simp only [mdsBmapReadV1, preadv_block crc64 0 h, Layout.get_put]
  simp [bmapOdSz]

theorem inoV1_of_block {v : InoV1} (h : pread 0 (InoV1.layout.size + 8) f = block crc64 InoV1.layout v) :
    inoV1 crc64 f = .ok v := by
  simp only [inoV1, preadv_block crc64 0 h, Layout.get_put]
  simp

theorem mdsInoxReadV1_eq_ok {g : BitVec 64} (h : mdsInoxReadV1 crc64 g f = .ok x) :
    ∃ r, x = { InoxOd.zero with repls := r } := by
  simp only [mdsInoxReadV1] at h
  split at h
  · exact ⟨_, (Except.ok.inj h).symm⟩
  split at h
  · cases h
  split at h
  · cases h
  · exact ⟨_, (Except.ok.inj h).symm⟩

theorem mdsInoxReadV1_of_zeros (g : BitVec 64)
    (h : pread 0x400 (InoxV1.layout.size + 8) f = List.replicate (InoxV1.layout.size + 8) 0) :
    mdsInoxReadV1 crc64 g f = .ok InoxOd.zero := by
  have hput : (Layout.word 8).put 0 = List.replicate 8 0 := by decide
  rw [List.replicate_add, ← hput] at h
  simp only [mdsInoxReadV1, preadv_full g List.length_replicate h, Got.zeroed_iff, List.length_replicate]
  simp

theorem mdsBmapReadV1_of_end (h : f.length ≤ bmapOffV1 n) : mdsBmapReadV1 crc64 n f = .error .bmapInvalid := by
  simp only [mdsBmapReadV1, preadv_end 0 h]
  simp

theorem length_le_of_bmapInvalid (h : mdsBmapReadV1 crc64 n f = .error .bmapInvalid) : f.length ≤ bmapOffV1 n := by
  simp only [mdsBmapReadV1] at h
  split at h
  · rename_i hnb
    have hlen : (pread (bmapOffV1 n) (BmapOndisk.layout.size + 8) f).length = 0 := hnb
    rw [pread, List.length_take, List.length_drop] at hlen
    omega
  split at h
  · cases h
  · split at h <;> cases h

theorem length_preadv_buf (n : ℕ) (g : BitVec 64) (off : ℕ) (f : List Byte) : (preadv n g off f).buf.length = n := by
  simp only [preadv, List.length_take, List.length_append, List.length_drop, List.length_replicate]
  omega

theorem not_ensureValid_of_missing (hm : MissingV1 n f) (hb : mdsBmapReadV1 crc64 n f = .ok b)
    (nr : BitVec 32) : ensureValid nr b.repls = false := by
  simp only [mdsBmapReadV1] at hb
  rcases hm with hnb | ⟨-, -, hz⟩
  · rw [if_pos hnb] at hb
    cases hb
  split at hb
  · cases hb
  split at hb
  · cases hb
  split at hb
  · cases hb
  · rw [← Except.ok.inj hb, Got.zeroed_iff.mp hz, length_preadv_buf, repls_get_replicate, ensureValid_replicate]

/-! ### Bmap records -/

/-- `mds_bmap_write`: `none` if the MDS ends in it. -/
def mdsBmapWriteFile (ino : InoOd) (n : ℕ) (b : BmapOndisk) (f : List Byte) : Option (List Byte) :=
  if ensureValid ino.nrepls b.repls then some (pwrite (bmapOff n) (block crc64 BmapOndisk.layout b) f) else none

/-- What is read of the record of bmap `n`. -/
def bmapRecord (n : ℕ) (f : List Byte) : Got := preadv BmapOndisk.layout.size 0 (bmapOff n) f

def Got.Missing (r : Got) : Prop := r.nb = 0 ∨ r.nb = bmapOdSz ∧ r.odCrc = 0 ∧ r.zeroed

/-- Some bytes, but not a record. -/
def Got.CutShort (r : Got) : Prop := r.nb ≠ 0 ∧ r.nb ≠ bmapOdSz

/-- New if missing, as it is if its checksum is right, else an error. -/
structure ReadRight (pol : BitVec 32) (r : Got) (out : Option (Except Rc BmapOndisk)) : Prop where
  ok : ∀ b, out = some (.ok b) → r.Missing ∧ b = mdsBmapInitnew pol ∨
    r.nb = bmapOdSz ∧ r.odCrc = crc64 r.buf ∧ b = BmapOndisk.layout.get r.buf
  error : r.CutShort ∨ ¬ r.Missing ∧ r.odCrc ≠ crc64 r.buf → ∃ e, out = some (.error e)

/-- **Bmap records** are read back, and right exactly if the file does not end inside them. -/
theorem bmap_record_iff (noautoinst : Bool) (ino : InoOd) (n : ℕ) (f : List Byte) :
    (∀ b g, mdsBmapWriteFile crc64 ino n b f = some g → mdsBmapRead crc64 noautoinst ino n g = some (.ok b)) ∧
      (ReadRight crc64 ino.replpol (bmapRecord n f) (mdsBmapRead crc64 noautoinst ino n f) ↔
        ¬ (bmapRecord n f).CutShort) := by
  constructor
  · intro b g h
    unfold mdsBmapWriteFile at h
    split_ifs at h with hv
    cases h
    exact mdsBmapRead_of_block crc64 hv (pread_pwrite_self f (length_block crc64 _ _))
  · unfold mdsBmapRead
    simp only [show preadv BmapOndisk.layout.size 0 (bmapOff n) f = bmapRecord n f from rfl]
    generalize bmapRecord n f = r
    refine ⟨fun h hcut => ?_, fun hcut => ⟨fun b hb => ?_, fun hbad => ?_⟩⟩
    · obtain ⟨e, he⟩ := h.error (.inl hcut)
      rw [if_neg fun h => hcut.1 h.1, if_neg fun h => h.elim hcut.1 fun h => hcut.2 h.1, if_neg fun h => hcut.2 h.1] at he
      split_ifs at he
      simp at he
    · have hnb : r.nb ≠ 0 → r.nb = bmapOdSz := fun h0 => by_contra fun h => hcut ⟨h0, h⟩
      split_ifs at hb with hauto hmissing hcrc hvalid
      · simp at hb
      · exact .inl ⟨hmissing, by simpa using hb.symm⟩
      · simp at hb
      · have hfull := hnb fun h => hmissing (.inl h)
        exact .inr ⟨hfull, not_not.mp fun h => hcrc ⟨hfull, h⟩, by simpa using hb.symm⟩
    · obtain ⟨hmissing, hcrc⟩ := hbad.resolve_left hcut
      have hfull : r.nb = bmapOdSz := by_contra fun h => hcut ⟨fun h0 => hmissing (.inl h0), h⟩
      rw [if_neg fun h => hmissing (.inl h.1), if_neg (show ¬ (_ ∨ _) from hmissing), if_pos ⟨hfull, hcrc⟩]
      exact ⟨_, rfl⟩

end Crc

/-- **A record is cut short**, with its only replica VALID, and read. -/
theorem bmap_record_cut : (bmapRecord 0 (List.replicate 1664 0 ++ [3])).nb = 129 ∧
    ((mdsBmapRead (fun _ => 7) false ⟨inoVersion, 0, 0, 1, 0, Vector.replicate _ 0, Vector.replicate _ 0⟩ 0
      (List.replicate 1664 0 ++ [3])).bind Except.toOption).map (·.repls[0]) = some 3 := by
  decide +kernel

end Slash2.Metafile
