/-
# Moving a metadata file to the current format

`mds_inode_update` converts a metadata file of version 1. It writes new blocks to a temporary
file, empties the original, copies the new blocks back and removes the temporary file.
`mds_inode_dump` is used for both passes. `mds_inode_read` starts a conversion, or ends one that
was cut off (`mds_inode_update_interrupted`).
-/
import Slash2.Lib.Crash
import Slash2.Metafile.Format

namespace Slash2.Metafile

open Lib Lib.Bytes Residency

/-! ### The calls of the file system below -/

inductive Handle where
  | orig
  | tmp
  deriving DecidableEq

structure Disk where
  orig : List Byte
  tmp : Option (List Byte)
  deriving DecidableEq

def Disk.file (d : Disk) : Handle → List Byte
  | .orig => d.orig
  | .tmp => d.tmp.getD []

def Disk.setFile (d : Disk) : Handle → List Byte → Disk
  | .orig, f => { d with orig := f }
  | .tmp, f => { d with tmp := some f }

/-- The calls of one pass of `mds_inode_dump`. -/
inductive DumpCall where
  | bmapRead (n : ℕ)
  | bmapWrite (n : ℕ)
  | inoxWrite
  | inodeWrite
  deriving DecidableEq

inductive Routine where
  | update
  | interrupted
  deriving DecidableEq

/-- The `mdsio` calls of an inode read, each at most once. -/
inductive Call where
  /-- of `mds_inode_read` -/
  | inodeRead
  /-- of `mds_inode_update_interrupted` -/
  | lookup
  | openTmp
  | tmpRead
  | inoxRead
  /-- of `mds_inode_update` -/
  | readIno
  | create
  | readInox
  /-- of the pass that writes to `mfh` -/
  | dump (mfh : Handle) (c : DumpCall)
  | trunc
  | unlink (r : Routine)
  deriving DecidableEq

inductive Fault where
  | none
  | err (e : ℕ)
  | crash

/-- The fate of the calls, and checksum variables that are not set. -/
structure Env where
  fault : Call → Fault
  /-- in `mds_inox_read_v1` -/
  gInoxV1 : BitVec 64
  /-- in `mds_inode_update_interrupted` -/
  gTmp : BitVec 64
  /-- in `mds_inox_load_locked` -/
  gInox : BitVec 64

abbrev Io := Prog Disk Rc

/-- An `mdsio` call. -/
def mdsio {α : Type} (env : Env) (c : Call) (p : Io α) : Io α := fun d =>
  match env.fault c with
  | .none => p d
  | .err e => .fail (.errno e) d
  | .crash => .down d

def enoent : ℕ := 2

section Source

variable (crc64 : List Byte → BitVec 64) (env : Env) (mfh : Handle) (ino : InoOd)

def mdsBmapWrite (n : ℕ) (b : BmapOndisk) : Io Unit :=
  if ensureValid ino.nrepls b.repls then
    mdsio env (.dump mfh (.bmapWrite n))
      (Prog.update fun d => d.setFile mfh (pwrite (bmapOff n) (block crc64 BmapOndisk.layout b) (d.file mfh)))
  else Prog.halt

def mdsInoxWrite (x : InoxOd) : Io Unit :=
  mdsio env (.dump mfh .inoxWrite)
    (Prog.update fun d => d.setFile mfh (pwrite slExtrasStartOff (block crc64 InoxOd.layout x) (d.file mfh)))

def mdsInodeWrite : Io Unit :=
  mdsio env (.dump mfh .inodeWrite)
    (Prog.update fun d => d.setFile mfh (pwrite 0 (block crc64 InoOd.layout ino) (d.file mfh)))

/-- `mds_bmap_read` with `BMAPGETF_NOAUTOINST`. -/
def readCurrent (n : ℕ) : Io BmapOndisk := fun d =>
  match mdsBmapRead crc64 true ino n (d.file mfh) with
  | some (.ok b) => .done b d
  | some (.error e) => .fail e d
  | none => .down d

/-- A bmap of a pass: by version 1 from `readh`, or from the inode's handle, which `fh->fh = readh` does not change.
-/
def dumpRead (sic : Bool) (mfh readh : Handle) (ino : InoOd) (n : ℕ) : Io BmapOndisk :=
  mdsio env (.dump mfh (.bmapRead n))
    (if sic then Prog.look fun d => mdsBmapReadV1 crc64 n (d.file readh) else readCurrent crc64 mfh ino n)

/-- The loop of `mds_inode_dump`, from bmap `n` on. -/
def dumpLoop (sic : Bool) (mfh readh : Handle) (ino : InoOd) : ℕ → ℕ → Io Unit
  | 0, _ => pure ()
  | fuel + 1, n => do
    match ← (dumpRead crc64 env sic mfh readh ino n).attempt with
    | .ok b => do
      mdsBmapWrite crc64 env mfh ino n b
      dumpLoop sic mfh readh ino fuel (n + 1)
    | .error .bmapInvalid => pure ()
    | .error rc => Prog.error rc

/-- `mds_inode_dump`; the loop ends with the file it reads. Its `fh` is the handle itself and not a `struct mio_fh`, so
that `fh->fh = readh` does not change the handle; the object it stores into is taken to stay as it is. -/
def mdsInodeDump (sic : Bool) (mfh readh : Handle) (ino : InoOd) (x : InoxOd) : Io Unit := fun d =>
  (do
    dumpLoop crc64 env sic mfh readh ino ((d.file (if sic then readh else mfh)).length + 1) 0
    mdsInoxWrite crc64 env mfh x
    mdsInodeWrite crc64 env mfh ino : Io Unit) d

/-- `mdsio_unlink` of the temporary file. -/
def unlink (r : Routine) : Io Unit := do
  let _ ← (mdsio env (.unlink r) (Prog.update fun d => { d with tmp := none })).attempt
  pure ()

/-- `mdsio_setattr` of the size to zero -/
def trunc : Io Unit := mdsio env .trunc (Prog.update fun d => { d with orig := [] })

structure Inoh where
  ino : InoOd
  extras : Option InoxOd
  deriving DecidableEq

/-- `mds_inode_update`, once the old inode has been read. -/
def updateFrom : Io Inoh := do
  mdsio env .create (Prog.update fun d => { d with tmp := some [] })
  let x ← mdsio env .readInox (Prog.look fun d => mdsInoxReadV1 crc64 env.gInoxV1 d.orig)
  -- convert old structures into new into temp file
  mdsInodeDump crc64 env true .tmp .orig ino x
  -- move new structures to inode meta file
  trunc env
  mdsInodeDump crc64 env false .orig .tmp ino x
  unlink env .update
  pure ⟨ino, some x⟩

/-- `mds_inode_update` from version 1. -/
def mdsInodeUpdate : Io Inoh := do
  let ino ← mdsio env .readIno (Prog.look fun d => mdsInoReadV1 crc64 d.orig)
  (updateFrom crc64 env ino).onFail (unlink env .update)

def openCopy : Io InoOd := do
  mdsio env .lookup (Prog.look fun d => if d.tmp.isSome then .ok () else .error (.errno enoent))
  mdsio env .openTmp (pure ())
  mdsio env .tmpRead (Prog.look fun d =>
    -- how much was read is not looked at
    let r := preadv InoOd.layout.size env.gTmp 0 (d.file .tmp)
    if crc64 r.buf ≠ r.odCrc then .error .badcrc else .ok (InoOd.layout.get r.buf))

/-- `mds_inox_ensure_loaded` with the handle `h` -/
def mdsInoxEnsureLoaded (extras : Option InoxOd) (h : Handle) : Io InoxOd :=
  match extras with
  | some x => pure x
  | none => mdsio env .inoxRead (Prog.look fun d => mdsInoxLoadLocked crc64 env.gInox (d.file h))

def moveCopy : Io Inoh := do
  -- `inoh_extras` has just been allocated, so this does not load it
  let x ← mdsInoxEnsureLoaded crc64 env (some InoxOd.zero) .tmp
  trunc env
  mdsInodeDump crc64 env false .orig .tmp ino x
  pure ⟨ino, some x⟩

/-- `mds_inode_update_interrupted`: was there a copy? -/
def mdsInodeUpdateInterrupted : Io (Bool × Except Rc Inoh) := do
  match ← (openCopy crc64 env).attempt with
  | .error rc => do
    unlink env .interrupted
    pure (false, .error rc)
  | .ok ino => do
    let r ← (moveCopy crc64 env ino).attempt
    unlink env .interrupted
    pure (true, r)

def slashBmapSize : BitVec 32 := 0x8000000

/-- `mds_inode_od_initnew` of an inode that is all zeros -/
def mdsInodeOdInitnew : InoOd where
  version := inoVersion
  flags := 0
  bsz := slashBmapSize
  nrepls := 0
  replpol := 0
  repls := Vector.replicate _ 0
  replNblks := Vector.replicate _ 0

def mdsInodeRead : Io Inoh := do
  let r ← mdsio env .inodeRead (Prog.look fun d => .ok (preadv InoOd.layout.size 0 0 d.orig))
  if r.nb ≠ InoOd.layout.size + 8 ∧ r.odCrc = 0 ∧ r.zeroed then
    match ← mdsInodeUpdateInterrupted crc64 env with
    | (true, res) => Prog.ofExcept res
    -- detected a new inode
    | (false, _) => pure ⟨mdsInodeOdInitnew, none⟩
  else if crc64 r.buf ≠ r.odCrc then
    match ← mdsInodeUpdateInterrupted crc64 env with
    | (true, res) => Prog.ofExcept res
    | (false, res) =>
      let vers := (InoOd.layout.get r.buf).version
      if vers ≠ 0 ∧ vers < inoVersion then mdsInodeUpdate crc64 env
      else if res = .error .shortio then Prog.error .shortio
      else Prog.error .badcrc
  else if r.nb ≠ InoOd.layout.size + 8 then Prog.error .shortio
  else pure ⟨InoOd.layout.get r.buf, none⟩

end Source

end Slash2.Metafile
