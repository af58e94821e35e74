/-
# The cache of bmaps

A file keeps the bmaps that are in use in a tree. `_bmap_get` takes a reference to one, and can make it: the new bmap is
put into the tree with `BMAPF_INIT`, and the service retrieves it without a lock. Others wait until that is done, and
ask the service for another mode of access if they need one, with `BMAPF_MODECHNG` set meanwhile. Whoever drops the last
reference takes the bmap out of the tree and frees it.
-/
import Slash2.Lib.Holders

namespace Slash2.Bmapc

open Lib

/-! ### Bmaps and calls -/

/-- `enum rw` -/
inductive Rw where
  | read
  | write

/-- `struct bmap` -/
structure Bmap where
  /-- `bcm_fcmh` -/
  file : ℕ
  /-- `bcm_bmapno` -/
  no : ℕ
  opcnt : ℕ
  /-- `BMAPF_RD` -/
  rd : Bool
  /-- `BMAPF_WR` -/
  wr : Bool
  init : Bool
  modechng : Bool
  tofree : Bool
  freed : Bool
  deriving DecidableEq

/-- `bcm_flags & bmaprw`, if a mode is asked for -/
def Bmap.has (b : Bmap) : Option Rw → Bool
  | none => true
  | some .read => b.rd
  | some .write => b.wr

/-- `bcm_flags |= bmaprw` -/
def Bmap.setMode (b : Bmap) : Option Rw → Bmap
  | none => b
  | some .read => { b with rd := true }
  | some .write => { b with wr := true }

def Bmap.new (file no : ℕ) (rw : Option Rw) : Bmap :=
  Bmap.setMode ⟨file, no, 1, false, false, true, false, false, false⟩ rw

/-- Where a call of `_bmap_get` is, and the bmap it refers to. -/
inductive Pc where
  /-- in `bmap_lookup_cache` -/
  | lookup
  /-- in `bmo_retrievef` -/
  | retrieve (id : ℕ)
  /-- in `bmap_wait_locked` -/
  | waiting (id : ℕ)
  /-- in `bmo_mode_chngf` -/
  | modechng (id : ℕ)
  | ret (r : Option (ℕ × Bmap))
  deriving DecidableEq

/-- A call of `_bmap_get`. -/
structure Call where
  file : ℕ
  no : ℕ
  rw : Option Rw
  create : Bool
  async : Bool
  noretrieve : Bool
  /-- `bnew` is allocated -/
  bnew : Bool
  /-- `new_bmap`: the call has made the bmap -/
  made : Bool
  pc : Pc

structure State where
  bmaps : List Bmap
  calls : List Call
  /-- references of returned calls, and of others -/
  held : List ℕ
  failed : Bool

def State.init : State := ⟨[], [], [], false⟩

def Pc.refs (id : ℕ) : Pc → ℕ
  | .retrieve x | .waiting x | .modechng x => if x = id then 1 else 0
  | .lookup | .ret _ => 0

def State.refs (s : State) (id : ℕ) : ℕ := Holders.refs (fun x c => c.pc.refs x) s.held s.calls id

variable (s : State)

def State.setBmap (id : ℕ) (b : Bmap) : State := { s with bmaps := s.bmaps.set id b }

def State.setCall (i : ℕ) (c : Call) : State := { s with calls := s.calls.set i c }

def State.ret (s : State) (i : ℕ) (c : Call) (id : ℕ) (b : Bmap) : State :=
  { (s.setCall i { c with pc := .ret (some (id, b)) }).setBmap id b with held := id :: s.held }

/-- `bmap_op_done_type` -/
def State.opDone (id : ℕ) (b : Bmap) : State :=
  if b.opcnt = 0 then { s with failed := true }
  else if b.opcnt = 1 then s.setBmap id { b with opcnt := 0, tofree := true }
  else s.setBmap id { b with opcnt := b.opcnt - 1 }

/-- `_bmap_get` of a bmap that is there; `chng` if there is a `bmo_mode_chngf`. -/
def proceed (chng : Bool) (s : State) (i : ℕ) (c : Call) (id : ℕ) (b : Bmap) : State :=
  if c.async then s.ret i c id b
  else if b.init ∨ b.modechng then (s.setCall i { c with pc := .waiting id }).setBmap id b
  else if b.has c.rw = false ∧ chng then
    (s.setCall i { c with pc := .modechng id }).setBmap id { b with modechng := true }
  else s.ret i c id b

/-- `RB_FIND` -/
def State.find (file no : ℕ) : Option ℕ :=
  s.bmaps.findIdx? fun b => !b.freed && b.file == file && b.no == no

/-- `bmap_lookup_cache`, and what follows under the lock -/
def lookup (chng : Bool) (s : State) (i : ℕ) (c : Call) : Option State :=
  match s.find c.file c.no with
  | some id => do
    let b ← s.bmaps[id]?
    -- it is going away: restart
    if b.tofree then some s
    else some (proceed chng s i c id { b with opcnt := b.opcnt + 1 })
  | none =>
    if c.create then
      if c.bnew then
        some { s.setCall i { c with made := true, pc := .retrieve s.bmaps.length } with
          bmaps := s.bmaps ++ [Bmap.new c.file c.no c.rw] }
      else some (s.setCall i { c with bnew := true })
    else some (s.setCall i { c with pc := .ret none })

def settle (i : ℕ) (c : Call) (id : ℕ) (b : Bmap) (ok : Bool) : State :=
  if ok then s.ret i c id b else ((s.setCall i { c with pc := .ret none }).setBmap id b).opDone id b

inductive Op where
  /-- a call of `_bmap_get` -/
  | get (file no : ℕ) (rw : Option Rw) (create async noretrieve : Bool)
  | lookup (i : ℕ)
  /-- `bmo_retrievef` has returned -/
  | retrieved (i : ℕ) (ok : Bool)
  | check (i : ℕ)
  /-- `bmo_mode_chngf` has returned -/
  | changed (i : ℕ) (ok : Bool)
  /-- the callback of the client clears `BMAPF_INIT` -/
  | ready (id : ℕ)
  /-- `bmap_op_start_type` and `bmap_op_done_type` -/
  | opStart (id : ℕ)
  | opDone (id : ℕ)
  | remove (id : ℕ)

def Call.begin (file no : ℕ) (rw : Option Rw) (create async noretrieve : Bool) : Call :=
  ⟨file, no, rw, create, async, noretrieve, false, false, .lookup⟩

def step (chng : Bool) (s : State) : Op → Option State
  | .get file no rw create async noretrieve =>
    some { s with calls := s.calls ++ [Call.begin file no rw create async noretrieve] }
  | .lookup i => do
    let c ← s.calls[i]?
    if c.pc = .lookup then lookup chng s i c else none
  | .retrieved i ok => do
    let c ← s.calls[i]?
    match c.pc with
    | .retrieve id =>
      let b ← s.bmaps[id]?
      if c.noretrieve ∧ ok = false then none
      else some (settle s i c id (if c.async then b else { b with init := false }) ok)
    | _ => none
  | .check i => do
    let c ← s.calls[i]?
    match c.pc with
    | .waiting id =>
      let b ← s.bmaps[id]?
      some (proceed chng s i c id b)
    | _ => none
  | .changed i ok => do
    let c ← s.calls[i]?
    match c.pc with
    | .modechng id =>
      let b ← s.bmaps[id]?
      let b := { b with modechng := false }
      some (settle s i c id (if ok then b.setMode c.rw else b) ok)
    | _ => none
  | .ready id => do
    let b ← s.bmaps[id]?
    if 0 < s.refs id then some (s.setBmap id { b with init := false }) else none
  | .opStart id => do
    let b ← s.bmaps[id]?
    if id ∈ s.held then some { s.setBmap id { b with opcnt := b.opcnt + 1 } with held := id :: s.held } else none
  | .opDone id => do
    let b ← s.bmaps[id]?
    if id ∈ s.held then some ({ s with held := s.held.erase id }.opDone id b) else none
  | .remove id => do
    let b ← s.bmaps[id]?
    if b.tofree ∧ b.freed = false then some (s.setBmap id { b with freed := true }) else none

structure Call.Right (chng : Bool) (c : Call) (b : Bmap) : Prop where
  init : b.init = false
  modechng : c.made = false → b.modechng = false
  mode : c.made ∨ chng → b.has c.rw

/-- **What holds of every state**: one bmap of a number, freed when nobody refers to it, returned in the mode asked
for. -/
structure Sound (chng : Bool) (s : State) : Prop where
  asserts : s.failed = false
  unique : ∀ (i j : ℕ) b b', s.bmaps[i]? = some b → s.bmaps[j]? = some b' → b.freed = false → b'.freed = false →
    b.file = b'.file → b.no = b'.no → i = j
  counted : ∀ (id : ℕ) b, s.bmaps[id]? = some b → b.opcnt = s.refs id
  tofree : ∀ (id : ℕ) b, s.bmaps[id]? = some b → (b.tofree ↔ b.opcnt = 0)
  removed : ∀ (id : ℕ) b, s.bmaps[id]? = some b →
    (b.freed → b.opcnt = 0) ∧ (b.freed = false → ((step chng s (.remove id)).isSome ↔ b.opcnt = 0))
  returned : ∀ c ∈ s.calls, ∀ id b, c.pc = .ret (some (id, b)) → c.async = false → c.Right chng b

end Slash2.Bmapc
