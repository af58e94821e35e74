/-
# The cache of files

Every service keeps the files it works on in a hash table by FID. `_fidc_lookup` takes a reference
to a file, and can make one: it puts it into the table as `FCMH_INITING` and runs the constructor
and the load of the attributes without a lock. Who finds it meanwhile waits and searches again. A
file that nobody refers to is on the idle list, from where `fidc_reap` takes it.
-/
import Slash2.Lib.Holders

namespace Slash2.Fidc

open Lib

/-! ### Files and calls -/

inductive Fate where
  | hashed
  | taken
  | removed
  | destroyed
  deriving DecidableEq

/-- `struct fidc_membh` -/
structure Fcmh where
  fid : ℕ
  refcnt : ℕ
  idle : Bool
  initing : Bool
  waiting : Bool
  tofree : Bool
  ctorFailed : Bool
  /-- on `fidcIdleList` -/
  onIdle : Bool
  fate : Fate
  bad : Bool

/-- Where a call of `_fidc_lookup` is, and the file it refers to. -/
inductive Pc where
  | search
  /-- in `fcmh_wait_nocond_locked` -/
  | waiting (id : ℕ)
  /-- woken up, before `fcmh_op_done_type` -/
  | woken (id : ℕ)
  /-- in the constructor, or in `sfop_getattr` -/
  | ctor (id : ℕ)
  | ret (r : Option ℕ)
  deriving DecidableEq

/-- A call of `_fidc_lookup`. -/
structure Call where
  fid : ℕ
  create : Bool
  load : Bool
  /-- `try_create` -/
  tried : Bool
  pc : Pc
  awaited : List ℕ

def Call.begin (fid : ℕ) (create load : Bool) : Call := ⟨fid, create, load, false, .search, []⟩

structure State where
  fcmhs : List Fcmh
  calls : List Call
  held : List ℕ
  failed : Bool

def State.init : State := ⟨[], [], [], false⟩

def Call.wake (id : ℕ) (c : Call) : Call := if c.pc = .waiting id then { c with pc := .woken id } else c

/-- `psc_waitq_wakeall` -/
def State.wake (s : State) (id : ℕ) : State := { s with calls := s.calls.map (Call.wake id) }

variable (s : State)

def State.setFcmh (id : ℕ) (f : Fcmh) : State := { s with fcmhs := s.fcmhs.set id f }

def State.setCall (i : ℕ) (c : Call) : State := { s with calls := s.calls.set i c }

/-- `_fcmh_op_start_type` -/
def Fcmh.opStart (f : Fcmh) : Fcmh :=
  { f with refcnt := f.refcnt + 1, idle := false, onIdle := f.onIdle && !f.idle }

/-- `_fcmh_op_done_type`, up to the freeing of a failed file. -/
def State.opDone (id : ℕ) (f : Fcmh) : State :=
  if f.refcnt = 0 then { s with failed := true }
  else if f.refcnt = 1 then
    if f.ctorFailed then s.setFcmh id { f with refcnt := 0, tofree := true, fate := .taken }
    else if f.idle then { s with failed := true }
    else (s.setFcmh id { f with refcnt := 0, idle := true, onIdle := true }).wake id
  else (s.setFcmh id { f with refcnt := f.refcnt - 1 }).wake id

def Fcmh.inTable (f : Fcmh) : Bool := f.fate = .hashed ∨ f.fate = .taken

def State.scan (fid : ℕ) : Option ℕ :=
  s.fcmhs.findIdx? fun f => f.inTable && f.fid == fid && !f.tofree

def Fcmh.new (fid : ℕ) : Fcmh :=
  { fid, refcnt := 1, idle := false, initing := true, waiting := false, tofree := false, ctorFailed := false,
    onIdle := false, fate := .hashed, bad := false }

/-- `sfop_modify`: its success, and `FCMH_CTOR_FAILED`. -/
structure Modify where
  ok : Bool
  ctorFailed : Bool

def found (i : ℕ) (c : Call) (id : ℕ) (f : Fcmh) : Option Modify → State
  | none => { (s.setCall i { c with pc := .ret (some id) }).setFcmh id f.opStart with held := id :: s.held }
  | some m =>
    let f := { f.opStart with ctorFailed := m.ctorFailed }
    if m.ok then { (s.setCall i { c with pc := .ret (some id) }).setFcmh id f with held := id :: s.held }
    else ((s.setCall i { c with pc := .ret none }).setFcmh id f).opDone id f

def search (i : ℕ) (c : Call) (m : Option Modify) : Option State :=
  match s.scan c.fid with
  | some id => do
    let f ← s.fcmhs[id]?
    if f.initing then
      some ((s.setCall i { c with pc := .waiting id, awaited := id :: c.awaited }).setFcmh id
        { f.opStart with waiting := true })
    else some (found s i c id f m)
  | none =>
    if c.create then
      if c.tried then
        some { s.setCall i { c with pc := .ctor s.fcmhs.length } with fcmhs := s.fcmhs ++ [Fcmh.new c.fid] }
      else some (s.setCall i { c with tried := true })
    else some (s.setCall i { c with pc := .ret none })

inductive Outcome where
  | ok
  | ctorFailed
  | loadFailed
  deriving DecidableEq

def Fcmh.finish (f : Fcmh) (r : Outcome) : Fcmh :=
  { f with initing := false, waiting := false, ctorFailed := f.ctorFailed || r == Outcome.ctorFailed }

def Fcmh.fail (f : Fcmh) : Fcmh := { f with tofree := true, bad := true }

/-- From `finish` on. -/
def finish (s : State) (i : ℕ) (c : Call) (id : ℕ) (f : Fcmh) (r : Outcome) : State :=
  let s := if f.waiting then s.wake id else s
  let f := f.finish r
  if r = .ok then
    let f := f.opStart
    { (s.setCall i { c with pc := .ret (some id) }).setFcmh id f with held := id :: s.held }.opDone id f
  else
    let f := f.fail
    ((s.setCall i { c with pc := .ret none }).setFcmh id f).opDone id f

inductive Op where
  /-- a call of `_fidc_lookup` -/
  | lookup (fid : ℕ) (create load : Bool)
  | search (i : ℕ) (m : Option Modify)
  | resume (i : ℕ)
  | finish (i : ℕ) (r : Outcome)
  /-- `fcmh_op_start_type` and `fcmh_op_done_type` -/
  | opStart (id : ℕ)
  | opDone (id : ℕ)
  /-- `fidc_reap` takes a file from the idle list -/
  | reap (id : ℕ)
  | remove (id : ℕ)
  | destroy (id : ℕ)

def step : Op → Option State
  | .lookup fid create load => some { s with calls := s.calls ++ [Call.begin fid create load] }
  | .search i m => do
    let c ← s.calls[i]?
    if c.pc = .search then search s i c m else none
  | .resume i => do
    let c ← s.calls[i]?
    match c.pc with
    | .woken id =>
      let f ← s.fcmhs[id]?
      some ((s.setCall i { c with pc := .search }).opDone id f)
    | _ => none
  | .finish i r => do
    let c ← s.calls[i]?
    match c.pc with
    | .ctor id =>
      let f ← s.fcmhs[id]?
      if r = .loadFailed ∧ c.load = false then none else some (finish s i c id f r)
    | _ => none
  | .opStart id => do
    let f ← s.fcmhs[id]?
    if id ∈ s.held then some { s.setFcmh id f.opStart with held := id :: s.held } else none
  | .opDone id => do
    let f ← s.fcmhs[id]?
    if id ∈ s.held then some ({ s with held := s.held.erase id }.opDone id f) else none
  | .reap id => do
    let f ← s.fcmhs[id]?
    if f.onIdle then
      if f.refcnt = 0 ∧ f.idle then some (s.setFcmh id { f with tofree := true, onIdle := false, fate := .taken })
      else some { s with failed := true }
    else none
  | .remove id => do
    let f ← s.fcmhs[id]?
    if f.fate = .taken then some (s.setFcmh id { f with fate := .removed }) else none
  | .destroy id => do
    let f ← s.fcmhs[id]?
    if f.fate = .removed then
      if f.refcnt = 0 ∧ ∀ c ∈ s.calls, c.pc ≠ .waiting id then some (s.setFcmh id { f with fate := .destroyed })
      else some { s with failed := true }
    else none

def Pc.refs (id : ℕ) : Pc → ℕ
  | .waiting x | .woken x | .ctor x => if x = id then 1 else 0
  | .search | .ret _ => 0

def State.refs (s : State) (id : ℕ) : ℕ := Holders.refs (fun x c => c.pc.refs x) s.held s.calls id

/-- **What holds of every state**: one file of a FID, idle or freed if nobody refers to it, waited for while it is
made, not returned if that failed. -/
structure Sound (s : State) : Prop where
  asserts : s.failed = false
  unique : ∀ (i j : ℕ) f g, s.fcmhs[i]? = some f → s.fcmhs[j]? = some g → f.inTable → g.inTable →
    f.tofree = false → g.tofree = false → f.fid = g.fid → i = j
  idle : ∀ (id : ℕ) f, s.fcmhs[id]? = some f → (f.onIdle ↔ f.idle ∧ f.refcnt = 0 ∧ f.fate = .hashed)
  busy : ∀ (id : ℕ) f, s.fcmhs[id]? = some f → f.onIdle = false → 0 < f.refcnt ∨ f.fate ≠ .hashed
  counted : ∀ (id : ℕ) f, s.fcmhs[id]? = some f → f.refcnt = s.refs id
  lifetime : ∀ (id : ℕ) f, s.fcmhs[id]? = some f → f.fate ≠ .hashed → s.refs id = 0
  waiters : ∀ c ∈ s.calls, ∀ id, c.pc = .waiting id → ∃ f, s.fcmhs[id]? = some f ∧ f.initing
  woken : ∀ (i : ℕ) c id, s.calls[i]? = some c → c.pc = .woken id → ∃ f t, s.fcmhs[id]? = some f ∧
    step s (.resume i) = some t ∧ t.refs id + 1 = s.refs id ∧ (t.calls[i]?).map Call.pc = some .search
  returned : ∀ c ∈ s.calls, ∀ id, c.pc = .ret (some id) → ∃ f, s.fcmhs[id]? = some f ∧ f.bad = false

end Slash2.Fidc
