/-
# Connections to other services

A client service (`csvc`) is the connection of this node to one peer. `_sl_csvc_get` returns it
with a reference, after an attempt to connect if need be, either waiting for the answer or, with
`CSVCF_NONBLOCK`, leaving that to a callback. `csvc_tryref` counts what may still connect,
`csvc_refcnt` those who use the service; the service of a client has one reference more, of the
export.
-/
import Slash2.Slerr
import Mathlib.Algebra.BigOperators.Group.List.Basic
import Mathlib.Algebra.Order.Ring.Nat

namespace Slash2.Csvc

/-! ### The service -/

/-- `struct pscrpc_import` -/
structure Import where
  failed : Bool
  invalid : Bool

/-- `struct slrpc_cservice` -/
structure Service where
  imports : List Import
  /-- `csvc_import` -/
  imp : Option ℕ
  lasterrno : ℤ
  tryref : ℤ
  refcnt : ℤ
  nfails : ℕ
  connecting : Bool
  connected : Bool
  abandon : Bool
  wantfree : Bool
  busy : Bool
  disconnecting : Bool
  freed : Bool
  failed : Bool

/-- `sl_csvc_create`; the service of a client has a reference. -/
def Service.create (cli nonblock : Bool) : Service :=
  ⟨[], none, 0, 0, if cli then 1 else 0, 0, false, false, false, false, false, nonblock, false, false⟩

variable (v : Service)

/-- `sl_csvc_useable` -/
def Service.useable : Bool :=
  match v.imp.bind fun k => v.imports[k]? with
  | none => false
  | some m => !m.failed && !m.invalid && v.connected && !v.abandon && !v.disconnecting

/-- `csvc_import = slrpc_new_import` -/
def Service.newImport : Service :=
  { v with imports := v.imports ++ [⟨false, false⟩], imp := some v.imports.length }

def Service.mark (m : Import) : Service :=
  match v.imp with
  | none => v
  | some k => { v with imports := v.imports.set k m }

/-- `sl_csvc_dectryref` -/
def Service.dectryref : Service :=
  if 0 < v.tryref then { v with tryref := v.tryref - 1, connecting := v.connecting && v.tryref ≠ 1 }
  else { v with failed := true }

/-- `slrpc_connect_finish` -/
def Service.connectFinish (imp : ℕ) (old : Option ℕ) (success : Bool) : Service :=
  let v := v.dectryref
  if success then { v with imp := some imp }
  else { v with imp := if v.imp = some imp then old else v.imp, nfails := v.nfails + 1 }

/-- `sl_csvc_online`, when the service is not busy -/
def Service.online : Service :=
  { v.mark ⟨false, false⟩ with connecting := false, connected := true, lasterrno := 0, nfails := 0 }

/-- `_sl_csvc_disconnect_core`, when it does not wait -/
def Service.disconnected : Service := { v with connected := false, lasterrno := 0, imp := none }

/-- `sl_csvc_markfree` -/
def Service.markfree : Service :=
  { v with abandon := true, wantfree := true, connected := false, connecting := false, lasterrno := 0 }

/-- `_sl_csvc_disable` -/
def Service.disable : Service :=
  { v with abandon := true, connected := false, connecting := false, lasterrno := 0 }

/-- Where a call of `_sl_csvc_get` is. -/
inductive Pc where
  /-- at `restart`, or woken up to go there -/
  | restart
  /-- between two addresses, with those that are left and `rc` -/
  | connect (left : ℕ) (rc : ℤ)
  /-- in `slrpc_issue_connect`, where the request is made -/
  | newreq (left : ℕ) (rc : ℤ) (imp : ℕ) (old : Option ℕ)
  /-- in `slrpc_issue_connect`, where the request is sent -/
  | sent (left : ℕ) (rc : ℤ) (imp : ℕ) (old : Option ℕ)
  /-- in `slrpc_issue_connect`, left to the callback -/
  | added (left : ℕ) (rc : ℤ)
  /-- in `sl_csvc_online` -/
  | online
  /-- returned, with the service or with `NULL` -/
  | ret (got : Bool)
  deriving DecidableEq

/-- A call of `_sl_csvc_get`. -/
structure Call where
  nonblock : Bool
  norecon : Bool
  exp : Bool
  /-- pairs of addresses on the same network -/
  addrs : ℕ
  pc : Pc

inductive Stage where
  | pending
  /-- `slrpc_connect_cb` is in `sl_csvc_online` -/
  | online
  | done
  deriving DecidableEq

/-- A request that is left to `slrpc_connect_cb`. -/
structure Rpc where
  imp : ℕ
  old : Option ℕ
  stage : Stage

structure State where
  csvc : Service
  calls : List Call
  rpcs : List Rpc
  held : ℕ
  owned : Bool
  /-- those that wait in `_sl_csvc_disconnect_core` -/
  cores : ℕ

def State.create (cli nonblock : Bool) : State := ⟨Service.create cli nonblock, [], [], 0, cli, 0⟩

variable (s : State)

def State.setCall (i : ℕ) (c : Call) (pc : Pc) : State :=
  { s with calls := s.calls.set i { c with pc } }

def State.setRpc (j : ℕ) (r : Rpc) (stage : Stage) : State :=
  { s with rpcs := s.rpcs.set j { r with stage } }

/-- `_sl_csvc_disconnect_core` -/
def State.disconnectCore (high : Bool) : State :=
  if high ∧ s.csvc.busy then { s with cores := s.cores + 1 } else { s with csvc := s.csvc.disconnected }

/-- `_sl_csvc_decref` -/
def State.decref : State :=
  let v := { s.csvc with refcnt := s.csvc.refcnt - 1 }
  let s := { s with csvc := v }
  if v.refcnt < 0 then { s with csvc := { v with failed := true } }
  else if v.refcnt = 0 then
    if v.wantfree then { s with csvc := { v with freed := true } }
    else if v.disconnecting then s.disconnectCore true
    else s
  else s

/-- `_sl_csvc_disconnect` -/
def State.disconnect (high : Bool) : State :=
  if s.csvc.disconnecting then s
  else if s.csvc.refcnt = 1 then s.disconnectCore high
  else { s with csvc := { s.csvc with disconnecting := true } }

def State.out (i : ℕ) (c : Call) : State :=
  { s.setCall i c (.ret true) with
    csvc := { s.csvc with refcnt := s.csvc.refcnt + 1 }
    held := s.held + 1 }

/-- The call goes into `sl_csvc_online`, and returns the service. -/
def State.goOnline (i : ℕ) (c : Call) : State :=
  if s.csvc.busy then s.setCall i c .online else State.out { s with csvc := s.csvc.online } i c

/-- The callback goes into `sl_csvc_online`. -/
def State.cbOnline (j : ℕ) (r : Rpc) : State :=
  if s.csvc.busy then s.setRpc j r .online
  else State.decref { s.setRpc j r .done with csvc := s.csvc.online }

/-- The next address, after `trc`. -/
def next (left : ℕ) (rc trc : ℤ) : Pc :=
  if trc = 0 then .connect 0 0 else .connect left (if rc = eagain then rc else trc)

/-- `_sl_csvc_get` from `restart` on -/
def restart (i : ℕ) (c : Call) (late : Bool) : State :=
  if s.csvc.useable then s.out i c
  else
    let v := { s.csvc with connected := false }
    let s := { s with csvc := v }
    if c.exp then
      let v := if v.imp = none then v.newImport else v
      State.goOnline { s with csvc := { v with connecting := false, disconnecting := false, connected := true } } i c
    else if v.tryref ≠ 0 ∨ v.connecting then
      if c.nonblock then s.setCall i c (.ret false) else s
    else if c.norecon then s.setCall i c (.ret false)
    else if v.lasterrno = 0 ∨ late ∨ v.nfails < 2 then
      let v := { v with connecting := true, disconnecting := false, tryref := v.tryref + 1 }
      let v := if c.nonblock then { v with imp := none } else if v.imp = none then v.newImport else v
      { s.setCall i c (.connect c.addrs enetunreach) with csvc := v }
    else s.setCall i c (.ret false)

/-- The first part of `slrpc_issue_connect` -/
def issue (i : ℕ) (c : Call) (left : ℕ) (rc : ℤ) : State :=
  let v := if s.csvc.busy then { s.csvc with failed := true } else { s.csvc with busy := true }
  if c.nonblock then
    { s.setCall i c (.newreq left rc v.imports.length v.imp) with csvc := v.newImport }
  else
    match v.imp with
    | none => { s.setCall i c (.newreq left rc v.imports.length none) with csvc := v.newImport }
    | some imp => { s.setCall i c (.newreq left rc imp none) with csvc := v }

/-- `_sl_csvc_get` from `proc_conn` on -/
def procConn (i : ℕ) (c : Call) (rc : ℤ) : State :=
  let v := s.csvc.dectryref
  if rc = eagain then { s.setCall i c (.ret false) with csvc := v }
  else
    let v := { v with connecting := false }
    if rc = 0 then State.goOnline { s with csvc := v } i c
    else
      let m := (v.imp.bind fun k => v.imports[k]?).getD ⟨false, false⟩
      { s.setCall i c (.ret false) with csvc := { v.mark { m with failed := true } with lasterrno := rc } }

inductive Op where
  /-- a call of `_sl_csvc_get` -/
  | get (nonblock norecon exp : Bool) (addrs : ℕ)
  | restart (i : ℕ) (late : Bool)
  | issue (i : ℕ)
  | newreq (i : ℕ) (rc : ℤ)
  /-- `SL_NBRQSET_ADD` -/
  | add (i : ℕ) (rc : ℤ)
  | added (i : ℕ)
  | waitrep (i : ℕ) (rc : ℤ)
  | procConn (i : ℕ)
  | online (i : ℕ)
  | connectCb (j : ℕ) (rc : ℤ)
  | cbOnline (j : ℕ)
  /-- `sl_csvc_incref`, and `sl_csvc_decref` -/
  | incref
  | decref
  /-- `sl_csvc_decref` in `sl_exp_hldrop_cli`, `sl_imp_hldrop_cli` -/
  | hldrop
  | markfree
  | disable
  | disconnect (high : Bool)
  /-- one who waits in `_sl_csvc_disconnect_core` goes on -/
  | core
  | mark (k : ℕ) (m : Import)

def act : Op → Option State
  | .get nonblock norecon exp addrs => some { s with calls := s.calls ++ [⟨nonblock, norecon, exp, addrs, .restart⟩] }
  | .restart i late => do
    let c ← s.calls[i]?
    if c.pc = .restart then some (Csvc.restart s i c late) else none
  | .issue i => do
    let c ← s.calls[i]?
    match c.pc with
    | .connect (left + 1) rc => some (Csvc.issue s i c left rc)
    | _ => none
  | .newreq i err => do
    let c ← s.calls[i]?
    match c.pc with
    | .newreq left rc imp old =>
      if err = 0 then
        some { s.setCall i c (.sent left rc imp old) with
          csvc := { s.csvc with refcnt := s.csvc.refcnt + 1, tryref := s.csvc.tryref + 1 } }
      else
        some { s.setCall i c (next left rc err) with
          csvc := Service.connectFinish { s.csvc with busy := false } imp old false }
    | _ => none
  | .add i err => do
    let c ← s.calls[i]?
    match c.pc with
    | .sent left rc imp old =>
      if c.nonblock = false then none
      else if err = 0 then some { s.setCall i c (.added left rc) with rpcs := s.rpcs ++ [⟨imp, old, .pending⟩] }
      else
        some (State.decref { s.setCall i c (next left rc err) with
          csvc := Service.connectFinish { s.csvc with busy := false } imp old false })
    | _ => none
  | .added i => do
    let c ← s.calls[i]?
    match c.pc with
    | .added left rc => some { s.setCall i c (next left rc eagain) with csvc := { s.csvc with busy := false } }
    | _ => none
  | .waitrep i err => do
    let c ← s.calls[i]?
    match c.pc with
    | .sent left rc imp old =>
      if c.nonblock then none
      else
        some { s.setCall i c (next left rc err) with
          csvc := Service.connectFinish { s.csvc with busy := false } imp old (err = 0) }
    | _ => none
  | .procConn i => do
    let c ← s.calls[i]?
    match c.pc with
    | .connect 0 rc => some (Csvc.procConn s i c rc)
    | _ => none
  | .online i => do
    let c ← s.calls[i]?
    if c.pc = .online then some (s.goOnline i c) else none
  | .connectCb j err => do
    let r ← s.rpcs[j]?
    if r.stage = .pending then
      let v := s.csvc.connectFinish r.imp r.old (err = 0)
      if err = 0 then some (State.cbOnline { s with csvc := v } j r)
      else some (State.decref { s.setRpc j r .done with csvc := { v with lasterrno := err } })
    else none
  | .cbOnline j => do
    let r ← s.rpcs[j]?
    if r.stage = .online then some (s.cbOnline j r) else none
  | .incref => some { s with csvc := { s.csvc with refcnt := s.csvc.refcnt + 1 }, held := s.held + 1 }
  | .decref => if 0 < s.held then some (State.decref { s with held := s.held - 1 }) else none
  | .hldrop => some (State.decref { s with owned := false })
  | .markfree => some { s with csvc := s.csvc.markfree }
  | .disable => some { s with csvc := s.csvc.disable }
  | .disconnect high => some (s.disconnect high)
  | .core =>
    if 0 < s.cores ∧ s.csvc.busy = false then some { s with csvc := s.csvc.disconnected, cores := s.cores - 1 } else none
  | .mark k m => some { s with csvc := { s.csvc with imports := s.csvc.imports.set k m } }

def step (o : Op) : Option State := if s.csvc.freed ∨ s.csvc.failed then none else act s o

def State.Quiet : Prop :=
  (∀ c ∈ s.calls, ∃ got, c.pc = .ret got) ∧ ∀ r ∈ s.rpcs, r.stage = .done

/-- **The counts are right.** -/
structure Accounted (s : State) : Prop where
  asserts : s.csvc.failed = false
  tryref_nonneg : 0 ≤ s.csvc.tryref
  refcnt_nonneg : 0 ≤ s.csvc.refcnt
  quiet : s.Quiet → s.csvc.tryref = 0 ∧ s.csvc.refcnt = s.held + if s.owned then 1 else 0
  freed : s.csvc.freed → s.csvc.refcnt = 0

/-- Requests are made without error, and not in a call that may block; the list drops only what it has. -/
def Usual : Op → Prop
  | .newreq i rc => rc = 0 ∧ ∀ c ∈ s.calls[i]?, c.nonblock
  | .hldrop => s.owned
  | _ => True

end Slash2.Csvc
