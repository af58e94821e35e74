/-
# References to a request and its biorqs

`msl_io` builds a biorq for each bmap of a request, starts their I/O and drops its reference to
the request (step 5) and then to each biorq (step 6). A biorq is also referenced by its RPCs, by
the page it waits for and by the flush code. Whoever drops the last reference completes the biorq
(`_msl_biorq_release`), which drops one of the request; the last one of those sends the reply.
-/
import Slash2.Client.Fsrq

namespace Slash2.Client.Io.Refs

open Lib

inductive Kind where
  /-- the thread in `msl_io` -/
  | io
  /-- a read RPC for cached pages (`msl_read_cleanup`) -/
  | read
  /-- a direct-I/O RPC (`msl_dio_cleanup`) -/
  | dio
  /-- a page's list `bmpce_pndgaios` (`msl_bmpce_complete_biorq`) -/
  | wait
  | flush
  deriving DecidableEq

inductive Pc where
  | listed
  /-- before `msl_biorq_release` -/
  | held
  /-- found itself the last one; before `msl_biorq_complete_fsrq` -/
  | copying
  /-- before `msl_complete_fsrq` -/
  | replying (len : ℕ) (flush : Bool)
  /-- before `msl_pages_schedflush` -/
  | flushing
  /-- before the decrement of `biorq_ref` -/
  | dropping
  deriving DecidableEq

structure Tok where
  kind : Kind
  pc : Pc
  deriving DecidableEq

/-- `struct bmpc_ioreq`, as far as references go. -/
structure Rq where
  req : Ioreq
  /-- `BIORQ_READ` or `BIORQ_WRITE` -/
  rw : Rw
  /-- `biorq_ref` -/
  ref : ℕ
  flushrdy : Bool
  wait : Bool
  toks : List Tok
  /-- threads in `msl_dio_cleanup` that still use the request -/
  waking : ℕ
  ended : Bool

/-- Where `msl_io` is. -/
inductive IoPc where
  /-- step 1, at biorq `i` -/
  | get (i : ℕ)
  /-- step 3, at biorq `i` -/
  | launch (i : ℕ)
  | out (rc : ℤ)
  | drop
  /-- step 6, before it reads `mfsrq_biorq[i]` -/
  | release (i : ℕ)
  /-- step 6, in `msl_biorq_release` -/
  | releasing (i : ℕ)
  | done
  deriving DecidableEq

structure State where
  q : Fsrq
  plan : List Ioreq
  nr : ℕ
  /-- the biorqs that have been built, `mfsrq_biorq` -/
  rqs : List Rq
  io : IoPc
  replies : ℕ
  /-- the request has been used after its last reference was dropped -/
  uaf : Bool

variable (s : State)

def State.use : State := { s with uaf := s.uaf || s.q.replied }

/-- Change biorq `i`. -/
def State.setRq (i : ℕ) (r : Rq) : State := { s with rqs := s.rqs.set i r }

/-- `msl_complete_fsrq` -/
def State.complete (len : ℕ) : State :=
  { s with
    q := (mslCompleteFsrq s.q len).1
    replies := if (mslCompleteFsrq s.q len).2.isSome then s.replies + 1 else s.replies }

/-! ### The thread in `msl_io` -/

def bmpcBiorqNew (r : Ioreq) (rw : Rw) : Rq := ⟨r, rw, 1, false, false, [⟨.io, .held⟩], 0, false⟩

/-- `biorq_incref` -/
def Rq.incref (r : Rq) (k : Kind) (pc : Pc) : Rq := { r with ref := r.ref + 1, toks := r.toks ++ [⟨k, pc⟩] }

/-- `msl_fsrq_aiowait_tryadd_locked` -/
def Rq.tryadd (r : Rq) : Rq := if r.wait then r else { r.incref .wait .listed with wait := true }

/-- Step 1: `bmap_get` and `msl_bmap_lease_tryext` give `rc`. -/
def ioBmap (rc : ℤ) : Option State :=
  match s.io with
  | .get i =>
    let io := if i + 1 < s.nr then IoPc.get (i + 1) else .launch 0
    if rc ≠ 0 then some { s with io := .out rc }
    else if i < s.rqs.length then some { s.use with io := io }
    else (s.plan[i]?).map fun r =>
      { s.use with io := io, q := s.q.addBiorq r, rqs := s.rqs ++ [bmpcBiorqNew r s.q.rw] }
  | _ => none

def ioLaunch : Option State :=
  match s.io with
  | .launch i => (s.rqs[i]?).bind fun r =>
    if r.req.dio then some (s.setRq i (r.incref .dio .held))
    else if r.rw = .read then some (s.setRq i (r.incref .read .held))
    else none
  | _ => none

/-- `msl_pages_fetch` finds a page that waits for asynchronous I/O. -/
def ioAiowait : Option State :=
  match s.io with
  | .launch i => (s.rqs[i]?).bind fun r =>
    if r.req.dio = false ∧ r.rw = .read then some (s.setRq i r.tryadd) else none
  | _ => none

/-- `msl_pages_fetch` or `msl_pages_dio_getput` returns `rc`. -/
def ioLaunched (rc : ℤ) : Option State :=
  match s.io with
  | .launch i => (s.rqs[i]?).map fun r =>
    if rc ≠ 0 then { s with io := .out rc }
    else
      { s.use with
        q := { s.q with copied := s.q.copied || r.req.dio }
        io := if i + 1 < s.nr then .launch (i + 1) else .out 0 }
  | _ => none

/-- Step 4; `retry` is what `msl_fd_should_retry` says. -/
def ioNext (retry : Bool) : Option State :=
  match s.io with
  | .out rc =>
    if rc = 0 then some { s with io := .drop }
    else if retry then some { s.use with q := mfsrqClrerr s.q, io := .get 0 }
    else some { s.use with q := mfsrqSeterr s.q (if |rc| = slerrIonOffline then -etimedout else rc), io := .drop }
  | _ => none

def ioDrop : Option State :=
  match s.io with
  | .drop => some { s.use.complete 0 with io := .release 0 }
  | _ => none

/-- Step 6 reads `mfsrq_biorq[i]`. -/
def ioRelease : Option State :=
  match s.io with
  | .release i =>
    if i < s.nr then some { s.use with io := if i < s.rqs.length then .releasing i else .release (i + 1) }
    else some { s with io := .done }
  | _ => none

/-! ### References to a biorq -/

/-- `mfsrq_seterr` by an RPC that failed. -/
def seterr (rc : ℤ) (tk : Tok) : Option State :=
  if (tk.kind = .read ∨ tk.kind = .dio) ∧ tk.pc = .held then some { s.use with q := mfsrqSeterr s.q rc } else none

/-- `msl_bmpce_complete_biorq` takes the biorq off a list. -/
def pop (i n : ℕ) (rc : ℤ) (r : Rq) (tk : Tok) : Option State :=
  if tk = ⟨.wait, .listed⟩ then
    some { s.use with
      q := mfsrqSeterr s.q rc
      rqs := s.rqs.set i { r with wait := false, toks := r.toks.set n ⟨.wait, .held⟩ } }
  else none

def readd (i : ℕ) (r : Rq) (tk : Tok) : Option State :=
  if tk = ⟨.wait, .held⟩ then some (s.setRq i r.tryadd) else none

/-- A reference goes; `msl_dio_cleanup` still uses the request. -/
def Rq.drop (r : Rq) (n : ℕ) (k : Kind) : Rq :=
  { r with
    ref := r.ref - 1
    toks := r.toks.eraseIdx n
    waking := if k = .dio then r.waking + 1 else r.waking }

def State.dropped (i n : ℕ) (r : Rq) (k : Kind) : State :=
  { s.setRq i (r.drop n k) with io := if k = .io then .release (i + 1) else s.io }

/-- The first critical section of `_msl_biorq_release`. -/
def check (i n : ℕ) (r : Rq) (tk : Tok) : Option State :=
  if tk.pc = .held ∧ (tk.kind = .io → s.io = .releasing i) then
    if r.ref = 1 ∧ (r.rw = .read ∨ r.flushrdy = false) then
      some (s.setRq i { r with toks := r.toks.set n ⟨tk.kind, .copying⟩ })
    else some (s.dropped i n r tk.kind)
  else none

/-- `msl_biorq_complete_fsrq` up to `msl_complete_fsrq`. -/
def copy (i n fsz : ℕ) (pages : List Page) (src : List Byte) (r : Rq) (tk : Tok) : Option State :=
  if tk.pc = .copying then
    (mslBiorqCompleteFsrq s.q i r.req fsz pages src).map fun out =>
      { s.use with
        q := out.1
        rqs := s.rqs.set i { r with toks := r.toks.set n ⟨tk.kind, .replying out.2.1 out.2.2⟩ } }
  else none

/-- `msl_complete_fsrq` for the biorq. -/
def reply (i n : ℕ) (r : Rq) (tk : Tok) : Option State :=
  match tk.pc with
  | .replying len fl => some <| State.complete (s.use.setRq i
      { r with ended := true, toks := r.toks.set n ⟨tk.kind, if fl then .flushing else .dropping⟩ }) len
  | _ => none

/-- `msl_pages_schedflush` -/
def schedflush (i n : ℕ) (r : Rq) (tk : Tok) : Option State :=
  if tk.pc = .flushing then
    some (s.setRq i
      { ({ r with toks := r.toks.set n ⟨tk.kind, .dropping⟩ } : Rq).incref .flush .held with flushrdy := true })
  else none

/-- The last critical section of `_msl_biorq_release`. -/
def decref (i n : ℕ) (r : Rq) (tk : Tok) : Option State :=
  if tk.pc = .dropping ∧ (tk.kind = .io → s.io = .releasing i) then some (s.dropped i n r tk.kind) else none

/-- The end of `msl_dio_cleanup`. -/
def wake (i : ℕ) (r : Rq) : Option State :=
  if r.waking ≠ 0 then some (s.use.setRq i { r with waking := r.waking - 1 }) else none

/-- `i` is the number of a biorq, `n` the place of the reference. -/
inductive Label where
  | bmap (rc : ℤ)
  | launch
  | aiowait
  | launched (rc : ℤ)
  | next (retry : Bool)
  | drop
  | release
  | seterr (i n : ℕ) (rc : ℤ)
  | pop (i n : ℕ) (rc : ℤ)
  | readd (i n : ℕ)
  | check (i n : ℕ)
  | copy (i n fsz : ℕ) (pages : List Page) (src : List Byte)
  | reply (i n : ℕ)
  | schedflush (i n : ℕ)
  | decref (i n : ℕ)
  | wake (i : ℕ)

/-- Go on with reference `n` of biorq `i`. -/
def State.withTok (i n : ℕ) (f : Rq → Tok → Option State) : Option State :=
  (s.rqs[i]?).bind fun r => (r.toks[n]?).bind (f r)

def step : Label → Option State
  | .bmap rc => ioBmap s rc
  | .launch => ioLaunch s
  | .aiowait => ioAiowait s
  | .launched rc => ioLaunched s rc
  | .next retry => ioNext s retry
  | .drop => ioDrop s
  | .release => ioRelease s
  | .seterr i n rc => s.withTok i n fun _ tk => seterr s rc tk
  | .pop i n rc => s.withTok i n (pop s i n rc)
  | .readd i n => s.withTok i n (readd s i)
  | .check i n => s.withTok i n (check s i n)
  | .copy i n fsz pages src => s.withTok i n (copy s i n fsz pages src)
  | .reply i n => s.withTok i n (reply s i n)
  | .schedflush i n => s.withTok i n (schedflush s i n)
  | .decref i n => s.withTok i n (decref s i n)
  | .wake i => (s.rqs[i]?).bind (wake s i)

/-- The state after `msl_fsrqinfo_init`. -/
def start (dio : ℕ → Bool) (p : Request) (fsz : ℕ) : State :=
  if ioNr p fsz > maxBmapsReq then
    ⟨{ mslFsrqinfoInit p fsz with ref := 0, replied := true }, [], 0, [], .done, 1, false⟩
  else
    ⟨mslFsrqinfoInit p fsz, mslIoBiorqs dio p fsz, (ioNr p fsz).toNat, [],
      if pastEof p fsz then .out 0 else .get 0, 0, false⟩

end Slash2.Client.Io.Refs
