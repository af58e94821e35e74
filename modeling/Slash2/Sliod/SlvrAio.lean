/-
# Asynchronous reads of the backing store

With asynchronous I/O, `slvr_io_prep` of a sliver that is not cached only starts a read.
`sli_ric_handle_io` then attaches a reply to the first of its slivers that is faulting and answers
AIOWAIT; when a read completes, `slvr_fsaio_done` takes the reply that hangs on its sliver and
sends it if no sliver of the request is faulting. `sli_rii_handle_repl_read` does the same for one
sliver.
-/
import Slash2.Sliod.Stakes

namespace Slash2.SlvrAio

open Lib Sliver Function

/-! ### Requests -/

/-- A client's read or write, a write of a whole sliver, or `sli_rii_handle_repl_read`. -/
inductive Kind where
  | read (two : Bool)
  | write (two : Bool)
  | writeFull
  | repl
  deriving DecidableEq

namespace Kind

def nslvrs : Kind → ℕ
  | read two | write two => if two then 2 else 1
  | writeFull | repl => 1

/-- `rw == SL_WRITE` -/
def isWrite : Kind → Bool
  | read _ | repl => false
  | write _ | writeFull => true

theorem nslvrs_pos : ∀ k : Kind, 0 < k.nslvrs
  | read two | write two => by cases two <;> decide
  | writeFull | repl => by decide

end Kind

/-- How far a request is. -/
inductive Pc where
  /-- before `slvr_lookup` -/
  | lookup (i : ℕ) (na : Bool)
  /-- before `slvr_io_prep` -/
  | prep (i : ℕ) (na : Bool)
  | setup
  | check (i : ℕ) (rc : ℤ)
  | bulk
  /-- before `slvr_io_done`, on the way out with `k` slivers -/
  | ioDone (k i : ℕ) (rc : ℤ)
  /-- before `slvr_rio_done` or `slvr_wio_done` -/
  | drop (k i : ℕ) (rc : ℤ)
  | aiowait
  /-- in `slvr_aio_tryreply` -/
  | checking (i : ℕ)
  /-- before `slvr_aio_reply` or `slvr_aio_replreply` -/
  | replying
  | dropping (i : ℕ)
  | done
  deriving DecidableEq

namespace Pc

def handler : Pc → Bool
  | lookup .. | prep .. | setup | check .. | bulk | ioDone .. | drop .. => true
  | _ => false

def onThr : Pc → Bool
  | checking _ | replying | dropping _ => true
  | _ => false

end Pc

structure Req where
  kind : Kind
  n : ℕ
  /-- `aiocbr_csvc` is there -/
  csvc : Bool
  pc : Pc
  answered : Bool
  attempts : ℕ

def Req.idle : Req := ⟨.repl, 0, false, .done, false, 0⟩

structure Sliod where
  tab : Table
  req : ℕ → Req
  next : ℕ
  thr : Option ℕ
  failed : Bool

def Sliod.init : Sliod := ⟨Table.init, fun _ => Req.idle, 0, none, false⟩

variable (s : Sliod)

def Sliod.put (r : ℕ) (x : Req) (T : Table) : Sliod :=
  { s with tab := T, req := update s.req r x }

@[simp] theorem Sliod.put_req_self (r : ℕ) (x : Req) (T : Table) : (s.put r x T).req r = x := by
  simp [put]

@[simp] theorem Sliod.put_req_of_ne {r q : ℕ} (x : Req) (T : Table) (h : q ≠ r) : (s.put r x T).req q = s.req q := by
  simp [put, h]

/-- What `slvr_io_prep` returns. -/
inductive Prep where
  | ready
  | aiowait
  | error (rc : ℤ)

/-- `slvr_io_prep`; it waits while the sliver is faulting. -/
def slvrIoPrep (T : Table) (r n : ℕ) (full ok : Bool) : Option (Table × Prep) :=
  if (T.sl n).faulting then none
  else if (T.sl n).dataerr then some (T, if (T.sl n).err = 0 then .ready else .error (T.sl n).err)
  else if (T.sl n).datardy ∨ full then some (T.fault n, .ready)
  else if ok then some (T.register r n, .aiowait)
  else some (T.registerFails r n, .error 1)

/-- Where a handler goes on when sliver `i` is prepared. -/
def prepared (k : Kind) (i : ℕ) (na : Bool) : Pc :=
  if i + 1 < k.nslvrs then .lookup (i + 1) na
  else if na then .setup
  else if k = .repl then .ioDone k.nslvrs 0 0
  else .bulk

def firstErr (rc err : ℤ) : ℤ := if rc = 0 then err else rc

/-- Where a handler goes on with a ready sliver `i`. -/
def checked (k : Kind) (i : ℕ) (rc : ℤ) : Pc :=
  if i + 1 < k.nslvrs then .check (i + 1) rc
  else if rc ≠ 0 then .done
  else if k = .repl then .drop k.nslvrs i 0
  else .bulk

/-- A request drops its reference to sliver `n`. -/
def unpin (T : Table) (r n : ℕ) (k : Kind) : Option Table :=
  T.unpin r n (if k.isWrite then slvrWioDone (T.sl n) else slvrRioDone (T.sl n))

inductive Label where
  | arrive (k : Kind) (n : ℕ)
  | lookup (r : ℕ)
  | prep (r : ℕ) (ok : Bool)
  | setup (r : ℕ) (csvc : Bool)
  | check (r : ℕ)
  | bulk (r : ℕ) (rc : ℤ)
  | ioDone (r : ℕ)
  | drop (r : ℕ)
  | complete (b : Iocb) (rc : ℤ)
  | tryNext
  | reply (ok : Bool)
  | dropNext
  | reap (n : ℕ)

/-- A step of the handler of request `r`. -/
def handle (r : ℕ) (x : Req) : Pc → Label → Option Sliod
  | .lookup i na, .lookup _ =>
    -- it waits while the sliver is being freed or has an error
    if (s.tab.sl (x.n + i)).freeing ∨ (s.tab.sl (x.n + i)).dataerr then none
    else some (s.put r { x with pc := .prep i na } (s.tab.look r (x.n + i)))
  | .prep i na, .prep _ ok =>
    match slvrIoPrep s.tab r (x.n + i) (x.kind = .writeFull) ok with
    | none => none
    | some (T, .ready) => some (s.put r { x with pc := prepared x.kind i na } T)
    | some (T, .aiowait) => some (s.put r { x with pc := prepared x.kind i true } T)
    | some (T, .error rc) => some (s.put r { x with pc := .ioDone (i + 1) 0 rc } T)
  | .setup, .setup _ csvc =>
    -- a client without a service ends the request with `rc` 0
    if x.kind ≠ .repl ∧ csvc = false then
      some (s.put r { x with pc := .ioDone x.kind.nslvrs 0 0 } s.tab)
    else some (s.put r { x with csvc := csvc, pc := .check 0 0 } s.tab)
  | .check i rc, .check _ =>
    if (s.tab.sl (x.n + i)).faulting then
      some (s.put r { x with pc := .aiowait, answered := true }
        { s.tab with aioreply := update s.tab.aioreply (x.n + i) (some r) })
    else
      some (s.put r { x with pc := checked x.kind i (firstErr rc (s.tab.sl (x.n + i)).err) } s.tab)
  | .bulk, .bulk _ rc => some (s.put r { x with pc := .ioDone x.kind.nslvrs 0 rc } s.tab)
  | .ioDone k i rc, .ioDone _ =>
    -- `sli_rii_handle_repl_read` leaves with the error and keeps its reference
    some (s.put r { x with pc := if x.kind = .repl ∧ rc ≠ 0 then .done else .drop k i rc } (s.tab.ioDone (x.n + i) rc))
  | .drop k i rc, .drop _ =>
    match unpin s.tab r (x.n + i) x.kind with
    | none => some { s with failed := true }
    | some T => some (s.put r { x with pc := if i + 1 < k then .ioDone k (i + 1) rc else .done } T)
  | _, _ => none

/-! ### Completion -/

def slvrFsaioDone (b : Iocb) (rc : ℤ) : Sliod :=
  if s.tab.aioAsserts b = false then { s with failed := true }
  else
    match s.tab.aioreply b.n with
    | none => { s with tab := s.tab.complete b rc }
    | some r =>
      { s.put r { s.req r with pc := .checking 0 } (s.tab.complete b rc) with thr := some r }

/-- The assertion of `slvr_aio_chkslvrs`. -/
def slvrAioChkslvrs (T : Table) : List ℕ → Bool
  | [] => true
  | n :: ns =>
    ((T.sl n).datardy || (T.sl n).dataerr) &&
      ((T.sl n).dataerr && decide ((T.sl n).err ≠ 0) || slvrAioChkslvrs T ns)

/-- `aiocbr_slvrs` -/
def Req.slvrs (x : Req) : List ℕ := (List.range x.kind.nslvrs).map (x.n + ·)

/-- A completing thread's step, for request `r`. -/
def complete (r : ℕ) (x : Req) : Pc → Label → Option Sliod
  | .checking i, .tryNext =>
    -- nobody has the reply any more if a sliver is faulting
    if (s.tab.sl (x.n + i)).faulting then some { s.put r { x with pc := .aiowait } s.tab with thr := none }
    else
      some (s.put r { x with pc := if i + 1 < x.kind.nslvrs then .checking (i + 1) else .replying } s.tab)
  | .replying, .reply ok =>
    if x.csvc = false ∨ ok = false then
      -- the request is not sent; a replication read is not ended either
      if x.kind = .repl then
        some { s.put r { x with pc := .done, attempts := x.attempts + 1 } s.tab with thr := none }
      else some (s.put r { x with pc := .dropping 0, attempts := x.attempts + 1 } s.tab)
    else if slvrAioChkslvrs s.tab x.slvrs = false then some { s with failed := true }
    else some (s.put r { x with pc := .dropping 0, attempts := x.attempts + 1 } s.tab)
  | .dropping i, .dropNext =>
    match unpin s.tab r (x.n + i) x.kind with
    | none => some { s with failed := true }
    | some T =>
      if i + 1 < x.kind.nslvrs then some (s.put r { x with pc := .dropping (i + 1) } T)
      else some { s.put r { x with pc := .done } T with thr := none }
  | _, _ => none

def step (l : Label) : Option Sliod :=
  if s.failed then none
  else
    match l with
    | .arrive k n =>
      some { s.put s.next { Req.idle with kind := k, n := n, pc := .lookup 0 false } s.tab with
        next := s.next + 1 }
    | .lookup r | .prep r _ | .setup r _ | .check r | .bulk r _ | .ioDone r | .drop r =>
      handle s r (s.req r) (s.req r).pc l
    | .complete b rc => if b ∈ s.tab.out ∧ s.thr = none then some (slvrFsaioDone s b rc) else none
    | .tryNext | .reply _ | .dropNext =>
      match s.thr with
      | none => none
      | some r => complete s r (s.req r) (s.req r).pc l
    | .reap n =>
      if (s.tab.sl n).refcnt = 0 ∧ (s.tab.sl n).onLru then some { s with tab := s.tab.reset n } else none

/-- A request told to wait is replied to once, no other ever. -/
structure Replied (s : Sliod) : Prop where
  ok : s.failed = false
  asserts : ∀ b ∈ s.tab.out, s.tab.aioAsserts b
  /-- AIOWAIT: still waiting, being replied to, or replied to once -/
  once : ∀ r, (s.req r).answered →
    ((s.req r).attempts = 0 ∧ (s.thr = some r ∨ ∃ b ∈ s.tab.out, b.owner = r)) ∨
      ((s.req r).attempts = 1 ∧ ∀ b ∈ s.tab.out, b.owner ≠ r)
  never : ∀ r, (s.req r).answered = false → (s.req r).attempts = 0
  refs : ∀ n, (s.tab.sl n).refcnt = s.tab.held.countP fun p => p.2 = n
  taken : ∀ r n, s.tab.held.count (r, n) ≤ 1
  dropped : ∀ r, (s.req r).pc = .done → ∀ n, (r, n) ∉ s.tab.held
  /-- a faulting sliver is being read, or a handler is at work on it -/
  faulting : ∀ n, (s.tab.sl n).faulting →
    (∃ b ∈ s.tab.out, b.n = n) ∨ ∃ r, (r, n) ∈ s.tab.held ∧ (s.req r).pc.handler

/-- No read of the request is out. -/
def Quiet (r : ℕ) : Prop := ∀ b ∈ s.tab.out, b.owner ≠ r
  deriving Decidable

/-- `slvr_io_prep` is about to return an error. -/
def prepFails (r : ℕ) (ok : Bool) : Bool :=
  match (s.req r).pc with
  | .prep i _ =>
    match slvrIoPrep s.tab r ((s.req r).n + i) ((s.req r).kind = .writeFull) ok with
    | some (_, .error _) => true
    | _ => false
  | _ => false

def attaches (r : ℕ) : Bool :=
  match (s.req r).pc with
  | .check i _ => (s.tab.sl ((s.req r).n + i)).faulting
  | _ => false

def endsWithError (r : ℕ) : Bool :=
  match (s.req r).pc with
  | .check i rc =>
    decide (checked (s.req r).kind i (firstErr rc (s.tab.sl ((s.req r).n + i)).err) = .done)
  | _ => false

/-- `slvr_aio_tryreply` is about to give up. -/
def givesUp (r : ℕ) : Bool :=
  match (s.req r).pc with
  | .checking i => (s.tab.sl ((s.req r).n + i)).faulting
  | _ => false

def AllRead (r : ℕ) : Prop :=
  ∀ j < (s.req r).kind.nslvrs, (s.tab.sl ((s.req r).n + j)).faulting →
    ∃ b ∈ s.tab.out, b.n = (s.req r).n + j

instance (r : ℕ) : Decidable (AllRead s r) :=
  inferInstanceAs (Decidable (∀ j < (s.req r).kind.nslvrs, (s.tab.sl ((s.req r).n + j)).faulting = true →
    ∃ b ∈ s.tab.out, b.n = (s.req r).n + j))

/-- The condition on a step. -/
def Clean : Label → Prop
  | .prep r ok => prepFails s r ok → (s.req r).kind ≠ .repl ∧ Quiet s r
  | .setup r csvc => (s.req r).kind ≠ .repl ∧ csvc = false → Quiet s r
  | .check r => if attaches s r then AllRead s r else endsWithError s r = false
  | .tryNext => ∀ r ∈ s.thr, givesUp s r = false
  | .reply ok => ∀ r ∈ s.thr, (s.req r).kind = .repl → (s.req r).csvc ∧ ok
  | _ => True

instance (l : Label) : Decidable (Clean s l) := by
  cases l <;> unfold Clean <;> infer_instance

end Slash2.SlvrAio
