/-
# Getting a bmap with its lease

A thread that wants to read or write gets the bmap first (`_bmap_get`). If it is not in the cache
the thread puts it there with `BMAPF_INIT`, asks the MDS for a lease (`msl_bmap_retrieve`) and
waits for the callback, which leaves the error in `bci_error` or takes over the lease
(`msl_bmap_reap_init`). Others wait until the flag is gone, and may ask for another mode of access
(`msl_bmap_modeset`). A lease that cannot be extended leaves its error in `bci_error` too, and the bmap
stays in the cache.

Key definitions: `step`, `Granted`, `Fine`.
-/
import Mathlib.Data.Nat.Notation
import Slash2.Slerr

namespace Slash2.Client.BmapGet

/-! ### Threads and the bmap -/

/-- `enum rw` -/
inductive Rw where
  | read
  | write
  deriving DecidableEq

inductive Kind where
  /-- I/O: `bmap_get` -/
  | io
  /-- only the lease, in the background: `BMAPGETF_ASYNC` -/
  | ahead
  /-- the lease is in the reply to a CREATE: `BMAPGETF_NORETRIEVE` -/
  | create
  deriving DecidableEq

inductive Pc where
  | retrieving
  | sent
  /-- `psc_compl_wait` has returned -/
  | replied
  /-- in `bmap_wait_locked` -/
  | waiting
  /-- in `msl_bmap_modeset`, with `nretries` -/
  | modeset (nretries : ℕ)
  /-- `_bmap_get` has returned zero -/
  | got
  /-- it has returned `rc`, or the reference has been given back -/
  | done (rc : ℤ)
  deriving DecidableEq

structure Thread where
  kind : Kind
  rw : Rw
  pc : Pc
  deriving DecidableEq

/-- The references of a thread to the bmap, `BMAP_OPCNT_LOOKUP`. -/
def Thread.refs (th : Thread) : ℕ :=
  match th.pc with
  | .done _ => 0
  | _ => 1

def Thread.lead (th : Thread) : ℕ :=
  match th.kind, th.pc with
  | _, .retrieving | .io, .sent => 1
  | _, _ => 0

/-- `struct bmap` with its `struct bmap_cli_info` -/
structure Bmap where
  init : Bool
  modechng : Bool
  /-- `BMAPF_RD` -/
  rd : Bool
  /-- `BMAPF_WR` -/
  wr : Bool
  timeoq : Bool
  /-- `sbd_seq` -/
  seq : ℕ
  /-- `bci_error` -/
  err : ℤ
  opcnt : ℕ
  /-- those of type `BMAP_OPCNT_REAPER` -/
  reaper : ℕ
  /-- those of type `BMAP_OPCNT_ASYNC` -/
  async : ℕ
  /-- those of I/O requests, flushes, extensions, reassignments -/
  others : ℕ
  rpc : Option Rw
  lease : Option Rw
  deriving DecidableEq

variable (b : Bmap)

/-- `bcm_flags & bmaprw` -/
def Bmap.mode : Rw → Bool
  | .read => b.rd
  | .write => b.wr

/-- `bcm_flags |= bmaprw` -/
def Bmap.setMode : Rw → Bmap
  | .read => { b with rd := true }
  | .write => { b with wr := true }

/-- A new bmap in the cache, with its mode. -/
def Bmap.new (rw : Rw) : Bmap :=
  ⟨true, false, rw = .read, rw = .write, false, 0, 0, 1, 0, 0, 0, none, none⟩

/-- `msl_bmap_reap_init` of a lease for `rw` -/
def Bmap.reapInit (rw : Rw) (seq : ℕ) : Option Bmap :=
  if seq = 0 then none
  else some { b with seq := seq, timeoq := true, reaper := b.reaper + 1, opcnt := b.opcnt + 1,
                     init := false, lease := some rw }

/-- `bmap_op_done_type`: the last one takes the bmap out of the cache. -/
def Bmap.opDone : Option Bmap :=
  if b.opcnt ≤ 1 then none else some { b with opcnt := b.opcnt - 1 }

/-- What the caller does when `_bmap_get` returns. -/
def Bmap.finish (k : Kind) (seq : ℕ) : Option Bmap :=
  if k = .create then b.reapInit .write seq else some b

inductive Reply where
  | ok (seq : ℕ)
  | err (rc : ℤ)
  deriving DecidableEq

structure State where
  b : Option Bmap
  ths : List Thread
  deriving DecidableEq

def State.init : State := ⟨none, []⟩

variable (s : State)

/-- Thread `i` goes on at `pc`, with the bmap as `b`. -/
def State.go (i : ℕ) (th : Thread) (pc : Pc) (b : Option Bmap) : State :=
  ⟨b, s.ths.set i { th with pc := pc }⟩

inductive Op where
  /-- a thread calls `_bmap_get` -/
  | get (k : Kind) (rw : Rw)
  /-- `msl_bmap_retrieve` sends the RPC -/
  | send (i : ℕ)
  | sendFail (i : ℕ) (rc : ℤ)
  | start (i : ℕ)
  /-- `msl_rmc_bmlget_cb` for a thread that waits -/
  | reply (i : ℕ) (r : Reply)
  /-- `msl_rmc_bmlget_cb` in the background -/
  | aheadReply (r : Reply)
  | resume (i : ℕ)
  | piggyback (i : ℕ) (seq : ℕ)
  /-- a thread goes on that waited for `BMAPF_INIT` or `BMAPF_MODECHNG` -/
  | wake (i : ℕ) (seq : ℕ)
  /-- `msl_bmap_modeset` gets a reply -/
  | mode (i : ℕ) (r : Reply) (seq : ℕ)
  | put (i : ℕ)
  /-- `msbreleasethr_main` evicts the bmap -/
  | reap
  /-- the lease is extended -/
  | renew (seq : ℕ)
  /-- the extension is refused, or cannot be sent -/
  | renewFail (rc : ℤ)
  /-- a reference of another kind is taken -/
  | hold
  | drop

def bmapCliMaxLease : ℕ := 60

/-- `_bmap_get` up to where it waits or retrieves. -/
def bmapGet (k : Kind) (rw : Rw) : State :=
  match s.b with
  | none => ⟨some (Bmap.new rw), s.ths ++ [⟨k, rw, .retrieving⟩]⟩
  | some b =>
    ⟨some { b with opcnt := b.opcnt + 1 }, s.ths ++ [⟨k, rw, if k = .ahead then .got else .waiting⟩]⟩

def mslBmapModeset (i : ℕ) (th : Thread) (nretries : ℕ) (b : Bmap) (r : Reply) (seq : ℕ) : Option State :=
  let changed (b : Bmap) : Option State :=
    (({ b with modechng := false }.setMode th.rw).finish th.kind seq).map fun b => s.go i th .got (some b)
  let failed (rc : ℤ) : Option State := some (s.go i th (.done rc) { b with modechng := false }.opDone)
  -- write enabled bmaps are allowed to read with no further action being taken
  if b.wr then changed b
  -- psc_assert(rw == SL_WRITE && (b->bcm_flags & BMAPF_RD))
  else if th.rw ≠ .write ∨ b.rd = false then none
  else match r with
    | .ok q => changed { b with seq := q, lease := some .write }
    | .err rc =>
      if rc ≠ -slerrBmapDiowait then failed rc
      -- `nretries' is incremented twice
      else if bmapCliMaxLease < nretries + 2 then failed (-etimedout)
      else some (s.go i th (.modeset (nretries + 2)) (some b))

/-- Thread `i` at work on the bmap. -/
def State.withThread (i : ℕ) (f : Thread → Bmap → Option State) : Option State :=
  s.ths[i]?.bind fun th => s.b.bind fun b => f th b

def step : Op → Option State
  | .get k rw => some (bmapGet s k rw)
  | .send i => s.withThread i fun th b =>
    if th.pc ≠ .retrieving ∨ th.kind = .create then none
    else some (s.go i th .sent (some { b with rpc := if th.kind = .ahead then some th.rw else b.rpc }))
  | .sendFail i rc => s.withThread i fun th b =>
    if th.pc ≠ .retrieving ∨ th.kind = .create ∨ rc = 0 then none
    -- BMAPF_INIT is left alone for BMAPGETF_ASYNC
    else some (s.go i th (.done rc) { b with init := th.kind = Kind.ahead ∧ b.init }.opDone)
  | .start i => s.withThread i fun th b =>
    if th.pc ≠ .sent ∨ th.kind ≠ .ahead then none
    else some (s.go i th .got (some { b with opcnt := b.opcnt + 1, async := b.async + 1 }))
  | .reply i r => s.withThread i fun th b =>
    if th.pc ≠ .sent ∨ th.kind ≠ .io then none
    else match r with
      | .ok seq => (b.reapInit th.rw seq).map fun b => s.go i th .replied (some b)
      | .err rc => some (s.go i th .replied (some { b with err := rc }))
  | .aheadReply r => s.b.bind fun b => b.rpc.bind fun rw =>
    let replied := match r with
      | .ok seq => { b with rpc := none }.reapInit rw seq
      | .err rc => some { b with rpc := none, err := rc }
    -- a bmap that is freed under the thread that sent the RPC ends the run
    replied.bind fun b => { b with async := b.async - 1 }.opDone.map fun b => { s with b := some b }
  | .resume i => s.withThread i fun th b =>
    if th.pc ≠ .replied then none
    -- `rc' is still that of SL_NBRQSET_ADD
    else some (s.go i th .got (some { b with init := false }))
  | .piggyback i seq => s.withThread i fun th b =>
    if th.pc ≠ .retrieving ∨ th.kind ≠ .create then none
    else (b.reapInit th.rw seq).map fun b => s.go i th .got (some b)
  | .wake i seq => s.withThread i fun th b =>
    if th.pc ≠ .waiting ∨ b.init = true ∨ b.modechng = true then none
    else if b.mode th.rw then (b.finish th.kind seq).map fun b => s.go i th .got (some b)
    else some (s.go i th (.modeset 0) (some { b with modechng := true }))
  | .mode i r seq => s.withThread i fun th b =>
    match th.pc with
    | .modeset n => mslBmapModeset s i th n b r seq
    | _ => none
  | .put i => s.withThread i fun th b =>
    if th.pc ≠ .got then none else some (s.go i th (.done 0) b.opDone)
  | .reap => s.b.bind fun b =>
    if b.timeoq = false ∨ b.opcnt ≠ 1 then none
    else some { s with b := { b with timeoq := false, reaper := b.reaper - 1 }.opDone }
  | .renew seq => s.b.bind fun b =>
    if b.others = 0 then none else some { s with b := some { b with seq := seq } }
  | .renewFail rc => s.b.bind fun b =>
    if b.others = 0 ∨ rc = 0 then none else some { s with b := some { b with err := rc } }
  | .hold => s.b.bind fun b =>
    some { s with b := some { b with opcnt := b.opcnt + 1, others := b.others + 1 } }
  | .drop => s.b.bind fun b =>
    if b.others = 0 then none else some { s with b := { b with others := b.others - 1 }.opDone }

/-- Whoever got the bmap has its lease. -/
def Granted : Prop :=
  ∀ th ∈ s.ths, th.pc = .got → th.kind ≠ .ahead →
    ∃ b, s.b = some b ∧ b.seq ≠ 0 ∧ b.timeoq ∧ b.reaper = 1 ∧ b.err = 0 ∧
      ∃ m, b.lease = some m ∧ (m = .write ∨ m = th.rw)

def Reply.isOk : Reply → Bool
  | .ok _ => true
  | .err _ => false

/-- The lease is granted; nobody else waits for an RPC that cannot be sent; a callback comes after its reference was
taken; a CREATE finds no bmap; no extension fails; no number is zero. -/
def Fine : Op → Prop
  | .sendFail _ _ => ∀ b ∈ s.b, b.opcnt = 1
  | .reply _ r => r.isOk
  | .aheadReply r => r.isOk ∧ ∀ b ∈ s.b, 0 < b.async
  | .wake i _ => ∀ th ∈ s.ths[i]?, th.kind ≠ .create
  | .mode i r _ => (∀ th ∈ s.ths[i]?, th.kind ≠ .create) ∧ r ≠ .ok 0
  | .renew seq => seq ≠ 0
  | .renewFail _ => False
  | _ => True

instance (o : Op) : Decidable (Fine s o) := by
  cases o <;> unfold Fine <;> infer_instance

end Slash2.Client.BmapGet
