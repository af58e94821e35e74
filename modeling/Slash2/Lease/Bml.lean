/-
# Leases on a bmap

The metadata server's side of one bmap: the leases clients hold on it, linked as the
source links them. `bmi_leases` is a list with one lease for each client; further
leases of the same client hang on a circular chain through the one in the list and
carry `BML_CHAIN`. Leases are numbered as they are made, and the pointer `bml_chain`
is the number of a lease.
-/
import Slash2.Lib.Ring
import Slash2.Slerr

namespace Slash2.Lease

open Lib Function

/-- `lnet_process_id_t` -/
structure Nidpid where
  nid : ℕ
  pid : ℕ
  deriving DecidableEq

/-- Neither zero nor `LNET_NID_ANY`, `LNET_PID_ANY`. -/
def Nidpid.valid (c : Nidpid) : Bool :=
  c.nid ≠ 0 ∧ c.pid ≠ 0 ∧ c.nid ≠ 0xffffffffffffffff ∧ c.pid ≠ 0xffffffff

def iosIdAny : ℕ := 0xffffffff

inductive Rw where
  | read
  | write
  deriving DecidableEq

/-- The part of `struct bmap_mds_lease` the chains are made of. -/
structure Link where
  /-- `bml_cli_nidpid` -/
  cnp : Nidpid
  read : Bool
  write : Bool
  /-- `BML_CHAIN` -/
  chained : Bool
  /-- `BML_BMI`: the lease is attached to the bmap -/
  bmi : Bool
  chain : ℕ

/-- `struct bmap_mds_lease` -/
structure Bml extends Link where
  /-- `BML_DIO` -/
  dio : Bool
  diocb : Bool
  freeing : Bool
  assfail : Bool
  recover : Bool
  recoverfail : Bool
  seq : ℕ
  ios : ℕ
  refcnt : ℤ
  /-- returned to `slm_bml_pool` -/
  pooled : Bool

/-- `struct bmap_ios_assign` -/
structure Bia where
  ios : ℕ
  lastcli : Nidpid
  fid : ℕ
  seq : ℕ
  bmapno : ℕ
  /-- `BIAF_DIO` -/
  dio : Bool

/-- The bmap with its `bmap_mds_info`. -/
structure Bmap where
  fid : ℕ
  bmapno : ℕ
  /-- `BMAPF_DIO` -/
  dio : Bool
  diocb : Bool
  noion : Bool
  leases : List ℕ
  bml : ℕ → Bml
  next : ℕ
  writers : ℤ
  readers : ℤ
  /-- the resource of `bmi_wr_ion` -/
  wrIon : Option ℕ
  /-- `bmi_assign`, with the entry it stands for -/
  assign : Option Bia
  /-- `bmi_seq` -/
  seq : ℕ
  /-- the BMAPDIO requests sent by `mdscoh_req` -/
  cbs : List (Nidpid × ℕ)

structure Env where
  /-- `slm_resm_select` -/
  resm : Option ℕ
  /-- `pfl_odt_allocslot` finds a slot -/
  slot : Bool
  /-- the return code of `mds_bmap_add_repl` -/
  addRepl : ℤ
  /-- the sequence number `mds_bmap_timeotbl_mdsi` gives out -/
  seq : ℕ
  late : Bool

theorem clash {p : Prop} {c : Bool} (h : c) (h' : c = false) : p := absurd (h.symm.trans h') (by decide)

variable (b : Bmap)

def Bmap.modify (l : ℕ) (f : Bml → Bml) : Bmap :=
  { b with bml := update b.bml l (f (b.bml l)) }

theorem modify_bml (l : ℕ) (f : Bml → Bml) : (b.modify l f).bml l = f (b.bml l) := update_self ..

/-- `bml->bml_chain = c` -/
def Bmap.setChain (l c : ℕ) : Bmap := b.modify l fun m => { m with chain := c }

variable (m : Bml)

def Bml.refused : Bml := { m with assfail := true }

def Bml.numbered (seq : ℕ) (m : Bml) : Bml := { m with seq := seq }

def Bml.turned : Bml := { m with read := false, write := true }

def Bml.ref : Bml := { m with refcnt := m.refcnt + 1 }

def Bml.unref : Bml := { m with refcnt := m.refcnt - 1 }

/-- `bml_chain` as a function. -/
def Bmap.chain (b : Bmap) (l : ℕ) : ℕ := (b.bml l).chain

/-! ### Duplicates -/

/-- `mds_bmap_dupls_find`: the client's head, and its write and read leases. -/
structure Dupls where
  head : Option ℕ
  wlease : ℕ
  rlease : ℕ

def mdsBmapDuplsFind (cnp : Nidpid) : Option Dupls :=
  match b.leases.filter fun l => (b.bml l).cnp = cnp with
  | [] => some ⟨none, 0, 0⟩
  | [h] => (visits b.chain h b.next h).map fun ls =>
      ⟨some h, ls.countP fun l => !(b.bml l).read, ls.countP fun l => (b.bml l).read⟩
  | _ :: _ :: _ => none

def everyLease (b : Bmap) : List ℕ → Option (List ℕ)
  | [] => some []
  | h :: hs => (visits b.chain h b.next h).bind fun ls => (everyLease b hs).map (ls ++ ·)

/-- `mds_bmap_getbml`: take a reference, unless it is being freed. -/
def mdsBmapGetbml (seq : ℕ) (cnp : Nidpid) : Option (Bmap × Option ℕ) :=
  (everyLease b (b.leases.filter fun l => (b.bml l).cnp = cnp)).map fun ls =>
    match ls.find? fun l => (b.bml l).seq = seq with
    | none => (b, none)
    | some l =>
      if (b.bml l).freeing then (b, none)
      else (b.modify l Bml.ref, some l)

/-- The loop body of `mds_bmap_directio`, with `force_dio` and `rc`. -/
def directioBody (np : Nidpid) (x : Bmap × Bool × ℤ) (l : ℕ) : Bmap × Bool × ℤ :=
  let m := x.1.bml l
  if m.cnp = np then x
  else if m.dio then (x.1, true, x.2.2)
  else if m.diocb then (x.1, true, -slerrBmapDiowait)
  else
    -- mdscoh_req sends nothing for a recovered lease
    ({ x.1.modify l fun m => { m with diocb := true } with
        diocb := true, cbs := if m.recover then x.1.cbs else (m.cnp, m.seq) :: x.1.cbs }, true, -slerrBmapDiowait)

def mdsBmapDirectio (rw : Rw) (wantDio : Bool) (np : Nidpid) : Option (Bmap × ℤ) :=
  if b.dio then some (b, 0)
  else
    let wantDio := wantDio || b.diocb
    let checkLeases := wantDio || b.writers ≠ 0 || (rw = .write && b.readers ≠ 0)
    let looped := if checkLeases then (everyLease b b.leases).map fun ls =>
        ls.foldl (directioBody np) (b, false, 0)
      else some (b, false, 0)
    looped.map fun x =>
      if x.2.2 = 0 ∧ (wantDio ∨ x.2.1) then ({ x.1 with dio := true, diocb := false }, x.2.2)
      else (x.1, x.2.2)

variable (e : Env)

def mdsBmapIosRestart (l : ℕ) (b : Bmap) : Option (Bmap × ℤ) :=
  if b.assign.isNone then none
  else some ({ b with wrIon := some (b.bml l).ios, seq := (b.bml l).seq }, if e.late then 1 else 0)

/-- The bmap once the entry for server `r` is in the table. -/
def assignTo (l r : ℕ) (b : Bmap) : Bmap :=
  { b.modify l fun m => { m with ios := r } with
    wrIon := some r
    noion := false
    seq := e.seq
    assign := some ⟨r, (b.bml l).cnp, b.fid, e.seq, b.bmapno, b.dio⟩ }

def mdsBmapIosAssign (l : ℕ) (b : Bmap) : Option (Bmap × ℤ) :=
  if b.wrIon.isSome ∨ b.assign.isSome then none
  else match e.resm with
    | none =>
      some ({ b.modify l Bml.refused with noion := true }, -slerrIonOffline)
    | some r =>
      if e.slot then
        if e.addRepl ≠ 0 then some (assignTo e l r b, -1)
        else some ((assignTo e l r b).modify l (Bml.numbered e.seq), 0)
      else
        some ({ b.modify l Bml.refused with
          wrIon := some r, noion := true }, -enomem)

def mdsBmapIosUpdate (l : ℕ) (b : Bmap) : Option (Bmap × ℤ) :=
  match b.assign with
  | none => none
  | some bia =>
    if bia.fid ≠ b.fid then some (b, -1)
    else if bia.seq ≠ b.seq then none
    else some ({ b.modify l fun m => { m with ios := bia.ios, seq := e.seq } with
      seq := e.seq,
      assign := some { bia with seq := e.seq, lastcli := (b.bml l).cnp, dio := b.dio } }, e.addRepl)

/-! ### Adding a lease -/

def attach (l : ℕ) (d : Dupls) (b : Bmap) : Option Bmap :=
  match d.head with
  | some h => (before b.chain h b.next h).bind fun tmp =>
      if l ∈ b.leases then none
      else some ((b.setChain tmp l).modify l fun m =>
        { m with chained := true, chain := h, bmi := true })
  | none => some { b.modify l fun m => { m with chain := l, bmi := true } with
      leases := b.leases ++ [l] }

variable (d : Dupls)

def countWriter (b : Bmap) : Bmap :=
  if d.wlease = 0 then
    { b with writers := b.writers + 1,
             readers := if d.rlease ≠ 0 then b.readers - 1 else b.readers }
  else b

def countReader (b : Bmap) : Bmap :=
  if d.wlease = 0 ∧ d.rlease = 0 then { b with readers := b.readers + 1 } else b

/-- The write part of `mds_bmap_bml_add`. -/
def addAssign (l : ℕ) (d : Dupls) (b : Bmap) : Option (Bmap × ℤ) :=
  if (b.bml l).recover then
    if b.writers = 1 ∧ b.readers = 0 ∧ b.wrIon = none ∧ (b.bml l).ios ≠ 0 ∧
        (b.bml l).ios ≠ iosIdAny then mdsBmapIosRestart e l b
    else none
  else if d.wlease = 0 ∧ b.writers = 1 then
    if b.wrIon.isSome then none else mdsBmapIosAssign e l b
  else if b.wrIon.isNone then none
  else mdsBmapIosUpdate e l b

/-- `rw` of `mds_bmap_bml_add`. -/
def Bml.rw : Rw := if m.write then .write else .read

def mdsBmapBmlAdd (l : ℕ) (b : Bmap) : Option (Bmap × ℤ) :=
  let m := b.bml l
  if ¬ m.cnp.valid then none
  else (mdsBmapDirectio b m.rw m.dio m.cnp).bind fun x =>
    if x.2 ≠ 0 ∧ ¬ m.recover then some x
    else (mdsBmapDuplsFind x.1 m.cnp).bind fun d => (attach l d x.1).bind fun b =>
      match m.rw with
      | .write => addAssign e l d (countWriter d b)
      | .read => some (countReader d (b.modify l (Bml.numbered e.seq)), x.2)

def countUpgrade (b : Bmap) : Bmap :=
  if d.wlease = 0 then { b with writers := b.writers + 1, readers := b.readers - 1 } else b

/-- `mds_bmap_bml_chwrmode`; `none` is `-PFLERR_ALREADY`. -/
def mdsBmapBmlChwrmode (l : ℕ) (b : Bmap) : Option (Bmap × Option ℤ) :=
  let m := b.bml l
  if m.write then some (b, none)
  else (mdsBmapDirectio b .write false m.cnp).bind fun x =>
    if x.2 ≠ 0 then some (x.1, some x.2)
    else (if x.1.wrIon.isSome then mdsBmapIosUpdate e l x.1 else mdsBmapIosAssign e l x.1).bind
      fun y =>
        if y.2 ≠ 0 then some (y.1.modify l Bml.refused, some y.2)
        else if y.1.wrIon.isNone then none
        else (mdsBmapDuplsFind y.1 m.cnp).bind fun d =>
          if d.rlease = 0 then none
          else some ((countUpgrade d y.1).modify l Bml.turned, some 0)

/-! ### Removing a lease -/

/-- Without the lease; `tail` is the one before it. -/
def unlink (l tail : ℕ) (o : ℕ) (n : ℕ) (b : Bmap) : Option Bmap :=
  let m := b.bml l
  if m.chained then
    if l ∈ b.leases ∨ n ≤ 1 then none
    else some (b.setChain tail m.chain)
  else if o ≠ l then none
  else if n > 1 then
    if ¬ (b.bml m.chain).chained ∨ m.chain ∈ b.leases then none
    else some ({ b.modify m.chain fun c => { c with chained := false } with
      leases := b.leases.erase l ++ [m.chain] }.setChain tail m.chain)
  else if m.chain ≠ l then none
  else some { b with leases := b.leases.erase l }

def uncount (b : Bmap) : Option Bmap :=
  if m.write then
    if d.wlease = 1 then
      if b.writers > 0 then
        some { b with writers := b.writers - 1,
                      readers := if d.rlease ≠ 0 then b.readers + 1 else b.readers }
      else none
    else some b
  else if ¬ m.read then none
  else if d.wlease = 0 ∧ d.rlease = 1 then
    if b.readers > 0 then some { b with readers := b.readers - 1 } else none
  else some b

def mdsBmapBmlDelLocked (l : ℕ) (b : Bmap) : Option Bmap :=
  (mdsBmapDuplsFind b (b.bml l).cnp).bind fun d => d.head.bind fun o =>
    if d.wlease + d.rlease = 0 ∨ (b.bml o).chained then none
    else (before b.chain l b.next o).bind fun tail =>
      (unlink l tail o (d.wlease + d.rlease) b).bind (uncount (b.bml l) d)

/-- `mds_bmap_bml_release` after the last write lease. -/
def releaseAssign (b : Bmap) : Option Bmap :=
  if b.noion then
    if b.assign.isSome ∨ b.wrIon.isSome then none else some b
  else if m.assfail then some b
  else if m.recoverfail then
    if b.assign.isSome ∨ b.wrIon.isNone then none else some { b with wrIon := none }
  else match b.assign with
    | none => none
    | some bia =>
      if bia.seq ≠ b.seq ∨ bia.bmapno ≠ b.bmapno ∨ b.wrIon.isNone then none
      else some { b with assign := none, wrIon := none }

def clearDio : Bmap :=
  if (b.dio ∨ b.diocb) ∧ (b.writers = 0 ∨ (b.writers = 1 ∧ b.readers = 0)) then
    { b with dio := false, diocb := false }
  else b

/-- `bml->bml_flags &= ~BML_BMI` -/
def detach (l : ℕ) (b : Bmap) : Bmap := b.modify l fun m => { m with bmi := false }

/-- `psc_pool_return` -/
def pool (l : ℕ) (b : Bmap) : Bmap := b.modify l fun m => { m with pooled := true }

theorem pool_bml (l : ℕ) (b : Bmap) : (pool l b).bml l = { b.bml l with pooled := true } := modify_bml b l _

def mdsBmapBmlRelease (l : ℕ) (b : Bmap) : Option Bmap :=
  let m := b.bml l
  if m.refcnt > 1 ∨ ¬ m.freeing then
    if m.refcnt > 0 then some (b.modify l Bml.unref) else none
  else if ¬ m.bmi then some (pool l b)
  else (mdsBmapBmlDelLocked l b).bind fun b =>
    let b := clearDio (detach l b)
    (if m.write ∧ b.writers = 0 then releaseAssign m b else some b).map (pool l)

def Bmap.push : Bmap :=
  { b with next := b.next + 1, bml := update b.bml b.next m }

/-- The lease of a request; `dio` is `SRM_LEASEBMAPF_DIO`. -/
def requestedBml (cnp : Nidpid) (rw : Rw) (dio : Bool) : Bml :=
  { cnp := cnp, read := rw = .read, write := rw = .write, chained := false, bmi := false,
    chain := 0, dio := dio, diocb := false, freeing := false, assfail := false, recover := false,
    recoverfail := false, seq := 0, ios := 0, refcnt := 1, pooled := false }

def mdsBmlNew (cnp : Nidpid) (rw : Rw) (dio : Bool) (b : Bmap) : Bmap :=
  b.push (requestedBml cnp rw dio)

def Bmap.found (bia : Bia) : Bmap :=
  { b with dio := b.dio || bia.dio, assign := some bia }

/-- `bmi_assign = NULL` -/
def Bmap.unassign : Bmap := { b with assign := none }

/-- The lease of `mds_bia_odtable_startup_cb`. -/
def recoveredBml (bia : Bia) : Bml :=
  { cnp := bia.lastcli, read := false, write := true, chained := false, bmi := false, chain := 0,
    dio := false, diocb := false, freeing := false, assfail := false, recover := true,
    recoverfail := false, seq := bia.seq, ios := bia.ios, refcnt := 1, pooled := false }

end Slash2.Lease
