/-
# Pages are read in

The requests of a bmap share its pages. A read marks those of its pages as `FAULTING` that hold no
data for it and that nobody else is reading in, and asks for them with RPCs of up to 32
consecutive pages. Then it waits at each of its pages until it is not `FAULTING` any more; if
there was an error it returns the one that is stored with the page.
-/
import Mathlib.Algebra.Ring.Nat
import Slash2.Client.Page
import Slash2.Lib.Chunk
import Slash2.Lib.Slots

namespace Slash2.Client.Fetch

open Lib

/-! ### Pages and requests -/

def bmpcMaxbufsrpc : ℕ := 32

/-- `struct bmap_pagecache_entry` -/
structure Bmpce where
  /-- `bmpce_off` -/
  off : ℕ
  datardy : Bool
  faulting : Bool
  /-- `BMPCEF_EIO` -/
  eio : Bool
  aiowait : Bool
  readahead : Bool
  /-- `bmpce_rc` -/
  rc : ℤ
  start : ℕ
  /-- `bmpce_len` -/
  len : ℕ
  deriving DecidableEq

/-- A page when `bmpce_lookup` has made it. -/
def Bmpce.fresh (off : ℕ) (readahead : Bool) : Bmpce := ⟨off, false, false, false, false, readahead, 0, off, 0⟩

inductive Kind where
  | read
  | write
  /-- of `msreadaheadthr_main`: nobody waits for it -/
  | readahead
  deriving DecidableEq

inductive Pc where
  /-- in the first loop of `msl_launch_read_rpcs`, with what is gathered -/
  | mark (i : ℕ) (pages : List ℕ)
  /-- in the loop of `msl_pages_fetch` -/
  | wait (i : ℕ)
  /-- `msl_pages_fetch` has returned -/
  | ret (rc : ℤ)
  | done
  deriving DecidableEq

/-- `struct bmpc_ioreq` -/
structure Req where
  kind : Kind
  /-- `biorq_off` -/
  off : ℕ
  /-- `biorq_len` -/
  len : ℕ
  pages : List ℕ
  /-- `mfsrq_err` -/
  err : Bool
  /-- `BIORQ_WAIT`: the page in whose list of pending requests it is -/
  waiting : Option ℕ
  pc : Pc

structure Rpc where
  pages : List ℕ
  req : ℕ
  /-- the answer was `SLERR_AIOWAIT` -/
  aio : Bool
  ended : Bool

/-- Assertions of `msl_read_rpc_launch`, `msl_req_aio_add`, `msl_pages_copyout` -/
inductive Death where
  | launch
  | aio
  | copyout
  deriving DecidableEq

structure State where
  pages : List Bmpce
  reqs : List Req
  rpcs : List Rpc
  died : Option Death

def State.init (pages : List (ℕ × Bool)) : State := ⟨pages.map fun p => Bmpce.fresh p.1 p.2, [], [], none⟩

variable (r : Req)

def Req.aoff : ℕ := r.off - r.off % bmpcBufsz

/-- The loop of `msl_biorq_page_valid`: the part in a page, and its length -/
def pieceLoop : ℕ → ℕ → ℕ → ℕ × ℕ
  | 0, toff, tsize => (toff, min bmpcBufsz tsize)
  | i + 1, toff, tsize => pieceLoop i (toff + min bmpcBufsz tsize) (tsize - min bmpcBufsz tsize)

/-- The part of a request in its page number `i`. -/
def Req.piece (i : ℕ) : ℕ × ℕ :=
  let n := if r.aoff < r.off then min (bmpcBufsz - (r.off - r.aoff)) r.len else min bmpcBufsz r.len
  match i with
  | 0 => (r.off, n)
  | i + 1 => pieceLoop i (r.off + n) (r.len - n)

variable (e : Bmpce)

/-- `msl_biorq_page_valid` -/
def Bmpce.usable (p : ℕ × ℕ) : Bool :=
  e.datardy || (decide (e.start ≤ p.1) && decide (p.1 + p.2 ≤ e.start + e.len))

variable (pages : List Bmpce)

def Req.page (i : ℕ) : Option Bmpce := r.pages[i]?.bind fun k => pages[k]?

/-- The second loop of `msl_launch_read_rpcs`, and the pages left for the last. -/
structure Launches where
  calls : List (List ℕ × ℤ)
  rc : ℤ
  rest : List ℕ

def Launches.push (g : List ℕ) (l : Launches) : Launches := { l with calls := (g, 0) :: l.calls }

/-- The second loop, at the page `e`. -/
def launchLoop (off : ℕ → ℕ) (rcs : ℕ → ℤ) : List ℕ → List ℕ → ℕ → ℕ → Launches
  | [], _, _, _ => ⟨[], 0, []⟩
  | e :: es, cur, next, n =>
    let gap := cur ≠ [] ∧ off e ≠ next
    if gap ∧ rcs n ≠ 0 then ⟨[(cur, rcs n)], rcs n, e :: es⟩
    else
      let n' := if gap then n + 1 else n
      let new := (if gap then [] else cur) ++ [e]
      let l :=
        if new.length = bmpcMaxbufsrpc ∨ es = [] then
          -- the loop is left at this page, which has failed then
          if rcs n' ≠ 0 then ⟨[(new, rcs n')], rcs n', e :: es⟩
          else (launchLoop off rcs es [] (off e + bmpcBufsz) (n' + 1)).push new
        else launchLoop off rcs es new (off e + bmpcBufsz) n'
      if gap then l.push cur else l

/-- `bmpce_off` -/
def State.off (s : State) (k : ℕ) : ℕ := (s.pages[k]?.map Bmpce.off).getD 0

variable (s : State)

def State.launches (ps : List ℕ) (rcs : List ℤ) : Launches :=
  launchLoop s.off (fun n => rcs.getD n 0) ps [] 0 0

def State.setReq (i : ℕ) (r : Req) : State := { s with reqs := s.reqs.set i r }

def State.modPages (g : List ℕ) (f : Bmpce → Bmpce) : State := { s with pages := modifyAll g f s.pages }

def Bmpce.fail (rc : ℤ) (e : Bmpce) : Bmpce := { e with rc := rc, eio := true, faulting := false }

def Bmpce.giveUp : Bmpce := { e with faulting := false, eio := true }

/-- `msl_read_rpc_launch`; `none` if an assertion fails -/
def mslReadRpcLaunch (i : ℕ) (s : State) (call : List ℕ × ℤ) : Option State :=
  if bmpcMaxbufsrpc < call.1.length ∨ ∃ k ∈ call.1, ∃ e ∈ s.pages[k]?, e.faulting = false ∨ e.datardy then none
  else if call.2 = 0 then some { s with rpcs := s.rpcs ++ [⟨call.1, i, false, false⟩] }
  else some (s.modPages call.1 (Bmpce.fail call.2))

/-- Where a request goes on after `msl_launch_read_rpcs`. -/
def Req.launched (rc : ℤ) : Req :=
  { r with pc := if r.kind = .readahead then .done else if rc ≠ 0 then .ret rc else .wait 0 }

/-- `msl_launch_read_rpcs` from its second loop on -/
def mslLaunchReadRpcs (i : ℕ) (r : Req) (ps : List ℕ) (rcs : List ℤ) : State :=
  let l := s.launches ps rcs
  match l.calls.foldlM (mslReadRpcLaunch i) (s.setReq i (r.launched l.rc)) with
  | some s' => s'.modPages l.rest Bmpce.giveUp
  | none => { s with died := some .launch }

/-! ### The end of an RPC -/

/-- `_msl_bmpce_rpc_done` -/
def Bmpce.rpcDone (rc : ℤ) (e : Bmpce) : Bmpce :=
  if rc ≠ 0 then { e with rc := rc, eio := true, aiowait := false, faulting := false }
  else { e with datardy := true, aiowait := false, faulting := false }

/-- `msl_fsrq_aiowait_tryadd_locked` -/
def Req.tryadd (k : ℕ) : Req := if r.waiting = none then { r with waiting := some k } else r

/-- `msl_bmpce_complete_biorq`, of one page -/
def State.recheck (i : ℕ) (s : State) (k : ℕ) : State :=
  match s.pages[k]?, s.reqs[i]? with
  | some e, some r =>
    if e.faulting then s.modPages [k] fun e => { e with faulting := false }
    else if e.aiowait then s.setReq i (r.tryadd k)
    else s
  | _, _ => s

/-- `msl_bmpce_complete_biorq` of request `i` -/
def State.unblock (k : ℕ) (rc : ℤ) (s : State) (i : ℕ) : State :=
  match s.reqs[i]? with
  | some r =>
    if r.waiting = some k then
      r.pages.foldl (State.recheck i) (s.setReq i { r with waiting := none, err := r.err || decide (rc ≠ 0) })
    else s
  | none => s

/-- `msl_bmpce_complete_biorq` -/
def State.completeBiorq (k : ℕ) (rc : ℤ) (s : State) : State := (List.range s.reqs.length).foldl (State.unblock k rc) s

/-- `msl_read_cleanup`: the pages -/
def State.rpcDone (rc : ℤ) (s : State) (k : ℕ) : State := (s.modPages [k] (Bmpce.rpcDone rc)).completeBiorq k rc

/-- `mfsrq_seterr` of the request of an RPC, if the RPC failed -/
def State.seterr (i : ℕ) (rc : ℤ) : State :=
  match s.reqs[i]? with
  | some r => if rc ≠ 0 ∧ r.kind ≠ .readahead then s.setReq i { r with err := true } else s
  | none => s

/-- `msl_pages_copyin`: a page -/
def Bmpce.copyin (p : ℕ × ℕ) (e : Bmpce) : Bmpce :=
  if p.1 = e.off ∧ p.2 = bmpcBufsz then { e with datardy := true }
  else if e.len = 0 then { e with start := p.1, len := p.2 }
  else if e.start ≤ p.1 + p.2 ∨ p.1 ≤ e.start + e.len then
    { e with start := hullStart p.1 e.start, len := hullLen p.1 p.2 e.start e.len }
  else e

/-- `msl_pages_copyin`, from page number `j` on -/
def copyinLoop (r : Req) : ℕ → List ℕ → List Bmpce → List Bmpce
  | _, [], pages => pages
  | j, k :: ks, pages => copyinLoop r (j + 1) ks (pages.modify k (Bmpce.copyin (r.piece j)))

/-- The assertions of `msl_pages_copyout`, from page `j` on -/
def copyoutLoop (r : Req) (pages : List Bmpce) : ℕ → List ℕ → ℕ → Bool
  | _, [], tsize => tsize = 0
  | j, k :: ks, tsize =>
    if tsize = 0 then true
    else
      match pages[k]? with
      | none => false
      | some e =>
        e.usable (r.piece j) && e.off == r.aoff + j * bmpcBufsz &&
          copyoutLoop r pages (j + 1) ks (tsize - min (if j = 0 then bmpcBufsz - (r.off - r.aoff) else bmpcBufsz) tsize)

/-- `msl_pages_copyout`, `rflen` bytes before the end of the file; `false` if an assertion fails -/
def mslPagesCopyout (rflen : ℕ) : Bool :=
  let tsize := if rflen < r.off + r.len then rflen - r.off else r.len
  tsize == 0 || copyoutLoop r pages 0 r.pages tsize

inductive Op where
  /-- `msl_biorq_build` with these pages, or `msreadaheadthr_main` -/
  | build (kind : Kind) (off len : ℕ) (pages : List ℕ)
  /-- the first loop of `msl_launch_read_rpcs`, one page -/
  | mark (i : ℕ)
  /-- the rest of `msl_launch_read_rpcs` -/
  | launch (i : ℕ) (rcs : List ℤ)
  /-- `msl_pages_fetch`, one page -/
  | look (i : ℕ)
  /-- the answer to an RPC is `SLERR_AIOWAIT` -/
  | aio (n : ℕ)
  /-- `msl_read_cleanup` -/
  | done (n : ℕ) (rc : ℤ)
  /-- `msl_io` tries again -/
  | restart (i : ℕ)
  | copyin (i : ℕ)
  | copyout (i : ℕ) (rflen : ℕ)
  /-- `msl_bmpces_fail`: what was written cannot be flushed -/
  | flushFailed (i : ℕ) (rc : ℤ)

def laid (pages : List Bmpce) : ℕ → List ℕ → Bool
  | _, [] => true
  | base, k :: ks => pages[k]?.map Bmpce.off == some base && laid pages (base + bmpcBufsz) ks

/-- `msl_biorq_build`: the number of pages -/
def npages (off len : ℕ) : ℕ :=
  let alen := len + off % bmpcBufsz
  if alen % bmpcBufsz ≠ 0 then alen / bmpcBufsz + 1 else alen / bmpcBufsz

/-- What `msl_biorq_build` or `msreadaheadthr_main` can make -/
def Req.Built (r : Req) : Prop :=
  match r.kind with
  | .readahead => r.off = 0 ∧ r.len = 0 ∧ ∃ base ∈ (r.page pages 0).map Bmpce.off, laid pages base r.pages
  | _ => 0 < r.len ∧ r.pages.length = npages r.off r.len ∧ laid pages r.aoff r.pages

instance (r : Req) : Decidable (r.Built pages) := by
  unfold Req.Built
  cases r.kind <;> infer_instance

/-- `bmpce_lookup`: forget an error of a read-ahead -/
def Bmpce.lookup : Bmpce := if e.eio ∧ e.readahead then { e with eio := false } else e

/-- `msl_io`, before a request is tried again -/
def Bmpce.clear : Bmpce := if e.eio then { e with rc := 0, eio := false } else e

/-- `msl_req_aio_add` -/
def Bmpce.aio : Bmpce := if e.faulting then { e with faulting := false, aiowait := true } else e

/-- Where `msl_pages_fetch` begins. -/
def Kind.begin : Kind → Pc
  | .write => .wait 0
  | .read | .readahead => .mark 0 []

/-- `msl_io` tries again after `msl_pages_fetch`, or without a bmap. -/
def Req.retried : Bool :=
  match r.pc with
  | .ret _ => true
  | pc => r.kind ≠ .readahead && pc == r.kind.begin

/-- One page in `msl_launch_read_rpcs`. -/
def markPage (i : ℕ) (r : Req) (j : ℕ) (ps : List ℕ) (k : ℕ) (e : Bmpce) : State :=
  if e.faulting ∨ e.usable (r.piece j) then s.setReq i { r with pc := .mark (j + 1) ps }
  else (s.setReq i { r with pc := .mark (j + 1) (ps ++ [k]) }).modPages [k] fun e => { e with faulting := true }

/-- One page in `msl_pages_fetch`. -/
def lookPage (j k : ℕ) (e : Bmpce) : Option Req :=
  -- in `BMPCE_WAIT`
  if e.faulting then none
  else if e.eio then some { r with pc := .ret e.rc }
  else if r.kind = .write ∨ e.usable (r.piece j) then some { r with pc := .wait (j + 1) }
  else if e.aiowait then some { r.tryadd k with pc := .ret 0 }
  else some { r with pc := .wait (j + 1) }

def State.idle (i : ℕ) (r : Req) : Prop := r.waiting = none ∧ ∀ c ∈ s.rpcs, c.req = i → c.ended
  deriving Decidable

def act : Op → Option State
  | .build kind off len pages =>
    let r : Req := ⟨kind, off, len, pages, false, none, kind.begin⟩
    -- a lookup waits while there is an error
    if r.Built s.pages ∧ ∀ k ∈ pages, ∀ e ∈ s.pages[k]?, e.eio → e.readahead then
      some { s.modPages pages Bmpce.lookup with reqs := s.reqs ++ [r] }
    else none
  | .mark i => do
    let r ← s.reqs[i]?
    match r.pc with
    | .mark j ps =>
      let k ← r.pages[j]?
      let e ← s.pages[k]?
      some (markPage s i r j ps k e)
    | _ => none
  | .launch i rcs => do
    let r ← s.reqs[i]?
    match r.pc with
    | .mark j ps => if j = r.pages.length then some (mslLaunchReadRpcs s i r ps rcs) else none
    | _ => none
  | .look i => do
    let r ← s.reqs[i]?
    match r.pc with
    | .wait j =>
      match r.pages[j]? with
      | none => some (s.setReq i { r with pc := .ret 0 })
      | some k => do
        let e ← s.pages[k]?
        (lookPage r j k e).map (s.setReq i)
    | _ => none
  | .aio n => do
    let c ← s.rpcs[n]?
    if c.ended ∨ c.aio then none
    else if ∃ k ∈ c.pages, ∃ e ∈ s.pages[k]?, e.faulting then
      some { s.modPages c.pages Bmpce.aio with rpcs := s.rpcs.set n { c with aio := true } }
    else some { s with died := some .aio }
  | .done n rc => do
    let c ← s.rpcs[n]?
    if c.ended then none
    else some ((c.pages.foldl (State.rpcDone rc) { s with rpcs := s.rpcs.set n { c with ended := true } }).seterr c.req rc)
  | .restart i => do
    let r ← s.reqs[i]?
    if r.retried then some ((s.setReq i { r with err := false, pc := r.kind.begin }).modPages r.pages Bmpce.clear)
    else none
  | .copyin i => do
    let r ← s.reqs[i]?
    match r.pc with
    | .ret rc =>
      if r.kind = .write ∧ s.idle i r then
        let s' := s.setReq i { r with pc := .done }
        some (if rc ≠ 0 ∨ r.err then s' else { s' with pages := copyinLoop r 0 r.pages s.pages })
      else none
    | _ => none
  | .copyout i rflen => do
    let r ← s.reqs[i]?
    match r.pc with
    | .ret rc =>
      if r.kind = .read ∧ s.idle i r then
        if rc ≠ 0 ∨ r.err ∨ mslPagesCopyout r s.pages rflen then some (s.setReq i { r with pc := .done })
        else some { s with died := some .copyout }
      else none
    | _ => none
  | .flushFailed i rc => do
    let r ← s.reqs[i]?
    if r.kind = .write ∧ r.pc = .done ∧ rc ≠ 0 then
      some (s.modPages r.pages fun e => { e with rc := rc, eio := true })
    else none

def step (o : Op) : Option State := if s.died = none then act s o else none

def Pc.marked : Pc → List ℕ
  | .mark _ ps => ps
  | .wait _ | .ret _ | .done => []

def State.owners (k : ℕ) : ℕ :=
  (s.reqs.map fun r => r.pc.marked.count k).sum + (s.rpcs.map fun c => if c.ended then 0 else c.pages.count k).sum

def follow (off : ℕ → ℕ) (k k' : ℕ) : Bool := off k' == off k + bmpcBufsz

def State.adj : ℕ → ℕ → Bool := follow s.off

def Launches.sent (l : Launches) : List (List ℕ) := (l.calls.filter fun c => c.2 = 0).map Prod.fst

def Launches.failed (l : Launches) : List ℕ := ((l.calls.filter fun c => c.2 ≠ 0).map Prod.fst).flatten ++ l.rest

structure Launches.Parts (s : State) (ps : List ℕ) (l : Launches) : Prop where
  rpcs : ∀ g ∈ l.sent, IsChunk bmpcMaxbufsrpc s.adj g
  pages : ∀ k ∈ ps, l.sent.flatten.count k = 1 ∧ k ∉ l.failed ∨ k ∉ l.sent.flatten ∧ k ∈ l.failed

/-- **What holds of every state.** Each page is launched once or failed; `FAULTING` if one request or RPC has it;
errors are stored; and who has returned 0 has the pages. -/
structure Sound (s : State) : Prop where
  launch : ∀ (i : ℕ) r ps, s.reqs[i]? = some r → r.pc = .mark r.pages.length ps → ∀ rcs, (s.launches ps rcs).Parts s ps
  rpcs : ∀ c ∈ s.rpcs, IsChunk bmpcMaxbufsrpc s.adj c.pages
  faulting : ∀ (k : ℕ) e, s.pages[k]? = some e → s.owners k = if e.faulting then 1 else 0
  errors : ∀ e ∈ s.pages, e.eio → e.rc ≠ 0
  fetched : ∀ r ∈ s.reqs, r.kind = .read → r.pc = .ret 0 → r.waiting = none →
    ∀ i < r.pages.length, ∃ e ∈ r.page s.pages i, e.usable (r.piece i)
  copyout : s.died ≠ some .copyout

/-! ### Where it holds -/

/-- A read has still to look at a page it found or made `FAULTING`. -/
def Req.needs (k : ℕ) : Prop :=
  r.kind = .read ∧
    match r.pc with
    | .mark i _ => k ∈ r.pages.take i
    | .wait i => k ∈ r.pages.drop i
    | .ret _ | .done => False

instance (k : ℕ) : Decidable (r.needs k) := by
  unfold Req.needs
  cases r.pc <;> infer_instance

/-- Only the last RPC of a request may fail, no answer is delayed, and no error is cleared that a read has to see. -/
def Guarded : Op → Prop
  | .launch i rcs => ∀ r ∈ s.reqs[i]?, ∀ n < (chunks bmpcMaxbufsrpc s.adj [] r.pc.marked).length - 1, rcs.getD n 0 = 0
  | .aio _ => False
  | .restart i => ∀ r ∈ s.reqs[i]?, ∀ k ∈ r.pages, ∀ e ∈ s.pages[k]?, e.eio →
      ∀ q ∈ s.reqs.eraseIdx i, ¬q.needs k
  | .build _ _ _ pages => ∀ k ∈ pages, ∀ e ∈ s.pages[k]?, e.eio → ∀ q ∈ s.reqs, ¬q.needs k
  | .mark _ | .look _ | .done .. | .copyin _ | .copyout .. | .flushFailed .. => True

end Slash2.Client.Fetch
