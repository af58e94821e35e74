/-
# Batch requests of the MDS

Requests for a server are collected in batches. A batch waits on the list of delayed
batches until it is sent, then on the list of those that wait for a reply. Sending is
an RPC of its own; when it has been answered the batch still waits for a second RPC,
the BATCHRP with which the server reports the results. At the end the batch's
callback runs and the batch is freed.

Key theorem: `batch_once_run`.
-/
import Mathlib.Data.List.Count
import Mathlib.Data.List.Perm.Basic
import Slash2.Lib.Run
import Slash2.Residency.Activate

namespace Slash2.Batchrq

open Lib Residency List Function

/-! ### Batches -/

inductive Srmt where
  | batchRq
  | replSchedwk
  | preclaim
  deriving DecidableEq

/-- `struct batchrq`, with the runs of its callback. -/
structure Batch where
  /-- `br_res` -/
  res : IosId
  /-- `br_rq` is set -/
  rq : Bool
  rqinfl : Bool
  waitreply : Bool
  refcnt : ℕ
  rc : ℤ
  len : ℕ
  rpc : Bool
  /-- the codes `br_cbf` was called with -/
  calls : List ℤ

def Batch.unborn : Batch := ⟨0, false, false, false, 0, 0, 0, false, []⟩

/-- A work item of `slm_db_lopri_workq`. -/
inductive Wkcb where
  /-- `batchrq_finish_wkcb` -/
  | finish (rc : ℤ)
  /-- `batchrq_waitreply_wkcb` -/
  | waitreply
  deriving DecidableEq

structure Work where
  br : ℕ
  cb : Wkcb

/-- The batch manager; batches are named by `br_bid`. -/
structure Mgr where
  batch : ℕ → Batch
  /-- the next `br_bid` -/
  bid : ℕ
  delayed : List ℕ
  waitreply : List ℕ
  /-- `rpmi_batchrqs` of each resource -/
  rpmi : IosId → List ℕ
  wkq : List Work
  /-- the assertion of `batchrq_decref` failed -/
  failed : Bool

def Mgr.init : Mgr := ⟨fun _ => Batch.unborn, 1, [], [], fun _ => [], [], false⟩

namespace Mgr

variable (s : Mgr)

def put (b : ℕ) (x : Batch) : Mgr := { s with batch := update s.batch b x }

/-- `pfl_workq_putitemq` -/
def queue (w : Work) : Mgr := { s with wkq := s.wkq ++ [w] }

/-- Put `br_lentry_ml` on the delayed or the waiting list. -/
def link (b : ℕ) (waits : Bool) : Mgr :=
  if waits then { s with waitreply := s.waitreply ++ [b] } else { s with delayed := s.delayed ++ [b] }

/-- Unlink `br_lentry_ml`. -/
def unlink (b : ℕ) : Mgr :=
  { s with delayed := s.delayed.erase b, waitreply := s.waitreply.erase b }

def forget (b : ℕ) (r : IosId) : Mgr :=
  { s with rpmi := update s.rpmi r ((s.rpmi r).erase b) }

end Mgr

/-- `br_rc` keeps the first error. -/
def firstRc (old rc : ℤ) : ℤ := if old = 0 then rc else old

variable (s : Mgr)

def batchrqDecref (b : ℕ) (rc : ℤ) : Mgr :=
  let x := s.batch b
  match x.refcnt with
  | 0 => { s with failed := true }
  | 1 =>
    ((s.put b { x with
      rc := firstRc x.rc rc, refcnt := 0, calls := x.calls ++ [firstRc x.rc rc] }).unlink b).forget b
        x.res
  | n + 2 => s.put b { x with rc := firstRc x.rc rc, refcnt := n + 1 }

def batchrqSchedFinish (b : ℕ) (rc : ℤ) : Mgr := s.queue ⟨b, .finish rc⟩

/-- `sl_batchrqsend_cb`: the RPC is answered. -/
def slBatchrqsendCb (b : ℕ) (rc : ℤ) : Mgr :=
  let s := s.put b { s.batch b with rpc := false }
  if rc ≠ 0 then batchrqSchedFinish s b rc else s.queue ⟨b, .waitreply⟩

/-- `batchrq_send`; `rc` is of the bulk or `SL_NBRQSET_ADD`. -/
def batchrqSend (b : ℕ) (rc : ℤ) : Mgr :=
  let x := s.batch b
  let s := (s.unlink b).link b true
  if rc = 0 then
    s.put b { x with refcnt := x.refcnt + 1, rqinfl := true, rq := false, rpc := true }
  else
    -- the reference just taken is given back before the batch is finished
    batchrqDecref (s.put b { x with rq := true, rqinfl := false }) b rc

/-- `sl_handle_batchrp` -/
def slHandleBatchrp (b : ℕ) (rc : ℤ) (lenOk : Bool) (bulkRc : ℤ) : Mgr :=
  if b ∈ s.waitreply then
    batchrqSchedFinish s b (if rc ≠ 0 then rc else if lenOk then bulkRc else -einval)
  else s

def joinable (r : IosId) (opc : Srmt) : Option ℕ :=
  (s.rpmi r).find? fun b =>
    !(s.batch b).rqinfl && !(s.batch b).waitreply && decide (opc = .batchRq)

def create (r : IosId) : Mgr :=
  let b := s.bid
  let s := (s.put b { Batch.unborn with res := r, rq := true, refcnt := 1 }).link b false
  { s with bid := b + 1, rpmi := update s.rpmi r (s.rpmi r ++ [b]) }

def addEntry (mtu : ℕ) (s : Mgr) (b len : ℕ) (sendRc : ℤ) : Mgr :=
  let x := s.batch b
  let s := s.put b { x with len := x.len + len }
  if x.len + len + len > mtu then batchrqSend s b sendRc else s

def batchrqAdd (mtu : ℕ) (s : Mgr) (r : IosId) (opc : Srmt) (len : ℕ) (newreqRc sendRc : ℤ) : Mgr :=
  match joinable s r opc with
  | some b => addEntry mtu s b len sendRc
  | none => if newreqRc ≠ 0 then s else addEntry mtu (create s r) s.bid len sendRc

/-- `sl_resm_hldrop` of an I/O server. -/
def slResmHldrop (r : IosId) (econnreset : ℤ) : Mgr :=
  { s with wkq := s.wkq ++ (s.rpmi r).map fun b => ⟨b, .finish (-econnreset)⟩ }

def runWork (w : Work) : Mgr :=
  match w.cb with
  | .finish rc => batchrqDecref s w.br rc
  | .waitreply =>
    batchrqDecref (s.put w.br { s.batch w.br with rqinfl := false, waitreply := true }) w.br 0

inductive Label where
  | add (r : IosId) (opc : Srmt) (len : ℕ) (newreqRc sendRc : ℤ)
  | send (b : ℕ) (rc : ℤ)
  | reply (b : ℕ) (rc : ℤ)
  | batchrp (b : ℕ) (rc : ℤ) (lenOk : Bool) (bulkRc : ℤ)
  | hldrop (r : IosId) (econnreset : ℤ)
  /-- a worker takes the `n`-th work item -/
  | work (n : ℕ)

def step (mtu : ℕ) (s : Mgr) (l : Label) : Option Mgr :=
  if s.failed then none
  else match l with
    | .add r opc len newreqRc sendRc =>
      -- no caller asks for the RPC's own code
      if opc = .batchRq then none else some (batchrqAdd mtu s r opc len newreqRc sendRc)
    | .send b rc => if b ∈ s.delayed then some (batchrqSend s b rc) else none
    | .reply b rc => if (s.batch b).rpc then some (slBatchrqsendCb s b rc) else none
    | .batchrp b rc lenOk bulkRc => some (slHandleBatchrp s b rc lenOk bulkRc)
    | .hldrop r econnreset => some (slResmHldrop s r econnreset)
    | .work n => (s.wkq[n]?).map fun w => runWork { s with wkq := s.wkq.eraseIdx n } w

/-! ### References under way -/

def pending (b : ℕ) : ℕ := s.wkq.countP (·.br = b)

def dropping (b : ℕ) : ℕ := pending s b + (s.batch b).rpc.toNat

def Open (b : ℕ) : Prop := (s.batch b).refcnt = dropping s b + 1
  deriving Decidable

def Closing (b : ℕ) : Prop := (s.batch b).refcnt = dropping s b
  deriving Decidable

/-- Nothing else finishes the batch, or something does if the RPC fails. -/
def Orderly : Label → Prop
  | .add _ _ _ _ _ => True
  | .send b rc => rc = 0 ∨ Open s b
  | .reply b rc => rc = 0 ∨ Closing s b
  | .batchrp b _ _ _ => b ∈ s.waitreply → Open s b
  | .hldrop r _ => ∀ b ∈ s.rpmi r, Open s b
  | .work _ => True

instance (l : Label) : Decidable (Orderly s l) := by
  cases l <;> unfold Orderly <;> infer_instance

def Awaited (b : ℕ) : Prop :=
  b ∈ s.delayed ∨ (s.batch b).rpc ∨ 0 < pending s b ∨ (s.batch b).waitreply
  deriving Decidable

/-- Referenced, on one list, and not called back yet. -/
structure Unfinished (s : Mgr) (b : ℕ) : Prop where
  refcnt : 0 < (s.batch b).refcnt
  calls : (s.batch b).calls = []
  lists : s.delayed.count b + s.waitreply.count b = 1
  awaited : Awaited s b

/-- Called back once, and on no list. -/
structure Finished (s : Mgr) (b : ℕ) : Prop where
  refcnt : (s.batch b).refcnt = 0
  calls : (s.batch b).calls.length = 1
  lists : s.delayed.count b + s.waitreply.count b = 0
  still : dropping s b = 0

structure View where
  x : Batch
  nd : ℕ
  nw : ℕ
  nr : IosId → ℕ
  nf : ℕ
  nv : ℕ

def isFinish (b : ℕ) (w : Work) : Bool := decide (w.br = b) && decide (w.cb ≠ .waitreply)

def isWaitreply (b : ℕ) (w : Work) : Bool := decide (w.br = b) && decide (w.cb = .waitreply)

def view (b : ℕ) : View :=
  ⟨s.batch b, s.delayed.count b, s.waitreply.count b, fun r => (s.rpmi r).count b,
    s.wkq.countP (isFinish b), s.wkq.countP (isWaitreply b)⟩

def View.dropping (v : View) : ℕ := v.nf + v.nv + v.x.rpc.toNat

/-- A live batch losing `d` references right now. -/
structure View.Live (d : ℕ) (v : View) : Prop where
  refcnt : 0 < v.x.refcnt
  calls : v.x.calls = []
  lists : v.nd + v.nw = 1
  rpmi : ∀ r, v.nr r = if r = v.x.res then 1 else 0
  delayed : v.nd = 1 → v.x.rpc = false ∧ v.nv = 0
  refs : v.x.refcnt = v.dropping + d ∨
    (v.x.refcnt = v.dropping + d + 1 ∧ v.nf = 0 ∧ (v.nd = 1 ∨ v.x.rpc ∨ 0 < v.nv ∨ v.x.waitreply))

structure View.Absent (v : View) : Prop where
  refcnt : v.x.refcnt = 0
  lists : v.nd + v.nw = 0
  rpmi : ∀ r, v.nr r = 0
  refs : v.dropping = 0

structure Inv (s : Mgr) : Prop where
  ok : s.failed = false
  bid : 0 < s.bid
  born : ∀ b, (view s b).Live 0 ∨ (view s b).Absent
  done : ∀ b, (view s b).Absent → (s.batch b).calls.length = if 0 < b ∧ b < s.bid then 1 else 0
  fresh : ∀ b, (view s b).Live 0 → 0 < b ∧ b < s.bid

/-! ### What the functions do to one batch -/

section Views

variable (b c : ℕ)

theorem view_x : (view s b).x = s.batch b := rfl

@[simp] theorem view_put_self (x : Batch) : view (s.put b x) b = { view s b with x := x } := by
  simp [view, Mgr.put]

variable {c}

theorem view_put_of_ne (x : Batch) (h : c ≠ b) : view (s.put b x) c = view s c := by
  simp [view, Mgr.put, update_of_ne h]

@[simp] theorem view_unlink_self :
    view (s.unlink b) b = { view s b with nd := (view s b).nd - 1, nw := (view s b).nw - 1 } := by
  simp [view, Mgr.unlink]

theorem view_unlink_of_ne (h : c ≠ b) : view (s.unlink b) c = view s c := by
  simp [view, Mgr.unlink, count_erase_of_ne h]

@[simp] theorem view_forget_self (r : IosId) : view (s.forget b r) b =
    { view s b with nr := fun q => if q = r then (view s b).nr q - 1 else (view s b).nr q } := by
  simp only [view, Mgr.forget]
  congr 1
  funext q
  by_cases hq : q = r
  · subst hq
    simp
  · simp [hq]

theorem view_forget_of_ne (r : IosId) (h : c ≠ b) : view (s.forget b r) c = view s c := by
  simp only [view, Mgr.forget]
  congr 1
  funext q
  by_cases hq : q = r
  · subst hq
    simp [count_erase_of_ne h]
  · simp [update_of_ne hq]

@[simp] theorem view_link_self : view (s.link b true) b = { view s b with nw := (view s b).nw + 1 } := by
  simp [view, Mgr.link]

theorem view_link_of_ne (waits : Bool) (h : c ≠ b) : view (s.link b waits) c = view s c := by
  cases waits <;> simp [view, Mgr.link, h.symm]

@[simp] theorem view_queue_finish (rc : ℤ) :
    view (s.queue ⟨b, .finish rc⟩) b = { view s b with nf := (view s b).nf + 1 } := by
  simp [view, Mgr.queue, isFinish, isWaitreply]

@[simp] theorem view_queue_waitreply :
    view (s.queue ⟨b, .waitreply⟩) b = { view s b with nv := (view s b).nv + 1 } := by
  simp [view, Mgr.queue, isFinish, isWaitreply]

theorem view_queue_of_ne {w : Work} (h : c ≠ w.br) : view (s.queue w) c = view s c := by
  simp [view, Mgr.queue, isFinish, isWaitreply, h.symm]

end Views

/-- Only batch `b` is touched. -/
structure Touches (b : ℕ) (s t : Mgr) : Prop where
  bid : t.bid = s.bid
  others : ∀ c ≠ b, view t c = view s c

namespace Touches

variable {s} {b : ℕ} {t u : Mgr}

theorem trans (h : Touches b s t) (h' : Touches b t u) : Touches b s u :=
  ⟨h'.bid.trans h.bid, fun c hc => (h'.others c hc).trans (h.others c hc)⟩

theorem put (s : Mgr) (b : ℕ) (x : Batch) : Touches b s (s.put b x) := ⟨rfl, fun _ hc => view_put_of_ne s b x hc⟩

theorem unlink (s : Mgr) (b : ℕ) : Touches b s (s.unlink b) := ⟨rfl, fun _ hc => view_unlink_of_ne s b hc⟩

theorem forget (s : Mgr) (b : ℕ) (r : IosId) : Touches b s (s.forget b r) :=
  ⟨rfl, fun _ hc => view_forget_of_ne s b r hc⟩

theorem link (s : Mgr) (b : ℕ) (waits : Bool) : Touches b s (s.link b waits) :=
  ⟨by cases waits <;> rfl, fun _ hc => view_link_of_ne s b waits hc⟩

theorem queue (s : Mgr) (w : Work) : Touches w.br s (s.queue w) := ⟨rfl, fun _ hc => view_queue_of_ne s hc⟩

theorem decref (s : Mgr) (b : ℕ) (rc : ℤ) : Touches b s (batchrqDecref s b rc) := by
  unfold batchrqDecref
  dsimp only
  split
  · exact ⟨rfl, fun _ _ => rfl⟩
  · exact (put s b _).trans ((unlink _ b).trans (forget _ b _))
  · exact put s b _

theorem send (s : Mgr) (b : ℕ) (rc : ℤ) : Touches b s (batchrqSend s b rc) := by
  have hlink := (unlink s b).trans (link (s.unlink b) b true)
  unfold batchrqSend
  split
  · exact hlink.trans (put _ b _)
  · exact hlink.trans ((put _ b _).trans (decref _ b rc))

end Touches

variable {s} {b : ℕ}

theorem decref_last (rc : ℤ) (h : (s.batch b).refcnt = 1) : batchrqDecref s b rc = ((s.put b { s.batch b with
      rc := firstRc (s.batch b).rc rc, refcnt := 0,
      calls := (s.batch b).calls ++ [firstRc (s.batch b).rc rc] }).unlink b).forget b (s.batch b).res := by
  simp only [batchrqDecref, h]

theorem decref_more (rc : ℤ) (h : 1 < (s.batch b).refcnt) : batchrqDecref s b rc = s.put b { s.batch b with
      rc := firstRc (s.batch b).rc rc, refcnt := (s.batch b).refcnt - 1 } := by
  obtain ⟨n, hn⟩ : ∃ n, (s.batch b).refcnt = n + 2 := ⟨(s.batch b).refcnt - 2, by omega⟩
  simp only [batchrqDecref, hn]
  rfl

/-- Something is to come for the batch. -/
def View.Waits (v : View) : Prop := v.nd = 1 ∨ v.x.rpc ∨ 0 < v.nv ∨ v.x.waitreply

/-- The count of references follows what is under way. -/
theorem View.Live.refs_to {v w : View} {d e : ℕ} (h : v.Live d)
    (hcnt : w.x.refcnt + v.dropping + d = v.x.refcnt + w.dropping + e) (hnf : w.nf = v.nf) (hw : v.Waits → w.Waits) :
    w.x.refcnt = w.dropping + e ∨ (w.x.refcnt = w.dropping + e + 1 ∧ w.nf = 0 ∧ w.Waits) := by
  rcases h.refs with hr | ⟨hr, hzero, hwait⟩
  · exact .inl (by omega)
  · exact .inr ⟨by omega, hnf.trans hzero, hw hwait⟩

theorem decref_live (rc : ℤ) (h : (view s b).Live 1) : (batchrqDecref s b rc).failed = s.failed ∧
      ((view (batchrqDecref s b rc) b).Live 0 ∨ ((view (batchrqDecref s b rc) b).Absent ∧
        ((batchrqDecref s b rc).batch b).calls.length = 1)) := by
  have hpos : 0 < (s.batch b).refcnt := h.refcnt
  by_cases hone : (s.batch b).refcnt = 1
  · rw [decref_last rc hone]
    refine ⟨rfl, .inr ⟨?_, ?_⟩⟩
    · rw [view_forget_self, view_unlink_self, view_put_self]
      have hlists := h.lists
      have hrefs := h.refs
      rw [view_x] at hrefs
      refine ⟨rfl, ?_, fun r => ?_, show (view s b).dropping = 0 by omega⟩
      · dsimp only
        omega
      · by_cases hr : r = (s.batch b).res <;> simp [h.rpmi, view_x, hr]
    · simp [Mgr.put, Mgr.unlink, Mgr.forget, show (s.batch b).calls = [] from h.calls]
  · rw [decref_more rc (by omega), view_put_self]
    refine ⟨rfl, .inl ⟨Nat.sub_pos_of_lt (by omega), h.calls, h.lists, h.rpmi, h.delayed, h.refs_to ?_ rfl id⟩⟩
    simp only [View.dropping, view_x]
    omega

/-! ### Each step keeps the invariant -/

section Keep

variable {t : Mgr}

theorem View.Live.not_absent {v : View} {d : ℕ} (h : v.Live d) : ¬ v.Absent := fun ha => by
  have := h.refcnt
  have := ha.refcnt
  omega

/-- Only batch `b` changes, and no other is new. -/
theorem Inv.replace (hs : Inv s) (ho : ∀ c ≠ b, view t c = view s c) (hbid : ∀ c ≠ b, c < t.bid ↔ c < s.bid)
    (hok : t.failed = false) (hb : 0 < b ∧ b < t.bid)
    (hv : (view t b).Live 0 ∨ ((view t b).Absent ∧ (t.batch b).calls.length = 1)) : Inv t := by
  refine ⟨hok, hb.1.trans hb.2, fun c => ?_, fun c hc => ?_, fun c hc => ?_⟩
  · by_cases h : c = b
    · subst h
      exact hv.imp_right And.left
    · rw [ho c h]
      exact hs.born c
  · by_cases h : c = b
    · subst h
      rw [if_pos hb]
      rcases hv with hl | ⟨-, hcalls⟩
      · exact absurd hc hl.not_absent
      · exact hcalls
    · rw [ho c h] at hc
      simp only [hbid c h, ← hs.done c hc]
      exact congrArg (fun v : View => v.x.calls.length) (ho c h)
  · by_cases h : c = b
    · subst h
      exact hb
    · rw [ho c h] at hc
      rw [hbid c h]
      exact hs.fresh c hc

theorem Inv.touch (hs : Inv s) (ht : Touches b s t) (hok : t.failed = false) (hb : 0 < b ∧ b < s.bid)
    (hv : (view t b).Live 0 ∨ ((view t b).Absent ∧ (t.batch b).calls.length = 1)) : Inv t :=
  hs.replace ht.others (fun _ _ => by rw [ht.bid]) hok (by rwa [ht.bid]) hv

theorem pending_eq (s : Mgr) (b : ℕ) : pending s b = (view s b).nf + (view s b).nv := by
  change s.wkq.countP _ = s.wkq.countP (isFinish b) + s.wkq.countP (isWaitreply b)
  induction s.wkq with
  | nil => rfl
  | cons w ws ih =>
    by_cases hb : w.br = b <;> by_cases hc : w.cb = .waitreply <;>
      simp [isFinish, isWaitreply, hb, hc] <;> omega

theorem dropping_eq (s : Mgr) (b : ℕ) : dropping s b = (view s b).dropping := by
  rw [dropping, pending_eq]
  rfl

theorem Inv.live (hs : Inv s) (h : 0 < (view s b).nd + (view s b).nw + (view s b).dropping) : (view s b).Live 0 := by
  refine (hs.born b).resolve_right fun ha => ?_
  have := ha.lists
  have := ha.refs
  omega

variable {rc : ℤ}

theorem send_inv (hs : Inv s) (hb : b ∈ s.delayed) (hrc : rc = 0 ∨ Open s b) : Inv (batchrqSend s b rc) := by
  have hpos : 0 < (view s b).nd := count_pos_iff.mpr hb
  have hl := hs.live (b := b) (by omega)
  have hlists := hl.lists
  have hnd : (view s b).nd = 1 := by omega
  have hnw : (view s b).nw = 0 := by omega
  have hrpc : (s.batch b).rpc = false := (hl.delayed hnd).1
  have hview : view ((s.unlink b).link b true) b = { view s b with nd := 0, nw := 1 } := by
    simp [hnd, hnw]
  by_cases h0 : rc = 0
  · have hsend : batchrqSend s b rc = ((s.unlink b).link b true).put b { s.batch b with
        refcnt := (s.batch b).refcnt + 1, rqinfl := true, rq := false, rpc := true } := by
      simp only [batchrqSend, h0, if_true]
    refine hs.touch (Touches.send s b rc) (by rw [hsend]; exact hs.ok) (hs.fresh b hl) (.inl ?_)
    rw [hsend, view_put_self, hview]
    refine ⟨Nat.succ_pos _, hl.calls, rfl, hl.rpmi, fun h => (by cases h), hl.refs_to ?_ rfl fun _ => .inr (.inl rfl)⟩
    simp only [View.dropping, view_x, hrpc, Bool.toNat_true, Bool.toNat_false]
    omega
  · have hopen := hrc.resolve_left h0
    rw [Open, dropping_eq] at hopen
    have hsend : batchrqSend s b rc = batchrqDecref (((s.unlink b).link b true).put b
        { s.batch b with rq := true, rqinfl := false }) b rc := by
      simp only [batchrqSend, h0, if_false]
    have hlive : (view (((s.unlink b).link b true).put b
        { s.batch b with rq := true, rqinfl := false }) b).Live 1 := by
      rw [view_put_self, hview]
      exact ⟨hl.refcnt, hl.calls, rfl, hl.rpmi, fun h => (by cases h), .inl hopen⟩
    obtain ⟨hfailed, hdone⟩ := decref_live rc hlive
    rw [← hsend] at hfailed hdone
    exact hs.touch (Touches.send s b rc) (hfailed.trans hs.ok) (hs.fresh b hl) hdone

theorem reply_inv (hs : Inv s) (hrpc : (s.batch b).rpc) (hrc : rc = 0 ∨ Closing s b) :
    Inv (slBatchrqsendCb s b rc) := by
  have hdrop : (view s b).dropping = (view s b).nf + (view s b).nv + 1 := by
    simp [View.dropping, view_x, hrpc]
  have hl := hs.live (b := b) (by omega)
  have hnd : (view s b).nd ≠ 1 := fun h => absurd ((hl.delayed h).1.symm.trans hrpc) (by decide)
  by_cases h0 : rc = 0
  · have hcb : slBatchrqsendCb s b rc = (s.put b { s.batch b with rpc := false }).queue ⟨b, .waitreply⟩ := by
      simp [slBatchrqsendCb, h0]
    rw [hcb]
    refine hs.touch ((Touches.put s b _).trans (Touches.queue _ ⟨b, .waitreply⟩)) hs.ok (hs.fresh b hl) (.inl ?_)
    rw [view_queue_waitreply, view_put_self]
    refine ⟨hl.refcnt, hl.calls, hl.lists, hl.rpmi, fun h => absurd h hnd,
      hl.refs_to ?_ rfl fun _ => .inr (.inr (.inl (Nat.succ_pos _)))⟩
    simp only [View.dropping, view_x, hrpc, Bool.toNat_true, Bool.toNat_false]
    omega
  · have hclosing := hrc.resolve_left h0
    rw [Closing, dropping_eq] at hclosing
    have hcb : slBatchrqsendCb s b rc = (s.put b { s.batch b with rpc := false }).queue ⟨b, .finish rc⟩ := by
      simp [slBatchrqsendCb, batchrqSchedFinish, h0]
    rw [hcb]
    refine hs.touch ((Touches.put s b _).trans (Touches.queue _ ⟨b, .finish rc⟩)) hs.ok (hs.fresh b hl) (.inl ?_)
    rw [view_queue_finish, view_put_self]
    refine ⟨hl.refcnt, hl.calls, hl.lists, hl.rpmi, fun h => absurd h hnd, .inl ?_⟩
    simp only [View.dropping, Bool.toNat_false]
    omega

theorem View.Live.finish {v : View} (h : v.Live 0) (hopen : v.x.refcnt = v.dropping + 1) :
    View.Live 0 { v with nf := v.nf + 1 } := by
  refine ⟨h.refcnt, h.calls, h.lists, h.rpmi, h.delayed, .inl ?_⟩
  rw [View.dropping] at hopen ⊢
  dsimp only
  omega

theorem batchrp_inv (hs : Inv s) {lenOk : Bool} {bulkRc : ℤ}
    (hopen : b ∈ s.waitreply → Open s b) : Inv (slHandleBatchrp s b rc lenOk bulkRc) := by
  unfold slHandleBatchrp
  split
  · rename_i hb
    have hpos : 0 < (view s b).nw := count_pos_iff.mpr hb
    have hl := hs.live (b := b) (by omega)
    have hopen := hopen hb
    rw [Open, dropping_eq] at hopen
    refine hs.touch (Touches.queue s ⟨b, _⟩) hs.ok (hs.fresh b hl) (.inl ?_)
    rw [batchrqSchedFinish, view_queue_finish]
    exact hl.finish hopen
  · exact hs

theorem hldrop_inv (hs : Inv s) {r : IosId} (hopen : ∀ b ∈ s.rpmi r, Open s b) (econnreset : ℤ) :
    Inv (slResmHldrop s r econnreset) := by
  have hview : ∀ c, view (slResmHldrop s r econnreset) c =
      { view s c with nf := (view s c).nf + (view s c).nr r } := by
    intro c
    have hf : ((s.rpmi r).map fun b => (⟨b, .finish (-econnreset)⟩ : Work)).countP (isFinish c) =
        (s.rpmi r).count c := by
      rw [countP_map]
      refine countP_congr fun x _ => ?_
      simp [isFinish, beq_iff_eq]
    have hw : ((s.rpmi r).map fun b => (⟨b, .finish (-econnreset)⟩ : Work)).countP (isWaitreply c) =
        0 := by
      rw [countP_map, countP_eq_zero]
      intro x _
      simp [isWaitreply]
    simp only [view, slResmHldrop, countP_append, hf, hw, Nat.add_zero]
  have hlive : ∀ c, (view s c).Live 0 → (view (slResmHldrop s r econnreset) c).Live 0 := by
    intro c hl
    rw [hview, hl.rpmi r]
    split_ifs with hr
    · have hmem : c ∈ s.rpmi r := by
        refine count_pos_iff.mp ?_
        have : (s.rpmi r).count c = _ := hl.rpmi r
        rw [this, if_pos hr]
        exact Nat.one_pos
      have ho := hopen c hmem
      rw [Open, dropping_eq] at ho
      exact hl.finish ho
    · exact hl
  have habs : ∀ c, (view s c).Absent → (view (slResmHldrop s r econnreset) c).Absent := by
    intro c ha
    rw [hview, ha.rpmi r]
    exact ha
  refine ⟨hs.ok, hs.bid, fun c => (hs.born c).imp (hlive c) (habs c), fun c hc => hs.done c ?_, fun c hc =>
    hs.fresh c ?_⟩
  · exact (hs.born c).resolve_left fun hl => (hlive c hl).not_absent hc
  · exact (hs.born c).resolve_right fun ha => hc.not_absent (habs c ha)

variable {n : ℕ} {w : Work}

theorem view_eraseIdx (hw : s.wkq[n]? = some w) (c : ℕ) :
    (view s c).nf = (view { s with wkq := s.wkq.eraseIdx n } c).nf + (isFinish c w).toNat ∧
      (view s c).nv = (view { s with wkq := s.wkq.eraseIdx n } c).nv + (isWaitreply c w).toNat := by
  obtain ⟨hn, rfl⟩ := List.getElem?_eq_some_iff.mp hw
  have hperm := getElem_cons_eraseIdx_perm hn
  have hcount : ∀ p : Work → Bool, s.wkq.countP p = (s.wkq.eraseIdx n).countP p + (p (s.wkq[n])).toNat := by
    intro p
    rw [← hperm.countP_eq, countP_cons]
    cases p (s.wkq[n]) <;> rfl
  exact ⟨hcount _, hcount _⟩

theorem work_inv (hs : Inv s) (hw : s.wkq[n]? = some w) : Inv (runWork { s with wkq := s.wkq.eraseIdx n } w) := by
  obtain ⟨b, cb⟩ := w
  let u : Mgr := { s with wkq := s.wkq.eraseIdx n }
  have hother : ∀ c ≠ b, view u c = view s c := by
    intro c hc
    obtain ⟨hf, hv⟩ := view_eraseIdx hw c
    rw [show isFinish c ⟨b, cb⟩ = false by simp [isFinish, hc.symm]] at hf
    rw [show isWaitreply c ⟨b, cb⟩ = false by simp [isWaitreply, hc.symm]] at hv
    exact View.mk.injEq .. ▸ ⟨rfl, rfl, rfl, rfl, hf.symm, hv.symm⟩
  have htouch : Touches b s u := ⟨rfl, hother⟩
  obtain ⟨hf, hv⟩ := view_eraseIdx hw b
  cases cb with
  | finish rc =>
    have hf : (view s b).nf = (view u b).nf + 1 := by simpa [isFinish] using hf
    have hv : (view s b).nv = (view u b).nv := by simpa [isWaitreply] using hv
    have hl := hs.live (b := b) (by rw [View.dropping]; omega)
    have hlive : (view u b).Live 1 := by
      refine ⟨hl.refcnt, hl.calls, hl.lists, hl.rpmi, fun h => hv ▸ hl.delayed h, .inl ?_⟩
      -- a batch that is being finished has no reference left over
      have hrefs := hl.refs
      simp only [View.dropping, view_x] at hrefs ⊢
      change (s.batch b).refcnt = _ + _ + (s.batch b).rpc.toNat + 1
      omega
    obtain ⟨hfailed, hdone⟩ := decref_live rc hlive
    exact hs.touch (htouch.trans (Touches.decref u b rc)) (hfailed.trans hs.ok) (hs.fresh b hl) hdone
  | waitreply =>
    have hf : (view u b).nf = (view s b).nf := by simpa [isFinish] using hf.symm
    have hv : (view s b).nv = (view u b).nv + 1 := by simpa [isWaitreply] using hv
    have hl := hs.live (b := b) (by rw [View.dropping]; omega)
    have hlive : (view (u.put b { u.batch b with rqinfl := false, waitreply := true }) b).Live 1 := by
      rw [view_put_self]
      refine ⟨hl.refcnt, hl.calls, hl.lists, hl.rpmi, fun h => ?_, hl.refs_to ?_ hf fun _ => .inr (.inr (.inr rfl))⟩
      · have := (hl.delayed h).2
        omega
      · simp only [View.dropping, view_x, hf, hv]
        change (s.batch b).refcnt + _ + 0 = (s.batch b).refcnt + (_ + _ + (s.batch b).rpc.toNat) + 1
        omega
    obtain ⟨hfailed, hdone⟩ := decref_live 0 hlive
    exact hs.touch (htouch.trans ((Touches.put u b _).trans (Touches.decref _ b 0)))
      (hfailed.trans hs.ok) (hs.fresh b hl) hdone

theorem create_inv (hs : Inv s) (r : IosId) :
    Inv (create s r) ∧ (view (create s r) s.bid).Live 0 ∧ (view (create s r) s.bid).nd = 1 ∧
      Open (create s r) s.bid := by
  have hself : view (create s r) s.bid = ⟨{ Batch.unborn with res := r, rq := true, refcnt := 1 },
      (view s s.bid).nd + 1, (view s s.bid).nw, fun q => if q = r then (view s s.bid).nr q + 1 else (view s s.bid).nr q,
      (view s s.bid).nf, (view s s.bid).nv⟩ := by
    simp only [create, view, Mgr.put, Mgr.link, update_self, Bool.false_eq_true, if_false,
      count_append, count_singleton_self]
    congr 1
    funext q
    by_cases hq : q = r
    · subst hq
      simp
    · simp [hq]
  have hother : ∀ c ≠ s.bid, view (create s r) c = view s c := by
    intro c hc
    simp only [create, view, Mgr.put, Mgr.link, update_of_ne hc, Bool.false_eq_true, if_false, count_append]
    congr 1
    · simp [hc.symm]
    · funext q
      by_cases hq : q = r
      · subst hq
        simp [hc.symm]
      · simp [update_of_ne hq]
  have habs : (view s s.bid).Absent :=
    (hs.born s.bid).resolve_left fun hl => absurd (hs.fresh s.bid hl).2 (lt_irrefl _)
  have hzero : (view s s.bid).nf = 0 ∧ (view s s.bid).nv = 0 := by
    have := habs.refs
    rw [View.dropping] at this
    omega
  have hlists := habs.lists
  have hlive : (view (create s r) s.bid).Live 0 := by
    rw [hself, hzero.1, hzero.2]
    refine ⟨Nat.one_pos, rfl, ?_, fun q => ?_, fun _ => ⟨rfl, rfl⟩, .inr ⟨rfl, rfl, .inl ?_⟩⟩
    · dsimp only
      omega
    · dsimp only
      rw [habs.rpmi q]
    · dsimp only
      omega
  have hnd : (view (create s r) s.bid).nd = 1 := by
    rw [hself]
    dsimp only
    omega
  have hopen : Open (create s r) s.bid := by
    rw [Open, dropping_eq, hself, hzero.1, hzero.2]
    exact congrArg Batch.refcnt (congrArg View.x hself)
  refine ⟨hs.replace hother (fun c hc => ?_) hs.ok ⟨hs.bid, Nat.lt_succ_self _⟩ (.inl hlive), hlive, hnd, hopen⟩
  change c < s.bid + 1 ↔ _
  omega

variable {opc : Srmt}

theorem joinable_eq_none (s : Mgr) (r : IosId) (h : opc ≠ .batchRq) : joinable s r opc = none := by
  rw [joinable, find?_eq_none]
  intro b _
  simp [h]

theorem add_inv (hs : Inv s) (mtu : ℕ) (r : IosId) (hopc : opc ≠ .batchRq) (len : ℕ)
    (newreqRc sendRc : ℤ) : Inv (batchrqAdd mtu s r opc len newreqRc sendRc) := by
  rw [batchrqAdd, joinable_eq_none s r hopc]
  dsimp only
  split
  · exact hs
  obtain ⟨hc, hl, hnd, hopen⟩ := create_inv hs r
  -- the length of the batch is all that changes before it is perhaps sent
  have hput : Inv ((create s r).put s.bid { (create s r).batch s.bid with
      len := ((create s r).batch s.bid).len + len }) := by
    refine hc.touch (Touches.put _ _ _) hc.ok (hc.fresh _ hl) (.inl ?_)
    rw [view_put_self]
    exact ⟨hl.refcnt, hl.calls, hl.lists, hl.rpmi, hl.delayed, hl.refs⟩
  simp only [addEntry]
  split
  · refine send_inv hput ?_ (.inr ?_)
    · exact count_pos_iff.mp (by
        change 0 < (view (create s r) s.bid).nd
        omega)
    · rw [Open, dropping_eq, view_put_self]
      rw [Open, dropping_eq] at hopen
      simp only [Mgr.put, update_self]
      exact hopen
  · exact hput

theorem step_inv {mtu : ℕ} {l : Label} (hs : Inv s) (hl : Orderly s l) (h : step mtu s l = some t) : Inv t := by
  unfold step at h
  rw [if_neg (Bool.eq_false_iff.mp hs.ok)] at h
  cases l with
  | add r opc len newreqRc sendRc =>
    dsimp only at h
    split at h <;> cases h
    exact add_inv hs mtu r ‹_› len newreqRc sendRc
  | send =>
    dsimp only at h
    split at h <;> cases h
    exact send_inv hs ‹_› hl
  | reply =>
    dsimp only at h
    split at h <;> cases h
    exact reply_inv hs ‹_› hl
  | batchrp =>
    cases h
    exact batchrp_inv hs hl
  | hldrop r econnreset =>
    cases h
    exact hldrop_inv hs hl econnreset
  | work =>
    obtain ⟨w, hw, rfl⟩ := Option.map_eq_some_iff.mp h
    exact work_inv hs hw

end Keep

theorem inv_init : Inv Mgr.init := by
  have habs : ∀ b, (view Mgr.init b).Absent := fun b => ⟨rfl, rfl, fun _ => rfl, rfl⟩
  refine ⟨rfl, Nat.one_pos, fun b => .inr (habs b), fun b _ => ?_, fun b hl => ?_⟩
  · rw [if_neg]
    · rfl
    · change ¬ (0 < b ∧ b < 1)
      omega
  · exact absurd (habs b) hl.not_absent

theorem Inv.unfinished {s : Mgr} {b : ℕ} (h : (view s b).Live 0) : Unfinished s b := by
  refine ⟨h.refcnt, h.calls, h.lists, ?_⟩
  rw [Awaited, pending_eq]
  have hdel : (view s b).nd = 1 → b ∈ s.delayed := fun hnd =>
    count_pos_iff.mp (by
      change 0 < (view s b).nd
      omega)
  rcases h.refs with hr | ⟨-, -, hnd | hrpc | hnv | hw⟩
  · by_cases hrpc : (s.batch b).rpc = true
    · exact .inr (.inl hrpc)
    · refine .inr (.inr (.inl ?_))
      have hpos := h.refcnt
      rw [hr, View.dropping, show (view s b).x.rpc = false from Bool.eq_false_iff.mpr hrpc] at hpos
      exact hpos
  · exact .inl (hdel hnd)
  · exact .inr (.inl hrpc)
  · exact .inr (.inr (.inl (by omega)))
  · exact .inr (.inr (.inr hw))

/-- **Each batch once**: finished with its callback, or on one list, in runs of orderly steps. -/
theorem batch_once_run (mtu : ℕ) {ls : List Label} (hls : Admits (step mtu) Orderly Mgr.init ls)
    {t : Mgr} (ht : run (step mtu) Mgr.init ls = some t) :
    t.failed = false ∧ ∀ b, 0 < b → b < t.bid → Unfinished t b ∨ Finished t b := by
  have hinv := run_invariant (fun hs hl h => step_inv hs hl h) inv_init hls ht
  refine ⟨hinv.ok, fun b hpos hlt => ?_⟩
  rcases hinv.born b with hl | ha
  · exact .inl (Inv.unfinished hl)
  refine .inr ⟨ha.refcnt, ?_, ha.lists, ?_⟩
  · rw [hinv.done b ha, if_pos ⟨hpos, hlt⟩]
  · rw [dropping_eq]
    exact ha.refs

/-! ### A batch with one entry -/

def taken : List Label := [.add 2 .replSchedwk 100 0 0, .send 1 0, .reply 1 0, .work 0]

/-- The batch is answered and finished. -/
theorem batch_once_run_answered : ∃ t, run (step 1000) Mgr.init (taken ++ [.batchrp 1 0 true 0, .work 0]) = some t ∧
    (t.batch 1).calls = [0] ∧ (Unfinished t 1 ∨ Finished t 1) := by
  have hrun : ∃ t ∈ run (step 1000) Mgr.init (taken ++ [.batchrp 1 0 true 0, .work 0]),
      t.bid = 2 ∧ (t.batch 1).calls = [0] := by decide
  obtain ⟨t, ht, hbid, hcalls⟩ := hrun
  exact ⟨t, ht, hcalls, (batch_once_run 1000 (by decide) ht).2 1 Nat.one_pos (by omega)⟩

/-- The RPC fails: not finished, and nothing is to come. -/
theorem batch_not_once : (∃ t ∈ run (step 1000) Mgr.init [.add 2 .preclaim 100 0 0, .send 1 0, .reply 1 (-95), .work 0],
      0 < (t.batch 1).refcnt ∧ (t.batch 1).calls = [] ∧ ¬ Awaited t 1 ∧ t.wkq = []) ∧ (∃ t ∈ run (step 1000) Mgr.init
        (taken ++ [.batchrp 1 0 true 0, .hldrop 2 104, .work 0, .work 0]), t.failed = true) := by
  decide

end Slash2.Batchrq
