/-
# Pending writes of a bmap

A write request that has been answered waits in the tree `bmpc_new_biorqs` of its bmap. The flush
threads take biorqs off it for WRITE RPCs, put them back when an RPC fails, and give them up after
too many retries or when the lease has failed. `bmpc_pndg_writes` counts them from
`msl_pages_schedflush` to `msl_biorq_del`.

Key definitions: `State`, `step`, `Booked`, `OnlyReady`, `Inv`.
Key theorems: `step_inv`, `booked_run`, `ready_run`.
-/
import Mathlib.Algebra.Ring.Nat
import Mathlib.Data.List.Sort
import Slash2.Client.Flush
import Slash2.Lib.Slots

namespace Slash2.Client.PendingWrites

open Lib List Option
open Flush (slMaxBmapflshRetries)

inductive Stage where
  | building
  /-- answered, and `msl_pages_schedflush` is to come -/
  | scheduling
  /-- the last critical section of `_msl_biorq_release` is to come -/
  | dropping
  /-- `msl_biorq_destroy` is to come -/
  | deleting
  | over
  deriving DecidableEq

/-- `struct bmpc_ioreq` -/
structure Rq where
  off : ℕ
  len : ℕ
  /-- `biorq_ref` -/
  ref : ℕ
  flushrdy : Bool
  ontree : Bool
  expire : Bool
  retries : ℕ
  /-- `biorq_last_sliod`; `none` is `IOS_ID_ANY` -/
  lastSliod : Option ℕ
  stage : Stage
  /-- `msl_biorq_del` has not been called -/
  live : Bool

inductive Work where
  | resched (r : ℕ) (rc : ℤ)
  | release (r : ℕ)
  /-- `msl_biorq_destroy` -/
  | del (r : ℕ)

def Work.rq : Work → ℕ
  | .resched r _ | .release r | .del r => r

/-- Where a thread is in `bmap_flush`. -/
inductive Pc where
  | idle
  /-- it has set `BMAPF_SCHED` -/
  | picked
  | flushing (reqs : List ℕ)
  /-- after `bmpc_biorqs_destroy_locked` -/
  | leaving
  | callback
  deriving DecidableEq

def Pc.reqs : Pc → List ℕ
  | .flushing reqs => reqs
  | .idle | .picked | .leaving | .callback => []

structure Thread where
  pc : Pc
  todo : List Work

structure State where
  rqs : List Rq
  /-- `bmpc_new_biorqs` -/
  tree : List ℕ
  /-- `bmpc_new_biorqs_exp` -/
  exp : List ℕ
  pndgWrites : ℕ
  flushq : Bool
  /-- the bmap is on `slc_bmapflushq` -/
  queued : Bool
  sched : Bool
  /-- `BMAPF_LEASEFAILED` or `BMAPF_TOFREE` -/
  failed : Bool
  error : ℤ
  flushRc : ℤ
  /-- `bmap_2_ios` -/
  ios : ℕ
  threads : List Thread
  rpcs : List (List ℕ)

variable (s : State)

def State.setRq (i : ℕ) (r : Rq) : State := { s with rqs := s.rqs.set i r }

/-- `if (rc && !bci->bci_flush_rc) bci->bci_flush_rc = rc` -/
def State.noteRc (rc : ℤ) : State := if rc ≠ 0 ∧ s.flushRc = 0 then { s with flushRc := rc } else s

/-! ### The tree and the list -/

/-- `bmpc_biorq_cmp`: biorq `i` is not after biorq `j`. -/
def bmpcBiorqLe (rqs : List Rq) (i j : ℕ) : Prop :=
  let off := fun k => (rqs[k]?.map Rq.off).getD 0
  let len := fun k => (rqs[k]?.map Rq.len).getD 0
  off i < off j ∨ off i = off j ∧ (len i < len j ∨ len i = len j ∧ i ≤ j)
  deriving Decidable

/-- `PSC_RB_XINSERT` into the tree and `pll_addtail` to the list. -/
def State.xinsert (i : ℕ) : Option State :=
  if i ∈ s.tree then none
  else some { s with tree := s.tree.orderedInsert (bmpcBiorqLe s.rqs) i, exp := s.exp ++ [i] }

/-- `PSC_RB_XREMOVE` and `pll_remove` -/
def State.xremove (i : ℕ) : State := { s with tree := s.tree.erase i, exp := s.exp.erase i }

def mslPagesSchedflush (i : ℕ) : Option State :=
  (s.rqs[i]?).bind fun r =>
    if r.stage = .scheduling then
      (State.xinsert { s with
          rqs := s.rqs.set i { r with ref := r.ref + 1, flushrdy := true, ontree := true, stage := .dropping }
          pndgWrites := s.pndgWrites + 1 } i).bind fun s =>
        if s.flushq then some s
        else if s.queued then none
        else some { s with flushq := true, queued := true }
    else none

/-- The end of `_msl_biorq_release`: destroy it? -/
def decref (r : Rq) : Option (Rq × Bool) :=
  if r.ref > 0 then some ({ r with ref := r.ref - 1 }, decide (r.ref = 1)) else none

/-- `msl_biorq_del` as far as the flush queue goes. -/
def State.dequeue : Option State :=
  if s.pndgWrites > 0 ∧ s.flushq = true then
    if s.pndgWrites = 1 then
      if s.queued then some { s with pndgWrites := 0, flushq := false, queued := false } else none
    else some { s with pndgWrites := s.pndgWrites - 1 }
  else none

/-- `msl_biorq_del`; `_msl_biorq_destroy` is called once. -/
def mslBiorqDel (i : ℕ) : Option State :=
  (s.rqs[i]?).bind fun r =>
    if r.live then
      let s := (if r.ontree then s.xremove i else s).setRq i { r with live := false }
      if r.flushrdy then s.dequeue else some s
    else none

/-- `bmap_flush_resched`: is the biorq given up? -/
def bmapFlushResched (i : ℕ) (rc : ℤ) : Option (State × Bool) :=
  (s.rqs[i]?).bind fun r =>
    if rc = -enospc ∨ r.retries ≥ slMaxBmapflshRetries then some (s.noteRc rc, true)
    else
      let retries := if r.lastSliod = some s.ios ∨ r.lastSliod = none then r.retries + 1 else 1
      let s' := s.setRq i { r with ontree := true, retries := retries, expire := false }
      if r.ontree then some (s', false) else (s'.xinsert i).map fun s' => (s', false)

/-- The loop of `bmap_flush_send_rpcs` for one biorq. -/
def State.sendOne (i : ℕ) : State :=
  match s.rqs[i]? with
  | some r => (s.xremove i).setRq i { r with lastSliod := some s.ios, ontree := false }
  | none => s

/-- The loop of `bmpc_biorqs_destroy_locked` for one biorq. -/
def State.destroyOne (i : ℕ) : Option State :=
  (s.rqs[i]?).bind fun r =>
    if r.flushrdy then some ((s.xremove i).setRq i { r with ontree := false }) else none

/-- The loop of `bmpc_biorqs_destroy_locked`. -/
def State.destroyAll : List ℕ → State → Option State
  | [], s => some s
  | i :: is, s => (s.destroyOne i).bind (State.destroyAll is)

def State.setThread (t : ℕ) (th : Thread) : State := { s with threads := s.threads.set t th }

def work (t : ℕ) (th : Thread) : Option State :=
  match th.todo with
  | [] => none
  | .resched i rc :: todo => (bmapFlushResched s i rc).map fun out =>
      out.1.setThread t { th with todo := if out.2 then .release i :: todo else todo }
  | .release i :: todo => (s.rqs[i]?).bind fun r => (decref r).map fun out =>
      (s.setRq i out.1).setThread t { th with todo := if out.2 then .del i :: todo else todo }
  | .del i :: todo => (mslBiorqDel s i).map fun s => s.setThread t { th with todo := todo }

/-- The first loop of `bmap_flush`. -/
def pick (t : ℕ) (th : Thread) : Option State :=
  if th.pc = .idle ∧ s.queued ∧ s.sched = false ∧ (s.tree ≠ [] ∨ s.failed) then
    if s.flushq then some { s.setThread t { th with pc := .picked } with sched := true } else none
  else none

/-- The second loop of `bmap_flush` looks at the bmap. -/
def look (t : ℕ) (th : Thread) : Option State :=
  if th.pc = .picked then
    if s.failed then
      (State.destroyAll s.tree ({ s with sched := false } : State)).map fun s' =>
        (s'.noteRc s.error).setThread t ⟨.leaving, s.tree.map .release⟩
    else some (s.setThread t { th with pc := .flushing s.tree })
  else none

/-- `bmap_flush_trycoalesce` skips `skip` biorqs, takes `n`, and they are sent. -/
def send (t skip n : ℕ) (rc rc' : ℤ) (th : Thread) : Option State :=
  match th.pc, th.todo with
  | .flushing reqs, [] =>
    let bwc := (reqs.drop skip).take n
    let pc := Pc.flushing (reqs.drop (skip + n))
    if rc ≠ 0 then some (s.setThread t ⟨pc, bwc.map (.resched · rc)⟩)
    else
      let s := bwc.foldl State.sendOne s
      if rc' ≠ 0 then some (s.setThread t ⟨pc, bwc.map (.resched · rc')⟩)
      else some { s.setThread t ⟨pc, []⟩ with rpcs := s.rpcs ++ [bwc] }
  | _, _ => none

/-- The end of the second loop of `bmap_flush`. -/
def finish (t : ℕ) (th : Thread) : Option State :=
  match th.pc, th.todo with
  | .flushing _, [] | .leaving, [] => some { s.setThread t ⟨.idle, []⟩ with sched := false }
  | _, _ => none

def mslRicBflushCb (k : ℕ) (rc : ℤ) : Option State :=
  (s.rpcs[k]?).map fun bwc =>
    { s with
      rpcs := s.rpcs.eraseIdx k
      threads := s.threads ++ [⟨.callback, bwc.map fun i => if rc ≠ 0 then .resched i rc else .release i⟩] }

/-- `i` is the number of a biorq, `t` that of a thread. -/
inductive Label where
  /-- `bmpc_biorq_new` -/
  | new (off len : ℕ)
  /-- the last reference has completed the request -/
  | complete (i : ℕ) (flush : Bool)
  | schedflush (i : ℕ)
  | drop (i : ℕ)
  | del (i : ℕ)
  | thread
  | work (t : ℕ)
  | pick (t : ℕ)
  | look (t : ℕ)
  | send (t skip n : ℕ) (rc rc' : ℤ)
  | finish (t : ℕ)
  | callback (k : ℕ) (rc : ℤ)
  | fail (rc : ℤ)
  | reassign (ios : ℕ)

def State.withThread (t : ℕ) (f : Thread → Option State) : Option State := (s.threads[t]?).bind f

def step : Label → Option State
  | .new off len => some { s with rqs := s.rqs ++ [⟨off, len, 1, false, false, false, 0, none, .building, true⟩] }
  | .complete i flush => (s.rqs[i]?).bind fun r =>
      if r.stage = .building then
        some (s.setRq i { r with stage := if flush then .scheduling else .dropping })
      else none
  | .schedflush i => mslPagesSchedflush s i
  | .drop i => (s.rqs[i]?).bind fun r =>
      if r.stage = .dropping then
        (decref r).map fun out => s.setRq i { out.1 with stage := if out.2 then .deleting else .over }
      else none
  | .del i => (s.rqs[i]?).bind fun r =>
      if r.stage = .deleting then mslBiorqDel (s.setRq i { r with stage := .over }) i else none
  | .thread => some { s with threads := s.threads ++ [⟨.idle, []⟩] }
  | .work t => s.withThread t (work s t)
  | .pick t => s.withThread t (pick s t)
  | .look t => s.withThread t (look s t)
  | .send t skip n rc rc' => s.withThread t (send s t skip n rc rc')
  | .finish t => s.withThread t (finish s t)
  | .callback k rc => mslRicBflushCb s k rc
  | .fail rc => some { s with failed := true, error := rc }
  | .reassign ios => some { s with ios := ios }

def init (ios : ℕ) : State := ⟨[], [], [], 0, false, false, false, false, 0, 0, ios, [], []⟩

/-- What the biorq adds to `bmpc_pndg_writes`. -/
def Rq.pending (r : Rq) : ℕ := if r.live = true ∧ r.flushrdy = true then 1 else 0

/-- **The bookkeeping of a bmap**: the counter, the flush queue and the flags of the biorqs agree. -/
structure Booked (s : State) : Prop where
  /-- the counter counts the live biorqs with `BIORQ_FLUSHRDY` -/
  count : s.pndgWrites = s.rqs.countP fun r => r.live && r.flushrdy
  flushq : s.flushq ↔ 0 < s.pndgWrites
  queued : s.queued ↔ 0 < s.pndgWrites
  ontree : ∀ i r, s.rqs[i]? = some r → r.live → (r.ontree ↔ i ∈ s.tree ∧ i ∈ s.exp)

/-- `msl_pages_schedflush` has marked biorq `i`. -/
def Ready (rqs : List Rq) (i : ℕ) : Prop := ∃ r, rqs[i]? = some r ∧ r.flushrdy

/-- A biorq is in the tree, with a flush thread, in the work list of a thread or a callback, or in a WRITE RPC only
when it is ready; the tree and the list hold the same biorqs, each once. -/
structure OnlyReady (s : State) : Prop where
  tree : ∀ i ∈ s.tree, Ready s.rqs i
  reqs : ∀ th ∈ s.threads, ∀ i ∈ th.pc.reqs, Ready s.rqs i
  todo : ∀ th ∈ s.threads, ∀ w ∈ th.todo, Ready s.rqs w.rq
  rpcs : ∀ bwc ∈ s.rpcs, ∀ i ∈ bwc, Ready s.rqs i
  same : ∀ i, i ∈ s.exp ↔ i ∈ s.tree
  nodup : s.tree.Nodup
  nodupExp : s.exp.Nodup

/-- What holds of biorq `i`. -/
structure RqInv (tree : List ℕ) (i : ℕ) (r : Rq) : Prop where
  ontree : r.live → (r.ontree ↔ i ∈ tree)
  early : r.stage = .building ∨ r.stage = .scheduling → r.live ∧ r.flushrdy = false ∧ r.ontree = false

/-- The flag `f` and the queue, with `n` writes pending. -/
structure Queue (n : ℕ) (f q : Bool) : Prop where
  flushq : f ↔ 0 < n
  queued : q = f

/-- The invariant of the steps. -/
structure Inv (s : State) : Prop where
  each : ∀ i r, s.rqs[i]? = some r → RqInv s.tree i r
  count : s.pndgWrites = (s.rqs.map Rq.pending).sum
  queue : Queue s.pndgWrites s.flushq s.queued
  nodup : s.tree.Nodup
  nodupExp : s.exp.Nodup
  same : ∀ i, i ∈ s.exp ↔ i ∈ s.tree
  tree : ∀ i ∈ s.tree, Ready s.rqs i
  reqs : ∀ th ∈ s.threads, ∀ i ∈ th.pc.reqs, Ready s.rqs i
  todo : ∀ th ∈ s.threads, ∀ w ∈ th.todo, Ready s.rqs w.rq
  rpcs : ∀ bwc ∈ s.rpcs, ∀ i ∈ bwc, Ready s.rqs i

/-- No biorq loses `BIORQ_FLUSHRDY`, and threads and RPCs stay. -/
structure Grow (s t : State) : Prop where
  threads : t.threads = s.threads
  rpcs : t.rpcs = s.rpcs
  ready : ∀ {i}, Ready s.rqs i → Ready t.rqs i

theorem Grow.refl : Grow s s := ⟨rfl, rfl, id⟩

variable {s} {u : State}

theorem Grow.trans {t : State} (h : Grow s t) (h' : Grow t u) : Grow s u :=
  ⟨h'.threads.trans h.threads, h'.rpcs.trans h.rpcs, fun hi => h'.ready (h.ready hi)⟩

variable {i : ℕ} {r r' : Rq}

theorem ready_set {rqs : List Rq} (hi : rqs[i]? = some r)
    (hfl : r.flushrdy → r'.flushrdy) {j : ℕ} (hj : Ready rqs j) : Ready (rqs.set i r') j := by
  obtain ⟨x, hx, hf⟩ := hj
  by_cases hij : i = j
  · subst hij
    cases hi.symm.trans hx
    exact ⟨r', by rw [List.getElem?_set_self (List.getElem?_eq_some_iff.mp hi).1], hfl hf⟩
  · exact ⟨x, by rw [getElem?_set_ne hij, hx], hf⟩

theorem Inv.put (h : Inv s) {n : ℕ} {tree exp : List ℕ} {flushq queued : Bool}
    (hi : s.rqs[i]? = some r) (hr : RqInv tree i r') (hfl : r.flushrdy → r'.flushrdy)
    (htree : ∀ j, j ≠ i → (j ∈ tree ↔ j ∈ s.tree)) (hready : i ∈ tree → r'.flushrdy)
    (hnodup : tree.Nodup) (hnodup' : exp.Nodup) (hsame : ∀ j, j ∈ exp ↔ j ∈ tree)
    (hn : n + r.pending = s.pndgWrites + r'.pending) (hq : Queue n flushq queued) :
    Inv { s with rqs := s.rqs.set i r', tree := tree, exp := exp, pndgWrites := n, flushq := flushq, queued := queued } ∧
      Grow s { s with
        rqs := s.rqs.set i r', tree := tree, exp := exp, pndgWrites := n, flushq := flushq, queued := queued } := by
  have hgrow : ∀ {j}, Ready s.rqs j → Ready (s.rqs.set i r') j := fun hj => ready_set hi hfl hj
  have hlt := (List.getElem?_eq_some_iff.mp hi).1
  refine ⟨⟨fun j x hj => ?_, ?_, hq, hnodup, hnodup', hsame, fun j hj => ?_, fun th hth j hj => hgrow (h.reqs th hth j hj),
    fun th hth w hw => hgrow (h.todo th hth w hw), fun bwc hb j hj => hgrow (h.rpcs bwc hb j hj)⟩, rfl, rfl, hgrow⟩
  · rcases getElem?_set_cases hj with ⟨rfl, rfl⟩ | ⟨hne, hj⟩
    · exact hr
    · have hx := h.each j x hj
      exact ⟨fun hl => (hx.ontree hl).trans (htree j hne).symm, hx.early⟩
  · have hsum := sum_map_set (x := r') Rq.pending hi
    have hc := h.count
    change n = ((s.rqs.set i r').map Rq.pending).sum
    omega
  · by_cases hji : j = i
    · subst hji
      exact ⟨r', List.getElem?_set_self hlt, hready hj⟩
    · exact hgrow (h.tree j ((htree j hji).mp hj))

theorem Inv.setRq (h : Inv s) (hi : s.rqs[i]? = some r) (hr : RqInv s.tree i r')
    (hfl : r'.flushrdy = r.flushrdy) (hlive : r'.live = r.live) : Inv (s.setRq i r') ∧ Grow s (s.setRq i r') := by
  refine h.put hi hr (fun hf => hfl.trans hf) (fun _ _ => .rfl) (fun ht => ?_) h.nodup h.nodupExp h.same ?_ h.queue
  · obtain ⟨x, hx, hf⟩ := h.tree i ht
    cases hi.symm.trans hx
    exact hfl.trans hf
  · unfold Rq.pending
    rw [hfl, hlive]

theorem Inv.remove (h : Inv s) (hi : s.rqs[i]? = some r)
    (hfl : r'.flushrdy = r.flushrdy) (hlive : r'.live = r.live) (hoff : r'.ontree = false) (hstage : r'.stage = r.stage) :
    Inv ((s.xremove i).setRq i r') ∧ Grow s ((s.xremove i).setRq i r') := by
  have hne : ∀ j, j ≠ i → (j ∈ s.tree.erase i ↔ j ∈ s.tree) := fun j hj => mem_erase_of_ne hj
  have hnot : i ∉ s.tree.erase i := fun hm => ((List.Nodup.mem_erase_iff h.nodup).mp hm).1 rfl
  have hpend : s.pndgWrites + r.pending = s.pndgWrites + r'.pending := by
    unfold Rq.pending
    rw [hfl, hlive]
  have hsame : ∀ j, j ∈ s.exp.erase i ↔ j ∈ s.tree.erase i := fun j => by
    rw [List.Nodup.mem_erase_iff h.nodup, List.Nodup.mem_erase_iff h.nodupExp, h.same]
  refine h.put hi ⟨fun _ => ?_, fun hs => ?_⟩ (fun hf => hfl.trans hf) hne (fun ht => absurd ht hnot)
    (h.nodup.erase i) (h.nodupExp.erase i) hsame hpend h.queue
  · rw [hoff]
    exact ⟨fun hf => (nomatch hf), fun hm => absurd hm hnot⟩
  · have := (h.each i r hi).early (hstage ▸ hs)
    exact ⟨hlive.trans this.1, hfl.trans this.2.1, hoff⟩

theorem Inv.inserted (h : Inv s) (hi : i ∉ s.tree) (rqs : List Rq) :
    (s.tree.orderedInsert (bmpcBiorqLe rqs) i).Nodup ∧ (s.exp ++ [i]).Nodup ∧
      (∀ j, j ∈ s.tree.orderedInsert (bmpcBiorqLe rqs) i ↔ j = i ∨ j ∈ s.tree) ∧
      ∀ j, j ∈ s.exp ++ [i] ↔ j ∈ s.tree.orderedInsert (bmpcBiorqLe rqs) i := by
  have hmem : ∀ j, j ∈ s.tree.orderedInsert (bmpcBiorqLe rqs) i ↔ j = i ∨ j ∈ s.tree := fun j => by
    rw [mem_orderedInsert]
  have hexp : i ∉ s.exp := fun hm => hi ((h.same i).mp hm)
  refine ⟨?_, ?_, hmem, fun j => ?_⟩
  · exact (perm_orderedInsert _ i s.tree).nodup_iff.mpr (nodup_cons.mpr ⟨hi, h.nodup⟩)
  · rw [nodup_append]
    exact ⟨h.nodupExp, nodup_singleton i, fun a ha b hb => by
      rintro rfl
      exact hexp (mem_singleton.mp hb ▸ ha)⟩
  · rw [hmem, mem_append, mem_singleton, h.same, or_comm]

theorem Inv.frame {t : State} (h : Inv s) (hrqs : t.rqs = s.rqs) (htree : t.tree = s.tree) (hexp : t.exp = s.exp)
    (hn : t.pndgWrites = s.pndgWrites) (hf : t.flushq = s.flushq) (hq : t.queued = s.queued)
    (hreqs : ∀ th ∈ t.threads, ∀ i ∈ th.pc.reqs, Ready s.rqs i)
    (htodo : ∀ th ∈ t.threads, ∀ w ∈ th.todo, Ready s.rqs w.rq)
    (hrpcs : ∀ bwc ∈ t.rpcs, ∀ i ∈ bwc, Ready s.rqs i) : Inv t := by
  refine ⟨?_, ?_, ?_, ?_, ?_, ?_, ?_, ?_, ?_, ?_⟩
  · rw [hrqs, htree]; exact h.each
  · rw [hrqs, hn]; exact h.count
  · rw [hn, hf, hq]; exact h.queue
  · rw [htree]; exact h.nodup
  · rw [hexp]; exact h.nodupExp
  · rw [hexp, htree]; exact h.same
  · rw [htree, hrqs]; exact h.tree
  · rw [hrqs]; exact hreqs
  · rw [hrqs]; exact htodo
  · rw [hrqs]; exact hrpcs

theorem Inv.noteRc (h : Inv s) (rc : ℤ) : Inv (s.noteRc rc) ∧ Grow s (s.noteRc rc) := by
  unfold State.noteRc
  split_ifs
  · exact ⟨h.frame rfl rfl rfl rfl rfl rfl h.reqs h.todo h.rpcs, rfl, rfl, id⟩
  · exact ⟨h, .refl s⟩

theorem Inv.setThread (h : Inv s) {t : ℕ} {th : Thread} (hreqs : ∀ i ∈ th.pc.reqs, Ready s.rqs i)
    (htodo : ∀ w ∈ th.todo, Ready s.rqs w.rq) : Inv (s.setThread t th) :=
  h.frame rfl rfl rfl rfl rfl rfl (forall_mem_set h.reqs hreqs) (forall_mem_set h.todo htodo) h.rpcs

section Ops

variable {t : State}

theorem schedflush_inv (h : Inv s) (hst : mslPagesSchedflush s i = some t) : Inv t := by
  obtain ⟨r, hi, hst⟩ := bind_eq_some_iff.mp hst
  have hr := h.each i r hi
  split_ifs at hst with hstage
  obtain ⟨u, hu, hst⟩ := bind_eq_some_iff.mp hst
  obtain ⟨hlive, hfl, -⟩ := hr.early (.inr hstage)
  simp only [State.xinsert] at hu
  split_ifs at hu with hmem
  cases hu
  generalize hr' : { r with ref := r.ref + 1, flushrdy := true, ontree := true, stage := Stage.dropping } = r' at hst
  obtain ⟨hn, hn', hm, hsame⟩ := h.inserted hmem (s.rqs.set i r')
  have hrq : RqInv (s.tree.orderedInsert (bmpcBiorqLe (s.rqs.set i r')) i) i r' := by
    subst hr'
    exact ⟨fun _ => by simp [hm], by simp⟩
  have hfl' : r'.flushrdy := by rw [← hr']
  have hpend : s.pndgWrites + 1 + r.pending = s.pndgWrites + r'.pending := by
    simp [Rq.pending, hfl, ← hr', hlive]
  have hput := fun {f q : Bool} (hq : Queue (s.pndgWrites + 1) f q) =>
    (h.put hi hrq (fun _ => hfl') (fun j hj => by simp [hm, hj]) (fun _ => hfl') hn hn' hsame hpend hq).1
  split_ifs at hst with hf hq <;> cases hst
  · exact hput ⟨⟨fun _ => Nat.succ_pos _, fun _ => hf⟩, h.queue.queued⟩
  · exact hput ⟨⟨fun _ => Nat.succ_pos _, fun _ => rfl⟩, rfl⟩

theorem dequeue_cases (hst : s.dequeue = some t) :
    ∃ n f q, t = { s with pndgWrites := n, flushq := f, queued := q } ∧ n + 1 = s.pndgWrites ∧
      (Queue s.pndgWrites s.flushq s.queued → Queue n f q) := by
  unfold State.dequeue at hst
  split_ifs at hst with hpos hone hq <;> cases hst
  · exact ⟨0, false, false, rfl, hone.symm, fun _ => ⟨by simp, rfl⟩⟩
  · refine ⟨s.pndgWrites - 1, s.flushq, s.queued, rfl, by omega, fun h => ⟨⟨fun _ => ?_, fun _ => hpos.2⟩, h.queued⟩⟩
    omega

theorem del_inv (h : Inv s) (hlate : ∀ r, s.rqs[i]? = some r → r.stage ≠ .building ∧ r.stage ≠ .scheduling)
    (hst : mslBiorqDel s i = some t) : Inv t ∧ Grow s t := by
  obtain ⟨r, hi, hst⟩ := bind_eq_some_iff.mp hst
  obtain ⟨hnb, hns⟩ := hlate r hi
  by_cases hlive : r.live = true
  · have hstate : (if r.ontree then s.xremove i else s).setRq i { r with live := false } =
        { s with
          rqs := s.rqs.set i { r with live := false }
          tree := if r.ontree then s.tree.erase i else s.tree
          exp := if r.ontree then s.exp.erase i else s.exp } := by
      split_ifs <;> rfl
    generalize htree : (if r.ontree then s.tree.erase i else s.tree) = tree at hstate
    generalize hexp : (if r.ontree then s.exp.erase i else s.exp) = exp at hstate
    have hon := (h.each i r hi).ontree hlive
    -- the biorq is off the tree and the list, whether it was there or not
    have hbooks : i ∉ tree ∧ (∀ j, j ≠ i → (j ∈ tree ↔ j ∈ s.tree)) ∧ tree.Nodup ∧ exp.Nodup ∧
        ∀ j, j ∈ exp ↔ j ∈ tree := by
      rw [← htree, ← hexp]
      split_ifs with ht
      · refine ⟨fun hm => ((List.Nodup.mem_erase_iff h.nodup).mp hm).1 rfl, fun j hj => mem_erase_of_ne hj,
          h.nodup.erase i, h.nodupExp.erase i, fun j => ?_⟩
        rw [List.Nodup.mem_erase_iff h.nodup, List.Nodup.mem_erase_iff h.nodupExp, h.same]
      · exact ⟨fun hm => ht (hon.mpr hm), fun _ _ => .rfl, h.nodup, h.nodupExp, h.same⟩
    obtain ⟨hnot, hne, hn, hn', hsame⟩ := hbooks
    have hr' : RqInv tree i { r with live := false } :=
      ⟨fun hl => (nomatch hl), fun hs => absurd hs (by simp [hnb, hns])⟩
    have hput := fun {n : ℕ} {f q : Bool} hc (hq : Queue n f q) =>
      h.put hi hr' id hne (fun hm => absurd hm hnot) hn hn' hsame hc hq
    simp only [hstate] at hst
    split_ifs at hst with hfl
    · obtain ⟨n, f, q, rfl, hcount, hq⟩ := dequeue_cases hst
      exact hput (by simpa [Rq.pending, hlive, hfl] using hcount) (hq h.queue)
    · cases hst
      exact hput (by simp [Rq.pending, hfl]) h.queue
  · rw [if_neg hlive] at hst
    cases hst

theorem Inv.late (h : Inv s) (hready : Ready s.rqs i) (hi : s.rqs[i]? = some r) :
    r.flushrdy ∧ r.stage ≠ .building ∧ r.stage ≠ .scheduling := by
  obtain ⟨x, hx, hf⟩ := hready
  cases hi.symm.trans hx
  refine ⟨hf, fun hs => ?_, fun hs => ?_⟩
  · have := ((h.each i r hi).early (.inl hs)).2.1
    simp [this] at hf
  · have := ((h.each i r hi).early (.inr hs)).2.1
    simp [this] at hf

theorem resched_inv {rc : ℤ} {b : Bool} (h : Inv s) (hready : Ready s.rqs i)
    (hst : bmapFlushResched s i rc = some (t, b)) : Inv t ∧ Grow s t := by
  obtain ⟨r, hi, hst⟩ := bind_eq_some_iff.mp hst
  obtain ⟨hfl, hnb, hns⟩ := h.late hready hi
  have hr := h.each i r hi
  by_cases hgive : rc = -enospc ∨ r.retries ≥ slMaxBmapflshRetries
  · rw [if_pos hgive] at hst
    cases hst
    exact h.noteRc rc
  rw [if_neg hgive] at hst
  generalize (if r.lastSliod = some s.ios ∨ r.lastSliod = none then r.retries + 1 else 1) = retries at hst
  split_ifs at hst with hon
  · cases hst
    have hrq : RqInv s.tree i { r with ontree := true, retries := retries, expire := false } :=
      ⟨fun hl => ⟨fun _ => (hr.ontree hl).mp hon, fun _ => rfl⟩, fun hs => absurd hs (by simp [hnb, hns])⟩
    exact h.setRq hi hrq rfl rfl
  obtain ⟨u, hu, he⟩ := map_eq_some_iff.mp hst
  cases he
  generalize hr' : { r with ontree := true, retries := retries, expire := false } = r' at hu
  have hfl' : r'.flushrdy := by rw [← hr', ← hfl]
  simp only [State.xinsert] at hu
  split_ifs at hu with hmem
  cases hu
  obtain ⟨hn, hn', hm, hsame⟩ := h.inserted hmem (s.rqs.set i r')
  have hrq : RqInv (s.tree.orderedInsert (bmpcBiorqLe (s.rqs.set i r')) i) i r' := by
    subst hr'
    exact ⟨fun _ => by simp [hm], fun hs => absurd hs (by simp [hnb, hns])⟩
  have hpend : s.pndgWrites + r.pending = s.pndgWrites + r'.pending := by
    subst hr'
    rfl
  have hne : ∀ j, j ≠ i → (j ∈ s.tree.orderedInsert (bmpcBiorqLe (s.rqs.set i r')) i ↔ j ∈ s.tree) :=
    fun j hj => by simp [hm, hj]
  exact h.put hi hrq (fun _ => hfl') hne (fun _ => hfl') hn hn' hsame hpend h.queue

theorem sendOne_inv (h : Inv s) : Inv (s.sendOne i) ∧ Grow s (s.sendOne i) := by
  unfold State.sendOne
  split
  · rename_i hi
    exact h.remove hi rfl rfl rfl rfl
  · exact ⟨h, .refl s⟩

theorem foldl_sendOne_inv : ∀ (is : List ℕ) {s : State}, Inv s →
    Inv (is.foldl State.sendOne s) ∧ Grow s (is.foldl State.sendOne s)
  | [], s, h => ⟨h, Grow.refl s⟩
  | i :: is, s, h => by
    obtain ⟨h1, g1⟩ := sendOne_inv h
    obtain ⟨h2, g2⟩ := foldl_sendOne_inv is h1
    exact ⟨h2, g1.trans g2⟩

theorem destroyAll_inv : ∀ (is : List ℕ) {s t : State}, Inv s → State.destroyAll is s = some t → Inv t ∧ Grow s t
  | [], s, t, h, hst => by
    cases hst
    exact ⟨h, Grow.refl s⟩
  | i :: is, s, t, h, hst => by
    obtain ⟨u, hu, hst⟩ := bind_eq_some_iff.mp hst
    obtain ⟨r, hi, hfl, rfl⟩ := bind_guard hu
    have hrem : Inv ((s.xremove i).setRq i { r with ontree := false }) ∧
        Grow s ((s.xremove i).setRq i { r with ontree := false }) := h.remove hi rfl rfl rfl rfl
    obtain ⟨h2, g2⟩ := destroyAll_inv is hrem.1 hst
    exact ⟨h2, hrem.2.trans g2⟩

end Ops

section Steps

variable {t : State} {n : ℕ} {th : Thread}

theorem new_inv (off len : ℕ) (h : Inv s) (hst : step s (.new off len) = some t) : Inv t := by
  cases hst
  have hgrow : ∀ {j} {r : Rq}, Ready s.rqs j → Ready (s.rqs ++ [r]) j := fun ⟨x, hx, hf⟩ =>
    ⟨x, by rw [List.getElem?_append_left (List.getElem?_eq_some_iff.mp hx).1, hx], hf⟩
  refine ⟨fun j x hj => ?_, ?_, h.queue, h.nodup, h.nodupExp, h.same, fun j hj => hgrow (h.tree j hj),
    fun th hth j hj => hgrow (h.reqs th hth j hj), fun th hth w hw => hgrow (h.todo th hth w hw),
    fun bwc hb j hj => hgrow (h.rpcs bwc hb j hj)⟩
  · rcases Nat.lt_or_ge j s.rqs.length with hlt | hge
    · rw [getElem?_append_left hlt] at hj
      exact h.each j x hj
    rw [getElem?_append_right hge, getElem?_singleton] at hj
    split_ifs at hj with h0
    cases hj
    refine ⟨fun _ => ⟨fun hf => (nomatch hf), fun hm => ?_⟩, fun _ => ⟨rfl, rfl, rfl⟩⟩
    -- the tree has only biorqs that exist
    obtain ⟨x, hx, -⟩ := h.tree j hm
    have := (List.getElem?_eq_some_iff.mp hx).1
    omega
  · rw [map_append, sum_append, ← h.count]
    rfl

section
variable (h : Inv s)
include h

theorem complete_inv {flush : Bool} (hst : step s (.complete i flush) = some t) : Inv t := by
  obtain ⟨r, hi, hst⟩ := bind_eq_some_iff.mp hst
  have hr := h.each i r hi
  by_cases hs : r.stage = .building
  · rw [if_pos hs] at hst
    cases hst
    have hrq : RqInv s.tree i { r with stage := if flush then .scheduling else .dropping } :=
      ⟨hr.ontree, fun _ => hr.early (.inl hs)⟩
    exact (h.setRq hi hrq rfl rfl).1
  · rw [if_neg hs] at hst
    cases hst

theorem drop_inv (hst : step s (.drop i) = some t) : Inv t := by
  obtain ⟨r, hi, hst⟩ := bind_eq_some_iff.mp hst
  have hr := h.each i r hi
  by_cases hs : r.stage = .dropping
  · rw [if_pos hs] at hst
    obtain ⟨⟨r', b⟩, hd, rfl⟩ := map_eq_some_iff.mp hst
    unfold decref at hd
    split_ifs at hd
    cases hd
    have hrq : RqInv s.tree i { r with ref := r.ref - 1, stage := if decide (r.ref = 1) then .deleting else .over } := by
      refine ⟨hr.ontree, fun hs => absurd hs ?_⟩
      split_ifs <;> simp
    exact (h.setRq hi hrq rfl rfl).1
  · rw [if_neg hs] at hst
    cases hst

theorem delStep_inv (hst : step s (.del i) = some t) : Inv t := by
  obtain ⟨r, hi, hst⟩ := bind_eq_some_iff.mp hst
  have hr := h.each i r hi
  by_cases hs : r.stage = .deleting
  · rw [if_pos hs] at hst
    have hover : RqInv s.tree i { r with stage := .over } := ⟨hr.ontree, by simp⟩
    refine (del_inv (h.setRq hi hover rfl rfl).1 (fun x hx => ?_) hst).1
    have hlt := (List.getElem?_eq_some_iff.mp hi).1
    rw [State.setRq, getElem?_set_self hlt] at hx
    cases hx
    simp
  · rw [if_neg hs] at hst
    cases hst

theorem Inv.next (ht : s.threads[n]? = some th) (hu : Inv u ∧ Grow s u) {pc : Pc} {todo : List Work}
    (hpc : ∀ j ∈ pc.reqs, j ∈ th.pc.reqs) (htodo : ∀ w ∈ todo, ∃ v ∈ th.todo, v.rq = w.rq) :
    Inv (u.setThread n ⟨pc, todo⟩) := by
  have hm := mem_of_getElem? ht
  refine hu.1.setThread (fun j hj => hu.2.ready (h.reqs th hm j (hpc j hj))) fun w hw => ?_
  obtain ⟨v, hv, he⟩ := htodo w hw
  rw [← he]
  exact hu.2.ready (h.todo th hm v hv)

theorem work_inv (hst : step s (.work n) = some t) : Inv t := by
  obtain ⟨th, ht, hst⟩ := bind_eq_some_iff.mp hst
  have hm := mem_of_getElem? ht
  have hready : ∀ w ∈ th.todo, Ready s.rqs w.rq := h.todo th hm
  unfold work at hst
  split at hst
  · cases hst
  · rename_i i rc todo htodo
    rw [htodo] at hready
    obtain ⟨⟨u, b⟩, hu, rfl⟩ := map_eq_some_iff.mp hst
    refine h.next ht (resched_inv h (hready _ mem_cons_self) hu) (fun _ hj => hj) fun w hw => ?_
    rw [htodo]
    split_ifs at hw
    · rcases mem_cons.mp hw with rfl | hw
      · exact ⟨_, mem_cons_self, rfl⟩
      · exact ⟨w, mem_cons_of_mem _ hw, rfl⟩
    · exact ⟨w, mem_cons_of_mem _ hw, rfl⟩
  · rename_i i todo htodo
    obtain ⟨r, hi, hst⟩ := bind_eq_some_iff.mp hst
    obtain ⟨⟨r', b⟩, hd, rfl⟩ := map_eq_some_iff.mp hst
    have hr := h.each i r hi
    unfold decref at hd
    split_ifs at hd
    cases hd
    have hrq : RqInv s.tree i { r with ref := r.ref - 1 } := ⟨hr.ontree, hr.early⟩
    refine h.next ht (h.setRq hi hrq rfl rfl) (fun _ hj => hj) fun w hw => ?_
    rw [htodo]
    split_ifs at hw
    · rcases mem_cons.mp hw with rfl | hw
      · exact ⟨_, mem_cons_self, rfl⟩
      · exact ⟨w, mem_cons_of_mem _ hw, rfl⟩
    · exact ⟨w, mem_cons_of_mem _ hw, rfl⟩
  · rename_i i todo htodo
    rw [htodo] at hready
    obtain ⟨u, hu, rfl⟩ := map_eq_some_iff.mp hst
    have hlate := del_inv h (fun r hi => (h.late (hready _ mem_cons_self) hi).2) hu
    refine h.next ht hlate (fun _ hj => hj) fun w hw => ?_
    rw [htodo]
    exact ⟨w, mem_cons_of_mem _ hw, rfl⟩

theorem pick_inv (hst : step s (.pick n) = some t) : Inv t := by
  obtain ⟨th, ht, hst⟩ := bind_eq_some_iff.mp hst
  have hm := mem_of_getElem? ht
  simp only [pick] at hst
  split_ifs at hst
  cases hst
  have h1 : Inv (s.setThread n { th with pc := .picked }) := h.setThread (by simp [Pc.reqs]) (h.todo th hm)
  exact h1.frame rfl rfl rfl rfl rfl rfl h1.reqs h1.todo h1.rpcs

theorem look_inv (hst : step s (.look n) = some t) : Inv t := by
  obtain ⟨th, ht, hst⟩ := bind_eq_some_iff.mp hst
  have hm := mem_of_getElem? ht
  simp only [look] at hst
  split_ifs at hst with hpc hfail
  · obtain ⟨u, hu, rfl⟩ := map_eq_some_iff.mp hst
    have h0 : Inv { s with sched := false } := h.frame rfl rfl rfl rfl rfl rfl h.reqs h.todo h.rpcs
    obtain ⟨h1, g1⟩ := destroyAll_inv _ h0 hu
    obtain ⟨h2, g2⟩ := h1.noteRc s.error
    refine h2.setThread (by simp [Pc.reqs]) fun w hw => ?_
    obtain ⟨j, hj, rfl⟩ := mem_map.mp hw
    exact g2.ready (g1.ready (h.tree j hj))
  · cases hst
    exact h.setThread (fun j hj => h.tree j hj) (h.todo th hm)

theorem send_inv {skip k : ℕ} {rc rc' : ℤ} (hst : step s (.send n skip k rc rc') = some t) : Inv t := by
  obtain ⟨th, ht, hst⟩ := bind_eq_some_iff.mp hst
  have hm := mem_of_getElem? ht
  unfold send at hst
  split at hst
  · rename_i reqs hpc _
    have hreqs : ∀ j ∈ reqs, Ready s.rqs j := fun j hj => h.reqs th hm j (by rw [hpc]; exact hj)
    have hrest : ∀ j ∈ reqs.drop (skip + k), Ready s.rqs j := fun j hj => hreqs j (mem_of_mem_drop hj)
    have hbwc : ∀ j ∈ (reqs.drop skip).take k, Ready s.rqs j := fun j hj =>
      hreqs j (mem_of_mem_drop (mem_of_mem_take hj))
    obtain ⟨h1, g1⟩ := foldl_sendOne_inv ((reqs.drop skip).take k) h
    -- the biorqs of an RPC that cannot be sent are to be scheduled again
    have hworks : ∀ {rqs : List Rq} (rc : ℤ), (∀ {j}, Ready s.rqs j → Ready rqs j) →
        ∀ w ∈ ((reqs.drop skip).take k).map (Work.resched · rc), Ready rqs w.rq := by
      intro rqs rc hg w hw
      obtain ⟨j, hj, rfl⟩ := mem_map.mp hw
      exact hg (hbwc j hj)
    split_ifs at hst with hrc hrc' <;> cases hst
    · exact h.setThread hrest (hworks rc id)
    · exact h1.setThread (fun j hj => g1.ready (hrest j hj)) (hworks rc' g1.ready)
    have h2 : Inv ((((reqs.drop skip).take k).foldl State.sendOne s).setThread n
        ⟨.flushing (reqs.drop (skip + k)), []⟩) :=
      h1.setThread (fun j hj => g1.ready (hrest j hj)) (by simp)
    exact h2.frame rfl rfl rfl rfl rfl rfl h2.reqs h2.todo
      (forall_mem_snoc h2.rpcs fun j hj => g1.ready (hbwc j hj))
  · cases hst

theorem finish_inv (hst : step s (.finish n) = some t) : Inv t := by
  obtain ⟨th, ht, hst⟩ := bind_eq_some_iff.mp hst
  have h1 : Inv (s.setThread n ⟨.idle, []⟩) := h.setThread (by simp [Pc.reqs]) (by simp)
  have h2 : Inv { s.setThread n ⟨.idle, []⟩ with sched := false } :=
    h1.frame rfl rfl rfl rfl rfl rfl h1.reqs h1.todo h1.rpcs
  unfold finish at hst
  split at hst <;> cases hst <;> exact h2

theorem callback_inv {k : ℕ} {rc : ℤ} (hst : step s (.callback k rc) = some t) : Inv t := by
  obtain ⟨bwc, hk, rfl⟩ := map_eq_some_iff.mp hst
  have hb := h.rpcs bwc (mem_of_getElem? hk)
  refine h.frame rfl rfl rfl rfl rfl rfl (forall_mem_snoc h.reqs (by simp [Pc.reqs]))
    (forall_mem_snoc h.todo fun w hw => ?_) fun x hx => h.rpcs x (mem_of_mem_eraseIdx hx)
  obtain ⟨j, hj, rfl⟩ := mem_map.mp hw
  split_ifs <;> exact hb j hj

theorem thread_inv (hst : step s .thread = some t) : Inv t := by
  cases hst
  exact h.frame rfl rfl rfl rfl rfl rfl (forall_mem_snoc h.reqs (by simp [Pc.reqs]))
    (forall_mem_snoc h.todo (by simp)) h.rpcs

theorem step_inv {l : Label} (hst : step s l = some t) : Inv t := by
  cases l with
  | new off len => exact new_inv off len h hst
  | complete => exact complete_inv h hst
  | schedflush => exact schedflush_inv h hst
  | drop => exact drop_inv h hst
  | del => exact delStep_inv h hst
  | thread => exact thread_inv h hst
  | work => exact work_inv h hst
  | pick => exact pick_inv h hst
  | look => exact look_inv h hst
  | send => exact send_inv h hst
  | finish => exact finish_inv h hst
  | callback => exact callback_inv h hst
  | fail =>
    cases hst
    exact h.frame rfl rfl rfl rfl rfl rfl h.reqs h.todo h.rpcs
  | reassign =>
    cases hst
    exact h.frame rfl rfl rfl rfl rfl rfl h.reqs h.todo h.rpcs

end

end Steps

theorem inv_init (ios : ℕ) : Inv (init ios) :=
  ⟨by simp [init], rfl, ⟨by simp [init], rfl⟩, nodup_nil, nodup_nil, by simp [init], by simp [init],
    by simp [init], by simp [init], by simp [init]⟩

theorem sum_pending : ∀ rqs : List Rq, (rqs.map Rq.pending).sum = rqs.countP fun r => r.live && r.flushrdy
  | [] => rfl
  | r :: rqs => by
    rw [map_cons, sum_cons, sum_pending rqs, countP_cons, Nat.add_comm]
    simp [Rq.pending]

theorem Inv.booked {s : State} (h : Inv s) : Booked s where
  count := by
    rw [← sum_pending]
    exact h.count
  flushq := h.queue.flushq
  queued := by
    rw [h.queue.queued]
    exact h.queue.flushq
  ontree := fun i r hi hlive => by
    rw [h.same, and_self]
    exact (h.each i r hi).ontree hlive

/-- **Pending writes are booked right** when the lock is free. -/
theorem booked_run (ios : ℕ) (ls : List Label) {s : State} (hs : run step (init ios) ls = some s) : Booked s :=
  (run_keeps (fun hs h => step_inv hs h) (inv_init ios) hs).booked

def retried : List Label :=
  [.new 0 10, .complete 0 true, .schedflush 0, .drop 0, .thread, .pick 0, .look 0, .send 0 0 1 0 0, .finish 0,
    .callback 0 (-5), .work 1]

theorem booked_run_retried :
    ∃ s ∈ run step (init 7) retried, (s.pndgWrites = 1 ∧ s.tree = [0] ∧ s.queued = true) ∧ Booked s := by
  have hrun : ∃ s ∈ run step (init 7) retried, s.pndgWrites = 1 ∧ s.tree = [0] ∧ s.queued = true := by decide +kernel
  obtain ⟨s, hs, hb⟩ := hrun
  exact ⟨s, hs, hb, booked_run 7 retried hs⟩

theorem Inv.onlyReady {s : State} (h : Inv s) : OnlyReady s :=
  ⟨h.tree, h.reqs, h.todo, h.rpcs, h.same, h.nodup, h.nodupExp⟩

/-- **Only what is ready is sent.** -/
theorem ready_run (ios : ℕ) (ls : List Label) {s : State} (hs : run step (init ios) ls = some s) : OnlyReady s :=
  (run_keeps (fun hs h => step_inv hs h) (inv_init ios) hs).onlyReady

theorem ready_run_sent : ∃ s, OnlyReady s ∧ s.rpcs = [[0]] := by
  obtain ⟨s, hs, h⟩ : ∃ s ∈ run step (init 7) (retried.take 8), s.rpcs = [[0]] := by decide +kernel
  exact ⟨s, ready_run 7 _ hs, h⟩

end Slash2.Client.PendingWrites
