/-
# Replication work at the destination

The MDS asks a server to copy a bmap from another one. `sli_repl_addwk` makes a work item of the
request and marks the slivers to be copied (`BMAP_SLVR_WANTREPL`). A thread takes items from the
pending list, looks for a marked sliver, removes the mark and asks the source for it; when the
sliver has come and is written the item goes back to the list. Whoever drops the last reference of
the item reports its status to the MDS.
-/
import Mathlib.Data.List.TakeWhile
import Slash2.Lib.Run
import Slash2.Residency.Replicate

namespace Slash2.Replwk

open Lib List Function
open Residency (slashSlvrSize slashSlvrsPerBmap slashBmapSize)

/-! ### Work items -/

structure Key where
  fid : ℕ
  gen : ℕ
  bno : ℕ
  deriving DecidableEq

def Key.bmap (k : Key) : ℕ × ℕ := (k.fid, k.bno)

def fidAny : ℕ := 0xffffffffffffffff

/-- An entry of `srw_slvr` that is not `NULL`. -/
inductive Slot where
  | sched
  | slvr (n : ℕ)
  deriving DecidableEq

/-- `struct sli_repl_workrq`, with its history. -/
structure Work where
  /-- `srw_fg`, `srw_bmapno` -/
  key : Key
  len : ℕ
  /-- `srw_src_res` is set -/
  src : Bool
  status : ℤ
  refcnt : ℕ
  /-- the entries of `srw_slvr` in use -/
  slvr : List Slot
  requests : List (ℕ × ℕ)
  written : List ℕ
  /-- calls of `sli_rmi_issue_repl_schedwk` -/
  reports : List ℤ

def Work.unborn : Work := ⟨⟨0, 0, 0⟩, 0, false, 0, 0, [], [], [], []⟩

def Work.new (k : Key) (len : ℕ) (src : Bool) : Work := ⟨k, len, src, 0, 0, [], [], [], []⟩

inductive Pc where
  | idle
  | taken (w : ℕ)
  | picked (w n : ℕ)
  | queued (w n : ℕ)
  | failed (w n : ℕ)
  | releasing (w : ℕ)

inductive Phase where
  | reading
  | aio
  | answered (rc : ℤ)
  | queued (rc : ℤ)
  deriving DecidableEq

structure Flight where
  w : ℕ
  n : ℕ
  phase : Phase
  deriving DecidableEq

/-- The source of an item as `sli_repl_addwk` finds it. -/
inductive Res where
  /-- `IOS_ID_ANY` -/
  | any
  | unknown
  | known
  deriving DecidableEq

/-- An item that has passed the checks of `sli_repl_addwk`. -/
structure Adding where
  key : Key
  len : ℕ
  src : Bool
  deriving DecidableEq

structure Sli where
  work : ℕ → Work
  next : ℕ
  adding : List Adding
  active : List ℕ
  pending : List ℕ
  /-- `BMAP_SLVR_WANTREPL` of each sliver of a bmap -/
  want : ℕ × ℕ → ℕ → Bool
  pc : Pc
  fly : List Flight
  /-- an assertion failed, or freed memory or a null pointer was used -/
  failed : Bool

def Sli.init : Sli :=
  ⟨fun _ => Work.unborn, 0, [], [], [], fun _ _ => false, .idle, [], false⟩

namespace Sli

def put (s : Sli) (w : ℕ) (x : Work) : Sli := { s with work := update s.work w x }

def bmap (s : Sli) (w : ℕ) : ℕ × ℕ := (s.work w).key.bmap

def setWant (s : Sli) (b : ℕ × ℕ) (n : ℕ) (v : Bool) : Sli :=
  { s with want := update s.want b (update (s.want b) n v) }

def fare (s : Sli) (f g : Flight) : Sli := { s with fly := g :: s.fly.erase f }

def land (s : Sli) (f : Flight) : Sli := { s with fly := s.fly.erase f }

end Sli

variable (s : Sli)

def sliReplFindwq (k : Key) : Option ℕ := s.active.find? fun w => (s.work w).key = k

def replwkQueue (w : ℕ) : Sli :=
  if w ∈ s.pending then s
  else { s.put w { s.work w with refcnt := (s.work w).refcnt + 1 } with pending := s.pending ++ [w] }

/-- `srw_status` keeps the first error. -/
def firstStatus (old rc : ℤ) : ℤ := if old = 0 then rc else old

/-- `sli_replwkrq_decref` -/
def decref (w : ℕ) (rc : ℤ) : Sli :=
  match (s.work w).refcnt with
  | 0 => { s with failed := true }
  | 1 =>
    { s.put w { s.work w with
        status := firstStatus (s.work w).status rc
        refcnt := 0
        reports := (s.work w).reports ++ [firstStatus (s.work w).status rc] } with
      active := s.active.erase w }
  | r + 2 => s.put w { s.work w with status := firstStatus (s.work w).status rc, refcnt := r + 1 }

/-- The checks of `sli_repl_addwk`. -/
def sliReplAddwk (k : Key) (res : Res) (len : ℤ) : Sli :=
  if k.fid = fidAny then s
  else if len < 1 ∨ (slashBmapSize : ℤ) < len then s
  else if res = .unknown then s
  else if (sliReplFindwq s k).isSome then s
  else { s with adding := s.adding ++ [⟨k, len.toNat, decide (res = .known)⟩] }

/-- The slivers `sli_repl_addwk` marks. -/
def markSlvrs (len : ℕ) : List ℕ :=
  (range slashSlvrsPerBmap).takeWhile fun i => i * slashSlvrSize < len

/-- The rest of `sli_repl_addwk`. -/
def accept (a : Adding) : Sli :=
  replwkQueue
    { s.put s.next (Work.new a.key a.len a.src) with
      next := s.next + 1
      active := s.active ++ [s.next]
      want := update s.want a.key.bmap fun i =>
        decide (i ∈ markSlvrs a.len) || s.want a.key.bmap i } s.next

def firstWanted (want : ℕ → Bool) : Option ℕ := (range slashSlvrsPerBmap).find? want

def pick (w : ℕ) : Sli :=
  if (s.work w).status ≠ 0 then { s with pc := .releasing w }
  else
    match firstWanted (s.want (s.bmap w)) with
    | none => { s with pc := .releasing w }
    | some n =>
      if (s.work w).slvr.length = slashSlvrsPerBmap then
        { replwkQueue s w with pc := .releasing w }
      else
        { (s.setWant (s.bmap w) n false).put w
            { s.work w with slvr := .sched :: (s.work w).slvr } with pc := .picked w n }

/-- The length of `sli_rii_issue_repl_read`, and of the write. -/
def slvrLen (len n : ℕ) : ℕ :=
  if n = len / slashSlvrSize then len % slashSlvrSize else slashSlvrSize

inductive Issue where
  | unsent
  | sendFails (rc : ℤ)
  | sent

/-- The connection and `sli_rii_issue_repl_read`. -/
def issue (w n : ℕ) : Issue → Option Sli
  | .unsent => some { s with pc := .failed w n }
  | .sendFails rc =>
    if rc = 0 then none
    else if .sched ∉ (s.work w).slvr then some { s with failed := true }
    else
      some (decref (replwkQueue { s.put w { s.work w with
            refcnt := (s.work w).refcnt + 1
            slvr := (s.work w).slvr.erase .sched } with pc := .failed w n } w) w rc)
  | .sent =>
    if .sched ∉ (s.work w).slvr then some { s with failed := true }
    else
      some { s.put w { s.work w with
          refcnt := (s.work w).refcnt + 1
          slvr := .slvr n :: (s.work w).slvr.erase .sched
          requests := (s.work w).requests ++ [(n, slvrLen (s.work w).len n)] } with
        fly := ⟨w, n, .reading⟩ :: s.fly
        pc := .releasing w }

def restore (w n : ℕ) : Sli :=
  { (s.setWant (s.bmap w) n true).put w
      { s.work w with slvr := (s.work w).slvr.erase .sched } with pc := .releasing w }

inductive Answer where
  | aiowait
  | rc (rc wio : ℤ)

/-- `sli_rii_replread_release_sliver`, unless AIOWAIT, at the end of request `f`. -/
def releaseSliver (f : Flight) (w : ℕ) (rc wio : ℤ) : Sli :=
  (s.put w { s.work w with
    slvr := (s.work w).slvr.erase (.slvr f.n)
    written := if rc = 0 ∧ wio = 0 then f.n :: (s.work w).written else (s.work w).written }).fare f
      ⟨w, f.n, .answered (if rc = 0 then wio else rc)⟩

/-- `sli_rii_replread_cb` -/
def replreadCb (f : Flight) (a : Answer) : Sli :=
  if .slvr f.n ∉ (s.work f.w).slvr then { s with failed := true }
  else
    match a with
    | .aiowait => s.fare f ⟨f.w, f.n, .aio⟩
    | .rc rc wio => releaseSliver s f f.w rc wio

/-- `sli_rii_handle_repl_read_aio`; `found` if the sliver is the one asked for. -/
def handleReplReadAio (f : Flight) (found : Bool) (rc wio : ℤ) : Sli :=
  match sliReplFindwq s (s.work f.w).key with
  | none => s.land f
  | some w =>
    if found = false ∨ .slvr f.n ∉ (s.work w).slvr then s.land f else releaseSliver s f w rc wio

inductive Label where
  | addwk (k : Key) (res : Res) (len : ℤ)
  | accept (a : Adding) (fcmhRc bmapRc : ℤ)
  | take
  | pick
  | queue
  | issue (o : Issue)
  | restore
  | release
  | reply (f : Flight) (a : Answer)
  | aio (f : Flight) (found : Bool) (rc wio : ℤ)
  | cbQueue (f : Flight) (rc : ℤ)
  | cbDecref (f : Flight) (rc : ℤ)
  | evict (b : ℕ × ℕ)

def step (l : Label) : Option Sli :=
  if s.failed then none
  else
    match l with
    | .addwk k res len => some (sliReplAddwk s k res len)
    | .accept a fcmhRc bmapRc =>
      if a ∉ s.adding then none
      else if fcmhRc ≠ 0 ∨ bmapRc ≠ 0 then some { s with adding := s.adding.erase a }
      else some (accept { s with adding := s.adding.erase a } a)
    | .take =>
      match s.pc, s.pending with
      | .idle, w :: ws => some { s with pending := ws, pc := .taken w }
      | _, _ => none
    | .pick =>
      match s.pc with
      | .taken w => some (pick s w)
      | _ => none
    | .queue =>
      match s.pc with
      | .picked w n =>
        if (s.work w).src then some { replwkQueue s w with pc := .queued w n }
        else some { s with failed := true }
      | _ => none
    | .issue o =>
      match s.pc with
      | .queued w n => issue s w n o
      | _ => none
    | .restore =>
      match s.pc with
      | .failed w n => some (restore s w n)
      | _ => none
    | .release =>
      match s.pc with
      | .releasing w => some (decref { s with pc := .idle } w 0)
      | _ => none
    | .reply f a =>
      if f ∈ s.fly ∧ f.phase = .reading then some (replreadCb s f a) else none
    | .aio f found rc wio =>
      if f ∈ s.fly ∧ f.phase = .aio then some (handleReplReadAio s f found rc wio) else none
    | .cbQueue f rc =>
      if f ∈ s.fly ∧ f.phase = .answered rc then
        some ((replwkQueue s f.w).fare f ⟨f.w, f.n, .queued rc⟩)
      else none
    | .cbDecref f rc =>
      if f ∈ s.fly ∧ f.phase = .queued rc then some (decref (s.land f) f.w rc) else none
    | .evict b =>
      if ∃ w ∈ s.active, s.bmap w = b then none
      else some { s with want := update s.want b fun _ => false }

/-! ### What is claimed of an item -/

/-- `ceil(len / SLASH_SLVR_SIZE)` -/
def nslvr (len : ℕ) : ℕ := (len + (slashSlvrSize - 1)) / slashSlvrSize

def Pc.item : Pc → Option ℕ
  | .idle => none
  | .taken w | .picked w _ | .queued w _ | .failed w _ | .releasing w => some w

/-- Active, with someone at work on it. -/
structure Working (s : Sli) (w : ℕ) : Prop where
  active : w ∈ s.active
  reports : (s.work w).reports = []
  underway : w ∈ s.pending ∨ s.pc.item = some w ∨ ∃ f ∈ s.fly, f.w = w

/-- Reported once, and gone. -/
structure Reported (s : Sli) (w : ℕ) : Prop where
  active : w ∉ s.active
  reports : (s.work w).reports.length = 1
  pending : w ∉ s.pending
  thread : s.pc.item ≠ some w
  fly : ∀ f ∈ s.fly, f.w ≠ w

/-- Each sliver is requested once; status 0 is a whole copy. -/
structure Sound (x : Work) : Prop where
  once : (x.requests.map Prod.fst).Nodup
  within : ∀ q ∈ x.requests, q.1 < nslvr x.len ∧ 1 ≤ q.2 ∧ q.2 ≤ slashSlvrSize
  /-- status 0: all slivers were read and written in full -/
  copied : 0 ∈ x.reports → (∀ n < nslvr x.len, n ∈ x.requests.map Prod.fst ∧ n ∈ x.written) ∧
    (x.requests.map Prod.snd).sum = x.len

theorem mul_lt_iff_lt_nslvr (i len : ℕ) : i * slashSlvrSize < len ↔ i < nslvr len := by
  simp only [nslvr, slashSlvrSize]
  omega

variable {len : ℕ}

theorem nslvr_le (h : len ≤ slashBmapSize) : nslvr len ≤ slashSlvrsPerBmap := by
  simp only [nslvr, slashBmapSize, slashSlvrsPerBmap, slashSlvrSize] at *
  omega

theorem takeWhile_range_eq (len : ℕ) : ∀ k : ℕ,
    ((range k).takeWhile fun i => i * slashSlvrSize < len) = range (min k (nslvr len))
  | 0 => by rw [Nat.zero_min, range_zero, takeWhile_nil]
  | k + 1 => by
    rw [range_succ, takeWhile_append, takeWhile_range_eq len k]
    by_cases hk : k < nslvr len
    · have hmin : min k (nslvr len) = k := by omega
      have hmin' : min (k + 1) (nslvr len) = k + 1 := by omega
      have hlt := (mul_lt_iff_lt_nslvr k len).mpr hk
      simp [hmin, hmin', hlt, range_succ]
    have hmin : min (k + 1) (nslvr len) = min k (nslvr len) := by omega
    have hnlt : ¬ k * slashSlvrSize < len := fun h => hk ((mul_lt_iff_lt_nslvr k len).mp h)
    rw [hmin]
    split_ifs with hlen
    · simp only [length_range] at hlen
      rw [hlen]
      simp [hnlt]
    · rfl

theorem mem_markSlvrs (h : len ≤ slashBmapSize) {i : ℕ} : i ∈ markSlvrs len ↔ i < nslvr len := by
  have hle := nslvr_le h
  rw [markSlvrs, takeWhile_range_eq, mem_range]
  omega

theorem slvrLen_bounds {n : ℕ} (h : n < nslvr len) : 1 ≤ slvrLen len n ∧ slvrLen len n ≤ slashSlvrSize := by
  by_cases hn : n = len / slashSlvrSize
  · rw [slvrLen, if_pos hn]
    simp only [nslvr, slashSlvrSize] at *
    omega
  rw [slvrLen, if_neg hn]
  simp only [nslvr, slashSlvrSize] at *
  omega

theorem sum_slvrLen_full (len : ℕ) : ∀ k ≤ len / slashSlvrSize, ((range k).map (slvrLen len)).sum = k * slashSlvrSize
  | 0, _ => by simp
  | k + 1, h => by
    rw [range_succ, map_append, sum_append, sum_slvrLen_full len k (by omega)]
    have hk : slvrLen len k = slashSlvrSize := if_neg (by omega)
    simp [hk, Nat.succ_mul]

theorem sum_slvrLen (len : ℕ) : ((range (nslvr len)).map (slvrLen len)).sum = len := by
  have hdiv := Nat.div_add_mod' len slashSlvrSize
  by_cases hr : len % slashSlvrSize = 0
  · have hn : nslvr len = len / slashSlvrSize := by
      simp only [nslvr, slashSlvrSize] at *
      omega
    rw [hn, sum_slvrLen_full len _ le_rfl]
    rwa [hr, Nat.add_zero] at hdiv
  have hn : nslvr len = len / slashSlvrSize + 1 := by
    simp only [nslvr, slashSlvrSize] at *
    omega
  have hlast : slvrLen len (len / slashSlvrSize) = len % slashSlvrSize := if_pos rfl
  rw [hn, range_succ, map_append, sum_append, sum_slvrLen_full len _ le_rfl, map_singleton, sum_singleton, hlast]
  exact hdiv

end Slash2.Replwk
