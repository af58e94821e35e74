/-
# Slivers

A sliver is the cached part of a bmap that an I/O server reads and writes at once. A request takes
a reference (`_slvr_lookup`), waits for the sliver and marks it faulting (`slvr_io_prep`),
transfers the data and ends with `slvr_io_done` and `slvr_rio_done` or `slvr_wio_done`. A written
sliver goes to the queue of those whose CRC is to be computed. Clean slivers without references
are reaped.

Key theorem: `slvr_run`.
-/
import Mathlib.Data.Int.Notation
import Mathlib.Data.List.Count
import Mathlib.Data.List.Perm.Basic
import Slash2.Lib.Run

namespace Slash2.Sliver

open Lib List Option
open Bool (eq_false_iff toNat_true)

/-! ### A sliver -/

/-- `struct slvr`, and the lists it is on. -/
structure Slvr where
  faulting : Bool
  datardy : Bool
  dataerr : Bool
  /-- `SLVRF_LRU` -/
  lru : Bool
  crcdirty : Bool
  freeing : Bool
  refcnt : ℕ
  err : ℤ
  /-- on `sli_lruslvrs` -/
  onLru : Bool
  /-- on `sli_crcqslvrs` -/
  onCrcq : Bool

/-- The sliver `_slvr_lookup` makes. -/
def slvrNew : Slvr := ⟨false, false, false, true, false, false, 1, 0, true, false⟩

variable (s : Slvr)

def slvrIoDone (rc : ℤ) : Slvr :=
  if rc ≠ 0 then { s with faulting := false, datardy := false, err := rc, dataerr := true }
  else { s with faulting := false, datardy := true }

/-- `slvr_schedule_crc_locked` -/
def slvrScheduleCrc : Option Slvr :=
  if s.onLru then some { s with lru := false, crcdirty := true, onLru := false, onCrcq := true } else none

inductive Unpin where
  | failed
  /-- `slvr_remove` is called, the lock having been released -/
  | remove (s : Slvr)
  | keep (s : Slvr)

/-- `slvr_lru_tryunpin_locked` -/
def slvrLruTryunpin : Unpin :=
  if s.refcnt ≠ 0 ∨ s.crcdirty then .keep s
  else if s.dataerr ∨ s.freeing then .remove s
  else if s.lru = false ∨ s.datardy = false ∨ s.onLru = false then .failed
  else .keep s

def slvrRioDone : Unpin :=
  if s.refcnt = 0 then .failed else slvrLruTryunpin { s with refcnt := s.refcnt - 1 }

/-- `slvr_wio_done` of a client's write. -/
def slvrWioDone : Unpin :=
  if s.refcnt = 0 then .failed
  else if s.dataerr then slvrLruTryunpin { s with refcnt := s.refcnt - 1 }
  else if s.lru then
    match slvrScheduleCrc { s with refcnt := s.refcnt - 1 } with
    | none => .failed
    | some s => .keep s
  else .keep { s with refcnt := s.refcnt - 1 }

/-- The assertion of `slvr_do_crc`. -/
def slvrDoCrc : Bool := s.faulting || s.crcdirty

/-- The sliver is on the list `slvr_remove` takes it from. -/
def slvrRemovable : Bool := if s.lru then s.onLru else s.onCrcq

inductive Rw where
  | read
  | write (full : Bool)
  deriving DecidableEq

/-- How far a request is. -/
inductive Phase where
  | looked
  | reading
  | readFailed (rc : ℤ)
  | ready
  | refused (rc : ℤ)
  | done
  deriving DecidableEq

structure Client where
  rw : Rw
  phase : Phase
  deriving DecidableEq

structure Cache where
  slvr : Option Slvr
  clients : List Client
  worker : Bool
  /-- calls of `slvr_remove` to come -/
  removers : ℕ
  stale : ℕ
  failed : Bool

def Cache.init : Cache := ⟨none, [], false, 0, 0, false⟩

namespace Cache

def move (s : Cache) (c d : Client) : Cache := { s with clients := d :: s.clients.erase c }

def unpin (s : Cache) (c : Client) : Unpin → Cache
  | .failed => { s with failed := true }
  | .remove o => { s with slvr := some o, clients := s.clients.erase c, removers := s.removers + 1 }
  | .keep o => { s with slvr := some o, clients := s.clients.erase c }

end Cache

variable (s : Cache)

/-- `_slvr_lookup`; it waits for errors and removals. -/
def slvrLookup (rw : Rw) : Option Cache :=
  match s.slvr with
  | none => some { s with slvr := some slvrNew, clients := ⟨rw, .looked⟩ :: s.clients }
  | some o =>
    if o.freeing ∨ o.dataerr then none
    else some { s with
      slvr := some { o with refcnt := o.refcnt + 1 }, clients := ⟨rw, .looked⟩ :: s.clients }

variable (o : Slvr)

/-- `slvr_io_prep` up to the read; it waits while faulting. -/
def slvrIoPrep (c : Client) : Option Cache :=
  if o.faulting then none
  else if o.dataerr then
    some (s.move c ⟨c.rw, if o.err = 0 then .ready else .refused o.err⟩)
  else if o.datardy ∨ c.rw = .write true then
    some { s.move c ⟨c.rw, .ready⟩ with slvr := some { o with faulting := true } }
  else some { s.move c ⟨c.rw, .reading⟩ with slvr := some { o with faulting := true } }

/-- The read from the backing store ends (`slvr_fsio`). -/
def slvrFsio (c : Client) (rc : ℤ) : Cache :=
  if rc ≠ 0 then s.move c ⟨c.rw, .readFailed rc⟩
  else if slvrDoCrc o then s.move c ⟨c.rw, .ready⟩
  else { s with failed := true }

/-- The code for `slvr_io_done`. -/
def ioRc (bulk : ℤ) : Phase → Option ℤ
  | .ready => some bulk
  | .refused rc | .readFailed rc => some rc
  | _ => none

/-- `slislvrthr_main` takes the sliver from the queue. -/
def crcTake : Option Cache :=
  if o.onCrcq ∧ o.refcnt = 0 ∧ o.freeing = false then
    some { s with slvr := some { o with faulting := true, onCrcq := false }, worker := true }
  else none

/-- The assertions of `slislvrthr_proc`. -/
def crcAsserts : Bool :=
  !o.lru && o.crcdirty && o.datardy && !o.onLru && !o.onCrcq && slvrDoCrc o

def slislvrthrProc : Cache :=
  if crcAsserts o = false then { s with failed := true }
  else if o.dataerr ∧ o.refcnt = 0 then { s with worker := false, removers := s.removers + 1 }
  else { s with
    slvr := some { o with lru := true, crcdirty := false, faulting := false, onLru := true }
    worker := false }

/-- `slvr_buffer_reap` picks the sliver. -/
def slvrBufferReap : Option Cache :=
  if o.onLru ∧ o.refcnt = 0 ∧ o.freeing = false then
    some { s with slvr := some { o with freeing := true }, removers := s.removers + 1 }
  else none

def slvrRemove : Cache :=
  if slvrRemovable o then
    { s with slvr := none, removers := 0, stale := s.stale + (s.removers - 1) }
  else { s with failed := true }

inductive Label where
  | lookup (rw : Rw)
  | prep (c : Client)
  | pread (c : Client) (rc : ℤ)
  | ioDone (c : Client) (bulk : ℤ)
  | drop (c : Client)
  | crcTake
  | crcProc
  | reap
  | remove
  | removeStale

def step (l : Label) : Option Cache :=
  if s.failed then none
  else
    match l, s.slvr with
    | .lookup rw, _ => slvrLookup s rw
    | .prep c, some o => if c ∈ s.clients ∧ c.phase = .looked then slvrIoPrep s o c else none
    | .pread c rc, some o =>
      if c ∈ s.clients ∧ c.phase = .reading then some (slvrFsio s o c rc) else none
    | .ioDone c bulk, some o =>
      match ioRc bulk c.phase with
      | none => none
      | some rc =>
        if c ∈ s.clients then some { s.move c ⟨c.rw, .done⟩ with slvr := some (slvrIoDone o rc) }
        else none
    | .drop c, some o =>
      if c ∈ s.clients ∧ c.phase = .done then
        some (s.unpin c (if c.rw = .read then slvrRioDone o else slvrWioDone o))
      else none
    | .crcTake, some o => crcTake s o
    | .crcProc, some o => if s.worker then some (slislvrthrProc s o) else none
    | .reap, some o => slvrBufferReap s o
    | .remove, some o => if s.removers ≠ 0 then some (slvrRemove s o) else none
    | .removeStale, _ => if s.stale ≠ 0 then some { s with failed := true } else none
    | _, none => none

/-- The flags agree with the lists. -/
structure Sane (s : Cache) : Prop where
  ok : s.failed = false
  lru : ∀ o ∈ s.slvr, o.lru ↔ o.onLru
  crcdirty : ∀ o ∈ s.slvr, o.crcdirty → o.onCrcq ∨ s.worker
  worker : s.worker → ∃ o ∈ s.slvr, o.crcdirty ∧ o.datardy ∧ o.lru = false

/-- No error on a sliver whose CRC is due, and the reaper picks none with an error. -/
def Careful : Label → Prop
  | .ioDone c bulk => ∀ o ∈ s.slvr, ioRc bulk c.phase = some 0 ∨ o.crcdirty = false
  | .reap => ∀ o ∈ s.slvr, o.dataerr = false
  | _ => True

instance (l : Label) : Decidable (Careful s l) := by
  cases l <;> unfold Careful <;> infer_instance

def Phase.holds : Phase → Bool
  | .reading | .readFailed _ | .ready => true
  | _ => false

/-- A sliver with its requests, worker and removals to come. -/
structure Good (o : Slvr) (cl : List Client) (worker : Bool) (removers : ℕ) : Prop where
  refs : o.refcnt = cl.length
  onLru : o.onLru = o.lru
  lru : o.lru = !o.crcdirty
  onCrcq : o.onCrcq = (o.crcdirty && !worker)
  taken : worker → o.crcdirty
  dirty : o.crcdirty → o.datardy
  holders : cl.countP (·.phase.holds) + worker.toNat = o.faulting.toNat
  error : o.dataerr → o.faulting = false ∧ o.datardy = false ∧ o.err ≠ 0
  refused : ∀ c ∈ cl, ∀ rc, c.phase = .refused rc → o.dataerr ∧ rc ≠ 0
  readFailed : ∀ c ∈ cl, ∀ rc, c.phase = .readFailed rc → rc ≠ 0
  done : ∀ c ∈ cl, c.phase = .done → o.datardy ∨ o.dataerr
  removers : removers = if o.refcnt = 0 ∧ (o.freeing ∨ o.dataerr) then 1 else 0
  freeing : o.freeing → o.refcnt = 0 ∧ o.crcdirty = false

structure Inv (s : Cache) : Prop where
  ok : s.failed = false
  stale : s.stale = 0
  cached : ∀ o, s.slvr = some o → Good o s.clients s.worker s.removers
  absent : s.slvr = none → s.clients = [] ∧ s.worker = false ∧ s.removers = 0

namespace Good

variable {o} {cl cl' : List Client} {worker : Bool} {removers : ℕ} {c : Client}

theorem perm (h : Good o cl worker removers) (hp : cl.Perm cl') : Good o cl' worker removers :=
  { h with
    refs := h.refs.trans hp.length_eq
    holders := by rw [← hp.countP_eq]; exact h.holders
    refused := fun c hc => h.refused c (hp.mem_iff.mpr hc)
    readFailed := fun c hc => h.readFailed c (hp.mem_iff.mpr hc)
    done := fun c hc => h.done c (hp.mem_iff.mpr hc) }

theorem first (h : Good o cl worker removers) (hc : c ∈ cl) : Good o (c :: cl.erase c) worker removers :=
  h.perm (perm_cons_erase hc)

section
variable (h : Good o (c :: cl) worker removers)
include h

theorem of_holds (hc : c.phase.holds) :
    o.faulting ∧ o.dataerr = false ∧ worker = false ∧ cl.countP (·.phase.holds) = 0 := by
  have hh := h.holders
  rw [countP_cons_of_pos (by simpa using hc)] at hh
  have hf : o.faulting := by
    by_contra hf
    simp [eq_false_iff.mpr hf] at hh
  rw [hf, toNat_true] at hh
  refine ⟨hf, ?_, ?_, by omega⟩
  · by_contra he
    have := (h.error (by simpa using he)).1
    simp [hf] at this
  · by_contra hw
    rw [show worker = true by simpa using hw, toNat_true] at hh
    omega

theorem refcnt_ne_zero : o.refcnt ≠ 0 := by
  rw [h.refs]
  simp

theorem removers_eq_zero : removers = 0 := by
  rw [h.removers, if_neg fun h0 => h.refcnt_ne_zero h0.1]

theorem not_freeing : o.freeing = false := by
  by_contra hf
  exact h.refcnt_ne_zero (h.freeing (by simpa using hf)).1

theorem move {p : Phase} (hholds : p.holds = c.phase.holds)
    (hrefused : ∀ rc, p = .refused rc → o.dataerr ∧ rc ≠ 0)
    (hread : ∀ rc, p = .readFailed rc → rc ≠ 0) (hdone : p ≠ .done) : Good o (⟨c.rw, p⟩ :: cl) worker removers :=
  { h with
    holders := by
      have := h.holders
      rw [countP_cons] at this ⊢
      rw [hholds]
      exact this
    refused := forall_mem_cons.mpr ⟨hrefused, (forall_mem_cons.mp h.refused).2⟩
    readFailed := forall_mem_cons.mpr ⟨hread, (forall_mem_cons.mp h.readFailed).2⟩
    done := forall_mem_cons.mpr ⟨fun hp => absurd hp hdone, (forall_mem_cons.mp h.done).2⟩ }

theorem fault (hf : o.faulting = false) (he : o.dataerr = false)
    (hc : c.phase = .looked) {p : Phase} (hp : p = .ready ∨ p = .reading) :
    Good { o with faulting := true } (⟨c.rw, p⟩ :: cl) worker removers :=
  { h with
    holders := by
      have := h.holders
      rw [countP_cons_of_neg (by simp [hc, Phase.holds]), hf, Bool.toNat_false] at this
      rw [countP_cons_of_pos (by rcases hp with rfl | rfl <;> rfl)]
      simp only [toNat_true]
      omega
    error := fun h => by simp [he] at h
    refused := forall_mem_cons.mpr ⟨fun rc hrc => (by rcases hp with rfl | rfl <;> cases hrc),
      (forall_mem_cons.mp h.refused).2⟩
    readFailed := forall_mem_cons.mpr ⟨fun rc hrc => (by rcases hp with rfl | rfl <;> cases hrc),
      (forall_mem_cons.mp h.readFailed).2⟩
    done := forall_mem_cons.mpr ⟨fun hdone => (by rcases hp with rfl | rfl <;> cases hdone),
      (forall_mem_cons.mp h.done).2⟩ }

theorem ioDone {bulk rc : ℤ} (hrc : ioRc bulk c.phase = some rc)
    (hcare : rc = 0 ∨ o.crcdirty = false) : Good (slvrIoDone o rc) (⟨c.rw, .done⟩ :: cl) worker removers := by
  have hzero := h.removers_eq_zero
  -- nobody has the sliver when this request is done with it
  have hidle : cl.countP (·.phase.holds) + worker.toNat = 0 := by
    have hh := h.holders
    cases hp : c.phase with
    | refused e =>
      rw [countP_cons_of_neg (by simp [hp, Phase.holds]), (h.error (h.refused c mem_cons_self e hp).1).1] at hh
      exact hh
    | ready | readFailed e =>
      obtain ⟨-, -, hw, hcount⟩ := h.of_holds (by rw [hp]; rfl)
      rw [hw, hcount]
      rfl
    | looked | reading | done => rw [hp] at hrc; cases hrc
  have hholders : (⟨c.rw, .done⟩ :: cl : List Client).countP (·.phase.holds) + worker.toNat = 0 := by
    exact hidle
  unfold slvrIoDone
  split_ifs with hne
  · have hclean : o.crcdirty = false := hcare.resolve_left hne
    exact { h with
      dirty := fun hd => by simp [hclean] at hd
      holders := hholders
      error := fun _ => ⟨rfl, rfl, hne⟩
      refused := forall_mem_cons.mpr ⟨fun e hp => (by cases hp), fun d hd e hp =>
        ⟨rfl, (h.refused d (mem_cons_of_mem _ hd) e hp).2⟩⟩
      readFailed := forall_mem_cons.mpr ⟨fun e hp => (by cases hp), (forall_mem_cons.mp h.readFailed).2⟩
      done := fun _ _ _ => .inr rfl
      removers := by rw [hzero, if_neg fun h0 => h.refcnt_ne_zero h0.1] }
  · have hrc0 : rc = 0 := not_not.mp hne
    subst hrc0
    have hnoerr : o.dataerr = false := by
      cases hp : c.phase with
      | refused =>
        rw [hp] at hrc
        cases hrc
        exact absurd rfl (h.refused c mem_cons_self 0 hp).2
      | readFailed =>
        rw [hp] at hrc
        cases hrc
        exact absurd rfl (h.readFailed c mem_cons_self 0 hp)
      | ready => exact (h.of_holds (by rw [hp]; rfl)).2.1
      | looked | reading | done => rw [hp] at hrc; cases hrc
    exact { h with
      dirty := fun _ => rfl
      holders := hholders
      error := fun he => by simp [hnoerr] at he
      refused := forall_mem_cons.mpr ⟨fun e hp => (by cases hp), (forall_mem_cons.mp h.refused).2⟩
      readFailed := forall_mem_cons.mpr ⟨fun e hp => (by cases hp), (forall_mem_cons.mp h.readFailed).2⟩
      done := fun _ _ _ => .inl rfl
      removers := by rw [hzero, if_neg fun h0 => h.refcnt_ne_zero h0.1] }

theorem decref (hc : c.phase = .done) : Good { o with refcnt := o.refcnt - 1 } cl worker
      (if o.refcnt - 1 = 0 ∧ o.dataerr = true then 1 else 0) := by
  have hfree := h.not_freeing
  exact { h with
    refs := by
      have := h.refs
      simp only [length_cons] at this
      change o.refcnt - 1 = _
      omega
    holders := by
      have := h.holders
      rwa [countP_cons_of_neg (by simp [hc, Phase.holds])] at this
    refused := fun d hd => h.refused d (mem_cons_of_mem _ hd)
    readFailed := fun d hd => h.readFailed d (mem_cons_of_mem _ hd)
    done := fun d hd => h.done d (mem_cons_of_mem _ hd)
    removers := by simp [hfree]
    freeing := fun hf => by simp [hfree] at hf }

end

end Good

def Unpinned (cl : List Client) (worker : Bool) : Unpin → Prop
  | .failed => False
  | .remove o => Good o cl worker 1
  | .keep o => Good o cl worker 0

section Unpin

variable {o} {cl : List Client} {worker : Bool} {removers : ℕ} {c : Client}

section
variable (h : Good o (c :: cl) worker removers) (hc : c.phase = .done)
include h hc

theorem tryunpin_unpinned : Unpinned cl worker (slvrLruTryunpin { o with refcnt := o.refcnt - 1 }) := by
  have hd := h.decref hc
  have hfree := h.not_freeing
  have hrdy := h.done c mem_cons_self hc
  have hlru := h.lru
  have hon := h.onLru
  unfold slvrLruTryunpin
  by_cases hkeep : o.refcnt - 1 ≠ 0 ∨ o.crcdirty = true
  · rw [if_pos hkeep]
    have hzero : ¬ (o.refcnt - 1 = 0 ∧ o.dataerr = true) := by
      rintro ⟨h0, he⟩
      have hdirty := hkeep.resolve_left (not_not.mpr h0)
      have := h.dirty hdirty
      rw [(h.error he).2.1] at this
      cases this
    rw [if_neg hzero] at hd
    exact hd
  · rw [if_neg hkeep]
    obtain ⟨h0, hclean⟩ := not_or.mp hkeep
    have h0 := not_not.mp h0
    by_cases he : o.dataerr = true
    · rw [if_pos (.inl he)]
      rw [if_pos ⟨h0, he⟩] at hd
      exact hd
    rw [if_neg (by simp [he, hfree])]
    rw [if_neg fun h => he h.2] at hd
    have hl : o.lru := by rw [hlru, eq_false_iff.mpr hclean]; rfl
    rw [if_neg (by simp [hon, hl, hrdy.resolve_right he])]
    exact hd

theorem rioDone_unpinned : Unpinned cl worker (slvrRioDone o) := by
  have hrefs := h.refs
  simp only [length_cons] at hrefs
  unfold slvrRioDone
  rw [if_neg (by omega)]
  exact tryunpin_unpinned h hc

theorem wioDone_unpinned : Unpinned cl worker (slvrWioDone o) := by
  have hrefs := h.refs
  simp only [length_cons] at hrefs
  unfold slvrWioDone
  rw [if_neg (by omega)]
  by_cases he : o.dataerr = true
  · rw [if_pos he]
    exact tryunpin_unpinned h hc
  rw [if_neg he]
  have hd := h.decref hc
  rw [if_neg fun h => he h.2] at hd
  by_cases hl : o.lru = true
  · have hclean : o.crcdirty = false := by simpa [hl] using h.lru.symm
    have hw : worker = false := by
      by_contra hw
      have := h.taken (by simpa using hw)
      simp [hclean] at this
    have hrdy := (h.done c mem_cons_self hc).resolve_right he
    rw [if_pos hl]
    simp only [slvrScheduleCrc, h.onLru.trans hl, if_true]
    exact { hd with
      onLru := rfl
      lru := rfl
      onCrcq := by simp [hw]
      taken := fun _ => rfl
      dirty := fun _ => hrdy
      freeing := fun hf => by simp [h.not_freeing] at hf }
  · rw [if_neg hl]
    exact hd

end

end Unpin

theorem inv_init : Inv Cache.init := ⟨rfl, rfl, fun _ h => (by cases h), fun _ => ⟨rfl, rfl, rfl⟩⟩

section Steps

variable {s o} {t : Cache} {c : Client} {cl : List Client} {worker : Bool} {removers : ℕ}

theorem Inv.of_good (hs : Inv s) (h : Good o cl worker removers) :
    Inv { s with slvr := some o, clients := cl, worker := worker, removers := removers } :=
  ⟨hs.ok, hs.stale, fun _ ho => (by cases ho; exact h), fun ho => (by cases ho)⟩

theorem good_new (rw' : Rw) : Good slvrNew [⟨rw', .looked⟩] false 0 where
  refs := rfl
  onLru := rfl
  lru := rfl
  onCrcq := rfl
  taken h := by cases h
  dirty h := by cases h
  holders := rfl
  error h := by cases h
  refused c hc rc hp := by
    rw [mem_singleton.mp hc] at hp
    cases hp
  readFailed c hc rc hp := by
    rw [mem_singleton.mp hc] at hp
    cases hp
  done c hc hp := by
    rw [mem_singleton.mp hc] at hp
    cases hp
  removers := rfl
  freeing h := by cases h

theorem Good.lookup (h : Good o cl worker removers) (hok : ¬ (o.freeing ∨ o.dataerr)) (rw' : Rw) :
    Good { o with refcnt := o.refcnt + 1 } (⟨rw', .looked⟩ :: cl) worker removers := by
  have hzero : removers = 0 := by rw [h.removers, if_neg fun h0 => hok h0.2]
  exact { h with
    refs := congrArg (· + 1) h.refs
    holders := by
      exact h.holders
    refused := forall_mem_cons.mpr ⟨fun rc hp => (by cases hp), h.refused⟩
    readFailed := forall_mem_cons.mpr ⟨fun rc hp => (by cases hp), h.readFailed⟩
    done := forall_mem_cons.mpr ⟨fun hp => (by cases hp), h.done⟩
    removers := by rw [hzero, if_neg fun h0 => Nat.succ_ne_zero _ h0.1]
    freeing := fun hf => absurd (.inl hf) hok }

section
variable (hs : Inv s)
include hs

theorem lookup_inv {rw' : Rw} (h : slvrLookup s rw' = some t) : Inv t := by
  unfold slvrLookup at h
  cases ho : s.slvr with
  | none =>
    simp only [ho] at h
    cases h
    obtain ⟨hcl, hw, hr⟩ := hs.absent ho
    refine ⟨hs.ok, hs.stale, fun o h => ?_, fun h => by cases h⟩
    cases h
    rw [hcl, hw, hr]
    exact good_new rw'
  | some o =>
    simp only [ho] at h
    obtain ⟨hok, ⟨⟩⟩ := ite_none_left_eq_some.mp h
    exact hs.of_good ((hs.cached o ho).lookup hok rw')

section
variable (ho : s.slvr = some o)
include ho

theorem prep_inv (hc : c ∈ s.clients) (hp : c.phase = .looked) (h : slvrIoPrep s o c = some t) : Inv t := by
  have hg := (hs.cached o ho).first hc
  unfold slvrIoPrep at h
  split at h
  · cases h
  rename_i hf
  have hf : o.faulting = false := eq_false_iff.mpr hf
  split at h
  · rename_i he
    cases h
    have hne := (hg.error he).2.2
    rw [if_neg hne]
    have hmoved := hs.of_good (hg.move (p := .refused o.err) (by rw [hp]; rfl)
      (fun rc hrc => by cases hrc; exact ⟨he, hne⟩) (fun rc hrc => by cases hrc) (by simp))
    rw [← ho] at hmoved
    exact hmoved
  · rename_i he
    have he : o.dataerr = false := eq_false_iff.mpr he
    split at h <;> cases h
    · exact hs.of_good (hg.fault hf he hp (.inl rfl))
    · exact hs.of_good (hg.fault hf he hp (.inr rfl))

theorem fsio_inv (hc : c ∈ s.clients) (hp : c.phase = .reading) (rc : ℤ) : Inv (slvrFsio s o c rc) := by
  have hg := (hs.cached o ho).first hc
  have hholds : c.phase.holds := by rw [hp]; rfl
  have hcrc : slvrDoCrc o := by simp [slvrDoCrc, (hg.of_holds hholds).1]
  unfold slvrFsio
  split_ifs with hrc
  · have hmoved := hs.of_good (hg.move (p := .readFailed rc) (by rw [hp]; rfl)
      (fun e he => by cases he) (fun e he => by cases he; exact hrc) (by simp))
    rw [← ho] at hmoved
    exact hmoved
  have hmoved := hs.of_good (hg.move (p := .ready) (by rw [hp]; rfl)
    (fun e he => by cases he) (fun e he => by cases he) (by simp))
  rw [← ho] at hmoved
  exact hmoved

theorem drop_inv (hc : c ∈ s.clients) (hp : c.phase = .done) :
    Inv (s.unpin c (if c.rw = .read then slvrRioDone o else slvrWioDone o)) := by
  have hg := (hs.cached o ho).first hc
  have hun : Unpinned (s.clients.erase c) s.worker (if c.rw = .read then slvrRioDone o else slvrWioDone o) := by
    split
    · exact rioDone_unpinned hg hp
    · exact wioDone_unpinned hg hp
  have hzero := hg.removers_eq_zero
  generalize (if c.rw = .read then slvrRioDone o else slvrWioDone o) = u at hun ⊢
  cases u with
  | failed => exact hun.elim
  | remove =>
    have hgood := hs.of_good hun
    simpa [Cache.unpin, hzero] using hgood
  | keep =>
    have hgood := hs.of_good hun
    rw [← hzero] at hgood
    exact hgood

theorem crcTake_inv (h : crcTake s o = some t) : Inv t := by
  have hg := hs.cached o ho
  obtain ⟨hq, h⟩ := ite_none_right_eq_some.mp h
  obtain ⟨hon, hrefs, -⟩ := hq
  cases h
  have hq := hg.onCrcq
  rw [hon] at hq
  have hdirty : o.crcdirty = true ∧ s.worker = false := by simpa using hq.symm
  have hcl : s.clients = [] := length_eq_zero_iff.mp (hg.refs.symm.trans hrefs)
  have herr : o.dataerr = false := by
    by_contra he
    have := hg.dirty hdirty.1
    rw [(hg.error (by simpa using he)).2.1] at this
    cases this
  refine hs.of_good { hg with
    onCrcq := by simp
    taken := fun _ => hdirty.1
    holders := by simp [hcl]
    error := fun he => by simp [herr] at he }

theorem crcProc_inv (hw : s.worker) : Inv (slislvrthrProc s o) := by
  have hg := hs.cached o ho
  have hdirty := hg.taken hw
  have hrdy := hg.dirty hdirty
  have hlru : o.lru = false := by rw [hg.lru, hdirty]; rfl
  have hasserts : crcAsserts o := by
    simp [crcAsserts, slvrDoCrc, hlru, hdirty, hrdy, hg.onLru, hg.onCrcq, hw]
  have herr : o.dataerr = false := by
    by_contra he
    rw [(hg.error (by simpa using he)).2.1] at hrdy
    cases hrdy
  have hh := hg.holders
  rw [hw, toNat_true] at hh
  have hcount : s.clients.countP (·.phase.holds) = 0 := by
    have := Bool.toNat_le o.faulting
    omega
  unfold slislvrthrProc
  rw [if_neg (by simp [hasserts]), if_neg (by simp [herr])]
  exact hs.of_good { hg with
    onLru := rfl
    lru := rfl
    onCrcq := by rw [hg.onCrcq, hw]; simp
    taken := fun h => by cases h
    dirty := fun h => by cases h
    holders := by rw [hcount]; rfl
    error := fun he => by simp [herr] at he
    freeing := fun hf => ⟨(hg.freeing hf).1, rfl⟩ }

theorem reap_inv (herr : o.dataerr = false) (h : slvrBufferReap s o = some t) : Inv t := by
  have hg := hs.cached o ho
  obtain ⟨hq, h⟩ := ite_none_right_eq_some.mp h
  obtain ⟨hon, hrefs, hfree⟩ := hq
  cases h
  have hzero : s.removers = 0 := by rw [hg.removers, if_neg (by simp [hfree, herr])]
  have hclean : o.crcdirty = false := by
    have := hg.lru
    rw [← hg.onLru, hon] at this
    simpa using this.symm
  refine hs.of_good { hg with
    removers := by simp [hzero, hrefs]
    freeing := fun _ => ⟨hrefs, hclean⟩ }

theorem remove_inv (hr : s.removers ≠ 0) : Inv (slvrRemove s o) := by
  have hg := hs.cached o ho
  have hrem := hg.removers
  split_ifs at hrem with hq
  · obtain ⟨hrefs, hwhy⟩ := hq
    have hclean : o.crcdirty = false := by
      rcases hwhy with hf | he
      · exact (hg.freeing hf).2
      by_contra hd
      have := hg.dirty (by simpa using hd)
      rw [(hg.error he).2.1] at this
      cases this
    have hlru : o.lru := by rw [hg.lru, hclean]; rfl
    unfold slvrRemove
    rw [if_pos (by simp [slvrRemovable, hlru, hg.onLru])]
    refine ⟨hs.ok, by simp [hs.stale, hrem], fun _ h => (by cases h), fun _ => ⟨?_, ?_, rfl⟩⟩
    · exact length_eq_zero_iff.mp (hg.refs.symm.trans hrefs)
    · by_contra hw
      have := hg.taken (by simpa using hw)
      simp [hclean] at this
  · exact absurd hrem hr

end

theorem step_inv {l : Label} (hl : Careful s l) (h : step s l = some t) : Inv t := by
  revert h
  fun_cases step s l <;> intro h <;> try cases h
  next => exact lookup_inv hs h
  next ho hc => exact prep_inv hs ho hc.1 hc.2 h
  next rc _ ho hc => exact fsio_inv hs ho hc.1 hc.2 rc
  next o ho rc hrc hc =>
    have hcare : rc = 0 ∨ o.crcdirty = false := by
      have := hl o (by simp [ho])
      rw [hrc] at this
      simpa using this
    exact hs.of_good (((hs.cached o ho).first hc).ioDone hrc hcare)
  next ho hc => exact drop_inv hs ho hc.1 hc.2
  next ho => exact crcTake_inv hs ho h
  next ho hw => exact crcProc_inv hs ho hw
  next o ho => exact reap_inv hs ho (hl o (by simp [ho])) h
  next ho hr => exact remove_inv hs ho hr
  next hstale => exact absurd hs.stale hstale

end

end Steps

theorem Inv.sane {s : Cache} (hs : Inv s) : Sane s where
  ok := hs.ok
  lru o ho := by rw [(hs.cached o ho).onLru]
  crcdirty o ho hd := by
    have hq := (hs.cached o ho).onCrcq
    cases hw : s.worker
    · left
      rw [hq, hd, hw]
      rfl
    · exact .inr rfl
  worker hw := by
    cases ho : s.slvr with
    | none => simp [(hs.absent ho).2.1] at hw
    | some o =>
      have hg := hs.cached o ho
      have hd := hg.taken hw
      exact ⟨o, rfl, hd, hg.dirty hd, by rw [hg.lru, hd]; rfl⟩

/-- **The states of a sliver** in every run of careful steps. -/
theorem slvr_run {ls : List Label} (hls : Admits step Careful Cache.init ls) {t : Cache}
    (ht : run step Cache.init ls = some t) : Sane t :=
  (run_invariant (fun hs hl h => step_inv hs hl h) inv_init hls ht).sane

/-! ### A sliver that is written and read -/

def io (rw' : Rw) (bulk : ℤ) : List Label :=
  [.lookup rw', .prep ⟨rw', .looked⟩, .ioDone ⟨rw', .ready⟩ bulk, .drop ⟨rw', .done⟩]

def badRead : List Label :=
  [.lookup .read, .prep ⟨.read, .looked⟩, .pread ⟨.read, .reading⟩ (-5),
    .ioDone ⟨.read, .readFailed (-5)⟩ 0, .drop ⟨.read, .done⟩]

/-- Written, read, its CRC computed, and reaped. -/
theorem slvr_run_written :
    ∃ t, run step Cache.init (io (.write true) 0 ++ io .read 0 ++ [.crcTake, .crcProc, .reap, .remove]) =
      some t ∧ t.slvr = none ∧ Sane t := by
  have hrun : ∃ t ∈ run step Cache.init (io (.write true) 0 ++ io .read 0 ++
      [.crcTake, .crcProc, .reap, .remove]), t.slvr = none := by decide
  obtain ⟨t, ht, hnone⟩ := hrun
  exact ⟨t, ht, hnone, slvr_run (by decide) ht⟩

/-- A transfer fails while the CRC is due. -/
theorem assertions_fail : (∃ t ∈ run step Cache.init (io (.write true) 0 ++ io .read (-5) ++ [.crcTake]),
      t.worker = true ∧ ∃ o ∈ t.slvr, o.datardy = false) ∧
    (∃ t ∈ run step Cache.init (io (.write true) 0 ++ io .read (-5) ++ [.crcTake, .crcProc]), t.failed = true) ∧
    (∃ t ∈ run step Cache.init (badRead ++ [.reap, .remove, .removeStale]), t.failed = true) := by
  decide

end Slash2.Sliver
