/-
# The bookkeeping of a partial truncation

`slm_setattr_core` takes a reference to the file and queues `slm_ptrunc_prepare`, which is tried again
until no client holds a lease beyond the new end of file. The clients that are asked for a lease, and
those that want one meanwhile, are recorded with a reference to their connection, to be woken at the
end: by `slm_ptrunc_apply`, or by the update that brings the CRCs of the sliced bmap.

Key theorem: `ptrunc_settled_iff`.
-/
import Slash2.Lib.Run
import Slash2.Residency.Replicate

namespace Slash2.Residency

open Lib Function List Option

/-- What a truncation waits for. -/
inductive PtruncWork where
  | none
  | prepare
  | crcs
  deriving DecidableEq

/-- A file under truncation, with what was done for each client. -/
structure Ptrunc where
  work : PtruncWork
  /-- references of the type FCMH_OPCNT_WORKER -/
  workers : ℤ
  /-- FCMH_MDS_IN_PTRUNC -/
  inPtrunc : Bool
  fsz : ℕ
  ptruncSize : ℕ
  /-- `fmi_ptrunc_clients` -/
  clients : List ℕ
  /-- references to the connection of each client -/
  refs : ℕ → ℤ
  recorded : ℕ → ℕ
  woken : ℕ → ℕ

namespace Ptrunc

def idle (workers : ℤ) (fsz : ℕ) : Ptrunc :=
  { work := .none, workers, inPtrunc := false, fsz, ptruncSize := 0, clients := [], refs := fun _ => 0,
    recorded := fun _ => 0, woken := fun _ => 0 }

def slmSetattrCore (size : ℕ) (s : Ptrunc) : Ptrunc :=
  if size ≠ 0 then
    { s with work := .prepare, workers := s.workers + 1, inPtrunc := true, ptruncSize := size }
  else s

def slmGetclcsvc (c : ℕ) (s : Ptrunc) : Ptrunc := { s with refs := update s.refs c (s.refs c + 1) }

def slCsvcDecref (c : ℕ) (s : Ptrunc) : Ptrunc := { s with refs := update s.refs c (s.refs c - 1) }

/-- `psc_dynarray_add` -/
def record (c : ℕ) (s : Ptrunc) : Ptrunc :=
  { s with clients := s.clients ++ [c], recorded := update s.recorded c (s.recorded c + 1) }

/-- The loop body of `slm_ptrunc_prepare`: the client, if connected; can it be asked? -/
def askLease (s : Ptrunc) : Option ℕ × Bool → Ptrunc
  | (none, _) => s
  | (some c, newreq) =>
    if c ∉ s.clients ∧ newreq then (s.slmGetclcsvc c).record c else (s.slmGetclcsvc c).slCsvcDecref c

/-- The start of `mds_bmap_load_cli`. -/
def mdsBmapLoadCli (bmapno c : ℕ) (s : Ptrunc) : Ptrunc :=
  if s.inPtrunc ∧ s.fsz / slashBmapSize ≤ bmapno then (s.slmGetclcsvc c).record c else s

/-- `newreq` says to which clients a request can be made. -/
def wakeLoop (newreq : ℕ → Bool) : List ℕ → Ptrunc → Ptrunc
  | [], s => { s with clients := [] }
  | c :: cs, s =>
    let woken := if newreq c then update s.woken c (s.woken c + 1) else s.woken
    wakeLoop newreq cs (slCsvcDecref c { s with woken })

variable (newreq : ℕ → Bool)

def slmPtruncWakeClients (s : Ptrunc) : Ptrunc :=
  let s := wakeLoop newreq s.clients s
  { s with workers := s.workers - 1 }

/-- FCMH_MDS_IN_PTRUNC is cleared, and the clients are woken. -/
def finish (s : Ptrunc) : Ptrunc := slmPtruncWakeClients newreq { s with work := .none, inPtrunc := false }

def slmPtruncApply (s : Ptrunc) : Ptrunc :=
  let s := if s.fsz % slashBmapSize ≠ 0 then { s with work := .crcs } else s.finish newreq
  { s with workers := s.workers - 1 }

/-- `slm_ptrunc_prepare`: queued again if there are leases to `wait` for. -/
def slmPtruncPrepare (leases : List (Option ℕ × Bool)) (wait : Bool) (s : Ptrunc) : Ptrunc :=
  if s.fsz ≤ s.ptruncSize then finish newreq { s with fsz := s.ptruncSize }
  else
    let s := leases.foldl askLease s
    if wait then s else slmPtruncApply newreq { s with fsz := s.ptruncSize }

/-- The end of `mds_bmap_crc_write` for SRM_BMAPCRCWRT_PTRUNC. -/
def mdsBmapCrcWrite (s : Ptrunc) : Ptrunc := finish newreq { s with workers := s.workers + 1 }

inductive Ev where
  | prepare (leases : List (Option ℕ × Bool)) (wait : Bool)
  | crcs
  | load (bmapno c : ℕ)

def step (s : Ptrunc) : Ev → Option Ptrunc
  | .prepare leases wait => if s.work = .prepare then some (s.slmPtruncPrepare newreq leases wait) else none
  | .crcs => if s.work = .crcs then some (s.mdsBmapCrcWrite newreq) else none
  | .load bmapno c => some (s.mdsBmapLoadCli bmapno c)

/-! ### The recorded clients -/

variable {newreq} {s t : Ptrunc}

/-- Each reference belongs to a recorded client, and none is woken. -/
def Recorded (s : Ptrunc) : Prop :=
  ∀ c, s.refs c = s.clients.count c ∧ s.recorded c = s.clients.count c ∧ s.woken c = 0

theorem Recorded.record (h : s.Recorded) (c : ℕ) : ((s.slmGetclcsvc c).record c).Recorded := by
  intro d
  obtain ⟨href, hrec, hwok⟩ := h d
  by_cases hd : d = c
  · subst hd
    simp [Ptrunc.record, slmGetclcsvc, href, hrec, hwok]
  · simp [Ptrunc.record, slmGetclcsvc, hd, Ne.symm hd, href, hrec, hwok]

theorem slCsvcDecref_slmGetclcsvc (c : ℕ) : (s.slmGetclcsvc c).slCsvcDecref c = s := by
  simp [slCsvcDecref, slmGetclcsvc]

/-- Recording clients changes nothing but the records. -/
structure Same (s t : Ptrunc) : Prop where
  recorded : s.Recorded → t.Recorded
  work : t.work = s.work
  workers : t.workers = s.workers
  inPtrunc : t.inPtrunc = s.inPtrunc
  fsz : t.fsz = s.fsz
  ptruncSize : t.ptruncSize = s.ptruncSize

theorem same_rfl : Same s s := ⟨id, rfl, rfl, rfl, rfl, rfl⟩

theorem same_record (c : ℕ) : Same s ((s.slmGetclcsvc c).record c) := ⟨fun h => h.record c, rfl, rfl, rfl, rfl, rfl⟩

theorem same_askLease (l : Option ℕ × Bool) : Same s (s.askLease l) := by
  obtain ⟨_ | c, ask⟩ := l
  · exact same_rfl
  rw [askLease]
  split_ifs
  · exact same_record c
  · rw [slCsvcDecref_slmGetclcsvc]
    exact same_rfl

theorem same_foldl : ∀ (ls : List (Option ℕ × Bool)) (s : Ptrunc), Same s (ls.foldl askLease s)
  | [], _ => same_rfl
  | l :: ls, s => by
    have hl := same_askLease (s := s) l
    have hls := same_foldl ls (s.askLease l)
    exact ⟨hls.recorded ∘ hl.recorded, hls.work.trans hl.work, hls.workers.trans hl.workers,
      hls.inPtrunc.trans hl.inPtrunc, hls.fsz.trans hl.fsz, hls.ptruncSize.trans hl.ptruncSize⟩

theorem same_load (bmapno c : ℕ) : Same s (s.mdsBmapLoadCli bmapno c) := by
  rw [mdsBmapLoadCli]
  split_ifs
  · exact same_record c
  · exact same_rfl

theorem wakeLoop_refs : ∀ (cs : List ℕ) (s : Ptrunc) (c : ℕ), (wakeLoop newreq cs s).refs c = s.refs c - cs.count c
  | [], s, c => by simp [wakeLoop]
  | d :: cs, s, c => by
    rw [wakeLoop, wakeLoop_refs cs]
    by_cases hd : c = d
    · subst hd
      simp only [slCsvcDecref, update_self, count_cons_self]
      omega
    · simp [slCsvcDecref, hd, Ne.symm hd]

theorem wakeLoop_woken : ∀ (cs : List ℕ) (s : Ptrunc) (c : ℕ),
    (wakeLoop newreq cs s).woken c = s.woken c + if newreq c then cs.count c else 0
  | [], s, c => by simp [wakeLoop]
  | d :: cs, s, c => by
    rw [wakeLoop, wakeLoop_woken cs]
    by_cases hd : c = d
    · subst hd
      simp only [slCsvcDecref, count_cons_self]
      cases newreq c with
      | false => rfl
      | true =>
        simp only [if_true, update_self]
        omega
    · simp only [slCsvcDecref, count_cons_of_ne (Ne.symm hd)]
      cases newreq d with
      | false => rfl
      | true => simp [hd]

theorem wakeLoop_frame : ∀ (cs : List ℕ) (s : Ptrunc), (wakeLoop newreq cs s).work = s.work ∧
    (wakeLoop newreq cs s).workers = s.workers ∧ (wakeLoop newreq cs s).inPtrunc = s.inPtrunc ∧
    (wakeLoop newreq cs s).recorded = s.recorded
  | [], _ => ⟨rfl, rfl, rfl, rfl⟩
  | _ :: cs, _ => wakeLoop_frame cs _

/-- The truncation is over, with `workers` references left. -/
structure Woken (newreq : ℕ → Bool) (workers : ℤ) (s : Ptrunc) : Prop where
  work : s.work = .none
  inPtrunc : s.inPtrunc = false
  workers : s.workers = workers
  refs : ∀ c, s.refs c = 0
  woken : ∀ c, s.woken c = if newreq c then s.recorded c else 0

theorem Recorded.finish (h : s.Recorded) : Woken newreq (s.workers - 1) (s.finish newreq) := by
  obtain ⟨hw, hn, hp, hrec⟩ := @wakeLoop_frame newreq s.clients { s with work := .none, inPtrunc := false }
  refine ⟨hw, hp, congrArg (· - 1) hn, fun c => ?_, fun c => ?_⟩
  · rw [Ptrunc.finish, slmPtruncWakeClients, wakeLoop_refs, (h c).1]
    exact Int.sub_self _
  · rw [Ptrunc.finish, slmPtruncWakeClients, wakeLoop_woken, (h c).2.2, Nat.zero_add, hrec, (h c).2.1]

/-- Not if whole bmaps are cut off. -/
def DropsOnce (fsz size : ℕ) : Prop := size = 0 ∨ fsz ≤ size ∨ size % slashBmapSize ≠ 0
  deriving Decidable

/-- What a truncation to `size` has reached. -/
inductive Inv (newreq : ℕ → Bool) (workers : ℤ) (fsz size : ℕ) (s : Ptrunc) : Prop where
  | prepare (hrec : s.Recorded) (hwork : s.work = .prepare) (hflag : s.inPtrunc) (hn : s.workers = workers + 1)
      (hfsz : s.fsz = fsz) (hsize : s.ptruncSize = size) (hpos : size ≠ 0)
  | crcs (hrec : s.Recorded) (hwork : s.work = .crcs) (hflag : s.inPtrunc) (hn : s.workers = workers)
      (hcut : size % slashBmapSize ≠ 0)
  | done (h : Woken newreq (if DropsOnce fsz size then workers else workers - 1) s)

variable {workers : ℤ} {fsz size : ℕ}

theorem inv_start : Inv newreq workers fsz size ((idle workers fsz).slmSetattrCore size) := by
  rw [slmSetattrCore]
  split_ifs with hpos
  · exact .prepare (fun c => ⟨rfl, rfl, rfl⟩) rfl rfl rfl rfl rfl hpos
  · have hdrop : DropsOnce fsz size := .inl (not_not.mp hpos)
    exact .done ⟨rfl, rfl, (if_pos hdrop).symm, fun c => rfl, fun c => (ite_self 0).symm⟩

theorem apply_inv (hrec : s.Recorded) (hflag : s.inPtrunc) (hn : s.workers = workers + 1) (hfsz : s.fsz = size)
    (hpos : size ≠ 0) (hlt : size < fsz) : Inv newreq workers fsz size (s.slmPtruncApply newreq) := by
  rw [slmPtruncApply, hfsz]
  split_ifs with hcut
  · refine .crcs hrec rfl hflag ?_ hcut
    simp only [hn, Int.add_sub_cancel]
  have hno : ¬ DropsOnce fsz size := by
    rintro (h | h | h)
    · exact hpos h
    · exact Nat.not_le_of_lt hlt h
    · exact hcut h
  -- waking the clients has dropped the reference already
  obtain ⟨hwork, hflag', hworkers, hrefs, hwoken⟩ := hrec.finish
  refine .done ⟨hwork, hflag', ?_, hrefs, hwoken⟩
  simp only [if_neg hno, hworkers, hn, Int.add_sub_cancel]

theorem prepare_inv {leases : List (Option ℕ × Bool)} {wait : Bool} (h : Inv newreq workers fsz size s)
    (hw : s.work = .prepare) : Inv newreq workers fsz size (s.slmPtruncPrepare newreq leases wait) := by
  cases h with
  | crcs hrec hwork => simp [hw] at hwork
  | done h => simp [h.work] at hw
  | prepare hrec hwork hflag hn hfsz hsize hpos =>
    rw [slmPtruncPrepare]
    split_ifs with hgrow hwait
    · rw [hfsz, hsize] at hgrow
      have hdrop : DropsOnce fsz size := .inr (.inl hgrow)
      refine .done ?_
      rw [if_pos hdrop, ← Int.add_sub_cancel workers 1, ← hn]
      exact Recorded.finish (s := { s with fsz := s.ptruncSize }) hrec
    · obtain ⟨hrec', hwork', hn', hflag', hfsz', hsize'⟩ := same_foldl leases s
      exact .prepare (hrec' hrec) (hwork'.trans hwork) (hflag'.trans hflag) (hn'.trans hn) (hfsz'.trans hfsz)
        (hsize'.trans hsize) hpos
    rw [hfsz, hsize] at hgrow
    obtain ⟨hrec', -, hn', hflag', -, hsize'⟩ := same_foldl leases s
    exact apply_inv (hrec' hrec) (hflag'.trans hflag) (hn'.trans hn) (hsize'.trans hsize) hpos
      (Nat.lt_of_not_le hgrow)

theorem crcs_inv (h : Inv newreq workers fsz size s) (hw : s.work = .crcs) :
    Inv newreq workers fsz size (s.mdsBmapCrcWrite newreq) := by
  cases h with
  | prepare hrec hwork => simp [hw] at hwork
  | done h => simp [h.work] at hw
  | crcs hrec hwork hflag hn hcut =>
    have hdrop : DropsOnce fsz size := .inr (.inr hcut)
    refine .done ?_
    rw [if_pos hdrop, ← hn, ← Int.add_sub_cancel s.workers 1]
    exact Recorded.finish (s := { s with workers := s.workers + 1 }) hrec

theorem load_inv {bmapno c : ℕ} (h : Inv newreq workers fsz size s) :
    Inv newreq workers fsz size (s.mdsBmapLoadCli bmapno c) := by
  obtain ⟨hrec', hwork', hn', hflag', hfsz', hsize'⟩ := same_load bmapno c
  cases h with
  | prepare hrec hwork hflag hn hfsz hsize hpos =>
    exact .prepare (hrec' hrec) (hwork'.trans hwork) (hflag'.trans hflag) (hn'.trans hn) (hfsz'.trans hfsz)
      (hsize'.trans hsize) hpos
  | crcs hrec hwork hflag hn hcut =>
    exact .crcs (hrec' hrec) (hwork'.trans hwork) (hflag'.trans hflag) (hn'.trans hn) hcut
  | done h =>
    have hno : ¬ (s.inPtrunc = true ∧ s.fsz / slashBmapSize ≤ bmapno) := by simp [h.inPtrunc]
    rw [mdsBmapLoadCli, if_neg hno]
    exact .done h

theorem step_inv {e : Ev} (h : Inv newreq workers fsz size s) (ht : step newreq s e = some t) :
    Inv newreq workers fsz size t := by
  cases e with
  | prepare =>
    obtain ⟨hw, rfl⟩ := ite_some_none_eq_some.mp ht
    exact prepare_inv h hw
  | crcs =>
    obtain ⟨hw, rfl⟩ := ite_some_none_eq_some.mp ht
    exact crcs_inv h hw
  | load =>
    cases ht
    exact load_inv h

/-- References and clients are done with once. -/
def Settled (workers : ℤ) (s : Ptrunc) : Prop :=
  s.workers = workers ∧ (∀ c, s.recorded c ≠ 0 → s.woken c = 1) ∧ ∀ c, s.refs c = 0

/-- **A truncation is settled** exactly if it does not end between bmaps, and clients are recorded once and can be
woken. -/
theorem ptrunc_settled_iff {es : List Ev}
    (hrun : run (step newreq) ((idle workers fsz).slmSetattrCore size) es = some s) (hover : s.inPtrunc = false) :
    s.Settled workers ↔ DropsOnce fsz size ∧ ∀ c, s.recorded c ≠ 0 → newreq c = true ∧ s.recorded c = 1 := by
  have hinv : Inv newreq workers fsz size s := run_keeps step_inv inv_start hrun
  cases hinv with
  | prepare _ _ hflag => simp [hover] at hflag
  | crcs _ _ hflag => simp [hover] at hflag
  | done h =>
    have hdrop : s.workers = workers ↔ DropsOnce fsz size := by
      rw [h.workers]
      split_ifs with hd
      · exact iff_of_true rfl hd
      · exact iff_of_false (by omega) hd
    have hwake (c : ℕ) : s.woken c = 1 ↔ newreq c = true ∧ s.recorded c = 1 := by
      rw [h.woken c]
      cases newreq c <;> simp
    simp only [Settled, hdrop, hwake, h.refs, implies_true, and_true]

/-- A client is asked twice, and woken with the CRCs. -/
theorem ptrunc_settled_cut :
    ∃ s, run (step fun _ => true) ((idle 0 (slashBmapSize + 2)).slmSetattrCore (slashBmapSize + 1))
      [.prepare [(some 7, true)] true, .prepare [(some 7, true)] false, .crcs] = some s ∧ s.Settled 0 := by
  have hrun : run (step fun _ => true) ((idle 0 (slashBmapSize + 2)).slmSetattrCore (slashBmapSize + 1))
      [.prepare [(some 7, true)] true, .prepare [(some 7, true)] false, .crcs] = some _ := rfl
  refine ⟨_, hrun, (ptrunc_settled_iff hrun rfl).mpr ⟨by decide, fun c hc => ⟨rfl, ?_⟩⟩⟩
  by_cases h7 : c = 7
  · subst h7
    rfl
  · exact absurd (update_of_ne h7 _ _) hc

/-- **Between bmaps** the reference is lost twice. -/
theorem ptrunc_dropped_twice :
    (run (step fun _ => true) ((idle 0 (slashBmapSize + 2)).slmSetattrCore slashBmapSize) [.prepare [] false]).map
      (fun s => (s.inPtrunc, s.workers)) = some (false, -1) := by
  decide

end Ptrunc

end Slash2.Residency
