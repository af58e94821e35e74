/-
# Requests for leases

What the metadata server does for a client that asks for a lease on a bmap, renews,
upgrades, moves or gives it up, and what the timeout thread and the callbacks do. A
handler that looks up a lease holds a reference on it until it releases it; between
the two other handlers may run. What a handler does while the bmap is locked or
`BMAPF_IOSASSIGNED` keeps other lease operations out is one event.

Key theorems: `step_cases`, `step_sound`.
-/
import Slash2.Lease.Booked

namespace Slash2.Lease

open Lib Option

/-! ### The handlers -/

/-- What a client learns from `struct srt_bmapdesc`. -/
structure Bmapdesc where
  seq : ℕ
  ios : ℕ
  /-- `SRM_LEASEBMAPF_DIO` -/
  dio : Bool

def slmFillBmapdesc (sbd : Bmapdesc) (b : Bmap) : Bmapdesc := { sbd with dio := sbd.dio || b.dio }

variable (b : Bmap)

/-- `sbd_ios` of a write lease, from `bmi_assign` and `bmi_wr_ion`. -/
def writeIos : Option ℕ := if b.assign.isNone then none else b.wrIon

/-- `sbd_ios` of a lease. -/
def sbdIos (rw : Rw) (b : Bmap) : Option ℕ :=
  match rw with
  | .write => writeIos b
  | .read => some iosIdAny

def Bml.failed (rc : ℤ) (m : Bml) : Bml :=
  { m with freeing := true, assfail := m.assfail || rc = -slerrIonOffline }

def Bml.agreed (m : Bml) : Bml := { m with dio := true, diocb := false }

def Bml.unrecovered (m : Bml) : Bml := { m with freeing := true, recoverfail := true }

def mdsBmapLoadCli (cnp : Nidpid) (rw : Rw) (dio : Bool) (e : Env) (b : Bmap) : Option (Bmap × Except ℤ Bmapdesc) :=
  (mdsBmapBmlAdd e b.next (mdsBmlNew cnp rw dio b)).bind fun x =>
    if x.2 ≠ 0 then
      (mdsBmapBmlRelease b.next (x.1.modify b.next (Bml.failed x.2))).map fun b' =>
        (b', .error x.2)
    else
      (sbdIos rw x.1).bind fun ios => (mdsBmapBmlRelease b.next x.1).map fun b' =>
        (b', .ok (slmFillBmapdesc ⟨(x.1.bml b.next).seq, ios, false⟩ x.1))

/-- `slm_rmc_handle_bmap_chwrmode` between `mds_bmap_getbml` and the release; the reply copies `dio`. -/
def slmRmcHandleBmapChwrmode (l : ℕ) (e : Env) (dio : Bool) (b : Bmap) : Option (Bmap × Except ℤ Bmapdesc) :=
  (mdsBmapBmlChwrmode e l b).bind fun x =>
    if x.2.getD 0 ≠ 0 then some (x.1, .error (x.2.getD 0))
    else (writeIos x.1).map fun ios => (x.1, .ok ⟨(x.1.bml l).seq, ios, dio⟩)

/-- The end of `mds_lease_reassign`, which leaves `bmi_wr_ion`. -/
def moveLease (l : ℕ) (e : Env) (r : ℕ) (bia : Bia) (b : Bmap) : Bmap :=
  { b.modify l fun m => { m with seq := e.seq, ios := r } with
    seq := e.seq
    assign := some { bia with seq := e.seq, lastcli := (b.bml l).cnp, ios := r } }

/-- `mds_lease_reassign` between `mds_bmap_getbml` and the release. -/
def mdsLeaseReassign (l : ℕ) (e : Env) (b : Bmap) : Option (Bmap × Except ℤ Bmapdesc) :=
  if ¬ (b.bml l).write then some (b, .error (-einval))
  else if b.writers > 1 ∨ b.readers ≠ 0 then some (b, .error (-eagain))
  else if b.wrIon.isNone ∨ b.dio then none
  else b.assign.bind fun bia =>
    if bia.seq ≠ b.seq then none
    else match e.resm with
      | none => some (b, .error (-slerrIonOffline))
      | some r =>
        if e.addRepl ≠ 0 then some (b, .error e.addRepl)
        else some (moveLease l e r bia b, .ok (slmFillBmapdesc ⟨e.seq, r, false⟩ b))

/-- `slmcoh_releasebml` up to the release. -/
def slmcohReleasebml (seq : ℕ) (cnp : Nidpid) (b : Bmap) : Option (Bmap × Option ℕ) :=
  (mdsBmapGetbml b seq cnp).map fun x =>
    match x.2 with
    | none => (x.1, none)
    | some l => (x.1.modify l Bml.agreed, some l)

/-- `mds_bia_odtable_startup_cb` for an entry of the bmap. -/
def mdsBiaOdtableStartupCb (bia : Bia) (e : Env) (b : Bmap) : Option Bmap :=
  (mdsBmapBmlAdd e b.next ((b.found bia).push (recoveredBml bia))).bind fun x =>
    if x.2 ≠ 0 then mdsBmapBmlRelease b.next (x.1.unassign.modify b.next Bml.unrecovered)
    else mdsBmapBmlRelease b.next x.1

def Env.fine : Env := ⟨some 9, true, 0, 5, false⟩

inductive Event where
  | lease (cnp : Nidpid) (rw : Rw) (dio : Bool) (e : Env)
  | getbml (seq : ℕ) (cnp : Nidpid)
  | ack (seq : ℕ) (cnp : Nidpid)
  | upgrade (l : ℕ) (e : Env) (dio : Bool)
  | reassign (l : ℕ) (e : Env)
  | free (l : ℕ)
  | release (l : ℕ)

/-- The caller is valid, and holds a reference of the lease. -/
def Enabled : Event → Prop
  | .lease cnp _ _ _ => cnp.valid
  | .getbml _ _ => True
  | .ack seq cnp => (cnp, seq) ∈ b.cbs
  | .upgrade l _ _ => (b.bml l).bmi ∧ (b.bml l).refcnt > 0
  | .reassign l _ => (b.bml l).bmi ∧ (b.bml l).refcnt > 0
  | .free l => (b.bml l).bmi
  | .release l => (b.bml l).bmi ∧ ((b.bml l).refcnt > 0 ∨ (b.bml l).freeing)

instance (ev : Event) : Decidable (Enabled b ev) := by
  cases ev <;> unfold Enabled <;> infer_instance

def granted : Except ℤ Bmapdesc → Option Bmapdesc
  | .ok sbd => some sbd
  | .error _ => none

def handle : Event → Option (Bmap × Option Bmapdesc)
  | .lease cnp rw dio e => (mdsBmapLoadCli cnp rw dio e b).map fun x => (x.1, granted x.2)
  | .getbml seq cnp => (mdsBmapGetbml b seq cnp).map fun x => (x.1, none)
  | .ack seq cnp => (slmcohReleasebml seq cnp b).map fun x => (x.1, none)
  | .upgrade l e dio => (slmRmcHandleBmapChwrmode l e dio b).map fun x => (x.1, granted x.2)
  | .reassign l e => (mdsLeaseReassign l e b).map fun x => (x.1, granted x.2)
  | .free l => some (b.modify l fun m => { m with freeing := true }, none)
  | .release l => (mdsBmapBmlRelease l b).map fun b => (b, none)

def step (ev : Event) : Option Bmap :=
  if Enabled b ev then (handle b ev).map Prod.fst else none

/-- Without leases, or as recovered. -/
inductive Start : Bmap → Prop
  | unleased (fid bmapno : ℕ) : Start (unleased fid bmapno)
  | recovered (bia : Bia) (e : Env) {b : Bmap}
      (h : mdsBiaOdtableStartupCb bia e (unleased bia.fid bia.bmapno) = some b) : Start b

/-! ### The chains -/

theorem push_self (m : Bml) : (b.push m).bml b.next = m := Function.update_self ..

variable {b} {b' : Bmap} {e : Env} {r : Except ℤ Bmapdesc} {dio : Bool} {ev : Event}

theorem push_fresh {m : Bml} (hbmi : m.bmi = false) (hch : m.chained = false)
    (hm : m.read = !m.write) : Fresh (b.push m) b.next where
  bound := Nat.lt_succ_self _
  bmi := by rw [push_self, hbmi]
  chained := by rw [push_self, hch]
  mode := by rw [push_self, hm]

theorem mdsBmlNew_fresh (cnp : Nidpid) (rw' : Rw) (dio : Bool) (b : Bmap) : Fresh (mdsBmlNew cnp rw' dio b) b.next := by
  refine push_fresh rfl rfl ?_
  cases rw' <;> rfl

variable {cnp : Nidpid} {rw' : Rw}

theorem mdsBmapLoadCli_cases (h : mdsBmapLoadCli cnp rw' dio e b = some (b', r)) :
    ∃ b₁ rc, mdsBmapBmlAdd e b.next (mdsBmlNew cnp rw' dio b) = some (b₁, rc) ∧ ((rc ≠ 0 ∧ r = .error rc ∧
          mdsBmapBmlRelease b.next (b₁.modify b.next (Bml.failed rc)) = some b') ∨
       (rc = 0 ∧ mdsBmapBmlRelease b.next b₁ = some b' ∧ ∃ ios, (rw' = .write → writeIos b₁ = some ios) ∧
          r = .ok (slmFillBmapdesc ⟨(b₁.bml b.next).seq, ios, false⟩ b₁))) := by
  obtain ⟨⟨b₁, rc⟩, hadd, h⟩ := bind_eq_some_iff.mp h
  refine ⟨b₁, rc, hadd, ?_⟩
  split at h
  case isTrue hrc =>
    obtain ⟨b₂, hrel, h⟩ := map_eq_some_iff.mp h
    cases h
    exact .inl ⟨hrc, rfl, hrel⟩
  case isFalse hrc =>
    obtain ⟨ios, hios, h⟩ := bind_eq_some_iff.mp h
    obtain ⟨b₂, hrel, h⟩ := map_eq_some_iff.mp h
    cases h
    refine .inr ⟨not_not.mp hrc, hrel, ios, fun hw => ?_, rfl⟩
    subst hw
    exact hios

theorem mdsBmapLoadCli_sound (hs : Sound b) (h : mdsBmapLoadCli cnp rw' dio e b = some (b', r)) : Sound b' := by
  obtain ⟨b₁, rc, hadd, hend⟩ := mdsBmapLoadCli_cases h
  have hs₁ := mdsBmapBmlAdd_sound (mdsBmlNew_sound hs cnp rw' dio) (mdsBmlNew_fresh cnp rw' dio b) hadd
  rcases hend with ⟨-, -, hrel⟩ | ⟨-, hrel, -⟩
  · exact mdsBmapBmlRelease_sound (hs₁.modify _ (Bml.failed rc)) hrel
  · exact mdsBmapBmlRelease_sound hs₁ hrel

theorem slmRmcHandleBmapChwrmode_cases {l : ℕ} (h : slmRmcHandleBmapChwrmode l e dio b = some (b', r)) :
    ∃ rc, mdsBmapBmlChwrmode e l b = some (b', rc) ∧ ((rc.getD 0 ≠ 0 ∧ r = .error (rc.getD 0)) ∨
       (rc.getD 0 = 0 ∧ ∃ ios, writeIos b' = some ios ∧ r = .ok ⟨(b'.bml l).seq, ios, dio⟩)) := by
  obtain ⟨⟨b₁, rc⟩, hch, h⟩ := bind_eq_some_iff.mp h
  split at h
  case isTrue hrc =>
    cases h
    exact ⟨rc, hch, .inl ⟨hrc, rfl⟩⟩
  case isFalse hrc =>
    obtain ⟨ios, hios, h⟩ := map_eq_some_iff.mp h
    cases h
    exact ⟨rc, hch, .inr ⟨not_not.mp hrc, ios, hios, rfl⟩⟩

theorem mdsLeaseReassign_cases {l : ℕ} (h : mdsLeaseReassign l e b = some (b', r)) :
    (b' = b ∧ granted r = none) ∨ ∃ bia r', (b.bml l).write ∧ b.writers ≤ 1 ∧ b.readers = 0 ∧
      b.assign = some bia ∧ bia.seq = b.seq ∧ e.resm = some r' ∧ e.addRepl = 0 ∧
      b' = moveLease l e r' bia b ∧ r = .ok (slmFillBmapdesc ⟨e.seq, r', false⟩ b) := by
  unfold mdsLeaseReassign at h
  split at h
  · cases h
    exact .inl ⟨rfl, rfl⟩
  next hw =>
  split at h
  · cases h
    exact .inl ⟨rfl, rfl⟩
  next hcl =>
  obtain ⟨-, h⟩ := ite_none_left_eq_some.mp h
  obtain ⟨bia, hbia, h⟩ := bind_eq_some_iff.mp h
  obtain ⟨hseq, h⟩ := ite_none_left_eq_some.mp h
  split at h
  · cases h
    exact .inl ⟨rfl, rfl⟩
  next r' hr' =>
  split at h
  · cases h
    exact .inl ⟨rfl, rfl⟩
  next hrepl =>
  cases h
  have hcl' := not_or.mp hcl
  exact .inr ⟨bia, r', not_not.mp hw, Int.not_lt.mp hcl'.1, not_not.mp hcl'.2, hbia,
    not_not.mp hseq, hr', not_not.mp hrepl, rfl, rfl⟩

inductive Handled (b : Bmap) : Event → Bmap → Option Bmapdesc → Prop
  | lease {cnp rw dio e b' r} (h : mdsBmapLoadCli cnp rw dio e b = some (b', r)) :
      Handled b (.lease cnp rw dio e) b' (granted r)
  | getbml {seq cnp b' r} (h : mdsBmapGetbml b seq cnp = some (b', r)) :
      Handled b (.getbml seq cnp) b' none
  | lost {seq cnp b'} (h : mdsBmapGetbml b seq cnp = some (b', none)) :
      Handled b (.ack seq cnp) b' none
  | acked {seq cnp b' l} (h : mdsBmapGetbml b seq cnp = some (b', some l)) :
      Handled b (.ack seq cnp) (b'.modify l Bml.agreed) none
  | upgrade {l e dio b' r} (h : slmRmcHandleBmapChwrmode l e dio b = some (b', r)) :
      Handled b (.upgrade l e dio) b' (granted r)
  | reassign {l e b' r} (h : mdsLeaseReassign l e b = some (b', r)) :
      Handled b (.reassign l e) b' (granted r)
  | free {l} : Handled b (.free l) (b.modify l fun m => { m with freeing := true }) none
  | release {l b'} (h : mdsBmapBmlRelease l b = some b') : Handled b (.release l) b' none

theorem handled {sbd : Option Bmapdesc} (h : handle b ev = some (b', sbd)) : Handled b ev b' sbd := by
  cases ev with
  | lease cnp rw' dio e =>
    obtain ⟨x, hx, ⟨⟩⟩ := map_eq_some_iff.mp h
    exact .lease hx
  | getbml seq cnp =>
    obtain ⟨x, hx, ⟨⟩⟩ := map_eq_some_iff.mp h
    exact .getbml hx
  | ack seq cnp =>
    obtain ⟨x, hx, ⟨⟩⟩ := map_eq_some_iff.mp h
    obtain ⟨⟨b₀, found⟩, hget, rfl⟩ := map_eq_some_iff.mp hx
    cases found with
    | none => exact .lost hget
    | some l => exact .acked hget
  | upgrade l e dio =>
    obtain ⟨x, hx, ⟨⟩⟩ := map_eq_some_iff.mp h
    exact .upgrade hx
  | reassign l e =>
    obtain ⟨x, hx, ⟨⟩⟩ := map_eq_some_iff.mp h
    exact .reassign hx
  | free l =>
    cases h
    exact .free
  | release l =>
    obtain ⟨x, hx, ⟨⟩⟩ := map_eq_some_iff.mp h
    exact .release hx

theorem step_cases (h : step b ev = some b') : Enabled b ev ∧ ∃ sbd, Handled b ev b' sbd := by
  obtain ⟨hen, h⟩ := ite_none_right_eq_some.mp h
  obtain ⟨⟨b₁, sbd⟩, hd, rfl⟩ := map_eq_some_iff.mp h
  exact ⟨hen, sbd, handled hd⟩

theorem moveLease_sound (hs : Sound b) (l : ℕ) (e : Env) (r : ℕ) (bia : Bia) : Sound (moveLease l e r bia b) := by
  have hs' := hs.modify l (fun m => { m with seq := e.seq, ios := r })
  exact hs'.of_book rfl fun _ => rfl

theorem step_sound (hs : Sound b) (h : step b ev = some b') : Sound b' := by
  obtain ⟨hen, sbd, hd⟩ := step_cases h
  cases hd with
  | lease h => exact mdsBmapLoadCli_sound hs h
  | getbml h => exact mdsBmapGetbml_sound hs h
  | lost h => exact mdsBmapGetbml_sound hs h
  | acked hget => exact (mdsBmapGetbml_sound hs hget).modify _ _
  | upgrade h =>
    obtain ⟨rc, hch, -⟩ := slmRmcHandleBmapChwrmode_cases h
    exact mdsBmapBmlChwrmode_sound hs hen.1 hch
  | reassign h =>
    rcases mdsLeaseReassign_cases h with ⟨rfl, -⟩ | ⟨bia, r', -, -, -, -, -, -, -, rfl, -⟩
    · exact hs
    · exact moveLease_sound hs ..
  | free => exact hs.modify _ _
  | release h => exact mdsBmapBmlRelease_sound hs h

end Slash2.Lease
