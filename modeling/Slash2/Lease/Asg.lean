/-
# The assignment of a server

The fields of a bmap that say which server writes go to, `Asg`, apart from the rest:
what leaves them alone, what choosing and keeping a server does to them, and how the
release of a lease ends them. An assignment is `Vacant` or `Held`; whether it should
be is decided by the write leases (`HasWriter`, `OtherWriter`), which the counter
`bmi_writers` counts by client.

Key theorem: `mdsBmapBmlRelease_freed`.
-/
import Slash2.Lease.Handlers

namespace Slash2.Lease

open Lib Option Function

/-! ### What does not touch the assignment -/

structure Asg where
  fid : ℕ
  bmapno : ℕ
  noion : Bool
  wrIon : Option ℕ
  assign : Option Bia
  seq : ℕ

def Bmap.asg (b : Bmap) : Asg := ⟨b.fid, b.bmapno, b.noion, b.wrIon, b.assign, b.seq⟩

variable {b b' : Bmap} {l : ℕ} {rc : ℤ} {e : Env} {bia : Bia}

theorem mdsBmapDirectio_asg {rw' : Rw} {want : Bool} {np : Nidpid}
    (h : mdsBmapDirectio b rw' want np = some (b', rc)) : b'.asg = b.asg := by
  obtain ⟨g, p, q, cbs, rfl⟩ := mdsBmapDirectio_marked h
  rfl

theorem attach_asg {d : Dupls} (h : attach l d b = some b') : b'.asg = b.asg := by
  obtain ⟨-, -, rfl⟩ := attach_eq h
  rfl

theorem Counted.asg (h : Counted b b') : b'.asg = b.asg := by
  obtain ⟨w, r, rfl⟩ := h
  rfl

theorem mdsBmapBmlDelLocked_asg (h : mdsBmapBmlDelLocked l b = some b') : b'.asg = b.asg := by
  obtain ⟨-, -, w, r, rfl⟩ := mdsBmapBmlDelLocked_eq h
  rfl

theorem clearDio_asg (b : Bmap) : (clearDio b).asg = b.asg := by
  unfold clearDio
  split <;> rfl

def Asg.Vacant (a : Asg) : Prop := a.wrIon = none ∧ a.assign = none

structure Asg.Held (a : Asg) : Prop where
  noion : a.noion = false
  wrIon : a.wrIon.isSome
  entry : ∃ bia, a.assign = some bia ∧ bia.fid = a.fid ∧ bia.bmapno = a.bmapno ∧ bia.seq = a.seq

theorem Asg.Held.not_vacant {a : Asg} (h : a.Held) : ¬ a.Vacant := fun hv => by
  have := h.wrIon
  rw [hv.1] at this
  cases this

theorem mdsBmapIosAssign_asg (h : mdsBmapIosAssign e l b = some (b', rc)) : b.asg.Vacant ∧
    ((e.resm = none ∧ rc = -slerrIonOffline ∧ b'.asg = { b.asg with noion := true }) ∨
     (e.resm.isSome ∧ e.slot = false ∧ rc = -enomem ∧ b'.noion = true ∧ b'.wrIon.isSome) ∨
     (e.resm.isSome ∧ e.slot = true ∧ b'.asg.Held ∧ (b'.bml l).assfail = (b.bml l).assfail ∧
       rc = if e.addRepl ≠ 0 then -1 else 0)) := by
  obtain ⟨hv, h⟩ := ite_none_left_eq_some.mp h
  have hv' := not_or.mp hv
  refine ⟨⟨not_isSome_iff_eq_none.mp hv'.1, not_isSome_iff_eq_none.mp hv'.2⟩, ?_⟩
  split at h
  · next hr =>
    cases h
    exact .inl ⟨hr, rfl, rfl⟩
  next r hr =>
  have hassign : (assignTo e l r b).asg.Held := ⟨rfl, rfl, _, rfl, rfl, rfl, rfl⟩
  have hlease : ((assignTo e l r b).bml l).assfail = (b.bml l).assfail := by
    rw [show (assignTo e l r b).bml l = _ from update_self ..]
  have hsome : e.resm.isSome := by rw [hr]; rfl
  split at h
  · next hslot =>
    refine .inr (.inr ⟨hsome, hslot, ?_⟩)
    split at h <;> cases h
    · rename_i hrepl
      exact ⟨hassign, hlease, (if_pos hrepl).symm⟩
    rename_i hrepl
    refine ⟨hassign, ?_, (if_neg hrepl).symm⟩
    rw [modify_bml]
    exact hlease
  · next hslot =>
    cases h
    exact .inr (.inl ⟨hsome, by simpa using hslot, rfl, rfl, rfl⟩)

theorem mdsBmapIosUpdate_asg (hb : b.asg.Held) (h : mdsBmapIosUpdate e l b = some (b', rc)) :
    b'.asg.Held ∧ rc = e.addRepl := by
  obtain ⟨bia, hbia, hfid, hno, hseq⟩ := hb.entry
  unfold mdsBmapIosUpdate at h
  rw [show b.assign = some bia from hbia] at h
  simp only [show ¬ bia.fid ≠ b.fid from not_not.mpr hfid, if_false,
    show ¬ bia.seq ≠ b.seq from not_not.mpr hseq] at h
  cases h
  exact ⟨⟨hb.noion, hb.wrIon, _, rfl, hfid, hno, rfl⟩, rfl⟩

/-! ### A recovered lease -/

variable {b₁ : Bmap}

theorem mdsBmapBmlAdd_recovered (hl : b.bml l = recoveredBml bia) (hadd : mdsBmapBmlAdd e l b = some (b₁, rc)) :
    ((b₁.bml l).bmi = false ∧ rc ≠ 0 ∧ b₁.asg = b.asg) ∨
    ((b₁.bml l).bmi ∧ (b₁.bml l).assfail = false ∧ (b₁.bml l).ios = bia.ios ∧
      b₁.asg = { b.asg with wrIon := some bia.ios, seq := bia.seq }) := by
  rcases mdsBmapBmlAdd_cases hadd with ⟨hrc, hdio⟩ | ⟨b₀, rc₀, d, b₂, hdio, -, -, hatt, hmode⟩
  · have hbmi : (b₁.book.link l).bmi = false := by
      rw [mdsBmapDirectio_book hdio]
      exact congrArg Link.bmi (congrArg Bml.toLink hl)
    exact .inl ⟨hbmi, hrc, mdsBmapDirectio_asg hdio⟩
  obtain ⟨g, a, c, dcb, hb₂⟩ := placed_of_attach hdio hatt
  rw [hl] at hb₂
  rcases hmode with ⟨-, hassign⟩ | ⟨hw, -, -⟩
  · have hasg : (countWriter d b₂).asg = b.asg := (countWriter_counted d b₂).asg.trans
      ((attach_asg hatt).trans (mdsBmapDirectio_asg hdio))
    have hbml : (countWriter d b₂).bml l = _ := (congrFun (countWriter_counted d b₂).bml l).trans hb₂
    have hbmi : (b₁.book.link l).bmi := by
      rw [(addAssign_reassigned hassign).book, countWriter_book]
      exact attach_bmi hatt
    unfold addAssign at hassign
    rw [if_pos (by rw [hbml]; rfl)] at hassign
    obtain ⟨-, hassign⟩ := ite_none_right_eq_some.mp hassign
    obtain ⟨-, hassign⟩ := ite_none_left_eq_some.mp hassign
    cases hassign
    refine .inr ⟨hbmi, ?_, ?_, ?_⟩
    · rw [hbml]
      rfl
    · rw [hbml]
      rfl
    · rw [← hasg]
      rw [hbml]
      rfl
  · rw [hl] at hw
    cases hw

/-- No lease is attached but `l`. -/
structure Sole (b : Bmap) (l : ℕ) : Prop where
  sound : Sound b
  others : ∀ x, x ≠ l → (b.bml x).bmi = false

theorem Sole.of_elsewhere (h : Sole b l) (hs' : Sound b') (he : Elsewhere l b b') : Sole b' l := by
  refine ⟨hs', fun x hx => ?_⟩
  obtain ⟨g, c, d, hb, -⟩ := he.near x hx
  rw [hb]
  exact h.others x hx

theorem mdsBiaOdtableStartupCb_cases (hs : Sound b) (hnone : ∀ x, (b.bml x).bmi = false)
    (h : mdsBiaOdtableStartupCb bia e b = some b') :
    ∃ b₁ rc, mdsBmapBmlAdd e b.next ((b.found bia).push (recoveredBml bia)) = some (b₁, rc) ∧
      Sole b₁ b.next ∧ Kin (recoveredBml bia) (b₁.bml b.next) ∧
      ((rc ≠ 0 ∧ mdsBmapBmlRelease b.next (b₁.unassign.modify b.next Bml.unrecovered) = some b') ∨
       (rc = 0 ∧ mdsBmapBmlRelease b.next b₁ = some b')) := by
  obtain ⟨⟨b₁, rc⟩, hadd, hrel⟩ := bind_eq_some_iff.mp h
  have hpush : ((b.found bia).push (recoveredBml bia)).bml b.next = recoveredBml bia :=
    push_self (b.found bia) _
  have hsole : Sole ((b.found bia).push (recoveredBml bia)) b.next := ⟨recovered_sound hs bia, fun x hx => by
      rw [show ((b.found bia).push (recoveredBml bia)).bml x = b.bml x from
        update_of_ne hx ..]
      exact hnone x⟩
  have hs₁ := mdsBmapBmlAdd_sound hsole.sound (push_fresh rfl rfl rfl) hadd
  refine ⟨b₁, rc, hadd, hsole.of_elsewhere hs₁ (mdsBmapBmlAdd_moves hadd).toElsewhere, hpush ▸ (mdsBmapBmlAdd_moves hadd).kin, ?_⟩
  split at hrel
  · next hrc => exact .inl ⟨hrc, hrel⟩
  · next hrc => exact .inr ⟨not_not.mp hrc, hrel⟩

theorem unrecovered_self (hkin : Kin (recoveredBml bia) (b.bml l)) :
    (b.unassign.modify l Bml.unrecovered).bml l = Bml.unrecovered (b.bml l) ∧
      ((b.unassign.modify l Bml.unrecovered).bml l).freeing ∧
      ((b.unassign.modify l Bml.unrecovered).bml l).refcnt ≤ 1 := by
  have hself : (b.unassign.modify l Bml.unrecovered).bml l = Bml.unrecovered (b.bml l) := update_self ..
  obtain ⟨g, a, c, d, i, s, f, hl⟩ := hkin
  rw [hself, hl]
  exact ⟨rfl, rfl, Int.le_refl 1⟩

theorem Sole.unrecovered (h : Sole b l) : Sole (b.unassign.modify l Bml.unrecovered) l := by
  have hs : Sound b.unassign := h.sound.of_book rfl fun _ => rfl
  exact h.of_elsewhere (hs.modify l Bml.unrecovered) (Elsewhere.of_other rfl fun _ hx => update_of_ne hx ..)

/-! ### Writers -/

/-- There is a write lease besides `l`. -/
def OtherWriter (b : Bmap) (l : ℕ) : Prop := ∃ x ∈ b.attached, x ≠ l ∧ (b.bml x).write

theorem hasWriter_of_book (h : b'.book = b.book) : HasWriter b' ↔ HasWriter b := by
  have hlink (x : ℕ) : (b'.bml x).toLink = (b.bml x).toLink := congrFun (congrArg Book.link h) x
  simp only [HasWriter, hlink]

theorem hasWriter_modify (b : Bmap) (l : ℕ) (f : Bml → Bml) (hf : ∀ m, (f m).toLink = m.toLink) :
    HasWriter (b.modify l f) ↔ HasWriter b :=
  hasWriter_of_book (book_modify_same b l f hf)

theorem Elsewhere.otherWriter (h : Elsewhere l b b') (hs : Sound b) (hs' : Sound b') :
    OtherWriter b' l ↔ OtherWriter b l := by
  refine exists_congr fun x => ?_
  rw [hs.mem_attached, hs'.mem_attached]
  by_cases hx : x = l
  · simp [hx]
  · obtain ⟨g, c, d, hb, -⟩ := h.near x hx
    rw [hb]

theorem Sound.hasWriter_iff (h : Sound b) (l : ℕ) :
    HasWriter b ↔ OtherWriter b l ∨ ((b.bml l).bmi ∧ (b.bml l).write) := by
  constructor
  · rintro ⟨x, hx, hw⟩
    by_cases hxl : x = l
    · exact .inr ⟨hxl ▸ hx, hxl ▸ hw⟩
    · exact .inl ⟨x, h.mem_attached.mpr hx, hxl, hw⟩
  · rintro (⟨x, hx, -, hw⟩ | hl)
    · exact ⟨x, h.mem_attached.mp hx, hw⟩
    · exact ⟨l, hl⟩

theorem releaseAssign_held {m : Bml} (h : b.asg.Held) (ha : m.assfail = false)
    (hr : m.recoverfail = false) : ∃ b', releaseAssign m b = some b' ∧ b'.asg.Vacant := by
  obtain ⟨bia, hbia, -, hno, hseq⟩ := h.entry
  refine ⟨{ b with assign := none, wrIon := none }, ?_, rfl, rfl⟩
  have hok : ¬ (bia.seq ≠ b.seq ∨ bia.bmapno ≠ b.bmapno ∨ b.wrIon.isNone = true) := by
    have hsome : b.wrIon.isSome := h.wrIon
    have hion : b.wrIon.isNone = false := by simpa using hsome
    rintro (h | h | h)
    · exact h hseq
    · exact h hno
    · simp [hion] at h
  unfold releaseAssign
  rw [show b.noion = false from h.noion, show b.assign = some bia from hbia, ha, hr]
  simp only [Bool.false_eq_true, if_false, if_neg hok]

theorem releaseAssign_noion {m : Bml} (h : b.asg.Vacant) (hn : b.noion) : releaseAssign m b = some b := by
  unfold releaseAssign
  rw [hn, show b.wrIon = none from h.1, show b.assign = none from h.2]
  rfl

theorem freed_writers (hs : Sound b) (hl : (b.bml l).bmi)
    (hdel : mdsBmapBmlDelLocked l b = some b₁) : (clearDio (detach l b₁)).asg = b.asg ∧
      ((clearDio (detach l b₁)).writers = 0 ↔ ¬ OtherWriter b l) := by
  have hasg : b₁.asg = b.asg := mdsBmapBmlDelLocked_asg hdel
  refine ⟨(clearDio_asg (detach l b₁)).trans hasg, ?_⟩
  obtain ⟨L, hR⟩ := hs.rings
  obtain ⟨b₂, L', hdel', hR'⟩ := mdsBmapBmlDelLocked_rings hR hl
  obtain rfl : b₁ = b₂ := some.inj (hdel.symm.trans hdel')
  have hw : (clearDio (detach l b₁)).writers = (detach l b₁).writers :=
    congrArg Book.writers (clearDio_book _)
  rw [hw, show (detach l b₁).writers = 0 ↔ _ from hR'.writers_eq_zero]
  refine not_congr (exists_congr fun x => ?_)
  rw [hs.mem_attached]
  by_cases hx : x = l
  · subst hx
    have hoff : ((detach x b₁).bml x).bmi = false := by
      rw [show (detach x b₁).bml x = _ from update_self ..]
    simp [Bmap.book, hoff]
  obtain ⟨g, c, d, hb, -⟩ := ((mdsBmapBmlDelLocked_elsewhere hdel).trans
    (elsewhere_modify l b₁ fun m => { m with bmi := false })).near x hx
  show ((detach l b₁).bml x).bmi = true ∧ ((detach l b₁).bml x).write = true ↔ _
  rw [show (detach l b₁).bml x = _ from hb]
  simp [hx]

/-- The release of the last write lease `l` ends the assignment. -/
def Quits (b : Bmap) (l : ℕ) : Prop :=
  ∀ b₁ : Bmap, b₁.asg = b.asg → ∃ b₂, releaseAssign (b.bml l) b₁ = some b₂ ∧ b₂.asg.Vacant

theorem quits_held (h : b.asg.Held) (ha : (b.bml l).assfail = false)
    (hr : (b.bml l).recoverfail = false) : Quits b l := fun _ hb =>
  releaseAssign_held (hb ▸ h) ha hr

theorem quits_noion (h : b.asg.Vacant) (hn : b.noion) : Quits b l := fun b₁ hb =>
  ⟨b₁, releaseAssign_noion (hb ▸ h) ((congrArg Asg.noion hb).trans hn), hb ▸ h⟩

theorem mdsBmapBmlRelease_unref (hkeep : (b.bml l).refcnt > 1 ∨ (b.bml l).freeing = false)
    (hpos : (b.bml l).refcnt > 0) : mdsBmapBmlRelease l b = some (b.modify l Bml.unref) := by
  unfold mdsBmapBmlRelease
  rw [if_pos (by simpa using hkeep), if_pos hpos]

theorem mdsBmapBmlRelease_pool (hf : (b.bml l).freeing) (hrc : (b.bml l).refcnt ≤ 1)
    (hl : (b.bml l).bmi = false) : mdsBmapBmlRelease l b = some (pool l b) := by
  unfold mdsBmapBmlRelease
  rw [if_neg (by simpa [hf] using hrc), if_pos (by simp [hl])]

theorem mdsBmapBmlRelease_freed (hs : Sound b) (hl : (b.bml l).bmi)
    (hf : (b.bml l).freeing) (hrc : (b.bml l).refcnt ≤ 1)
    (hq : (b.bml l).write → ¬ OtherWriter b l → Quits b l) :
    ∃ b', mdsBmapBmlRelease l b = some b' ∧ (b'.bml l).bmi = false ∧ (HasWriter b' ↔ OtherWriter b l) ∧
      ((b.bml l).write ∧ ¬ OtherWriter b l → b'.asg.Vacant) ∧
      (¬ ((b.bml l).write ∧ ¬ OtherWriter b l) → b'.asg = b.asg) := by
  obtain ⟨L, hR⟩ := hs.rings
  obtain ⟨b₁, -, hdel, -⟩ := mdsBmapBmlDelLocked_rings hR hl
  obtain ⟨hasg, hw⟩ := freed_writers hs hl hdel
  have hrel : mdsBmapBmlRelease l b = (if (b.bml l).write ∧ (clearDio (detach l b₁)).writers = 0 then
      releaseAssign (b.bml l) (clearDio (detach l b₁)) else some (clearDio (detach l b₁))).map (pool l) := by
    unfold mdsBmapBmlRelease
    rw [if_neg (by simpa [hf] using hrc), if_neg (by simp [hl]), hdel]
    rfl
  -- whatever the end of the assignment does, the chains are those after the removal
  have hend {b₂ : Bmap} (hbook : b₂.book = (clearDio (detach l b₁)).book)
      (hb' : mdsBmapBmlRelease l b = some (pool l b₂)) :
      ((pool l b₂).bml l).bmi = false ∧ (HasWriter (pool l b₂) ↔ OtherWriter b l) := by
    have hs' := mdsBmapBmlRelease_sound hs hb'
    have hcount : (pool l b₂).writers = (clearDio (detach l b₁)).writers :=
      (congrArg Book.writers (pool_book l b₂)).trans (congrArg Book.writers hbook)
    have := hs'.writers_eq_zero
    rw [hcount, hw] at this
    exact ⟨freed_off hbook, (not_iff_not.mp this).symm⟩
  by_cases hlast : (b.bml l).write = true ∧ ¬ OtherWriter b l
  · obtain ⟨b₂, hb₂, hv⟩ := hq hlast.1 hlast.2 _ hasg
    rw [if_pos ⟨hlast.1, hw.mpr hlast.2⟩, hb₂] at hrel
    obtain ⟨hoff, hiff⟩ := hend (releaseAssign_book hb₂) hrel
    exact ⟨pool l b₂, hrel, hoff, hiff, fun _ => hv, fun h => absurd hlast h⟩
  rw [if_neg (fun h => hlast ⟨h.1, hw.mp h.2⟩)] at hrel
  obtain ⟨hoff, hiff⟩ := hend rfl hrel
  exact ⟨_, hrel, hoff, hiff, fun h => absurd h hlast, fun _ => hasg⟩

end Slash2.Lease
