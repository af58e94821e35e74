/-
# The write server of a bmap

`bmi_wr_ion` and `bmi_assign` are set when the first write lease is granted and
cleared when the last one goes. Choosing a server, finding a slot in the table of
assignments and adding the replica may each fail.

Key theorems: `mdsBmapBmlAdd_added`, `assigned_run`.
-/
import Slash2.Lease.Asg

namespace Slash2.Lease

open Lib List Option Function

structure Assigned (b : Bmap) : Prop where
  sound : Sound b
  vacant : ¬ HasWriter b → b.asg.Vacant
  held : HasWriter b → b.asg.Held
  recovered : ∀ x, (b.bml x).bmi → (b.bml x).recoverfail = false

variable {b' : Bmap} {e : Env} {d : Dupls} {bia : Bia} {b : Bmap}

theorem Assigned.of_same (h : Assigned b) (hs : Sound b') (hw : HasWriter b' ↔ HasWriter b) (hasg : b'.asg = b.asg)
    (hr : ∀ x, (b'.bml x).bmi → (b'.bml x).recoverfail = false) : Assigned b' :=
  ⟨hs, fun hno => hasg ▸ h.vacant (fun hyes => hno (hw.mpr hyes)), fun hyes => hasg ▸ h.held (hw.mp hyes), hr⟩

theorem Assigned.hasWriter_of_wrIon (h : Assigned b) (hion : b.wrIon.isSome) : HasWriter b := by
  by_contra hno
  rw [show b.wrIon = none from (h.vacant hno).1] at hion
  cases hion

theorem Assigned.modify (h : Assigned b) (l : ℕ) (f : Bml → Bml)
    (hf : ∀ m, (f m).toLink = m.toLink := by intro; rfl) (hp : ∀ m, (f m).pooled = m.pooled := by intro; rfl)
    (hr : ∀ m, (f m).recoverfail = m.recoverfail := by intro; rfl) : Assigned (b.modify l f) := by
  refine h.of_same (h.sound.modify l f hf hp) (hasWriter_modify b l f hf) rfl fun x hx => ?_
  by_cases hxl : x = l
  · subst hxl
    rw [modify_bml] at hx ⊢
    rw [hr]
    exact h.recovered x (by rw [← congrArg Link.bmi (hf (b.bml x))]; exact hx)
  · rw [show (b.modify l f).bml x = b.bml x from update_of_ne hxl ..] at hx ⊢
    exact h.recovered x hx

theorem Elsewhere.recovered {l : ℕ} (h : Elsewhere l b b')
    (hb : ∀ x, (b.bml x).bmi → (b.bml x).recoverfail = false)
    (hl : (b'.bml l).bmi → (b'.bml l).recoverfail = false) :
    ∀ x, (b'.bml x).bmi → (b'.bml x).recoverfail = false := fun x hx => by
  by_cases hxl : x = l
  · subst hxl
    exact hl hx
  obtain ⟨g, c, d, hb', -⟩ := h.near x hxl
  rw [hb'] at hx ⊢
  exact hb x hx

/-! ### No assertion fails -/

theorem mdsBmapDirectio_isSome (hs : Sound b) (rw' : Rw) (want : Bool) (np : Nidpid) :
    ∃ b' rc, mdsBmapDirectio b rw' want np = some (b', rc) := by
  obtain ⟨L, hR⟩ := hs.rings
  obtain ⟨ls, hls, -⟩ := everyLease_spec hR b.leases fun _ hx => hx
  unfold mdsBmapDirectio
  dsimp only
  rw [hls]
  split
  · exact ⟨_, _, rfl⟩
  · split <;> simp only [map_some] <;> split <;> exact ⟨_, _, rfl⟩

theorem mdsBmapDirectio_assigned {rw' : Rw} {want : Bool} {np : Nidpid} {rc : ℤ} (h : Assigned b)
    (hdio : mdsBmapDirectio b rw' want np = some (b', rc)) : Assigned b' := by
  have hbook := mdsBmapDirectio_book hdio
  refine h.of_same (h.sound.of_book hbook fun x => ?_) (hasWriter_of_book hbook) (mdsBmapDirectio_asg hdio)
    fun x hx => ?_
  · obtain ⟨g, a, c, d, hb⟩ := mdsBmapDirectio_placed hdio x
    rw [hb]
  · obtain ⟨g, c, d, hb, -⟩ := (mdsBmapDirectio_near hdio (x + 1)).near x (Nat.ne_of_lt (Nat.lt_succ_self x))
    rw [hb] at hx ⊢
    exact h.recovered x hx

theorem mdsBmapGetbml_isSome (hs : Sound b) (seq : ℕ) (cnp : Nidpid) : (mdsBmapGetbml b seq cnp).isSome := by
  obtain ⟨L, hR⟩ := hs.rings
  obtain ⟨ls, hls, -⟩ := everyLease_spec hR (b.leases.filter fun l => (b.bml l).cnp = cnp)
    fun x hx => (mem_filter.mp hx).1
  unfold mdsBmapGetbml
  rw [hls]
  rfl

variable {c : Nidpid} {l : ℕ}

theorem attach_isSome (hs : Sound b) (hl : (b.bml l).bmi = false)
    (hd : mdsBmapDuplsFind b c = some d) : ∃ b', attach l d b = some b' := by
  obtain ⟨L, hR⟩ := hs.rings
  rcases hR.split c with ⟨r, L', hR', rfl⟩ | hno
  · have hd' := duplsFind_ring hR'
    rw [show (b.bml r.head).cnp = (b.book.link r.head).cnp from rfl, hd] at hd'
    obtain ⟨b', hb', -⟩ := attach_ring (d := d) hR' hl (by rw [some.inj hd'])
    exact ⟨b', hb'⟩
  have hd' := some.inj (hd.symm.trans (duplsFind_none hR hno))
  obtain ⟨b', hb', -⟩ := attach_first (d := d) (by rw [hd'])
  exact ⟨b', hb'⟩

theorem hasWriter_of_wlease (hs : Sound b) (hd : mdsBmapDuplsFind b c = some d) (hw : d.wlease ≠ 0) : HasWriter b := by
  obtain ⟨L, hR⟩ := hs.rings
  rcases hR.split c with ⟨r, L', hR', rfl⟩ | hno
  · have hd' := duplsFind_ring hR'
    rw [show (b.bml r.head).cnp = (b.book.link r.head).cnp from rfl, hd] at hd'
    rw [some.inj hd'] at hw
    have hany : hasWrite b.book.link r := by
      by_contra hr
      exact hw (wcount_eq_zero.mpr (by simpa using hr))
    obtain ⟨x, hx, hxw⟩ := any_eq_true.mp hany
    exact ⟨x, (hR'.mem_first hx).1, hxw⟩
  · have hd' := some.inj (hd.symm.trans (duplsFind_none hR hno))
    exact absurd (by rw [hd']) hw

theorem attach_writers (h : attach l d b = some b') : b'.writers = b.writers := by
  obtain ⟨-, -, rfl⟩ := attach_eq h
  rfl

theorem mdsBmapIosAssign_isSome (h : b.asg.Vacant) : (mdsBmapIosAssign e l b).isSome := by
  unfold mdsBmapIosAssign
  rw [show b.wrIon = none from h.1, show b.assign = none from h.2]
  cases e.resm with
  | none => rfl
  | some => simp only [isSome_none]; split_ifs <;> simp_all

theorem mdsBmapIosUpdate_isSome (h : b.asg.Held) : (mdsBmapIosUpdate e l b).isSome := by
  obtain ⟨bia, hbia, hfid, -, hseq⟩ := h.entry
  unfold mdsBmapIosUpdate
  rw [show b.assign = some bia from hbia]
  simp only [show ¬ bia.fid ≠ b.fid from not_not.mpr hfid, if_false,
    show ¬ bia.seq ≠ b.seq from not_not.mpr hseq]
  rfl

/-! ### A lease is asked for -/

inductive Added (b : Bmap) (l : ℕ) (b' : Bmap) (rc : ℤ) : Prop
  | waits (hl : (b'.bml l).bmi = false) (hrc : rc ≠ 0) (hasg : b'.asg = b.asg)
  | reads (hl : (b'.bml l).bmi) (hw : (b.bml l).write = false) (hrc : rc = 0)
      (hasg : b'.asg = b.asg)
  | writes (hl : (b'.bml l).bmi) (hw : (b.bml l).write) (hrc : rc = 0)
      (hasg : b'.asg.Held)
  | further (hl : (b'.bml l).bmi) (hw : (b.bml l).write) (hrc : rc ≠ 0)
      (hasg : b'.asg.Held) (hb : HasWriter b)
  | offline (hl : (b'.bml l).bmi) (hw : (b.bml l).write) (hrc : rc ≠ 0)
      (hasg : b'.asg.Vacant) (hno : b'.noion) (hb : ¬ HasWriter b)
  | norepl (hl : (b'.bml l).bmi) (hw : (b.bml l).write) (hrc : rc = -1)
      (hasg : b'.asg.Held) (hfail : (b'.bml l).assfail = (b.bml l).assfail) (hb : ¬ HasWriter b)

theorem mdsBmapBmlAdd_added (h : Assigned b) (hl : (b.bml l).bmi = false)
    (hrec : (b.bml l).recover = false) (hvalid : (b.bml l).cnp.valid)
    (hslot : (b.bml l).write → ¬ HasWriter b → e.resm.isSome → e.slot) :
    ∃ b' rc, mdsBmapBmlAdd e l b = some (b', rc) ∧ Added b l b' rc := by
  obtain ⟨b₀, rc₀, hdio⟩ := mdsBmapDirectio_isSome h.sound (b.bml l).rw (b.bml l).dio (b.bml l).cnp
  have hbook₀ := mdsBmapDirectio_book hdio
  have hs₀ := (mdsBmapDirectio_assigned h hdio).sound
  have hl₀ : (b₀.book.link l).bmi = false := hbook₀ ▸ hl
  obtain ⟨L₀, hR₀⟩ := hs₀.rings
  obtain ⟨d, hd⟩ := isSome_iff_exists.mp (duplsFind_isSome hR₀ (b.bml l).cnp)
  obtain ⟨b₁, hatt⟩ := attach_isSome hs₀ hl₀ hd
  unfold mdsBmapBmlAdd
  rw [if_neg (by simp [hvalid]), hdio]
  simp only [bind_some]
  by_cases hrc₀ : rc₀ = 0
  case neg => exact ⟨_, _, if_pos ⟨hrc₀, by simp [hrec]⟩, .waits hl₀ hrc₀ (mdsBmapDirectio_asg hdio)⟩
  rw [if_neg fun hwait => hwait.1 hrc₀, hd, bind_some, hatt]
  have hasg₁ : b₁.asg = b.asg := (attach_asg hatt).trans (mdsBmapDirectio_asg hdio)
  have hasg : (countWriter d b₁).asg = b.asg := (countWriter_counted d b₁).asg.trans hasg₁
  obtain ⟨g, a, c, dcb, hb₁⟩ := placed_of_attach hdio hatt
  cases hw : (b.bml l).write with
  | false =>
    simp only [Bml.rw, hw, Bool.false_eq_true, if_false]
    refine ⟨_, _, rfl, .reads ?_ hw hrc₀ ((countReader_counted ..).asg.trans hasg₁)⟩
    show (Book.link (Bmap.book _) l).bmi = true
    rw [countReader_book, book_modify_same b₁ l (Bml.numbered e.seq)]
    exact attach_bmi hatt
  | true =>
    simp only [Bml.rw, hw, if_true]
    have hrec₁ : ¬ ((countWriter d b₁).bml l).recover := by
      rw [(countWriter_counted ..).bml, hb₁]
      simp [hrec]
    have hbmi {b' : Bmap} {rc : ℤ} (hx : addAssign e l d (countWriter d b₁) = some (b', rc)) :
        (b'.bml l).bmi = true := by
      show (b'.book.link l).bmi = true
      rw [(addAssign_reassigned hx).book, countWriter_book]
      exact attach_bmi hatt
    have hwriters : b₁.writers = b.writers := (attach_writers hatt).trans (congrArg Book.writers hbook₀)
    by_cases hfirst : d.wlease = 0 ∧ (countWriter d b₁).writers = 1
    · -- the counter says that nobody wrote before: a server is chosen
      have hzero : b.writers = 0 := by
        have hone := hfirst.2
        simp only [countWriter, if_pos hfirst.1] at hone
        omega
      have hno := h.sound.writers_eq_zero.mp hzero
      have hv : (countWriter d b₁).asg.Vacant := hasg ▸ h.vacant hno
      obtain ⟨⟨b', rc⟩, hios⟩ := isSome_iff_exists.mp (mdsBmapIosAssign_isSome hv)
      have hx : addAssign e l d (countWriter d b₁) = some (b', rc) := by
        rw [addAssign, if_neg hrec₁, if_pos hfirst, show (countWriter d b₁).wrIon = none from hv.1]
        exact hios
      refine ⟨b', rc, hx, ?_⟩
      rcases (mdsBmapIosAssign_asg hios).2 with ⟨hr, rfl, hasg₂⟩ | ⟨hr, hs, -⟩ | ⟨hr, hs, hheld, hfail, hrc⟩
      · refine .offline (hbmi hx) hw (by decide) ?_ ?_ hno
        · rw [hasg₂]
          exact hv
        · show b'.asg.noion = true
          rw [hasg₂]
      · exact absurd (hslot hw hno hr) (by simp [hs])
      rw [(countWriter_counted ..).bml, hb₁] at hfail
      split at hrc
      · exact .norepl (hbmi hx) hw hrc hheld hfail hno
      · exact .writes (hbmi hx) hw hrc hheld
    · -- there is one already
      have hyes : HasWriter b := by
        by_cases hwl : d.wlease = 0
        · by_contra hno
          refine hfirst ⟨hwl, ?_⟩
          simp only [countWriter, if_pos hwl]
          rw [hwriters, h.sound.writers_eq_zero.mpr hno]
          rfl
        · exact (hasWriter_of_book hbook₀).mp (hasWriter_of_wlease hs₀ hd hwl)
      have hheld : (countWriter d b₁).asg.Held := hasg ▸ h.held hyes
      obtain ⟨⟨b', rc⟩, hios⟩ := isSome_iff_exists.mp (mdsBmapIosUpdate_isSome hheld)
      have hx : addAssign e l d (countWriter d b₁) = some (b', rc) := by
        have hsome : (countWriter d b₁).wrIon.isSome := hheld.wrIon
        rw [addAssign, if_neg hrec₁, if_neg hfirst, if_neg (by simpa using isSome_iff_ne_none.mp hsome)]
        exact hios
      obtain ⟨hheld', rfl⟩ := mdsBmapIosUpdate_asg hheld hios
      refine ⟨b', _, hx, ?_⟩
      by_cases hrepl : e.addRepl = 0
      · exact .writes (hbmi hx) hw hrepl hheld'
      · exact .further (hbmi hx) hw hrepl hheld' hyes

theorem Assigned.push (h : Assigned b) {m : Bml} (hbmi : m.bmi = false)
    (hs : Sound (b.push m)) : Assigned (b.push m) := by
  have hself : (b.push m).bml b.next = m := push_self b m
  have hsame {x : ℕ} (hx : x ≠ b.next) : (b.push m).bml x = b.bml x := update_of_ne hx ..
  obtain ⟨L, hR⟩ := h.sound.rings
  have hold : (b.bml b.next).bmi = false := by
    by_contra hb
    have hlt : b.next < b.next := hR.booked.made b.next (by simpa using hb)
    exact Nat.lt_irrefl _ hlt
  refine h.of_same hs (exists_congr fun x => ?_) rfl fun x hx => ?_
  · by_cases hx : x = b.next
    · simp [hx, hself, hbmi, hold]
    · rw [hsame hx]
  · by_cases hxn : x = b.next
    · simp [hxn, hself, hbmi] at hx
    · rw [hsame hxn] at hx ⊢
      exact h.recovered x hx

section Ends

variable {b₁ : Bmap} {rc : ℤ}

structure Adding (b b₁ : Bmap) (l : ℕ) : Prop where
  before : Assigned b
  unattached : (b.bml l).bmi = false
  sound : Sound b₁
  elsewhere : Elsewhere l b b₁
  write : (b₁.bml l).write = (b.bml l).write
  refcnt : (b₁.bml l).refcnt = 1
  freeing : (b₁.bml l).freeing = false
  recoverfail : (b₁.bml l).recoverfail = false

theorem Adding.otherWriter (h : Adding b b₁ l) : OtherWriter b₁ l ↔ HasWriter b := by
  rw [h.elsewhere.otherWriter h.before.sound h.sound, h.before.sound.hasWriter_iff l]
  simp [h.unattached]

theorem Adding.recovered (h : Adding b b₁ l) : ∀ x, (b₁.bml x).bmi → (b₁.bml x).recoverfail = false :=
  h.elsewhere.recovered h.before.recovered fun _ => h.recoverfail

theorem Adding.granted (h : Adding b b₁ l) (ha : Added b l b₁ 0) : Assigned b₁ := by
  have hiff := h.sound.hasWriter_iff l
  rw [h.otherWriter, h.write] at hiff
  cases ha with
  | waits _ hrc => exact absurd rfl hrc
  | reads hl hw hrc hasg =>
    exact h.before.of_same h.sound (by simpa [hw] using hiff) hasg h.recovered
  | writes hl hw hrc hasg =>
    have hyes : HasWriter b₁ := hiff.mpr (.inr ⟨hl, hw⟩)
    exact ⟨h.sound, fun hno => absurd hyes hno, fun _ => hasg, h.recovered⟩
  | further hl hw hrc => exact absurd rfl hrc
  | offline hl hw hrc => exact absurd rfl hrc
  | norepl hl hw hrc => exact absurd hrc (by decide)

theorem Adding.failed (h : Adding b b₁ l) (hrc : rc ≠ 0) (ha : Added b l b₁ rc) (hfail : (b.bml l).assfail = false) :
    ∃ b', mdsBmapBmlRelease l (b₁.modify l (Bml.failed rc)) = some b' ∧ Assigned b' := by
  set b₂ := b₁.modify l (Bml.failed rc) with hb₂
  have hself : b₂.bml l = Bml.failed rc (b₁.bml l) := update_self ..
  have hs₂ : Sound b₂ := h.sound.modify l _
  have he₂ : Elsewhere l b₁ b₂ := elsewhere_modify l b₁ _
  have hother : OtherWriter b₂ l ↔ HasWriter b := (he₂.otherWriter h.sound hs₂).trans h.otherWriter
  have hf₂ : (b₂.bml l).freeing := by rw [hself]; rfl
  have hrc₂ : (b₂.bml l).refcnt ≤ 1 := by rw [hself]; exact h.refcnt.le
  have hr₂ : (b₂.bml l).recoverfail = false := by rw [hself]; exact h.recoverfail
  -- a lease that was attached is taken off again
  have hoff (hl : (b₁.bml l).bmi = true) (hq : (b₂.bml l).write = true → ¬ OtherWriter b₂ l → Quits b₂ l)
      (hheld : HasWriter b → b₂.asg.Held) (hw : (b₂.bml l).write = true) :
      ∃ b', mdsBmapBmlRelease l b₂ = some b' ∧ Assigned b' := by
    have hl₂ : (b₂.bml l).bmi := by rw [hself]; exact hl
    obtain ⟨b', hb', hbmi, hiff, hv, hsame⟩ := mdsBmapBmlRelease_freed hs₂ hl₂ hf₂ hrc₂ hq
    have hrec := (he₂.trans (mdsBmapBmlRelease_elsewhere hb')).recovered h.recovered fun hl => clash hl hbmi
    refine ⟨b', hb', mdsBmapBmlRelease_sound hs₂ hb', fun hno => ?_, fun hyes => ?_, ?_⟩
    · exact hv ⟨hw, fun h => hno (hiff.mpr h)⟩
    · rw [hsame fun h => h.2 (hiff.mp hyes)]
      exact hheld (hother.mp (hiff.mp hyes))
    · exact hrec
  cases ha with
  | waits hl _ hasg =>
    have hl₂ : (b₂.bml l).bmi = false := by rw [hself]; exact hl
    have hpool := mdsBmapBmlRelease_pool hf₂ hrc₂ hl₂
    have hs₃ := mdsBmapBmlRelease_sound hs₂ hpool
    have he₃ : Elsewhere l b₁ (pool l b₂) := he₂.trans (mdsBmapBmlRelease_elsewhere hpool)
    have hl₃ : ((pool l b₂).bml l).bmi = false := by
      rw [pool_bml]
      exact hl₂
    refine ⟨_, hpool, h.before.of_same hs₃ ?_ hasg (he₃.recovered h.recovered fun hl =>
      clash hl hl₃)⟩
    rw [hs₃.hasWriter_iff l, he₃.otherWriter h.sound hs₃, h.otherWriter]
    simp [hl₃]
  | reads _ _ hrc' => exact absurd hrc' hrc
  | writes _ _ hrc' => exact absurd hrc' hrc
  | further hl hw _ hasg hyes =>
    exact hoff hl (fun _ hno => absurd (hother.mpr hyes) hno) (fun _ => hasg) (by rw [hself]; exact h.write.trans hw)
  | offline hl hw _ hasg hno hb =>
    exact hoff hl (fun _ _ => quits_noion hasg hno) (fun hyes => absurd hyes hb)
      (by rw [hself]; exact h.write.trans hw)
  | norepl hl hw hrc' hasg hfail' hb =>
    refine hoff hl (fun _ _ => quits_held hasg ?_ hr₂) (fun hyes => absurd hyes hb)
      (by rw [hself]; exact h.write.trans hw)
    rw [hself, hrc']
    simp [Bml.failed, hfail', hfail, slerrIonOffline]

end Ends

/-! ### A lease is upgraded -/

theorem Assigned.of_book (h : Assigned b) (hs : Sound b') (hbook : b'.book = b.book) (he : Elsewhere l b b')
    (hr : (b'.bml l).recoverfail = (b.bml l).recoverfail) (hv : ¬ HasWriter b → b'.asg.Vacant)
    (hh : HasWriter b → b'.asg.Held) : Assigned b' := by
  have hw := hasWriter_of_book hbook
  have hbmi : (b'.bml l).bmi = (b.bml l).bmi :=
    congrArg Link.bmi (congrFun (congrArg Book.link hbook) l)
  exact ⟨hs, fun hno => hv fun hyes => hno (hw.mpr hyes), fun hyes => hh (hw.mp hyes),
    he.recovered h.recovered fun hl => hr.trans (h.recovered l (hbmi.symm.trans hl))⟩

theorem iosChange_asg {rc : ℤ} (h : Assigned b)
    (hback : b.wrIon = none → e.resm.isSome → e.slot ∧ e.addRepl = 0) (hios : (if b.wrIon.isSome
    then mdsBmapIosUpdate e l b else mdsBmapIosAssign e l b) = some (b', rc)) :
    (¬ HasWriter b ∧ rc ≠ 0 ∧ b'.asg.Vacant) ∨ (b'.asg.Held ∧ (rc ≠ 0 → HasWriter b)) := by
  split at hios
  · next hion =>
    have hyes := h.hasWriter_of_wrIon hion
    exact .inr ⟨(mdsBmapIosUpdate_asg (h.held hyes) hios).1, fun _ => hyes⟩
  next hion =>
  have hnone : b.wrIon = none := not_isSome_iff_eq_none.mp hion
  obtain ⟨hvac, hout⟩ := mdsBmapIosAssign_asg hios
  rcases hout with ⟨-, rfl, hasg⟩ | ⟨hr, hslot, -⟩ | ⟨hr, -, hheld, -, rfl⟩
  · refine .inl ⟨fun hyes => (h.held hyes).not_vacant hvac, by decide, ?_⟩
    rw [hasg]
    exact hvac
  · exact absurd (hback hnone hr).1 (by simp [hslot])
  · exact .inr ⟨hheld, fun hrc => absurd (if_neg (not_not.mpr (hback hnone hr).2)) hrc⟩

theorem mdsBmapBmlChwrmode_assigned {rc : Option ℤ} (h : Assigned b)
    (hl : (b.bml l).bmi) (hback : (b.bml l).write = false → b.wrIon = none → e.resm.isSome →
    e.slot ∧ e.addRepl = 0) (hch : mdsBmapBmlChwrmode e l b = some (b', rc)) :
    Assigned b' ∧ (rc.getD 0 = 0 → (b'.bml l).bmi ∧ (b'.bml l).write) := by
  have hs' := mdsBmapBmlChwrmode_sound h.sound hl hch
  have he' := mdsBmapBmlChwrmode_elsewhere hch
  have hl' := mdsBmapBmlChwrmode_self hl hch
  rcases mdsBmapBmlChwrmode_cases hch with ⟨hw, rfl, rfl⟩ | ⟨hw, b₀, rc₀, hdio, hcont⟩
  · exact ⟨h, fun _ => ⟨hl, hw⟩⟩
  have hbook₀ := mdsBmapDirectio_book hdio
  have h₀ := mdsBmapDirectio_assigned h hdio
  rcases hcont with ⟨hrc, rfl, rfl⟩ | ⟨-, b₁, rc₁, hios, hturn⟩
  · exact ⟨h₀, fun h0 => absurd h0 hrc⟩
  have hl₀ : (b₀.book.link l).bmi := hbook₀ ▸ hl
  have hout := iosChange_asg h₀ (fun hion => hback hw
    ((congrArg Asg.wrIon (mdsBmapDirectio_asg hdio)).symm.trans hion)) hios
  obtain ⟨g', a', c', d', i', s', f', hb₁⟩ := (iosChange_reassigned hios).moves.kin
  have hr₁ : (b₁.bml l).recoverfail = (b₀.bml l).recoverfail := by rw [hb₁]
  rcases hturn with ⟨hrc₁, rfl, rfl⟩ | ⟨hrc₁, rfl, d, -, rfl⟩
  · have hself : (b₁.modify l Bml.refused).bml l = Bml.refused (b₁.bml l) := update_self ..
    refine ⟨h₀.of_book hs' ?_ ((iosChange_reassigned hios).moves.toElsewhere.trans (elsewhere_modify l b₁ _)) ?_ (fun hno => ?_)
      (fun hyes => ?_), fun h0 => absurd h0 hrc₁⟩
    · exact (book_modify_same b₁ l Bml.refused).trans (iosChange_reassigned hios).book
    · rw [hself]
      exact hr₁
    · rcases hout with ⟨-, -, hv⟩ | ⟨-, hyes⟩
      · exact hv
      · exact absurd (hyes hrc₁) hno
    · rcases hout with ⟨hno, -, -⟩ | ⟨hheld, -⟩
      · exact absurd hyes hno
      · exact hheld
  · have hself : ((countUpgrade d b₁).modify l Bml.turned).bml l =
        Bml.turned ((countUpgrade d b₁).bml l) := update_self ..
    have hwrite : (((countUpgrade d b₁).modify l Bml.turned).bml l).write := by
      rw [hself]
      rfl
    have hasg : ((countUpgrade d b₁).modify l Bml.turned).asg = b₁.asg := (countUpgrade_counted d b₁).asg
    refine ⟨⟨hs', fun hno => absurd ⟨l, hl', hwrite⟩ hno, fun _ => ?_, ?_⟩, fun _ => ⟨hl', hwrite⟩⟩
    · rw [hasg]
      rcases hout with ⟨-, hrc, -⟩ | ⟨hheld, -⟩
      · exact absurd hrc₁ hrc
      · exact hheld
    · refine he'.recovered h.recovered fun _ => ?_
      rw [hself]
      rw [(countUpgrade_counted ..).bml]
      exact hr₁.trans (h₀.recovered l hl₀)

theorem mdsBmapBmlChwrmode_isSome (h : Assigned b) (hl : (b.bml l).bmi)
    (hback : (b.bml l).write = false → b.wrIon = none → e.resm.isSome → e.slot ∧ e.addRepl =
    0) : ∃ b' rc, mdsBmapBmlChwrmode e l b = some (b', rc) := by
  unfold mdsBmapBmlChwrmode
  by_cases hw : (b.bml l).write = true
  · exact ⟨_, _, if_pos hw⟩
  rw [if_neg hw]
  obtain ⟨b₀, rc₀, hdio⟩ := mdsBmapDirectio_isSome h.sound .write false (b.bml l).cnp
  have h₀ := mdsBmapDirectio_assigned h hdio
  rw [hdio]
  simp only [bind_some]
  by_cases hrc : rc₀ = 0
  case neg => exact ⟨_, _, if_pos hrc⟩
  rw [if_neg (not_not.mpr hrc)]
  obtain ⟨⟨b₁, rc₁⟩, hios⟩ : ∃ x, (if b₀.wrIon.isSome then mdsBmapIosUpdate e l b₀
      else mdsBmapIosAssign e l b₀) = some x := by
    refine isSome_iff_exists.mp ?_
    split
    · next hion => exact mdsBmapIosUpdate_isSome (h₀.held (h₀.hasWriter_of_wrIon hion))
    · next hion => exact mdsBmapIosAssign_isSome (h₀.vacant fun hyes => hion (h₀.held hyes).wrIon)
  have hout := iosChange_asg h₀ (fun hion => hback (by simpa using hw)
    ((congrArg Asg.wrIon (mdsBmapDirectio_asg hdio)).symm.trans hion)) hios
  rw [hios]
  simp only [bind_some]
  by_cases hrc₁ : rc₁ = 0
  case neg => exact ⟨_, _, if_pos hrc₁⟩
  have hheld : b₁.asg.Held := by
    rcases hout with ⟨-, hne, -⟩ | ⟨hheld, -⟩
    · exact absurd hrc₁ hne
    · exact hheld
  have hion : ¬ b₁.wrIon.isNone := by
    have hsome : b₁.wrIon.isSome := hheld.wrIon
    rw [isNone_iff_eq_none]
    exact isSome_iff_ne_none.mp hsome
  -- the lease itself is one of the client's read leases
  have hbook₁ : b₁.book = b.book := (iosChange_reassigned hios).book.trans (mdsBmapDirectio_book hdio)
  have hlink : (b₁.bml l).toLink = (b.bml l).toLink := congrFun (congrArg Book.link hbook₁) l
  obtain ⟨L, hR⟩ := h.sound.rings
  have hl₁ : (b₁.book.link l).bmi := hbook₁ ▸ hl
  obtain ⟨r, L', hR', hlr⟩ := (hbook₁ ▸ hR).split_cell hl₁
  have hfind := duplsFind_of_mem hR' hlr
  rw [congrArg Link.cnp hlink] at hfind
  have hread : (b₁.book.link l).read := by
    have hmode := hR'.ok_first.mode l hlr
    rw [show (b₁.book.link l).write = (b.bml l).write from congrArg Link.write hlink] at hmode
    simpa [hw] using hmode
  have hrlease : ¬ (r.dupls b₁.book.link).rlease = 0 := by
    have hpos : 0 < rcount b₁.book.link r := countP_pos_iff.mpr ⟨l, hlr, hread⟩
    exact Nat.pos_iff_ne_zero.mp hpos
  rw [if_neg (not_not.mpr hrc₁), if_neg hion, hfind, bind_some, if_neg hrlease]
  exact ⟨_, _, rfl⟩

theorem writeIos_held (h : b.asg.Held) : ∃ ios, writeIos b = some ios := by
  obtain ⟨bia, hbia, -⟩ := h.entry
  obtain ⟨ios, hios⟩ := isSome_iff_exists.mp h.wrIon
  refine ⟨ios, ?_⟩
  unfold writeIos
  rw [show b.assign = some bia from hbia]
  exact hios

/-- There is a slot of the odtable for an assignment, and a lease that failed to get one is not the last that writes. -/
def Backed (b : Bmap) : Event → Prop
  | .lease _ rw _ e => rw = .write → b.writers = 0 → e.resm.isSome → e.slot
  | .upgrade l e _ => (b.bml l).write = false → b.wrIon = none → e.resm.isSome →
      e.slot ∧ e.addRepl = 0
  | .release l => (b.bml l).freeing → (b.bml l).refcnt ≤ 1 → (b.bml l).write →
      (b.bml l).assfail → OtherWriter b l
  | _ => True

instance (b : Bmap) (l : ℕ) : Decidable (OtherWriter b l) :=
  inferInstanceAs (Decidable (∃ x ∈ b.attached, _))

instance (b : Bmap) : ∀ ev, Decidable (Backed b ev)
  | .lease .. | .getbml .. | .ack .. | .upgrade .. | .reassign .. | .free .. | .release .. => by
    unfold Backed
    infer_instance

variable {cnp : Nidpid}

theorem mdsBmapLoadCli_assigned {rw' : Rw} {dio : Bool} (h : Assigned b)
    (hen : Enabled b (.lease cnp rw' dio e)) (hback : Backed b (.lease cnp rw' dio e)) :
    ∃ b' r, mdsBmapLoadCli cnp rw' dio e b = some (b', r) ∧ Assigned b' := by
  have hfresh := mdsBmlNew_fresh cnp rw' dio b
  have hb : Assigned (mdsBmlNew cnp rw' dio b) := h.push rfl (mdsBmlNew_sound h.sound cnp rw' dio)
  have hself : (mdsBmlNew cnp rw' dio b).bml b.next = requestedBml cnp rw' dio := push_self b _
  have hrec : ((mdsBmlNew cnp rw' dio b).bml b.next).recover = false := by
    rw [hself]
    rfl
  have hslot : ((mdsBmlNew cnp rw' dio b).bml b.next).write = true →
      ¬ HasWriter (mdsBmlNew cnp rw' dio b) → e.resm.isSome → e.slot = true := fun hw hno hr => by
    refine hback (by simpa [hself, requestedBml] using hw) ?_ hr
    exact (hb.sound.writers_eq_zero.mpr hno)
  obtain ⟨b₁, rc, hadd, hadded⟩ := mdsBmapBmlAdd_added hb hfresh.bmi hrec (by rw [hself]; exact hen) hslot
  obtain ⟨g, a, c, d, i, s, f, hkin⟩ := (mdsBmapBmlAdd_moves hadd).kin
  rw [hself] at hkin
  have hadding : Adding (mdsBmlNew cnp rw' dio b) b₁ b.next :=
    { before := hb
      unattached := hfresh.bmi
      sound := mdsBmapBmlAdd_sound hb.sound hfresh hadd
      elsewhere := (mdsBmapBmlAdd_moves hadd).toElsewhere
      write := by rw [hkin, hself]
      refcnt := by rw [hkin]; rfl
      freeing := by rw [hkin]; rfl
      recoverfail := by rw [hkin]; rfl }
  unfold mdsBmapLoadCli
  rw [hadd]
  simp only [bind_some]
  by_cases hrc : rc = 0
  · subst hrc
    have hg := hadding.granted hadded
    have hunref := mdsBmapBmlRelease_unref (.inr hadding.freeing) (by rw [hadding.refcnt]; decide)
    rw [if_neg (by simp), hunref]
    obtain ⟨ios, hios⟩ : ∃ ios, sbdIos rw' b₁ = some ios := by
      cases rw' with
      | read => exact ⟨_, rfl⟩
      | write =>
        have hl : (b₁.bml b.next).bmi := by
          cases hadded with
          | waits hl hrc => exact absurd rfl hrc
          | reads hl => exact hl
          | writes hl => exact hl
          | further hl => exact hl
          | offline hl => exact hl
          | norepl hl => exact hl
        exact writeIos_held (hg.held ⟨b.next, hl, by rw [hkin]; rfl⟩)
    rw [hios]
    exact ⟨_, _, rfl, hg.modify b.next Bml.unref⟩
  · obtain ⟨b', hrel, hb'⟩ := hadding.failed hrc hadded (by rw [hself]; rfl)
    rw [if_pos hrc, hrel]
    exact ⟨_, _, rfl, hb'⟩

theorem mdsBmapBmlRelease_assigned (h : Assigned b) (hen : Enabled b (.release l)) (hback : Backed b (.release l)) :
    ∃ b', mdsBmapBmlRelease l b = some b' ∧ Assigned b' := by
  obtain ⟨hl, hact⟩ := hen
  by_cases hlast : (b.bml l).freeing = true ∧ (b.bml l).refcnt ≤ 1
  · have hq : (b.bml l).write = true → ¬ OtherWriter b l → Quits b l := fun hw hno => by
      refine quits_held (h.held ⟨l, hl, hw⟩) ?_ (h.recovered l hl)
      by_contra hfail
      exact hno (hback hlast.1 hlast.2 hw (by simpa using hfail))
    obtain ⟨b', hb', hoff, hiff, hv, hsame⟩ := mdsBmapBmlRelease_freed h.sound hl hlast.1 hlast.2 hq
    have hyes : OtherWriter b l → HasWriter b := fun hx => (h.sound.hasWriter_iff l).mpr (.inl hx)
    refine ⟨b', hb', mdsBmapBmlRelease_sound h.sound hb', fun hno => ?_, fun hw => ?_, ?_⟩
    · have hnone : ¬ OtherWriter b l := fun hx => hno (hiff.mpr hx)
      by_cases hw : (b.bml l).write = true
      · exact hv ⟨hw, hnone⟩
      rw [hsame fun hx => hw hx.1]
      refine h.vacant fun hb => ?_
      rcases (h.sound.hasWriter_iff l).mp hb with hx | hx
      · exact hnone hx
      · exact hw hx.2
    · rw [hsame fun hx => hx.2 (hiff.mp hw)]
      exact h.held (hyes (hiff.mp hw))
    · exact (mdsBmapBmlRelease_elsewhere hb').recovered h.recovered fun hx =>
        clash hx hoff
  · have hkeep : (b.bml l).refcnt > 1 ∨ (b.bml l).freeing = false := by
      by_cases hf : (b.bml l).freeing = true
      · exact .inl (Int.not_le.mp fun hle => hlast ⟨hf, hle⟩)
      · exact .inr (by simpa using hf)
    have hpos : (b.bml l).refcnt > 0 := by
      rcases hact with hpos | hf
      · exact hpos
      · have hgt : ¬ (b.bml l).refcnt ≤ 1 := fun hle => hlast ⟨hf, hle⟩
        omega
    exact ⟨_, mdsBmapBmlRelease_unref hkeep hpos, h.modify l Bml.unref⟩

theorem mdsBmapGetbml_assigned {seq : ℕ} {r : Option ℕ} (h : Assigned b)
    (hget : mdsBmapGetbml b seq cnp = some (b', r)) : Assigned b' := by
  rcases mdsBmapGetbml_cases hget with ⟨rfl, -⟩ | ⟨l, -, -, -, -, rfl, -⟩
  · exact h
  · exact h.modify l Bml.ref

theorem moveLease_assigned {r : ℕ} (h : Assigned b) (hl : (b.bml l).bmi)
    (hw : (b.bml l).write) (hbia : b.assign = some bia) : Assigned (moveLease l e r bia b) := by
  have hmove := h.modify l (fun m => { m with seq := e.seq, ios := r })
  have hheld := h.held ⟨l, hl, hw⟩
  obtain ⟨bia', hbia', hfid, hno, -⟩ := hheld.entry
  obtain rfl : bia = bia' := some.inj (hbia.symm.trans hbia')
  have hiff : HasWriter (moveLease l e r bia b) ↔ HasWriter b :=
    hasWriter_modify b l (fun m => { m with seq := e.seq, ios := r }) fun _ => rfl
  refine ⟨moveLease_sound h.sound .., fun hnone => ?_, fun _ => ?_, hmove.recovered⟩
  · exact absurd (hiff.mpr ⟨l, hl, hw⟩) hnone
  · exact ⟨hheld.noion, hheld.wrIon, _, rfl, hfid, hno, rfl⟩

variable {ev : Event}

theorem step_assigned (h : Assigned b) (hback : Backed b ev) (hstep : step b ev = some b') : Assigned b' := by
  obtain ⟨hen, sbd, hd⟩ := step_cases hstep
  cases hd with
  | lease hload =>
    obtain ⟨b₁, r, hload', hb₁⟩ := mdsBmapLoadCli_assigned h hen hback
    cases hload.symm.trans hload'
    exact hb₁
  | getbml hget => exact mdsBmapGetbml_assigned h hget
  | lost hget => exact mdsBmapGetbml_assigned h hget
  | acked hget =>
    exact (mdsBmapGetbml_assigned h hget).modify _ _
  | upgrade hup =>
    obtain ⟨rc, hch, -⟩ := slmRmcHandleBmapChwrmode_cases hup
    exact (mdsBmapBmlChwrmode_assigned h hen.1 hback hch).1
  | reassign hre =>
    rcases mdsLeaseReassign_cases hre with ⟨rfl, -⟩ | ⟨bia, r', hw, -, -, hbia, -, -, -, rfl, -⟩
    · exact h
    · exact moveLease_assigned h hen.1 hw hbia
  | free => exact h.modify _ _
  | release hrel =>
    obtain ⟨b₁, hrel', hb₁⟩ := mdsBmapBmlRelease_assigned h hen hback
    cases hrel.symm.trans hrel'
    exact hb₁

theorem handle_isSome (h : Assigned b) (hen : Enabled b ev)
    (hback : Backed b ev) (hre : ∀ l e, ev ≠ .reassign l e) : (handle b ev).isSome := by
  cases ev with
  | lease cnp rw' dio e =>
    obtain ⟨b', r, hload, -⟩ := mdsBmapLoadCli_assigned h hen hback
    simp [handle, hload]
  | getbml seq cnp => simpa [handle] using mdsBmapGetbml_isSome h.sound seq cnp
  | ack seq cnp => simpa [handle, slmcohReleasebml] using mdsBmapGetbml_isSome h.sound seq cnp
  | upgrade l e dio =>
    obtain ⟨b', rc, hch⟩ := mdsBmapBmlChwrmode_isSome h hen.1 hback
    obtain ⟨hb', hturned⟩ := mdsBmapBmlChwrmode_assigned h hen.1 hback hch
    simp only [handle, slmRmcHandleBmapChwrmode, hch, bind_some, isSome_map]
    by_cases hrc : rc.getD 0 = 0
    · obtain ⟨ios, hios⟩ := writeIos_held (hb'.held ⟨l, hturned hrc⟩)
      rw [if_neg (not_not.mpr hrc), hios]
      rfl
    · rw [if_pos hrc]
      rfl
  | reassign l e => exact absurd rfl (hre l e)
  | free l => rfl
  | release l =>
    obtain ⟨b', hrel, -⟩ := mdsBmapBmlRelease_assigned h hen hback
    simp [handle, hrel]

/-! ### The start -/

theorem quits_recover (hn : b.noion = false) (hion : b.wrIon.isSome)
    (hnone : b.assign = none) (ha : (b.bml l).assfail = false)
    (hr : (b.bml l).recoverfail) : Quits b l := fun b₁ hb => by
  have hn₁ : b₁.noion = false := (congrArg Asg.noion hb).trans hn
  have hnone₁ : b₁.assign = none := (congrArg Asg.assign hb).trans hnone
  have hion₁ : b₁.wrIon.isNone = false := by
    rw [show b₁.wrIon = b.wrIon from congrArg Asg.wrIon hb]
    simpa using hion
  refine ⟨{ b₁ with wrIon := none }, ?_, rfl, hnone₁⟩
  unfold releaseAssign
  rw [hn₁, hnone₁, hion₁, ha, hr]
  rfl

theorem Sole.assigned (h : Sole b l) (hl : (b.bml l).bmi = false ∧ b.asg.Vacant ∨
      (b.bml l).bmi ∧ (b.bml l).write ∧ (b.bml l).recoverfail = false ∧ b.asg.Held) : Assigned b := by
  have hx {x : ℕ} (hx : (b.bml x).bmi = true) : x = l := by
    by_contra hne
    exact clash hx (h.others x hne)
  rcases hl with ⟨hbmi, hv⟩ | ⟨hbmi, hw, hr, hh⟩
  · have hnone (x : ℕ) : ¬ (b.bml x).bmi := fun hb => by
      rw [hx hb, hbmi] at hb
      cases hb
    exact ⟨h.sound, fun _ => hv, fun ⟨x, hb, _⟩ => absurd hb (hnone x), fun x hb => absurd hb (hnone x)⟩
  · exact ⟨h.sound, fun hno => absurd ⟨l, hbmi, hw⟩ hno, fun _ => hh, fun x hb => hx hb ▸ hr⟩

theorem unrecovered_vacant (hsole : Sole b l) (hkin : Kin (recoveredBml bia) (b.bml l)) (hbmi : (b.bml l).bmi)
    (hfail : (b.bml l).assfail = false) (hn : b.noion = false) (hion : b.wrIon.isSome)
    (hrel : mdsBmapBmlRelease l (b.unassign.modify l Bml.unrecovered) = some b') :
    (b'.bml l).bmi = false ∧ b'.asg.Vacant := by
  obtain ⟨hself, hf, hrc⟩ := unrecovered_self hkin
  have hother : ¬ OtherWriter (b.unassign.modify l Bml.unrecovered) l := by
    rintro ⟨x, hx, hne, -⟩
    rw [hsole.unrecovered.sound.mem_attached, hsole.unrecovered.others x hne] at hx
    cases hx
  have hw : ((b.unassign.modify l Bml.unrecovered).bml l).write := by
    obtain ⟨g, a, c, d, i, s, f, hl⟩ := hkin
    rw [hself, hl]
    rfl
  obtain ⟨b₃, hrel', hoff, -, hv, -⟩ := mdsBmapBmlRelease_freed hsole.unrecovered.sound
    (by rw [hself]; exact hbmi) hf hrc
    fun _ _ => quits_recover hn hion rfl (by rw [hself]; exact hfail) (by rw [hself]; rfl)
  cases hrel.symm.trans hrel'
  exact ⟨hoff, hv ⟨hw, hother⟩⟩

theorem mdsBiaOdtableStartupCb_assigned (hs : Sound b)
    (hnone : ∀ x, (b.bml x).bmi = false) (hn : b.noion = false) (hion : b.wrIon = none)
    (hfid : bia.fid = b.fid) (hno : bia.bmapno = b.bmapno)
    (h : mdsBiaOdtableStartupCb bia e b = some b') : Assigned b' := by
  obtain ⟨b₁, rc, hadd, hsole, hkin, ⟨-, hrel⟩ | ⟨hrc, hrel⟩⟩ := mdsBiaOdtableStartupCb_cases hs hnone h
  · -- what was set is taken back, and the lease is freed
    obtain ⟨hself, hf, hrc⟩ := unrecovered_self hkin
    refine (hsole.unrecovered.of_elsewhere (mdsBmapBmlRelease_sound hsole.unrecovered.sound hrel)
      (mdsBmapBmlRelease_elsewhere hrel)).assigned (.inl ?_)
    rcases mdsBmapBmlAdd_recovered (push_self (b.found bia) _) hadd with
      ⟨hbmi, -, hasg⟩ | ⟨hbmi, hfail, -, hasg⟩
    · have hoff : ((b₁.unassign.modify b.next Bml.unrecovered).bml b.next).bmi = false := by
        rw [hself]
        exact hbmi
      rw [mdsBmapBmlRelease_pool hf hrc hoff] at hrel
      cases hrel
      refine ⟨?_, ?_, rfl⟩
      · rw [pool_bml]
        exact hoff
      · exact (congrArg Asg.wrIon hasg).trans hion
    · have hsome : b₁.wrIon.isSome := by
        rw [show b₁.wrIon = some bia.ios from congrArg Asg.wrIon hasg]
        rfl
      exact unrecovered_vacant hsole hkin hbmi hfail ((congrArg Asg.noion hasg).trans hn) hsome hrel
  · -- the lease keeps its server
    rcases mdsBmapBmlAdd_recovered (push_self (b.found bia) _) hadd with
      ⟨-, hne, -⟩ | ⟨hbmi, -, -, hasg⟩
    · exact absurd hrc hne
    have hs' := mdsBmapBmlRelease_sound hsole.sound hrel
    obtain ⟨g, a, c, d, i, s, f, hl⟩ := hkin
    have hunref := mdsBmapBmlRelease_unref (.inr (by rw [hl]; rfl)) (by rw [hl]; exact Int.one_pos)
    cases hrel.symm.trans hunref
    have hself : (b₁.modify b.next Bml.unref).bml b.next = Bml.unref (b₁.bml b.next) := update_self ..
    refine (hsole.of_elsewhere hs' (elsewhere_modify b.next b₁ _)).assigned (.inr ?_)
    rw [hself]
    refine ⟨hbmi, ?_, ?_, ?_⟩
    · show (b₁.bml b.next).write = true
      rw [hl]
      rfl
    · show (b₁.bml b.next).recoverfail = false
      rw [hl]
      rfl
    · show b₁.asg.Held
      rw [hasg]
      exact ⟨hn, rfl, bia, rfl, hfid, hno, rfl⟩

theorem start_assigned (h : Start b) : Assigned b := by
  cases h with
  | unleased fid bmapno =>
    have hnone : ¬ HasWriter (unleased fid bmapno) := fun ⟨_, hb, _⟩ => (nomatch hb)
    exact ⟨sound_unleased fid bmapno, fun _ => ⟨rfl, rfl⟩, fun h => absurd h hnone, fun _ hb => (nomatch hb)⟩
  | recovered bia e h =>
    exact mdsBiaOdtableStartupCb_assigned (sound_unleased bia.fid bia.bmapno) (fun _ => rfl) rfl rfl rfl rfl h

/-- **Assigned exactly with writers**, if each event is backed. -/
theorem assigned_run {b₀ b : Bmap} {evs : List Event} (h₀ : Start b₀)
    (hback : Admits step Backed b₀ evs) (hrun : run step b₀ evs = some b) :
    (b.writers = 0 → b.wrIon = none ∧ b.assign = none) ∧ (b.writers > 0 → b.wrIon.isSome ∧ b.assign.isSome) ∧
    ∀ ev, Enabled b ev → Backed b ev → (∀ l e, ev ≠ .reassign l e) → (handle b ev).isSome := by
  have h : Assigned b := run_invariant step_assigned (start_assigned h₀) hback hrun
  refine ⟨fun hw => h.vacant (h.sound.writers_eq_zero.mp hw), fun hw => ?_,
    fun ev hen hb hre => handle_isSome h hen hb hre⟩
  have hheld := h.held (by
    by_contra hno
    have hzero := h.sound.writers_eq_zero.mpr hno
    omega)
  obtain ⟨bia, hbia, -⟩ := hheld.entry
  exact ⟨hheld.wrIon, isSome_iff_exists.mpr ⟨bia, hbia⟩⟩

def upgradeTwice : List Event :=
  [.lease ⟨1, 1⟩ .read false .fine, .getbml 5 ⟨1, 1⟩, .upgrade 0 { Env.fine with resm := none } false,
   .lease ⟨1, 1⟩ .write false { Env.fine with seq := 6 }, .upgrade 0 { Env.fine with seq := 7 } false,
   .free 0, .release 0, .free 1]

/-- The refused lease goes while another writes. -/
theorem assigned_run_upgradeTwice : ∃ b, run step (unleased 1 0) upgradeTwice = some b ∧ b.writers = 1 ∧
    (b.writers = 0 → b.wrIon = none ∧ b.assign = none) ∧ (b.writers > 0 → b.wrIon.isSome ∧ b.assign.isSome) ∧
    ∀ ev, Enabled b ev → Backed b ev → (∀ l e, ev ≠ .reassign l e) → (handle b ev).isSome := by
  have hrun : ∃ b ∈ run step (unleased 1 0) upgradeTwice, b.writers = 1 := by decide
  have hback : Admits step Backed (unleased 1 0) upgradeTwice := by decide
  obtain ⟨b, hb, hw⟩ := hrun
  exact ⟨b, hb, hw, assigned_run (.unleased 1 0) hback hb⟩

/-- **An assignment is left** by an upgrade without its replica. -/
theorem assignment_left : (∃ b ∈ run step (unleased 1 0) [.lease ⟨1, 1⟩ .read false .fine, .getbml 5 ⟨1, 1⟩,
        .upgrade 0 { Env.fine with addRepl := -1 } false, .release 0],
      b.writers = 0 ∧ b.wrIon = some 9 ∧ b.assign.isSome ∧ Enabled b (.lease ⟨1, 1⟩ .write false .fine) ∧
      handle b (.lease ⟨1, 1⟩ .write false .fine) = none) ∧
    (∃ b ∈ run step (unleased 1 0) [.lease ⟨1, 1⟩ .read false .fine, .getbml 5 ⟨1, 1⟩,
        .upgrade 0 { Env.fine with resm := none } false, .upgrade 0 { Env.fine with seq := 6 } false,
        .free 0, .release 0], b.leases = [] ∧ b.writers = 0 ∧ b.wrIon = some 9 ∧ b.assign.isSome) ∧
    (Enabled (unleased 1 0) (.lease ⟨1, 1⟩ .write false { Env.fine with slot := false }) ∧
      handle (unleased 1 0) (.lease ⟨1, 1⟩ .write false { Env.fine with slot := false }) = none) := by
  decide

end Slash2.Lease
