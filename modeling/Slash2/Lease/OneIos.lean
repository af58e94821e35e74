/-
# One server for all writes

Which server writes to a bmap go to is stored three times: in `bmi_wr_ion`, against
which CRC updates are checked and which the replies to clients name, in the entry of
the table of assignments, and in every write lease. Granting and upgrading leases
keep the three equal, also where the assignment is left behind.

Key theorem: `one_ios_run`.
-/
import Slash2.Lease.Asg

namespace Slash2.Lease

open Lib Option Function

/-- What `mds_bmap_crc_write` does with an update for the bmap. -/
inductive CrcFate where
  /-- `-EINVAL`: the update is not from the server of the bmap -/
  | foreign
  /-- `-PFLERR_ALREADY`: another update is under way -/
  | busy
  /-- `mds_bmap_crc_update` is called -/
  | update
  deriving DecidableEq

/-- `mds_bmap_crc_write` of a found bmap; `crcUp` is `BMAPF_CRC_UP`. -/
def mdsBmapCrcWrite (crcUp : Bool) (iosid : ℕ) (b : Bmap) : CrcFate :=
  if b.wrIon ≠ some iosid then .foreign else if crcUp then .busy else .update

def Named (b : Bmap) (x : ℕ) : Prop := ∃ bia, b.assign = some bia ∧ (b.bml x).ios = bia.ios

/-- The three agree, but for lease `l`. -/
structure SingleBut (l : ℕ) (b : Bmap) : Prop where
  ion : ∀ bia, b.assign = some bia → b.wrIon = some bia.ios
  others : ∀ x, x ≠ l → (b.bml x).bmi → (b.bml x).write → Named b x

structure Single (b : Bmap) : Prop where
  sound : Sound b
  ion : ∀ bia, b.assign = some bia → b.wrIon = some bia.ios
  leases : ∀ x, (b.bml x).bmi → (b.bml x).write → Named b x

variable {b b' : Bmap} {l : ℕ} {e : Env} {rc : ℤ}

theorem Single.but (h : Single b) (l : ℕ) : SingleBut l b := ⟨h.ion, fun x _ => h.leases x⟩

theorem SingleBut.single (h : SingleBut l b) (hs : Sound b)
    (hl : (b.bml l).bmi → (b.bml l).write → Named b l) : Single b := by
  refine ⟨hs, h.ion, fun x hx hw => ?_⟩
  by_cases hxl : x = l
  · subst hxl
    exact hl hx hw
  · exact h.others x hxl hx hw

theorem SingleBut.of_elsewhere (h : SingleBut l b) (he : Elsewhere l b b') (hasg : b'.asg = b.asg) :
    SingleBut l b' := by
  have hassign : b'.assign = b.assign := congrArg Asg.assign hasg
  refine ⟨fun bia hbia => ?_, fun x hxl hx hw => ?_⟩
  · rw [show b'.wrIon = b.wrIon from congrArg Asg.wrIon hasg]
    exact h.ion bia (hassign ▸ hbia)
  · obtain ⟨g, c, d, hb, -⟩ := he.near x hxl
    rw [hb] at hx hw
    obtain ⟨bia, hbia, hios⟩ := h.others x hxl hx hw
    exact ⟨bia, hassign.trans hbia, by rw [hb]; exact hios⟩

/-! ### Choosing and keeping a server -/

theorem mdsBmapIosAssign_single (h : SingleBut l b) (hios : mdsBmapIosAssign e l b = some (b', rc)) :
    SingleBut l b' ∧ (rc = 0 → Named b' l) := by
  have he := (mdsBmapIosAssign_reassigned hios).moves.toElsewhere
  obtain ⟨hv, hios⟩ := ite_none_left_eq_some.mp hios
  have hnone : b.assign = none := not_isSome_iff_eq_none.mp (not_or.mp hv).2
  -- without an entry there is no other write lease
  have hothers : ∀ x, x ≠ l → (b'.bml x).bmi = true → (b'.bml x).write = true → Named b' x := fun x hxl hx hw => by
      obtain ⟨g, c, d, hb, -⟩ := he.near x hxl
      rw [hb] at hx hw
      obtain ⟨bia, hbia, -⟩ := h.others x hxl hx hw
      exact absurd (hbia.symm.trans hnone) (by simp)
  have hunset {a : Option ℕ} : ∀ bia, b.assign = some bia → a = some bia.ios := fun bia hbia =>
    absurd (hbia.symm.trans hnone) (by simp)
  split at hios
  · cases hios
    exact ⟨⟨hunset, hothers⟩, fun h0 => absurd h0 (by decide)⟩
  next r _ =>
  have hset : ∀ bia, (assignTo e l r b).assign = some bia →
      (assignTo e l r b).wrIon = some bia.ios := fun bia hbia => by
    cases hbia
    rfl
  split_ifs at hios <;> cases hios
  · exact ⟨⟨hset, hothers⟩, fun h0 => absurd h0 (by decide)⟩
  · refine ⟨⟨hset, hothers⟩, fun _ => ⟨_, rfl, ?_⟩⟩
    rw [modify_bml]
    show ((assignTo e l r b).bml l).ios = r
    rw [show (assignTo e l r b).bml l = _ from update_self ..]
  · exact ⟨⟨hunset, hothers⟩, fun h0 => absurd h0 (by decide)⟩

theorem mdsBmapIosUpdate_single (h : SingleBut l b) (hios : mdsBmapIosUpdate e l b = some (b', rc)) :
    SingleBut l b' ∧ (rc = 0 → Named b' l) ∧ b'.wrIon = b.wrIon := by
  have he := (mdsBmapIosUpdate_reassigned hios).moves.toElsewhere
  unfold mdsBmapIosUpdate at hios
  split at hios
  · cases hios
  next bia hbia =>
  split_ifs at hios <;> cases hios
  · exact ⟨h, fun h0 => absurd h0 (by decide), rfl⟩
  refine ⟨⟨fun bia' hbia' => ?_, fun x hxl hx hw => ?_⟩, fun _ => ⟨_, rfl, ?_⟩, rfl⟩
  · cases hbia'
    exact h.ion bia hbia
  · obtain ⟨g, c, d, hb, -⟩ := he.near x hxl
    rw [hb] at hx hw
    obtain ⟨bia', hbia', hx'⟩ := h.others x hxl hx hw
    obtain rfl : bia = bia' := some.inj (hbia.symm.trans hbia')
    exact ⟨_, rfl, by rw [hb]; exact hx'⟩
  · show (update b.bml l _ l).ios = bia.ios
    rw [update_self]

theorem mdsBmapBmlAdd_single (h : SingleBut l b) (hrec : (b.bml l).recover = false)
    (hadd : mdsBmapBmlAdd e l b = some (b', rc)) : SingleBut l b' ∧ (rc = 0 → (b.bml l).write →
      Named b' l ∧ ∀ bia, b.assign = some bia → b'.wrIon = b.wrIon) := by
  rcases mdsBmapBmlAdd_cases hadd with ⟨hrc, hdio⟩ | ⟨b₀, rc₀, d, b₁, hdio, -, -, hatt, hmode⟩
  · exact ⟨h.of_elsewhere (mdsBmapDirectio_near hdio l) (mdsBmapDirectio_asg hdio), fun h0 => absurd h0 hrc⟩
  have he₁ := (mdsBmapDirectio_near hdio l).trans (attach_elsewhere hatt)
  have hasg₁ : b₁.asg = b.asg := (attach_asg hatt).trans (mdsBmapDirectio_asg hdio)
  rcases hmode with ⟨-, hassign⟩ | ⟨hw, -, rfl⟩
  · have hasg : (countWriter d b₁).asg = b.asg := (countWriter_counted d b₁).asg.trans hasg₁
    have h₁ := h.of_elsewhere (he₁.trans (countWriter_counted d b₁).moves.toElsewhere) hasg
    obtain ⟨g, a, c, dcb, hb₁⟩ := placed_of_attach hdio hatt
    have hrec₁ : ¬ ((countWriter d b₁).bml l).recover := by
      rw [(countWriter_counted ..).bml, hb₁]
      simp [hrec]
    unfold addAssign at hassign
    rw [if_neg hrec₁] at hassign
    split at hassign
    · obtain ⟨-, hassign⟩ := ite_none_left_eq_some.mp hassign
      obtain ⟨h', hl⟩ := mdsBmapIosAssign_single h₁ hassign
      obtain ⟨hv, -⟩ := mdsBmapIosAssign_asg hassign
      have hnone : b.assign = none := (congrArg Asg.assign hasg).symm.trans hv.2
      exact ⟨h', fun h0 _ => ⟨hl h0, fun bia hbia => absurd (hbia.symm.trans hnone) (by simp)⟩⟩
    obtain ⟨-, hassign⟩ := ite_none_left_eq_some.mp hassign
    obtain ⟨h', hl, hion⟩ := mdsBmapIosUpdate_single h₁ hassign
    exact ⟨h', fun h0 _ => ⟨hl h0, fun _ _ => hion.trans (congrArg Asg.wrIon hasg)⟩⟩
  · refine ⟨h.of_elsewhere ?_ ?_, fun _ hw' => clash hw' hw⟩
    · exact (he₁.trans (elsewhere_modify l b₁ _)).trans (countReader_counted d _).moves.toElsewhere
    · exact (countReader_counted d _).asg.trans hasg₁

/-! ### Release -/

theorem releaseAssign_ends {m : Bml} (h : releaseAssign m b = some b') : b'.asg = b.asg ∨ b'.assign = none := by
  unfold releaseAssign at h
  split_ifs at h with _ _ _ _ hrec
  · cases h
    exact .inl rfl
  · cases h
    exact .inl rfl
  · cases h
    exact .inr (not_isSome_iff_eq_none.mp (not_or.mp hrec).1)
  split at h
  · cases h
  · obtain ⟨-, ⟨⟩⟩ := ite_none_left_eq_some.mp h
    exact .inr rfl

theorem mdsBmapBmlRelease_single (h : SingleBut l b) (hs : Sound b) (hl : ((b.bml l).bmi →
    (b.bml l).write → Named b l) ∨ ((b.bml l).freeing ∧ (b.bml l).refcnt ≤ 1))
    (hrel : mdsBmapBmlRelease l b = some b') : Single b' := by
  have hs' := mdsBmapBmlRelease_sound hs hrel
  have he := mdsBmapBmlRelease_elsewhere hrel
  rcases mdsBmapBmlRelease_cases hrel with
    ⟨hkeep, -, rfl⟩ | ⟨-, hoff, rfl⟩ | ⟨-, -, hbmi, b₁, b₂, hdel, hend, rfl⟩
  · refine (h.of_elsewhere he rfl).single hs' ?_
    have hself : (b.modify l Bml.unref).bml l = Bml.unref (b.bml l) := update_self ..
    rcases hl with hl | ⟨hf, hrc⟩
    · intro hx hw
      rw [hself] at hx hw
      obtain ⟨bia, hbia, hios⟩ := hl hx hw
      exact ⟨bia, hbia, by rw [hself]; exact hios⟩
    rcases hkeep with hgt | hnot
    · omega
    · exact clash hf hnot
  · refine (h.of_elsewhere he rfl).single hs' fun hx => ?_
    rw [pool_bml] at hx
    exact clash hx hoff
  · obtain ⟨hasg, -⟩ := freed_writers hs hbmi hdel
    have hkeep (heq : b₂.asg = (clearDio (detach l b₁)).asg)
        (hbook : b₂.book = (clearDio (detach l b₁)).book) : Single (pool l b₂) :=
      (h.of_elsewhere he (heq.trans hasg)).single hs' fun hx =>
        clash hx (freed_off hbook)
    split at hend
    · next hlast =>
      have hbook := releaseAssign_book hend
      rcases releaseAssign_ends hend with heq | hnone
      · exact hkeep heq hbook
      -- no write lease is left
      have hno : ¬ HasWriter (pool l b₂) := by
        have hcount : (pool l b₂).writers = (clearDio (detach l b₁)).writers :=
          (congrArg Book.writers (pool_book l b₂)).trans (congrArg Book.writers hbook)
        exact hs'.writers_eq_zero.mp (hcount.trans hlast.2)
      exact ⟨hs', fun bia hbia => absurd (hbia.symm.trans hnone) (by simp), fun x hx hxw => absurd ⟨x, hx, hxw⟩ hno⟩
    · cases hend
      exact hkeep rfl rfl

/-- A reassignment chooses the same server. -/
def Stays (b : Bmap) : Event → Prop
  | .reassign l e => (b.bml l).write → b.writers ≤ 1 → b.readers = 0 → e.addRepl = 0 →
      e.resm.isSome → e.resm = b.wrIon
  | _ => True

instance (b : Bmap) : ∀ ev, Decidable (Stays b ev)
  | .lease .. | .getbml .. | .ack .. | .upgrade .. | .reassign .. | .free .. | .release .. => by
    unfold Stays
    infer_instance

theorem Single.push (h : Single b) (m : Bml) : SingleBut b.next (b.push m) := by
  refine ⟨h.ion, fun x hx hbmi hw => ?_⟩
  have hsame : (b.push m).bml x = b.bml x := update_of_ne hx ..
  rw [hsame] at hbmi hw
  obtain ⟨bia, hbia, hios⟩ := h.leases x hbmi hw
  exact ⟨bia, hbia, by rw [hsame]; exact hios⟩

theorem Single.modify (h : Single b) (l : ℕ) (f : Bml → Bml) (hf : ∀ m, (f m).toLink = m.toLink := by intro; rfl)
    (hp : ∀ m, (f m).pooled = m.pooled := by intro; rfl) (hi : ∀ m, (f m).ios = m.ios := by intro; rfl) :
    Single (b.modify l f) := by
  have hself : (b.modify l f).bml l = f (b.bml l) := update_self ..
  refine ((h.but l).of_elsewhere (elsewhere_modify l b f) rfl).single (h.sound.modify l f hf hp) fun hx hw => ?_
  rw [hself] at hx hw
  rw [hf] at hx hw
  obtain ⟨bia, hbia, hios⟩ := h.leases l hx hw
  exact ⟨bia, hbia, by rw [hself, hi]; exact hios⟩

variable {cnp : Nidpid}

theorem mdsBmapLoadCli_single {rw' : Rw} {dio : Bool} {r : Except ℤ Bmapdesc}
    (h : Single b) (hload : mdsBmapLoadCli cnp rw' dio e b = some (b', r)) :
    Single b' ∧ ∀ sbd, rw' = .write → granted r = some sbd → ∀ bia, b.assign = some bia → sbd.ios = bia.ios := by
  obtain ⟨b₁, rc, hadd, hend⟩ := mdsBmapLoadCli_cases hload
  have hself : (mdsBmlNew cnp rw' dio b).bml b.next = requestedBml cnp rw' dio := push_self b _
  have hs₁ := mdsBmapBmlAdd_sound (mdsBmlNew_sound h.sound cnp rw' dio) (mdsBmlNew_fresh cnp rw' dio b) hadd
  obtain ⟨h₁, hserver⟩ := mdsBmapBmlAdd_single (h.push _) (by rw [push_self]; rfl) hadd
  obtain ⟨g, a, c, d, i, s, f, hkin⟩ := (mdsBmapBmlAdd_moves hadd).kin
  rw [hself] at hkin
  rw [push_self] at hserver
  rcases hend with ⟨-, rfl, hrel⟩ | ⟨rfl, hrel, ios, hios, rfl⟩
  · have hfail : (b₁.modify b.next (Bml.failed rc)).bml b.next = Bml.failed rc (b₁.bml b.next) := update_self ..
    have h₂ := h₁.of_elsewhere (elsewhere_modify b.next b₁ (Bml.failed rc)) rfl
    have hs₂ := hs₁.modify b.next (Bml.failed rc)
    refine ⟨mdsBmapBmlRelease_single h₂ hs₂ (.inr ⟨by rw [hfail]; rfl, ?_⟩) hrel, fun sbd _ hsbd => by cases hsbd⟩
    rw [hfail]
    rw [hkin]
    exact Int.le_refl 1
  · refine ⟨mdsBmapBmlRelease_single h₁ hs₁ (.inl fun _ hw => ?_) hrel, fun sbd hw hsbd bia hbia => ?_⟩
    · rw [hkin] at hw
      exact (hserver rfl hw).1
    · subst hw
      cases hsbd
      have hion : b₁.wrIon = b.wrIon := (hserver rfl rfl).2 bia hbia
      have hsome : writeIos b₁ = some ios := hios rfl
      obtain ⟨-, hsome⟩ := ite_none_left_eq_some.mp hsome
      exact some.inj (hsome.symm.trans (hion.trans (h.ion bia hbia)))

theorem mdsBmapBmlChwrmode_single {rc : Option ℤ} (h : Single b) (hl : (b.bml l).bmi)
    (hch : mdsBmapBmlChwrmode e l b = some (b', rc)) : Single b' := by
  have hs' := mdsBmapBmlChwrmode_sound h.sound hl hch
  rcases mdsBmapBmlChwrmode_cases hch with ⟨hw, rfl, rfl⟩ | ⟨hw, b₀, rc₀, hdio, hcont⟩
  · exact h
  have h₀ := (h.but l).of_elsewhere (mdsBmapDirectio_near hdio l) (mdsBmapDirectio_asg hdio)
  obtain ⟨g, a, c, dcb, hb₀⟩ := mdsBmapDirectio_placed hdio l
  have hread₀ : (b₀.bml l).write = false := by rw [hb₀]; exact hw
  rcases hcont with ⟨-, rfl, -⟩ | ⟨-, b₁, rc₁, hios, hturn⟩
  · exact h₀.single hs' fun _ hw' => clash hw' hread₀
  have h₁ : SingleBut l b₁ ∧ (rc₁ = 0 → Named b₁ l) := by
    split at hios
    · obtain ⟨h₁, hl₁, -⟩ := mdsBmapIosUpdate_single h₀ hios
      exact ⟨h₁, hl₁⟩
    · exact mdsBmapIosAssign_single h₀ hios
  obtain ⟨g', a', c', d', i', s', f', hb₁⟩ := (iosChange_reassigned hios).moves.kin
  rcases hturn with ⟨-, rfl, -⟩ | ⟨hrc₁, -, d, -, rfl⟩
  · refine (h₁.1.of_elsewhere (elsewhere_modify l b₁ _) rfl).single hs' fun _ hw' => ?_
    rw [modify_bml] at hw'
    have hread : (b₁.bml l).write = false := by rw [hb₁]; exact hread₀
    exact clash hw' hread
  have he : Elsewhere l b₁ ((countUpgrade d b₁).modify l Bml.turned) :=
    (countUpgrade_counted d b₁).moves.toElsewhere.trans (elsewhere_modify l _ _)
  have hasg : ((countUpgrade d b₁).modify l Bml.turned).asg = b₁.asg := (countUpgrade_counted d b₁).asg
  refine (h₁.1.of_elsewhere he hasg).single hs' fun _ _ => ?_
  obtain ⟨bia, hbia, hios'⟩ := h₁.2 hrc₁
  refine ⟨bia, (congrArg Asg.assign hasg).trans hbia, ?_⟩
  rw [modify_bml]
  rw [(countUpgrade_counted ..).bml]
  exact hios'

theorem moveLease_single {r : ℕ} {bia : Bia} (h : Single b) (hbia : b.assign = some bia)
    (hr : b.wrIon = some r) : Single (moveLease l e r bia b) := by
  have hself : (moveLease l e r bia b).bml l = { b.bml l with seq := e.seq, ios := r } := update_self ..
  have hsame {x : ℕ} (hx : x ≠ l) : (moveLease l e r bia b).bml x = b.bml x := update_of_ne hx ..
  have hios : bia.ios = r := some.inj ((h.ion bia hbia).symm.trans hr)
  refine ⟨moveLease_sound h.sound .., fun bia' hbia' => ?_, fun x hx hw => ⟨_, rfl, ?_⟩⟩
  · cases hbia'
    exact hr
  · by_cases hxl : x = l
    · rw [hxl, hself]
    · rw [hsame hxl] at hx hw ⊢
      obtain ⟨bia', hbia', hx'⟩ := h.leases x hx hw
      obtain rfl : bia = bia' := some.inj (hbia.symm.trans hbia')
      exact hx'.trans hios

theorem mdsBmapGetbml_single {seq : ℕ} {r : Option ℕ} (h : Single b)
    (hget : mdsBmapGetbml b seq cnp = some (b', r)) : Single b' := by
  rcases mdsBmapGetbml_cases hget with ⟨rfl, -⟩ | ⟨l, -, -, -, -, rfl, -⟩
  · exact h
  · exact h.modify l Bml.ref

theorem step_single {ev : Event} (h : Single b) (hstay : Stays b ev) (hstep : step b ev = some b') : Single b' := by
  obtain ⟨hen, sbd, hd⟩ := step_cases hstep
  cases hd with
  | lease hload => exact (mdsBmapLoadCli_single h hload).1
  | getbml hget => exact mdsBmapGetbml_single h hget
  | lost hget => exact mdsBmapGetbml_single h hget
  | acked hget =>
    exact (mdsBmapGetbml_single h hget).modify _ _
  | upgrade hup =>
    obtain ⟨rc, hch, -⟩ := slmRmcHandleBmapChwrmode_cases hup
    exact mdsBmapBmlChwrmode_single h hen.1 hch
  | reassign hre =>
    rcases mdsLeaseReassign_cases hre with
      ⟨rfl, -⟩ | ⟨bia, r', hw, hws, hrs, hbia, -, hr', hrepl, rfl, -⟩
    · exact h
    · have hion := hstay hw hws hrs hrepl (by rw [hr']; rfl)
      exact moveLease_single h hbia (hion.symm.trans hr')
  | free => exact h.modify _ _
  | release hrel => exact mdsBmapBmlRelease_single (h.but _) h.sound (.inl (h.leases _)) hrel

theorem mdsBiaOdtableStartupCb_single {bia : Bia} (hs : Sound b)
    (hnone : ∀ x, (b.bml x).bmi = false) (h : mdsBiaOdtableStartupCb bia e b = some b') : Single b' := by
  have hothers {b₂ : Bmap} (hsole : Sole b₂ b.next) : ∀ x, x ≠ b.next →
      (b₂.bml x).bmi = true → (b₂.bml x).write = true → Named b₂ x :=
    fun x hx hbmi => clash hbmi (hsole.others x hx)
  obtain ⟨b₁, rc, hadd, hsole, hkin, ⟨-, hrel⟩ | ⟨hrc, hrel⟩⟩ := mdsBiaOdtableStartupCb_cases hs hnone h
  · obtain ⟨-, hf, hrc⟩ := unrecovered_self hkin
    have hnoentry : (b₁.unassign.modify b.next Bml.unrecovered).assign = none := rfl
    exact mdsBmapBmlRelease_single ⟨fun _ hbia => absurd (hbia.symm.trans hnoentry) (by simp),
      hothers hsole.unrecovered⟩ hsole.unrecovered.sound (.inr ⟨hf, hrc⟩) hrel
  rcases mdsBmapBmlAdd_recovered (push_self (b.found bia) _) hadd with
    ⟨-, hne, -⟩ | ⟨-, -, hios, hasg⟩
  · exact absurd hrc hne
  have hassign : b₁.assign = some bia := congrArg Asg.assign hasg
  refine mdsBmapBmlRelease_single ⟨fun bia' hbia' => ?_, hothers hsole⟩ hsole.sound
    (.inl fun _ _ => ⟨bia, hassign, hios⟩) hrel
  obtain rfl : bia = bia' := some.inj (hassign.symm.trans hbia')
  exact congrArg Asg.wrIon hasg

theorem start_single (h : Start b) : Single b := by
  cases h with
  | unleased fid bmapno =>
    exact ⟨sound_unleased fid bmapno, fun _ hbia => (nomatch hbia), fun _ hx => (nomatch hx)⟩
  | recovered bia e h =>
    exact mdsBiaOdtableStartupCb_single (sound_unleased bia.fid bia.bmapno) (fun _ => rfl) h

/-- **One server** for a bmap, without a reassignment to another. -/
theorem one_ios_run {b₀ b : Bmap} {evs : List Event} {bia : Bia} (h₀ : Start b₀)
    (hstay : Admits step Stays b₀ evs) (hrun : run step b₀ evs = some b) (hbia : b.assign = some bia) :
    b.wrIon = some bia.ios ∧ (∀ x, (b.bml x).bmi = true → (b.bml x).write = true → (b.bml x).ios = bia.ios) ∧
    (∀ crcUp iosid, mdsBmapCrcWrite crcUp iosid b = .foreign ↔ iosid ≠ bia.ios) ∧
    ∀ cnp dio e b' sbd, handle b (.lease cnp .write dio e) = some (b', some sbd) → sbd.ios = bia.ios := by
  have h : Single b := run_invariant step_single (start_single h₀) hstay hrun
  have hion := h.ion bia hbia
  refine ⟨hion, fun x hx hw => ?_, fun crcUp iosid => ?_, fun cnp dio e b' sbd hh => ?_⟩
  · obtain ⟨bia', hbia', hios⟩ := h.leases x hx hw
    obtain rfl : bia = bia' := some.inj (hbia.symm.trans hbia')
    exact hios
  · unfold mdsBmapCrcWrite
    rw [hion]
    by_cases hsame : iosid = bia.ios
    · simp only [hsame]
      cases crcUp <;> simp
    · simp [Ne.symm hsame, hsame]
  · obtain ⟨⟨b₁, r⟩, hload, hr⟩ := map_eq_some_iff.mp hh
    exact (mdsBmapLoadCli_single h hload).2 sbd rfl (congrArg Prod.snd hr) bia hbia

def movedInPlace : List Event :=
  [.lease ⟨1, 1⟩ .write false ⟨some 9, true, 0, 5, false⟩, .getbml 5 ⟨1, 1⟩,
   .reassign 0 ⟨some 9, true, 0, 6, false⟩, .release 0]

theorem one_ios_movedInPlace : ∃ b bia, run step (unleased 1 0) movedInPlace = some b ∧
    b.assign = some bia ∧ b.wrIon = some bia.ios ∧
    (∀ x, (b.bml x).bmi = true → (b.bml x).write = true → (b.bml x).ios = bia.ios) ∧
    (∀ crcUp iosid, mdsBmapCrcWrite crcUp iosid b = .foreign ↔ iosid ≠ bia.ios) ∧
    ∀ cnp dio e b' sbd, handle b (.lease cnp .write dio e) = some (b', some sbd) → sbd.ios = bia.ios := by
  have hrun : ∃ b ∈ run step (unleased 1 0) movedInPlace, ∃ bia ∈ b.assign, bia.ios = 9 := by decide
  have hstay : Admits step Stays (unleased 1 0) movedInPlace := by decide
  obtain ⟨b, hb, bia, hbia, -⟩ := hrun
  exact ⟨b, bia, hb, hbia, one_ios_run (.unleased 1 0) hstay hb hbia⟩

/-- **Two servers**: entry and lease name 10, updates and the next lease 9. -/
theorem reassigned_elsewhere : ∃ b ∈ run step (unleased 1 0)
      [.lease ⟨1, 1⟩ .write false ⟨some 9, true, 0, 5, false⟩, .getbml 5 ⟨1, 1⟩,
       .reassign 0 ⟨some 10, true, 0, 6, false⟩, .release 0],
    b.assign.map Bia.ios = some 10 ∧ (b.bml 0).bmi = true ∧ (b.bml 0).ios = 10 ∧
    mdsBmapCrcWrite false 10 b = .foreign ∧ mdsBmapCrcWrite false 9 b = .update ∧
    ((handle b (.lease ⟨1, 1⟩ .write false ⟨some 10, true, 0, 7, false⟩)).bind Prod.snd).map Bmapdesc.ios = some 9 := by
  decide

end Slash2.Lease
