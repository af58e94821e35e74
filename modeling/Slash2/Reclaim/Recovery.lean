/-
# Recovery of the reclaim log

Every disk a crash may leave has its log files in order (`LogOk`): all but the last are
full, and no file is missing that an I/O server may still be at. A file is removed only
after all I/O servers have got two batches further, and this progress is recorded first.

Key theorems: `step_orderly`, `reclaim_recovery`.
-/
import Slash2.Reclaim.Send

namespace Slash2.Reclaim

open Residency Lib List Option Function

/-! ### The disk and its versions -/

structure StoreOk (ids : List IosId) (si : IosId → Si) (p : Prg) (st : Store Disk) : Prop where
  versions : ∀ k, ∃ c, c ≤ p.curBatchno ∧ LogOk ids (st.version k) c
  log : LogOk ids st.cur p.curBatchno
  stage : StageOk st.cur p
  ahead : ∀ i ∈ ids, (st.cur.load i).batchno ≤ (si i).batchno

section
variable {ids : List IosId} {si si' : IosId → Si} {p : Prg} {st : Store Disk}

theorem StoreOk.write (h : StoreOk ids si p st) {p' : Prg} {d : Disk}
    (hlog : LogOk ids d p'.curBatchno) (hstage : StageOk d p')
    (hahead : ∀ i ∈ ids, (d.load i).batchno ≤ (si' i).batchno) (hle : p.curBatchno ≤ p'.curBatchno) :
    StoreOk ids si' p' (st.write d) where
  versions := by
    refine forall_version_write (P := fun d => ∃ c, c ≤ p'.curBatchno ∧ LogOk ids d c) (fun k => ?_) ⟨_, le_rfl, hlog⟩
    obtain ⟨c, hc, hlog⟩ := h.versions k
    exact ⟨c, hc.trans hle, hlog⟩
  log := hlog
  stage := hstage
  ahead := hahead

theorem StoreOk.mono (h : StoreOk ids si p st)
    (hsi : ∀ i ∈ ids, (si i).batchno ≤ (si' i).batchno) : StoreOk ids si' p st :=
  { h with ahead := fun i hi => (h.ahead i hi).trans (hsi i hi) }

theorem StageOk.congr {d d' : Disk} (h : StageOk d p) (hf : d'.files p.curBatchno = d.files p.curBatchno)
    (hh : d'.hist p.curBatchno = d.hist p.curBatchno) : StageOk d' p := by
  unfold StageOk at h ⊢
  rw [hf, hh]
  exact h

theorem StoreOk.remove (h : StoreOk ids si p st) {n : ℕ} (hn : n + 2 ≤ st.cur.recorded ids) :
    StoreOk ids si p (mdsRemoveLogfile st n) := by
  have hle := h.log.recorded_le ids
  refine mdsRemoveLogfile_cases h (h.write (h.log.unlink hn) ?_ h.ahead le_rfl)
  exact h.stage.congr (Disk.setFile_files_of_ne _ (by omega) _) rfl

theorem Disk.record_load (d : Disk) {i : IosId} (hi : i ∈ ids) :
    ((d.record ids si).load i).batchno = (si i).batchno := by
  simp [Disk.load, Disk.record, hi]

theorem Disk.record_recorded (d : Disk) : (d.record ids si).recorded ids = mdsReclaimHwm ids si := by
  refine Nat.le_antisymm ?_ ?_
  · exact hwm_mono (fun _ hi => hi) fun i hi => Nat.le_of_eq (d.record_load hi)
  · exact hwm_mono (fun _ hi => hi) fun i hi => Nat.le_of_eq (d.record_load hi).symm

section
variable (h : StoreOk ids si p st) (hle : ∀ i ∈ ids, (si i).batchno ≤ p.curBatchno)
include h hle

theorem StoreOk.record : StoreOk ids si p (st.write (st.cur.record ids si)) := by
  refine h.write (h.log.setProg (fun i q hq => ?_) fun i hi => ?_) (h.stage.congr rfl rfl) (fun i hi => ?_) le_rfl
  · split_ifs at hq with hi
    · cases hq
      exact hle i hi
    · exact h.log.prog i q hq
  · change _ ≤ ((st.cur.record ids si).load i).batchno
    rw [Disk.record_load _ hi]
    exact h.ahead i hi
  · rw [Disk.record_load _ hi]

theorem StoreOk.conclude {record all : Bool} {b : ℕ} (hall : all → record ∧ b < mdsReclaimHwm ids si) :
    StoreOk ids si p (conclude st ids si record all b) := by
  unfold Reclaim.conclude
  dsimp only
  split_ifs with hcond hrec hrec
  · refine (h.record hle).remove ?_
    have hb := (hall hcond.1).2
    rw [Store.write_cur, Disk.record_recorded]
    omega
  · exact absurd (hall hcond.1).1 hrec
  · exact h.record hle
  · exact h

end

end

/-! ### The reclaim thread -/

structure SendOk (ids : List IosId) (si : IosId → Si) (p : Prg) (r : Rarg) : Prop where
  full : r.count = slmReclaimBatchNents → r.batchno < p.curBatchno
  pend : ∀ i rs, r.pend i = some rs → i ∈ ids ∧ (si i).batchno = r.batchno
  ndone : r.count = slmReclaimBatchNents → r.ndone ≤ ids.countP fun i => r.batchno < (si i).batchno
  behind : r.record ∨ ∃ j ∈ ids, (si j).batchno ≤ r.batchno
  next : ∃ j ∈ ids, (si j).batchno ≤ r.next ∧ ((si j).batchno = r.batchno → r.batchno + 1 ≤ r.next)

def ThrOk (ids : List IosId) (si : IosId → Si) (p : Prg) : Thr → Prop
  | .idle => True
  | .loop b => ∃ j ∈ ids, (si j).batchno ≤ b
  | .sending r => SendOk ids si p r

structure Orderly (s : Mds) : Prop where
  store : StoreOk s.conf.ids s.si s.prg s.store
  batch : ∀ i ∈ s.conf.ids, (s.si i).batchno ≤ s.prg.curBatchno
  thr : ThrOk s.conf.ids s.si s.prg s.thr

/-- Batch numbers do not overflow, files not yet recorded as sent are kept, and a restart has all servers and a log. -/
def Steady (s : Mds) : Label → Prop
  | .entry _ _ _ => s.prg.curBatchno + 2 < uint64Max
  | .wake => s.cleanup →
      mdsReclaimLwm s.conf.ids s.si Si.batchno ≤ s.store.cur.recorded s.conf.ids
  | .restart k c => (∀ i ∈ s.conf.ids, i ∈ c.ids) ∧
      ((s.store.version k).files ((s.store.version k).recorded c.ids)).isSome
  | _ => True

instance (s : Mds) (a : Label) : Decidable (Steady s a) := by
  cases a <;> unfold Steady <;> infer_instance

theorem fresh_orderly (c : Conf) : Orderly (Mds.fresh c) where
  store :=
    { versions := forall_version_opened (P := fun d => ∃ m, m ≤ 0 ∧ LogOk c.ids d m)
        ⟨0, Nat.le_refl 0, logOk_mkfs c.ids⟩
      log := logOk_mkfs c.ids
      stage := trivial
      ahead := fun _ _ => Nat.le_refl 0 }
  batch _ _ := Nat.le_refl 0
  thr := trivial

section
variable {s t : Mds}

theorem Orderly.resume (h : Orderly s) (didwork : ℕ) {next : ℕ}
    (hnext : ∃ j ∈ s.conf.ids, (s.si j).batchno ≤ next) : Orderly (s.resume didwork next) where
  store := h.store
  batch := h.batch
  thr := by
    unfold Mds.resume
    split_ifs
    · exact hnext
    · trivial

theorem Orderly.idle (h : Orderly s) : Orderly { s with thr := .idle } := ⟨h.store, h.batch, trivial⟩

variable {b : ℕ} {si : Si}

theorem skipSi_batchno : (skipSi b si).batchno = if si.batchno = b then b + 1 else si.batchno := by
  unfold skipSi
  split_ifs with h
  · rw [h]
  · rfl

theorem le_skipSi_batchno (b : ℕ) (si : Si) : si.batchno ≤ (skipSi b si).batchno := by
  rw [skipSi_batchno]
  split_ifs <;> omega

theorem Orderly.skip (h : Orderly s) (hloop : ∃ j ∈ s.conf.ids, (s.si j).batchno ≤ b) :
    Orderly { mdsSkipReclaimBatch b s with thr := .idle } := by
  unfold mdsSkipReclaimBatch
  split_ifs with hcur
  · exact h.idle
  have hle : ∀ i ∈ s.conf.ids, (skipSi b (s.si i)).batchno ≤ s.prg.curBatchno := fun i hi => by
    have := h.batch i hi
    rw [skipSi_batchno]
    split_ifs <;> omega
  refine ⟨?_, hle, trivial⟩
  refine (h.store.mono fun i _ => le_skipSi_batchno b (s.si i)).conclude hle fun hall => ?_
  -- the I/O server that is not past the batch is at it
  obtain ⟨j, hj, hjb⟩ := hloop
  have hge : b ≤ (s.si j).batchno := by
    simpa using countP_eq_length.mp (of_decide_eq_true hall) j hj
  have heq : (s.si j).batchno = b := by omega
  refine ⟨any_eq_true.mpr ⟨j, hj, by simpa using heq⟩, ?_⟩
  have := le_hwm (f := fun i => (skipSi b (s.si i)).batchno) hj
  rw [skipSi_batchno, if_pos heq] at this
  exact this

variable {d : Disk} {rs : List Rec} {ids : List IosId}

theorem LogOk.read {c n : ℕ} (h : LogOk ids d c) {r : Rec}
    (hf : d.files n = some (r :: rs)) : n ≤ c ∧ rs = (d.hist n).map Entry.re := by
  constructor
  · by_contra hlt
    rw [(h.above n (by omega)).1] at hf
    cases hf
  · rcases h.file n _ hf with ⟨hnil, -⟩ | heq
    · cases hnil
    · exact (cons.inj heq).2

theorem LogOk.length_le {c n : ℕ} (h : LogOk ids d c) (hn : n ≤ c) :
    (d.hist n).length + 1 ≤ slmReclaimBatchNents ∧ ((d.hist n).length + 1 = slmReclaimBatchNents → n < c) := by
  have hroom := h.room
  rcases Nat.lt_or_eq_of_le hn with hlt | rfl
  · exact ⟨Nat.le_of_eq (h.full n hlt), fun _ => hlt⟩
  · exact ⟨by omega, by omega⟩

theorem Orderly.send (h : Orderly s) (conn : IosId → Bool)
    (hloop : ∃ j ∈ s.conf.ids, (s.si j).batchno ≤ b) : Orderly (mdsSendBatchReclaim conn b s) := by
  have hskip : Orderly ((mdsSkipReclaimBatch b s).resume 1 (b + 1)) := by
    refine (h.skip hloop).resume 1 ?_
    obtain ⟨j, hj, hjb⟩ := hloop
    unfold mdsSkipReclaimBatch
    split_ifs
    · exact ⟨j, hj, by dsimp only; omega⟩
    refine ⟨j, hj, ?_⟩
    rw [skipSi_batchno]
    split_ifs <;> omega
  unfold mdsSendBatchReclaim
  cases hf : s.store.cur.files b with
  | none =>
    split_ifs
    · exact hskip
    · exact h.idle
  | some f =>
    cases f with
    | nil => exact h.idle
    | cons r rs =>
      dsimp only
      split_ifs with hnil hlong
      · exact h.idle
      · exact hskip
      obtain ⟨hbc, hrs⟩ := h.store.log.read hf
      refine ⟨h.store, h.batch, ?_, fun i sent hi => ?_, fun hfull => ?_, .inr hloop, ?_⟩
      · change rs.length + 1 = _ → _
        rw [hrs, length_map]
        exact (h.store.log.length_le hbc).2
      · obtain ⟨hmem, hi⟩ := ite_none_right_eq_some.mp hi
        exact ⟨hmem, ask_send_batchno (ask_records hi)⟩
      · refine countP_mono_left fun i _ hi => ?_
        exact decide_eq_true (ask_done_batchno hfull (of_decide_eq_true hi))
      · unfold sendArg
        dsimp only
        split_ifs with hnb
        · obtain ⟨j, hj, hjb⟩ := exists_nextBatchno hnb.1
          exact ⟨j, hj, Nat.le_of_eq hjb, fun he => absurd (hjb.symm.trans he) hnb.2⟩
        · obtain ⟨j, hj, hjb⟩ := hloop
          exact ⟨j, hj, by omega, fun _ => le_rfl⟩

theorem countP_lt_countP {α : Type*} {p q : α → Bool} {l : List α} (hpq : ∀ x ∈ l, p x → q x) {a : α}
    (ha : a ∈ l) (hp : p a = false) (hq : q a) : l.countP p < l.countP q := by
  obtain ⟨l₁, l₂, rfl⟩ := append_of_mem ha
  have h₁ : l₁.countP p ≤ l₁.countP q := countP_mono_left fun x hx => hpq x (mem_append_left _ hx)
  have h₂ : l₂.countP p ≤ l₂.countP q :=
    countP_mono_left fun x hx => hpq x (mem_append_right _ (mem_cons_of_mem _ hx))
  simp only [countP_append, countP_cons, hp, hq, if_true, Bool.false_eq_true, if_false]
  omega

variable {i : IosId}

theorem pend_of_answered {pend : IosId → Option (List Rec)} {j : IosId}
    (h : update pend i none j = some rs) : j ≠ i ∧ pend j = some rs := by
  by_cases hji : j = i
  · rw [hji, update_self] at h
    cases h
  · rw [update_of_ne hji] at h
    exact ⟨hji, h⟩

variable {si : IosId → Si} {p : Prg} {r : Rarg}

theorem SendOk.drop (h : SendOk ids si p r) (i : IosId) : SendOk ids si p { r with pend := update r.pend i none } :=
  { h with pend := fun j rs hj => h.pend j rs (pend_of_answered hj).2 }

theorem ackSi_batchno {si : Si} : (ackSi r si).batchno =
    if r.count = slmReclaimBatchNents then si.batchno + 1 else si.batchno := rfl

theorem SendOk.ack (h : SendOk ids si p r) (hi : r.pend i = some rs) : SendOk ids (update si i (ackSi r (si i))) p
      { r with pend := update r.pend i none, ndone := r.ndone + 1, record := true } := by
  obtain ⟨hmem, hbi⟩ := h.pend i rs hi
  refine ⟨h.full, fun j rs' hj => ?_, fun hfull => ?_, .inl rfl, ?_⟩
  · obtain ⟨hji, hj⟩ := pend_of_answered hj
    rw [update_of_ne hji]
    exact h.pend j rs' hj
  · have hlt : ids.countP (fun j => decide (r.batchno < (si j).batchno)) < ids.countP fun j =>
          decide (r.batchno < (update si i (ackSi r (si i)) j).batchno) := by
      refine countP_lt_countP (fun j _ hj => ?_) hmem (by simp [hbi]) ?_
      · by_cases hji : j = i
        · rw [hji, hbi] at hj
          simp at hj
        · rw [update_of_ne hji]
          exact hj
      · rw [update_self, ackSi_batchno, if_pos hfull, hbi]
        simp
    have hle := h.ndone hfull
    dsimp only at hfull ⊢
    omega
  · obtain ⟨j, hj, hjn, hjb⟩ := h.next
    refine ⟨j, hj, ?_⟩
    by_cases hji : j = i
    · have hn := hjb (hji ▸ hbi)
      rw [hji, update_self, ackSi_batchno]
      exact ⟨by dsimp only; split_ifs <;> omega, fun _ => hn⟩
    · rw [update_of_ne hji]
      exact ⟨hjn, hjb⟩

theorem Orderly.reply (h : Orderly s) (hr : SendOk s.conf.ids s.si s.prg r)
    (hi : r.pend i = some rs) (ok : Bool) : Orderly (slmRimReclaimCb r i rs ok s) := by
  obtain ⟨hmem, hbi⟩ := hr.pend i rs hi
  cases ok with
  | false => exact ⟨h.store, h.batch, hr.drop i⟩
  | true =>
    refine ⟨h.store.mono fun j _ => ?_, fun j hj => ?_, hr.ack hi⟩
    · change _ ≤ (update s.si i (ackSi r (s.si i)) j).batchno
      by_cases hji : j = i
      · rw [hji, update_self, ackSi_batchno]
        split_ifs <;> omega
      · rw [update_of_ne hji]
    · change (update s.si i (ackSi r (s.si i)) j).batchno ≤ s.prg.curBatchno
      by_cases hji : j = i
      · have hb := h.batch i hmem
        rw [hji, update_self, ackSi_batchno]
        split_ifs with hfull
        · rw [hbi]
          exact hr.full hfull
        · exact hb
      · rw [update_of_ne hji]
        exact h.batch j hj

theorem SendOk.past_of_all
    (h : SendOk ids si p r) (hall : r.ndone = ids.length) (hfull : r.count = slmReclaimBatchNents) :
    ∀ j ∈ ids, r.batchno < (si j).batchno := by
  have hcount := h.ndone hfull
  have heq := countP_eq_length.mp (Nat.le_antisymm countP_le_length (hall ▸ hcount))
  exact fun j hj => of_decide_eq_true (heq j hj)

section
variable (h : Orderly s)
include h

theorem Orderly.sendDone (hr : SendOk s.conf.ids s.si s.prg r) : Orderly (sendDone r s) := by
  unfold Reclaim.sendDone
  have hstore : StoreOk s.conf.ids s.si s.prg (conclude s.store s.conf.ids s.si r.record
      (r.ndone = s.conf.ids.length ∧ r.count = slmReclaimBatchNents) r.batchno) := by
    refine h.store.conclude h.batch fun hall => ?_
    obtain ⟨hall, hfull⟩ := of_decide_eq_true hall
    have hpast := hr.past_of_all hall hfull
    refine ⟨?_, ?_⟩
    · rcases hr.behind with hrec | ⟨j, hj, hjb⟩
      · exact hrec
      · have := hpast j hj
        omega
    · obtain ⟨j, hj⟩ := exists_mem_of_ne_nil _ s.conf.ne
      exact (hpast j hj).trans_le (le_hwm (f := fun i => (s.si i).batchno) hj)
  obtain ⟨j, hj, hjn, -⟩ := hr.next
  have hidle : Orderly { s with
      store := conclude s.store s.conf.ids s.si r.record
        (r.ndone = s.conf.ids.length ∧ r.count = slmReclaimBatchNents) r.batchno
      thr := .idle } := ⟨hstore, h.batch, trivial⟩
  exact hidle.resume r.ndone ⟨j, hj, hjn⟩

theorem Orderly.wake (hok : Steady s .wake) : Orderly s.wake := by
  have hsmall := h.store.log.small
  refine ⟨?_, h.batch, exists_lwm fun i hi => ?_⟩
  · unfold Mds.wake
    split_ifs with hc
    · -- no removal changes what is recorded
      have hkeep : StoreOk s.conf.ids s.si s.prg
            (mdsRemoveLogfiles s.store (mdsReclaimLwm s.conf.ids s.si Si.batchno)) ∧
          (mdsRemoveLogfiles s.store (mdsReclaimLwm s.conf.ids s.si Si.batchno)).cur.prog =
            s.store.cur.prog := by
        refine mdsRemoveLogfiles_cases (P := fun st => StoreOk s.conf.ids s.si s.prg st ∧
          st.cur.prog = s.store.cur.prog) (fun st n hn hst => ?_) ⟨h.store, rfl⟩
        have hrec : st.cur.recorded s.conf.ids = s.store.cur.recorded s.conf.ids := by
          simp only [Disk.recorded, Disk.load, hst.2]
        refine ⟨hst.1.remove (by rw [hrec]; exact hn.trans (hok hc)), ?_⟩
        exact mdsRemoveLogfile_cases (P := fun st => st.cur.prog = s.store.cur.prog) hst.2 hst.2
      exact hkeep.1
    · exact h.store
  · have hle := h.batch i hi
    change (s.si i).batchno ≤ uint64Max
    omega

theorem Orderly.put {w : Disk × Prg} (hlog : LogOk s.conf.ids w.1 w.2.curBatchno)
    (hstage : StageOk w.1 w.2) (hprog : w.1.prog = s.store.cur.prog)
    (hle : s.prg.curBatchno ≤ w.2.curBatchno) : Orderly (s.put w) where
  store := by
    refine h.store.write hlog hstage (fun i hi => ?_) hle
    simp only [Disk.load, hprog]
    exact h.store.ahead i hi
  batch i hi := (h.batch i hi).trans hle
  thr := by
    have hthr := h.thr
    change ThrOk s.conf.ids s.si w.2 s.thr
    cases hs : s.thr with
    | idle => trivial
    | loop =>
      rw [hs] at hthr
      exact hthr
    | sending =>
      rw [hs] at hthr
      exact { hthr with full := fun hfull => (SendOk.full hthr hfull).trans_le hle }

theorem Orderly.openLog (ht : step s .openLog = some t) : Orderly t := by
  obtain ⟨hcl, ht⟩ := ite_none_right_eq_some.mp ht
  obtain ⟨f, p, hopen, -, hcur, hlog, hstage⟩ := logOk_openLog h.store.log hcl
  rw [hopen] at ht
  cases ht
  exact h.put (hcur.symm ▸ hlog) hstage rfl (Nat.le_of_eq hcur.symm)

theorem Orderly.header (ht : step s .header = some t) : Orderly t := by
  obtain ⟨hcr, ht⟩ := ite_none_right_eq_some.mp ht
  obtain ⟨heq, -, hlog, hstage⟩ := logOk_writeHeader h.store.log h.store.stage hcr
  rw [heq] at ht
  cases ht
  exact h.put hlog hstage rfl le_rfl

theorem Orderly.entry {xid fid gen : ℕ} (hok : Steady s (.entry xid fid gen))
    (ht : step s (.entry xid fid gen) = some t) : Orderly t := by
  obtain ⟨hre, ht⟩ := ite_none_right_eq_some.mp ht
  obtain ⟨p, heq, -, hlog, hstage, hle⟩ := logOk_writeEntry h.store.log h.store.stage hre s.conf.ids xid fid gen
  rw [heq] at ht
  cases ht
  exact h.put (hlog hok) hstage rfl hle

end

variable {k : ℕ} {c : Conf}

theorem Orderly.journalInit (h : Orderly s) (hok : Steady s (.restart k c)) :
    ∃ m, m ≤ s.prg.curBatchno ∧ LogOk c.ids (s.store.version k) m ∧ mdsJournalInit c (s.store.version k) =
        some ((s.store.version k).zeroStale c.ids, ⟨.closed, 0, m, lastXid (s.store.version k) m⟩,
          fun i => fastForward ⟨.closed, 0, m, lastXid (s.store.version k) m⟩ ((s.store.version k).load i)) := by
  obtain ⟨m, hm, hlog⟩ := h.store.versions k
  have hlog := hlog.mono hok.1
  refine ⟨m, hm, hlog, ?_⟩
  unfold mdsJournalInit
  rw [recoverPrg_of_logOk hlog hok.2]
  rfl

theorem fastForward_batchno_le {si : Si} (h : si.batchno ≤ p.curBatchno) :
    si.batchno ≤ (fastForward p si).batchno ∧ (fastForward p si).batchno ≤ p.curBatchno := by
  unfold fastForward
  split_ifs
  · exact ⟨h, le_rfl⟩
  · exact ⟨le_rfl, h⟩

theorem Orderly.restart (h : Orderly s) (hok : Steady s (.restart k c))
    (ht : step s (.restart k c) = some t) : Orderly t := by
  obtain ⟨m, -, hlog, hinit⟩ := h.journalInit hok
  simp only [step, hinit, map_some, some.injEq] at ht
  subst ht
  have hff : ∀ i, _ := fun i =>
    fastForward_batchno_le (p := ⟨.closed, 0, m, lastXid (s.store.version k) m⟩) (Disk.load_batchno_le hlog.prog i)
  refine ⟨⟨?_, hlog.zeroStale, trivial, fun i hi => ?_⟩, fun i _ => (hff i).2, trivial⟩
  · exact forall_version_write (P := fun d => ∃ n, n ≤ m ∧ LogOk c.ids d n)
      (forall_version_opened (P := fun d => ∃ n, n ≤ m ∧ LogOk c.ids d n) ⟨m, Nat.le_refl m, hlog⟩)
      ⟨m, Nat.le_refl m, hlog.zeroStale⟩
  · rw [Store.write_cur, Disk.zeroStale_load hi]
    exact (hff i).1

theorem step_orderly {a : Label} (h : Orderly s) (hok : Steady s a) (ht : step s a = some t) : Orderly t := by
  have hthr := h.thr
  cases a with
  | openLog => exact h.openLog ht
  | header => exact h.header ht
  | entry xid fid gen => exact h.entry hok ht
  | wake =>
    rw [step_wake ht]
    exact h.wake hok
  | send conn =>
    obtain ⟨b, hs, rfl | rfl⟩ := step_send ht
    · exact h.idle
    · rw [hs] at hthr
      exact h.send conn hthr
  | reply i ok =>
    obtain ⟨r, rs, hs, hi, rfl⟩ := step_reply ht
    rw [hs] at hthr
    exact h.reply hthr hi ok
  | finish =>
    obtain ⟨r, hs, rfl⟩ := step_finish ht
    rw [hs] at hthr
    exact h.sendDone hthr
  | gc i off =>
    cases ht
    have hb := fun j => (gc_progress s.si i off j).1
    refine ⟨h.store.mono fun j _ => Nat.le_of_eq (hb j).symm, fun j hj => ?_, ?_⟩
    · rw [hb j]
      exact h.batch j hj
    · cases hs : s.thr with
      | idle => trivial
      | loop b =>
        rw [hs] at hthr
        obtain ⟨j, hj, hjb⟩ := hthr
        exact ⟨j, hj, by rw [hb j]; exact hjb⟩
      | sending r =>
        rw [hs] at hthr
        refine ⟨hthr.full, ?_, ?_, ?_, ?_⟩
        · simpa only [hb] using hthr.pend
        · simpa only [hb] using hthr.ndone
        · simpa only [hb] using hthr.behind
        · simpa only [hb] using hthr.next
  | restart k c => exact h.restart hok ht

end

/-- **The scan gets to the end of the log** after any crash, if all is safe. -/
theorem reclaim_recovery (c : Conf) {as : List Label} {t : Mds}
    (hok : Admits step Steady (Mds.fresh c) as) (ht : run step (Mds.fresh c) as = some t) {k : ℕ}
    {c' : Conf} (hre : Steady t (.restart k c')) : ∃ d p si, mdsJournalInit c' (t.store.version k) = some (d, p, si) ∧
      (∀ n, d.files n = (t.store.version k).files n) ∧ (∀ n, p.curBatchno < n → d.files n = none) ∧
      ∀ (owed : List IosId) (next xid fid gen : ℕ), ∃ d' p',
        mdsWriteLogentry owed next xid fid gen d p = some (d', p') ∧
        (records (d.files p.curBatchno)).length < slmReclaimBatchNents ∧
        d'.files p.curBatchno = some (records (d.files p.curBatchno) ++ [⟨if xid = 0 then next else xid, fid, gen⟩]) ∧
        ∀ n, n ≠ p.curBatchno → d'.files n = d.files n := by
  have h : Orderly t := run_invariant step_orderly (fresh_orderly c) hok ht
  obtain ⟨m, -, hlog, hinit⟩ := h.journalInit hre
  refine ⟨_, _, _, hinit, fun _ => rfl, fun n hn => (hlog.above n hn).1, fun owed next xid fid gen => ?_⟩
  exact mdsWriteLogentry_of_logOk hlog.zeroStale rfl owed next xid fid gen

def restartedRun : List Label :=
  [.openLog, .header, .entry 5 1 0, .entry 6 2 0, .restart 1 oneIos, .openLog]

/-- The run is safe, and so is another crash after it. -/
theorem reclaim_recovery_restarted : ∃ t, run step (Mds.fresh oneIos) restartedRun = some t ∧
    ∃ d p si, mdsJournalInit oneIos (t.store.version 0) = some (d, p, si) ∧
      (∀ n, d.files n = (t.store.version 0).files n) ∧ (∀ n, p.curBatchno < n → d.files n = none) ∧
      ∀ (owed : List IosId) (next xid fid gen : ℕ), ∃ d' p',
        mdsWriteLogentry owed next xid fid gen d p = some (d', p') ∧
        (records (d.files p.curBatchno)).length < slmReclaimBatchNents ∧
        d'.files p.curBatchno = some (records (d.files p.curBatchno) ++ [⟨if xid = 0 then next else xid, fid, gen⟩]) ∧
        ∀ n, n ≠ p.curBatchno → d'.files n = d.files n := by
  have hok : Admits step Steady (Mds.fresh oneIos) restartedRun := by decide
  have hre : ∀ t ∈ run step (Mds.fresh oneIos) restartedRun, Steady t (.restart 0 oneIos) := by decide
  have hsome : (run step (Mds.fresh oneIos) restartedRun).isSome = true := by decide
  obtain ⟨t, ht⟩ := isSome_iff_exists.mp hsome
  exact ⟨t, ht, reclaim_recovery oneIos hok ht (hre t ht)⟩

/-! ### A full file and no next one -/

/-- `n` entries, with the transactions from 1 on. -/
def entries (n : ℕ) : List Label := (range n).map fun x => .entry (x + 1) x 0

theorem entries_succ (n : ℕ) : entries (n + 1) = entries n ++ [.entry (n + 1) n 0] := by
  simp [entries, range_succ]

structure Mds.SameThr (s t : Mds) : Prop where
  conf : t.conf = s.conf
  si : t.si = s.si
  cleanup : t.cleanup = s.cleanup
  thr : t.thr = s.thr
  prog : t.store.cur.prog = s.store.cur.prog

theorem step_entry {s : Mds} (h : Orderly s) (hre : s.prg.stage = .ready) (xid fid gen : ℕ) :
    step s (.entry xid fid gen) = some (s.put
      (s.store.cur.addEntry s.prg.curBatchno ((s.store.cur.hist s.prg.curBatchno).length + 1)
        ⟨xid, fid, gen⟩ s.conf.ids,
      if (s.store.cur.hist s.prg.curBatchno).length + 2 = slmReclaimBatchNents then
        ⟨.closed, slmReclaimBatchNents, s.prg.curBatchno + 1, xid⟩
      else ⟨.ready, (s.store.cur.hist s.prg.curBatchno).length + 2, s.prg.curBatchno, xid⟩)) := by
  have hstage := h.store.stage
  have hroom := h.store.log.room
  unfold StageOk at hstage
  rw [hre] at hstage
  simp only [step, if_pos hre, writeEntry, hstage.2]
  split_ifs with hfull
  · simp [hfull]
  · simp [hre]
  · omega

theorem run_entries {s : Mds} (h : Orderly s) (hre : s.prg.stage = .ready)
    (hnil : s.store.cur.hist s.prg.curBatchno = []) (hsmall : s.prg.curBatchno + 2 < uint64Max) :
    ∀ n, n + 1 < slmReclaimBatchNents → ∃ t, run step s (entries n) = some t ∧ Orderly t ∧
      s.SameThr t ∧ t.prg.stage = .ready ∧ t.prg.curBatchno = s.prg.curBatchno ∧
      (t.store.cur.hist s.prg.curBatchno).length = n
  | 0, _ => ⟨s, rfl, h, ⟨rfl, rfl, rfl, rfl, rfl⟩, hre, rfl, by rw [hnil]; rfl⟩
  | n + 1, hn => by
    obtain ⟨t, ht, hord, hsame, hready, hcur, hlen⟩ := run_entries h hre hnil hsmall n (by omega)
    have hstep := step_entry hord hready (n + 1) n 0
    rw [hcur, if_neg (by omega)] at hstep
    refine ⟨_, ?_, step_orderly hord ?_ hstep, ⟨hsame.conf, hsame.si, hsame.cleanup, hsame.thr, hsame.prog⟩,
      rfl, rfl, ?_⟩
    · rw [entries_succ, run_append _ _ ht, run_cons, hstep]
      rfl
    · change t.prg.curBatchno + 2 < uint64Max
      rw [hcur]
      exact hsmall
    · change ((t.store.cur.addEntry s.prg.curBatchno (n + 1) _ _).hist s.prg.curBatchno).length = _
      rw [Disk.addEntry_hist, length_append, hlen, length_singleton]

def filledRun : List Label :=
  [.openLog, .header] ++ entries 2047 ++ [.wake, .send fun _ => true, .reply 1 true, .finish]

theorem run_filled : ∃ t rs, run step (Mds.fresh oneIos) ([.openLog, .header] ++ entries 2047) = some t ∧
    (Mds.fresh oneIos).SameThr t ∧ t.prg.curXid = 2047 ∧
    t.store.cur.files 0 = some (magic :: rs) ∧ rs.length = 2047 ∧ t.store.cur.files 1 = none := by
  have hok : Admits step Steady (Mds.fresh oneIos) [.openLog, .header] := by decide
  have hsome : (run step (Mds.fresh oneIos) [.openLog, .header]).isSome := by decide
  obtain ⟨s, hs⟩ := isSome_iff_exists.mp hsome
  have hord : Orderly s := run_invariant step_orderly (fresh_orderly oneIos) hok hs
  obtain ⟨t, ht, htord, hsame, hready, hcur, hlen⟩ : ∃ t, run step s (entries 2046) = some t ∧
      Orderly t ∧ (Mds.fresh oneIos).SameThr t ∧ t.prg.stage = .ready ∧ t.prg.curBatchno = 0 ∧
      (t.store.cur.hist 0).length = 2046 := by
    cases hs
    obtain ⟨t, ht, hord, hsame, hrest⟩ := run_entries hord rfl rfl (by decide) 2046 (by decide)
    exact ⟨t, ht, hord, ⟨hsame.conf, hsame.si, hsame.cleanup, hsame.thr, hsame.prog⟩, hrest⟩
  have hstage := htord.store.stage
  have hlog := htord.store.log
  have hstep := step_entry htord hready 2047 2046 0
  unfold StageOk at hstage
  rw [hready, hcur] at hstage
  rw [hcur] at hlog
  rw [hcur, hlen] at hstep
  refine ⟨t.put (t.store.cur.addEntry 0 2047 ⟨2047, 2046, 0⟩ t.conf.ids, ⟨.closed, 2048, 1, 2047⟩),
    (t.store.cur.hist 0 ++ [Entry.mk ⟨2047, 2046, 0⟩ t.conf.ids]).map Entry.re, ?_,
    ⟨hsame.conf, hsame.si, hsame.cleanup, hsame.thr, hsame.prog⟩, rfl, ?_, ?_, ?_⟩
  · rw [run_append _ _ hs, entries_succ, run_append _ _ ht, run_cons, hstep]
    rfl
  · have hfile := Disk.addEntry_files_ready hstage.1 ⟨2047, 2046, 0⟩ t.conf.ids
    rw [hlen] at hfile
    exact hfile
  · rw [length_map, length_append, hlen]
    rfl
  · exact (Disk.addEntry_files_of_ne _ (by decide) _ _ _).trans (hlog.above 1 (by decide)).1

/-- **The MDS does not start**: the file is missing. -/
theorem reclaim_recovery_stuck : ∃ t, run step (Mds.fresh oneIos) filledRun = some t ∧
    mdsJournalInit oneIos (t.store.version 0) = none := by
  obtain ⟨t, rs, ht, hsame, hxid, hfile, hlen, hnone⟩ := run_filled
  have hconf : t.conf = oneIos := hsame.conf
  have hsi : t.si = fun _ => ⟨0, 0, false⟩ := hsame.si
  have hthr : t.thr = .idle := hsame.thr
  have hwake : step t .wake = some { t with cleanup := false, thr := .loop 0 } := by
    have hlwm : mdsReclaimLwm t.conf.ids t.si Si.batchno = 0 := by rw [hconf, hsi]; decide
    simp [step, hthr, Mds.wake, hlwm, mdsRemoveLogfiles, removeFrom]
  -- the I/O server is at this batch and is sent all of it
  have hne : rs ≠ [] := by
    rintro rfl
    cases hlen
  have hlwm : mdsReclaimLwm t.conf.ids t.si Si.xid = 0 := by rw [hconf, hsi]; decide
  have hsend : step { t with cleanup := false, thr := .loop 0 } (.send fun _ => true) =
      some { t with cleanup := false, thr := .sending (sendArg (fun _ => true) 0 rs t) } := by
    simp [step, Mds.nothingNew, hxid, hlwm, mdsSendBatchReclaim, hfile, hne, hlen, slmReclaimBatchNents, sendArg]
  have hpend : ((sendArg (fun _ => true) 0 rs t).pend 1).isSome = true := by
    simp [sendArg, hconf, oneIos, hsi, ask, hlen, slmReclaimBatchNents, Ask.records]
  obtain ⟨sent, hsent⟩ := isSome_iff_exists.mp hpend
  have hfull : (sendArg (fun _ => true) 0 rs t).count = slmReclaimBatchNents := by
    simp [sendArg, hlen, slmReclaimBatchNents]
  -- it acknowledges it, and its new batch is recorded
  set r := sendArg (fun _ => true) 0 rs t with hr
  set u := slmRimReclaimCb r 1 sent true { t with cleanup := false, thr := .sending r } with hu
  set r' : Rarg := { r with pend := update r.pend 1 none, ndone := r.ndone + 1, record := true } with hr'
  have hreply : step { t with cleanup := false, thr := .sending r } (.reply 1 true) = some u := by
    simp [step, hsent, hu]
  have hfinish : step u .finish = some (sendDone r' u) := by
    simp [step, hu, slmRimReclaimCb, hconf, oneIos, hr']
  have hstore : (sendDone r' u).store =
      t.store.write (t.store.cur.record t.conf.ids (update t.si 1 (ackSi r (t.si 1)))) := by
    have hb : r.batchno = 0 := rfl
    simp [sendDone, Mds.resume, conclude, hb, hu, slmRimReclaimCb, hr']
  refine ⟨sendDone r' u, ?_, ?_⟩
  · rw [filledRun, run_append _ _ ht]
    simp only [run_cons, run_nil, hwake, hsend, hreply, hfinish, bind_some]
  · have hack : (ackSi r (t.si 1)).batchno = 1 := by rw [ackSi_batchno, if_pos hfull, hsi]
    have hrec : mdsReclaimHwm oneIos.ids (update t.si 1 (ackSi r (t.si 1))) = 1 := by
      simp [mdsReclaimHwm, hwm, oneIos, hack]
    unfold mdsJournalInit
    rw [hstore, Store.version_zero, Store.write_cur, hconf, Disk.record_recorded, hrec]
    exact congrArg _ (recoverPrg_of_missing hnone)

end Slash2.Reclaim
