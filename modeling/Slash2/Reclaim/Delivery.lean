/-
# Delivery of the reclaim log

Every entry of the reclaim log should reach every I/O server that was configured when it was
appended before its log file is removed, and the progress of an I/O server should not move past an
entry it has not acknowledged. `Honest` is this second part for one I/O server, together with what
keeps it so.

Key theorem: `reclaim_delivery_run`.
-/
import Slash2.Reclaim.Recovery

namespace Slash2.Reclaim

open Residency Lib List Option Function

/-! ### Progress -/

/-- Progress `(b, x)` is past the transaction `xid` of batch `n`. -/
def Past (b x n xid : ℕ) : Prop := n < b ∨ (n = b ∧ xid < x)
  deriving Decidable

/-- Server `i` has acknowledged what `(b, x)` is past. -/
structure Honest (d : Disk) (acked : List (IosId × Rec)) (i : IosId) (b x : ℕ) : Prop where
  acked : ∀ n, ∀ e ∈ d.hist n, i ∈ e.owed → Past b x n e.re.xid → (i, e.re) ∈ acked
  later : ∀ n, b < n → ∀ e ∈ d.hist n, x ≤ e.re.xid
  fresh : ∀ y, (∀ n, ∀ e ∈ d.hist n, e.re.xid < y) → x ≤ y

structure Told (ids : List IosId) (acked : List (IosId × Rec)) (d : Disk) : Prop where
  mono : ∀ n m, n < m → ∀ e ∈ d.hist n, ∀ e' ∈ d.hist m, e.re.xid < e'.re.xid
  sorted : ∀ n, (d.hist n).Pairwise fun e e' => e.re.xid < e'.re.xid
  owed : ∀ n, ∀ e ∈ d.hist n, ∀ i ∈ e.owed, i ∈ ids
  gone : ∀ n, d.files n = none → ∀ e ∈ d.hist n, ∀ i ∈ e.owed, (i, e.re) ∈ acked
  prog : ∀ i p, d.prog i = some p → Honest d acked i p.batchno p.xid

section
variable {ids : List IosId} {acked acked' : List (IosId × Rec)} {d d' : Disk} {i : IosId} {b x : ℕ}

theorem honest_zero : Honest d acked i 0 0 where
  acked n e _ _ hp := by
    rcases hp with hp | ⟨-, hp⟩
    · cases hp
    · cases hp
  later _ _ _ _ := Nat.zero_le _
  fresh _ _ := Nat.zero_le _

theorem Honest.mono (h : Honest d acked i b x) (hh : d'.hist = d.hist)
    (hsub : ∀ a ∈ acked, a ∈ acked') : Honest d' acked' i b x where
  acked := by
    rw [hh]
    exact fun n e he ho hp => hsub _ (h.acked n e he ho hp)
  later := by
    rw [hh]
    exact h.later
  fresh := by
    rw [hh]
    exact h.fresh

theorem Told.change (h : Told ids acked d) (hh : d'.hist = d.hist) (hgone : ∀ n, d'.files n = none → d.files n = none ∨
      ∀ e ∈ d.hist n, ∀ i ∈ e.owed, (i, e.re) ∈ acked)
    (hprog : ∀ i p, d'.prog i = some p → Honest d acked i p.batchno p.xid) : Told ids acked d' where
  mono := by
    rw [hh]
    exact h.mono
  sorted := by
    rw [hh]
    exact h.sorted
  owed := by
    rw [hh]
    exact h.owed
  gone n hn := by
    rw [hh]
    exact (hgone n hn).elim (h.gone n) id
  prog i p hp := (hprog i p hp).mono hh fun _ ha => ha

theorem Told.mono_acked (h : Told ids acked d) (hsub : ∀ a ∈ acked, a ∈ acked') : Told ids acked' d :=
  { h with
    gone := fun n hn e he i hi => hsub _ (h.gone n hn e he i hi)
    prog := fun i p hp => (h.prog i p hp).mono rfl hsub }

theorem told_mkfs (ids : List IosId) : Told ids acked Disk.mkfs where
  mono n m _ e he := by cases he
  sorted _ := List.Pairwise.nil
  owed n e he := by cases he
  gone n _ e he := by cases he
  prog i p hp := by cases hp

/-! ### Appending -/

variable {r : Rec} {owed : List IosId} {e : Entry}

theorem Disk.mem_addEntry_hist {n m off : ℕ}
    (h : e ∈ (d.addEntry n off r owed).hist m) : e ∈ d.hist m ∨ (m = n ∧ e = ⟨r, owed⟩) := by
  by_cases hm : m = n
  · subst hm
    rw [Disk.addEntry_hist, mem_append, mem_singleton] at h
    exact h.imp_right fun he => ⟨rfl, he⟩
  · rw [Disk.addEntry_hist_of_ne d hm] at h
    exact .inl h

theorem Disk.mem_addEntry_hist_of_mem {n m off : ℕ} (h : e ∈ d.hist m) : e ∈ (d.addEntry n off r owed).hist m := by
  by_cases hm : m = n
  · subst hm
    rw [Disk.addEntry_hist]
    exact mem_append_left _ h
  · rw [Disk.addEntry_hist_of_ne d hm]
    exact h

theorem Honest.addEntry (h : Honest d acked i b x) {n off : ℕ}
    (hb : b ≤ n) (hr : ∀ m, ∀ e ∈ d.hist m, e.re.xid < r.xid) : Honest (d.addEntry n off r owed) acked i b x where
  acked m e he ho hp := by
    rcases Disk.mem_addEntry_hist he with he | ⟨rfl, rfl⟩
    · exact h.acked m e he ho hp
    have hx := h.fresh r.xid hr
    rcases hp with hp | ⟨-, hp⟩
    · omega
    · exact absurd hp (Nat.not_lt.mpr hx)
  later m hm e he := by
    rcases Disk.mem_addEntry_hist he with he | ⟨rfl, rfl⟩
    · exact h.later m hm e he
    · exact h.fresh r.xid hr
  fresh y hy := h.fresh y fun m e he => hy m e (Disk.mem_addEntry_hist_of_mem he)

theorem Told.addEntry (h : Told ids acked d) {c : ℕ} (hlog : LogOk ids d c) {off : ℕ}
    (hr : ∀ m, ∀ e ∈ d.hist m, e.re.xid < r.xid) : Told ids acked (d.addEntry c off r ids) where
  mono n m hnm e he e' he' := by
    rcases Disk.mem_addEntry_hist he with hold | ⟨rfl, rfl⟩
    · rcases Disk.mem_addEntry_hist he' with hold' | ⟨rfl, rfl⟩
      · exact h.mono n m hnm e hold e' hold'
      · exact hr n e hold
    -- nothing is after the current batch
    rw [Disk.addEntry_hist_of_ne d (by omega), (hlog.above m hnm).2] at he'
    cases he'
  sorted n := by
    by_cases hn : n = c
    · subst hn
      rw [Disk.addEntry_hist, pairwise_append]
      refine ⟨h.sorted n, pairwise_singleton _ _, fun e he e' he' => ?_⟩
      rw [mem_singleton.mp he']
      exact hr n e he
    · rw [Disk.addEntry_hist_of_ne d hn]
      exact h.sorted n
  owed n e he i hi := by
    rcases Disk.mem_addEntry_hist he with he | ⟨rfl, rfl⟩
    · exact h.owed n e he i hi
    · exact hi
  gone n hn e he i hi := by
    rcases Disk.mem_addEntry_hist he with he | ⟨rfl, rfl⟩
    · refine h.gone n ?_ e he i hi
      by_cases hnc : n = c
      · rw [hnc, Disk.addEntry_files] at hn
        cases hn
      · rwa [Disk.addEntry_files_of_ne d hnc] at hn
    · rw [Disk.addEntry_files] at hn
      cases hn
  prog i p hp := (h.prog i p hp).addEntry (hlog.prog i p hp) hr

/-! ### Progress moves -/

theorem Honest.skip (h : Honest d acked i b x) (ht : Told ids acked d) (hf : d.files b = none) :
    Honest d acked i (b + 1) x where
  acked n e he ho hp := by
    rcases hp with hp | ⟨rfl, hp⟩
    · rcases Nat.lt_or_eq_of_le (Nat.le_of_lt_succ hp) with hlt | rfl
      · exact h.acked n e he ho (.inl hlt)
      · exact ht.gone n hf e he i ho
    · have := h.later (b + 1) (by omega) e he
      omega
  later n hn := h.later n (by omega)
  fresh := h.fresh

/-- What was read of a batch: `es`, up to transaction `xid`. -/
structure Read (d : Disk) (b xid count : ℕ) (es : List Entry) : Prop where
  hist : ∃ more, d.hist b = es ++ more
  count : es.length + 1 = count
  last : ∃ e ∈ es.getLast?, e.re.xid = xid

variable {xid : ℕ} {es : List Entry}

theorem Read.last_mem {count : ℕ} (h : Read d b xid count es) : ∃ e ∈ d.hist b, e.re.xid = xid := by
  obtain ⟨more, hmore⟩ := h.hist
  obtain ⟨e, he, hx⟩ := h.last
  refine ⟨e, ?_, hx⟩
  rw [hmore]
  exact mem_append_left _ (mem_of_getLast? he)

theorem Read.mem_or_lt {count : ℕ} (h : Read d b xid count es)
    (ht : Told ids acked d) (he : e ∈ d.hist b) : e ∈ es ∨ xid < e.re.xid := by
  obtain ⟨more, hmore⟩ := h.hist
  obtain ⟨l, hl, hx⟩ := h.last
  have hs := ht.sorted b
  rw [hmore] at he hs
  rcases mem_append.mp he with he | he
  · exact .inl he
  · rw [← hx]
    exact .inr ((pairwise_append.mp hs).2.2 l (mem_of_getLast? hl) e he)

theorem Read.mem_of_full {count c : ℕ} (h : Read d b xid count es)
    (hlog : LogOk ids d c) (hb : b < c) (hfull : count = slmReclaimBatchNents) (he : e ∈ d.hist b) : e ∈ es := by
  obtain ⟨more, hmore⟩ := h.hist
  have hlen := hlog.full b hb
  have hcount := h.count
  rw [hmore, length_append] at hlen
  obtain rfl : more = [] := length_eq_zero_iff.mp (by omega)
  rw [hmore, append_nil] at he
  exact he

theorem Honest.ack (h : Honest d acked i b x) (ht : Told ids acked d) {c : ℕ} (hlog : LogOk ids d c)
    {count : ℕ} (hread : Read d b xid count es) {sent : List Rec} (hsent : ∀ e ∈ es, e.re ∈ sent ∨ e.re.xid < x)
    (hfull : count = slmReclaimBatchNents → b < c) : Honest d (acked ++ sent.map fun r => (i, r)) i
      (if count = slmReclaimBatchNents then b + 1 else b) (xid + 1) := by
  -- everything that was read is acknowledged now
  have hes : ∀ e ∈ es, i ∈ e.owed → (i, e.re) ∈ acked ++ sent.map fun r => (i, r) := by
    intro e he ho
    rw [mem_append]
    rcases hsent e he with hm | hlt
    · exact .inr (mem_map.mpr ⟨e.re, hm, rfl⟩)
    refine .inl (h.acked b e ?_ ho (.inr ⟨rfl, hlt⟩))
    obtain ⟨more, hmore⟩ := hread.hist
    rw [hmore]
    exact mem_append_left _ he
  obtain ⟨l, hl, hlx⟩ := hread.last_mem
  refine ⟨fun n e he ho hp => ?_, fun n hn e he => ?_, fun y hy => ?_⟩
  · have hcases : n < b ∨ (n = b ∧ e ∈ es) := by
      split_ifs at hp with hc
      · rcases hp with hp | ⟨rfl, hp⟩
        · rcases Nat.lt_or_eq_of_le (Nat.le_of_lt_succ hp) with hlt | rfl
          · exact .inl hlt
          · exact .inr ⟨rfl, hread.mem_of_full hlog (hfull hc) hc he⟩
        · have := ht.mono b (b + 1) (by omega) l hl e he
          omega
      rcases hp with hp | ⟨rfl, hp⟩
      · exact .inl hp
      · refine .inr ⟨rfl, (hread.mem_or_lt ht he).resolve_right ?_⟩
        omega
    rcases hcases with hlt | ⟨rfl, hmem⟩
    · exact mem_append_left _ (h.acked n e he ho (.inl hlt))
    · exact hes e hmem ho
  · have hbn : b < n := by
      split_ifs at hn <;> omega
    have := ht.mono b n hbn l hl e he
    omega
  · have := hy b l hl
    omega

end

variable (d : Disk)

def Thr.Sent (si : IosId → Si) : Thr → Prop
  | .sending r => ∃ es, Read d r.batchno r.xid r.count es ∧
      ∀ i rs, r.pend i = some rs → ∀ e ∈ es, e.re ∈ rs ∨ e.re.xid < (si i).xid
  | _ => True

structure Delivered (s : Mds) : Prop where
  orderly : Orderly s
  versions : ∀ k, Told s.conf.ids s.acked (s.store.version k)
  si : ∀ i ∈ s.conf.ids, Honest s.store.cur s.acked i (s.si i).batchno (s.si i).xid
  thr : s.thr.Sent s.store.cur s.si

theorem Delivered.cur {s : Mds} (h : Delivered s) : Told s.conf.ids s.acked s.store.cur := h.versions 0

/-- All owed to `i` up to batch `c` is acknowledged. -/
def Settled (acked : List (IosId × Rec)) (c : ℕ) (i : IosId) : Prop :=
  ∀ n < c + 1, ∀ e ∈ d.hist n, i ∈ e.owed → (i, e.re) ∈ acked

instance (acked : List (IosId × Rec)) (c : ℕ) (i : IosId) : Decidable (Settled d acked c i) :=
  have (n : ℕ) : Decidable (∀ e ∈ d.hist n, i ∈ e.owed → (i, e.re) ∈ acked) := inferInstance
  inferInstanceAs (Decidable (∀ n < c + 1, _))

/-- `xid` is after all transactions up to batch `c`. -/
def AfterAll (c xid : ℕ) : Prop := ∀ n < c + 1, ∀ e ∈ d.hist n, e.re.xid < xid

instance (c xid : ℕ) : Decidable (AfterAll d c xid) :=
  have (n : ℕ) : Decidable (∀ e ∈ d.hist n, e.re.xid < xid) := inferInstance
  inferInstanceAs (Decidable (∀ n < c + 1, _))

/-- Entries come in order, files are kept for the slowest server, and a server without progress has got all. -/
def Careful (s : Mds) (a : Label) : Prop :=
  Steady s a ∧
    match a with
    | .entry xid _ _ => AfterAll s.store.cur s.prg.curBatchno xid
    | .wake => s.cleanup →
      ∀ i ∈ s.conf.ids, mdsReclaimLwm s.conf.ids s.si Si.batchno ≤ (s.si i).batchno
    | .restart k c => ∀ i ∈ c.ids,
      ((s.store.version k).load i).xid = 0 ∧ ((s.store.version k).load i).batchno = 0 →
      Settled (s.store.version k) s.acked s.prg.curBatchno i
    | _ => True

instance (s : Mds) : ∀ a, Decidable (Careful s a)
  | .openLog | .header | .send _ | .reply .. | .finish | .gc .. | .entry .. | .wake | .restart .. => by
    unfold Careful
    infer_instance

theorem fresh_delivered (c : Conf) : Delivered (Mds.fresh c) where
  orderly := fresh_orderly c
  versions := forall_version_opened (told_mkfs c.ids)
  si _ _ := honest_zero
  thr := trivial

section
variable {d} {s t : Mds} {st : Store Disk} {acked : List (IosId × Rec)}

variable {ids : List IosId}

theorem Told.versions_write
    (h : ∀ k, Told ids acked (st.version k)) (hd : Told ids acked d) : ∀ k, Told ids acked ((st.write d).version k) :=
  forall_version_write h hd

theorem Told.remove (h : ∀ k, Told ids acked (st.version k)) {n : ℕ}
    (hn : ∀ e ∈ st.cur.hist n, ∀ i ∈ e.owed, (i, e.re) ∈ acked) :
    ∀ k, Told ids acked ((mdsRemoveLogfile st n).version k) := by
  refine mdsRemoveLogfile_cases (P := fun st => ∀ k, Told ids acked (st.version k)) h ?_
  have hcur : Told ids acked st.cur := h 0
  refine Told.versions_write h (hcur.change rfl (fun m hm => ?_) hcur.prog)
  by_cases hmn : m = n
  · exact .inr (hmn ▸ hn)
  · rw [Disk.setFile_files_of_ne _ hmn] at hm
    exact .inl hm

variable {si : IosId → Si} {b : ℕ}

theorem Told.conclude (h : ∀ k, Told ids acked (st.version k))
    (hsi : ∀ i ∈ ids, Honest st.cur acked i (si i).batchno (si i).xid) {all : Bool}
    (hall : all → ∀ i ∈ ids, b < (si i).batchno) (record : Bool) :
    (∀ k, Told ids acked ((conclude st ids si record all b).version k)) ∧
      (conclude st ids si record all b).cur.hist = st.cur.hist := by
  have hcur : Told ids acked st.cur := h 0
  have hrec : ∀ k, Told ids acked ((st.write (st.cur.record ids si)).version k) := by
    refine Told.versions_write h (hcur.change rfl (fun n hn => .inl hn) fun i p hp => ?_)
    by_cases hi : i ∈ ids
    · simp only [Disk.record, if_pos hi, some.injEq] at hp
      subst hp
      exact hsi i hi
    · simp only [Disk.record, if_neg hi] at hp
      exact hcur.prog i p hp
  have hpast : all = true → ∀ e ∈ st.cur.hist (b - 1), ∀ i ∈ e.owed, (i, e.re) ∈ acked := by
    intro ha e he i hi
    have hmem := hcur.owed _ e he i hi
    have hb := hall ha i hmem
    exact (hsi i hmem).acked _ e he hi (.inl (by omega))
  have hhist : ∀ {st' : Store Disk} {n : ℕ}, st'.cur.hist = st.cur.hist →
      (mdsRemoveLogfile st' n).cur.hist = st.cur.hist := fun hst =>
    mdsRemoveLogfile_cases (P := fun st'' => st''.cur.hist = st.cur.hist) hst hst
  unfold Reclaim.conclude
  dsimp only
  split_ifs with hc hr hr
  · exact ⟨Told.remove hrec (hpast hc.1), hhist rfl⟩
  · exact ⟨Told.remove h (hpast hc.1), hhist rfl⟩
  · exact ⟨hrec, rfl⟩
  · exact ⟨h, rfl⟩

theorem Delivered.idle (h : Delivered s) : Delivered { s with thr := .idle } :=
  ⟨h.orderly.idle, h.versions, h.si, trivial⟩

theorem resume_sent (s : Mds) (didwork next : ℕ) (d : Disk) (si : IosId → Si) :
    (s.resume didwork next).thr.Sent d si := by
  unfold Mds.resume
  split_ifs <;> trivial

theorem skipSi_xid (b : ℕ) (si : Si) : (skipSi b si).xid = si.xid := by
  unfold skipSi
  split_ifs <;> rfl

theorem Delivered.skip (h : Delivered s) (hloop : ∃ j ∈ s.conf.ids, (s.si j).batchno ≤ b)
    (hf : s.store.cur.files b = none) : Delivered { mdsSkipReclaimBatch b s with thr := .idle } := by
  have hord := h.orderly.skip hloop
  unfold mdsSkipReclaimBatch at hord ⊢
  split_ifs at hord ⊢ with hcur
  · exact h.idle
  have hsi : ∀ i ∈ s.conf.ids, Honest s.store.cur s.acked i (skipSi b (s.si i)).batchno (skipSi b (s.si i)).xid := by
    intro i hi
    have hi := h.si i hi
    rw [skipSi_xid, skipSi_batchno]
    split_ifs with hb
    · rw [hb] at hi
      exact hi.skip h.cur hf
    · exact hi
  have hpast : decide (s.conf.ids.countP (fun i => b ≤ (s.si i).batchno) = s.conf.ids.length) = true →
      ∀ i ∈ s.conf.ids, b < (skipSi b (s.si i)).batchno := fun hall i hi => by
    have hle : b ≤ (s.si i).batchno := by
      simpa using countP_eq_length.mp (of_decide_eq_true hall) i hi
    rw [skipSi_batchno]
    split_ifs <;> omega
  obtain ⟨hversions, hhist⟩ := Told.conclude h.versions hsi hpast (s.conf.ids.any fun i => (s.si i).batchno = b)
  exact ⟨hord, hversions, fun i hi => (hsi i hi).mono hhist fun _ ha => ha, trivial⟩

theorem Delivered.send (h : Delivered s) (conn : IosId → Bool)
    (hloop : ∃ j ∈ s.conf.ids, (s.si j).batchno ≤ b) : Delivered (mdsSendBatchReclaim conn b s) := by
  have hord := h.orderly.send conn hloop
  unfold mdsSendBatchReclaim at hord ⊢
  cases hf : s.store.cur.files b with
  | none =>
    rw [hf] at hord
    split_ifs at hord ⊢ with hcur
    · have hskip := h.skip hloop hf
      exact ⟨hord, hskip.versions, hskip.si, resume_sent ..⟩
    · exact h.idle
  | some f =>
    rw [hf] at hord
    cases f with
    | nil => exact h.idle
    | cons =>
      obtain ⟨hbc, hrs⟩ := h.orderly.store.log.read hf
      have hlen := (h.orderly.store.log.length_le hbc).1
      dsimp only at hord ⊢
      split_ifs at hord ⊢ with hnil hlong
      · exact h.idle
      · rw [hrs, length_map] at hlong
        omega
      refine ⟨hord, h.versions, h.si, s.store.cur.hist b, ⟨⟨[], by simp; rfl⟩, ?_, ?_⟩, ?_⟩
      · rw [← length_map, ← hrs]
        rfl
      · have hne : s.store.cur.hist b ≠ [] := fun he => hnil (by rw [hrs, he]; rfl)
        refine ⟨_, getLast?_eq_getLast_of_ne_nil hne, ?_⟩
        simp [sendArg, hrs, getLast?_eq_getLast_of_ne_nil hne]
      · intro i sent hi e he
        obtain ⟨-, hi⟩ := ite_none_right_eq_some.mp hi
        exact ask_send_mem (ask_records hi) (by rw [hrs]; exact mem_map_of_mem he)

theorem Delivered.reply (h : Delivered s) {r : Rarg} (hthr : s.thr = .sending r) {i : IosId}
    {rs : List Rec} (hi : r.pend i = some rs) (ok : Bool) : Delivered (slmRimReclaimCb r i rs ok s) := by
  have hr := h.orderly.thr
  have hsent := h.thr
  rw [hthr] at hr hsent
  obtain ⟨es, hread, hsent⟩ := hsent
  obtain ⟨hmem, hbi⟩ := SendOk.pend hr i rs hi
  have hord := h.orderly.reply hr hi ok
  cases ok with
  | false =>
    exact ⟨hord, h.versions, h.si, es, hread, fun j rs' hj => hsent j rs' (pend_of_answered hj).2⟩
  | true =>
    have hsub : ∀ a ∈ s.acked, a ∈ s.acked ++ rs.map fun e => (i, e) := fun a ha => mem_append_left _ ha
    refine ⟨hord, fun k => (h.versions k).mono_acked hsub, fun j hj => ?_, es, hread, fun j rs' hj => ?_⟩
    · change Honest s.store.cur (s.acked ++ rs.map fun e => (i, e)) j (update s.si i (ackSi r (s.si i)) j).batchno
        (update s.si i (ackSi r (s.si i)) j).xid
      by_cases hji : j = i
      · subst hji
        have hack := (h.si j hmem).ack h.cur h.orderly.store.log (hbi ▸ hread) (hsent j rs hi)
          fun hfull => hbi ▸ SendOk.full hr hfull
        rw [update_self]
        exact hack
      · rw [update_of_ne hji]
        exact (h.si j hj).mono rfl hsub
    · obtain ⟨hji, hj⟩ := pend_of_answered hj
      intro e he
      change e.re ∈ rs' ∨ e.re.xid < (update s.si i (ackSi r (s.si i)) j).xid
      rw [update_of_ne hji]
      exact hsent j rs' hj e he

theorem Delivered.sendDone (h : Delivered s) {r : Rarg} (hthr : s.thr = .sending r) : Delivered (sendDone r s) := by
  have hr := h.orderly.thr
  rw [hthr] at hr
  have hpast : decide (r.ndone = s.conf.ids.length ∧ r.count = slmReclaimBatchNents) = true →
      ∀ i ∈ s.conf.ids, r.batchno < (s.si i).batchno := fun hall => by
    obtain ⟨hall, hfull⟩ := of_decide_eq_true hall
    exact SendOk.past_of_all hr hall hfull
  obtain ⟨hversions, hhist⟩ := Told.conclude h.versions h.si hpast r.record
  exact ⟨h.orderly.sendDone hr, hversions, fun i hi => (h.si i hi).mono hhist fun _ ha => ha, resume_sent ..⟩

theorem Delivered.wake (h : Delivered s) (hok : Careful s .wake) : Delivered s.wake := by
  have hkeep : (∀ k, Told s.conf.ids s.acked (s.wake.store.version k)) ∧
      s.wake.store.cur.hist = s.store.cur.hist := by
    unfold Mds.wake
    split_ifs with hc
    · refine mdsRemoveLogfiles_cases (P := fun st => (∀ k, Told s.conf.ids s.acked (st.version k)) ∧
        st.cur.hist = s.store.cur.hist) (fun st n hn hst => ⟨?_, ?_⟩) ⟨h.versions, rfl⟩
      · refine Told.remove hst.1 fun e he i hi => ?_
        have hmem := (hst.1 0).owed n e he i hi
        have hle := hok.2 hc i hmem
        rw [hst.2] at he
        exact (h.si i hmem).acked n e he hi (.inl (by omega))
      · exact mdsRemoveLogfile_cases (P := fun st => st.cur.hist = s.store.cur.hist) hst.2 hst.2
    · exact ⟨h.versions, rfl⟩
  exact ⟨h.orderly.wake hok.1, hkeep.1, fun i hi => (h.si i hi).mono hkeep.2 fun _ ha => ha, trivial⟩

theorem Thr.Sent.put {d' : Disk} {thr : Thr} (h : thr.Sent d si)
    (hh : ∀ n, ∃ more, d'.hist n = d.hist n ++ more) : thr.Sent d' si := by
  cases thr with
  | sending r =>
    obtain ⟨es, hread, hsent⟩ := h
    obtain ⟨more, hmore⟩ := hread.hist
    obtain ⟨more', hmore'⟩ := hh r.batchno
    refine ⟨es, ⟨⟨more ++ more', ?_⟩, hread.count, hread.last⟩, hsent⟩
    rw [hmore', hmore, append_assoc]
  | idle => trivial
  | loop => trivial

theorem Delivered.setFile (h : Delivered s) {f : List Rec} {p : Prg}
    (hord : Orderly (s.put (s.store.cur.setFile s.prg.curBatchno (some f), p))) :
    Delivered (s.put (s.store.cur.setFile s.prg.curBatchno (some f), p)) where
  orderly := hord
  versions := by
    refine Told.versions_write h.versions (h.cur.change rfl (fun n hn => .inl ?_) h.cur.prog)
    by_cases hnc : n = s.prg.curBatchno
    · rw [hnc, Disk.setFile_files] at hn
      cases hn
    · rwa [Disk.setFile_files_of_ne _ hnc] at hn
  si i hi := (h.si i hi).mono rfl fun _ ha => ha
  thr := h.thr.put fun n => ⟨[], (append_nil _).symm⟩

theorem LogOk.forall_hist {m c : ℕ} (h : LogOk ids d m) (hm : m ≤ c)
    {P : ℕ → Entry → Prop} (hP : ∀ n < c + 1, ∀ e ∈ d.hist n, P n e) : ∀ n, ∀ e ∈ d.hist n, P n e := by
  intro n e he
  by_cases hn : n < c + 1
  · exact hP n hn e he
  · rw [(h.above n (by omega)).2] at he
    cases he

theorem Delivered.entry (h : Delivered s) {xid fid gen : ℕ} (hok : Careful s (.entry xid fid gen))
    (ht : step s (.entry xid fid gen) = some t) : Delivered t := by
  have hord := step_orderly h.orderly hok.1 ht
  obtain ⟨hre, ht⟩ := ite_none_right_eq_some.mp ht
  obtain ⟨p, heq, -⟩ := logOk_writeEntry h.orderly.store.log h.orderly.store.stage hre s.conf.ids xid fid gen
  rw [heq] at ht
  cases ht
  have hnew : ∀ n, ∀ e ∈ s.store.cur.hist n, e.re.xid < xid := h.orderly.store.log.forall_hist le_rfl hok.2
  refine ⟨hord, Told.versions_write h.versions (h.cur.addEntry h.orderly.store.log hnew),
    fun i hi => (h.si i hi).addEntry (h.orderly.batch i hi) hnew, h.thr.put fun n => ?_⟩
  by_cases hn : n = s.prg.curBatchno
  · subst hn
    exact ⟨_, Disk.addEntry_hist ..⟩
  · exact ⟨[], (Disk.addEntry_hist_of_ne _ hn _ _ _).trans (append_nil _).symm⟩

theorem lastXid_le {c y : ℕ} (hy : ∀ n, ∀ e ∈ d.hist n, e.re.xid < y) : lastXid d c ≤ y := by
  unfold lastXid
  have hlast : ∀ n, (((d.hist n).getLast?).map fun e => e.re.xid).getD 0 ≤ y := by
    intro n
    cases he : (d.hist n).getLast? with
    | none => exact Nat.zero_le y
    | some e => exact Nat.le_of_lt (hy n e (mem_of_getLast? he))
  split_ifs
  · exact hlast (c - 1)
  · exact hlast c

theorem Delivered.restart (h : Delivered s) {k : ℕ} {c : Conf} (hok : Careful s (.restart k c))
    (ht : step s (.restart k c) = some t) : Delivered t := by
  have hord := step_orderly h.orderly hok.1 ht
  obtain ⟨m, hm, hlog, hinit⟩ := h.orderly.journalInit hok.1
  simp only [step, hinit, map_some, some.injEq] at ht
  subst ht
  have htold : Told c.ids s.acked (s.store.version k) :=
    { h.versions k with owed := fun n e he i hi => hok.1.1 i ((h.versions k).owed n e he i hi) }
  have hload : ∀ i, Honest (s.store.version k) s.acked i ((s.store.version k).load i).batchno
      ((s.store.version k).load i).xid := by
    intro i
    unfold Disk.load
    cases hp : (s.store.version k).prog i with
    | none => exact honest_zero
    | some p => exact htold.prog i p hp
  have hstale : Told c.ids s.acked ((s.store.version k).zeroStale c.ids) := by
    refine htold.change rfl (fun n hn => .inl hn) fun i p hp => ?_
    by_cases hi : i ∈ c.ids
    · exact htold.prog i p (by simpa [Disk.zeroStale, hi] using hp)
    simp only [Disk.zeroStale, if_neg hi] at hp
    obtain ⟨q, -, rfl⟩ := map_eq_some_iff.mp hp
    exact honest_zero
  refine ⟨hord, ?_, fun i hi => ?_, trivial⟩
  · exact Told.versions_write (forall_version_opened htold) hstale
  · refine Honest.mono (d := s.store.version k) ?_ rfl fun _ ha => ha
    dsimp only
    unfold fastForward
    split_ifs with hz
    · -- nothing of what is skipped is owed to this I/O server
      have hset := hlog.forall_hist hm (hok.2 i hi hz)
      refine ⟨fun n e he ho _ => hset n e he ho, fun n hn e he => ?_, fun y hy => lastXid_le hy⟩
      rw [(hlog.above n hn).2] at he
      cases he
    · exact hload i

theorem step_delivered {a : Label} (h : Delivered s) (hok : Careful s a) (ht : step s a = some t) : Delivered t := by
  have hthr := h.orderly.thr
  have hord := step_orderly h.orderly hok.1 ht
  cases a with
  | openLog =>
    obtain ⟨hcl, ht⟩ := ite_none_right_eq_some.mp ht
    obtain ⟨f, p, hopen, -⟩ := logOk_openLog h.orderly.store.log hcl
    rw [hopen] at ht
    cases ht
    exact h.setFile hord
  | header =>
    obtain ⟨hcr, ht⟩ := ite_none_right_eq_some.mp ht
    obtain ⟨heq, -⟩ := logOk_writeHeader h.orderly.store.log h.orderly.store.stage hcr
    rw [heq] at ht
    cases ht
    exact h.setFile hord
  | entry => exact h.entry hok ht
  | wake =>
    rw [step_wake ht]
    exact h.wake hok
  | send conn =>
    obtain ⟨b, hs, rfl | rfl⟩ := step_send ht
    · exact h.idle
    · rw [hs] at hthr
      exact h.send conn hthr
  | reply i ok =>
    obtain ⟨r, rs, hs, hi, rfl⟩ := step_reply ht
    exact h.reply hs hi ok
  | finish =>
    obtain ⟨r, hs, rfl⟩ := step_finish ht
    exact h.sendDone hs
  | gc i off =>
    cases ht
    have hsame := gc_progress s.si i off
    refine ⟨hord, h.versions, fun j hj => ?_, ?_⟩
    · rw [(hsame j).1, (hsame j).2]
      exact h.si j hj
    · have hsent := h.thr
      cases hs : s.thr with
      | idle => trivial
      | loop => trivial
      | sending =>
        rw [hs] at hsent
        obtain ⟨es, hread, hsent⟩ := hsent
        refine ⟨es, hread, fun j rs hj e he => ?_⟩
        rw [(hsame j).2]
        exact hsent j rs hj e he
  | restart => exact h.restart hok ht

end

/-- **Entries are removed when acknowledged by all**, and no progress is past others, in runs of careful steps. -/
theorem reclaim_delivery_run (c : Conf) {as : List Label} {t : Mds}
    (hok : Admits step Careful (Mds.fresh c) as) (ht : run step (Mds.fresh c) as = some t) :
    (∀ n, t.store.cur.files n = none → ∀ e ∈ t.store.cur.hist n, ∀ i ∈ e.owed, (i, e.re) ∈ t.acked) ∧
    (∀ i p, t.store.cur.prog i = some p → ∀ n, ∀ e ∈ t.store.cur.hist n, i ∈ e.owed →
      Past p.batchno p.xid n e.re.xid → (i, e.re) ∈ t.acked) ∧
    ∀ i ∈ t.conf.ids, ∀ n, ∀ e ∈ t.store.cur.hist n, i ∈ e.owed →
      Past (t.si i).batchno (t.si i).xid n e.re.xid → (i, e.re) ∈ t.acked := by
  have h : Delivered t := run_invariant step_delivered (fresh_delivered c) hok ht
  exact ⟨h.cur.gone, fun i p hp => (h.cur.prog i p hp).acked, fun i hi => (h.si i hi).acked⟩

def toldRun : List Label :=
  [.openLog, .header, .entry 5 1 0, .entry 6 2 0, .wake, .send fun _ => true, .reply 1 true, .finish, .restart 0 oneIos]

/-- The run is careful. -/
theorem reclaim_delivery_run_told : ∃ t, run step (Mds.fresh oneIos) toldRun = some t ∧
    (∀ n, t.store.cur.files n = none → ∀ e ∈ t.store.cur.hist n, ∀ i ∈ e.owed, (i, e.re) ∈ t.acked) ∧
    (∀ i p, t.store.cur.prog i = some p → ∀ n, ∀ e ∈ t.store.cur.hist n, i ∈ e.owed →
      Past p.batchno p.xid n e.re.xid → (i, e.re) ∈ t.acked) ∧
    ∀ i ∈ t.conf.ids, ∀ n, ∀ e ∈ t.store.cur.hist n, i ∈ e.owed →
      Past (t.si i).batchno (t.si i).xid n e.re.xid → (i, e.re) ∈ t.acked := by
  have hok : Admits step Careful (Mds.fresh oneIos) toldRun := by decide
  have hsome : (run step (Mds.fresh oneIos) toldRun).isSome = true := by decide
  obtain ⟨t, ht⟩ := isSome_iff_exists.mp hsome
  exact ⟨t, ht, reclaim_delivery_run oneIos hok ht⟩

def forgottenRun : List Label :=
  [.openLog, .header, .entry 5 1 0, .entry 6 2 0, .restart 0 oneIos]

/-- **Progress is past an entry that was not sent.** -/
theorem reclaim_delivery_forgotten : ∃ t ∈ run step (Mds.fresh oneIos) forgottenRun,
    ∃ e ∈ t.store.cur.hist 0, 1 ∈ e.owed ∧ 1 ∈ t.conf.ids ∧
      Past (t.si 1).batchno (t.si 1).xid 0 e.re.xid ∧ (1, e.re) ∉ t.acked := by
  decide

end Slash2.Reclaim
