/-
# Read your writes

Reads and writes of one page on one client, step by step, each step one section of
code under the page's or the bmap's lock.

Key theorem: `read_your_writes_run`.
-/
import Slash2.Client.Page

namespace Slash2.Client.ReadWrite

open Lib List Option

inductive WPhase where
  /-- `msl_pages_fetch` found the page not `FAULTING` -/
  | waited
  | copied
  /-- `BIORQ_FLUSHRDY`, counted in `bmpc_pndg_writes` -/
  | scheduled
  /-- a WRITE RPC with these bytes; the page is `PINNED` -/
  | sent (payload : ℕ → Byte)
  | done
  | failed

structure Write where
  chunk : Chunk
  acked : Bool
  arrived : Bool
  phase : WPhase

def Write.pending (w : Write) : Bool :=
  match w.phase with
  | .scheduled | .sent _ => true
  | _ => false

inductive RPhase where
  /-- the page is marked `FAULTING` -/
  | marked
  /-- `bmpc_biorqs_flush_wait` returned -/
  | flushed
  | issued
  | served (data : ℕ → Byte)

structure State where
  page : Page
  ios : ℕ → Byte
  writes : List Write
  reads : List RPhase
  /-- for each position the last write copied in there, and its byte -/
  last : ℕ → Option (ℕ × Byte)

variable (s : State)

/-- `bmpc_pndg_writes`, as far as this page goes. -/
def State.pndgWrites : ℕ := s.writes.countP Write.pending

inductive WAct where
  | copyin
  | ack
  /-- `msl_pages_schedflush` -/
  | sched
  /-- `bwc_pin_pages` and the WRITE RPC -/
  | send
  | arrive
  /-- pages are unpinned, and the request is destroyed -/
  | done
  /-- it fails and goes back on the tree (`bmap_flush_resched`) -/
  | resched
  | fail

inductive RAct where
  | flushWait
  | launch
  | serve
  /-- the server will answer later: `FAULTING` becomes `AIOWAIT` -/
  | aio
  | done (rc : ℤ)

inductive Event where
  /-- a write comes out of `msl_pages_fetch` -/
  | fetched (c : Chunk)
  | write (n : ℕ) (a : WAct)
  /-- a read of `len` bytes at `pos` marks the page -/
  | mark (pos len : ℕ)
  | read (n : ℕ) (a : RAct)

def writeStep (n : ℕ) (w : Write) : WAct → Option State
  | .copyin =>
    match w.phase with
    | .waited =>
      if s.page.pinned then none
      else some { s with
        page := s.page.copyin (s.page.off + w.chunk.pos) w.chunk.buf
        writes := s.writes.set n { w with phase := .copied }
        last := fun p => if InSpan w.chunk.pos w.chunk.buf.length p
          then some (n, w.chunk.buf.getD (p - w.chunk.pos) 0) else s.last p }
    | _ => none
  | .ack =>
    match w.phase with
    | .waited => none
    | _ => some { s with writes := s.writes.set n { w with acked := true } }
  | .sched =>
    match w.phase with
    | .copied => some { s with writes := s.writes.set n { w with phase := .scheduled } }
    | _ => none
  | .send =>
    match w.phase with
    | .scheduled =>
      if s.page.pinned then none
      else some { s with
        page := { s.page with pinned := true }
        writes := s.writes.set n { w with phase := .sent s.page.base } }
    | _ => none
  | .arrive =>
    match w.phase with
    | .sent payload => some { s with
        ios := fun p => if InSpan w.chunk.pos w.chunk.buf.length p then payload p else s.ios p
        writes := s.writes.set n { w with arrived := true } }
    | _ => none
  | .done =>
    match w.phase, w.arrived with
    | .sent _, true => some { s with
        page := { s.page with pinned := false }
        writes := s.writes.set n { w with phase := .done } }
    | _, _ => none
  | .resched =>
    match w.phase with
    | .sent _ => some { s with
        page := { s.page with pinned := false }
        writes := s.writes.set n { w with phase := .scheduled } }
    | _ => none
  | .fail =>
    match w.phase with
    | .sent _ => some { s with
        page := { s.page with pinned := false, eio := true }
        writes := s.writes.set n { w with phase := .failed } }
    | .scheduled => some { s with
        page := { s.page with eio := true }
        writes := s.writes.set n { w with phase := .failed } }
    | _ => none

def readStep (n : ℕ) (r : RPhase) : RAct → Option State
  | .flushWait =>
    match r with
    | .marked => if s.pndgWrites = 0 then some { s with reads := s.reads.set n .flushed } else none
    | _ => none
  | .launch =>
    match r with
    | .flushed => some { s with reads := s.reads.set n .issued }
    | _ => none
  | .serve =>
    match r with
    | .issued => some { s with reads := s.reads.set n (.served s.ios) }
    | _ => none
  | .aio =>
    match r with
    | .issued | .served _ =>
      if s.page.faulting then some { s with page := { s.page with faulting := false, aiowait := true } }
      else none
    | _ => none
  | .done rc =>
    match r with
    | .served data => some { s with page := s.page.rpcDone rc data, reads := s.reads.eraseIdx n }
    | .marked => none
    | _ => if rc = 0 then none
      else some { s with page := s.page.rpcDone rc s.ios, reads := s.reads.eraseIdx n }

def step : Event → Option State
  | .fetched c =>
    if s.page.faulting ∨ s.page.eio then none
    else some { s with writes := s.writes ++ [⟨c, false, false, .waited⟩] }
  | .write n a => s.writes[n]?.bind fun w => writeStep s n w a
  | .mark pos len =>
    if s.page.faulting ∨ mslBiorqPageValid ⟨s.page.off + pos, len⟩ [s.page] 0 = some true then none
    else some { s with page := { s.page with faulting := true }, reads := s.reads ++ [.marked] }
  | .read n a => s.reads[n]?.bind fun r => readStep s n r a

/-- A byte of the page is that of the last write to it, if that was acknowledged. -/
def ReadYourWrites : Prop :=
  ∀ p n b, s.last p = some (n, b) → (∃ w ∈ s.writes[n]?, w.acked) → s.page.base p = b

def Write.unsettled (w : Write) : Bool :=
  match w.phase with
  | .waited => false
  | _ => !w.arrived

/-- No read is under way at a copy-in, the server has every write when a read is launched, and nothing is pinned when
it completes. -/
def Clear : Event → Prop
  | .write _ .copyin => s.reads.length = 0
  | .read _ .launch => ∀ w ∈ s.writes, w.unsettled = false
  | .read _ (.done _) => s.page.pinned = false
  | _ => True

instance (e : Event) : Decidable (Clear s e) := by
  unfold Clear
  split <;> infer_instance

def RPhase.underway : RPhase → Bool
  | .issued | .served _ => true
  | _ => false

/-- The `i`-th write has a WRITE RPC under way. -/
def State.Sending (i : ℕ) : Prop := ∃ w payload, s.writes[i]? = some w ∧ w.phase = .sent payload

structure Kept (s : State) : Prop where
  base : ∀ p n b, s.last p = some (n, b) → s.page.base p = b
  /-- the server has it too, or it is still to arrive -/
  ios : ∀ p n b, s.last p = some (n, b) →
    s.ios p = b ∨ ∃ w ∈ s.writes, w.unsettled ∧ InSpan w.chunk.pos w.chunk.buf.length p
  pinned : ∀ i, s.Sending i → s.page.pinned
  single : ∀ i j, s.Sending i → s.Sending j → i = j
  payload : ∀ w ∈ s.writes, ∀ d, w.phase = .sent d → ∀ p n b, s.last p = some (n, b) →
    InSpan w.chunk.pos w.chunk.buf.length p → d p = b
  fresh : ∀ w ∈ s.writes, w.phase = .waited → w.arrived = false
  /-- while a read RPC is under way every write copied in has arrived -/
  settled : (∃ r ∈ s.reads, r.underway) → ∀ w ∈ s.writes, w.unsettled = false
  served : ∀ d, RPhase.served d ∈ s.reads → ∀ p n b, s.last p = some (n, b) → d p = b

theorem Kept.readYourWrites {s : State} (h : Kept s) : ReadYourWrites s := fun p n b hl _ => h.base p n b hl

def initial (page : Page) (ios : ℕ → Byte) : State := ⟨page, ios, [], [], fun _ => none⟩

theorem initial_kept (page : Page) (ios : ℕ → Byte) : Kept (initial page ios) where
  base _ _ _ h := by cases h
  ios _ _ _ h := by cases h
  pinned i h := by
    obtain ⟨w, d, hw, -⟩ := h
    simp [initial] at hw
  single i j h := by
    obtain ⟨w, d, hw, -⟩ := h
    simp [initial] at hw
  payload w hw := by simp [initial] at hw
  fresh w hw := by simp [initial] at hw
  settled h := by
    obtain ⟨r, hr, -⟩ := h
    simp [initial] at hr
  served d hd := by simp [initial] at hd

/-! ### A write moves on -/

section Writes

variable {s} {n : ℕ} {w : Write} {t : State} {w' : Write}

theorem sending_set (ht : t.writes = s.writes.set n w') {i : ℕ} (hi : i ≠ n) (h : t.Sending i) : s.Sending i := by
  obtain ⟨v, d, hv, hp⟩ := h
  rw [ht, getElem?_set_ne (fun e => hi e.symm)] at hv
  exact ⟨v, d, hv, hp⟩

theorem sending_set_self (ht : t.writes = s.writes.set n w') (h : t.Sending n) : ∃ d, w'.phase = .sent d := by
  obtain ⟨v, d, hv, hp⟩ := h
  rw [ht, getElem?_set] at hv
  split_ifs at hv with h1
  · cases hv
    exact ⟨d, hp⟩
  · exact absurd rfl h1

theorem unsettled_set {ws : List Write} {p : ℕ} (hn : ws[n]? = some w)
    (hw' : w.unsettled → InSpan w.chunk.pos w.chunk.buf.length p →
      w'.unsettled ∧ InSpan w'.chunk.pos w'.chunk.buf.length p)
    (h : ∃ v ∈ ws, v.unsettled ∧ InSpan v.chunk.pos v.chunk.buf.length p) :
    ∃ v ∈ ws.set n w', v.unsettled ∧ InSpan v.chunk.pos v.chunk.buf.length p := by
  obtain ⟨v, hv, hvu, hvp⟩ := h
  obtain ⟨i, hi⟩ := mem_iff_getElem?.mp hv
  by_cases hin : i = n
  · rw [hin, hn] at hi
    cases hi
    exact ⟨w', List.mem_set (List.getElem?_eq_some_iff.mp hn).1 w', hw' hvu hvp⟩
  · refine ⟨v, mem_of_getElem? (i := i) ?_, hvu, hvp⟩
    rw [getElem?_set_ne fun hni => hin hni.symm, hi]

section
variable (h : Kept s) (hn : s.writes[n]? = some w)
include h hn

theorem set_kept (hw : t.writes = s.writes.set n w') (hreads : t.reads = s.reads) (hlast : t.last = s.last)
    (hbase : t.page.base = s.page.base) (hios : ∀ p k b, s.last p = some (k, b) →
      t.ios p = b ∨ ∃ v ∈ s.writes.set n w', v.unsettled ∧ InSpan v.chunk.pos v.chunk.buf.length p)
    (hpin : ∀ i, t.Sending i → t.page.pinned) (hsingle : ∀ i j, t.Sending i → t.Sending j → i = j)
    (hpayload : ∀ d, w'.phase = .sent d → ∀ p k b, s.last p = some (k, b) →
      InSpan w'.chunk.pos w'.chunk.buf.length p → d p = b)
    (hfresh : w'.phase = .waited → w'.arrived = false) (hset : w.unsettled = false → w'.unsettled = false) : Kept t := by
  have hold : ∀ v ∈ t.writes, v ∈ s.writes ∨ v = w' := fun v hv => by
    rw [hw] at hv
    exact mem_or_eq_of_mem_set hv
  refine ⟨?_, ?_, hpin, hsingle, fun v hv d hd => ?_, fun v hv hvw => ?_, fun hr v hv => ?_, ?_⟩
  · rw [hlast, hbase]
    exact h.base
  · rw [hlast, hw]
    exact hios
  · rw [hlast]
    rcases hold v hv with hv | rfl
    · exact h.payload v hv d hd
    · exact hpayload d hd
  · rcases hold v hv with hv | rfl
    · exact h.fresh v hv hvw
    · exact hfresh hvw
  · rw [hreads] at hr
    rcases hold v hv with hv | rfl
    · exact h.settled hr v hv
    · exact hset (h.settled hr w (mem_of_getElem? hn))
  · rw [hreads, hlast]
    exact h.served

theorem move_kept (hw : t.writes = s.writes.set n w') (hbase : t.page.base = s.page.base) (hios : t.ios = s.ios)
    (hreads : t.reads = s.reads) (hlast : t.last = s.last) (hchunk : w'.chunk = w.chunk)
    (huns : w'.unsettled = w.unsettled) (hsent : ∀ d, w'.phase = .sent d → w.phase = .sent d)
    (hpin : t.page.pinned = s.page.pinned ∨ ((∃ d, w.phase = .sent d) ∧ ∀ d, w'.phase ≠ .sent d))
    (hwait : w'.phase ≠ .waited) : Kept t := by
  have hmem : w ∈ s.writes := mem_of_getElem? hn
  have hback : ∀ i, t.Sending i → s.Sending i := by
    intro i hi
    by_cases hin : i = n
    · subst hin
      obtain ⟨d, hd⟩ := sending_set_self hw hi
      exact ⟨w, d, hn, hsent d hd⟩
    · exact sending_set hw hin hi
  refine set_kept h hn hw hreads hlast hbase (fun p k b hl => ?_) (fun i hi => ?_)
    (fun i j hi hj => h.single i j (hback i hi) (hback j hj))
    (fun d hd p k b hl hp => h.payload w hmem d (hsent d hd) p k b hl (hchunk ▸ hp)) (fun hv => absurd hv hwait)
    huns.trans
  · rw [hios]
    exact (h.ios p k b hl).imp id (unsettled_set hn fun hu hp => ⟨huns.trans hu, hchunk ▸ hp⟩)
  · rcases hpin with hp | ⟨⟨d, hd⟩, hno⟩
    · rw [hp]
      exact h.pinned i (hback i hi)
    -- the write that was sending is not any more, and it was the only one
    exfalso
    have hin : i = n := h.single i n (hback i hi) ⟨w, d, hn, hd⟩
    subst hin
    obtain ⟨d', hd'⟩ := sending_set_self hw hi
    exact hno d' hd'

theorem copyin_kept (hph : w.phase = .waited)
    (hpin : s.page.pinned = false) (hreads : s.reads.length = 0) : Kept { s with
      page := s.page.copyin (s.page.off + w.chunk.pos) w.chunk.buf
      writes := s.writes.set n { w with phase := .copied }
      last := fun p => if InSpan w.chunk.pos w.chunk.buf.length p
        then some (n, w.chunk.buf.getD (p - w.chunk.pos) 0) else s.last p } := by
  have hnil : s.reads = [] := List.length_eq_zero_iff.mp hreads
  have hlt := (List.getElem?_eq_some_iff.mp hn).1
  -- the page is not pinned, so nothing is being sent
  have hno : ∀ i, ¬ s.Sending i := fun i hi => by
    have := h.pinned i hi
    rw [hpin] at this
    cases this
  have hno' {t : State} (ht : t.writes = s.writes.set n { w with phase := .copied }) i : ¬ t.Sending i := by
    intro hi
    by_cases hin : i = n
    · subst hin
      obtain ⟨d, hd⟩ := sending_set_self ht hi
      cases hd
    · exact hno i (sending_set ht hin hi)
  have hmem : { w with phase := .copied } ∈ s.writes.set n { w with phase := .copied } := List.mem_set hlt _
  refine ⟨?_, ?_, fun i hi => absurd hi (hno' rfl i), fun i _ hi => absurd hi (hno' rfl i), ?_, ?_, ?_, ?_⟩
  · intro p k b hl
    change (if _ then _ else _) = _ at hl
    rw [copyin_base]
    split_ifs at hl ⊢
    · cases hl
      rfl
    · exact h.base p k b hl
  · intro p k b hl
    change (if _ then _ else _) = _ at hl
    split_ifs at hl with hp
    · right
      refine ⟨_, hmem, ?_, hp⟩
      rw [h.fresh w (mem_of_getElem? hn) hph]
      rfl
    · exact (h.ios p k b hl).imp id (unsettled_set hn fun _ hvp => absurd hvp hp)
  · intro v hv d hd
    obtain ⟨i, hi⟩ := List.mem_iff_getElem?.mp hv
    exact absurd ⟨v, d, hi, hd⟩ (hno' rfl i)
  · refine forall_mem_set h.fresh fun hvw => ?_
    cases hvw
  · rintro ⟨r, hr, -⟩
    rw [hnil] at hr
    exact absurd hr List.not_mem_nil
  · intro d hd
    rw [hnil] at hd
    exact absurd hd List.not_mem_nil

theorem send_kept (hph : w.phase = .scheduled) (hpin : s.page.pinned = false) : Kept { s with
      page := { s.page with pinned := true }
      writes := s.writes.set n { w with phase := .sent s.page.base } } := by
  have honly {t : State} (ht : t.writes = s.writes.set n { w with phase := .sent s.page.base }) i
      (hi : t.Sending i) : i = n := by
    by_contra hin
    have := h.pinned i (sending_set ht hin hi)
    rw [hpin] at this
    cases this
  have huns : ({ w with phase := .sent s.page.base } : Write).unsettled = w.unsettled := by
    simp [Write.unsettled, hph]
  refine set_kept h hn rfl rfl rfl rfl (fun p k b hl => ?_) (fun _ _ => rfl)
    (fun i j hi hj => (honly rfl i hi).trans (honly rfl j hj).symm) (fun d hd p k b hl _ => ?_) (fun hd => by cases hd)
    huns.trans
  · exact (h.ios p k b hl).imp id (unsettled_set hn fun hu hp => ⟨huns.trans hu, hp⟩)
  · -- the RPC carries the page as it is now
    cases hd
    exact h.base p k b hl

theorem arrive_kept {payload : ℕ → Byte} (hph : w.phase = .sent payload) : Kept { s with
      ios := fun p => if InSpan w.chunk.pos w.chunk.buf.length p then payload p else s.ios p
      writes := s.writes.set n { w with arrived := true } } := by
  have hmem : w ∈ s.writes := mem_of_getElem? hn
  have hback {t : State} (ht : t.writes = s.writes.set n { w with arrived := true }) i (hi : t.Sending i) :
      s.Sending i := by
    by_cases hin : i = n
    · subst hin
      exact ⟨w, payload, hn, hph⟩
    · exact sending_set ht hin hi
  refine set_kept h hn rfl rfl rfl rfl (fun p k b hl => ?_) (fun i hi => h.pinned i (hback rfl i hi))
    (fun i j hi hj => h.single i j (hback rfl i hi) (hback rfl j hj)) (h.payload w hmem) (fun hv => ?_) fun _ => ?_
  · change (if _ then _ else _) = b ∨ _
    split_ifs with hp
    · exact .inl (h.payload w hmem payload hph p k b hl hp)
    · exact (h.ios p k b hl).imp id (unsettled_set hn fun _ hvp => absurd hvp hp)
  · rw [hv] at hph
    cases hph
  · simp [Write.unsettled, hph]

/-- A phase in which nothing is sent. -/
theorem phase_kept {ph : WPhase} {pg : Page} (hbase : pg.base = s.page.base)
    (huns : ({ w with phase := ph } : Write).unsettled = w.unsettled) (hsent : ∀ d, ph ≠ .sent d) (hwait : ph ≠ .waited)
    (hpin : pg.pinned = s.page.pinned ∨ ∃ d, w.phase = .sent d) :
    Kept { s with page := pg, writes := s.writes.set n { w with phase := ph } } :=
  move_kept h hn rfl hbase rfl rfl rfl rfl huns (fun d hd => absurd hd (hsent d)) (hpin.imp id fun hd => ⟨hd, hsent⟩) hwait

theorem writeStep_kept {a : WAct} (hc : Clear s (.write n a)) (hst : writeStep s n w a = some t) : Kept t := by
  revert hst
  fun_cases writeStep s n w a <;> rintro ⟨⟩
  next hph hpin => exact copyin_kept h hn hph (Bool.not_eq_true _ ▸ hpin) hc
  next hph => exact move_kept h hn rfl rfl rfl rfl rfl rfl rfl (fun _ hd => hd) (.inl rfl) hph
  next hph => exact phase_kept h hn rfl (by simp [Write.unsettled, hph]) (by simp) (by simp) (.inl rfl)
  next hph hpin => exact send_kept h hn hph (Bool.not_eq_true _ ▸ hpin)
  next hph => exact arrive_kept h hn hph
  next d _ hph => exact phase_kept h hn rfl (by simp [Write.unsettled, hph]) (by simp) (by simp) (.inr ⟨d, hph⟩)
  next d hph => exact phase_kept h hn rfl (by simp [Write.unsettled, hph]) (by simp) (by simp) (.inr ⟨d, hph⟩)
  next d hph => exact phase_kept h hn rfl (by simp [Write.unsettled, hph]) (by simp) (by simp) (.inr ⟨d, hph⟩)
  next hph => exact phase_kept h hn rfl (by simp [Write.unsettled, hph]) (by simp) (by simp) (.inl rfl)

end

end Writes

/-! ### A read moves on -/

section Reads

variable {s} {n : ℕ} {r : RPhase}

theorem quiet_kept (h : Kept s) {t : State} (hw : t.writes = s.writes) (hios : t.ios = s.ios)
    (hlast : t.last = s.last) (hbase : ∀ p n b, s.last p = some (n, b) → t.page.base p = b)
    (hpin : s.page.pinned → t.page.pinned)
    (hset : (∃ r ∈ t.reads, r.underway) → ∀ w ∈ s.writes, w.unsettled = false)
    (hserved : ∀ d, RPhase.served d ∈ t.reads → ∀ p n b, s.last p = some (n, b) → d p = b) : Kept t := by
  have hsend : ∀ i, t.Sending i → s.Sending i := by
    rintro i ⟨w, d, hi, hd⟩
    exact ⟨w, d, hw ▸ hi, hd⟩
  refine ⟨?_, ?_, fun i hi => hpin (h.pinned i (hsend i hi)),
    fun i j hi hj => h.single i j (hsend i hi) (hsend j hj), ?_, ?_, ?_, ?_⟩
  · rw [hlast]
    exact hbase
  · rw [hlast, hios, hw]
    exact h.ios
  · rw [hlast, hw]
    exact h.payload
  · rw [hw]
    exact h.fresh
  · rw [hw]
    exact hset
  · rw [hlast]
    exact hserved

theorem mark_kept (h : Kept s) :
    Kept { s with page := { s.page with faulting := true }, reads := s.reads ++ [.marked] } := by
  refine quiet_kept h rfl rfl rfl h.base id ?_ ?_
  · rintro ⟨q, hq, hu⟩
    rcases mem_append.mp hq with hq | hq
    · exact h.settled ⟨q, hq, hu⟩
    · rw [mem_singleton.mp hq] at hu
      cases hu
  · intro d hd
    rcases mem_append.mp hd with hd | hd
    · exact h.served d hd
    · cases mem_singleton.mp hd

theorem advance_kept (h : Kept s) (r' : RPhase) (hset : r'.underway → ∀ w ∈ s.writes, w.unsettled = false)
    (hserved : ∀ d, r' = .served d → d = s.ios) : Kept { s with reads := s.reads.set n r' } := by
  refine quiet_kept h rfl rfl rfl h.base id ?_ ?_
  · rintro ⟨q, hq, hu⟩
    rcases mem_or_eq_of_mem_set hq with hq | rfl
    · exact h.settled ⟨q, hq, hu⟩
    · exact hset hu
  · intro d hd p k b hl
    rcases mem_or_eq_of_mem_set hd with hd | rfl
    · exact h.served d hd p k b hl
    -- nothing copied in is missing at the server
    rw [hserved d rfl]
    rcases h.ios p k b hl with hb | ⟨w, hw, hwu, -⟩
    · exact hb
    · rw [hset rfl w hw] at hwu
      cases hwu

theorem done_kept (h : Kept s) {rc : ℤ} {data : ℕ → Byte} (hpin : s.page.pinned = false)
    (hdata : rc = 0 → ∀ p k b, s.last p = some (k, b) → data p = b) :
    Kept { s with page := s.page.rpcDone rc data, reads := s.reads.eraseIdx n } := by
  refine quiet_kept h rfl rfl rfl ?_ ?_ ?_ ?_
  · intro p k b hl
    by_cases hrc : rc = 0
    · simp only [Page.rpcDone, hrc, ne_eq, not_true_eq_false, if_false]
      exact hdata hrc p k b hl
    · simp only [Page.rpcDone, ne_eq, hrc, not_false_eq_true, if_true]
      exact h.base p k b hl
  · intro hp
    rw [hpin] at hp
    cases hp
  · rintro ⟨q, hq, hu⟩
    exact h.settled ⟨q, mem_of_mem_eraseIdx hq, hu⟩
  · intro d hd
    exact h.served d (mem_of_mem_eraseIdx hd)

theorem readStep_kept (h : Kept s) (hn : s.reads[n]? = some r) {a : RAct} {t : State}
    (hc : Clear s (.read n a)) (hst : readStep s n r a = some t) : Kept t := by
  have hmem : r ∈ s.reads := mem_of_getElem? hn
  revert hst
  fun_cases readStep s n r a <;> rintro ⟨⟩
  next => exact advance_kept h .flushed (fun hu => by cases hu) (fun d hd => by cases hd)
  next => exact advance_kept h .issued (fun _ => hc) (fun d hd => by cases hd)
  next =>
    refine advance_kept h (.served s.ios) (fun _ => h.settled ⟨_, hmem, rfl⟩) ?_
    rintro d ⟨⟩
    rfl
  next => exact quiet_kept h rfl rfl rfl h.base id h.settled h.served
  next => exact quiet_kept h rfl rfl rfl h.base id h.settled h.served
  next => exact done_kept h hc fun _ => h.served _ hmem
  next hrc _ _ => exact done_kept h hc fun h0 => absurd h0 hrc

end Reads

theorem fetched_kept {s : State} (h : Kept s) (c : Chunk) :
    Kept { s with writes := s.writes ++ [⟨c, false, false, .waited⟩] } := by
  have hback : ∀ i, State.Sending { s with writes := s.writes ++ [⟨c, false, false, .waited⟩] } i → s.Sending i := by
    rintro i ⟨w, d, hi, hd⟩
    rw [getElem?_append] at hi
    split_ifs at hi
    · exact ⟨w, d, hi, hd⟩
    have := mem_of_getElem? hi
    rw [mem_singleton.mp this] at hd
    cases hd
  refine ⟨h.base, ?_, fun i hi => h.pinned i (hback i hi),
    fun i j hi hj => h.single i j (hback i hi) (hback j hj), ?_, ?_, ?_, h.served⟩
  · intro p k b hl
    rcases h.ios p k b hl with hb | ⟨v, hv, hvu⟩
    · exact .inl hb
    · exact .inr ⟨v, mem_append_left _ hv, hvu⟩
  · refine forall_mem_snoc h.payload fun d hd => ?_
    cases hd
  · refine forall_mem_snoc h.fresh fun hvw => ?_
    rfl
  · exact fun hr => forall_mem_snoc (h.settled hr) rfl

theorem step_kept {s t : State} {e : Event} (h : Kept s) (hc : Clear s e) (hst : step s e = some t) : Kept t := by
  cases e with
  | fetched c =>
    simp only [step] at hst
    split_ifs at hst
    cases hst
    exact fetched_kept h c
  | write =>
    obtain ⟨w, hn, hst⟩ := bind_eq_some_iff.mp hst
    exact writeStep_kept h hn hc hst
  | mark =>
    simp only [step] at hst
    split_ifs at hst
    cases hst
    exact mark_kept h
  | read =>
    obtain ⟨r, hn, hst⟩ := bind_eq_some_iff.mp hst
    exact readStep_kept h hn hc hst

/-- **Read your writes**, if all steps are `Clear`. -/
theorem read_your_writes_run (page : Page) (ios : ℕ → Byte) (es : List Event) (t : State)
    (hc : Admits step Clear (initial page ios) es) (hr : run step (initial page ios) es = some t) : ReadYourWrites t :=
  (run_invariant step_kept (initial_kept page ios) hc hr).readYourWrites

def flushedFirst : List Event :=
  [.fetched (fillWith 1 0 4 (by decide) (by decide)), .write 0 .copyin, .write 0 .ack, .write 0 .sched,
    .write 0 .send, .write 0 .arrive, .write 0 .done, .mark 8 4, .read 0 .flushWait, .read 0 .launch,
    .read 0 .serve, .read 0 (.done 0)]

theorem read_your_writes_flushedFirst : ∃ t ∈ run step (initial (Page.fresh 0 fun _ => 0) fun _ => 7) flushedFirst,
      ReadYourWrites t ∧ t.page.base 0 = 1 ∧ t.page.base 8 = 7 := by
  have hrun : ∃ t ∈ run step (initial (Page.fresh 0 fun _ => 0) fun _ => 7) flushedFirst,
      t.page.base 0 = 1 ∧ t.page.base 8 = 7 := by decide
  obtain ⟨t, ht, hb⟩ := hrun
  exact ⟨t, ht, read_your_writes_run _ _ flushedFirst t (by decide) ht, hb⟩

/-- A reader's data comes in after the write was acknowledged. -/
theorem acked_write_overwritten : (∃ t ∈ run step (initial (Page.fresh 0 fun _ => 0) fun _ => 7)
        [.fetched (fillWith 1 0 4 (by decide) (by decide)), .mark 0 4, .read 0 .flushWait, .read 0 .launch,
          .read 0 .serve, .write 0 .copyin, .write 0 .ack, .read 0 (.done 0)],
      t.last 0 = some (0, 1) ∧ (∃ w ∈ t.writes[0]?, w.acked = true) ∧ t.page.base 0 = 7) ∧
    ∃ t ∈ run step (initial (Page.fresh 0 fun _ => 0) fun _ => 7)
        [.fetched (fillWith 1 0 4 (by decide) (by decide)), .write 0 .copyin, .write 0 .ack, .mark 8 4,
          .read 0 .flushWait, .read 0 .launch, .read 0 .serve, .write 0 .sched, .read 0 (.done 0)],
      t.last 0 = some (0, 1) ∧ (∃ w ∈ t.writes[0]?, w.acked = true) ∧ t.page.base 0 = 7 := by
  decide

end Slash2.Client.ReadWrite
