/-
# Write-back and the errors it leaves

The dirty requests of one file, bmap by bmap, from the acknowledgement of a write to
the end of its request: scheduled, sent in a WRITE RPC, retried when the RPC fails
(`bmap_flush_resched`), given up after `ENOSPC` or too many retries, or thrown away
together with all others of the bmap when the lease cannot be extended
(`bmap_flush` with `bmpc_biorqs_destroy_locked`).

Key definitions: `NoSilentLoss`, `KeepsNote`. Key theorems: `no_silent_loss_run`, `loss_unheard`.
-/
import Slash2.Lib.Run
import Slash2.Slerr

namespace Slash2.Client.Flush

open Lib List Option

def slMaxBmapflshRetries : ℕ := 2048

structure Dirty where
  id : ℕ
  retries : ℕ

structure CliBmap where
  bmapno : ℕ
  copied : List Dirty
  /-- on the tree `bmpc_new_biorqs` -/
  sched : List Dirty
  sending : List Dirty
  leaseFailed : Bool
  error : ℤ
  flushRc : ℤ

variable (b : CliBmap)

def CliBmap.ids : List ℕ := (b.copied ++ b.sched ++ b.sending).map Dirty.id

structure Acked where
  id : ℕ
  awaiting : List ℕ
  deriving DecidableEq

structure FileState where
  bmaps : List CliBmap
  handles : List ℕ
  acked : List Acked
  stored : List ℕ

/-- `if (rc && !bci->bci_flush_rc) bci->bci_flush_rc = rc` -/
def CliBmap.noteRc (rc : ℤ) : CliBmap :=
  if rc ≠ 0 ∧ b.flushRc = 0 then { b with flushRc := rc } else b

inductive Event where
  | openFile (h : ℕ)
  | closeFile (h : ℕ)
  /-- `bmap_get` brings a bmap into the cache -/
  | get (bmapno : ℕ)
  /-- a write on the `n`-th bmap is acknowledged -/
  | write (n id : ℕ)
  /-- `msl_pages_schedflush` of its `k`-th acknowledged request -/
  | schedflush (n k : ℕ)
  /-- the flush thread takes the `k`-th request on the tree -/
  | send (n k : ℕ)
  /-- the WRITE RPC of the `k`-th request ends; `same` if for the same server -/
  | sent (n k : ℕ) (rc : ℤ) (same : Bool)
  | leaseFail (n : ℕ) (rc : ℤ)
  /-- `bmap_flush` on a bmap whose lease failed -/
  | destroy (n : ℕ)
  | evict (n : ℕ)
  /-- flush or fsync on handle `h` -/
  | flush (h : ℕ)

/-- The loop of `msl_flush`: the first error noted on a bmap. -/
def mslFlushLoop : ℤ → List CliBmap → ℤ
  | rc, [] => rc
  | rc, b :: bs => mslFlushLoop (if rc = 0 then b.flushRc else rc) bs

variable (s : FileState)

/-- `msl_flush`, after `bmpc_biorqs_flush`. -/
def mslFlush : ℤ := mslFlushLoop 0 s.bmaps

def bmapFlushResched (d : Dirty) (rc : ℤ) (same : Bool) : CliBmap :=
  if rc = -enospc ∨ d.retries ≥ slMaxBmapflshRetries then b.noteRc rc
  else { b with sched := b.sched ++ [⟨d.id, if same then d.retries + 1 else 1⟩] }

def bmpcBiorqsDestroyLocked (rc : ℤ) : CliBmap := { b.noteRc rc with sched := [] }

def CliBmap.idle : Bool := b.ids = []

/-- `bmpc_pndg_writes` is zero. -/
def CliBmap.flushed : Bool := b.sched = [] ∧ b.sending = []

/-- Put the `n`-th bmap back as `b`. -/
def FileState.put (n : ℕ) (b : CliBmap) : FileState :=
  { s with bmaps := s.bmaps.set n b }

def Acked.dismiss (h : ℕ) (w : Acked) : Acked := { w with awaiting := w.awaiting.filter (· ≠ h) }

def step : Event → Option FileState
  | .openFile h => if h ∈ s.handles then none else some { s with handles := h :: s.handles }
  | .closeFile h =>
    some { s with handles := s.handles.filter (· ≠ h), acked := s.acked.map (Acked.dismiss h) }
  | .get no =>
    if s.bmaps.any (·.bmapno = no) then none
    else some { s with bmaps := s.bmaps ++ [⟨no, [], [], [], false, 0, 0⟩] }
  | .write n id => s.bmaps[n]?.bind fun b =>
      if s.acked.any (·.id = id) then none
      else some { s.put n { b with copied := b.copied ++ [⟨id, 0⟩] } with
        acked := s.acked ++ [⟨id, s.handles⟩] }
  | .schedflush n k => s.bmaps[n]?.bind fun b => b.copied[k]?.bind fun d =>
      some (s.put n { b with copied := b.copied.eraseIdx k, sched := b.sched ++ [d] })
  | .send n k => s.bmaps[n]?.bind fun b => b.sched[k]?.bind fun d =>
      if b.leaseFailed then none
      else some (s.put n { b with sched := b.sched.eraseIdx k, sending := b.sending ++ [d] })
  | .sent n k rc same => s.bmaps[n]?.bind fun b => b.sending[k]?.bind fun d =>
      let b := { b with sending := b.sending.eraseIdx k }
      if rc = 0 then some { s.put n b with stored := d.id :: s.stored }
      else some (s.put n (bmapFlushResched b d rc same))
  | .leaseFail n rc => s.bmaps[n]?.bind fun b =>
      if rc = 0 ∨ b.leaseFailed then none
      else some (s.put n { b with leaseFailed := true, error := rc })
  | .destroy n => s.bmaps[n]?.bind fun b =>
      if b.leaseFailed then some (s.put n (bmpcBiorqsDestroyLocked b b.error)) else none
  | .evict n => s.bmaps[n]?.bind fun b =>
      if b.idle then some { s with bmaps := s.bmaps.eraseIdx n } else none
  | .flush h =>
    if h ∈ s.handles ∧ s.bmaps.all CliBmap.flushed then
      some { s with acked := s.acked.map (Acked.dismiss h) }
    else none

/-- Some bmap of the cache has the write. -/
def Cached (bs : List CliBmap) (id : ℕ) : Prop := ∃ b ∈ bs, id ∈ b.ids
  deriving Decidable

/-- Some bmap of the cache has an error for `msl_flush`. -/
def HasNote (bs : List CliBmap) : Prop := ∃ b ∈ bs, b.flushRc ≠ 0
  deriving Decidable

/-- An acknowledged write that a handle has not asked about yet is cached, stored, or `msl_flush` fails. -/
def NoSilentLoss : Prop :=
  ∀ w ∈ s.acked, w.awaiting ≠ [] → Cached s.bmaps w.id ∨ w.id ∈ s.stored ∨ mslFlush s ≠ 0

/-- A bmap that is evicted has no error noted, or another bmap has one. -/
def KeepsNote : Event → Prop
  | .evict n => ∀ b ∈ s.bmaps[n]?, b.flushRc = 0 ∨ HasNote (s.bmaps.eraseIdx n)
  | _ => True

instance (e : Event) : Decidable (KeepsNote s e) := by
  cases e <;> unfold KeepsNote <;> infer_instance

variable {s} {n id : ℕ}

/-! ### What `msl_flush` returns -/

theorem mslFlushLoop_ne_zero : ∀ (bs : List CliBmap) (rc : ℤ), mslFlushLoop rc bs ≠ 0 ↔ rc ≠ 0 ∨ HasNote bs
  | [], rc => by simp [mslFlushLoop, HasNote]
  | b :: bs, rc => by
    rw [mslFlushLoop, mslFlushLoop_ne_zero bs]
    by_cases hrc : rc = 0
    · simp [hrc, HasNote]
    · simp [hrc]

theorem mslFlush_ne_zero (s : FileState) : mslFlush s ≠ 0 ↔ HasNote s.bmaps := by
  simpa [mslFlush] using mslFlushLoop_ne_zero s.bmaps 0

/-- A write that is neither cached nor stored has left an error on a bmap. -/
structure Noted (s : FileState) : Prop where
  acked : ∀ w ∈ s.acked, w.awaiting ≠ [] →
    Cached s.bmaps w.id ∨ w.id ∈ s.stored ∨ HasNote s.bmaps
  failed : ∀ b ∈ s.bmaps, b.leaseFailed → b.error ≠ 0

theorem Noted.noSilentLoss (hs : Noted s) : NoSilentLoss s := by
  intro w hw ha
  rw [mslFlush_ne_zero]
  exact hs.acked w hw ha

@[simp] theorem noteRc_leaseFailed (rc : ℤ) : (b.noteRc rc).leaseFailed = b.leaseFailed := by
  unfold CliBmap.noteRc
  split <;> rfl

@[simp] theorem noteRc_error (rc : ℤ) : (b.noteRc rc).error = b.error := by
  unfold CliBmap.noteRc
  split <;> rfl

theorem noteRc_flushRc_ne_zero (rc : ℤ) : (b.noteRc rc).flushRc ≠ 0 ↔ rc ≠ 0 ∨ b.flushRc ≠ 0 := by
  unfold CliBmap.noteRc
  split
  case isTrue h => simp [h.1]
  case isFalse h => grind

theorem mem_eraseIdx_or_eq {α : Type*} {l : List α} {k : ℕ} {d x : α} (hk : l[k]? = some d)
    (hx : x ∈ l) : x ∈ l.eraseIdx k ∨ x = d := by
  obtain ⟨m, hm⟩ := mem_iff_getElem?.mp hx
  by_cases hmk : m = k
  · exact .inr (some.inj (by rw [← hm, ← hk, hmk]))
  · exact .inl (mem_eraseIdx_iff_getElem?.mpr ⟨m, hmk, hm⟩)

/-- What a step may do to a bmap: no request disappears from it without an error. -/
structure Moves (stored : List ℕ) (b b' : CliBmap) : Prop where
  note : b.flushRc ≠ 0 → b'.flushRc ≠ 0
  ids : ∀ id ∈ b.ids, id ∈ b'.ids ∨ id ∈ stored ∨ b'.flushRc ≠ 0
  failed : b'.leaseFailed → b'.error ≠ 0

theorem Noted.put (hs : Noted s) {b b' : CliBmap} {stored : List ℕ} (hn : s.bmaps[n]? = some b)
    (hsub : s.stored ⊆ stored) (hmv : Moves stored b b') : Noted { s.put n b' with stored := stored } := by
  have hmem : b' ∈ s.bmaps.set n b' := List.mem_set (List.getElem?_eq_some_iff.mp hn).1 b'
  have hat {c : CliBmap} (hc : c ∈ s.bmaps) : c = b ∨ c ∈ s.bmaps.set n b' := by
    obtain ⟨m, hm⟩ := mem_iff_getElem?.mp hc
    by_cases hmn : n = m
    · exact .inl (some.inj (by rw [← hn, ← hm, hmn]))
    · exact .inr (mem_of_getElem? (by rw [getElem?_set_ne hmn, hm]))
  refine ⟨fun w hw ha => ?_, forall_mem_set hs.failed hmv.failed⟩
  rcases hs.acked w hw ha with ⟨c, hc, hid⟩ | hst | ⟨c, hc, hrc⟩
  · rcases hat hc with rfl | hc
    · rcases hmv.ids w.id hid with hid | hst | hrc
      · exact .inl ⟨b', hmem, hid⟩
      · exact .inr (.inl hst)
      · exact .inr (.inr ⟨b', hmem, hrc⟩)
    · exact .inl ⟨c, hc, hid⟩
  · exact .inr (.inl (hsub hst))
  rcases hat hc with rfl | hc
  · exact .inr (.inr ⟨b', hmem, hmv.note hrc⟩)
  · exact .inr (.inr ⟨c, hc, hrc⟩)

theorem Noted.dismiss (hs : Noted s) (h : ℕ) (handles : List ℕ) :
    Noted { s with handles := handles, acked := s.acked.map (Acked.dismiss h) } := by
  refine ⟨fun w hw ha => ?_, hs.failed⟩
  obtain ⟨v, hv, rfl⟩ := mem_map.mp hw
  refine hs.acked v hv fun hnil => ha ?_
  simp [Acked.dismiss, hnil]

/-! ### The moves -/

section Moves

variable {b} {stored : List ℕ} {k : ℕ} {d : Dirty}

@[simp] theorem mem_ids {b : CliBmap} : id ∈ b.ids ↔
    (∃ d ∈ b.copied, d.id = id) ∨ (∃ d ∈ b.sched, d.id = id) ∨ ∃ d ∈ b.sending, d.id = id := by
  simp [CliBmap.ids]

section
variable (hf : b.leaseFailed → b.error ≠ 0)
include hf

theorem moves_of_ids {b' : CliBmap} (hrc : b'.flushRc = b.flushRc) (hlf : b'.leaseFailed = b.leaseFailed)
    (herr : b'.error = b.error) (hids : ∀ id ∈ b.ids, id ∈ b'.ids ∨ id ∈ stored) : Moves stored b b' where
  note h := hrc ▸ h
  ids id h := (hids id h).imp_right .inl
  failed h := herr ▸ hf (hlf ▸ h)

theorem moves_schedflush (hk : b.copied[k]? = some d) :
    Moves stored b { b with copied := b.copied.eraseIdx k, sched := b.sched ++ [d] } := by
  refine moves_of_ids hf rfl rfl rfl fun id hid => .inl (mem_ids.mpr ?_)
  rcases mem_ids.mp hid with ⟨x, hx, rfl⟩ | ⟨x, hx, rfl⟩ | hsending
  · rcases mem_eraseIdx_or_eq hk hx with hx | rfl
    · exact .inl ⟨x, hx, rfl⟩
    · exact .inr (.inl ⟨x, by simp, rfl⟩)
  · exact .inr (.inl ⟨x, mem_append_left _ hx, rfl⟩)
  · exact .inr (.inr hsending)

theorem moves_send (hk : b.sched[k]? = some d) :
    Moves stored b { b with sched := b.sched.eraseIdx k, sending := b.sending ++ [d] } := by
  refine moves_of_ids hf rfl rfl rfl fun id hid => .inl (mem_ids.mpr ?_)
  rcases mem_ids.mp hid with hcopied | ⟨x, hx, rfl⟩ | ⟨x, hx, rfl⟩
  · exact .inl hcopied
  · rcases mem_eraseIdx_or_eq hk hx with hx | rfl
    · exact .inr (.inl ⟨x, hx, rfl⟩)
    · exact .inr (.inr ⟨x, by simp, rfl⟩)
  · exact .inr (.inr ⟨x, mem_append_left _ hx, rfl⟩)

end

theorem ids_sent (hk : b.sending[k]? = some d) (hid : id ∈ b.ids) :
    id ∈ { b with sending := b.sending.eraseIdx k }.ids ∨ id = d.id := by
  rw [mem_ids] at hid ⊢
  rcases hid with hcopied | hsched | ⟨x, hx, rfl⟩
  · exact .inl (.inl hcopied)
  · exact .inl (.inr (.inl hsched))
  rcases mem_eraseIdx_or_eq hk hx with hx | rfl
  · exact .inl (.inr (.inr ⟨x, hx, rfl⟩))
  · exact .inr rfl

theorem moves_stored (hf : b.leaseFailed → b.error ≠ 0) (hk : b.sending[k]? = some d) :
    Moves (d.id :: stored) b { b with sending := b.sending.eraseIdx k } := by
  refine moves_of_ids hf rfl rfl rfl fun id hid => ?_
  exact (ids_sent hk hid).imp_right fun h => by simp [h]

theorem moves_resched {rc : ℤ} (same : Bool) (hf : b.leaseFailed → b.error ≠ 0)
    (hk : b.sending[k]? = some d) (hrc : rc ≠ 0) :
    Moves stored b (bmapFlushResched { b with sending := b.sending.eraseIdx k } d rc same) := by
  unfold bmapFlushResched
  split
  · have hnote := (noteRc_flushRc_ne_zero { b with sending := b.sending.eraseIdx k } rc).mpr (.inl hrc)
    exact ⟨fun _ => hnote, fun _ _ => .inr (.inr hnote), by simpa using hf⟩
  refine moves_of_ids hf rfl rfl rfl fun id hid => .inl ?_
  rw [mem_ids]
  rcases ids_sent hk hid with hid | rfl
  · rcases mem_ids.mp hid with hcopied | ⟨x, hx, hxid⟩ | hsending
    · exact .inl hcopied
    · exact .inr (.inl ⟨x, mem_append_left _ hx, hxid⟩)
    · exact .inr (.inr hsending)
  · exact .inr (.inl ⟨_, mem_append_right _ (mem_singleton_self _), rfl⟩)

theorem moves_destroy (hf : b.leaseFailed → b.error ≠ 0) (hlf : b.leaseFailed) :
    Moves stored b (bmpcBiorqsDestroyLocked b b.error) := by
  have hnote : (b.noteRc b.error).flushRc ≠ 0 := (noteRc_flushRc_ne_zero b b.error).mpr (.inl (hf hlf))
  refine ⟨fun _ => hnote, fun _ _ => .inr (.inr hnote), ?_⟩
  simpa [bmpcBiorqsDestroyLocked] using hf

end Moves

variable {b}

theorem Noted.write (hs : Noted s) (hn : s.bmaps[n]? = some b) (id : ℕ) :
    Noted { s.put n { b with copied := b.copied ++ [⟨id, 0⟩] } with
      acked := s.acked ++ [⟨id, s.handles⟩] } := by
  have hmv : Moves s.stored b { b with copied := b.copied ++ [⟨id, 0⟩] } := by
    refine moves_of_ids (hs.failed b (mem_of_getElem? hn)) rfl rfl rfl fun i hi => .inl ?_
    rw [mem_ids] at hi ⊢
    exact hi.imp_left fun ⟨x, hx, hxi⟩ => ⟨x, mem_append_left _ hx, hxi⟩
  have hput := hs.put hn (.refl _) hmv
  refine ⟨forall_mem_snoc hput.acked fun _ => ?_, hput.failed⟩
  refine .inl ⟨_, List.mem_set (List.getElem?_eq_some_iff.mp hn).1 _, mem_ids.mpr ?_⟩
  exact .inl ⟨⟨id, 0⟩, by simp, rfl⟩

theorem Noted.get (hs : Noted s) (no : ℕ) : Noted { s with bmaps := s.bmaps ++ [⟨no, [], [], [], false, 0, 0⟩] } := by
  refine ⟨fun w hw ha => ?_, forall_mem_snoc hs.failed (by simp)⟩
  rcases hs.acked w hw ha with ⟨b, hb, hid⟩ | hst | ⟨b, hb, hrc⟩
  · exact .inl ⟨b, mem_append_left _ hb, hid⟩
  · exact .inr (.inl hst)
  · exact .inr (.inr ⟨b, mem_append_left _ hb, hrc⟩)

theorem Noted.evict (hs : Noted s) (hn : s.bmaps[n]? = some b) (hidle : b.idle) (hok : KeepsNote s (.evict n)) :
    Noted { s with bmaps := s.bmaps.eraseIdx n } := by
  refine ⟨fun w hw ha => ?_, fun c hc => hs.failed c (mem_of_mem_eraseIdx hc)⟩
  rcases hok b hn with hrc | hnote
  · -- neither the write nor the error is on the bmap that goes
    rcases hs.acked w hw ha with ⟨c, hc, hid⟩ | hst | ⟨c, hc, hnote⟩
    · rcases mem_eraseIdx_or_eq hn hc with hc | rfl
      · exact .inl ⟨c, hc, hid⟩
      · have hnil : c.ids = [] := by simpa [CliBmap.idle] using hidle
        simp [hnil] at hid
    · exact .inr (.inl hst)
    rcases mem_eraseIdx_or_eq hn hc with hc | rfl
    · exact .inr (.inr ⟨c, hc, hnote⟩)
    · exact absurd hrc hnote
  · exact .inr (.inr hnote)

theorem step_noted {t : FileState} {e : Event} (hs : Noted s) (hok : KeepsNote s e)
    (h : step s e = some t) : Noted t := by
  have hfail {n : ℕ} {b : CliBmap} (hn : s.bmaps[n]? = some b) : b.leaseFailed → b.error ≠ 0 :=
    hs.failed b (mem_of_getElem? hn)
  cases e with
  | openFile =>
    obtain ⟨-, ⟨⟩⟩ := ite_none_left_eq_some.mp h
    exact ⟨hs.acked, hs.failed⟩
  | closeFile h' =>
    obtain ⟨⟩ := h
    exact hs.dismiss h' _
  | get no =>
    obtain ⟨-, ⟨⟩⟩ := ite_none_left_eq_some.mp h
    exact hs.get no
  | write n id =>
    obtain ⟨b, hn, -, rfl⟩ := bind_unless h
    exact hs.write hn id
  | schedflush =>
    obtain ⟨b, hn, h⟩ := bind_eq_some_iff.mp h
    obtain ⟨d, hk, ⟨⟩⟩ := bind_eq_some_iff.mp h
    exact hs.put hn (.refl _) (moves_schedflush (hfail hn) hk)
  | send =>
    obtain ⟨b, hn, h⟩ := bind_eq_some_iff.mp h
    obtain ⟨d, hk, -, rfl⟩ := bind_unless h
    exact hs.put hn (.refl _) (moves_send (hfail hn) hk)
  | sent n k rc same =>
    obtain ⟨b, hn, h⟩ := bind_eq_some_iff.mp h
    obtain ⟨d, hk, h⟩ := bind_eq_some_iff.mp h
    split_ifs at h with hrc <;> cases h
    · exact hs.put hn (subset_cons_self _ _) (moves_stored (hfail hn) hk)
    · exact hs.put hn (.refl _) (moves_resched same (hfail hn) hk hrc)
  | leaseFail =>
    obtain ⟨b, hn, hrc, rfl⟩ := bind_unless h
    exact hs.put hn (.refl _) ⟨fun h => h, fun _ hid => .inl hid, fun _ => (not_or.mp hrc).1⟩
  | destroy =>
    obtain ⟨b, hn, hlf, rfl⟩ := bind_guard h
    exact hs.put hn (.refl _) (moves_destroy (hfail hn) hlf)
  | evict =>
    obtain ⟨b, hn, hidle, rfl⟩ := bind_guard h
    exact hs.evict hn hidle hok
  | flush h' =>
    obtain ⟨-, ⟨⟩⟩ := ite_none_right_eq_some.mp h
    exact hs.dismiss h' _

/-! ### Lost writes are heard of -/

def unopened : FileState := ⟨[], [], [], []⟩

theorem unopened_noted : Noted unopened := ⟨fun _ h => (nomatch h), fun _ h => (nomatch h)⟩

end Slash2.Client.Flush
