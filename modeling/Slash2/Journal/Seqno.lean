/-
# Sequence numbers across a crash

The MDS saves the two marks of the lease table in three places: in the cursor file, in the journal
at every hundredth change, and, for a write lease, in the entry of the odtable. On a restart
`mds_open_cursor` sets the table from the cursor, the journal is replayed, and the leases of the
odtable are attached again, which may raise the high mark.

Key theorem: `seqno_run`.
-/
import Slash2.Lease.Timeo
import Slash2.Lib.Store

namespace Slash2.Seqno

open Lib Timeo List Option

/-- The marks in `struct psc_journal_cursor`. -/
structure Cursor where
  /-- `pjc_seqno_hwm` -/
  hwm : ℕ
  /-- `pjc_seqno_lwm` -/
  lwm : ℕ

/-- The MDS, with what it has on disk. -/
structure Mds where
  tbl : Tbl ℕ
  cursor : Cursor
  file : Store Cursor
  /-- `slm_bia_odt`: the `bia_seq` of each slot in use -/
  odt : Store (List (Option ℕ))
  handed : List ℕ

/-- What `slmkfs` makes, with room for `n` assignments. -/
def Mds.format (n : ℕ) : Mds :=
  ⟨Tbl.start 0 0 0, ⟨0, 0⟩, Store.opened ⟨0, 0⟩, Store.opened (replicate n none), []⟩

variable (s : Mds)

/-- `mds_update_cursor`, and the write of the file. -/
def mdsUpdateCursor : Mds :=
  let c : Cursor := ⟨s.tbl.maxseq, s.tbl.minseq⟩
  { s with cursor := c, file := s.file.write c }

variable (c : Cursor)

def mdsReplayBmapSeq (e : ℕ × ℕ) : Cursor :=
  ⟨if c.hwm < e.1 then e.1 else c.hwm, if c.lwm < e.2 then e.2 else c.lwm⟩

/-- `mds_bia_odtable_startup_cb` for slot `i`: given up again if expired. -/
def mdsBiaOdtableStartupCb (ok : Bool) (i seq : ℕ) (s : Tbl ℕ) : Tbl ℕ × Option ℕ :=
  if ok = false then (s, none)
  else
    let t := reattach i seq s
    if (t.bml i).live then (t, some seq)
    else ((mdsBmapTimeotblRemove i t).modify i { t.bml i with timeoq := false }, none)

/-- The scan of the odtable at startup, from slot `i` on. -/
def startup (ok : ℕ → Bool) : ℕ → List (Option ℕ) → Tbl ℕ → Tbl ℕ × List (Option ℕ)
  | _, [], s => (s, [])
  | i, e :: o, s =>
    let r := match e with
      | none => (s, none)
      | some seq => mdsBiaOdtableStartupCb (ok i) i seq s
    let rest := startup ok (i + 1) o r.1
    (rest.1, r.2 :: rest.2)

/-- `mds_open_cursor` of cursor `c`, with `j` entries in the journal. -/
def mdsOpenCursor (j : ℕ) (s : Tbl ℕ) : Tbl ℕ :=
  { Tbl.start c.hwm c.lwm s.bim.minseq with jrnl := s.jrnl.take j }

/-- A restart with cursor `c`, `j` entries and the odtable `o`. -/
def recover (j : ℕ) (o : List (Option ℕ)) (ok : ℕ → Bool) : Mds :=
  let r := startup ok 0 o (mdsOpenCursor c j s.tbl)
  { s with
    tbl := r.1
    -- the replay does not reach the table
    cursor := (s.tbl.jrnl.take j).foldl mdsReplayBmapSeq c
    file := Store.opened c
    odt := Store.opened r.2 }

/-- What `bia_seq` is set to: from `mds_bmap_timeotbl_mdsi`, or as stored. -/
def biaSeq (b : Bml) : Option ℕ :=
  match b.stage with
  | .queued n => some n
  | .idle => if b.live then some b.seq else none
  | _ => none

inductive Ev where
  | tbl (a : Act ℕ)
  | cursor
  /-- `pfl_odt_putitem` or `pfl_odt_replaceitem`, for a lease -/
  | putitem (slot l : ℕ)
  | freeitem (slot : ℕ)
  /-- A crash: `c` cursor and `o` odtable writes are lost, `j` entries left. -/
  | crash (c o j : ℕ) (ok : ℕ → Bool)

def newNumber (s : Tbl ℕ) : Act ℕ → List ℕ
  | .getnextseq _ | .take _ => [s.next]
  | _ => []

/-- One step. -/
def step (s : Mds) : Ev → Option Mds
  | .tbl (.reattach _ _) => none
  | .tbl a => (Timeo.step s.tbl a).map fun t => { s with tbl := t, handed := newNumber s.tbl a ++ s.handed }
  | .cursor => some (mdsUpdateCursor s)
  | .putitem slot l =>
    (biaSeq (s.tbl.bml l)).map fun n => { s with odt := s.odt.write (s.odt.cur.set slot (some n)) }
  | .freeitem slot => some { s with odt := s.odt.write (s.odt.cur.set slot none) }
  | .crash c o j ok => some (recover s (s.file.version c) j (s.odt.version o) ok)

/-- The high mark, or a lease with the last number, is on disk. -/
def Saved (o : List (Option ℕ)) (ok : ℕ → Bool) : Prop :=
  s.tbl.maxseq ≤ c.hwm ∨ ∃ e ∈ o.zipIdx, ok e.2 ∧ ∃ q ∈ e.1, s.tbl.maxseq ≤ q
  deriving Decidable

/-- Numbers do not wrap, and a crash finds them saved. -/
def Safe : Ev → Prop
  | .tbl a => NoWrap s.tbl a
  | .crash c o _ ok => Saved s (s.file.version c) (s.odt.version o) ok
  | _ => True

instance (a : Ev) : Decidable (Safe s a) := by
  cases a <;> unfold Safe <;> infer_instance

/-! ### The scan of the odtable -/

variable {s : Tbl ℕ}

theorem startupCb_bounded (h : Bounded s) (ok : Bool) (i seq : ℕ) : Bounded (mdsBiaOdtableStartupCb ok i seq s).1 := by
  have hr := h.reattach i seq
  unfold mdsBiaOdtableStartupCb
  split
  · exact h
  dsimp only
  split
  · exact hr
  refine (hr.remove i).modify i ?_
  rw [remove_maxseq]
  exact hr.below i

theorem startupCb_maxseq (s : Tbl ℕ) (ok : Bool) (i seq : ℕ) :
    (mdsBiaOdtableStartupCb ok i seq s).1.maxseq = if ok then max s.maxseq seq else s.maxseq := by
  unfold mdsBiaOdtableStartupCb
  cases ok with
  | false => rfl
  | true =>
    simp only [Bool.true_eq_false, ↓reduceIte]
    split
    · rfl
    · exact remove_maxseq _ i

theorem startup_bounded (ok : ℕ → Bool) : ∀ (o : List (Option ℕ)) (i : ℕ) {s : Tbl ℕ},
    Bounded s → Bounded (startup ok i o s).1
  | [], _, _, h => h
  | none :: o, i, _, h => startup_bounded ok o (i + 1) h
  | some seq :: o, i, _, h => startup_bounded ok o (i + 1) (startupCb_bounded h (ok i) i seq)

theorem le_startup (ok : ℕ → Bool) : ∀ (o : List (Option ℕ)) (i : ℕ) (s : Tbl ℕ), s.maxseq ≤ (startup ok i o s).1.maxseq
  | [], _, _ => Nat.le_refl _
  | none :: o, i, s => le_startup ok o (i + 1) s
  | some seq :: o, i, s => by
    refine Nat.le_trans ?_ (le_startup ok o (i + 1) (mdsBiaOdtableStartupCb (ok i) i seq s).1)
    rw [startupCb_maxseq]
    split
    · exact Nat.le_max_left ..
    · exact Nat.le_refl _

theorem startup_covers (ok : ℕ → Bool) : ∀ (o : List (Option ℕ)) (i : ℕ) (s : Tbl ℕ),
    ∀ e ∈ o.zipIdx i, ok e.2 → ∀ q ∈ e.1, q ≤ (startup ok i o s).1.maxseq
  | [], _, _, _, he, _, _, _ => by simp at he
  | x :: o, i, s, e, he, hok, q, hq => by
    rw [zipIdx_cons, mem_cons] at he
    rcases he with rfl | he
    · cases hq
      refine Nat.le_trans ?_ (le_startup ok o (i + 1) (mdsBiaOdtableStartupCb (ok i) i q s).1)
      rw [startupCb_maxseq, if_pos hok]
      exact Nat.le_max_right ..
    cases x with
    | none => exact startup_covers ok o (i + 1) s e he hok q hq
    | some => exact startup_covers ok o (i + 1) _ e he hok q hq

structure Fresh (s : Mds) : Prop where
  bounded : Bounded s.tbl
  handed : ∀ n ∈ s.handed, n ≤ s.tbl.maxseq
  file : ∀ k, (s.file.version k).lwm ≤ (s.file.version k).hwm

theorem format_fresh (n : ℕ) : Fresh (Mds.format n) :=
  ⟨start_bounded le_rfl, by simp [Mds.format], fun k => by simp [Mds.format]⟩

theorem newNumber_eq_high {a : Act ℕ} {n : ℕ} (hn : n ∈ newNumber s a) : n = s.high a := by
  cases a with
  | getnextseq | take => exact mem_singleton.mp hn
  | _ => simp [newNumber] at hn

theorem recover_fresh {s : Mds} {c : Cursor} {j : ℕ} {o : List (Option ℕ)} {ok : ℕ → Bool}
    (h : Fresh s) (hc : c.lwm ≤ c.hwm) (hsv : Saved s c o ok) : Fresh (recover s c j o ok) := by
  have hb : Bounded (mdsOpenCursor c j s.tbl) :=
    ⟨hc, (start_bounded hc : Bounded (Tbl.start c.hwm c.lwm s.tbl.bim.minseq)).below⟩
  have hmax : s.tbl.maxseq ≤ (recover s c j o ok).tbl.maxseq := by
    rcases hsv with hle | ⟨e, he, hoke, q, hq, hle⟩
    · exact hle.trans (le_startup ok o 0 (mdsOpenCursor c j s.tbl))
    · exact hle.trans (startup_covers ok o 0 _ e he hoke q hq)
  exact ⟨startup_bounded ok o 0 hb, fun n hn => (h.handed n hn).trans hmax,
    forall_version_opened (P := fun c : Cursor => c.lwm ≤ c.hwm) hc⟩

theorem step_fresh {s t : Mds} {a : Ev} (h : Fresh s) (ho : Safe s a) (hs : step s a = some t) : Fresh t := by
  cases a with
  | tbl a =>
    have hne : ∀ l q, a ≠ .reattach l q := by
      rintro l q rfl
      cases hs
    obtain ⟨u, hu, rfl⟩ : ∃ u, Timeo.step s.tbl a = some u ∧
        { s with tbl := u, handed := newNumber s.tbl a ++ s.handed } = t := by
      cases a with
      | reattach l q => exact absurd rfl (hne l q)
      | _ => exact map_eq_some_iff.mp hs
    refine ⟨step_bounded h.bounded ho hu, fun n hn => ?_, h.file⟩
    rcases mem_append.mp hn with hn | hn
    · rw [step_maxseq hu]
      exact (newNumber_eq_high hn).le
    · exact (h.handed n hn).trans (maxseq_le_step ho hu)
  | cursor =>
    cases hs
    exact ⟨h.bounded, h.handed, forall_version_write (P := fun c : Cursor => c.lwm ≤ c.hwm) h.file h.bounded.min_le_max⟩
  | putitem =>
    obtain ⟨n, -, rfl⟩ := map_eq_some_iff.mp hs
    exact ⟨h.bounded, h.handed, h.file⟩
  | freeitem =>
    cases hs
    exact ⟨h.bounded, h.handed, h.file⟩
  | crash c =>
    cases hs
    exact recover_fresh h (h.file c) ho

/-- **Numbers are not reused**, if crashes lose none. -/
theorem seqno_run (n : ℕ) {as : List Ev} {t : Mds} (hok : Admits step Safe (Mds.format n) as)
    (ht : run step (Mds.format n) as = some t) : (∀ q ∈ t.handed, q ≤ t.tbl.maxseq) ∧ t.tbl.minseq ≤ t.tbl.maxseq ∧
      (t.tbl.maxseq + 1 ≠ bmapseqAny → t.tbl.next ∉ t.handed) := by
  have h : Fresh t := run_invariant step_fresh (format_fresh n) hok ht
  refine ⟨h.handed, h.bounded.min_le_max, fun hw hmem => ?_⟩
  have hle := h.handed _ hmem
  rw [next_eq hw] at hle
  omega

def reattachedRun : List Ev :=
  [.tbl (.take 0), .tbl (.append 0), .putitem 0 0, .tbl (.store 0), .crash 0 0 0 fun _ => true]

/-- The lease is in the odtable. -/
theorem seqno_run_reattached : ∃ t : Mds, run step (Mds.format 1) reattachedRun = some t ∧ t.handed = [1] ∧
      (∀ q ∈ t.handed, q ≤ t.tbl.maxseq) ∧ t.tbl.minseq ≤ t.tbl.maxseq ∧
      (t.tbl.maxseq + 1 ≠ bmapseqAny → t.tbl.next ∉ t.handed) :=
  have hok : Admits step Safe (Mds.format 1) reattachedRun := by decide
  ⟨_, rfl, rfl, seqno_run 1 hok rfl⟩

/-- A hundred numbers, the last journaled, and a crash that loses nothing. -/
theorem seqno_reused : ∃ t ∈ run step (Mds.format 1)
        ((range 100).map (fun l => .tbl (.getnextseq l)) ++ [.crash 0 0 1 fun _ => true]),
      t.cursor.hwm = 100 ∧ t.tbl.maxseq = 0 ∧ 100 ∈ t.handed ∧ t.tbl.next = 1 ∧ 1 ∈ t.handed := by
  decide +kernel

end Slash2.Seqno
