/-
# File sizes of several clients

Clients that write to one file each raise their own cached size and send it to the MDS with
`msl_flush_ioattrs`. `slm_rmc_handle_setattr` takes such a flush for a truncation: a size smaller
than the stored one is refused, and any size for an empty file raises the generation.
`msl_flush_ioattrs` never sets its dirty flags again (`mslFlushIoattrsDone_eq`).

Key definitions: `Settled`, `Fit`. Key theorems: `sizes_converge`, `sizes_lost`.
-/
import Slash2.Attr.Blocks

namespace Slash2.Attr.Converge

open Lib List Option

/-! ### Clients and the MDS -/

inductive Flight where
  | sent (q : ToSet)
  | answered (q : ToSet) (rc : Rc) (sstb : Stat)

def Flight.toSet : Flight → ToSet
  | .sent q | .answered q _ _ => q

structure Cli where
  fcmh : Fcmh
  flight : Option Flight
  replies : List Stat
  written : ℕ

def Cli.due (c : Cli) : ℕ :=
  max (if c.fcmh.dirtyDsize then c.fcmh.stat.size else 0) ((c.flight.bind fun x => x.toSet.size).getD 0)

def Cli.clean (c : Cli) : Bool := c.fcmh.dirtyDsize = false ∧ c.flight = none

structure State where
  mds : MdsFile
  clients : List Cli
  rejected : Bool
  discarded : Bool

variable (s : State)

/-- Client `i` changes from `c` to `d`. -/
def State.put (i : ℕ) (mds : MdsFile) (c d : Cli) : State :=
  { s with
    mds := mds
    clients := s.clients.set i d
    discarded := s.discarded || decide (mds.stat.size < c.due ∧ d.due < c.due) }

inductive Label where
  /-- a write ends at client `i` -/
  | write (i off len : ℕ)
  /-- client `i` starts an attribute flush -/
  | flush (i : ℕ)
  /-- the MDS handles it; `ok` if it can set the attributes -/
  | handle (i : ℕ) (ok : Bool)
  | reply (i : ℕ)
  | fail (i : ℕ) (rc : Rc)
  /-- another RPC of client `i` takes the attributes from the MDS -/
  | getattr (i : ℕ)
  | refresh (i k : ℕ)

def step : Label → Option State
  | .write i off len => (s.clients[i]?).map fun c => s.put i s.mds c
      { c with fcmh := mslUpdateAttributes c.fcmh off len, written := max c.written (off + len) }
  | .flush i => (s.clients[i]?).bind fun c =>
      let out := mslFlushIoattrs c.fcmh
      if c.flight.isSome then none
      else if out.2.clobbers then some (s.put i s.mds c { c with fcmh := out.1, flight := some (.sent out.2) })
      else some s
  | .handle i ok => (s.clients[i]?).bind fun c =>
      match c.flight with
      | some (.sent q) =>
        let out := slmRmcHandleSetattr s.mds q ok
        some { s.put i out.1 c { c with flight := some (.answered q out.2 out.1.stat) } with
          rejected := s.rejected || decide (out.2 = .notsup) }
      | _ => none
  | .reply i => (s.clients[i]?).bind fun c =>
      match c.flight with
      | some (.answered q rc sstb) =>
        let f := if rc = .ok then slcFcmhSetattrf c.fcmh sstb q.clobbers else c.fcmh
        some (s.put i s.mds c { c with fcmh := mslFlushIoattrsDone f q rc, flight := none })
      | _ => none
  | .fail i rc => (s.clients[i]?).bind fun c => c.flight.bind fun x =>
      if rc = .ok then none
      else some (s.put i s.mds c { c with fcmh := mslFlushIoattrsDone c.fcmh x.toSet rc, flight := none })
  | .getattr i => (s.clients[i]?).map fun c => s.put i s.mds c { c with replies := c.replies ++ [s.mds.stat] }
  | .refresh i k => (s.clients[i]?).bind fun c => (c.replies[k]?).map fun sstb => s.put i s.mds c
      { c with fcmh := slcFcmhSetattrf c.fcmh sstb false, replies := c.replies.eraseIdx k }

/-- `n` clients have the attributes of a file cached. -/
def start (sstb : Stat) (n : ℕ) : State :=
  ⟨⟨sstb, 0, [], []⟩, replicate n ⟨⟨sstb, true, false, false⟩, none, [], 0⟩, false, false⟩

/-- **The sizes converge.** -/
structure Settled (s : State) : Prop where
  accepted : s.rejected = false
  kept : s.discarded = false
  stored : (∀ c ∈ s.clients, c.clean) → ∀ c ∈ s.clients, c.written ≤ s.mds.stat.size

/-- The MDS has no larger size than the one it is sent, a size on its way is not lost, and attributes that arrive are
as `Keeps` says. -/
def Fits (mds : MdsFile) (c : Cli) : Label → Prop
  | .handle _ ok => ok ∧ ∀ x ∈ c.flight, ∀ n ∈ x.toSet.size, mds.stat.size ≤ n
  | .reply _ =>
    match c.flight with
    | some (.answered q _ sstb) => Keeps c.fcmh sstb q.clobbers
    | _ => True
  | .fail _ _ =>
    match c.flight with
    | some (.sent q) => q.size = none
    | _ => True
  | .refresh _ k => ∀ sstb ∈ c.replies[k]?, Keeps c.fcmh sstb false
  | .write _ _ _ | .flush _ | .getattr _ => True

def Label.client : Label → ℕ
  | .write i _ _ | .flush i | .handle i _ | .reply i | .fail i _ | .getattr i | .refresh i _ => i

/-- The step fits the client that takes it. -/
def Fit (l : Label) : Prop := ∀ c ∈ s.clients[l.client]?, Fits s.mds c l

instance (mds : MdsFile) (c : Cli) (l : Label) : Decidable (Fits mds c l) := by
  unfold Fits
  repeat' split
  all_goals infer_instance

instance (l : Label) : Decidable (Fit s l) := inferInstanceAs (Decidable (∀ c ∈ s.clients[l.client]?, _))

structure CliInv (size : ℕ) (c : Cli) : Prop where
  written : c.written ≤ c.fcmh.stat.size
  covered : c.fcmh.stat.size ≤ size ∨ c.fcmh.dirtyDsize ∨
    ∃ q n, c.flight = some (.sent q) ∧ q.size = some n ∧ c.fcmh.stat.size ≤ n
  replies : ∀ r ∈ c.replies, r.size ≤ size
  answered : ∀ q rc sstb, c.flight = some (.answered q rc sstb) → rc = .ok ∧ sstb.size ≤ size ∧ ∀ n ∈ q.size, n ≤ size

structure Inv (s : State) : Prop where
  each : ∀ c ∈ s.clients, CliInv s.mds.stat.size c
  rejected : s.rejected = false
  discarded : s.discarded = false

theorem CliInv.mono {m n : ℕ} {c : Cli} (h : CliInv m c) (hmn : m ≤ n) : CliInv n c where
  written := h.written
  covered := h.covered.imp_left fun hm => hm.trans hmn
  replies := fun r hr => (h.replies r hr).trans hmn
  answered := fun q rc sstb hf => by
    obtain ⟨h1, h2, h3⟩ := h.answered q rc sstb hf
    exact ⟨h1, h2.trans hmn, fun k hk => (h3 k hk).trans hmn⟩

theorem Inv.put {s : State} (h : Inv s) {i : ℕ} {mds : MdsFile} {c d : Cli} (hmds : s.mds.stat.size ≤ mds.stat.size)
    (hd : CliInv mds.stat.size d) (hdue : c.due ≤ mds.stat.size ∨ c.due ≤ d.due) : Inv (s.put i mds c d) where
  each := forall_mem_set (fun x hx => (h.each x hx).mono hmds) hd
  rejected := h.rejected
  discarded := by
    have hno : ¬ (mds.stat.size < c.due ∧ d.due < c.due) := by omega
    change (s.discarded || decide _) = false
    rw [h.discarded, decide_eq_false hno]
    rfl

section Steps

variable {s} {t : State} {i : ℕ} {c : Cli}

theorem slcFcmhSetattrf_cases (f : Fcmh) (sstb : Stat) (clobber : Bool) :
    ((slcFcmhSetattrf f sstb clobber).stat.size = f.stat.size ∨ (slcFcmhSetattrf f sstb clobber).stat.size = sstb.size) ∧
      (slcFcmhSetattrf f sstb clobber).dirtyDsize = f.dirtyDsize := by
  simp only [slcFcmhSetattrf]
  split_ifs
  · exact ⟨.inl rfl, rfl⟩
  · exact ⟨.inl rfl, rfl⟩
  · exact ⟨.inr rfl, rfl⟩

variable {size : ℕ} {flight : Option Flight}

theorem CliInv.setattrf {sstb : Stat} {clobber : Bool} {replies : List Stat}
    (h : CliInv size c) (hsize : sstb.size ≤ size) (hkeep : Keeps c.fcmh sstb clobber)
    (hflight : flight = c.flight ∨ flight = none ∧ ∀ q, c.flight ≠ some (.sent q))
    (hreplies : ∀ r ∈ replies, r.size ≤ size) :
    CliInv size { c with fcmh := slcFcmhSetattrf c.fcmh sstb clobber, flight := flight, replies := replies } where
  written := h.written.trans hkeep.size_le
  covered := by
    obtain ⟨hcases, hdirty⟩ := slcFcmhSetattrf_cases c.fcmh sstb clobber
    rw [hdirty]
    rcases hcases with he | he
    · rw [he]
      refine h.covered.imp_right fun hc => hc.imp_right ?_
      rintro ⟨q, n, hf, hq⟩
      rcases hflight with hfl | ⟨-, hno⟩
      · exact ⟨q, n, hfl.trans hf, hq⟩
      · exact absurd hf (hno q)
    · exact .inl (he ▸ hsize)
  replies := hreplies
  answered := fun q rc r hf => by
    rcases hflight with hfl | ⟨hfl, -⟩
    · exact h.answered q rc r (hfl.symm.trans hf)
    · rw [hfl] at hf
      cases hf

theorem write_inv {off len : ℕ} (h : Inv s) (hst : step s (.write i off len) = some t) : Inv t := by
  obtain ⟨c, hi, rfl⟩ := map_eq_some_iff.mp hst
  have hc := h.each c (mem_of_getElem? hi)
  have hsize := mslUpdateAttributes_size c.fcmh off len
  -- the size is the old one, or larger and dirty
  have hcases : (mslUpdateAttributes c.fcmh off len).stat.size = c.fcmh.stat.size ∧
      (mslUpdateAttributes c.fcmh off len).dirtyDsize = c.fcmh.dirtyDsize ∨
      (mslUpdateAttributes c.fcmh off len).dirtyDsize = true := by
    unfold mslUpdateAttributes
    split_ifs
    · exact .inr rfl
    · exact .inl ⟨rfl, rfl⟩
  refine h.put le_rfl ⟨?_, ?_, hc.replies, hc.answered⟩ (.inr ?_)
  · rw [hsize]
    exact max_le_max_right _ hc.written
  · rcases hcases with ⟨he, hd⟩ | hd
    · rw [he, hd]
      exact hc.covered
    · exact .inr (.inl hd)
  · refine max_le_max_right _ ?_
    rcases hcases with ⟨he, hd⟩ | hd
    · rw [he, hd]
    rw [hsize]
    split_ifs
    · exact le_max_left _ _
    · exact Nat.zero_le _

theorem flush_inv (h : Inv s) (hst : step s (.flush i) = some t) : Inv t := by
  obtain ⟨c, hi, hst⟩ := bind_eq_some_iff.mp hst
  have hc := h.each c (mem_of_getElem? hi)
  by_cases hf : c.flight.isSome = true
  · rw [if_pos hf] at hst
    cases hst
  have hnone : c.flight = none := not_isSome_iff_eq_none.mp hf
  rw [if_neg hf] at hst
  split_ifs at hst with hcl <;> cases hst
  · refine h.put le_rfl ⟨hc.written, ?_, hc.replies, by simp⟩ (.inr ?_)
    · rcases hc.covered with hm | hd | ⟨q, n, hq, -⟩
      · exact .inl hm
      · exact .inr (.inr ⟨_, c.fcmh.stat.size, rfl, by simp [mslFlushIoattrs, hd], le_rfl⟩)
      · rw [hnone] at hq
        cases hq
    · unfold Cli.due
      rw [hnone]
      cases hd : c.fcmh.dirtyDsize <;> simp [mslFlushIoattrs, Flight.toSet, hd]
  · exact h

theorem slmRmcHandleSetattr_stores {f : MdsFile} {q : ToSet} (h : ∀ n ∈ q.size, f.stat.size ≤ n) :
    (slmRmcHandleSetattr f q true).2 = .ok ∧ f.stat.size ≤ (slmRmcHandleSetattr f q true).1.stat.size ∧
      ∀ n ∈ q.size, (slmRmcHandleSetattr f q true).1.stat.size = n := by
  unfold slmRmcHandleSetattr
  split
  · rename_i n hn
    have hle := h n hn
    simp only [if_true, hn, mem_some_iff, forall_eq']
    split_ifs with h0 hlt
    · exact ⟨rfl, hle, rfl⟩
    · omega
    · exact ⟨rfl, hle, rfl⟩
  · rename_i hn
    exact ⟨by simp, le_rfl, by simp [hn]⟩

theorem handle_inv {ok : Bool} (h : Inv s) (hl : Fit s (.handle i ok)) (hst : step s (.handle i ok) = some t) : Inv t := by
  obtain ⟨c, hi, hst⟩ := bind_eq_some_iff.mp hst
  have hc := h.each c (mem_of_getElem? hi)
  obtain ⟨rfl, hfit⟩ : ok = true ∧ ∀ x ∈ c.flight, ∀ n ∈ x.toSet.size, s.mds.stat.size ≤ n := hl c hi
  split at hst <;> cases hst
  rename_i q hq
  have hq' : ∀ n ∈ q.size, s.mds.stat.size ≤ n := hfit _ hq
  obtain ⟨hrc, hle, hn⟩ := slmRmcHandleSetattr_stores hq'
  generalize slmRmcHandleSetattr s.mds q true = out at hrc hle hn
  obtain ⟨mds, rc⟩ := out
  cases hrc
  have hput : Inv (s.put i mds c { c with flight := some (.answered q .ok mds.stat) }) := by
    refine h.put hle ⟨hc.written, ?_, fun r hr => (hc.replies r hr).trans hle, ?_⟩ (.inr ?_)
    · rcases hc.covered with hm | hd | ⟨q', n, hq', hn', hsz⟩
      · exact .inl (hm.trans hle)
      · exact .inr (.inl hd)
      · -- the size that was on its way is stored now
        cases hq.symm.trans hq'
        exact .inl (hsz.trans (hn n hn').ge)
    · rintro q' rc' sstb ⟨⟩
      exact ⟨rfl, le_rfl, fun n hn' => (hn n hn').ge⟩
    · unfold Cli.due
      rw [hq]
      exact le_rfl
  exact ⟨hput.each, by simpa using h.rejected, hput.discarded⟩

theorem Cli.due_le {f : Fcmh} (hstored : ∀ x ∈ c.flight, ∀ n ∈ x.toSet.size, n ≤ size)
    (hsize : c.fcmh.stat.size ≤ f.stat.size) (hdirty : f.dirtyDsize = c.fcmh.dirtyDsize) :
    c.due ≤ size ∨ c.due ≤ ({ c with fcmh := f, flight := flight } : Cli).due := by
  have hflight : (c.flight.bind fun x => x.toSet.size).getD 0 ≤ size := by
    cases hx : c.flight.bind fun x => x.toSet.size with
    | none => exact Nat.zero_le _
    | some n =>
      obtain ⟨x, hf, hn⟩ := bind_eq_some_iff.mp hx
      exact hstored x hf n hn
  unfold Cli.due
  simp only [hdirty]
  split_ifs <;> omega

theorem reply_inv (h : Inv s) (hl : Fit s (.reply i)) (hst : step s (.reply i) = some t) : Inv t := by
  obtain ⟨c, hi, hst⟩ := bind_eq_some_iff.mp hst
  have hc := h.each c (mem_of_getElem? hi)
  have hfit : Fits s.mds c (.reply i) := hl c hi
  split at hst
  · rename_i q rc sstb hq
    obtain ⟨rfl, hsize, hn⟩ := hc.answered q rc sstb hq
    have hkeep : Keeps c.fcmh sstb q.clobbers := by
      simpa [Fits, hq] using hfit
    cases hst
    refine h.put le_rfl (hc.setattrf hsize hkeep (.inr ⟨rfl, by simp [hq]⟩) hc.replies) (Cli.due_le ?_ hkeep.size_le ?_)
    · intro x hx
      cases hq.symm.trans hx
      exact hn
    · exact (slcFcmhSetattrf_cases _ _ _).2
  · cases hst

theorem fail_inv {rc : Rc} (h : Inv s) (hl : Fit s (.fail i rc)) (hst : step s (.fail i rc) = some t) : Inv t := by
  obtain ⟨c, hi, hst⟩ := bind_eq_some_iff.mp hst
  obtain ⟨x, hx, hst⟩ := bind_eq_some_iff.mp hst
  have hc := h.each c (mem_of_getElem? hi)
  have hfit : Fits s.mds c (.fail i rc) := hl c hi
  split_ifs at hst
  rw [mslFlushIoattrsDone_eq] at hst
  cases hst
  have hstored : ∀ n ∈ x.toSet.size, n ≤ s.mds.stat.size := by
    cases x with
    | sent q =>
      have hq : q.size = none := by simpa [Fits, hx] using hfit
      simp [Flight.toSet, hq]
    | answered q rc sstb => exact (hc.answered q rc sstb hx).2.2
  refine h.put le_rfl ⟨hc.written, ?_, hc.replies, by simp⟩ (Cli.due_le ?_ le_rfl rfl)
  · rcases hc.covered with hm | hd | ⟨q, n, hq, hn, hsz⟩
    · exact .inl hm
    · exact .inr (.inl hd)
    · cases hx.symm.trans hq
      exact .inl (hsz.trans (hstored n hn))
  · intro y hy
    cases hx.symm.trans hy
    exact hstored

theorem getattr_inv (h : Inv s) (hst : step s (.getattr i) = some t) : Inv t := by
  obtain ⟨c, hi, rfl⟩ := map_eq_some_iff.mp hst
  have hc := h.each c (mem_of_getElem? hi)
  exact h.put le_rfl ⟨hc.written, hc.covered, forall_mem_snoc hc.replies le_rfl, hc.answered⟩ (.inr le_rfl)

theorem refresh_inv {k : ℕ} (h : Inv s) (hl : Fit s (.refresh i k)) (hst : step s (.refresh i k) = some t) : Inv t := by
  obtain ⟨c, hi, hst⟩ := bind_eq_some_iff.mp hst
  obtain ⟨sstb, hk, rfl⟩ := map_eq_some_iff.mp hst
  have hc := h.each c (mem_of_getElem? hi)
  have hkeep : Keeps c.fcmh sstb false := hl c hi sstb hk
  refine h.put le_rfl (hc.setattrf (hc.replies sstb (mem_of_getElem? hk)) hkeep (.inl rfl) fun r hr =>
    hc.replies r (mem_of_mem_eraseIdx hr)) (.inr ?_)
  refine max_le_max_right _ ?_
  rw [(slcFcmhSetattrf_cases _ _ _).2]
  split_ifs
  · exact hkeep.size_le
  · exact le_rfl

theorem step_inv {l : Label} (h : Inv s) (hl : Fit s l) (hst : step s l = some t) : Inv t := by
  cases l with
  | write => exact write_inv h hst
  | flush => exact flush_inv h hst
  | handle => exact handle_inv h hl hst
  | reply => exact reply_inv h hl hst
  | fail => exact fail_inv h hl hst
  | getattr => exact getattr_inv h hst
  | refresh => exact refresh_inv h hl hst

end Steps

theorem start_inv (sstb : Stat) (n : ℕ) : Inv (start sstb n) where
  each := fun c hc => by
    obtain ⟨-, rfl⟩ := mem_replicate.mp hc
    exact ⟨Nat.zero_le _, .inl le_rfl, by simp, by simp⟩
  rejected := rfl
  discarded := rfl

theorem Inv.settled {s : State} (h : Inv s) : Settled s where
  accepted := h.rejected
  kept := h.discarded
  stored := fun hclean c hc => by
    have hinv := h.each c hc
    have hd : c.fcmh.dirtyDsize = false ∧ c.flight = none := of_decide_eq_true (hclean c hc)
    rcases hinv.covered with hm | hdirty | ⟨q, n, hq, -⟩
    · exact hinv.written.trans hm
    · rw [hd.1] at hdirty
      cases hdirty
    · rw [hd.2] at hq
      cases hq

/-- **File sizes converge**, in every run whose steps are `Fit`. -/
theorem sizes_converge (sstb : Stat) (n : ℕ) (ls : List Label) (hls : Admits step Fit (start sstb n) ls) {s : State}
    (hs : run step (start sstb n) ls = some s) : Settled s :=
  (run_invariant (fun h hl hst => step_inv h hl hst) (start_inv sstb n) hls hs).settled

def inOrder : List Label :=
  [.write 0 0 10, .write 1 0 30, .flush 0, .handle 0 true, .reply 0, .flush 1, .handle 1 true, .reply 1, .getattr 0,
    .refresh 0 0]

theorem sizes_converge_in_order : ∃ s ∈ run step (start ⟨1, 3, 0⟩ 2) inOrder,
      ((∀ c ∈ s.clients, c.clean = true) ∧ s.mds.stat.size = 30) ∧ Settled s := by
  have hrun : ∃ s ∈ run step (start ⟨1, 3, 0⟩ 2) inOrder,
      (∀ c ∈ s.clients, c.clean = true) ∧ s.mds.stat.size = 30 := by decide +kernel
  obtain ⟨s, hs, hc⟩ := hrun
  exact ⟨s, hs, hc, sizes_converge ⟨1, 3, 0⟩ 2 inOrder (by decide +kernel) hs⟩

/-- **Sizes get lost**: a flush is refused, as the other client's size is larger. -/
theorem sizes_lost :
    (∃ s ∈ run step (start ⟨1, 3, 0⟩ 2) [.write 0 0 30, .write 1 0 10, .flush 0, .flush 1, .handle 0 true, .handle 1 true],
      s.rejected = true) ∧ (∃ s ∈ run step (start ⟨1, 3, 0⟩ 1) [.write 0 0 30, .flush 0, .fail 0 .transient],
      s.discarded = true ∧ (∀ c ∈ s.clients, c.clean = true ∧ c.written = 30) ∧ s.mds.stat.size = 1) ∧
    (∃ s ∈ run step (start ⟨1, 3, 0⟩ 1) [.write 0 0 10, .flush 0, .write 0 10 20, .handle 0 true, .reply 0, .flush 0,
        .handle 0 true, .reply 0],
      s.discarded = true ∧ (∀ c ∈ s.clients, c.clean = true ∧ c.written = 30) ∧ s.mds.stat.size = 10) ∧
    (∃ s ∈ run step (start ⟨0, 3, 0⟩ 2) [.write 0 0 10, .write 1 0 30, .flush 0, .handle 0 true, .reply 0, .getattr 1,
        .refresh 1 0, .flush 1, .handle 1 true, .reply 1],
      s.discarded = true ∧ (∀ c ∈ s.clients, c.clean = true) ∧ s.mds.stat.size = 10) := by
  decide +kernel

end Slash2.Attr.Converge
