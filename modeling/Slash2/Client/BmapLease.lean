/-
# Whoever gets a bmap has its lease

As long as `BMAPF_INIT` is set there is exactly one thread, or one callback in the background, that
will see to the lease; and once it is clear the lease is there, provided it was not cleared for
another reason. This is the invariant, together with the count of the references: the reaper evicts a
bmap only if it has the last one, and so never under a thread that has got it.

Key definitions: `Held`, `Inv`. Key theorems: `step_inv`, `granted_run`, `refused_reported`.
-/
import Mathlib.Algebra.Order.BigOperators.Group.List
import Mathlib.Algebra.Order.Group.Nat
import Mathlib.Algebra.Ring.Nat
import Slash2.Client.BmapGet
import Slash2.Lib.Run
import Slash2.Lib.Slots

namespace Slash2.Client.BmapGet

open Lib List Option

variable {seq n : ℕ} {rw : Rw} {b' : Bmap} {r : Reply}

/-- Whether the thread counts on the mode bit of its `rw`. -/
def Thread.Counts (th : Thread) : Prop :=
  th.kind ≠ .ahead ∧ (th.pc = .retrieving ∨ th.pc = .sent ∨ th.pc = .replied ∨ th.pc = .got)

/-- Whether the thread is past the wait for `BMAPF_INIT`. -/
def Thread.Past (th : Thread) : Prop :=
  th.pc = .replied ∨ (th.pc = .got ∧ th.kind ≠ .ahead) ∨ ∃ n, th.pc = .modeset n

/-- The lease is there, and covers writing if the bmap is writable. -/
structure Bmap.Leased (b : Bmap) : Prop where
  seq : b.seq ≠ 0
  timeoq : b.timeoq
  reaper : b.reaper = 1
  lease : ∃ m, b.lease = some m ∧ (b.wr → m = .write)

/-- What holds of a cached bmap and the threads. -/
structure Held (b : Bmap) (ths : List Thread) : Prop where
  /-- while `BMAPF_INIT` is set, one thread or callback will clear it -/
  lead : (ths.map Thread.lead).sum + b.rpc.toList.length = b.init.toNat
  fresh : b.init → b.reaper = 0 ∧ b.timeoq = false
  leased : b.init = false → b.Leased
  leads : ∀ th ∈ ths, th.lead = 1 → b.wr → th.rw = .write
  rpcs : ∀ m, b.rpc = some m → b.wr → m = .write
  counts : ∀ th ∈ ths, th.Counts → b.mode th.rw
  past : ∀ th ∈ ths, th.Past → b.init = false
  err : b.err = 0

/-- `bcm_opcnt` counts the references. -/
def Counted (b : Bmap) (ths : List Thread) (n : ℕ) : Prop :=
  n = (ths.map Thread.refs).sum + b.reaper + b.async + b.others

/-- **The invariant.** Without a bmap nobody refers to one. -/
def Inv (s : State) : Prop :=
  match s.b with
  | none => ∀ th ∈ s.ths, th.refs = 0
  | some b => Counted b s.ths b.opcnt ∧ Held b s.ths

/-! ### Changes of one thread -/

section Threads

variable {b : Bmap} {ths : List Thread} {i : ℕ} {th x : Thread}

theorem Thread.lead_le_refs (th : Thread) : th.lead ≤ th.refs := by
  rcases th with ⟨k, -, pc⟩
  cases k <;> cases pc <;> simp [Thread.lead, Thread.refs]

theorem Thread.of_refs (h : th.refs = 0) : ¬th.Counts ∧ ¬th.Past := by
  rcases th with ⟨k, rw, pc⟩
  cases pc <;> simp_all [Thread.refs, Thread.Counts, Thread.Past]

theorem lead_sum_eq_zero (h : ∀ th ∈ ths, th.lead = 0) : (ths.map Thread.lead).sum = 0 :=
  sum_eq_zero (by simpa using h)

theorem Held.move (h : Held b ths) (hi : ths[i]? = some th) (hl : x.lead = th.lead) (hrw : x.rw = th.rw)
    (hc : x.Counts → b.mode x.rw) (hp : x.Past → b.init = false) : Held b (ths.set i x) := by
  have hth := mem_of_getElem? hi
  refine { h with lead := ?_, leads := ?_, counts := ?_, past := ?_ }
  · rw [map_set_of_eq _ hi hl]
    exact h.lead
  · refine forall_mem_set h.leads ?_
    rw [hl, hrw]
    exact h.leads th hth
  · exact forall_mem_set h.counts hc
  · exact forall_mem_set h.past hp

theorem Counted.move (h : Counted b ths n) (hi : ths[i]? = some th) (hr : x.refs = th.refs) :
    Counted b (ths.set i x) n := by
  unfold Counted
  rwa [map_set_of_eq _ hi hr]

theorem Counted.leave (h : Counted b ths n) (hi : ths[i]? = some th) (h1 : th.refs = 1)
    (h0 : x.refs = 0) : Counted b (ths.set i x) (n - 1) := by
  have hs := sum_map_set Thread.refs (x := x) hi
  unfold Counted at h ⊢
  omega

theorem Held.recount (h : Held b ths) (m : Bool) (n a o : ℕ) :
    Held { b with modechng := m, opcnt := n, async := a, others := o } ths :=
  { h with leased := fun h0 => { h.leased h0 with } }

theorem inv_opDone (hc : Counted b ths (b.opcnt - 1)) (hh : Held b ths) : Inv ⟨b.opDone, ths⟩ := by
  unfold Inv Bmap.opDone
  split_ifs with h1
  · simp only [Counted] at hc
    have h0 : (ths.map Thread.refs).sum = 0 := by omega
    exact fun th hth => sum_eq_zero_iff.mp h0 _ (mem_map_of_mem hth)
  · exact ⟨hc, hh.recount _ _ _ _⟩

theorem Bmap.Leased.covers (h : b.Leased) (hm : b.mode rw) : ∃ m, b.lease = some m ∧ (m = .write ∨ m = rw) := by
  obtain ⟨m, hl, hw⟩ := h.lease
  refine ⟨m, hl, ?_⟩
  cases rw with
  | write => exact .inl (hw hm)
  | read => cases m with
    | read => exact .inr rfl
    | write => exact .inl rfl

theorem Bmap.of_reapInit (hb : b.reapInit rw seq = some b') :
    seq ≠ 0 ∧ b' = { b with seq := seq, timeoq := true, reaper := b.reaper + 1, opcnt := b.opcnt + 1,
                            init := false, lease := some rw } := by
  unfold Bmap.reapInit at hb
  split_ifs at hb with hs
  exact ⟨hs, (some.inj hb).symm⟩

section
variable (hb : b.reapInit rw seq = some b') (h0 : b.reaper = 0) (hw : b.wr = true → rw = .write)
include hb h0 hw

theorem Bmap.leased_reapInit : b'.Leased := by
  obtain ⟨hs, rfl⟩ := Bmap.of_reapInit hb
  exact ⟨hs, rfl, congrArg (· + 1) h0, rw, rfl, hw⟩

theorem held_reapInit (hrpc : b.rpc = none) (herr : b.err = 0)
    (hl : ∀ th ∈ ths, th.lead = 0) (hc : ∀ th ∈ ths, th.Counts → b.mode th.rw) : Held b' ths := by
  have hlease := Bmap.leased_reapInit hb h0 hw
  have hs := lead_sum_eq_zero hl
  obtain ⟨-, rfl⟩ := Bmap.of_reapInit hb
  refine ⟨?_, fun h => absurd h Bool.false_ne_true, fun _ => hlease, ?_, ?_, hc, fun _ _ _ => rfl, herr⟩
  · simp [hs, hrpc]
  · intro th hth h1
    rw [hl th hth] at h1
    exact absurd h1 Nat.zero_ne_one
  · intro m hm
    exact nomatch hrpc.symm.trans hm

end

section
variable (h : Held b ths) (hi : ths[i]? = some th)
include h hi

theorem Held.lead_set (hl : th.lead = 1) (hx : x.lead = 0) :
    b.init ∧ b.rpc = none ∧ ∀ y ∈ ths.set i x, y.lead = 0 := by
  have hs := sum_map_set Thread.lead (x := x) hi
  have hlead := h.lead
  have h1 : b.init.toNat ≤ 1 := Bool.toNat_le _
  have h0 : ((ths.set i x).map Thread.lead).sum = 0 := by omega
  refine ⟨Bool.toNat_eq_one.mp (by omega), ?_, ?_⟩
  · rcases hr : b.rpc with _ | rw
    · rfl
    · rw [hr, toList_some, length_singleton] at hlead
      omega
  · exact fun y hy => sum_eq_zero_iff.mp h0 _ (mem_map_of_mem hy)

theorem Held.grant (hl : th.lead = 1) (hk : th.kind ≠ .ahead) (hb : b.reapInit th.rw seq = some b') (hx : x.lead = 0)
    (hrw : x.rw = th.rw) : Held b' (ths.set i x) := by
  have hth := mem_of_getElem? hi
  obtain ⟨hinit, hrpc, hlead⟩ := h.lead_set hi hl hx
  refine held_reapInit hb (h.fresh hinit).1 (h.leads th hth hl) hrpc h.err hlead ?_
  refine forall_mem_set h.counts fun hc => ?_
  rw [hrw]
  refine h.counts th hth ⟨hk, ?_⟩
  rcases th with ⟨k, rw, pc⟩
  cases k <;> cases pc <;> simp_all [Thread.lead]

theorem Held.sendAhead (hpc : th.pc = .retrieving)
    (hk : th.kind = .ahead) : Held { b with rpc := some th.rw } (ths.set i { th with pc := .sent }) := by
  have hl : th.lead = 1 := by simp [Thread.lead, hpc]
  obtain ⟨hinit, -, hlead⟩ := h.lead_set hi hl (x := { th with pc := .sent }) (by simp [Thread.lead, hk])
  refine ⟨?_, h.fresh, fun h0 => ?_, ?_, ?_, ?_, ?_, h.err⟩
  · rw [lead_sum_eq_zero hlead, hinit]
    rfl
  · exact absurd (hinit.symm.trans h0) Bool.noConfusion
  · intro y hy h1
    rw [hlead y hy] at h1
    exact absurd h1 Nat.zero_ne_one
  · intro m hm
    exact some.inj hm ▸ h.leads th (mem_of_getElem? hi) hl
  · exact forall_mem_set h.counts fun hcy => absurd hk hcy.1
  · refine forall_mem_set h.past fun hpy => ?_
    simp [Thread.Past] at hpy

end

theorem Counted.reapInit (h : Counted b ths b.opcnt) (hb : b.reapInit rw seq = some b') : Counted b' ths b'.opcnt := by
  obtain ⟨-, rfl⟩ := Bmap.of_reapInit hb
  simp only [Counted] at h ⊢
  omega

end Threads

variable {s t : State} {i : ℕ} {b : Bmap}

theorem Inv.held (h : Inv s) (hb : s.b = some b) : Counted b s.ths b.opcnt ∧ Held b s.ths := by
  unfold Inv at h
  rwa [hb] at h

theorem Inv.withThread {f : Thread → Bmap → Option State} (h : Inv s) (ht : s.withThread i f = some t) :
    ∃ th b, s.ths[i]? = some th ∧ s.b = some b ∧ Counted b s.ths b.opcnt ∧ Held b s.ths ∧ f th b = some t := by
  obtain ⟨th, hth, hs⟩ := bind_eq_some_iff.mp ht
  obtain ⟨b, hb, hf⟩ := bind_eq_some_iff.mp hs
  obtain ⟨hc, hh⟩ := h.held hb
  exact ⟨th, b, hth, hb, hc, hh, hf⟩

variable {ths : List Thread}

theorem held_new (k : Kind) (rw : Rw) (h0 : ∀ th ∈ ths, th.refs = 0) :
    Held (Bmap.new rw) (ths ++ [⟨k, rw, .retrieving⟩]) := by
  have hl : ∀ th ∈ ths, th.lead = 0 := fun th hth => Nat.le_zero.mp (h0 th hth ▸ th.lead_le_refs)
  have hs := lead_sum_eq_zero hl
  refine ⟨?_, fun _ => ⟨rfl, rfl⟩, fun h => ?_, ?_, fun m h => ?_, ?_, ?_, rfl⟩
  · rw [map_append, sum_append, hs]
    cases k <;> rfl
  · simp [Bmap.new] at h
  · refine forall_mem_snoc (fun th hth h1 => ?_) fun _ hw => by simpa [Bmap.new] using hw
    rw [hl th hth] at h1
    exact absurd h1 Nat.zero_ne_one
  · simp [Bmap.new] at h
  · refine forall_mem_snoc (fun th hth hc => absurd hc (Thread.of_refs (h0 th hth)).1) fun _ => ?_
    cases rw <;> rfl
  · refine forall_mem_snoc (fun th hth hp => absurd hp (Thread.of_refs (h0 th hth)).2) fun hp => ?_
    simp [Thread.Past] at hp

theorem Held.snoc {x : Thread} (h : Held b ths) (hl : x.lead = 0)
    (hc : ¬x.Counts) (hp : ¬x.Past) : Held b (ths ++ [x]) := by
  refine { h with lead := ?_, leads := ?_, counts := ?_, past := ?_ }
  · simpa [hl] using h.lead
  · simpa [or_imp, forall_and, hl] using h.leads
  · simpa [or_imp, forall_and, hc] using h.counts
  · simpa [or_imp, forall_and, hp] using h.past

theorem get_inv (k : Kind) (rw : Rw) (hi : Inv s) : Inv (bmapGet s k rw) := by
  unfold bmapGet
  rcases hb : s.b with _ | b
  · have h0 : ∀ th ∈ s.ths, th.refs = 0 := by
      unfold Inv at hi
      rwa [hb] at hi
    have hr : (s.ths.map Thread.refs).sum = 0 := sum_eq_zero (by simpa using h0)
    refine ⟨?_, held_new k rw h0⟩
    simp [Counted, hr, Bmap.new, Thread.refs]
  obtain ⟨hc, hh⟩ := hi.held hb
  refine ⟨?_, (hh.recount _ _ _ _).snoc ?_ ?_ ?_⟩
  · simp only [Counted, map_append, sum_append] at hc ⊢
    cases k <;> simp [Thread.refs] <;> omega
  · cases k <;> simp [Thread.lead]
  · cases k <;> simp [Thread.Counts]
  · cases k <;> simp [Thread.Past]

section
variable (hi : Inv s)
include hi

theorem send_inv (h : step s (.send i) = some t) : Inv t := by
  obtain ⟨th, b, hth, -, hc, hh, hf⟩ := hi.withThread h
  rcases eq_or_ne th.pc .retrieving with hpc | hpc
  swap
  · rw [if_pos (.inl hpc)] at hf
    exact nomatch hf
  have hcount : Counted b (s.ths.set i { th with pc := .sent }) b.opcnt := hc.move hth (by simp [Thread.refs, hpc])
  split_ifs at hf with hp hk <;> cases hf
  · exact ⟨hcount, hh.sendAhead hth hpc hk⟩
  have hio : th.kind = .io := by
    rcases hkk : th.kind with _ | _ | _ <;> simp_all
  refine ⟨hcount, hh.move hth ?_ rfl ?_ ?_⟩
  · simp [Thread.lead, hpc, hio]
  · exact fun _ => hh.counts th (mem_of_getElem? hth) ⟨hk, .inl hpc⟩
  · simp [Thread.Past]

theorem sendFail_inv {rc : ℤ} (hok : Fine s (.sendFail i rc)) (h : step s (.sendFail i rc) = some t) : Inv t := by
  obtain ⟨th, b, hth, hb, hc, -, hf⟩ := hi.withThread h
  split_ifs at hf with hp
  cases hf
  rw [not_or, not_ne_iff] at hp
  have h1 : b.opcnt = 1 := hok b hb
  have hc' := hc.leave hth (x := { th with pc := .done rc }) (by simp [Thread.refs, hp.1]) rfl
  have h0 : ((s.ths.set i { th with pc := .done rc }).map Thread.refs).sum = 0 := by
    unfold Counted at hc'
    omega
  simp only [Inv, State.go, Bmap.opDone, h1, le_refl, if_true]
  exact fun y hy => sum_eq_zero_iff.mp h0 _ (mem_map_of_mem hy)

theorem start_inv (h : step s (.start i) = some t) : Inv t := by
  obtain ⟨th, b, hth, -, hc, hh, hf⟩ := hi.withThread h
  split_ifs at hf with hp
  cases hf
  rw [not_or, not_ne_iff, not_ne_iff] at hp
  obtain ⟨hpc, hk⟩ := hp
  refine ⟨?_, (hh.recount _ _ _ _).move hth ?_ rfl ?_ ?_⟩
  · have hc' := hc.move hth (x := { th with pc := .got }) (by simp [Thread.refs, hpc])
    simp only [Counted, State.go] at hc' ⊢
    omega
  · simp [Thread.lead, hk, hpc]
  · simp [Thread.Counts, hk]
  · simp [Thread.Past, hk]

theorem reply_inv (hok : Fine s (.reply i r)) (h : step s (.reply i r) = some t) : Inv t := by
  obtain ⟨th, b, hth, hb, hc, hh, hf⟩ := hi.withThread h
  split_ifs at hf with hp
  rw [not_or, not_ne_iff, not_ne_iff] at hp
  obtain ⟨hpc, hk⟩ := hp
  cases r with
  | err rc => exact absurd hok Bool.noConfusion
  | ok seq =>
    obtain ⟨b', hb', rfl⟩ := map_eq_some_iff.mp hf
    refine ⟨?_, hh.grant hth ?_ ?_ hb' ?_ rfl⟩
    · exact (hc.move hth (by simp [Thread.refs, hpc])).reapInit hb'
    · simp [Thread.lead, hpc, hk]
    · simp [hk]
    · simp [Thread.lead]

theorem aheadReply_inv (hok : Fine s (.aheadReply r)) (h : step s (.aheadReply r) = some t) : Inv t := by
  obtain ⟨b, hb, hs⟩ := bind_eq_some_iff.mp h
  obtain ⟨rw, hrw, hs⟩ := bind_eq_some_iff.mp hs
  obtain ⟨b1, h1, hs⟩ := bind_eq_some_iff.mp hs
  obtain ⟨b2, h2, rfl⟩ := map_eq_some_iff.mp hs
  obtain ⟨hc, hh⟩ := hi.held hb
  have hlead := hh.lead
  rw [hrw, toList_some, length_singleton] at hlead
  have hle : b.init.toNat ≤ 1 := Bool.toNat_le _
  have hinit : b.init := Bool.toNat_eq_one.mp (by omega)
  have h0 : (s.ths.map Thread.lead).sum = 0 := by omega
  have hasync := hok.2 b hb
  cases r with
  | err rc => exact absurd hok.1 Bool.noConfusion
  | ok seq =>
    have hheld : Held b1 s.ths := held_reapInit h1 (hh.fresh hinit).1 (hh.rpcs rw hrw) rfl hh.err
      (fun y hy => sum_eq_zero_iff.mp h0 _ (mem_map_of_mem hy)) hh.counts
    have hc0 : Counted { b with rpc := none } s.ths b.opcnt := hc
    have hcount : Counted b1 s.ths b1.opcnt := hc0.reapInit h1
    have ha : b1.async = b.async := by rw [(Bmap.of_reapInit h1).2]
    have hdone : Counted { b1 with async := b1.async - 1 } s.ths (b1.opcnt - 1) := by
      simp only [Counted] at hcount ⊢
      omega
    have hinv := inv_opDone hdone (hheld.recount _ _ _ _)
    rwa [h2] at hinv

theorem resume_inv (h : step s (.resume i) = some t) : Inv t := by
  obtain ⟨th, b, hth, -, hc, hh, hf⟩ := hi.withThread h
  split_ifs at hf with hp
  cases hf
  rw [not_ne_iff] at hp
  have hmem := mem_of_getElem? hth
  have hinit : b.init = false := hh.past th hmem (.inl hp)
  have hbb : { b with init := false } = b := by rw [← hinit]
  rw [hbb]
  refine ⟨?_, hh.move hth ?_ rfl ?_ fun _ => hinit⟩
  · exact hc.move hth (by simp [Thread.refs, hp])
  · simp [Thread.lead, hp]
  · exact fun hx => hh.counts th hmem ⟨hx.1, .inr (.inr (.inl hp))⟩

theorem piggyback_inv (h : step s (.piggyback i seq) = some t) : Inv t := by
  obtain ⟨th, b, hth, hb, hc, hh, hf⟩ := hi.withThread h
  split_ifs at hf with hp
  rw [not_or, not_ne_iff, not_ne_iff] at hp
  obtain ⟨hpc, hk⟩ := hp
  obtain ⟨b', hb', rfl⟩ := map_eq_some_iff.mp hf
  refine ⟨?_, hh.grant hth ?_ ?_ hb' ?_ rfl⟩
  · exact (hc.move hth (by simp [Thread.refs, hpc])).reapInit hb'
  · simp [Thread.lead, hpc]
  · simp [hk]
  · simp [Thread.lead]

theorem wake_inv (hok : Fine s (.wake i seq)) (h : step s (.wake i seq) = some t) : Inv t := by
  obtain ⟨th, b, hth, -, hc, hh, hf⟩ := hi.withThread h
  have hk : th.kind ≠ .create := hok th hth
  split_ifs at hf with hp hm
  all_goals
    simp only [not_or, not_ne_iff, Bool.not_eq_true] at hp
    obtain ⟨hpc, hinit, -⟩ := hp
  · rw [Bmap.finish, if_neg hk] at hf
    cases hf
    refine ⟨?_, hh.move hth ?_ rfl (fun _ => hm) fun _ => hinit⟩
    · exact hc.move hth (by simp [Thread.refs, hpc])
    · simp [Thread.lead, hpc]
  · cases hf
    refine ⟨?_, (hh.recount _ _ _ _).move hth ?_ rfl ?_ fun _ => hinit⟩
    · exact hc.move hth (by simp [Thread.refs, hpc])
    · simp [Thread.lead, hpc]
    · simp [Thread.Counts]

end

theorem Bmap.mode_setMode (b : Bmap) (rw rw' : Rw) (h : rw' = rw ∨ b.mode rw') :
    (b.setMode rw).mode rw' := by
  cases rw <;> cases rw' <;> simp_all [Bmap.setMode, Bmap.mode]

theorem Held.setMode (rw : Rw) (h : Held b ths) (h0 : b.init = false)
    (hl : b.lease = some .write) : Held (b.setMode rw) ths := by
  have hlead := h.lead
  rw [h0, Bool.toNat_false, Nat.add_eq_zero_iff] at hlead
  cases rw with
  | read =>
    refine { h with leased := fun _ => { h.leased h0 with }, counts := ?_ }
    exact fun th hth hc => b.mode_setMode .read th.rw (.inr (h.counts th hth hc))
  | write =>
    refine { h with leased := fun _ => ?_, leads := ?_, rpcs := ?_, counts := ?_ }
    · exact { h.leased h0 with lease := ⟨.write, hl, fun _ => rfl⟩ }
    · intro th hth h1
      have hz : th.lead = 0 := sum_eq_zero_iff.mp hlead.1 _ (mem_map_of_mem hth)
      exact absurd (hz.symm.trans h1) Nat.zero_ne_one
    · intro m hm
      have hz := hlead.2
      rw [show b.rpc = some m from hm] at hz
      exact nomatch hz
    · exact fun th hth hc => b.mode_setMode .write th.rw (.inr (h.counts th hth hc))

variable {th : Thread}

theorem refused_inv (rc : ℤ) (hth : s.ths[i]? = some th)
    (hpc : th.pc = .modeset n) (hc : Counted b s.ths b.opcnt) (hh : Held b s.ths) :
    Inv (s.go i th (.done rc) { b with modechng := false }.opDone) := by
  refine inv_opDone (hc.leave hth ?_ rfl) ((hh.recount _ _ _ _).move hth ?_ rfl ?_ ?_)
  · simp [Thread.refs, hpc]
  · simp [Thread.lead, hpc]
  · simp [Thread.Counts]
  · simp [Thread.Past]

theorem changed_inv (hth : s.ths[i]? = some th) (hpc : th.pc = .modeset n)
    (hc : Counted b s.ths b.opcnt) (hh : Held b s.ths) (h0 : b.init = false)
    (hm : b.mode th.rw) : Inv (s.go i th .got (some b)) := by
  refine ⟨hc.move hth ?_, hh.move hth ?_ rfl (fun _ => hm) fun _ => h0⟩
  · simp [Thread.refs, hpc]
  · simp [Thread.lead, hpc]

theorem modeset_inv (hth : s.ths[i]? = some th) (hpc : th.pc = .modeset n)
    (hk : th.kind ≠ .create) (hr : r ≠ .ok 0) (hc : Counted b s.ths b.opcnt) (hh : Held b s.ths)
    (hf : mslBmapModeset s i th n b r seq = some t) : Inv t := by
  have hinit : b.init = false := hh.past th (mem_of_getElem? hth) (.inr (.inr ⟨n, hpc⟩))
  have hlease := hh.leased hinit
  unfold mslBmapModeset at hf
  simp only [Bmap.finish, if_neg hk, map_some] at hf
  by_cases hw : b.wr = true
  · rw [if_pos hw] at hf
    cases hf
    obtain ⟨m, hm, hwm⟩ := hlease.lease
    have hlw : b.lease = some .write := hwm hw ▸ hm
    have hheld := (hh.recount false b.opcnt b.async b.others).setMode th.rw hinit hlw
    refine changed_inv hth hpc ?_ hheld ?_ (Bmap.mode_setMode _ _ _ (.inl rfl))
    · cases th.rw <;> exact hc
    · cases th.rw <;> exact hinit
  · rw [if_neg hw] at hf
    by_cases ha : th.rw ≠ .write ∨ b.rd = false
    · rw [if_pos ha] at hf
      exact nomatch hf
    rw [if_neg ha] at hf
    cases r with
    | ok q =>
      cases hf
      have hq : q ≠ 0 := fun h0 => hr (congrArg Reply.ok h0)
      have hheld : Held { b with modechng := false, seq := q, lease := some .write } s.ths :=
        { hh with leased := fun _ => ⟨hq, hlease.timeoq, hlease.reaper, .write, rfl, fun _ => rfl⟩
                  rpcs := hh.rpcs }
      refine changed_inv hth hpc ?_ (hheld.setMode th.rw hinit rfl) ?_ (Bmap.mode_setMode _ _ _ (.inl rfl))
      · cases th.rw <;> exact hc
      · cases th.rw <;> exact hinit
    | err rc =>
      simp only at hf
      split_ifs at hf <;> cases hf
      · exact refused_inv rc hth hpc hc hh
      · exact refused_inv _ hth hpc hc hh
      refine ⟨hc.move hth ?_, hh.move hth ?_ rfl ?_ fun _ => hinit⟩
      · simp [Thread.refs, hpc]
      · simp [Thread.lead, hpc]
      · simp [Thread.Counts]

theorem mode_inv (hi : Inv s) (hok : Fine s (.mode i r seq)) (h : step s (.mode i r seq) = some t) : Inv t := by
  obtain ⟨th, b, hth, -, hc, hh, hf⟩ := hi.withThread h
  split at hf
  · rename_i hpc
    exact modeset_inv hth hpc (hok.1 th hth) hok.2 hc hh hf
  · exact nomatch hf

theorem put_inv (hi : Inv s) (h : step s (.put i) = some t) : Inv t := by
  obtain ⟨th, b, hth, hb, hc, hh, hf⟩ := hi.withThread h
  split_ifs at hf with hp
  cases hf
  rw [not_ne_iff] at hp
  refine inv_opDone (hc.leave hth ?_ rfl) (hh.move hth ?_ rfl ?_ ?_)
  · simp [Thread.refs, hp]
  · simp [Thread.lead, hp]
  · simp [Thread.Counts]
  · simp [Thread.Past]

theorem reap_inv (hi : Inv s) (h : step s .reap = some t) : Inv t := by
  obtain ⟨b, hb, hf⟩ := bind_eq_some_iff.mp h
  obtain ⟨hc, hh⟩ := hi.held hb
  split_ifs at hf with hp
  cases hf
  rw [not_or, not_ne_iff, Bool.not_eq_false] at hp
  have hinit : b.init = false := by
    rcases hin : b.init with _ | _
    · rfl
    · exact absurd ((hh.fresh hin).2.symm.trans hp.1) Bool.noConfusion
  have h1 := (hh.leased hinit).reaper
  have h0 : (s.ths.map Thread.refs).sum = 0 := by
    unfold Counted at hc
    omega
  simp only [Inv, Bmap.opDone, hp.2, le_refl, if_true]
  exact fun y hy => sum_eq_zero_iff.mp h0 _ (mem_map_of_mem hy)

theorem renew_inv (hi : Inv s) (hok : Fine s (.renew seq)) (h : step s (.renew seq) = some t) : Inv t := by
  obtain ⟨b, hb, hf⟩ := bind_eq_some_iff.mp h
  obtain ⟨hc, hh⟩ := hi.held hb
  split_ifs at hf
  cases hf
  exact ⟨hc, { hh with leased := fun h0 => { hh.leased h0 with seq := hok } }⟩

theorem hold_inv (hi : Inv s) (h : step s .hold = some t) : Inv t := by
  obtain ⟨b, hb, hf⟩ := bind_eq_some_iff.mp h
  obtain ⟨hc, hh⟩ := hi.held hb
  cases hf
  refine ⟨?_, hh.recount _ _ _ _⟩
  simp only [Counted] at hc ⊢
  omega

theorem drop_inv (hi : Inv s) (h : step s .drop = some t) : Inv t := by
  obtain ⟨b, hb, hf⟩ := bind_eq_some_iff.mp h
  obtain ⟨hc, hh⟩ := hi.held hb
  split_ifs at hf with ho
  cases hf
  refine inv_opDone ?_ (hh.recount _ _ _ _)
  simp only [Counted] at hc ⊢
  omega

theorem step_inv {o : Op} (hi : Inv s) (hok : Fine s o) (h : step s o = some t) : Inv t := by
  cases o with
  | get k rw =>
    cases h
    exact get_inv k rw hi
  | send => exact send_inv hi h
  | sendFail => exact sendFail_inv hi hok h
  | start => exact start_inv hi h
  | reply => exact reply_inv hi hok h
  | aheadReply => exact aheadReply_inv hi hok h
  | resume => exact resume_inv hi h
  | piggyback => exact piggyback_inv hi h
  | wake => exact wake_inv hi hok h
  | mode => exact mode_inv hi hok h
  | put => exact put_inv hi h
  | reap => exact reap_inv hi h
  | renew => exact renew_inv hi hok h
  | renewFail => exact hok.elim
  | hold => exact hold_inv hi h
  | drop => exact drop_inv hi h

theorem Inv.granted (hi : Inv s) : Granted s := by
  intro th hth hgot hk
  rcases hb : s.b with _ | b
  · unfold Inv at hi
    rw [hb] at hi
    have h0 := hi th hth
    simp [Thread.refs, hgot] at h0
  obtain ⟨-, hh⟩ := hi.held hb
  have hl := hh.leased (hh.past th hth (.inr (.inl ⟨hgot, hk⟩)))
  have hm := hh.counts th hth ⟨hk, .inr (.inr (.inr hgot))⟩
  exact ⟨b, rfl, hl.seq, hl.timeoq, hl.reaper, hh.err, hl.covers hm⟩

/-- **Whoever gets the bmap has its lease**, if all steps are `Fine`. -/
theorem granted_run (os : List Op) (t : State) (hok : Admits step Fine State.init os)
    (h : run step State.init os = some t) : Granted t := by
  have h0 : Inv State.init := fun _ hth => absurd hth not_mem_nil
  exact (run_invariant step_inv h0 hok h).granted

/-- A writer waits for a reader's bmap, and is delayed once. -/
theorem granted_run_two :
    ∃ s ∈ run step State.init [.get .io .read, .get .io .write, .send 0, .reply 0 (.ok 7), .wake 1 0,
        .resume 0, .mode 1 (.err (-slerrBmapDiowait)) 0, .mode 1 (.ok 8) 0],
      Granted s ∧ ∀ th ∈ s.ths, th.pc = .got := by
  refine ⟨⟨some ⟨false, false, true, true, true, 8, 0, 3, 1, 0, 0, none, some .write⟩,
    [⟨.io, .read, .got⟩, ⟨.io, .write, .got⟩]⟩, by decide +kernel, ?_, by decide⟩
  exact granted_run [.get .io .read, .get .io .write, .send 0, .reply 0 (.ok 7), .wake 1 0, .resume 0,
    .mode 1 (.err (-slerrBmapDiowait)) 0, .mode 1 (.ok 8) 0] _ (by decide +kernel) (by decide +kernel)

theorem not_granted (hth : th ∈ s.ths) (hgot : th.pc = .got) (hk : th.kind ≠ .ahead)
    (hb : s.b = some b) (hbad : b.seq = 0 ∨ b.err ≠ 0) : ¬Granted s := by
  intro h
  obtain ⟨b', hb', hs, -, -, herr, -⟩ := h th hth hgot hk
  cases hb.symm.trans hb'
  exact hbad.elim hs fun hne => hne herr

def refusedBmap (rw : Rw) (rc : ℤ) : Bmap :=
  { Bmap.new rw with init := false, err := rc, opcnt := 2 }

/-- The MDS refuses the lease: no memory, or `SLERR_BMAP_DIOWAIT`; or it refuses to extend it. -/
theorem refused_reported : (∃ s ∈ run step State.init
        [.get .io .read, .get .io .read, .send 0, .reply 0 (.err (-enomem)), .resume 0, .wake 1 0],
      (∀ th ∈ s.ths, th.pc = .got) ∧ ¬Granted s) ∧ (∃ s ∈ run step State.init
        [.get .io .write, .get .io .write, .send 0, .reply 0 (.err (-slerrBmapDiowait)), .resume 0, .wake 1 0],
      (∀ th ∈ s.ths, th.pc = .got) ∧ ¬Granted s) ∧ ∃ s ∈ run step State.init
        [.get .io .read, .send 0, .reply 0 (.ok 7), .resume 0, .hold, .renewFail (-etimedout), .drop, .get .io .read,
          .wake 1 0],
      (∀ th ∈ s.ths, th.pc = .got) ∧ ¬Granted s := by
  refine ⟨?_, ?_, ?_⟩
  · refine ⟨⟨some (refusedBmap .read (-enomem)), [⟨.io, .read, .got⟩, ⟨.io, .read, .got⟩]⟩, by decide +kernel,
      by decide, ?_⟩
    exact not_granted mem_cons_self rfl nofun rfl (.inl rfl)
  · refine ⟨⟨some (refusedBmap .write (-slerrBmapDiowait)), [⟨.io, .write, .got⟩, ⟨.io, .write, .got⟩]⟩,
      by decide +kernel, by decide, ?_⟩
    exact not_granted mem_cons_self rfl nofun rfl (.inl rfl)
  · refine ⟨⟨some ⟨false, false, true, false, true, 7, -etimedout, 3, 1, 0, 0, none, some .read⟩,
      [⟨.io, .read, .got⟩, ⟨.io, .read, .got⟩]⟩, by decide +kernel, by decide, ?_⟩
    exact not_granted mem_cons_self rfl nofun rfl (.inr (by decide))

end Slash2.Client.BmapGet
