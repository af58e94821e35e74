/-
# The window of lease sequence numbers

The low mark the I/O servers are told is the number of the lease at the head of the
list. That the head has the smallest number is nowhere checked: taking a number,
entering the list and storing the number are three steps, and two grants may take
them in different orders.

Key theorems: `step_window`, `lease_window_run`.
-/
import Mathlib.Data.Fintype.Basic
import Slash2.Lease.Timeo

namespace Slash2.Timeo

open Lib List Option

variable {L : Type*} [DecidableEq L]

def Bml.granted (b : Bml) : Bool :=
  b.live || match b.stage with
    | .queued _ => true
    | _ => false

/-- The low mark is set right when the head leaves `rest`. -/
def LowOrderly (s : Tbl L) : List L → Prop
  | [] => ∀ x, ∀ n ∈ (s.bml x).due, s.maxseq ≤ n
  | h :: _ => (s.bml h).live ∧ (s.bml h).number = (s.bml h).seq

/-- Every number granted to a lease in the list is below `n`. -/
def Above (s : Tbl L) (n : ℕ) : Prop := ∀ x ∈ s.leases, (s.bml x).granted → (s.bml x).number < n
  deriving Decidable

/-- Numbers do not wrap, are listed in order, and the low mark is taken from a live lease. -/
def Orderly (s : Tbl L) : Act L → Prop
  | .getnextseq _ | .take _ => s.maxseq + 1 ≠ bmapseqAny
  | .append l => ∀ n ∈ (s.bml l).due, Above s n
  | .requeue l | .del l => s.leases.head? = some l → LowOrderly s (s.leases.erase l)
  | .fail l => (s.bml l).live = false
  | .reattach _ seq => s.minseq ≤ seq → Above s seq
  | .store _ | .ask | .reply => True

instance [Fintype L] (s : Tbl L) (rest : List L) : Decidable (LowOrderly s rest) := by
  cases rest <;> unfold LowOrderly <;> infer_instance

instance [Fintype L] (s : Tbl L) : ∀ a, Decidable (Orderly s a)
  | .getnextseq _ | .take _ | .append _ | .requeue _ | .del _ | .fail _ | .reattach .. | .store _ | .ask | .reply => by
    unfold Orderly
    infer_instance

structure Window (s : Tbl L) : Prop extends Bounded s where
  nodup : s.leases.Nodup
  mem : ∀ l ∈ s.leases, (s.bml l).timeoq ∧ ∀ r, (s.bml l).stage ≠ .requeued r
  sorted : s.leases.Pairwise fun a b => (s.bml a).granted → (s.bml b).granted →
    (s.bml a).number < (s.bml b).number
  low : ∀ l ∈ s.leases, (s.bml l).granted → s.minseq ≤ (s.bml l).number
  /-- a live head holds back older grants; without one there are none -/
  due : (∀ h ∈ s.leases.head?, (s.bml h).live = false) → ∀ l, ∀ n ∈ (s.bml l).due, s.minseq ≤ n
  bim : s.bim.minseq ≤ s.minseq
  reply : ∀ n ∈ s.bim.reply, s.bim.minseq ≤ n ∧ n ≤ s.minseq

variable {s : Tbl L} {l : L} {rest : List L}

omit [DecidableEq L] in
theorem Window.journal (h : Window s) : Window (mdsBmapTimeotblJournalSeqno s) :=
  ⟨⟨h.min_le_max, h.below⟩, h.nodup, h.mem, h.sorted, h.low, h.due, h.bim, h.reply⟩

omit [DecidableEq L] in
theorem Window.raise (h : Window s) {m : ℕ} (hm : s.maxseq ≤ m) : Window { s with maxseq := m } :=
  ⟨h.toBounded.raise hm, h.nodup, h.mem, h.sorted, h.low, h.due, h.bim, h.reply⟩

omit [DecidableEq L] in
theorem Window.getnextseq (h : Window s) (hw : s.maxseq + 1 ≠ bmapseqAny) : Window (mdsBmapTimeotblGetnextseq s) :=
  (h.raise (by rw [next_eq hw]; omega)).journal

variable {b : Bml}

theorem Window.modify (h : Window s) (hbd : Bounded (s.modify l b))
    (hmem : l ∈ s.leases → b.timeoq ∧ ∀ r, b.stage ≠ .requeued r)
    (hnum : l ∈ s.leases → b.granted → (s.bml l).granted ∧ b.number = (s.bml l).number)
    (hlive : l ∈ s.leases → (s.bml l).live → b.live)
    (hdue : (∀ h ∈ s.leases.head?, (s.bml h).live = false) → ∀ n ∈ b.due, s.minseq ≤ n) : Window (s.modify l b) := by
  -- what a lease in the list shows after the change it showed before
  have hshow : ∀ x ∈ s.leases, ((s.modify l b).bml x).granted = true →
      (s.bml x).granted = true ∧ ((s.modify l b).bml x).number = (s.bml x).number := by
    intro x hx hg
    by_cases hxl : x = l
    · subst hxl
      rw [modify_self] at hg ⊢
      exact hnum hx hg
    · rw [modify_ne s b hxl] at hg ⊢
      exact ⟨hg, rfl⟩
  refine ⟨hbd, h.nodup, fun x hx => ?_, ?_, fun x hx hg => ?_, fun he x n hn => ?_, h.bim, h.reply⟩
  · by_cases hxl : x = l
    · subst hxl
      rw [modify_self]
      exact hmem hx
    · rw [modify_ne s b hxl]
      exact h.mem x hx
  · refine h.sorted.imp_of_mem fun {x y} hx hy hxy hgx hgy => ?_
    obtain ⟨hgx', hnx⟩ := hshow x hx hgx
    obtain ⟨hgy', hny⟩ := hshow y hy hgy
    rw [hnx, hny]
    exact hxy hgx' hgy'
  · obtain ⟨hg', hn⟩ := hshow x hx hg
    rw [hn]
    exact h.low x hx hg'
  · have hdead : ∀ y ∈ s.leases.head?, (s.bml y).live = false := by
      intro y hy
      have hdy := he y hy
      by_cases hyl : y = l
      · subst hyl
        by_contra hlv
        simp [hlive (mem_of_mem_head? hy) (by simpa using hlv)] at hdy
      · rwa [modify_ne s b hyl] at hdy
    by_cases hxl : x = l
    · rw [hxl, modify_self] at hn
      exact hdue hdead n hn
    · rw [modify_ne s b hxl] at hn
      exact h.due hdead x n hn

theorem Window.enter (h : Window s) (hl : l ∉ s.leases)
    (hbd : Bounded ({ s with leases := s.leases ++ [l] }.modify l b))
    (hmem : b.timeoq = true ∧ ∀ r, b.stage ≠ .requeued r) (hdue : b.due = none)
    (habove : b.granted = true → Above s b.number ∧ s.minseq ≤ b.number) :
    Window ({ s with leases := s.leases ++ [l] }.modify l b) := by
  generalize ht : Tbl.modify { s with leases := s.leases ++ [l] } l b = t at hbd ⊢
  have hself : t.bml l = b := ht ▸ modify_self ..
  have hne : ∀ x, x ≠ l → t.bml x = s.bml x := fun x hx => ht ▸ modify_ne _ b hx
  have hother : ∀ x ∈ s.leases, t.bml x = s.bml x := fun x hx => hne x fun he => hl (he ▸ hx)
  have hls : t.leases = s.leases ++ [l] := ht ▸ rfl
  have hmin : t.minseq = s.minseq := ht ▸ rfl
  have hbim : t.bim = s.bim := ht ▸ rfl
  refine ⟨hbd, ?_, ?_, ?_, ?_, ?_, ?_, ?_⟩
  · rw [hls]
    refine nodup_append.mpr ⟨h.nodup, nodup_singleton l, fun x hx y hy => ?_⟩
    rw [mem_singleton.mp hy]
    exact fun he => hl (he ▸ hx)
  · intro x hx
    rw [hls] at hx
    rcases mem_append.mp hx with hx | hx
    · rw [hother x hx]
      exact h.mem x hx
    · rw [mem_singleton.mp hx, hself]
      exact hmem
  · rw [hls]
    refine pairwise_append.mpr ⟨?_, pairwise_singleton _ _, fun x hx y hy => ?_⟩
    · refine h.sorted.imp_of_mem fun {x y} hx hy hxy => ?_
      rw [hother x hx, hother y hy]
      exact hxy
    · rw [mem_singleton.mp hy, hother x hx, hself]
      exact fun hgx hgb => (habove hgb).1 x hx hgx
  · intro x hx hg
    rw [hls] at hx
    rw [hmin]
    rcases mem_append.mp hx with hx | hx
    · rw [hother x hx] at hg ⊢
      exact h.low x hx hg
    · rw [mem_singleton.mp hx, hself] at hg ⊢
      exact (habove hg).2
  · intro he x n hn
    rw [hmin]
    -- the head of the longer list is the old one, or there was none
    have hdead : ∀ y ∈ s.leases.head?, (s.bml y).live = false := by
      intro y hy
      have hyt : y ∈ t.leases.head? := by
        rw [hls, head?_append, hy]
        rfl
      have := he y hyt
      rwa [hother y (mem_of_mem_head? hy)] at this
    by_cases hxl : x = l
    · rw [hxl, hself, hdue] at hn
      simp at hn
    · rw [hne x hxl] at hn
      exact h.due hdead x n hn
  · rw [hbim, hmin]
    exact h.bim
  · rw [hbim, hmin]
    exact h.reply

/-! ### A lease leaves the list -/

theorem Bml.granted_of_live (h : b.live) : b.granted := by simp [Bml.granted, h]

omit [DecidableEq L] in
theorem low_le (h : Window s) (hsub : ∀ x ∈ rest, x ∈ s.leases) (ho : LowOrderly s rest) :
    s.minseq ≤ s.low rest ∧ s.low rest ≤ s.maxseq := by
  cases rest with
  | nil => exact ⟨h.min_le_max, le_rfl⟩
  | cons x =>
    obtain ⟨hlive, hn⟩ := ho
    refine ⟨?_, (h.below x).1⟩
    calc s.minseq ≤ (s.bml x).number := h.low x (hsub x mem_cons_self) (Bml.granted_of_live hlive)
      _ = (s.bml x).seq := hn

omit [DecidableEq L] in
theorem low_le_number (ho : LowOrderly s rest) (hs : rest.Pairwise fun a b => (s.bml a).granted =
    true → (s.bml b).granted → (s.bml a).number < (s.bml b).number) :
    ∀ x ∈ rest, (s.bml x).granted → s.low rest ≤ (s.bml x).number := by
  cases rest with
  | nil => simp
  | cons y =>
    obtain ⟨hlive, hn⟩ := ho
    intro x hx hgx
    change (s.bml y).seq ≤ _
    rcases mem_cons.mp hx with rfl | hx
    · exact hn.ge
    · have := (pairwise_cons.mp hs).1 x hx (Bml.granted_of_live hlive) hgx
      omega

omit [DecidableEq L] in
theorem low_due (ho : LowOrderly s rest) (hdead : ∀ y ∈ rest.head?, (s.bml y).live = false) :
    ∀ l, ∀ n ∈ (s.bml l).due, s.low rest ≤ n := by
  cases rest with
  | nil => exact ho
  | cons y =>
    have := hdead y rfl
    simp [ho.1] at this

section
variable (h : Window s) (ho : s.leases.head? = some l → LowOrderly s (s.leases.erase l))
include h ho

theorem Window.remove_le : s.minseq ≤ (mdsBmapTimeotblRemove l s).minseq := by
  unfold mdsBmapTimeotblRemove
  split_ifs with hd
  · exact (low_le h (fun _ => mem_of_mem_erase) (ho hd)).1
  · exact le_rfl

theorem Window.remove : Window (mdsBmapTimeotblRemove l s) := by
  have hsub : ∀ x ∈ s.leases.erase l, x ∈ s.leases := fun _ => mem_of_mem_erase
  have hsorted := h.sorted.sublist (erase_sublist (a := l))
  unfold mdsBmapTimeotblRemove
  split_ifs with hd
  · obtain ⟨hmin, hmax⟩ := low_le h hsub (ho hd)
    exact Window.journal ⟨⟨hmax, h.below⟩, h.nodup.erase l, fun x hx => h.mem x (hsub x hx), hsorted,
      low_le_number (ho hd) hsorted, low_due (ho hd), h.bim.trans hmin,
      fun n hn => ⟨(h.reply n hn).1, (h.reply n hn).2.trans hmin⟩⟩
  -- the head stays, if there is one
  have hhead : (s.leases.erase l).head? = s.leases.head? := by
    cases hls : s.leases with
    | nil => rfl
    | cons y =>
      have hyl : y ≠ l := fun hy => hd (by rw [hls, hy]; rfl)
      rw [erase_cons_tail (by simpa using hyl)]
      rfl
  refine ⟨⟨h.min_le_max, h.below⟩, h.nodup.erase l, fun x hx => h.mem x (hsub x hx), hsorted,
    fun x hx => h.low x (hsub x hx), fun hdead => h.due fun y hy => hdead y ?_, h.bim, h.reply⟩
  exact hhead.trans hy

end

theorem bimUpdateseq_of_le {m n : ℕ} (h : m ≤ n) : m ≤ bimUpdateseq m n ∧ bimUpdateseq m n ≤ n := by
  unfold bimUpdateseq
  split_ifs <;> omega

theorem Window.take (h : Window s) (hw : s.maxseq + 1 ≠ bmapseqAny)
    (hbd : Bounded ((mdsBmapTimeotblGetnextseq s).modify l b)) (hq : b.timeoq = (s.bml l).timeoq) (hr : ∀ r, b.stage ≠ .requeued r)
    (hnum : l ∈ s.leases → b.granted → (s.bml l).granted ∧ b.number = (s.bml l).number)
    (hlive : b.live = (s.bml l).live)
    (hdue : (∀ h ∈ s.leases.head?, (s.bml h).live = false) → ∀ n ∈ b.due, s.minseq ≤ n) :
    Window ((mdsBmapTimeotblGetnextseq s).modify l b) :=
  (h.getnextseq hw).modify hbd (fun hl => ⟨hq.trans (h.mem l hl).1, hr⟩) hnum (fun _ hlv => hlive.trans hlv) hdue

omit [DecidableEq L] in
theorem Window.le_due (h : Window s) {n : ℕ} (hn : n ∈ (s.bml l).due) (habove : Above s n) : s.minseq ≤ n := by
  by_cases hdead : ∀ y ∈ s.leases.head?, (s.bml y).live = false
  · exact h.due hdead l n hn
  push Not at hdead
  obtain ⟨y, hy, hlive⟩ := hdead
  have hmem := mem_of_mem_head? hy
  have hg := Bml.granted_of_live (by simpa using hlive)
  calc s.minseq ≤ (s.bml y).number := h.low y hmem hg
    _ ≤ n := (habove y hmem hg).le

theorem Window.append (h : Window s) {r : Option ℕ} (hl : l ∉ s.leases)
    (hbd : Bounded ({ s with leases := s.leases ++ [l] }.modify l ((s.bml l).atPlace r)))
    (hdue : (s.bml l).due = some (r.getD (s.bml l).seq)) (ho : ∀ n ∈ (s.bml l).due, Above s n) :
    Window ({ s with leases := s.leases ++ [l] }.modify l ((s.bml l).atPlace r)) := by
  have habove : Above s (r.getD (s.bml l).seq) := ho _ hdue
  refine h.enter hl hbd ⟨?_, ?_⟩ (atPlace_due ..) fun _ => ?_
  · cases r <;> rfl
  · cases r <;> simp [Bml.atPlace]
  · rw [atPlace_number]
    exact ⟨habove, h.le_due hdue habove⟩

theorem Orderly.noWrap {a : Act L} (h : Orderly s a) : NoWrap s a := by
  cases a <;> first | exact h | trivial

theorem Window.notMem_remove (h : Window s) (l : L) : l ∉ (mdsBmapTimeotblRemove l s).leases := by
  rw [remove_leases]
  exact h.nodup.not_mem_erase

theorem step_window {t : Tbl L} {a : Act L} (h : Window s) (ho : Orderly s a) (hs : step s a = some t) :
    Window t ∧ s.minseq ≤ t.minseq ∧ s.bim.minseq ≤ t.bim.minseq := by
  have hmm := h.min_le_max
  have hbd : Bounded t := step_bounded h.toBounded ho.noWrap hs
  revert hs
  fun_cases step s a <;> intro hs <;> try cases hs
  next hnew =>
    refine ⟨h.take ho hbd (by rw [hnew]) (by simp) (fun _ hg => ?_) (by rw [hnew]) fun _ => ?_, le_rfl, le_rfl⟩
    · simp [Bml.granted, mdsBmlNew] at hg
    · simp only [Bml.due, next_eq ho, mem_def, some.injEq]
      omega
  next hst =>
    refine ⟨h.take ho hbd rfl (by simp) (fun _ hg => ?_) rfl fun _ => ?_, le_rfl, le_rfl⟩
    · simpa [Bml.granted, Bml.number, hst] using hg
    · simp only [Bml.due, next_eq ho, mem_def, some.injEq, getD_some]
      omega
  next l hst =>
    refine ⟨h.take ho hbd rfl (by simp) (fun _ hg => ?_) rfl fun hd n hn => ?_, le_rfl, le_rfl⟩
    · simpa [Bml.granted, Bml.number, hst] using hg
    · apply h.due hd l
      simpa [Bml.due, hst] using hn
  next l r _ hst =>
    have hw : Window (mdsBmapTimeotblRemove l s) := h.remove ho
    have hout := h.notMem_remove l
    refine ⟨hw.modify hbd (fun hl => absurd hl hout) (fun hl => absurd hl hout)
      (fun hl => absurd hl hout) fun hd n hn => ?_, h.remove_le ho, (congrArg Bim.minseq (remove_bim s l)).ge⟩
    apply hw.due hd l
    rw [remove_bml]
    simpa [Bml.due, hst] using hn
  -- both ways in leave the lease out of the list before it enters
  next l r hq hst =>
    refine ⟨h.append (fun hl => ?_) hbd (by simp [Bml.due, hst]) ho, le_rfl, le_rfl⟩
    simp [(h.mem l hl).1] at hq
  next l r _ hst =>
    exact ⟨h.append (fun hl => (h.mem l hl).2 r hst) hbd (by simp [Bml.due, hst]) ho, le_rfl, le_rfl⟩
  next l n hst =>
    have hnum : n = (s.bml l).number := by simp [Bml.number, hst]
    exact ⟨h.modify hbd (fun hl => ⟨(h.mem l hl).1, by simp⟩)
      (fun _ _ => ⟨by simp [Bml.granted, hst], hnum⟩) (fun _ _ => rfl) (by simp [Bml.due]), le_rfl, le_rfl⟩
  next l _ _ =>
    refine ⟨h.modify hbd (fun hl => ⟨(h.mem l hl).1, by simp⟩) (fun _ hg => ?_) (fun _ hl => hl)
      (by simp [Bml.due]), le_rfl, le_rfl⟩
    simp [Bml.granted, show (s.bml l).live = false from ho] at hg
  next l _ hst =>
    have hout := h.notMem_remove l
    exact ⟨(h.remove ho).modify hbd (fun hl => absurd hl hout) (fun hl => absurd hl hout)
      (fun hl => absurd hl hout) (by simp [Bml.due, hst]), h.remove_le ho, (congrArg Bim.minseq (remove_bim s l)).ge⟩
  next l seq hnew =>
    have hl : l ∉ s.leases := fun hl => by
      have := (h.mem l hl).1
      simp [hnew.1, mdsBmlNew] at this
    refine ⟨?_, le_rfl, le_rfl⟩
    refine Window.enter (h.raise (Nat.le_max_left s.maxseq seq)) hl hbd ⟨rfl, by simp⟩ rfl fun hg => ?_
    have hlow : s.minseq ≤ seq := by
      simp [Bml.granted] at hg
      omega
    exact ⟨ho hlow, hlow⟩
  next =>
    refine ⟨⟨hbd, h.nodup, h.mem, h.sorted, h.low, h.due, h.bim, ?_⟩, le_rfl, le_rfl⟩
    simpa using h.bim
  next =>
    obtain ⟨n, hn, rfl⟩ := map_eq_some_iff.mp hs
    obtain ⟨hlo, hhi⟩ := h.reply n hn
    obtain ⟨hup, hle⟩ := bimUpdateseq_of_le hlo
    exact ⟨⟨hbd, h.nodup, h.mem, h.sorted, h.low, h.due, hle.trans hhi, by simp⟩, le_rfl, hup⟩

omit [DecidableEq L] in
theorem start_window {maxseq minseq bim : ℕ} (hbim : bim ≤ minseq) (hmin : minseq ≤ maxseq) :
    Window (Tbl.start maxseq minseq bim : Tbl L) :=
  ⟨start_bounded hmin, nodup_nil, by simp [Tbl.start], List.Pairwise.nil, by simp [Tbl.start],
    by simp [Tbl.start, mdsBmlNew, Bml.due], hbim, by simp [Tbl.start]⟩

/-- **The window over a run** of orderly steps: no lease below the low mark, which does not go down; what was refused
stays so. -/
theorem lease_window_run {maxseq minseq bim : ℕ} (hbim : bim ≤ minseq) (hmin : minseq ≤ maxseq)
    {as bs : List (Act L)} {t u : Tbl L} (hok : Admits step Orderly (Tbl.start maxseq minseq bim : Tbl L) (as ++ bs))
    (ht : run step (Tbl.start maxseq minseq bim) as = some t) (hu : run step t bs = some u) :
    (∀ l ∈ t.leases, (t.bml l).granted = true → t.minseq ≤ (t.bml l).number ∧ ¬ t.bim.rejects (t.bml l).number) ∧
    t.minseq ≤ u.minseq ∧ ∀ q, t.bim.rejects q → u.bim.rejects q := by
  obtain ⟨has, hbs⟩ := admits_append hok ht
  have hw : Window t := run_invariant (fun h ho hs => (step_window h ho hs).1) (start_window hbim hmin) has ht
  have hmono : t.minseq ≤ u.minseq ∧ t.bim.minseq ≤ u.bim.minseq := run_rel
      (fun _ => ⟨le_rfl, le_rfl⟩) (fun h h' => ⟨h.1.trans h'.1, h.2.trans h'.2⟩)
      (fun h ho hs => step_window h ho hs) hw hbs hu
  refine ⟨fun l hl hg => ?_, hmono.1, fun q hq => Nat.lt_of_lt_of_le hq hmono.2⟩
  have hlow := hw.low l hl hg
  exact ⟨hlow, Nat.not_lt.mpr (hw.bim.trans hlow)⟩

def grant (l : L) : List (Act L) := [.take l, .append l, .store l]

/-- The first of two leases times out, and the I/O server hears it. -/
theorem lease_window_run_expire : ∃ t u : Tbl (Fin 2), run step (Tbl.start 0 0 0) (grant 0 ++ grant 1) = some t ∧
      run step t [.del 0, .ask, .reply] = some u ∧ u.bim.rejects 1 ∧ (∀ l ∈ t.leases, (t.bml l).granted = true →
        t.minseq ≤ (t.bml l).number ∧ ¬ t.bim.rejects (t.bml l).number) ∧
      t.minseq ≤ u.minseq ∧ ∀ q, t.bim.rejects q → u.bim.rejects q :=
  have hok : Admits step Orderly (Tbl.start 0 0 0 : Tbl (Fin 2))
      ((grant 0 ++ grant 1) ++ [.del 0, .ask, .reply]) := by decide
  ⟨_, _, rfl, rfl, by decide, lease_window_run (Nat.le_refl 0) (Nat.le_refl 0) hok rfl rfl⟩

/-- Lease 1 has the earlier number, and enters later. -/
theorem lease_window_overtaken : (∃ t ∈ run step (Tbl.start 0 0 0 : Tbl (Fin 3))
        (grant 0 ++ [.take 1] ++ grant 2 ++ [.append 1, .store 1, .del 0, .ask, .reply]),
      1 ∈ t.leases ∧ (t.bml 1).live = true ∧ (t.bml 1).seq = 2 ∧ t.minseq = 3 ∧ t.bim.rejects 2) ∧
    ∃ t ∈ run step (Tbl.start 0 0 0 : Tbl (Fin 3)) (grant 0 ++ grant 1 ++ [.take 2, .append 2, .del 0]),
      t.minseq = 2 ∧ ∃ u ∈ run step t [.del 1], u.minseq = 0 := by
  decide

end Slash2.Timeo
