/-
# Runs of the replication work

The marks of the slivers belong to the bmap and not to the item. An item that ends with an error
leaves marks, and the next item, if it is shorter, asks for slivers beyond its end
(`requests_beyond_len`). A late answer is not heard when the sliver has been reaped, and items of
two generations share the marks. Where none of this happens every item is reported once and
rightly (`replwk_run`).
-/
import Slash2.Sliod.Replwk

namespace Slash2.Replwk

open Lib List Function
open Option (toList_none toList_some)
open Residency (slashSlvrSize slashSlvrsPerBmap slashBmapSize)

/-- An item names its source, is alone with its bmap and marks no sliver beyond; late answers find theirs. -/
def Clean (s : Sli) : Label → Prop
  | .accept a _ _ =>
    a.src ∧ (∀ w ∈ s.active, s.bmap w ≠ a.key.bmap) ∧
      ∀ n < slashSlvrsPerBmap, nslvr a.len ≤ n → s.want a.key.bmap n = false
  | .aio _ found _ _ => found
  | _ => True

instance (s : Sli) (l : Label) : Decidable (Clean s l) := by
  cases l <;> unfold Clean <;> infer_instance

/-! ### The invariant of an item

An item is looked at through five things: its record, how often it is pending, what the thread does
with it, its requests and the marks of its bmap. -/

inductive Role where
  | away
  | taken
  | picked (n : ℕ)
  | queued (n : ℕ)
  | failed (n : ℕ)
  | releasing
  deriving DecidableEq

/-- What the thread does with item `w`. -/
def Pc.role (w : ℕ) : Pc → Role
  | .idle => .away
  | .taken v => if v = w then .taken else .away
  | .picked v n => if v = w then .picked n else .away
  | .queued v n => if v = w then .queued n else .away
  | .failed v n => if v = w then .failed n else .away
  | .releasing v => if v = w then .releasing else .away

namespace Role

def holds : Role → ℕ
  | away => 0
  | _ => 1

def picks (n : ℕ) : Role → ℕ
  | picked m | queued m | failed m => if m = n then 1 else 0
  | _ => 0

def Searches : Role → Prop
  | taken | picked _ | queued _ | failed _ => True
  | _ => False

def Requeued : Role → Prop
  | queued _ | failed _ => True
  | _ => False

def Slotted : Role → Prop
  | picked _ | queued _ => True
  | _ => False

end Role

def Phase.waits : Phase → Bool
  | .reading | .aio => true
  | _ => false

def Phase.Open : Phase → Prop
  | .reading | .aio => True
  | .answered rc | .queued rc => rc ≠ 0

/-- An active item, dropping a reference if `d`: each sliver is marked, with the thread, or asked for. -/
structure Live (d : Option ℤ) (x : Work) (pend : ℕ) (r : Role) (fl : List Flight) (want : ℕ → Bool) :
    Prop where
  reports : x.reports = []
  len : 1 ≤ x.len ∧ x.len ≤ slashBmapSize
  src : x.src
  refs : x.refcnt = fl.length + pend + r.holds + d.toList.length
  pos : 0 < x.refcnt
  pend_le : pend ≤ 1
  slivers : ∀ n, (x.requests.map Prod.fst).count n + r.picks n + (want n).toNat =
    if n < nslvr x.len then 1 else 0
  lens : ∀ q ∈ x.requests, q.2 = slvrLen x.len q.1
  slots : ∀ n, x.slvr.count (.slvr n) = fl.countP fun f => f.n = n ∧ f.phase.waits
  sched : r.Slotted → .sched ∈ x.slvr
  requeued : r.Requeued → pend = 1
  read : x.status = 0 → d.getD 0 = 0 →
    ∀ n ∈ x.requests.map Prod.fst, n ∈ x.written ∨ ∃ f ∈ fl, f.n = n ∧ f.phase.Open
  more : x.status = 0 → d.getD 0 = 0 → (∃ n, want n) → pend = 1 ∨ r.Searches

variable {rc : ℤ} {v : ℕ} {pc : Pc} {a : Adding}

structure Done (x : Work) : Prop where
  reports : x.reports.length = 1
  sound : Sound x

namespace Live

variable {d : Option ℤ} {x : Work} {pend : ℕ} {r : Role} {fl fl' : List Flight} {want : ℕ → Bool}

section
variable (h : Live d x pend r fl want)
include h

theorem perm (hp : fl.Perm fl') : Live d x pend r fl' want :=
  { h with
    refs := by rw [h.refs, hp.length_eq]
    slots := fun n => by rw [h.slots n, hp.countP_eq]
    read := fun hst hd n hn => by
      rcases h.read hst hd n hn with hw | ⟨f, hf, hfn⟩
      · exact .inl hw
      · exact .inr ⟨f, hp.mem_iff.mp hf, hfn⟩ }

theorem beyond {n : ℕ} (hn : slashSlvrsPerBmap ≤ n) : want n = false := by
  have hle := nslvr_le h.len.2
  have hcount := h.slivers n
  rw [if_neg (by omega)] at hcount
  cases hw : want n
  · rfl
  · simp [hw] at hcount

theorem requests : (x.requests.map Prod.fst).Nodup ∧
    ∀ q ∈ x.requests, q.1 < nslvr x.len ∧ 1 ≤ q.2 ∧ q.2 ≤ slashSlvrSize := by
  have hcount : ∀ n, (x.requests.map Prod.fst).count n ≤ if n < nslvr x.len then 1 else 0 := fun n => by
    have := h.slivers n
    omega
  constructor
  · rw [nodup_iff_count_le_one]
    intro n
    have := hcount n
    split at this <;> omega
  · intro q hq
    have hmem : 0 < (x.requests.map Prod.fst).count q.1 := count_pos_iff.mpr (mem_map_of_mem hq)
    have hlt : q.1 < nslvr x.len := by
      by_contra hge
      have := hcount q.1
      rw [if_neg hge] at this
      omega
    rw [h.lens q hq]
    exact ⟨hlt, slvrLen_bounds hlt⟩

theorem sound : Sound x := by
  obtain ⟨hnd, hin⟩ := h.requests
  exact ⟨hnd, hin, fun h0 => by simp [h.reports] at h0⟩

end

theorem finish (h : Live (some rc) x pend r fl want) (hone : x.refcnt = 1) : Done { x with
      status := firstStatus x.status rc
      refcnt := 0
      reports := x.reports ++ [firstStatus x.status rc] } := by
  obtain ⟨hnd, hin⟩ := h.requests
  refine ⟨by simp [h.reports], hnd, hin, fun h0 => ?_⟩
  -- nothing is left of the item, so the code is 0 only if no sliver is marked or open
  have hrefs := h.refs
  simp only [hone, toList_some, length_cons, length_nil] at hrefs
  have hfl : fl = [] := length_eq_zero_iff.mp (by omega)
  have hr : r = .away := by
    cases r <;> first | rfl | (simp only [Role.holds] at hrefs; omega)
  simp only [h.reports, nil_append, mem_singleton] at h0
  have hst : x.status = 0 := by
    by_contra hne
    rw [firstStatus, if_neg hne] at h0
    exact hne h0.symm
  have hrc : rc = 0 := by simpa [firstStatus, hst] using h0.symm
  subst hr
  have hwant : ∀ n, want n = false := by
    intro n
    by_contra hn
    rcases h.more hst hrc ⟨n, by simpa using hn⟩ with hp | hs
    · omega
    · exact hs
  have hcount : ∀ n, (x.requests.map Prod.fst).count n = if n < nslvr x.len then 1 else 0 := fun n => by
    have := h.slivers n
    simpa [Role.picks, hwant n] using this
  have hperm : (x.requests.map Prod.fst).Perm (range (nslvr x.len)) := by
    refine perm_iff_count.mpr fun n => ?_
    rw [hcount, nodup_range.count]
    simp only [mem_range]
  constructor
  · intro n hn
    have hmem : n ∈ x.requests.map Prod.fst := hperm.mem_iff.mpr (mem_range.mpr hn)
    refine ⟨hmem, ?_⟩
    rcases h.read hst hrc n hmem with hw | ⟨f, hf, -⟩
    · exact hw
    · simp [hfl] at hf
  · have hsnd : x.requests.map Prod.snd = (x.requests.map Prod.fst).map (slvrLen x.len) := by
      rw [map_map]
      exact map_congr_left fun q hq => h.lens q hq
    rw [hsnd, (hperm.map (slvrLen x.len)).sum_nat, sum_slvrLen]

theorem decref (h : Live (some rc) x pend r fl want) {k : ℕ} (hk : x.refcnt = k + 2) :
    Live none { x with status := firstStatus x.status rc, refcnt := k + 1 } pend r fl want := by
  have hzero : firstStatus x.status rc = 0 → x.status = 0 ∧ rc = 0 := by
    unfold firstStatus
    split_ifs with hst
    · exact fun hrc => ⟨hst, hrc⟩
    · exact fun h => absurd h hst
  exact { h with
    refs := by
      have := h.refs
      simp only [toList_some, toList_none, length_cons, length_nil] at this ⊢
      omega
    pos := Nat.succ_pos k
    read := fun hst _ => h.read (hzero hst).1 (hzero hst).2
    more := fun hst _ => h.more (hzero hst).1 (hzero hst).2 }

end Live

/-! ### The invariant of the server -/

def flights (s : Sli) (w : ℕ) : List Flight := s.fly.filter (·.w = w)

def LiveAt (d : ℕ → Option ℤ) (s : Sli) (w : ℕ) : Prop :=
  Live (d w) (s.work w) (s.pending.count w) (s.pc.role w) (flights s w) (s.want (s.bmap w))

structure Gone (s : Sli) (w : ℕ) : Prop where
  pending : s.pending.count w = 0
  thread : s.pc.role w = .away
  fly : flights s w = []

/-- No reference is being dropped. -/
abbrev quiet : ℕ → Option ℤ := fun _ => none

/-- Between steps, or while the references `d` are dropped. -/
structure Inv (d : ℕ → Option ℤ) (s : Sli) : Prop where
  ok : s.failed = false
  adding : ∀ a ∈ s.adding, 1 ≤ a.len ∧ a.len ≤ slashBmapSize
  live : ∀ w ∈ s.active, LiveAt d s w
  gone : ∀ w ∉ s.active, Gone s w
  done : ∀ w < s.next, w ∉ s.active → Done (s.work w)
  born : ∀ w ∈ s.active, w < s.next
  nodup : s.active.Nodup
  alone : ∀ v ∈ s.active, ∀ w ∈ s.active, s.bmap v = s.bmap w → v = w
  beyond : ∀ b n, slashSlvrsPerBmap ≤ n → s.want b n = false

/-- Only item `w`, its lists and marks change. -/
structure Touches (w : ℕ) (s t : Sli) : Prop where
  failed : t.failed = s.failed
  adding : t.adding = s.adding
  active : t.active = s.active
  next : t.next = s.next
  key : (t.work w).key = (s.work w).key
  work : ∀ v ≠ w, t.work v = s.work v
  pending : ∀ v ≠ w, t.pending.count v = s.pending.count v
  thread : ∀ v ≠ w, t.pc.role v = s.pc.role v
  fly : ∀ v ≠ w, (flights t v).Perm (flights s v)
  want : ∀ b ≠ s.bmap w, t.want b = s.want b

namespace Touches

variable {w : ℕ} {s t : Sli}

theorem bmap_eq (h : Touches w s t) (v : ℕ) : t.bmap v = s.bmap v := by
  unfold Sli.bmap
  by_cases hv : v = w
  · rw [hv, h.key]
  · rw [h.work v hv]

theorem gone (h : Touches w s t) (hv : v ≠ w) (hg : Gone s v) : Gone t v where
  pending := (h.pending v hv).trans hg.pending
  thread := (h.thread v hv).trans hg.thread
  fly := by
    have hp := h.fly v hv
    rw [hg.fly] at hp
    exact hp.eq_nil

end Touches

namespace Inv

variable {d : ℕ → Option ℤ} {s t : Sli} {w : ℕ}

theorem live_of_ne (hs : Inv d s) (ht : Touches w s t) (hw : w ∈ s.active) (hv : v ∈ s.active)
    (hvw : v ≠ w) : LiveAt d t v := by
  have hb : s.bmap v ≠ s.bmap w := fun h => hvw (hs.alone v hv w hw h)
  have hl := hs.live v hv
  unfold LiveAt at *
  rw [ht.work v hvw, ht.pending v hvw, ht.thread v hvw, ht.bmap_eq, ht.want _ hb]
  exact hl.perm (ht.fly v hvw).symm

theorem touch {d' : ℕ → Option ℤ} (hs : Inv d s) (hd : ∀ v ≠ w, d' v = d v) (ht : Touches w s t)
    (hw : w ∈ s.active) (hl : LiveAt d' t w) : Inv d' t where
  ok := ht.failed.trans hs.ok
  adding := by rw [ht.adding]; exact hs.adding
  live v hv := by
    rw [ht.active] at hv
    by_cases hvw : v = w
    · subst hvw
      exact hl
    have hold := hs.live_of_ne ht hw hv hvw
    unfold LiveAt at *
    rwa [hd v hvw]
  gone v hv := by
    rw [ht.active] at hv
    exact ht.gone (fun h => hv (h ▸ hw)) (hs.gone v hv)
  done v hv hva := by
    rw [ht.next] at hv
    rw [ht.active] at hva
    rw [ht.work v fun h => hva (h ▸ hw)]
    exact hs.done v hv hva
  born := by rw [ht.active, ht.next]; exact hs.born
  nodup := by rw [ht.active]; exact hs.nodup
  alone := by
    intro u hu v hv h
    rw [ht.active] at hu hv
    rw [ht.bmap_eq, ht.bmap_eq] at h
    exact hs.alone u hu v hv h
  beyond b n hn := by
    by_cases hb : b = s.bmap w
    · rw [hb, ← ht.bmap_eq]
      exact hl.beyond hn
    · rw [ht.want b hb]
      exact hs.beyond b n hn

theorem active_of_pending (hs : Inv d s) (h : w ∈ s.pending) : w ∈ s.active := by
  by_contra hw
  exact absurd (count_pos_iff.mpr h) (by rw [(hs.gone w hw).pending]; omega)

theorem active_of_fly (hs : Inv d s) {f : Flight} (h : f ∈ s.fly) : f.w ∈ s.active := by
  by_contra hw
  have hmem : f ∈ flights s f.w := mem_filter.mpr ⟨h, by simp⟩
  rw [(hs.gone _ hw).fly] at hmem
  simp at hmem

end Inv

/-! ### The parts of a step -/

section Parts

variable {d : ℕ → Option ℤ} {s : Sli} {w : ℕ}

theorem role_of_item (h : pc.item ≠ some v) : pc.role v = .away := by
  cases pc with
  | idle => rfl
  | taken w | picked w n | queued w n | failed w n | releasing w =>
    exact if_neg fun hw => h (congrArg some hw)

theorem item_of_role (h : pc.role v = .away) : pc.item ≠ some v := by
  intro hi
  cases pc with
  | idle => cases hi
  | taken w | picked w n | queued w n | failed w n | releasing w =>
    cases hi
    simp [Pc.role] at h

theorem Inv.holder {r : Role} (hs : Inv d s) (hpc : s.pc = pc) (hi : pc.item = some w) (hr : pc.role w = r) :
    w ∈ s.active ∧ s.pc.item = some w ∧
      Live (d w) (s.work w) (s.pending.count w) r (flights s w) (s.want (s.bmap w)) := by
  subst hpc hr
  have hw : w ∈ s.active := by
    by_contra hw
    exact item_of_role (hs.gone w hw).thread hi
  exact ⟨hw, hi, hs.live w hw⟩

theorem touches_put {x : Work} (s : Sli) (w : ℕ) (hkey : x.key = (s.work w).key) : Touches w s (s.put w x) :=
  ⟨rfl, rfl, rfl, rfl, by simp [Sli.put, hkey], fun v hv => update_of_ne hv _ _, fun _ _ => rfl,
    fun _ _ => rfl, fun _ _ => .refl _, fun _ _ => rfl⟩

/-- The rule for a step that changes the record of item `w`. -/
theorem Inv.put {x : Work} {d' : ℕ → Option ℤ} {ps : List ℕ} {fly fl : List Flight} {want : ℕ × ℕ → ℕ → Bool}
    {u : ℕ → Bool} {r : Role} (hs : Inv d s) (hw : w ∈ s.active) (hd : ∀ v ≠ w, d' v = d v)
    (hps : ∀ v ≠ w, ps.count v = s.pending.count v) (hpc : ∀ v ≠ w, pc.role v = s.pc.role v)
    (hr : pc.role w = r) (hfly : ∀ v ≠ w, (fly.filter (·.w = v)).Perm (flights s v))
    (hfl : fly.filter (·.w = w) = fl) (hwant : ∀ b ≠ s.bmap w, want b = s.want b) (hu : want (s.bmap w) = u)
    (hl : Live (d' w) x (ps.count w) r fl u) (hkey : x.key = (s.work w).key) :
    Inv d' { s.put w x with pending := ps, pc := pc, fly := fly, want := want } := by
  have ht := touches_put s w hkey
  refine hs.touch hd ⟨rfl, rfl, rfl, rfl, ht.key, ht.work, hps, hpc, hfly, hwant⟩ hw ?_
  have hx : (s.put w x).work w = x := update_self ..
  have hb : (s.put w x).bmap w = s.bmap w := ht.bmap_eq w
  change Live _ ((s.put w x).work w) _ _ (fly.filter (·.w = w)) (want ((s.put w x).bmap w))
  rw [hx, hb, hr, hfl, hu]
  exact hl

/-- The rule for a step of the thread alone. -/
theorem Inv.turn {r : Role} (hs : Inv quiet s) (hw : w ∈ s.active) (hpc : ∀ v ≠ w, pc.role v = s.pc.role v)
    (hr : pc.role w = r) (hl : Live none (s.work w) (s.pending.count w) r (flights s w) (s.want (s.bmap w))) :
    Inv quiet { s with pc := pc } := by
  refine hs.touch (fun _ _ => rfl) ⟨rfl, rfl, rfl, rfl, rfl, fun _ _ => rfl, fun _ _ => rfl, hpc,
    fun _ _ => .refl _, fun _ _ => rfl⟩ hw ?_
  subst hr
  exact hl

theorem queue_eq (s : Sli) (w : ℕ) : (replwkQueue s w).active = s.active ∧ (replwkQueue s w).pc = s.pc ∧
    (replwkQueue s w).fly = s.fly := by
  unfold replwkQueue
  split <;> exact ⟨rfl, rfl, rfl⟩

variable {t : Sli} {x : Work}

theorem Live.queue {d : Option ℤ} {r : Role} {fl : List Flight} {want : ℕ → Bool}
    (h : Live d x 0 r fl want) : Live d { x with refcnt := x.refcnt + 1 } 1 r fl want :=
  { h with
    refs := by
      have := h.refs
      change x.refcnt + 1 = _
      omega
    pos := Nat.succ_pos _
    pend_le := le_rfl
    requeued := fun _ => rfl
    more := fun _ _ _ => .inl rfl }

theorem queue_inv (hs : Inv d s) (hw : w ∈ s.active) : Inv d (replwkQueue s w) ∧
    (replwkQueue s w).pending.count w = 1 := by
  have hl := hs.live w hw
  unfold replwkQueue
  split_ifs with hp
  · have := count_pos_iff.mpr hp
    have := hl.pend_le
    exact ⟨hs, by omega⟩
  have hzero := count_eq_zero_of_not_mem hp
  have hcount : (s.pending ++ [w]).count w = 1 := by
    rw [count_append, hzero]
    simp
  unfold LiveAt at hl
  rw [hzero] at hl
  refine ⟨hs.put hw (fun _ _ => rfl) (fun v hv => ?_) (fun _ _ => rfl) rfl (fun _ _ => .refl _) rfl
    (fun _ _ => rfl) rfl ?_ rfl, hcount⟩
  · have hzero : [w].count v = 0 := count_eq_zero_of_not_mem (by simpa using hv)
    rw [count_append, hzero, Nat.add_zero]
  · rw [hcount]
    exact hl.queue

theorem decref_inv (hs : Inv (update quiet w (some rc)) s) (hw : w ∈ s.active) : Inv quiet (decref s w rc) := by
  have hl := hs.live w hw
  unfold LiveAt at hl
  rw [update_self] at hl
  unfold decref
  split
  · have := hl.pos
    omega
  · rename_i h1
    -- the last reference: the item is reported and nothing refers to it
    have hrefs := hl.refs
    simp only [h1, toList_some, length_cons, length_nil] at hrefs
    have hrole : s.pc.role w = .away := by
      cases hr : s.pc.role w <;> first | rfl | (simp only [hr, Role.holds] at hrefs; omega)
    have hgone : Gone s w := ⟨by omega, hrole, length_eq_zero_iff.mp (by omega)⟩
    have hmem : ∀ v, v ∈ s.active.erase w ↔ v ≠ w ∧ v ∈ s.active := fun v => hs.nodup.mem_erase_iff
    have htouch := touches_put (x := { s.work w with
        status := firstStatus (s.work w).status rc
        refcnt := 0
        reports := (s.work w).reports ++ [firstStatus (s.work w).status rc] }) s w rfl
    exact {
      ok := hs.ok
      adding := hs.adding
      live := fun v hv => by
        obtain ⟨hvw, hv⟩ := (hmem v).mp hv
        have hold := hs.live_of_ne htouch hw hv hvw
        unfold LiveAt at hold
        rwa [update_of_ne hvw] at hold
      gone := fun v hv => by
        by_cases hvw : v = w
        · rw [hvw]
          exact ⟨hgone.pending, hgone.thread, hgone.fly⟩
        · have hv := hs.gone v fun h => hv ((hmem v).mpr ⟨hvw, h⟩)
          exact ⟨hv.pending, hv.thread, hv.fly⟩
      done := fun v hlt hv => by
        by_cases hvw : v = w
        · rw [hvw]
          change Done (update s.work w _ w)
          rw [update_self]
          exact hl.finish h1
        · rw [htouch.work v hvw]
          exact hs.done v hlt fun h => hv ((hmem v).mpr ⟨hvw, h⟩)
      born := fun v hv => hs.born v ((hmem v).mp hv).2
      nodup := hs.nodup.erase w
      alone := fun u hu v hv h => by
        change (s.put w _).bmap u = (s.put w _).bmap v at h
        rw [htouch.bmap_eq, htouch.bmap_eq] at h
        exact hs.alone u ((hmem u).mp hu).2 v ((hmem v).mp hv).2 h
      beyond := hs.beyond }
  · rename_i hk
    exact hs.put hw (fun v hv => (update_of_ne hv ..).symm) (fun _ _ => rfl) (fun _ _ => rfl) rfl
      (fun _ _ => .refl _) rfl (fun _ _ => rfl) rfl (hl.decref hk) rfl

end Parts

/-! ### The thread -/

section Thread

variable {s : Sli} {w n : ℕ}

theorem role_ne {p q : Pc} (hp : p.item = some w) (hq : q.item = some w ∨ q.item = none) :
    ∀ v ≠ w, q.role v = p.role v := by
  intro v hv
  have hnp : p.item ≠ some v := fun h => hv (Option.some.inj (h.symm.trans hp))
  have hnq : q.item ≠ some v := by
    rcases hq with hq | hq
    · exact fun h => hv (Option.some.inj (h.symm.trans hq))
    · rw [hq]
      exact fun h => by cases h
  rw [role_of_item hnp, role_of_item hnq]

theorem take_inv {ws : List ℕ} (hs : Inv quiet s) (hpc : s.pc = .idle)
    (hp : s.pending = w :: ws) : Inv quiet { s with pending := ws, pc := .taken w } := by
  have hw : w ∈ s.active := hs.active_of_pending (by simp [hp])
  have hl := hs.live w hw
  unfold LiveAt at hl
  rw [hp, count_cons_self, hpc] at hl
  have hcount : ws.count w = 0 := by
    have := hl.pend_le
    omega
  have hother : ∀ v ≠ w, (Pc.taken w).role v = Pc.idle.role v := fun v hv => if_neg fun h => hv h.symm
  refine hs.touch (fun _ _ => rfl) ⟨rfl, rfl, rfl, rfl, rfl, fun _ _ => rfl, fun v hv => ?_, fun v hv => ?_,
    fun _ _ => .refl _, fun _ _ => rfl⟩ hw ?_
  · rw [hp, count_cons_of_ne fun h => hv h.symm]
  · rw [hpc]
    exact hother v hv
  · change Live none (s.work w) (ws.count w) ((Pc.taken w).role w) (flights s w) (s.want (s.bmap w))
    have hrole : (Pc.taken w).role w = .taken := if_pos rfl
    have hrefs := hl.refs
    simp only [hcount, Pc.role, Role.holds] at hrefs
    rw [hcount, hrole]
    exact { hl with
      refs := by simp only [Role.holds]; omega
      pend_le := Nat.zero_le 1
      sched := fun h => h.elim
      requeued := fun h => h.elim
      more := fun _ _ _ => .inr trivial }

variable {d : Option ℤ} {x : Work} {pend : ℕ} {r : Role} {fl : List Flight} {want : ℕ → Bool}

theorem Live.release (h : Live d x pend r fl want) (hholds : r.holds = 1) (hpicks : ∀ n, r.picks n = 0)
    (hmore : x.status = 0 → (∃ n, want n) → pend = 1) : Live d x pend .releasing fl want :=
  { h with
    refs := by rw [h.refs, hholds]; rfl
    slivers := fun n => by
      have := h.slivers n
      rw [hpicks] at this
      exact this
    sched := fun h => h.elim
    requeued := fun h => h.elim
    more := fun hst _ hwant => .inl (hmore hst hwant) }

theorem firstWanted_eq_none (h : firstWanted want = none) : ∀ n < slashSlvrsPerBmap, want n = false := by
  intro n hn
  have := find?_eq_none.mp h n (mem_range.mpr hn)
  simpa using this

theorem firstWanted_eq_some (h : firstWanted want = some n) : want n := find?_some h

theorem Live.no_want (h : Live d x pend r fl want) (hnone : firstWanted want = none) (n : ℕ) : want n = false := by
  by_cases hn : n < slashSlvrsPerBmap
  · exact firstWanted_eq_none hnone n hn
  · exact h.beyond (Nat.le_of_not_lt hn)

theorem Live.pick (h : Live none x pend .taken fl want) (hn : want n) :
    Live none { x with slvr := .sched :: x.slvr } pend (.picked n) fl (update want n false) :=
  { h with
    slivers := fun m => by
      have hm := h.slivers m
      by_cases hmn : m = n
      · subst hmn
        simpa [Role.picks, hn] using hm
      · have hnm : ¬ n = m := fun h => hmn h.symm
        simpa [Role.picks, hnm, update_of_ne hmn] using hm
    slots := fun m => by
      have hm := h.slots m
      exact hm
    sched := fun _ => mem_cons_self
    requeued := fun h => h.elim
    more := fun _ _ _ => .inr trivial }

theorem pick_inv (hs : Inv quiet s) (hpc : s.pc = .taken w) : Inv quiet (pick s w) := by
  obtain ⟨hw, hitem, hl⟩ := hs.holder hpc rfl (if_pos rfl)
  -- leaving the item is a step of the thread alone
  have hleave : ∀ t : Sli, Inv quiet t → t.pc = s.pc → w ∈ t.active →
      ((t.work w).status = 0 → (∃ n, t.want (t.bmap w) n = true) → t.pending.count w = 1) →
      Inv quiet { t with pc := .releasing w } := by
    intro t ht hpct hwt hmore
    obtain ⟨-, hitem, hlt⟩ := ht.holder (hpct.trans hpc) rfl (if_pos rfl)
    exact ht.turn hwt (role_ne hitem (.inl rfl)) (if_pos rfl) (hlt.release rfl (fun _ => rfl) hmore)
  unfold pick
  split
  · rename_i hst
    exact hleave s hs rfl hw fun h => absurd h hst
  split
  · rename_i hnone
    refine hleave s hs rfl hw fun _ ⟨n, hn⟩ => ?_
    rw [hl.no_want hnone n] at hn
    cases hn
  rename_i n hn
  split
  · obtain ⟨hq, hcount⟩ := queue_inv hs hw
    exact hleave _ hq (queue_eq s w).2.1 ((queue_eq s w).1 ▸ hw) fun _ _ => hcount
  exact hs.put hw (fun _ _ => rfl) (fun _ _ => rfl) (role_ne hitem (.inl rfl)) (if_pos rfl)
    (fun _ _ => .refl _) rfl (fun b hb => update_of_ne hb _ _) (update_self ..)
    (hl.pick (firstWanted_eq_some hn)) rfl

theorem Live.goes {r' : Role} (h : Live none x pend r fl want) (hpend : pend = 1) (hholds : r'.holds = r.holds)
    (hpicks : ∀ n, r'.picks n = r.picks n) (hslot : r'.Slotted → r.Slotted) : Live none x pend r' fl want :=
  { h with
    refs := by rw [h.refs, hholds]
    slivers := fun n => by rw [hpicks]; exact h.slivers n
    sched := fun hr => h.sched (hslot hr)
    requeued := fun _ => hpend
    more := fun _ _ _ => .inl hpend }

theorem queueStep_inv (hs : Inv quiet s) (hpc : s.pc = .picked w n) :
    (s.work w).src ∧ Inv quiet { replwkQueue s w with pc := .queued w n } := by
  obtain ⟨hw, -, hl⟩ := hs.holder hpc rfl (if_pos rfl)
  refine ⟨hl.src, ?_⟩
  obtain ⟨hq, hcount⟩ := queue_inv hs hw
  obtain ⟨hw', hitem, hl⟩ := hq.holder ((queue_eq s w).2.1.trans hpc) rfl (if_pos rfl)
  exact hq.turn hw' (role_ne hitem (.inl rfl)) (if_pos rfl) (hl.goes hcount rfl (fun _ => rfl) fun _ => trivial)

theorem Live.sendFails (h : Live none x pend (.queued n) fl want) (rc : ℤ) :
    Live (some rc) { x with refcnt := x.refcnt + 1, slvr := x.slvr.erase .sched } pend (.failed n) fl
      want :=
  { h with
    refs := congrArg (· + 1) h.refs
    pos := Nat.succ_pos _
    slots := fun m => by
      rw [← h.slots m]
      exact count_erase_of_ne (by simp)
    sched := fun h => h.elim
    requeued := fun _ => h.requeued trivial
    read := fun hst _ => h.read hst rfl
    more := fun _ _ _ => .inr trivial }

theorem Live.sent (h : Live none x pend (.queued n) fl want) : Live none { x with
        refcnt := x.refcnt + 1
        slvr := .slvr n :: x.slvr.erase .sched
        requests := x.requests ++ [(n, slvrLen x.len n)] } pend .releasing (⟨w, n, .reading⟩ :: fl)
      want :=
  { h with
    refs := by
      have := h.refs
      simp only [Role.holds, length_cons] at this ⊢
      omega
    pos := Nat.succ_pos _
    slivers := fun m => by
      have hm := h.slivers m
      simp only [map_append, map_cons, map_nil, count_append, count_singleton, Role.picks, beq_iff_eq] at hm ⊢
      exact hm
    lens := forall_mem_snoc h.lens (by rfl)
    slots := fun m => by
      have hm := h.slots m
      have he : (x.slvr.erase .sched).count (.slvr m) = x.slvr.count (.slvr m) := count_erase_of_ne (by simp)
      rw [count_cons, he, hm]
      by_cases hmn : n = m <;> simp [hmn, Phase.waits]
    sched := fun h => h.elim
    requeued := fun h => h.elim
    read := fun hst hd m hm => by
      rw [map_append] at hm
      rcases mem_append.mp hm with hm | hm
      · rcases h.read hst hd m hm with hw | ⟨f, hf, hfm⟩
        · exact .inl hw
        · exact .inr ⟨f, mem_cons_of_mem _ hf, hfm⟩
      · have hmn : m = n := by simpa using hm
        exact .inr ⟨_, mem_cons_self, hmn.symm, trivial⟩
    more := fun _ _ _ => .inl (h.requeued trivial) }

theorem issue_inv (hs : Inv quiet s) (hpc : s.pc = .queued w n) {o : Issue} {t : Sli}
    (h : issue s w n o = some t) : Inv quiet t := by
  obtain ⟨hw, hitem, hl⟩ := hs.holder hpc rfl (if_pos rfl)
  have hsched : ¬ .sched ∉ (s.work w).slvr := fun h => h (hl.sched trivial)
  cases o with
  | unsent =>
    cases h
    exact hs.turn hw (role_ne hitem (.inl rfl)) (if_pos rfl)
      (hl.goes (hl.requeued trivial) rfl (fun _ => rfl) fun h => h.elim)
  | sendFails rc =>
    simp only [issue, if_neg hsched] at h
    split at h <;> cases h
    have hfail := hl.sendFails rc
    rw [← update_self w (some rc) quiet] at hfail
    have hmid := hs.put hw (fun v hv => update_of_ne hv ..) (fun _ _ => rfl)
      (role_ne (q := .failed w n) hitem (.inl rfl)) (if_pos rfl) (fun _ _ => .refl _) rfl
      (fun _ _ => rfl) rfl hfail rfl
    refine decref_inv (queue_inv hmid hw).1 ?_
    rw [(queue_eq _ w).1]
    exact hw
  | sent =>
    simp only [issue, if_neg hsched] at h
    cases h
    refine hs.put hw (fun _ _ => rfl) (fun _ _ => rfl) (role_ne hitem (.inl rfl)) (if_pos rfl) (fun v hv => ?_)
      (filter_cons_of_pos (by simp)) (fun _ _ => rfl) rfl hl.sent rfl
    have hne : ¬ w = v := fun h => hv h.symm
    exact List.Perm.of_eq (filter_cons_of_neg (by simpa using hne))

theorem Live.restore (h : Live none x pend (.failed n) fl want) :
    Live none { x with slvr := x.slvr.erase .sched } pend .releasing fl (update want n true) :=
  { h with
    slivers := fun m => by
      have hm := h.slivers m
      by_cases hmn : m = n
      · subst hmn
        have hwant : want m = false := by
          cases hw : want m
          · rfl
          · simp only [Role.picks, hw, Bool.toNat_true, if_true] at hm
            split at hm <;> omega
        simpa [Role.picks, hwant] using hm
      · have hnm : ¬ n = m := fun h => hmn h.symm
        simpa [Role.picks, hnm, update_of_ne hmn] using hm
    slots := fun m => by
      rw [← h.slots m]
      exact count_erase_of_ne (by simp)
    sched := fun h => h.elim
    requeued := fun h => h.elim
    more := fun _ _ _ => .inl (h.requeued trivial) }

theorem restore_inv (hs : Inv quiet s) (hpc : s.pc = .failed w n) : Inv quiet (restore s w n) := by
  obtain ⟨hw, hitem, hl⟩ := hs.holder hpc rfl (if_pos rfl)
  exact hs.put hw (fun _ _ => rfl) (fun _ _ => rfl) (role_ne hitem (.inl rfl)) (if_pos rfl)
    (fun _ _ => .refl _) rfl (fun b hb => update_of_ne hb _ _) (update_self ..) hl.restore rfl

theorem Live.dropThread (h : Live none x pend .releasing fl want) : Live (some 0) x pend .away fl want :=
  { h with
    sched := fun h => h.elim
    requeued := fun h => h.elim
    more := fun hst _ hwant => by
      rcases h.more hst rfl hwant with hp | hr
      · exact .inl hp
      · exact hr.elim }

theorem release_inv (hs : Inv quiet s) (hpc : s.pc = .releasing w) :
    Inv quiet (decref { s with pc := .idle } w 0) := by
  obtain ⟨hw, hitem, hl⟩ := hs.holder hpc rfl (if_pos rfl)
  refine decref_inv (hs.touch (fun v hv => update_of_ne hv ..) ⟨rfl, rfl, rfl, rfl, rfl, fun _ _ => rfl, fun _ _ => rfl,
    role_ne hitem (.inr rfl), fun _ _ => .refl _, fun _ _ => rfl⟩ hw ?_) hw
  unfold LiveAt
  rw [update_self]
  exact hl.dropThread

end Thread

/-! ### Answers -/

section Answers

variable {s : Sli} {f : Flight}

theorem flights_perm (hf : f ∈ s.fly) : (flights s f.w).Perm (f :: (s.fly.erase f).filter (·.w = f.w)) := by
  have hp := (perm_cons_erase hf).filter (fun g => decide (g.w = f.w))
  rwa [filter_cons_of_pos (by simp)] at hp

theorem flights_perm_of_ne (hf : f ∈ s.fly) (hv : v ≠ f.w) : (flights s v).Perm ((s.fly.erase f).filter (·.w = v)) := by
  have hne : ¬ f.w = v := fun h => hv h.symm
  have hp := (perm_cons_erase hf).filter (fun g => decide (g.w = v))
  rwa [filter_cons_of_neg (by simpa using hne)] at hp

variable {x : Work} {pend : ℕ} {r : Role} {g : Flight} {fl : List Flight} {want : ℕ → Bool}

theorem Live.fare {d : Option ℤ} (h : Live d x pend r (f :: fl) want) (hn : g.n = f.n)
    (hwaits : g.phase.waits = f.phase.waits) (hopen : f.phase.Open → g.phase.Open) : Live d x pend r (g :: fl) want :=
  { h with
    slots := fun n => by
      rw [h.slots n, countP_cons, countP_cons, hn, hwaits]
    read := fun hst hd n hmem => by
      rcases h.read hst hd n hmem with hw | ⟨f', hf', hfn, hop⟩
      · exact .inl hw
      rcases mem_cons.mp hf' with rfl | hf'
      · exact .inr ⟨g, mem_cons_self, hn.trans hfn, hopen hop⟩
      · exact .inr ⟨f', mem_cons_of_mem _ hf', hfn, hop⟩ }

theorem Live.answer (h : Live none x pend r (f :: fl) want) (hwaits : f.phase.waits) (w : ℕ) (rc wio : ℤ) :
    Live none { x with
        slvr := x.slvr.erase (.slvr f.n)
        written := if rc = 0 ∧ wio = 0 then f.n :: x.written else x.written } pend r
      (⟨w, f.n, .answered (if rc = 0 then wio else rc)⟩ :: fl) want :=
  { h with
    slots := fun m => by
      have hm := h.slots m
      rw [countP_cons_of_neg (by simp [Phase.waits])]
      by_cases hmn : m = f.n
      · subst hmn
        rw [count_erase_self, hm]
        simp [hwaits]
      have hfn : ¬ f.n = m := fun h => hmn h.symm
      rw [count_erase_of_ne (by simpa using hmn), hm]
      simp [hfn]
    sched := fun hr => (mem_erase_of_ne (by simp)).mpr (h.sched hr)
    read := fun hst hd m hmem => by
      rcases h.read hst hd m hmem with hw | ⟨g, hg, hgm, hop⟩
      · left
        split
        · exact mem_cons_of_mem _ hw
        · exact hw
      rcases mem_cons.mp hg with rfl | hg
      · by_cases hz : rc = 0 ∧ wio = 0
        · left
          rw [if_pos hz, hgm]
          exact mem_cons_self
        refine .inr ⟨_, mem_cons_self, hgm, ?_⟩
        split_ifs with hrc
        · exact fun h => hz ⟨hrc, h⟩
        · exact hrc
      · exact .inr ⟨g, mem_cons_of_mem _ hg, hgm, hop⟩ }

section
variable (hs : Inv quiet s)
include hs

theorem fare_inv (hf : f ∈ s.fly) (hgw : g.w = f.w) (hkey : x.key = (s.work f.w).key)
    (hl : Live none x (s.pending.count f.w) (s.pc.role f.w) (g :: (s.fly.erase f).filter (·.w = f.w))
      (s.want (s.bmap f.w))) : Inv quiet ((s.put f.w x).fare f g) := by
  refine hs.put (hs.active_of_fly hf) (fun _ _ => rfl) (fun _ _ => rfl) (fun _ _ => rfl) rfl (fun v hv => ?_)
    (filter_cons_of_pos (by simpa using hgw)) (fun _ _ => rfl) rfl hl hkey
  have hne : ¬ g.w = v := fun h => hv (h.symm.trans hgw)
  rw [filter_cons_of_neg (by simpa using hne)]
  exact (flights_perm_of_ne hf hv).symm

theorem live_flight (hf : f ∈ s.fly) : Live none (s.work f.w) (s.pending.count f.w) (s.pc.role f.w)
      (f :: (s.fly.erase f).filter (·.w = f.w)) (s.want (s.bmap f.w)) :=
  (hs.live f.w (hs.active_of_fly hf)).perm (flights_perm hf)

theorem slot_mem (hf : f ∈ s.fly) (hwaits : f.phase.waits) : .slvr f.n ∈ (s.work f.w).slvr := by
  have hl := live_flight hs hf
  rw [← count_pos_iff, hl.slots f.n, countP_cons_of_pos (by simp [hwaits])]
  exact Nat.succ_pos _

theorem releaseSliver_inv (hf : f ∈ s.fly) (hwaits : f.phase.waits)
    (rc wio : ℤ) : Inv quiet (releaseSliver s f f.w rc wio) :=
  fare_inv hs hf rfl rfl ((live_flight hs hf).answer hwaits f.w rc wio)

theorem reply_inv (hf : f ∈ s.fly) (hph : f.phase = .reading) (a : Answer) : Inv quiet (replreadCb s f a) := by
  have hwaits : f.phase.waits := by rw [hph]; rfl
  unfold replreadCb
  rw [if_neg fun h => h (slot_mem hs hf hwaits)]
  cases a with
  | aiowait =>
    have hinv := fare_inv (g := ⟨f.w, f.n, .aio⟩) hs hf rfl rfl
      ((live_flight hs hf).fare rfl (by rw [hph]; rfl) fun _ => trivial)
    rwa [show s.put f.w (s.work f.w) = s from by simp [Sli.put]] at hinv
  | rc rc wio => exact releaseSliver_inv hs hf hwaits rc wio

theorem findwq_eq {w : ℕ} (hw : w ∈ s.active) : sliReplFindwq s (s.work w).key = some w := by
  cases hfind : sliReplFindwq s (s.work w).key with
  | none => simpa using find?_eq_none.mp hfind w hw
  | some v =>
    have hv : v ∈ s.active := mem_of_find?_eq_some hfind
    have hkey : (s.work v).key = (s.work w).key := by simpa using find?_some hfind
    rw [hs.alone v hv w hw (congrArg Key.bmap hkey)]

theorem aio_inv (hf : f ∈ s.fly) (hph : f.phase = .aio) (rc wio : ℤ) :
    Inv quiet (handleReplReadAio s f true rc wio) := by
  have hwaits : f.phase.waits := by rw [hph]; rfl
  have hslot := slot_mem hs hf hwaits
  simp only [handleReplReadAio, findwq_eq hs (hs.active_of_fly hf)]
  rw [if_neg (by simp [hslot])]
  exact releaseSliver_inv hs hf hwaits rc wio

theorem cbQueue_inv (hf : f ∈ s.fly) (hph : f.phase = .answered rc) :
    Inv quiet ((replwkQueue s f.w).fare f ⟨f.w, f.n, .queued rc⟩) := by
  have hq := (queue_inv hs (hs.active_of_fly hf)).1
  have hf' : f ∈ (replwkQueue s f.w).fly := by
    rw [(queue_eq s f.w).2.2]
    exact hf
  have hinv := fare_inv (g := ⟨f.w, f.n, .queued rc⟩) hq hf' rfl rfl
    ((live_flight hq hf').fare rfl (by rw [hph]; rfl) (by rw [hph]; exact id))
  rwa [show (replwkQueue s f.w).put f.w ((replwkQueue s f.w).work f.w) = replwkQueue s f.w from by
    simp [Sli.put]] at hinv

end

theorem Live.land (h : Live none x pend r (f :: fl) want) (hph : f.phase = .queued rc) :
    Live (some rc) x pend r fl want :=
  { h with
    refs := by
      have := h.refs
      simp only [length_cons, toList_none, toList_some, length_nil] at this ⊢
      omega
    slots := fun n => by
      rw [h.slots n, countP_cons_of_neg (by simp [hph, Phase.waits])]
    read := fun hst hrc n hmem => by
      rcases h.read hst rfl n hmem with hw | ⟨g, hg, hgn, hop⟩
      · exact .inl hw
      rcases mem_cons.mp hg with rfl | hg
      · rw [hph] at hop
        exact absurd hrc hop
      · exact .inr ⟨g, hg, hgn, hop⟩
    more := fun hst _ => h.more hst rfl }

theorem cbDecref_inv (hs : Inv quiet s) (hf : f ∈ s.fly) (hph : f.phase = .queued rc) :
    Inv quiet (decref (s.land f) f.w rc) := by
  have hw := hs.active_of_fly hf
  refine decref_inv (hs.touch (fun v hv => update_of_ne hv ..) ⟨rfl, rfl, rfl, rfl, rfl, fun _ _ => rfl,
    fun _ _ => rfl, fun _ _ => rfl, fun v hv => (flights_perm_of_ne hf hv).symm, fun _ _ => rfl⟩ hw ?_) hw
  unfold LiveAt
  rw [update_self]
  exact (live_flight hs hf).land hph

end Answers

/-! ### New items -/

section New

variable {s : Sli}

theorem addwk_inv (hs : Inv quiet s) (k : Key) (res : Res) (len : ℤ) : Inv quiet (sliReplAddwk s k res len) := by
  unfold sliReplAddwk
  split
  · exact hs
  split
  · exact hs
  split
  · exact hs
  split
  · exact hs
  refine ⟨hs.ok, fun a ha => ?_, hs.live, fun w hw => ?_, hs.done, hs.born, hs.nodup, hs.alone, hs.beyond⟩
  · rcases mem_append.mp ha with ha | ha
    · exact hs.adding a ha
    · rw [mem_singleton.mp ha]
      change 1 ≤ len.toNat ∧ len.toNat ≤ slashBmapSize
      omega
  · have hg := hs.gone w hw
    exact ⟨hg.pending, hg.thread, hg.fly⟩

theorem erase_adding_inv (hs : Inv quiet s) (a : Adding) : Inv quiet { s with adding := s.adding.erase a } := by
  refine ⟨hs.ok, fun b hb => hs.adding b (mem_of_mem_erase hb), hs.live, fun w hw => ?_, hs.done,
    hs.born, hs.nodup, hs.alone, hs.beyond⟩
  have hg := hs.gone w hw
  exact ⟨hg.pending, hg.thread, hg.fly⟩

theorem live_new {want : ℕ → Bool} (hlen : 1 ≤ a.len ∧ a.len ≤ slashBmapSize) (hsrc : a.src)
    (hfree : ∀ n < slashSlvrsPerBmap, nslvr a.len ≤ n → want n = false)
    (hbeyond : ∀ n, slashSlvrsPerBmap ≤ n → want n = false) :
    Live none { Work.new a.key a.len a.src with refcnt := 1 } 1 .away []
      (fun i => decide (i ∈ markSlvrs a.len) || want i) where
  reports := rfl
  len := hlen
  src := hsrc
  refs := rfl
  pos := Nat.one_pos
  pend_le := le_rfl
  slivers n := by
    simp only [Work.new, map_nil, count_nil, Role.picks, mem_markSlvrs hlen.2, Nat.zero_add]
    by_cases hn : n < nslvr a.len
    · simp [hn]
    have hwant : want n = false := by
      by_cases hlt : n < slashSlvrsPerBmap
      · exact hfree n hlt (Nat.le_of_not_lt hn)
      · exact hbeyond n (Nat.le_of_not_lt hlt)
    simp [hn, hwant]
  lens q hq := by cases hq
  slots n := rfl
  sched h := h.elim
  requeued h := h.elim
  read _ _ n hn := by cases hn
  more _ _ _ := .inl rfl

theorem accept_eq (h : s.next ∉ s.pending) : accept s a = { s with
      work := update s.work s.next { Work.new a.key a.len a.src with refcnt := 1 }
      next := s.next + 1
      active := s.active ++ [s.next]
      pending := s.pending ++ [s.next]
      want := update s.want a.key.bmap fun i =>
        decide (i ∈ markSlvrs a.len) || s.want a.key.bmap i } := by
  simp [accept, replwkQueue, Sli.put, Work.new, h]

theorem accept_inv (hs : Inv quiet s) (hlen : 1 ≤ a.len ∧ a.len ≤ slashBmapSize)
    (hsrc : a.src) (halone : ∀ w ∈ s.active, s.bmap w ≠ a.key.bmap)
    (hfree : ∀ n < slashSlvrsPerBmap, nslvr a.len ≤ n → s.want a.key.bmap n = false) :
    Inv quiet (accept s a) := by
  have hnew : s.next ∉ s.active := fun h => Nat.lt_irrefl _ (hs.born _ h)
  have hgone := hs.gone s.next hnew
  have hpend : s.next ∉ s.pending := fun h => absurd (count_pos_iff.mpr h) (by rw [hgone.pending]; omega)
  rw [accept_eq hpend]
  have hold : ∀ w, w ≠ s.next → update s.work s.next
      { Work.new a.key a.len a.src with refcnt := 1 } w = s.work w := fun w hw => update_of_ne hw _ _
  have hcount : ∀ w ≠ s.next, (s.pending ++ [s.next]).count w = s.pending.count w := fun w hw => by
    have hzero : [s.next].count w = 0 := count_eq_zero_of_not_mem (by simpa using hw)
    rw [count_append, hzero, Nat.add_zero]
  have hmem : ∀ w, w ∈ s.active ++ [s.next] ↔ w ∈ s.active ∨ w = s.next := fun w => by simp
  have hne : ∀ w ∈ s.active, w ≠ s.next := fun w hw h => hnew (h ▸ hw)
  refine ⟨hs.ok, hs.adding, fun w hw => ?_, fun w hw => ?_, fun w hlt hw => ?_, fun w hw => ?_, ?_,
    fun v hv w hw h => ?_, fun b n hn => ?_⟩
  · rcases (hmem w).mp hw with hw | rfl
    · have hl := hs.live w hw
      unfold LiveAt Sli.bmap flights at *
      dsimp only
      rw [hold w (hne w hw), hcount w (hne w hw), update_of_ne (halone w hw)]
      exact hl
    · unfold LiveAt Sli.bmap flights
      have hone : (s.pending ++ [s.next]).count s.next = 1 := by
        rw [count_append, hgone.pending]
        simp
      have hfly : s.fly.filter (·.w = s.next) = [] := hgone.fly
      rw [hone, hgone.thread, hfly]
      simp only [Work.new, update_self]
      exact live_new hlen hsrc hfree fun n hn => hs.beyond _ n hn
  · have hw' : w ≠ s.next ∧ w ∉ s.active := by
      constructor
      · exact fun h => hw ((hmem w).mpr (.inr h))
      · exact fun h => hw ((hmem w).mpr (.inl h))
    have hg := hs.gone w hw'.2
    exact ⟨(hcount w hw'.1).trans hg.pending, hg.thread, hg.fly⟩
  · have hw' : w ≠ s.next ∧ w ∉ s.active := by
      constructor
      · exact fun h => hw ((hmem w).mpr (.inr h))
      · exact fun h => hw ((hmem w).mpr (.inl h))
    dsimp only at hlt ⊢
    rw [hold w hw'.1]
    exact hs.done w (by omega) hw'.2
  · rcases (hmem w).mp hw with hw | rfl
    · exact Nat.lt_succ_of_lt (hs.born w hw)
    · exact Nat.lt_succ_self _
  · exact nodup_append.mpr ⟨hs.nodup, nodup_singleton _, fun v hv w hw h => by
      rw [mem_singleton] at hw
      exact hnew (hw ▸ h ▸ hv)⟩
  · have hb : ∀ w ∈ s.active, Sli.bmap { s with
        work := update s.work s.next { Work.new a.key a.len a.src with refcnt := 1 } } w =
          s.bmap w := fun w hw => congrArg (fun x : Work => x.key.bmap) (hold w (hne w hw))
    have hself : Sli.bmap { s with
        work := update s.work s.next { Work.new a.key a.len a.src with refcnt := 1 } } s.next =
          a.key.bmap :=
      congrArg (fun x : Work => x.key.bmap) (update_self _ _ s.work)
    rcases (hmem v).mp hv with hv | rfl <;> rcases (hmem w).mp hw with hw | rfl
    · exact hs.alone v hv w hw ((hb v hv).symm.trans (h.trans (hb w hw)))
    · exact absurd ((hb v hv).symm.trans (h.trans hself)) (halone v hv)
    · exact absurd ((hb w hw).symm.trans (h.symm.trans hself)) (halone w hw)
    · rfl
  · dsimp only
    by_cases hb : b = a.key.bmap
    · have hle := nslvr_le hlen.2
      have hmark : n ∉ markSlvrs a.len := fun h => by
        have := (mem_markSlvrs hlen.2).mp h
        omega
      rw [hb, update_self, hs.beyond _ n hn]
      simp [hmark]
    · rw [update_of_ne hb]
      exact hs.beyond b n hn

theorem evict_inv {b : ℕ × ℕ} (hs : Inv quiet s) (hb : ¬ ∃ w ∈ s.active, s.bmap w = b) :
    Inv quiet { s with want := update s.want b fun _ => false } := by
  refine ⟨hs.ok, hs.adding, fun w hw => ?_, fun w hw => ?_, hs.done, hs.born, hs.nodup, hs.alone, fun b' n hn => ?_⟩
  · have hl := hs.live w hw
    change Live _ _ _ _ _ (update s.want b (fun _ => false) (s.bmap w))
    rw [update_of_ne fun h => hb ⟨w, hw, h⟩]
    exact hl
  · have hg := hs.gone w hw
    exact ⟨hg.pending, hg.thread, hg.fly⟩
  · dsimp only
    by_cases hbb : b' = b
    · rw [hbb, update_self]
    · rw [update_of_ne hbb]
      exact hs.beyond b' n hn

end New

theorem inv_init : Inv quiet Sli.init where
  ok := rfl
  adding a ha := by cases ha
  live w hw := by cases hw
  gone w _ := ⟨rfl, rfl, rfl⟩
  done w hw := absurd hw (Nat.not_lt_zero w)
  born w hw := by cases hw
  nodup := nodup_nil
  alone v hv := by cases hv
  beyond _ _ _ := rfl

theorem step_inv {s t : Sli} {l : Label} (hs : Inv quiet s) (hl : Clean s l)
    (h : step s l = some t) : Inv quiet t := by
  revert h
  fun_cases step s l <;> intro h <;> try cases h
  next k res len => exact addwk_inv hs k res len
  next a _ _ _ _ => exact erase_adding_inv hs a
  next a _ _ ha _ =>
    obtain ⟨hsrc, halone, hfree⟩ := hl
    exact accept_inv (erase_adding_inv hs a) (hs.adding a (not_not.mp ha)) hsrc halone hfree
  next hp hpc => exact take_inv hs hpc hp
  next hpc => exact pick_inv hs hpc
  next hpc _ => exact (queueStep_inv hs hpc).2
  next hpc hsrc => exact absurd (queueStep_inv hs hpc).1 hsrc
  next hpc => exact issue_inv hs hpc h
  next hpc => exact restore_inv hs hpc
  next hpc => exact release_inv hs hpc
  next f a hf => exact reply_inv hs hf.1 hf.2 a
  next f _ rc wio hf =>
    rw [hl]
    exact aio_inv hs hf.1 hf.2 rc wio
  next hf => exact cbQueue_inv hs hf.1 hf.2
  next hf => exact cbDecref_inv hs hf.1 hf.2
  next hb => exact evict_inv hs hb

variable {s : Sli} {w : ℕ}

theorem Inv.working (hs : Inv quiet s) (hw : w ∈ s.active) : Working s w := by
  have hl := hs.live w hw
  refine ⟨hw, hl.reports, ?_⟩
  by_cases hp : w ∈ s.pending
  · exact .inl hp
  by_cases hi : s.pc.item = some w
  · exact .inr (.inl hi)
  -- the reference that is left is that of a request
  have hrefs := hl.refs
  rw [count_eq_zero_of_not_mem hp, role_of_item hi] at hrefs
  have hpos := hl.pos
  have hlen : 0 < (flights s w).length := by
    simp only [Role.holds, toList_none, length_nil] at hrefs
    omega
  obtain ⟨f, hf⟩ := exists_mem_of_length_pos hlen
  obtain ⟨hmem, hfw⟩ := mem_filter.mp hf
  exact .inr (.inr ⟨f, hmem, by simpa using hfw⟩)

theorem Inv.reported (hs : Inv quiet s) (hlt : w < s.next) (hw : w ∉ s.active) : Reported s w := by
  have hg := hs.gone w hw
  refine ⟨hw, (hs.done w hlt hw).reports, ?_, item_of_role hg.thread, fun f hf hfw => ?_⟩
  · exact count_eq_zero.mp hg.pending
  · have hmem : f ∈ flights s w := mem_filter.mpr ⟨hf, by simpa using hfw⟩
    rw [hg.fly] at hmem
    cases hmem

def someKey : Key := ⟨7, 1, 0⟩

def added (len : ℕ) : List Label :=
  [.addwk someKey .known len, .accept ⟨someKey, len, true⟩ 0 0]

def asks : List Label := [.take, .pick, .queue, .issue .sent, .release]

def rests : List Label := [.take, .pick, .release]

def answers (w n : ℕ) (rc : ℤ) : List Label :=
  [.reply ⟨w, n, .reading⟩ (.rc rc 0), .cbQueue ⟨w, n, .answered rc⟩ rc, .cbDecref ⟨w, n, .queued rc⟩ rc]

def answersLate (w n : ℕ) : List Label :=
  [.reply ⟨w, n, .reading⟩ .aiowait, .aio ⟨w, n, .aio⟩ true 0 0, .cbQueue ⟨w, n, .answered 0⟩ 0,
    .cbDecref ⟨w, n, .queued 0⟩ 0]

end Slash2.Replwk
