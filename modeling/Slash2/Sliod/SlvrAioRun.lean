/-
# Replies of asynchronous reads

What a request has at stake in each of its slivers follows from how far it is (`stakeAt`), so each
step of a handler and of the thread that completes reads is one of the moves of `Sliver.Fits`. A
reply hangs on a sliver that is being read for its request, each request that waits has exactly one,
and the thread is at work for at most one request (`Inv`).

Key theorem: `aio_run`.
-/
import Slash2.Sliod.SlvrAio

namespace Slash2.SlvrAio

open Lib Sliver List Option Function

/-! ### The stakes of a request -/

/-- What a request has at stake in its sliver `j`. -/
def stakeAt : Pc → ℕ → Stake
  | .lookup i na, j => if j < i then .owes na else .none
  | .prep i na, j => if j < i then .owes na else if j = i then .looked else .none
  | .setup, _ => .owes true
  | .check i _, j => if j < i then .owes false else .owes true
  | .bulk, _ => .owes false
  | .ioDone k i _, j => if i ≤ j ∧ j < k then .owes false else .none
  | .drop k i _, j => if j = i then .settled else if i ≤ j ∧ j < k then .owes false else .none
  | .aiowait, _ => .waits
  | .checking i, j => if j < i then .settled else .waits
  | .replying, _ => .settled
  | .dropping i, j => if j < i then .none else .settled
  | .done, _ => .none

def Req.stake (x : Req) (m : ℕ) : Stake :=
  if x.n ≤ m ∧ m < x.n + x.kind.nslvrs then stakeAt x.pc (m - x.n) else .none

def stakes (req : ℕ → Req) : ℕ → ℕ → Stake := fun r m => (req r).stake m

variable {q i n j : ℕ} {u : Option ℕ} {ok : Bool}

theorem Req.stake_at (x : Req) (hj : j < x.kind.nslvrs) : x.stake (x.n + j) = stakeAt x.pc j := by
  rw [Req.stake, if_pos (by omega), Nat.add_sub_cancel_left]

theorem Req.stake_cases {x y : Req} (hk : x.kind = y.kind) (hn : x.n = y.n) (m : ℕ) :
    (∃ j < y.kind.nslvrs, m = y.n + j ∧ x.stake m = stakeAt x.pc j ∧ y.stake m = stakeAt y.pc j) ∨
      (∀ j < y.kind.nslvrs, m ≠ y.n + j) ∧ x.stake m = .none ∧ y.stake m = .none := by
  unfold Req.stake
  rw [hk, hn]
  by_cases h : y.n ≤ m ∧ m < y.n + y.kind.nslvrs
  · exact .inl ⟨m - y.n, by omega, by omega, if_pos h, if_pos h⟩
  · exact .inr ⟨fun j _ _ => h (by omega), if_neg h, if_neg h⟩

section Stakes

variable {req : ℕ → Req} {r : ℕ} {x : Req}

theorem stakes_update_self (m : ℕ) : stakes (update req r x) r m = x.stake m := by
  simp [stakes]

theorem stakes_update_of_ne (h : q ≠ r) (m : ℕ) : stakes (update req r x) q m = stakes req q m := by
  simp [stakes, h]

theorem fits_same {T : Table} (hfit : Fits T (stakes req)) (hk : x.kind = (req r).kind) (hn : x.n = (req r).n)
    (h : ∀ j < x.kind.nslvrs, stakeAt x.pc j = stakeAt (req r).pc j) : Fits T (stakes (update req r x)) := by
  suffices hsame : stakes (update req r x) = stakes req by rwa [hsame]
  funext q m
  by_cases hq : q = r
  · subst hq
    rw [stakes_update_self]
    rcases Req.stake_cases hk hn m with ⟨j, hj, -, hx, hr⟩ | ⟨-, hx, hr⟩
    · rw [hx, h j (hk ▸ hj), stakes, hr]
    · rw [hx, stakes, hr]
  · exact stakes_update_of_ne hq m

theorem fits_move {T : Table} {st : Stake}
    (hfit : Fits T (restake (stakes req) r ((req r).n + i) st)) (hk : x.kind = (req r).kind)
    (hn : x.n = (req r).n) (hi : i < x.kind.nslvrs) (hst : stakeAt x.pc i = st)
    (h : ∀ j < x.kind.nslvrs, j ≠ i → stakeAt x.pc j = stakeAt (req r).pc j) :
    Fits T (stakes (update req r x)) := by
  suffices hmove : stakes (update req r x) = restake (stakes req) r ((req r).n + i) st by
    rwa [hmove]
  funext q m
  by_cases hq : q = r
  · subst hq
    rw [stakes_update_self]
    by_cases hm : m = (req q).n + i
    · subst hm
      rw [restake_self, ← hn, x.stake_at hi, hst]
    rw [restake_ne _ _ _ hm]
    rcases Req.stake_cases hk hn m with ⟨j, hj, rfl, hx, hr⟩ | ⟨-, hx, hr⟩
    · rw [hx, h j (hk ▸ hj) fun he => hm (he ▸ rfl), stakes, hr]
    · rw [hx, stakes, hr]
  · exact (stakes_update_of_ne hq m).trans (if_neg fun he => hq he.1).symm

end Stakes

theorem stakeAt_prepared (k : Kind) (na : Bool) (hi : i < k.nslvrs) (hj : j < k.nslvrs) :
    stakeAt (prepared k i na) j = if j ≤ i then .owes na else .none := by
  unfold prepared
  by_cases hlast : i + 1 < k.nslvrs
  · rw [if_pos hlast]
    simp only [stakeAt, Nat.lt_succ_iff]
  rw [if_neg hlast, if_pos (show j ≤ i by omega)]
  cases na with
  | true => rfl
  | false =>
    rw [if_neg (by simp)]
    split
    · simp only [stakeAt, Nat.zero_le, true_and, if_pos hj]
    · rfl

def Req.Sound (x : Req) : Prop :=
  match x.pc with
  | .lookup i _ | .prep i _ | .check i _ => i < x.kind.nslvrs ∧ x.answered = false ∧ x.attempts = 0
  | .setup => x.answered = false ∧ x.attempts = 0
  | .bulk => x.kind ≠ .repl ∧ x.answered = false ∧ x.attempts = 0
  | .ioDone k i rc | .drop k i rc =>
    i < k ∧ k ≤ x.kind.nslvrs ∧ (x.kind = .repl → rc = 0) ∧ x.answered = false ∧ x.attempts = 0
  | .aiowait | .replying => x.answered ∧ x.attempts = 0
  | .checking i => i < x.kind.nslvrs ∧ x.answered ∧ x.attempts = 0
  | .dropping i => i < x.kind.nslvrs ∧ x.answered ∧ x.attempts = 1
  | .done => x.attempts = x.answered.toNat

structure Inv (s : Sliod) : Prop where
  ok : s.failed = false
  fits : Fits s.tab (stakes s.req)
  sound : ∀ r, (s.req r).Sound
  reply : ∀ n r, s.tab.aioreply n = some r →
    (s.req r).pc = .aiowait ∧ ∃ b ∈ s.tab.out, b.n = n ∧ b.owner = r
  wait : ∀ r, (s.req r).pc = .aiowait → ∃ n, s.tab.aioreply n = some r
  uniq : ∀ n m r, s.tab.aioreply n = some r → s.tab.aioreply m = some r → n = m
  thr : ∀ r, s.thr = some r ↔ (s.req r).pc.onThr
  born : ∀ r, s.next ≤ r → s.req r = Req.idle

theorem inv_init : Inv Sliod.init where
  ok := rfl
  fits := {
    refs := fun _ => rfl
    held := fun _ _ => by simp [stakes, Req.stake, Sliod.init, Req.idle, stakeAt, Table.init]
    listed := fun _ => ⟨rfl, rfl, rfl⟩
    seen := fun r n h => absurd (by simp [stakes, Req.stake, Sliod.init, Req.idle, stakeAt]) h
    settled := fun r n h => by simp [stakes, Req.stake, Sliod.init, Req.idle, stakeAt] at h
    faulting := fun n h => by cases h
    runs := fun b hb => by cases hb
    nodup := nodup_nil }
  sound _ := rfl
  reply n r h := by cases h
  wait r h := by cases h
  uniq n m r h := by cases h
  thr r := by simp [Sliod.init, Req.idle, Pc.onThr]
  born _ _ := rfl

section Frame

variable {s : Sliod} {r : ℕ} {x : Req} {T : Table}

theorem Inv.lt_next (hs : Inv s) (hpc : (s.req r).pc ≠ .done) : r < s.next := by
  by_contra hle
  rw [hs.born r (by omega)] at hpc
  exact hpc rfl

theorem Inv.no_reply (hs : Inv s) (h : ∀ b ∈ s.tab.out, b.n ≠ n) : s.tab.aioreply n = none := by
  cases ha : s.tab.aioreply n with
  | none => rfl
  | some q =>
    obtain ⟨-, b, hb, hn, -⟩ := hs.reply n q ha
    exact absurd hn (h b hb)

theorem Inv.put (hs : Inv s) {v : ℕ} (hr : r < v) (hv : s.next ≤ v) (hsound : x.Sound)
    (hfits : Fits T (stakes (update s.req r x)))
    (hthr : ∀ q, u = some q ↔ if q = r then x.pc.onThr = true else s.thr = some q)
    (haio : ∀ m q, q ≠ r → (T.aioreply m = some q ↔ s.tab.aioreply m = some q))
    (hout : ∀ b ∈ s.tab.out, b.owner ≠ r → s.tab.aioreply b.n = some b.owner → b ∈ T.out)
    (hreply : ∀ m, T.aioreply m = some r → x.pc = .aiowait ∧ ∃ b ∈ T.out, b.n = m ∧ b.owner = r)
    (hwait : x.pc = .aiowait → ∃ m, T.aioreply m = some r)
    (huniq : ∀ m m', T.aioreply m = some r → T.aioreply m' = some r → m = m') :
    Inv { s.put r x T with thr := u, next := v } := by
  have hself : (s.put r x T).req r = x := s.put_req_self r x T
  have hother : ∀ q ≠ r, (s.put r x T).req q = s.req q := fun q => s.put_req_of_ne x T
  refine ⟨hs.ok, hfits, fun q => ?_, fun m q hq => ?_, fun q hq => ?_, fun m m' q hm hm' => ?_, fun q => ?_,
    fun q hq => ?_⟩
  · by_cases hqr : q = r
    · rw [hqr, hself]
      exact hsound
    · rw [hother q hqr]
      exact hs.sound q
  · by_cases hqr : q = r
    · subst hqr
      rw [hself]
      exact hreply m hq
    · have hq := (haio m q hqr).mp hq
      obtain ⟨hw, b, hb, rfl, rfl⟩ := hs.reply m q hq
      rw [hother _ hqr]
      exact ⟨hw, b, hout b hb hqr hq, rfl, rfl⟩
  · by_cases hqr : q = r
    · subst hqr
      rw [hself] at hq
      exact hwait hq
    · rw [hother q hqr] at hq
      obtain ⟨m, hm⟩ := hs.wait q hq
      exact ⟨m, (haio m q hqr).mpr hm⟩
  · by_cases hqr : q = r
    · subst hqr
      exact huniq m m' hm hm'
    · exact hs.uniq m m' q ((haio m q hqr).mp hm) ((haio m' q hqr).mp hm')
  · rw [hthr q]
    split_ifs with hqr
    · rw [hqr, hself]
    · rw [hother q hqr, hs.thr q]
  · change v ≤ q at hq
    exact (hother q (by omega)).trans (hs.born q (by omega))

theorem Inv.move (hs : Inv s) (hold : (s.req r).pc ≠ .aiowait) (hcome : (s.req r).pc ≠ .done) (hnew : x.pc ≠ .aiowait)
    (hthr : ∀ q, u = some q ↔ if q = r then x.pc.onThr = true else s.thr = some q)
    (hsound : x.Sound) (hfits : Fits T (stakes (update s.req r x)))
    (haio : T.aioreply = s.tab.aioreply) (hout : ∀ b ∈ s.tab.out, b ∈ T.out) : Inv { s.put r x T with thr := u } := by
  have hnone : ∀ m, T.aioreply m ≠ some r := by
    intro m hm
    rw [haio] at hm
    exact hold (hs.reply m r hm).1
  exact hs.put (hs.lt_next hcome) (Nat.le_refl _) hsound hfits hthr (fun m q _ => by rw [haio]) (fun b hb _ _ => hout b hb)
    (fun m hm => absurd hm (hnone m)) (fun h => absurd h hnew) fun m _ hm => absurd hm (hnone m)

theorem Inv.handler (hs : Inv s) (hpc : (s.req r).pc.handler)
    (hpc' : x.pc.handler ∨ x.pc = .done) (hsound : x.Sound)
    (hfits : Fits T (stakes (update s.req r x))) (haio : T.aioreply = s.tab.aioreply)
    (hout : ∀ b ∈ s.tab.out, b ∈ T.out) : Inv (s.put r x T) := by
  have hold : (s.req r).pc ≠ .aiowait ∧ (s.req r).pc.onThr = false ∧ (s.req r).pc ≠ .done := by
    cases hp : (s.req r).pc <;> rw [hp] at hpc <;> simp_all [Pc.handler, Pc.onThr]
  have hnew : x.pc ≠ .aiowait ∧ x.pc.onThr = false := by
    cases hp : x.pc <;> rw [hp] at hpc' <;> simp_all [Pc.handler, Pc.onThr]
  refine hs.move hold.1 hold.2.2 hnew.1 (fun q => ?_) hsound hfits haio hout
  by_cases hqr : q = r
  · rw [if_pos hqr, hs.thr q, hqr, hold.2.1, hnew.2]
  · rw [if_neg hqr]

theorem Inv.retab (hs : Inv s) (hfits : Fits T (stakes s.req)) (haio : T.aioreply = s.tab.aioreply)
    (hout : ∀ b ∈ s.tab.out, s.tab.aioreply b.n = some b.owner → b ∈ T.out) : Inv { s with tab := T } := by
  obtain ⟨hok, -, hsound, hreply, hwait, huniq, hthr, hborn⟩ := hs
  refine ⟨hok, hfits, hsound, fun n r hr => ?_, haio ▸ hwait, haio ▸ huniq, hthr, hborn⟩
  rw [haio] at hr
  obtain ⟨hw, b, hb, rfl, rfl⟩ := hreply n r hr
  exact ⟨hw, b, hout b hb hr, rfl, rfl⟩

theorem Inv.sound_at (hs : Inv s) {p : Pc} (hp : (s.req r).pc = p) : Req.Sound { s.req r with pc := p } :=
  hp ▸ hs.sound r

theorem stakes_at {p : Pc} {st : Stake} (hp : (s.req r).pc = p) (hi : i < (s.req r).kind.nslvrs)
    (hst : stakeAt p i = st) : stakes s.req r ((s.req r).n + i) = st := by
  rw [stakes, Req.stake_at _ hi, hp, hst]

theorem Inv.thread (hs : Inv s) (hthr : s.thr = some r)
    (hpc : x.pc.onThr ∧ u = some r ∨ x.pc = .done ∧ u = none) (hsound : x.Sound)
    (hfits : Fits T (stakes (update s.req r x))) (haio : T.aioreply = s.tab.aioreply)
    (hout : T.out = s.tab.out) : Inv { s.put r x T with thr := u } := by
  have hon := (hs.thr r).mp hthr
  refine hs.move (fun he => ?_) (fun he => ?_) (fun he => ?_) (fun q => ?_) hsound hfits haio
    fun b hb => by rw [hout]; exact hb
  · rw [he] at hon
    cases hon
  · rw [he] at hon
    cases hon
  · rw [he] at hpc
    rcases hpc with ⟨h, -⟩ | ⟨h, -⟩ <;> cases h
  · by_cases hqr : q = r
    · rw [hqr]
      rcases hpc with ⟨h, rfl⟩ | ⟨h, rfl⟩
      · simp [h]
      · simp [h, Pc.onThr]
    · have hrq : r ≠ q := fun he => hqr he.symm
      rw [if_neg hqr, hthr]
      rcases hpc with ⟨-, rfl⟩ | ⟨-, rfl⟩
      · rfl
      · simp [hrq]

end Frame

/-! ### Steps of a handler -/

section Handlers

variable {s t : Sliod} {r : ℕ}

theorem lookup_inv (hs : Inv s) (h : handle s r (s.req r) (s.req r).pc (.lookup q) = some t) : Inv t := by
  cases hp : (s.req r).pc with
  | lookup i =>
    have hsound := hs.sound_at hp
    rw [hp] at h
    simp only [handle] at h
    split at h <;> cases h
    have hS : stakes s.req r ((s.req r).n + i) = .none := stakes_at hp hsound.1 (by simp [stakeAt])
    refine hs.handler (by rw [hp]; rfl) (.inl rfl) hsound ?_ rfl fun _ => id
    refine fits_move (hs.fits.look hS) rfl rfl hsound.1 ?_ ?_
    · simp [stakeAt]
    · intro j _ hji
      rw [hp]
      simp [stakeAt, hji]
  | _ => rw [hp] at h; cases h

theorem slvrIoPrep_fits {T T' : Table} {S : ℕ → ℕ → Stake} {full : Bool} {p : Prep} (h : Fits T S)
    (hS : S r n = .looked) (hp : slvrIoPrep T r n full ok = some (T', p)) :
    (p = .aiowait ∧ Fits T' (restake S r n (.owes true)) ∨
        p ≠ .aiowait ∧ T'.out = T.out ∧ ∀ a, Fits T' (restake S r n (.owes a))) ∧
      T'.aioreply = T.aioreply ∧ ∀ b ∈ T.out, b ∈ T'.out := by
  unfold slvrIoPrep at hp
  by_cases hf : (T.sl n).faulting = true
  · rw [if_pos hf] at hp
    cases hp
  rw [if_neg hf] at hp
  have hf := Bool.eq_false_iff.mpr hf
  by_cases he : (T.sl n).dataerr = true
  · rw [if_pos he] at hp
    obtain ⟨rfl, rfl⟩ := Prod.mk.inj (some.inj hp)
    refine ⟨.inr ⟨by split <;> simp, rfl, h.refuse hS he hf⟩, rfl, fun _ => id⟩
  rw [if_neg he] at hp
  by_cases hr : (T.sl n).datardy = true ∨ full = true
  · rw [if_pos hr] at hp
    cases hp
    exact ⟨.inr ⟨by simp, rfl, h.fault hS hf⟩, rfl, fun _ => id⟩
  rw [if_neg hr] at hp
  have hl : ¬ Loaded (T.sl n) := fun hl => hl.elim (fun h => hr (.inl h)) he
  split at hp <;> cases hp
  · exact ⟨.inl ⟨rfl, h.register hS hf hl⟩, rfl, fun _ => mem_cons_of_mem _⟩
  · exact ⟨.inr ⟨by simp, rfl, h.registerFails hS hf⟩, rfl, fun _ => id⟩

theorem prepared_handler (k : Kind) (i : ℕ) (na : Bool) : (prepared k i na).handler := by
  unfold prepared
  split
  · rfl
  split
  · rfl
  · split <;> rfl

theorem prepared_sound {x : Req} (na : Bool) (ha : x.answered = false) (h0 : x.attempts = 0) :
    Req.Sound { x with pc := prepared x.kind i na } := by
  have hpos := x.kind.nslvrs_pos
  unfold prepared
  split
  · exact ⟨‹_›, ha, h0⟩
  split
  · exact ⟨ha, h0⟩
  split
  · exact ⟨hpos, Nat.le_refl _, fun _ => rfl, ha, h0⟩
  · exact ⟨‹_›, ha, h0⟩

theorem fits_relabel {na a : Bool} (hp : (s.req r).pc = .prep i na) {x : Req} {T : Table}
    (hk : x.kind = (s.req r).kind) (hn : x.n = (s.req r).n) (hi : i < x.kind.nslvrs)
    (hfit : Fits T (restake (stakes s.req) r ((s.req r).n + i) (.owes a)))
    (hx : ∀ j < x.kind.nslvrs, stakeAt x.pc j = if j ≤ i then .owes a else .none)
    (hno : a = false → ∀ b ∈ T.out, b.owner ≠ r) : Fits T (stakes (update s.req r x)) := by
  refine hfit.restakes (r := r) (fun q hq m => ?_) (fun m => ?_) fun b hb hbr ho => ?_
  · exact (stakes_update_of_ne hq m).trans (if_neg fun he => hq he.1).symm
  · rw [stakes_update_self]
    rcases Req.stake_cases hk hn m with ⟨j, hj, rfl, hsx, hsr⟩ | ⟨hne, hsx, hsr⟩
    · rw [hsx, hx j (hk ▸ hj)]
      rcases Nat.lt_trichotomy j i with hlt | rfl | hgt
      · rw [restake_ne _ _ _ (by omega), stakes, hsr, hp, stakeAt, if_pos hlt, if_pos (by omega)]
        exact .inr ⟨⟨na, rfl⟩, .inl ⟨a, rfl⟩⟩
      · rw [restake_self, if_pos (Nat.le_refl j)]
        exact .inl rfl
      · rw [restake_ne _ _ _ (by omega), stakes, hsr, hp, stakeAt, if_neg (by omega), if_neg (by omega), if_neg (by omega)]
        exact .inl rfl
    · rw [restake_ne _ _ _ (hne i (hk ▸ hi)), hsx, stakes, hsr]
      exact .inl rfl
  · rw [stakes_update_self] at ho
    rcases Req.stake_cases rfl rfl b.n with ⟨j, hj, -, -, hs'⟩ | ⟨-, -, hs'⟩
    · rw [hs', hx j hj] at ho
      split at ho
      · exact hno (by simpa using ho) b hb hbr
      · cases ho
    · rw [hs'] at ho
      cases ho

section
variable (hs : Inv s)
include hs

theorem prep_inv (hclean : prepFails s r ok → (s.req r).kind ≠ .repl ∧ Quiet s r)
    (h : handle s r (s.req r) (s.req r).pc (.prep q ok) = some t) : Inv t := by
  cases hp : (s.req r).pc with
  | prep i na =>
    obtain ⟨hi, ha, h0⟩ := hs.sound_at hp
    rw [hp] at h
    simp only [handle] at h
    have hS : stakes s.req r ((s.req r).n + i) = .looked := stakes_at hp hi (by simp [stakeAt])
    have hh : (s.req r).pc.handler := by rw [hp]; rfl
    cases hprep : slvrIoPrep s.tab r ((s.req r).n + i) (decide ((s.req r).kind = .writeFull)) ok with
    | none => rw [hprep] at h; cases h
    | some res =>
      obtain ⟨T, p⟩ := res
      rw [hprep] at h
      obtain ⟨hfits, haio, hout⟩ := slvrIoPrep_fits hs.fits hS hprep
      cases p with
      | ready =>
        cases h
        have hfit := (hfits.resolve_left fun h => by cases h.1).2.2 na
        refine hs.handler hh (.inl (prepared_handler ..)) (prepared_sound na ha h0) ?_ haio hout
        refine fits_move hfit rfl rfl hi ?_ ?_
        · rw [stakeAt_prepared _ na hi hi, if_pos (Nat.le_refl i)]
        · intro j hj hji
          rw [stakeAt_prepared _ na hi hj, hp]
          have : j ≤ i ↔ j < i := by omega
          simp [stakeAt, hji, this]
      | aiowait =>
        cases h
        have hfit := (hfits.resolve_right fun h => h.1 rfl).2
        refine hs.handler hh (.inl (prepared_handler ..)) (prepared_sound true ha h0) ?_ haio hout
        exact fits_relabel hp rfl rfl hi hfit (fun j hj => stakeAt_prepared _ true hi hj) fun h => by cases h
      | error =>
        cases h
        obtain ⟨-, hsame, hfit⟩ := hfits.resolve_left fun h => by cases h.1
        obtain ⟨hric, hquiet⟩ := hclean (by rw [prepFails, hp]; simp only [hprep])
        refine hs.handler hh (.inl rfl) ⟨Nat.succ_pos i, hi, fun he => absurd he hric, ha, h0⟩ ?_ haio hout
        refine fits_relabel hp rfl rfl hi (hfit false) (fun j hj => ?_) fun _ => by rw [hsame]; exact hquiet
        simp [stakeAt, Nat.lt_succ_iff]
  | _ => rw [hp] at h; cases h

theorem setup_inv {csvc : Bool} (hclean : (s.req r).kind ≠ .repl ∧ csvc = false → Quiet s r)
    (h : handle s r (s.req r) (s.req r).pc (.setup q csvc) = some t) : Inv t := by
  cases hp : (s.req r).pc with
  | setup =>
    have hsound := hs.sound_at hp
    have hh : (s.req r).pc.handler := by rw [hp]; rfl
    have hpos := (s.req r).kind.nslvrs_pos
    rw [hp] at h
    simp only [handle] at h
    split_ifs at h with hnull <;> cases h
    · refine hs.handler hh (.inl rfl) ⟨hpos, Nat.le_refl _, fun _ => rfl, hsound⟩ ?_ rfl fun _ => id
      -- no read runs, so that all I/O can be ended
      refine hs.fits.restakes (fun q hq => stakes_update_of_ne hq) (fun m => ?_) fun b hb hbr =>
        absurd hbr (hclean hnull b hb)
      rw [stakes_update_self, stakes]
      rcases Req.stake_cases (x := { s.req r with pc := .ioDone (s.req r).kind.nslvrs 0 0 }) (y := s.req r) rfl rfl m
        with ⟨j, hj, -, hx, hr⟩ | ⟨-, hx, hr⟩
      · rw [hx, hr, hp]
        exact .inr ⟨⟨true, rfl⟩, .inl ⟨false, if_pos ⟨Nat.zero_le j, hj⟩⟩⟩
      · exact .inl (hx.trans hr.symm)
    · refine hs.handler hh (.inl rfl) ⟨hpos, hsound⟩ (fits_same hs.fits rfl rfl fun j hj => ?_) rfl fun _ => id
      rw [hp]
      simp [stakeAt]
  | _ => rw [hp] at h; cases h

theorem bulk_inv {rc : ℤ} (h : handle s r (s.req r) (s.req r).pc (.bulk q rc) = some t) : Inv t := by
  cases hp : (s.req r).pc with
  | bulk =>
    have hsound := hs.sound_at hp
    rw [hp] at h
    cases h
    refine hs.handler (by rw [hp]; rfl) (.inl rfl)
      ⟨(s.req r).kind.nslvrs_pos, Nat.le_refl _, fun he => absurd he hsound.1, hsound.2⟩
      (fits_same hs.fits rfl rfl fun j hj => ?_) rfl fun _ => id
    rw [hp]
    exact if_pos ⟨Nat.zero_le j, hj⟩
  | _ => rw [hp] at h; cases h

theorem ioDone_inv (h : handle s r (s.req r) (s.req r).pc (.ioDone q) = some t) : Inv t := by
  cases hp : (s.req r).pc with
  | ioDone k i rc =>
    obtain ⟨hik, hk, hrepl, hsound⟩ := hs.sound_at hp
    have hi : i < (s.req r).kind.nslvrs := Nat.lt_of_lt_of_le hik hk
    rw [hp] at h
    simp only [handle] at h
    rw [if_neg fun he => he.2 (hrepl he.1)] at h
    cases h
    have hS := stakes_at hp hi (if_pos ⟨Nat.le_refl i, hik⟩)
    refine hs.handler (by rw [hp]; rfl) (.inl rfl) ⟨hik, hk, hrepl, hsound⟩ ?_ rfl fun _ => id
    refine fits_move (hs.fits.ioDone hS rc) rfl rfl hi ?_ ?_
    · simp [stakeAt]
    · intro j _ hji
      rw [hp]
      simp [stakeAt, hji]
  | _ => rw [hp] at h; cases h

theorem unpin_fits {k : Kind} (hS : stakes s.req r n = .settled) :
    ∃ T, unpin s.tab r n k = some T ∧ Fits T (restake (stakes s.req) r n .none) ∧ T.out = s.tab.out ∧
      T.aioreply = s.tab.aioreply := by
  obtain ⟨T, hT, hfit, hout, haio⟩ := hs.fits.unpin hS
    (u := if k.isWrite then slvrWioDone (s.tab.sl n) else slvrRioDone (s.tab.sl n))
    (by split; exacts [.inr rfl, .inl rfl])
  refine ⟨T, hT, hfit, hout, haio.elim id fun h => ?_⟩
  rw [h, ← hs.no_reply (hs.fits.no_read_of_loaded (hs.fits.settled r n hS)), update_eq_self]

theorem drop_inv (h : handle s r (s.req r) (s.req r).pc (.drop q) = some t) : Inv t := by
  cases hp : (s.req r).pc with
  | drop k i rc =>
    obtain ⟨hik, hk, hrepl, hsound⟩ := hs.sound_at hp
    have hi : i < (s.req r).kind.nslvrs := Nat.lt_of_lt_of_le hik hk
    have hS : stakes s.req r ((s.req r).n + i) = .settled := stakes_at hp hi (by simp [stakeAt])
    obtain ⟨T, hT, hfit, hout, haio⟩ := unpin_fits hs (k := (s.req r).kind) hS
    rw [hp] at h
    simp only [handle, hT] at h
    cases h
    refine hs.handler (by rw [hp]; rfl) ?_ ?_ ?_ haio fun b hb => by rw [hout]; exact hb
    · split
      · exact .inl rfl
      · exact .inr rfl
    · split_ifs with hlast
      · exact ⟨hlast, hk, hrepl, hsound⟩
      · rw [hsound.2, hsound.1]
        rfl
    · have hnext : ∀ j, stakeAt (if i + 1 < k then .ioDone k (i + 1) rc else .done) j =
          if i + 1 ≤ j ∧ j < k then .owes false else .none := by
        intro j
        by_cases hlast : i + 1 < k
        · rw [if_pos hlast]
          rfl
        · rw [if_neg hlast, if_neg (by omega)]
          rfl
      refine fits_move hfit rfl rfl hi ?_ fun j _ hji => ?_
      · rw [hnext, if_neg (by omega)]
      · rw [hnext, hp, stakeAt, if_neg hji]
        simp only [show i + 1 ≤ j ↔ i ≤ j by omega]
  | _ => rw [hp] at h; cases h

theorem Inv.attach {rc : ℤ} (hp : (s.req r).pc = .check i rc)
    (hf : (s.tab.sl ((s.req r).n + i)).faulting) (hread : AllRead s r) :
    Inv (s.put r { s.req r with pc := .aiowait, answered := true }
      { s.tab with aioreply := update s.tab.aioreply ((s.req r).n + i) (some r) }) := by
  obtain ⟨hi, -, h0⟩ := hs.sound_at hp
  have howes : ∀ j < (s.req r).kind.nslvrs, ∃ a, stakes s.req r ((s.req r).n + j) = .owes a := by
    intro j hj
    rw [stakes, Req.stake_at _ hj, hp, stakeAt]
    split
    · exact ⟨false, rfl⟩
    · exact ⟨true, rfl⟩
  obtain ⟨b, hb, hbn⟩ := hread i hi hf
  obtain ⟨a, ha⟩ := howes i hi
  have hbr : b.owner = r := hs.fits.owner_eq ha hb hbn
  -- nobody else's reply hung there
  have hfree : ∀ q, s.tab.aioreply ((s.req r).n + i) ≠ some q := by
    intro q hq
    obtain ⟨hw, c, hc, hcn, hcq⟩ := hs.reply _ q hq
    have : q = r := by rw [← hcq, hs.fits.owner_eq ha hc hcn]
    rw [this, hp] at hw
    cases hw
  have hnot : ∀ m, s.tab.aioreply m ≠ some r := by
    intro m hm
    have hw := (hs.reply m r hm).1
    rw [hp] at hw
    cases hw
  have hself : ∀ m, update s.tab.aioreply ((s.req r).n + i) (some r) m = some r ↔ m = (s.req r).n + i := by
    intro m
    by_cases hm : m = (s.req r).n + i
    · simp [hm]
    · rw [update_of_ne hm]
      exact ⟨fun h => absurd h (hnot m), fun h => absurd h hm⟩
  refine hs.put (hs.lt_next (by rw [hp]; simp)) (Nat.le_refl _) ⟨rfl, h0⟩ ?_ (fun q => ?_) (fun m q hqr => ?_)
    (fun c hc _ _ => hc) (fun m hm => ⟨rfl, b, hb, ?_, hbr⟩) (fun _ => ⟨_, (hself _).mpr rfl⟩)
    fun m m' hm hm' => ?_
  · have hnew := Req.stake_cases (x := { s.req r with pc := .aiowait, answered := true }) (y := s.req r) rfl rfl
    refine Fits.attach (hs.fits.restakes (fun q hq => stakes_update_of_ne hq) (fun m => ?_) fun b _ _ ho => ?_) _
    · rw [stakes_update_self]
      rcases hnew m with ⟨j, hj, rfl, hx, -⟩ | ⟨-, hx, hr⟩
      · exact .inr ⟨howes j hj, .inr ⟨hx, hread j hj⟩⟩
      · exact .inl (hx.trans hr.symm)
    · rw [stakes_update_self] at ho
      rcases hnew b.n with ⟨j, -, -, hx, -⟩ | ⟨-, hx, -⟩ <;> cases hx.symm.trans ho
  · rw [hs.thr q]
    by_cases hqr : q = r
    · rw [if_pos hqr, hqr, hp]
      rfl
    · rw [if_neg hqr]
  · change update s.tab.aioreply ((s.req r).n + i) (some r) m = some q ↔ _
    by_cases hm : m = (s.req r).n + i
    · rw [hm, update_self]
      exact ⟨fun h => absurd (some.inj h).symm hqr, fun h => absurd h (hfree q)⟩
    · rw [update_of_ne hm]
  · rw [(hself m).mp hm, hbn]
  · rw [(hself m).mp hm, (hself m').mp hm']

theorem check_inv (hclean : if attaches s r then AllRead s r else endsWithError s r = false)
    (h : handle s r (s.req r) (s.req r).pc (.check q) = some t) : Inv t := by
  cases hp : (s.req r).pc with
  | check i rc =>
    obtain ⟨hi, hsound⟩ := hs.sound_at hp
    have hatt : attaches s r = (s.tab.sl ((s.req r).n + i)).faulting := by rw [attaches, hp]
    rw [hp] at h
    simp only [handle] at h
    split_ifs at h with hf
    · rw [if_pos (hatt.trans hf)] at hclean
      cases h
      exact hs.attach hp hf hclean
    rw [if_neg (by rw [hatt]; exact hf), endsWithError, hp] at hclean
    have hnext := of_decide_eq_false hclean
    have hf := Bool.eq_false_iff.mpr hf
    have hS : stakes s.req r ((s.req r).n + i) = .owes true := stakes_at hp hi (by simp [stakeAt])
    have hrelax := hs.fits.relax hS hf
    have hh : (s.req r).pc.handler := by rw [hp]; rfl
    cases h
    generalize firstErr rc (s.tab.sl ((s.req r).n + i)).err = e at hnext ⊢
    unfold checked at hnext ⊢
    by_cases hmore : i + 1 < (s.req r).kind.nslvrs
    · simp only [if_pos hmore]
      refine hs.handler hh (.inl rfl) ⟨hmore, hsound⟩ ?_ rfl fun _ => id
      refine fits_move hrelax rfl rfl hi ?_ fun j _ hji => ?_
      · simp [stakeAt]
      · rw [hp]
        have : j < i + 1 ↔ j < i := by omega
        simp [stakeAt, this]
    · rw [if_neg hmore] at hnext
      have he : ¬ e ≠ 0 := fun he => hnext (if_pos he)
      simp only [if_neg hmore, if_neg he]
      -- this was the last sliver
      have hlast : ∀ j < (s.req r).kind.nslvrs, j ≠ i → j < i := fun j hj hji => by omega
      by_cases hk : (s.req r).kind = .repl
      · have hi0 : i = 0 := by
          rw [hk] at hi
          exact Nat.lt_one_iff.mp hi
        simp only [if_pos hk]
        refine hs.handler hh (.inl rfl) ⟨hi, Nat.le_refl _, fun _ => rfl, hsound⟩ ?_ rfl fun _ => id
        refine fits_move (hs.fits.settle (.inl ⟨true, hS⟩) hf) rfl rfl hi ?_ fun j hj hji => ?_
        · simp [stakeAt]
        · have := hlast j hj hji
          omega
      · simp only [if_neg hk]
        refine hs.handler hh (.inl rfl) ⟨hk, hsound⟩ ?_ rfl fun _ => id
        refine fits_move hrelax rfl rfl hi rfl fun j hj hji => ?_
        rw [hp, stakeAt, stakeAt, if_pos (hlast j hj hji)]
  | _ => rw [hp] at h; cases h

end

end Handlers

/-! ### Steps of the thread that completes reads -/

section Thread

variable {s t : Sliod} {r : ℕ}

theorem complete_inv (hs : Inv s) (hthr : s.thr = none) {b : Iocb} (hb : b ∈ s.tab.out) (rc : ℤ) :
    Inv (slvrFsaioDone s b rc) := by
  have hfit := hs.fits.complete hb rc
  have hmem : ∀ {m c}, c ∈ s.tab.out → c.n = m → m ≠ b.n → c ∈ s.tab.out.erase b := by
    intro m c hc hcm hne
    exact hs.fits.nodup.mem_erase_iff.mpr ⟨fun he => hne (by rw [← hcm, he]), hc⟩
  unfold slvrFsaioDone
  rw [if_neg (by simp [hs.fits.asserts hb])]
  cases ha : s.tab.aioreply b.n with
  | none =>
    refine hs.retab hfit ?_ fun c hc hcn => hmem hc rfl fun he => ?_
    · change update s.tab.aioreply b.n none = _
      rw [← ha, update_eq_self]
    · rw [he, ha] at hcn
      cases hcn
  | some r =>
    obtain ⟨hp, -⟩ := hs.reply b.n r ha
    have hsound := hs.sound_at hp
    -- the replies that still hang are those of the others
    have haio : ∀ m q, update s.tab.aioreply b.n none m = some q ↔ s.tab.aioreply m = some q ∧ q ≠ r := by
      intro m q
      by_cases hm : m = b.n
      · rw [hm, ha]
        simpa using fun he : r = q => he.symm
      · rw [update_of_ne hm]
        exact ⟨fun h => ⟨h, fun he => hm (hs.uniq m b.n r (he ▸ h) ha)⟩, And.left⟩
    have hnone : ∀ m, update s.tab.aioreply b.n none m ≠ some r := fun m hm => ((haio m r).mp hm).2 rfl
    refine hs.put (hs.lt_next (by rw [hp]; simp)) (Nat.le_refl _) ⟨(s.req r).kind.nslvrs_pos, hsound⟩
      (fits_same hfit rfl rfl fun j _ => by rw [hp]; rfl) (fun q => ?_)
      (fun m q hqr => (haio m q).trans (and_iff_left hqr)) (fun c hc hcr hcn => hmem hc rfl ?_)
      (fun m hm => absurd hm (hnone m)) (fun h => by cases h) fun m _ hm => absurd hm (hnone m)
    · by_cases hqr : q = r
      · simp [hqr, Pc.onThr]
      · have hrq : r ≠ q := fun he => hqr he.symm
        rw [if_neg hqr, hthr]
        simp [hrq]
    · intro he
      rw [he, ha] at hcn
      exact hcr (some.inj hcn).symm

theorem tryNext_inv (hs : Inv s) (hthr : s.thr = some r) (hclean : givesUp s r = false)
    (h : complete s r (s.req r) (s.req r).pc .tryNext = some t) : Inv t := by
  cases hp : (s.req r).pc with
  | checking i =>
    obtain ⟨hi, hsound⟩ := hs.sound_at hp
    have hf : (s.tab.sl ((s.req r).n + i)).faulting = false := by
      rw [givesUp, hp] at hclean
      exact hclean
    rw [hp] at h
    simp only [complete, hf] at h
    cases h
    have hS : stakes s.req r ((s.req r).n + i) = .waits := stakes_at hp hi (by simp [stakeAt])
    have hsettle := hs.fits.settle (.inr hS) hf
    have hmove : ∀ j < (s.req r).kind.nslvrs,
        stakeAt (if i + 1 < (s.req r).kind.nslvrs then .checking (i + 1) else .replying) j =
          if j ≤ i then .settled else .waits := by
      intro j hj
      by_cases hmore : i + 1 < (s.req r).kind.nslvrs
      · rw [if_pos hmore]
        simp only [stakeAt, Nat.lt_succ_iff]
      · rw [if_neg hmore, if_pos (by omega)]
        rfl
    refine hs.thread hthr (.inl ⟨?_, hthr⟩) ?_ ?_ rfl rfl
    · split <;> rfl
    · split_ifs with hmore
      · exact ⟨hmore, hsound⟩
      · exact hsound
    · refine fits_move hsettle rfl rfl hi ?_ fun j hj hji => ?_
      · rw [hmove i hi, if_pos (Nat.le_refl i)]
      · rw [hmove j hj, hp]
        have : j ≤ i ↔ j < i := by omega
        simp [stakeAt, this]
  | _ => rw [hp] at h; cases h

theorem chkslvrs_of_loaded {T : Table} : ∀ {l : List ℕ}, (∀ n ∈ l, Loaded (T.sl n)) → slvrAioChkslvrs T l
  | [], _ => rfl
  | n :: l, h => by
    have hn : ((T.sl n).datardy || (T.sl n).dataerr) := by
      rcases h n mem_cons_self with hl | hl <;> simp [hl]
    rw [slvrAioChkslvrs, hn, chkslvrs_of_loaded fun m hm => h m (mem_cons_of_mem _ hm)]
    simp

theorem reply_inv (hs : Inv s) (hthr : s.thr = some r)
    (hclean : (s.req r).kind = .repl → (s.req r).csvc ∧ ok)
    (h : complete s r (s.req r) (s.req r).pc (.reply ok) = some t) : Inv t := by
  cases hp : (s.req r).pc with
  | replying =>
    have hsound := hs.sound_at hp
    have hchk : slvrAioChkslvrs s.tab (s.req r).slvrs := by
      refine chkslvrs_of_loaded fun n hn => ?_
      obtain ⟨j, hj, rfl⟩ := mem_map.mp hn
      exact hs.fits.settled r _ (stakes_at hp (mem_range.mp hj) rfl)
    have hdrop : Inv (s.put r { s.req r with pc := .dropping 0, attempts := (s.req r).attempts + 1 } s.tab) := by
      refine hs.thread hthr (.inl ⟨rfl, hthr⟩) ?_ (fits_same hs.fits rfl rfl fun j _ => ?_) rfl rfl
      · exact ⟨(s.req r).kind.nslvrs_pos, hsound.1, congrArg (· + 1) hsound.2⟩
      · rw [hp]
        rfl
    rw [hp] at h
    simp only [complete, hchk] at h
    split at h
    · rename_i hno
      split_ifs at h with hk
      · obtain ⟨hc, ho⟩ := hclean hk
        simp [hc, ho] at hno
      · cases h
        exact hdrop
    · cases h
      exact hdrop
  | _ => rw [hp] at h; cases h

theorem dropNext_inv (hs : Inv s) (hthr : s.thr = some r)
    (h : complete s r (s.req r) (s.req r).pc .dropNext = some t) : Inv t := by
  cases hp : (s.req r).pc with
  | dropping i =>
    obtain ⟨hi, hsound⟩ := hs.sound_at hp
    have hS : stakes s.req r ((s.req r).n + i) = .settled := stakes_at hp hi (by simp [stakeAt])
    obtain ⟨T, hT, hfit, hout, haio⟩ := unpin_fits hs (k := (s.req r).kind) hS
    rw [hp] at h
    simp only [complete, hT] at h
    split_ifs at h with hmore <;> cases h
    · refine hs.thread hthr (.inl ⟨rfl, hthr⟩) ⟨hmore, hsound⟩ ?_ haio hout
      refine fits_move hfit rfl rfl hi ?_ fun j _ hji => ?_
      · simp [stakeAt]
      · rw [hp]
        have : j < i + 1 ↔ j < i := by omega
        simp [stakeAt, this]
    refine hs.thread hthr (.inr ⟨rfl, rfl⟩) ?_ ?_ haio hout
    · rw [hsound.1, hsound.2]
      rfl
    · refine fits_move hfit rfl rfl hi rfl fun j hj hji => ?_
      change j < (s.req r).kind.nslvrs at hj
      rw [hp]
      simp [stakeAt, show j < i by omega]
  | _ => rw [hp] at h; cases h

end Thread

section Steps

variable {s t : Sliod}

theorem arrive_inv (hs : Inv s) (k : Kind) (n : ℕ) :
    Inv { s.put s.next { Req.idle with kind := k, n := n, pc := .lookup 0 false } s.tab with
      next := s.next + 1 } := by
  have hidle := hs.born s.next (Nat.le_refl _)
  have hnone : ∀ m, s.tab.aioreply m ≠ some s.next := by
    intro m hm
    have hw := (hs.reply m _ hm).1
    rw [hidle] at hw
    cases hw
  have hfits : Fits s.tab (stakes (update s.req s.next
      { Req.idle with kind := k, n := n, pc := .lookup 0 false })) := by
    suffices hsame : stakes (update s.req s.next
        { Req.idle with kind := k, n := n, pc := .lookup 0 false }) = stakes s.req by
      rw [hsame]
      exact hs.fits
    funext q m
    by_cases hq : q = s.next
    · subst hq
      rw [stakes_update_self, stakes, hidle]
      simp [Req.stake, stakeAt, Req.idle]
    · exact stakes_update_of_ne hq m
  refine hs.put (u := s.thr) (Nat.lt_succ_self _) (Nat.le_succ _) ⟨k.nslvrs_pos, rfl, rfl⟩ hfits (fun q => ?_)
    (fun _ _ _ => .rfl) (fun b hb _ _ => hb) (fun m hm => absurd hm (hnone m)) (fun h => by cases h)
    fun m _ hm => absurd hm (hnone m)
  by_cases hq : q = s.next
  · rw [if_pos hq, hs.thr q, hq, hidle]
    rfl
  · rw [if_neg hq]

theorem reap_inv (hs : Inv s) (h0 : (s.tab.sl n).refcnt = 0) : Inv { s with tab := s.tab.reset n } := by
  have hno : ∀ b ∈ s.tab.out, b.n ≠ n := by
    rintro b hb rfl
    have hnone := hs.fits.none_of_refcnt h0 b.owner
    rcases (hs.fits.runs b hb).owner with ho | ho <;> rw [hnone] at ho <;> cases ho
  refine hs.retab (hs.fits.reset h0) ?_ fun _ hb _ => hb
  change update s.tab.aioreply n none = _
  rw [← hs.no_reply hno, update_eq_self]

theorem step_inv {l : Label} (hs : Inv s) (hclean : Clean s l) (h : step s l = some t) : Inv t := by
  revert h
  fun_cases step s l <;> intro h <;> try cases h
  next k n => exact arrive_inv hs k n
  next => exact lookup_inv hs h
  next => exact prep_inv hs hclean h
  next => exact setup_inv hs hclean h
  next => exact check_inv hs hclean h
  next => exact bulk_inv hs h
  next => exact ioDone_inv hs h
  next => exact drop_inv hs h
  next rc hb => exact complete_inv hs hb.2 hb.1 rc
  next r hthr => exact tryNext_inv hs hthr (hclean r hthr) h
  next r hthr => exact reply_inv hs hthr (hclean r hthr) h
  next hthr => exact dropNext_inv hs hthr h
  next hr => exact reap_inv hs hr.1

theorem handler_of_owes {p : Pc} {a : Bool} (h : stakeAt p j = .owes a) : p.handler := by
  cases p with
  | lookup | prep | setup | check | bulk | ioDone | drop => rfl
  | aiowait | replying | done => cases h
  | checking => rw [stakeAt] at h; split at h <;> cases h
  | dropping => rw [stakeAt] at h; split at h <;> cases h

theorem Inv.replied (hs : Inv s) : Replied s where
  ok := hs.ok
  asserts b hb := hs.fits.asserts hb
  once r hr := by
    have hsound := hs.sound r
    rw [Req.Sound] at hsound
    have hthr := hs.thr r
    -- a request that was replied to has nothing a read could run for
    have hquiet : (∀ j, stakeAt (s.req r).pc j ≠ .owes true ∧ stakeAt (s.req r).pc j ≠ .waits) →
        ∀ b ∈ s.tab.out, b.owner ≠ r := by
      rintro hno b hb rfl
      have hown := (hs.fits.runs b hb).owner
      rcases Req.stake_cases rfl rfl b.n with ⟨j, -, -, hj, -⟩ | ⟨-, hj, -⟩
      · rw [stakes, hj] at hown
        exact hown.elim (hno j).1 (hno j).2
      · rw [stakes, hj] at hown
        rcases hown with h | h <;> cases h
    cases hp : (s.req r).pc with
    | lookup | prep | check => simp only [hp, hr] at hsound; exact absurd hsound.2.1 (by decide)
    | setup => simp only [hp, hr] at hsound; exact absurd hsound.1 (by decide)
    | bulk => simp only [hp, hr] at hsound; exact absurd hsound.2.1 (by decide)
    | ioDone | drop => simp only [hp, hr] at hsound; exact absurd hsound.2.2.2.1 (by decide)
    | aiowait =>
      rw [hp] at hsound
      obtain ⟨n, hn⟩ := hs.wait r hp
      obtain ⟨-, b, hb, -, hbr⟩ := hs.reply n r hn
      exact .inl ⟨hsound.2, .inr ⟨b, hb, hbr⟩⟩
    | checking =>
      rw [hp] at hsound hthr
      exact .inl ⟨hsound.2.2, .inl (hthr.mpr rfl)⟩
    | replying =>
      rw [hp] at hsound hthr
      exact .inl ⟨hsound.2, .inl (hthr.mpr rfl)⟩
    | dropping =>
      rw [hp] at hsound
      refine .inr ⟨hsound.2.2, hquiet fun j => ?_⟩
      rw [hp, stakeAt]
      split <;> simp
    | done =>
      rw [hp] at hsound
      refine .inr ⟨by rw [hsound, hr]; rfl, hquiet fun j => ?_⟩
      rw [hp]
      simp [stakeAt]
  never r hr := by
    have hsound := hs.sound r
    rw [Req.Sound] at hsound
    cases hp : (s.req r).pc <;> simp only [hp, hr] at hsound
    case done => exact hsound
    case lookup | prep | check => exact hsound.2.2
    case setup => exact hsound.2
    case bulk => exact hsound.2.2
    case ioDone | drop => exact hsound.2.2.2.2
    all_goals simp at hsound
  refs := hs.fits.refs
  taken r n := by
    rw [hs.fits.held r n]
    split <;> decide
  dropped r hp n hmem := by
    have hc := hs.fits.held r n
    have hnone : stakes s.req r n = .none := by
      rcases Req.stake_cases rfl rfl n with ⟨j, -, -, hj, -⟩ | ⟨-, hj, -⟩
      · rw [stakes, hj, hp]
        rfl
      · exact hj
    rw [hnone] at hc
    exact absurd hmem (count_eq_zero.mp hc)
  faulting n hf := by
    rcases hs.fits.faulting n hf with hb | ⟨r, a, hr⟩
    · exact .inl hb
    refine .inr ⟨r, ?_, ?_⟩
    · rw [← count_pos_iff, hs.fits.held r n, hr]
      exact Nat.one_pos
    · rcases Req.stake_cases rfl rfl n with ⟨j, -, -, hj, -⟩ | ⟨-, hj, -⟩
      · rw [stakes, hj] at hr
        exact handler_of_owes hr
      · rw [stakes, hj] at hr
        cases hr

end Steps

/-- **Asynchronous replies**: each once, in runs of clean steps. -/
theorem aio_run (ls : List Label) (h : Admits step Clean Sliod.init ls) {s : Sliod}
    (hr : run step Sliod.init ls = some s) : Replied s :=
  (run_invariant (fun hs hc h => step_inv hs hc h) inv_init h hr).replied

def readTwo : List Label :=
  [.arrive (.read true) 0, .lookup 0, .prep 0 true, .lookup 0, .prep 0 true, .setup 0 true, .check 0]

def readTwoReplied : List Label :=
  readTwo ++ [.complete ⟨0, 1, 0⟩ 0, .complete ⟨0, 0, 0⟩ 0, .tryNext, .tryNext, .reply true, .dropNext, .dropNext]

theorem aio_run_replied : ∃ s ∈ run step Sliod.init readTwoReplied,
      ((s.req 0).answered = true ∧ (s.req 0).attempts = 1 ∧ s.tab.held = []) ∧ Replied s :=
  ⟨_, rfl, ⟨rfl, rfl, rfl⟩, aio_run readTwoReplied (by decide +kernel) rfl⟩

def readOne : List Label :=
  [.arrive (.read false) 0, .lookup 0, .prep 0 true, .setup 0 true, .check 0, .complete ⟨0, 0, 0⟩ 0, .tryNext,
    .reply true, .dropNext]

/-- **Lost replies** for two slivers, the first being there. -/
theorem replies_lost :
    (∃ s ∈ run step Sliod.init (readTwo ++ [.complete ⟨0, 0, 0⟩ 0, .tryNext, .tryNext, .complete ⟨0, 1, 0⟩ 0]),
      (s.req 0).answered = true ∧ (s.req 0).attempts = 0 ∧ s.thr = none ∧ s.tab.out = [] ∧
        s.tab.held = [(0, 1), (0, 0)]) ∧
    (∃ s ∈ run step Sliod.init (readOne ++ [.arrive (.read true) 0, .lookup 1, .prep 1 true, .lookup 1,
        .prep 1 true, .setup 1 true, .check 1, .complete ⟨1, 1, 0⟩ 0]),
      (s.req 1).answered = true ∧ (s.req 1).attempts = 0 ∧ s.thr = none ∧ s.tab.out = [] ∧
        (s.tab.sl 0).faulting = true) ∧
    (∃ s ∈ run step Sliod.init [.arrive (.read false) 0, .lookup 0, .prep 0 true, .setup 0 false, .ioDone 0,
        .drop 0, .complete ⟨0, 0, 0⟩ 0], s.failed = true) ∧
    ∃ s ∈ run step Sliod.init [.arrive .repl 0, .lookup 0, .prep 0 false, .ioDone 0],
      (s.req 0).pc = .done ∧ s.tab.held = [(0, 0)] := by
  decide +kernel

end Slash2.SlvrAio
