/-
# Writes that are flushed together

The flush thread goes through the dirty requests (biorqs) of a bmap in the order of their offsets and gathers those that
overlap or adjoin into a coalescer, up to the size of one RPC. It hands a coalescer out when it is large enough or when
a request has expired; otherwise, at a gap, it forgets what it has gathered and begins anew.

Key theorem: `bmapFlushTrycoalesce_spec`.
-/
import Slash2.Lib.Span
import Mathlib.Data.List.Pairwise

namespace Slash2.Client.Coalesce

open Lib List Option

/-! ### Requests and coalescers -/

/-- `LNET_MTU`, `MIN_COALESCE_RPC_SZ` -/
def lnetMtu : ℕ := 1048576

/-- `struct bmap_pagecache_entry` -/
structure Bmpce where
  /-- `bmpce_off` -/
  off : ℕ
  /-- `bmpce_ref` -/
  ref : ℕ
  base : ℕ
  deriving DecidableEq

/-- `struct bmpc_ioreq` -/
structure Biorq where
  id : ℕ
  /-- `biorq_off` -/
  off : ℕ
  /-- `biorq_len` -/
  len : ℕ
  /-- `BIORQ_EXPIRE` -/
  force : Bool
  expire : ℕ
  pages : List Bmpce
  deriving DecidableEq

/-- `biorq_voff_get` -/
def Biorq.voff (r : Biorq) : ℕ := r.off + r.len

/-- `bmap_flush_biorq_expired`, when the clock shows `now` -/
def Biorq.expired (r : Biorq) (now : ℕ) : Bool := r.force || r.expire ≤ now

/-- `struct bmpc_write_coalescer`, before its pages are collected -/
structure Coalescer where
  size : ℕ
  soff : ℕ
  biorqs : List Biorq

def Coalescer.single (r : Biorq) : Coalescer := ⟨r.len, r.off, [r]⟩

/-- One more request, that reaches `sz` further. -/
def Coalescer.add (bwc : Coalescer) (curr : Biorq) (sz : ℤ) : Coalescer :=
  { bwc with
    size := if 0 < sz then bwc.size + sz.toNat else bwc.size
    biorqs := bwc.biorqs ++ [curr] }

def further (last curr : Biorq) (sz : ℤ) : Biorq := if sz < 0 then last else curr

/-- The end of the loop: coalescer, number of requests, `large`, `expired`. -/
structure Scan where
  bwc : Coalescer
  idx : ℕ
  large : Bool
  expired : Bool

/-- The loop from the second request on. -/
def tryLoop (now : ℕ → ℕ) : List Biorq → ℕ → Biorq → Coalescer → Bool → Option Scan
  | [], idx, _, bwc, expired => some ⟨bwc, idx, false, expired⟩
  | curr :: rs, idx, last, bwc, expired =>
    let expired := expired || curr.expired (now idx)
    if curr.off < last.off then none
    else if curr.off ≤ last.voff then
      let sz : ℤ := curr.voff - last.voff
      if 0 < sz ∧ (lnetMtu : ℤ) < sz + bwc.size then some ⟨bwc, idx, true, expired⟩
      else tryLoop now rs (idx + 1) (further last curr sz) (bwc.add curr sz) expired
    else if expired then some ⟨bwc, idx, false, expired⟩
    else tryLoop now rs (idx + 1) curr (Coalescer.single curr) expired

/-- `bmap_flush_trycoalesce`: the coalescer, if any, and the new index -/
def bmapFlushTrycoalesce (now : ℕ → ℕ) (biorqs : List Biorq) (index : ℕ) : Option (Option Coalescer × ℕ) :=
  match biorqs.drop index with
  | [] => none
  | curr :: rs => do
    let s ← tryLoop now rs 1 curr (Coalescer.single curr) (curr.expired (now 0))
    some (if s.large ∨ s.expired then some s.bwc else none, index + s.idx)

/-! ### What a coalescer holds -/

/-- **The requests are joined**, and the coalescer is no larger than one RPC. -/
structure Coalescer.Group (bwc : Coalescer) (first : Biorq) (rest : List Biorq) : Prop where
  biorqs : bwc.biorqs = first :: rest
  soff : bwc.soff = first.off
  after : ∀ r ∈ rest, first.off ≤ r.off
  joined : Joined Biorq.off Biorq.voff first.voff rest
  size : bwc.soff + bwc.size = reach Biorq.voff first.voff rest
  mtu : bwc.size ≤ lnetMtu

/-- `last` reaches furthest, and is not behind what follows. -/
structure Coalescer.Fits (bwc : Coalescer) (last : Biorq) (rs : List Biorq) : Prop where
  group : ∃ first rest, bwc.Group first rest ∧ last.voff = reach Biorq.voff first.voff rest ∧ first.off ≤ last.off
  last : ∀ r ∈ rs, last.off ≤ r.off

variable {now : ℕ → ℕ} {bwc : Coalescer} {last curr r : Biorq} {rs : List Biorq} {idx : ℕ} {expired : Bool} {s : Scan}

theorem single_group (hr : r.len ≤ lnetMtu) : (Coalescer.single r).Group r [] where
  biorqs := rfl
  soff := rfl
  after := nofun
  joined := trivial
  size := rfl
  mtu := hr

theorem single_fits (hr : r.len ≤ lnetMtu) (hrs : ∀ a ∈ rs, r.off ≤ a.off) : (Coalescer.single r).Fits r rs :=
  ⟨⟨r, [], single_group hr, rfl, le_rfl⟩, hrs⟩

theorem Coalescer.Fits.add (h : bwc.Fits last (curr :: rs)) (hsorted : ∀ a ∈ rs, curr.off ≤ a.off)
    (hjoin : curr.off ≤ last.voff) {sz : ℤ} (hsz : sz = curr.voff - last.voff)
    (hmtu : ¬(0 < sz ∧ (lnetMtu : ℤ) < sz + bwc.size)) : (bwc.add curr sz).Fits (further last curr sz) rs := by
  obtain ⟨first, rest, hgroup, hlast, hfirst⟩ := h.group
  have hcurr := h.last curr mem_cons_self
  have hsize := hgroup.size
  have hreach := reach_snoc Biorq.voff first.voff rest curr
  unfold Coalescer.add further
  refine ⟨⟨first, rest ++ [curr], ⟨?_, hgroup.soff, ?_, ?_, ?_, ?_⟩, ?_, ?_⟩, fun r hr => ?_⟩
  · rw [hgroup.biorqs]
    rfl
  · exact forall_mem_append.mpr ⟨hgroup.after, forall_mem_singleton.mpr (hfirst.trans hcurr)⟩
  · exact joined_snoc.mpr ⟨hgroup.joined, hlast ▸ hjoin⟩
  · simp only
    split_ifs <;> omega
  · have := hgroup.mtu
    simp only
    split_ifs <;> omega
  · split_ifs <;> omega
  · split_ifs
    · exact hfirst
    · exact hfirst.trans hcurr
  · split_ifs
    · exact h.last r (mem_cons_of_mem curr hr)
    · exact hsorted r hr

theorem tryLoop_group : ∀ {rs : List Biorq} {idx : ℕ} {last : Biorq} {bwc : Coalescer} {expired : Bool},
    bwc.Fits last rs → rs.Pairwise (fun a b => a.off ≤ b.off) → (∀ r ∈ rs, r.len ≤ lnetMtu) →
    tryLoop now rs idx last bwc expired = some s → ∃ first rest, s.bwc.Group first rest
  | [], _, _, _, _, h, _, _, hs => by
    cases hs
    obtain ⟨first, rest, hgroup, -⟩ := h.group
    exact ⟨first, rest, hgroup⟩
  | curr :: rs, _, _, _, _, h, hsorted, hlen, hs => by
    have hlen' r (hr : r ∈ rs) : r.len ≤ lnetMtu := hlen r (mem_cons_of_mem curr hr)
    obtain ⟨hcurr, hsorted⟩ := pairwise_cons.mp hsorted
    obtain ⟨first, rest, hgroup, -⟩ := h.group
    unfold tryLoop at hs
    simp only at hs
    split_ifs at hs with _ hjoin hlarge
    · cases hs
      exact ⟨first, rest, hgroup⟩
    · exact tryLoop_group (h.add hcurr hjoin rfl hlarge) hsorted hlen' hs
    · cases hs
      exact ⟨first, rest, hgroup⟩
    · exact tryLoop_group (single_fits (hlen curr mem_cons_self) hcurr) hsorted hlen' hs

variable {biorqs : List Biorq} {index : ℕ}

theorem bmapFlushTrycoalesce_group (hsorted : biorqs.Pairwise fun a b => a.off ≤ b.off)
    (hlen : ∀ r ∈ biorqs, r.len ≤ lnetMtu) {index' : ℕ}
    (h : bmapFlushTrycoalesce now biorqs index = some (some bwc, index')) : ∃ first rest, bwc.Group first rest := by
  have hsuffix := drop_sublist index biorqs
  unfold bmapFlushTrycoalesce at h
  split at h
  · exact nomatch h
  next curr rs hdrop =>
  rw [hdrop] at hsuffix
  obtain ⟨hcurr, hrs⟩ := pairwise_cons.mp (hsorted.sublist hsuffix)
  have hlen' r (hr : r ∈ curr :: rs) : r.len ≤ lnetMtu := hlen r (hsuffix.subset hr)
  obtain ⟨s, hs, h⟩ := bind_eq_some_iff.mp h
  obtain ⟨hbwc, -⟩ := Prod.mk.inj (some.inj h)
  split_ifs at hbwc
  cases hbwc
  exact tryLoop_group (single_fits (hlen' curr mem_cons_self) hcurr) hrs
    (fun r hr => hlen' r (mem_cons_of_mem curr hr)) hs

/-! ### What is scanned -/

/-- What the loop has done with the `n` requests it went through. -/
structure Scanned (t₀ : ℕ) (rs : List Biorq) (idx : ℕ) (bwc : Coalescer) (expired : Bool) (s : Scan) (n : ℕ) : Prop where
  idx : s.idx = idx + n
  le : n ≤ rs.length
  sub : s.bwc.biorqs.Sublist (bwc.biorqs ++ rs.take n)
  kept : expired → bwc.biorqs ⊆ s.bwc.biorqs ∧ s.expired
  placed : ∀ r ∈ rs.take n, r.expired t₀ → r ∈ s.bwc.biorqs ∧ s.expired
  stop : s.large = false → s.expired = false → n = rs.length

theorem Biorq.expired_mono {t t' : ℕ} (ht : t ≤ t') (h : r.expired t) : r.expired t' := by
  unfold Biorq.expired at *
  simp only [Bool.or_eq_true, decide_eq_true_eq] at *
  exact h.imp_right fun h => h.trans ht

variable {t₀ : ℕ} {e : Bool}

theorem scanned_stop {large : Bool} (he : expired → e) (hstop : large ∨ e) :
    Scanned t₀ rs idx bwc expired ⟨bwc, idx, large, e⟩ 0 where
  idx := rfl
  le := Nat.zero_le _
  sub := by simp
  kept h := ⟨.refl _, he h⟩
  placed r hr := absurd hr not_mem_nil
  stop hl hx := by simp_all

theorem Scanned.add {n : ℕ} {sz : ℤ} (h : Scanned t₀ rs (idx + 1) (bwc.add curr sz) (expired || e) s n)
    (he : curr.expired t₀ → e) : Scanned t₀ (curr :: rs) idx bwc expired s (n + 1) where
  idx := by
    rw [h.idx]
    omega
  le := Nat.succ_le_succ h.le
  sub := by
    have hsub := h.sub
    rwa [Coalescer.add, append_assoc] at hsub
  kept hexp := by
    obtain ⟨hsub, hs⟩ := h.kept (by simp [hexp])
    exact ⟨fun r hr => hsub (mem_append_left _ hr), hs⟩
  placed r hr hr₀ := by
    rcases mem_cons.mp hr with rfl | hr
    · obtain ⟨hsub, hs⟩ := h.kept (by simp [he hr₀])
      exact ⟨hsub (mem_append_right _ mem_cons_self), hs⟩
    · exact h.placed r hr hr₀
  stop hlarge hexp := congrArg (· + 1) (h.stop hlarge hexp)

theorem Scanned.restart {n : ℕ} (h : Scanned t₀ rs (idx + 1) (Coalescer.single curr) (expired || e) s n)
    (he : curr.expired t₀ → e) (hnone : (expired || e) = false) : Scanned t₀ (curr :: rs) idx bwc expired s (n + 1) where
  idx := by
    rw [h.idx]
    omega
  le := Nat.succ_le_succ h.le
  sub := h.sub.trans (sublist_append_right _ _)
  kept hexp := by simp [hexp] at hnone
  placed := forall_mem_cons.mpr ⟨fun hr₀ => by simp [he hr₀] at hnone, h.placed⟩
  stop hlarge hexp := congrArg (· + 1) (h.stop hlarge hexp)

theorem tryLoop_scanned (ht : ∀ i, t₀ ≤ now i) :
    ∀ {rs : List Biorq} {last : Biorq} (idx : ℕ) (bwc : Coalescer) (expired : Bool),
    (∀ r ∈ rs, last.off ≤ r.off) → rs.Pairwise (fun a b => a.off ≤ b.off) →
    ∃ s n, tryLoop now rs idx last bwc expired = some s ∧ Scanned t₀ rs idx bwc expired s n
  | [], _, idx, bwc, expired, _, _ => by
    refine ⟨⟨bwc, idx, false, expired⟩, 0, rfl, rfl, le_rfl, by simp, fun h => ⟨List.Subset.refl _, h⟩, ?_, fun _ _ => rfl⟩
    exact fun r hr => absurd hr not_mem_nil
  | curr :: rs, last, idx, bwc, expired, hlast, hsorted => by
    obtain ⟨hcurr, hsorted⟩ := pairwise_cons.mp hsorted
    have hexp (h : curr.expired t₀) : curr.expired (now idx) := Biorq.expired_mono (ht idx) h
    unfold tryLoop
    simp only
    rw [if_neg (Nat.not_lt.mpr (hlast curr mem_cons_self))]
    split_ifs with hjoin hlarge hgap
    · exact ⟨_, 0, rfl, scanned_stop (fun h => by simp [h]) (Or.inl rfl)⟩
    · have hfurther (sz : ℤ) (r : Biorq) (hr : r ∈ rs) : (further last curr sz).off ≤ r.off := by
        unfold further
        split_ifs
        · exact hlast r (mem_cons_of_mem curr hr)
        · exact hcurr r hr
      obtain ⟨s, n, hs, h⟩ := tryLoop_scanned ht (idx + 1) _ _ (hfurther _) hsorted
      exact ⟨s, n + 1, hs, h.add hexp⟩
    · exact ⟨_, 0, rfl, scanned_stop (fun h => by simp [h]) (.inr hgap)⟩
    · obtain ⟨s, n, hs, h⟩ := tryLoop_scanned ht (idx + 1) _ _ hcurr hsorted
      exact ⟨s, n + 1, hs, h.restart hexp (by simpa using hgap)⟩

theorem bmapFlushTrycoalesce_spec (ht : ∀ i, t₀ ≤ now i)
    (hsorted : biorqs.Pairwise fun a b => a.off ≤ b.off) (hindex : index < biorqs.length) :
    ∃ res n, bmapFlushTrycoalesce now biorqs index = some (res, index + n) ∧ 0 < n ∧ index + n ≤ biorqs.length ∧
      ((res.map Coalescer.biorqs).getD []).Sublist ((biorqs.drop index).take n) ∧
      (∀ r ∈ (biorqs.drop index).take n, r.expired t₀ → ∃ bwc ∈ res, r ∈ bwc.biorqs) ∧
      (res = none → index + n = biorqs.length) := by
  obtain ⟨curr, rs, hdrop⟩ : ∃ curr rs, biorqs.drop index = curr :: rs :=
    exists_cons_of_length_pos (by rw [length_drop]; omega)
  have hlen : rs.length + 1 = biorqs.length - index := by
    rw [← length_drop, hdrop, length_cons]
  have hsuffix := pairwise_cons.mp (hdrop ▸ hsorted.sublist (drop_sublist index biorqs))
  obtain ⟨s, n, hs, h⟩ := tryLoop_scanned ht 1 (Coalescer.single curr) (curr.expired (now 0)) hsuffix.1 hsuffix.2
  have hle := h.le
  unfold bmapFlushTrycoalesce
  simp only [hdrop, hs, bind_eq_bind, bind_some, h.idx]
  refine ⟨_, 1 + n, rfl, by omega, by omega, ?_, fun r hr hr₀ => ?_, fun hnone => ?_⟩
  · rw [Nat.add_comm]
    split_ifs
    · exact h.sub
    · exact nil_sublist _
  · rw [Nat.add_comm] at hr
    have hr' : r ∈ s.bwc.biorqs ∧ s.expired := by
      rcases mem_cons.mp hr with rfl | hr
      · obtain ⟨hsub, hexp⟩ := h.kept (Biorq.expired_mono (ht 0) hr₀)
        exact ⟨hsub mem_cons_self, hexp⟩
      · exact h.placed r hr hr₀
    rw [if_pos (.inr hr'.2)]
    exact ⟨_, rfl, hr'.1⟩
  · have hn : ¬(s.large ∨ s.expired) := by
      intro hor
      rw [if_pos hor] at hnone
      exact nomatch hnone
    obtain ⟨hlarge, hexp⟩ := not_or.mp hn
    have := h.stop (by simpa using hlarge) (by simpa using hexp)
    omega

end Slash2.Client.Coalesce
