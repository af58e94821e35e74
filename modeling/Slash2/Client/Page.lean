/-
# The client's page cache

A page of a bmap is a 32 KiB buffer. It is usable as a whole once it is `DATARDY`, and before that
in one range, `bmpce_start` and `bmpce_len`, which a write copied into the page extends. The
functions that work on it are `msl_pages_copyin`, `msl_biorq_page_valid`, `msl_pages_copyout` and
the completion of a read, `_msl_bmpce_rpc_done`.

Key theorem: `usable_latest_iff`.
-/
import Mathlib.Data.List.Chain
import Slash2.Lib.Run
import Slash2.Lib.Span
import Slash2.Slerr

namespace Slash2.Client

open Lib List Option

abbrev Byte := BitVec 8

def bmpcBufsz : ℕ := 32 * 1024

/-- `struct bmap_pagecache_entry`, relative to the bmap. -/
structure Page where
  off : ℕ
  /-- `BMPCEF_DATARDY`: data loaded in memory -/
  datardy : Bool
  /-- `BMPCEF_FAULTING`: loading via RPC -/
  faulting : Bool
  /-- `BMPCEF_EIO`: I/O error -/
  eio : Bool
  /-- `BMPCEF_AIOWAIT`: wait on async read -/
  aiowait : Bool
  /-- `BMPCEF_PINNED`: do not modify -/
  pinned : Bool
  /-- `bmpce_start`: region where data are valid -/
  start : ℕ
  len : ℕ
  /-- `bmpce_base`: the buffer -/
  base : ℕ → Byte

def Page.fresh (off : ℕ) (stale : ℕ → Byte) : Page :=
  ⟨off, false, false, false, false, false, off, 0, stale⟩

/-- `memcpy` of `src` to position `d` of a buffer. -/
def memcpy (base : ℕ → Byte) (d : ℕ) (src : List Byte) : ℕ → Byte := fun p =>
  if InSpan d src.length p then src.getD (p - d) 0 else base p

/-- How many of the `tsize` bytes from `toff` are in the page. -/
def Page.nbytes (e : Page) (first : Bool) (toff tsize : ℕ) : ℕ :=
  if first ∧ toff > e.off then min (bmpcBufsz - (toff - e.off)) tsize else min bmpcBufsz tsize

/-- The loop body of `msl_pages_copyin`. -/
def Page.copyin (e : Page) (toff : ℕ) (src : List Byte) : Page :=
  let nbytes := src.length
  let base := memcpy e.base (toff - e.off) src
  if toff = e.off ∧ nbytes = bmpcBufsz then { e with base := base, datardy := true }
  else if e.len = 0 then { e with base := base, start := toff, len := nbytes }
  else if toff + nbytes ≥ e.start ∨ e.start + e.len ≥ toff then
    { e with
      base := base
      start := hullStart toff e.start
      len := hullLen toff nbytes e.start e.len }
  else { e with base := base }

/-- The loop of `msl_pages_copyin`; `none` if an assertion fails. -/
def copyinLoop : Bool → List Page → ℕ → ℕ → List Byte → Option (List Page)
  | _, [], _, tsize, _ => if tsize = 0 then some [] else none
  | first, e :: es, toff, tsize, src =>
    if tsize = 0 then none
    else
      let n := e.nbytes first toff tsize
      (copyinLoop false es (toff + n) (tsize - n) (src.drop n)).map (e.copyin toff (src.take n) :: ·)

/-- `struct bmpc_ioreq`: its start in the bmap, and length. -/
structure Biorq where
  off : ℕ
  len : ℕ

variable (r : Biorq)

def mslPagesCopyin (pages : List Page) (buf : List Byte) : Option (List Page) :=
  copyinLoop true pages r.off r.len buf

/-- The loop of `msl_biorq_page_valid` up to page `idx`; `none` is `psc_fatalx`. -/
def pageValidLoop : Bool → ℕ → List Page → ℕ → ℕ → Option Bool
  | _, _, [], _, _ => none
  | first, 0, e :: _, toff, tsize =>
    let n := e.nbytes first toff tsize
    some (e.datardy || (e.start ≤ toff && toff + n ≤ e.start + e.len))
  | first, idx + 1, e :: es, toff, tsize =>
    let n := e.nbytes first toff tsize
    pageValidLoop false idx es (toff + n) (tsize - n)

def mslBiorqPageValid (pages : List Page) (idx : ℕ) : Option Bool :=
  pageValidLoop true idx pages r.off r.len

/-- `len` bytes from position `pos` of page `page`. -/
structure Iov where
  page : ℕ
  pos : ℕ
  len : ℕ
  deriving DecidableEq

/-- The loop of `msl_pages_copyout`, at page `i`. -/
def copyoutLoop (valid : ℕ → Option Bool) : ℕ → List Page → ℕ → ℕ → Option (List Iov)
  | _, [], _, tsize => if tsize = 0 then some [] else none
  | i, e :: es, toff, tsize =>
    if tsize = 0 then some []
    else
      let n := e.nbytes (i = 0) toff tsize
      if valid i = some true then
        (copyoutLoop valid (i + 1) es (toff + n) (tsize - n)).map (⟨i, toff - e.off, n⟩ :: ·)
      else none

/-- `msl_pages_copyout`, with `rflen` bytes to the end of the file. -/
def mslPagesCopyout (rflen : ℕ) (pages : List Page) : Option (List Iov) :=
  let tsize := if r.off + r.len > rflen then rflen - r.off else r.len
  if tsize = 0 ∨ pages = [] then some []
  else copyoutLoop (mslBiorqPageValid r pages) 0 pages r.off tsize

/-! ### Completion of a read -/

/-- `_msl_bmpce_rpc_done`, with the `data` of a successful RPC. -/
def Page.rpcDone (e : Page) (rc : ℤ) (data : ℕ → Byte) : Page :=
  let e := if rc ≠ 0 then { e with eio := true } else { e with base := data, datardy := true }
  { e with aiowait := false, faulting := false, pinned := false }

/-- Position `p` of the page counts as usable. -/
def Page.Usable (e : Page) (p : ℕ) : Prop := e.datardy ∨ InSpan e.start e.len (e.off + p)
  deriving Decidable

structure Tracked where
  page : Page
  latest : ℕ → Option Byte

structure Chunk where
  pos : ℕ
  buf : List Byte
  ne : 0 < buf.length
  fits : pos + buf.length ≤ bmpcBufsz

inductive Op where
  | copyin (c : Chunk)
  | fill (rc : ℤ) (data : ℕ → Byte)

variable (s : Tracked)

def step : Op → Option Tracked
  | .copyin c => some
    { page := s.page.copyin (s.page.off + c.pos) c.buf
      latest := fun p =>
        if InSpan c.pos c.buf.length p then some (c.buf.getD (p - c.pos) 0) else s.latest p }
  | .fill rc data => some
    { page := s.page.rpcDone rc data
      latest := if rc = 0 then fun p => some (data p) else s.latest }

/-- What may be read of the page is what was put there last. -/
def UsableLatest : Prop :=
  ∀ p < bmpcBufsz, s.page.Usable p → s.latest p = some (s.page.base p)

/-- A copy touches the valid range, unless it needs none. -/
def Touching : Op → Prop
  | .copyin c => s.page.datardy ∨ c.buf.length = bmpcBufsz ∨ s.page.len = 0 ∨
      Touch (s.page.off + c.pos) c.buf.length s.page.start s.page.len
  | .fill _ _ => True

instance (op : Op) : Decidable (Touching s op) := by
  cases op <;> unfold Touching <;> infer_instance

/-- The page is ready, or valid in exactly the range that has been put there. -/
structure Exact (s : Tracked) : Prop where
  agree : ∀ p b, s.latest p = some b → s.page.base p = b
  ready : s.page.datardy → ∀ p < bmpcBufsz, s.latest p ≠ none
  range : s.page.datardy = false → ∀ p, s.latest p ≠ none ↔ InSpan s.page.start s.page.len (s.page.off + p)
  inside : s.page.len ≠ 0 → s.page.off ≤ s.page.start ∧ s.page.start + s.page.len ≤ s.page.off + bmpcBufsz

theorem Exact.usableLatest {s : Tracked} (h : Exact s) : UsableLatest s := by
  intro p hp hu
  have hne : s.latest p ≠ none := by
    cases hd : s.page.datardy with
    | true => exact h.ready hd p hp
    | false =>
      rcases hu with hu | hu
      · rw [hd] at hu
        cases hu
      · exact (h.range hd p).mpr hu
  obtain ⟨b, hb⟩ := ne_none_iff_exists'.mp hne
  rw [hb, h.agree p b hb]

theorem fresh_exact (off : ℕ) (stale : ℕ → Byte) : Exact ⟨Page.fresh off stale, fun _ => none⟩ where
  agree p b h := by cases h
  ready h := by cases h
  range _ p := by simp [Page.fresh, InSpan]
  inside h := absurd rfl h

/-! ### The copy-in -/

section Copyin

variable (e : Page) (c : Chunk)

@[simp] theorem copyin_off (toff : ℕ) (src : List Byte) : (e.copyin toff src).off = e.off := by
  simp only [Page.copyin]
  split_ifs <;> rfl

theorem copyin_base (p : ℕ) : (e.copyin (e.off + c.pos) c.buf).base p =
    if InSpan c.pos c.buf.length p then c.buf.getD (p - c.pos) 0 else e.base p := by
  have hb : (e.copyin (e.off + c.pos) c.buf).base = memcpy e.base c.pos c.buf := by
    simp only [Page.copyin, Nat.add_sub_cancel_left]
    split_ifs <;> rfl
  rw [hb, memcpy]

theorem full_iff : (e.off + c.pos = e.off ∧ c.buf.length = bmpcBufsz) ↔ c.buf.length = bmpcBufsz := by
  have := c.fits
  constructor
  · exact And.right
  · intro h
    exact ⟨by omega, h⟩

theorem copyin_datardy : (e.copyin (e.off + c.pos) c.buf).datardy = (e.datardy || c.buf.length = bmpcBufsz) := by
  simp only [Page.copyin, full_iff]
  split_ifs with h1 <;> simp [h1]

theorem copyin_range (hlen : c.buf.length ≠ bmpcBufsz) : (e.copyin (e.off + c.pos) c.buf).start =
        (if e.len = 0 then e.off + c.pos else hullStart (e.off + c.pos) e.start) ∧
      (e.copyin (e.off + c.pos) c.buf).len =
        (if e.len = 0 then c.buf.length else hullLen (e.off + c.pos) c.buf.length e.start e.len) := by
  simp only [Page.copyin, full_iff, if_neg hlen]
  split_ifs with h1 h2
  · exact ⟨rfl, rfl⟩
  · exact ⟨rfl, rfl⟩
  · omega

theorem copyin_range_full (hlen : c.buf.length = bmpcBufsz) :
    (e.copyin (e.off + c.pos) c.buf).start = e.start ∧ (e.copyin (e.off + c.pos) c.buf).len = e.len := by
  simp only [Page.copyin, full_iff, if_pos hlen, and_self]

theorem copyin_inSpan (hlen : c.buf.length ≠ bmpcBufsz)
    (ht : e.len = 0 ∨ Touch (e.off + c.pos) c.buf.length e.start e.len) (p : ℕ) :
    InSpan (e.copyin (e.off + c.pos) c.buf).start (e.copyin (e.off + c.pos) c.buf).len p ↔
      InSpan (e.off + c.pos) c.buf.length p ∨ InSpan e.start e.len p := by
  obtain ⟨hs, hl⟩ := copyin_range e c hlen
  rw [hs, hl]
  split_ifs with h0
  · unfold InSpan
    omega
  · exact inSpan_hull (ht.resolve_left h0) p

theorem inSpan_add (a s n p : ℕ) : InSpan (a + s) n (a + p) ↔ InSpan s n p := by
  unfold InSpan
  omega

end Copyin

section Step

variable {s} {t : Tracked}

theorem copyin_exact (h : Exact s) {c : Chunk} (ht : Touching s (.copyin c)) (hst : step s (.copyin c) = some t) :
    Exact t := by
  cases hst
  have hfits := c.fits
  refine ⟨?_, ?_, ?_, ?_⟩
  · intro p b hb
    rw [copyin_base]
    change (if _ then _ else _) = some b at hb
    split_ifs at hb ⊢ with hin
    · exact some.inj hb
    · exact h.agree p b hb
  · intro hd p hp
    change (if InSpan c.pos c.buf.length p then _ else _) ≠ none
    split_ifs with hin
    · exact some_ne_none _
    -- outside the write, so the page was ready before: a full write leaves nothing outside
    rw [copyin_datardy] at hd
    rcases Bool.or_eq_true_iff.mp hd with hd | hd
    · exact h.ready hd p hp
    · have hfull : c.buf.length = bmpcBufsz := of_decide_eq_true hd
      exact absurd ⟨by omega, by omega⟩ hin
  · intro hd p
    change (if InSpan c.pos c.buf.length p then _ else _) ≠ none ↔
      InSpan (s.page.copyin (s.page.off + c.pos) c.buf).start (s.page.copyin (s.page.off + c.pos) c.buf).len
        ((s.page.copyin (s.page.off + c.pos) c.buf).off + p)
    rw [copyin_datardy] at hd
    obtain ⟨hd0, hlen⟩ := Bool.or_eq_false_iff.mp hd
    have hlen : c.buf.length ≠ bmpcBufsz := of_decide_eq_false hlen
    have ht' : s.page.len = 0 ∨ Touch (s.page.off + c.pos) c.buf.length s.page.start s.page.len := by
      rcases ht with h1 | h1 | h1 | h1
      · rw [hd0] at h1
        cases h1
      · exact absurd h1 hlen
      · exact .inl h1
      · exact .inr h1
    rw [copyin_off, copyin_inSpan s.page c hlen ht', inSpan_add]
    split_ifs with hin
    · exact ⟨fun _ => .inl hin, fun _ => some_ne_none _⟩
    · rw [h.range hd0 p]
      exact ⟨.inr, fun hor => hor.resolve_left hin⟩
  · intro hne
    rw [copyin_off]
    by_cases hlen : c.buf.length = bmpcBufsz
    · obtain ⟨h1, h2⟩ := copyin_range_full s.page c hlen
      rw [h2] at hne
      rw [h1, h2]
      exact h.inside hne
    obtain ⟨h1, h2⟩ := copyin_range s.page c hlen
    rw [h1, h2]
    by_cases h0 : s.page.len = 0
    · rw [if_pos h0, if_pos h0]
      omega
    obtain ⟨hlo, hhi⟩ := h.inside h0
    rw [if_neg h0, if_neg h0, hullStart_add_hullLen]
    refine ⟨?_, by omega⟩
    unfold hullStart
    split_ifs <;> omega

theorem fill_exact (h : Exact s) {rc : ℤ} {data : ℕ → Byte} (hst : step s (.fill rc data) = some t) : Exact t := by
  cases hst
  by_cases hrc : rc = 0
  · subst hrc
    refine ⟨fun p b hb => some.inj hb, fun _ p _ => some_ne_none _, ?_, h.inside⟩
    intro hd
    cases hd
  · simp only [Page.rpcDone, ne_eq, hrc, not_false_eq_true, if_true]
    exact ⟨h.agree, h.ready, h.range, h.inside⟩

theorem step_exact {op : Op} (h : Exact s) (ht : Touching s op) (hst : step s op = some t) : Exact t := by
  cases op with
  | copyin => exact copyin_exact h ht hst
  | fill => exact fill_exact h hst

theorem gap_not_usableLatest {op : Op} (h : Exact s) (ht : ¬ Touching s op) :
    ∃ t, step s op = some t ∧ ¬ UsableLatest t := by
  cases op with
  | fill rc data => exact absurd trivial ht
  | copyin c =>
    refine ⟨_, rfl, fun hul => ?_⟩
    have hd : s.page.datardy = false := by
      by_contra hd
      exact ht (.inl (Bool.not_eq_false _ ▸ hd))
    have hlen : c.buf.length ≠ bmpcBufsz := fun hlen => ht (.inr (.inl hlen))
    have h0 : s.page.len ≠ 0 := fun h0 => ht (.inr (.inr (.inl h0)))
    have htouch : ¬ Touch (s.page.off + c.pos) c.buf.length s.page.start s.page.len :=
      fun htouch => ht (.inr (.inr (.inr htouch)))
    obtain ⟨q, hq, hnw, hnr⟩ := exists_gap c.ne (Nat.pos_of_ne_zero h0) htouch
    obtain ⟨hs, hl⟩ := copyin_range s.page c hlen
    rw [if_neg h0] at hs hl
    obtain ⟨hlo, hhi⟩ := h.inside h0
    have hfits := c.fits
    -- the position of the gap is inside the page
    have hqlo : s.page.off ≤ q := by
      have := hq.1
      unfold hullStart at this
      split_ifs at this <;> omega
    have hqhi : q < s.page.off + bmpcBufsz := by
      have := hq.2
      rw [hullStart_add_hullLen] at this
      omega
    obtain ⟨p, rfl⟩ := Nat.exists_eq_add_of_le hqlo
    rw [inSpan_add] at hnw
    have husable : (s.page.copyin (s.page.off + c.pos) c.buf).Usable p := by
      refine .inr ?_
      rw [copyin_off, hs, hl]
      exact hq
    have hlatest := hul p (by omega) husable
    change (if InSpan c.pos c.buf.length p then _ else _) = _ at hlatest
    rw [if_neg hnw] at hlatest
    exact hnr ((h.range hd p).mp (by rw [hlatest]; exact some_ne_none _))

end Step

/-! ### Requests over several pages -/

/-- Consecutive pages, from that of the first byte on. -/
def Laid : List Page → Prop
  | [] => True
  | e :: es => e.off ≤ r.off ∧ r.off < e.off + bmpcBufsz ∧
      List.IsChain (fun a b => b.off = a.off + bmpcBufsz) (e :: es)

def Enters (first : Bool) (e : Page) (toff : ℕ) : Prop :=
  e.off ≤ toff ∧ toff < e.off + bmpcBufsz ∧ (first = false → toff = e.off)

theorem nbytes_eq {first : Bool} {e : Page} {toff : ℕ} (h : Enters first e toff) (tsize : ℕ) :
    e.nbytes first toff tsize = min (e.off + bmpcBufsz - toff) tsize := by
  obtain ⟨h1, h2, h3⟩ := h
  unfold Page.nbytes
  cases first with
  | false =>
    have := h3 rfl
    simp only [Bool.false_eq_true, false_and, if_false]
    omega
  | true =>
    simp only [true_and]
    split_ifs <;> omega

theorem enters_next {first : Bool} {e e' : Page} {toff tsize : ℕ} (h : Enters first e toff)
    (hnext : e'.off = e.off + bmpcBufsz) (hmore : tsize - e.nbytes first toff tsize ≠ 0) :
    Enters false e' (toff + e.nbytes first toff tsize) := by
  have hn := nbytes_eq h tsize
  obtain ⟨h1, h2, -⟩ := h
  refine ⟨?_, ?_, fun _ => ?_⟩ <;> omega

theorem copyoutLoop_usable {valid : ℕ → Option Bool} : ∀ (es : List Page) (i toff tsize size : ℕ)
    {out : List Iov}, (∀ e es', es = e :: es' → Enters (i = 0) e toff) →
    List.IsChain (fun a b => b.off = a.off + bmpcBufsz) es → tsize ≤ size →
    (∀ j, valid (i + j) = pageValidLoop (i = 0) j es toff size) → copyoutLoop valid i es toff tsize = some out →
    ∀ v ∈ out, ∃ j e, v.page = i + j ∧ es[j]? = some e ∧ ∀ p, InSpan v.pos v.len p → p < bmpcBufsz ∧ e.Usable p
  | [], i, toff, tsize, size, out, _, _, _, _, h => by
    simp only [copyoutLoop] at h
    split_ifs at h
    cases h
    simp
  | e :: es, i, toff, tsize, size, out, hent, hch, hle, hval, h => by
    have he := hent e es rfl
    simp only [copyoutLoop] at h
    split_ifs at h with h0 hv
    · cases h
      simp
    obtain ⟨rest, hrest, rfl⟩ := map_eq_some_iff.mp h
    have hn := nbytes_eq he tsize
    have hn' := nbytes_eq he size
    have hlo := he.1
    -- the bytes taken from this page are among those the validity test looked at
    have husable : ∀ p, InSpan (toff - e.off) (e.nbytes (i = 0) toff tsize) p → p < bmpcBufsz ∧ e.Usable p := by
      rintro p ⟨hp1, hp2⟩
      refine ⟨by omega, ?_⟩
      have hv0 := hval 0
      rw [Nat.add_zero, hv] at hv0
      simp only [pageValidLoop, some.injEq] at hv0
      rcases Bool.or_eq_true_iff.mp hv0.symm with hd | hr
      · exact .inl hd
      · simp only [Bool.and_eq_true, decide_eq_true_eq] at hr
        refine .inr ⟨?_, ?_⟩ <;> omega
    intro v hvm
    rcases mem_cons.mp hvm with rfl | hvm
    · exact ⟨0, e, rfl, rfl, husable⟩
    by_cases hmore : tsize - e.nbytes (i = 0) toff tsize = 0
    · -- nothing is left for the later pages
      rw [hmore] at hrest
      have hnil : rest = [] := by
        cases es with
        | nil => simpa [copyoutLoop] using hrest.symm
        | cons e' es' => simpa [copyoutLoop] using hrest.symm
      rw [hnil] at hvm
      exact absurd hvm not_mem_nil
    · have hsame : e.nbytes (i = 0) toff size = e.nbytes (i = 0) toff tsize := by omega
      have hent' : ∀ e' es', es = e' :: es' → Enters (i + 1 = 0) e' (toff + e.nbytes (i = 0) toff tsize) := by
        intro e' es' hes
        rw [hes] at hch
        have := enters_next he (isChain_cons_cons.mp hch).1 hmore
        exact this
      have hval' : ∀ j, valid (i + 1 + j) = pageValidLoop (i + 1 = 0) j es
          (toff + e.nbytes (i = 0) toff tsize) (size - e.nbytes (i = 0) toff tsize) := by
        intro j
        have := hval (j + 1)
        simp only [pageValidLoop, hsame] at this
        rw [show i + 1 + j = i + (j + 1) by omega, this]
        simp
      obtain ⟨j, e', hj, hget, hu⟩ := copyoutLoop_usable es (i + 1) _ _ _ hent' hch.tail (by omega)
        hval' hrest v hvm
      exact ⟨j + 1, e', by omega, by simpa using hget, hu⟩

theorem mslPagesCopyout_usable {r : Biorq} {rflen : ℕ} {pages : List Page} {out : List Iov}
    (hl : Laid r pages) (h : mslPagesCopyout r rflen pages = some out) :
    ∀ v ∈ out, ∃ e, pages[v.page]? = some e ∧ ∀ p, InSpan v.pos v.len p → p < bmpcBufsz ∧ e.Usable p := by
  unfold mslPagesCopyout at h
  set tsize := if r.off + r.len > rflen then rflen - r.off else r.len with ht
  have hle : tsize ≤ r.len := by
    rw [ht]
    split_ifs <;> omega
  simp only at h
  split_ifs at h with h0
  · cases h
    simp
  obtain ⟨e, es, rfl⟩ : ∃ e es, pages = e :: es := exists_cons_of_ne_nil fun hn => h0 (.inr hn)
  obtain ⟨hlo, hhi, hch⟩ := hl
  have hent : ∀ a as, e :: es = a :: as → Enters (decide (0 = 0)) a r.off := by
    intro a as ha
    obtain ⟨rfl, -⟩ := cons.inj ha
    exact ⟨hlo, hhi, fun hf => by simp at hf⟩
  intro v hv
  obtain ⟨j, e', hj, hget, hu⟩ := copyoutLoop_usable (e :: es) 0 _ _ r.len hent hch hle
    (fun j => by simp [mslBiorqPageValid]) h v hv
  refine ⟨e', ?_, hu⟩
  rw [hj, Nat.zero_add]
  exact hget

def unused (off : ℕ) (stale : ℕ → Byte) : Tracked := ⟨Page.fresh off stale, fun _ => none⟩

/-- Reached by copies that touch. -/
def Gapless : Prop :=
  ∃ off stale ops, Admits step Touching (unused off stale) ops ∧ run step (unused off stale) ops = some s

/-- **Every usable byte is the latest one**, exactly if no copy-in leaves a gap. -/
theorem usable_latest_iff (off : ℕ) (stale : ℕ → Byte) (ops : List Op) (r : Biorq) (rflen : ℕ) :
    ((∀ done rest t, ops = done ++ rest → run step (unused off stale) done = some t →
        UsableLatest t) ↔ Admits step Touching (unused off stale) ops) ∧
    ∀ (ss : List Tracked) (out : List Iov), (∀ s ∈ ss, Gapless s) →
      Laid r (ss.map (·.page)) → mslPagesCopyout r rflen (ss.map (·.page)) = some out →
      ∀ v ∈ out, ∃ s, ss[v.page]? = some s ∧ ∀ p, InSpan v.pos v.len p → s.latest p = some (s.page.base p) := by
  constructor
  · exact forall_run_iff_admits Exact.usableLatest step_exact gap_not_usableLatest ops (fresh_exact off stale)
  · intro ss out hss hl hout v hv
    obtain ⟨e, hget, hu⟩ := mslPagesCopyout_usable hl hout v hv
    rw [getElem?_map] at hget
    obtain ⟨s, hs, rfl⟩ := map_eq_some_iff.mp hget
    refine ⟨s, hs, fun p hp => ?_⟩
    obtain ⟨off, stale, ops, had, hrun⟩ := hss s (mem_of_getElem? hs)
    have hex : Exact s := run_invariant step_exact (fresh_exact off stale) had hrun
    exact hex.usableLatest p (hu p hp).1 (hu p hp).2

/-- `n` bytes `b` at position `pos`. -/
def fillWith (b : Byte) (pos n : ℕ) (ne : 0 < n) (fits : pos + n ≤ bmpcBufsz) : Chunk :=
  ⟨pos, replicate n b, by simpa using ne, by simpa using fits⟩

/-- Two adjoining writes, and a read of both. -/
theorem usable_latest_adjoining :
    let s₀ := unused 0 fun _ => 0xee
    let ops := [Op.copyin (fillWith 1 0 4 (by decide) (by decide)),
      Op.copyin (fillWith 2 4 4 (by decide) (by decide))]
    ∃ s ∈ run step s₀ ops, UsableLatest s ∧ mslPagesCopyout ⟨0, 8⟩ 8 [s.page] = some [⟨0, 0, 8⟩] ∧
      ∀ p < 8, s.latest p = some (s.page.base p) := by
  intro s₀ ops
  have had : Admits step Touching s₀ ops := by decide
  have hrun : ∃ s ∈ run step s₀ ops, mslPagesCopyout ⟨0, 8⟩ 8 [s.page] = some [⟨0, 0, 8⟩] ∧
      s.page.off = 0 := by decide
  obtain ⟨s, hs, hout, hoff⟩ := hrun
  have hl : Laid ⟨0, 8⟩ [s.page] := ⟨by omega, by rw [hoff]; decide, by simp⟩
  obtain ⟨hiff, hread⟩ := usable_latest_iff 0 (fun _ => 0xee) ops ⟨0, 8⟩ 8
  refine ⟨s, hs, hiff.mpr had ops [] s (by simp) hs, hout, fun p hp => ?_⟩
  obtain ⟨s', hs', hlatest⟩ := hread [s] _ (by simpa using ⟨0, _, ops, had, hs⟩) hl hout _ (mem_singleton.mpr rfl)
  cases hs'
  exact hlatest p ⟨Nat.zero_le p, by omega⟩

/-- Two writes with a gap between, which is read. -/
theorem gap_usable : ∃ s ∈ run step (unused 0 fun _ => 0xee)
        [.copyin (fillWith 1 0 4 (by decide) (by decide)), .copyin (fillWith 2 8 4 (by decide) (by decide))],
      mslPagesCopyout ⟨0, 12⟩ 12 [s.page] = some [⟨0, 0, 12⟩] ∧ s.page.Usable 5 ∧
        s.latest 5 = none ∧ s.page.base 5 = 0xee := by
  decide

end Slash2.Client
