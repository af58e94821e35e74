/-
# CRC updates

When a sliver was written, a worker computes its CRC under the sliver's lock and then, under the
lock of the bmap, puts it into the bmap's current update record (`bii_bcr`), in place of an
earlier one. The update thread goes through the records, takes one of each bmap of which none is
in flight, and sends them to the MDS; a record of a failed RPC is taken again.

Key theorem: `crcs_in_order`.
-/
import Slash2.Lib.Carry
import Slash2.Lib.Run
import Mathlib.Data.List.Nodup

namespace Slash2.Bcr

open Lib List Function

/-! ### Records -/

def maxBmapInodePairs : ℕ := 24

def maxBmapNcrcUpdates : ℕ := 64

def maxInflBcrcupd : ℕ := 128

def bcrBatchAge : ℕ := 12

structure Crc where
  bmap : ℕ
  slot : ℕ
  crc : ℕ
  deriving DecidableEq

/-- `struct bcrcupd`: the bmap, its CRCs (`nups`) and `bcr_age`. -/
structure Bcrcupd where
  bmap : ℕ
  crcs : List (ℕ × ℕ)
  age : ℕ

variable (r : Bcrcupd)

def Bcrcupd.content : List Crc := r.crcs.map fun e => ⟨r.bmap, e.1, e.2⟩

def setCrc : List (ℕ × ℕ) → ℕ → ℕ → List (ℕ × ℕ)
  | [], n, c => [(n, c)]
  | (m, d) :: l, n, c => if m = n then (m, c) :: l else (m, d) :: setCrc l n c

def Bcrcupd.put (n c : ℕ) : Bcrcupd := { r with crcs := setCrc r.crcs n c }

structure Pending where
  worker : ℕ
  crc : Crc
  deriving DecidableEq

inductive Upd where
  | idle
  | scan (rest : List ℕ) (now : ℕ)
  | send
  | revert
  deriving DecidableEq

/-- The update thread has the lock of `bcr_ready`. -/
def Upd.scanning : Upd → Bool
  | scan .. => true
  | _ => false

structure Iod where
  bcr : ℕ → Bcrcupd
  next : ℕ
  /-- `bii_bcr` -/
  bii : ℕ → Option ℕ
  /-- `BMAPF_CRUD_INFLIGHT` -/
  infl : ℕ → Bool
  ready : List ℕ
  upd : Upd
  /-- `bcrs` of the update thread -/
  picked : List ℕ
  fly : List (ℕ × ℕ)
  rpcs : ℕ
  status : ℕ → Option Bool
  /-- `sli_ninfl_bcrcupd` -/
  ninfl : ℕ
  pend : List Pending
  now : ℕ
  computed : List Crc
  delivered : List Crc
  failed : Bool

def Iod.init : Iod where
  bcr _ := ⟨0, [], 0⟩
  next := 0
  bii _ := none
  infl _ := false
  ready := []
  upd := .idle
  picked := []
  fly := []
  rpcs := 0
  status _ := none
  ninfl := 0
  pend := []
  now := 0
  computed := []
  delivered := []
  failed := false

variable (s : Iod)

/-- `slislvrthr_proc`, the sliver locked: `slvr_do_crc`. -/
def compute (w : ℕ) (c : Crc) : Option Iod :=
  if s.pend.any (·.worker = w) then none
  else some { s with computed := s.computed ++ [c], pend := s.pend ++ [⟨w, c⟩] }

def newBcr (p : Pending) : Iod :=
  { s with
    bcr := update s.bcr s.next ⟨p.crc.bmap, [(p.crc.slot, p.crc.crc)], s.now⟩
    next := s.next + 1
    bii := update s.bii p.crc.bmap (some s.next)
    ready := s.ready ++ [s.next]
    pend := s.pend.erase p }

/-- `slislvrthr_proc`, the bmap locked: the CRC is recorded. -/
def record (p : Pending) : Option Iod :=
  match s.bii p.crc.bmap with
  | some k =>
    if (s.bcr k).crcs.length < maxBmapInodePairs then
      let r := (s.bcr k).put p.crc.slot p.crc.crc
      some { s with
        bcr := update s.bcr k r
        bii := if r.crcs.length = maxBmapInodePairs then update s.bii p.crc.bmap none else s.bii
        pend := s.pend.erase p }
    else some { s with failed := true }
  | none => if s.upd.scanning then none else some (newBcr s p)

/-! ### The update thread -/

def due (now : ℕ) : Bool :=
  r.crcs.length = maxBmapInodePairs || now - r.age ≥ bcrBatchAge

def pick (k : ℕ) : Iod :=
  { s with
    picked := s.picked ++ [k]
    bii := update s.bii (s.bcr k).bmap none
    infl := update s.infl (s.bcr k).bmap true }

/-- `slicrudthr_main` at a record; `lock` is `BII_TRYLOCK`. -/
def scanNext (k : ℕ) (rest : List ℕ) (now : ℕ) (lock : Bool) : Iod :=
  if (s.bcr k).crcs = [] then { s with failed := true }
  else if lock = false ∨ s.infl (s.bcr k).bmap = true then { s with upd := .scan rest now }
  else
    let t := if due (s.bcr k) now then pick s k else s
    { t with upd := if t.picked.length = maxBmapNcrcUpdates then .send else .scan rest now }

/-- `slvr_worker_crcup_genrq` -/
def genrq (ok : Bool) : Iod :=
  if ok then
    { s with
      upd := .idle
      picked := []
      fly := s.fly ++ s.picked.map fun k => (s.rpcs, k)
      rpcs := s.rpcs + 1
      ninfl := s.ninfl + 1 }
  else { s with upd := .revert }

def revert : Iod :=
  match s.picked with
  | [] => { s with upd := .idle }
  | k :: l => { s with picked := l, infl := update s.infl (s.bcr k).bmap false }

def land (j k : ℕ) : Iod :=
  { s with
    infl := update s.infl (s.bcr k).bmap false
    fly := s.fly.erase (j, k)
    ninfl := if (s.fly.erase (j, k)).any (·.1 = j) then s.ninfl else s.ninfl - 1 }

/-- `bcr_ready_remove` of a record that was delivered. -/
def bcrReadyRemove (k : ℕ) : Iod :=
  { s with ready := s.ready.erase k, delivered := s.delivered ++ (s.bcr k).content }

/-- `sli_rmi_bcrcupd_cb` at a record. -/
def bcrcupdCb (j k : ℕ) (ok : Bool) : Option Iod :=
  if s.infl (s.bcr k).bmap = false then some { s with failed := true }
  else if ok = false then some (land s j k)
  else if s.upd.scanning then none
  else some (bcrReadyRemove (land s j k) k)

inductive Label where
  | compute (w : ℕ) (c : Crc)
  | record (w : ℕ)
  | tick
  | scanStart
  | scanNext (lock : Bool)
  | scanEnd
  | genrq (ok : Bool)
  | revert
  | reply (j : ℕ) (ok : Bool)
  | callback (j : ℕ)

def step (l : Label) : Option Iod :=
  if s.failed then none
  else
    match l with
    | .compute w c => compute s w c
    | .record w =>
      match s.pend.find? (·.worker = w) with
      | none => none
      | some p => record s p
    | .tick => some { s with now := s.now + 1 }
    | .scanStart =>
      if s.upd = .idle ∧ s.ninfl ≤ maxInflBcrcupd then some { s with upd := .scan s.ready s.now } else none
    | .scanNext lock =>
      match s.upd with
      | .scan (k :: rest) now => some (scanNext s k rest now lock)
      | _ => none
    | .scanEnd =>
      match s.upd with
      | .scan [] _ => some { s with upd := if s.picked = [] then .idle else .send }
      | _ => none
    | .genrq ok => if s.upd = .send then some (genrq s ok) else none
    | .revert => if s.upd = .revert then some (revert s) else none
    | .reply j ok =>
      if j < s.rpcs ∧ s.status j = none then
        some { s with status := update s.status j (some ok) }
      else none
    | .callback j =>
      match s.status j, s.fly.find? (·.1 = j) with
      | some ok, some e => bcrcupdCb s e.1 e.2 ok
      | _, _ => none

def crcsOf (b n : ℕ) (l : List Crc) : List ℕ := (l.filter fun c => c.bmap = b ∧ c.slot = n).map Crc.crc

/-- No CRC is pending, no update ready. -/
def Quiet : Prop := s.pend = [] ∧ s.ready = []

def picks (lock : Bool) : Option ℕ :=
  match s.upd with
  | .scan (k :: _) now =>
    if lock ∧ s.infl (s.bcr k).bmap = false ∧ due (s.bcr k) now then some k else none
  | _ => none

/-- CRCs of a sliver are recorded, and records of a bmap taken, in order. -/
def Clean : Label → Prop
  | .record w => ∀ p ∈ s.pend.find? (·.worker = w),
      s.pend.find? (fun q => q.crc.bmap = p.crc.bmap ∧ q.crc.slot = p.crc.slot) = some p
  | .scanNext lock => ∀ k ∈ picks s lock, ∀ j ∈ s.ready, (s.bcr j).bmap = (s.bcr k).bmap → k ≤ j
  | _ => True

instance (l : Label) : Decidable (Clean s l) := by
  cases l <;> unfold Clean <;> infer_instance

/-! ### CRCs of one sliver -/

@[simp] theorem crcsOf_nil (b n : ℕ) : crcsOf b n [] = [] := rfl

@[simp] theorem crcsOf_append (b n : ℕ) (l m : List Crc) : crcsOf b n (l ++ m) = crcsOf b n l ++ crcsOf b n m := by
  simp [crcsOf]

@[simp] theorem crcsOf_cons_self (c : Crc) (l : List Crc) :
    crcsOf c.bmap c.slot (c :: l) = c.crc :: crcsOf c.bmap c.slot l := by
  simp [crcsOf]

theorem crcsOf_cons_of_ne {b n : ℕ} {c : Crc} (h : ¬ (c.bmap = b ∧ c.slot = n)) (l : List Crc) :
    crcsOf b n (c :: l) = crcsOf b n l := by
  simp [crcsOf, h]

theorem crcsOf_eq_nil {b n : ℕ} {l : List Crc} (h : ∀ c ∈ l, ¬ (c.bmap = b ∧ c.slot = n)) : crcsOf b n l = [] := by
  rw [crcsOf, filter_eq_nil_iff.mpr (by simpa using h), map_nil]

def slotCrcs (n : ℕ) (l : List (ℕ × ℕ)) : List ℕ := (l.filter fun e => e.1 = n).map Prod.snd

theorem crcsOf_content (n : ℕ) : crcsOf r.bmap n r.content = slotCrcs n r.crcs := by
  simp [crcsOf, Bcrcupd.content, slotCrcs, filter_map, comp_def]

theorem crcsOf_content_of_ne {r : Bcrcupd} {b : ℕ} (h : r.bmap ≠ b) (n : ℕ) : crcsOf b n r.content = [] := by
  refine crcsOf_eq_nil fun c hc => ?_
  obtain ⟨e, -, rfl⟩ := mem_map.mp hc
  exact fun he => h he.1

theorem crcsOf_put (n c m : ℕ) : crcsOf r.bmap m (r.put n c).content = slotCrcs m (setCrc r.crcs n c) :=
  crcsOf_content (r.put n c) m

section SetCrc

variable (n c : ℕ)

theorem slotCrcs_setCrc_of_ne {m : ℕ} (h : m ≠ n) (l : List (ℕ × ℕ)) : slotCrcs m (setCrc l n c) = slotCrcs m l := by
  induction l with
  | nil => simp [setCrc, slotCrcs, h.symm]
  | cons e l ih =>
    obtain ⟨k, d⟩ := e
    by_cases hk : k = n
    · simp [setCrc, hk, slotCrcs, h.symm]
    by_cases hkm : k = m
    · subst hkm
      simpa [setCrc, hk, slotCrcs] using ih
    · simpa [setCrc, hk, slotCrcs, hkm] using ih

variable {l : List (ℕ × ℕ)}

theorem slotCrcs_eq_nil (h : n ∉ l.map Prod.fst) : slotCrcs n l = [] := by
  rw [slotCrcs, filter_eq_nil_iff.mpr, map_nil]
  intro e he hen
  exact h (mem_map.mpr ⟨e, he, by simpa using hen⟩)

theorem slotCrcs_setCrc (h : (l.map Prod.fst).Nodup) :
    slotCrcs n (setCrc l n c) = [c] ∧ (slotCrcs n l = [] ∨ ∃ y, slotCrcs n l = [y]) := by
  induction l with
  | nil => simp [setCrc, slotCrcs]
  | cons e l ih =>
    obtain ⟨k, d⟩ := e
    rw [map_cons, nodup_cons] at h
    by_cases hk : k = n
    · subst hk
      have hnil := slotCrcs_eq_nil k h.1
      refine ⟨?_, .inr ⟨d, ?_⟩⟩
      · simpa [setCrc, slotCrcs] using hnil
      · simpa [slotCrcs] using hnil
    · simpa [setCrc, hk, slotCrcs] using ih h.2

theorem map_fst_setCrc (l : List (ℕ × ℕ)) :
    (setCrc l n c).map Prod.fst = if n ∈ l.map Prod.fst then l.map Prod.fst else l.map Prod.fst ++ [n] := by
  induction l with
  | nil => simp [setCrc]
  | cons e l ih =>
    obtain ⟨k, d⟩ := e
    by_cases hk : k = n
    · simp [setCrc, hk]
    have hkn : ¬ n = k := fun h => hk h.symm
    split_ifs at ih with hmem
    · rw [map_cons, if_pos (mem_cons_of_mem _ hmem)]
      simp [setCrc, hk, ih]
    · rw [if_neg (by simpa [hkn] using hmem)]
      simp [setCrc, hk, ih]

theorem nodup_setCrc (h : (l.map Prod.fst).Nodup) : ((setCrc l n c).map Prod.fst).Nodup := by
  rw [map_fst_setCrc]
  split_ifs with hn
  · exact h
  exact nodup_append.mpr ⟨h, by simp, fun a ha b hb => by
    rw [mem_singleton.mp hb]
    exact fun he => hn (he ▸ ha)⟩

theorem length_setCrc_le (l : List (ℕ × ℕ)) : (setCrc l n c).length ≤ l.length + 1 := by
  have hlen := congrArg length (map_fst_setCrc n c l)
  rw [length_map] at hlen
  rw [hlen]
  split <;> simp

theorem setCrc_ne_nil (l : List (ℕ × ℕ)) : setCrc l n c ≠ [] := by
  cases l with
  | nil => simp [setCrc]
  | cons =>
    rw [setCrc]
    split <;> simp

end SetCrc

/-! ### Records on the list -/

def queued (bcr : ℕ → Bcrcupd) (l : List ℕ) : List Crc := l.flatMap fun k => (bcr k).content

section Queued

variable {bcr bcr' : ℕ → Bcrcupd} {b n k : ℕ} {l m : List ℕ}

@[simp] theorem queued_append : queued bcr (l ++ m) = queued bcr l ++ queued bcr m := by
  simp [queued]

@[simp] theorem queued_cons : queued bcr (k :: l) = (bcr k).content ++ queued bcr l := by
  simp [queued]

@[simp] theorem queued_nil : queued bcr [] = [] := rfl

theorem queued_congr (h : ∀ j ∈ l, bcr' j = bcr j) : queued bcr' l = queued bcr l := by
  induction l with
  | nil => rfl
  | cons k l ih =>
    rw [queued_cons, queued_cons, h k mem_cons_self, ih fun j hj => h j (mem_cons_of_mem _ hj)]

theorem crcsOf_queued_eq_nil (h : ∀ j ∈ l, (bcr j).bmap ≠ b) : crcsOf b n (queued bcr l) = [] := by
  induction l with
  | nil => rfl
  | cons k l ih =>
    rw [queued_cons, crcsOf_append, crcsOf_content_of_ne (h k mem_cons_self),
      ih fun j hj => h j (mem_cons_of_mem _ hj), nil_append]

theorem split_at (hs : l.Pairwise (· < ·)) (hk : k ∈ l) :
    ∃ l₁ l₂, l = l₁ ++ k :: l₂ ∧ l.erase k = l₁ ++ l₂ ∧ (∀ j ∈ l₁, j < k) ∧ ∀ j ∈ l₂, k < j := by
  obtain ⟨l₁, l₂, rfl⟩ := append_of_mem hk
  obtain ⟨-, h2, h3⟩ := pairwise_append.mp hs
  have hlt : ∀ j ∈ l₁, j < k := fun j hj => h3 j hj k mem_cons_self
  refine ⟨l₁, l₂, rfl, ?_, hlt, (pairwise_cons.mp h2).1⟩
  have hnot : k ∉ l₁ := fun hmem => Nat.lt_irrefl k (hlt k hmem)
  rw [erase_append_right _ hnot, erase_cons_head]

end Queued

def flying : List ℕ := s.picked ++ s.fly.map Prod.snd

structure Inv (s : Iod) : Prop where
  ok : s.failed = false
  sorted : s.ready.Pairwise (· < ·)
  fresh : ∀ k ∈ s.ready, k < s.next
  crcs : ∀ k ∈ s.ready, (s.bcr k).crcs ≠ [] ∧ ((s.bcr k).crcs.map Prod.fst).Nodup
  /-- `bii_bcr` is the newest record of its bmap, and has room -/
  bii : ∀ b k, s.bii b = some k → k ∈ s.ready ∧ (s.bcr k).bmap = b ∧
    (s.bcr k).crcs.length < maxBmapInodePairs ∧ k ∉ flying s ∧ ∀ j ∈ s.ready, (s.bcr j).bmap = b → j ≤ k
  flies : ∀ k ∈ flying s, k ∈ s.ready ∧ s.infl (s.bcr k).bmap ∧
    ∀ j ∈ s.ready, (s.bcr j).bmap = (s.bcr k).bmap → k ≤ j
  nodup : (flying s).Nodup
  scan : ∀ rest now, s.upd = .scan rest now → ∀ k ∈ rest, k ∈ s.ready
  carried : ∀ b n, Carried (crcsOf b n s.computed)
    (crcsOf b n (s.delivered ++ queued s.bcr s.ready ++ s.pend.map Pending.crc))

theorem inv_init : Inv Iod.init where
  ok := rfl
  sorted := List.Pairwise.nil
  fresh := by simp [Iod.init]
  crcs := by simp [Iod.init]
  bii := by simp [Iod.init]
  flies := by simp [Iod.init, flying]
  nodup := by simp [Iod.init, flying]
  scan := by simp [Iod.init]
  carried _ _ := Carried.nil

section Steps

variable {s} {t : Iod}

theorem compute_inv (hs : Inv s) {w : ℕ} {c : Crc} (h : compute s w c = some t) : Inv t := by
  unfold compute at h
  split at h <;> cases h
  refine { hs with carried := fun b n => ?_ }
  have hc := hs.carried b n
  by_cases hbn : c.bmap = b ∧ c.slot = n
  · obtain ⟨rfl, rfl⟩ := hbn
    simpa [← append_assoc] using hc.snoc c.crc
  · simpa [crcsOf_cons_of_ne hbn] using hc

variable {p : Pending}

theorem pend_split {l : List Pending}
    (h : l.find? (fun q => q.crc.bmap = p.crc.bmap ∧ q.crc.slot = p.crc.slot) = some p) :
    ∃ l₁ l₂, l = l₁ ++ p :: l₂ ∧ l.erase p = l₁ ++ l₂ ∧ crcsOf p.crc.bmap p.crc.slot (l₁.map Pending.crc) = [] := by
  obtain ⟨-, l₁, l₂, rfl, hno⟩ := find?_eq_some_iff_append.mp h
  have hnot : p ∉ l₁ := fun hp => by simpa using hno p hp
  refine ⟨l₁, l₂, rfl, ?_, crcsOf_eq_nil fun c hc => ?_⟩
  · rw [erase_append_right _ hnot, erase_cons_head]
  · obtain ⟨q, hq, rfl⟩ := mem_map.mp hc
    have := hno q hq
    simp only [Bool.not_eq_true', decide_eq_false_iff_not] at this
    exact this

variable {k : ℕ}

theorem record_carried (hs : Inv s) (hk : s.bii p.crc.bmap = some k)
    (hfirst : s.pend.find? (fun q => q.crc.bmap = p.crc.bmap ∧ q.crc.slot = p.crc.slot) = some p) (b n : ℕ) :
    Carried (crcsOf b n s.computed) (crcsOf b n (s.delivered ++
      queued (update s.bcr k ((s.bcr k).put p.crc.slot p.crc.crc)) s.ready ++ (s.pend.erase p).map Pending.crc)) := by
  obtain ⟨hmem, hbmap, -, -, hlast⟩ := hs.bii _ k hk
  obtain ⟨l₁, l₂, hready, -, hlt, hgt⟩ := split_at hs.sorted hmem
  obtain ⟨p₁, p₂, hpend, herase, hnone⟩ := pend_split hfirst
  have hc := hs.carried b n
  -- the records before and after it are as before, and no later one is of the bmap
  have h1 : ∀ r, queued (update s.bcr k r) l₁ = queued s.bcr l₁ := fun r =>
    queued_congr fun j hj => update_of_ne (Nat.ne_of_lt (hlt j hj)) r s.bcr
  have h2 : ∀ r, queued (update s.bcr k r) l₂ = queued s.bcr l₂ := fun r =>
    queued_congr fun j hj => update_of_ne (Nat.ne_of_gt (hgt j hj)) r s.bcr
  have hlater : crcsOf p.crc.bmap p.crc.slot (queued s.bcr l₂) = [] := by
    refine crcsOf_queued_eq_nil fun j hj hb => ?_
    have := hlast j (by rw [hready]; simp [hj]) hb
    have := hgt j hj
    omega
  rw [hready, hpend] at hc
  rw [hready, herase]
  simp only [queued_append, queued_cons, h1, h2, update_self, map_append, map_cons, crcsOf_append] at hc ⊢
  by_cases hbn : p.crc.bmap = b ∧ p.crc.slot = n
  · obtain ⟨rfl, rfl⟩ := hbn
    obtain ⟨hnew, hold⟩ := slotCrcs_setCrc p.crc.slot p.crc.crc (hs.crcs k hmem).2
    rw [← hbmap] at hlater hnone hc ⊢
    have hcons := crcsOf_cons_self p.crc (p₂.map Pending.crc)
    rw [← hbmap] at hcons
    rw [hcons, hlater, hnone, crcsOf_content] at hc
    rw [hlater, hnone, crcsOf_put, hnew]
    rcases hold with hold | ⟨y, hold⟩
    · rw [hold] at hc
      simpa using hc
    rw [hold] at hc
    have hover := Carried.overwrite (l := crcsOf (s.bcr k).bmap p.crc.slot s.delivered ++
      crcsOf (s.bcr k).bmap p.crc.slot (queued s.bcr l₁))
      (by simpa using hc)
    simpa using hover
  · rw [crcsOf_cons_of_ne hbn] at hc
    have hsame : crcsOf b n ((s.bcr k).put p.crc.slot p.crc.crc).content = crcsOf b n (s.bcr k).content := by
      by_cases hb : (s.bcr k).bmap = b
      · subst hb
        have hn : n ≠ p.crc.slot := fun he => hbn ⟨hbmap.symm, he.symm⟩
        rw [crcsOf_content, crcsOf_put, slotCrcs_setCrc_of_ne _ _ hn]
      · rw [crcsOf_content_of_ne hb, crcsOf_content_of_ne (r := (s.bcr k).put _ _) hb]
    rw [hsame]
    exact hc

theorem record_new_carried (hs : Inv s)
    (hfirst : s.pend.find? (fun q => q.crc.bmap = p.crc.bmap ∧ q.crc.slot = p.crc.slot) = some p) (b n : ℕ) :
    Carried (crcsOf b n s.computed) (crcsOf b n (s.delivered ++
      queued (update s.bcr s.next ⟨p.crc.bmap, [(p.crc.slot, p.crc.crc)], s.now⟩)
        (s.ready ++ [s.next]) ++ (s.pend.erase p).map Pending.crc)) := by
  obtain ⟨p₁, p₂, hpend, herase, hnone⟩ := pend_split hfirst
  have hc := hs.carried b n
  have hold : ∀ r, queued (update s.bcr s.next r) s.ready = queued s.bcr s.ready := fun r =>
    queued_congr fun j hj => update_of_ne (Nat.ne_of_lt (hs.fresh j hj)) r s.bcr
  have hcontent : Bcrcupd.content ⟨p.crc.bmap, [(p.crc.slot, p.crc.crc)], s.now⟩ = [p.crc] := rfl
  rw [hpend] at hc
  rw [herase]
  simp only [queued_append, queued_cons, queued_nil, hold, update_self, hcontent, map_append,
    map_cons, crcsOf_append, append_nil] at hc ⊢
  by_cases hbn : p.crc.bmap = b ∧ p.crc.slot = n
  · obtain ⟨rfl, rfl⟩ := hbn
    rw [hnone] at hc ⊢
    simpa using hc
  · rw [crcsOf_cons_of_ne hbn] at hc ⊢
    simpa using hc

theorem not_scan {u : Upd} (h : u.scanning = false) (rest : List ℕ) (now : ℕ) : u ≠ .scan rest now := by
  rintro rfl
  cases h

section
variable (hs : Inv s)
include hs

section
variable (hfirst : s.pend.find? (fun q => q.crc.bmap = p.crc.bmap ∧ q.crc.slot = p.crc.slot) = some p)
include hfirst

theorem newBcr_inv (hscan : s.upd.scanning = false) : Inv (newBcr s p) := by
  have hold : ∀ j ∈ s.ready, ∀ r, update s.bcr s.next r j = s.bcr j := fun j hj r =>
    update_of_ne (Nat.ne_of_lt (hs.fresh j hj)) r s.bcr
  have hnotin : s.next ∉ s.ready := fun hmem => Nat.lt_irrefl _ (hs.fresh _ hmem)
  unfold newBcr
  refine { hs with
    sorted := ?_
    fresh := fun j hj => ?_
    crcs := fun j hj => ?_
    bii := fun b j hj => ?_
    flies := fun j hj => ?_
    scan := fun rest now h => absurd h (not_scan hscan rest now)
    carried := record_new_carried hs hfirst }
  · refine pairwise_append.mpr ⟨hs.sorted, pairwise_singleton .., fun j hj k hk => ?_⟩
    rw [mem_singleton.mp hk]
    exact hs.fresh j hj
  · rcases mem_append.mp hj with hj | hj
    · exact Nat.lt_succ_of_lt (hs.fresh j hj)
    · rw [mem_singleton.mp hj]
      exact Nat.lt_succ_self _
  · rcases mem_append.mp hj with hj | hj
    · simp only [hold j hj]
      exact hs.crcs j hj
    · rw [mem_singleton.mp hj]
      simp
  · by_cases hbp : b = p.crc.bmap
    · subst hbp
      simp only [update_self, Option.some.injEq] at hj
      subst hj
      simp only [update_self]
      refine ⟨by simp, trivial, by simp [maxBmapInodePairs], fun hf => hnotin (hs.flies _ hf).1, fun i hi _ => ?_⟩
      rcases mem_append.mp hi with hi | hi
      · exact Nat.le_of_lt (hs.fresh i hi)
      · exact Nat.le_of_eq (mem_singleton.mp hi)
    · simp only [update_of_ne hbp] at hj
      obtain ⟨h1, h2, h3, h4, h5⟩ := hs.bii b j hj
      simp only [hold j h1]
      refine ⟨mem_append_left _ h1, h2, h3, h4, fun i hi hib => ?_⟩
      rcases mem_append.mp hi with hi | hi
      · simp only [hold i hi] at hib
        exact h5 i hi hib
      · rw [mem_singleton.mp hi, update_self] at hib
        exact absurd hib.symm hbp
  · obtain ⟨h1, h2, h3⟩ := hs.flies j hj
    simp only [hold j h1]
    refine ⟨mem_append_left _ h1, h2, fun i hi hib => ?_⟩
    rcases mem_append.mp hi with hi | hi
    · simp only [hold i hi] at hib
      exact h3 i hi hib
    · rw [mem_singleton.mp hi]
      exact Nat.le_of_lt (hs.fresh j h1)

theorem record_inv (h : record s p = some t) : Inv t := by
  unfold record at h
  cases hk : s.bii p.crc.bmap with
  | some k =>
    obtain ⟨hmem, hbmap, hroom, -, -⟩ := hs.bii _ k hk
    rw [hk] at h
    dsimp only at h
    rw [if_pos hroom] at h
    cases h
    have hb : ∀ j, (update s.bcr k ((s.bcr k).put p.crc.slot p.crc.crc) j).bmap = (s.bcr j).bmap := by
      intro j
      by_cases hj : j = k
      · rw [hj, update_self]
        rfl
      · rw [update_of_ne hj]
    refine { hs with
      crcs := fun j hj => ?_
      bii := fun b j hj => ?_
      flies := fun j hj => ?_
      carried := record_carried hs hk hfirst }
    · by_cases hjk : j = k
      · subst hjk
        simp only [update_self]
        exact ⟨setCrc_ne_nil _ _ _, nodup_setCrc _ _ (hs.crcs j hmem).2⟩
      · simp only [update_of_ne hjk]
        exact hs.crcs j hj
    · have hlen := length_setCrc_le p.crc.slot p.crc.crc (s.bcr k).crcs
      -- the record `bii_bcr` of the bmap, or that of another bmap
      have hj' : s.bii b = some j ∧ (b = p.crc.bmap →
          ((s.bcr k).put p.crc.slot p.crc.crc).crcs.length ≠ maxBmapInodePairs) := by
        dsimp only at hj
        split at hj
        · by_cases hbp : b = p.crc.bmap
          · rw [hbp, update_self] at hj
            cases hj
          · rw [update_of_ne hbp] at hj
            exact ⟨hj, fun he => absurd he hbp⟩
        · exact ⟨hj, fun _ => by assumption⟩
      obtain ⟨h1, h2, h3, h4, h5⟩ := hs.bii b j hj'.1
      simp only [hb]
      refine ⟨h1, h2, ?_, h4, h5⟩
      by_cases hjk : j = k
      · subst hjk
        simp only [update_self]
        have : ((s.bcr j).put p.crc.slot p.crc.crc).crcs.length ≤ (s.bcr j).crcs.length + 1 := hlen
        omega
      · simp only [update_of_ne hjk]
        exact h3
    · simp only [hb]
      exact hs.flies j hj
  | none =>
    rw [hk] at h
    obtain ⟨hscan, ⟨⟩⟩ := Option.ite_none_left_eq_some.mp h
    exact newBcr_inv hs hfirst (by simpa using hscan)

end

theorem pick_inv (hmem : k ∈ s.ready) (hinfl : s.infl (s.bcr k).bmap = false)
    (hfirst : ∀ j ∈ s.ready, (s.bcr j).bmap = (s.bcr k).bmap → k ≤ j) : Inv (pick s k) := by
  have hnot : k ∉ flying s := fun hk => by
    have := (hs.flies k hk).2.1
    rw [hinfl] at this
    cases this
  have hperm : (flying (pick s k)).Perm (k :: flying s) := by
    change (s.picked ++ [k] ++ s.fly.map Prod.snd).Perm _
    simp only [append_assoc, singleton_append]
    exact perm_middle
  refine { hs with
    bii := fun b j hj => ?_
    flies := fun j hj => ?_
    nodup := hperm.nodup_iff.mpr (nodup_cons.mpr ⟨hnot, hs.nodup⟩) }
  · by_cases hb : b = (s.bcr k).bmap
    · rw [hb] at hj
      simp [pick] at hj
    simp only [pick, update_of_ne hb] at hj
    obtain ⟨h1, h2, h3, h4, h5⟩ := hs.bii b j hj
    refine ⟨h1, h2, h3, fun hf => ?_, h5⟩
    rcases mem_cons.mp (hperm.mem_iff.mp hf) with rfl | hf
    · exact hb h2.symm
    · exact h4 hf
  · rcases mem_cons.mp (hperm.mem_iff.mp hj) with rfl | hj
    · exact ⟨hmem, by simp [pick], hfirst⟩
    obtain ⟨h1, h2, h3⟩ := hs.flies j hj
    refine ⟨h1, ?_, h3⟩
    change update s.infl (s.bcr k).bmap true (s.bcr j).bmap = true
    by_cases hb : (s.bcr j).bmap = (s.bcr k).bmap
    · rw [hb, update_self]
    · rw [update_of_ne hb]
      exact h2

theorem Inv.setUpd {u : Upd} (hu : ∀ rest now, u = .scan rest now → ∀ k ∈ rest, k ∈ s.ready) :
    Inv { s with upd := u } :=
  ⟨hs.ok, hs.sorted, hs.fresh, hs.crcs, hs.bii, hs.flies, hs.nodup, hu, hs.carried⟩

theorem scanNext_inv {rest : List ℕ} {now : ℕ} {lock : Bool} (hu : s.upd = .scan (k :: rest) now)
    (hclean : ∀ k ∈ picks s lock, ∀ j ∈ s.ready, (s.bcr j).bmap = (s.bcr k).bmap → k ≤ j) :
    Inv (scanNext s k rest now lock) := by
  have hsub := hs.scan _ _ hu
  have hmem := hsub k mem_cons_self
  have hrest : ∀ rest' now', Upd.scan rest now = .scan rest' now' → ∀ j ∈ rest', j ∈ s.ready := by
    intro rest' now' he j hj
    cases he
    exact hsub j (mem_cons_of_mem _ hj)
  unfold scanNext
  rw [if_neg (hs.crcs k hmem).1]
  by_cases hskip : lock = false ∨ s.infl (s.bcr k).bmap = true
  · rw [if_pos hskip]
    exact hs.setUpd hrest
  rw [if_neg hskip]
  obtain ⟨hlock, hinfl⟩ := not_or.mp hskip
  have hinfl : s.infl (s.bcr k).bmap = false := by simpa using hinfl
  have hnext : ∀ {u : Iod}, Inv u → u.ready = s.ready →
      Inv { u with upd := if u.picked.length = maxBmapNcrcUpdates then .send else .scan rest now } := by
    intro u hu' hready
    refine hu'.setUpd fun rest' now' he => ?_
    split at he
    · cases he
    · rw [hready]
      exact hrest rest' now' he
  by_cases hdue : due (s.bcr k) now = true
  · have hpicks : picks s lock = some k := by
      rw [picks, hu]
      simp [hlock, hinfl, hdue]
    simp only [hdue, if_true]
    exact hnext (pick_inv hs hmem hinfl (hclean k hpicks)) rfl
  · simp only [hdue]
    exact hnext hs rfl

theorem genrq_inv (ok : Bool) : Inv (genrq s ok) := by
  unfold genrq
  cases ok with
  | false => exact hs.setUpd fun _ _ h => by cases h
  | true =>
    have hperm : ∀ k, k ∈ ([] : List ℕ) ++ (s.fly ++ s.picked.map fun k => (s.rpcs, k)).map Prod.snd ↔
        k ∈ flying s := by
      intro k
      simp [flying, or_comm]
    refine { hs with
      bii := fun b k hk => ?_
      flies := fun k hk => hs.flies k ((hperm k).mp hk)
      nodup := ?_
      scan := fun rest now h => by cases h }
    · obtain ⟨h1, h2, h3, h4, h5⟩ := hs.bii b k hk
      exact ⟨h1, h2, h3, fun hf => h4 ((hperm k).mp hf), h5⟩
    · have hnodup := hs.nodup
      simp only [flying] at hnodup ⊢
      simpa [comp_def] using nodup_append_comm.mp hnodup

theorem landed {l : List ℕ} (hp : (flying s).Perm (k :: l)) :
    l.Nodup ∧ ∀ j ∈ l, j ∈ flying s ∧ j ≠ k ∧ (s.bcr j).bmap ≠ (s.bcr k).bmap := by
  obtain ⟨hk, hl⟩ := nodup_cons.mp (hp.nodup_iff.mp hs.nodup)
  refine ⟨hl, fun j hj => ?_⟩
  have hjf : j ∈ flying s := hp.mem_iff.mpr (mem_cons_of_mem _ hj)
  have hjk : j ≠ k := fun he => hk (he ▸ hj)
  refine ⟨hjf, hjk, fun hb => hjk ?_⟩
  obtain ⟨hj1, -, hj3⟩ := hs.flies j hjf
  obtain ⟨hk1, -, hk3⟩ := hs.flies k (hp.mem_iff.mpr mem_cons_self)
  exact Nat.le_antisymm (hj3 k hk1 hb.symm) (hk3 j hj1 hb)

theorem land_inv {picked : List ℕ} {fly : List (ℕ × ℕ)} {c : ℕ}
    (hp : (flying s).Perm (k :: (picked ++ fly.map Prod.snd))) :
    Inv { s with infl := update s.infl (s.bcr k).bmap false, picked := picked, fly := fly, ninfl := c } := by
  obtain ⟨hnodup, hothers⟩ := landed hs hp
  refine { hs with
    bii := fun b j hj => ?_
    flies := fun j hj => ?_
    nodup := hnodup }
  · obtain ⟨h1, h2, h3, h4, h5⟩ := hs.bii b j hj
    exact ⟨h1, h2, h3, fun hf => h4 (hothers j hf).1, h5⟩
  · obtain ⟨hjf, -, hb⟩ := hothers j hj
    obtain ⟨h1, h2, h3⟩ := hs.flies j hjf
    refine ⟨h1, ?_, h3⟩
    change update s.infl (s.bcr k).bmap false (s.bcr j).bmap = true
    rw [update_of_ne hb]
    exact h2

theorem revert_inv : Inv (revert s) := by
  unfold revert
  split
  · exact hs.setUpd fun _ _ h => by cases h
  rename_i hp
  refine land_inv hs ?_
  rw [flying, hp, cons_append]

theorem deliver_carried (hmem : k ∈ s.ready)
    (hfirst : ∀ j ∈ s.ready, (s.bcr j).bmap = (s.bcr k).bmap → k ≤ j) (b n : ℕ) :
    crcsOf b n (s.delivered ++ (s.bcr k).content ++ queued s.bcr (s.ready.erase k)) =
      crcsOf b n (s.delivered ++ queued s.bcr s.ready) := by
  obtain ⟨l₁, l₂, hready, herase, hlt, -⟩ := split_at hs.sorted hmem
  rw [herase, hready]
  by_cases hb : (s.bcr k).bmap = b
  · -- no record before it is of the bmap
    have hnone : crcsOf b n (queued s.bcr l₁) = [] := by
      refine crcsOf_queued_eq_nil fun j hj hjb => ?_
      have := hfirst j (by rw [hready]; simp [hj]) (by rw [hjb, hb])
      have := hlt j hj
      omega
    simp [hnone]
  · simp [crcsOf_content_of_ne hb]

theorem callback_inv {j : ℕ} {ok : Bool} (hfly : (j, k) ∈ s.fly) (h : bcrcupdCb s j k ok = some t) : Inv t := by
  have hk : k ∈ flying s := mem_append_right _ (mem_map.mpr ⟨_, hfly, rfl⟩)
  obtain ⟨hmem, hinfl, hfirst⟩ := hs.flies k hk
  have hp : (flying s).Perm (k :: (s.picked ++ (s.fly.erase (j, k)).map Prod.snd)) := by
    refine List.Perm.trans ?_ perm_middle
    exact ((perm_cons_erase hfly).map Prod.snd).append_left s.picked
  have hland : Inv (land s j k) := land_inv hs hp
  unfold bcrcupdCb at h
  rw [if_neg (by simp [hinfl])] at h
  split at h
  · cases h
    exact hland
  obtain ⟨hscan, ⟨⟩⟩ := Option.ite_none_left_eq_some.mp h
  have hscan : s.upd.scanning = false := by simpa using hscan
  obtain ⟨-, hothers⟩ := landed hs hp
  have hsub : ∀ i ∈ s.ready.erase k, i ∈ s.ready := fun i => mem_of_mem_erase
  refine { hland with
    sorted := hs.sorted.sublist erase_sublist
    fresh := fun i hi => hs.fresh i (hsub i hi)
    crcs := fun i hi => hs.crcs i (hsub i hi)
    bii := fun b i hi => ?_
    flies := fun i hi => ?_
    scan := fun rest now h => absurd h (not_scan hscan rest now)
    carried := fun b n => ?_ }
  · obtain ⟨h1, h2, h3, h4, h5⟩ := hland.bii b i hi
    have hik : i ≠ k := fun he => (hs.bii b i hi).2.2.2.1 (he ▸ hk)
    exact ⟨(mem_erase_of_ne hik).mpr h1, h2, h3, h4, fun m hm => h5 m (hsub m hm)⟩
  · obtain ⟨h1, h2, h3⟩ := hland.flies i hi
    exact ⟨(mem_erase_of_ne (hothers i hi).2.1).mpr h1, h2, fun m hm => h3 m (hsub m hm)⟩
  · have hc := hs.carried b n
    rw [crcsOf_append, ← deliver_carried hs hmem hfirst, ← crcsOf_append] at hc
    exact hc

theorem step_inv {l : Label} (hclean : Clean s l) (h : step s l = some t) : Inv t := by
  revert h
  fun_cases step s l <;> intro h <;> try cases h
  next => exact compute_inv hs h
  next p hp => exact record_inv hs (hclean p hp) h
  next => exact { hs with }
  next =>
    refine hs.setUpd fun rest now he k hk => ?_
    cases he
    exact hk
  next hu => exact scanNext_inv hs hu hclean
  next => exact hs.setUpd fun _ _ he => by split at he <;> cases he
  next ok _ => exact genrq_inv hs ok
  next => exact revert_inv hs
  next => exact { hs with }
  next he _ => exact callback_inv hs (mem_of_find?_eq_some he) h

end

end Steps

/-- **CRC updates arrive in order**, if recorded and taken in order. -/
theorem crcs_in_order (ls : List Label) (h : Admits step Clean Iod.init ls) {s : Iod}
    (hr : run step Iod.init ls = some s) (b n : ℕ) : (crcsOf b n s.delivered).Sublist (crcsOf b n s.computed) ∧
      (Quiet s → (crcsOf b n s.delivered).getLast? = (crcsOf b n s.computed).getLast?) := by
  have hs : Inv s := run_invariant (fun hs hc h => step_inv hs hc h) inv_init h hr
  have hc := hs.carried b n
  refine ⟨?_, ?_⟩
  · rw [append_assoc, crcsOf_append] at hc
    exact hc.received
  · rintro ⟨hpend, hready⟩
    rw [hpend, hready] at hc
    simpa using hc.last

def crc0 (c : ℕ) : Crc := ⟨0, 0, c⟩

/-- The update thread goes through a list, and sends. -/
def push (locks : List Bool) (ok : Bool) : List Label :=
  .scanStart :: locks.map .scanNext ++ [.scanEnd, .genrq ok]

def answer (j : ℕ) (ok : Bool) : List Label := [.reply j ok, .callback j]

def aging : List Label := replicate bcrBatchAge .tick

def twoCrcs : List Label :=
  [.compute 0 (crc0 5), .record 0] ++ aging ++ push [true] true ++ answer 0 false ++
    [.compute 1 (crc0 7), .record 1] ++ aging ++ push [true, true] true ++ answer 1 true ++
    push [true] true ++ answer 2 true

theorem crcs_in_order_two : ∃ s ∈ run step Iod.init twoCrcs, Quiet s ∧ crcsOf 0 0 s.delivered = [5, 7] ∧
      (crcsOf 0 0 s.delivered).Sublist (crcsOf 0 0 s.computed) :=
  ⟨_, rfl, ⟨rfl, rfl⟩, rfl, (crcs_in_order twoCrcs (by decide +kernel) rfl 0 0).1⟩

/-- **CRCs are overtaken** by a later worker. -/
theorem overtaken :
    (∃ s ∈ run step Iod.init ([.compute 0 (crc0 5), .compute 1 (crc0 7), .record 1, .record 0] ++ aging ++
        push [true] true ++ answer 0 true), Quiet s ∧ crcsOf 0 0 s.computed = [5, 7] ∧ crcsOf 0 0 s.delivered = [5]) ∧
    ∃ s ∈ run step Iod.init ([.compute 0 (crc0 5), .record 0] ++ aging ++ push [true] true ++ answer 0 false ++
        [.compute 1 (crc0 7), .record 1] ++ aging ++ push [false, true] true ++ answer 1 true ++
        push [true] true ++ answer 2 true),
      Quiet s ∧ crcsOf 0 0 s.computed = [5, 7] ∧ crcsOf 0 0 s.delivered = [7, 5] :=
  ⟨⟨_, rfl, ⟨rfl, rfl⟩, rfl, rfl⟩, _, rfl, ⟨rfl, rfl⟩, rfl, rfl⟩

end Slash2.Bcr
