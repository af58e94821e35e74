/-
# Replica coherence

One bmap, its replicas' servers and the MDS. A client's write reaches a server and
is reported to the MDS, which makes that server's replica the current one; the
scheduler sends requests for queued replicas; a destination copies whatever its
source holds at that moment; the answers come back in any order. A replica that is
valid should hold every write reported so far.

Key theorem: `coherent_run`.
-/
import Slash2.Lib.Run
import Slash2.Residency.Replicate

namespace Slash2.Residency.Coherence

open List Option Function

abbrev WriteId := ℕ

structure Request where
  src : ℕ
  dst : ℕ
  bgen : BitVec 32
  copied : Bool

structure Sys where
  bmap : Bmap
  /-- slivers flagged `BMAP_SLVR_DATA` at the MDS -/
  slvrs : List ℕ
  data : ℕ → List WriteId
  reported : List WriteId
  reqs : List Request

inductive Event where
  /-- a client's write reaches the server of replica `i` -/
  | write (i : ℕ) (w : WriteId)
  /-- the server of replica `i` reports a write, with its slivers -/
  | report (i : ℕ) (w : WriteId) (slots : List ℕ) (defer : Bool) (pw : Pwritev)
  | tryrepl (src dst : ℕ) (env : TryEnv)
  /-- the destination of the `n`-th request copies the source's data -/
  | copy (n : ℕ)
  /-- the `n`-th request is answered -/
  | reply (n : ℕ) (a : Answer)
  /-- the `n`-th request is answered, but its bmap cannot be loaded -/
  | skip (n : ℕ)

variable (f : Inode)

/-- What `upd_proc_bmap` asks for before a copy. -/
def Arrangeable (b : Bmap) (src dst : ℕ) : Prop :=
  src < f.nrepls ∧ dst < f.nrepls ∧ src ≠ dst ∧ stateAt b.repls src = .valid ∧
    stateAt b.repls dst = .replQueued
  deriving Decidable

section Step

variable (bmapno : ℕ)

/-- One event; `none` if it cannot happen, or ends the MDS. -/
def step (s : Sys) : Event → Option Sys
  | .write i w => some { s with data := update s.data i (w :: s.data i) }
  | .report i w slots defer pw =>
    let r := mdsReplInvExceptDefer f s.bmap i defer pw
    if i < f.nrepls ∧ r.rc ≠ none then
      some { s with bmap := r.bmap, slvrs := slots ++ s.slvrs, reported := w :: s.reported }
    else none
  | .tryrepl src dst env =>
    if Arrangeable f s.bmap src dst then
      match slmUpschTryrepl env bmapno (fun i => s.slvrs.contains i) s.bmap dst with
      | .fatal => none
      | .kept d => some { s with bmap := { s.bmap with repls := d } }
      | .sent d g => some { s with
          bmap := { s.bmap with repls := d }
          reqs := s.reqs ++ [⟨src, dst, g, false⟩] }
    else none
  | .copy n =>
    match s.reqs[n]? with
    | none => none
    | some r =>
      if r.copied then none
      else some { s with
        data := update s.data r.dst (s.data r.src)
        reqs := s.reqs.set n { r with copied := true } }
  | .reply n a =>
    match s.reqs[n]? with
    | none => none
    | some r =>
      -- a server reports success only for a copy it has made
      if a.rc = some 0 ∧ r.copied = false then none
      else some { s with
        bmap := { s.bmap with repls := slmBatchReplCb s.bmap r.dst r.bgen a }
        reqs := s.reqs.eraseIdx n }
  | .skip n => if n < s.reqs.length then some { s with reqs := s.reqs.eraseIdx n } else none

end Step

/-- A VALID replica has all data that was reported. -/
def ValidCurrent (s : Sys) : Prop :=
  ∀ k < f.nrepls, stateAt s.bmap.repls k = .valid → s.reported ⊆ s.data k

def Waiting (s : Breplst) : Prop := s = .replSched ∨ s = .replQueued
  deriving Decidable

def Served (s : Sys) (r : Request) : Prop :=
  r.copied ∧ r.bgen = s.bmap.gen ∧ Waiting (stateAt s.bmap.repls r.dst)
  deriving Decidable

/-- The condition on an event, in the state before it. -/
def Prudent (bmapno : ℕ) (s : Sys) : Event → Prop
  | .report i w _ _ _ =>
    w ∈ s.data i ∧ (stateAt s.bmap.repls i = .valid ∨ s.reported ⊆ s.data i) ∧
      (OtherValid f s.bmap i → ∀ r ∈ s.reqs, r.bgen ≠ s.bmap.gen + 1) ∧
      (¬ OtherValid f s.bmap i → ∀ r ∈ s.reqs, ¬ Served s r)
  | .tryrepl _ dst env =>
    slmBmapCalcRepltraffic env.fsz bmapno (fun i => s.slvrs.contains i) ≠ 0 ∨ s.reported ⊆ s.data dst
  | .copy n => ∀ r ∈ s.reqs[n]?,
    stateAt s.bmap.repls r.src = .valid ∨ s.reported ⊆ s.data r.src ∨
      (stateAt s.bmap.repls r.dst ≠ .valid ∧ ∀ q ∈ s.reqs, q.dst = r.dst → ¬ Served s q)
  | _ => True

instance (bmapno : ℕ) (s : Sys) (e : Event) : Decidable (Prudent f bmapno s e) := by
  cases e <;> unfold Prudent <;> infer_instance

structure Coherent (f : Inode) (s : Sys) : Prop where
  valid : ValidCurrent f s
  bounds : ∀ r ∈ s.reqs, r.src < f.nrepls ∧ r.dst < f.nrepls
  source : ∀ r ∈ s.reqs, r.bgen = s.bmap.gen → r.copied = false → stateAt s.bmap.repls r.src = .valid
  served : ∀ r ∈ s.reqs, Served s r → s.reported ⊆ s.data r.dst

/-! ### Each event keeps the invariant -/

section Keep

variable {f} {bmapno : ℕ} {s t : Sys}

theorem subset_update_cons (data : ℕ → List WriteId) (i : ℕ) (w : WriteId) (k : ℕ) :
    data k ⊆ update data i (w :: data i) k := by
  by_cases h : k = i
  · subst h
    simp
  · rw [update_of_ne h]
    exact .refl _

theorem write_coherent (hc : Coherent f s) (i : ℕ) (w : WriteId) :
    Coherent f { s with data := update s.data i (w :: s.data i) } where
  valid k hk hv := List.Subset.trans (hc.valid k hk hv) (subset_update_cons s.data i w k)
  bounds := hc.bounds
  source := hc.source
  served r hr hs := List.Subset.trans (hc.served r hr hs) (subset_update_cons s.data i w r.dst)

variable {x : Breplst}

theorem tractOther_move_waiting {pol : Brpol} (hv : x ≠ .valid)
    (h : Waiting ((tractOther pol).move x)) : Waiting x := by
  cases x <;> simp_all [Tract.move, tractOther, Waiting]

theorem tractActive_move_waiting (h : Waiting (tractActive.move x)) : Waiting x := by
  cases x <;> simp_all [Tract.move, tractActive, Waiting]

theorem report_coherent (hc : Coherent f s) {i : ℕ} {w : WriteId} {slots : List ℕ} {defer : Bool}
    {pw : Pwritev} (hp : Prudent f bmapno s (.report i w slots defer pw)) (hi : i < f.nrepls) : Coherent f { s with
      bmap := (mdsReplInvExceptDefer f s.bmap i defer pw).bmap
      slvrs := slots ++ s.slvrs
      reported := w :: s.reported } := by
  obtain ⟨hw, hcur, hbump, hstay⟩ := hp
  have hdata : s.reported ⊆ s.data i := by
    rcases hcur with h | h
    · exact hc.valid i hi h
    · exact h
  have hself := mdsReplInvExceptDefer_self f s.bmap defer pw hi
  have hother := fun {k : ℕ} => @mdsReplInvExceptDefer_other f s.bmap i defer pw hi k
  have hgen := mdsReplInvExceptDefer_gen f s.bmap defer pw hi
  refine ⟨?_, hc.bounds, ?_, ?_⟩
  · intro k hk hv
    by_cases hki : k = i
    · subst hki
      exact cons_subset.mpr ⟨hw, hdata⟩
    · rw [hother hk hki] at hv
      exact absurd hv (tractOther_move_ne _ _).1
  · intro r hr hg hcop
    rw [hgen] at hg
    split_ifs at hg with ho
    · exact absurd hg (hbump ho r hr)
    -- the source is valid, hence the reporting replica itself
    have hv := hc.source r hr hg hcop
    have hsrc : r.src = i := by
      by_contra hne
      exact ho ⟨r.src, (hc.bounds r hr).1, hne, hv⟩
    rw [hsrc] at hv ⊢
    rw [hself, hv]
    rfl
  · rintro r hr ⟨hcop, hg, hwait⟩
    exfalso
    rw [hgen] at hg
    split_ifs at hg with ho
    · exact hbump ho r hr hg
    refine hstay ho r hr ⟨hcop, hg, ?_⟩
    by_cases hd : r.dst = i
    · rw [hd] at hwait ⊢
      rw [hself] at hwait
      exact tractActive_move_waiting hwait
    rw [hother (hc.bounds r hr).2 hd] at hwait
    refine tractOther_move_waiting (fun hv => ?_) hwait
    exact ho ⟨r.dst, (hc.bounds r hr).2, hd, hv⟩

variable {dst : ℕ} {d : Repls}

theorem kept_coherent (hc : Coherent f s) (hd : s.reported ⊆ s.data dst)
    (hst : ∀ m, stateAt d m = if m = dst then .valid else stateAt s.bmap.repls m) :
    Coherent f { s with bmap := { s.bmap with repls := d } } := by
  refine ⟨?_, hc.bounds, ?_, ?_⟩
  · intro k hk hv
    by_cases hkd : k = dst
    · rw [hkd]
      exact hd
    · rw [hst, if_neg hkd] at hv
      exact hc.valid k hk hv
  · intro r hr hg hcop
    rw [hst]
    split
    · rfl
    · exact hc.source r hr hg hcop
  · rintro r hr ⟨hcop, hg, hwait⟩
    rw [hst] at hwait
    split at hwait
    · rcases hwait with h | h <;> cases h
    · exact hc.served r hr ⟨hcop, hg, hwait⟩

theorem sent_coherent (hc : Coherent f s) {src : ℕ} (ha : Arrangeable f s.bmap src dst)
    (hst : ∀ m, stateAt d m = if m = dst then .replSched else stateAt s.bmap.repls m) : Coherent f { s with
      bmap := { s.bmap with repls := d }
      reqs := s.reqs ++ [⟨src, dst, s.bmap.gen, false⟩] } := by
  obtain ⟨hsrc, hdst, -, hv, hq⟩ := ha
  have hkeep : ∀ k, stateAt s.bmap.repls k = .valid → stateAt d k = .valid := by
    intro k hk
    rw [hst, if_neg]
    · exact hk
    · intro h
      rw [h, hq] at hk
      cases hk
  refine ⟨?_, ?_, ?_, ?_⟩
  · intro k hk hkv
    rw [hst] at hkv
    split at hkv
    · cases hkv
    · exact hc.valid k hk hkv
  · exact Lib.forall_mem_snoc hc.bounds ⟨hsrc, hdst⟩
  · exact Lib.forall_mem_snoc (fun r hr hg hcop => hkeep _ (hc.source r hr hg hcop)) fun _ _ => hkeep _ hv
  · rintro r hr ⟨hcop, hg, hwait⟩
    rcases mem_append.mp hr with hr | hr
    · refine hc.served r hr ⟨hcop, hg, ?_⟩
      rw [hst] at hwait
      split_ifs at hwait with hd
      · rw [hd, hq]
        exact .inr rfl
      · exact hwait
    · rw [mem_singleton.mp hr] at hcop
      cases hcop

theorem same_coherent (hc : Coherent f s) (hst : ∀ m, stateAt d m = stateAt s.bmap.repls m) :
    Coherent f { s with bmap := { s.bmap with repls := d } } where
  valid k hk hv := hc.valid k hk ((hst k).symm.trans hv)
  bounds := hc.bounds
  source r hr hg hcop := (hst r.src).trans (hc.source r hr hg hcop)
  served r hr hs := hc.served r hr ⟨hs.1, hs.2.1, hst r.dst ▸ hs.2.2⟩

variable {n : ℕ} {r : Request}

section
variable (hc : Coherent f s)
include hc

theorem copy_coherent (hn : s.reqs[n]? = some r)
    (hcop : r.copied = false) (hp : Prudent f bmapno s (.copy n)) : Coherent f { s with
      data := update s.data r.dst (s.data r.src)
      reqs := s.reqs.set n { r with copied := true } } := by
  have hr : r ∈ s.reqs := mem_of_getElem? hn
  -- the condition, with the source's validity traded for what it holds
  have hsrc : s.reported ⊆ s.data r.src ∨
      (stateAt s.bmap.repls r.dst ≠ .valid ∧ ∀ q ∈ s.reqs, q.dst = r.dst → ¬ Served s q) := by
    rcases hp r hn with h | h | h
    · exact .inl (hc.valid r.src (hc.bounds r hr).1 h)
    · exact .inl h
    · exact .inr h
  have hdata : ∀ k, k ≠ r.dst → update s.data r.dst (s.data r.src) k = s.data k := fun k hk => update_of_ne hk _ _
  have hself : update s.data r.dst (s.data r.src) r.dst = s.data r.src := update_self _ _ _
  refine ⟨?_, ?_, ?_, ?_⟩
  · intro k hk hv
    change s.reported ⊆ update s.data r.dst (s.data r.src) k
    by_cases hkd : k = r.dst
    · rw [hkd, hself]
      rcases hsrc with h | h
      · exact h
      · exact absurd (hkd ▸ hv) h.1
    · rw [hdata k hkd]
      exact hc.valid k hk hv
  · exact Lib.forall_mem_set hc.bounds (hc.bounds r hr)
  · refine Lib.forall_mem_set hc.source fun _ hqc => ?_
    cases hqc
  · rintro q hq ⟨hqc, hg, hwait⟩
    change s.reported ⊆ update s.data r.dst (s.data r.src) q.dst
    rcases mem_or_eq_of_mem_set hq with hq | rfl
    · by_cases hd : q.dst = r.dst
      · rw [hd, hself]
        rcases hsrc with h | h
        · exact h
        · exact absurd ⟨hqc, hg, hwait⟩ (h.2 q hq hd)
      · rw [hdata _ hd]
        exact hc.served q hq ⟨hqc, hg, hwait⟩
    · -- the request itself, if it is of the current generation, has a valid source
      rw [hself]
      exact hc.valid r.src (hc.bounds r hr).1 (hc.source r hr hg hcop)

theorem reply_coherent {a : Answer}
    (hn : s.reqs[n]? = some r) (ha : ¬ (a.rc = some 0 ∧ r.copied = false)) : Coherent f { s with
      bmap := { s.bmap with repls := slmBatchReplCb s.bmap r.dst r.bgen a }
      reqs := s.reqs.eraseIdx n } := by
  have hr : r ∈ s.reqs := mem_of_getElem? hn
  have hlt : r.dst < slMaxReplicas := lt_of_lt_of_le (hc.bounds r hr).2 f.nrepls_le
  have hst := slmBatchReplCb_stateAt s.bmap hlt r.bgen a
  have hmem : ∀ q ∈ s.reqs.eraseIdx n, q ∈ s.reqs := fun q hq => mem_of_mem_eraseIdx hq
  refine ⟨?_, fun q hq => hc.bounds q (hmem q hq), ?_, ?_⟩
  · intro k hk hv
    rw [hst] at hv
    split_ifs at hv with hkd
    · rcases batchTract_move_valid hv with h | ⟨hg, hrc, hw⟩
      · exact hc.valid k hk (hkd ▸ h)
      have hcop : r.copied := by
        by_contra h
        exact ha ⟨hrc, Bool.not_eq_true _ ▸ h⟩
      rw [hkd]
      exact hc.served r hr ⟨hcop, hg, hw⟩
    · exact hc.valid k hk hv
  · intro q hq hg hqc
    have hv := hc.source q (hmem q hq) hg hqc
    rw [hst]
    split_ifs with hqd
    · rw [← hqd, hv]
      exact batchTract_valid _ _ _
    · exact hv
  · rintro q hq ⟨hqc, hg, hwait⟩
    refine hc.served q (hmem q hq) ⟨hqc, hg, ?_⟩
    rw [hst] at hwait
    split_ifs at hwait with hqd
    · rw [hqd]
      exact batchTract_move_waiting hwait
    · exact hwait

theorem skip_coherent (n : ℕ) : Coherent f { s with reqs := s.reqs.eraseIdx n } where
  valid := hc.valid
  bounds r hr := hc.bounds r (mem_of_mem_eraseIdx hr)
  source r hr := hc.source r (mem_of_mem_eraseIdx hr)
  served r hr := hc.served r (mem_of_mem_eraseIdx hr)

theorem step_coherent {e : Event} (hp : Prudent f bmapno s e) (h : step f bmapno s e = some t) : Coherent f t := by
  have hlt {src dst : ℕ} (ha : Arrangeable f s.bmap src dst) : dst < slMaxReplicas := lt_of_lt_of_le ha.2.1 f.nrepls_le
  revert h
  fun_cases step f bmapno s e <;> intro h <;> try cases h
  next i w => exact write_coherent hc i w
  next hi => exact report_coherent hc hp hi.1
  next ha _ htry =>
    rcases slmUpschTryrepl_kept (hlt ha) htry with hst | ⟨hamt, -, hst⟩
    · exact same_coherent hc hst
    rcases hp with hne | hd
    · exact absurd hamt hne
    · exact kept_coherent hc hd hst
  next ha _ _ htry =>
    obtain ⟨rfl, -, hst⟩ := slmUpschTryrepl_sent (hlt ha) htry
    exact sent_coherent hc ha hst
  next hn hcop => exact copy_coherent hc hn (Bool.not_eq_true _ ▸ hcop) hp
  next hn ha => exact reply_coherent hc hn ha
  next n _ => exact skip_coherent hc n

end

end Keep

def initial (b : Bmap) (slvrs : List ℕ) (data : ℕ → List WriteId) : Sys := ⟨b, slvrs, data, [], []⟩

theorem initial_coherent (b : Bmap) (slvrs : List ℕ) (data : ℕ → List WriteId) : Coherent f (initial b slvrs data) where
  valid _ _ _ := nil_subset _
  bounds _ hr := absurd hr not_mem_nil
  source _ hr := absurd hr not_mem_nil
  served _ hr := absurd hr not_mem_nil

/-- **Replica coherence**: valid replicas hold every write reported, in runs of prudent events. -/
theorem coherent_run (f : Inode) (bmapno : ℕ) (b : Bmap) (slvrs : List ℕ) (data : ℕ → List WriteId)
    (es : List Event) (t : Sys) (hp : Lib.Admits (step f bmapno) (Prudent f bmapno) (initial b slvrs data) es)
    (hr : Lib.run (step f bmapno) (initial b slvrs data) es = some t) : ValidCurrent f t :=
  (Lib.run_invariant (fun hc hp h => step_coherent hc hp h) (initial_coherent f b slvrs data) hp hr).valid

def oneQueued : Sys := initial ⟨tableOf [.valid, .replQueued], 0, .onetime⟩ [] fun _ => []

def tryOk : TryEnv := ⟨true, true, 4096, 0⟩

def quietRun : List Event :=
  [.write 0 1, .report 0 1 [0] false ⟨0, false⟩, .tryrepl 0 1 tryOk, .copy 0, .reply 0 ⟨0, some 0⟩]

theorem coherent_quietRun : ∃ t ∈ Lib.run (step (inodeOf 2 (by decide)) 0) oneQueued quietRun,
      stateAt t.bmap.repls 1 = .valid ∧ ValidCurrent (inodeOf 2 (by decide)) t := by
  have hv : ∃ t ∈ Lib.run (step (inodeOf 2 (by decide)) 0) oneQueued quietRun,
      stateAt t.bmap.repls 1 = .valid := by decide
  obtain ⟨t, ht, hv⟩ := hv
  exact ⟨t, ht, hv, coherent_run _ 0 _ _ _ quietRun t (by decide) ht⟩

/-- A write is reported between a copy and its answer. -/
theorem stale_copy_declared_valid : ∃ t ∈ Lib.run (step (inodeOf 2 (by decide)) 0) oneQueued
        [.write 0 1, .report 0 1 [0] false ⟨0, false⟩, .tryrepl 0 1 tryOk, .copy 0, .write 0 2,
          .report 0 2 [0] false ⟨0, false⟩, .reply 0 ⟨0, some 0⟩],
      stateAt t.bmap.repls 1 = .valid ∧ 2 ∈ t.reported ∧ 2 ∉ t.data 1 := by
  decide

end Slash2.Residency.Coherence
