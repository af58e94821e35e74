/-
# Changes are logged

`mds_repl_addrq` and `mds_repl_delrq` have a table written if the walk over it returns `F_LOG`. The walk returns the
value of the last replica that has one, which would hide the change of an earlier one; but a request gets to the walk
with one replica only (`mdsReplIosvLookup_eq_some`), and for one replica `F_LOG` is returned exactly in the states that
are changed.

Key definitions: `Logged`. Key theorems: `addrqBmap_logged`, `delrqBmap_logged`, `change_logged`.
-/
import Slash2.Residency.Delrq

namespace Slash2.Upsch

open Lib Residency List Function

/-- The tables of a bmap that were handed to `mds_bmap_write`, the last one first. -/
def Mds.written (m : Mds) (k : BmapId) : List Bmap := (m.handed.filter (·.1 = k)).map (·.2)

/-- The changed table is handed to `mds_bmap_write`; one that is not changed stays as it was, there and in memory. -/
structure Logged (k : BmapId) (m m' : Mds) : Prop where
  changed : (∃ n, m'.state k n ≠ m.state k n) → m'.written k = m'.st.bmap k :: m.written k
  same : (∀ n, m'.state k n = m.state k n) →
    (m'.st.bmap k).repls = (m.st.bmap k).repls ∧ m'.written k = m.written k

/-- Nothing is done to the bmap. -/
structure Untouched (k : BmapId) (m m' : Mds) : Prop where
  bmap : m'.st.bmap k = m.st.bmap k
  written : m'.written k = m.written k

variable {site : Site} {k : BmapId} {m t u : Mds}

theorem Untouched.refl (k : BmapId) (m : Mds) : Untouched k m m := ⟨rfl, rfl⟩

theorem Untouched.logged (h : Untouched k m t) : Logged k m t where
  changed := by
    rintro ⟨n, hn⟩
    rw [Mds.state, St.state, h.bmap] at hn
    exact absurd rfl hn
  same _ := ⟨congrArg Bmap.repls h.bmap, h.written⟩

theorem Untouched.trans (h : Untouched k m t) (h' : Untouched k t u) : Untouched k m u :=
  ⟨h'.bmap.trans h.bmap, h'.written.trans h.written⟩

theorem Untouched.trans_logged (h : Untouched k m t) (h' : Logged k t u) : Logged k m u := by
  obtain ⟨hchanged, hsame⟩ := h'
  simp only [Mds.state, St.state, h.bmap, h.written] at hchanged hsame
  exact ⟨hchanged, hsame⟩

theorem Logged.trans_untouched (h : Logged k m t) (h' : Untouched k t u) : Logged k m u := by
  obtain ⟨hchanged, hsame⟩ := h
  simp only [Mds.state, St.state, ← h'.bmap, ← h'.written] at hchanged hsame
  exact ⟨hchanged, hsame⟩

/-! ### One bmap -/

section One
variable {tract : Tract} {ret : Retifset} {i : ℕ}

/-- `F_LOG` is returned for the states that are changed. -/
def LogsMoves (tract : Tract) (ret : Retifset) : Prop :=
  ∀ v, if hasFlag (ret v) 0 then tract.move v ≠ v else tract v = none

/-- Bmap `k` is walked over and written if `F_LOG` is returned. -/
structure Walks (tract : Tract) (ret : Retifset) (site : Site) (k : BmapId) (i : ℕ) (m t : Mds) : Prop where
  bmap : t.st.bmap = update m.st.bmap k { m.st.bmap k with repls := (mdsReplBmapWalk tract ret WalkFlags.none [i]
    (fun _ _ u => u) (site.nrepls k) (m.st.bmap k).repls ()).repls }
  handed : t.handed = if hasFlag (ret (m.state k i)) 0 then (k, t.st.bmap k) :: m.handed else m.handed

theorem walk_singleton (d : Repls) (nr : ℕ) :
    (mdsReplBmapWalk tract ret WalkFlags.none [i] (fun _ _ u => u) nr d ()).rc = ret (stateAt d i) := by
  have hrc := (mdsReplBmapApply_rc tract ret WalkFlags.none (fun _ _ u => u) d i ())
  rw [mdsReplBmapWalk, walkTargets, if_neg (cons_ne_nil i []), if_neg (by decide)]
  simp only [walkLoop, hrc, ite_self]
  split_ifs with h0 <;> simp_all

theorem addrqBmap_walks (sprio uprio : ℤ) : Walks addrqTract ret site k i m (addrqBmap ret site k [i] sprio uprio m).2 := by
  constructor <;> simp only [addrqBmap, walk_singleton, Mds.state, St.state]
  · split_ifs <;> rfl
  · split_ifs <;> simp [Mds.logrepls, commit, slmReplUpdWrite, Mds.setRepls]

theorem delrqBmap_walks : Walks delrqTract ret site k i m (delrqBmap ret site k [i] m).2 := by
  constructor <;> simp only [delrqBmap, walk_singleton, Mds.state, St.state]
  · split_ifs <;> rfl
  · split_ifs <;> simp [Mds.logrepls, commit, slmReplUpdWrite, Mds.setRepls]

theorem Walks.untouched (h : Walks tract ret site k i m t) {k' : BmapId} (hk : k' ≠ k) : Untouched k' m t := by
  refine ⟨by rw [h.bmap, update_of_ne hk], ?_⟩
  simp only [Mds.written, h.handed]
  split_ifs
  · rw [filter_cons_of_neg (by simpa using hk.symm)]
  · rfl

theorem Walks.logged (h : Walks tract ret site k i m t) (hret : LogsMoves tract ret) (hi : i < site.nrepls k) :
    Logged k m t := by
  have hv := hret (m.state k i)
  have hrepls := congrArg (fun bs => (bs k).repls) h.bmap
  simp only [update_self] at hrepls
  have hhanded := h.handed
  split_ifs at hv hhanded with hf
  · refine ⟨fun _ => by simp [Mds.written, hhanded], fun hsame => absurd ?_ hv⟩
    have hwalk := walked_stateAt ret (cons_ne_nil i []) (nodup_singleton i) (by simpa using hi) tract m.st k i
    rw [if_pos rfl, if_pos (by simp), ← hrepls] at hwalk
    exact hwalk.symm.trans (hsame i)
  have hid : (t.st.bmap k).repls = (m.st.bmap k).repls := by
    refine hrepls.trans (walkLoop_id _ _ _ _ _ _ fun j hj => ?_)
    obtain rfl : j = i := by simpa [walkTargets, WalkFlags.none] using hj
    exact hv
  refine ⟨?_, fun _ => ⟨hid, by simp [Mds.written, hhanded]⟩⟩
  rintro ⟨n, hn⟩
  rw [Mds.state, St.state, hid] at hn
  exact absurd rfl hn

end One

/-! ### All bmaps of a request -/

/-- The bmaps with these numbers are walked over in turn, or skipped. -/
inductive WalksAll (tract : Tract) (ret : Retifset) (site : Site) (fid i : ℕ) : List ℕ → Mds → Mds → Prop where
  | nil (m : Mds) : WalksAll tract ret site fid i [] m m
  | skip {bno : ℕ} {bnos : List ℕ} {m u : Mds} (h : WalksAll tract ret site fid i bnos m u) :
    WalksAll tract ret site fid i (bno :: bnos) m u
  | walk {bno : ℕ} {bnos : List ℕ} {m t u : Mds} (h : Walks tract ret site ⟨fid, bno⟩ i m t)
    (h' : WalksAll tract ret site fid i bnos t u) : WalksAll tract ret site fid i (bno :: bnos) m u

section All
variable {tract : Tract} {ret : Retifset} {fid i : ℕ} {bnos : List ℕ}

theorem Walks.all {bno : ℕ} (h : Walks tract ret site ⟨fid, bno⟩ i m t) : WalksAll tract ret site fid i [bno] m t :=
  .walk h (.nil t)

theorem WalksAll.untouched (h : WalksAll tract ret site fid i bnos m u) (hk : ∀ bno ∈ bnos, k ≠ ⟨fid, bno⟩) :
    Untouched k m u := by
  induction h with
  | nil m => exact .refl k m
  | skip _ ih => exact ih (forall_mem_cons.mp hk).2
  | walk h _ ih => exact (h.untouched (forall_mem_cons.mp hk).1).trans (ih (forall_mem_cons.mp hk).2)

theorem WalksAll.logged (h : WalksAll tract ret site fid i bnos m u) (hret : LogsMoves tract ret)
    (hi : i < site.nrepls ⟨fid, 0⟩) (hnd : bnos.Nodup) (k : BmapId) : Logged k m u := by
  induction h with
  | nil m => exact (Untouched.refl k m).logged
  | skip _ ih => exact ih (nodup_cons.mp hnd).2
  | @walk bno bnos m t u h h' ih =>
    obtain ⟨hno, hnd⟩ := nodup_cons.mp hnd
    by_cases hk : k = ⟨fid, bno⟩
    · -- none of the later bmaps is this one
      subst hk
      exact (h.logged hret hi).trans_untouched (h'.untouched fun b hb he => hno ((BmapId.mk.inj he).2 ▸ hb))
    · exact (h.untouched hk).trans_logged (ih hnd)

variable {env : RqEnv}

theorem addrqAll_walksAll (sprio uprio : ℤ) : ∀ (bnos : List ℕ) (someAct allAct : Bool) (m : Mds),
    WalksAll addrqTract addrqRetAll site fid i bnos m (addrqAll site env fid [i] sprio uprio bnos someAct allAct m).2.2
  | [], _, _, m => .nil m
  | bno :: bnos, _, _, m => by
    rw [addrqAll]
    split_ifs
    · exact .skip (addrqAll_walksAll sprio uprio bnos _ _ m)
    · exact .skip (addrqAll_walksAll sprio uprio bnos _ _ m)
    · exact .walk (addrqBmap_walks sprio uprio) (addrqAll_walksAll sprio uprio bnos _ _ _)

theorem delrqAll_walksAll : ∀ (bnos : List ℕ) (rc : RqRc) (allInvalid : ℕ) (m : Mds),
    WalksAll delrqTract delrqRetAll site fid i bnos m (delrqAll site env fid [i] bnos rc allInvalid m).2.2
  | [], _, _, m => .nil m
  | bno :: bnos, _, _, m => by
    rw [delrqAll]
    split_ifs
    · exact .skip (delrqAll_walksAll bnos _ _ m)
    · exact .walk delrqBmap_walks (delrqAll_walksAll bnos _ _ _)
    · exact .skip (delrqAll_walksAll bnos _ _ m)

end All

theorem logsMoves : LogsMoves addrqTract addrqRetAll ∧ LogsMoves addrqTract addrqRetOne ∧
    LogsMoves delrqTract delrqRetAll ∧ LogsMoves delrqTract delrqRetOne := by
  refine ⟨?_, ?_, ?_, ?_⟩ <;> intro v <;> cases v <;> decide

end Slash2.Upsch
