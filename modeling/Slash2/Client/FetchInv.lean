/-
# What a read relies on

The launches of a request go through its pages chunk by chunk until one fails (`Follows`). Pages
advance: one keeps the data that it has for any request, and one that is `FAULTING`, has an error
or has the data keeps one of the three. What a read relies on is kept by all such changes; errors
that are cleared are the exception.

Key theorem: `Inv.clear`.
-/
import Mathlib.Algebra.Order.BigOperators.Group.List
import Mathlib.Algebra.Order.Ring.Nat
import Slash2.Client.Fetch

namespace Slash2.Client.Fetch

open Lib List Option
open Bool (false_ne_true)

/-! ### The launches of a request -/

inductive Follows (rcs : ℕ → ℤ) : ℕ → List (List ℕ) → Launches → Prop where
  | done (n : ℕ) : Follows rcs n [] ⟨[], 0, []⟩
  | sent {n : ℕ} {g : List ℕ} {gs : List (List ℕ)} {l : Launches} : rcs n = 0 → Follows rcs (n + 1) gs l →
      Follows rcs n (g :: gs) (l.push g)
  | failed {n : ℕ} {g : List ℕ} {gs : List (List ℕ)} {rest : List ℕ} : rcs n ≠ 0 →
      (rest = gs.flatten ∨ ∃ e ∈ g, rest = e :: gs.flatten) → Follows rcs n (g :: gs) ⟨[(g, rcs n)], rcs n, rest⟩

variable {rcs : ℕ → ℤ} {n : ℕ}

theorem launchLoop_join {off : ℕ → ℕ} {e next : ℕ} {es cur : List ℕ} (h : ¬(cur ≠ [] ∧ off e ≠ next)) :
    launchLoop off rcs (e :: es) cur next n =
      if (cur ++ [e]).length = bmpcMaxbufsrpc ∨ es = [] then
        if rcs n ≠ 0 then ⟨[(cur ++ [e], rcs n)], rcs n, e :: es⟩
        else (launchLoop off rcs es [] (off e + bmpcBufsz) (n + 1)).push (cur ++ [e])
      else launchLoop off rcs es (cur ++ [e]) (off e + bmpcBufsz) n := by
  simp only [launchLoop, h, false_and, if_false]

theorem launchLoop_cut {off : ℕ → ℕ} {e next : ℕ} {es cur : List ℕ} (h : cur ≠ [] ∧ off e ≠ next) :
    launchLoop off rcs (e :: es) cur next n =
      if rcs n ≠ 0 then ⟨[(cur, rcs n)], rcs n, e :: es⟩ else (launchLoop off rcs (e :: es) [] next (n + 1)).push cur := by
  rw [launchLoop_join (fun hne => hne.1 rfl)]
  simp only [launchLoop, h, true_and, if_true, ne_eq, not_false_eq_true, and_self]

theorem launchLoop_follows (off : ℕ → ℕ) (rcs : ℕ → ℤ) : ∀ (es cur : List ℕ) (next n : ℕ),
    (∀ z ∈ cur.getLast?, next = off z + bmpcBufsz) →
    Follows rcs n (chunks bmpcMaxbufsrpc (follow off) cur es) (launchLoop off rcs es cur next n)
  | [], _, _, n, _ => .done n
  | e :: es, cur, next, n, hnext => by
    have hgap : (cur ≠ [] ∧ off e ≠ next) ↔ breaks (follow off) cur e := by
      rcases hlast : cur.getLast? with - | z
      · simp [breaks, getLast?_eq_none_iff.mp hlast]
      have hne : cur ≠ [] := by
        rintro rfl
        simp at hlast
      simp [breaks, follow, hlast, hne, hnext z hlast]
    have hjoin (cur : List ℕ) (n : ℕ) (hcut : breaks (follow off) cur e = false) (hgap : ¬(cur ≠ [] ∧ off e ≠ next)) :
        Follows rcs n (chunks bmpcMaxbufsrpc (follow off) cur (e :: es)) (launchLoop off rcs (e :: es) cur next n) := by
      have hlast : (cur ++ [e]).getLast? = some e := by simp
      rw [chunks_join hcut, launchLoop_join hgap]
      split_ifs with hend hrc
      · refine .failed hrc (.inr ⟨e, mem_of_getLast? hlast, ?_⟩)
        rw [chunks_nil_flatten]
      · exact .sent (not_not.mp hrc) (launchLoop_follows off rcs es [] _ _ (by simp))
      · refine launchLoop_follows off rcs es _ _ _ fun z hz => ?_
        rw [some.inj (hlast.symm.trans hz)]
    cases hcut : breaks (follow off) cur e with
    | true =>
      rw [chunks_cut hcut, launchLoop_cut (hgap.mpr hcut)]
      split_ifs with hrc
      · exact .failed hrc (.inl chunks_nil_flatten.symm)
      · exact .sent (not_not.mp hrc) (hjoin [] (n + 1) rfl fun h => h.1 rfl)
    | false => exact hjoin cur n hcut fun h => false_ne_true (hcut.symm.trans (hgap.mp h))

theorem Follows.parts {gs : List (List ℕ)} {l : Launches} (h : Follows rcs n gs l) :
    (∀ g ∈ l.sent, g ∈ gs) ∧ ∃ left, l.sent.flatten ++ left = gs.flatten ∧ ∀ k, k ∈ l.failed ↔ k ∈ left := by
  induction h with
  | done => exact ⟨by simp [Launches.sent], [], rfl, by simp [Launches.failed]⟩
  | @sent n g gs l hrc _ ih =>
    obtain ⟨hsent, left, hleft, hfailed⟩ := ih
    have hs : (l.push g).sent = g :: l.sent := by simp [Launches.push, Launches.sent]
    have hf : (l.push g).failed = l.failed := by simp [Launches.push, Launches.failed]
    refine ⟨fun g' hg' => ?_, left, ?_, fun k => by rw [hf]; exact hfailed k⟩
    · exact (mem_cons.mp hg').elim (fun h => h ▸ mem_cons_self) fun h => mem_cons_of_mem g (hsent g' h)
    · rw [hs, flatten_cons, append_assoc, hleft, flatten_cons]
  | @failed n g gs rest hrc hrest =>
    refine ⟨by simp [Launches.sent, hrc], g ++ gs.flatten, by simp [Launches.sent, hrc], fun k => ?_⟩
    rcases hrest with rfl | ⟨e, he, rfl⟩
    · simp [Launches.failed, hrc]
    have hk : k = e → k ∈ g := fun h => h ▸ he
    simp only [Launches.failed, hrc, ne_eq, not_false_eq_true, decide_true, filter_cons_of_pos, filter_nil,
      map_cons, map_nil, flatten_cons, flatten_nil, append_nil, mem_append, mem_cons]
    tauto

/-! ### The parts of a request -/

theorem pieceLoop_pos (i : ℕ) : ∀ {toff tsize : ℕ}, i * bmpcBufsz < tsize → 0 < (pieceLoop i toff tsize).2 := by
  induction i with
  | zero =>
    intro toff tsize h
    exact Nat.lt_min.mpr ⟨by decide, by omega⟩
  | succ i ih =>
    intro toff tsize h
    rw [Nat.succ_mul] at h
    exact ih (by omega)

theorem Req.piece_zero (r : Req) : (r.piece 0).2 = min (bmpcBufsz - r.off % bmpcBufsz) r.len := by
  have hmod := Nat.mod_le r.off bmpcBufsz
  rw [Req.piece]
  unfold Req.aoff
  split_ifs
  · rw [Nat.sub_sub_self hmod]
  · rw [show r.off % bmpcBufsz = 0 by omega, Nat.sub_zero]

theorem Req.piece_succ (r : Req) (i : ℕ) :
    r.piece (i + 1) = pieceLoop i (r.off + (r.piece 0).2) (r.len - (r.piece 0).2) := rfl

variable {r : Req}

theorem Req.piece_pos (hlen : 0 < r.len) {i : ℕ} (hi : i < npages r.off r.len) : 0 < (r.piece i).2 := by
  have hmod := Nat.mod_lt r.off (show 0 < bmpcBufsz by decide)
  have hzero := r.piece_zero
  cases i with
  | zero => omega
  | succ i =>
    rw [Req.piece_succ]
    refine pieceLoop_pos i ?_
    rw [hzero]
    unfold npages at hi
    unfold bmpcBufsz at hi hmod ⊢
    dsimp only at hi
    split_ifs at hi <;> omega

def Bmpce.Ready (e : Bmpce) (p : ℕ × ℕ) : Prop := e.faulting ∨ e.eio ∨ e.usable p

structure Advance (e e' : Bmpce) : Prop where
  off : e'.off = e.off
  usable : ∀ p : ℕ × ℕ, 0 < p.2 → e.usable p → e'.usable p
  ready : ∀ p : ℕ × ℕ, 0 < p.2 → e.Ready p → e'.Ready p

theorem Advance.refl (e : Bmpce) : Advance e e := ⟨rfl, fun _ _ h => h, fun _ _ h => h⟩

variable {e e' : Bmpce}

theorem advance_of_eio (hoff : e'.off = e.off) (husable : e'.usable = e.usable) (heio : e'.eio) :
    Advance e e' :=
  ⟨hoff, fun _ _ h => husable ▸ h, fun _ _ _ => .inr (.inl heio)⟩

theorem advance_rpcDone (rc : ℤ) (e : Bmpce) : Advance e (e.rpcDone rc) := by
  unfold Bmpce.rpcDone
  split_ifs with hrc
  · exact advance_of_eio rfl rfl rfl
  · exact ⟨rfl, fun p _ _ => by simp [Bmpce.usable], fun p _ _ => .inr (.inr (by simp [Bmpce.usable]))⟩

theorem advance_mark (e : Bmpce) : Advance e { e with faulting := true } :=
  ⟨rfl, fun _ _ h => h, fun _ _ _ => .inl rfl⟩

/-- A page becomes usable for more; only `DATARDY` changes. -/
structure Fills (e e' : Bmpce) : Prop where
  advance : Advance e e'
  faulting : e'.faulting = e.faulting
  eio : e'.eio = e.eio
  rc : e'.rc = e.rc
  aiowait : e'.aiowait = e.aiowait

theorem fills_of_usable (hoff : e'.off = e.off) (hfaulting : e'.faulting = e.faulting)
    (heio : e'.eio = e.eio) (hrc : e'.rc = e.rc) (haio : e'.aiowait = e.aiowait)
    (husable : ∀ p : ℕ × ℕ, 0 < p.2 → e.usable p → e'.usable p) : Fills e e' where
  advance := ⟨hoff, husable, fun p hp h => by
    rcases h with h | h | h
    · exact .inl (hfaulting.trans h)
    · exact .inr (.inl (heio.trans h))
    · exact .inr (.inr (husable p hp h))⟩
  faulting := hfaulting
  eio := heio
  rc := hrc
  aiowait := haio

theorem fills_copyin (q : ℕ × ℕ) (e : Bmpce) : Fills e (e.copyin q) := by
  unfold Bmpce.copyin
  split_ifs with hwhole hlen hhull <;> refine fills_of_usable rfl rfl rfl rfl rfl fun p hp h => ?_
  · simp [Bmpce.usable]
  · simp only [Bmpce.usable, Bool.or_eq_true, Bool.and_eq_true, decide_eq_true_eq] at h ⊢
    exact h.imp_right fun h => by omega
  · simp only [Bmpce.usable, Bool.or_eq_true, Bool.and_eq_true, decide_eq_true_eq] at h ⊢
    refine h.imp_right fun h => ?_
    rw [hullStart_add_hullLen]
    unfold hullStart
    split_ifs <;> omega
  · exact h

theorem Fills.trans {e e' e'' : Bmpce} (h : Fills e e') (h' : Fills e' e'') : Fills e e'' :=
  fills_of_usable (h'.advance.off.trans h.advance.off) (h'.faulting.trans h.faulting) (h'.eio.trans h.eio)
    (h'.rc.trans h.rc) (h'.aiowait.trans h.aiowait)
    fun p hp hu => h'.advance.usable p hp (h.advance.usable p hp hu)

def Changes (F : ℕ → Bmpce → Bmpce) (l l' : List Bmpce) : Prop := ∀ k : ℕ, l'[k]? = l[k]?.map (F k)

variable {f : Bmpce → Bmpce}

theorem changes_modifyAll (hf : ∀ e, f (f e) = f e) (g : List ℕ) (l : List Bmpce) :
    Changes (fun k => if k ∈ g then f else id) l (modifyAll g f l) := by
  intro k
  rw [getElem?_modifyAll hf]
  dsimp only
  split_ifs
  · rfl
  · exact map_id'.symm

theorem copyinLoop_changes (r : Req) : ∀ (ks : List ℕ) (j : ℕ) (l : List Bmpce),
    ∃ F : ℕ → Bmpce → Bmpce, Changes F l (copyinLoop r j ks l) ∧ ∀ k e, Fills e (F k e)
  | [], _, _ => ⟨fun _ => id, fun _ => map_id'.symm, fun _ e => ⟨Advance.refl e, rfl, rfl, rfl, rfl⟩⟩
  | k :: ks, j, l => by
    obtain ⟨F, hF, hfills⟩ := copyinLoop_changes r ks (j + 1) (l.modify k (Bmpce.copyin (r.piece j)))
    refine ⟨fun n e => F n (if k = n then e.copyin (r.piece j) else e), fun n => ?_, fun n e => ?_⟩
    · rw [copyinLoop, hF n, getElem?_modify]
      cases l[n]? <;> by_cases hn : k = n <;> simp [hn]
    · dsimp only
      split_ifs
      · exact (fills_copyin _ e).trans (hfills n _)
      · exact hfills n e

/-! ### What a request relies on -/

/-- What is known of page number `j` of a read. -/
def Pc.Gives (pc : Pc) (j : ℕ) (e : Bmpce) (p : ℕ × ℕ) : Prop :=
  match pc with
  | .mark i _ => j < i → e.Ready p
  | .wait i => (j < i → e.usable p) ∧ (i ≤ j → e.Ready p)
  | .ret rc => rc = 0 → e.usable p
  | .done => True

variable {j : ℕ} {p : ℕ × ℕ}

theorem Pc.Gives.advance {pc : Pc} (h : pc.Gives j e p) (he : Advance e e') (hp : 0 < p.2) : pc.Gives j e' p := by
  cases pc with
  | mark => exact fun hj => he.ready p hp (h hj)
  | wait => exact ⟨fun hj => he.usable p hp (h.1 hj), fun hj => he.ready p hp (h.2 hj)⟩
  | ret => exact fun hrc => he.usable p hp (h hrc)
  | done => trivial

structure Req.Ok (pages : List Bmpce) (r : Req) : Prop where
  quiet : r.waiting = none
  marked : ∀ k ∈ r.pc.marked, ∃ e, pages[k]? = some e
  len : r.kind ≠ .readahead → 0 < r.len
  count : r.kind ≠ .readahead → r.pages.length = npages r.off r.len
  laid : r.kind ≠ .readahead → ∀ (j k : ℕ), r.pages[j]? = some k →
    ∃ e, pages[k]? = some e ∧ e.off = r.aoff + j * bmpcBufsz
  gives : r.kind = .read → ∀ (j k : ℕ) e, r.pages[j]? = some k → pages[k]? = some e → r.pc.Gives j e (r.piece j)

variable {pages : List Bmpce}

theorem Req.Ok.pos (h : r.Ok pages) (hread : r.kind = .read) {k : ℕ}
    (hk : r.pages[j]? = some k) : 0 < (r.piece j).2 := by
  have hkind : r.kind ≠ .readahead := by rw [hread]; decide
  refine r.piece_pos (h.len hkind) ?_
  rw [← h.count hkind]
  exact (List.getElem?_eq_some_iff.mp hk).1

theorem Req.Ok.changed {pages pages' : List Bmpce} {F : ℕ → Bmpce → Bmpce} (h : r.Ok pages)
    (hF : Changes F pages pages') (hoff : ∀ (k : ℕ) e, pages[k]? = some e → (F k e).off = e.off)
    (hgives : r.kind = .read → ∀ (j k : ℕ) e, r.pages[j]? = some k → pages[k]? = some e →
      r.pc.Gives j e (r.piece j) → r.pc.Gives j (F k e) (r.piece j)) : r.Ok pages' where
  quiet := h.quiet
  marked k hk := by
    obtain ⟨e, he⟩ := h.marked k hk
    exact ⟨F k e, by rw [hF, he, map_some]⟩
  len := h.len
  count := h.count
  laid hkind j k hk := by
    obtain ⟨e, he, hlaid⟩ := h.laid hkind j k hk
    refine ⟨F k e, ?_, (hoff k e he).trans hlaid⟩
    rw [hF, he, map_some]
  gives hread j k e' hk he' := by
    rw [hF] at he'
    obtain ⟨e, he, rfl⟩ := map_eq_some_iff.mp he'
    exact hgives hread j k e hk he (h.gives hread j k e hk he)

theorem Req.Ok.advance {pages pages' : List Bmpce} {F : ℕ → Bmpce → Bmpce} (h : r.Ok pages)
    (hF : Changes F pages pages') (hadv : ∀ (k : ℕ) e, pages[k]? = some e → Advance e (F k e)) : r.Ok pages' :=
  h.changed hF (fun k e he => (hadv k e he).off) fun hread _ k e hk he hg => hg.advance (hadv k e he) (h.pos hread hk)

theorem Req.Ok.goto {r' : Req} (h : r.Ok pages) (hkind : r'.kind = r.kind) (hoff : r'.off = r.off)
    (hlen : r'.len = r.len) (hpages : r'.pages = r.pages) (hquiet : r'.waiting = none)
    (hmarked : ∀ k ∈ r'.pc.marked, ∃ e, pages[k]? = some e)
    (hgives : r.kind = .read → ∀ (j k : ℕ) e, r.pages[j]? = some k → pages[k]? = some e →
      r'.pc.Gives j e (r.piece j)) : r'.Ok pages := by
  obtain ⟨kind, off, len, ps, err, waiting, pc⟩ := r'
  cases hkind
  cases hoff
  cases hlen
  cases hpages
  exact ⟨hquiet, hmarked, h.len, h.count, h.laid, hgives⟩

theorem nomarks : ∀ k ∈ ([] : List ℕ), ∃ e, pages[k]? = some e := fun _ hk => absurd hk not_mem_nil

/-- **The invariant**, with the pages `hand` in hand. -/
structure Inv (hand : List ℕ) (s : State) : Prop where
  copyout : s.died ≠ some .copyout
  faulting : ∀ (k : ℕ) e, s.pages[k]? = some e → s.owners k + hand.count k = if e.faulting then 1 else 0
  errors : ∀ (k : ℕ) e, s.pages[k]? = some e → e.eio → e.rc ≠ 0
  noaio : ∀ (k : ℕ) e, s.pages[k]? = some e → e.aiowait = false
  rpcs : ∀ c ∈ s.rpcs, IsChunk bmpcMaxbufsrpc s.adj c.pages
  reqs : ∀ r ∈ s.reqs, r.Ok s.pages

variable {s s' : State} {hand hand' g : List ℕ} {i : ℕ} {r' : Req} {F : ℕ → Bmpce → Bmpce} {pages' : List Bmpce}

theorem off_changes (hF : Changes F s.pages pages') (hoff : ∀ (k : ℕ) e, s.pages[k]? = some e → (F k e).off = e.off) :
    State.off { s with pages := pages' } = s.off := by
  funext k
  unfold State.off
  rw [hF]
  cases he : s.pages[k]? with
  | none => rfl
  | some e => exact hoff k e he

theorem Inv.changed (h : Inv hand s) (hF : Changes F s.pages pages')
    (hoff : ∀ (k : ℕ) e, s.pages[k]? = some e → (F k e).off = e.off)
    (hfault : ∀ (k : ℕ) e, s.pages[k]? = some e → s.owners k + hand'.count k = if (F k e).faulting then 1 else 0)
    (herr : ∀ (k : ℕ) e, s.pages[k]? = some e → (F k e).eio → (F k e).rc ≠ 0)
    (hnoaio : ∀ (k : ℕ) e, s.pages[k]? = some e → (F k e).aiowait = false) (hreqs : ∀ r ∈ s.reqs, r.Ok pages') :
    Inv hand' { s with pages := pages' } where
  copyout := h.copyout
  faulting k e' he' := by
    obtain ⟨e, he, rfl⟩ := map_eq_some_iff.mp ((hF k).symm.trans he')
    exact hfault k e he
  errors k e' he' := by
    obtain ⟨e, he, rfl⟩ := map_eq_some_iff.mp ((hF k).symm.trans he')
    exact herr k e he
  noaio k e' he' := by
    obtain ⟨e, he, rfl⟩ := map_eq_some_iff.mp ((hF k).symm.trans he')
    exact hnoaio k e he
  rpcs := by
    unfold State.adj
    rw [off_changes hF hoff]
    exact h.rpcs
  reqs := hreqs

theorem Inv.modPages (h : Inv hand s) (hf : ∀ e, f (f e) = f e) (hout : ∀ k ∉ g, hand'.count k = hand.count k)
    (hin : ∀ k ∈ g, ∀ e, s.pages[k]? = some e → Advance e (f e) ∧
      (s.owners k + hand'.count k = if (f e).faulting then 1 else 0) ∧ ((f e).eio → (f e).rc ≠ 0) ∧
      (f e).aiowait = false) : Inv hand' (s.modPages g f) := by
  have hsplit {P : Bmpce → Prop} {k : ℕ} {e : Bmpce} (h₁ : k ∈ g → P (f e)) (h₂ : k ∉ g → P e) :
      P ((if k ∈ g then f else id) e) := by
    split_ifs with hk
    · exact h₁ hk
    · exact h₂ hk
  have hF := changes_modifyAll hf g s.pages
  have hadv (k : ℕ) e (he : s.pages[k]? = some e) : Advance e ((if k ∈ g then f else id) e) :=
    hsplit (fun hk => (hin k hk e he).1) fun _ => .refl e
  refine h.changed hF (fun k e he => (hadv k e he).off) (fun k e he => ?_) (fun k e he => ?_) (fun k e he => ?_)
    fun r hr => (h.reqs r hr).advance hF hadv
  · refine hsplit (P := fun e => s.owners k + hand'.count k = if e.faulting then 1 else 0) (fun hk => (hin k hk e he).2.1)
      fun hk => ?_
    rw [hout k hk]
    exact h.faulting k e he
  · exact hsplit (P := fun e => e.eio → e.rc ≠ 0) (fun hk => (hin k hk e he).2.2.1) fun _ => h.errors k e he
  · exact hsplit (P := fun e => e.aiowait = false) (fun hk => (hin k hk e he).2.2.2) fun _ => h.noaio k e he

theorem Inv.settle (h : Inv (g ++ hand) s) (hf : ∀ e, f (f e) = f e) (hadv : ∀ e, Advance e (f e))
    (hfault : ∀ e, (f e).faulting = false) (herr : ∀ e : Bmpce, (e.eio → e.rc ≠ 0) → (f e).eio → (f e).rc ≠ 0)
    (hnoaio : ∀ e : Bmpce, e.aiowait = false → (f e).aiowait = false) : Inv hand (s.modPages g f) := by
  refine h.modPages hf (fun k hk => ?_) fun k hk e he =>
    ⟨hadv e, ?_, herr e (h.errors k e he), hnoaio e (h.noaio k e he)⟩
  · rw [count_append, count_eq_zero.mpr hk, Nat.zero_add]
  · have hcount := h.faulting k e he
    have hpos := count_pos_iff.mpr hk
    rw [count_append] at hcount
    rw [hfault, if_neg Bool.false_ne_true]
    split_ifs at hcount <;> omega

theorem Inv.touch (h : Inv hand s) (hf : ∀ e, f (f e) = f e) (hadv : ∀ e, Advance e (f e))
    (hfault : ∀ k ∈ g, ∀ e, s.pages[k]? = some e → (f e).faulting = e.faulting)
    (herr : ∀ k ∈ g, ∀ e, s.pages[k]? = some e → (f e).rc ≠ 0) (hnoaio : ∀ e, (f e).aiowait = e.aiowait) :
    Inv hand (s.modPages g f) := by
  refine h.modPages hf (fun _ _ => rfl) fun k hk e he =>
    ⟨hadv e, ?_, fun _ => herr k hk e he, (hnoaio e).trans (h.noaio k e he)⟩
  rw [hfault k hk e he]
  exact h.faulting k e he

theorem Inv.setReq (h : Inv hand s) (hi : s.reqs[i]? = some r) (hr' : r'.Ok s.pages)
    (hcount : ∀ k, hand'.count k + r'.pc.marked.count k = hand.count k + r.pc.marked.count k) :
    Inv hand' (s.setReq i r') where
  copyout := h.copyout
  faulting k e he := by
    have hfault := h.faulting k e he
    have hsum := sum_map_set (x := r') (fun r => r.pc.marked.count k) hi
    have hk := hcount k
    unfold State.owners State.setReq at *
    dsimp only at *
    omega
  errors := h.errors
  noaio := h.noaio
  rpcs := h.rpcs
  reqs := forall_mem_set h.reqs hr'

theorem Inv.addReq (h : Inv hand s) (hr : r.Ok s.pages) (hmarked : r.pc.marked = []) :
    Inv hand { s with reqs := s.reqs ++ [r] } where
  copyout := h.copyout
  faulting k e he := by
    have hfault := h.faulting k e he
    unfold State.owners at *
    simpa [hmarked] using hfault
  errors := h.errors
  noaio := h.noaio
  rpcs := h.rpcs
  reqs := forall_mem_snoc h.reqs hr

theorem Inv.addRpc (h : Inv (g ++ hand) s) (hg : IsChunk bmpcMaxbufsrpc s.adj g) :
    Inv hand { s with rpcs := s.rpcs ++ [⟨g, i, false, false⟩] } where
  copyout := h.copyout
  faulting k e he := by
    have hfault := h.faulting k e he
    rw [count_append] at hfault
    unfold State.owners at *
    rw [map_append, sum_append, map_singleton, sum_singleton, if_neg Bool.false_ne_true]
    dsimp only
    omega
  errors := h.errors
  noaio := h.noaio
  rpcs := forall_mem_snoc h.rpcs hg
  reqs := h.reqs

theorem Inv.endRpc (h : Inv hand s) {c : Rpc} (hn : s.rpcs[n]? = some c) (hover : c.ended = false) :
    Inv (c.pages ++ hand) { s with rpcs := s.rpcs.set n { c with ended := true } } where
  copyout := h.copyout
  faulting k e he := by
    have hfault := h.faulting k e he
    have hsum := sum_map_set (x := { c with ended := true }) (fun c => if c.ended then 0 else c.pages.count k) hn
    rw [hover, if_pos rfl, if_neg Bool.false_ne_true] at hsum
    rw [count_append]
    unfold State.owners at *
    dsimp only at *
    omega
  errors := h.errors
  noaio := h.noaio
  rpcs := forall_mem_set h.rpcs (h.rpcs c (mem_of_getElem? hn))
  reqs := h.reqs

/-! ### Errors that are cleared -/

/-- The same page, but for an error that is cleared. -/
structure Cleared (e e' : Bmpce) : Prop where
  off : e'.off = e.off
  faulting : e'.faulting = e.faulting
  aiowait : e'.aiowait = e.aiowait
  usable : e'.usable = e.usable
  eio : e'.eio → e.eio ∧ e'.rc = e.rc
  same : e.eio = false → e' = e

theorem Cleared.refl (e : Bmpce) : Cleared e e := ⟨rfl, rfl, rfl, rfl, fun h => ⟨h, rfl⟩, fun _ => rfl⟩

theorem cleared_lookup (e : Bmpce) : Cleared e e.lookup := by
  unfold Bmpce.lookup
  split_ifs with h
  · exact ⟨rfl, rfl, rfl, rfl, fun h => absurd h false_ne_true, fun hno => by simp [hno] at h⟩
  · exact .refl e

theorem cleared_clear (e : Bmpce) : Cleared e e.clear := by
  unfold Bmpce.clear
  split_ifs with h
  · exact ⟨rfl, rfl, rfl, rfl, fun h => absurd h false_ne_true, fun hno => by simp [hno] at h⟩
  · exact .refl e

theorem Pc.Gives.cleared {k : ℕ} (h : r.pc.Gives j e p) (hread : r.kind = .read)
    (hk : r.pages[j]? = some k) (he : Cleared e e') (hneeds : e.eio → ¬r.needs k) : r.pc.Gives j e' p := by
  cases heio : e.eio with
  | false => rwa [he.same heio]
  | true =>
    have hno := hneeds heio
    unfold Req.needs at hno
    cases hpc : r.pc with
    | mark i =>
      rw [hpc] at hno
      intro hj
      refine absurd ⟨hread, mem_of_getElem? (i := j) ?_⟩ hno
      rw [getElem?_take_of_lt hj, hk]
    | wait i =>
      rw [hpc] at h hno
      refine ⟨fun hj => he.usable ▸ h.1 hj, fun hj => absurd ⟨hread, mem_of_getElem? (i := j - i) ?_⟩ hno⟩
      rw [getElem?_drop, Nat.add_sub_cancel' hj, hk]
    | ret =>
      rw [hpc] at h
      exact fun hrc => he.usable ▸ h hrc
    | done => trivial

theorem Req.Ok.cleared (h : r.Ok pages) (hF : Changes F pages pages') (hcl : ∀ k e, Cleared e (F k e))
    (hneeds : ∀ (k : ℕ) e, pages[k]? = some e → F k e ≠ e → e.eio → ¬r.needs k) : r.Ok pages' := by
  refine h.changed hF (fun k e _ => (hcl k e).off) fun hread j k e hk he hgives => ?_
  by_cases hsame : F k e = e
  · rwa [hsame]
  · exact hgives.cleared hread hk (hcl k e) (hneeds k e he hsame)

theorem Inv.clear (h : Inv hand s) (hf : ∀ e, f (f e) = f e) (hcl : ∀ e, Cleared e (f e))
    (hneeds : ∀ k ∈ g, ∀ e, s.pages[k]? = some e → e.eio → ∀ q ∈ s.reqs, ¬q.needs k) : Inv hand (s.modPages g f) := by
  obtain ⟨F, hFdef⟩ : ∃ F : ℕ → Bmpce → Bmpce, (fun k => if k ∈ g then f else id) = F := ⟨_, rfl⟩
  have hF : Changes F s.pages (modifyAll g f s.pages) := hFdef ▸ changes_modifyAll hf g s.pages
  have hcl (k : ℕ) (e : Bmpce) : Cleared e (F k e) := by
    rw [← hFdef]
    dsimp only
    split_ifs
    · exact hcl e
    · exact .refl e
  have hout (k : ℕ) (e : Bmpce) (hne : F k e ≠ e) : k ∈ g := by
    by_contra hk
    rw [← hFdef] at hne
    exact hne (congrFun (if_neg hk) e)
  refine h.changed hF (fun k e _ => (hcl k e).off) (fun k e he => ?_) (fun k e he heio => ?_)
    (fun k e he => (hcl k e).aiowait.trans (h.noaio k e he)) fun q hq => (h.reqs q hq).cleared hF hcl
      fun k e he hne heio => hneeds k (hout k e hne) e he heio q hq
  · rw [(hcl k e).faulting]
    exact h.faulting k e he
  · rw [((hcl k e).eio heio).2]
    exact h.errors k e he ((hcl k e).eio heio).1

end Slash2.Client.Fetch
