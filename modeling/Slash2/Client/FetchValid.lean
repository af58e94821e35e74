/-
# A read that returns has its pages

Every step keeps the invariant if it is `Guarded`. A read that looks at a page that is not
`FAULTING` then finds the data or an error that is not zero, so that the pages of one that returns
0 are all there (`sound_of_guarded`). Without one of the conditions an assertion fails
(`unsound_three_ways`).
-/
import Mathlib.Data.List.Nodup
import Slash2.Client.FetchInv

namespace Slash2.Client.Fetch

open Lib List Option

variable {s s' : State} {pages : List Bmpce} {ps hand g : List ℕ} {rc : ℤ} {i j : ℕ} {r r' : Req}

/-! ### The steps keep the invariant -/

theorem inv_init (pages : List (ℕ × Bool)) : Inv [] (State.init pages) := by
  have hfresh (k : ℕ) (e : Bmpce) (he : (State.init pages).pages[k]? = some e) :
      e.faulting = false ∧ e.eio = false ∧ e.aiowait = false := by
    obtain ⟨p, -, rfl⟩ := mem_map.mp (mem_of_getElem? he)
    exact ⟨rfl, rfl, rfl⟩
  refine ⟨by simp [State.init], fun k e he => ?_, fun k e he heio => ?_, fun k e he => (hfresh k e he).2.2,
    fun c hc => absurd hc not_mem_nil, fun r hr => absurd hr not_mem_nil⟩
  · rw [(hfresh k e he).1]
    rfl
  · rw [(hfresh k e he).2.1] at heio
    exact absurd heio Bool.false_ne_true

theorem mslReadRpcLaunch_inv (h : Inv (g ++ hand) s) (hg : IsChunk bmpcMaxbufsrpc s.adj g)
    (hl : mslReadRpcLaunch i s (g, rc) = some s') : Inv hand s' := by
  unfold mslReadRpcLaunch at hl
  split_ifs at hl with hdead hrc <;> cases hl
  · exact h.addRpc hg
  · exact h.settle (fun _ => rfl) (fun e => advance_of_eio rfl rfl rfl) (fun _ => rfl) (fun _ _ _ => hrc) fun _ h => h

theorem Follows.inv {rcs : ℕ → ℤ} {n : ℕ} {gs : List (List ℕ)} {l : Launches} (h : Follows rcs n gs l) :
    ∀ {s : State}, (∀ m, n + m + 1 < n + gs.length → rcs (n + m) = 0) → Inv gs.flatten s →
      (∀ g ∈ gs, IsChunk bmpcMaxbufsrpc s.adj g) → l.calls.foldlM (mslReadRpcLaunch i) s = some s' →
      Inv [] s' ∧ ∀ k ∈ l.rest, ∀ e, s'.pages[k]? = some e → e.faulting = false ∧ e.rc ≠ 0 := by
  induction h with
  | done n =>
    intro s _ hinv _ hl
    cases hl
    exact ⟨hinv, fun k hk => absurd hk not_mem_nil⟩
  | @sent n g gs l hrc _ ih =>
    intro s hlast hinv hgs hl
    obtain ⟨s₁, hs₁, hl⟩ := bind_eq_some_iff.mp ((foldlM_cons ..).symm.trans hl)
    have hadj : s₁.adj = s.adj := by
      unfold mslReadRpcLaunch at hs₁
      split_ifs at hs₁ with hdead hz
      · cases hs₁
        rfl
      · exact absurd rfl hz
    have hinv₁ := mslReadRpcLaunch_inv hinv (hgs g mem_cons_self) hs₁
    refine ih (fun m hm => ?_) hinv₁ (fun g' hg' => hadj ▸ hgs g' (mem_cons_of_mem g hg')) hl
    have := hlast (m + 1) (by rw [length_cons]; omega)
    rwa [show n + 1 + m = n + (m + 1) by omega]
  | @failed n g gs rest hrc hrest =>
    intro s hlast hinv hgs hl
    -- it is the last one
    have hnil : gs = [] := by
      by_contra hne
      have hpos := length_pos_of_ne_nil hne
      exact hrc (hlast 0 (by rw [length_cons]; omega))
    subst hnil
    obtain ⟨s₁, hs₁, hl⟩ := bind_eq_some_iff.mp ((foldlM_cons ..).symm.trans hl)
    cases hl
    refine ⟨mslReadRpcLaunch_inv hinv (hgs g mem_cons_self) hs₁, fun k hk e he => ?_⟩
    obtain ⟨x, hx, rfl⟩ : ∃ x ∈ g, k = x := by
      rcases hrest with rfl | ⟨x, hx, rfl⟩
      · exact absurd hk not_mem_nil
      · exact ⟨x, hx, mem_singleton.mp hk⟩
    unfold mslReadRpcLaunch at hs₁
    split_ifs at hs₁ with hdead
    cases hs₁
    have hfail := getElem?_modifyAll (f := Bmpce.fail (rcs n)) (fun _ => rfl) k g s.pages
    rw [if_pos hx] at hfail
    obtain ⟨e₀, -, rfl⟩ := map_eq_some_iff.mp (hfail.symm.trans he)
    exact ⟨rfl, hrc⟩

theorem Req.Ok.launched (h : r.Ok pages) (hpc : r.pc = .mark r.pages.length ps) (rc : ℤ) :
    (r.launched rc).Ok pages := by
  have hmarked : (r.launched rc).pc.marked = [] := by
    unfold Req.launched
    split_ifs <;> rfl
  refine h.goto rfl rfl rfl rfl h.quiet (by simp [hmarked]) fun hread j k e hk he => ?_
  have hready := h.gives hread j k e hk he
  rw [hpc] at hready
  have hj : j < r.pages.length := (List.getElem?_eq_some_iff.mp hk).1
  have hkind : r.kind ≠ .readahead := by rw [hread]; decide
  rw [Req.launched, if_neg hkind]
  split_ifs with hrc
  · exact fun hz => absurd hz hrc
  · exact ⟨fun hj => absurd hj (Nat.not_lt_zero j), fun _ => hready hj⟩

theorem launch_inv (h : Inv [] s) (hi : s.reqs[i]? = some r) (hpc : r.pc = .mark r.pages.length ps)
    {rcs : List ℤ} (hlast : ∀ n < (chunks bmpcMaxbufsrpc s.adj [] ps).length - 1, rcs.getD n 0 = 0) :
    Inv [] (mslLaunchReadRpcs s i r ps rcs) := by
  have hfollows := launchLoop_follows s.off (fun n => rcs.getD n 0) ps [] 0 0 (by simp)
  have hinv : Inv (chunks bmpcMaxbufsrpc s.adj [] ps).flatten (s.setReq i (r.launched (s.launches ps rcs).rc)) := by
    rw [chunks_nil_flatten]
    refine h.setReq hi ((h.reqs r (mem_of_getElem? hi)).launched hpc _) fun k => ?_
    rw [hpc]
    unfold Req.launched
    split_ifs <;> simp [Pc.marked]
  have hchunk : ∀ g ∈ chunks bmpcMaxbufsrpc s.adj [] ps, IsChunk bmpcMaxbufsrpc s.adj g :=
    chunks_chunk (by decide) ⟨isChain_nil, Nat.zero_le _⟩ (by decide)
  unfold mslLaunchReadRpcs
  dsimp only
  split
  · rename_i hs₁
    obtain ⟨hinv₁, hrest⟩ := hfollows.inv (fun m hm => by
      rw [Nat.zero_add]
      exact hlast m (by change 0 + m + 1 < 0 + (chunks bmpcMaxbufsrpc s.adj [] ps).length at hm; omega)) hinv hchunk hs₁
    exact hinv₁.touch (fun _ => rfl) (fun e => advance_of_eio rfl rfl rfl) (fun k hk e he => (hrest k hk e he).1.symm)
      (fun k hk e he => (hrest k hk e he).2) fun _ => rfl
  · exact { h with copyout := by simp }

variable {k : ℕ} {e : Bmpce}

section
variable (h : Inv [] s) (hi : s.reqs[i]? = some r)
include h hi

theorem mark_inv (hpc : r.pc = .mark j ps) (hk : r.pages[j]? = some k) (he : s.pages[k]? = some e) :
    Inv [] (markPage s i r j ps k e) := by
  have hr := mem_of_getElem? hi
  -- one more page is ready, and those before are as they were
  have hgoto {pages : List Bmpce} {ps' : List ℕ} (hok : r.Ok pages) (hps' : ∀ k ∈ ps', ∃ e, pages[k]? = some e)
      (hready : ∀ e, pages[k]? = some e → e.Ready (r.piece j)) : Req.Ok pages { r with pc := .mark (j + 1) ps' } := by
    refine hok.goto rfl rfl rfl rfl hok.quiet hps' fun hread j' k' e' hk' he' hlt => ?_
    have hgives := hok.gives hread j' k' e' hk' he'
    rw [hpc] at hgives
    rcases Nat.lt_succ_iff_lt_or_eq.mp hlt with hlt | rfl
    · exact hgives hlt
    · obtain rfl := some.inj (hk.symm.trans hk')
      exact hready e' he'
  unfold markPage
  split_ifs with hskip
  · have hps : ∀ k ∈ ps, ∃ e, s.pages[k]? = some e := by simpa [hpc, Pc.marked] using (h.reqs r hr).marked
    refine h.setReq hi (hgoto (h.reqs r hr) hps fun e' he' => ?_) fun n => by rw [hpc]; rfl
    obtain rfl := some.inj (he.symm.trans he')
    exact hskip.imp_right .inr
  have hfault : e.faulting = false := by simpa using fun hf => hskip (.inl hf)
  have hmark : Inv [k] (s.modPages [k] fun e => { e with faulting := true }) := by
    refine h.modPages (fun _ => rfl) (fun n hn => count_eq_zero.mpr hn) fun n hn e' he' =>
      ⟨advance_mark e', ?_, h.errors n e' he', h.noaio n e' he'⟩
    obtain rfl := mem_singleton.mp hn
    have hcount := h.faulting n e he
    rw [hfault] at hcount
    rw [count_singleton_self]
    exact congrArg (· + 1) hcount
  have hat := getElem?_modifyAll (f := fun e : Bmpce => { e with faulting := true }) (fun _ => rfl) k [k] s.pages
  rw [if_pos (mem_singleton.mpr rfl), he] at hat
  refine hmark.setReq hi (hgoto (hmark.reqs r hr) (Lib.forall_mem_snoc (fun n hn => ?_) ⟨_, hat⟩) fun e' he' => ?_)
    fun n => ?_
  · exact (hmark.reqs r hr).marked n (by rwa [hpc])
  · obtain rfl := some.inj (hat.symm.trans he')
    exact .inl rfl
  · rw [hpc]
    simp only [Pc.marked, count_append, count_nil]
    omega

theorem look_inv (hpc : r.pc = .wait j) (hk : r.pages[j]? = some k) (he : s.pages[k]? = some e)
    (hl : lookPage r j k e = some r') : Inv [] (s.setReq i r') := by
  have hok := h.reqs r (mem_of_getElem? hi)
  have hwait {j' k' : ℕ} {e' : Bmpce} (hread : r.kind = .read) (hk' : r.pages[j']? = some k')
      he' : (Pc.wait j).Gives j' e' (r.piece j') := hpc ▸ hok.gives hread j' k' e' hk' he'
  have hnext (husable : r.kind = .read → e.usable (r.piece j)) : Inv [] (s.setReq i { r with pc := .wait (j + 1) }) := by
    refine h.setReq hi (hok.goto rfl rfl rfl rfl hok.quiet nomarks fun hread j' k' e' hk' he' =>
      ⟨fun hlt => ?_, fun hle => ?_⟩) fun n => by rw [hpc]; rfl
    · rcases Nat.lt_succ_iff_lt_or_eq.mp hlt with hlt | rfl
      · exact (hwait hread hk' he').1 hlt
      · obtain rfl := some.inj (hk.symm.trans hk')
        obtain rfl := some.inj (he.symm.trans he')
        exact husable hread
    · exact (hwait hread hk' he').2 (Nat.le_of_succ_le hle)
  unfold lookPage at hl
  split_ifs at hl with hfault heio hpass haio
  · cases hl
    exact h.setReq hi (hok.goto rfl rfl rfl rfl hok.quiet nomarks fun _ _ _ _ _ _ hrc =>
      absurd hrc (h.errors k e he heio)) fun n => by rw [hpc]; rfl
  · cases hl
    refine hnext fun hread => hpass.resolve_left ?_
    rw [hread]
    decide
  · rw [h.noaio k e he] at haio
    exact absurd haio Bool.false_ne_true
  cases hl
  refine hnext fun hread => ?_
  rcases (hwait hread hk he).2 le_rfl with hready | hready | hready
  · exact absurd hready hfault
  · exact absurd hready heio
  · exact hready

theorem return_inv (hpc : r.pc = .wait j) (hend : r.pages[j]? = none) :
    Inv [] (s.setReq i { r with pc := .ret 0 }) := by
  have hok := h.reqs r (mem_of_getElem? hi)
  refine h.setReq hi (hok.goto rfl rfl rfl rfl hok.quiet nomarks fun hread j' k e hk he _ => ?_) fun n => by rw [hpc]; rfl
  have hgives := hok.gives hread j' k e hk he
  rw [hpc] at hgives
  have hlt := (List.getElem?_eq_some_iff.mp hk).1
  exact hgives.1 (Nat.lt_of_lt_of_le hlt (List.getElem?_eq_none_iff.mp hend))

end

theorem completeBiorq_quiet (hquiet : ∀ r ∈ s.reqs, r.waiting = none) (k : ℕ) (rc : ℤ) : s.completeBiorq k rc = s := by
  refine foldl_fixed' (fun n => ?_) _
  unfold State.unblock
  split
  · rename_i r hr
    rw [hquiet r (mem_of_getElem? hr), if_neg (by simp)]
  · rfl

theorem rpcDone_inv (rc : ℤ) : ∀ {ks : List ℕ} {s : State}, Inv ks s → Inv [] (ks.foldl (State.rpcDone rc) s)
  | [], _, h => h
  | k :: ks, s, h => by
    have hone : Inv ks (s.modPages [k] (Bmpce.rpcDone rc)) := by
      refine Inv.settle h (fun e => ?_) (advance_rpcDone rc) (fun e => ?_) (fun e herr => ?_) fun e haio => ?_
      all_goals unfold Bmpce.rpcDone
      · split_ifs <;> rfl
      · split_ifs <;> rfl
      · split_ifs with hrc
        · exact fun _ => hrc
        · exact herr
      · split_ifs <;> rfl
    rw [foldl_cons, State.rpcDone, completeBiorq_quiet fun r hr => (hone.reqs r hr).quiet]
    exact rpcDone_inv rc hone

theorem seterr_inv (h : Inv [] s) (i : ℕ) (rc : ℤ) : Inv [] (s.seterr i rc) := by
  unfold State.seterr
  split
  · rename_i r hi
    split_ifs
    · have hok := h.reqs r (mem_of_getElem? hi)
      exact h.setReq hi (hok.goto rfl rfl rfl rfl hok.quiet hok.marked hok.gives) fun _ => rfl
    · exact h
  · exact h

theorem done_inv (h : Inv [] s) {n : ℕ} {c : Rpc} (hn : s.rpcs[n]? = some c) (hover : c.ended = false) (rc : ℤ) :
    Inv [] ((c.pages.foldl (State.rpcDone rc)
      { s with rpcs := s.rpcs.set n { c with ended := true } }).seterr c.req rc) := by
  have hend := h.endRpc hn hover
  rw [append_nil] at hend
  exact seterr_inv (rpcDone_inv rc hend) c.req rc

theorem not_needs_begin (hpc : r.pc = r.kind.begin) (k : ℕ) : ¬r.needs k := by
  rintro ⟨hread, hneeds⟩
  rw [hpc, hread] at hneeds
  exact absurd hneeds (by simp [Kind.begin])

theorem begin_gives {kind : Kind} (hread : kind = .read) (j : ℕ) (e : Bmpce) (p : ℕ × ℕ) : kind.begin.Gives j e p := by
  subst hread
  exact fun hj => absurd hj (Nat.not_lt_zero j)

theorem begin_marked (kind : Kind) : kind.begin.marked = [] := by
  cases kind <;> rfl

theorem restart_inv (h : Inv [] s) (hi : s.reqs[i]? = some r) (hretried : r.retried)
    (hneeds : ∀ k ∈ r.pages, ∀ e ∈ s.pages[k]?, e.eio → ∀ q ∈ s.reqs.eraseIdx i, ¬q.needs k) :
    Inv [] ((s.setReq i { r with err := false, pc := r.kind.begin }).modPages r.pages Bmpce.clear) := by
  have hok := h.reqs r (mem_of_getElem? hi)
  have hmarked : r.pc.marked = [] := by
    unfold Req.retried at hretried
    split at hretried
    · rename_i hpc
      rw [hpc]
      rfl
    · rw [Bool.and_eq_true, beq_iff_eq] at hretried
      rw [hretried.2, begin_marked]
  have hset : Inv [] (s.setReq i { r with err := false, pc := r.kind.begin }) := by
    refine h.setReq hi (hok.goto rfl rfl rfl rfl hok.quiet (by simp [begin_marked])
      fun hread j _ e _ _ => begin_gives hread j e _) fun k => ?_
    rw [hmarked, begin_marked]
  refine hset.clear (fun e => ?_) cleared_clear fun k hk e he heio q hq => ?_
  · unfold Bmpce.clear
    split_ifs <;> simp_all
  · obtain ⟨n, hn⟩ := mem_iff_getElem?.mp hq
    rcases getElem?_set_cases hn with ⟨-, rfl⟩ | ⟨hne, hn⟩
    · exact not_needs_begin rfl k
    · exact hneeds k hk e he heio q (mem_eraseIdx_iff_getElem?.mpr ⟨n, hne, hn⟩)

theorem laid_getElem? : ∀ {ks : List ℕ} {base : ℕ}, laid pages base ks →
    ∀ {j k : ℕ}, ks[j]? = some k → ∃ e, pages[k]? = some e ∧ e.off = base + j * bmpcBufsz
  | [], _, _, _, _, hk => by simp at hk
  | x :: ks, base, h, j, k, hk => by
    rw [laid, Bool.and_eq_true, beq_iff_eq] at h
    cases j with
    | zero =>
      obtain rfl : x = k := by simpa using hk
      obtain ⟨e, he, hoff⟩ := map_eq_some_iff.mp h.1
      exact ⟨e, he, by rw [hoff, Nat.zero_mul, Nat.add_zero]⟩
    | succ =>
      obtain ⟨e, he, hoff⟩ := laid_getElem? h.2 hk
      exact ⟨e, he, by rw [Nat.succ_mul]; omega⟩

theorem Req.Built.ok (h : r.Built pages) (hquiet : r.waiting = none) (hpc : r.pc = r.kind.begin) : r.Ok pages := by
  have hbuilt (hkind : r.kind ≠ .readahead) :
      0 < r.len ∧ r.pages.length = npages r.off r.len ∧ Fetch.laid pages r.aoff r.pages := by
    unfold Req.Built at h
    cases hk : r.kind with
    | read | write => rwa [hk] at h
    | readahead => exact absurd hk hkind
  refine ⟨hquiet, by simp [hpc, begin_marked], fun hkind => (hbuilt hkind).1, fun hkind => (hbuilt hkind).2.1,
    fun hkind j k hk => laid_getElem? (hbuilt hkind).2.2 hk, fun hread j k e hk he => ?_⟩
  rw [hpc]
  exact begin_gives hread j e _

theorem build_inv (h : Inv [] s) (hbuilt : r.Built s.pages) (hquiet : r.waiting = none) (hpc : r.pc = r.kind.begin)
    (hneeds : ∀ k ∈ r.pages, ∀ e ∈ s.pages[k]?, e.eio → ∀ q ∈ s.reqs, ¬q.needs k) :
    Inv [] { s.modPages r.pages Bmpce.lookup with reqs := s.reqs ++ [r] } := by
  have hadd := h.addReq (hbuilt.ok hquiet hpc) (by rw [hpc, begin_marked])
  refine hadd.clear (fun e => ?_) cleared_lookup fun k hk e he heio q hq => ?_
  · unfold Bmpce.lookup
    split_ifs <;> simp_all
  · revert q
    exact Lib.forall_mem_snoc (hneeds k hk e he heio) (not_needs_begin hpc k)

theorem copyin_inv (h : Inv [] s) (hi : s.reqs[i]? = some r) (hpc : r.pc = .ret rc) :
    Inv [] (if rc ≠ 0 ∨ r.err then s.setReq i { r with pc := .done }
      else { s.setReq i { r with pc := .done } with pages := copyinLoop r 0 r.pages s.pages }) := by
  have hok := h.reqs r (mem_of_getElem? hi)
  have hset : Inv [] (s.setReq i { r with pc := .done }) :=
    h.setReq hi (hok.goto rfl rfl rfl rfl hok.quiet nomarks fun _ _ _ _ _ _ => trivial) fun k => by rw [hpc]; rfl
  split_ifs
  · exact hset
  obtain ⟨F, hF, hfills⟩ := copyinLoop_changes r r.pages 0 s.pages
  refine hset.changed hF (fun k e _ => (hfills k e).advance.off) (fun k e he => ?_) (fun k e he => ?_)
    (fun k e he => ?_) fun r hr => (hset.reqs r hr).advance hF fun k e _ => (hfills k e).advance
  · rw [(hfills k e).faulting]
    exact hset.faulting k e he
  · rw [(hfills k e).eio, (hfills k e).rc]
    exact hset.errors k e he
  · rw [(hfills k e).aiowait]
    exact hset.noaio k e he

theorem copyoutLoop_ok (hok : r.Ok pages) (hread : r.kind = .read) (hpc : r.pc = .ret 0) :
    ∀ (ks : List ℕ) (j tsize : ℕ), r.pages.drop j = ks →
      tsize + (if j = 0 then r.off - r.aoff else 0) ≤ ks.length * bmpcBufsz → copyoutLoop r pages j ks tsize
  | [], j, tsize, _, hsize => by
    rw [length_nil] at hsize
    simp only [copyoutLoop, decide_eq_true_eq]
    omega
  | k :: ks, j, tsize, hdrop, hsize => by
    have hk : r.pages[j]? = some k := by
      rw [← head?_drop, hdrop]
      rfl
    obtain ⟨e, he, hoff⟩ := hok.laid (by rw [hread]; decide) j k hk
    have husable : e.usable (r.piece j) := by
      have hgives := hok.gives hread j k e hk he
      rw [hpc] at hgives
      exact hgives rfl
    have hnext := copyoutLoop_ok hok hread hpc ks (j + 1)
      (tsize - min (if j = 0 then bmpcBufsz - (r.off - r.aoff) else bmpcBufsz) tsize)
      (by rw [← tail_drop, hdrop]; rfl)
      (by
        rw [length_cons, Nat.succ_mul] at hsize
        rw [if_neg (Nat.succ_ne_zero j)]
        split_ifs at hsize ⊢ <;> omega)
    rw [copyoutLoop]
    by_cases hz : tsize = 0
    · rw [if_pos hz]
    · rw [if_neg hz]
      simp only [he, husable, hoff, hnext, beq_self_eq_true, Bool.and_self]

theorem mslPagesCopyout_ok (hok : r.Ok pages) (hread : r.kind = .read) (hpc : r.pc = .ret 0)
    (rflen : ℕ) : mslPagesCopyout r pages rflen := by
  have hkind : r.kind ≠ .readahead := by rw [hread]; decide
  have hcount := hok.count hkind
  unfold mslPagesCopyout
  rw [Bool.or_eq_true]
  refine .inr (copyoutLoop_ok hok hread hpc r.pages 0 _ rfl ?_)
  rw [hcount]
  unfold npages Req.aoff bmpcBufsz
  dsimp only
  split_ifs <;> omega

theorem release_inv (h : Inv [] s) (hi : s.reqs[i]? = some r) (hpc : r.pc = .ret rc) :
    Inv [] (s.setReq i { r with pc := .done }) := by
  have hok := h.reqs r (mem_of_getElem? hi)
  exact h.setReq hi (hok.goto rfl rfl rfl rfl hok.quiet nomarks fun _ _ _ _ _ _ => trivial) fun k => by rw [hpc]; rfl

theorem step_inv {o : Op} (h : Inv [] s) (hok : Guarded s o) (hs : step s o = some s') : Inv [] s' := by
  unfold step at hs
  split_ifs at hs with halive
  cases o with
  | build kind off len pages =>
    simp only [act] at hs
    split_ifs at hs with hbuilt
    cases hs
    exact build_inv h hbuilt.1 rfl rfl hok
  | mark i =>
    obtain ⟨r, hi, hs⟩ := bind_eq_some_iff.mp hs
    split at hs
    · rename_i j ps hpc
      obtain ⟨k, hk, hs⟩ := bind_eq_some_iff.mp hs
      obtain ⟨e, he, hs⟩ := bind_eq_some_iff.mp hs
      cases hs
      exact mark_inv h hi hpc hk he
    · exact absurd hs (by simp)
  | launch i rcs =>
    obtain ⟨r, hi, hs⟩ := bind_eq_some_iff.mp hs
    split at hs
    · rename_i j ps hpc
      split_ifs at hs with hj
      cases hs
      have hlast := hok r hi
      rw [hpc] at hlast
      exact launch_inv h hi (hj ▸ hpc) hlast
    · exact absurd hs (by simp)
  | look i =>
    obtain ⟨r, hi, hs⟩ := bind_eq_some_iff.mp hs
    split at hs
    · rename_i j hpc
      split at hs
      · rename_i hend
        cases hs
        exact return_inv h hi hpc hend
      rename_i k hk
      obtain ⟨e, he, hs⟩ := bind_eq_some_iff.mp hs
      obtain ⟨r', hr', rfl⟩ := map_eq_some_iff.mp hs
      exact look_inv h hi hpc hk he hr'
    · exact absurd hs (by simp)
  | aio n => exact absurd hok id
  | done n rc =>
    obtain ⟨c, hn, hover, rfl⟩ := bind_unless hs
    exact done_inv h hn (by simpa using hover) rc
  | restart i =>
    obtain ⟨r, hi, hretried, rfl⟩ := bind_guard hs
    exact restart_inv h hi hretried (hok r hi)
  | copyin i =>
    obtain ⟨r, hi, hs⟩ := bind_eq_some_iff.mp hs
    split at hs
    · rename_i rc hpc
      split at hs <;> cases hs
      exact copyin_inv h hi hpc
    · exact absurd hs (by simp)
  | copyout i rflen =>
    obtain ⟨r, hi, hs⟩ := bind_eq_some_iff.mp hs
    split at hs
    · rename_i rc hpc
      split_ifs at hs with hidle hcopy
      · cases hs
        exact release_inv h hi hpc
      -- the pages are usable, so that the assertions hold
      obtain ⟨hrc, -, hfail⟩ : rc = 0 ∧ ¬r.err ∧ ¬mslPagesCopyout r s.pages rflen := by simpa using hcopy
      subst hrc
      exact absurd (mslPagesCopyout_ok (h.reqs r (mem_of_getElem? hi)) hidle.1 hpc rflen) hfail
    · exact absurd hs (by simp)
  | flushFailed i rc =>
    obtain ⟨r, hi, hwrite, rfl⟩ := bind_guard hs
    exact h.touch (fun _ => rfl) (fun e => advance_of_eio rfl rfl rfl) (fun _ _ _ _ => rfl)
      (fun _ _ _ _ => hwrite.2.2) fun _ => rfl

theorem Inv.nodup_marked (h : Inv [] s) (hi : s.reqs[i]? = some r) : r.pc.marked.Nodup := by
  have hr := mem_of_getElem? hi
  refine nodup_iff_count_le_one.mpr fun k => ?_
  by_cases hk : k ∈ r.pc.marked
  · obtain ⟨e, he⟩ := (h.reqs r hr).marked k hk
    have hcount := h.faulting k e he
    have hle : r.pc.marked.count k ≤ (s.reqs.map fun r => r.pc.marked.count k).sum :=
      le_sum_of_mem (mem_map_of_mem hr)
    unfold State.owners at hcount
    split_ifs at hcount <;> omega
  · rw [count_eq_zero.mpr hk]
    exact Nat.zero_le 1

theorem launches_parts (s : State) (hps : ps.Nodup) (rcs : List ℤ) : (s.launches ps rcs).Parts s ps := by
  have hfollows := launchLoop_follows s.off (fun n => rcs.getD n 0) ps [] 0 0 (by simp)
  obtain ⟨hsent, left, hleft, hfailed⟩ := hfollows.parts
  rw [chunks_nil_flatten] at hleft
  have hchunk : ∀ g ∈ chunks bmpcMaxbufsrpc s.adj [] ps, IsChunk bmpcMaxbufsrpc s.adj g :=
    chunks_chunk (by decide) ⟨isChain_nil, Nat.zero_le _⟩ (by decide)
  refine ⟨fun g hg => hchunk g (hsent g hg), fun k hk => ?_⟩
  unfold State.launches
  have hone := count_eq_one_of_mem hps hk
  rw [← hleft, count_append] at hone
  rw [hfailed]
  by_cases hkleft : k ∈ left
  · have hpos := count_pos_iff.mpr hkleft
    exact .inr ⟨count_eq_zero.mp (by omega), hkleft⟩
  · rw [count_eq_zero.mpr hkleft] at hone
    exact .inl ⟨hone, hkleft⟩

theorem Inv.sound (h : Inv [] s) : Sound s where
  launch i r ps hi hpc rcs := by
    have hnodup := h.nodup_marked hi
    rw [hpc] at hnodup
    exact launches_parts s hnodup rcs
  rpcs := h.rpcs
  faulting k e he := h.faulting k e he
  errors e he := by
    obtain ⟨k, hk⟩ := mem_iff_getElem?.mp he
    exact h.errors k e hk
  fetched r hr hread hpc _ j hj := by
    have hok := h.reqs r hr
    have hk := getElem?_eq_getElem hj
    obtain ⟨e, he, -⟩ := hok.laid (by rw [hread]; decide) j _ hk
    have hgives := hok.gives hread j _ e hk he
    rw [hpc] at hgives
    refine ⟨e, ?_, hgives rfl⟩
    rw [Req.page, hk]
    exact he
  copyout := h.copyout

/-- **A read that returns has its pages**, in runs of guarded steps. -/
theorem sound_of_guarded (pages : List (ℕ × Bool)) (os : List Op) (t : State)
    (hok : Admits step Guarded (State.init pages) os) (h : run step (State.init pages) os = some t) : Sound t :=
  (run_invariant step_inv (inv_init pages) hok h).sound

instance decidableGuarded (s : State) (o : Op) : Decidable (Guarded s o) := by
  unfold Guarded
  cases o <;> infer_instance

def threePages : List (ℕ × Bool) := [(0, false), (32768, false), (65536, false)]

def triedAgain : List Op :=
  [.build .read 32768 32768 [1], .mark 0, .launch 0 [], .done 0 0, .look 0, .look 0, .copyout 0 1000000,
    .build .read 0 98304 [0, 1, 2], .mark 1, .mark 1, .mark 1, .build .read 65536 100 [2], .mark 2, .launch 2 [],
    .launch 1 [0, -110], .look 2, .done 1 (-5), .restart 1, .mark 1, .mark 1, .mark 1, .launch 1 [], .done 2 0, .done 3 0,
    .look 1, .look 1, .look 1, .look 1, .copyout 1 1000000, .copyout 2 1000000]

theorem sound_of_triedAgain : ∃ t ∈ run step (State.init threePages) triedAgain, Sound t ∧
    t.reqs.map Req.pc = [.done, .done, .done] := by
  have hok : Admits step Guarded (State.init threePages) triedAgain := by decide +kernel
  have h : ∃ t ∈ run step (State.init threePages) triedAgain, t.reqs.map Req.pc = [.done, .done, .done] := by
    decide +kernel
  obtain ⟨t, ht, hpc⟩ := h
  exact ⟨t, ht, sound_of_guarded threePages triedAgain t hok ht, hpc⟩

/-- `msl_pages_copyout` fails: an RPC was not sent; an error was cleared; or an answer was delayed. -/
theorem unsound_three_ways : (∃ t ∈ run step (State.init threePages)
        [.build .read 32768 32768 [1], .mark 0, .launch 0 [], .done 0 0, .build .read 0 98304 [0, 1, 2], .mark 1, .mark 1,
          .mark 1, .build .read 65536 100 [2], .mark 2, .launch 2 [], .launch 1 [-110], .look 2, .copyout 2 1000000],
      (∃ e ∈ t.pages, e.eio ∧ e.rc = 0) ∧ t.died = some .copyout) ∧ (∃ t ∈ run step (State.init threePages)
        [.build .read 0 100 [0], .build .read 0 100 [0], .mark 0, .mark 1, .launch 0 [], .launch 1 [], .done 0 (-5),
          .look 0, .restart 0, .look 1, .look 1, .copyout 1 1000000], t.died = some .copyout) ∧
    ∃ t ∈ run step (State.init threePages)
        [.build .read 0 100 [0], .build .read 32768 100 [1], .build .read 0 65536 [0, 1], .mark 0, .launch 0 [], .mark 1,
          .launch 1 [], .mark 2, .mark 2, .launch 2 [], .aio 0, .look 2, .done 0 0, .copyout 2 1000000],
      t.died = some .copyout := by
  refine ⟨?_, ?_, ?_⟩ <;> decide +kernel

end Slash2.Client.Fetch
