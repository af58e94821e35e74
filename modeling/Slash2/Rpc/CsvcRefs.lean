/-
# The reference counts of a connection

`csvc_tryref` counts the calls that are between two addresses or at one, and the requests that are not answered;
`csvc_refcnt` those who have a reference, and the requests. Only one call at a time tries to connect, since another one
waits while `csvc_tryref` is not zero. What a step does to the books is checked against any entries of the others.

Key theorem: `accounted_run`.
-/
import Slash2.Rpc.Csvc
import Slash2.Lib.Run
import Slash2.Lib.Slots
import Mathlib.Algebra.Order.BigOperators.Group.List

namespace Slash2.Csvc

open Lib List Option

/-- Connecting, but not in `slrpc_issue_connect`. -/
def Pc.waits : Pc → ℕ
  | .connect _ _ => 1
  | _ => 0

/-- A call in `slrpc_issue_connect`. -/
def Pc.busy : Pc → ℕ
  | .newreq .. | .sent .. | .added .. => 1
  | _ => 0

def Pc.uses : Pc → ℕ
  | .sent .. => 1
  | _ => 0

def Pc.tries (pc : Pc) : ℕ := pc.waits + pc.busy + pc.uses

variable {rc : ℤ} {left : ℕ} {pc : Pc}

theorem Pc.tries_eq_zero (h : pc.tries = 0) : pc.waits = 0 ∧ pc.busy = 0 ∧ pc.uses = 0 := by
  unfold Pc.tries at h
  omega

theorem Pc.tries_ret (got : Bool) : (Pc.ret got).tries = 0 := rfl

def Stage.tries : Stage → ℕ
  | .pending => 1
  | _ => 0

def Stage.uses : Stage → ℕ
  | .done => 0
  | _ => 1

def calling (f : Pc → ℕ) (cs : List Call) : ℕ := (cs.map fun c => f c.pc).sum

def asked (f : Stage → ℕ) (rs : List Rpc) : ℕ := (rs.map fun r => f r.stage).sum

/-! ### The books -/

/-- With `n` to connect, `m` references, `b` in `slrpc_issue_connect`. -/
structure Tally (v : Service) (n m b : ℕ) : Prop where
  alive : v.failed = false
  tryref : v.tryref = n
  refcnt : v.refcnt = m
  busy : v.busy = decide (0 < b)
  freed : v.freed → m = 0

/-- **The books of a service**, with `k` references of others. -/
structure Books (v : Service) (cs : List Call) (rs : List Rpc) (k : ℕ) : Prop where
  tally : Tally v (calling Pc.tries cs + asked Stage.tries rs) (calling Pc.uses cs + asked Stage.uses rs + k)
    (calling Pc.busy cs)
  one : calling Pc.waits cs + calling Pc.busy cs ≤ 1
  nonblock : ∀ c ∈ cs, 0 < c.pc.uses → c.nonblock

def Inv (s : State) : Prop := Books s.csvc s.calls s.rpcs (s.held + s.owned.toNat)

variable {v v' : Service} {cs : List Call} {rs : List Rpc} {k k' n m b : ℕ} {i j : ℕ} {c : Call} {r : Rpc} {s t : State}

theorem Tally.cast {n' m' b' : ℕ} (h : Tally v n m b) (hn : n = n') (hm : m = m') (hb : b = b') : Tally v n' m' b' := by
  subst hn hm hb
  exact h

theorem Tally.congr (h : Tally v n m b) (hfailed : v'.failed = v.failed) (htryref : v'.tryref = v.tryref)
    (hrefcnt : v'.refcnt = v.refcnt) (hbusy : v'.busy = v.busy) (hfreed : v'.freed = v.freed) : Tally v' n m b where
  alive := hfailed.trans h.alive
  tryref := htryref.trans h.tryref
  refcnt := hrefcnt.trans h.refcnt
  busy := hbusy.trans h.busy
  freed hf := h.freed (hfreed ▸ hf)

theorem Tally.dectryref (h : Tally v (n + 1) m b) : Tally v.dectryref n m b := by
  have hpos : 0 < v.tryref := by
    rw [h.tryref]
    omega
  unfold Service.dectryref
  rw [if_pos hpos]
  refine ⟨h.alive, ?_, h.refcnt, h.busy, h.freed⟩
  simp only [h.tryref]
  omega

theorem Tally.connectFinish (h : Tally v (n + 1) m b) (imp : ℕ) (old : Option ℕ) (ok : Bool) :
    Tally (v.connectFinish imp old ok) n m b := by
  unfold Service.connectFinish
  simp only
  split_ifs
  · exact h.dectryref.congr rfl rfl rfl rfl rfl
  · exact h.dectryref.congr rfl rfl rfl rfl rfl
  · exact h.dectryref.congr rfl rfl rfl rfl rfl

section
variable (h : Tally v n m b)
include h

theorem Tally.mark (a : Import) : Tally (v.mark a) n m b := by
  unfold Service.mark
  split
  · exact h
  · exact h.congr rfl rfl rfl rfl rfl

theorem Tally.online : Tally v.online n m b := (h.mark _).congr rfl rfl rfl rfl rfl

theorem Tally.idle : Tally { v with busy := false } n m 0 :=
  { h with busy := rfl }

theorem Tally.incref (hf : v.freed = false) : Tally { v with refcnt := v.refcnt + 1 } n (m + 1) b where
  alive := h.alive
  tryref := h.tryref
  refcnt := by simp [h.refcnt]
  busy := h.busy
  freed hfreed := absurd hfreed (by simp [hf])

theorem Tally.inctry : Tally { v with tryref := v.tryref + 1 } (n + 1) m b :=
  { h with tryref := by simp [h.tryref] }

end

theorem Tally.disconnectCore (h : Tally s.csvc n m b) (high : Bool) : Tally (s.disconnectCore high).csvc n m b := by
  unfold State.disconnectCore
  split_ifs
  · exact h
  · exact h.congr rfl rfl rfl rfl rfl

theorem Tally.decref (h : Tally s.csvc n (m + 1) b) : Tally s.decref.csvc n m b := by
  have hf : s.csvc.freed = false := by
    by_contra hf
    exact absurd (h.freed (by simpa using hf)) (Nat.succ_ne_zero m)
  have hcnt : s.csvc.refcnt - 1 = m := by
    rw [h.refcnt]
    omega
  have hdec : Tally { s.csvc with refcnt := s.csvc.refcnt - 1 } n m b :=
    ⟨h.alive, h.tryref, hcnt, h.busy, fun hfreed => absurd hfreed (by simp [hf])⟩
  unfold State.decref
  simp only
  split_ifs with hneg hzero hwant hdisc
  · omega
  · exact { hdec with freed := fun _ => by omega }
  · exact Tally.disconnectCore hdec true
  · exact hdec
  · exact hdec

theorem decref_rest (s : State) :
    s.decref.calls = s.calls ∧ s.decref.rpcs = s.rpcs ∧ s.decref.held = s.held ∧ s.decref.owned = s.owned := by
  unfold State.decref State.disconnectCore
  simp only
  split_ifs <;> exact ⟨rfl, rfl, rfl, rfl⟩

/-! ### Changing one entry -/

theorem Books.setCall (h : Books v cs rs k) (hi : cs[i]? = some c)
    (hone : calling Pc.waits cs + calling Pc.busy cs + pc.waits + pc.busy ≤ 1 + c.pc.waits + c.pc.busy)
    (hnonblock : 0 < pc.uses → c.nonblock)
    (htally : ∀ n m b, b + c.pc.waits + c.pc.busy ≤ 1 → Tally v (n + c.pc.tries) (m + c.pc.uses + k) (b + c.pc.busy) →
      Tally v' (n + pc.tries) (m + pc.uses + k') (b + pc.busy)) : Books v' (cs.set i { c with pc }) rs k' := by
  have hset (f : Pc → ℕ) : calling f (cs.set i { c with pc }) + f c.pc = calling f cs + f pc :=
    sum_map_set (fun c : Call => f c.pc) hi
  have hmem (f : Pc → ℕ) : f c.pc ≤ calling f cs := le_sum_of_mem (mem_map.mpr ⟨c, mem_of_getElem? hi, rfl⟩)
  -- the entries of the others
  obtain ⟨w, hw⟩ := Nat.exists_eq_add_of_le' (hmem Pc.waits)
  obtain ⟨n, hn⟩ := Nat.exists_eq_add_of_le' (hmem Pc.tries)
  obtain ⟨m, hm⟩ := Nat.exists_eq_add_of_le' (hmem Pc.uses)
  obtain ⟨b, hb⟩ := Nat.exists_eq_add_of_le' (hmem Pc.busy)
  have hold := h.tally
  have hle := h.one
  have hnew := htally (n + asked Stage.tries rs) (m + asked Stage.uses rs) b (by omega)
    (hold.cast (by omega) (by omega) hb)
  refine ⟨?_, ?_, forall_mem_set h.nonblock hnonblock⟩
  · have := hset Pc.tries
    have := hset Pc.uses
    have := hset Pc.busy
    exact hnew.cast (by omega) (by omega) (by omega)
  · have := hset Pc.waits
    have := hset Pc.busy
    omega

theorem Books.setRpc {stage : Stage} (h : Books v cs rs k) (hj : rs[j]? = some r)
    (htally : ∀ n m b, Tally v (n + r.stage.tries) (m + r.stage.uses) b → Tally v' (n + stage.tries) (m + stage.uses) b) :
    Books v' cs (rs.set j { r with stage }) k := by
  have hset (f : Stage → ℕ) : asked f (rs.set j { r with stage }) + f r.stage = asked f rs + f stage :=
    sum_map_set (fun r : Rpc => f r.stage) hj
  have hmem (f : Stage → ℕ) : f r.stage ≤ asked f rs := le_sum_of_mem (mem_map.mpr ⟨r, mem_of_getElem? hj, rfl⟩)
  obtain ⟨n, hn⟩ := Nat.exists_eq_add_of_le' (hmem Stage.tries)
  obtain ⟨m, hm⟩ := Nat.exists_eq_add_of_le' (hmem Stage.uses)
  have hold := h.tally
  have hnew := htally (calling Pc.tries cs + n) (calling Pc.uses cs + m + k) (calling Pc.busy cs)
    (hold.cast (by omega) (by omega) rfl)
  refine ⟨?_, h.one, h.nonblock⟩
  have := hset Stage.tries
  have := hset Stage.uses
  exact hnew.cast (by omega) (by omega) rfl

theorem Books.change (h : Books v cs rs k) (htally : ∀ n m b, Tally v n (m + k) b → Tally v' n (m + k') b) :
    Books v' cs rs k' :=
  ⟨htally _ _ _ h.tally, h.one, h.nonblock⟩

theorem Books.begin (h : Books v cs rs k) (hpc : c.pc = .restart) : Books v (cs ++ [c]) rs k := by
  have hsnoc (f : Pc → ℕ) : calling f (cs ++ [c]) = calling f cs + f .restart := by
    simp [calling, hpc]
  refine ⟨?_, ?_, forall_mem_snoc h.nonblock fun hpos => ?_⟩
  · rw [hsnoc, hsnoc, hsnoc]
    exact h.tally
  · rw [hsnoc, hsnoc]
    exact h.one
  · rw [hpc] at hpos
    exact nomatch hpos

/-! ### Steps keep the books -/

theorem inv_create (cli nonblock : Bool) : Inv (State.create cli nonblock) := by
  refine ⟨⟨rfl, rfl, ?_, rfl, nofun⟩, Nat.zero_le 1, nofun⟩
  cases cli <;> rfl

section
variable (h : Books v cs rs k) (hi : cs[i]? = some c)
include h hi

theorem Books.rest (hold : c.pc.tries = 0) (hnew : pc.tries = 0) : Books v (cs.set i { c with pc }) rs k := by
  obtain ⟨hwaits, hbusy, huses⟩ := Pc.tries_eq_zero hold
  obtain ⟨hwaits', hbusy', huses'⟩ := Pc.tries_eq_zero hnew
  refine h.setCall hi ?_ (by omega) fun n m b _ ht => ?_
  · have := h.one
    omega
  · exact ht.cast (by omega) (by omega) (by omega)

theorem Books.leave (hpc : c.pc = .connect left rc)
    (hnew : pc.tries = 0) : Books v.dectryref (cs.set i { c with pc }) rs k := by
  obtain ⟨hwaits, hbusy, huses⟩ := Pc.tries_eq_zero hnew
  refine h.setCall hi ?_ (by omega) fun n m b _ ht => ?_
  · have := h.one
    omega
  · rw [hpc] at ht
    have ht : Tally v (n + 1) (m + k) b := ht
    exact ht.dectryref.cast (by omega) (by omega) (by omega)

theorem Books.next {trc : ℤ} (hbusy : c.pc.busy = 1)
    (htally : ∀ n m, Tally v (n + 1 + c.pc.uses) (m + c.pc.uses + k) 1 → Tally v' (n + 1) (m + k) 0) :
    Books v' (cs.set i { c with pc := Csvc.next left rc trc }) rs k := by
  obtain ⟨left', rc', hnext⟩ : ∃ left' rc', Csvc.next left rc trc = .connect left' rc' := by
    unfold Csvc.next
    split_ifs <;> exact ⟨_, _, rfl⟩
  rw [hnext]
  refine h.setCall hi ?_ nofun fun n m b hb ht => ?_
  · have := h.one
    change calling Pc.waits cs + calling Pc.busy cs + 1 + 0 ≤ _
    omega
  · obtain rfl : b = 0 := by omega
    refine htally n m (ht.cast ?_ rfl (by omega))
    unfold Pc.tries
    omega

end

theorem out_inv (h : Books v (s.calls.set i { c with pc := .ret true }) s.rpcs (s.held + s.owned.toNat))
    (hf : v.freed = false) : Inv (State.out { s with csvc := v } i c) := by
  refine Books.change h fun n m b ht => ?_
  refine (ht.incref hf).cast rfl ?_ rfl
  change _ = m + (s.held + 1 + s.owned.toNat)
  omega

theorem goOnline_inv (h : Books v (s.calls.set i { c with pc := .online }) s.rpcs (s.held + s.owned.toNat))
    (hi : s.calls[i]? = some c) (hf : v.freed = false) : Inv (State.goOnline { s with csvc := v } i c) := by
  unfold State.goOnline
  split_ifs
  · exact h
  have hrest : Books v (s.calls.set i { c with pc := .ret true }) s.rpcs (s.held + s.owned.toNat) := by
    have hset := h.rest (List.getElem?_set_self (List.getElem?_eq_some_iff.mp hi).1) rfl (Pc.tries_ret true)
    rwa [set_set] at hset
  refine out_inv (hrest.change fun _ _ _ ht => ht.online) ?_
  unfold Service.online Service.mark
  split <;> exact hf

theorem decref_inv (h : Books s.decref.csvc s.calls s.rpcs (s.held + s.owned.toNat)) : Inv s.decref := by
  obtain ⟨hcalls, hrpcs, hheld, howned⟩ := decref_rest s
  unfold Inv
  rwa [hcalls, hrpcs, hheld, howned]

theorem cbOnline_inv (h : Books v s.calls (s.rpcs.set j { r with stage := .online }) (s.held + s.owned.toNat))
    (hj : s.rpcs[j]? = some r) : Inv (State.cbOnline { s with csvc := v } j r) := by
  unfold State.cbOnline
  split_ifs
  · exact h
  apply decref_inv
  set u : State := { s.setRpc j r .done with csvc := v.online } with hu
  have hdone (n m b : ℕ) (ht : Tally v n (m + 1) b) : Tally u.decref.csvc (n + Stage.tries .done) (m + Stage.uses .done) b :=
    Tally.decref ht.online
  have hset := h.setRpc (List.getElem?_set_self (List.getElem?_eq_some_iff.mp hj).1) hdone
  rwa [set_set] at hset

theorem Books.enter {addrs : ℕ} (h : Books v cs rs k) (hi : cs[i]? = some c) (hpc : c.pc = .restart)
    (hzero : v.tryref = 0) (hv : ∀ {n m b}, Tally v n m b → Tally v' (n + 1) m b) :
    Books v' (cs.set i { c with pc := .connect addrs rc }) rs k := by
  refine h.setCall hi ?_ nofun fun n m b _ ht => ?_
  · have htries := h.tally.tryref
    have hle : calling Pc.waits cs + calling Pc.busy cs ≤ calling Pc.tries cs := by
      unfold calling
      rw [← sum_map_add]
      exact sum_le_sum fun c _ => Nat.le_add_right _ _
    simp only [Pc.waits, Pc.busy]
    omega
  · rw [hpc] at ht
    exact hv ht

theorem restart_inv {late : Bool} (h : Inv s) (hf : s.csvc.freed = false) (hi : s.calls[i]? = some c)
    (hpc : c.pc = .restart) : Inv (restart s i c late) := by
  have hidle : c.pc.tries = 0 := by
    rw [hpc]
    rfl
  have hoff : Books { s.csvc with connected := false } s.calls s.rpcs (s.held + s.owned.toNat) :=
    h.change fun _ _ _ ht => ht.congr rfl rfl rfl rfl rfl
  have hzero (hno : ¬(s.csvc.tryref ≠ 0 ∨ s.csvc.connecting)) : s.csvc.tryref = 0 := not_not.mp (not_or.mp hno).1
  unfold restart
  simp only
  split_ifs with _ _ _ htry
  · exact out_inv (Books.rest h hi hidle rfl) hf
  · refine goOnline_inv ((hoff.rest hi hidle rfl).change fun _ _ _ ht => ht.congr rfl rfl rfl rfl rfl) hi hf
  · refine goOnline_inv ((hoff.rest hi hidle rfl).change fun _ _ _ ht => ht.congr rfl rfl rfl rfl rfl) hi hf
  · exact hoff.rest hi hidle rfl
  · exact hoff
  · exact hoff.rest hi hidle rfl
  · apply hoff.enter hi hpc (hzero htry)
    exact fun ht => ht.inctry.congr rfl rfl rfl rfl rfl
  · apply hoff.enter hi hpc (hzero htry)
    exact fun ht => ht.inctry.congr rfl rfl rfl rfl rfl
  · apply hoff.enter hi hpc (hzero htry)
    exact fun ht => ht.inctry.congr rfl rfl rfl rfl rfl
  · exact hoff.rest hi hidle rfl

theorem issue_inv (h : Inv s) (hi : s.calls[i]? = some c) (hpc : c.pc = .connect (left + 1) rc) :
    Inv (issue s i c left rc) := by
  -- the only call that connects is not in `slrpc_issue_connect`
  have hbusy : s.csvc.busy = false := by
    have hmem : c.pc.waits ≤ calling Pc.waits s.calls := le_sum_of_mem (mem_map.mpr ⟨c, mem_of_getElem? hi, rfl⟩)
    have hone := h.one
    rw [hpc] at hmem
    change 1 ≤ _ at hmem
    rw [h.tally.busy, decide_eq_false_iff_not]
    omega
  have henter {v' : Service} {imp : ℕ} {old : Option ℕ}
      (hv : ∀ {n m b}, Tally { s.csvc with busy := true } n m b → Tally v' n m b) :
      Books v' (s.calls.set i { c with pc := .newreq left rc imp old }) s.rpcs (s.held + s.owned.toNat) := by
    refine Books.setCall h hi ?_ nofun fun n m b _ ht => ?_
    · have := h.one
      rw [hpc]
      change _ + 0 + 1 ≤ 1 + 1 + 0
      omega
    · rw [hpc] at ht
      exact hv { ht with busy := (decide_eq_true (Nat.succ_pos b)).symm }
  unfold issue
  simp only [hbusy, Bool.false_eq_true, if_false]
  split_ifs
  · exact henter fun ht => ht.congr rfl rfl rfl rfl rfl
  split
  · exact henter fun ht => ht.congr rfl rfl rfl rfl rfl
  · exact henter fun ht => ht

theorem procConn_inv (h : Inv s) (hf : s.csvc.freed = false) (hi : s.calls[i]? = some c)
    (hpc : c.pc = .connect left rc) : Inv (procConn s i c rc) := by
  have hfreed : s.csvc.dectryref.freed = false := by
    unfold Service.dectryref
    split_ifs <;> exact hf
  unfold procConn
  split_ifs
  · exact Books.leave h hi hpc rfl
  · refine goOnline_inv ((Books.leave h hi hpc rfl).change fun _ _ _ ht => ?_) hi hfreed
    exact ht.congr rfl rfl rfl rfl rfl
  refine (Books.leave h hi hpc rfl).change fun _ _ _ ht => ?_
  have hoff : Tally { s.csvc.dectryref with connecting := false } _ _ _ := ht.congr rfl rfl rfl rfl rfl
  exact (hoff.mark _).congr rfl rfl rfl rfl rfl

theorem added_inv {imp : ℕ} {old : Option ℕ} (h : Inv s) (hi : s.calls[i]? = some c)
    (hpc : c.pc = .sent left rc imp old) :
    Inv { s.setCall i c (.added left rc) with rpcs := s.rpcs ++ [⟨imp, old, .pending⟩] } := by
  set rs := s.rpcs ++ [⟨imp, old, .pending⟩] with hrs
  set cs := s.calls.set i { c with pc := .added left rc } with hcs
  have hsnoc (f : Stage → ℕ) : asked f rs = asked f s.rpcs + f .pending := by
    simp [asked, hrs]
  have hset (f : Pc → ℕ) : calling f cs + f (.sent left rc imp old) = calling f s.calls + f (.added left rc) :=
    hpc ▸ sum_map_set (fun c : Call => f c.pc) hi
  have htries : calling Pc.tries cs + 2 = calling Pc.tries s.calls + 1 := hset Pc.tries
  have huses : calling Pc.uses cs + 1 = calling Pc.uses s.calls := hset Pc.uses
  have hbusy : calling Pc.busy cs = calling Pc.busy s.calls := Nat.add_right_cancel (hset Pc.busy)
  have hwaits : calling Pc.waits cs = calling Pc.waits s.calls := hset Pc.waits
  have htries' : asked Stage.tries rs = asked Stage.tries s.rpcs + 1 := hsnoc Stage.tries
  have huses' : asked Stage.uses rs = asked Stage.uses s.rpcs + 1 := hsnoc Stage.uses
  change Books s.csvc cs rs (s.held + s.owned.toNat)
  refine ⟨h.tally.cast (by omega) (by omega) hbusy.symm, ?_, forall_mem_set h.nonblock fun hpos => nomatch hpos⟩
  rw [hwaits, hbusy]
  exact h.one

theorem disconnect_inv (h : Inv s) (high : Bool) : Inv (s.disconnect high) := by
  unfold State.disconnect State.disconnectCore
  split_ifs
  · exact h
  · exact h
  · exact Books.change h fun n m b ht => ht.congr rfl rfl rfl rfl rfl
  · exact Books.change h fun n m b ht => ht.congr rfl rfl rfl rfl rfl

theorem step_inv {o : Op} (h : Inv s) (hok : Usual s o) (hs : step s o = some t) : Inv t := by
  unfold step at hs
  split_ifs at hs with hdead
  obtain ⟨hfreed, -⟩ : s.csvc.freed = false ∧ s.csvc.failed = false := by simpa using hdead
  cases o with
  | get =>
    cases hs
    exact Books.begin h rfl
  | restart =>
    obtain ⟨c, hc, hpc, rfl⟩ := bind_guard hs
    exact restart_inv h hfreed hc hpc
  | issue =>
    obtain ⟨c, hc, hs⟩ := bind_eq_some_iff.mp hs
    split at hs <;> cases hs
    rename_i hpc
    exact issue_inv h hc hpc
  | newreq =>
    obtain ⟨c, hc, hs⟩ := bind_eq_some_iff.mp hs
    obtain ⟨rfl, hnonblock⟩ := hok
    split at hs <;> cases hs
    rename_i left rc imp old hpc
    refine Books.setCall h hc ?_ (fun _ => hnonblock c hc) fun n m b _ ht => ?_
    · have := h.one
      rw [hpc]
      exact Nat.add_le_add_right this 1
    · rw [hpc] at ht
      have ht : Tally s.csvc (n + 1) (m + (s.held + s.owned.toNat)) (b + 1) := ht
      refine (ht.inctry.incref hfreed).cast rfl ?_ rfl
      change _ = m + 1 + (s.held + s.owned.toNat)
      omega
  | add =>
    obtain ⟨c, hc, hs⟩ := bind_eq_some_iff.mp hs
    split at hs
    · next left rc imp old hpc =>
      split_ifs at hs with hnb herr <;> cases hs
      · exact added_inv h hc hpc
      apply decref_inv
      refine Books.next h hc (by rw [hpc]; rfl) fun n m ht => ?_
      rw [hpc] at ht
      have ht : Tally s.csvc (n + 1 + 1) (m + 1 + (s.held + s.owned.toNat)) 1 := ht
      refine Tally.decref ((ht.idle.connectFinish imp old false).cast rfl ?_ rfl)
      omega
    · exact nomatch hs
  | added =>
    obtain ⟨c, hc, hs⟩ := bind_eq_some_iff.mp hs
    split at hs <;> cases hs
    rename_i left rc hpc
    refine Books.next h hc (by rw [hpc]; rfl) fun n m ht => ?_
    rw [hpc] at ht
    exact ht.idle
  | waitrep =>
    obtain ⟨c, hc, hs⟩ := bind_eq_some_iff.mp hs
    split at hs
    · next left rc imp old hpc =>
      have hnb := h.nonblock c (mem_of_getElem? hc) (by rw [hpc]; exact Nat.one_pos)
      rw [if_pos hnb] at hs
      exact nomatch hs
    · exact nomatch hs
  | procConn =>
    obtain ⟨c, hc, hs⟩ := bind_eq_some_iff.mp hs
    split at hs <;> cases hs
    rename_i hpc
    exact procConn_inv h hfreed hc hpc
  | online =>
    obtain ⟨c, hc, hpc, rfl⟩ := bind_guard hs
    exact goOnline_inv (Books.rest h hc (by rw [hpc]; rfl) rfl) hc hfreed
  | connectCb =>
    obtain ⟨r, hr, hs⟩ := bind_eq_some_iff.mp hs
    split_ifs at hs with hstage herr <;> cases hs
    · refine cbOnline_inv (Books.setRpc h hr fun n m b ht => ?_) hr
      rw [hstage] at ht
      exact ht.connectFinish _ _ _
    apply decref_inv
    refine Books.setRpc h hr fun n m b ht => ?_
    rw [hstage] at ht
    apply Tally.decref
    exact (ht.connectFinish _ _ _).congr rfl rfl rfl rfl rfl
  | cbOnline =>
    obtain ⟨r, hr, hstage, rfl⟩ := bind_guard hs
    refine cbOnline_inv (Books.setRpc h hr fun n m b ht => ?_) hr
    rwa [hstage] at ht
  | incref =>
    cases hs
    refine Books.change h fun n m b ht => (ht.incref hfreed).cast rfl ?_ rfl
    change _ = m + (s.held + 1 + s.owned.toNat)
    omega
  | decref =>
    simp only [act] at hs
    split_ifs at hs with hheld
    cases hs
    apply decref_inv
    refine Books.change h fun n m b ht => Tally.decref (ht.cast rfl ?_ rfl)
    change _ = m + (s.held - 1 + s.owned.toNat) + 1
    omega
  | hldrop =>
    cases hs
    apply decref_inv
    refine Books.change h fun n m b ht => Tally.decref (ht.cast rfl ?_ rfl)
    have howned : s.owned := hok
    rw [howned]
    rfl
  | markfree =>
    cases hs
    exact Books.change h fun n m b ht => ht.congr rfl rfl rfl rfl rfl
  | disable =>
    cases hs
    exact Books.change h fun n m b ht => ht.congr rfl rfl rfl rfl rfl
  | disconnect high =>
    cases hs
    exact disconnect_inv h high
  | core =>
    simp only [act] at hs
    split_ifs at hs
    cases hs
    exact Books.change h fun n m b ht => ht.congr rfl rfl rfl rfl rfl
  | mark =>
    cases hs
    exact Books.change h fun n m b ht => ht.congr rfl rfl rfl rfl rfl

theorem Inv.accounted (h : Inv s) : Accounted s where
  asserts := h.tally.alive
  tryref_nonneg := by
    rw [h.tally.tryref]
    exact Int.natCast_nonneg _
  refcnt_nonneg := by
    rw [h.tally.refcnt]
    exact Int.natCast_nonneg _
  quiet hquiet := by
    have hcalls (f : Pc → ℕ) (hf : ∀ got, f (.ret got) = 0) : calling f s.calls = 0 := by
      refine sum_eq_zero fun x hx => ?_
      obtain ⟨c, hc, rfl⟩ := mem_map.mp hx
      obtain ⟨got, hgot⟩ := hquiet.1 c hc
      rw [hgot, hf]
    have hrpcs (f : Stage → ℕ) (hf : f .done = 0) : asked f s.rpcs = 0 := by
      refine sum_eq_zero fun x hx => ?_
      obtain ⟨r, hr, rfl⟩ := mem_map.mp hx
      rw [hquiet.2 r hr, hf]
    have htryref := h.tally.tryref
    have hrefcnt := h.tally.refcnt
    rw [hcalls _ fun _ => rfl, hrpcs _ rfl] at htryref hrefcnt
    refine ⟨htryref, hrefcnt.trans ?_⟩
    cases s.owned <;> simp
  freed hf := by
    rw [h.tally.refcnt, h.tally.freed hf]
    rfl

/-- **The counts are right** in runs of usual steps. -/
theorem accounted_run (cli nonblock : Bool) (os : List Op) (t : State)
    (hok : Admits step Usual (State.create cli nonblock) os) (h : run step (State.create cli nonblock) os = some t) :
    Accounted t :=
  (run_invariant step_inv (inv_create cli nonblock) hok h).accounted

instance decidableUsual (s : State) (o : Op) : Decidable (Usual s o) := by
  cases o <;> unfold Usual <;> infer_instance

def twoAddresses : List Op :=
  [.get true false false 2, .restart 0 false, .issue 0, .newreq 0 0, .add 0 0, .connectCb 0 0, .added 0, .issue 0,
    .newreq 0 0, .add 0 0, .added 0, .cbOnline 0, .procConn 0, .connectCb 1 (-110), .get false false true 0,
    .restart 1 false, .markfree, .hldrop, .decref]

theorem accounted_twoAddresses : ∃ t ∈ run step (State.create true true) twoAddresses, Accounted t ∧ t.csvc.freed := by
  have hok : Admits step Usual (State.create true true) twoAddresses := by decide +kernel
  have h : ∃ t ∈ run step (State.create true true) twoAddresses, t.csvc.freed := by decide +kernel
  obtain ⟨t, ht, hfreed⟩ := h
  exact ⟨t, ht, accounted_run true true twoAddresses t hok ht, hfreed⟩

/-- A reference is left that nobody has; and an assertion fails. -/
theorem leaked_and_failed : (∃ t ∈ run step (State.create false false)
        [.get false false false 1, .restart 0 false, .issue 0, .newreq 0 0, .waitrep 0 0, .procConn 0, .decref],
      (t.calls.map Call.pc = [.ret true] ∧ t.rpcs = []) ∧ t.held = 0 ∧ t.owned = false ∧ t.csvc.refcnt = 1) ∧
    ∃ t ∈ run step (State.create false true)
        [.get true false false 1, .restart 0 false, .issue 0, .newreq 0 (-12), .procConn 0], t.csvc.failed := by
  constructor <;> decide +kernel

end Slash2.Csvc
