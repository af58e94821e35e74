/-
# Stakes in slivers

With asynchronous reads a sliver is shared by requests that are at different points, and
by reads of the backing store that complete on their own. What keeps this together is what
each request has at stake in each sliver: nothing, a reference it has just taken, an I/O it
has to end with `slvr_io_done` (a read of the backing store may run for it), a reply it
waits for, or a reference that only has to be dropped.
-/
import Mathlib.Data.List.Nodup
import Slash2.Sliod.Slvr

namespace Slash2.Sliver

open List Function

/-! ### The slivers and the reads of the backing store -/

/-- `struct sli_iocb`: the request, the sliver, and which one of that number. -/
structure Iocb where
  owner : ℕ
  n : ℕ
  gen : ℕ
  deriving DecidableEq

def slvrAbsent : Slvr := { slvrNew with refcnt := 0 }

structure Table where
  sl : ℕ → Slvr
  /-- `slvr_iocb`: the request whose read it is -/
  iocb : ℕ → Option ℕ
  /-- `slvr_aioreply`: the request that waits for it -/
  aioreply : ℕ → Option ℕ
  gen : ℕ → ℕ
  /-- `sli_iocb_pndg` -/
  out : List Iocb
  held : List (ℕ × ℕ)

def Table.init : Table := ⟨fun _ => slvrAbsent, fun _ => none, fun _ => none, fun _ => 0, [], []⟩

namespace Table

variable (T : Table)

def set (n : ℕ) (o : Slvr) : Table := { T with sl := update T.sl n o }

@[simp] theorem set_sl_self (n : ℕ) (o : Slvr) : (T.set n o).sl n = o := by
  simp [set]

@[simp] theorem set_sl_of_ne {n m : ℕ} (o : Slvr) (h : m ≠ n) : (T.set n o).sl m = T.sl m := by
  simp [set, h]

@[simp] theorem set_sl (n : ℕ) : T.set n (T.sl n) = T := by
  simp [set]

def look (r n : ℕ) : Table :=
  { T.set n { T.sl n with refcnt := (T.sl n).refcnt + 1 } with held := (r, n) :: T.held }

/-- `SLVRF_FAULTING` is set. -/
def fault (n : ℕ) : Table := T.set n { T.sl n with faulting := true }

/-- `sli_aio_register`: the sliver is faulting and a read runs. -/
def register (r n : ℕ) : Table :=
  { T.fault n with iocb := update T.iocb n (some r), out := ⟨r, n, T.gen n⟩ :: T.out }

/-- `sli_aio_register` with a failing `aio_read`. -/
def registerFails (r n : ℕ) : Table :=
  { T.fault n with iocb := update T.iocb n (some r) }

/-- `slvr_io_done` -/
def ioDone (n : ℕ) (rc : ℤ) : Table := T.set n (slvrIoDone (T.sl n) rc)

def reset (n : ℕ) : Table :=
  { T.set n slvrAbsent with
    iocb := update T.iocb n none
    aioreply := update T.aioreply n none
    gen := update T.gen n (T.gen n + 1) }

def drop (r n : ℕ) (o : Slvr) : Table := { T.set n o with held := T.held.erase (r, n) }

/-- Dropping a reference; `none` if an assertion failed. -/
def unpin (r n : ℕ) : Unpin → Option Table
  | .failed => none
  | .remove o => some ((T.drop r n o).reset n)
  | .keep o => some (T.drop r n o)

/-- The assertions of `slvr_fsaio_done`. -/
def aioAsserts (b : Iocb) : Bool :=
  decide (b.gen = T.gen b.n) && decide (T.iocb b.n = some b.owner) && (T.sl b.n).faulting &&
    !(T.sl b.n).datardy && !(T.sl b.n).dataerr

/-- `slvr_fsaio_done` on the sliver. -/
def complete (b : Iocb) (rc : ℤ) : Table :=
  { T.set b.n (if rc ≠ 0 then { T.sl b.n with faulting := false, dataerr := true, err := rc }
      else { T.sl b.n with faulting := false, datardy := true }) with
    iocb := update T.iocb b.n none
    aioreply := update T.aioreply b.n none
    out := T.out.erase b }

end Table

/-! ### The relation -/

inductive Stake where
  | none
  /-- it has a reference and waits in `slvr_io_prep` -/
  | looked
  /-- it has to call `slvr_io_done`; whether a read may run for it -/
  | owes (aio : Bool)
  | waits
  | settled
  deriving DecidableEq

def Listed (o : Slvr) : Prop := o.onLru = o.lru ∧ o.lru = !o.crcdirty ∧ o.freeing = false

def Loaded (o : Slvr) : Prop := o.datardy ∨ o.dataerr

structure Runs (T : Table) (S : ℕ → ℕ → Stake) (b : Iocb) : Prop where
  gen : b.gen = T.gen b.n
  iocb : T.iocb b.n = some b.owner
  faulting : (T.sl b.n).faulting
  notLoaded : ¬ Loaded (T.sl b.n)
  owner : S b.owner b.n = .owes true ∨ S b.owner b.n = .waits
  alone : ∀ q a, S q b.n = .owes a → q = b.owner

structure Fits (T : Table) (S : ℕ → ℕ → Stake) : Prop where
  refs : ∀ n, (T.sl n).refcnt = T.held.countP fun p => p.2 = n
  held : ∀ r n, T.held.count (r, n) = if S r n = .none then 0 else 1
  listed : ∀ n, Listed (T.sl n)
  seen : ∀ r n, S r n ≠ .none → S r n ≠ .looked → (T.sl n).faulting ∨ Loaded (T.sl n)
  settled : ∀ r n, S r n = .settled → Loaded (T.sl n)
  faulting : ∀ n, (T.sl n).faulting → (∃ b ∈ T.out, b.n = n) ∨ ∃ r a, S r n = .owes a
  runs : ∀ b ∈ T.out, Runs T S b
  nodup : T.out.Nodup

variable (S : ℕ → ℕ → Stake)

def restake (r n : ℕ) (st : Stake) : ℕ → ℕ → Stake :=
  fun q m => if q = r ∧ m = n then st else S q m

theorem restake_at (r n : ℕ) (st : Stake) (q : ℕ) : restake S r n st q n = if q = r then st else S q n := by
  simp [restake]

theorem restake_self (r n : ℕ) (st : Stake) : restake S r n st r n = st := if_pos ⟨rfl, rfl⟩

theorem restake_ne (r : ℕ) {n m : ℕ} (st : Stake) (h : m ≠ n) (q : ℕ) :
    restake S r n st q m = S q m := if_neg fun hq => h hq.2

/-- `Fits`, for one sliver. -/
structure FitsAt (T : Table) (S : ℕ → ℕ → Stake) (n : ℕ) : Prop where
  refs : (T.sl n).refcnt = T.held.countP fun p => p.2 = n
  held : ∀ r, T.held.count (r, n) = if S r n = .none then 0 else 1
  listed : Listed (T.sl n)
  seen : ∀ r, S r n ≠ .none → S r n ≠ .looked → (T.sl n).faulting ∨ Loaded (T.sl n)
  settled : ∀ r, S r n = .settled → Loaded (T.sl n)
  faulting : (T.sl n).faulting → (∃ b ∈ T.out, b.n = n) ∨ ∃ r a, S r n = .owes a
  runs : ∀ b ∈ T.out, b.n = n → Runs T S b

/-- A move leaves sliver `m` alone. -/
structure Same (T T' : Table) (S S' : ℕ → ℕ → Stake) (m : ℕ) : Prop where
  sl : T'.sl m = T.sl m
  iocb : T'.iocb m = T.iocb m := by rfl
  gen : T'.gen m = T.gen m := by rfl
  stake : ∀ q, S' q m = S q m := by intro; rfl
  refs : T'.held.countP (fun p => p.2 = m) = T.held.countP fun p => p.2 = m := by rfl
  held : ∀ q, T'.held.count (q, m) = T.held.count (q, m) := by intro; rfl
  out : ∀ b, b.n = m → (b ∈ T'.out ↔ b ∈ T.out) := by intros; rfl

theorem FitsAt.same {T T' : Table} {S S' : ℕ → ℕ → Stake} {m : ℕ} (h : FitsAt T S m) (hs : Same T T' S S' m) :
    FitsAt T' S' m := by
  refine ⟨?_, fun q => ?_, ?_, fun q => ?_, fun q => ?_, ?_, fun b hb hm => ?_⟩
  · rw [hs.sl, hs.refs, h.refs]
  · rw [hs.held, hs.stake, h.held]
  · rw [hs.sl]
    exact h.listed
  · rw [hs.sl, hs.stake]
    exact h.seen q
  · rw [hs.sl, hs.stake]
    exact h.settled q
  · rw [hs.sl]
    intro hf
    rcases h.faulting hf with ⟨b, hb, hn⟩ | ⟨q, a, hq⟩
    · exact .inl ⟨b, (hs.out b hn).mpr hb, hn⟩
    · exact .inr ⟨q, a, (hs.stake q).trans hq⟩
  · obtain ⟨hg, hi, hf, hl, ho, ha⟩ := h.runs b ((hs.out b hm).mp hb) hm
    subst hm
    refine ⟨hg.trans hs.gen.symm, hs.iocb.trans hi, ?_, ?_, ?_, fun q a hq => ha q a ?_⟩
    · rwa [hs.sl]
    · rwa [hs.sl]
    · rwa [hs.stake]
    · rwa [← hs.stake]

namespace Fits

variable {S} {T : Table} {S' : ℕ → ℕ → Stake} {r n : ℕ}

theorem no_read (h : Fits T S) (hf : (T.sl n).faulting = false) : ∀ b ∈ T.out, b.n ≠ n := by
  rintro b hb rfl
  simp [(h.runs b hb).faulting] at hf

theorem no_read_of_loaded (h : Fits T S) (hl : Loaded (T.sl n)) : ∀ b ∈ T.out, b.n ≠ n := by
  rintro b hb rfl
  exact (h.runs b hb).notLoaded hl

variable {a : Bool} {b : Iocb}

theorem owner_eq (h : Fits T S) (hS : S r n = .owes a) (hb : b ∈ T.out) (hn : b.n = n) : b.owner = r := by
  subst hn
  exact ((h.runs b hb).alone r a hS).symm

theorem read_unique (h : Fits T S) {b' : Iocb} (hb : b ∈ T.out) (hb' : b' ∈ T.out) (hn : b.n = b'.n) : b = b' := by
  have h1 := h.runs b hb
  have h2 := h.runs b' hb'
  have howner : b.owner = b'.owner := Option.some.inj (by rw [← h1.iocb, ← h2.iocb, hn])
  have hgen : b.gen = b'.gen := by rw [h1.gen, h2.gen, hn]
  cases b
  simp_all

theorem refcnt_pos (h : Fits T S) (hS : S r n ≠ .none) : 0 < (T.sl n).refcnt := by
  have hmem : (r, n) ∈ T.held := by
    rw [← count_pos_iff, h.held r n, if_neg hS]
    exact Nat.one_pos
  rw [h.refs n, countP_pos_iff]
  exact ⟨_, hmem, by simp⟩

theorem none_of_refcnt (h : Fits T S) (h0 : (T.sl n).refcnt = 0) (q : ℕ) : S q n = .none := by
  by_contra hS
  have := h.refcnt_pos hS
  omega

theorem fitsAt (h : Fits T S) (n : ℕ) : FitsAt T S n :=
  ⟨h.refs n, (h.held · n), h.listed n, (h.seen · n), (h.settled · n), h.faulting n, fun b hb _ => h.runs b hb⟩

/-- A move of sliver `n` only. -/
theorem move {T' : Table} (h : Fits T S) (n : ℕ) (hs : ∀ m ≠ n, Same T T' S S' m) (hn : FitsAt T' S' n)
    (hnd : T'.out.Nodup) : Fits T' S' := by
  have hat : ∀ m, FitsAt T' S' m := fun m => by
    by_cases hm : m = n
    · exact hm ▸ hn
    · exact (h.fitsAt m).same (hs m hm)
  exact ⟨fun m => (hat m).refs, fun q m => (hat m).held q, fun m => (hat m).listed, fun q m => (hat m).seen q,
    fun q m => (hat m).settled q, fun m => (hat m).faulting, fun b hb => (hat b.n).runs b hb rfl, hnd⟩

variable {o : Slvr}

theorem change (h : Fits T S) {st : Stake} (hno : ∀ b ∈ T.out, b.n ≠ n)
    (hS : S r n ≠ .none) (hst : st ≠ .none) (hrefs : o.refcnt = (T.sl n).refcnt) (hlisted : Listed o)
    (hload : Loaded (T.sl n) → Loaded o) (hfault : o.faulting ∨ Loaded o) (hsettled : st = .settled → Loaded o)
    (howner : o.faulting → (∃ a, st = .owes a) ∨ ∃ q a, q ≠ r ∧ S q n = .owes a) :
    Fits (T.set n o) (restake S r n st) := by
  refine h.move n (fun m hm => { sl := T.set_sl_of_ne o hm, stake := restake_ne S r st hm }) ?_ h.nodup
  refine ⟨?_, fun q => (h.held q n).trans ?_, ?_, fun q _ _ => ?_, fun q hq => ?_, fun hm => ?_,
    fun b hb hn => absurd hn (hno b hb)⟩
  · rw [T.set_sl_self]
    exact hrefs.trans (h.refs n)
  · by_cases hq : q = r
    · rw [hq, restake_self, if_neg hS, if_neg hst]
    · rw [restake_at, if_neg hq]
  · rwa [T.set_sl_self]
  · rwa [T.set_sl_self]
  · rw [T.set_sl_self]
    rw [restake_at] at hq
    split at hq
    · exact hsettled hq
    · exact hload (h.settled q n hq)
  · rw [T.set_sl_self] at hm
    rcases howner hm with ⟨a, rfl⟩ | ⟨q, a, hqr, hq⟩
    · exact .inr ⟨r, a, restake_self S r n _⟩
    · exact .inr ⟨q, a, by rwa [restake_at, if_neg hqr]⟩

theorem fault (h : Fits T S) (hS : S r n = .looked) (hf : (T.sl n).faulting = false) (a : Bool) :
    Fits (T.fault n) (restake S r n (.owes a)) :=
  h.change (h.no_read hf) (by simp [hS]) (by simp) rfl (h.listed n) id (.inl rfl) (fun h => by cases h)
    fun _ => .inl ⟨a, rfl⟩

theorem refuse (h : Fits T S) (hS : S r n = .looked) (he : (T.sl n).dataerr)
    (hf : (T.sl n).faulting = false) (a : Bool) : Fits T (restake S r n (.owes a)) := by
  rw [← T.set_sl n]
  exact h.change (h.no_read hf) (by simp [hS]) (by simp) rfl (h.listed n) id (.inr (.inr he))
    (fun h => by cases h) fun _ => .inl ⟨a, rfl⟩

theorem slvrIoDone_loaded (o : Slvr) (rc : ℤ) : Loaded (slvrIoDone o rc) ∧ (slvrIoDone o rc).faulting = false := by
  unfold slvrIoDone
  split
  · exact ⟨.inr rfl, rfl⟩
  · exact ⟨.inl rfl, rfl⟩

section
variable (h : Fits T S)
include h

theorem ioDone (hS : S r n = .owes false) (rc : ℤ) : Fits (T.ioDone n rc) (restake S r n .settled) := by
  obtain ⟨hl, hf⟩ := slvrIoDone_loaded (T.sl n) rc
  refine h.change (fun b hb hn => ?_) (by simp [hS]) (by simp) ?_ ?_ (fun _ => hl) (.inr hl)
    (fun _ => hl) fun hft => ?_
  · -- the read would belong to this request
    have howner := h.owner_eq hS hb hn
    rcases (h.runs b hb).owner with ho | ho <;> rw [howner, hn, hS] at ho <;> cases ho
  · unfold slvrIoDone
    split <;> rfl
  · have := h.listed n
    unfold slvrIoDone
    split <;> exact this
  · rw [hf] at hft
    cases hft

theorem settle (hS : (∃ a, S r n = .owes a) ∨ S r n = .waits)
    (hf : (T.sl n).faulting = false) : Fits T (restake S r n .settled) := by
  have hne : S r n ≠ .none ∧ S r n ≠ .looked := by
    rcases hS with ⟨a, hS⟩ | hS <;> simp [hS]
  have hl : Loaded (T.sl n) := (h.seen r n hne.1 hne.2).resolve_left (by simp [hf])
  rw [← T.set_sl n]
  exact h.change (h.no_read hf) hne.1 (by simp) rfl (h.listed n) id (.inr hl) (fun _ => hl)
    fun hft => by simp [hf] at hft

theorem relax (hS : S r n = .owes a) (hf : (T.sl n).faulting = false) : Fits T (restake S r n (.owes false)) := by
  have hl : Loaded (T.sl n) := (h.seen r n (by simp [hS]) (by simp [hS])).resolve_left (by simp [hf])
  rw [← T.set_sl n]
  exact h.change (h.no_read hf) (by simp [hS]) (by simp) rfl (h.listed n) id (.inr hl)
    (fun h => by cases h) fun hft => by simp [hf] at hft

theorem look (hS : S r n = .none) : Fits (T.look r n) (restake S r n .looked) := by
  refine h.move n (fun m hm => {
    sl := update_of_ne hm _ _
    stake := restake_ne S r _ hm
    refs := countP_cons_of_neg (by simpa using hm.symm)
    held := fun q => count_cons_of_ne (by simp [hm.symm]) }) ?_ h.nodup
  have hself : (T.look r n).sl n = { T.sl n with refcnt := (T.sl n).refcnt + 1 } := update_self n _ T.sl
  -- the new stake is neither of those the flags are about
  have hold : ∀ q st, st ≠ .looked → st ≠ .none → (restake S r n .looked q n = st ↔ S q n = st) := by
    intro q st hl hn
    rw [restake_at]
    split_ifs with hq
    · rw [hq, hS]
      exact ⟨fun h => absurd h.symm hl, fun h => absurd h.symm hn⟩
    · rfl
  refine ⟨?_, fun q => ?_, ?_, fun q hq hl => ?_, fun q hq => ?_, fun hm => ?_, fun b hb hn => ?_⟩
  · rw [hself]
    exact (congrArg (· + 1) (h.refs n)).trans (countP_cons_of_pos (by simp)).symm
  · refine count_cons.trans ?_
    rw [h.held q n, restake_at]
    by_cases hq : q = r
    · simp [hq, hS]
    · simp [hq, Ne.symm hq]
  · rw [hself]
    exact h.listed n
  · rw [hself]
    have hq' := (hold q _ hl hq).mp rfl
    exact h.seen q n (hq' ▸ hq) (hq' ▸ hl)
  · rw [hself]
    exact h.settled q n ((hold q _ (by simp) (by simp)).mp hq)
  · rw [hself] at hm
    rcases h.faulting n hm with hb | ⟨q, a, hq⟩
    · exact .inl hb
    · exact .inr ⟨q, a, (hold q _ (by simp) (by simp)).mpr hq⟩
  · subst hn
    obtain ⟨hg, hi, hf, hl, ho, ha⟩ := h.runs b hb
    refine ⟨hg, hi, ?_, ?_, ?_, fun q a hq => ha q a ((hold q _ (by simp) (by simp)).mp hq)⟩
    · rwa [hself]
    · rwa [hself]
    · rwa [hold _ _ (by simp) (by simp), hold _ _ (by simp) (by simp)]

theorem register (hS : S r n = .looked) (hf : (T.sl n).faulting = false)
    (hl : ¬ Loaded (T.sl n)) : Fits (T.register r n) (restake S r n (.owes true)) := by
  have hfit := h.fault hS hf true
  have hno := h.no_read hf
  -- whoever had to end its I/O on the sliver has left a trace in it
  have halone : ∀ q a, S q n ≠ .owes a := by
    intro q a hq
    rcases h.seen q n (by simp [hq]) (by simp [hq]) with hft | hld
    · simp [hf] at hft
    · exact hl hld
  have hself : (T.register r n).sl n = { T.sl n with faulting := true } := update_self n _ T.sl
  refine hfit.move n (fun m hm => { sl := rfl, iocb := update_of_ne hm _ _, out := fun b hb => ?_ })
    { hfit.fitsAt n with faulting := fun _ => .inl ⟨_, mem_cons_self, rfl⟩, runs := fun b hb hn => ?_ }
    (nodup_cons.mpr ⟨fun hb => hno _ hb rfl, h.nodup⟩)
  · exact ⟨fun hm' => (mem_cons.mp hm').resolve_left fun he => hm (by rw [← hb, he]), mem_cons_of_mem _⟩
  · rcases mem_cons.mp hb with rfl | hb
    · refine ⟨rfl, update_self n _ T.iocb, ?_, ?_, .inl (restake_self S r n _), fun q a hq => ?_⟩
      · rw [hself]
      · rwa [hself]
      · by_contra hqr
        rw [restake_at, if_neg hqr] at hq
        exact halone q a hq
    · exact absurd hn (hno b hb)

theorem registerFails (hS : S r n = .looked) (hf : (T.sl n).faulting = false) (a : Bool) :
    Fits (T.registerFails r n) (restake S r n (.owes a)) := by
  have hfit := h.fault hS hf a
  exact hfit.move n (fun m hm => { sl := rfl, iocb := update_of_ne hm _ _ })
    { hfit.fitsAt n with runs := fun b hb hn => absurd hn (h.no_read hf b hb) } h.nodup

/-- Request `r` need not end its I/O any more, or a read may run for it, or not. -/
theorem restakes (hS : ∀ q ≠ r, ∀ m, S' q m = S q m)
    (hr : ∀ m, S' r m = S r m ∨ (∃ a, S r m = .owes a) ∧ ((∃ a, S' r m = .owes a) ∨
      S' r m = .waits ∧ ((T.sl m).faulting → ∃ b ∈ T.out, b.n = m)))
    (hno : ∀ b ∈ T.out, b.owner = r → S' r b.n ≠ .owes false) : Fits T S' := by
  have hall : ∀ q m, S' q m = S q m ∨ q = r ∧ (∃ a, S q m = .owes a) ∧ ((∃ a, S' q m = .owes a) ∨
      S' q m = .waits ∧ ((T.sl m).faulting = true → ∃ b ∈ T.out, b.n = m)) := by
    intro q m
    by_cases hq : q = r
    · subst hq
      exact (hr m).imp_right fun h => ⟨rfl, h⟩
    · exact .inl (hS q hq m)
  have hother : ∀ q m, (S' q m = .none ↔ S q m = .none) ∧ (S' q m = .looked ↔ S q m = .looked) ∧
      (S' q m = .settled ↔ S q m = .settled) := by
    intro q m
    rcases hall q m with he | ⟨-, ⟨a, ha⟩, ⟨a', ha'⟩ | ⟨ha', -⟩⟩
    · simp [he]
    · simp [ha, ha']
    · simp [ha, ha']
  refine ⟨h.refs, fun q m => ?_, h.listed, fun q m hq hl => ?_, fun q m hq => ?_, fun m hm => ?_,
    fun b hb => ?_, h.nodup⟩
  · rw [h.held q m]
    simp only [(hother q m).1]
  · exact h.seen q m (mt (hother q m).1.mpr hq) (mt (hother q m).2.1.mpr hl)
  · exact h.settled q m ((hother q m).2.2.mp hq)
  · rcases h.faulting m hm with hb | ⟨q, a, hq⟩
    · exact .inl hb
    · rcases hall q m with he | ⟨-, -, ⟨a', ha'⟩ | ⟨-, hb⟩⟩
      · exact .inr ⟨q, a, he.trans hq⟩
      · exact .inr ⟨q, a', ha'⟩
      · exact .inl (hb hm)
  · have hrun := h.runs b hb
    refine { hrun with owner := ?_, alone := fun q a hq => ?_ }
    · rcases hall b.owner b.n with he | ⟨hbr, -, ⟨a, ha⟩ | ⟨ha, -⟩⟩
      · rw [he]
        exact hrun.owner
      · cases a
        · exact absurd (hbr ▸ ha) (hno b hb hbr)
        · exact .inl ha
      · exact .inr ha
    · rcases hall q b.n with he | ⟨-, ⟨a', ha⟩, -⟩
      · exact hrun.alone q a (he.symm.trans hq)
      · exact hrun.alone q a' ha

theorem attach (f : ℕ → Option ℕ) : Fits { T with aioreply := f } S :=
  { h with runs := fun b hb => { h.runs b hb with } }

theorem asserts (hb : b ∈ T.out) : T.aioAsserts b := by
  have hr := h.runs b hb
  obtain ⟨hrdy, herr⟩ := not_or.mp hr.notLoaded
  simp [Table.aioAsserts, hr.gen, hr.iocb, hr.faulting, hrdy, herr]

theorem complete (hb : b ∈ T.out) (rc : ℤ) : Fits (T.complete b rc) S := by
  have hmem : ∀ c, c ∈ T.out.erase b ↔ c ≠ b ∧ c ∈ T.out := fun c => h.nodup.mem_erase_iff
  have hself : (T.complete b rc).sl b.n = if rc ≠ 0 then
      { T.sl b.n with faulting := false, dataerr := true, err := rc }
      else { T.sl b.n with faulting := false, datardy := true } := update_self b.n _ T.sl
  have hloaded : Loaded ((T.complete b rc).sl b.n) ∧ ((T.complete b rc).sl b.n).faulting = false ∧
      Listed ((T.complete b rc).sl b.n) ∧ ((T.complete b rc).sl b.n).refcnt = (T.sl b.n).refcnt := by
    rw [hself]
    split
    · exact ⟨.inr rfl, rfl, h.listed b.n, rfl⟩
    · exact ⟨.inl rfl, rfl, h.listed b.n, rfl⟩
  obtain ⟨hl, hf, hlisted, hrefs⟩ := hloaded
  refine h.move b.n (fun m hm => {
      sl := update_of_ne hm _ _
      iocb := update_of_ne hm _ _
      out := fun c hc => (hmem c).trans (and_iff_right fun he => hm (by rw [← hc, he])) })
    ⟨hrefs.trans (h.refs b.n), (h.held · b.n), hlisted, fun _ _ _ => .inr hl, fun _ _ => hl, fun hm => ?_,
      fun c hc hn => ?_⟩ (h.nodup.erase b)
  · rw [hf] at hm
    cases hm
  · obtain ⟨hcb, hc⟩ := (hmem c).mp hc
    exact absurd (h.read_unique hc hb hn) hcb

theorem reset (h0 : (T.sl n).refcnt = 0) : Fits (T.reset n) S := by
  have hnone := h.none_of_refcnt h0
  have hself : (T.reset n).sl n = slvrAbsent := update_self n _ T.sl
  refine h.move n (fun m hm =>
      { sl := update_of_ne hm _ _, iocb := update_of_ne hm _ _, gen := update_of_ne hm _ _ })
    ⟨?_, (h.held · n), ?_, fun q hq => absurd (hnone q) hq, fun q hq => ?_, fun hm => ?_, fun b hb hn => ?_⟩ h.nodup
  · rw [hself]
    exact h0.symm.trans (h.refs n)
  · rw [hself]
    exact ⟨rfl, rfl, rfl⟩
  · rw [hnone] at hq
    cases hq
  · rw [hself] at hm
    cases hm
  · subst hn
    rcases (h.runs b hb).owner with ho | ho <;> rw [hnone] at ho <;> cases ho

theorem drop (hS : S r n = .settled) (hrefs : o.refcnt + 1 = (T.sl n).refcnt)
    (hlisted : Listed o) (hf : o.faulting = (T.sl n).faulting) (hl : Loaded o) :
    Fits (T.drop r n o) (restake S r n .none) := by
  have hself : (T.drop r n o).sl n = o := T.set_sl_self n o
  have hmem : (r, n) ∈ T.held := by
    rw [← count_pos_iff, h.held r n, hS]
    decide
  refine h.move n (fun m hm => {
    sl := T.set_sl_of_ne o hm
    stake := restake_ne S r _ hm
    refs := (countP_erase ..).trans (by simp [hm.symm])
    held := fun q => count_erase_of_ne (by simp [hm]) }) ?_ h.nodup
  refine ⟨?_, fun q => ?_, ?_, fun _ _ _ => ?_, fun _ _ => ?_, fun hm => ?_,
    fun b hb hn => absurd hn (h.no_read_of_loaded (h.settled r n hS) b hb)⟩
  · have hpos := h.refs n
    rw [hself]
    refine Eq.trans ?_ (countP_erase ..).symm
    simp [hmem]
    omega
  · refine (count_erase ..).trans ?_
    rw [h.held q n, restake_at]
    by_cases hq : q = r
    · simp [hq, hS]
    · simp [hq, Ne.symm hq]
  · rwa [hself]
  · rw [hself]
    exact .inr hl
  · rwa [hself]
  · rw [hself, hf] at hm
    rcases h.faulting n hm with hb | ⟨q, a, hq⟩
    · exact .inl hb
    · refine .inr ⟨q, a, ?_⟩
      rwa [restake_at, if_neg fun he => by rw [he, hS] at hq; cases hq]

end

/-- `slvr_rio_done`, `slvr_wio_done`: removed only with the last reference. -/
def Dropped (o : Slvr) : Unpin → Prop
  | .failed => False
  | .remove p => p.refcnt = 0 ∧ p.refcnt + 1 = o.refcnt ∧ Listed p ∧ p.faulting = o.faulting ∧ Loaded p
  | .keep p => p.refcnt + 1 = o.refcnt ∧ Listed p ∧ p.faulting = o.faulting ∧ Loaded p

section
variable (hpos : 0 < o.refcnt) (hlisted : Listed o) (hl : Loaded o)
include hpos hlisted hl

theorem tryunpin_dropped : Dropped o (slvrLruTryunpin { o with refcnt := o.refcnt - 1 }) := by
  obtain ⟨hon, hlru, hfree⟩ := hlisted
  have hrefs : o.refcnt - 1 + 1 = o.refcnt := by omega
  unfold slvrLruTryunpin
  by_cases hkeep : o.refcnt - 1 ≠ 0 ∨ o.crcdirty = true
  · rw [if_pos hkeep]
    exact ⟨hrefs, ⟨hon, hlru, hfree⟩, rfl, hl⟩
  rw [if_neg hkeep]
  obtain ⟨h0, hclean⟩ := not_or.mp hkeep
  by_cases he : o.dataerr = true
  · rw [if_pos (.inl he)]
    exact ⟨not_not.mp h0, hrefs, ⟨hon, hlru, hfree⟩, rfl, hl⟩
  have hl' : o.lru := by rw [hlru, Bool.eq_false_iff.mpr hclean]; rfl
  rw [if_neg (by simp [he, hfree]), if_neg (by simp [hon, hl', hl.resolve_right he])]
  exact ⟨hrefs, ⟨hon, hlru, hfree⟩, rfl, hl⟩

theorem rioDone_dropped : Dropped o (slvrRioDone o) := by
  unfold slvrRioDone
  rw [if_neg (by omega)]
  exact tryunpin_dropped hpos hlisted hl

theorem wioDone_dropped : Dropped o (slvrWioDone o) := by
  obtain ⟨hon, hlru, hfree⟩ := hlisted
  have hrefs : o.refcnt - 1 + 1 = o.refcnt := by omega
  unfold slvrWioDone
  rw [if_neg (by omega)]
  by_cases he : o.dataerr = true
  · rw [if_pos he]
    exact tryunpin_dropped hpos ⟨hon, hlru, hfree⟩ hl
  rw [if_neg he]
  split_ifs with hlr
  · simp only [slvrScheduleCrc, show o.onLru = true from hon.trans hlr, if_true]
    exact ⟨hrefs, ⟨rfl, rfl, hfree⟩, rfl, hl⟩
  · exact ⟨hrefs, ⟨hon, hlru, hfree⟩, rfl, hl⟩

end

theorem unpin (h : Fits T S) (hS : S r n = .settled) {u : Unpin}
    (hu : u = slvrRioDone (T.sl n) ∨ u = slvrWioDone (T.sl n)) :
    ∃ T', T.unpin r n u = some T' ∧ Fits T' (restake S r n .none) ∧ T'.out = T.out ∧
      (T'.aioreply = T.aioreply ∨ T'.aioreply = update T.aioreply n none) := by
  have hpos := h.refcnt_pos (r := r) (n := n) (by simp [hS])
  have hdrop : Dropped (T.sl n) u := by
    rcases hu with rfl | rfl
    · exact rioDone_dropped hpos (h.listed n) (h.settled r n hS)
    · exact wioDone_dropped hpos (h.listed n) (h.settled r n hS)
  cases u with
  | failed => exact hdrop.elim
  | remove =>
    obtain ⟨h0, hrefs, hlisted, hf, hl⟩ := hdrop
    have hfit := h.drop hS hrefs hlisted hf hl
    refine ⟨_, rfl, hfit.reset ?_, rfl, .inr rfl⟩
    rw [Table.drop]
    simpa using h0
  | keep =>
    obtain ⟨hrefs, hlisted, hf, hl⟩ := hdrop
    exact ⟨_, rfl, h.drop hS hrefs hlisted hf hl, rfl, .inl rfl⟩

end Fits

end Slash2.Sliver
