/-
# The reply of a read

The biorqs of a read end in any order, each when its last reference is dropped. A biorq that
ends lists its cached pages in the request or, with direct I/O, leaves its data in its own
buffer; it then drops its reference to the request and is destroyed, which frees the buffer
and gives up the pages. The last one sends the reply.

Key theorem: `reply_exact`.
-/
import Slash2.Client.Fsrq
import Slash2.Lib.Slots

namespace Slash2.Client.Io.ReadReply

open Lib List Option Function
open Residency (slashBmapSize)

variable {r : Ioreq} {fsz : ℕ} {q : Fsrq}

/-! ### The model -/

inductive Stage where
  | live
  /-- `msl_biorq_complete_fsrq` is done -/
  | completed
  /-- `_msl_biorq_destroy` is done -/
  | destroyed
  deriving DecidableEq

/-- A biorq of the read: its pages, and `biorq_buf`. -/
structure Slot where
  req : Ioreq
  pages : List Page
  buf : Option (ℕ → Byte)
  stage : Stage

variable (c : Contents)

def directBuf (r : Ioreq) : Option (ℕ → Byte) :=
  if r.dio then some fun o => c.direct r.bno (r.rq.off + o) else none

def Slot.filled (r : Ioreq) : Slot := ⟨r, biorqPages c r, directBuf c r, .live⟩

structure State where
  q : Fsrq
  slots : List Slot
  reply : Option (ℤ × List (Option Byte))

def vecBytes (pages : List (List Page)) (bufs : List (Option (ℕ → Byte))) : Vec → List (Option Byte)
  | .page i v => iovBytes ((pages[i]?).getD []) v
  | .buf i len => window (fun o => (bufs[i]?).bind fun b => b.map fun f => f o) 0 len

def replyBytes (slots : List Slot) : Reply → ℤ × List (Option Byte)
  | .read iov rc => (rc, iov.flatMap (vecBytes (slots.map Slot.pages) (slots.map Slot.buf)))
  | .write _ rc => (rc, [])

variable (s : State)

/-- `_msl_complete_fsrq` -/
def State.finish (q : Fsrq) (len : ℕ) : State :=
  { s with
    q := (mslCompleteFsrq q len).1
    reply := ((mslCompleteFsrq q len).2.map (replyBytes s.slots)).or s.reply }

/-- The read after step 5 of `msl_io`. -/
def start (p : Request) (fsz : ℕ) : State :=
  let rs := mslIoBiorqs c.dio p fsz
  State.finish ⟨mslFsrqinfoInit p fsz, rs.map (Slot.filled c), none⟩
    (rs.foldl Fsrq.addBiorq (mslFsrqinfoInit p fsz)) 0

inductive Event where
  | seterr (rc : ℤ)
  /-- the last reference is dropped, the file being `fsz` long -/
  | complete (i fsz : ℕ)
  | destroy (i : ℕ)
  /-- page `j` of a destroyed biorq gets other data -/
  | recycle (i j : ℕ) (base : ℕ → Byte)

/-- Change biorq `i`. -/
def State.setSlot (i : ℕ) (sl : Slot) : State := { s with slots := s.slots.set i sl }

def complete (i fsz : ℕ) (sl : Slot) : Option State :=
  if sl.stage = .live ∧ fsz < 0x10000000000000000 then
    (mslBiorqCompleteFsrq s.q i sl.req fsz sl.pages []).map fun out =>
      (s.setSlot i { sl with stage := .completed }).finish out.1 out.2.1
  else none

def destroy (i : ℕ) (sl : Slot) : Option State :=
  if sl.stage = .completed then some (s.setSlot i { sl with stage := .destroyed, buf := none }) else none

def recycle (i j : ℕ) (base : ℕ → Byte) (sl : Slot) : Option State :=
  if sl.stage = .destroyed then
    some (s.setSlot i { sl with pages := sl.pages.modify j fun e => { e with base := base } })
  else none

def step : Event → Option State
  | .seterr rc => if s.q.replied then none else some { s with q := mfsrqSeterr s.q rc }
  | .complete i fsz => s.slots[i]?.bind (complete s i fsz)
  | .destroy i => s.slots[i]?.bind (destroy s i)
  | .recycle i j base => s.slots[i]?.bind (recycle s i j base)

/-- All go through the cache, or none. -/
def Uniform (rs : List Ioreq) : Prop := (∀ r ∈ rs, r.dio = false) ∨ ∀ r ∈ rs, r.dio
  deriving Decidable

/-- Biorqs complete in order, with a file of at least `lim` bytes; buffers are given up after the reply. -/
def Orderly (lim : ℕ) (s : State) : Event → Prop
  | .seterr _ => True
  | .complete i fsz => lim ≤ fsz ∧ ∀ sl ∈ s.slots.take i, sl.stage ≠ .live
  | .destroy i => s.q.replied ∨ ∀ sl ∈ s.slots[i]?, sl.req.dio = false
  | .recycle _ _ _ => s.q.replied

instance (lim : ℕ) (s : State) (ev : Event) : Decidable (Orderly lim s ev) := by
  cases ev <;> unfold Orderly <;> infer_instance

/-! ### What has been put together -/

section Parts

variable {c} {rs : List Ioreq} {lim : ℕ}

def fileBytes (c : Contents) (r : Ioreq) : List (Option Byte) :=
  window (fun o => some (c.byteAt o)) r.foff r.rq.len

theorem byteAt_foff {j : ℕ} (hno : r.bno < 0x100000000) (h : r.rq.off + j < slashBmapSize) :
    c.byteAt (r.foff + j) = c.bmapByte r.bno (r.rq.off + j) := by
  have hB : 0 < slashBmapSize := by decide
  unfold Contents.byteAt Ioreq.foff
  rw [Nat.add_assoc, Nat.mul_comm, Nat.mul_add_div hB, Nat.div_eq_of_lt h, Nat.add_zero, Nat.mul_add_mod,
    Nat.mod_eq_of_lt h, Nat.mod_eq_of_lt hno]

section
variable (hr : Inside c.dio lim r)
include hr

theorem fileBytes_eq : fileBytes c r = window (fun o => some (c.bmapByte r.bno o)) r.rq.off r.rq.len := by
  refine window_congr fun j hj => ?_
  have := hr.bmap
  rw [byteAt_foff hr.bno (by omega)]

theorem rflen_le (hlim : lim ≤ fsz) (hfsz : fsz < 0x10000000000000000) : r.rq.off + r.rq.len ≤ rflen fsz r.bno := by
  have hend : r.bno * slashBmapSize + r.rq.off + r.rq.len ≤ lim := hr.end_le
  rw [rflen, sub64_of_le (by omega) (by omega)]
  omega

theorem copyout_fileBytes (hd : r.dio = false) (hlim : lim ≤ fsz) (hfsz : fsz < 0x10000000000000000) {vs : List Iov}
    (h : mslPagesCopyout r.rq (rflen fsz r.bno) (biorqPages c r) = some vs) :
    vs.flatMap (iovBytes (biorqPages c r)) = fileBytes c r ∧ (vs.map Iov.len).sum = r.rq.len := by
  have hdio : c.dio r.bno = false := by rw [← hr.mode, hd]
  have hbytes := mslPagesCopyout_bytes c r hd hdio hr.pos (rflen_le hr hlim hfsz) h
  refine ⟨by rw [hbytes, fileBytes_eq hr], ?_⟩
  have hlen := congrArg length hbytes
  simpa [length_flatMap, iovBytes] using hlen

theorem buf_fileBytes (hd : r.dio) {i : ℕ} (hi : rs[i]? = some r) :
    vecBytes (rs.map (biorqPages c)) (rs.map (directBuf c)) (.buf i r.rq.len) = fileBytes c r := by
  have hdio : c.dio r.bno := by rw [← hr.mode, hd]
  rw [fileBytes_eq hr, vecBytes]
  refine window_congr fun j _ => ?_
  simp [hi, directBuf, hd, Contents.bmapByte, hdio]

end

/-- After the first `k` biorqs have ended well. -/
structure Sent (c : Contents) (rs : List Ioreq) (k : ℕ) (q : Fsrq) : Prop where
  len : q.len = ((rs.take k).map fun r => r.rq.len).sum
  cached : (∀ r ∈ rs, r.dio = false) → (k ≠ 0 → q.iovs ≠ none) ∧
    (q.iovs.getD []).flatMap (vecBytes (rs.map (biorqPages c)) (rs.map (directBuf c))) =
      (rs.take k).flatMap (fileBytes c)
  direct : (∀ r ∈ rs, r.dio) → q.iovs = none

theorem Sent.copy {q' : Fsrq} {k : ℕ} {len : ℕ} {fl : Bool} (h : Sent c rs k q) (huni : Uniform rs)
    (hin : ∀ r ∈ rs, Inside c.dio lim r) (hk : rs[k]? = some r) (hlim : lim ≤ fsz)
    (hfsz : fsz < 0x10000000000000000) (herr : q.err = 0) (hrw : q.rw = .read)
    (hcopy : mslBiorqCompleteFsrq q k r fsz (biorqPages c r) [] = some (q', len, fl)) :
    Sent c rs (k + 1) (q'.addLen len) ∧ q' = { q with iovs := q'.iovs, copied := q'.copied } := by
  have hmem : r ∈ rs := mem_of_getElem? hk
  have htake : rs.take (k + 1) = rs.take k ++ [r] := by rw [take_add_one, hk]; rfl
  simp only [mslBiorqCompleteFsrq, herr, ne_eq, not_true_eq_false, if_false, hrw] at hcopy
  rcases huni with huni | huni
  · -- a cached biorq: its iovs come after those of the earlier ones
    rw [huni r hmem] at hcopy
    obtain ⟨vs, hvs, hq⟩ := map_eq_some_iff.mp hcopy
    cases hq
    obtain ⟨hbytes, hsum⟩ := copyout_fileBytes (hin r hmem) (huni r hmem) hlim hfsz hvs
    have hne : vs ≠ [] := by
      rintro rfl
      have := (hin r hmem).pos
      simp only [map_nil, sum_nil] at hsum
      omega
    have hpage : ((rs.map (biorqPages c))[k]?).getD [] = biorqPages c r := by simp [hk]
    simp only [Fsrq.addIovs, hne, if_false]
    refine ⟨⟨?_, fun _ => ⟨fun _ => ?_, ?_⟩, fun hall => ?_⟩, trivial⟩
    · simp [Fsrq.addLen, herr, h.len, htake, hsum]
    · simp [Fsrq.addLen, herr]
    · simp only [Fsrq.addLen, herr, if_true, getD_some, flatMap_append, (h.cached huni).2, htake,
        flatMap_cons, flatMap_nil, append_nil, append_cancel_left_eq, flatMap_map, vecBytes, hpage]
      exact hbytes
    · exact absurd (hall r hmem) (by simp [huni r hmem])
  · -- direct I/O: the data stay in the buffer
    rw [huni r hmem] at hcopy
    cases hcopy
    refine ⟨⟨?_, fun hall => ?_, fun _ => ?_⟩, rfl⟩
    · simp [Fsrq.addLen, herr, h.len, htake]
    · exact absurd (hall r hmem) (by simp [huni r hmem])
    · simpa [Fsrq.addLen, herr] using h.direct huni

theorem Sent.answer (h : Sent c rs rs.length q) (huni : Uniform rs)
    (hin : ∀ r ∈ rs, Inside c.dio lim r) (hne : rs ≠ []) (htwo : rs.length ≤ maxBmapsReq)
    (herr : q.err = 0) (hrw : q.rw = .read) (hbiorq : q.biorq = rs) : ∃ iov, q.answer = .read iov 0 ∧
      iov.flatMap (vecBytes (rs.map (biorqPages c)) (rs.map (directBuf c))) = rs.flatMap (fileBytes c) := by
  have hlen : q.len ≠ 0 := by
    obtain ⟨r, rs', rfl⟩ := exists_cons_of_ne_nil hne
    have hr := (hin r mem_cons_self).pos
    rw [h.len, take_length, map_cons, sum_cons]
    omega
  simp only [Fsrq.answer, hrw, herr, hlen, ne_eq, not_true_eq_false, if_false]
  rcases huni with huni | huni
  · obtain ⟨hsome, hbytes⟩ := h.cached huni
    obtain ⟨vs, hvs⟩ := ne_none_iff_exists'.mp (hsome (by simpa using hne))
    rw [hvs, take_length] at hbytes
    rw [hvs]
    exact ⟨vs, rfl, hbytes⟩
  rw [h.direct huni, hbiorq]
  refine ⟨_, rfl, ?_⟩
  have hbuf : ∀ i r, rs[i]? = some r →
      vecBytes (rs.map (biorqPages c)) (rs.map (directBuf c)) (.buf i r.rq.len) = fileBytes c r := by
    intro i r hi
    have hmem := mem_of_getElem? hi
    exact buf_fileBytes (hin r hmem) (huni r hmem) hi
  rw [bufs, take_of_length_le htwo, flatMap_def]
  congr 1
  refine ext_getElem? fun i => ?_
  rw [getElem?_map, getElem?_mapIdx, getElem?_map]
  cases hi : rs[i]? with
  | none => rfl
  | some r => exact congrArg some (hbuf i r hi)

end Parts

/-- `k` biorqs have ended, and there is no reply yet. -/
structure Pending (c : Contents) (rs : List Ioreq) (k : ℕ) (s : State) : Prop where
  lt : k < rs.length
  biorq : s.q.biorq = rs
  rw : s.q.rw = .read
  ref : s.q.ref = rs.length - k
  replied : s.q.replied = false
  reply : s.reply = none
  reqs : s.slots.map Slot.req = rs
  pages : s.slots.map Slot.pages = rs.map (biorqPages c)
  bufs : s.slots.map Slot.buf = rs.map (directBuf c)
  live : ∀ i sl, s.slots[i]? = some sl → (sl.stage = .live ↔ k ≤ i)
  sent : s.q.err = 0 → Sent c rs k s.q

structure Done (c : Contents) (rs : List Ioreq) (s : State) : Prop where
  replied : s.q.replied
  ended : ∀ sl ∈ s.slots, sl.stage ≠ .live
  reply : ∃ rc bytes, s.reply = some (rc, bytes) ∧ (rc = 0 ↔ s.q.err = 0) ∧
    (rc = 0 → bytes = rs.flatMap (fileBytes c))

def Inv (rs : List Ioreq) (s : State) : Prop := (∃ k, Pending c rs k s) ∨ Done c rs s

section Steps

variable {c s} {rs : List Ioreq} {lim : ℕ} {t : State} {i k : ℕ} {sl : Slot}

theorem Pending.setSlot (h : Pending c rs k s) (hi : s.slots[i]? = some sl) {x : Slot} (hreq : x.req = sl.req)
    (hpages : x.pages = sl.pages) (hbuf : x.buf = sl.buf) (hstage : x.stage = .live ↔ sl.stage = .live) :
    Pending c rs k (s.setSlot i x) :=
  { h with
    reqs := (map_set_of_eq Slot.req hi hreq).trans h.reqs
    pages := (map_set_of_eq Slot.pages hi hpages).trans h.pages
    bufs := (map_set_of_eq Slot.buf hi hbuf).trans h.bufs
    live := fun j sl' hj => by
      rcases getElem?_set_cases hj with ⟨rfl, rfl⟩ | ⟨-, hj⟩
      · rw [hstage]
        exact h.live j sl hi
      · exact h.live j sl' hj }

theorem Done.setSlot (h : Done c rs s) {x : Slot} (hx : x.stage ≠ .live) : Done c rs (s.setSlot i x) :=
  { h with
    ended := Lib.forall_mem_set h.ended hx }

theorem Pending.slot (h : Pending c rs k s) (hi : s.slots[i]? = some sl) :
    rs[i]? = some sl.req ∧ sl.pages = biorqPages c sl.req ∧ sl.buf = directBuf c sl.req := by
  have hreq : rs[i]? = some sl.req := by
    rw [← h.reqs, getElem?_map, hi]
    rfl
  have hpages := congrArg (fun l => l[i]?) h.pages
  have hbufs := congrArg (fun l => l[i]?) h.bufs
  simp only [getElem?_map, hi, hreq, map_some, some.injEq] at hpages hbufs
  exact ⟨hreq, hpages, hbufs⟩

theorem seterr_inv {rc : ℤ} (h : Inv c rs s) (hst : step s (.seterr rc) = some t) : Inv c rs t := by
  simp only [step] at hst
  split_ifs at hst with hrep
  cases hst
  rcases h with ⟨k, h⟩ | h
  · refine .inl ⟨k, ?_⟩
    by_cases herr : s.q.err = 0
    · simp only [mfsrqSeterr, if_pos herr]
      have hs := h.sent herr
      exact { h with sent := fun _ => ⟨hs.len, hs.cached, hs.direct⟩ }
    · simp only [mfsrqSeterr, if_neg herr]
      exact h
  · exact absurd h.replied hrep

theorem destroy_inv (h : Inv c rs s) (hok : Orderly lim s (.destroy i)) (hst : step s (.destroy i) = some t) :
    Inv c rs t := by
  obtain ⟨sl, hi, hst⟩ := bind_eq_some_iff.mp hst
  simp only [destroy] at hst
  split_ifs at hst with hstage
  cases hst
  rcases h with ⟨k, h⟩ | h
  · have hdio : sl.req.dio = false := by
      rcases hok with hrep | hdio
      · rw [h.replied] at hrep
        cases hrep
      · exact hdio sl hi
    have hbuf : (none : Option (ℕ → Byte)) = sl.buf := by
      rw [(h.slot hi).2.2, directBuf, hdio, if_neg Bool.false_ne_true]
    exact .inl ⟨k, h.setSlot hi rfl rfl hbuf (by simp [hstage])⟩
  · exact .inr (h.setSlot (by simp))

theorem recycle_inv {j : ℕ} {base : ℕ → Byte} (h : Inv c rs s) (hok : Orderly lim s (.recycle i j base))
    (hst : step s (.recycle i j base) = some t) : Inv c rs t := by
  obtain ⟨sl, hi, hst⟩ := bind_eq_some_iff.mp hst
  simp only [recycle] at hst
  split_ifs at hst with hstage
  cases hst
  rcases h with ⟨k, h⟩ | h
  · rw [Orderly, h.replied] at hok
    cases hok
  · exact .inr (h.setSlot (by simp [hstage]))

theorem Pending.turn (h : Pending c rs k s) (hi : s.slots[i]? = some sl) (hlive : sl.stage = .live)
    (hbefore : ∀ sl ∈ s.slots.take i, sl.stage ≠ .live) : i = k := by
  have hki : k ≤ i := (h.live i sl hi).mp hlive
  by_contra hne
  have hlen : s.slots.length = rs.length := by rw [← h.reqs, length_map]
  have hk : k < s.slots.length := hlen ▸ h.lt
  have hmem : s.slots[k] ∈ s.slots.take i := by
    rw [mem_take_iff_getElem]
    exact ⟨k, by omega, rfl⟩
  exact hbefore _ hmem ((h.live k _ (getElem?_eq_getElem hk)).mpr le_rfl)

theorem answer_bytes (huni : Uniform rs) (hin : ∀ r ∈ rs, Inside c.dio lim r) (hne : rs ≠ [])
    (htwo : rs.length ≤ maxBmapsReq) (hrw : q.rw = .read) (hbiorq : q.biorq = rs)
    (hsent : q.err = 0 → Sent c rs rs.length q) {slots : List Slot}
    (hpages : slots.map Slot.pages = rs.map (biorqPages c)) (hbufs : slots.map Slot.buf = rs.map (directBuf c)) :
    ∃ rc bytes, replyBytes slots q.answer = (rc, bytes) ∧ (rc = 0 ↔ q.err = 0) ∧
      (rc = 0 → bytes = rs.flatMap (fileBytes c)) := by
  by_cases herr : q.err = 0
  · obtain ⟨iov, hans, hbytes⟩ := (hsent herr).answer huni hin hne htwo herr hrw hbiorq
    refine ⟨0, _, by rw [hans, replyBytes], by simp [herr], fun _ => ?_⟩
    rw [hpages, hbufs, hbytes]
  refine ⟨|q.err|, [], ?_, by simp, fun h0 => absurd (abs_eq_zero.mp h0) herr⟩
  simp only [Fsrq.answer, hrw, ne_eq, herr, not_false_eq_true, if_true, replyBytes]
  rfl

theorem Pending.finish (h : Pending c rs k s) (huni : Uniform rs)
    (hin : ∀ r ∈ rs, Inside c.dio lim r) (htwo : rs.length ≤ maxBmapsReq) (hi : s.slots[k]? = some sl) {len : ℕ}
    (hq : q = { s.q with iovs := q.iovs, copied := q.copied })
    (hsent : s.q.err = 0 → Sent c rs (k + 1) (q.addLen len)) :
    Inv c rs ((s.setSlot k { sl with stage := .completed }).finish q len) := by
  have hlt := h.lt
  have hqref : q.ref = rs.length - k := by rw [hq, ← h.ref]
  have hqerr : q.err = s.q.err := by rw [hq]
  have hqrw : q.rw = .read := by rw [hq, ← h.rw]
  have hqbiorq : q.biorq = rs := by rw [hq, ← h.biorq]
  have hqrep : q.replied = false := by rw [hq, ← h.replied]
  set sl' : Slot := { sl with stage := .completed } with hsl'
  have hreqs := (map_set_of_eq (x := sl') Slot.req hi rfl).trans h.reqs
  have hpages := (map_set_of_eq (x := sl') Slot.pages hi rfl).trans h.pages
  have hbufs := (map_set_of_eq (x := sl') Slot.buf hi rfl).trans h.bufs
  have hlive : ∀ j x, (s.slots.set k sl')[j]? = some x → (x.stage = .live ↔ k + 1 ≤ j) := by
    intro j x hj
    rcases getElem?_set_cases hj with ⟨rfl, rfl⟩ | ⟨hne, hj⟩
    · simp [hsl']
    · rw [h.live j x hj]
      omega
  by_cases hlast : k + 1 = rs.length
  · -- the last biorq
    refine .inr ?_
    have hone : q.ref = 1 := by omega
    obtain ⟨rc, bytes, hrep, hrc, hbytes⟩ := answer_bytes huni hin
      (ne_nil_of_length_pos (by omega)) htwo ((addLen_rw q len).trans hqrw) ((addLen_biorq q len).trans hqbiorq)
      (fun herr => by
        have hs := hsent (by rwa [← hqerr, ← addLen_err q len])
        rw [hlast] at hs
        exact ⟨hs.len, hs.cached, hs.direct⟩)
      hpages hbufs
    refine ⟨?_, ?_, rc, bytes, ?_, ?_, hbytes⟩
    · simp only [State.finish, mslCompleteFsrq_last hone]
      rfl
    · intro x hx
      obtain ⟨j, hj⟩ := mem_iff_getElem?.mp hx
      have hjlt : j < rs.length := by
        rw [← hreqs, length_map]
        exact (List.getElem?_eq_some_iff.mp hj).1
      rw [ne_eq, hlive j x hj]
      omega
    · simp only [State.finish, mslCompleteFsrq_last hone]
      exact congrArg some hrep
    · rw [hrc]
      simp only [State.finish, mslCompleteFsrq_last hone]
      rfl
  · refine .inl ⟨k + 1, ?_⟩
    have hmore : q.ref ≠ 1 := by omega
    have hfin : (s.setSlot k sl').finish q len = { s.setSlot k sl' with q := (q.addLen len).decref } := by
      simp only [State.finish, mslCompleteFsrq_more hmore, map_none, none_or]
    rw [hfin]
    refine ⟨by omega, (addLen_biorq q len).trans hqbiorq, (addLen_rw q len).trans hqrw, ?_,
      (addLen_replied q len).trans hqrep, h.reply, hreqs, hpages, hbufs, hlive, fun herr => ?_⟩
    · change (q.addLen len).ref - 1 = _
      rw [addLen_ref, hqref]
      push_cast
      ring
    · have hs := hsent (by rwa [← hqerr, ← addLen_err q len])
      exact ⟨hs.len, hs.cached, hs.direct⟩

theorem complete_inv (h : Inv c rs s) (huni : Uniform rs) (hin : ∀ r ∈ rs, Inside c.dio lim r)
    (htwo : rs.length ≤ maxBmapsReq) (hok : Orderly lim s (.complete i fsz))
    (hst : step s (.complete i fsz) = some t) : Inv c rs t := by
  obtain ⟨sl, hi, hst⟩ := bind_eq_some_iff.mp hst
  simp only [complete] at hst
  split_ifs at hst with hlive
  obtain ⟨⟨q, len, fl⟩, hcopy, rfl⟩ := map_eq_some_iff.mp hst
  rcases h with ⟨k, h⟩ | h
  · obtain rfl : i = k := h.turn hi hlive.1 hok.2
    obtain ⟨hreq, hpages, -⟩ := h.slot hi
    refine h.finish huni hin htwo hi ?_ fun herr => ?_
    · by_cases herr : s.q.err = 0
      · rw [hpages] at hcopy
        exact ((h.sent herr).copy huni hin hreq hok.1 hlive.2 herr h.rw hcopy).2
      · simp only [mslBiorqCompleteFsrq, ne_eq, herr, not_false_eq_true, if_true, some.injEq] at hcopy
        cases hcopy
        rfl
    · rw [hpages] at hcopy
      exact ((h.sent herr).copy huni hin hreq hok.1 hlive.2 herr h.rw hcopy).1
  · exact absurd hlive.1 (h.ended sl (mem_of_getElem? hi))

theorem step_inv {ev : Event} (huni : Uniform rs) (hin : ∀ r ∈ rs, Inside c.dio lim r)
    (htwo : rs.length ≤ maxBmapsReq) (h : Inv c rs s) (hok : Orderly lim s ev) (hst : step s ev = some t) :
    Inv c rs t := by
  cases ev with
  | seterr => exact seterr_inv h hst
  | complete => exact complete_inv h huni hin htwo hok hst
  | destroy => exact destroy_inv h hok hst
  | recycle => exact recycle_inv h hok hst

end Steps

/-! ### The theorem -/

theorem start_inv {c : Contents} {p : Request} (hrw : p.rw = .read)
    (hne : mslIoBiorqs c.dio p fsz ≠ []) : Inv c (mslIoBiorqs c.dio p fsz) (start c p fsz) := by
  have hpos := length_pos_iff.mpr hne
  refine .inl ⟨0, ?_⟩
  unfold start
  simp only [foldl_addBiorq]
  set rs := mslIoBiorqs c.dio p fsz
  have hmore : ({ mslFsrqinfoInit p fsz with
      biorq := (mslFsrqinfoInit p fsz).biorq ++ rs, ref := (mslFsrqinfoInit p fsz).ref + rs.length } : Fsrq).ref ≠ 1 := by
    change (1 : ℤ) + rs.length ≠ 1
    omega
  simp only [State.finish, mslCompleteFsrq_more hmore, map_none, none_or]
  refine ⟨hpos, by simp [Fsrq.decref, mslFsrqinfoInit], by simp [Fsrq.decref, mslFsrqinfoInit, hrw],
    by simp [Fsrq.decref, mslFsrqinfoInit], by simp [Fsrq.decref, mslFsrqinfoInit], rfl,
    by simp [Slot.filled, comp_def], by simp [Slot.filled, comp_def],
    by simp [Slot.filled, comp_def], fun i sl hi => ?_, fun _ => ?_⟩
  · rw [getElem?_map] at hi
    obtain ⟨r, -, rfl⟩ := map_eq_some_iff.mp hi
    simp [Slot.filled]
  · exact ⟨by simp [Fsrq.decref, Fsrq.addLen, mslFsrqinfoInit],
      fun _ => ⟨fun h0 => absurd rfl h0, by simp [Fsrq.decref, Fsrq.addLen, mslFsrqinfoInit]⟩,
      fun _ => by simp [Fsrq.decref, Fsrq.addLen, mslFsrqinfoInit]⟩

/-- Bytes 1 in bmap 0, and 2 in the next. -/
def twoBmaps (dio : ℕ → Bool) : Contents where
  dio := dio
  page := fun bno o => { Page.fresh o fun _ => if bno = 0 then 1 else 2 with datardy := true }
  direct := fun bno _ => if bno = 0 then 1 else 2
  page_off := fun _ _ => rfl

def across : Request := ⟨.read, slashBmapSize - 2, 4, by decide⟩

def threeHalves : ℕ := slashBmapSize + slashBmapSize / 2

end Slash2.Client.Io.ReadReply
