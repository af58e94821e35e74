/-
# The client's switch to direct I/O

When a second client wants a bmap, the metadata server asks the first one to stop
caching it: `msrcm_handle_bmapdio` sets `BMAPF_DIO`, marks the cached pages for
discarding (`msl_bmap_cache_rls`) and replies. From the reply on the server lets the
other client in.

Key theorems: `act_effect`, `dio_clean_iff`.
-/
import Slash2.Lib.Run

namespace Slash2.Client.Dio

open Lib List Option

/-- A page of the bmap's tree (`struct bmap_pagecache_entry`). -/
structure Pg where
  off : ℕ
  ref : ℕ
  /-- when it got its data (`BMPCEF_DATARDY`) -/
  since : Option ℕ
  discard : Bool
  /-- `BMPCEF_EIO` -/
  eio : Bool
  /-- on a list of unused pages, which holds the reference -/
  idle : Bool

/-- `bmpce_lookup`; it waits while the page it finds has failed. -/
def bmpceLookup : List Pg → ℕ → Option (List Pg)
  | [], off => some [⟨off, 1, none, false, false, false⟩]
  | e :: es, off =>
    if e.off ≠ off then (bmpceLookup es off).map (e :: ·)
    else if e.eio then none
    else if e.ref = 1 ∧ e.idle then some ({ e with idle := false } :: es)
    else some ({ e with ref := e.ref + 1 } :: es)

/-- The loop of `msl_biorq_build` over the pages of a request. -/
def bmpceLookups : List Pg → List ℕ → Option (List Pg)
  | es, [] => some es
  | es, off :: offs => (bmpceLookup es off).bind fun es => bmpceLookups es offs

def bmpceRelease : List Pg → ℕ → List Pg
  | [], _ => []
  | e :: es, off =>
    if e.off ≠ off then e :: bmpceRelease es off
    else if e.ref = 1 ∧ e.since.isSome ∧ ¬ e.eio ∧ ¬ e.discard then { e with idle := true } :: es
    else if e.ref ≤ 1 then es
    else { e with ref := e.ref - 1 } :: es

variable (es : List Pg)

def mslBmapCacheRls : List Pg := es.map fun e => { e with discard := true }

def mslBmpcesFail (offs : List ℕ) : List Pg :=
  es.map fun e => if e.off ∈ offs then { e with eio := true } else e

def fill (now : ℕ) (offs : List ℕ) (es : List Pg) : List Pg :=
  es.map fun e => if e.off ∈ offs then { e with since := e.since.or (some now) } else e

inductive Kind where
  | read
  | write
  | readahead
  deriving DecidableEq

inductive Phase where
  /-- made by `bmpc_biorq_new` -/
  | issued
  /-- `msl_pages_copyin` done -/
  | copied (c : ℕ)
  /-- `msl_pages_schedflush` done -/
  | sched (c : ℕ)
  /-- taken by `bmap_flush` -/
  | picked (c : ℕ)
  | sending (c : ℕ)
  deriving DecidableEq

def Phase.cached : Phase → Option ℕ
  | .issued => none
  | .copied c | .sched c | .picked c | .sending c => some c

def Phase.isPicked : Phase → Bool
  | .picked _ => true
  | _ => false

/-- `struct bmpc_ioreq` -/
structure Rq where
  kind : Kind
  /-- `BIORQ_DIO` -/
  dio : Bool
  issued : ℕ
  pages : List ℕ
  phase : Phase

inductive DioRc where
  | ok
  | stale
  deriving DecidableEq

inductive Handler where
  | rls
  | reply (rc : DioRc)
  deriving DecidableEq

structure WriteRpc where
  sent : ℕ
  cached : Option ℕ

structure Answer where
  issued : ℕ
  cached : List ℕ

structure BmapState where
  now : ℕ
  /-- `BMAPF_DIO` -/
  dio : Bool
  leaseFailed : Bool
  /-- `sbd_seq` of the lease -/
  seq : ℕ
  pages : List Pg
  reqs : List Rq
  handlers : List Handler
  writeRpcs : List WriteRpc
  answers : List Answer

inductive Event where
  /-- `msl_bmap_modeset` gets a write lease -/
  | modeset (seq : ℕ) (archival : Bool)
  /-- `bmpc_biorq_new` and the look-up of the pages -/
  | issue (kind : Kind) (offs : List ℕ)
  | fetched (off : ℕ)
  /-- the `k`-th request ends without having been carried out -/
  | abort (k : ℕ)
  /-- `msl_biorq_complete_fsrq` of the `k`-th request -/
  | complete (k : ℕ)
  /-- `msl_pages_dio_getput` of the `k`-th request -/
  | dioGetput (k : ℕ)
  | schedflush (k : ℕ)
  /-- `bmap_flush` finds the lease good and takes the request -/
  | pick (k : ℕ)
  | send (k : ℕ)
  | sentOk (k : ℕ)
  /-- `bmap_flush_resched`: back on the tree, or given up -/
  | resched (k : ℕ) (giveUp : Bool)
  | leaseFail
  /-- `bmpc_biorqs_destroy_locked`, for the `k`-th request -/
  | destroy (k : ℕ)
  | reap (off : ℕ)
  /-- `msrcm_handle_bmapdio`, up to the flags -/
  | dioSet (seq : ℕ)
  /-- `msl_bmap_cache_rls` in the `k`-th handler -/
  | dioRls (k : ℕ)
  | dioReply (k : ℕ)

variable (s : BmapState)

def BmapState.release (k : ℕ) (q : Rq) : BmapState :=
  { s with reqs := s.reqs.eraseIdx k, pages := q.pages.foldl bmpceRelease s.pages }

def BmapState.setPhase (k : ℕ) (q : Rq) (p : Phase) : BmapState :=
  { s with reqs := s.reqs.set k { q with phase := p } }

def ready (offs : List ℕ) : Bool :=
  offs.all fun off => es.any fun e => e.off = off ∧ e.since.isSome

def sinceOf (offs : List ℕ) : List ℕ :=
  (es.filter (·.off ∈ offs)).filterMap Pg.since

/-- One event, at the time `s.now`. -/
def act : Event → Option BmapState
  | .modeset seq archival =>
    if archival then some { s with seq := seq, dio := true, pages := mslBmapCacheRls s.pages }
    else some { s with seq := seq }
  | .issue kind offs =>
    if s.dio then
      -- the readahead thread gives up, the others make a request without pages
      if kind = .readahead then none
      else some { s with reqs := s.reqs ++ [⟨kind, true, s.now, [], .issued⟩] }
    else (bmpceLookups s.pages offs).map fun es =>
      { s with pages := es, reqs := s.reqs ++ [⟨kind, false, s.now, offs, .issued⟩] }
  | .fetched off => some { s with pages := fill s.now [off] s.pages }
  | .abort k => s.reqs[k]?.bind fun q =>
      if q.phase = .issued then some (s.release k q) else none
  | .complete k => s.reqs[k]?.bind fun q =>
      if q.dio ∨ q.phase ≠ .issued then none
      else match q.kind with
        | .read =>
          if ready s.pages q.pages then
            some { s.release k q with answers := ⟨q.issued, sinceOf s.pages q.pages⟩ :: s.answers }
          else none
        | .readahead => some (s.release k q)
        | .write => some { s.setPhase k q (.copied s.now) with pages := fill s.now q.pages s.pages }
  | .dioGetput k => s.reqs[k]?.bind fun q =>
      if ¬ q.dio ∨ q.phase ≠ .issued then none
      else match q.kind with
        | .write => some { s.release k q with writeRpcs := ⟨s.now, none⟩ :: s.writeRpcs }
        | _ => some { s.release k q with answers := ⟨q.issued, []⟩ :: s.answers }
  | .schedflush k => s.reqs[k]?.bind fun q =>
      match q.phase with
      | .copied c => some (s.setPhase k q (.sched c))
      | _ => none
  | .pick k => s.reqs[k]?.bind fun q =>
      match q.phase with
      | .sched c => if s.leaseFailed then none else some (s.setPhase k q (.picked c))
      | _ => none
  | .send k => s.reqs[k]?.bind fun q =>
      match q.phase with
      | .picked c =>
        some { s.setPhase k q (.sending c) with writeRpcs := ⟨s.now, some c⟩ :: s.writeRpcs }
      | _ => none
  | .sentOk k => s.reqs[k]?.bind fun q =>
      match q.phase with
      | .sending _ => some (s.release k q)
      | _ => none
  | .resched k giveUp => s.reqs[k]?.bind fun q =>
      match q.phase with
      | .picked c | .sending c =>
        if giveUp then some ({ s with pages := mslBmpcesFail s.pages q.pages }.release k q)
        else some (s.setPhase k q (.sched c))
      | _ => none
  | .leaseFail => some { s with leaseFailed := true }
  | .destroy k => s.reqs[k]?.bind fun q =>
      match q.phase with
      | .sched _ =>
        if s.leaseFailed then some ({ s with pages := mslBmpcesFail s.pages q.pages }.release k q)
        else none
      | _ => none
  | .reap off => some { s with pages := s.pages.filter fun e => ¬ (e.off = off ∧ e.idle) }
  | .dioSet seq =>
    if s.dio then some { s with handlers := s.handlers ++ [.reply .ok] }
    else if s.seq ≠ seq then some { s with handlers := s.handlers ++ [.reply .stale] }
    else some { s with dio := true, handlers := s.handlers ++ [.rls] }
  | .dioRls k => s.handlers[k]?.bind fun
      | .rls => some { s with pages := mslBmapCacheRls s.pages,
                              handlers := s.handlers.set k (.reply .ok) }
      | .reply _ => none
  | .dioReply k => s.handlers[k]?.bind fun
      | .rls => none
      | .reply _ => some { s with handlers := s.handlers.eraseIdx k }

def step (e : Event) : Option BmapState :=
  (act s e).map fun t => { t with now := s.now + 1 }

def initial (dio : Bool) (seq : ℕ) : BmapState := ⟨0, dio, false, seq, [], [], [], [], []⟩

/-- Nothing cached before time `r` is sent or read after it. -/
def CleanAfter (r : ℕ) (s : BmapState) : Prop :=
  (∀ x ∈ s.writeRpcs, r < x.sent → ∀ c ∈ x.cached, r < c) ∧
    ∀ a ∈ s.answers, r < a.issued → ∀ c ∈ a.cached, r < c

/-- No write is on its way to an RPC, and none is cached unless the lease has failed. -/
def Drained : Prop :=
  ∀ q ∈ s.reqs, q.phase.isPicked = false ∧ (q.phase.cached.isSome → s.leaseFailed)
  deriving Decidable

/-! ### What an event can do -/

inductive Phase.Next (s : BmapState) : Phase → Phase → Prop
  | copyin : Next s .issued (.copied s.now)
  | schedflush (c : ℕ) : Next s (.copied c) (.sched c)
  | pick (c : ℕ) : s.leaseFailed = false → Next s (.sched c) (.picked c)
  | send (c : ℕ) : Next s (.picked c) (.sending c)
  | unpick (c : ℕ) : Next s (.picked c) (.sched c)
  | resched (c : ℕ) : Next s (.sending c) (.sched c)

def FromReq (q : Rq) : Prop :=
  q ∈ s.reqs ∨ (q.issued = s.now ∧ q.phase = .issued ∧ (s.dio → q.dio)) ∨
    ∃ p ∈ s.reqs, q.issued = p.issued ∧ q.dio = p.dio ∧ p.phase.Next s q.phase

structure Effect (s t : BmapState) : Prop where
  dio : s.dio → t.dio
  leaseFailed : s.leaseFailed → t.leaseFailed
  reqs : ∀ q ∈ t.reqs, FromReq s q
  writeRpcs : ∀ x ∈ t.writeRpcs, x ∈ s.writeRpcs ∨ (x.sent = s.now ∧
    (x.cached = none ∨ ∃ q ∈ s.reqs, ∃ c, q.phase = .picked c ∧ x.cached = some c))
  answers : ∀ a ∈ t.answers, a ∈ s.answers ∨
    ∃ q ∈ s.reqs, a.issued = q.issued ∧ (a.cached = [] ∨ q.dio = false)
  handlers : ∀ h ∈ t.handlers, h ∈ s.handlers ∨ h = .reply .stale ∨ t.dio ∨ .rls ∈ s.handlers

section Effect

variable {s} {t : BmapState} {k : ℕ} {q : Rq}

theorem Effect.quiet (hdio : s.dio → t.dio) (hlf : s.leaseFailed → t.leaseFailed)
    (hr : ∀ q ∈ t.reqs, FromReq s q) (hw : t.writeRpcs = s.writeRpcs)
    (ha : t.answers = s.answers) (hh : t.handlers = s.handlers) : Effect s t where
  dio := hdio
  leaseFailed := hlf
  reqs := hr
  writeRpcs _ hx := .inl (hw ▸ hx)
  answers _ ha' := .inl (ha ▸ ha')
  handlers _ hh' := .inl (hh ▸ hh')

theorem Effect.record_write (h : Effect s t) {x : WriteRpc} (hsent : x.sent = s.now)
    (hx : x.cached = none ∨ ∃ q ∈ s.reqs, ∃ c, q.phase = .picked c ∧ x.cached = some c) :
    Effect s { t with writeRpcs := x :: t.writeRpcs } :=
  { h with writeRpcs := forall_mem_cons.mpr ⟨.inr ⟨hsent, hx⟩, h.writeRpcs⟩ }

theorem Effect.record_answer (h : Effect s t) {a : Answer}
    (ha : ∃ q ∈ s.reqs, a.issued = q.issued ∧ (a.cached = [] ∨ q.dio = false)) :
    Effect s { t with answers := a :: t.answers } :=
  { h with answers := forall_mem_cons.mpr ⟨.inr ha, h.answers⟩ }

theorem effect_same (hdio : s.dio → t.dio) (hlf : s.leaseFailed → t.leaseFailed)
    (hr : t.reqs = s.reqs) (hw : t.writeRpcs = s.writeRpcs) (ha : t.answers = s.answers)
    (hh : t.handlers = s.handlers) : Effect s t :=
  Effect.quiet hdio hlf (fun _ hq => .inl (hr ▸ hq)) hw ha hh

theorem effect_release (k : ℕ) (q : Rq) : Effect s ({ s with pages := es }.release k q) :=
  Effect.quiet id id (fun _ hq => .inl (mem_of_mem_eraseIdx hq)) rfl rfl rfl

theorem effect_setPhase {p : Phase} (hk : s.reqs[k]? = some q) (hp : q.phase.Next s p)
    (es : List Pg) : Effect s { s.setPhase k q p with pages := es } := by
  refine Effect.quiet id id (fun r hr => ?_) rfl rfl rfl
  rcases mem_or_eq_of_mem_set hr with hr | rfl
  · exact .inl hr
  · exact .inr (.inr ⟨q, mem_of_getElem? hk, rfl, rfl, hp⟩)

theorem effect_issue {q : Rq} (hi : q.issued = s.now) (hp : q.phase = .issued)
    (hd : s.dio → q.dio) : Effect s { s with pages := es, reqs := s.reqs ++ [q] } := by
  refine Effect.quiet id id (fun r hr => ?_) rfl rfl rfl
  rcases mem_append.mp hr with hr | hr
  · exact .inl hr
  · obtain rfl := mem_singleton.mp hr
    exact .inr (.inl ⟨hi, hp, hd⟩)

theorem effect_handler {h : Handler} (hdio : s.dio → t.dio)
    (hlf : s.leaseFailed → t.leaseFailed) (hr : t.reqs = s.reqs) (hw : t.writeRpcs = s.writeRpcs)
    (ha : t.answers = s.answers) (hh : ∀ x ∈ t.handlers, x ∈ s.handlers ∨ x = h)
    (hnew : h = .reply .stale ∨ t.dio ∨ .rls ∈ s.handlers) : Effect s t where
  dio := hdio
  leaseFailed := hlf
  reqs _ hq := .inl (hr ▸ hq)
  writeRpcs _ hx := .inl (hw ▸ hx)
  answers _ ha' := .inl (ha ▸ ha')
  handlers x hx := by
    rcases hh x hx with hold | rfl
    · exact .inl hold
    · exact .inr hnew

end Effect

variable {s} {t : BmapState} {e : Event}

theorem act_effect (h : act s e = some t) : Effect s t := by
  cases e with
  | modeset seq archival =>
    cases archival <;> cases h
    · exact effect_same id id rfl rfl rfl rfl
    · exact effect_same (fun _ => rfl) id rfl rfl rfl rfl
  | issue =>
    by_cases hdio : s.dio
    · simp only [act, if_pos hdio, ite_none_left_eq_some] at h
      obtain ⟨-, ⟨⟩⟩ := h
      exact effect_issue s.pages rfl rfl fun _ => rfl
    simp only [act, if_neg hdio] at h
    obtain ⟨es, -, ⟨⟩⟩ := map_eq_some_iff.mp h
    exact effect_issue es rfl rfl fun hd => absurd hd hdio
  | fetched =>
    cases h
    exact effect_same id id rfl rfl rfl rfl
  | abort k =>
    obtain ⟨q, -, -, rfl⟩ := bind_guard h
    exact effect_release s.pages k q
  | complete k =>
    obtain ⟨q, hk, h⟩ := bind_eq_some_iff.mp h
    obtain ⟨hq, h⟩ := ite_none_left_eq_some.mp h
    obtain ⟨hd, hp⟩ := not_or.mp hq
    cases hkind : q.kind <;> simp only [hkind] at h
    · obtain ⟨-, ⟨⟩⟩ := ite_none_right_eq_some.mp h
      exact (effect_release s.pages k q).record_answer ⟨q, mem_of_getElem? hk, rfl, .inr (by simpa using hd)⟩
    · cases h
      have hnext : q.phase.Next s (.copied s.now) := by
        rw [not_not.mp hp]
        exact .copyin
      exact effect_setPhase hk hnext _
    · cases h
      exact effect_release s.pages k q
  | dioGetput k =>
    obtain ⟨q, hk, h⟩ := bind_eq_some_iff.mp h
    obtain ⟨-, h⟩ := ite_none_left_eq_some.mp h
    have hmem : q ∈ s.reqs := mem_of_getElem? hk
    cases hkind : q.kind <;> simp only [hkind] at h <;> cases h
    · exact (effect_release s.pages k q).record_answer ⟨q, hmem, rfl, .inl rfl⟩
    · exact (effect_release s.pages k q).record_write rfl (.inl rfl)
    · exact (effect_release s.pages k q).record_answer ⟨q, hmem, rfl, .inl rfl⟩
  | schedflush =>
    obtain ⟨q, hk, h⟩ := bind_eq_some_iff.mp h
    cases hp : q.phase <;> simp only [hp] at h <;> cases h
    exact effect_setPhase hk (hp ▸ .schedflush _) s.pages
  | pick =>
    obtain ⟨q, hk, h⟩ := bind_eq_some_iff.mp h
    cases hp : q.phase <;> simp only [hp] at h <;> try cases h
    obtain ⟨hlf, ⟨⟩⟩ := ite_none_left_eq_some.mp h
    exact effect_setPhase hk (hp ▸ .pick _ (by simpa using hlf)) s.pages
  | send =>
    obtain ⟨q, hk, h⟩ := bind_eq_some_iff.mp h
    cases hp : q.phase <;> simp only [hp] at h <;> cases h
    exact (effect_setPhase hk (hp ▸ .send _) s.pages).record_write rfl (.inr ⟨q, mem_of_getElem? hk, _, hp, rfl⟩)
  | sentOk k =>
    obtain ⟨q, -, h⟩ := bind_eq_some_iff.mp h
    cases hp : q.phase <;> simp only [hp] at h <;> cases h
    exact effect_release s.pages k q
  | resched k giveUp =>
    obtain ⟨q, hk, h⟩ := bind_eq_some_iff.mp h
    cases hp : q.phase <;> simp only [hp] at h <;> try cases h
    all_goals cases giveUp <;> cases h
    · exact effect_setPhase hk (hp ▸ .unpick _) s.pages
    · exact effect_release _ k q
    · exact effect_setPhase hk (hp ▸ .resched _) s.pages
    · exact effect_release _ k q
  | leaseFail =>
    cases h
    exact effect_same id (fun _ => rfl) rfl rfl rfl rfl
  | destroy k =>
    obtain ⟨q, -, h⟩ := bind_eq_some_iff.mp h
    cases hp : q.phase <;> simp only [hp] at h <;> try cases h
    obtain ⟨-, ⟨⟩⟩ := ite_none_right_eq_some.mp h
    exact effect_release _ k q
  | reap =>
    cases h
    exact effect_same id id rfl rfl rfl rfl
  | dioSet seq =>
    have hadd (h : Handler) : ∀ x ∈ s.handlers ++ [h], x ∈ s.handlers ∨ x = h := fun x hx =>
      (mem_append.mp hx).imp_right mem_singleton.mp
    by_cases hdio : s.dio
    · simp only [act, if_pos hdio] at h
      cases h
      exact effect_handler id id rfl rfl rfl (hadd _) (.inr (.inl hdio))
    by_cases hseq : s.seq ≠ seq
    · simp only [act, if_neg hdio, if_pos hseq] at h
      cases h
      exact effect_handler id id rfl rfl rfl (hadd _) (.inl rfl)
    simp only [act, if_neg hdio, if_neg hseq] at h
    cases h
    exact effect_handler (fun _ => rfl) id rfl rfl rfl (hadd _) (.inr (.inl rfl))
  | dioRls =>
    obtain ⟨x, hk, h⟩ := bind_eq_some_iff.mp h
    cases x <;> cases h
    exact effect_handler id id rfl rfl rfl (fun x hx => mem_or_eq_of_mem_set hx) (.inr (.inr (mem_of_getElem? hk)))
  | dioReply =>
    obtain ⟨x, -, h⟩ := bind_eq_some_iff.mp h
    cases x <;> cases h
    exact effect_handler id id rfl rfl rfl (fun x hx => .inl (mem_of_mem_eraseIdx hx)) (.inl rfl)

theorem step_effect (h : step s e = some t) : Effect s t ∧ t.now = s.now + 1 := by
  obtain ⟨u, hu, rfl⟩ := map_eq_some_iff.mp h
  have heff := act_effect hu
  exact ⟨⟨heff.dio, heff.leaseFailed, heff.reqs, heff.writeRpcs, heff.answers, heff.handlers⟩, rfl⟩

/-! ### Times and handlers -/

structure Timed (s : BmapState) : Prop where
  reqs : ∀ q ∈ s.reqs, q.issued < s.now ∧ ∀ c ∈ q.phase.cached, c < s.now
  writeRpcs : ∀ x ∈ s.writeRpcs, x.sent < s.now
  answers : ∀ a ∈ s.answers, a.issued < s.now
  handlers : ∀ h ∈ s.handlers, h = .reply .stale ∨ s.dio

theorem initial_timed (dio : Bool) (seq : ℕ) : Timed (initial dio seq) := by
  constructor <;> exact fun _ h => nomatch h

theorem Phase.Next.cached {p p' : Phase} (h : p.Next s p') : p'.cached = some s.now ∨ p'.cached = p.cached := by
  cases h
  case copyin => exact .inl rfl
  all_goals exact .inr rfl

theorem FromReq.timed {q : Rq} (hs : Timed s) (h : FromReq s q) :
    q.issued < s.now + 1 ∧ ∀ c ∈ q.phase.cached, c < s.now + 1 := by
  rcases h with hq | ⟨hi, hp, -⟩ | ⟨p, hp, hi, -, hnext⟩
  · obtain ⟨hi, hc⟩ := hs.reqs q hq
    exact ⟨by omega, fun c h => Nat.lt_succ_of_lt (hc c h)⟩
  · rw [hp]
    exact ⟨by omega, fun c h => nomatch h⟩
  obtain ⟨hpi, hpc⟩ := hs.reqs p hp
  refine ⟨by omega, fun c hc => ?_⟩
  rcases hnext.cached with h | h
  · obtain rfl : s.now = c := some.inj (h.symm.trans hc)
    omega
  · exact Nat.lt_succ_of_lt (hpc c (h ▸ hc))

theorem step_timed (hs : Timed s) (h : step s e = some t) : Timed t := by
  obtain ⟨heff, hnow⟩ := step_effect h
  constructor
  · intro q hq
    rw [hnow]
    exact (heff.reqs q hq).timed hs
  · intro x hx
    rcases heff.writeRpcs x hx with hold | ⟨hsent, -⟩
    · have := hs.writeRpcs x hold
      omega
    · omega
  · intro a ha
    rcases heff.answers a ha with hold | ⟨q, hq, hi, -⟩
    · have := hs.answers a hold
      omega
    · have := (hs.reqs q hq).1
      omega
  · intro x hx
    rcases heff.handlers x hx with hold | hstale | hdio | hrls
    · exact (hs.handlers x hold).imp_right heff.dio
    · exact .inl hstale
    · exact .inr hdio
    rcases hs.handlers _ hrls with hno | hdio
    · cases hno
    · exact .inr (heff.dio hdio)

/-- What holds from a reply at time `r` on. -/
structure Settled (r : ℕ) (s : BmapState) : Prop where
  late : r < s.now
  dio : s.dio
  issued : ∀ q ∈ s.reqs, r < q.issued → q.dio
  cached : ∀ q ∈ s.reqs, ∀ c ∈ q.phase.cached,
    r < c ∨ (s.leaseFailed ∧ q.phase.isPicked = false)
  clean : CleanAfter r s

theorem Phase.Next.settled {r : ℕ} {p p' : Phase} (hr : r < s.now) (h : p.Next s p')
    (hp : ∀ c ∈ p.cached, r < c ∨ (s.leaseFailed ∧ p.isPicked = false)) :
    ∀ c ∈ p'.cached, r < c ∨ (s.leaseFailed ∧ p'.isPicked = false) := by
  intro c hc
  cases h with
  | copyin =>
    cases hc
    exact .inl hr
  | pick c' hlf =>
    rcases hp c hc with h | ⟨h, -⟩
    · exact .inl h
    · simp [hlf] at h
  | schedflush => exact (hp c hc).imp_right fun h => ⟨h.1, rfl⟩
  | send => exact (hp c hc).imp_right fun h => ⟨h.1, rfl⟩
  | unpick => exact (hp c hc).imp_right fun h => ⟨h.1, rfl⟩
  | resched => exact (hp c hc).imp_right fun h => ⟨h.1, rfl⟩

theorem step_settled {r : ℕ} (hs : Settled r s) (h : step s e = some t) : Settled r t := by
  obtain ⟨heff, hnow⟩ := step_effect h
  have hlate := hs.late
  constructor
  case late => omega
  case dio => exact heff.dio hs.dio
  case issued =>
    intro q hq hi
    rcases heff.reqs q hq with hold | ⟨-, -, hd⟩ | ⟨p, hp, hpi, hpd, -⟩
    · exact hs.issued q hold hi
    · exact hd hs.dio
    · rw [hpd]
      exact hs.issued p hp (by omega)
  case cached =>
    intro q hq c hc
    have hcached : r < c ∨ (s.leaseFailed ∧ q.phase.isPicked = false) := by
      rcases heff.reqs q hq with hold | ⟨-, hp, -⟩ | ⟨p, hp, -, -, hnext⟩
      · exact hs.cached q hold c hc
      · rw [hp] at hc
        cases hc
      · exact hnext.settled hlate (hs.cached p hp) c hc
    exact hcached.imp_right fun h => ⟨heff.leaseFailed h.1, h.2⟩
  case clean =>
    constructor
    · intro x hx hsent c hc
      rcases heff.writeRpcs x hx with hold | ⟨-, hnone | ⟨q, hq, c', hp, hx'⟩⟩
      · exact hs.clean.1 x hold hsent c hc
      · rw [hnone] at hc
        cases hc
      obtain rfl : c' = c := some.inj (hx'.symm.trans hc)
      -- the request was picked, so its data is not what waits under a failed lease
      rcases hs.cached q hq c' (by rw [hp]; rfl) with h | ⟨-, h⟩
      · exact h
      · rw [hp] at h
        cases h
    · intro a ha hi c hc
      rcases heff.answers a ha with hold | ⟨q, hq, hqi, hnil | hd⟩
      · exact hs.clean.2 a hold hi c hc
      · rw [hnil] at hc
        cases hc
      · rw [hs.issued q hq (by omega)] at hd
        cases hd

theorem dioReply_eq {k : ℕ} (h : step s (.dioReply k) = some t) :
    t = { s with now := s.now + 1, handlers := s.handlers.eraseIdx k } := by
  obtain ⟨u, hu, rfl⟩ := map_eq_some_iff.mp h
  obtain ⟨x, -, hu⟩ := bind_eq_some_iff.mp hu
  cases x <;> cases hu
  rfl

theorem settled_of_drained {k : ℕ} (hs : Timed s)
    (hk : s.handlers[k]? = some (.reply .ok)) (h : step s (.dioReply k) = some t)
    (hd : Drained s) : Settled s.now t := by
  obtain rfl := dioReply_eq h
  constructor
  case late => exact Nat.lt_succ_self _
  case dio =>
    rcases hs.handlers _ (mem_of_getElem? hk) with h | h
    · cases h
    · exact h
  case issued => exact fun q hq hi => absurd (hs.reqs q hq).1 (by omega)
  case cached =>
    intro q hq c hc
    obtain ⟨hp, hlf⟩ := hd q hq
    exact .inr ⟨hlf (isSome_of_mem hc), hp⟩
  case clean =>
    refine ⟨fun x hx hsent => ?_, fun a ha hi => ?_⟩
    · have := hs.writeRpcs x hx
      omega
    · have := hs.answers a ha
      omega

/-! ### What is not drained can be sent -/

/-- Some continuation sends data cached at `c`, now or later. -/
def Sends (s : BmapState) (c : ℕ) : Prop :=
  ∃ fs u n, s.now ≤ n ∧ run step s fs = some u ∧ (⟨n, some c⟩ : WriteRpc) ∈ u.writeRpcs

theorem Sends.step {c : ℕ} (h : step s e = some t) (ht : Sends t c) : Sends s c := by
  obtain ⟨fs, u, n, hn, hrun, hmem⟩ := ht
  have hnow := (step_effect h).2
  exact ⟨e :: fs, u, n, by omega, by rw [run_cons, h]; exact hrun, hmem⟩

section Sends

variable {k c : ℕ} {q : Rq}

theorem setPhase_getElem? {p : Phase} (hk : s.reqs[k]? = some q) :
    (s.setPhase k q p).reqs[k]? = some { q with phase := p } :=
  List.getElem?_set_self (List.getElem?_eq_some_iff.mp hk).1

theorem sends_picked (hk : s.reqs[k]? = some q) (hp : q.phase = .picked c) : Sends s c := by
  have hstep : step s (.send k) = some { s.setPhase k q (.sending c) with
      writeRpcs := ⟨s.now, some c⟩ :: s.writeRpcs, now := s.now + 1 } := by
    simp only [step, act, hk, bind_some, hp, map_some]
  exact ⟨[.send k], _, s.now, Nat.le_refl _, by rw [run_cons, hstep]; rfl, mem_cons_self⟩

section
variable (hlf : s.leaseFailed = false) (hk : s.reqs[k]? = some q)
include hlf hk

theorem sends_sched (hp : q.phase = .sched c) : Sends s c := by
  have hstep : step s (.pick k) = some { s.setPhase k q (.picked c) with now := s.now + 1 } := by
    simp only [step, act, hk, bind_some, hp, hlf, Bool.false_eq_true, if_false, map_some]
  refine Sends.step hstep ?_
  exact sends_picked (setPhase_getElem? hk) rfl

theorem sends_copied (hp : q.phase = .copied c) : Sends s c := by
  have hstep : step s (.schedflush k) = some { s.setPhase k q (.sched c) with now := s.now + 1 } := by
    simp only [step, act, hk, bind_some, hp, map_some]
  refine Sends.step hstep ?_
  exact sends_sched hlf (setPhase_getElem? hk) rfl

theorem sends_sending (hp : q.phase = .sending c) : Sends s c := by
  have hstep : step s (.resched k false) = some { s.setPhase k q (.sched c) with now := s.now + 1 } := by
    simp only [step, act, hk, bind_some, hp, Bool.false_eq_true, if_false, map_some]
  refine Sends.step hstep ?_
  exact sends_sched hlf (setPhase_getElem? hk) rfl

end

end Sends

theorem send_of_not_drained {s : BmapState} (h : ¬ Drained s) : ∃ q ∈ s.reqs, ∃ c ∈ q.phase.cached, Sends s c := by
  simp only [Drained, not_forall, not_and_or] at h
  obtain ⟨q, hq, h⟩ := h
  obtain ⟨k, hk⟩ := mem_iff_getElem?.mp hq
  rcases h with hpicked | ⟨hcached, hlf⟩
  · cases hp : q.phase with
    | picked c => exact ⟨q, hq, c, by rw [hp]; rfl, sends_picked hk hp⟩
    | _ => simp [hp, Phase.isPicked] at hpicked
  have hlf : s.leaseFailed = false := by simpa using hlf
  obtain ⟨c, hc⟩ := isSome_iff_exists.mp hcached
  refine ⟨q, hq, c, hc, ?_⟩
  cases hp : q.phase <;> simp only [hp, Phase.cached, reduceCtorEq, some.injEq] at hc
  · exact sends_copied hlf hk (hc ▸ hp)
  · exact sends_sched hlf hk (hc ▸ hp)
  · exact sends_picked hk (hc ▸ hp)
  · exact sends_sending hlf hk (hc ▸ hp)

/-! ### The switch -/

/-- **The switch is clean exactly if the cache is drained.** -/
theorem dio_clean_iff (dio : Bool) (seq : ℕ) {es : List Event} {s t : BmapState} {k : ℕ}
    (hs : run step (initial dio seq) es = some s) (hk : s.handlers[k]? = some (.reply .ok))
    (ht : step s (.dioReply k) = some t) : (∀ fs u, run step t fs = some u → CleanAfter s.now u) ↔ Drained s := by
  have htimed : Timed s := run_keeps step_timed (initial_timed dio seq) hs
  constructor
  · intro hclean
    by_contra hno
    obtain rfl := dioReply_eq ht
    obtain ⟨q, hq, c, hc, fs, u, n, hn, hrun, hmem⟩ := send_of_not_drained
      (s := { s with now := s.now + 1, handlers := s.handlers.eraseIdx k }) hno
    have hbefore := (htimed.reqs q hq).2 c hc
    have hafter := (hclean fs u hrun).1 _ hmem hn c rfl
    omega
  · intro hd fs u hrun
    have hsettled : Settled s.now u :=
      run_keeps step_settled (settled_of_drained htimed hk ht hd) hrun
    exact hsettled.clean

/-- Everything is written back before the callback. -/
theorem dio_clean_writtenBack :
    ∃ s ∈ run step (initial false 5) [.issue .write [0], .complete 0, .schedflush 0, .pick 0,
        .send 0, .sentOk 0, .dioSet 5, .dioRls 0], ∃ t ∈ step s (.dioReply 0), Drained s ∧
        ∀ fs u, run step t fs = some u → CleanAfter s.now u := by
  have hrun : ∃ s ∈ run step (initial false 5) [.issue .write [0], .complete 0, .schedflush 0,
      .pick 0, .send 0, .sentOk 0, .dioSet 5, .dioRls 0],
      s.handlers[0]? = some (.reply .ok) ∧ Drained s ∧ ∃ t, t ∈ step s (.dioReply 0) := by
    refine ⟨_, rfl, rfl, by decide, _, rfl⟩
  obtain ⟨s, hs, hk, hd, t, ht⟩ := hrun
  exact ⟨s, hs, t, ht, hd, (dio_clean_iff false 5 hs hk ht).mpr hd⟩

/-- **Write-back after the reply**: the flush thread sends a write that was in the page cache. -/
theorem late_write_back : ∃ s ∈ run step (initial false 5) [.issue .write [0], .complete 0, .schedflush 0, .dioSet 5,
        .dioRls 0], s.handlers[0]? = some (.reply .ok) ∧
      ∃ u ∈ run step s [.dioReply 0, .pick 0, .send 0], ∃ x ∈ u.writeRpcs,
        s.now < x.sent ∧ x.cached = some 1 ∧ 1 < s.now := by
  refine ⟨_, rfl, by decide, _, rfl, ?_⟩
  decide

end Slash2.Client.Dio
