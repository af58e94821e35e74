/-
# Every entry once and in order

What a page holds is a stretch of the directory: it begins after the cookie of the page, and ends
with the directory if the page says so. A reader has got what is up to its cookie. If the page that
serves it has all its entries, the reader is given the next stretch, of at least one entry unless
there is none; so that an empty reply comes at the end only.

Key definition: `Inv`. Key theorems: `serve_spec`, `eof_spec`, `step_inv`, `enumerated`, `readers_fail`.
-/
import Slash2.Dircache.Readdir
import Slash2.Lib.Run

namespace Slash2.Dircache

open Lib List Option

variable {d : Dir} {s t : State} {off size : ℕ}

/-! ### One page -/

theorem fit_isPrefix (size : ℕ) : ∀ (len : ℕ) (es : List Dirent), fit size len es <+: es
  | _, [] => prefix_rfl
  | len, e :: es => by
    unfold fit
    split_ifs
    · exact nil_prefix
    · exact prefix_cons_inj e |>.mpr (fit_isPrefix size (len + e.size) es)

variable {p : Page} {r : Reader} {es : List Dirent} {i id : ℕ}

theorem fit_ne_nil (h : ∀ e ∈ es, e.size ≤ size) (hes : es ≠ []) : fit size 0 es ≠ [] := by
  rcases es with _ | ⟨e, es⟩
  · exact absurd rfl hes
  have he := h e mem_cons_self
  unfold fit
  rw [if_neg (by omega)]
  exact cons_ne_nil _ _

theorem findStart_of_mem : ∀ {es : List Dirent} (this : ℕ), Cursor.Increasing Dirent.off es →
    (∀ e ∈ es, this < e.off) → off ∈ es.map Dirent.off → findStart off this es = Cursor.after Dirent.off es off
  | [], _, _, _, hm => absurd hm not_mem_nil
  | e :: es, this, hinc, hlt, hm => by
    have hle : off ≠ this := by
      intro h
      obtain ⟨a, ha, hoff⟩ := mem_map.mp hm
      exact absurd (hlt a ha) (by omega)
    unfold findStart
    rw [if_neg hle]
    have hes : ∀ a ∈ es, e.off < a.off := fun a ha => rel_of_pairwise_cons hinc ha
    rcases mem_cons.mp hm with heq | hm
    · -- the starting entry is the next one
      have h1 : Cursor.after Dirent.off (e :: es) e.off = es := Cursor.after_eq_of_append (s := [e]) (by simp) hes
      rw [heq, h1]
      cases es <;> simp [findStart]
    obtain ⟨a, ha, hoff⟩ := mem_map.mp hm
    rw [findStart_of_mem e.off hinc.of_cons hes hm]
    have hlt := hes a ha
    exact (dropWhile_cons_of_pos (by simp only [decide_eq_true_eq]; omega)).symm

theorem findStart_self (es : List Dirent) : findStart off off es = es := by
  cases es <;> simp [findStart]

theorem serve_spec (hp : p.Agrees d) (hl : p.loading = false) (hrc : p.rc = none)
    (hoff : p.hasoff off) (hn : p.dents.length = p.base.length) (hsize : ∀ e ∈ d.ents, e.size ≤ size) :
    ∃ t, d.after off = p.serve off size ++ t ∧ (p.serve off size = [] → d.after off = []) := by
  obtain ⟨t, ht, -, hnil⟩ := hp.segment hl hrc
  have hinc : Cursor.Increasing Dirent.off (p.base ++ t) := ht ▸ d.increasing.sublist (dropWhile_sublist _)
  have hlt : ∀ e ∈ p.base ++ t, p.off < e.off := fun e he =>
    Cursor.lt_of_mem_after d.increasing (show e ∈ d.after p.off from ht ▸ he)
  -- the starting entry is the first of those that follow in the page
  obtain ⟨u, hu, hafter, hune⟩ : ∃ u, findStart off p.off p.base = u ∧ d.after off = u ++ t ∧ (u = [] → t = []) := by
    refine ⟨_, rfl, ?_⟩
    by_cases h0 : off = p.off
    · subst h0
      rw [findStart_self]
      exact ⟨ht, hnil⟩
    simp only [Page.hasoff, h0, false_or, decide_eq_true_eq] at hoff
    obtain ⟨-, hnext, hm⟩ := hoff
    have hmb : off ∈ p.base.map Dirent.off := map_subset _ hp.dents hm
    rw [findStart_of_mem p.off (pairwise_append.mp hinc).1 (fun e he => hlt e (mem_append_left _ he)) hmb]
    obtain ⟨a, ha, rfl⟩ := mem_map.mp hmb
    have hle : p.off ≤ a.off := (hlt a (mem_append_left _ ha)).le
    have hsplit : d.after a.off = Cursor.after Dirent.off p.base a.off ++ t := by
      rw [← Cursor.after_append_of_mem hinc ⟨a, ha, rfl⟩, ← ht]
      exact (Cursor.after_after d.ents hle).symm
    refine ⟨hsplit, fun hu => absurd ?_ hnext⟩
    -- nothing follows the last entry only, and its cookie is the next page's
    have hb := ne_nil_of_mem ha
    have hlast : p.base.getLast hb ∈ Cursor.upto Dirent.off p.base a.off := by
      have hup : Cursor.upto Dirent.off p.base a.off ++ Cursor.after Dirent.off p.base a.off = p.base :=
        Cursor.upto_append_after p.base a.off
      rw [hu, append_nil] at hup
      exact hup.symm ▸ getLast_mem hb
    have hge := Cursor.le_getLast (pairwise_append.mp hinc).1 hb ha
    rw [hp.nextoff hl hrc, getLast?_eq_some_getLast hb]
    exact le_antisymm hge ((Cursor.le_of_mem_upto hlast : (p.base.getLast hb).off ≤ a.off))
  have hserve : p.serve off size = fit size 0 u := by rw [Page.serve, hn, take_length, hu]
  obtain ⟨v, hv⟩ := fit_isPrefix size 0 u
  refine ⟨v ++ t, ?_, fun h0 => ?_⟩
  · rw [hserve, ← append_assoc, hv, hafter]
  · have hmem : ∀ e ∈ u, e.size ≤ size := fun e he =>
      hsize e ((dropWhile_sublist _).subset (hafter ▸ mem_append_left t he))
    have hu0 : u = [] := by
      by_contra hne
      exact fit_ne_nil hmem hne (hserve ▸ h0)
    rw [hafter, hu0, hune hu0, nil_append]

theorem eof_spec (hp : p.Agrees d) (hl : p.loading = false) (he : p.eof)
    (hoff : off = p.nextoff) : d.after off = [] := by
  have hrc : p.rc = none := by
    by_contra h
    exact absurd ((hp.bad h).symm.trans he) Bool.noConfusion
  obtain ⟨t, ht, heof, -⟩ := hp.segment hl hrc
  have ht0 := heof he
  rw [hp.nextoff hl hrc] at hoff
  rcases hb : p.base.getLast? with _ | e
  · rw [hb] at hoff
    rw [hoff]
    show d.after p.off = []
    rw [ht, getLast?_eq_none_iff.mp hb, ht0, nil_append]
  have hne : p.base ≠ [] := by
    intro h
    rw [h] at hb
    exact nomatch hb
  have he : e = p.base.getLast hne := (some.inj ((getLast?_eq_some_getLast hne).symm.trans hb)).symm
  rw [hoff, hb, he]
  exact (Cursor.after_getLast d.increasing ht hne).trans ht0

/-! ### The loops over the pages -/

variable {ps : List Page}

theorem agrees_sweep {β : Type*} {f : Page → Visit Page β} {last : β}
    (hf : ∀ p : Page, p.Agrees d → ∀ q ∈ (f p).kept, q.Agrees d) (h : ∀ p ∈ ps, p.Agrees d) :
    ∀ q ∈ (sweep f last ps).1, q.Agrees d := by
  intro q hq
  rcases mem_sweep hq with hq | ⟨p, hp, hq⟩
  · exact h q hq
  · exact hf p (h p hp) q hq

theorem Page.Agrees.visit (h : p.Agrees d) (now : ℤ) (attr : ℕ) : ∀ q ∈ (p.visit now attr off).kept, q.Agrees d := by
  have hread : Page.Agrees { p with read := true } d := { h with }
  unfold Page.visit
  split_ifs <;> try split
  all_goals simp [Visit.kept, h, hread]

theorem Page.Agrees.visitNew (h : p.Agrees d) (now : ℤ) (attr : ℕ) (wait : Bool) :
    ∀ q ∈ (p.visitNew now attr off wait).kept, q.Agrees d := by
  have hfreeing : Page.Agrees { p with freeing := true } d := { h with }
  unfold Page.visitNew
  split_ifs
  all_goals simp [Visit.kept, h, hfreeing]

def Stops (off : ℕ) (p : Page) : Found → Prop
  | .hit q => q = p ∧ p.loading = false ∧ p.rc = none ∧ p.hasoff off
  | .eof => p.loading = false ∧ p.eof ∧ off = p.nextoff
  | .wait | .bad _ | .miss => True

theorem Page.visit_stop {now : ℤ} {attr : ℕ} {k : List Page} {r : Found}
    (h : p.visit now attr off = .stop k r) : Stops off p r := by
  unfold Page.visit at h
  split_ifs at h with h1 h2 h3 h4
  · cases h
    trivial
  · cases h
    exact ⟨Bool.eq_false_iff.mpr h1, h3.2, h3.1⟩
  all_goals
    split at h <;> cases h
    · trivial
    · rename_i hrc
      exact ⟨rfl, Bool.eq_false_iff.mpr h1, hrc, h4⟩

theorem scan_stops (off : ℕ) (now : ℤ) (attr : ℕ) (ps : List Page) :
    (scan now attr off ps).2 = .miss ∨ ∃ p ∈ ps, Stops off p (scan now attr off ps).2 := by
  rcases sweep_result (Page.visit now attr off) .miss ps with h | ⟨p, hp, k, hv⟩
  · exact .inl h
  · exact .inr ⟨p, mem_of_find?_eq_some hp, Page.visit_stop hv⟩

theorem Page.visitNew_stops (now : ℤ) (attr : ℕ) (p : Page) :
    (p.visitNew now attr off true).stops = p.meets now attr off := by
  unfold Page.visitNew Page.meets
  split_ifs <;> simp_all [Visit.stops]

theorem Page.visitNew_null {now : ℤ} {attr : ℕ} {k : List Page} (h : p.visitNew now attr off true = .stop k .null) :
    p.loading ∧ p.off = off := by
  simp only [Page.visitNew, if_true] at h
  split_ifs at h with hl hoff <;> cases h
  exact ⟨hl, hoff⟩

theorem newPage_ne_null {now : ℤ} {attr : ℕ}
    (h : ∀ p ∈ ps.find? (Page.meets now attr off), p.loading → p.off ≠ off) :
    (newPage now attr off true ps).2 ≠ .null := by
  intro hnull
  rcases sweep_result (Page.visitNew now attr off true) .add ps with hadd | ⟨p, hp, k, hv⟩
  · exact nomatch hadd.symm.trans hnull
  simp only [Page.visitNew_stops] at hp
  obtain ⟨hl, hoff⟩ := Page.visitNew_null (hv.trans (congrArg _ hnull))
  exact h p hp hl hoff

structure Reader.Fits (r : Reader) (d : Dir) : Prop where
  got : r.got = Cursor.upto Dirent.off d.ents r.off
  calls : r.calls ≤ r.got.length
  done : r.pc = .done → d.after r.off = []
  success : r.pc ≠ .failed
  size : ∀ e ∈ d.ents, e.size ≤ r.size

/-- **The invariant.** -/
structure Inv (d : Dir) (s : State) : Prop where
  alive : s.crashed = false
  agrees : ∀ p ∈ s.pages, p.Agrees d
  fits : ∀ r ∈ s.readers, r.Fits d

theorem Inv.sound (h : Inv d s) : Sound d s := by
  have split (r : Reader) (hr : r ∈ s.readers) : r.got ++ d.after r.off = d.ents := by
    rw [(h.fits r hr).got]
    exact Cursor.upto_append_after d.ents r.off
  refine ⟨h.alive, fun r hr => ⟨_, split r hr⟩, fun r hr => (h.fits r hr).calls, fun r hr hd => ?_,
    fun r hr => (h.fits r hr).success⟩
  have := split r hr
  rwa [(h.fits r hr).done hd, append_nil] at this

theorem Start.inv (h : Start d s) : Inv d s := ⟨h.alive, h.agrees, fun _ hr => absurd (h.readers ▸ hr) not_mem_nil⟩

theorem Reader.Fits.take {t : List Dirent} (h : r.Fits d) (hpc : r.pc = .calling)
    (hes : d.after r.off = es ++ t) (hnil : es = [] → d.after r.off = []) : (r.take es).Fits d := by
  rcases hl : es.getLast? with _ | e <;> simp only [Reader.take, hl]
  · have h0 := hnil (getLast?_eq_none_iff.mp hl)
    exact ⟨h.got, h.calls, fun _ => h0, nofun, h.size⟩
  have hne : es ≠ [] := by
    intro h0
    rw [h0] at hl
    exact nomatch hl
  have he : e = es.getLast hne := (some.inj ((getLast?_eq_some_getLast hne).symm.trans hl)).symm
  have hup : Cursor.upto Dirent.off d.ents e.off = r.got ++ es := by
    rw [he, h.got]
    exact Cursor.upto_getLast d.increasing hes hne
  refine ⟨hup.symm, ?_, fun hd => (nomatch hpc.symm.trans hd), h.success, h.size⟩
  have hpos := length_pos_iff.mpr hne
  have hc := h.calls
  simp only [length_append]
  omega

theorem Inv.setReader (h : Inv d s) (hr : r.Fits d) : Inv d (s.setReader i r) :=
  { h with fits := forall_mem_set h.fits hr }

theorem Inv.addPage (h : Inv d s) (off size : ℕ) : Inv d (s.addPage off size) :=
  { h with agrees := forall_mem_snoc h.agrees ⟨nofun, nofun, nofun, .refl _, fun h => absurd rfl h, fun _ => rfl⟩ }

theorem Inv.setPage {q : Page} (h : Inv d s) (hq : q.Agrees d) : Inv d (s.setPage id q) := by
  refine { h with agrees := fun p hp => ?_ }
  obtain ⟨p', hp', rfl⟩ := mem_map.mp hp
  split_ifs
  · exact hq
  · exact h.agrees p' hp'

theorem Inv.pages (h : Inv d s) (hps : ∀ p ∈ ps, p.Agrees d) : Inv d { s with pages := ps } :=
  { h with agrees := hps }

theorem Reader.Fits.goto {pc : Pc} (h : r.Fits d) (hd : pc ≠ .done) (hf : pc ≠ .failed) :
    Reader.Fits { r with pc := pc } d :=
  { h with done := fun h0 => absurd h0 hd, success := hf }

theorem call_inv (h : Inv d s) (hi : s.readers[i]? = some r) (hpc : r.pc = .calling)
    (hok : Fine s (.call i)) : Inv d (call s i r) := by
  have hr := h.fits r (mem_of_getElem? hi)
  have hok := hok r hi
  have hstop := scan_stops r.off s.now s.attr s.pages
  have hinv : Inv d { s with pages := (scan s.now s.attr r.off s.pages).1 } :=
    h.pages (agrees_sweep (fun p hp => hp.visit s.now s.attr) h.agrees)
  unfold call
  rcases hs : scan s.now s.attr r.off s.pages with ⟨ps, found⟩
  simp only [hs] at hok hstop hinv ⊢
  cases found with
  | wait => exact hinv
  | miss => exact hinv.setReader (hr.goto nofun nofun)
  | bad rc =>
    rw [hok]
    exact hinv.setReader (hr.goto nofun nofun)
  | eof =>
    obtain ⟨p, hp, hl, he, hoff⟩ := hstop.resolve_left nofun
    have hend := eof_spec (h.agrees p hp) hl he hoff
    exact hinv.setReader { hr with done := fun _ => hend, success := nofun }
  | hit p =>
    obtain ⟨q, hq, rfl, hl, hrc, hoff⟩ := hstop.resolve_left nofun
    obtain ⟨u, hu, hnil⟩ := serve_spec (h.agrees p hq) hl hrc hoff hok hr.size
    have hinv' := hinv.setReader (i := i) (hr.take hpc hu hnil)
    simp only
    split_ifs
    · exact hinv'
    · exact { hinv' with }

theorem issue_inv (h : Inv d s) (hi : s.readers[i]? = some r) (hok : Fine s (.issue i)) : Inv d (issue s i r) := by
  have hr := h.fits r (mem_of_getElem? hi)
  have hok := newPage_ne_null (hok r hi)
  have hinv : Inv d { s with pages := (newPage s.now s.attr r.off true s.pages).1 } :=
    h.pages (agrees_sweep (fun p hp => hp.visitNew s.now s.attr true) h.agrees)
  unfold issue
  rcases hs : newPage s.now s.attr r.off true s.pages with ⟨ps, new⟩
  simp only [hs] at hok hinv ⊢
  cases new with
  | null => exact absurd rfl hok
  | wait => exact hinv
  | free id => exact hinv.setReader (hr.goto nofun nofun)
  | add => exact (hinv.addPage _ _).setReader (hr.goto nofun nofun)

theorem ahead_inv (h : Inv d s) (off size : ℕ) : Inv d (ahead s off size) := by
  have hinv : Inv d { s with pages := (newPage s.now s.attr off false s.pages).1 } :=
    h.pages (agrees_sweep (fun p hp => hp.visitNew s.now s.attr false) h.agrees)
  unfold ahead
  rcases hs : newPage s.now s.attr off false s.pages with ⟨ps, new⟩
  simp only [hs] at hinv ⊢
  cases new with
  | add => exact hinv.addPage _ _
  | null | wait | free id => exact hinv

theorem Page.Agrees.zap (h : p.Agrees d) (e : Dirent) (now : ℤ) : (p.zap e now).Agrees d := by
  unfold Page.zap
  split_ifs
  · exact { h with dents := fun a ha => h.dents (mem_of_mem_filter ha) }
  · exact h

theorem register_inv {e : Dirent} (h : Inv d s) (hok : ¬Clash s id e) : Inv d (register s id e) := by
  unfold register
  rw [if_neg hok]
  refine h.pages fun q hq => ?_
  obtain ⟨p, hp, rfl⟩ := mem_map.mp hq
  split_ifs
  · exact { h.agrees p hp with }
  · exact (h.agrees p hp).zap e s.now

variable {eof : Bool}

theorem segment_take {n : ℕ} (h0 : (d.after off).take n = [] → d.after off = [])
    (he : eof → (d.after off).take n = d.after off) : Segment d off ((d.after off).take n) eof := by
  refine ⟨(d.after off).drop n, (take_append_drop n _).symm, fun h => ?_, fun h => ?_⟩
  · have := take_append_drop n (d.after off)
    rw [he h] at this
    exact append_right_eq_self.mp this
  · rw [h0 h, drop_nil]

theorem Page.Agrees.fill (h : p.Agrees d) (hl : p.loading)
    (hr : p.reply = some (es, eof)) (now : ℤ) (attr : ℕ) : (p.fill es eof now attr).Agrees d :=
  ⟨nofun, fun _ _ => h.reply es eof hr, fun _ _ => rfl, .refl es, fun h0 => absurd (h.fresh hl) h0, nofun⟩

theorem State.mem_of_page (h : s.page id = some p) : p ∈ s.pages := mem_of_find?_eq_some h

theorem upto_zero : Cursor.upto Dirent.off d.ents 0 = [] := by
  rcases h : d.ents with _ | ⟨e, es⟩
  · rfl
  · have hpos := d.pos e (h ▸ mem_cons_self)
    exact takeWhile_cons_of_neg (by simpa using hpos.ne')

theorem step_inv {o : Op} (h : Inv d s) (hok : Fine s o) (hs : step d s o = some t) : Inv d t := by
  cases o with
  | start =>
    simp only [step] at hs
    split_ifs at hs with hsize hbig
    · exact absurd hok (Nat.not_le.mpr hbig)
    · cases hs
      exact { h with fits := forall_mem_snoc h.fits ⟨upto_zero.symm, Nat.zero_le _, nofun, nofun, hsize⟩ }
  | call =>
    obtain ⟨r, hr, hpc, rfl⟩ := bind_guard hs
    exact call_inv h hr hpc hok
  | issue =>
    obtain ⟨r, hr, hpc, rfl⟩ := bind_guard hs
    exact issue_inv h hr hok
  | freed =>
    obtain ⟨r, hr, hs⟩ := bind_eq_some_iff.mp hs
    split at hs
    · next id _ =>
      obtain ⟨p, hp, -, rfl⟩ := bind_guard hs
      have hinv : Inv d { s with pages := s.pages.filter (·.id ≠ id) } :=
        h.pages fun p hp => h.agrees p (mem_of_mem_filter hp)
      exact (hinv.addPage _ _).setReader ((h.fits r (mem_of_getElem? hr)).goto nofun nofun)
    · exact nomatch hs
  | ahead k =>
    obtain ⟨q, -, hs⟩ := bind_eq_some_iff.mp hs
    cases hs
    have hinv : Inv d { s with aheads := s.aheads.eraseIdx k } := { h with }
    exact ahead_inv hinv _ _
  | reply =>
    obtain ⟨p, hp, hs⟩ := bind_eq_some_iff.mp hs
    simp only at hs
    split_ifs at hs with hc
    cases hs
    have hagree := h.agrees p (State.mem_of_page hp)
    refine h.setPage { hagree with reply := fun es e he => ?_ }
    obtain ⟨rfl, rfl⟩ := Prod.mk.inj (some.inj he)
    exact segment_take hc.2.2.2.1 hc.2.2.2.2
  | register =>
    obtain ⟨p, hp, hs⟩ := bind_eq_some_iff.mp hs
    obtain ⟨q, hq, hs⟩ := bind_eq_some_iff.mp hs
    obtain ⟨e, he, hs⟩ := bind_eq_some_iff.mp hs
    cases hs
    exact register_inv h (hok p hp q hq e he)
  | fill =>
    obtain ⟨p, hp, hs⟩ := bind_eq_some_iff.mp hs
    obtain ⟨q, hq, hs⟩ := bind_eq_some_iff.mp hs
    simp only at hs
    split_ifs at hs with hc
    cases hs
    exact h.setPage ((h.agrees p (State.mem_of_page hp)).fill hc.1 hq s.now s.attr)
  | finish =>
    obtain ⟨p, hp, -, rfl⟩ := bind_guard hs
    exact h.setPage { h.agrees p (State.mem_of_page hp) with }
  | tick =>
    cases hs
    exact { h with }
  | setattr =>
    cases hs
    exact { h with }

/-- **A directory is enumerated** by all readers, if the steps are `Fine`. -/
theorem enumerated (d : Dir) (s : State) (hs : Start d s) (os : List Op) (t : State)
    (hok : Admits (step d) Fine s os) (h : run (step d) s os = some t) : Sound d t :=
  (run_invariant step_inv hs.inv hok h).sound

def abc : Dir :=
  ⟨[⟨1, "a.long.name", 2⟩, ⟨2, "b", 1⟩, ⟨3, "c", 1⟩], by decide, by decide⟩

def empty : State := ⟨[], [], [], 0, 0, 0, false⟩

theorem start_empty (d : Dir) : Start d empty := ⟨rfl, rfl, fun _ h => absurd h not_mem_nil⟩

/-- The first reader has `a` and its page has expired; the second asks for all while `b` is read ahead. -/
def together : List Op :=
  [.start 2, .call 0, .issue 0, .reply 0 1 false, .register 0, .fill 0, .finish 0, .call 0, .tick 5000000000,
    .start 4, .call 1, .issue 1, .ahead 0, .reply 2 1 false, .register 2, .fill 2, .finish 2,
    .reply 1 3 true, .register 1, .register 1, .register 1, .fill 1, .finish 1, .call 1, .call 1, .call 0, .call 0]

theorem enumerated_together : ∃ s ∈ run (step abc) empty together, Sound abc s ∧
    s.pages.map (fun p => p.base.map Dirent.name) = [["a.long.name", "b", "c"], ["b"]] ∧
    s.readers.map Reader.pc = [.done, .done] := by
  have h : ∃ s ∈ run (step abc) empty together,
      s.pages.map (fun p => p.base.map Dirent.name) = [["a.long.name", "b", "c"], ["b"]] ∧
      s.readers.map Reader.pc = [.done, .done] := by decide +kernel
  obtain ⟨s, hs, hd⟩ := h
  exact ⟨s, hs, enumerated abc empty (start_empty abc) together s (by decide +kernel) hs, hd⟩

def twice : List Op := [.start 4, .start 4, .call 0, .call 1, .issue 0, .issue 1]

/-- The first reader has `a`, its page has expired, and the second asks for all. -/
def overlap : List Op :=
  [.start 2, .call 0, .issue 0, .reply 0 1 false, .register 0, .fill 0, .finish 0, .call 0, .tick 5000000000,
    .start 4, .call 1, .issue 1, .ahead 0, .reply 1 3 false, .register 1, .register 1, .register 1, .fill 1,
    .reply 2 2 false, .register 2, .register 2, .fill 2, .call 1, .call 1]

/-- A call fails without an RPC error; and a reader ends after one entry. -/
theorem readers_fail : (∃ s ∈ run (step abc) empty twice, (∃ r ∈ s.readers, r.pc = .failed) ∧ ¬Sound abc s) ∧
    ∃ s ∈ run (step abc) empty overlap,
      (∃ r ∈ s.readers, r.pc = .done ∧ r.got.map Dirent.name = ["a.long.name"]) ∧ ¬Sound abc s := by
  constructor
  · have h : ∃ s ∈ run (step abc) empty twice, ∃ r ∈ s.readers, r.pc = .failed := by decide +kernel
    obtain ⟨s, hs, r, hr, hf⟩ := h
    exact ⟨s, hs, ⟨r, hr, hf⟩, fun hsound => hsound.success r hr hf⟩
  · have h : ∃ s ∈ run (step abc) empty overlap, ∃ r ∈ s.readers,
        r.pc = .done ∧ r.got.map Dirent.name = ["a.long.name"] := by decide +kernel
    obtain ⟨s, hs, r, hr, hd, hg⟩ := h
    refine ⟨s, hs, ⟨r, hr, hd, hg⟩, fun hsound => ?_⟩
    rw [hsound.all r hr hd] at hg
    exact absurd hg (by decide)

end Slash2.Dircache
