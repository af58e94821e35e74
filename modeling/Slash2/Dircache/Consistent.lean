/-
# The name cache stays consistent

An entry that is in the table, or will be when its page goes on being registered, is referred to by
one array or list; an entry that a call is about to zap is not in the table any more. All of this is
counting, for each entry, how often it is listed and how often it is referred to.

Key theorems: `step_inv`, `consistent_run`.
-/
import Mathlib.Algebra.Order.Group.Nat
import Mathlib.Data.List.Nodup
import Slash2.Dircache.Namecache
import Slash2.Lib.Run
import Slash2.Lib.Slots

namespace Slash2

open Option (bind_eq_some_iff)

namespace Dircache.Namecache

open Lib List

variable {s t : State} {p q : Page} {c : Call} {e : Dce} {n : String} {x k i : ℕ}

/-! ### Tables without duplicates -/

theorem eraseP_of_find {α : Type*} {q : α → Bool} {l : List α} {a : α} (h : l.find? q = some a) :
    ∃ l₁ l₂, l = l₁ ++ a :: l₂ ∧ l.eraseP q = l₁ ++ l₂ := by
  obtain ⟨ha, l₁, l₂, rfl, hl₁⟩ := find?_eq_some_iff_append.mp h
  refine ⟨l₁, l₂, rfl, ?_⟩
  rw [eraseP_append_right _ (by simpa using hl₁), eraseP_cons_of_pos ha]

theorem find_of_mem (hn : (s.table.map Dce.name).Nodup) (he : e ∈ s.table) : s.find e.name = some e := by
  obtain ⟨l₁, l₂, hl⟩ := append_of_mem he
  refine find?_eq_some_iff_append.mpr ⟨by simp, l₁, l₂, hl, fun a ha => ?_⟩
  rw [hl, map_append] at hn
  have hne := (nodup_append.mp hn).2.2 a.name (mem_map_of_mem ha) e.name mem_cons_self
  simpa using hne

theorem State.find_some (h : s.find n = some e) : e ∈ s.table ∧ e.name = n :=
  ⟨mem_of_find?_eq_some h, by simpa using find?_some h⟩

def State.listed (s : State) (x : ℕ) : ℕ :=
  (s.table.map Dce.id).count x + (s.pages.map fun p => (p.todo.map Dce.id).count x).sum

structure Books (s : State) : Prop where
  names : (s.table.map Dce.name).Nodup
  once : ∀ x, s.refs x ≤ 1
  held : ∀ x, s.listed x ≤ s.refs x
  fresh : ∀ x, s.next ≤ x → s.refs x = 0
  settled : ∀ n f, (n, f) ∈ s.settled → ∃ e ∈ s.table, e.name = n ∧ e.fid = f

/-- **The invariant.** What is about to be zapped is not in the table. -/
structure Inv (s : State) : Prop extends Books s where
  alive : s.crashed = false
  zaps : ∀ c ∈ s.calls, ∀ e, c.pc = .zap e → s.listed e.id = 0 ∧ e.id < s.next

theorem Inv.consistent (h : Inv s) : Consistent s := by
  refine ⟨h.alive, h.names, fun e he => ?_, fun n f hs => ?_⟩
  · have h1 : 1 ≤ (s.table.map Dce.id).count e.id := one_le_count_iff.mpr (mem_map_of_mem he)
    have h2 := h.held e.id
    have h3 := h.once e.id
    unfold State.listed at h2
    omega
  · obtain ⟨e, he, rfl, rfl⟩ := h.settled n f hs
    rw [State.lookup, find_of_mem h.names he, Option.map_some]

theorem listed_setPage (hk : s.pages[k]? = some p) (x : ℕ) :
    (s.setPage k q).listed x + (p.todo.map Dce.id).count x = s.listed x + (q.todo.map Dce.id).count x := by
  have h := sum_map_set (fun p : Page => (p.todo.map Dce.id).count x) (x := q) hk
  simp only [State.listed, State.setPage]
  omega

theorem refs_setPage (hk : s.pages[k]? = some p) (x : ℕ) :
    (s.setPage k q).refs x + p.ents.count x = s.refs x + q.ents.count x := by
  have h := sum_map_set (fun p : Page => p.ents.count x) (x := q) hk
  simp only [State.refs, State.setPage]
  omega

theorem count_eraseP {q : Dce → Bool} {l : List Dce} (hf : l.find? q = some e) (x : ℕ) :
    ((l.eraseP q).map Dce.id).count x + (if x = e.id then 1 else 0) = (l.map Dce.id).count x := by
  obtain ⟨l₁, l₂, rfl, hr⟩ := eraseP_of_find hf
  rw [hr]
  simp only [map_append, map_cons, count_append, count_cons, beq_iff_eq, eq_comm (a := x)]
  omega

theorem mem_eraseP {q : Dce → Bool} {l : List Dce} (hn : (l.map Dce.name).Nodup) (hf : l.find? q = some e)
    (a : Dce) : a ∈ l.eraseP q ↔ a ∈ l ∧ a.name ≠ e.name := by
  obtain ⟨l₁, l₂, rfl, hr⟩ := eraseP_of_find hf
  rw [map_append] at hn
  obtain ⟨-, hn₂, hd⟩ := nodup_append.mp hn
  have h₁ (ha : a ∈ l₁) : a.name ≠ e.name := hd _ (mem_map_of_mem ha) _ mem_cons_self
  have h₂ (ha : a ∈ l₂) : a.name ≠ e.name := fun h =>
    (nodup_cons.mp hn₂).1 (h ▸ mem_map_of_mem ha)
  rw [hr]
  simp only [mem_append, mem_cons]
  tauto

theorem entZap_eq (hr : Removable s e) : s.entZap e = { s with ents := s.ents.erase e.id } ∨
    ∃ k p, s.pages[k]? = some p ∧ s.entZap e = s.setPage k { p with ents := p.ents.erase e.id } := by
  unfold State.entZap
  rcases hp : e.page with _ | k
  · exact .inl rfl
  obtain ⟨p, hk, hl, hg⟩ := hr k hp
  have hk : s.pages[k]? = some p := hk
  refine .inr ⟨k, p, hk, ?_⟩
  simp only [hk, hl, hg, Bool.false_eq_true, or_self, if_false]

theorem entZap_refs (hr : Removable s e) (x : ℕ) :
    (s.entZap e).refs x ≤ s.refs x ∧ (x ≠ e.id → (s.entZap e).refs x = s.refs x) := by
  rcases entZap_eq hr with h | ⟨k, p, hk, h⟩
  · rw [h]
    simp only [State.refs, count_erase, beq_iff_eq, eq_comm (a := e.id)]
    refine ⟨by omega, fun hx => by rw [if_neg hx]; rfl⟩
  rw [h]
  have hset := refs_setPage (q := { p with ents := p.ents.erase e.id }) hk x
  simp only [count_erase, beq_iff_eq, eq_comm (a := e.id)] at hset
  refine ⟨by omega, fun hx => ?_⟩
  rw [if_neg hx] at hset
  omega

theorem entZap_frame (hr : Removable s e) : (s.entZap e).table = s.table ∧ (s.entZap e).crashed = s.crashed ∧
    (s.entZap e).next = s.next ∧ (s.entZap e).calls = s.calls ∧ (s.entZap e).settled = s.settled := by
  rcases entZap_eq hr with h | ⟨k, p, -, h⟩ <;> rw [h] <;> exact ⟨rfl, rfl, rfl, rfl, rfl⟩

theorem entZap_listed (hr : Removable s e) (x : ℕ) : (s.entZap e).listed x = s.listed x := by
  rcases entZap_eq hr with h | ⟨k, p, hk, h⟩
  · rw [h]
    rfl
  rw [h]
  have hset := listed_setPage (q := { p with ents := p.ents.erase e.id }) hk x
  simpa using hset

/-! ### The parts of a step keep the books -/

theorem Books.change_settled (h : Books s) {n' : String} {f : ℕ} (hm : (n', f) ∈ (s.change n).settled) :
    n' ≠ n ∧ ∃ e ∈ s.table, e.name = n' ∧ e.fid = f := by
  obtain ⟨hm, hne⟩ := mem_filter.mp hm
  exact ⟨by simpa using hne, h.settled n' f hm⟩

theorem listed_del (hf : s.find n = some e) (x : ℕ) :
    (s.del n).listed x + (if x = e.id then 1 else 0) = s.listed x := by
  have := count_eraseP hf x
  simp only [State.listed, State.del, State.change]
  omega

theorem Books.del (h : Books s) (hf : s.find n = some e) : Books (s.del n) := by
  have hname := (State.find_some hf).2
  refine ⟨?_, h.once, fun x => ?_, h.fresh, fun n' f hm => ?_⟩
  · exact h.names.sublist ((eraseP_sublist).map _)
  · have := listed_del hf x
    exact le_trans (by omega) (h.held x)
  · obtain ⟨hne, a, ha, rfl, rfl⟩ := h.change_settled hm
    exact ⟨a, (mem_eraseP h.names hf a).mpr ⟨ha, hname.symm ▸ hne⟩, rfl, rfl⟩

theorem Books.entZap (h : Books s) (hr : Removable s e) (h0 : s.listed e.id = 0) : Books (s.entZap e) := by
  obtain ⟨htable, -, hnext, -, hsettled⟩ := entZap_frame hr
  refine ⟨htable ▸ h.names, fun x => (entZap_refs hr x).1.trans (h.once x), fun x => ?_, fun x hx => ?_, ?_⟩
  · rw [entZap_listed hr]
    by_cases hx : x = e.id
    · rw [hx, h0]
      exact Nat.zero_le _
    · rw [(entZap_refs hr x).2 hx]
      exact h.held x
  · have h1 := (entZap_refs hr x).1
    have h2 := h.fresh x (hnext ▸ hx)
    omega
  · rw [htable, hsettled]
    exact h.settled

theorem listed_addItem (x : ℕ) : (s.addItem e).listed x = s.listed x + (if x = e.id then 1 else 0) := by
  simp only [State.listed, State.addItem, State.change, map_cons, count_cons, beq_iff_eq, eq_comm (a := x)]
  omega

theorem Books.addItem (h : Books s) (hn : ∀ a ∈ s.table, a.name ≠ e.name)
    (hl : s.listed e.id + 1 ≤ s.refs e.id) : Books (s.addItem e) := by
  refine ⟨?_, h.once, fun x => ?_, h.fresh, fun n f hm => ?_⟩
  · refine nodup_cons.mpr ⟨fun hm => ?_, h.names⟩
    obtain ⟨a, ha, hne⟩ := mem_map.mp hm
    exact hn a ha hne
  · rw [listed_addItem]
    split_ifs with he
    · exact he ▸ hl
    · exact h.held x
  · obtain ⟨-, a, ha, rfl, rfl⟩ := h.change_settled hm
    exact ⟨a, mem_cons_of_mem e ha, rfl, rfl⟩

theorem map_entUpdate {β : Type*} (f : Dce → β) (l : List Dce) (e : Dce) (cfid : ℕ)
    (hf : ∀ a : Dce, f { a with fid := cfid } = f a) :
    (l.map fun a => if a.id = e.id then { a with fid := cfid } else a).map f = l.map f := by
  rw [map_map]
  refine map_congr_left fun a _ => ?_
  simp only [Function.comp_apply]
  split_ifs
  · exact hf a
  · rfl

theorem listed_entUpdate (cfid x : ℕ) : (s.entUpdate e cfid).listed x = s.listed x := by
  simp only [State.listed, State.entUpdate, State.change]
  rw [map_entUpdate Dce.id _ _ _ fun _ => rfl]

theorem Books.ids (h : Books s) : (s.table.map Dce.id).Nodup := by
  refine nodup_iff_count_le_one.mpr fun x => ?_
  have h1 := h.held x
  have h2 := h.once x
  unfold State.listed at h1
  omega

theorem Books.entUpdate (h : Books s) (cfid : ℕ) (he : e ∈ s.table) : Books (s.entUpdate e cfid) := by
  refine ⟨?_, h.once, fun x => ?_, h.fresh, fun n f hm => ?_⟩
  · simp only [State.entUpdate]
    rw [map_entUpdate Dce.name _ _ _ fun _ => rfl]
    exact h.names
  · rw [listed_entUpdate]
    exact h.held x
  · obtain ⟨hne, a, ha, rfl, rfl⟩ := h.change_settled hm
    have hid : a.id ≠ e.id := fun hid => hne (congrArg Dce.name (inj_on_of_nodup_map h.ids ha he hid))
    exact ⟨a, mem_map.mpr ⟨a, ha, if_neg hid⟩, rfl, rfl⟩

theorem Books.settle (h : Books s) (c : Call) (he : ∃ e ∈ s.table, e.name = c.name ∧ e.fid = c.cfid) :
    Books (s.settle c) := by
  refine { h with settled := fun n f hm => ?_ }
  rcases mem_cons.mp hm with heq | hm
  · obtain ⟨rfl, rfl⟩ := Prod.mk.inj heq
    exact he
  · exact h.settled n f hm

theorem Books.alloc (h : Books s) : Books { s with ents := s.next :: s.ents, next := s.next + 1 } ∧
    s.listed s.next = 0 ∧ State.refs { s with ents := s.next :: s.ents, next := s.next + 1 } s.next = 1 := by
  have hnext := h.fresh s.next le_rfl
  have hrefs (x : ℕ) : State.refs { s with ents := s.next :: s.ents, next := s.next + 1 } x =
      s.refs x + (if x = s.next then 1 else 0) := by
    simp only [State.refs, count_cons, beq_iff_eq, eq_comm (a := x)]
    omega
  have hl := h.held s.next
  refine ⟨⟨h.names, fun x => ?_, fun x => ?_, fun x hx => ?_, h.settled⟩, by omega, ?_⟩
  · rw [hrefs]
    split_ifs with hx
    · rw [hx, hnext]
    · exact h.once x
  · rw [hrefs]
    exact (h.held x).trans (Nat.le_add_right _ _)
  · have hx : s.next + 1 ≤ x := hx
    rw [hrefs, if_neg (by omega), h.fresh x (by omega)]
  · rw [hrefs, if_pos rfl, hnext]

structure Follows (s t : State) : Prop where
  next : s.next ≤ t.next
  listed : ∀ x, x < s.next → t.listed x ≤ s.listed x

theorem Inv.of_books (h : Inv s) (ha : t.crashed = false) (hb : Books t) (hf : Follows s t)
    (hc : ∀ c ∈ t.calls, c ∈ s.calls ∨ ∀ e, c.pc ≠ .zap e) : Inv t := by
  refine ⟨hb, ha, fun c hct e he => ?_⟩
  rcases hc c hct with hcs | hne
  · obtain ⟨h0, hlt⟩ := h.zaps c hcs e he
    have hle := hf.listed e.id hlt
    exact ⟨by omega, hlt.trans_le hf.next⟩
  · exact absurd he (hne e)

theorem Inv.goto {u : State} {pc : Pc} (h : Inv s) (ha : u.crashed = false) (hb : Books u)
    (hf : Follows s u) (hc : u.calls = s.calls) (hpc : ∀ e, pc ≠ .zap e) : Inv (u.goto i c pc) := by
  refine h.of_books ha { hb with } ⟨hf.next, hf.listed⟩ fun c' hc' => ?_
  rcases mem_or_eq_of_mem_set hc' with hc' | rfl
  · exact .inl (hc ▸ hc')
  · exact .inr hpc

theorem Inv.delete (h : Inv s) (hf : s.find n = some e) : Inv ((s.del n).goto i c (.zap e)) := by
  have hl := listed_del hf
  refine ⟨{ h.toBooks.del hf with }, h.alive, fun c' hc' a ha => ?_⟩
  rcases mem_or_eq_of_mem_set hc' with hc' | rfl
  · obtain ⟨h0, hlt⟩ := h.zaps c' hc' a ha
    have := hl a.id
    exact ⟨by show (s.del n).listed a.id = 0; omega, hlt⟩
  obtain rfl := Pc.zap.inj ha
  have h1 := hl e.id
  have h2 := h.held e.id
  have h3 := h.once e.id
  rw [if_pos rfl] at h1
  refine ⟨by show (s.del n).listed e.id = 0; omega, ?_⟩
  by_contra hge
  have := h.fresh e.id (Nat.not_lt.mp hge)
  omega

theorem Inv.update (h : Inv s) (hf : s.find c.name = some e) :
    Inv (((s.entUpdate e c.cfid).settle c).goto i c (.done none)) := by
  obtain ⟨he, hname⟩ := State.find_some hf
  have hset : ∃ a ∈ (s.entUpdate e c.cfid).table, a.name = c.name ∧ a.fid = c.cfid :=
    ⟨{ e with fid := c.cfid }, mem_map.mpr ⟨e, he, if_pos rfl⟩, hname, rfl⟩
  refine h.goto h.alive ((h.toBooks.entUpdate c.cfid he).settle c hset) ⟨le_rfl, fun x _ => ?_⟩ rfl nofun
  exact (listed_entUpdate c.cfid x).le

theorem Inv.collide (h : Inv s) (hf : s.find c.name = some e) (hfid : e.fid = c.cfid) :
    Inv ((s.settle c).goto i c (.done none)) := by
  obtain ⟨he, hname⟩ := State.find_some hf
  exact h.goto h.alive (h.toBooks.settle c ⟨e, he, hname, hfid⟩) ⟨le_rfl, fun _ _ => le_rfl⟩ rfl nofun

theorem search_inv (h : Inv s) (hi : s.calls[i]? = some c) (hok : Fine s (.search i)) : Inv (search s i c) := by
  obtain ⟨hins, hupd⟩ := hok c hi
  have stay (pc : Pc) (hpc : ∀ e, pc ≠ .zap e) : Inv (s.goto i c pc) :=
    h.goto h.alive h.toBooks ⟨le_rfl, fun _ _ => le_rfl⟩ rfl hpc
  unfold search
  rcases hf : s.find c.name with _ | e
  · cases hop : c.op with
    | clobber => exact stay _ nofun
    | delete => exact stay _ nofun
    | insert => exact stay _ nofun
    | peek => exact stay _ nofun
    | update => exact absurd hf (hupd hop)
  cases hop : c.op with
  | clobber => exact h.update hf
  | delete => exact h.delete hf
  | insert => exact h.collide hf (hins hop e hf)
  | peek => exact stay _ nofun
  | update => exact h.update hf

theorem insert_inv (h : Inv s) (hi : s.calls[i]? = some c) (hok : Fine s (.insert i))
    (hs : insert s i c = some t) : Inv t := by
  unfold insert at hs
  rcases hf : s.find c.name with _ | e
  · rw [hf] at hs
    split_ifs at hs
    cases hs
    obtain ⟨halloc, h0, h1⟩ := h.toBooks.alloc
    have hfree : ∀ a ∈ s.table, a.name ≠ c.name := by simpa [State.find] using hf
    have hadd := halloc.addItem (e := ⟨s.next, c.name, c.cfid, none⟩) hfree ?_
    swap
    · rw [h1]
      exact (congrArg (· + 1) h0).le
    have hset := hadd.settle c ⟨_, mem_cons_self, rfl, rfl⟩
    refine h.goto h.alive hset ⟨Nat.le_succ _, fun x hx => ?_⟩ rfl nofun
    refine (listed_addItem x).le.trans ?_
    rw [if_neg (Nat.ne_of_lt hx)]
    exact le_rfl
  · rw [hf] at hs
    cases hs
    exact h.collide hf (hok c hi e hf)

theorem Pc.of_dce {pc : Pc} (h : pc.dce = some e) : pc = .zap e := by
  cases pc with
  | zap => exact congrArg Pc.zap (Option.some.inj h)
  | search | insert | done rc => exact nomatch h

theorem zap_inv (h : Inv s) (hi : s.calls[i]? = some c) (hpc : c.pc = .zap e) (hr : Removable s e) :
    Inv ((s.entZap e).goto i c (.done none)) := by
  obtain ⟨h0, -⟩ := h.zaps c (mem_of_getElem? hi) e hpc
  obtain ⟨-, hcrashed, hnext, hcalls, -⟩ := entZap_frame hr
  exact h.goto (hcrashed.trans h.alive) (h.toBooks.entZap hr h0)
    ⟨hnext.ge, fun x _ => (entZap_listed hr x).le⟩ hcalls nofun

theorem map_id_dents (k : ℕ) : ∀ (next : ℕ) (l : List (String × ℕ)),
    (dents k next l).map Dce.id = range' next l.length
  | _, [] => rfl
  | next, (n, f) :: l => by
    simp only [dents, map_cons, map_id_dents k (next + 1) l, length_cons]
    rfl

theorem regStart_inv (h : Inv s) (l : List (String × ℕ)) : Inv (regStart s l) := by
  have hids := map_id_dents s.pages.length s.next l
  set ids := range' s.next l.length with hdef
  have hrefs (x : ℕ) : (regStart s l).refs x = s.refs x + ids.count x := by
    simp only [regStart, State.refs, map_append, sum_append, map_cons, map_nil, sum_singleton, hids]
    omega
  have hlisted (x : ℕ) : (regStart s l).listed x = s.listed x + ids.count x := by
    simp only [regStart, State.listed, map_append, sum_append, map_cons, map_nil, sum_singleton, hids]
    omega
  have hold {x : ℕ} (hx : x < s.next) : ids.count x = 0 :=
    count_eq_zero.mpr fun hm => absurd (mem_range'_1.mp hm).1 (Nat.not_le.mpr hx)
  have hone (x : ℕ) : ids.count x ≤ 1 := nodup_iff_count_le_one.mp (nodup_range' ..) x
  refine h.of_books h.alive ⟨h.names, fun x => ?_, fun x => ?_, fun x hx => ?_, h.settled⟩
    ⟨Nat.le_add_right _ _, fun x hx => ?_⟩ fun c hc => .inl hc
  · rw [hrefs]
    rcases Nat.lt_or_ge x s.next with hx | hx
    · rw [hold hx]
      exact h.once x
    · rw [h.fresh x hx, Nat.zero_add]
      exact hone x
  · rw [hrefs, hlisted]
    exact Nat.add_le_add_right (h.held x) _
  · have hx : s.next + l.length ≤ x := hx
    have hout : ids.count x = 0 := count_eq_zero.mpr fun hm => absurd (mem_range'_1.mp hm).2 (Nat.not_lt.mpr hx)
    rw [hrefs, hout, h.fresh x (by omega)]
  · rw [hlisted, hold hx, Nat.add_zero]

theorem Books.pop (h : Books s) (hk : s.pages[k]? = some p) (he : p.todo.head? = some e) :
    Books (s.setPage k { p with todo := p.todo.tail }) ∧ ∀ x,
      (s.setPage k { p with todo := p.todo.tail }).listed x + (if x = e.id then 1 else 0) = s.listed x ∧
      (s.setPage k { p with todo := p.todo.tail }).refs x = s.refs x := by
  have hcount (x : ℕ) : (s.setPage k { p with todo := p.todo.tail }).listed x + (if x = e.id then 1 else 0) =
      s.listed x := by
    have hset := listed_setPage (q := { p with todo := p.todo.tail }) hk x
    rw [eq_cons_of_mem_head? he] at hset
    simp only [tail_cons, map_cons, count_cons, beq_iff_eq, eq_comm (a := e.id)] at hset
    omega
  have hrefs (x : ℕ) : (s.setPage k { p with todo := p.todo.tail }).refs x = s.refs x := by
    simpa using refs_setPage (q := { p with todo := p.todo.tail }) hk x
  refine ⟨⟨h.names, fun x => ?_, fun x => ?_, fun x hx => ?_, h.settled⟩, fun x => ⟨hcount x, hrefs x⟩⟩
  · rw [hrefs]
    exact h.once x
  · rw [hrefs]
    have := hcount x
    exact le_trans (by omega) (h.held x)
  · rw [hrefs]
    exact h.fresh x hx

theorem removable_setPage {e2 : Dce} (hr : Removable s e2) (hk : s.pages[k]? = some p)
    (hl : q.loading = p.loading) (hg : q.gone = p.gone) : Removable (s.setPage k q) e2 := by
  intro j hj
  obtain ⟨p', hp', hpl, hpg⟩ := hr j hj
  by_cases hjk : j = k
  · subst hjk
    obtain rfl := Option.some.inj (hk.symm.trans hp')
    refine ⟨q, ?_, hl.trans hpl, hg.trans hpg⟩
    exact List.getElem?_set_self (List.getElem?_eq_some_iff.mp hk).1
  · refine ⟨p', ?_, hpl, hpg⟩
    exact (getElem?_set_ne (Ne.symm hjk)).trans hp'

section
variable (h : Inv s) (hk : s.pages[k]? = some p)
include h hk

theorem regEnt_inv (he : p.todo.head? = some e)
    (hok : ∀ e2 ∈ s.find e.name, Removable s e2) (hs : regEnt s k p e = some t) : Inv t := by
  obtain ⟨hb, hx⟩ := h.toBooks.pop hk he
  unfold regEnt at hs
  simp only at hs
  set s1 := s.setPage k { p with todo := p.todo.tail } with hs1
  have he1 := hx e.id
  have hheld := h.held e.id
  rw [if_pos rfl] at he1
  have hfind : s1.find e.name = s.find e.name := rfl
  rcases hf : s1.find e.name with _ | e2
  · rw [hf] at hs
    cases hs
    have hfree : ∀ a ∈ s1.table, a.name ≠ e.name := by simpa [State.find] using hf
    refine h.of_books h.alive (hb.addItem hfree (by omega)) ⟨le_rfl, fun x _ => ?_⟩ fun c hc => .inl hc
    rw [listed_addItem]
    exact (hx x).1.le
  rw [hf] at hs
  split_ifs at hs
  cases hs
  have hr : Removable (s1.del e.name) e2 := removable_setPage (hok e2 (hfind ▸ hf)) hk rfl rfl
  have hdel := hb.del hf
  have hl := listed_del hf
  -- the entry that is replaced is another one and listed no more
  have hone := h.once e2.id
  have hheld2 := h.held e2.id
  have h2 := hx e2.id
  have hl2 := hl e2.id
  rw [if_pos rfl] at hl2
  have hne : e2.id ≠ e.id := by
    intro heq
    rw [if_pos heq] at h2
    omega
  have h0 : (s1.del e.name).listed e2.id = 0 := by omega
  obtain ⟨htable, hcrashed, hnext, hcalls, -⟩ := entZap_frame hr
  have hlist (x : ℕ) : ((s1.del e.name).entZap e2).listed x ≤ s1.listed x := by
    have := hl x
    rw [entZap_listed hr]
    omega
  have hadd : Books (((s1.del e.name).entZap e2).addItem e) := by
    refine (hdel.entZap hr h0).addItem (fun a ha => ?_) ?_
    · rw [htable] at ha
      have := ((mem_eraseP hb.names hf a).mp ha).2
      rwa [(State.find_some hf).2] at this
    · rw [(entZap_refs hr e.id).2 hne.symm]
      have := hlist e.id
      have hrefs : (s1.del e.name).refs e.id = s1.refs e.id := rfl
      omega
  refine h.of_books (hcrashed.trans h.alive) hadd ⟨hnext.ge, fun x _ => ?_⟩ fun c hc => .inl (hcalls ▸ hc)
  rw [listed_addItem]
  have := hlist x
  have := (hx x).1
  omega

theorem freeEnt_inv (hx : p.ents.head? = some x) (hok : x ∈ s.table.map Dce.id) : Inv (freeEnt s k p x) := by
  obtain ⟨e, hf⟩ : ∃ e, s.table.find? (·.id = x) = some e := by
    obtain ⟨a, ha, hax⟩ := mem_map.mp hok
    exact Option.isSome_iff_exists.mp (find?_isSome.mpr ⟨a, ha, by simpa using hax⟩)
  obtain rfl : e.id = x := by simpa using find?_some hf
  have hlisted (y : ℕ) : (freeEnt s k p e.id).listed y + (if y = e.id then 1 else 0) = s.listed y := by
    have h1 := count_eraseP hf y
    have h2 := listed_setPage (q := { p with ents := p.ents.tail }) hk y
    simp only [freeEnt, hf, State.listed, State.setPage, State.change] at h1 h2 ⊢
    omega
  have hrefs (y : ℕ) : (freeEnt s k p e.id).refs y + (if y = e.id then 1 else 0) = s.refs y := by
    have hset := refs_setPage (q := { p with ents := p.ents.tail }) hk y
    rw [eq_cons_of_mem_head? hx] at hset
    simp only [tail_cons, count_cons, beq_iff_eq, eq_comm (a := e.id)] at hset
    simp only [freeEnt, hf, State.refs, State.setPage, State.change] at hset ⊢
    omega
  have hframe : freeEnt s k p e.id = { (s.change e.name).setPage k { p with ents := p.ents.tail } with
      table := s.table.eraseP (·.id = e.id) } := by simp only [freeEnt, hf]
  have hbooks : Books (freeEnt s k p e.id) := by
    refine ⟨?_, fun y => ?_, fun y => ?_, fun y hy => ?_, fun n f hm => ?_⟩
    · rw [hframe]
      exact h.names.sublist (eraseP_sublist.map _)
    · have := hrefs y
      exact le_trans (by omega) (h.once y)
    · have h1 := hlisted y
      have h2 := hrefs y
      have h3 := h.held y
      omega
    · have h1 := hrefs y
      rw [hframe] at hy
      have h2 := h.fresh y hy
      omega
    · rw [hframe] at hm ⊢
      obtain ⟨hne, a, ha, rfl, rfl⟩ := h.toBooks.change_settled hm
      exact ⟨a, (mem_eraseP h.names hf a).mpr ⟨ha, hne⟩, rfl, rfl⟩
  refine h.of_books ?_ hbooks ⟨?_, fun y _ => ?_⟩ fun c hc => .inl ?_
  · rw [hframe]
    exact h.alive
  · rw [hframe]
    exact le_rfl
  · have := hlisted y
    omega
  · rw [hframe] at hc
    exact hc

theorem Inv.setFlag (he : q.ents = p.ents) (ht : q.todo = p.todo) : Inv (s.setPage k q) := by
  have hlisted (x : ℕ) : (s.setPage k q).listed x = s.listed x := by
    have := listed_setPage (q := q) hk x
    rw [ht] at this
    omega
  have hrefs (x : ℕ) : (s.setPage k q).refs x = s.refs x := by
    have := refs_setPage (q := q) hk x
    rw [he] at this
    omega
  refine h.of_books h.alive ⟨h.names, fun x => ?_, fun x => ?_, fun x hx => ?_, h.settled⟩
    ⟨le_rfl, fun x _ => (hlisted x).le⟩ fun c hc => .inl hc
  · rw [hrefs]
    exact h.once x
  · rw [hrefs, hlisted]
    exact h.held x
  · rw [hrefs]
    exact h.fresh x hx

end

theorem step_inv {o : Op} (h : Inv s) (hok : Fine s o) (hs : step s o = some t) : Inv t := by
  unfold step at hs
  rw [if_neg (by simp [h.alive])] at hs
  cases o with
  | call =>
    cases hs
    refine h.of_books h.alive { h.toBooks with } ⟨le_rfl, fun _ _ => le_rfl⟩ fun c hc => ?_
    rcases mem_append.mp hc with hc | hc
    · exact .inl hc
    · rw [mem_singleton.mp hc]
      exact .inr nofun
  | search =>
    obtain ⟨c, hc, -, rfl⟩ := bind_guard hs
    exact search_inv h hc hok
  | insert =>
    obtain ⟨c, hc, hs⟩ := bind_eq_some_iff.mp hs
    split_ifs at hs
    exact insert_inv h hc hok hs
  | zap =>
    obtain ⟨c, hc, hs⟩ := bind_eq_some_iff.mp hs
    obtain ⟨e, he, -, rfl⟩ := bind_guard hs
    exact zap_inv h hc (Pc.of_dce he) (hok c hc e he)
  | regStart l =>
    simp only at hs
    split_ifs at hs
    cases hs
    exact regStart_inv h l
  | regEnt =>
    obtain ⟨p, hp, hs⟩ := bind_eq_some_iff.mp hs
    obtain ⟨e, he, hs⟩ := bind_eq_some_iff.mp hs
    exact regEnt_inv h hp he (hok p hp e he) hs
  | regEnd =>
    obtain ⟨p, hp, -, rfl⟩ := bind_guard hs
    exact h.setFlag hp rfl rfl
  | freeStart =>
    obtain ⟨p, hp, -, rfl⟩ := bind_guard hs
    exact h.of_books h.alive { h.toBooks with } ⟨le_rfl, fun _ _ => le_rfl⟩ fun c hc => .inl hc
  | freeEnt =>
    obtain ⟨k, hk, hs⟩ := bind_eq_some_iff.mp hs
    obtain ⟨p, hp, hs⟩ := bind_eq_some_iff.mp hs
    obtain ⟨x, hx, hs⟩ := bind_eq_some_iff.mp hs
    cases hs
    exact freeEnt_inv h hp hx (hok k hk p hp x hx)
  | freeEnd =>
    obtain ⟨k, -, hs⟩ := bind_eq_some_iff.mp hs
    obtain ⟨p, hp, -, rfl⟩ := bind_guard hs
    have hinv := h.setFlag (q := { p with gone := true }) hp rfl rfl
    exact hinv.of_books hinv.alive { hinv.toBooks with } ⟨le_rfl, fun _ _ => le_rfl⟩ fun c hc => .inl hc

theorem inv_init : Inv State.init :=
  ⟨⟨nodup_nil, fun _ => Nat.zero_le _, fun _ => le_rfl, fun _ _ => rfl, nofun⟩, rfl, nofun⟩

/-- **The name cache is consistent**, if all steps are `Fine`. -/
theorem consistent_run (os : List Op) (t : State) (hok : Admits step Fine State.init os)
    (h : run step State.init os = some t) : Consistent t :=
  (run_invariant step_inv inv_init hok h).consistent

def usual : List Op :=
  [.call .insert "a" 5, .search 0, .insert 0, .regStart [("a", 5), ("b", 6)], .regEnt 0, .regEnt 0, .regEnd 0,
    .call .clobber "a" 7, .search 1, .call .peek "a" 0, .search 2, .call .delete "b" 0, .search 3, .zap 3,
    .call .clobber "c" 8, .search 4, .insert 4, .freeStart 0, .freeEnt, .freeEnd]

theorem consistent_usual : ∃ s ∈ run step State.init usual, Consistent s ∧ s.lookup "c" = some 8 := by
  have h : ∃ s ∈ run step State.init usual, s.lookup "c" = some 8 := by decide +kernel
  obtain ⟨s, hs, hc⟩ := h
  exact ⟨s, hs, consistent_run usual s (by decide +kernel) hs, hc⟩

def freedUnder : List Op :=
  [.regStart [("a", 5)], .regEnt 0, .regEnd 0, .call .delete "a" 0, .search 0, .freeStart 0, .freeEnt]

def notAttached : List Op :=
  [.regStart [("a", 5), ("b", 6)], .regEnt 0, .call .delete "a" 0, .search 0, .zap 0]

def raced : List Op :=
  [.call .clobber "a" 7, .search 0, .call .insert "a" 5, .search 1, .insert 1, .insert 0]

/-- A freed page misses its entry; an entry without an array is zapped; a replaced name is looked up. -/
theorem inconsistent : (∃ s ∈ run step State.init freedUnder, ¬Consistent s) ∧
    (∃ s ∈ run step State.init notAttached, ¬Consistent s) ∧
    ∃ s ∈ run step State.init raced, ("a", 7) ∈ s.settled ∧ s.lookup "a" = some 5 ∧ ¬Consistent s := by
  refine ⟨?_, ?_, ?_⟩
  · have h : ∃ s ∈ run step State.init freedUnder, s.crashed = true := by decide +kernel
    obtain ⟨s, hs, hc⟩ := h
    exact ⟨s, hs, fun h => Bool.noConfusion (h.alive.symm.trans hc)⟩
  · have h : ∃ s ∈ run step State.init notAttached, s.crashed = true := by decide +kernel
    obtain ⟨s, hs, hc⟩ := h
    exact ⟨s, hs, fun h => Bool.noConfusion (h.alive.symm.trans hc)⟩
  · have h : ∃ s ∈ run step State.init raced, ("a", 7) ∈ s.settled ∧ s.lookup "a" = some 5 := by
      decide +kernel
    obtain ⟨s, hs, hm, hl⟩ := h
    refine ⟨s, hs, hm, hl, fun h => ?_⟩
    have h7 := h.settled "a" 7 hm
    rw [hl] at h7
    exact absurd h7 (by decide)

end Dircache.Namecache
end Slash2
