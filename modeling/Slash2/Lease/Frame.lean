/-
# What a lease operation does and leaves alone

`mdsBmapBmlAdd_cases`, `mdsBmapBmlChwrmode_cases`, `mdsBmapBmlRelease_cases` and
`mdsBmapGetbml_cases` say once which ways an operation can take; later proofs go
through these cases.
-/
import Slash2.Lease.Bml

namespace Slash2.Lease

open Lib List Option Function

/-! ### The ways of an operation -/

variable {b b' : Bmap} {l : ℕ} {rc : ℤ} {e : Env} {m m' m'' : Bml} {d : Dupls} {rw' : Rw} {want : Bool} {np : Nidpid}

theorem mdsBmapBmlAdd_cases (h : mdsBmapBmlAdd e l b = some (b', rc)) :
    (rc ≠ 0 ∧ mdsBmapDirectio b (b.bml l).rw (b.bml l).dio (b.bml l).cnp = some (b', rc)) ∨
    ∃ b₀ rc₀ d b₁, mdsBmapDirectio b (b.bml l).rw (b.bml l).dio (b.bml l).cnp = some (b₀, rc₀) ∧
      (rc₀ = 0 ∨ (b.bml l).recover) ∧ mdsBmapDuplsFind b₀ (b.bml l).cnp = some d ∧ attach l d b₀ = some b₁ ∧
      ((b.bml l).write ∧ addAssign e l d (countWriter d b₁) = some (b', rc) ∨
       (b.bml l).write = false ∧ rc = rc₀ ∧ b' = countReader d (b₁.modify l (Bml.numbered e.seq))) := by
  obtain ⟨-, h⟩ := ite_none_left_eq_some.mp h
  obtain ⟨⟨b₀, rc₀⟩, hdio, h⟩ := bind_eq_some_iff.mp h
  split at h
  case isTrue hwait =>
    cases h
    exact .inl ⟨hwait.1, hdio⟩
  case isFalse hgo =>
    obtain ⟨d, hd, h⟩ := bind_eq_some_iff.mp h
    obtain ⟨b₁, hatt, h⟩ := bind_eq_some_iff.mp h
    have hgo' : rc₀ = 0 ∨ (b.bml l).recover := by
      by_cases hrc : rc₀ = 0
      · exact .inl hrc
      · exact .inr (by simpa [hrc] using hgo)
    refine .inr ⟨b₀, rc₀, d, b₁, hdio, hgo', hd, hatt, ?_⟩
    cases hw : (b.bml l).write
    · simp only [Bml.rw, hw, Bool.false_eq_true, if_false] at h
      cases h
      exact .inr ⟨rfl, rfl, rfl⟩
    · simp only [Bml.rw, hw, if_true] at h
      exact .inl ⟨rfl, h⟩

theorem mdsBmapBmlChwrmode_cases {rc : Option ℤ} (h : mdsBmapBmlChwrmode e l b = some (b', rc)) :
    ((b.bml l).write ∧ b' = b ∧ rc = none) ∨
    (b.bml l).write = false ∧ ∃ b₀ rc₀, mdsBmapDirectio b .write false (b.bml l).cnp =
        some (b₀, rc₀) ∧ ((rc₀ ≠ 0 ∧ b' = b₀ ∧ rc = some rc₀) ∨
      rc₀ = 0 ∧ ∃ b₁ rc₁, (if b₀.wrIon.isSome then mdsBmapIosUpdate e l b₀
          else mdsBmapIosAssign e l b₀) = some (b₁, rc₁) ∧ ((rc₁ ≠ 0 ∧ b' = b₁.modify l Bml.refused ∧ rc = some rc₁) ∨
         (rc₁ = 0 ∧ rc = some 0 ∧ ∃ d, mdsBmapDuplsFind b₁ (b.bml l).cnp = some d ∧
           b' = (countUpgrade d b₁).modify l Bml.turned))) := by
  unfold mdsBmapBmlChwrmode at h
  dsimp only at h
  split at h
  case isTrue hw =>
    cases h
    exact .inl ⟨hw, rfl, rfl⟩
  case isFalse hw =>
    obtain ⟨⟨b₀, rc₀⟩, hdio, h⟩ := bind_eq_some_iff.mp h
    refine .inr ⟨by simpa using hw, b₀, rc₀, hdio, ?_⟩
    split at h
    case isTrue hrc =>
      cases h
      exact .inl ⟨hrc, rfl, rfl⟩
    case isFalse hrc =>
      obtain ⟨⟨b₁, rc₁⟩, hios, h⟩ := bind_eq_some_iff.mp h
      refine .inr ⟨not_not.mp hrc, b₁, rc₁, hios, ?_⟩
      split at h
      case isTrue hrc₁ =>
        cases h
        exact .inl ⟨hrc₁, rfl, rfl⟩
      case isFalse hrc₁ =>
        obtain ⟨-, h⟩ := ite_none_left_eq_some.mp h
        obtain ⟨d, hd, h⟩ := bind_eq_some_iff.mp h
        obtain ⟨-, ⟨⟩⟩ := ite_none_left_eq_some.mp h
        exact .inr ⟨not_not.mp hrc₁, rfl, d, hd, rfl⟩

theorem mdsBmapBmlRelease_cases (h : mdsBmapBmlRelease l b = some b') :
    (((b.bml l).refcnt > 1 ∨ (b.bml l).freeing = false) ∧ (b.bml l).refcnt > 0 ∧ b' = b.modify l Bml.unref) ∨
    ((b.bml l).freeing ∧ (b.bml l).bmi = false ∧ b' = pool l b) ∨
    ((b.bml l).freeing ∧ (b.bml l).refcnt ≤ 1 ∧ (b.bml l).bmi ∧ ∃ b₁ b₂,
      mdsBmapBmlDelLocked l b = some b₁ ∧ (if (b.bml l).write ∧ (clearDio (detach l b₁)).writers = 0 then
        releaseAssign (b.bml l) (clearDio (detach l b₁)) else some (clearDio (detach l b₁))) =
          some b₂ ∧ b' = pool l b₂) := by
  unfold mdsBmapBmlRelease at h
  dsimp only at h
  split at h
  case isTrue hkeep =>
    obtain ⟨hpos, ⟨⟩⟩ := ite_none_right_eq_some.mp h
    exact .inl ⟨by simpa using hkeep, hpos, rfl⟩
  case isFalse hfree =>
    have hfreeing : (b.bml l).freeing := not_not.mp (not_or.mp hfree).2
    split at h
    case isTrue hbmi =>
      cases h
      exact .inr (.inl ⟨hfreeing, by simpa using hbmi, rfl⟩)
    case isFalse hbmi =>
      obtain ⟨b₁, hdel, h⟩ := bind_eq_some_iff.mp h
      obtain ⟨b₂, hrel, rfl⟩ := map_eq_some_iff.mp h
      exact .inr (.inr ⟨hfreeing, Int.not_lt.mp (not_or.mp hfree).1, not_not.mp hbmi, b₁, b₂, hdel, hrel, rfl⟩)

theorem mdsBmapGetbml_cases {seq : ℕ} {cnp : Nidpid} {r : Option ℕ} (h : mdsBmapGetbml b seq cnp = some (b', r)) :
    (b' = b ∧ r = none) ∨ ∃ l ls, everyLease b (b.leases.filter fun l => (b.bml l).cnp = cnp) =
      some ls ∧ l ∈ ls ∧ (b.bml l).seq = seq ∧ b' = b.modify l Bml.ref ∧ r = some l := by
  obtain ⟨ls, hls, h⟩ := map_eq_some_iff.mp h
  split at h
  · cases h
    exact .inl ⟨rfl, rfl⟩
  next l hl =>
  split at h <;> cases h
  · exact .inl ⟨rfl, rfl⟩
  · refine .inr ⟨l, ls, hls, mem_of_find?_eq_some hl, ?_, rfl, rfl⟩
    simpa using find?_some hl

/-! ### Other leases -/

/-- The same lease, up to its place on a chain and `BML_DIOCB`. -/
def Near (m m' : Bml) : Prop :=
  ∃ g c d, m' = { m with chained := g, chain := c, diocb := d } ∧ (g → m.chained)

theorem Near.refl (m : Bml) : Near m m := ⟨m.chained, m.chain, m.diocb, rfl, id⟩

theorem Near.trans (h : Near m m') (h' : Near m' m'') : Near m m'' := by
  obtain ⟨g, c, d, rfl, hg⟩ := h
  obtain ⟨g', c', d', rfl, hg'⟩ := h'
  exact ⟨g', c', d', rfl, fun h => hg (hg' h)⟩

/-- Only `l` has changed in more than its place. -/
structure Elsewhere (l : ℕ) (b b' : Bmap) : Prop where
  next : b'.next = b.next
  near : ∀ x, x ≠ l → Near (b.bml x) (b'.bml x)

theorem Elsewhere.refl (l : ℕ) (b : Bmap) : Elsewhere l b b := ⟨rfl, fun _ _ => Near.refl _⟩

theorem Elsewhere.trans {b'' : Bmap} (h : Elsewhere l b b') (h' : Elsewhere l b' b'') : Elsewhere l b b'' :=
  ⟨h'.next.trans h.next, fun x hx => (h.near x hx).trans (h'.near x hx)⟩

theorem Elsewhere.of_bml (hn : b'.next = b.next) (hb : b'.bml = b.bml) :
    Elsewhere l b b' := ⟨hn, fun _ _ => by rw [hb]; exact Near.refl _⟩

theorem Elsewhere.of_other (hn : b'.next = b.next) (hb : ∀ x, x ≠ l → b'.bml x = b.bml x) : Elsewhere l b b' :=
  ⟨hn, fun x hx => by rw [hb x hx]; exact .refl _⟩

theorem elsewhere_modify (l : ℕ) (b : Bmap) (f : Bml → Bml) : Elsewhere l b (b.modify l f) :=
  Elsewhere.of_other rfl fun _ hx => update_of_ne hx ..

theorem elsewhere_near (l k : ℕ) (b : Bmap) (f : Bml → Bml) (hf : Near (b.bml k) (f (b.bml k))) :
    Elsewhere l b (b.modify k f) := by
  refine ⟨rfl, fun x _ => ?_⟩
  by_cases hxk : x = k
  · subst hxk
    rw [modify_bml]
    exact hf
  · exact (elsewhere_modify k b f).near x hxk

theorem elsewhere_setChain (l k c : ℕ) (b : Bmap) : Elsewhere l b (b.setChain k c) :=
  elsewhere_near l k b _ ⟨_, c, _, rfl, id⟩

/-- Only what `mds_bmap_directio` sets is different. -/
def Marked (b b' : Bmap) : Prop :=
  ∃ (g : ℕ → Bool) (p q : Bool) (cbs : List (Nidpid × ℕ)), b' = { b with
    bml := fun x => { b.bml x with diocb := g x }, dio := p, diocb := q, cbs := cbs }

theorem Marked.refl (b : Bmap) : Marked b b := ⟨fun x => (b.bml x).diocb, _, _, _, rfl⟩

theorem Marked.trans {b'' : Bmap} (h : Marked b b') (h' : Marked b' b'') : Marked b b'' := by
  obtain ⟨g, p, q, cbs, rfl⟩ := h
  obtain ⟨g', p', q', cbs', rfl⟩ := h'
  exact ⟨g', p', q', cbs', rfl⟩

theorem diocb_marked (b : Bmap) (k : ℕ) (cbs : List (Nidpid × ℕ)) :
    Marked b { b.modify k fun m => { m with diocb := true } with diocb := true, cbs := cbs } := by
  refine ⟨update (fun x => (b.bml x).diocb) k true, b.dio, true, cbs, ?_⟩
  have hbml : (b.modify k fun m => { m with diocb := true }).bml =
      fun x => { b.bml x with diocb := update (fun x => (b.bml x).diocb) k true x } := by
    funext x
    by_cases hx : x = k
    · subst hx
      rw [modify_bml, update_self]
    · rw [update_of_ne hx]
      exact update_of_ne hx ..
  rw [← hbml]
  rfl

theorem directioBody_marked (np : Nidpid) (x : Bmap × Bool × ℤ) (k : ℕ) : Marked x.1 (directioBody np x k).1 := by
  unfold directioBody
  dsimp only
  split
  · exact .refl _
  split
  · exact .refl _
  split
  · exact .refl _
  · exact diocb_marked _ _ _

theorem mdsBmapDirectio_marked (h : mdsBmapDirectio b rw' want np = some (b', rc)) : Marked b b' := by
  unfold mdsBmapDirectio at h
  split at h
  · cases h
    exact .refl _
  obtain ⟨x, hx, h⟩ := map_eq_some_iff.mp h
  have hloop : Marked b x.1 := by
    split at hx
    · obtain ⟨ks, -, rfl⟩ := map_eq_some_iff.mp hx
      exact foldlRecOn ks _ (motive := fun x => Marked b x.1) (b := (b, false, 0)) (.refl b) fun x hx k _ =>
        hx.trans (directioBody_marked np x k)
    · cases hx
      exact .refl _
  split at h <;> cases h
  · exact hloop.trans ⟨_, true, false, _, rfl⟩
  · exact hloop

theorem mdsBmapDirectio_near (h : mdsBmapDirectio b rw' want np = some (b', rc)) (l : ℕ) : Elsewhere l b b' := by
  obtain ⟨g, p, q, cbs, rfl⟩ := mdsBmapDirectio_marked h
  exact ⟨rfl, fun x _ => ⟨_, _, g x, rfl, id⟩⟩

theorem attach_eq (h : attach l d b = some b') : ∃ bml leases, b' = { b with bml := bml, leases := leases } := by
  unfold attach at h
  split at h
  · obtain ⟨tmp, -, h⟩ := bind_eq_some_iff.mp h
    obtain ⟨-, ⟨⟩⟩ := ite_none_left_eq_some.mp h
    exact ⟨_, _, rfl⟩
  · cases h
    exact ⟨_, _, rfl⟩

theorem attach_elsewhere (h : attach l d b = some b') : Elsewhere l b b' := by
  unfold attach at h
  split at h
  · obtain ⟨tmp, -, h⟩ := bind_eq_some_iff.mp h
    obtain ⟨-, ⟨⟩⟩ := ite_none_left_eq_some.mp h
    exact (elsewhere_setChain l tmp l b).trans (elsewhere_modify l _ _)
  · cases h
    exact Elsewhere.of_other rfl fun _ hx => update_of_ne hx ..

/-- Only the counts of writers and readers differ. -/
def Counted (b b' : Bmap) : Prop := ∃ w r, b' = { b with writers := w, readers := r }

theorem countWriter_counted (d : Dupls) (b : Bmap) : Counted b (countWriter d b) := by
  unfold countWriter
  split <;> exact ⟨_, _, rfl⟩

theorem countReader_counted (d : Dupls) (b : Bmap) : Counted b (countReader d b) := by
  unfold countReader
  split <;> exact ⟨_, _, rfl⟩

theorem countUpgrade_counted (d : Dupls) (b : Bmap) : Counted b (countUpgrade d b) := by
  unfold countUpgrade
  split <;> exact ⟨_, _, rfl⟩

theorem uncount_counted (h : uncount m d b = some b') : Counted b b' := by
  unfold uncount at h
  split_ifs at h <;> cases h <;> exact ⟨_, _, rfl⟩

theorem Counted.bml (h : Counted b b') : b'.bml = b.bml := by
  obtain ⟨w, r, rfl⟩ := h
  rfl

theorem unlink_elsewhere {tail o n : ℕ} (h : unlink l tail o n b = some b') : Elsewhere l b b' := by
  unfold unlink at h
  dsimp only at h
  split_ifs at h <;> cases h
  · exact elsewhere_setChain l tail _ b
  · refine Elsewhere.trans ?_ (elsewhere_setChain l tail _ _)
    have hhead := elsewhere_near l (b.bml l).chain b (fun c => { c with chained := false })
      ⟨false, _, _, rfl, fun h => by cases h⟩
    exact ⟨rfl, hhead.near⟩
  · exact Elsewhere.of_bml rfl rfl

section
variable (h : mdsBmapBmlDelLocked l b = some b')
include h

theorem mdsBmapBmlDelLocked_cases :
    ∃ d tail o b₁, unlink l tail o (d.wlease + d.rlease) b = some b₁ ∧ uncount (b.bml l) d b₁ = some b' := by
  obtain ⟨d, -, h⟩ := bind_eq_some_iff.mp h
  obtain ⟨o, -, h⟩ := bind_eq_some_iff.mp h
  obtain ⟨-, h⟩ := ite_none_left_eq_some.mp h
  obtain ⟨tail, -, h⟩ := bind_eq_some_iff.mp h
  obtain ⟨b₁, hun, h⟩ := bind_eq_some_iff.mp h
  exact ⟨d, tail, o, b₁, hun, h⟩

theorem mdsBmapBmlDelLocked_eq : ∃ bml leases w r,
      b' = { b with bml := bml, leases := leases, writers := w, readers := r } := by
  obtain ⟨d, tail, o, b₁, hun, h⟩ := mdsBmapBmlDelLocked_cases h
  have hb₁ : ∃ bml leases, b₁ = { b with bml := bml, leases := leases } := by
    unfold unlink at hun
    dsimp only at hun
    split_ifs at hun <;> cases hun <;> exact ⟨_, _, rfl⟩
  obtain ⟨bml, leases, rfl⟩ := hb₁
  obtain ⟨w, r, rfl⟩ := uncount_counted h
  exact ⟨_, _, _, _, rfl⟩

theorem mdsBmapBmlDelLocked_elsewhere : Elsewhere l b b' := by
  obtain ⟨d, tail, o, b₁, hun, h⟩ := mdsBmapBmlDelLocked_cases h
  obtain ⟨w, r, rfl⟩ := uncount_counted h
  exact (unlink_elsewhere hun).trans (.of_bml rfl rfl)

end

theorem clearDio_elsewhere (l : ℕ) (b : Bmap) : Elsewhere l b (clearDio b) := by
  unfold clearDio
  split <;> exact Elsewhere.of_bml rfl rfl

theorem releaseAssign_eq (h : releaseAssign m b = some b') : ∃ a w, b' = { b with assign := a, wrIon := w } := by
  unfold releaseAssign at h
  split_ifs at h
  · exact ⟨_, _, (some.inj h).symm⟩
  · exact ⟨_, _, (some.inj h).symm⟩
  · exact ⟨_, none, (some.inj h).symm⟩
  split at h
  · cases h
  · obtain ⟨-, ⟨⟩⟩ := ite_none_left_eq_some.mp h
    exact ⟨none, none, rfl⟩

theorem releaseAssign_elsewhere (h : releaseAssign m b = some b') : Elsewhere l b b' := by
  obtain ⟨a, w, rfl⟩ := releaseAssign_eq h
  exact Elsewhere.of_bml rfl rfl

theorem mdsBmapBmlRelease_elsewhere (h : mdsBmapBmlRelease l b = some b') : Elsewhere l b b' := by
  rcases mdsBmapBmlRelease_cases h with
    ⟨-, -, rfl⟩ | ⟨-, -, rfl⟩ | ⟨-, -, -, b₁, b₂, hdel, hrel, rfl⟩
  · exact elsewhere_modify l b _
  · exact elsewhere_modify l b _
  have hclear : Elsewhere l b (clearDio (detach l b₁)) :=
    ((mdsBmapBmlDelLocked_elsewhere hdel).trans (elsewhere_modify l b₁ _)).trans (clearDio_elsewhere l _)
  refine Elsewhere.trans ?_ (elsewhere_modify l b₂ _)
  split at hrel
  · exact hclear.trans (releaseAssign_elsewhere hrel)
  · cases hrel
    exact hclear

/-! ### The lease itself -/

/-- The same lease, up to its chain, `BML_DIOCB` and attachment. -/
def Placed (m m' : Bml) : Prop :=
  ∃ g a c d, m' = { m with chained := g, bmi := a, chain := c, diocb := d }

theorem Placed.trans (h : Placed m m') (h' : Placed m' m'') : Placed m m'' := by
  obtain ⟨g, a, c, d, rfl⟩ := h
  obtain ⟨g', a', c', d', rfl⟩ := h'
  exact ⟨g', a', c', d', rfl⟩

theorem Near.placed (h : Near m m') : Placed m m' := by
  obtain ⟨g, c, d, rfl, -⟩ := h
  exact ⟨g, m.bmi, c, d, rfl⟩

theorem mdsBmapDirectio_placed (h : mdsBmapDirectio b rw' want np = some (b', rc)) (x : ℕ) :
    Placed (b.bml x) (b'.bml x) := by
  obtain ⟨g, p, q, cbs, rfl⟩ := mdsBmapDirectio_marked h
  exact ⟨_, _, _, g x, rfl⟩

theorem attach_placed (h : attach l d b = some b') : Placed (b.bml l) (b'.bml l) := by
  unfold attach at h
  split at h
  · next hd _ =>
    obtain ⟨tmp, -, h⟩ := bind_eq_some_iff.mp h
    obtain ⟨-, ⟨⟩⟩ := ite_none_left_eq_some.mp h
    have hchain : Placed (b.bml l) ((b.setChain tmp l).bml l) :=
      ((elsewhere_setChain (l + 1) tmp l b).near l (Nat.ne_of_lt (Nat.lt_succ_self l))).placed
    exact hchain.trans ⟨true, true, hd, ((b.setChain tmp l).bml l).diocb, update_self ..⟩
  · cases h
    exact ⟨_, true, l, _, update_self ..⟩

theorem placed_of_attach {b₀ b₁ : Bmap} (hdio : mdsBmapDirectio b rw' want np = some (b₀, rc))
    (hatt : attach l d b₀ = some b₁) : Placed (b.bml l) (b₁.bml l) :=
  (mdsBmapDirectio_placed hdio l).trans (attach_placed hatt)

def Kin (m m' : Bml) : Prop :=
  ∃ g a c d i s f, m' = { m with chained := g, bmi := a, chain := c, diocb := d, ios := i,
                                 seq := s, assfail := f }

theorem Placed.kin (h : Placed m m') : Kin m m' := by
  obtain ⟨g, a, c, d, rfl⟩ := h
  exact ⟨g, a, c, d, m.ios, m.seq, m.assfail, rfl⟩

theorem Kin.trans (h : Kin m m') (h' : Kin m' m'') : Kin m m'' := by
  obtain ⟨g, a, c, d, i, s, f, rfl⟩ := h
  obtain ⟨g', a', c', d', i', s', f', rfl⟩ := h'
  exact ⟨g', a', c', d', i', s', f', rfl⟩

/-- Only `l` has changed in more than its place, and it in its server and number. -/
structure Moves (l : ℕ) (b b' : Bmap) : Prop extends Elsewhere l b b' where
  kin : Kin (b.bml l) (b'.bml l)

theorem Moves.trans {b'' : Bmap} (h : Moves l b b') (h' : Moves l b' b'') : Moves l b b'' :=
  ⟨h.toElsewhere.trans h'.toElsewhere, h.kin.trans h'.kin⟩

theorem Moves.put (hn : b'.next = b.next) (hb : b'.bml = update b.bml l m) (hm : Kin (b.bml l) m) : Moves l b b' :=
  ⟨.of_other hn fun x hx => by rw [hb, update_of_ne hx], by rwa [hb, update_self]⟩

theorem Moves.of_bml (hn : b'.next = b.next) (hb : b'.bml = b.bml) : Moves l b b' :=
  ⟨.of_bml hn hb, _, _, _, _, _, _, _, congrFun hb l⟩

/-- Only the assignment is different, and the server and number of `l`. -/
def Reassigned (l : ℕ) (b b' : Bmap) : Prop :=
  ∃ i s f n w q a, b' = { b with
    bml := update b.bml l { b.bml l with ios := i, seq := s, assfail := f }, noion := n, wrIon := w, seq := q, assign := a }

theorem reassigned_same (l : ℕ) (b : Bmap) (w : Option ℕ) (q : ℕ) : Reassigned l b { b with wrIon := w, seq := q } :=
  ⟨_, _, _, _, w, q, _, congrArg (fun f => { b with bml := f, wrIon := w, seq := q }) (update_eq_self l b.bml).symm⟩

theorem Reassigned.numbered (h : Reassigned l b b') (s : ℕ) : Reassigned l b (b'.modify l (Bml.numbered s)) := by
  obtain ⟨i, -, f, n, w, q, a, rfl⟩ := h
  refine ⟨i, s, f, n, w, q, a, ?_⟩
  simp only [Bmap.modify, update_self, update_idem]
  rfl

theorem mdsBmapIosAssign_reassigned (h : mdsBmapIosAssign e l b = some (b', rc)) : Reassigned l b b' := by
  obtain ⟨-, h⟩ := ite_none_left_eq_some.mp h
  split at h
  · cases h
    exact ⟨_, _, true, true, _, _, _, rfl⟩
  next r _ =>
  have hassign : Reassigned l b (assignTo e l r b) := ⟨r, _, _, false, some r, e.seq, _, rfl⟩
  split_ifs at h <;> cases h
  · exact hassign
  · exact hassign.numbered e.seq
  · exact ⟨_, _, true, true, some r, _, _, rfl⟩

theorem mdsBmapIosUpdate_reassigned (h : mdsBmapIosUpdate e l b = some (b', rc)) : Reassigned l b b' := by
  unfold mdsBmapIosUpdate at h
  split at h
  · cases h
  next bia _ =>
  split_ifs at h <;> cases h
  · exact reassigned_same l b _ _
  · exact ⟨bia.ios, e.seq, _, _, _, e.seq, _, rfl⟩

theorem iosChange_reassigned (h : (if b.wrIon.isSome then mdsBmapIosUpdate e l b else mdsBmapIosAssign e l
    b) = some (b', rc)) : Reassigned l b b' := by
  split at h
  · exact mdsBmapIosUpdate_reassigned h
  · exact mdsBmapIosAssign_reassigned h

theorem addAssign_reassigned (h : addAssign e l d b = some (b', rc)) : Reassigned l b b' := by
  unfold addAssign at h
  split_ifs at h
  · obtain ⟨-, ⟨⟩⟩ := ite_none_left_eq_some.mp h
    exact reassigned_same l b _ _
  · exact mdsBmapIosAssign_reassigned h
  · exact mdsBmapIosUpdate_reassigned h

theorem Counted.moves (h : Counted b b') : Moves l b b' := by
  obtain ⟨w, r, rfl⟩ := h
  exact .of_bml rfl rfl

theorem Reassigned.moves (h : Reassigned l b b') : Moves l b b' := by
  obtain ⟨i, s, f, n, w, q, a, rfl⟩ := h
  exact .put rfl rfl ⟨_, _, _, _, i, s, f, rfl⟩

theorem mdsBmapBmlAdd_moves (h : mdsBmapBmlAdd e l b = some (b', rc)) : Moves l b b' := by
  rcases mdsBmapBmlAdd_cases h with ⟨-, hdio⟩ | ⟨b₀, rc₀, d, b₁, hdio, -, -, hatt, hmode⟩
  · exact ⟨mdsBmapDirectio_near hdio l, (mdsBmapDirectio_placed hdio l).kin⟩
  have hb₁ : Moves l b b₁ :=
    ⟨(mdsBmapDirectio_near hdio l).trans (attach_elsewhere hatt), (placed_of_attach hdio hatt).kin⟩
  rcases hmode with ⟨-, hw⟩ | ⟨-, -, rfl⟩
  · exact (hb₁.trans (countWriter_counted d b₁).moves).trans (addAssign_reassigned hw).moves
  · have hput : Moves l b₁ (b₁.modify l (Bml.numbered e.seq)) := .put rfl rfl ⟨_, _, _, _, _, e.seq, _, rfl⟩
    exact (hb₁.trans hput).trans (countReader_counted d _).moves

theorem mdsBmapBmlChwrmode_elsewhere {rc : Option ℤ} (h : mdsBmapBmlChwrmode e l b = some (b', rc)) :
    Elsewhere l b b' := by
  rcases mdsBmapBmlChwrmode_cases h with ⟨-, rfl, -⟩ | ⟨-, b₀, rc₀, hdio, hcont⟩
  · exact .refl l _
  have hb₀ := mdsBmapDirectio_near hdio l
  rcases hcont with ⟨-, rfl, -⟩ | ⟨-, b₁, rc₁, hios, hturn⟩
  · exact hb₀
  have hb₁ := hb₀.trans (iosChange_reassigned hios).moves.toElsewhere
  rcases hturn with ⟨-, rfl, -⟩ | ⟨-, -, d, -, rfl⟩
  · exact hb₁.trans (elsewhere_modify l b₁ _)
  · exact (hb₁.trans (countUpgrade_counted d b₁).moves.toElsewhere).trans (elsewhere_modify l _ _)

end Slash2.Lease
