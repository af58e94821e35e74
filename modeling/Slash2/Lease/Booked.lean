/-
# The bookkeeping of leases

`call` puts the lease operations of `Bml` in sequences, of any number of clients. After every such
sequence the bookkeeping is as the comments of the source say (`Booked`): the list has one lease
for each client, the chain through it has all of its leases, `BML_CHAIN` is on those that are not
in the list, and the counters count clients.

Key theorem: `leases_booked`.
-/
import Slash2.Lib.Run
import Slash2.Lease.Chain

namespace Slash2.Lease

open Lib List Function

inductive Call where
  | new (cnp : Nidpid) (rw : Rw) (dio : Bool)
  | recovered (bia : Bia)
  | add (l : ℕ) (e : Env)
  | getbml (seq : ℕ) (cnp : Nidpid)
  | chwrmode (l : ℕ) (e : Env)
  /-- `BML_FREEING` is set, with what else a failed request leaves -/
  | free (l : ℕ) (assfail recoverfail : Bool)
  | release (l : ℕ)

def call (b : Bmap) : Call → Option Bmap
  | .new cnp rw dio => some (mdsBmlNew cnp rw dio b)
  | .recovered bia => some ((b.found bia).push (recoveredBml bia))
  | .add l e =>
    if l < b.next ∧ ¬ (b.bml l).bmi ∧ ¬ (b.bml l).pooled then (mdsBmapBmlAdd e l b).map Prod.fst
    else none
  | .getbml seq cnp => (mdsBmapGetbml b seq cnp).map Prod.fst
  | .chwrmode l e => if (b.bml l).bmi then (mdsBmapBmlChwrmode e l b).map Prod.fst else none
  | .free l assfail recoverfail =>
    if l < b.next then some (b.modify l fun m =>
      { m with freeing := true, assfail := m.assfail || assfail,
               recoverfail := m.recoverfail || recoverfail })
    else none
  | .release l => if l < b.next ∧ ¬ (b.bml l).pooled then mdsBmapBmlRelease l b else none

structure Sound (b : Bmap) : Prop where
  rings : ∃ L, Rings b.book L
  fresh : ∀ l, l < b.next → (b.bml l).bmi = false → (b.bml l).pooled = false →
    (b.bml l).chained = false ∧ (b.bml l).read = !(b.bml l).write

variable {l : ℕ} {b' : Bmap} {e : Env} {b : Bmap}

theorem Sound.of_fresh (h : Sound b) (hlt : l < b.next) (hbmi : (b.bml l).bmi = false)
    (hp : (b.bml l).pooled = false) : Fresh b l :=
  ⟨hlt, hbmi, (h.fresh l hlt hbmi hp).1, (h.fresh l hlt hbmi hp).2⟩

theorem Near.fresh {m m' : Bml} (h : Near m m')
    (hm : m.bmi = false → m.pooled = false → m.chained = false ∧ m.read = !m.write)
    (hbmi : m'.bmi = false) (hp : m'.pooled = false) : m'.chained = false ∧ m'.read = !m'.write := by
  obtain ⟨g, c, d, rfl, hg⟩ := h
  obtain ⟨hch, hmode⟩ := hm hbmi hp
  refine ⟨?_, hmode⟩
  cases g
  · rfl
  · exact absurd (hg rfl) (by simp [hch])

theorem Sound.of_elsewhere (h : Sound b) (he : Elsewhere l b b')
    (hR : ∃ L, Rings b'.book L) (hl : l < b'.next → (b'.bml l).bmi = false → (b'.bml l).pooled =
    false → (b'.bml l).chained = false ∧ (b'.bml l).read = !(b'.bml l).write) : Sound b' := by
  refine ⟨hR, fun x hx hbmi hp => ?_⟩
  by_cases hxl : x = l
  · subst hxl
    exact hl hx hbmi hp
  · exact (he.near x hxl).fresh (h.fresh x (he.next ▸ hx)) hbmi hp

theorem Sound.of_book (h : Sound b) (hb : b'.book = b.book)
    (hp : ∀ l, (b'.bml l).pooled = (b.bml l).pooled) : Sound b' := by
  have hlink (l : ℕ) : (b'.bml l).toLink = (b.bml l).toLink := congrFun (congrArg Book.link hb) l
  refine ⟨hb ▸ h.rings, fun l hl hbmi hpl => ?_⟩
  rw [hlink] at hbmi ⊢
  exact h.fresh l (by rwa [← show b'.next = b.next from congrArg Book.next hb]) hbmi (hp l ▸ hpl)

theorem Sound.push (h : Sound b) {m : Bml} (hbmi : m.bmi = false)
    (hch : m.chained = false) (hm : m.read = !m.write) : Sound (b.push m) := by
  obtain ⟨L, hR⟩ := h.rings
  have hself : (b.push m).bml b.next = m := update_self ..
  have hne {x : ℕ} (hx : x ≠ b.next) : (b.push m).bml x = b.bml x := update_of_ne hx ..
  have hcells {x : ℕ} (hx : x ∈ cells L) : x ≠ b.next := fun hxn =>
    Nat.lt_irrefl _ (hxn ▸ hR.bound x hx)
  refine ⟨⟨L, ?_⟩, fun x hx hxb hxp => ?_⟩
  · show Rings _ ([] ++ L)
    refine Rings.replace (show Rings b.book ([] ++ L) from hR) ?_ hR.heads (fun _ h => (nomatch h))
      nodup_nil (fun _ h => (nomatch h)) hR.distinct ?_ (Nat.le_succ _)
      (fun _ h => (nomatch h)) rfl rfl
    · exact fun x hx => congrArg Bml.toLink (hne (hcells hx))
    · intro x hx
      show _ ↔ ((b.push m).bml x).bmi = true
      by_cases hxn : x = b.next
      · rw [hxn, hself, hbmi]
        simp
      · rw [hne hxn]
        exact ⟨fun h => (nomatch h), fun h => absurd ((hR.attached x).mpr h) hx⟩
  · by_cases hxn : x = b.next
    · rw [hxn, hself]
      exact ⟨hch, hm⟩
    · have hxn' : x < b.next := Nat.lt_of_le_of_ne (Nat.lt_succ_iff.mp hx) hxn
      rw [hne hxn] at hxb hxp ⊢
      exact h.fresh x hxn' hxb hxp

theorem Sound.modify (h : Sound b) (l : ℕ) (f : Bml → Bml) (hf : ∀ m, (f m).toLink = m.toLink := by intro; rfl)
    (hp : ∀ m, (f m).pooled = m.pooled := by intro; rfl) : Sound (b.modify l f) := by
  refine h.of_book (book_modify_same b l f hf) fun x => ?_
  by_cases hx : x = l
  · subst hx
    rw [modify_bml, hp]
  · rw [show (b.modify l f).bml x = b.bml x from update_of_ne hx ..]

theorem attach_bmi {d : Dupls} (h : attach l d b = some b') : (b'.bml l).bmi := by
  unfold attach at h
  split at h
  · obtain ⟨tmp, -, -, rfl⟩ := bind_unless h
    rw [modify_bml]
  cases h
  show (update b.bml l _ l).bmi = true
  rw [update_self]

theorem mdsBmapBmlAdd_self {rc : ℤ} (h : mdsBmapBmlAdd e l b = some (b', rc)) :
    (b'.bml l).bmi ∨ Near (b.bml l) (b'.bml l) := by
  rcases mdsBmapBmlAdd_cases h with ⟨-, hdio⟩ | ⟨b₀, rc₀, d, b₁, -, -, -, hatt, hmode⟩
  · exact .inr ((mdsBmapDirectio_near hdio (l + 1)).near l (Nat.ne_of_lt (Nat.lt_succ_self l)))
  have hbmi : (b₁.book.link l).bmi := attach_bmi hatt
  refine .inl ?_
  show (b'.book.link l).bmi = true
  rcases hmode with ⟨-, hw⟩ | ⟨-, -, rfl⟩
  · rw [(addAssign_reassigned hw).book, countWriter_book]
    exact hbmi
  · rw [countReader_book, book_modify_same b₁ l (Bml.numbered e.seq)]
    exact hbmi

variable {rc : Option ℤ}

theorem mdsBmapBmlChwrmode_self (hl : (b.bml l).bmi)
    (h : mdsBmapBmlChwrmode e l b = some (b', rc)) : (b'.bml l).bmi := by
  rcases mdsBmapBmlChwrmode_cases h with ⟨-, rfl, -⟩ | ⟨-, b₀, rc₀, hdio, hcont⟩
  · exact hl
  have hb₀ : (b₀.book.link l).bmi := mdsBmapDirectio_book hdio ▸ hl
  rcases hcont with ⟨-, rfl, -⟩ | ⟨-, b₁, rc₁, hios, hturn⟩
  · exact hb₀
  have hb₁ : (b₁.book.link l).bmi := (iosChange_reassigned hios).book ▸ hb₀
  rcases hturn with ⟨-, rfl, -⟩ | ⟨-, -, d, -, rfl⟩
  · rw [modify_bml]
    exact hb₁
  rw [modify_bml]
  unfold countUpgrade
  split <;> exact hb₁

theorem mdsBmapBmlRelease_self (h : mdsBmapBmlRelease l b = some b') :
    (b'.bml l).pooled ∨ b' = b.modify l Bml.unref := by
  rcases mdsBmapBmlRelease_cases h with ⟨-, -, h⟩ | ⟨-, -, rfl⟩ | ⟨-, -, -, b₁, b₂, -, -, rfl⟩
  · exact .inr h
  · refine .inl ?_
    rw [pool_bml]
  · refine .inl ?_
    rw [pool_bml]

theorem freed_off {b₁ b₂ : Bmap} (hbook : b₂.book = (clearDio (detach l b₁)).book) :
    ((pool l b₂).bml l).bmi = false := by
  show ((pool l b₂).book.link l).bmi = false
  rw [pool_book, hbook, clearDio_book]
  exact congrArg Link.bmi (congrArg Bml.toLink (update_self l _ b₁.bml))

theorem mdsBmapBmlRelease_off (hf : (b.bml l).freeing)
    (hrc : (b.bml l).refcnt ≤ 1) (h : mdsBmapBmlRelease l b = some b') : (b'.bml l).bmi = false := by
  rcases mdsBmapBmlRelease_cases h with
    ⟨hkeep, -, rfl⟩ | ⟨-, hoff, rfl⟩ | ⟨-, -, -, b₁, b₂, -, hend, rfl⟩
  · rcases hkeep with hgt | hnot
    · omega
    · exact clash hf hnot
  · rw [pool_bml]
    exact hoff
  have hbook : b₂.book = (clearDio (detach l b₁)).book := by
    split at hend
    · exact releaseAssign_book hend
    · cases hend
      rfl
  exact freed_off hbook

theorem mdsBmapGetbml_sound {seq : ℕ} {cnp : Nidpid} {r : Option ℕ} (hs : Sound b)
    (h : mdsBmapGetbml b seq cnp = some (b', r)) : Sound b' := by
  rcases mdsBmapGetbml_cases h with ⟨rfl, -⟩ | ⟨l, -, -, -, -, rfl, -⟩
  · exact hs
  · exact hs.modify l Bml.ref

theorem mdsBmapBmlAdd_sound {rc : ℤ} (hs : Sound b) (hl : Fresh b l)
    (h : mdsBmapBmlAdd e l b = some (b', rc)) : Sound b' := by
  obtain ⟨L, hR⟩ := hs.rings
  refine hs.of_elsewhere (mdsBmapBmlAdd_moves h).toElsewhere (mdsBmapBmlAdd_rings hR hl h) ?_
  intro _ hb hpl
  rcases mdsBmapBmlAdd_self h with hatt | hnear
  · exact clash hatt hb
  · exact hnear.fresh (fun _ _ => ⟨hl.chained, hl.mode⟩) hb hpl

theorem mdsBmapBmlChwrmode_sound (hs : Sound b)
    (hl : (b.bml l).bmi) (h : mdsBmapBmlChwrmode e l b = some (b', rc)) : Sound b' := by
  obtain ⟨L, hR⟩ := hs.rings
  have hl' := mdsBmapBmlChwrmode_self hl h
  exact hs.of_elsewhere (mdsBmapBmlChwrmode_elsewhere h) (mdsBmapBmlChwrmode_rings hR hl h) fun _ hb _ => clash hl' hb

theorem mdsBmapBmlRelease_sound (hs : Sound b) (h : mdsBmapBmlRelease l b = some b') : Sound b' := by
  obtain ⟨L, hR⟩ := hs.rings
  rcases mdsBmapBmlRelease_self h with hp | rfl
  · exact hs.of_elsewhere (mdsBmapBmlRelease_elsewhere h) (mdsBmapBmlRelease_rings hR h)
      fun _ _ hp' => absurd hp (by simp [hp'])
  · exact hs.modify l _

theorem mdsBmlNew_sound (hs : Sound b) (cnp : Nidpid) (rw' : Rw) (dio : Bool) : Sound (mdsBmlNew cnp rw' dio b) := by
  refine hs.push rfl rfl ?_
  cases rw' <;> rfl

theorem recovered_sound (hs : Sound b) (bia : Bia) : Sound ((b.found bia).push (recoveredBml bia)) := by
  have hs' : Sound (b.found bia) := hs.of_book rfl fun _ => rfl
  exact hs'.push rfl rfl rfl

theorem call_sound {c : Call} (hs : Sound b) (h : call b c = some b') : Sound b' := by
  cases c with
  | new cnp rw' dio =>
    cases h
    exact mdsBmlNew_sound hs cnp rw' dio
  | recovered bia =>
    cases h
    exact recovered_sound hs bia
  | add l e =>
    obtain ⟨⟨hlt, hbmi, hp⟩, h⟩ := Option.ite_none_right_eq_some.mp h
    obtain ⟨⟨b₁, rc⟩, hadd, rfl⟩ := Option.map_eq_some_iff.mp h
    exact mdsBmapBmlAdd_sound hs (hs.of_fresh hlt (by simpa using hbmi) (by simpa using hp)) hadd
  | getbml seq cnp =>
    obtain ⟨⟨b₁, r⟩, hget, rfl⟩ := Option.map_eq_some_iff.mp h
    exact mdsBmapGetbml_sound hs hget
  | chwrmode l e =>
    obtain ⟨hbmi, h⟩ := Option.ite_none_right_eq_some.mp h
    obtain ⟨⟨b₁, rc⟩, hch, rfl⟩ := Option.map_eq_some_iff.mp h
    exact mdsBmapBmlChwrmode_sound hs hbmi hch
  | free l assfail recoverfail =>
    obtain ⟨-, ⟨⟩⟩ := Option.ite_none_right_eq_some.mp h
    exact hs.modify l _
  | release l =>
    obtain ⟨-, h⟩ := Option.ite_none_right_eq_some.mp h
    exact mdsBmapBmlRelease_sound hs h

/-! ### What the chains say -/

def Bmap.attached (b : Bmap) : Finset ℕ := (Finset.range b.next).filter fun l => (b.bml l).bmi

def Bmap.holders (b : Bmap) : Finset Nidpid := b.attached.image fun l => (b.bml l).cnp

def Bmap.writeHolders (b : Bmap) : Finset Nidpid :=
  (b.attached.filter fun l => (b.bml l).write).image fun l => (b.bml l).cnp

/-- The list has each client once, with a ring of all its leases. -/
structure Booked (b : Bmap) : Prop where
  made : ∀ l, (b.bml l).bmi → l < b.next
  listed : (b.leases.map fun l => (b.bml l).cnp).toFinset = b.holders
  single : (b.leases.map fun l => (b.bml l).cnp).Nodup
  /-- each chain is a circle of all leases of its client -/
  chain : ∀ h ∈ b.leases, ∃ t, Links b.chain h t h ∧ (h :: t).Nodup ∧
    ∀ l, l ∈ h :: t ↔ l ∈ b.attached ∧ (b.bml l).cnp = (b.bml h).cnp
  /-- `BML_CHAIN` is on those that are not in the list -/
  flag : ∀ l ∈ b.attached, (b.bml l).chained ↔ l ∉ b.leases
  writers : b.writers = b.writeHolders.card
  readers : b.readers = (b.holders \ b.writeHolders).card

section Chains

variable {L : List Ring}

theorem Rings.mem_attached (h : Rings b.book L) : l ∈ b.attached ↔ l ∈ cells L := by
  rw [Bmap.attached, Finset.mem_filter, Finset.mem_range]
  refine ⟨fun hl => (h.attached l).mpr hl.2, fun hl => ⟨h.bound l hl, (h.attached l).mp hl⟩⟩

theorem Sound.mem_attached (h : Sound b) {x : ℕ} : x ∈ b.attached ↔ (b.bml x).bmi := by
  obtain ⟨L, hR⟩ := h.rings
  rw [hR.mem_attached]
  exact hR.attached x

variable (h : Rings b.book L)
include h

theorem Rings.mem_ids {r : Ring} (hr : r ∈ L) :
    l ∈ r.ids ↔ l ∈ cells L ∧ (b.bml l).cnp = (b.bml r.head).cnp := by
  constructor
  · exact fun hl => ⟨mem_cells.mpr ⟨r, hr, hl⟩, (h.ok r hr).client_ids hl⟩
  · rintro ⟨hl, hc⟩
    obtain ⟨r', hr', hlr'⟩ := mem_cells.mp hl
    have hc' : (b.bml r'.head).cnp = (b.bml r.head).cnp := ((h.ok r' hr').client_ids hlr').symm.trans hc
    obtain rfl := inj_on_of_nodup_map h.distinct hr' hr hc'
    exact hlr'

theorem Rings.mem_leases : l ∈ b.leases ↔ ∃ r ∈ L, r.head = l := (h.heads.mem_iff).trans mem_map

theorem everyLease_spec : ∀ hs : List ℕ, (∀ x ∈ hs, x ∈ b.leases) →
    ∃ ls, everyLease b hs = some ls ∧ ∀ x, x ∈ ls ↔ x ∈ cells L ∧ ∃ y ∈ hs, (b.bml x).cnp = (b.bml y).cnp
  | [], _ => ⟨[], rfl, fun x => by simp⟩
  | y :: hs, hsub => by
    obtain ⟨ls, hls, hmem⟩ := everyLease_spec hs fun x hx => hsub x (mem_cons_of_mem y hx)
    obtain ⟨r, hr, rfl⟩ := h.mem_leases.mp (hsub y mem_cons_self)
    obtain ⟨A, B, rfl⟩ := append_of_mem hr
    refine ⟨r.ids ++ ls, ?_, fun x => ?_⟩
    · rw [everyLease, (h.perm perm_middle).visits_first, hls]
      rfl
    · rw [mem_append, h.mem_ids hr, hmem]
      simp only [mem_cons, exists_eq_or_imp]
      tauto

theorem Rings.card_clients (p : Ring → Bool) :
    ((clients b.book.link (L.filter p)).toFinset).card = L.countP p := by
  have hnd : (clients b.book.link (L.filter p)).Nodup := h.distinct.sublist ((filter_sublist).map _)
  rw [toFinset_card_of_nodup hnd, clients, length_map, countP_eq_length_filter]

theorem Rings.holders : b.holders = (clients b.book.link L).toFinset := by
  ext c
  simp only [Bmap.holders, Finset.mem_image, h.mem_attached, mem_toFinset, clients, mem_map]
  constructor
  · rintro ⟨l, hl, rfl⟩
    obtain ⟨r, hr, hlr⟩ := mem_cells.mp hl
    exact ⟨r, hr, ((h.ok r hr).client_ids hlr).symm⟩
  · rintro ⟨r, hr, rfl⟩
    exact ⟨r.head, head_mem_cells hr, rfl⟩

theorem Rings.writeHolders :
    b.writeHolders = (clients b.book.link (L.filter (hasWrite b.book.link))).toFinset := by
  ext c
  simp only [Bmap.writeHolders, Finset.mem_image, Finset.mem_filter, h.mem_attached,
    mem_toFinset, clients, mem_map, mem_filter, hasWrite, any_eq_true]
  constructor
  · rintro ⟨l, ⟨hl, hw⟩, rfl⟩
    obtain ⟨r, hr, hlr⟩ := mem_cells.mp hl
    exact ⟨r, ⟨hr, l, hlr, hw⟩, ((h.ok r hr).client_ids hlr).symm⟩
  · rintro ⟨r, ⟨hr, l, hlr, hw⟩, rfl⟩
    exact ⟨l, ⟨mem_cells.mpr ⟨r, hr, hlr⟩, hw⟩, (h.ok r hr).client_ids hlr⟩

theorem Rings.readHolders : b.holders \ b.writeHolders =
    (clients b.book.link (L.filter fun r => !hasWrite b.book.link r)).toFinset := by
  ext c
  simp only [Finset.mem_sdiff, h.holders, h.writeHolders, mem_toFinset, clients, mem_map, mem_filter]
  constructor
  · rintro ⟨⟨r, hr, rfl⟩, hno⟩
    exact ⟨r, ⟨hr, by simpa using fun hw => hno ⟨r, ⟨hr, hw⟩, rfl⟩⟩, rfl⟩
  · rintro ⟨r, ⟨hr, hw⟩, rfl⟩
    refine ⟨⟨r, hr, rfl⟩, ?_⟩
    rintro ⟨r', ⟨hr', hw'⟩, hc⟩
    obtain rfl := inj_on_of_nodup_map h.distinct hr' hr hc
    simp [hw'] at hw

theorem Rings.clients_perm :
    (b.leases.map fun l => (b.bml l).cnp).Perm (clients b.book.link L) := by
  have hp := h.heads.map fun l => (b.bml l).cnp
  rw [map_map] at hp
  exact hp

theorem Rings.booked : Booked b where
  made l hl := h.bound l ((h.attached l).mpr hl)
  listed := h.holders ▸ toFinset_eq_of_perm _ _ h.clients_perm
  single := h.clients_perm.nodup_iff.mpr h.distinct
  chain l hl := by
    obtain ⟨r, hr, rfl⟩ := h.mem_leases.mp hl
    obtain ⟨A, B, rfl⟩ := append_of_mem hr
    refine ⟨r.tail, (h.ok r hr).links, (h.perm perm_middle).ids_nodup, fun l => ?_⟩
    rw [h.mem_attached]
    exact h.mem_ids hr
  flag l hl := by
    constructor
    · exact h.not_chained
    · intro hno
      obtain ⟨r, hr, hlr⟩ := mem_cells.mp (h.mem_attached.mp hl)
      rcases mem_cons.mp hlr with rfl | htail
      · exact absurd (h.mem_leases.mpr ⟨r, hr, rfl⟩) hno
      · exact (h.ok r hr).tail l htail
  writers := by
    rw [h.writeHolders, h.card_clients]
    exact h.writers
  readers := by
    rw [h.readHolders, h.card_clients]
    exact h.readers

end Chains

/-! ### The counters -/

def HasWriter (b : Bmap) : Prop := ∃ x, (b.bml x).bmi ∧ (b.bml x).write

variable {L : List Ring}

theorem Rings.writers_eq_zero {s : Book} (h : Rings s L) :
    s.writers = 0 ↔ ¬ ∃ x, (s.link x).bmi ∧ (s.link x).write := by
  have hcount : s.writers = 0 ↔ L.countP (hasWrite s.link) = 0 := by rw [h.writers]; omega
  rw [hcount, countP_eq_zero]
  constructor
  · rintro hno ⟨x, hx, hw⟩
    obtain ⟨r, hr, hxr⟩ := mem_cells.mp ((h.attached x).mpr hx)
    exact hno r hr (any_eq_true.mpr ⟨x, hxr, hw⟩)
  · intro hno r hr hw
    obtain ⟨x, hxr, hw⟩ := any_eq_true.mp hw
    exact hno ⟨x, (h.attached x).mp (mem_cells.mpr ⟨r, hr, hxr⟩), hw⟩

theorem Sound.writers_eq_zero {b : Bmap} (h : Sound b) : b.writers = 0 ↔ ¬ HasWriter b := by
  obtain ⟨L, hR⟩ := h.rings
  exact hR.writers_eq_zero

def unleased (fid bmapno : ℕ) : Bmap where
  fid := fid
  bmapno := bmapno
  dio := false
  diocb := false
  noion := false
  leases := []
  bml _ := { recoveredBml ⟨0, ⟨0, 0⟩, 0, 0, 0, false⟩ with pooled := true }
  next := 0
  writers := 0
  readers := 0
  wrIon := none
  assign := none
  seq := 0
  cbs := []

theorem sound_unleased (fid bmapno : ℕ) : Sound (unleased fid bmapno) := by
  refine ⟨⟨[], ?_⟩, fun l hl => absurd hl (Nat.not_lt_zero l)⟩
  constructor
  case heads => exact .refl _
  case ok => exact fun _ h => (nomatch h)
  case nodup => exact nodup_nil
  case distinct => exact nodup_nil
  case attached => exact fun l => ⟨fun h => (nomatch h), fun h => (nomatch h)⟩
  case bound => exact fun _ h => (nomatch h)
  case writers => rfl
  case readers => rfl

theorem duplsFind_isSome {b : Bmap} (h : Rings b.book L) (c : Nidpid) : (mdsBmapDuplsFind b c).isSome := by
  rcases h.split c with ⟨r, L', hR, rfl⟩ | hno
  · rw [show (b.book.link r.head).cnp = (b.bml r.head).cnp from rfl, duplsFind_ring hR]
    rfl
  · rw [duplsFind_none h hno]
    rfl

/-- **The bookkeeping holds after all calls**, and no assertion of a lookup or removal fails. -/
theorem leases_booked (fid bmapno : ℕ) {cs : List Call} {b : Bmap} (h : run call (unleased fid bmapno) cs = some b) :
    Booked b ∧ (∀ c, (mdsBmapDuplsFind b c).isSome) ∧ ∀ l, (b.bml l).bmi = true → (mdsBmapBmlDelLocked l b).isSome := by
  obtain ⟨⟨L, hR⟩, -⟩ := run_keeps call_sound (sound_unleased fid bmapno) h
  refine ⟨hR.booked, duplsFind_isSome hR, fun l hl => ?_⟩
  obtain ⟨b', L', hdel, -⟩ := mdsBmapBmlDelLocked_rings hR hl
  rw [hdel]
  rfl

def upgradeAndRelease : List Call :=
  [.new ⟨1, 1⟩ .read false, .add 0 ⟨none, true, 0, 5, false⟩, .new ⟨1, 1⟩ .read false,
   .add 1 ⟨none, true, 0, 6, false⟩, .chwrmode 0 ⟨some 9, true, 0, 7, false⟩,
   .free 0 false false, .release 0, .new ⟨2, 1⟩ .read false, .add 2 ⟨none, true, 0, 8, false⟩]

theorem leases_booked_upgradeAndRelease : ∃ b, run call (unleased 1 0) upgradeAndRelease = some b ∧
    (b.leases = [1, 2] ∧ b.writers = 0 ∧ b.readers = 2) ∧ Booked b ∧ (∀ c, (mdsBmapDuplsFind b c).isSome) ∧
      ∀ l, (b.bml l).bmi = true → (mdsBmapBmlDelLocked l b).isSome := by
  have hrun : ∃ b ∈ run call (unleased 1 0) upgradeAndRelease,
      b.leases = [1, 2] ∧ b.writers = 0 ∧ b.readers = 2 := by decide
  obtain ⟨b, hb, hcount⟩ := hrun
  exact ⟨b, hb, hcount, leases_booked 1 0 hb⟩

end Slash2.Lease
