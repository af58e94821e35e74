/-
# Direct I/O at the metadata server

When two clients have leases on a bmap and one of them writes, each must do direct
I/O. A client is told by `SRM_LEASEBMAPF_DIO` in the reply to its request, or asked by a
BMAPDIO callback, which it acknowledges. `Server` adds to a bmap which of the clients
with leases have been told since they got their first one.

Key theorem: `dio_coherent_run`.
-/
import Slash2.Lease.Handlers

namespace Slash2.Lease

open Lib List Function

/-! ### The decision -/

theorem directioLoop_spec (np : Nidpid) : ∀ (ls : List ℕ) (x : Bmap × Bool × ℤ),
    ((ls.foldl (directioBody np) x).2.1 ↔ x.2.1 ∨ ∃ l ∈ ls, (x.1.bml l).cnp ≠ np) ∧
    ((ls.foldl (directioBody np) x).2.2 = 0 ↔ x.2.2 = 0 ∧ ∀ l ∈ ls, (x.1.bml l).cnp = np ∨ (x.1.bml l).dio) ∧
    (ls.foldl (directioBody np) x).1.dio = x.1.dio
  | [], x => by simp
  | k :: ls, x => by
    obtain ⟨hforce, hrc, hdio⟩ := directioLoop_spec np ls (directioBody np x k)
    -- the body changes no client and no agreement
    have hsame (l : ℕ) : ((directioBody np x k).1.bml l).cnp = (x.1.bml l).cnp ∧
        ((directioBody np x k).1.bml l).dio = (x.1.bml l).dio := by
      obtain ⟨g, p, q, cbs, hb⟩ := directioBody_marked np x k
      rw [hb]
      exact ⟨rfl, rfl⟩
    have hforce' : (directioBody np x k).2.1 = true ↔ x.2.1 = true ∨ (x.1.bml k).cnp ≠ np := by
      unfold directioBody
      dsimp only
      split_ifs <;> simp_all
    have hrc' : (directioBody np x k).2.2 = 0 ↔ x.2.2 = 0 ∧ ((x.1.bml k).cnp = np ∨ (x.1.bml k).dio = true) := by
      unfold directioBody
      dsimp only
      split_ifs <;> simp_all [slerrBmapDiowait]
    have hdio' : (directioBody np x k).1.dio = x.1.dio := by
      unfold directioBody
      dsimp only
      split_ifs <;> rfl
    simp only [hsame] at hforce hrc
    refine ⟨?_, ?_, hdio.trans hdio'⟩
    · rw [foldl_cons, hforce, hforce', exists_mem_cons_iff, or_assoc]
    · rw [foldl_cons, hrc, hrc', forall_mem_cons, and_assoc]

/-- How `mds_bmap_directio` decides. -/
inductive Decided (b : Bmap) (rw : Rw) (want : Bool) (np : Nidpid) (b' : Bmap) (rc : ℤ) : Prop
  | already (hb : b.dio) (hb' : b'.dio) (hrc : rc = 0)
  | waits (hb : b.dio = false) (hb' : b'.dio = false) (hrc : rc ≠ 0)
  | enters (hb : b.dio = false) (hb' : b'.dio) (hrc : rc = 0)
      (hall : ∀ x, (b.bml x).bmi → (b.bml x).cnp ≠ np → (b.bml x).dio)
      (hwhy : want ∨ b.diocb ∨ ∃ x, (b.bml x).bmi ∧ (b.bml x).cnp ≠ np)
  | alone (hb : b.dio = false) (hb' : b'.dio = false) (hrc : rc = 0) (hwant : want = false)
      (hall : ∀ x, (b.bml x).bmi → (b.bml x).cnp = np)
  | calm (hb : b.dio = false) (hb' : b'.dio = false) (hrc : rc = 0) (hwant : want = false)
      (hw : b.writers = 0) (hr : rw = .write → b.readers = 0)

variable {rc : ℤ} {x : ℕ} {c? : Option Nidpid} {b b' : Bmap}

theorem mdsBmapDirectio_spec {rw' : Rw} {want : Bool} {np : Nidpid} (hs : Sound b)
    (h : mdsBmapDirectio b rw' want np = some (b', rc)) : Decided b rw' want np b' rc := by
  unfold mdsBmapDirectio at h
  split at h
  · next hb =>
    cases h
    exact .already hb hb rfl
  next hb =>
  have hb0 : b.dio = false := by simpa using hb
  obtain ⟨L, hR⟩ := hs.rings
  obtain ⟨ls, hls, hmem⟩ := everyLease_spec hR b.leases fun _ hx => hx
  have hevery (x : ℕ) : x ∈ ls ↔ (b.bml x).bmi := by
    rw [hmem, ← hR.mem_attached, hs.mem_attached]
    refine ⟨fun hx => hx.1, fun hx => ⟨hx, ?_⟩⟩
    have hc : (b.bml x).cnp ∈ b.holders := Finset.mem_image.mpr ⟨x, hs.mem_attached.mpr hx, rfl⟩
    rw [← hR.booked.listed, mem_toFinset] at hc
    obtain ⟨y, hy, hyc⟩ := mem_map.mp hc
    exact ⟨y, hy, hyc.symm⟩
  obtain ⟨hforce, hrc, hdio⟩ := directioLoop_spec np ls (b, false, 0)
  simp only [Bool.false_eq_true, false_or, true_and, hevery] at hforce hrc
  obtain ⟨x, hx, h⟩ := Option.map_eq_some_iff.mp h
  split at hx
  · -- the leases were looked through
    rw [hls] at hx
    cases hx
    split at h <;> cases h
    · rename_i hset
      refine .enters hb0 rfl hset.1 (fun x hx hne => (hrc.mp hset.1 x hx).resolve_left hne) ?_
      rcases hset.2 with hwant | hf
      · rcases Bool.or_eq_true_iff.mp hwant with hw | hw
        · exact .inl hw
        · exact .inr (.inl hw)
      · exact .inr (.inr (hforce.mp hf))
    · rename_i hset
      by_cases h0 : (ls.foldl (directioBody np) (b, false, 0)).2.2 = 0
      · have hno := not_or.mp fun hor => hset ⟨h0, hor⟩
        refine .alone hb0 (hdio.trans hb0) h0 ?_ fun x hx => ?_
        · cases want
          · rfl
          · simp at hno
        · by_contra hne
          exact hno.2 (hforce.mpr ⟨x, hx, hne⟩)
      · exact .waits hb0 (hdio.trans hb0) h0
  · next hcheck =>
    cases hx
    have hno : want = false ∧ b.diocb = false ∧ b.writers = 0 ∧ (rw' = .write → b.readers = 0) := by
      simpa [and_assoc] using hcheck
    have hset : ¬ ((0 : ℤ) = 0 ∧ ((want || b.diocb) = true ∨ false = true)) := by
      simp [hno.1, hno.2.1]
    rw [if_neg hset] at h
    cases h
    exact .calm hb0 hb0 rfl hno.1 hno.2.2.1 hno.2.2.2

/-! ### What does not touch the mode -/

variable {l : ℕ} {d : Dupls}

theorem attach_dio (h : attach l d b = some b') : b'.dio = b.dio := by
  obtain ⟨-, -, rfl⟩ := attach_eq h
  rfl

variable {e : Env}

theorem Reassigned.dio (h : Reassigned l b b') : b'.dio = b.dio := by
  obtain ⟨i, s, f, n, w, q, a, rfl⟩ := h
  rfl

theorem Counted.dio (h : Counted b b') : b'.dio = b.dio := by
  obtain ⟨w, r, rfl⟩ := h
  rfl

theorem mdsBmapBmlDelLocked_dio (h : mdsBmapBmlDelLocked l b = some b') : b'.dio = b.dio := by
  obtain ⟨-, -, w, r, rfl⟩ := mdsBmapBmlDelLocked_eq h
  rfl

theorem releaseAssign_dio {m : Bml} (h : releaseAssign m b = some b') : b'.dio = b.dio := by
  obtain ⟨a, w, rfl⟩ := releaseAssign_eq h
  rfl

theorem mdsBmapBmlRelease_dio (h : mdsBmapBmlRelease l b = some b') (hb' : b'.dio) : b.dio ∧
      ((b.bml l).freeing → (b.bml l).refcnt ≤ 1 → (b.bml l).bmi →
        b'.writers ≠ 0 ∧ ¬ (b'.writers = 1 ∧ b'.readers = 0)) := by
  rcases mdsBmapBmlRelease_cases h with
    ⟨hkeep, -, rfl⟩ | ⟨-, hoff, rfl⟩ | ⟨-, -, -, b₁, b₂, hdel, hend, rfl⟩
  · refine ⟨hb', fun hf hrc _ => ?_⟩
    rcases hkeep with hgt | hnot
    · omega
    · exact clash hf hnot
  · exact ⟨hb', fun _ _ hbmi => clash hbmi hoff⟩
  have hsame : b₂.dio = (clearDio (detach l b₁)).dio ∧ b₂.book = (clearDio (detach l b₁)).book := by
    split at hend
    · exact ⟨releaseAssign_dio hend, releaseAssign_book hend⟩
    · cases hend
      exact ⟨rfl, rfl⟩
  have hbook : (pool l b₂).book = (detach l b₁).book := (pool_book l b₂).trans (hsame.2.trans (clearDio_book _))
  rw [show (pool l b₂).writers = (detach l b₁).writers from congrArg Book.writers hbook,
    show (pool l b₂).readers = (detach l b₁).readers from congrArg Book.readers hbook]
  have hclear : (clearDio (detach l b₁)).dio := hsame.1.symm.trans hb'
  unfold clearDio at hclear
  split at hclear
  · cases hclear
  · next hno =>
    have hdio : (detach l b₁).dio := hclear
    have hmany := not_or.mp fun hor => hno ⟨.inl hdio, hor⟩
    exact ⟨(mdsBmapBmlDelLocked_dio hdel).symm.trans hdio, fun _ _ _ => hmany⟩

def Shared (b : Bmap) : Prop :=
  ∃ x y, (b.bml x).bmi ∧ (b.bml y).bmi ∧ (b.bml x).cnp ≠ (b.bml y).cnp ∧
    (b.bml x).write

theorem Rings.length_eq {k : Book} {L : List Ring} (h : Rings k L) : (L.length : ℤ) = k.writers + k.readers := by
  rw [h.writers, h.readers, length_eq_countP_add_countP (hasWrite k.link)]
  simp

theorem Sound.shared (hs : Sound b) (hw : b.writers ≠ 0) (hmany : ¬ (b.writers = 1 ∧ b.readers = 0)) : Shared b := by
  obtain ⟨L, hR⟩ := hs.rings
  have hcount : L.countP (hasWrite b.book.link) ≠ 0 := fun h0 => hw (by
    rw [show b.writers = _ from hR.writers, h0]
    rfl)
  obtain ⟨r₀, hr₀, hany⟩ := countP_pos_iff.mp (Nat.pos_of_ne_zero hcount)
  obtain ⟨x, hxr, hxw⟩ := any_eq_true.mp hany
  have hx : (b.bml x).bmi := (hR.attached x).mp (mem_cells.mpr ⟨r₀, hr₀, hxr⟩)
  obtain ⟨r, L', hR', hlr⟩ := hR.split_cell hx
  have hlen : ((r :: L').length : ℤ) = b.writers + b.readers := hR'.length_eq
  have hpos : (0 : ℤ) ≤ b.writers ∧ (0 : ℤ) ≤ b.readers := by
    rw [show b.writers = _ from hR'.writers, show b.readers = _ from hR'.readers]
    omega
  obtain ⟨r', hr'⟩ : ∃ r', r' ∈ L' := by
    cases L' with
    | nil =>
      simp only [length_singleton] at hlen
      omega
    | cons r' => exact ⟨r', mem_cons_self⟩
  refine ⟨x, r'.head, hx, ?_, ?_, hxw⟩
  · exact (hR'.attached _).mp (head_mem_cells (mem_cons_of_mem r hr'))
  · intro hc
    have hnd := (nodup_cons.mp hR'.distinct).1
    refine hnd (mem_map.mpr ⟨r', hr', ?_⟩)
    exact (hR'.ok_first.client_ids hlr).symm.trans hc |>.symm

theorem Sound.no_leases (hs : Sound b) (hw : b.writers = 0) (hr : b.readers = 0) (x : ℕ) : (b.bml x).bmi = false := by
  obtain ⟨L, hR⟩ := hs.rings
  by_contra hx
  have hbmi : (b.bml x).bmi := by simpa using hx
  obtain ⟨r, L', hR', -⟩ := hR.split_cell hbmi
  have hlen : ((r :: L').length : ℤ) = b.writers + b.readers := hR'.length_eq
  rw [length_cons] at hlen
  omega

/-! ### Clients that know -/

structure Server where
  bmap : Bmap
  told : Nidpid → Bool

def tells (sbd : Option Bmapdesc) : Bool := (sbd.map Bmapdesc.dio).getD false

/-- The client that learns of direct I/O, from the reply `sbd`. -/
def informed (b : Bmap) (sbd : Option Bmapdesc) : Event → Option Nidpid
  | .lease cnp _ _ _ => if tells sbd then some cnp else none
  | .upgrade l _ _ => if tells sbd then some (b.bml l).cnp else none
  | .reassign l _ => if tells sbd then some (b.bml l).cnp else none
  | .ack seq cnp => ((slmcohReleasebml seq cnp b).bind Prod.snd).map fun _ => cnp
  | _ => none

def Server.tell (s : Server) (b' : Bmap) (c? : Option Nidpid) : Server :=
  ⟨b', fun c => (s.told c || c? = some c) && c ∈ b'.holders⟩

def serve (s : Server) (ev : Event) : Option Server :=
  if Enabled s.bmap ev then
    (handle s.bmap ev).map fun x => s.tell x.1 (informed s.bmap x.2 ev)
  else none

def Server.idle (fid bmapno : ℕ) : Server := ⟨unleased fid bmapno, fun _ => false⟩

def AllTold (s : Server) : Prop :=
  ∀ x, (s.bmap.bml x).bmi → s.told (s.bmap.bml x).cnp

structure Coherent (s : Server) : Prop where
  sound : Sound s.bmap
  mode : s.bmap.dio → AllTold s
  agreed : ∀ x, (s.bmap.bml x).bmi → (s.bmap.bml x).dio →
    s.told (s.bmap.bml x).cnp
  shared : Shared s.bmap → AllTold s

theorem Sound.mem_holders (hs : Sound b) (hx : (b.bml x).bmi) :
    (b.bml x).cnp ∈ b.holders := Finset.mem_image.mpr ⟨x, hs.mem_attached.mpr hx, rfl⟩

variable {s : Server}

theorem Server.told_of_told (hs : Sound b') (hx : (b'.bml x).bmi)
    (h : s.told (b'.bml x).cnp) : (s.tell b' c?).told (b'.bml x).cnp := by
  simp [Server.tell, h, hs.mem_holders hx]

variable {c : Nidpid}

theorem Server.told_of_informed (hs : Sound b') (hx : (b'.bml x).bmi) (hc : (b'.bml x).cnp = c) :
    (s.tell b' (some c)).told (b'.bml x).cnp := by
  have hmem := hs.mem_holders hx
  rw [hc] at hmem ⊢
  simp [Server.tell, hmem]

def Fewer (b b' : Bmap) : Prop :=
  ∀ x, (b'.bml x).bmi → (b.bml x).bmi ∧ (b'.bml x).cnp = (b.bml x).cnp ∧
    (b'.bml x).write = (b.bml x).write ∧ (b'.bml x).dio = (b.bml x).dio

theorem Fewer.shared (h : Fewer b b') (hsh : Shared b') : Shared b := by
  obtain ⟨x, y, hx, hy, hxy, hw⟩ := hsh
  obtain ⟨hx', hxc, hxw, -⟩ := h x hx
  obtain ⟨hy', hyc, -, -⟩ := h y hy
  exact ⟨x, y, hx', hy', by rwa [← hxc, ← hyc], hxw.symm.trans hw⟩

theorem Fewer.allTold (hf : Fewer s.bmap b') (hs' : Sound b') (h : AllTold s) : AllTold (s.tell b' c?) := fun x hx => by
  obtain ⟨hx', hc, -, -⟩ := hf x hx
  exact Server.told_of_told hs' hx (hc ▸ h x hx')

theorem Coherent.of_fewer (h : Coherent s) (hs' : Sound b')
    (hf : Fewer s.bmap b') (hdio : b'.dio → AllTold s) : Coherent (s.tell b' c?) where
  sound := hs'
  mode hd := hf.allTold hs' (hdio hd)
  agreed x hx hxd := by
    obtain ⟨hx', hc, -, hd⟩ := hf x hx
    exact Server.told_of_told hs' hx (hc ▸ h.agreed x hx' (hd.symm.trans hxd))
  shared hsh := hf.allTold hs' (h.shared (hf.shared hsh))

theorem Coherent.of_allTold (hs : Sound s.bmap) (h : AllTold s) : Coherent s :=
  ⟨hs, fun _ => h, fun x hx _ => h x hx, fun _ => h⟩

/-! ### A lease is asked for -/

theorem Elsewhere.fewer (he : Elsewhere l b b')
    (hl : (b'.bml l).bmi → (b.bml l).bmi ∧ (b'.bml l).cnp = (b.bml l).cnp ∧
      (b'.bml l).write = (b.bml l).write ∧ (b'.bml l).dio = (b.bml l).dio) : Fewer b b' :=
  fun x hx => by
    by_cases hxl : x = l
    · subst hxl
      exact hl hx
    obtain ⟨g, c, d, hb, -⟩ := he.near x hxl
    rw [hb] at hx ⊢
    exact ⟨hx, rfl, rfl, rfl⟩

theorem Fewer.trans {b'' : Bmap} (h : Fewer b b') (h' : Fewer b' b'') : Fewer b b'' := fun x hx => by
    obtain ⟨hx', hc', hw', hd'⟩ := h' x hx
    obtain ⟨hx'', hc, hw, hd⟩ := h x hx'
    exact ⟨hx'', hc'.trans hc, hw'.trans hw, hd'.trans hd⟩

theorem push_fewer (b : Bmap) {m : Bml} (hm : m.bmi = false) : Fewer b (b.push m) := fun x hx => by
  by_cases hxl : x = b.next
  · rw [hxl, push_self] at hx
    exact clash hx hm
  have hsame : (b.push m).bml x = b.bml x := update_of_ne hxl ..
  rw [hsame] at hx ⊢
  exact ⟨hx, rfl, rfl, rfl⟩

theorem mdsBmapBmlAdd_mode (hs : Sound b)
    (hrec : (b.bml l).recover = false) (hadd : mdsBmapBmlAdd e l b = some (b', rc)) :
    ∃ b₀ rc₀, Decided b (b.bml l).rw (b.bml l).dio (b.bml l).cnp b₀ rc₀ ∧ b'.dio = b₀.dio ∧
      (rc = 0 → rc₀ = 0) ∧ (b'.dio → (b'.bml l).bmi) := by
  rcases mdsBmapBmlAdd_cases hadd with ⟨hrc, hdio⟩ | ⟨b₀, rc₀, d, b₁, hdio, hgo, -, hatt, hmode⟩
  · have hdec := mdsBmapDirectio_spec hs hdio
    refine ⟨b', rc, hdec, rfl, id, fun hd => ?_⟩
    cases hdec with
    | waits hb hb' => exact clash hd hb'
    | already hb hb' h0 => exact absurd h0 hrc
    | enters hb hb' h0 => exact absurd h0 hrc
    | alone hb hb' h0 => exact absurd h0 hrc
    | calm hb hb' h0 => exact absurd h0 hrc
  · have hrc₀ : rc₀ = 0 := hgo.resolve_right (by simp [hrec])
    have hbmi := attach_bmi hatt
    have hdio₁ := attach_dio hatt
    refine ⟨b₀, rc₀, mdsBmapDirectio_spec hs hdio, ?_, fun _ => hrc₀, fun _ => ?_⟩
    · rcases hmode with ⟨-, hw⟩ | ⟨-, -, rfl⟩
      · exact (addAssign_reassigned hw).dio.trans ((countWriter_counted d b₁).dio.trans hdio₁)
      · exact (countReader_counted d _).dio.trans hdio₁
    · rcases hmode with ⟨-, hw⟩ | ⟨-, -, rfl⟩
      · show (b'.book.link l).bmi = true
        rw [(addAssign_reassigned hw).book, countWriter_book]
        exact hbmi
      · rw [(countReader_counted ..).bml, modify_bml]
        exact hbmi

section Lease

variable {cnp : Nidpid} {rw' : Rw} {dio : Bool} {b₁ : Bmap}

theorem Coherent.failed (h : Coherent s)
    (hadd : mdsBmapBmlAdd e s.bmap.next (mdsBmlNew cnp rw' dio s.bmap) = some (b₁, rc))
    (hrel : mdsBmapBmlRelease s.bmap.next (b₁.modify s.bmap.next (Bml.failed rc)) = some b')
    (hs' : Sound b') (c? : Option Nidpid) : Coherent (s.tell b' c?) := by
  set l := s.bmap.next with hl
  have hself : (mdsBmlNew cnp rw' dio s.bmap).bml l = requestedBml cnp rw' dio := push_self s.bmap _
  have hs := mdsBmlNew_sound h.sound cnp rw' dio
  obtain ⟨-, -, -, -, -, hatt⟩ := mdsBmapBmlAdd_mode hs (by rw [hself]; rfl) hadd
  obtain ⟨g, a, c, d, i, q, f, hkin⟩ := (mdsBmapBmlAdd_moves hadd).kin
  rw [hself] at hkin
  have hfail : (b₁.modify l (Bml.failed rc)).bml l = Bml.failed rc (b₁.bml l) := update_self ..
  have he : Elsewhere l (mdsBmlNew cnp rw' dio s.bmap) b' :=
    ((mdsBmapBmlAdd_moves hadd).toElsewhere.trans (elsewhere_modify l b₁ _)).trans (mdsBmapBmlRelease_elsewhere hrel)
  have hf : ((b₁.modify l (Bml.failed rc)).bml l).freeing := by
    rw [hfail]
    rfl
  have hrc : ((b₁.modify l (Bml.failed rc)).bml l).refcnt ≤ 1 := by
    rw [hfail]
    rw [hkin]
    exact Int.le_refl 1
  have hoff := mdsBmapBmlRelease_off hf hrc hrel
  have hfewer : Fewer s.bmap b' := (push_fewer s.bmap rfl).trans (he.fewer fun hx => clash hx hoff)
  refine h.of_fewer hs' hfewer fun hd => ?_
  obtain ⟨hd₁, hmany⟩ := mdsBmapBmlRelease_dio hrel hd
  have hcount := hmany hf hrc (by rw [hfail]; exact hatt hd₁)
  exact h.shared (hfewer.shared (hs'.shared hcount.1 hcount.2))

/-- A lease like `m` is there as `l`; the others stay. -/
structure Joined (b b' : Bmap) (l : ℕ) (m : Bml) : Prop where
  cnp : (b'.bml l).cnp = m.cnp
  write : (b'.bml l).write = m.write
  dio : (b'.bml l).dio = m.dio
  others : ∀ x, x ≠ l → (b'.bml x).bmi → (b.bml x).bmi ∧
    (b'.bml x).cnp = (b.bml x).cnp ∧ (b'.bml x).write = (b.bml x).write ∧
    (b'.bml x).dio = (b.bml x).dio

theorem granted_joined (hadd : mdsBmapBmlAdd e b.next (mdsBmlNew cnp rw' dio b) = some (b₁, 0))
    (hrel : mdsBmapBmlRelease b.next b₁ = some b') :
    b'.dio = b₁.dio ∧ Joined b b' b.next (requestedBml cnp rw' dio) := by
  obtain ⟨g, a, c, d, i, q, f, hkin⟩ := (mdsBmapBmlAdd_moves hadd).kin
  rw [show (mdsBmlNew cnp rw' dio b).bml b.next = _ from push_self b _] at hkin
  obtain rfl : b' = b₁.modify b.next Bml.unref := by
    rcases mdsBmapBmlRelease_cases hrel with ⟨-, -, hb'⟩ | ⟨hf, -, -⟩ | ⟨hf, -⟩
    · exact hb'
    · rw [hkin] at hf
      cases hf
    · rw [hkin] at hf
      cases hf
  have hself : (b₁.modify b.next Bml.unref).bml b.next = Bml.unref (b₁.bml b.next) := update_self ..
  rw [hkin] at hself
  refine ⟨rfl, by rw [hself]; rfl, by rw [hself]; rfl, by rw [hself]; rfl, fun x hxl hx => ?_⟩
  obtain ⟨g, c, d, hb, -⟩ :=
    ((mdsBmapBmlAdd_moves hadd).toElsewhere.trans (elsewhere_modify b.next b₁ Bml.unref)).near x hxl
  rw [hb] at hx ⊢
  exact push_fewer b rfl x hx

section Joined

variable {m : Bml}

theorem Joined.told (hj : Joined s.bmap b' l m) (hs' : Sound b')
    (hall : ∀ x, (s.bmap.bml x).bmi → (s.bmap.bml x).cnp ≠ m.cnp →
      s.told (s.bmap.bml x).cnp) : Coherent (s.tell b' (some m.cnp)) := by
  refine Coherent.of_allTold hs' fun x hx => ?_
  by_cases hc : (b'.bml x).cnp = m.cnp
  · exact Server.told_of_informed hs' hx hc
  have hxl : x ≠ l := fun hxl => hc (hxl ▸ hj.cnp)
  obtain ⟨hx', hxc, -, -⟩ := hj.others x hxl hx
  refine Server.told_of_told hs' hx ?_
  rw [hxc]
  exact hall x hx' (hxc ▸ hc)

theorem Joined.quiet (hj : Joined s.bmap b' l m) (h : Coherent s) (hs' : Sound b')
    (hd : b'.dio = false) (hm : m.dio = false) (hsh : ¬ Shared b') (c? : Option Nidpid) : Coherent (s.tell b' c?) := by
  refine ⟨hs', fun hd' => ?_, fun x hx hxd => ?_, fun hsh' => absurd hsh' hsh⟩
  · exact clash hd' hd
  · by_cases hxl : x = l
    · subst hxl
      exact clash hxd (hj.dio.trans hm)
    · obtain ⟨hx', hxc, -, hxd'⟩ := hj.others x hxl hx
      refine Server.told_of_told hs' hx ?_
      rw [hxc]
      exact h.agreed x hx' (hxd'.symm.trans hxd)

theorem Joined.alone (hj : Joined b b' l m) (hall : ∀ x, (b.bml x).bmi → (b.bml x).cnp = m.cnp) :
    ¬ Shared b' := by
  rintro ⟨x, y, hx, hy, hxy, -⟩
  have hone (z : ℕ) (hz : (b'.bml z).bmi = true) : (b'.bml z).cnp = m.cnp := by
    by_cases hzl : z = l
    · rw [hzl]
      exact hj.cnp
    obtain ⟨hz', hzc, -, -⟩ := hj.others z hzl hz
    rw [hzc]
    exact hall z hz'
  exact hxy ((hone x hx).trans (hone y hy).symm)

theorem Joined.calm (hj : Joined b b' l m) (hs : Sound b) (hw : b.writers = 0)
    (hr : m.rw = .write → b.readers = 0) : ¬ Shared b' := by
  rintro ⟨x, y, hx, hy, hxy, hxw⟩
  have hxl : x = l := by
    by_contra hxl
    obtain ⟨hx', -, hxw', -⟩ := hj.others x hxl hx
    exact hs.writers_eq_zero.mp hw ⟨x, hx', hxw'.symm.trans hxw⟩
  have hwrite : m.write := by
    rw [← hj.write, ← hxl]
    exact hxw
  have hyl : y = l := by
    by_contra hyl
    obtain ⟨hy', -⟩ := hj.others y hyl hy
    exact absurd (hy'.symm.trans (hs.no_leases hw (hr (if_pos hwrite)) y)) (by decide)
  exact hxy (by rw [hxl, hyl])

end Joined

theorem Coherent.granted {ios : ℕ} (h : Coherent s)
    (hadd : mdsBmapBmlAdd e s.bmap.next (mdsBmlNew cnp rw' dio s.bmap) = some (b₁, 0))
    (hrel : mdsBmapBmlRelease s.bmap.next b₁ = some b') (hs' : Sound b') : Coherent (s.tell b' (informed s.bmap
      (some (slmFillBmapdesc ⟨(b₁.bml s.bmap.next).seq, ios, false⟩ b₁))
      (.lease cnp rw' dio e))) := by
  obtain ⟨hdio, hj⟩ := granted_joined hadd hrel
  have hself : (mdsBmlNew cnp rw' dio s.bmap).bml s.bmap.next = requestedBml cnp rw' dio :=
    push_self s.bmap _
  have hs := mdsBmlNew_sound h.sound cnp rw' dio
  obtain ⟨b₀, rc₀, hdec, hmode, hrc, -⟩ := mdsBmapBmlAdd_mode hs (by rw [hself]; rfl) hadd
  rw [hself] at hdec
  -- the decision was made about the leases there were
  have hattached {x : ℕ} (hx : (s.bmap.bml x).bmi = true) : (mdsBmlNew cnp rw' dio s.bmap).bml x = s.bmap.bml x := by
    refine update_of_ne (fun hxl => ?_) ..
    obtain ⟨L, hR⟩ := h.sound.rings
    exact Nat.lt_irrefl _ (hxl ▸ hR.booked.made x hx)
  have htells (hd : b₀.dio = true) : informed s.bmap
      (some (slmFillBmapdesc ⟨(b₁.bml s.bmap.next).seq, ios, false⟩ b₁)) (.lease cnp rw' dio e) = some cnp := by
    simp [informed, tells, slmFillBmapdesc, hmode, hd]
  cases hdec with
  | already hb hb' =>
    rw [htells hb']
    exact hj.told hs' fun x hx _ => h.mode hb x hx
  | waits hb hb' hne => exact absurd (hrc rfl) hne
  | enters hb hb' h0 hall =>
    rw [htells hb']
    refine hj.told hs' fun x hx hne => h.agreed x hx ?_
    rw [← hattached hx]
    exact hall x (by rw [hattached hx]; exact hx) (by rw [hattached hx]; exact hne)
  | alone hb hb' h0 hwant hall =>
    refine hj.quiet h hs' (hdio.trans (hmode.trans hb')) hwant (hj.alone fun x hx => ?_) _
    rw [← hattached hx]
    exact hall x (by rw [hattached hx]; exact hx)
  | calm hb hb' h0 hwant hw hr =>
    exact hj.quiet h hs' (hdio.trans (hmode.trans hb')) hwant (hj.calm h.sound hw hr) _

end Lease

/-! ### A lease is upgraded -/

/-- An upgrade that turns the mode finds its client told or alone, or others still to be told. -/
def Heard (s : Server) : Event → Prop
  | .upgrade l _ _ => (s.bmap.bml l).write ∨ s.bmap.dio ∨
      s.told (s.bmap.bml l).cnp ∨
      (s.bmap.diocb = false ∧ ∀ x ∈ s.bmap.attached, (s.bmap.bml x).cnp = (s.bmap.bml l).cnp) ∨
      ∃ x ∈ s.bmap.attached, (s.bmap.bml x).cnp ≠ (s.bmap.bml l).cnp ∧ (s.bmap.bml x).dio = false
  | _ => True

instance (s : Server) : ∀ ev, Decidable (Heard s ev)
  | .lease .. | .getbml .. | .ack .. | .upgrade .. | .reassign .. | .free .. | .release .. => by
    unfold Heard
    infer_instance

variable {rc : Option ℤ}

theorem mdsBmapBmlChwrmode_mode {b : Bmap} (hs : Sound b)
    (hw : (b.bml l).write = false) (hch : mdsBmapBmlChwrmode e l b = some (b', rc)) :
    (∃ b₀ rc₀, Decided b .write false (b.bml l).cnp b₀ rc₀ ∧ b'.dio = b₀.dio ∧ (rc₀ ≠ 0 → (b'.bml l).write = false)) ∧
    (b'.bml l).cnp = (b.bml l).cnp ∧ (b'.bml l).dio = (b.bml l).dio := by
  rcases mdsBmapBmlChwrmode_cases hch with ⟨hw', -⟩ | ⟨-, b₀, rc₀, hdio, hcont⟩
  · exact clash hw' hw
  have hdec := mdsBmapDirectio_spec hs hdio
  obtain ⟨g, a, c, dcb, hb₀⟩ := mdsBmapDirectio_placed hdio l
  rcases hcont with ⟨-, rfl, -⟩ | ⟨hrc₀, b₁, rc₁, hios, hturn⟩
  · refine ⟨⟨_, rc₀, hdec, rfl, fun _ => ?_⟩, ?_, ?_⟩
    · rw [hb₀]
      exact hw
    · rw [hb₀]
    · rw [hb₀]
  obtain ⟨g', a', c', d', i', s', f', hb₁⟩ := (iosChange_reassigned hios).moves.kin
  rw [hb₀] at hb₁
  rcases hturn with ⟨-, rfl, -⟩ | ⟨-, -, d, -, rfl⟩
  · rw [modify_bml, hb₁]
    have hdio₁ : (b₁.modify l Bml.refused).dio = b₁.dio := rfl
    exact ⟨⟨b₀, rc₀, hdec, hdio₁.trans (iosChange_reassigned hios).dio, fun hne => absurd hrc₀ hne⟩, rfl, rfl⟩
  rw [modify_bml, (countUpgrade_counted ..).bml, hb₁]
  have hdio₁ : ((countUpgrade d b₁).modify l Bml.turned).dio = b₁.dio := (countUpgrade_counted d b₁).dio
  exact ⟨⟨b₀, rc₀, hdec, hdio₁.trans (iosChange_reassigned hios).dio, fun hne => absurd hrc₀ hne⟩, rfl, rfl⟩

theorem Coherent.upgraded (h : Coherent s) (hl : (s.bmap.bml l).bmi) {dio : Bool}
    (hheard : Heard s (.upgrade l e dio)) (hch : mdsBmapBmlChwrmode e l s.bmap = some (b', rc)) (c? : Option Nidpid) :
    Coherent (s.tell b' c?) := by
  have hs' := mdsBmapBmlChwrmode_sound h.sound hl hch
  by_cases hw : (s.bmap.bml l).write = true
  · rcases mdsBmapBmlChwrmode_cases hch with ⟨-, rfl, -⟩ | ⟨hw', -⟩
    · exact h.of_fewer hs' (fun x hx => ⟨hx, rfl, rfl, rfl⟩) h.mode
    · exact clash hw hw'
  have hread : (s.bmap.bml l).write = false := by simpa using hw
  obtain ⟨⟨b₀, rc₀, hdec, hmode, hwait⟩, hlc, hld⟩ := mdsBmapBmlChwrmode_mode h.sound hread hch
  have he := mdsBmapBmlChwrmode_elsewhere hch
  -- the clients and what they have agreed to are as before
  have hsame (x : ℕ) (hx : (b'.bml x).bmi = true) : (s.bmap.bml x).bmi = true ∧
      (b'.bml x).cnp = (s.bmap.bml x).cnp ∧ (b'.bml x).dio = (s.bmap.bml x).dio := by
    by_cases hxl : x = l
    · subst hxl
      exact ⟨hl, hlc, hld⟩
    obtain ⟨g, c, d, hb, -⟩ := he.near x hxl
    rw [hb] at hx ⊢
    exact ⟨hx, rfl, rfl⟩
  have hall (h' : AllTold s) : Coherent (s.tell b' c?) := by
    refine Coherent.of_allTold hs' fun x hx => ?_
    obtain ⟨hx', hxc, -⟩ := hsame x hx
    exact Server.told_of_told hs' hx (hxc ▸ h' x hx')
  have hquiet (hd : b₀.dio = false) (hsh : Shared b' → AllTold s) : Coherent (s.tell b' c?) := by
    refine ⟨hs', fun hd' => ?_, fun x hx hxd => ?_, fun hsh' => (hall (hsh hsh')).shared hsh'⟩
    · exact clash hd' (hmode.trans hd)
    · obtain ⟨hx', hxc, hxd'⟩ := hsame x hx
      exact Server.told_of_told hs' hx (hxc ▸ h.agreed x hx' (hxd'.symm.trans hxd))
  cases hdec with
  | already hb => exact hall (h.mode hb)
  | waits hb hb' hne =>
    -- the lease is still a read lease
    refine hquiet hb' fun hsh => h.shared ((he.fewer fun hx => ?_).shared hsh)
    exact ⟨hl, hlc, (hwait hne).trans hread.symm, hld⟩
  | enters hb hb' h0 hagreed hwhy =>
    have hknows : s.told (s.bmap.bml l).cnp := by
      rcases hheard with hw' | hdio | htold | ⟨hcb, hone⟩ | ⟨x, hx, hxc, hxd⟩
      · exact absurd hw' hw
      · exact clash hdio hb
      · exact htold
      · rcases hwhy with hwant | hcb' | ⟨x, hx, hne⟩
        · cases hwant
        · exact clash hcb' hcb
        · exact absurd (hone x (h.sound.mem_attached.mpr hx)) hne
      · exact absurd ((hagreed x (h.sound.mem_attached.mp hx) hxc).symm.trans hxd) (by decide)
    refine hall fun x hx => ?_
    by_cases hxc : (s.bmap.bml x).cnp = (s.bmap.bml l).cnp
    · rw [hxc]
      exact hknows
    · exact h.agreed x hx (hagreed x hx hxc)
  | alone hb hb' h0 hwant hone =>
    refine hquiet hb' ?_
    rintro ⟨x, y, hx, hy, hxy, -⟩
    obtain ⟨hx', hxc, -⟩ := hsame x hx
    obtain ⟨hy', hyc, -⟩ := hsame y hy
    exact absurd (hxc.trans ((hone x hx').trans ((hone y hy').symm.trans hyc.symm))) hxy
  | calm hb hb' h0 hwant hw0 hr0 =>
    exact clash hl (h.sound.no_leases hw0 (hr0 rfl) l)

theorem fewer_modify (b : Bmap) (l : ℕ) (f : Bml → Bml) (hf : ∀ m, (f m).toLink = m.toLink := by intro; rfl)
    (hd : ∀ m, (f m).dio = m.dio := by intro; rfl) : Fewer b (b.modify l f) := by
  refine (elsewhere_modify l b f).fewer fun hx => ?_
  rw [modify_bml, hf] at hx
  rw [modify_bml, hf, hd]
  exact ⟨hx, rfl, rfl, rfl⟩

theorem mdsBmapGetbml_found {b : Bmap} {seq : ℕ} {cnp : Nidpid} (hs : Sound b)
    (h : mdsBmapGetbml b seq cnp = some (b', some l)) :
    b' = b.modify l Bml.ref ∧ (b.bml l).bmi ∧ (b.bml l).cnp = cnp := by
  rcases mdsBmapGetbml_cases h with ⟨-, hnone⟩ | ⟨l', ls, hls, hmem, -, hb', hl⟩
  · cases hnone
  cases hl
  obtain ⟨L, hR⟩ := hs.rings
  obtain ⟨ls', hls', hiff⟩ := everyLease_spec hR (b.leases.filter fun l => (b.bml l).cnp = cnp)
    fun x hx => (mem_filter.mp hx).1
  obtain rfl : ls = ls' := Option.some.inj (hls.symm.trans hls')
  obtain ⟨hcell, y, hy, hyc⟩ := (hiff l).mp hmem
  exact ⟨hb', (hR.attached l).mp hcell, hyc.trans (by simpa using (mem_filter.mp hy).2)⟩

theorem Coherent.acked (h : Coherent s) (hc : (s.bmap.bml l).cnp = c)
    (hs' : Sound ((s.bmap.modify l Bml.ref).modify l Bml.agreed)) :
    Coherent (s.tell ((s.bmap.modify l Bml.ref).modify l Bml.agreed) (some c)) := by
  have hsame (x : ℕ) : (((s.bmap.modify l Bml.ref).modify l Bml.agreed).bml x).toLink = (s.bmap.bml x).toLink := by
    have hbook : ((s.bmap.modify l Bml.ref).modify l Bml.agreed).book = s.bmap.book :=
      (book_modify_same _ l Bml.agreed).trans (book_modify_same _ l Bml.ref)
    exact congrFun (congrArg Book.link hbook) x
  have hold (x : ℕ) (hx : (((s.bmap.modify l Bml.ref).modify l Bml.agreed).bml x).bmi = true)
      (h' : s.told (s.bmap.bml x).cnp = true) :
      (s.tell ((s.bmap.modify l Bml.ref).modify l Bml.agreed) (some c)).told
        (((s.bmap.modify l Bml.ref).modify l Bml.agreed).bml x).cnp = true := by
    refine Server.told_of_told hs' hx ?_
    rw [hsame]
    exact h'
  refine ⟨hs', fun hd x hx => ?_, fun x hx hxd => ?_, fun hsh x hx => ?_⟩
  · exact hold x hx (h.mode hd x (by rw [← hsame]; exact hx))
  · by_cases hxl : x = l
    · refine Server.told_of_informed hs' hx ?_
      rw [hsame, hxl]
      exact hc
    have hb : ((s.bmap.modify l Bml.ref).modify l Bml.agreed).bml x = s.bmap.bml x :=
      (update_of_ne hxl ..).trans (update_of_ne hxl ..)
    refine hold x hx (h.agreed x (by rw [← hsame]; exact hx) ?_)
    rw [← hb]
    exact hxd
  · refine hold x hx (h.shared ?_ x (by rw [← hsame]; exact hx))
    obtain ⟨y, z, hy, hz, hyz, hyw⟩ := hsh
    simp only [Server.tell, hsame] at hy hz hyz hyw
    exact ⟨y, z, hy, hz, hyz, hyw⟩

theorem Coherent.released (h : Coherent s) (hrel : mdsBmapBmlRelease l s.bmap = some b') (c? : Option Nidpid) :
    Coherent (s.tell b' c?) := by
  have hs' := mdsBmapBmlRelease_sound h.sound hrel
  refine h.of_fewer hs' ?_ fun hd => h.mode (mdsBmapBmlRelease_dio hrel hd).1
  refine (mdsBmapBmlRelease_elsewhere hrel).fewer fun hl => ?_
  rcases mdsBmapBmlRelease_cases hrel with ⟨-, -, rfl⟩ | ⟨-, hoff, rfl⟩ | ⟨hf, hrc, -, -⟩
  · exact (fewer_modify s.bmap l Bml.unref) l hl
  · rw [pool_bml] at hl
    exact clash hl hoff
  · exact clash hl (mdsBmapBmlRelease_off hf hrc hrel)

theorem serve_coherent {t : Server} {ev : Event} (h : Coherent s) (hheard : Heard s ev)
    (hstep : serve s ev = some t) : Coherent t := by
  obtain ⟨hen, hstep⟩ := Option.ite_none_right_eq_some.mp hstep
  obtain ⟨⟨b', sbd⟩, hd, rfl⟩ := Option.map_eq_some_iff.mp hstep
  have hs' : Sound b' := step_sound h.sound (by
    rw [step, if_pos hen, hd]
    rfl)
  cases handled hd with
  | lease h' =>
    obtain ⟨b₁, rc, hadd, ⟨-, rfl, hrel⟩ | ⟨rfl, hrel, ios, -, rfl⟩⟩ := mdsBmapLoadCli_cases h'
    · exact h.failed hadd hrel hs' _
    · exact h.granted hadd hrel hs'
  | getbml h' =>
    rcases mdsBmapGetbml_cases h' with ⟨rfl, -⟩ | ⟨l, ls, -, -, -, rfl, -⟩
    · exact h.of_fewer hs' (fun x hx => ⟨hx, rfl, rfl, rfl⟩) h.mode
    · exact h.of_fewer hs' (fewer_modify _ l Bml.ref) h.mode
  | lost h' =>
    rcases mdsBmapGetbml_cases h' with ⟨rfl, -⟩ | ⟨l, ls, -, -, -, -, hl⟩
    · exact h.of_fewer hs' (fun x hx => ⟨hx, rfl, rfl, rfl⟩) h.mode
    · cases hl
  | @acked seq cnp b₁ l h' =>
    obtain ⟨rfl, -, hc⟩ := mdsBmapGetbml_found h.sound h'
    have hinf : informed s.bmap none (.ack seq cnp) = some cnp := by
      simp only [informed, slmcohReleasebml, h', Option.map_some, Option.bind_some]
    show Coherent (s.tell _ (informed s.bmap none (.ack seq cnp)))
    rw [hinf]
    exact h.acked hc hs'
  | upgrade h' =>
    obtain ⟨rc, hch, -⟩ := slmRmcHandleBmapChwrmode_cases h'
    exact h.upgraded hen.1 hheard hch _
  | reassign h' =>
    rcases mdsLeaseReassign_cases h' with ⟨rfl, -⟩ | ⟨bia, r, -, -, -, -, -, -, -, rfl, -⟩
    · exact h.of_fewer hs' (fun x hx => ⟨hx, rfl, rfl, rfl⟩) h.mode
    · exact h.of_fewer hs' (fewer_modify _ _ (fun m => { m with seq := _, ios := r })) h.mode
  | free =>
    exact h.of_fewer hs' (fewer_modify _ _ (fun m => { m with freeing := true })) h.mode
  | release h' => exact h.released h' _

theorem coherent_idle (fid bmapno : ℕ) : Coherent (Server.idle fid bmapno) :=
  Coherent.of_allTold (sound_unleased fid bmapno) fun _ hx => (Bool.false_ne_true hx).elim

/-- **Direct I/O coherence**, if who upgrades knows of direct I/O, or there is none. -/
theorem dio_coherent_run (fid bmapno : ℕ) {evs : List Event} {s : Server}
    (hheard : Admits serve Heard (Server.idle fid bmapno) evs)
    (hrun : run serve (Server.idle fid bmapno) evs = some s) {x y z : ℕ}
    (hx : x ∈ s.bmap.attached) (hy : y ∈ s.bmap.attached)
    (hxy : (s.bmap.bml x).cnp ≠ (s.bmap.bml y).cnp) (hw : (s.bmap.bml x).write = true)
    (hz : z ∈ s.bmap.attached) : s.told (s.bmap.bml z).cnp = true := by
  have h : Coherent s := run_invariant (fun h hok hst => serve_coherent h hok hst)
    (coherent_idle fid bmapno) hheard hrun
  exact h.shared ⟨x, y, h.sound.mem_attached.mp hx, h.sound.mem_attached.mp hy, hxy, hw⟩ z
    (h.sound.mem_attached.mp hz)

def writeThenShare : List Event :=
  [.lease ⟨1, 1⟩ .read false .fine, .getbml 5 ⟨1, 1⟩, .upgrade 0 { Env.fine with seq := 6 } false,
   .release 0, .lease ⟨2, 1⟩ .read false { Env.fine with seq := 7 }, .ack 6 ⟨1, 1⟩, .release 0,
   .lease ⟨2, 1⟩ .read false { Env.fine with seq := 8 }]

theorem dio_coherent_writeThenShare : ∃ s, run serve (Server.idle 1 0) writeThenShare = some s ∧
    (s.bmap.bml 0).write = true ∧ (s.bmap.bml 0).cnp ≠ (s.bmap.bml 2).cnp ∧
    2 ∈ s.bmap.attached ∧ ∀ z ∈ s.bmap.attached, s.told (s.bmap.bml z).cnp = true := by
  have hrun : ∃ s ∈ run serve (Server.idle 1 0) writeThenShare, 0 ∈ s.bmap.attached ∧
      2 ∈ s.bmap.attached ∧ (s.bmap.bml 0).cnp ≠ (s.bmap.bml 2).cnp ∧ (s.bmap.bml 0).write = true := by decide
  have hheard : Admits serve Heard (Server.idle 1 0) writeThenShare := by decide
  obtain ⟨s, hs, h0, h2, hne, hw⟩ := hrun
  exact ⟨s, hs, hw, hne, h2, fun z hz => dio_coherent_run 1 0 hheard hs h0 h2 hne hw hz⟩

/-- **A writer that was never told.** Two clients read. -/
theorem upgraded_untold : ∃ s ∈ run serve (Server.idle 1 0)
      [.lease ⟨1, 1⟩ .read false .fine, .lease ⟨2, 1⟩ .read false { Env.fine with seq := 6 },
       .getbml 5 ⟨1, 1⟩, .upgrade 0 { Env.fine with seq := 7 } false, .ack 6 ⟨2, 1⟩, .release 1,
       .upgrade 0 { Env.fine with seq := 8 } false, .release 0],
    0 ∈ s.bmap.attached ∧ 1 ∈ s.bmap.attached ∧ (s.bmap.bml 0).cnp = ⟨1, 1⟩ ∧
    (s.bmap.bml 0).write = true ∧ (s.bmap.bml 1).cnp = ⟨2, 1⟩ ∧ s.bmap.dio = true ∧ s.told ⟨1, 1⟩ = false := by
  decide

end Slash2.Lease
