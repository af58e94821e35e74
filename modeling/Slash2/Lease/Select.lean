/-
# Choosing the I/O server of a write lease

`slm_resm_select` chooses the member that a bmap is assigned to. The members of the resources that have a `VALID`
replica are tried first, then those of the resource the client prefers and all others of the site, each round shuffled.
A client that asks for another server says which ones it has had; the bmap must then have one replica, on one of these.

Key theorem: `select_iff`.
-/
import Slash2.Lease.Bml
import Slash2.Lib.Extend
import Slash2.Residency.Activate

namespace Slash2.Lease.Select

open Lib Residency List Option

/-! ### The configuration -/

/-- `enum sl_res_type` -/
inductive ResType where
  | none
  | archivalFs
  | clusterNoshareLfs
  | mds
  | parallelCompnt
  | parallelLfs
  | standaloneFs
  deriving DecidableEq

/-- `struct sl_resm` -/
structure Resm where
  resId : IosId
  deriving DecidableEq

/-- `struct sl_resource` -/
structure Res where
  id : IosId
  type : ResType
  members : List Resm
  deriving DecidableEq

/-- `RES_ISFS` -/
def Res.isFs (r : Res) : Bool :=
  r.type = .archivalFs ∨ r.type = .parallelCompnt ∨ r.type = .standaloneFs

/-- `RES_ISCLUSTER` -/
def Res.isCluster (r : Res) : Bool := r.type = .clusterNoshareLfs ∨ r.type = .parallelLfs

/-- What `slcfg_parse` makes; a file system has one member. -/
structure Config where
  /-- `gconf_res_hashtbl` -/
  res : List Res
  /-- `nodeSite->site_resources` -/
  site : List Res
  own : ∀ r ∈ res, r.isFs → r.members = [⟨r.id⟩]

variable (cfg : Config)

/-- `libsl_id2res` -/
def Config.id2res (id : IosId) : Option Res := cfg.res.find? (·.id = id)

/-- `libsl_try_ios2resm` -/
def Config.tryIos2resm (id : IosId) : Option (Option Resm) :=
  match cfg.id2res id with
  | none => some none
  | some r => if r.isFs then r.members[0]?.map some else none

structure Timespec where
  sec : ℕ
  nsec : ℕ

/-- `timespeccmp(&a, &b, <)` -/
def Timespec.before (a b : Timespec) : Bool := a.sec < b.sec ∨ a.sec = b.sec ∧ a.nsec < b.nsec

/-- `struct sl_mds_iosinfo` -/
structure Iosinfo where
  disableLease : Bool
  disableAdvlease : Bool
  lastcomm : Timespec

structure Servers where
  iosinfo : IosId → Iosinfo
  /-- `slm_geticsvc` without waiting: there is a connection -/
  icsvc : Resm → Bool
  now : Timespec

def csvcPingIntv : ℕ := 60

variable (srv : Servers)

def mdsSliodAlive (si : Iosinfo) : Bool :=
  si.lastcomm.sec ≠ 0 ∧ srv.now.before { si.lastcomm with sec := si.lastcomm.sec + csvcPingIntv * 2 }

def slmTrySliodresm (m : Resm) : Bool :=
  let si := srv.iosinfo m.resId
  if si.disableLease ∨ si.disableAdvlease then false
  else if srv.icsvc m then mdsSliodAlive srv si
  else false

/-- `struct slash_inode_handle` -/
structure Inoh where
  ino : Inode
  /-- bit 0 of `inoh_flags`: `slm_get_ioslist` tests it as `INOF_IOS_AFFINITY`, which is a flag of `ino_flags`; in
  `inoh_flags` it is `INOH_INO_NEW`, set until the inode has been written or read. -/
  affinity : Bool

def slmResFillmembers (r : Res) (a : List Resm) (shuffle : Option (ℕ → ℕ)) : List Resm :=
  let b := r.members.foldl addIfdne a
  match shuffle with
  | some rnd => shuffleFrom rnd a.length b
  | none => b

/-- `slm_get_ioslist`: the members of the first replica's resource. -/
def addAffine (rnd : ℕ → ℕ) (h : Inoh) (a : List Resm) : List Resm :=
  if h.affinity then
    match cfg.id2res (fcmh2Repl h.ino 0) with
    | some r => slmResFillmembers r a (some rnd)
    | none => a
  else a

/-- `slm_get_ioslist`: archival resources must be asked for. -/
def Config.others (pios : Res) : List Res :=
  cfg.site.filter fun r => r.isFs ∧ r ≠ pios ∧ r.type ≠ .archivalFs

/-- `slm_get_ioslist`: everything else. -/
def addOthers (rnd : ℕ → ℕ) (pios : Res) (a : List Resm) : List Resm :=
  shuffleFrom rnd a.length ((cfg.others pios).foldl (fun a r => slmResFillmembers r a none) a)

def slmGetIoslist (rnd : ℕ → ℕ → ℕ) (h : Inoh) (piosid : IosId) (a : List Resm) : List Resm :=
  match cfg.id2res piosid with
  | none => a
  | some pios =>
    if pios.isFs ∨ pios.isCluster then
      addOthers cfg (rnd 2) pios (slmResFillmembers pios (addAffine cfg (rnd 0) h a) (some (rnd 1)))
    else a

/-! ### The choice -/

structure Gathered where
  repls : ℕ
  a : List Resm
  resm : Option Resm

variable (h : Inoh) (d : Repls) (g : Gathered)

def gatherStep (i : ℕ) : Option Gathered :=
  let val := stateAt d i
  let g := if val ≠ .invalid then { g with repls := g.repls + 1 } else g
  if val ≠ .valid then some g
  else do
    let resm ← cfg.tryIos2resm (fcmh2Repl h.ino i)
    some { g with a := g.a ++ resm.toList, resm }

def gather : Option Gathered :=
  (range h.ino.nrepls).foldlM (gatherStep cfg h d) ⟨0, [], none⟩

def search (toSkip : List IosId) (a : List Resm) : Option Resm :=
  a.find? fun m => m.resId ∉ toSkip ∧ slmTrySliodresm srv m

/-- `slm_resm_select`; `none` if the server stops there. -/
def slmResmSelect (rnd : ℕ → ℕ → ℕ) (h : Inoh) (d : Repls) (pios : IosId)
    (toSkip : List IosId) : Option (Option Resm) := do
  let g ← gather cfg h d
  if toSkip ≠ [] then
    -- `goto out`: the request is not valid
    if g.repls ≠ 1 then some g.resm
    else
      let resm ← g.a[0]?
      let ios := if resm.resId ∈ toSkip then resm.resId else iosIdAny
      if ios = iosIdAny then some (some resm)
      else some (search srv toSkip (slmGetIoslist cfg rnd h pios []))
  else if g.repls ≠ 0 ∧ g.a = [] then some none
  else some (search srv toSkip (slmGetIoslist cfg rnd h pios g.a))

/-- The replicas in use that are `VALID`. -/
def valids : List ℕ := (range h.ino.nrepls).filter fun i => stateAt d i = .valid

/-- The replicas in use that are not `INVALID`. -/
def actives : List ℕ := (range h.ino.nrepls).filter fun i => stateAt d i ≠ .invalid

def Config.member (id : IosId) : Option Resm := (cfg.id2res id).map fun r => ⟨r.id⟩

/-- The member of the resource of replica `i`. -/
def Config.memberOf (i : ℕ) : Option Resm := cfg.member (fcmh2Repl h.ino i)

/-- The members of the resources with a `VALID` replica. -/
def validMembers : List Resm := (valids h d).filterMap (cfg.memberOf h)

/-- **What is to be chosen**, or nothing. -/
def Right (h : Inoh) (d : Repls) (toSkip : List IosId) (r : Option Resm) : Prop :=
  (toSkip = [] → validMembers cfg h d ≠ [] → ∀ m ∈ r, m ∈ validMembers cfg h d) ∧
    (toSkip ≠ [] → ∀ m ∈ r, m.resId ∉ toSkip) ∧ ∀ m ∈ r, slmTrySliodresm srv m
  deriving Decidable

/-- A member beyond those with a `VALID` replica. -/
def Offered (piosid : IosId) (m : Resm) : Prop :=
  ∃ pios, cfg.id2res piosid = some pios ∧ (pios.isFs ∨ pios.isCluster) ∧
    ((h.affinity ∧ ∃ r, cfg.id2res (fcmh2Repl h.ino 0) = some r ∧ m ∈ r.members) ∨ m ∈ pios.members ∨
      ∃ r ∈ cfg.others pios, m ∈ r.members)

structure Selectable (cfg : Config) (srv : Servers) (h : Inoh) (d : Repls) (pios : IosId) (toSkip : List IosId) :
    Prop where
  /-- `VALID` replicas are on file systems, if known. -/
  fs : ∀ i ∈ valids h d, ∀ r, cfg.id2res (fcmh2Repl h.ino i) = some r → r.isFs
  /-- A `VALID` member can be reached, or no other either. -/
  reached : toSkip = [] → validMembers cfg h d ≠ [] →
    (∃ m ∈ validMembers cfg h d, slmTrySliodresm srv m) ∨ ∀ m, Offered cfg h pios m → slmTrySliodresm srv m = false
  /-- The only replica is `VALID`, and was tried or can be reached. -/
  only : toSkip ≠ [] → (actives h d).length = 1 → ∃ m ∈ validMembers cfg h d,
    (m.resId ∈ toSkip ∧ m.resId ≠ iosIdAny) ∨ (m.resId ∉ toSkip ∧ slmTrySliodresm srv m)
  /-- Else the last `VALID` one is new and can be reached. -/
  last : toSkip ≠ [] → (actives h d).length ≠ 1 → ∀ i ∈ (valids h d).getLast?, ∀ m ∈ cfg.memberOf h i,
    m.resId ∉ toSkip ∧ slmTrySliodresm srv m

/-! ### Looking up a member -/

variable {cfg srv h d} {rnd : ℕ → ℕ → ℕ} {pios : IosId} {toSkip : List IosId} {id : IosId} {r : Res}

theorem Config.id2res_some (hr : cfg.id2res id = some r) : r ∈ cfg.res ∧ r.id = id :=
  ⟨mem_of_find?_eq_some hr, by simpa using find?_some hr⟩

theorem Config.tryIos2resm_eq (hfs : ∀ r, cfg.id2res id = some r → r.isFs) :
    cfg.tryIos2resm id = some (cfg.member id) := by
  rw [Config.tryIos2resm, Config.member]
  cases hr : cfg.id2res id with
  | none => rfl
  | some r =>
    have hown := cfg.own r (Config.id2res_some hr).1 (hfs r hr)
    simp [hfs r hr, hown]

theorem Config.tryIos2resm_eq_none (hr : cfg.id2res id = some r) (hfs : r.isFs = false) :
    cfg.tryIos2resm id = none := by
  simp [Config.tryIos2resm, hr, hfs]

theorem slmResFillmembers_extends (r : Res) (a : List Resm) (shuffle : Option (ℕ → ℕ)) :
    Extends a (slmResFillmembers r a shuffle) (· ∈ r.members) := by
  have hfill := Extends.foldl_addIfdne r.members a
  cases shuffle with
  | none => exact hfill
  | some rnd => exact hfill.shuffleFrom rnd

theorem addAffine_extends (cfg : Config) (rnd : ℕ → ℕ) (h : Inoh) (a : List Resm) : Extends a (addAffine cfg rnd h a)
      fun m => h.affinity ∧ ∃ r, cfg.id2res (fcmh2Repl h.ino 0) = some r ∧ m ∈ r.members := by
  rw [addAffine]
  cases haff : h.affinity with
  | false => exact (Extends.refl a).congr (by simp)
  | true =>
    cases hr : cfg.id2res (fcmh2Repl h.ino 0) with
    | none => exact (Extends.refl a).congr (by simp)
    | some r =>
      refine (slmResFillmembers_extends r a (some rnd)).congr fun m => ?_
      simp

theorem addOthers_extends (cfg : Config) (rnd : ℕ → ℕ) (p : Res) (a : List Resm) :
    Extends a (addOthers cfg rnd p a) fun m => ∃ r ∈ cfg.others p, m ∈ r.members :=
  (Extends.foldl (fun a r => slmResFillmembers_extends r a none) (cfg.others p) a).shuffleFrom rnd

theorem slmGetIoslist_extends (cfg : Config) (rnd : ℕ → ℕ → ℕ) (h : Inoh) (pios : IosId) (a : List Resm) :
    Extends a (slmGetIoslist cfg rnd h pios a) (Offered cfg h pios) := by
  rw [slmGetIoslist]
  cases hp : cfg.id2res pios with
  | none => exact (Extends.refl a).congr (by simp [Offered, hp])
  | some p =>
    dsimp only
    split_ifs with hio
    · refine ((addAffine_extends cfg (rnd 0) h a).trans ((slmResFillmembers_extends p _ _).trans
        (addOthers_extends cfg (rnd 2) p _))).congr fun m => ?_
      simp [Offered, hp, hio]
    · exact (Extends.refl a).congr (by simp [Offered, hp, hio])

/-! ### The loop over the replicas -/

theorem gatherStep_valid {i : ℕ} (hv : stateAt d i = .valid)
    (hfs : ∀ r, cfg.id2res (fcmh2Repl h.ino i) = some r → r.isFs) :
    gatherStep cfg h d g i = some ⟨g.repls + 1, g.a ++ (cfg.memberOf h i).toList, cfg.memberOf h i⟩ := by
  rw [gatherStep, hv, Config.tryIos2resm_eq hfs]
  rfl

theorem gatherStep_of_ne {i : ℕ} (hv : stateAt d i ≠ .valid) :
    gatherStep cfg h d g i = some ⟨g.repls + (if stateAt d i ≠ .invalid then 1 else 0), g.a, g.resm⟩ := by
  rw [gatherStep, if_pos hv]
  split <;> rfl

theorem foldlM_gatherStep : ∀ (is : List ℕ) (g : Gathered),
    (∀ i ∈ is, stateAt d i = .valid → ∀ r, cfg.id2res (fcmh2Repl h.ino i) = some r → r.isFs) →
    is.foldlM (gatherStep cfg h d) g = some
      { repls := g.repls + (is.filter fun i => stateAt d i ≠ .invalid).length
        a := g.a ++ (is.filter fun i => stateAt d i = .valid).filterMap (cfg.memberOf h)
        resm := ((is.filter fun i => stateAt d i = .valid).getLast?.map (cfg.memberOf h)).getD g.resm }
  | [], g, _ => by simp
  | i :: is, g, hfs => by
    have ih := fun g => foldlM_gatherStep is g fun j hj => hfs j (mem_cons_of_mem i hj)
    rw [foldlM_cons]
    by_cases hv : stateAt d i = .valid
    · rw [gatherStep_valid g hv (hfs i mem_cons_self hv), bind_eq_bind, bind_some, ih]
      simp only [filter_cons, hv, decide_true, ↓reduceIte, getLast?_cons, ne_eq, reduceCtorEq,
        not_false_eq_true, length_cons, filterMap_cons, map_some, getD_some]
      congr 2
      · omega
      · cases cfg.memberOf h i <;> simp
      · cases (is.filter fun i => stateAt d i = .valid).getLast? <;> rfl
    · rw [gatherStep_of_ne g hv, bind_eq_bind, bind_some, ih]
      simp only [filter_cons, hv, decide_false, Bool.false_eq_true, ↓reduceIte]
      congr 2
      by_cases hi : stateAt d i = .invalid
      · simp [hi]
      · simp only [hi, not_false_eq_true, decide_true, ↓reduceIte, length_cons, ne_eq]
        omega

theorem foldlM_gatherStep_eq_none : ∀ (is : List ℕ) (g : Gathered),
    (∃ i ∈ is, stateAt d i = .valid ∧ ∃ r, cfg.id2res (fcmh2Repl h.ino i) = some r ∧ r.isFs = false) →
    is.foldlM (gatherStep cfg h d) g = none
  | [], _, hbad => by
    obtain ⟨i, hi, -⟩ := hbad
    exact absurd hi not_mem_nil
  | i :: is, g, hbad => by
    rw [foldlM_cons, bind_eq_bind, bind_eq_none_iff]
    intro g' hg'
    refine foldlM_gatherStep_eq_none is g' ?_
    obtain ⟨j, hj, hv, r, hr, hfs⟩ := hbad
    rcases mem_cons.mp hj with rfl | hj
    · rw [gatherStep, hv, Config.tryIos2resm_eq_none hr hfs] at hg'
      simp at hg'
    · exact ⟨j, hj, hv, r, hr, hfs⟩

theorem gather_eq (hfs : ∀ i ∈ valids h d, ∀ r, cfg.id2res (fcmh2Repl h.ino i) = some r → r.isFs) : gather cfg h d =
      some ⟨(actives h d).length, validMembers cfg h d, (valids h d).getLast?.bind (cfg.memberOf h)⟩ := by
  rw [gather, foldlM_gatherStep]
  · simp only [Nat.zero_add, nil_append]
    congr 2
    rw [valids]
    cases ((range h.ino.nrepls).filter fun i => stateAt d i = .valid).getLast? <;> rfl
  · intro i hi hv
    exact hfs i (mem_filter.mpr ⟨hi, decide_eq_true hv⟩)

theorem gather_eq_none (hfs : ¬ ∀ i ∈ valids h d, ∀ r, cfg.id2res (fcmh2Repl h.ino i) = some r → r.isFs) :
    gather cfg h d = none := by
  push Not at hfs
  obtain ⟨i, hi, r, hr, hbad⟩ := hfs
  obtain ⟨hi, hv⟩ := mem_filter.mp hi
  exact foldlM_gatherStep_eq_none _ _ ⟨i, hi, of_decide_eq_true hv, r, hr, Bool.not_eq_true _ ▸ hbad⟩

/-! ### When the choice is right -/

variable {r : Option Resm}

theorem right_nil_iff : Right cfg srv h d [] r ↔
    (validMembers cfg h d ≠ [] → ∀ m ∈ r, m ∈ validMembers cfg h d) ∧ ∀ m ∈ r, slmTrySliodresm srv m := by
  simp [Right]

theorem right_iff_of_ne_nil (hskip : toSkip ≠ []) : Right cfg srv h d toSkip r ↔
    ∀ m ∈ r, m.resId ∉ toSkip ∧ slmTrySliodresm srv m := by
  simp [Right, hskip, forall_and]

theorem mem_search {a : List Resm} {m : Resm} (hm : m ∈ search srv toSkip a) :
    m ∈ a ∧ m.resId ∉ toSkip ∧ slmTrySliodresm srv m := by
  refine ⟨mem_of_find?_eq_some hm, ?_⟩
  simpa using find?_some hm

theorem search_mem_iff {a b : List Resm} {P : Resm → Prop} (hext : Extends a b P) : (∀ m ∈ search srv [] b, m ∈ a) ↔
      (∃ m ∈ a, slmTrySliodresm srv m) ∨ ∀ m, P m → slmTrySliodresm srv m = false := by
  constructor
  · intro hin
    refine or_iff_not_imp_right.mpr fun hoff => ?_
    push Not at hoff
    obtain ⟨m, hPm, htry⟩ := hoff
    have hsome : (search srv [] b).isSome := by
      rw [search, find?_isSome]
      exact ⟨m, (hext.mem m).mpr (.inr hPm), by simpa using htry⟩
    obtain ⟨x, hx⟩ := isSome_iff_exists.mp hsome
    exact ⟨x, hin x hx, (mem_search hx).2.2⟩
  · rintro (⟨m, hma, htry⟩ | hoff) x hx
    · obtain ⟨t, rfl⟩ := hext.keeps
      have hsome : (search srv [] a).isSome := by
        rw [search, find?_isSome]
        exact ⟨m, hma, by simpa using htry⟩
      obtain ⟨y, hy⟩ := isSome_iff_exists.mp hsome
      rw [search, find?_append, ← search, hy] at hx
      cases hx
      exact (mem_search hy).1
    · obtain ⟨hxb, -, htry⟩ := mem_search hx
      refine ((hext.mem x).mp hxb).resolve_right fun hPx => ?_
      rw [hoff x hPx] at htry
      cases htry

theorem length_validMembers_le (cfg : Config) (h : Inoh) (d : Repls) :
    (validMembers cfg h d).length ≤ (actives h d).length := by
  refine (length_filterMap_le _ _).trans (List.Sublist.length_le ?_)
  refine monotone_filter_right _ fun i hi => ?_
  rw [of_decide_eq_true hi]
  rfl

section
variable (hfs : ∀ i ∈ valids h d, ∀ r, cfg.id2res (fcmh2Repl h.ino i) = some r → r.isFs)
include hfs

theorem select_new : (∃ r ∈ slmResmSelect cfg srv rnd h d pios [], Right cfg srv h d [] r) ↔
      (validMembers cfg h d ≠ [] → (∃ m ∈ validMembers cfg h d, slmTrySliodresm srv m) ∨
        ∀ m, Offered cfg h pios m → slmTrySliodresm srv m = false) := by
  rw [slmResmSelect, gather_eq hfs]
  simp only [bind_eq_bind, bind_some, ne_eq, not_true_eq_false, ↓reduceIte]
  have hext := slmGetIoslist_extends cfg rnd h pios (validMembers cfg h d)
  split_ifs with hnone
  · simp [right_nil_iff, hnone.2]
  rw [← search_mem_iff hext]
  simp only [right_nil_iff, mem_some, exists_eq_left']
  exact and_iff_left fun m hm => (mem_search hm).2.2

theorem select_only (hskip : toSkip ≠ []) (hone : (actives h d).length = 1) :
    (∃ r ∈ slmResmSelect cfg srv rnd h d pios toSkip, Right cfg srv h d toSkip r) ↔ ∃ m ∈ validMembers cfg h d,
        (m.resId ∈ toSkip ∧ m.resId ≠ iosIdAny) ∨ (m.resId ∉ toSkip ∧ slmTrySliodresm srv m) := by
  have hlen := length_validMembers_le cfg h d
  rw [slmResmSelect, gather_eq hfs]
  simp only [bind_eq_bind, bind_some, hskip, hone, ne_eq, not_true_eq_false, not_false_eq_true, ↓reduceIte]
  simp only [right_iff_of_ne_nil hskip]
  -- there is at most one `VALID` replica
  rcases hvm : validMembers cfg h d with _ | ⟨m, _ | ⟨m', ms⟩⟩
  · simp
  · by_cases hin : m.resId ∈ toSkip ∧ m.resId ≠ iosIdAny
    · have hsearch : ∀ a, ∀ x ∈ search srv toSkip a, x.resId ∉ toSkip ∧ slmTrySliodresm srv x :=
        fun a x hx => (mem_search hx).2
      simpa [hin] using hsearch _
    have hios : (if m.resId ∈ toSkip then m.resId else iosIdAny) = iosIdAny := by
      rw [ite_eq_right_iff]
      exact fun hmem => by_contra fun hany => hin ⟨hmem, hany⟩
    rw [getElem?_cons_zero, bind_some, if_pos hios]
    simp [hin]
  · rw [hvm, hone] at hlen
    simp at hlen

theorem select_last (hskip : toSkip ≠ []) (hone : (actives h d).length ≠ 1) :
    (∃ r ∈ slmResmSelect cfg srv rnd h d pios toSkip, Right cfg srv h d toSkip r) ↔
      ∀ i ∈ (valids h d).getLast?, ∀ m ∈ cfg.memberOf h i, m.resId ∉ toSkip ∧ slmTrySliodresm srv m := by
  rw [slmResmSelect, gather_eq hfs]
  simp only [bind_eq_bind, bind_some, hskip, hone, ne_eq, not_false_eq_true, ↓reduceIte, right_iff_of_ne_nil hskip]
  cases (valids h d).getLast? with
  | none => simp
  | some => simp

end

/-- **The choice of a server is right**, exactly if `Selectable`. -/
theorem select_iff (cfg : Config) (srv : Servers) (rnd : ℕ → ℕ → ℕ) (h : Inoh) (d : Repls) (pios : IosId)
    (toSkip : List IosId) : (∃ r ∈ slmResmSelect cfg srv rnd h d pios toSkip, Right cfg srv h d toSkip r) ↔
      Selectable cfg srv h d pios toSkip := by
  by_cases hfs : ∀ i ∈ valids h d, ∀ r, cfg.id2res (fcmh2Repl h.ino i) = some r → r.isFs
  · by_cases hskip : toSkip = []
    · subst hskip
      rw [select_new hfs]
      exact ⟨fun hr => ⟨hfs, fun _ => hr, fun hne => absurd rfl hne, fun hne => absurd rfl hne⟩,
        fun hs => hs.reached rfl⟩
    · by_cases hone : (actives h d).length = 1
      · rw [select_only hfs hskip hone]
        exact ⟨fun ho => ⟨hfs, fun hnil => absurd hnil hskip, fun _ _ => ho, fun _ hne => absurd hone hne⟩,
          fun hs => hs.only hskip hone⟩
      · rw [select_last hfs hskip hone]
        exact ⟨fun hl => ⟨hfs, fun hnil => absurd hnil hskip, fun _ hone' => absurd hone' hone, fun _ _ => hl⟩,
          fun hs => hs.last hskip hone⟩
  · rw [slmResmSelect, gather_eq_none hfs]
    exact ⟨fun ⟨_, hr, _⟩ => absurd hr (not_mem_none _), fun hs => absurd hs.fs hfs⟩

/-! ### Choices that are not right -/

def threeIos : Config where
  res := [⟨1, .standaloneFs, [⟨1⟩]⟩, ⟨2, .standaloneFs, [⟨2⟩]⟩, ⟨3, .standaloneFs, [⟨3⟩]⟩]
  site := [⟨1, .standaloneFs, [⟨1⟩]⟩, ⟨2, .standaloneFs, [⟨2⟩]⟩, ⟨3, .standaloneFs, [⟨3⟩]⟩]
  own := by decide

def firstDown : Servers := ⟨fun _ => ⟨false, false, ⟨100, 0⟩⟩, fun m => m.resId ≠ 1, ⟨101, 0⟩⟩

def onFirst : Inoh := ⟨inodeOf 1 (Nat.le_of_ble_eq_true rfl), false⟩

def onTwo : Inoh := ⟨inodeOf 2 (Nat.le_of_ble_eq_true rfl), false⟩

/-- Four ways to go wrong. -/
theorem wrong_choices :
    slmResmSelect threeIos firstDown (fun _ _ => 0) onFirst (tableOf [.valid]) 2 [] = some (some ⟨2⟩) ∧
    ¬ Right threeIos firstDown onFirst (tableOf [.valid]) [] (some ⟨2⟩) ∧
    slmResmSelect threeIos firstDown (fun _ _ => 0) onTwo (tableOf [.valid, .valid]) 3 [2] = some (some ⟨2⟩) ∧
    ¬ Right threeIos firstDown onTwo (tableOf [.valid, .valid]) [2] (some ⟨2⟩) ∧
    slmResmSelect threeIos firstDown (fun _ _ => 0) onFirst (tableOf [.valid]) 2 [3] = some (some ⟨1⟩) ∧
    ¬ Right threeIos firstDown onFirst (tableOf [.valid]) [3] (some ⟨1⟩) ∧
    slmResmSelect threeIos firstDown (fun _ _ => 0) onFirst (tableOf [.replQueued]) 2 [1] = none := by
  decide +kernel

end Slash2.Lease.Select
