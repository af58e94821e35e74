/-
# Deleted files and the name cache

When the last link of a file is removed by this client, `msl_delete` marks the cached file
(`FCMH_DELETED`) and then removes the name from the name cache. `msl_lookup_fidcache` asserts that a
file it has found through the name cache is not marked.

Key definitions: `Act`, `act`, `step`, `Fine`, `Inv`. Key theorems: `step_inv`, `never_deleted`, `meets_deleted`.
-/
import Slash2.Lib.Run

namespace Slash2.Dircache.Deleted

open Lib List Option

/-! ### Namespace and caches -/

abbrev Name := ℕ × String

inductive Act where
  /-- `namecache_lookup` in `msl_lookup_fidcache` -/
  | peek (nm : Name)
  /-- `fidc_lookup_fid` of what was found -/
  | grab (nm : Name) (f : ℕ)
  | check (f : ℕ)
  /-- `SRMT_LOOKUP` in `msl_lookuprpc` -/
  | rpcLookup (nm : Name)
  /-- an entry of the reply to `SRMT_READDIR` -/
  | rpcReaddir (nm : Name)
  /-- `SRMT_CREATE`, `SRMT_MKDIR`, `SRMT_MKNOD`, `SRMT_SYMLINK` -/
  | rpcCreate (nm : Name)
  /-- `msl_load_fcmh` of the file in `mslfsop_link` -/
  | link (nm : Name) (f : ℕ)
  /-- `SRMT_LINK` -/
  | rpcLink (nm : Name) (f : ℕ)
  /-- `SRMT_UNLINK`, `SRMT_RMDIR` -/
  | rpcUnlink (nm : Name)
  /-- `SRMT_RENAME` -/
  | rpcRename (old new : Name)
  /-- `msl_create_fcmh` -/
  | load (f : ℕ)
  /-- `msl_peek_fcmh` in `msl_delete`, with the mark -/
  | mark (f : ℕ) (nm : Name)
  /-- `namecache_delete` in `msl_delete`, under the file's lock -/
  | zap (nm : Name) (c : Option ℕ)
  /-- `namecache_delete` in `mslfsop_rename` -/
  | drop (nm : Name)
  | insert (nm : Name) (f : ℕ)
  /-- `namecache_clobber`, or the registration of a page -/
  | clobber (nm : Name) (f : ℕ)
  deriving DecidableEq

structure State where
  links : List (Name × ℕ)
  next : ℕ
  names : List (Name × ℕ)
  /-- the cached files, and whether they have `FCMH_DELETED` -/
  fcmhs : List (ℕ × Bool)
  reqs : List (List Act)
  /-- the assertion of `msl_lookup_fidcache` has failed -/
  failed : Bool

def State.init : State := ⟨[], 1, [], [], [], false⟩

/-- The file that a name stands for. -/
def find (l : List (Name × ℕ)) (nm : Name) : Option ℕ := (l.find? (·.1 = nm)).map Prod.snd

def without (l : List (Name × ℕ)) (nm : Name) : List (Name × ℕ) := l.filter (·.1 ≠ nm)

variable (s : State)

/-- A cached file has `FCMH_DELETED`. -/
def Marked (f : ℕ) : Prop := (f, true) ∈ s.fcmhs
  deriving Decidable

def State.mdsCreate (nm : Name) : State :=
  { s with links := (nm, s.next) :: s.links, next := s.next + 1 }

def State.mdsUnlink (nm : Name) : State := { s with links := without s.links nm }

/-- `mp->valid`: the file has other links. -/
def State.linked (f : ℕ) : Prop := ∃ l ∈ s.links, l.2 = f
  deriving Decidable

def State.mdsRename (old new : Name) (f : ℕ) : State :=
  { s with links := (new, f) :: without (without s.links old) new }

/-- A step of a request: the state after it, and the steps that come before the rest. -/
def act (raced : Bool) : Act → State × List Act
  | .peek nm =>
    match find s.names nm with
    | some f => (s, [.grab nm f])
    | none => (s, [.rpcLookup nm])
  | .grab nm f => (s, if f ∈ s.fcmhs.map Prod.fst then [.check f] else [.rpcLookup nm])
  | .check f => (if Marked s f then { s with failed := true } else s, [])
  | .rpcLookup nm =>
    match find s.links nm with
    | some f => (s, [.load f, .clobber nm f])
    | none => (s, [])
  | .rpcReaddir nm =>
    match find s.links nm with
    | some f => (s, [.clobber nm f, .load f])
    | none => (s, [])
  | .rpcCreate nm =>
    match find s.links nm with
    | some _ => (s, [])
    | none => (s.mdsCreate nm, [.load s.next, .insert nm s.next])
  | .link nm f => (s, [.load f, .rpcLink nm f])
  | .rpcLink nm f =>
    if find s.links nm = none ∧ s.linked f then ({ s with links := (nm, f) :: s.links }, [.insert nm f])
    else (s, [])
  | .rpcUnlink nm =>
    match find s.links nm with
    | some f =>
      let s := s.mdsUnlink nm
      (s, if s.linked f then [.zap nm none] else [.mark f nm])
    | none => (s, [])
  | .rpcRename old new =>
    match find s.links old with
    | some f => (s.mdsRename old new f, [.drop old, .clobber new f])
    | none => (s, [])
  | .load f =>
    (if f ∈ s.fcmhs.map Prod.fst then s else { s with fcmhs := (f, false) :: s.fcmhs }, [])
  | .mark f nm =>
    ({ s with fcmhs := s.fcmhs.map fun c => if c.1 = f then (f, true) else c },
      [.zap nm (if f ∈ s.fcmhs.map Prod.fst then some f else none)])
  | .zap nm _ | .drop nm => ({ s with names := without s.names nm }, [])
  | .insert nm f =>
    (if find s.names nm = none then { s with names := (nm, f) :: s.names } else s, [])
  | .clobber nm f =>
    (if raced ∧ find s.names nm ≠ none then s else { s with names := (nm, f) :: without s.names nm }, [])

/-- A request of this client begins or goes on, another client changes the directory, or the caches shrink. -/
inductive Op where
  | request (a : Act)
  /-- request `i` takes its next step -/
  | run (i : ℕ) (raced : Bool)
  | otherCreate (nm : Name)
  | otherLink (nm : Name) (f : ℕ)
  | otherUnlink (nm : Name)
  | otherRename (old new : Name) (f : ℕ)
  /-- `fidc_reap` -/
  | evict (f : ℕ)
  /-- names go with a page that is freed, or with their directory -/
  | purge (nms : List Name)

/-- What a request begins with. -/
def Act.First : Act → Prop
  | .peek _ | .rpcReaddir _ | .rpcCreate _ | .link _ _ | .rpcUnlink _ | .rpcRename _ _ => True
  | _ => False

instance : DecidablePred Act.First := fun a => by
  cases a <;> unfold Act.First <;> infer_instance

/-- The file whose lock the step takes. -/
def Act.waits : Act → Option ℕ
  | .grab _ f | .mark f _ | .load f => some f
  | _ => none

/-- The file whose lock is held until the step is done. -/
def Act.locks : Act → Option ℕ
  | .zap _ c => c
  | _ => none

/-- The file that cannot be evicted before the step. -/
def Act.refs : Act → Option ℕ
  | .check f => some f
  | .zap _ c => c
  | _ => none

/-- No other request has the lock that the step takes. -/
def Free (a : Act) : Prop :=
  ∀ f ∈ a.waits, ∀ as ∈ s.reqs, as.head?.bind Act.locks ≠ some f
  deriving Decidable

def step : Op → Option State
  | .request a => if a.First then some { s with reqs := s.reqs ++ [[a]] } else none
  | .run i raced => do
    let as ← s.reqs[i]?
    let a ← as.head?
    if Free s a then some { (act s raced a).1 with reqs := s.reqs.set i ((act s raced a).2 ++ as.tail) } else none
  | .otherCreate nm => if find s.links nm = none then some (s.mdsCreate nm) else none
  | .otherLink nm f =>
    if find s.links nm = none ∧ s.linked f then some { s with links := (nm, f) :: s.links } else none
  | .otherUnlink nm => some (s.mdsUnlink nm)
  | .otherRename old new f => if find s.links old = some f then some (s.mdsRename old new f) else none
  | .evict f =>
    if ∀ as ∈ s.reqs, as.head?.bind Act.refs ≠ some f then
      some { s with fcmhs := s.fcmhs.filter (·.1 ≠ f) }
    else none
  | .purge nms => some { s with names := s.names.filter (·.1 ∉ nms) }

def Act.removes : Act → Option Name
  | .zap nm _ => some nm
  | _ => none

/-- A delete is about to remove the name. -/
def Zapping (nm : Name) : Prop := ∃ as ∈ s.reqs, as.head?.bind Act.removes = some nm
  deriving Decidable

def Act.found : Act → Option ℕ
  | .grab _ f | .check f => some f
  | _ => none

/-- A lookup has got the file from the name cache and not passed the assertion. -/
def Checking (f : ℕ) : Prop := ∃ as ∈ s.reqs, ∃ a ∈ as, a.found = some f
  deriving Decidable

/-- A file is marked when no lookup or other name has it, no name is looked up whose delete was replied to, and no
marked file is cached. -/
def Act.Safe : Act → Prop
  | .mark f nm => (∀ x ∈ s.names, x.2 = f → x.1 = nm) ∧ ¬Checking s f
  | .peek nm => ¬Zapping s nm
  | .insert _ f | .clobber _ f => ¬Marked s f
  | _ => True

/-- What the request does next is safe. -/
def Fine : Op → Prop
  | .run i _ => ∀ as ∈ s.reqs[i]?, ∀ a ∈ as.head?, a.Safe s
  | _ => True

instance : DecidablePred (Act.Safe s) := fun a => by
  cases a <;> unfold Act.Safe <;> infer_instance

instance : DecidablePred (Fine s) := fun o => by
  cases o <;> unfold Fine <;> infer_instance

/-- **The invariant.** Names of marked files are about to go, and lookups found none. -/
structure Inv (s : State) : Prop where
  alive : s.failed = false
  names : ∀ x ∈ s.names, Marked s x.2 → Zapping s x.1
  checks : ∀ f, Checking s f → ¬Marked s f

variable {s} {t : State} {i : ℕ} {raced : Bool} {a : Act} {as : List Act} {nm : Name} {f : ℕ}

theorem mem_of_find {l : List (Name × ℕ)} (h : find l nm = some f) : (nm, f) ∈ l := by
  obtain ⟨x, hx, rfl⟩ := map_eq_some_iff.mp h
  have hn : x.1 = nm := by simpa using find?_some hx
  exact hn ▸ mem_of_find?_eq_some hx

/-! ### What a step changes -/

theorem marked_act {g : ℕ} (h : Marked (act s raced a).1 g) : Marked s g ∨ ∃ nm, a = .mark g nm := by
  cases a with
  | mark f nm =>
    obtain ⟨c, hc, heq⟩ := mem_map.mp h
    split_ifs at heq with hf
    · exact .inr ⟨nm, congrArg (Act.mark · nm) (Prod.mk.inj heq).1⟩
    · exact .inl (show (g, true) ∈ s.fcmhs from heq ▸ hc)
  | load =>
    simp only [act] at h
    split_ifs at h
    · exact .inl h
    rcases mem_cons.mp h with heq | h
    · exact absurd (Prod.mk.inj heq).2 Bool.noConfusion
    · exact .inl h
  | _ =>
    left
    revert h
    simp only [act]
    first | exact id | (split <;> exact id)

theorem names_act {x : Name × ℕ} (h : x ∈ (act s raced a).1.names) :
    x ∈ s.names ∧ a.removes ≠ some x.1 ∨ a = .insert x.1 x.2 ∨ a = .clobber x.1 x.2 := by
  cases a with
  | zap =>
    obtain ⟨hx, hne⟩ := mem_filter.mp h
    exact .inl ⟨hx, fun heq => absurd (some.inj heq).symm (by simpa using hne)⟩
  | drop => exact .inl ⟨mem_of_mem_filter h, nofun⟩
  | insert =>
    simp only [act] at h
    split_ifs at h
    · rcases mem_cons.mp h with rfl | h
      · exact .inr (.inl rfl)
      · exact .inl ⟨h, nofun⟩
    · exact .inl ⟨h, nofun⟩
  | clobber =>
    simp only [act] at h
    split_ifs at h
    · exact .inl ⟨h, nofun⟩
    rcases mem_cons.mp h with rfl | h
    · exact .inr (.inr rfl)
    · exact .inl ⟨mem_of_mem_filter h, nofun⟩
  | load f | mark f nm | peek nm | grab nm f | check f | rpcLookup nm | rpcReaddir nm | rpcCreate nm
  | link nm f | rpcLink nm f | rpcUnlink nm | rpcRename old new =>
    refine .inl ⟨?_, nofun⟩
    revert h
    simp only [act]
    first | exact id | (split <;> exact id)

theorem found_act_eq_none (hp : ∀ nm, a ≠ .peek nm) (hg : ∀ nm f, a ≠ .grab nm f) :
    ∀ b ∈ (act s raced a).2, b.found = none := by
  cases a with
  | peek nm => exact absurd rfl (hp nm)
  | grab nm f => exact absurd rfl (hg nm f)
  | rpcLookup nm | rpcReaddir nm | rpcCreate nm | rpcRename old new =>
    simp only [act]
    split <;> simp [Act.found]
  | rpcLink =>
    simp only [act]
    split_ifs <;> simp [Act.found]
  | rpcUnlink =>
    simp only [act]
    split
    · split_ifs <;> simp [Act.found]
    · simp
  | check f | load f | link nm f | mark f nm | zap nm c | drop nm | insert nm f | clobber nm f => simp [act, Act.found]

theorem found_act {b : Act} (hb : b ∈ (act s raced a).2) (hf : b.found = some f) :
    a.found = some f ∨ ∃ nm, a = .peek nm ∧ (nm, f) ∈ s.names := by
  cases a with
  | peek nm =>
    refine .inr ⟨nm, rfl, ?_⟩
    simp only [act] at hb
    split at hb
    · next g hg =>
      obtain rfl := mem_singleton.mp hb
      obtain rfl : g = f := some.inj hf
      exact mem_of_find hg
    · obtain rfl := mem_singleton.mp hb
      exact nomatch hf
  | grab =>
    left
    simp only [act] at hb
    split_ifs at hb
    · obtain rfl := mem_singleton.mp hb
      exact hf
    · obtain rfl := mem_singleton.mp hb
      exact nomatch hf
  | _ => exact nomatch (found_act_eq_none (by nofun) (by nofun) b hb).symm.trans hf

theorem zapping_set {s' : State} {next : List Act} (hi : s.reqs[i]? = some (a :: as))
    (hs : s'.reqs = s.reqs.set i next) (hne : a.removes ≠ some nm) (h : Zapping s nm) : Zapping s' nm := by
  obtain ⟨bs, hbs, hz⟩ := h
  obtain ⟨j, hj⟩ := mem_iff_getElem?.mp hbs
  have hji : j ≠ i := by
    rintro rfl
    obtain rfl := some.inj (hi.symm.trans hj)
    exact hne hz
  refine ⟨bs, mem_iff_getElem?.mpr ⟨j, ?_⟩, hz⟩
  rw [hs, getElem?_set_ne (Ne.symm hji), hj]

theorem found_first (h : a.First) : a.found = none := by
  cases a with
  | grab nm f | check f => exact h.elim
  | _ => rfl

theorem failed_act (h : Inv s) (ha : a ∈ as) (has : as ∈ s.reqs) : (act s raced a).1.failed = false := by
  cases a with
  | check f =>
    have hm : ¬Marked s f := h.checks f ⟨as, has, _, ha, rfl⟩
    simp only [act, if_neg hm]
    exact h.alive
  | _ =>
    simp only [act]
    first | exact h.alive | (split <;> exact h.alive)

theorem run_inv (h : Inv s) (hi : s.reqs[i]? = some (a :: as)) (hok : a.Safe s) :
    Inv { (act s raced a).1 with reqs := s.reqs.set i ((act s raced a).2 ++ as) } := by
  have hmem := mem_of_getElem? hi
  refine ⟨failed_act h mem_cons_self hmem, fun x hx hm => ?_, fun g hg hm => ?_⟩
  · rcases marked_act hm with hold | ⟨nm, rfl⟩
    · rcases names_act hx with ⟨hx, hne⟩ | rfl | rfl
      · exact zapping_set hi rfl hne (h.names x hx hold)
      · exact absurd hold hok
      · exact absurd hold hok
    · -- the name that is deleted is the only one, and its removal comes next
      rcases names_act hx with ⟨hx, -⟩ | heq | heq
      · have hname : x.1 = nm := hok.1 x hx rfl
        exact ⟨_, List.mem_set (List.getElem?_eq_some_iff.mp hi).1 _, congrArg some hname.symm⟩
      · exact nomatch heq
      · exact nomatch heq
  · -- a file that was found before, or by this step
    have hfound : Checking s g ∨ ∃ nm, a = .peek nm ∧ (nm, g) ∈ s.names := by
      obtain ⟨bs, hbs, b, hb, hf⟩ := hg
      rcases mem_or_eq_of_mem_set hbs with hbs | rfl
      · exact .inl ⟨bs, hbs, b, hb, hf⟩
      rcases mem_append.mp hb with hb | hb
      · exact (found_act hb hf).imp (fun ha => ⟨_, hmem, a, mem_cons_self, ha⟩) id
      · exact .inl ⟨_, hmem, b, mem_cons_of_mem a hb, hf⟩
    rcases marked_act hm with hold | ⟨nm, rfl⟩
    · rcases hfound with hfound | ⟨nm, rfl, hx⟩
      · exact h.checks g hfound hold
      · exact hok (h.names _ hx hold)
    rcases hfound with hfound | ⟨nm, heq, -⟩
    · exact hok.2 hfound
    · exact nomatch heq

theorem step_inv {o : Op} (h : Inv s) (hok : Fine s o) (hs : step s o = some t) : Inv t := by
  revert hs
  fun_cases step s o <;> intro hs <;> try cases hs
  next hfirst =>
    refine ⟨h.alive, fun x hx hm => ?_, fun f hf => ?_⟩
    · obtain ⟨bs, hbs, hz⟩ := h.names x hx hm
      exact ⟨bs, mem_append_left _ hbs, hz⟩
    · obtain ⟨bs, hbs, b, hb, hf⟩ := hf
      rcases mem_append.mp hbs with hbs | hbs
      · exact h.checks f ⟨bs, hbs, b, hb, hf⟩
      obtain rfl := mem_singleton.mp hbs
      obtain rfl := mem_singleton.mp hb
      exact nomatch (found_first hfirst).symm.trans hf
  next =>
    obtain ⟨bs, hbs, hs⟩ := bind_eq_some_iff.mp hs
    obtain ⟨a, ha, -, rfl⟩ := bind_guard hs
    obtain ⟨as, rfl⟩ : ∃ as, bs = a :: as := ⟨_, eq_cons_of_mem_head? ha⟩
    exact run_inv h hbs (hok _ hbs a ha)
  next => exact { h with }
  next => exact { h with }
  next => exact { h with }
  next => exact { h with }
  next f _ =>
    have hm {g : ℕ} (hg : (g, true) ∈ s.fcmhs.filter (·.1 ≠ f)) : Marked s g := mem_of_mem_filter hg
    exact { h with
      names := fun x hx hx' => h.names x hx (hm hx')
      checks := fun g hg hg' => h.checks g hg (hm hg') }
  next => exact { h with names := fun x hx => h.names x (mem_of_mem_filter hx) }

theorem inv_init : Inv State.init := ⟨rfl, nofun, fun _ h => by simp [Checking, State.init] at h⟩

/-- **No lookup meets a deleted file**, in runs of safe steps. -/
theorem never_deleted (os : List Op) (t : State) (hok : Admits step Fine State.init os)
    (h : run step State.init os = some t) : t.failed = false :=
  (run_invariant step_inv inv_init hok h).alive

def usual : List Op :=
  [.request (.rpcCreate (0, "a")), .run 0 false, .run 0 false, .run 0 false,
    .otherCreate (0, "c"), .request (.rpcReaddir (0, "c")), .run 1 false, .run 1 false, .otherUnlink (0, "c"),
    .request (.link (0, "b") 1), .run 2 false, .run 2 false, .run 2 false, .run 2 false,
    .request (.peek (0, "a")), .run 3 false, .run 3 false, .run 3 false,
    .request (.rpcRename (0, "b") (0, "d")), .run 4 false, .run 1 false, .run 4 false, .run 4 false,
    .request (.rpcUnlink (0, "a")), .run 5 false, .run 5 false,
    .request (.rpcUnlink (0, "d")), .run 6 false, .run 6 false, .run 6 false,
    .request (.peek (0, "d")), .run 7 false, .run 7 false]

theorem never_deleted_usual :
    ∃ t ∈ run step State.init usual, t.failed = false ∧ Marked t 1 ∧ t.names = [((0, "c"), 2)] := by
  have h : ∃ t ∈ run step State.init usual, Marked t 1 ∧ t.names = [((0, "c"), 2)] := by decide +kernel
  obtain ⟨t, ht, hm⟩ := h
  exact ⟨t, ht, never_deleted usual t (by decide +kernel) ht, hm⟩

/-- **The assertion fails**, without other clients, or one request at a time. -/
theorem meets_deleted : (∃ t ∈ run step State.init
      [.request (.rpcCreate (0, "a")), .run 0 false, .run 0 false, .run 0 false,
        .request (.rpcUnlink (0, "a")), .run 1 false, .run 1 false,
        .request (.peek (0, "a")), .run 2 false, .run 1 false, .run 2 false, .run 2 false],
      t.failed = true ∧ t.reqs = [[], [], []]) ∧ ∃ t ∈ run step State.init
      [.request (.rpcCreate (0, "a")), .run 0 false, .run 0 false, .run 0 false,
        .request (.link (0, "b") 1), .run 1 false, .run 1 false, .run 1 false, .run 1 false, .otherUnlink (0, "b"),
        .request (.rpcUnlink (0, "a")), .run 2 false, .run 2 false, .run 2 false,
        .request (.peek (0, "b")), .run 3 false, .run 3 false, .run 3 false],
      t.failed = true ∧ t.reqs = [[], [], [], []] := by
  constructor <;> decide +kernel

end Slash2.Dircache.Deleted
