/-
# Permission to delete and to rename

The client checks the permissions of a caller itself and sends the request to the MDS if the
checks pass. In a sticky directory `msl_delete` and `mslfsop_rename` look at owners only, not
at the permission bits; an entry that a rename replaces is not always looked at; and a name of
the name cache is looked at by its FID, which another client may have moved away from it.

Key theorem: `rule_iff_of_send`.
-/
import Mathlib.Data.Nat.Bitwise
import Mathlib.Tactic.IntervalCases
import Slash2.Journal.Fid
import Slash2.Slerr

namespace Slash2.Client.Permission

open Fid (Slfid fidGetInum fidGetSiteid)

/-- `struct srt_stat`, as far as permissions go. -/
structure Stat where
  uid : ℕ
  gid : ℕ
  mode : ℕ

/-- `struct pscfs_creds`, after `slc_getfscreds`; `gidv` has `pcr_ngid` groups. -/
structure Creds where
  uid : ℕ
  gid : ℕ
  gidv : List ℕ

/-- The MDS and the caches of the client. A name of the name cache need not be what the MDS has under it. -/
structure World where
  /-- `cfg_root_squash` -/
  squash : Bool
  attr : Slfid → Stat
  /-- the entries of the directories, at the MDS -/
  entry : Slfid → String → Option Slfid
  /-- what `namecache_lookup` finds, if `fidc_lookup_fid` finds it too -/
  names : Slfid → String → Option Slfid
  /-- whether `msl_load_fcmh` of a directory fails -/
  load : Slfid → Except ℤ Unit
  /-- whether `msl_stat` of a file fails -/
  stat : Slfid → Except ℤ Unit
  /-- whether the `LOOKUP` of a name fails, other than with `ENOENT` -/
  lookup : Slfid → String → Except ℤ Unit

/-- `PFL_GOTOERR`, if the condition holds. -/
def gotoerrIf (c : Prop) [Decidable c] (rc : ℤ) : Except ℤ Unit := if c then .error rc else .ok ()

/-- `PERMCHECK`, with `R_OK`, `W_OK` and `X_OK`. -/
def permcheck (accmode fmode mask : ℕ) : Except ℤ Unit :=
  gotoerrIf (accmode &&& 4 ≠ 0 ∧ fmode &&& (mask &&& 0o444) = 0 ∨
    accmode &&& 2 ≠ 0 ∧ fmode &&& (mask &&& 0o222) = 0 ∨
    accmode &&& 1 ≠ 0 ∧ fmode &&& (mask &&& 0o111) = 0) eacces

/-- The bits of the caller: 2 for the owner, 1 for the group, 0 for others. -/
def Creds.classOf (pcr : Creds) (sstb : Stat) : ℕ :=
  if sstb.uid = pcr.uid then 2 else if sstb.gid ∈ pcr.gid :: pcr.gidv then 1 else 0

/-- `S_IRWXU`, `S_IRWXG` and `S_IRWXO`. -/
def sIrwx : ℕ → ℕ
  | 2 => 0o700
  | 1 => 0o70
  | _ => 0o7

def checkcreds (squash : Bool) (sstb : Stat) (pcr : Creds) (accmode : ℕ) : Except ℤ Unit :=
  if squash = false ∧ pcr.uid = 0 then .ok () else permcheck accmode sstb.mode (sIrwx (pcr.classOf sstb))

/-- `W_OK`, to write -/
abbrev wOk : ℕ := 2

/-- `X_OK`, to search -/
abbrev xOk : ℕ := 1

def sIsvtx : ℕ := 0o1000

abbrev sIsdir (mode : ℕ) : Prop := mode &&& 0o170000 = 0o40000

def slfidRoot : Slfid := 1

def slfidNs : Slfid := 2

def mslFidnsRpath : String := ".slfidns"

def slNameMax : ℕ := 255

def strlen (name : String) : ℕ := name.utf8ByteSize

def fcmhReserved (fid : Slfid) : Except ℤ Unit := gotoerrIf (fidGetInum fid = slfidNs) eperm

section
variable (w : World) (pcr : Creds)

def fcmhCheckcreds (fid : Slfid) (accmode : ℕ) : Except ℤ Unit := checkcreds w.squash (w.attr fid) pcr accmode

def mslLookuprpc (pinum : Slfid) (name : String) : Except ℤ Slfid := do
  w.lookup pinum name
  match w.entry pinum name with
  | some fid => .ok fid
  | none => .error enoent

/-- `msl_lookup_fidcache`, for a caller who is not root. -/
def mslLookupFidcache (pinum : Slfid) (name : String) : Except ℤ Slfid := do
  gotoerrIf (pinum = slfidRoot ∧ name = mslFidnsRpath) eacces
  gotoerrIf (fidGetInum pinum = slfidNs) eacces
  w.load pinum
  fcmhCheckcreds w pcr pinum xOk
  match w.names pinum name with
  | some cfid => do
    w.stat cfid
    .ok cfid
  | none => mslLookuprpc w pinum name

def deleteCheck (pinum : Slfid) (name : String) : Except ℤ Unit :=
  if (w.attr pinum).mode &&& sIsvtx ≠ 0 ∧ pcr.uid ≠ 0 then
    if (w.attr pinum).uid ≠ pcr.uid then do
      let fid ← mslLookupFidcache w pcr pinum name
      gotoerrIf ((w.attr fid).uid ≠ pcr.uid) eacces
    else .ok ()
  else fcmhCheckcreds w pcr pinum wOk

/-- `msl_delete`, up to the RPC, which has the same parent and name. -/
def mslDelete (pinum : Slfid) (name : String) : Except ℤ Unit := do
  gotoerrIf (strlen name = 0) enoent
  gotoerrIf (strlen name > slNameMax) enametoolong
  w.load pinum
  fcmhReserved pinum
  gotoerrIf (pinum = slfidRoot ∧ name = mslFidnsRpath) eperm
  deleteCheck w pcr pinum name

/-- `sticky` of `mslfsop_rename`: whether the entry must be the caller's. -/
def parentCheck (pinum : Slfid) : Except ℤ Bool :=
  if (w.attr pinum).mode &&& sIsvtx ≠ 0 then .ok ((w.attr pinum).uid ≠ pcr.uid)
  else do
    fcmhCheckcreds w pcr pinum wOk
    .ok false

/-- The check on the source, with the child if it has been looked up. -/
def sourceCheck (opinum : Slfid) (oldname : String) : Except ℤ (Option Slfid) := do
  if ← parentCheck w pcr opinum then
    let child ← mslLookupFidcache w pcr opinum oldname
    gotoerrIf ((w.attr child).uid ≠ pcr.uid) eacces
    .ok (some child)
  else .ok none

/-- The check on the target: a lookup that fails is none. -/
def targetCheck (npinum : Slfid) (newname : String) : Except ℤ Unit := do
  if ← parentCheck w pcr npinum then
    match mslLookupFidcache w pcr npinum newname with
    | .ok dst => gotoerrIf ((w.attr dst).uid ≠ pcr.uid) eacces
    | .error _ => .ok ()
  else .ok ()

def newParent (opinum npinum : Slfid) (newname : String) : Except ℤ Unit :=
  if npinum = opinum then .ok ()
  else do
    w.load npinum
    fcmhReserved npinum
    if pcr.uid ≠ 0 then targetCheck w pcr npinum newname else .ok ()

def childCheck (src : Option Slfid) (opinum : Slfid) (oldname : String) : Except ℤ Unit := do
  let child ← match src with
    | some child => .ok child
    | none => mslLookupFidcache w pcr opinum oldname
  if sIsdir (w.attr child).mode then fcmhCheckcreds w pcr child wOk else .ok ()

/-- `mslfsop_rename`, up to the RPC. -/
def mslfsopRename (opinum : Slfid) (oldname : String) (npinum : Slfid) (newname : String) : Except ℤ Unit := do
  gotoerrIf (strlen oldname = 0 ∨ strlen newname = 0) enoent
  gotoerrIf (strlen oldname > slNameMax ∨ strlen newname > slNameMax) enametoolong
  gotoerrIf (fidGetSiteid opinum ≠ fidGetSiteid npinum) exdev
  w.load opinum
  fcmhReserved opinum
  let src ← if pcr.uid ≠ 0 then sourceCheck w pcr opinum oldname else .ok none
  newParent w pcr opinum npinum newname
  if pcr.uid ≠ 0 then childCheck w pcr src opinum oldname else .ok ()

inductive Fsop where
  | unlink (pinum : Slfid) (name : String)
  | rmdir (pinum : Slfid) (name : String)
  | rename (opinum : Slfid) (oldname : String) (npinum : Slfid) (newname : String)

/-- `.ok ()` if the RPC is sent. -/
def Fsop.send : Fsop → Except ℤ Unit
  | .unlink pinum name | .rmdir pinum name => mslDelete w pcr pinum name
  | .rename opinum oldname npinum newname => mslfsopRename w pcr opinum oldname npinum newname

/-! ### The rule -/

/-- The permission of bit 1 (to write) or 0 (to search). -/
def World.May (fid : Slfid) (bit : ℕ) : Prop :=
  pcr.uid = 0 ∨ (w.attr fid).mode.testBit (3 * pcr.classOf (w.attr fid) + bit)
  deriving Decidable

def World.Owns (fid : Slfid) : Prop := (w.attr fid).uid = pcr.uid
  deriving Decidable

/-- The entry at the MDS is the caller's, if there is one. -/
def World.OwnsEntry (d : Slfid) (name : String) : Prop := ∀ sstb ∈ (w.entry d name).map w.attr, sstb.uid = pcr.uid
  deriving Decidable

def World.Sticky (d : Slfid) : Prop := (w.attr d).mode.testBit 9
  deriving Decidable

/-- Write permission, and in a sticky directory the caller is root, its owner or the owner of the entry. -/
def World.MayRemove (d : Slfid) (name : String) : Prop :=
  w.May pcr d 1 ∧ (w.Sticky d → pcr.uid = 0 ∨ w.Owns pcr d ∨ w.OwnsEntry pcr d name)
  deriving Decidable

/-- **The rule**: a rename removes the source, and a target that exists. -/
def Rule : Fsop → Prop
  | .unlink d name | .rmdir d name => w.MayRemove pcr d name
  | .rename od oldname nd newname => w.MayRemove pcr od oldname ∧ w.MayRemove pcr nd newname

instance (o : Fsop) : Decidable (Rule w pcr o) := by
  cases o <;> unfold Rule <;> infer_instance

/-- In a sticky directory: write permission, and the entry is the caller's unless it has been `checked`. -/
def StickySafe (d : Slfid) (name : String) (checked : Prop) : Prop :=
  w.Sticky d → w.May pcr d 1 ∧ (w.Owns pcr d ∨ checked ∨ w.OwnsEntry pcr d name)

/-- What is removed is checked if the name cache does not have the name; what is replaced, if it also is in another
directory than the source and is found. -/
def Fine (o : Fsop) : Prop :=
  pcr.uid = 0 ∨ match o with
    | .unlink d name | .rmdir d name => StickySafe w pcr d name (w.names d name = none)
    | .rename od oldname nd newname =>
      StickySafe w pcr od oldname (w.names od oldname = none) ∧
        StickySafe w pcr nd newname (nd ≠ od ∧ w.names nd newname = none ∧ w.May pcr nd 0 ∧
          w.lookup nd newname = .ok () ∧ ¬(nd = slfidRoot ∧ newname = mslFidnsRpath))

end

/-! ### What the checks say -/

theorem gotoerrIf_eq_ok_iff {c : Prop} [Decidable c] {rc : ℤ} : gotoerrIf c rc = .ok () ↔ ¬c := by
  unfold gotoerrIf
  split_ifs with h <;> simp [h]

theorem bind_eq_ok_iff {α β : Type} {x : Except ℤ α} {f : α → Except ℤ β} {b : β} :
    (x >>= f) = .ok b ↔ ∃ a, x = .ok a ∧ f a = .ok b := by
  cases x <;> simp [bind, Except.bind]

theorem check_bind_eq_ok_iff {β : Type} {x : Except ℤ Unit} {f : Unit → Except ℤ β} {b : β} :
    (x >>= f) = .ok b ↔ x = .ok () ∧ f () = .ok b :=
  bind_eq_ok_iff.trans ⟨fun ⟨(), h⟩ => h, fun h => ⟨(), h⟩⟩

theorem and_two_pow_eq_zero_iff (m i : ℕ) : m &&& 2 ^ i = 0 ↔ m.testBit i = false := by
  rw [Nat.and_two_pow]
  cases m.testBit i <;> simp

theorem permcheck_eq_ok_iff {bit c : ℕ} (hbit : bit < 2) (hc : c < 3) (m : ℕ) :
    permcheck (2 ^ bit) m (sIrwx c) = .ok () ↔ m.testBit (3 * c + bit) := by
  have hmask : sIrwx c &&& 0o222 = 2 ^ (3 * c + 1) ∧ sIrwx c &&& 0o111 = 2 ^ (3 * c) := by
    interval_cases c <;> decide
  rw [permcheck, gotoerrIf_eq_ok_iff, hmask.1, hmask.2, and_two_pow_eq_zero_iff, and_two_pow_eq_zero_iff]
  interval_cases bit <;> simp

variable {w : World} {pcr : Creds} {d od nd fid : Slfid} {name oldname newname : String}

theorem sticky_iff : (w.attr d).mode &&& sIsvtx ≠ 0 ↔ w.Sticky d := by
  rw [Ne, show sIsvtx = 2 ^ 9 from rfl, and_two_pow_eq_zero_iff, Bool.not_eq_false]
  rfl

theorem owns_of_ok (h : gotoerrIf ((w.attr fid).uid ≠ pcr.uid) eacces = .ok ()) : w.Owns pcr fid := by
  have ho := gotoerrIf_eq_ok_iff.mp h
  exact not_not.mp ho

/-- The entry is checked by a lookup that asks the MDS. -/
theorem owns_of_lookup {a : Slfid} (h : mslLookupFidcache w pcr d name = .ok a) (ho : w.Owns pcr a)
    (hnone : w.names d name = none) : w.OwnsEntry pcr d name := by
  simp only [mslLookupFidcache, mslLookuprpc, check_bind_eq_ok_iff, hnone] at h
  obtain ⟨-, -, -, -, -, h⟩ := h
  split at h
  · rename_i hentry
    cases h
    simpa [World.OwnsEntry, hentry] using show (w.attr a).uid = pcr.uid from ho
  · cases h

section
variable (hu : pcr.uid ≠ 0)
include hu

theorem fcmhCheckcreds_eq_ok_iff {bit : ℕ} (hbit : bit < 2) :
    fcmhCheckcreds w pcr d (2 ^ bit) = .ok () ↔ w.May pcr d bit := by
  have hc : pcr.classOf (w.attr d) < 3 := by
    unfold Creds.classOf
    split_ifs <;> decide
  rw [fcmhCheckcreds, checkcreds, if_neg fun h => hu h.2, permcheck_eq_ok_iff hbit hc, World.May, or_iff_right hu]

/-- The rule for a directory with write permission or sticky, and with an entry that has been checked. -/
theorem mayRemove_iff {checked : Prop} (hw : ¬w.Sticky d → w.May pcr d 1)
    (hc : w.Sticky d → w.Owns pcr d ∨ (checked → w.OwnsEntry pcr d name)) :
    w.MayRemove pcr d name ↔ StickySafe w pcr d name checked := by
  unfold World.MayRemove StickySafe
  by_cases hs : w.Sticky d
  · have hc := hc hs
    simp only [hs, hu, false_or, forall_const]
    tauto
  · simp [hs, hw hs]

theorem mslDelete_rule (h : mslDelete w pcr d name = .ok ()) :
    w.MayRemove pcr d name ↔ StickySafe w pcr d name (w.names d name = none) := by
  simp only [mslDelete, check_bind_eq_ok_iff] at h
  obtain ⟨-, -, -, -, -, h⟩ := h
  unfold deleteCheck at h
  split_ifs at h with hs ho
  · obtain ⟨a, ha, hown⟩ := bind_eq_ok_iff.mp h
    exact mayRemove_iff hu (absurd (sticky_iff.mp hs.1)) fun _ => .inr (owns_of_lookup ha (owns_of_ok hown))
  · exact mayRemove_iff hu (absurd (sticky_iff.mp hs.1)) fun _ => .inl (not_not.mp ho)
  · exact mayRemove_iff hu (fun _ => (fcmhCheckcreds_eq_ok_iff hu Nat.one_lt_two).mp h)
      fun hd => absurd ⟨sticky_iff.mpr hd, hu⟩ hs

/-- A parent of a rename: the permission of one that is not sticky, and whether a sticky one is another's. -/
theorem parentCheck_ok {sticky : Bool} (h : parentCheck w pcr d = .ok sticky) :
    (¬w.Sticky d → w.May pcr d 1) ∧ (w.Sticky d → w.Owns pcr d ∨ sticky) := by
  unfold parentCheck at h
  split_ifs at h with hs
  · cases h
    exact ⟨absurd (sticky_iff.mp hs), fun _ => by simp [World.Owns, em]⟩
  · have hcheck := (check_bind_eq_ok_iff.mp h).1
    exact ⟨fun _ => (fcmhCheckcreds_eq_ok_iff hu Nat.one_lt_two).mp hcheck, fun hd => absurd (sticky_iff.mpr hd) hs⟩

theorem sourceCheck_rule {src : Option Slfid} (h : sourceCheck w pcr d name = .ok src) : (¬w.Sticky d → w.May pcr d 1) ∧
    (w.MayRemove pcr d name ↔ StickySafe w pcr d name (w.names d name = none)) := by
  obtain ⟨sticky, hp, h⟩ := bind_eq_ok_iff.mp h
  obtain ⟨hw, hown⟩ := parentCheck_ok hu hp
  refine ⟨hw, mayRemove_iff hu hw fun hs => (hown hs).imp_right fun hsticky => ?_⟩
  rw [if_pos hsticky] at h
  obtain ⟨a, ha, h⟩ := bind_eq_ok_iff.mp h
  exact owns_of_lookup ha (owns_of_ok (check_bind_eq_ok_iff.mp h).1)

theorem newParent_rule (h : newParent w pcr od nd name = .ok ()) (hne : nd ≠ od) :
    w.MayRemove pcr nd name ↔ StickySafe w pcr nd name (nd ≠ od ∧ w.names nd name = none ∧ w.May pcr nd 0 ∧
      w.lookup nd name = .ok () ∧ ¬(nd = slfidRoot ∧ name = mslFidnsRpath)) := by
  simp only [newParent, if_neg hne, if_pos hu, check_bind_eq_ok_iff, fcmhReserved, gotoerrIf_eq_ok_iff] at h
  obtain ⟨hload, hres, h⟩ := h
  obtain ⟨sticky, hp, h⟩ := bind_eq_ok_iff.mp h
  obtain ⟨hw, hown⟩ := parentCheck_ok hu hp
  refine mayRemove_iff hu hw fun hs => (hown hs).imp_right ?_
  rintro hsticky ⟨-, hnone, hsearch, hlook, hns⟩ sstb hsstb
  obtain ⟨fid, hfid, rfl⟩ := Option.map_eq_some_iff.mp hsstb
  -- the lookup of the target does not fail
  have hok : mslLookupFidcache w pcr nd name = .ok fid := by
    simp only [mslLookupFidcache, mslLookuprpc, check_bind_eq_ok_iff, gotoerrIf_eq_ok_iff, hnone, hfid]
    exact ⟨hns, hres, hload, (fcmhCheckcreds_eq_ok_iff hu Nat.two_pos).mpr hsearch, hlook, trivial⟩
  rw [if_pos hsticky, hok] at h
  exact owns_of_ok h

end

/-- **A request that is sent follows the rule** exactly if it is `Fine`. -/
theorem rule_iff_of_send {o : Fsop} (h : o.send w pcr = .ok ()) : Rule w pcr o ↔ Fine w pcr o := by
  by_cases hu : pcr.uid = 0
  · have hmay (d : Slfid) (name : String) : w.MayRemove pcr d name := ⟨.inl hu, fun _ => .inl hu⟩
    exact iff_of_true (by cases o <;> simp [Rule, hmay]) (.inl hu)
  rw [Fine.eq_def, or_iff_right hu]
  cases o with
  | unlink d name | rmdir d name => exact mslDelete_rule hu h
  | rename od oldname nd newname =>
    simp only [Fsop.send, mslfsopRename, check_bind_eq_ok_iff, if_pos (show pcr.uid ≠ 0 from hu)] at h
    obtain ⟨-, -, -, -, -, h⟩ := h
    obtain ⟨src, hsrc, h⟩ := bind_eq_ok_iff.mp h
    have hnew := (check_bind_eq_ok_iff.mp h).1
    obtain ⟨hw, hsrc⟩ := sourceCheck_rule hu hsrc
    refine and_congr hsrc ?_
    by_cases hne : nd = od
    · -- the new parent is not checked again, and the target not at all
      subst hne
      exact mayRemove_iff hu hw fun _ => .inr fun hc => absurd rfl hc.1
    · exact newParent_rule hu hnew hne

/-- Directories 3 and 4 of root with files 5 and 6 of users 5 and 6. The name cache has one name. -/
def twoDirs (mode mode' : ℕ) (cached : String) : World where
  squash := false
  attr fid := if fid = 3 then ⟨0, 0, mode⟩ else if fid = 4 then ⟨0, 0, mode'⟩ else ⟨fid.toNat, fid.toNat, 0o100644⟩
  entry d name := if d = 3 ∧ name = "mine" then some 5 else if name = "yours" then some 6 else none
  names d name := if d = 3 ∧ name = cached then some 5 else none
  load _ := .ok ()
  stat _ := .ok ()
  lookup _ _ := .ok ()

def caller : Creds := ⟨5, 5, []⟩

theorem rule_of_send_mine : Rule (twoDirs 0o41777 0o41777 "") caller (.unlink 3 "mine") :=
  (rule_iff_of_send (by decide +kernel)).mpr (.inr fun _ => ⟨.inr rfl, .inr (.inl rfl)⟩)

/-- **Not so in general**: unlink, rename from or into a sticky directory, and unlink of a name that has become
another's. -/
theorem rule_broken :
    ((Fsop.unlink 3 "mine").send (twoDirs 0o41755 0o40777 "mine") caller = .ok () ∧
      ¬Rule (twoDirs 0o41755 0o40777 "mine") caller (.unlink 3 "mine")) ∧
    ((Fsop.rename 3 "mine" 3 "yours").send (twoDirs 0o41777 0o41777 "mine") caller = .ok () ∧
      ¬Rule (twoDirs 0o41777 0o41777 "mine") caller (.rename 3 "mine" 3 "yours")) ∧
    ((Fsop.rename 3 "mine" 4 "yours").send (twoDirs 0o40777 0o41776 "mine") caller = .ok () ∧
      ¬Rule (twoDirs 0o40777 0o41776 "mine") caller (.rename 3 "mine" 4 "yours")) ∧
    ((Fsop.unlink 3 "yours").send (twoDirs 0o41777 0o41777 "yours") caller = .ok () ∧
      ¬Rule (twoDirs 0o41777 0o41777 "yours") caller (.unlink 3 "yours")) := by
  decide +kernel

end Slash2.Client.Permission
