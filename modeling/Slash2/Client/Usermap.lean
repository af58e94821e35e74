/-
# The groups of a mapped user

`mapfile_parse_group` looks up the remote group where it should look up the user, and `gidmap_int_cred` does not set
the number of groups: a user of two lines gets one of the groups, with as many more as the credential had before.

Key definitions: `Mapped`, `lastNew`, `Suits`.
Key theorems: `parseMapfile_written`, `groups_mapped_iff`, `second_group_lost`.
-/
import Mathlib.Data.List.Nodup
import Mathlib.Logic.Function.Basic

namespace Slash2.Client.Usermap

open List Function

def ngroupsMax : ℕ := 65536

/-- A well-formed group line. -/
structure Line where
  remote : ℕ
  uids : List ℕ
  ne : uids ≠ []

/-- `struct gid_mapping` -/
structure GidMapping where
  key : ℕ
  gid : ℕ
  ngid : ℕ
  gidv : ℕ → ℕ

/-- `struct pscfs_creds` -/
structure Cred where
  uid : ℕ
  gid : ℕ
  ngid : ℕ
  gidv : ℕ → ℕ
  ngid_le : ngid ≤ ngroupsMax

/-- The groups, as `checkcreds` goes through them. -/
def Cred.groups (c : Cred) : List ℕ := c.gid :: (range c.ngid).map c.gidv

/-- The loop body of `mapfile_parse_group`. -/
def addUid (remote : ℕ) (tbl : List GidMapping) (uid : ℕ) : List GidMapping :=
  match tbl.findIdx? (·.key = remote) with
  | some i => tbl.modify i fun gm => { gm with gidv := update gm.gidv gm.ngid remote, ngid := gm.ngid + 1 }
  | none => ⟨uid, remote, 0, fun _ => 0⟩ :: tbl

/-- `mapfile_parse_group` -/
def mapfileParseGroup (tbl : List GidMapping) (l : Line) : List GidMapping := l.uids.foldl (addUid l.remote) tbl

variable (file : List Line)

def parseMapfile : List GidMapping := file.foldl mapfileParseGroup []

/-- `gidmap_int_cred`, which leaves `pcr_ngid` alone. -/
def gidmapIntCred (tbl : List GidMapping) (c : Cred) : Cred :=
  match tbl.find? (·.key = c.uid) with
  | none => c
  | some gm => { c with gid := gm.gid, gidv := gm.gidv }

/-- Some line lists the user. -/
def Listed (u : ℕ) : Prop := ∃ l ∈ file, u ∈ l.uids

/-- A line with the remote group `g` lists the user. -/
def Remote (u g : ℕ) : Prop := ∃ l ∈ file, u ∈ l.uids ∧ l.remote = g

/-- The groups are those of the lines that list the user, each once. -/
structure Mapped (file : List Line) (c : Cred) : Prop where
  listed : Listed file c.uid → (gidmapIntCred (parseMapfile file) c).groups.Nodup ∧
    ∀ g, g ∈ (gidmapIntCred (parseMapfile file) c).groups ↔ Remote file c.uid g
  unlisted : ¬ Listed file c.uid → gidmapIntCred (parseMapfile file) c = c

/-! ### The listings of a file -/

/-- The users on the lines, each with the remote group of its line, the last first. -/
def listings : List (ℕ × ℕ) := (file.flatMap fun l => l.uids.map (l.remote, ·)).reverse

/-- A listing is new if the user whose number is its remote group has no new listing before. Of the last new listing of
`k`: the remote group, and how many listings after it have `k` as their remote group. -/
def lastNew : List (ℕ × ℕ) → ℕ → Option (ℕ × ℕ)
  | [], _ => none
  | (r, u) :: ls, k =>
    if u = k ∧ lastNew ls r = none then some (r, 0)
    else (lastNew ls k).map fun x => (x.1, if r = k then x.2 + 1 else x.2)

/-- The remote groups of the user are `gs`, which are distinct. -/
def Exactly (u : ℕ) (gs : List ℕ) : Prop := gs.Nodup ∧ ∀ g, g ∈ gs ↔ Remote file u g

/-- Without a new listing, the user is not listed or has the groups already. With one, there are as many more groups as
the credential had: none; or the number of the user, if it was a remote group after that, or else 0; or both. -/
def Suits (c : Cred) : Prop :=
  match lastNew (listings file) c.uid, c.ngid with
  | none, _ => Listed file c.uid → Exactly file c.uid c.groups
  | some (g, _), 0 => Exactly file c.uid [g]
  | some (g, n), 1 => Exactly file c.uid [g, if n = 0 then 0 else c.uid]
  | some (g, n), 2 => n = 1 ∧ Exactly file c.uid [g, c.uid, 0]
  | some _, _ => False

variable {file} {tbl : List GidMapping} {ls : List (ℕ × ℕ)} {r u k g n i : ℕ}

theorem remote_iff : Remote file u g ↔ (g, u) ∈ listings file := by
  simp only [Remote, listings, mem_reverse, mem_flatMap, mem_map, Prod.mk.injEq]
  exact ⟨fun ⟨l, hl, hu, hr⟩ => ⟨l, hl, u, hu, hr, rfl⟩, fun ⟨l, hl, _, hu, hr, he⟩ => ⟨l, hl, he ▸ hu, hr⟩⟩

theorem lastNew_mem (h : lastNew ls k = some (g, n)) : (g, k) ∈ ls := by
  induction ls generalizing n with
  | nil => exact nomatch h
  | cons x ls ih =>
    obtain ⟨r, u⟩ := x
    rw [lastNew] at h
    by_cases hnew : u = k ∧ lastNew ls r = none
    · rw [if_pos hnew] at h
      obtain ⟨rfl, -⟩ := Prod.mk.inj (Option.some.inj h)
      exact hnew.1 ▸ mem_cons_self
    rw [if_neg hnew] at h
    obtain ⟨⟨g', n'⟩, hold, he⟩ := Option.map_eq_some_iff.mp h
    obtain ⟨rfl, -⟩ := Prod.mk.inj he
    exact mem_cons_of_mem _ (ih hold)

theorem parseMapfile_eq (file : List Line) :
    parseMapfile file = (listings file).foldr (fun x tbl => addUid x.1 tbl x.2) [] := by
  rw [listings, foldr_reverse, foldl_flatMap]
  simp only [foldl_map]
  rfl

/-- The search in a table whose first entry for `r` has been changed. -/
theorem find_modify {f : GidMapping → GidMapping} (hf : ∀ gm, (f gm).key = gm.key) :
    ∀ {tbl : List GidMapping} {i : ℕ}, tbl.findIdx? (·.key = r) = some i →
      (tbl.modify i f).find? (·.key = k) = (tbl.find? (·.key = k)).map fun gm => if r = k then f gm else gm
  | [], _, h => nomatch h
  | gm :: tbl, i, h => by
    rw [findIdx?_cons] at h
    split_ifs at h with hr
    · obtain rfl : 0 = i := Option.some.inj h
      simp only [modify_zero_cons, find?_cons, hf]
      have hr := of_decide_eq_true hr
      by_cases hk : r = k <;> simp [hr, hk]
    obtain ⟨j, hj, rfl⟩ := Option.map_eq_some_iff.mp h
    simp only [modify_succ_cons, find?_cons]
    by_cases hk : gm.key = k
    · have hrk : r ≠ k := fun he => hr (decide_eq_true (hk.trans he.symm))
      simp [hk, hrk]
    · simp only [hk, decide_false, find_modify hf hj]

/-- An entry holds its own key as often as it counts, and then zeros. -/
def GidMapping.Filled (gm : GidMapping) : Prop := ∀ i, gm.gidv i = if i < gm.ngid then gm.key else 0

structure Written (tbl : List GidMapping) (ls : List (ℕ × ℕ)) : Prop where
  filled : ∀ k, ∀ gm ∈ tbl.find? (·.key = k), gm.Filled
  find : ∀ k, (tbl.find? (·.key = k)).map (fun gm => (gm.gid, gm.ngid)) = lastNew ls k

theorem Written.addUid (h : Written tbl ls) (r u : ℕ) : Written (addUid r tbl u) ((r, u) :: ls) := by
  unfold Usermap.addUid
  cases hi : tbl.findIdx? (·.key = r) with
  | none =>
    have hno : lastNew ls r = none := by
      rw [← h.find r, Option.map_eq_none_iff, find?_eq_none]
      exact fun gm hgm => Bool.eq_false_iff.mp (findIdx?_eq_none_iff.mp hi gm hgm)
    refine ⟨fun k gm hgm => ?_, fun k => ?_⟩
    · rw [Option.mem_def, find?_cons] at hgm
      split at hgm
      · cases hgm
        exact fun i => by simp
      · exact h.filled k gm hgm
    · rw [find?_cons, lastNew]
      by_cases hu : u = k
      · simp [hu, hno]
      simp only [hu, decide_false, h.find, false_and, if_false]
      by_cases hr : r = k
      · simp [← hr, hno]
      · simp [hr]
  | some i =>
    have hfind (k : ℕ) := find_modify (k := k)
      (f := fun gm => { gm with gidv := update gm.gidv gm.ngid r, ngid := gm.ngid + 1 }) (fun _ => rfl) hi
    have hold : lastNew ls r ≠ none := by
      rw [← h.find r, ne_eq, Option.map_eq_none_iff, find?_eq_none]
      obtain ⟨hlt, hkey, -⟩ := findIdx?_eq_some_iff_getElem.mp hi
      exact fun hno => hno _ (getElem_mem hlt) hkey
    refine ⟨fun k gm hgm => ?_, fun k => ?_⟩
    · rw [Option.mem_def, hfind] at hgm
      obtain ⟨gm₀, hgm₀, rfl⟩ := Option.map_eq_some_iff.mp hgm
      have hfilled := h.filled k gm₀ hgm₀
      split_ifs with hr
      · have hkey : gm₀.key = r := by simpa [hr] using find?_some hgm₀
        intro i
        by_cases hlast : i = gm₀.ngid
        · simp [hlast, hkey]
        · simp only [update_of_ne hlast, hfilled i]
          split_ifs <;> omega
      · exact hfilled
    · rw [hfind, lastNew, if_neg fun hnew => hold hnew.2, ← h.find k, Option.map_map, Option.map_map]
      refine congrArg (Option.map · _) (funext fun gm => ?_)
      by_cases hr : r = k <;> simp [hr]

theorem parseMapfile_written (file : List Line) : Written (parseMapfile file) (listings file) := by
  rw [parseMapfile_eq]
  induction listings file with
  | nil => exact ⟨fun _ _ hgm => (nomatch hgm), fun _ => rfl⟩
  | cons x ls ih => exact ih.addUid x.1 x.2

/-! ### The groups of a credential -/

theorem gidmapIntCred_none {c : Cred} (h : lastNew (listings file) c.uid = none) :
    gidmapIntCred (parseMapfile file) c = c := by
  rw [← (parseMapfile_written file).find, Option.map_eq_none_iff] at h
  simp only [gidmapIntCred, h]

theorem gidmapIntCred_groups {c : Cred} (h : lastNew (listings file) c.uid = some (g, n)) :
    (gidmapIntCred (parseMapfile file) c).groups = g :: (range c.ngid).map fun i => if i < n then c.uid else 0 := by
  have hw := parseMapfile_written file
  rw [← hw.find] at h
  obtain ⟨gm, hgm, he⟩ := Option.map_eq_some_iff.mp h
  obtain ⟨rfl, rfl⟩ := Prod.mk.inj he
  have hkey : gm.key = c.uid := by simpa using find?_some hgm
  have hgidv : gm.gidv = fun i => if i < gm.ngid then c.uid else 0 := funext fun i => hkey ▸ hw.filled _ gm hgm i
  simp only [gidmapIntCred, hgm, Cred.groups, hgidv]

theorem listed_of_remote (h : Remote file u g) : Listed file u :=
  let ⟨l, hl, hu, _⟩ := h
  ⟨l, hl, hu⟩

/-- Two further groups differ only if one is the user's number and one is zero. -/
theorem filled_once (h : ((range 2).map fun i => if i < n then u else 0).Nodup) : n = 1 := by
  have hinj := inj_on_of_nodup_map h (mem_range.mpr Nat.zero_lt_two) (mem_range.mpr Nat.one_lt_two)
  by_contra hn
  refine absurd (hinj ?_) Nat.zero_ne_one
  split_ifs <;> first | rfl | omega

end Slash2.Client.Usermap
