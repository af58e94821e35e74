/-
# Looking up several servers

`_mds_repl_iosv_lookup` compares each index with itself after the first one, so by `iosv_lookup_iff` it refuses every
request for two servers or more.
-/
import Slash2.Residency.Request

namespace Slash2.Upsch

open Residency List

variable (env : LookupEnv) (add : Bool)

/-- `_mds_repl_ios_lookup`, with or without `IOSV_LOOKUPF_ADD`. -/
def iosLookup (f : Inode) (ios : IosId) : ℤ × Inode :=
  if add then mdsReplIosLookupAdd env f ios
  else match iosSearch env f ios (range f.nrepls) with
    | .error rc => (rc, f)
    | .ok (some j) => (j, f)
    | .ok none => (if env.resIsfs ios then -slerrReplNotAct else -slerrResBadtype, f)

/-- The loop: the indices, or the error of the first lookup that fails, less one. -/
def iosLookups : Inode → List IosId → Except ℕ (List ℕ)
  | _, [] => .ok []
  | f, ios :: iosv =>
    match iosLookup env add f ios with
    | (.ofNat i, f') => (iosLookups f' iosv).map (i :: ·)
    | (.negSucc n, _) => .error n

/-- `_mds_repl_iosv_lookup` without `IOSV_LOOKUPF_DEL`: the return value and `iosidx`. -/
def iosvLookupRc (f : Inode) (iosv : List IosId) : ℤ × List ℕ :=
  match iosLookups env add f iosv with
  | .error n => (n + 1, [])
  | .ok is =>
    let iosidx := is.insertionSort (· ≤ ·)
    (if iosidxDup none iosidx then einval else 0, iosidx)

/-- Zero for distinct replicas, then in ascending order, and `EINVAL` for one that is named twice. -/
structure LooksUp (f : Inode) (iosv : List IosId) : Prop where
  zero : (iosvLookupRc env add f iosv).1 = 0 ↔ ∃ is, iosLookups env add f iosv = .ok is ∧ is.Nodup
  ascending : (iosvLookupRc env add f iosv).1 = 0 → (iosvLookupRc env add f iosv).2.Pairwise (· < ·) ∧
    ∀ is, iosLookups env add f iosv = .ok is → (iosvLookupRc env add f iosv).2.Perm is
  twice : (iosvLookupRc env add f iosv).1 = einval ↔ ∃ is, iosLookups env add f iosv = .ok is ∧ ¬ is.Nodup

/-- **The lookup is right if and only if at most one server is found, or one of them twice, or a lookup fails with
another error than `EINVAL`.** -/
theorem iosv_lookup_iff (f : Inode) (iosv : List IosId) : LooksUp env add f iosv ↔
    (∀ is, iosLookups env add f iosv = .ok is → is.Nodup → is.length ≤ 1) ∧
      ∀ n : ℕ, iosLookups env add f iosv = .error n → (n + 1 : ℤ) ≠ einval := by
  cases h : iosLookups env add f iosv with
  | error n =>
    have hrc : iosvLookupRc env add f iosv = ((n + 1 : ℤ), []) := by rw [iosvLookupRc, h]
    constructor
    · rintro ⟨-, -, htwice⟩
      refine ⟨nofun, fun m hm he => ?_⟩
      cases hm
      obtain ⟨_, hok, -⟩ := htwice.mp (by rw [hrc, he])
      cases h.symm.trans hok
    · rintro ⟨-, hne⟩
      refine ⟨?_, ?_, ?_⟩
      · simp [hrc, h]
        omega
      · simp [hrc, h]
      · simp [hrc, h, hne n rfl]
  | ok is =>
    have hrc : iosvLookupRc env add f iosv = (if 2 ≤ is.length then einval else 0, is.insertionSort (· ≤ ·)) := by
      simp only [iosvLookupRc, h, iosidxDup_iff, length_insertionSort]
    constructor
    · rintro ⟨hzero, -, -⟩
      refine ⟨fun is' his hnd => ?_, nofun⟩
      cases his
      have h0 := hzero.mpr ⟨is, h, hnd⟩
      by_contra hlen
      rw [hrc, if_pos (by omega)] at h0
      cases h0
    · rintro ⟨hle, -⟩
      rcases is with _ | ⟨i, _ | ⟨j, is⟩⟩
      · constructor <;> simp [hrc, h, einval]
      · constructor <;> simp [hrc, h, einval]
      · have hnd : ¬ (i :: j :: is).Nodup := fun hnd => absurd (hle _ rfl hnd) (by simp)
        constructor <;> simp [hrc, h, hnd, einval]

/-- Two servers that both have a replica are refused. -/
theorem two_servers_refused : iosLookups easyRq.lenv false (duoSite.ino 7) [1, 2] = .ok [0, 1] ∧
    (iosvLookupRc easyRq.lenv false (duoSite.ino 7) [1, 2]).1 = einval :=
  ⟨rfl, by decide +kernel⟩

end Slash2.Upsch
