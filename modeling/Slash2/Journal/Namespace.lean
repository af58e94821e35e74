/-
# The two names of a namespace entry

`mdslog_namespace` packs the names of a rename, or the name and the target of a symbolic link, one
after the other into an entry of the journal, with one byte for each length, and
`mds_replay_namespace` takes them apart. How long they may be is decided by the handlers.

Key theorem: `names_replayed_iff`.
-/
import Mathlib.Data.List.TakeWhile
import Slash2.Lib.Layout

namespace Slash2.Journal

open Lib Lib.Bytes List Option

def slNameMax : ℕ := 255

def slPathMax : ℕ := 4096

def slTwoNameMax : ℕ := 364

/-- The string in a buffer, with a zero put behind it. -/
def cstr (buf : List Byte) : List Byte := buf.takeWhile (· ≠ 0)

/-- What `slm_rmc_handle_rename` and `slm_symlink` accept. -/
inductive NsReq where
  | rename (old new : List Byte) (hold : old ≠ [] ∧ old.length ≤ slNameMax) (hnew : new ≠ [] ∧ new.length ≤ slNameMax)
  | symlink (name link : List Byte) (hname : name.length ≤ slNameMax) (hlink : link ≠ [] ∧ link.length < slPathMax)

/-- The strings that are logged. -/
def NsReq.names : NsReq → List Byte × List Byte
  | .rename old new _ _ => (cstr old, cstr new)
  | .symlink name link _ _ => (cstr name, cstr link)

/-- `struct slmds_jent_namespace`, as far as the names go. -/
structure Sjnm where
  namelen : ℕ
  namelen2 : ℕ
  name : List Byte
  deriving DecidableEq

/-- `mdslog_namespace`; `none` if the assertion fails. -/
def mdslogNamespace (name newname : List Byte) : Option Sjnm :=
  let namelen := name.length % 256
  let namelen2 := newname.length % 256
  let buf := pwrite 0 (name.take namelen) (replicate slTwoNameMax 0)
  let buf := pwrite namelen (newname.take namelen2) buf
  if namelen + namelen2 ≤ slTwoNameMax then some ⟨namelen, namelen2, buf⟩ else none

/-- The names in `mds_replay_namespace`. -/
def mdsReplayNamespace (e : Sjnm) : List Byte × List Byte :=
  (cstr (pread 0 e.namelen e.name), cstr (pread e.namelen e.namelen2 e.name))

theorem cstr_cstr (buf : List Byte) : cstr (cstr buf) = cstr buf := takeWhile_idem

theorem length_cstr_le (buf : List Byte) : (cstr buf).length ≤ buf.length := ( takeWhile_prefix _).length_le

theorem NsReq.names_spec (q : NsReq) :
    q.names.1.length ≤ slNameMax ∧ cstr q.names.1 = q.names.1 ∧ cstr q.names.2 = q.names.2 := by
  cases q with
  | rename old new hold => exact ⟨(length_cstr_le old).trans hold.2, cstr_cstr old, cstr_cstr new⟩
  | symlink name link hname => exact ⟨(length_cstr_le name).trans hname, cstr_cstr name, cstr_cstr link⟩

theorem replay_log {a b : List Byte} (ha : a.length < 256) (hb : b.length < 256) (ha' : cstr a = a) (hb' : cstr b = b)
    (hsum : a.length + b.length ≤ slTwoNameMax) : (mdslogNamespace a b).map mdsReplayNamespace = some (a, b) := by
  have hread : pread 0 a.length (pwrite 0 a (replicate slTwoNameMax 0)) = a := pread_pwrite_self _ rfl
  have hlen : 0 + a.length ≤ (pwrite 0 a (replicate slTwoNameMax 0)).length := by
    rw [length_pwrite]
    exact Nat.le_max_right _ _
  simp only [mdslogNamespace, Nat.mod_eq_of_lt ha, Nat.mod_eq_of_lt hb, take_length, if_pos hsum, map_some,
    mdsReplayNamespace]
  rw [pread_pwrite_self _ rfl, pread_pwrite_before_of_le (Nat.le_of_eq (Nat.zero_add _)) hlen, hread, ha', hb']

/-- **The names come back** exactly if the second has at most 255 bytes and there is room for both. -/
theorem names_replayed_iff (q : NsReq) : (mdslogNamespace q.names.1 q.names.2).map mdsReplayNamespace = some q.names ↔
    q.names.2.length ≤ 255 ∧ q.names.1.length + q.names.2.length ≤ slTwoNameMax := by
  obtain ⟨hlen, h1, h2⟩ := q.names_spec
  have ha : q.names.1.length < 256 := Nat.lt_succ_of_le hlen
  refine ⟨fun h => ?_, fun h => replay_log ha (Nat.lt_succ_of_le h.1) h1 h2 h.2⟩
  obtain ⟨e, he, hq⟩ := map_eq_some_iff.mp h
  simp only [mdslogNamespace, Nat.mod_eq_of_lt ha] at he
  split_ifs at he with hsum
  cases he
  -- what is decoded is no longer than the byte says
  have hle : q.names.2.length ≤ q.names.2.length % 256 := by
    refine (congrArg (·.2.length) hq).symm.le.trans ((length_cstr_le _).trans ?_)
    rw [pread, length_take]
    exact Nat.min_le_left _ _
  exact ⟨by omega, by omega⟩

/-- **Two long names** fail the assertion, and a link's target is cut. -/
theorem names_lost : mdslogNamespace (replicate 255 97) (replicate 255 98) = none ∧
    (mdslogNamespace [97] (replicate 259 98)).map mdsReplayNamespace = some ([97], [98, 98, 98]) := by
  decide +kernel

end Slash2.Journal
