/-
# Block counts of a file at the MDS

Each I/O server that has a replica of a file reports how many blocks it uses, and the MDS keeps
these counts beside the replica table, the first four in the inode and the others in its
extension. `st_blocks` of the file is meant to be their sum: a CRC update changes it by the
difference of the reporting server's count, a full truncation and an import that replaces a file
clear everything.

Key theorem: `blocks_sum`.
-/
import Mathlib.Data.BitVec
import Slash2.Attr.Fcmh
import Slash2.Lib.Slots
import Slash2.Residency.Activate

namespace Slash2.Attr

open Lib List Option
open Residency (IosId slDefReplicas slMaxReplicas)

/-! ### Files at the MDS -/

structure Repl where
  ios : IosId
  nblks : BitVec 64
  deriving DecidableEq

structure MdsFile where
  stat : Stat
  blocks : BitVec 64
  /-- `ino_repls`, `ino_repl_nblks`, and those of the extension -/
  repls : List Repl
  od : List Repl
  deriving DecidableEq

def MdsFile.sum (f : MdsFile) : BitVec 64 := (f.repls.map Repl.nblks).sum

variable (f : MdsFile)

/-- `fcmh_set_repl_nblks` -/
def MdsFile.setReplNblks (i : ℕ) (n : BitVec 64) : MdsFile :=
  match f.repls[i]? with
  | some r => { f with repls := f.repls.set i { r with nblks := n } }
  | none => f

def MdsFile.clearNblks : MdsFile := { f with repls := f.repls.map fun r => { r with nblks := 0 } }

/-- `mds_inode_write` -/
def MdsFile.inodeWrite : MdsFile := { f with od := f.repls.take slDefReplicas ++ f.od.drop slDefReplicas }

/-- `mds_inox_write` -/
def MdsFile.inoxWrite : MdsFile := { f with od := f.od.take slDefReplicas ++ f.repls.drop slDefReplicas }

/-- `mds_inodes_odsync` -/
def MdsFile.odsync : MdsFile := { f with od := f.repls }

/-- A new file, with the replicas of `slm_fcmh_endow`. -/
def MdsFile.new (ids : List IosId) : MdsFile := ⟨⟨0, 0, 0⟩, 0, ids.map (⟨·, 0⟩), []⟩

/-- `mds_repl_ios_lookup` -/
def MdsFile.iosLookup (ios : IosId) : Option ℕ := f.repls.findIdx? (·.ios = ios)

/-- `mds_repl_ios_lookup_add`; `isfs` if it is a file system. -/
def MdsFile.iosLookupAdd (ios : IosId) (isfs : Bool) : Option (MdsFile × ℕ) :=
  match f.iosLookup ios with
  | some i => some (f, i)
  | none =>
    if isfs = false ∨ f.repls.length = slMaxReplicas then none
    else some (({ f with repls := f.repls ++ [⟨ios, 0⟩] } : MdsFile).odsync, f.repls.length)

/-- `mds_bmap_crc_update`, for the blocks; `ok` if attributes can be set. -/
def mdsBmapCrcUpdate (ios : IosId) (nblks : BitVec 64) (ok : Bool) : Option MdsFile :=
  (f.iosLookup ios).bind fun i => (f.repls[i]?).map fun r =>
    if nblks ≠ r.nblks then
      let g := f.setReplNblks i nblks
      let g := if ok then { g with blocks := f.blocks + nblks - r.nblks } else g
      if i ≥ slDefReplicas then g.inoxWrite else g.inodeWrite
    else f

/-- `slm_rmc_handle_setattr`, without the forward of a FID of another site (rmc.c:1137-1144); `ok` if the attributes
can be set. -/
def slmRmcHandleSetattr (q : ToSet) (ok : Bool) : MdsFile × Rc :=
  match q.size with
  | some n =>
    if n = 0 ∨ f.stat.size = 0 then
      -- a full truncation, or the first size of a file
      let g := f.clearNblks
      if ok then
        ({ g with stat := { f.stat with size := n, gen := (f.stat.gen + 1) % 0x10000000000000000 }, blocks := 0 }, .ok)
      else
        ({ g with stat := { f.stat with gen := (f.stat.gen + 0xffffffffffffffff) % 0x10000000000000000 } }, .other)
    else if n < f.stat.size then (f, .notsup)
    else if ok then ({ f with stat := { f.stat with size := n } }, .ok)
    else (f, .other)
  | none => (f, if q.mtime = false ∨ ok then .ok else .other)

/-- `struct srm_import_req` -/
structure ImportReq where
  ios : IosId
  xrepl : Bool
  /-- its `mtime` is before that of the file -/
  older : Bool
  size : ℕ
  blocks : BitVec 64

variable (q : ImportReq)

/-- `slm_rmi_handle_import` of a file that exists: whether it goes on. -/
def importReclaim (ok : Bool) : MdsFile × Bool :=
  if q.older then (f, false)
  else if q.xrepl then (f, decide (q.size = f.stat.size))
  else
    let g := f.clearNblks
    let g := if ok then
        { g with stat := { f.stat with size := 0, gen := (f.stat.gen + 1) % 0x10000000000000000 }, blocks := 0 }
      else g
    (g.odsync, ok)

/-- The rest of it; `bmaps` if the loop over the bmaps succeeds. -/
def importFinish (isfs bmaps ok : Bool) : MdsFile :=
  match f.iosLookupAdd q.ios isfs with
  | none => f
  | some (g, i) =>
    if bmaps = false then g
    else
      let g := g.setReplNblks i q.blocks
      if ok then
        ({ g with blocks := q.blocks, stat := { g.stat with size := if q.xrepl then g.stat.size else q.size } } : MdsFile).odsync
      else g

/-- `slm_rmi_handle_import` for a file that exists. -/
def slmRmiHandleImport (ok isfs bmaps ok' : Bool) : MdsFile :=
  let out := importReclaim f q ok
  if out.2 then importFinish out.1 q isfs bmaps ok' else out.1

/-! ### The life of a file -/

inductive BlockOp where
  | create (ids : List IosId)
  | importNew (ids : List IosId) (q : ImportReq) (isfs bmaps ok : Bool)
  | reimport (q : ImportReq) (ok isfs bmaps ok' : Bool)
  | crcUpdate (ios : IosId) (nblks : BitVec 64) (ok : Bool)
  | setattr (q : ToSet) (ok : Bool)
  | reload

/-- `none` before the file exists. -/
def blockStep : Option MdsFile → BlockOp → Option (Option MdsFile)
  | none, .create ids => some (some (MdsFile.new ids).odsync)
  | none, .importNew ids q isfs bmaps ok => some (some (importFinish (MdsFile.new ids) q isfs bmaps ok))
  | some f, .reimport q ok isfs bmaps ok' => some (some (slmRmiHandleImport f q ok isfs bmaps ok'))
  | some f, .crcUpdate ios nblks ok => (mdsBmapCrcUpdate f ios nblks ok).map some
  | some f, .setattr q ok => some (some (slmRmcHandleSetattr f q ok).1)
  | some f, .reload => some (some { f with repls := f.od })
  | _, _ => none

/-- `st_blocks` is the sum of the replicas' counts. -/
def Accounted (s : Option MdsFile) : Prop := ∀ f ∈ s, f.blocks = f.sum
  deriving Decidable

def MdsFile.nblksOf (ios : IosId) : BitVec 64 :=
  (((f.iosLookup ios).bind fun i => f.repls[i]?).map Repl.nblks).getD 0

/-- No write of the inode fails, a reimport with `xrepl` finds no blocks elsewhere, and a reload what is in memory. -/
def Sane (s : Option MdsFile) : BlockOp → Prop
  | .create _ => True
  | .importNew _ _ _ _ ok => ok
  | .reimport q ok _ _ ok' => ok ∧ ok' ∧ ∀ f ∈ s, q.xrepl → f.sum = f.nblksOf q.ios
  | .crcUpdate _ _ ok => ok
  | .setattr _ ok => ok
  | .reload => ∀ f ∈ s, f.od = f.repls

instance (s : Option MdsFile) (l : BlockOp) : Decidable (Sane s l) := by
  cases l <;> unfold Sane <;> infer_instance

section Sums

variable {f} {i : ℕ} {r : Repl}

theorem sum_setReplNblks (hi : f.repls[i]? = some r) (n : BitVec 64) :
    (f.setReplNblks i n).sum = f.sum + n - r.nblks := by
  have h := sum_map_set (x := { r with nblks := n }) Repl.nblks hi
  unfold MdsFile.setReplNblks
  rw [hi]
  exact eq_sub_of_add_eq h

/-- No replica has blocks. -/
def MdsFile.Cleared (f : MdsFile) : Prop := ∀ r ∈ f.repls, r.nblks = 0

theorem cleared_clearNblks (f : MdsFile) : f.clearNblks.Cleared := by
  intro r hr
  obtain ⟨x, -, rfl⟩ := mem_map.mp hr
  rfl

theorem cleared_new (ids : List IosId) : (MdsFile.new ids).Cleared := by
  intro r hr
  obtain ⟨x, -, rfl⟩ := mem_map.mp hr
  rfl

theorem MdsFile.Cleared.sum_eq (h : f.Cleared) : f.sum = 0 := by
  refine sum_eq_zero fun x hx => ?_
  obtain ⟨r, hr, rfl⟩ := mem_map.mp hx
  exact h r hr

theorem MdsFile.Cleared.nblksOf_eq (h : f.Cleared) (ios : IosId) : f.nblksOf ios = 0 := by
  unfold MdsFile.nblksOf
  cases hf : (f.iosLookup ios).bind fun i => f.repls[i]? with
  | none => rfl
  | some r =>
    obtain ⟨i, -, hr⟩ := bind_eq_some_iff.mp hf
    exact h r (mem_of_getElem? hr)

variable {ios : IosId}

theorem iosLookup_some (h : f.iosLookup ios = some i) : ∃ r, f.repls[i]? = some r := by
  obtain ⟨hlt, -⟩ := findIdx?_eq_some_iff_getElem.mp h
  exact ⟨_, getElem?_eq_getElem hlt⟩

theorem iosLookupAdd_spec {isfs : Bool} {g : MdsFile} (h : f.iosLookupAdd ios isfs = some (g, i)) :
    g.blocks = f.blocks ∧ g.sum = f.sum ∧ ∃ r, g.repls[i]? = some r ∧ r.nblks = f.nblksOf ios := by
  unfold MdsFile.iosLookupAdd at h
  split at h
  · rename_i hj
    cases h
    obtain ⟨r, hr⟩ := iosLookup_some hj
    refine ⟨rfl, rfl, r, hr, ?_⟩
    simp [MdsFile.nblksOf, hj, hr]
  rename_i hnone
  split_ifs at h
  cases h
  refine ⟨rfl, ?_, ⟨ios, 0⟩, by simp [MdsFile.odsync], by simp [MdsFile.nblksOf, hnone]⟩
  simp [MdsFile.sum, MdsFile.odsync]

end Sums

section Steps

variable {f}

theorem crcUpdate_accounted {g : MdsFile} {ios : IosId} {nblks : BitVec 64} (h : f.blocks = f.sum)
    (hst : mdsBmapCrcUpdate f ios nblks true = some g) : g.blocks = g.sum := by
  obtain ⟨i, -, hst⟩ := bind_eq_some_iff.mp hst
  obtain ⟨r, hr, rfl⟩ := map_eq_some_iff.mp hst
  have hsum := sum_setReplNblks hr nblks
  by_cases hne : nblks ≠ r.nblks
  · simp only [if_pos hne, if_true]
    have hblocks : f.blocks + nblks - r.nblks = (f.setReplNblks i nblks).sum := by rw [hsum, h]
    split_ifs <;> exact hblocks
  · rw [if_neg hne]
    exact h

theorem setattr_accounted (q : ToSet) (h : f.blocks = f.sum) :
    (slmRmcHandleSetattr f q true).1.blocks = (slmRmcHandleSetattr f q true).1.sum := by
  unfold slmRmcHandleSetattr
  split
  · simp only [if_true]
    split_ifs
    · change 0 = f.clearNblks.sum
      rw [(cleared_clearNblks f).sum_eq]
    · exact h
    · exact h
  · exact h

theorem importFinish_accounted (isfs bmaps : Bool) (h : f.blocks = f.sum) (hothers : f.sum = f.nblksOf q.ios) :
    (importFinish f q isfs bmaps true).blocks = (importFinish f q isfs bmaps true).sum := by
  unfold importFinish
  split
  · exact h
  rename_i g i hadd
  obtain ⟨hblocks, hsum, r, hr, hn⟩ := iosLookupAdd_spec hadd
  by_cases hb : bmaps = false
  · rw [if_pos hb, hblocks, hsum, h]
  simp only [if_neg hb, if_true]
  change q.blocks = (g.setReplNblks i q.blocks).sum
  rw [sum_setReplNblks hr, hsum, hn, hothers, add_sub_cancel_left]

theorem reimport_accounted (isfs bmaps : Bool) (h : f.blocks = f.sum) (hothers : q.xrepl → f.sum = f.nblksOf q.ios) :
    (slmRmiHandleImport f q true isfs bmaps true).blocks = (slmRmiHandleImport f q true isfs bmaps true).sum := by
  unfold slmRmiHandleImport importReclaim
  by_cases hold : q.older = true
  · simpa [hold] using h
  cases hx : q.xrepl with
  | true =>
    simp only [if_neg hold, if_true]
    split_ifs
    · exact importFinish_accounted q isfs bmaps h (hothers hx)
    · exact h
  | false =>
    -- everything has been cleared before the replica gets its count
    simp only [if_neg hold, Bool.false_eq_true, if_false, if_true]
    generalize hg : MdsFile.odsync _ = g
    have hcleared : g.Cleared := by
      rw [← hg]
      exact cleared_clearNblks f
    have hblocks : g.blocks = 0 := by
      rw [← hg]
      rfl
    refine importFinish_accounted q isfs bmaps ?_ ?_
    · rw [hblocks, hcleared.sum_eq]
    · rw [hcleared.sum_eq, hcleared.nblksOf_eq]

theorem step_accounted {s t : Option MdsFile} {l : BlockOp} (h : Accounted s) (hl : Sane s l)
    (hst : blockStep s l = some t) : Accounted t := by
  revert hst
  fun_cases blockStep s l <;> intro hst <;> try cases hst
  next ids =>
    rintro f ⟨⟩
    exact (cleared_new ids).sum_eq.symm
  next ids q isfs bmaps ok =>
    cases hl
    rintro f ⟨⟩
    have hnew := cleared_new ids
    refine importFinish_accounted q isfs bmaps hnew.sum_eq.symm ?_
    rw [hnew.sum_eq, hnew.nblksOf_eq]
  next f q ok isfs bmaps _ =>
    obtain ⟨⟨⟩, ⟨⟩, hothers⟩ := hl
    rintro g ⟨⟩
    exact reimport_accounted q isfs bmaps (h f rfl) (hothers f rfl)
  next f _ _ ok =>
    cases hl
    obtain ⟨g, hg, rfl⟩ := map_eq_some_iff.mp hst
    rintro g' ⟨⟩
    exact crcUpdate_accounted (h f rfl) hg
  next f q ok =>
    cases hl
    rintro g ⟨⟩
    exact setattr_accounted q (h f rfl)
  next f =>
    rintro g ⟨⟩
    have hod : f.od = f.repls := hl f rfl
    rw [hod]
    exact h f rfl

end Steps

/-- **Block accounting**: `st_blocks` is the sum of the replicas' counts, if all steps are `Sane`. -/
theorem blocks_sum (ls : List BlockOp) (hls : Admits blockStep Sane none ls) {s : Option MdsFile}
    (hs : run blockStep none ls = some s) : Accounted s :=
  run_invariant (fun h hl hst => step_accounted h hl hst) (by simp [Accounted]) hls hs

def reported : List BlockOp :=
  [.create [7, 9], .crcUpdate 7 8 true, .crcUpdate 9 16 true, .crcUpdate 7 24 true, .setattr ⟨some 0, true⟩ true,
    .crcUpdate 9 8 true]

theorem blocks_sum_reported : ∃ s ∈ run blockStep none reported, (∃ f ∈ s, f.blocks = 8) ∧ Accounted s := by
  have hrun : ∃ s ∈ run blockStep none reported, ∃ f ∈ s, f.blocks = 8 := by decide +kernel
  obtain ⟨s, hs, hb⟩ := hrun
  exact ⟨s, hs, hb, blocks_sum reported (by decide +kernel) hs⟩

/-- **`st_blocks` is not the sum**, when server 9 imports a second replica. -/
theorem blocks_off : (∃ s ∈ run blockStep none [.create [7], .setattr ⟨some 4096, true⟩ true, .crcUpdate 7 8 true,
        .reimport ⟨9, true, false, 4096, 8⟩ true true true true], ∃ f ∈ s, f.blocks = 8 ∧ f.sum = 16) ∧
    (∃ s ∈ run blockStep none [.create [7], .crcUpdate 7 8 true, .setattr ⟨some 0, true⟩ true, .reload],
      ∃ f ∈ s, f.blocks = 0 ∧ f.sum = 8) ∧
    (∃ s ∈ run blockStep none [.create [7], .crcUpdate 7 8 false], ∃ f ∈ s, f.blocks = 0 ∧ f.sum = 8) := by
  decide +kernel

end Slash2.Attr
