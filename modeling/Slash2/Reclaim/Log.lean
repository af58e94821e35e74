/-
# The reclaim log

A file that is unlinked or truncated to nothing leaves data behind on the I/O servers. The MDS
notes it in the reclaim log, a row of numbered files whose first record is a magic header. A
progress file says for every I/O server up to which batch and transaction it has been told. After
a crash `mds_journal_init` finds its way back from these files alone.

Key theorem: `mdsWriteLogentry_of_logOk`.
-/
import Slash2.Residency.Activate

namespace Slash2.Reclaim

open Residency List Option Function

def uint64Max : ℕ := 0xffffffffffffffff

/-- `SLM_RECLAIM_BATCH_NENTS`, header included. -/
def slmReclaimBatchNents : ℕ := 2048

/-- `struct srt_reclaim_entry` -/
structure Rec where
  xid : ℕ
  fid : ℕ
  gen : ℕ
  deriving DecidableEq

/-- `RECLAIM_MAGIC_VER`, `RECLAIM_MAGIC_FID`, `RECLAIM_MAGIC_GEN` -/
def magic : Rec := ⟨0x1, 0xffffffffffffffff, 0xabcdefabcdef5678⟩

/-- `struct reclaim_prog_entry`, found by its `rpe_id`. -/
structure Prog where
  xid : ℕ
  batchno : ℕ

structure Entry where
  re : Rec
  owed : List IosId
  deriving DecidableEq

structure Disk where
  files : ℕ → Option (List Rec)
  prog : IosId → Option Prog
  hist : ℕ → List Entry

/-- What `slmkfs` leaves: empty files. -/
def Disk.mkfs : Disk where
  files n := if n = 0 then some [] else none
  prog _ := none
  hist _ := []

variable (d : Disk)

/-- A log file is created, written or, with `none`, unlinked. -/
def Disk.setFile (n : ℕ) (f : Option (List Rec)) : Disk :=
  { d with files := update d.files n f }

variable {n m lwm : ℕ} {f : IosId → ℕ} {files : ℕ → Option (List Rec)}

@[simp] theorem Disk.setFile_files (n : ℕ) (f : Option (List Rec)) : (d.setFile n f).files n = f := update_self ..

theorem Disk.setFile_files_of_ne (h : m ≠ n) (f : Option (List Rec)) :
    (d.setFile n f).files m = d.files m := update_of_ne h ..

@[simp] theorem Disk.setFile_hist (n : ℕ) (f : Option (List Rec)) : (d.setFile n f).hist = d.hist := rfl

/-- `mds_write_file` of one record, not behind the end. -/
def pwrite {α : Type*} (f : List α) (off : ℕ) (r : α) : List α := f.take off ++ r :: f.drop (off + 1)

theorem pwrite_length {α : Type*} (f : List α) (r : α) : pwrite f f.length r = f ++ [r] := by
  simp [pwrite]

/-! ### Appending -/

/-- How far `mds_write_logentry` is: no `log_handle`; open without a header; with one. -/
inductive Stage where
  | closed
  | created
  | ready
  deriving DecidableEq

/-- `reclaim_prg`, the offset counted in records. -/
structure Prg where
  stage : Stage
  logOffset : ℕ
  curBatchno : ℕ
  curXid : ℕ

variable {p : Prg}

def openLog (p : Prg) : Option (Disk × Prg) :=
  match p.stage, d.files p.curBatchno with
  | .closed, none =>
    some (d.setFile p.curBatchno (some []), { p with stage := .created, logOffset := 0 })
  | .closed, some [] => some (d, { p with stage := .created, logOffset := 0 })
  | .closed, some (r :: rs) =>
    let total := if slmReclaimBatchNents < rs.length then slmReclaimBatchNents - 1 else rs.length
    if r = magic ∧ total + 1 = (r :: rs).length then
      some (d, { p with stage := .ready, logOffset := total + 1 })
    else none
  | _, _ => some (d, p)

def writeHeader (p : Prg) : Disk × Prg :=
  match p.stage with
  | .created =>
    (d.setFile p.curBatchno (some (pwrite ((d.files p.curBatchno).getD []) p.logOffset magic)),
      { p with stage := .ready, logOffset := p.logOffset + 1 })
  | _ => (d, p)

def Disk.addEntry (n off : ℕ) (r : Rec) (owed : List IosId) : Disk :=
  { d.setFile n (some (pwrite ((d.files n).getD []) off r)) with
    hist := update d.hist n (d.hist n ++ [⟨r, owed⟩]) }

/-- The part of `mds_write_logentry` from `skip` on. -/
def writeEntry (owed : List IosId) (xid fid gen : ℕ) (d : Disk) (p : Prg) : Option (Disk × Prg) :=
  let d' := d.addEntry p.curBatchno p.logOffset ⟨xid, fid, gen⟩ owed
  if p.logOffset + 1 = slmReclaimBatchNents then
    some (d', ⟨.closed, p.logOffset + 1, p.curBatchno + 1, xid⟩)
  else if p.logOffset + 1 ≤ slmReclaimBatchNents then
    some (d', { p with logOffset := p.logOffset + 1, curXid := xid })
  else none

/-- `mds_write_logentry`; `next` is `pjournal_next_xid`, `owed` the I/O servers. -/
def mdsWriteLogentry (owed : List IosId) (next xid fid gen : ℕ) (d : Disk) (p : Prg) : Option (Disk × Prg) :=
  let xid := if xid = 0 then next else xid
  (openLog d p).bind fun (d, p) =>
    let (d, p) := writeHeader d p
    writeEntry owed xid fid gen d p

/-- `struct sl_mds_iosinfo`, with `SIF_DISABLE_GC`. -/
structure Si where
  xid : ℕ
  batchno : ℕ
  disableGc : Bool

def maxReclaimProgEntry : ℕ := 1024

structure Conf where
  ids : List IosId
  ne : ids ≠ []
  le : ids.length ≤ maxReclaimProgEntry

def oneIos : Conf := ⟨[1], by decide, by decide⟩

def hwm (ids : List IosId) (f : IosId → ℕ) : ℕ := (ids.map f).foldr max 0

def Disk.load (i : IosId) : Si :=
  match d.prog i with
  | some p => ⟨p.xid, p.batchno, false⟩
  | none => ⟨0, 0, false⟩

def Disk.recorded (ids : List IosId) : ℕ := hwm ids fun i => (d.load i).batchno

def Disk.zeroStale (ids : List IosId) : Disk :=
  { d with prog := fun i => if i ∈ ids then d.prog i else (d.prog i).map fun _ => ⟨0, 0⟩ }

/-- The loop for the last log file, from `batchno` up. -/
def scanFrom (files : ℕ → Option (List Rec)) (lwm : ℕ) : ℕ → ℕ → Option ℕ
  | 0, _ => none
  | fuel + 1, batchno =>
    match files batchno with
    | some _ => scanFrom files lwm fuel (batchno + 1)
    | none => if lwm < batchno then some (batchno - 1) else none

def recoverPrg (files : ℕ → Option (List Rec)) (lwm : ℕ) : Option Prg :=
  (scanFrom files lwm (uint64Max - lwm) lwm).bind fun batchno =>
    match files batchno with
    | none => none
    | some [] => some ⟨.closed, 0, batchno, 0⟩
    | some (r :: rs) =>
      let max := slmReclaimBatchNents - 1
      let total := if max < rs.length then max else rs.length
      if r = magic then
        some ⟨.closed, 0, if total = max then batchno + 1 else batchno, (rs.getLast?.map Rec.xid).getD 0⟩
      else none

def fastForward (p : Prg) (si : Si) : Si :=
  if si.xid = 0 ∧ si.batchno = 0 then { si with xid := p.curXid, batchno := p.curBatchno } else si

/-- The part of `mds_journal_init` about the reclaim log. -/
def mdsJournalInit (c : Conf) (d : Disk) : Option (Disk × Prg × (IosId → Si)) :=
  (recoverPrg d.files (d.recorded c.ids)).map fun p =>
    (d.zeroStale c.ids, p, fun i => fastForward p (d.load i))

/-! ### High-water marks -/

variable {ids : List IosId}

theorem hwm_le_iff {b : ℕ} : hwm ids f ≤ b ↔ ∀ i ∈ ids, f i ≤ b := by
  unfold hwm
  induction ids with
  | nil => simp
  | cons i ids ih => simp [ih]

theorem le_hwm {i : IosId} (h : i ∈ ids) : f i ≤ hwm ids f := hwm_le_iff.mp le_rfl i h

theorem hwm_mono {ids ids' : List IosId} {g : IosId → ℕ} (hs : ids ⊆ ids')
    (hf : ∀ i ∈ ids, f i ≤ g i) : hwm ids f ≤ hwm ids' g :=
  hwm_le_iff.mpr fun i hi => (hf i hi).trans (le_hwm (hs hi))

theorem Disk.load_batchno_le {d : Disk} {b : ℕ} (h : ∀ i p, d.prog i = some p → p.batchno ≤ b)
    (i : IosId) : (d.load i).batchno ≤ b := by
  unfold Disk.load
  cases hp : d.prog i with
  | none => exact Nat.zero_le b
  | some p => exact h i p hp

theorem Disk.zeroStale_load {d : Disk} {i : IosId} (h : i ∈ ids) : (d.zeroStale ids).load i = d.load i := by
  simp [Disk.load, Disk.zeroStale, h]

/-! ### The log files in order

The batch the next entry goes to is `c`. All files before it have been filled; some of them are
removed, but none that an I/O server may still be at. The file `c` itself may have been created or
not. -/

structure LogOk (ids : List IosId) (d : Disk) (c : ℕ) : Prop where
  above : ∀ n, c < n → d.files n = none ∧ d.hist n = []
  full : ∀ n, n < c → (d.hist n).length + 1 = slmReclaimBatchNents
  room : (d.hist c).length + 1 < slmReclaimBatchNents
  file : ∀ n f, d.files n = some f → (f = [] ∧ d.hist n = []) ∨ f = magic :: (d.hist n).map Entry.re
  fresh : d.files c = none → d.hist c = [] ∧ 0 < c
  removed : ∀ n, n < c → d.files n = none → n + 2 ≤ d.recorded ids
  prog : ∀ i p, d.prog i = some p → p.batchno ≤ c
  small : c + 1 < uint64Max

theorem logOk_mkfs (ids : List IosId) : LogOk ids Disk.mkfs 0 where
  above n hn := ⟨if_neg (by omega), rfl⟩
  full n hn := by omega
  room := by decide
  file n f hf := by
    obtain ⟨-, hf⟩ := ite_none_right_eq_some.mp hf
    cases hf
    exact .inl ⟨rfl, rfl⟩
  fresh h := by cases h
  removed n hn := by omega
  prog i p hp := by cases hp
  small := by decide

section
variable {d} {c : ℕ} {f : List Rec}

theorem LogOk.file_full (h : LogOk ids d c) (hn : n < c) (hf : d.files n = some f) :
    f = magic :: (d.hist n).map Entry.re := by
  rcases h.file n f hf with ⟨-, hnil⟩ | hf
  · have := h.full n hn
    rw [hnil] at this
    cases this
  · exact hf

theorem LogOk.recorded_le (h : LogOk ids d c) (ids' : List IosId) : d.recorded ids' ≤ c :=
  hwm_le_iff.mpr fun i _ => Disk.load_batchno_le h.prog i

theorem LogOk.mono {ids' : List IosId} (h : LogOk ids d c) (hs : ids ⊆ ids') : LogOk ids' d c :=
  { h with
    removed := fun n hn hf => (h.removed n hn hf).trans (hwm_mono hs fun _ _ => le_rfl) }

theorem LogOk.zeroStale (h : LogOk ids d c) : LogOk ids (d.zeroStale ids) c :=
  { h with
    removed := fun n hn hf =>
      (h.removed n hn hf).trans (hwm_mono (fun _ hi => hi) fun i hi => by
        rw [Disk.zeroStale_load hi])
    prog := fun i p hp => by
      by_cases hi : i ∈ ids
      · exact h.prog i p (by simpa [Disk.zeroStale, hi] using hp)
      simp only [Disk.zeroStale, if_neg hi] at hp
      obtain ⟨q, -, rfl⟩ := map_eq_some_iff.mp hp
      exact Nat.zero_le c }

/-! ### The scan -/

theorem scanFrom_eq : ∀ {fuel b hi : ℕ}, lwm ≤ b →
    b ≤ hi + 1 → (∀ n, b ≤ n → n ≤ hi → (files n).isSome) → files (hi + 1) = none → lwm ≤ hi →
    hi + 1 < b + fuel → scanFrom files lwm fuel b = some hi
  | 0, b, hi, _, hb, _, _, _, hfuel => by omega
  | fuel + 1, b, hi, hlb, hb, hall, hnone, hl, hfuel => by
    unfold scanFrom
    by_cases hlast : b = hi + 1
    · rw [hlast, hnone]
      simp only [if_pos (Nat.lt_succ_of_le hl), Nat.add_sub_cancel]
    obtain ⟨f, hf⟩ := isSome_iff_exists.mp (hall b (Nat.le_refl b) (by omega))
    rw [hf]
    exact scanFrom_eq (by omega) (by omega) (fun n hn => hall n (by omega)) hnone hl (by omega)

theorem recoverPrg_of_missing (h : files lwm = none) : recoverPrg files lwm = none := by
  unfold recoverPrg
  cases uint64Max - lwm with
  | zero => rfl
  | succ => simp [scanFrom, h]

theorem recoverPrg_curXid (h : recoverPrg files lwm = some p) : p.stage = .closed ∧
      (p.curXid = 0 ∨ ∃ n f r, files n = some f ∧ r ∈ f.tail ∧ r.xid = p.curXid) := by
  obtain ⟨b, -, h⟩ := bind_eq_some_iff.mp h
  cases hf : files b with
  | none =>
    rw [hf] at h
    cases h
  | some f =>
    rw [hf] at h
    cases f with
    | nil =>
      cases h
      exact ⟨rfl, .inl rfl⟩
    | cons r rs =>
      obtain ⟨-, h⟩ := ite_none_right_eq_some.mp h
      cases h
      refine ⟨rfl, ?_⟩
      cases hl : rs.getLast? with
      | none => exact .inl rfl
      | some l => exact .inr ⟨b, r :: rs, l, hf, mem_of_getLast? hl, rfl⟩

theorem LogOk.isSome_of_recorded (h : LogOk ids d c) (hn : d.recorded ids ≤ n) (hc : n < c) : (d.files n).isSome := by
  rw [isSome_iff_ne_none]
  intro hf
  have := h.removed n hc hf
  omega

def lastXid (d : Disk) (c : ℕ) : ℕ :=
  (((if d.files c = none then d.hist (c - 1) else d.hist c).getLast?).map (·.re.xid)).getD 0

theorem recoverPrg_of_logOk (h : LogOk ids d c) (hf : (d.files (d.recorded ids)).isSome) :
    recoverPrg d.files (d.recorded ids) = some ⟨.closed, 0, c, lastXid d c⟩ := by
  have hle := h.recorded_le ids
  have hsmall := h.small
  unfold recoverPrg lastXid
  cases hc : d.files c with
  | none =>
    -- the last file is the one before, and it is full
    have hne : d.recorded ids ≠ c := fun he => by rw [he, hc] at hf; cases hf
    obtain ⟨m, rfl⟩ : ∃ m, c = m + 1 := ⟨c - 1, by omega⟩
    obtain ⟨f, hm⟩ := isSome_iff_exists.mp (h.isSome_of_recorded (n := m) (by omega) (by omega))
    have hscan : scanFrom d.files (d.recorded ids) (uint64Max - d.recorded ids) (d.recorded ids) =
        some m :=
      scanFrom_eq le_rfl (by omega) (fun n hn hn' => h.isSome_of_recorded hn (by omega)) hc (by omega) (by omega)
    have hfull := h.full m (by omega)
    have hlen : (d.hist m).length = slmReclaimBatchNents - 1 := by omega
    rw [hscan, bind_some, hm, h.file_full (by omega) hm]
    simp [hlen, getLast?_map, comp_def]
  | some f =>
    have hnone := (h.above (c + 1) (by omega)).1
    have hscan : scanFrom d.files (d.recorded ids) (uint64Max - d.recorded ids) (d.recorded ids) =
        some c := by
      refine scanFrom_eq le_rfl (by omega) (fun n hn hn' => ?_) hnone (by omega) (by omega)
      by_cases hnc : n = c
      · rw [hnc, hc]
        rfl
      · exact h.isSome_of_recorded hn (by omega)
    have hroom := h.room
    rw [hscan, bind_some, hc]
    rcases h.file c f hc with ⟨rfl, hnil⟩ | rfl
    · simp [hnil]
    have hlt : ¬ slmReclaimBatchNents - 1 < (d.hist c).length := by omega
    have hne : (d.hist c).length ≠ slmReclaimBatchNents - 1 := by omega
    simp [hlt, hne, getLast?_map, comp_def]

/-! ### Writes -/

theorem LogOk.setFile (h : LogOk ids d c) (hf : (f = [] ∧ d.hist c = []) ∨ f = magic :: (d.hist c).map Entry.re) :
    LogOk ids (d.setFile c (some f)) c where
  above n hn := by
    rw [Disk.setFile_files_of_ne d (by omega)]
    exact h.above n hn
  full := h.full
  room := h.room
  file n g hg := by
    by_cases hn : n = c
    · subst hn
      rw [Disk.setFile_files] at hg
      cases hg
      exact hf
    · rw [Disk.setFile_files_of_ne d hn] at hg
      exact h.file n g hg
  fresh hn := by
    rw [Disk.setFile_files] at hn
    cases hn
  removed n hn hg := by
    rw [Disk.setFile_files_of_ne d (by omega)] at hg
    exact h.removed n hn hg
  prog := h.prog
  small := h.small

theorem LogOk.unlink (h : LogOk ids d c) (hn : n + 2 ≤ d.recorded ids) : LogOk ids (d.setFile n none) c where
  above m hm := by
    have hle := h.recorded_le ids
    rw [Disk.setFile_files_of_ne d (by omega)]
    exact h.above m hm
  full := h.full
  room := h.room
  file m g hg := by
    by_cases hm : m = n
    · rw [hm, Disk.setFile_files] at hg
      cases hg
    · rw [Disk.setFile_files_of_ne d hm] at hg
      exact h.file m g hg
  fresh hm := by
    have hle := h.recorded_le ids
    rw [Disk.setFile_files_of_ne d (by omega)] at hm
    exact h.fresh hm
  removed m hm hg := by
    by_cases hmn : m = n
    · rw [hmn]
      exact hn
    · rw [Disk.setFile_files_of_ne d hmn] at hg
      exact h.removed m hm hg
  prog := h.prog
  small := h.small

theorem LogOk.setProg (h : LogOk ids d c) {prog : IosId → Option Prog} (hle : ∀ i p, prog i = some p → p.batchno ≤ c)
    (hmono : ∀ i ∈ ids, (d.load i).batchno ≤ (Disk.load { d with prog := prog } i).batchno) :
    LogOk ids { d with prog := prog } c :=
  { h with
    removed := fun n hn hf => (h.removed n hn hf).trans (hwm_mono (fun _ hi => hi) hmono)
    prog := hle }

@[simp] theorem Disk.addEntry_files (d : Disk) (n off : ℕ) (r : Rec) (owed : List IosId) :
    (d.addEntry n off r owed).files n = some (pwrite ((d.files n).getD []) off r) :=
  Disk.setFile_files ..

theorem Disk.addEntry_files_of_ne (d : Disk) (h : m ≠ n) (off : ℕ) (r : Rec) (owed : List IosId) :
    (d.addEntry n off r owed).files m = d.files m :=
  Disk.setFile_files_of_ne d h _

@[simp] theorem Disk.addEntry_hist (d : Disk) (n off : ℕ) (r : Rec) (owed : List IosId) :
    (d.addEntry n off r owed).hist n = d.hist n ++ [⟨r, owed⟩] := update_self ..

theorem Disk.addEntry_hist_of_ne (d : Disk) (h : m ≠ n) (off : ℕ) (r : Rec) (owed : List IosId) :
    (d.addEntry n off r owed).hist m = d.hist m := update_of_ne h ..

theorem Disk.addEntry_files_ready (h : d.files n = some (magic :: (d.hist n).map Entry.re))
    (r : Rec) (owed : List IosId) : (d.addEntry n ((d.hist n).length + 1) r owed).files n =
      some (magic :: (d.hist n ++ [Entry.mk r owed]).map Entry.re) := by
  have hlen : (d.hist n).length + 1 = (magic :: (d.hist n).map Entry.re).length := by simp
  rw [Disk.addEntry_files, h, hlen, getD_some, pwrite_length]
  simp

theorem LogOk.addEntry (h : LogOk ids d c) {c' : ℕ} {r : Rec} {owed : List IosId}
    (hf : d.files c = some (magic :: (d.hist c).map Entry.re))
    (hc : c' = c ∧ (d.hist c).length + 2 < slmReclaimBatchNents ∨
      c' = c + 1 ∧ (d.hist c).length + 2 = slmReclaimBatchNents ∧ c' + 1 < uint64Max) :
    LogOk ids (d.addEntry c ((d.hist c).length + 1) r owed) c' := by
  have hfile := Disk.addEntry_files_ready hf r owed
  have hle : c ≤ c' := by omega
  refine ⟨fun n hn => ?_, fun n hn => ?_, ?_, fun n f hn => ?_, fun hn => ?_, fun n hn hn' => ?_,
    fun i p hp => (h.prog i p hp).trans hle, ?_⟩
  · rw [Disk.addEntry_files_of_ne d (by omega), Disk.addEntry_hist_of_ne d (by omega)]
    exact h.above n (by omega)
  · by_cases hnc : n = c
    · subst hnc
      rw [Disk.addEntry_hist, length_append, length_singleton]
      omega
    · rw [Disk.addEntry_hist_of_ne d hnc]
      exact h.full n (by omega)
  · rcases hc with ⟨rfl, hlt⟩ | ⟨rfl, -, -⟩
    · rw [Disk.addEntry_hist, length_append]
      omega
    · rw [Disk.addEntry_hist_of_ne d (by omega), (h.above (c + 1) (by omega)).2]
      decide
  · by_cases hnc : n = c
    · subst hnc
      rw [hfile] at hn
      cases hn
      exact .inr (by rw [Disk.addEntry_hist])
    · rw [Disk.addEntry_files_of_ne d hnc] at hn
      rw [Disk.addEntry_hist_of_ne d hnc]
      exact h.file n f hn
  · rcases hc with ⟨rfl, -⟩ | ⟨rfl, -, -⟩
    · rw [hfile] at hn
      cases hn
    · rw [Disk.addEntry_hist_of_ne d (by omega), (h.above (c + 1) (by omega)).2]
      exact ⟨rfl, by omega⟩
  · by_cases hnc : n = c
    · rw [hnc, hfile] at hn'
      cases hn'
    · rw [Disk.addEntry_files_of_ne d hnc] at hn'
      exact h.removed n (by omega) hn'
  · have := h.small
    omega

/-! ### The three writes of an entry -/

def StageOk (d : Disk) (p : Prg) : Prop :=
  match p.stage with
  | .closed => True
  | .created => d.files p.curBatchno = some [] ∧ p.logOffset = 0
  | .ready => d.files p.curBatchno = some (magic :: (d.hist p.curBatchno).map Entry.re) ∧
      p.logOffset = (d.hist p.curBatchno).length + 1

theorem logOk_openLog (h : LogOk ids d p.curBatchno) (hp : p.stage = .closed) :
    ∃ f p', openLog d p = some (d.setFile p.curBatchno (some f), p') ∧ p'.stage ≠ .closed ∧
      p'.curBatchno = p.curBatchno ∧ LogOk ids (d.setFile p.curBatchno (some f)) p.curBatchno ∧
      StageOk (d.setFile p.curBatchno (some f)) p' := by
  have hsame : ∀ {f}, d.files p.curBatchno = some f → d.setFile p.curBatchno (some f) = d := fun hf => by
      unfold Disk.setFile
      rw [← hf, update_eq_self]
  unfold openLog
  rw [hp]
  cases hf : d.files p.curBatchno with
  | none =>
    obtain ⟨hnil, -⟩ := h.fresh hf
    exact ⟨[], _, rfl, nofun, rfl, h.setFile (.inl ⟨rfl, hnil⟩), Disk.setFile_files .., rfl⟩
  | some f =>
    rcases h.file _ f hf with ⟨rfl, -⟩ | rfl
    · refine ⟨[], { p with stage := .created, logOffset := 0 }, ?_, nofun, rfl, ?_, ?_⟩
      · rw [hsame hf]
      · rw [hsame hf]
        exact h
      · rw [hsame hf]
        exact ⟨hf, rfl⟩
    have hroom := h.room
    have hlt : ¬ slmReclaimBatchNents < (d.hist p.curBatchno).length := by omega
    refine ⟨magic :: (d.hist p.curBatchno).map Entry.re,
      { p with stage := .ready, logOffset := (d.hist p.curBatchno).length + 1 }, ?_, nofun, rfl, ?_, ?_⟩
    · rw [hsame hf]
      simp [hlt]
    · rw [hsame hf]
      exact h
    · rw [hsame hf]
      exact ⟨hf, rfl⟩

theorem logOk_writeHeader (h : LogOk ids d p.curBatchno) (hs : StageOk d p) (hp : p.stage = .created) :
    writeHeader d p = (d.setFile p.curBatchno (some [magic]),
      { p with stage := .ready, logOffset := 1 }) ∧ d.files p.curBatchno = some [] ∧
      LogOk ids (d.setFile p.curBatchno (some [magic])) p.curBatchno ∧
      StageOk (d.setFile p.curBatchno (some [magic])) { p with stage := .ready, logOffset := 1 } := by
  unfold StageOk at hs
  rw [hp] at hs
  obtain ⟨hf, hoff⟩ := hs
  have hnil : d.hist p.curBatchno = [] := by
    rcases h.file _ _ hf with ⟨-, hnil⟩ | hbad
    · exact hnil
    · cases hbad
  refine ⟨?_, hf, h.setFile (.inr (by rw [hnil]; rfl)), ?_⟩
  · unfold writeHeader
    rw [hp, hf, hoff]
    rfl
  · refine ⟨?_, ?_⟩
    · rw [Disk.setFile_files, Disk.setFile_hist, hnil]
      rfl
    · rw [Disk.setFile_hist, hnil]
      rfl

theorem logOk_writeEntry (h : LogOk ids d p.curBatchno) (hs : StageOk d p) (hp : p.stage = .ready)
    (owed : List IosId) (xid fid gen : ℕ) : ∃ p', writeEntry owed xid fid gen d p =
        some (d.addEntry p.curBatchno ((d.hist p.curBatchno).length + 1) ⟨xid, fid, gen⟩ owed, p') ∧ p'.curXid = xid ∧
      (p.curBatchno + 2 < uint64Max →
        LogOk ids (d.addEntry p.curBatchno ((d.hist p.curBatchno).length + 1) ⟨xid, fid, gen⟩ owed) p'.curBatchno) ∧
      StageOk (d.addEntry p.curBatchno ((d.hist p.curBatchno).length + 1) ⟨xid, fid, gen⟩ owed) p' ∧
      p.curBatchno ≤ p'.curBatchno := by
  unfold StageOk at hs
  rw [hp] at hs
  obtain ⟨hf, hoff⟩ := hs
  have hroom := h.room
  unfold writeEntry
  rw [hoff]
  by_cases hfull : (d.hist p.curBatchno).length + 1 + 1 = slmReclaimBatchNents
  · rw [if_pos hfull]
    refine ⟨_, rfl, rfl, fun hsmall => ?_, trivial, Nat.le_succ _⟩
    exact h.addEntry hf (.inr ⟨rfl, by omega, by dsimp only; omega⟩)
  rw [if_neg hfull, if_pos (by omega)]
  refine ⟨_, rfl, rfl, fun _ => h.addEntry hf (.inl ⟨rfl, by omega⟩), ?_, le_rfl⟩
  unfold StageOk
  simp only [hp, Disk.addEntry_files_ready hf, Disk.addEntry_hist, length_append, length_singleton, and_self]

def records : Option (List Rec) → List Rec
  | some (r :: rs) => r :: rs
  | _ => [magic]

theorem LogOk.records_eq (h : LogOk ids d c) : records (d.files c) = magic :: (d.hist c).map Entry.re := by
  cases hf : d.files c with
  | none =>
    rw [(h.fresh hf).1]
    rfl
  | some f =>
    rcases h.file c f hf with ⟨rfl, hnil⟩ | rfl
    · rw [hnil]
      rfl
    · rfl

theorem mdsWriteLogentry_of_logOk (h : LogOk ids d p.curBatchno) (hp : p.stage = .closed)
    (owed : List IosId) (next xid fid gen : ℕ) : ∃ d' p', mdsWriteLogentry owed next xid fid gen d p = some (d', p') ∧
      (records (d.files p.curBatchno)).length < slmReclaimBatchNents ∧
      d'.files p.curBatchno = some (records (d.files p.curBatchno) ++ [⟨if xid = 0 then next else xid, fid, gen⟩]) ∧
      ∀ n, n ≠ p.curBatchno → d'.files n = d.files n := by
  obtain ⟨f, p₁, hopen, hstage, hcur, h₁, hs₁⟩ := logOk_openLog h hp
  -- whichever stage the file was found at, the header is there in the end
  obtain ⟨g, p₂, hhead, hready, hcur₂, h₂, hs₂⟩ : ∃ g p₂,
      writeHeader (d.setFile p.curBatchno (some f)) p₁ = (d.setFile p.curBatchno (some g), p₂) ∧
      p₂.stage = .ready ∧ p₂.curBatchno = p.curBatchno ∧ LogOk ids (d.setFile p.curBatchno (some g)) p₂.curBatchno ∧
      StageOk (d.setFile p.curBatchno (some g)) p₂ := by
    cases hst : p₁.stage with
    | closed => exact absurd hst hstage
    | created =>
      rw [← hcur] at h₁ hs₁ ⊢
      obtain ⟨heq, -, hok, hs⟩ := logOk_writeHeader h₁ hs₁ hst
      have htwice : (d.setFile p₁.curBatchno (some f)).setFile p₁.curBatchno (some [magic]) =
          d.setFile p₁.curBatchno (some [magic]) := by
        simp [Disk.setFile]
      rw [htwice] at heq hok hs
      exact ⟨[magic], _, heq, rfl, rfl, hok, hs⟩
    | ready =>
      refine ⟨f, p₁, ?_, hst, hcur, hcur ▸ h₁, hs₁⟩
      unfold writeHeader
      rw [hst]
  obtain ⟨p₃, hentry, -⟩ := logOk_writeEntry h₂ hs₂ hready owed (if xid = 0 then next else xid) fid gen
  have hrun : mdsWriteLogentry owed next xid fid gen d p =
      writeEntry owed (if xid = 0 then next else xid) fid gen (d.setFile p.curBatchno (some g)) p₂ := by
    unfold mdsWriteLogentry
    rw [hopen]
    dsimp only [bind_some]
    rw [hhead]
  rw [hentry] at hrun
  refine ⟨_, p₃, hrun, ?_, ?_, fun n hn => ?_⟩
  · have hroom := h.room
    rw [h.records_eq, length_cons, length_map]
    exact hroom
  · unfold StageOk at hs₂
    rw [hready] at hs₂
    rw [hcur₂] at hs₂ ⊢
    rw [Disk.addEntry_files_ready hs₂.1, h.records_eq]
    simp
  · rw [hcur₂, Disk.addEntry_files_of_ne _ hn, Disk.setFile_files_of_ne d hn]

end

end Slash2.Reclaim
