/-
# Distilling the journal into two logs

Entries of the system journal are distilled in order. One that frees data on the I/O
servers goes to the reclaim log, and, if there are peer MDSes, every namespace entry and
every CRC update goes to the update log, after its reclaim entry. After a crash
`mds_journal_init` takes the last transaction of each log it finds, and the journal
redistills what is later than both.

Key theorem: `distill_restart_run`.
-/
import Slash2.Journal.Fid
import Slash2.Reclaim.Log

namespace Slash2.Distill

open Lib Residency Reclaim List Option Function
open Fid (NsOp)

/-- `struct slmds_jent_namespace`. -/
structure Ns where
  op : NsOp
  namelen : ℕ
  namelen2 : ℕ
  needsReclaim : Bool
  parentFid : ℕ
  targetFid : ℕ
  targetGen : ℕ
  newParentFid : ℕ
  mask : ℕ
  mode : ℕ
  uid : ℤ
  gid : ℤ
  atime : ℕ
  atimeNs : ℕ
  mtime : ℕ
  mtimeNs : ℕ
  ctime : ℕ
  ctimeNs : ℕ
  size : ℕ
  name : List (BitVec 8)
  deriving DecidableEq

/-- A namespace operation, a CRC update (`sjbc_fid`, `sjbc_fsize`), or another entry. -/
inductive Body where
  | namespace (n : Ns)
  | bmapCrc (fid fsize : ℕ)
  | other
  deriving DecidableEq

structure Jent where
  xid : ℕ
  body : Body
  deriving DecidableEq

/-- `struct srt_update_entry` -/
structure Upd where
  xid : ℕ
  op : NsOp
  namelen : ℕ
  namelen2 : ℕ
  parentFid : ℕ
  targetFid : ℕ
  targetGen : ℕ
  newParentFid : ℕ
  mask : ℕ
  mode : ℕ
  uid : ℤ
  gid : ℤ
  atime : ℕ
  atimeNs : ℕ
  mtime : ℕ
  mtimeNs : ℕ
  ctime : ℕ
  ctimeNs : ℕ
  size : ℕ
  name : List (BitVec 8)
  deriving DecidableEq

/-- I/O servers, MDSes, and the mask for `PSCFS_SETATTRF_DATASIZE`. -/
structure Site where
  conf : Conf
  mds : List ℕ
  sizeMask : ℕ

variable (site : Site)

def Site.npeers : ℕ := site.mds.length - 1

def Jent.reclaim (e : Jent) : Option Rec :=
  match e.body with
  | .namespace n => if n.needsReclaim then some ⟨e.xid, n.targetFid, n.targetGen⟩ else none
  | _ => none

def updNamespace (xid : ℕ) (n : Ns) : Upd :=
  { xid := xid, op := n.op, namelen := n.namelen, namelen2 := n.namelen2, parentFid := n.parentFid,
    targetFid := n.targetFid, targetGen := n.targetGen, newParentFid := n.newParentFid, mask := n.mask,
    mode := n.mode, uid := n.uid, gid := n.gid, atime := n.atime, atimeNs := n.atimeNs,
    mtime := n.mtime, mtimeNs := n.mtimeNs, ctime := n.ctime, ctimeNs := n.ctimeNs, size := n.size,
    name := n.name.take (n.namelen + n.namelen2) }

def updBmapCrc (mask xid fid fsize : ℕ) : Upd :=
  { xid := xid, op := .setsize, namelen := 0, namelen2 := 0, parentFid := 0, targetFid := fid,
    targetGen := 0, newParentFid := 0, mask := mask, mode := 0, uid := 0, gid := 0, atime := 0,
    atimeNs := 0, mtime := 0, mtimeNs := 0, ctime := 0, ctimeNs := 0, size := fsize, name := [] }

def Jent.update (e : Jent) : Option Upd :=
  if site.npeers = 0 then none
  else
    match e.body with
    | .namespace n => some (updNamespace e.xid n)
    | .bmapCrc fid fsize => some (updBmapCrc site.sizeMask e.xid fid fsize)
    | .other => none

/-! ### Logs -/

def slmUpdateBatchNents : ℕ := 2048

/-- A row of the update progress file, `struct update_prog_entry`. -/
structure Row where
  id : ℕ
  xid : ℕ
  batchno : ℕ

structure Logs where
  reclaim : Disk
  files : ℕ → Option (List Upd)
  prog : List Row
  told : List Rec
  sent : List Upd

/-- What `slmkfs` leaves. -/
def Logs.mkfs : Logs where
  reclaim := Disk.mkfs
  files n := if n = 0 then some [] else none
  prog := []
  told := []
  sent := []

/-- `nsupd_prg`, the offset counted in records. -/
structure UPrg where
  handle : Bool
  logOffset : ℕ
  curBatchno : ℕ
  curXid : ℕ

/-- Where `mds_distill_handler` is with the entry it works on. -/
inductive Pc where
  | idle
  | reclaim
  | update
  | write
  deriving DecidableEq

structure Mds where
  store : Store Logs
  prg : Prg
  uprg : UPrg
  journal : List Jent
  todo : List Jent
  pc : Pc

def Mds.fresh : Mds where
  store := Store.opened Logs.mkfs
  prg := ⟨.closed, 0, 0, 0⟩
  uprg := ⟨false, 0, 0, 0⟩
  journal := []
  todo := []
  pc := .idle

def mayReclaim : NsOp → Bool
  | .reclaim | .setattr | .unlink | .setsize => true
  | _ => false

variable (s : Mds)

/-- `mds_distill_handler` up to `mds_write_logentry`. -/
def Mds.next : Option Mds :=
  match s.todo with
  | [] => none
  | e :: rest =>
    match e.body with
    | .other => some { s with todo := rest }
    | .bmapCrc _ _ => some { s with pc := .update }
    | .namespace n =>
      if n.needsReclaim then
        if mayReclaim n.op then some { s with pc := .reclaim } else none
      else some { s with pc := .update }

def Mds.putReclaim (w : Disk × Prg) : Mds :=
  { s with store := s.store.write { s.store.cur with reclaim := w.1 }, prg := w.2 }

/-- The next of the three writes of `mds_write_logentry`. -/
def Mds.writeReclaim (e : Jent) : Option Mds :=
  match s.prg.stage, e.reclaim with
  | .closed, _ => (openLog s.store.cur.reclaim s.prg).map s.putReclaim
  | .created, _ => some (s.putReclaim (writeHeader s.store.cur.reclaim s.prg))
  | .ready, some r =>
    (writeEntry site.conf.ids r.xid r.fid r.gen s.store.cur.reclaim s.prg).map fun (d, p) =>
      { s with
        store := s.store.write
          { s.store.cur with reclaim := d, told := s.store.cur.told ++ [r] }
        prg := p
        pc := .update }
  | .ready, none => none

def seekUpdate (f : List Upd) (xid : ℕ) : ℕ :=
  ((f.take slmUpdateBatchNents).takeWhile fun u => u.xid ≠ xid).length

def Mds.openUpdate (action : Bool) (e : Jent) : Mds :=
  match s.uprg.handle with
  | true => { s with pc := .write }
  | false =>
    let f := (s.store.cur.files s.uprg.curBatchno).getD []
    { s with
      store := s.store.write
        { s.store.cur with files := update s.store.cur.files s.uprg.curBatchno (some f) }
      uprg := { s.uprg with
        handle := true
        logOffset := if action then seekUpdate f e.xid else 0 }
      pc := .write }

def Mds.writeUpdate (u : Upd) : Mds :=
  let f := (s.store.cur.files s.uprg.curBatchno).getD []
  { s with
    store := s.store.write
      { s.store.cur with
        files := update s.store.cur.files s.uprg.curBatchno
          (some (pwrite f s.uprg.logOffset u))
        sent := s.store.cur.sent ++ [u] }
    uprg :=
      if s.uprg.logOffset + 1 = slmUpdateBatchNents then
        ⟨false, s.uprg.logOffset + 1, s.uprg.curBatchno + 1, u.xid⟩
      else ⟨true, s.uprg.logOffset + 1, s.uprg.curBatchno, u.xid⟩
    todo := s.todo.tail
    pc := .idle }

def updateStart (rows : List Row) : ℕ :=
  let batchno := ((rows.filter fun r => r.id ∈ site.mds).map Row.batchno).foldr min uint64Max
  if batchno = uint64Max then 0 else batchno

def readUpdate (batchno : ℕ) (f : List Upd) : UPrg :=
  let g := f.take slmUpdateBatchNents
  ⟨false, 0, if g.length = slmUpdateBatchNents then batchno + 1 else batchno, (g.getLast?.map Upd.xid).getD 0⟩

/-- The update log is opened at `batchno` or one file before. -/
def recoverUpdate (files : ℕ → Option (List Upd)) (batchno : ℕ) : Option UPrg :=
  match files batchno with
  | some f => some (readUpdate batchno f)
  | none => if batchno = 0 then none else (files (batchno - 1)).map (readUpdate (batchno - 1))

/-- `mds_journal_init`, with `last_distill_xid`. -/
def journalInit (l : Logs) : Option (Disk × Prg × UPrg × ℕ) :=
  (mdsJournalInit site.conf l.reclaim).bind fun (d, p, _) =>
    if site.npeers = 0 then some (d, p, ⟨false, 0, 0, 0⟩, p.curXid)
    else (recoverUpdate l.files (updateStart site l.prog)).map fun u =>
      (d, p, u, if p.curXid < u.curXid then u.curXid else p.curXid)

inductive Label where
  | log (e : Jent)
  | next
  | reclaim
  | update (action : Bool)
  /-- `write_update` -/
  | write
  | rmReclaim (n : ℕ)
  | rmUpdate (n : ℕ)
  | progReclaim (i : IosId) (p : Prog)
  | progUpdate (rows : List Row)
  /-- a restart that loses the last `k` writes to the logs -/
  | restart (k : ℕ)

def Mds.putLogs (l : Logs) : Mds := { s with store := s.store.write l }

def step : Label → Option Mds
  | .log e =>
    if 0 < e.xid ∧ ∀ e' ∈ s.journal, e'.xid < e.xid then
      some { s with journal := s.journal ++ [e], todo := s.todo ++ [e] }
    else none
  | .next => if s.pc = .idle then s.next else none
  | .reclaim => if s.pc = .reclaim then s.todo.head?.bind (s.writeReclaim site) else none
  | .update action =>
    if s.pc = .update then
      if site.npeers = 0 then some { s with todo := s.todo.tail, pc := .idle }
      else s.todo.head?.map (s.openUpdate action)
    else none
  | .write =>
    if s.pc = .write then (s.todo.head?.bind (Jent.update site)).map s.writeUpdate else none
  | .rmReclaim n =>
    if n < s.prg.curBatchno then
      some (s.putLogs { s.store.cur with reclaim := s.store.cur.reclaim.setFile n none })
    else none
  | .rmUpdate n =>
    if s.uprg.handle = true ∧ n = s.uprg.curBatchno then none
    else some (s.putLogs { s.store.cur with files := update s.store.cur.files n none })
  | .progReclaim i p =>
    some (s.putLogs { s.store.cur with
      reclaim := { s.store.cur.reclaim with
        prog := update s.store.cur.reclaim.prog i (some p) } })
  | .progUpdate rows => some (s.putLogs { s.store.cur with prog := rows })
  | .restart k =>
    (journalInit site (s.store.version k)).map fun (d, p, u, xid) =>
      { store := (Store.opened (s.store.version k)).write { s.store.version k with reclaim := d }
        prg := p
        uprg := u
        journal := s.journal
        -- what the journal redistills
        todo := s.journal.filter fun e => xid < e.xid
        pc := .idle }

/-! ### What is in the logs -/

def Done (l : Logs) (e : Jent) : Prop :=
  (∀ r ∈ e.reclaim, r ∈ l.told) ∧ ∀ u ∈ e.update site, u ∈ l.sent

def Begun (l : Logs) (e : Jent) : Prop :=
  (∃ r ∈ e.reclaim, r ∈ l.told) ∨ ∃ u ∈ e.update site, u ∈ l.sent

/-- An entry that is in the reclaim log is in the update log too. -/
def Paired (J : List Jent) (l : Logs) : Prop :=
  ∀ e ∈ J, (∃ r ∈ e.reclaim, r ∈ l.told) → ∀ u ∈ e.update site, u ∈ l.sent
  deriving Decidable

/-- What holds of the logs for the entries `J` of the journal. -/
structure LogsOk (site : Site) (J : List Jent) (l : Logs) : Prop where
  tail : ∀ n f, l.reclaim.files n = some f → ∀ r ∈ f.tail, r ∈ l.told
  files : ∀ n f, l.files n = some f → ∀ u ∈ f, u ∈ l.sent
  told : ∀ r ∈ l.told, ∃ e ∈ J, r ∈ e.reclaim
  sent : ∀ u ∈ l.sent, ∃ e ∈ J, u ∈ e.update site
  before : ∀ e ∈ J, Begun site l e → ∀ e' ∈ J, e'.xid < e.xid → Done site l e'
  first : ∀ e ∈ J, (∃ u ∈ e.update site, u ∈ l.sent) → ∀ r ∈ e.reclaim, r ∈ l.told

section
variable {site} {J : List Jent} {l l' : Logs} {e : Jent} {r : Rec}

theorem reclaim_xid (h : r ∈ e.reclaim) : r.xid = e.xid := by
  unfold Jent.reclaim at h
  split at h
  · obtain ⟨-, h⟩ := ite_none_right_eq_some.mp h
    cases h
    rfl
  · cases h

theorem update_xid {u : Upd} (h : u ∈ e.update site) : u.xid = e.xid := by
  obtain ⟨-, h⟩ := ite_none_left_eq_some.mp h
  split at h <;> cases h <;> rfl

theorem Done.mono (h : Done site l e) (ht : ∀ r ∈ l.told, r ∈ l'.told)
    (hs : ∀ u ∈ l.sent, u ∈ l'.sent) : Done site l' e :=
  ⟨fun r hr => ht r (h.1 r hr), fun u hu => hs u (h.2 u hu)⟩

theorem logsOk_mkfs : LogsOk site [] Logs.mkfs where
  tail n f hf := by
    obtain ⟨-, hf⟩ := ite_none_right_eq_some.mp hf
    cases hf
    exact fun r hr => by cases hr
  files n f hf := by
    obtain ⟨-, hf⟩ := ite_none_right_eq_some.mp hf
    cases hf
    exact fun r hr => by cases hr
  told r hr := by cases hr
  sent u hu := by cases hu
  before e he := by cases he
  first e he := by cases he

theorem LogsOk.keep (h : LogsOk site J l) (ht : l'.told = l.told) (hs : l'.sent = l.sent)
    (htail : ∀ n f, l'.reclaim.files n = some f → ∀ r ∈ f.tail, r ∈ l.told)
    (hfiles : ∀ n f, l'.files n = some f → ∀ u ∈ f, u ∈ l.sent) : LogsOk site J l' where
  tail := ht ▸ htail
  files := hs ▸ hfiles
  told := ht ▸ h.told
  sent := hs ▸ h.sent
  before := by
    unfold Begun Done
    rw [ht, hs]
    exact h.before
  first := by
    rw [ht, hs]
    exact h.first

theorem LogsOk.log (h : LogsOk site J l) (he : ∀ e' ∈ J, e'.xid < e.xid) : LogsOk site (J ++ [e]) l := by
  have hmem : ∀ {e'}, e' ∈ J ++ [e] → e' ∈ J ∨ e' = e := fun h => by simpa using h
  -- nothing of the new entry is in the logs
  have hnew : ¬ Begun site l e := by
    rintro (⟨r, hr, ht⟩ | ⟨u, hu, hs⟩)
    · obtain ⟨e', he', hr'⟩ := h.told r ht
      have := he e' he'
      rw [← reclaim_xid hr, ← reclaim_xid hr'] at this
      omega
    · obtain ⟨e', he', hu'⟩ := h.sent u hs
      have := he e' he'
      rw [← update_xid hu, ← update_xid hu'] at this
      omega
  refine ⟨h.tail, h.files, fun r hr => ?_, fun u hu => ?_, fun e₁ he₁ hb e₂ he₂ hlt => ?_, fun e₁ he₁ hu => ?_⟩
  · obtain ⟨e', he', hr'⟩ := h.told r hr
    exact ⟨e', mem_append_left _ he', hr'⟩
  · obtain ⟨e', he', hu'⟩ := h.sent u hu
    exact ⟨e', mem_append_left _ he', hu'⟩
  · rcases hmem he₁ with hold | rfl
    · rcases hmem he₂ with hold₂ | rfl
      · exact h.before e₁ hold hb e₂ hold₂ hlt
      · have := he e₁ hold
        omega
    · exact absurd hb hnew
  · rcases hmem he₁ with he₁ | rfl
    · exact h.first e₁ he₁ hu
    · exact absurd (.inr hu) hnew

theorem LogsOk.addTold (h : LogsOk site J l) (he : e ∈ J) (hr : r ∈ e.reclaim)
    (hbefore : ∀ e' ∈ J, e'.xid < e.xid → Done site l e') (ht : l'.told = l.told ++ [r])
    (hs : l'.sent = l.sent) (hf : l'.files = l.files)
    (htail : ∀ n f, l'.reclaim.files n = some f → ∀ x ∈ f.tail, x ∈ l.told ∨ x = r) : LogsOk site J l' := by
  have hmem : ∀ {x}, x ∈ l'.told ↔ x ∈ l.told ∨ x = r := by simp [ht]
  refine ⟨fun n f hfn x hx => hmem.mpr (htail n f hfn x hx), ?_, fun x hx => ?_, ?_, fun e₁ he₁ hb e₂ he₂ hlt => ?_,
    fun e₁ he₁ hu x hx => ?_⟩
  · rw [hf, hs]
    exact h.files
  · rcases hmem.mp hx with hx | rfl
    · exact h.told x hx
    · exact ⟨e, he, hr⟩
  · rw [hs]
    exact h.sent
  · refine Done.mono ?_ (fun x hx => hmem.mpr (.inl hx)) fun u hu => hs ▸ hu
    rcases hb with ⟨x, hx, hxt⟩ | ⟨u, hu, hus⟩
    · rcases hmem.mp hxt with hxt | rfl
      · exact h.before e₁ he₁ (.inl ⟨x, hx, hxt⟩) e₂ he₂ hlt
      · refine hbefore e₂ he₂ ?_
        rw [← reclaim_xid hr, reclaim_xid hx]
        exact hlt
    · exact h.before e₁ he₁ (.inr ⟨u, hu, hs ▸ hus⟩) e₂ he₂ hlt
  · rw [hs] at hu
    exact hmem.mpr (.inl (h.first e₁ he₁ hu x hx))

theorem eq_of_xid (hJ : J.Pairwise fun e e' => e.xid < e'.xid) {e' : Jent} (he : e ∈ J)
    (he' : e' ∈ J) (h : e.xid = e'.xid) : e = e' :=
  inj_on_of_nodup_map (pairwise_map.mpr (hJ.imp Nat.ne_of_lt)) he he' h

theorem LogsOk.addSent (h : LogsOk site J l) (hJ : J.Pairwise fun e e' => e.xid < e'.xid)
    (he : e ∈ J) {u : Upd} (hu : u ∈ e.update site)
    (hbefore : ∀ e' ∈ J, e'.xid < e.xid → Done site l e') (hfirst : ∀ r ∈ e.reclaim, r ∈ l.told)
    (ht : l'.told = l.told) (hs : l'.sent = l.sent ++ [u]) (hr : l'.reclaim = l.reclaim)
    (hfiles : ∀ n f, l'.files n = some f → ∀ x ∈ f, x ∈ l.sent ∨ x = u) : LogsOk site J l' := by
  have hmem : ∀ {x}, x ∈ l'.sent ↔ x ∈ l.sent ∨ x = u := by simp [hs]
  have hsame : ∀ {e₁}, e₁ ∈ J → u ∈ e₁.update site → e₁ = e := fun he₁ hu₁ =>
    eq_of_xid hJ he₁ he (by rw [← update_xid hu₁, ← update_xid hu])
  refine ⟨?_, fun n f hfn x hx => hmem.mpr (hfiles n f hfn x hx), ?_, fun x hx => ?_, fun e₁ he₁ hb e₂ he₂ hlt => ?_,
    fun e₁ he₁ hus x hx => ?_⟩
  · rw [hr, ht]
    exact h.tail
  · rw [ht]
    exact h.told
  · rcases hmem.mp hx with hx | rfl
    · exact h.sent x hx
    · exact ⟨e, he, hu⟩
  · refine Done.mono ?_ (fun r hr => ht ▸ hr) fun x hx => hmem.mpr (.inl hx)
    rcases hb with ⟨x, hx, hxt⟩ | ⟨x, hx, hxs⟩
    · exact h.before e₁ he₁ (.inl ⟨x, hx, ht ▸ hxt⟩) e₂ he₂ hlt
    rcases hmem.mp hxs with hxs | rfl
    · exact h.before e₁ he₁ (.inr ⟨x, hx, hxs⟩) e₂ he₂ hlt
    · exact hbefore e₂ he₂ (hsame he₁ hx ▸ hlt)
  · rw [ht]
    obtain ⟨y, hy, hys⟩ := hus
    rcases hmem.mp hys with hys | rfl
    · exact h.first e₁ he₁ ⟨y, hy, hys⟩ x hx
    · exact hfirst x (hsame he₁ hy ▸ hx)

theorem recoverUpdate_curXid {files : ℕ → Option (List Upd)} {b : ℕ} {p : UPrg} (h : recoverUpdate files b = some p) :
    p.curXid = 0 ∨ ∃ n f u, files n = some f ∧ u ∈ f ∧ u.xid = p.curXid := by
  have hread : ∀ {n f}, files n = some f → (readUpdate n f).curXid = 0 ∨
      ∃ n f' u, files n = some f' ∧ u ∈ f' ∧ u.xid = (readUpdate n f).curXid := by
    intro n f hf
    unfold readUpdate
    dsimp only
    cases hl : (f.take slmUpdateBatchNents).getLast? with
    | none => exact .inl rfl
    | some u => exact .inr ⟨n, f, u, hf, mem_of_mem_take (mem_of_getLast? hl), rfl⟩
  unfold recoverUpdate at h
  split at h
  · rename_i f hf
    cases h
    exact hread hf
  obtain ⟨-, h⟩ := ite_none_left_eq_some.mp h
  obtain ⟨f, hf, rfl⟩ := map_eq_some_iff.mp h
  exact hread hf

variable {d : Disk} {p : Prg} {u : UPrg} {xid : ℕ}

theorem journalInit_distillXid (h : LogsOk site J l) (hinit : journalInit site l = some (d, p, u, xid)) :
    d.files = l.reclaim.files ∧ p.stage = .closed ∧
      (xid = 0 ∨ ∃ e ∈ J, e.xid = xid ∧ Begun site l e) := by
  obtain ⟨⟨d', p', si⟩, hrec, hinit⟩ := bind_eq_some_iff.mp hinit
  obtain ⟨q, hq, heq⟩ := map_eq_some_iff.mp hrec
  cases heq
  obtain ⟨hstage, hcur⟩ := recoverPrg_curXid hq
  have htold : p'.curXid = 0 ∨ ∃ e ∈ J, e.xid = p'.curXid ∧ Begun site l e := by
    refine hcur.imp_right ?_
    rintro ⟨n, f, r, hf, hr, hx⟩
    have hr := h.tail n f hf r hr
    obtain ⟨e, he, hre⟩ := h.told r hr
    exact ⟨e, he, (reclaim_xid hre).symm.trans hx, .inl ⟨r, hre, hr⟩⟩
  split_ifs at hinit
  · cases hinit
    exact ⟨rfl, hstage, htold⟩
  obtain ⟨v, hv, heq⟩ := map_eq_some_iff.mp hinit
  cases heq
  refine ⟨rfl, hstage, ?_⟩
  split_ifs
  · rcases recoverUpdate_curXid hv with h0 | ⟨n, f, w, hf, hw, hx⟩
    · exact .inl h0
    have hw := h.files n f hf w hw
    obtain ⟨e, he, hwe⟩ := h.sent w hw
    exact .inr ⟨e, he, (update_xid hwe).symm.trans hx, .inr ⟨w, hwe, hw⟩⟩
  · exact htold

theorem done_of_le_distillXid (h : LogsOk site J l) (hJ : J.Pairwise fun e e' => e.xid < e'.xid)
    (hpos : ∀ e ∈ J, 0 < e.xid) (hp : Paired site J l)
    (hinit : journalInit site l = some (d, p, u, xid)) (he : e ∈ J) (hle : e.xid ≤ xid) : Done site l e := by
  rcases (journalInit_distillXid h hinit).2.2 with h0 | ⟨e₀, he₀, rfl, hb⟩
  · have := hpos e he
    omega
  rcases Nat.lt_or_eq_of_le hle with hlt | heq
  · exact h.before e₀ he₀ hb e he hlt
  obtain rfl := eq_of_xid hJ he he₀ heq
  rcases hb with ⟨r, hr, ht⟩ | ⟨v, hv, hs⟩
  · refine ⟨fun r' hr' => ?_, hp e he ⟨r, hr, ht⟩⟩
    cases mem_unique hr' hr
    exact ht
  · refine ⟨h.first e he ⟨v, hv, hs⟩, fun v' hv' => ?_⟩
    cases mem_unique hv' hv
    exact hs

def StageOk (p : Prg) : Prop :=
  (p.stage = .created → p.logOffset = 0) ∧ (p.stage = .ready → 1 ≤ p.logOffset)

variable {α : Type*} {f : List α}

theorem mem_pwrite {off : ℕ} {x r : α} (h : x ∈ pwrite f off r) : x ∈ f ∨ x = r := by
  rcases mem_append.mp h with h | h
  · exact .inl (mem_of_mem_take h)
  rcases mem_cons.mp h with h | h
  · exact .inr h
  · exact .inl (mem_of_mem_drop h)

theorem mem_tail_pwrite_zero {x r : α} (h : x ∈ (pwrite f 0 r).tail) : x ∈ f.tail := by
  simpa [pwrite] using h

theorem mem_tail_pwrite {off : ℕ} {x r : α} (hoff : 1 ≤ off) (h : x ∈ (pwrite f off r).tail) : x ∈ f.tail ∨ x = r := by
  obtain ⟨k, rfl⟩ : ∃ k, off = k + 1 := ⟨off - 1, by omega⟩
  cases f with
  | nil => simp [pwrite] at h
  | cons => exact mem_pwrite h

variable {files : ℕ → Option (List α)} {Q : List α → Prop} {c : ℕ}

theorem forall_files_update {g : List α} (h : ∀ n f, files n = some f → Q f) (hg : Q g) :
    ∀ n f, update files c (some g) n = some f → Q f := by
  intro n f hf
  by_cases hn : n = c
  · rw [hn, update_self] at hf
    cases hf
    exact hg
  · rw [update_of_ne hn] at hf
    exact h n f hf

theorem forall_files_remove (h : ∀ n f, files n = some f → Q f) : ∀ n f, update files c none n = some f → Q f := by
  intro n f hf
  by_cases hn : n = c
  · rw [hn, update_self] at hf
    cases hf
  · rw [update_of_ne hn] at hf
    exact h n f hf

theorem forall_files_getD (hnil : Q []) (h : ∀ n f, files n = some f → Q f) (c : ℕ) : Q ((files c).getD []) := by
  cases hf : files c with
  | none => exact hnil
  | some f => exact h c f hf

theorem LogsOk.getD_tail (h : LogsOk site J l) (c : ℕ) : ∀ r ∈ ((l.reclaim.files c).getD []).tail, r ∈ l.told :=
  forall_files_getD (fun _ hr => by cases hr) h.tail c

theorem LogsOk.getD_files (h : LogsOk site J l) (c : ℕ) : ∀ u ∈ (l.files c).getD [], u ∈ l.sent :=
  forall_files_getD (fun _ hu => by cases hu) h.files c

theorem openLog_tail {d' : Disk} {p' : Prg} {P : Rec → Prop} (hcl : p.stage = .closed)
    (h : openLog d p = some (d', p')) (hd : ∀ n f, d.files n = some f → ∀ r ∈ f.tail, P r) :
    StageOk p' ∧ ∀ n f, d'.files n = some f → ∀ r ∈ f.tail, P r := by
  unfold openLog at h
  rw [hcl] at h
  cases hf : d.files p.curBatchno with
  | none =>
    rw [hf] at h
    cases h
    exact ⟨⟨fun _ => rfl, nofun⟩, forall_files_update hd fun r hr => by cases hr⟩
  | some f =>
    rw [hf] at h
    cases f with
    | nil =>
      cases h
      exact ⟨⟨fun _ => rfl, nofun⟩, hd⟩
    | cons =>
      obtain ⟨-, h⟩ := ite_none_right_eq_some.mp h
      cases h
      exact ⟨⟨nofun, fun _ => Nat.le_add_left 1 _⟩, hd⟩

end

def PcOk : Prop :=
  match s.pc with
  | .idle | .reclaim => True
  | .update | .write => ∃ e rest, s.todo = e :: rest ∧ ∀ r ∈ e.reclaim, r ∈ s.store.cur.told

structure Distilled (site : Site) (s : Mds) : Prop where
  journal : s.journal.Pairwise fun e e' => e.xid < e'.xid
  pos : ∀ e ∈ s.journal, 0 < e.xid
  versions : ∀ k, LogsOk site s.journal (s.store.version k)
  todo : s.todo.Sublist s.journal
  cover : ∀ e ∈ s.journal, e ∉ s.todo → Done site s.store.cur e
  pc : PcOk s
  stage : StageOk s.prg

/-- A restart finds the logs paired. -/
def Safe : Label → Prop
  | .restart k => Paired site s.journal (s.store.version k)
  | _ => True

instance (a : Label) : Decidable (Safe site s a) := by
  cases a <;> unfold Safe <;> infer_instance

theorem fresh_distilled : Distilled site Mds.fresh where
  journal := List.Pairwise.nil
  pos e he := by cases he
  versions := forall_version_opened logsOk_mkfs
  todo := List.Sublist.slnil
  cover e he := by cases he
  pc := trivial
  stage := ⟨nofun, nofun⟩

section
variable {site s} {t : Mds}

theorem Distilled.cur (h : Distilled site s) : LogsOk site s.journal s.store.cur := h.versions 0

variable {e : Jent}

section
variable (h : Distilled site s)
include h

variable {rest : List Jent}

theorem Distilled.before (ht : s.todo = e :: rest) : ∀ e' ∈ s.journal, e'.xid < e.xid → Done site s.store.cur e' := by
  intro e' he' hlt
  refine h.cover e' he' fun hmem => ?_
  have hs := h.journal.sublist h.todo
  rw [ht] at hmem hs
  rcases mem_cons.mp hmem with rfl | hmem
  · omega
  · have := rel_of_pairwise_cons hs hmem
    omega

theorem Distilled.head_mem (ht : s.todo = e :: rest) : e ∈ s.journal :=
  h.todo.subset (by rw [ht]; exact mem_cons_self)

theorem Distilled.pop (ht : s.todo = e :: rest)
    (hdone : Done site s.store.cur e) : Distilled site { s with todo := rest, pc := .idle } where
  journal := h.journal
  pos := h.pos
  versions := h.versions
  todo := ((sublist_cons_self e rest).trans (ht ▸ h.todo))
  cover e' he' hn := by
    by_cases hee : e' = e
    · rw [hee]
      exact hdone
    refine h.cover e' he' ?_
    rw [ht]
    exact fun hmem => hn ((mem_cons.mp hmem).resolve_left hee)
  pc := trivial
  stage := h.stage

theorem Distilled.write {l : Logs} (hok : LogsOk site s.journal l)
    (ht : l.told = s.store.cur.told) (hs : l.sent = s.store.cur.sent) :
    Distilled site { s with store := s.store.write l } where
  journal := h.journal
  pos := h.pos
  versions := forall_version_write h.versions hok
  todo := h.todo
  cover e he hn := (h.cover e he hn).mono (fun r hr => by rw [Store.write_cur, ht]; exact hr)
    fun u hu => by rw [Store.write_cur, hs]; exact hu
  pc := by
    have hpc := h.pc
    unfold PcOk at hpc ⊢
    rw [Store.write_cur, ht]
    exact hpc
  stage := h.stage

theorem Distilled.reclaim (he : s.todo.head? = some e) (ht : s.writeReclaim site e = some t) : Distilled site t := by
  obtain ⟨rest, htodo⟩ := head?_eq_some_iff.mp he
  have hok := h.cur
  -- a write that adds no record
  have hput : ∀ {w : Disk × Prg}, StageOk w.2 → (∀ n f, w.1.files n = some f → ∀ r ∈ f.tail, r ∈ s.store.cur.told) →
      Distilled site (s.putReclaim w) := fun {w} hst hw =>
    { h.write (l := { s.store.cur with reclaim := w.1 }) (hok.keep rfl rfl hw hok.files) rfl rfl with
      stage := hst }
  unfold Mds.writeReclaim at ht
  split at ht
  · rename_i hst
    obtain ⟨⟨d, p⟩, hopen, rfl⟩ := map_eq_some_iff.mp ht
    obtain ⟨hp, hd⟩ := openLog_tail hst hopen hok.tail
    exact hput hp hd
  · rename_i hst
    cases ht
    refine hput ?_ ?_
    · unfold writeHeader
      rw [hst]
      exact ⟨nofun, fun _ => Nat.le_add_left 1 _⟩
    · unfold writeHeader
      rw [hst, h.stage.1 hst]
      exact forall_files_update hok.tail fun r hr => hok.getD_tail _ r (mem_tail_pwrite_zero hr)
  · rename_i r hst hr
    obtain ⟨⟨d, p⟩, hwrite, rfl⟩ := map_eq_some_iff.mp ht
    have hfiles : StageOk p ∧ ∀ n f, d.files n = some f → ∀ x ∈ f.tail, x ∈ s.store.cur.told ∨ x = r := by
      have hd : ∀ n f, (s.store.cur.reclaim.addEntry s.prg.curBatchno s.prg.logOffset r
          site.conf.ids).files n = some f → ∀ x ∈ f.tail, x ∈ s.store.cur.told ∨ x = r := by
        refine forall_files_update (fun n f hf x hx => .inl (hok.tail n f hf x hx)) fun x hx => ?_
        exact (mem_tail_pwrite (h.stage.2 hst) hx).imp_left (hok.getD_tail _ x)
      unfold writeEntry at hwrite
      split_ifs at hwrite <;> cases hwrite
      · exact ⟨⟨nofun, nofun⟩, hd⟩
      refine ⟨⟨fun hc => ?_, fun _ => Nat.le_add_left 1 _⟩, hd⟩
      rw [hst] at hc
      cases hc
    have hnew : LogsOk site s.journal
        { s.store.cur with reclaim := d, told := s.store.cur.told ++ [r] } :=
      hok.addTold (h.head_mem htodo) hr (h.before htodo) rfl rfl rfl hfiles.2
    refine ⟨h.journal, h.pos, forall_version_write h.versions hnew, h.todo,
      fun e' he' hn => (h.cover e' he' hn).mono (fun x hx => mem_append_left _ hx) fun u hu => hu,
      ⟨e, rest, htodo, fun x hx => ?_⟩, hfiles.1⟩
    cases mem_unique hx hr
    exact mem_append_right _ mem_cons_self
  · cases ht

theorem Distilled.openUpdate (hpc : s.pc = .update) (action : Bool) (e : Jent) :
    Distilled site (s.openUpdate action e) := by
  have hok := h.cur
  have hat := h.pc
  unfold PcOk at hat
  rw [hpc] at hat
  unfold Mds.openUpdate
  split
  · exact { h with pc := hat }
  have hkeep : LogsOk site s.journal { s.store.cur with
      files := update s.store.cur.files s.uprg.curBatchno (some ((s.store.cur.files s.uprg.curBatchno).getD [])) } :=
    hok.keep rfl rfl hok.tail (forall_files_update hok.files (hok.getD_files _))
  exact { h.write hkeep rfl rfl with pc := hat }

theorem Distilled.writeUpdate (hpc : s.pc = .write) {u : Upd}
    (hu : s.todo.head?.bind (Jent.update site) = some u) : Distilled site (s.writeUpdate u) := by
  have hok := h.cur
  have hat := h.pc
  unfold PcOk at hat
  rw [hpc] at hat
  obtain ⟨e, rest, htodo, htold⟩ := hat
  rw [htodo] at hu
  have hnew : LogsOk site s.journal { s.store.cur with
      files := update s.store.cur.files s.uprg.curBatchno
        (some (pwrite ((s.store.cur.files s.uprg.curBatchno).getD []) s.uprg.logOffset u))
      sent := s.store.cur.sent ++ [u] } := by
    refine hok.addSent h.journal (h.head_mem htodo) hu (h.before htodo) htold rfl rfl rfl ?_
    refine forall_files_update (fun n f hf x hx => .inl (hok.files n f hf x hx)) fun x hx => ?_
    exact (mem_pwrite hx).imp_left (hok.getD_files _ x)
  have hsent : Distilled site { s with
      store := s.store.write { s.store.cur with
        files := update s.store.cur.files s.uprg.curBatchno
          (some (pwrite ((s.store.cur.files s.uprg.curBatchno).getD []) s.uprg.logOffset u))
        sent := s.store.cur.sent ++ [u] } } := by
    refine ⟨h.journal, h.pos, forall_version_write h.versions hnew, h.todo,
      fun e' he' hn => (h.cover e' he' hn).mono (fun r hr => hr) fun x hx => mem_append_left _ hx, ?_, h.stage⟩
    rw [hpc]
    exact ⟨e, rest, htodo, htold⟩
  have hpop := hsent.pop htodo ⟨htold, fun x hx => ?_⟩
  · unfold Mds.writeUpdate
    rw [htodo]
    exact { hpop with }
  · cases mem_unique hx hu
    exact mem_append_right _ mem_cons_self

theorem Distilled.restart {k : ℕ} (hok : Safe site s (.restart k))
    (ht : step site s (.restart k) = some t) : Distilled site t := by
  obtain ⟨⟨d, p, u, xid⟩, hinit, rfl⟩ := map_eq_some_iff.mp ht
  have hv := h.versions k
  obtain ⟨hfiles, hstage, -⟩ := journalInit_distillXid hv hinit
  have hnew : LogsOk site s.journal { s.store.version k with reclaim := d } :=
    hv.keep rfl rfl (by rw [hfiles]; exact hv.tail) hv.files
  refine ⟨h.journal, h.pos, ?_, filter_sublist, fun e he hn => ?_, trivial, ?_⟩
  · exact forall_version_write (forall_version_opened hv) hnew
  · have hle : e.xid ≤ xid := by
      by_contra hlt
      exact hn (mem_filter.mpr ⟨he, decide_eq_true (Nat.lt_of_not_le hlt)⟩)
    exact (done_of_le_distillXid hv h.journal h.pos hok hinit he hle).mono (fun r hr => hr) fun x hx => hx
  · unfold StageOk
    rw [hstage]
    exact ⟨nofun, nofun⟩

end

theorem PcOk.log (h : PcOk s) : PcOk { s with journal := s.journal ++ [e], todo := s.todo ++ [e] } := by
  have hat : (∃ e rest, s.todo = e :: rest ∧ ∀ r ∈ e.reclaim, r ∈ s.store.cur.told) →
      ∃ e' rest, s.todo ++ [e] = e' :: rest ∧ ∀ r ∈ e'.reclaim, r ∈ s.store.cur.told := by
    rintro ⟨e', rest, htodo, htold⟩
    exact ⟨e', rest ++ [e], by rw [htodo]; rfl, htold⟩
  unfold PcOk at h ⊢
  cases hpc : s.pc with
  | idle => trivial
  | reclaim => trivial
  | update =>
    rw [hpc] at h
    exact hat h
  | write =>
    rw [hpc] at h
    exact hat h

theorem Distilled.log (h : Distilled site s) (hpos : 0 < e.xid) (hlt : ∀ e' ∈ s.journal, e'.xid < e.xid) :
    Distilled site { s with journal := s.journal ++ [e], todo := s.todo ++ [e] } where
  journal := by
    refine pairwise_append.mpr ⟨h.journal, pairwise_singleton _ _, fun a ha b hb => ?_⟩
    rw [mem_singleton.mp hb]
    exact hlt a ha
  pos := forall_mem_snoc h.pos hpos
  versions k := (h.versions k).log hlt
  todo := h.todo.append (.refl _)
  cover e' he' hn := by
    rw [mem_append, not_or] at hn
    exact h.cover e' ((mem_append.mp he').resolve_right hn.2) hn.1
  pc := h.pc.log
  stage := h.stage

theorem Distilled.next (h : Distilled site s) (hidle : s.pc = .idle) (ht : s.next = some t) : Distilled site t := by
  revert ht
  fun_cases Mds.next s <;> rintro ⟨⟩
  next e _ htodo hbody =>
    have hdone : Done site s.store.cur e := by
      refine ⟨fun r hr => ?_, fun u hu => ?_⟩
      · simp [Jent.reclaim, hbody] at hr
      · simp [Jent.update, hbody] at hu
    have := h.pop htodo hdone
    rwa [← hidle] at this
  next e rest htodo _ _ hbody =>
    refine { h with pc := ⟨e, rest, htodo, fun r hr => ?_⟩ }
    simp [Jent.reclaim, hbody] at hr
  next => exact { h with pc := trivial }
  next e rest htodo _ hbody hn =>
    refine { h with pc := ⟨e, rest, htodo, fun r hr => ?_⟩ }
    simp [Jent.reclaim, hbody, hn] at hr

theorem step_distilled {a : Label} (h : Distilled site s) (hok : Safe site s a)
    (ht : step site s a = some t) : Distilled site t := by
  have hcur := h.cur
  revert ht
  fun_cases step site s a <;> intro ht <;> try cases ht
  next hlog => exact h.log hlog.1 hlog.2
  next hidle => exact h.next hidle ht
  next =>
    obtain ⟨e, he, ht⟩ := bind_eq_some_iff.mp ht
    exact h.reclaim he ht
  next hpc hn =>
    have hat := h.pc
    unfold PcOk at hat
    rw [hpc] at hat
    obtain ⟨e, rest, htodo, htold⟩ := hat
    rw [htodo]
    exact h.pop htodo ⟨htold, fun u hu => by simp [Jent.update, hn] at hu⟩
  next action hpc _ =>
    obtain ⟨e, -, rfl⟩ := map_eq_some_iff.mp ht
    exact h.openUpdate hpc action e
  next hpc =>
    obtain ⟨u, hu, rfl⟩ := map_eq_some_iff.mp ht
    exact h.writeUpdate hpc hu
  next => exact h.write (hcur.keep rfl rfl (forall_files_remove hcur.tail) hcur.files) rfl rfl
  next => exact h.write (hcur.keep rfl rfl hcur.tail (forall_files_remove hcur.files)) rfl rfl
  next => exact h.write (hcur.keep rfl rfl hcur.tail hcur.files) rfl rfl
  next => exact h.write (hcur.keep rfl rfl hcur.tail hcur.files) rfl rfl
  next => exact h.restart hok ht

end

/-- **Every entry is in its logs**, or waits for it, in runs of safe steps. -/
theorem distill_restart_run (site : Site) {as : List Label} {t : Mds}
    (hok : Admits (step site) (Safe site) Mds.fresh as) (ht : run (step site) Mds.fresh as = some t) :
    ∀ e ∈ t.journal, e ∉ t.todo → (∀ r ∈ e.reclaim, r ∈ t.store.cur.told) ∧ ∀ u ∈ e.update site, u ∈ t.store.cur.sent :=
  (run_invariant step_distilled (fresh_distilled site) hok ht).cover

def twoMds : Site := ⟨oneIos, [10, 20], 8⟩

def unlinkEntry (xid : ℕ) : Jent :=
  ⟨xid, .namespace
    { op := .unlink, namelen := 1, namelen2 := 0, needsReclaim := true, parentFid := 1, targetFid := xid,
      targetGen := 0, newParentFid := 0, mask := 0, mode := 0, uid := 0, gid := 0, atime := 0,
      atimeNs := 0, mtime := 0, mtimeNs := 0, ctime := 0, ctimeNs := 0, size := 0, name := [97] }⟩

def redistilledRun : List Label :=
  [.log (unlinkEntry 5), .next, .reclaim, .reclaim, .reclaim, .update false, .write,
    .log (unlinkEntry 6), .next, .reclaim, .update false, .write,
    .restart 2, .next, .reclaim, .reclaim, .update true, .write]

/-- The run is safe. -/
theorem distill_restart_run_redistilled : ∃ t, run (step twoMds) Mds.fresh redistilledRun = some t ∧ t.todo = [] ∧
      ∀ e ∈ t.journal, e ∉ t.todo → (∀ r ∈ e.reclaim, r ∈ t.store.cur.told) ∧
        ∀ u ∈ e.update twoMds, u ∈ t.store.cur.sent := by
  have hok : Admits (step twoMds) (Safe twoMds) Mds.fresh redistilledRun := by decide
  have hsome : (run (step twoMds) Mds.fresh redistilledRun).isSome = true := by decide
  have htodo : ∀ t ∈ run (step twoMds) Mds.fresh redistilledRun, t.todo = [] := by decide
  obtain ⟨t, ht⟩ := isSome_iff_exists.mp hsome
  exact ⟨t, ht, htodo t ht, distill_restart_run twoMds hok ht⟩

def halfwayRun : List Label :=
  [.log (unlinkEntry 5), .next, .reclaim, .reclaim, .reclaim, .restart 0]

/-- **Nothing to redistill, but the entry is not logged.** -/
theorem distill_entry_lost : ∃ t ∈ run (step twoMds) Mds.fresh halfwayRun, t.todo = [] ∧
    ∃ e ∈ t.journal, ∃ u ∈ e.update twoMds, u ∉ t.store.cur.sent := by
  decide

end Slash2.Distill
