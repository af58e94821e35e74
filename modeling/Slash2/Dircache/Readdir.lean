/-
# Reading a directory through its page cache

`mslfsop_readdir` answers from pages of directory entries that READDIR RPCs have brought in. The
pages of a directory may overlap, as readers come with buffers of different sizes, and each is
known by the cookies it starts at and contains. A reader that finds no page for its cookie sends an
RPC and waits; one that has been served by a page sends another ahead of its needs.

Key definitions: `Page`, `scan`, `newPage`, `State`, `step`, `Sound`, `Fine`, `Start`.
-/
import Mathlib.Algebra.Ring.Nat
import Slash2.Lib.Cursor
import Slash2.Lib.Slots

namespace Slash2.Dircache

open Lib

/-! ### The directory -/

/-- `struct pscfs_dirent` -/
structure Dirent where
  /-- `pfd_off`, the cookie to go on from -/
  off : ℕ
  name : String
  /-- `PFL_DIRENT_SIZE(pfd_namelen)` -/
  size : ℕ
  deriving DecidableEq

structure Dir where
  ents : List Dirent
  increasing : Cursor.Increasing Dirent.off ents
  pos : ∀ e ∈ ents, 0 < e.off

abbrev Dir.after (d : Dir) (off : ℕ) : List Dirent := Cursor.after Dirent.off d.ents off

/-- `dcp_rc`: an error `slc_rmc_retry` knows, or another. -/
inductive Err where
  | transient
  | other
  deriving DecidableEq

/-- `struct dircache_page` -/
structure Page where
  id : ℕ
  /-- `dcp_off` -/
  off : ℕ
  /-- the size of the buffer in the request, `mq->size` -/
  size : ℕ
  loading : Bool
  /-- `DIRCACHEPGF_EOF` -/
  eof : Bool
  read : Bool
  freeing : Bool
  /-- `dcp_rc` -/
  rc : Option Err
  refcnt : ℕ
  base : List Dirent
  /-- `dcp_dents_off` -/
  dents : List Dirent
  nextoff : ℕ
  localTm : ℤ
  /-- `dcp_remote_tm` and `dcp_dirgen` -/
  remote : ℕ
  /-- the entries of the reply, and whether it is the last -/
  reply : Option (List Dirent × Bool)
  reged : ℕ

/-- `DIRCACHEPG_SOFT_TIMEO`, in nanoseconds -/
def softTimeo : ℤ := 4000000000

/-- `DIRCACHEPG_HARD_TIMEO`, in nanoseconds -/
def hardTimeo : ℤ := 30000000000

variable (p : Page)

/-- `DIRCACHEPG_EXPIRED` -/
def Page.expired (now : ℤ) (attr : ℕ) : Bool :=
  p.refcnt = 0 ∧ (p.read ∧ now - softTimeo > p.localTm ∨ now - hardTimeo > p.localTm ∨ attr ≠ p.remote)

/-- `dircache_hasoff` -/
def Page.hasoff (off : ℕ) : Bool :=
  off = p.off ∨ p.rc = none ∧ off ≠ p.nextoff ∧ off ∈ p.dents.map Dirent.off

def findStart (off : ℕ) : ℕ → List Dirent → List Dirent
  | _, [] => []
  | thisoff, e :: es => if off = thisoff then e :: es else findStart off e.off es

def fit (size : ℕ) : ℕ → List Dirent → List Dirent
  | _, [] => []
  | len, e :: es => if e.size + len > size then [] else e :: fit size (len + e.size) es

/-- What a reader is given: counted by `dcp_dents_off`, taken from the buffer. -/
def Page.serve (off size : ℕ) : List Dirent :=
  fit size 0 (findStart off p.off (p.base.take p.dents.length))

/-- The outcome of the loop over the pages in `mslfsop_readdir`. -/
inductive Found where
  | wait
  | eof
  | hit (p : Page)
  | bad (rc : Err)
  | miss

/-- A page in the loop of `mslfsop_readdir`. -/
def Page.visit (now : ℤ) (attr off : ℕ) (p : Page) : Visit Page Found :=
  if p.loading then .stop [p] .wait
  else if p.expired now attr then .pass (if p.freeing then [p] else [])
  else if off = p.nextoff ∧ p.eof then .stop [p] .eof
  else if p.hasoff off then
    match p.rc with
    | some rc => .stop (if p.freeing then [p] else []) (.bad rc)
    | none => .stop [{ p with read := true }] (.hit p)
  else .pass [p]

/-- The loop of `mslfsop_readdir`, with the pages it leaves. -/
def scan (now : ℤ) (attr off : ℕ) : List Page → List Page × Found :=
  sweep (Page.visit now attr off) .miss

/-- The outcome of the loop in `dircache_new_page`. -/
inductive New where
  /-- `NULL` is returned -/
  | null
  | wait
  /-- `dircache_free_page` waits for the references of a page -/
  | free (id : ℕ)
  | add
  deriving DecidableEq

/-- A page in the loop of `dircache_new_page`. -/
def Page.visitNew (now : ℤ) (attr off : ℕ) (wait : Bool) (p : Page) : Visit Page New :=
  if p.loading then
    if p.off = off then .stop [p] .null
    else if wait then .stop [p] .wait
    else .pass [p]
  else if p.expired now attr then .pass (if p.freeing then [p] else [])
  else if p.hasoff off then
    -- stale page in cache; purge and refresh
    if p.freeing then .stop [p] (if wait then .add else .null)
    else if p.refcnt = 0 then .stop [] .add
    else if wait then .stop [{ p with freeing := true }] (.free p.id)
    else .stop [p] .null
  else .pass [p]

/-- The loop of `dircache_new_page`, with the pages it leaves. -/
def newPage (now : ℤ) (attr off : ℕ) (wait : Bool) : List Page → List Page × New :=
  sweep (Page.visitNew now attr off wait) .add

/-! ### Readers -/

inductive Pc where
  | calling
  | issue
  | freeing (id : ℕ)
  | done
  | failed
  deriving DecidableEq

structure Reader where
  size : ℕ
  off : ℕ
  got : List Dirent
  calls : ℕ
  pc : Pc

def Reader.take (r : Reader) (es : List Dirent) : Reader :=
  match es.getLast? with
  | none => { r with pc := .done }
  | some e => { r with off := e.off, got := r.got ++ es, calls := r.calls + 1 }

structure State where
  pages : List Page
  readers : List Reader
  /-- cookies and sizes of read-ahead calls -/
  aheads : List (ℕ × ℕ)
  nextId : ℕ
  now : ℤ
  /-- `sst_mtim` and `sst_gen` of the directory -/
  attr : ℕ
  /-- `dircache_ent_zap` has met a page without `dcp_dents_off` -/
  crashed : Bool

inductive Op where
  | start (size : ℕ)
  /-- `mslfsop_readdir` looks for a page -/
  | call (i : ℕ)
  | issue (i : ℕ)
  /-- `dircache_free_page` goes on -/
  | freed (i : ℕ)
  /-- `msl_readdir_issue` for read-ahead -/
  | ahead (k : ℕ)
  /-- the MDS replies with `n` entries -/
  | reply (id n : ℕ) (eof : Bool)
  /-- `dircache_reg_ents` puts the next entry into the name cache -/
  | register (id : ℕ)
  /-- the end of `dircache_reg_ents` -/
  | fill (id : ℕ)
  /-- the end of `msl_readdir_finish` -/
  | finish (id : ℕ)
  | tick (dt : ℕ)
  | setattr (attr : ℕ)

variable (s : State)

def State.page (id : ℕ) : Option Page := s.pages.find? (·.id = id)

/-- Page `id` becomes `q`. -/
def State.setPage (id : ℕ) (q : Page) : State :=
  { s with pages := s.pages.map fun p => if p.id = id then q else p }

def State.setReader (i : ℕ) (r : Reader) : State :=
  { s with readers := s.readers.set i r }

/-- `dircache_new_page` adds a page, and the RPC is sent. -/
def State.addPage (off size : ℕ) : State :=
  let p := ⟨s.nextId, off, size, true, false, false, false, none, 1, [], [], 0, 0, 0, none, 0⟩
  { s with pages := s.pages ++ [p], nextId := s.nextId + 1 }

/-- `mslfsop_readdir` from `restart` on. -/
def call (i : ℕ) (r : Reader) : State :=
  let (pages, found) := scan s.now s.attr r.off s.pages
  let s := { s with pages := pages }
  match found with
  | .wait => s
  | .eof => s.setReader i { r with pc := .done }
  | .bad .transient => s.setReader i { r with pc := .issue }
  | .bad .other => s.setReader i { r with pc := .failed }
  | .miss => s.setReader i { r with pc := .issue }
  | .hit p =>
    let s := s.setReader i (r.take (p.serve r.off r.size))
    if p.eof ∨ p.nextoff = 0 then s else { s with aheads := s.aheads ++ [(p.nextoff, r.size)] }

/-- `msl_readdir_issue` up to where it waits for references. -/
def issue (i : ℕ) (r : Reader) : State :=
  let (pages, new) := newPage s.now s.attr r.off true s.pages
  let s := { s with pages := pages }
  match new with
  -- -ESRCH is not tried again
  | .null => s.setReader i { r with pc := .failed }
  | .wait => s
  | .free id => s.setReader i { r with pc := .freeing id }
  | .add => (s.addPage r.off r.size).setReader i { r with pc := .calling }

/-- `msl_readdir_issue` for read-ahead. -/
def ahead (off size : ℕ) : State :=
  let (pages, new) := newPage s.now s.attr off false s.pages
  let s := { s with pages := pages }
  match new with
  | .add => s.addPage off size
  | .null | .wait | .free _ => s

def Page.registered : List String :=
  match p.reply with
  | some (es, _) => (es.take p.reged).map Dirent.name
  | none => []

/-- `dircache_ent_zap` of a page without an array. -/
def Clash (id : ℕ) (e : Dirent) : Prop :=
  ∃ q ∈ s.pages, q.id ≠ id ∧ q.loading ∧ e.name ∈ q.registered
  deriving Decidable

/-- `dircache_ent_zap`: the page is forced to expire. -/
def Page.zap (e : Dirent) (now : ℤ) : Page :=
  if e.name ∈ p.dents.map Dirent.name then
    { p with dents := p.dents.filter (·.name ≠ e.name), localTm := now - hardTimeo }
  else p

/-- An entry of page `id` goes into the name cache. -/
def register (id : ℕ) (e : Dirent) : State :=
  if Clash s id e then { s with crashed := true }
  else { s with pages := s.pages.map fun p =>
          if p.id = id then { p with reged := p.reged + 1 } else p.zap e s.now }

/-- The end of `dircache_reg_ents`. -/
def Page.fill (es : List Dirent) (eof : Bool) (now : ℤ) (attr : ℕ) : Page :=
  { p with nextoff := (es.getLast?.map Dirent.off).getD p.off, dents := es, base := es, remote := attr,
           localTm := now, loading := false, eof := eof, reply := none }

def step (d : Dir) (s : State) : Op → Option State
  | .start size =>
    if ∀ e ∈ d.ents, e.size ≤ size then
      -- more than a megabyte is refused with EINVAL
      some { s with readers := s.readers ++
              [⟨size, 0, [], 0, if size > 1024 * 1024 then .failed else .calling⟩] }
    else none
  | .call i => do
    let r ← s.readers[i]?
    if r.pc = .calling then some (call s i r) else none
  | .issue i => do
    let r ← s.readers[i]?
    if r.pc = .issue then some (issue s i r) else none
  | .freed i => do
    let r ← s.readers[i]?
    match r.pc with
    | .freeing id =>
      let p ← s.page id
      if p.refcnt = 0 then
        let s := { s with pages := s.pages.filter (·.id ≠ id) }
        some ((s.addPage r.off r.size).setReader i { r with pc := .calling })
      else none
    | _ => none
  | .ahead k => do
    let (off, size) ← s.aheads[k]?
    some (ahead { s with aheads := s.aheads.eraseIdx k } off size)
  | .reply id n eof => do
    let p ← s.page id
    let es := (d.after p.off).take n
    -- what fits into the buffer, something if there is anything, and all of it at the end
    if p.loading ∧ p.reply = none ∧ (es.map Dirent.size).sum ≤ p.size ∧ (es = [] → d.after p.off = []) ∧
        (eof → es = d.after p.off) then
      some (s.setPage id { p with reply := some (es, eof), reged := 0 })
    else none
  | .register id => do
    let p ← s.page id
    let (es, _) ← p.reply
    let e ← es[p.reged]?
    some (register s id e)
  | .fill id => do
    let p ← s.page id
    let (es, eof) ← p.reply
    if p.loading ∧ p.reged = es.length then some (s.setPage id (p.fill es eof s.now s.attr)) else none
  | .finish id => do
    let p ← s.page id
    if p.loading = false ∧ p.refcnt ≠ 0 then some (s.setPage id { p with refcnt := p.refcnt - 1 }) else none
  | .tick dt => some { s with now := s.now + dt }
  | .setattr attr => some { s with attr := attr }

/-- Readers get the directory in order, something in each call, and all of it in the end. -/
structure Sound (d : Dir) (s : State) : Prop where
  alive : s.crashed = false
  order : ∀ r ∈ s.readers, r.got <+: d.ents
  calls : ∀ r ∈ s.readers, r.calls ≤ r.got.length
  all : ∀ r ∈ s.readers, r.pc = .done → r.got = d.ents
  success : ∀ r ∈ s.readers, r.pc ≠ .failed

def Found.Whole : Found → Prop
  | .hit p => p.dents.length = p.base.length
  | .bad rc => rc = .transient
  | .wait | .eof | .miss => True

instance : DecidablePred Found.Whole := fun o => by
  cases o <;> unfold Found.Whole <;> infer_instance

/-- What the loop of `dircache_new_page` looks at: a page on its way, or one with the cookie that has not expired. -/
def Page.meets (now : ℤ) (attr off : ℕ) (p : Page) : Bool := p.loading || !p.expired now attr && p.hasoff off

/-- No large buffer; the serving page has lost nothing; and nothing is asked for that is on its way. -/
def Fine : Op → Prop
  | .start size => size ≤ 1024 * 1024
  | .call i => ∀ r ∈ s.readers[i]?, (scan s.now s.attr r.off s.pages).2.Whole
  | .issue i => ∀ r ∈ s.readers[i]?, ∀ p ∈ s.pages.find? (Page.meets s.now s.attr r.off), p.loading → p.off ≠ r.off
  | .register id => ∀ p ∈ s.page id, ∀ q ∈ p.reply, ∀ e ∈ q.1[p.reged]?, ¬Clash s id e
  | _ => True

instance : DecidablePred (Fine s) := fun o => by
  cases o <;> unfold Fine <;> infer_instance

/-! ### Where it starts -/

/-- `es` follows `off` in the directory, all of it if `eof`. -/
def Segment (d : Dir) (off : ℕ) (es : List Dirent) (eof : Bool) : Prop :=
  ∃ t, d.after off = es ++ t ∧ (eof → t = []) ∧ (es = [] → t = [])

structure Page.Agrees (p : Page) (d : Dir) : Prop where
  reply : ∀ es eof, p.reply = some (es, eof) → Segment d p.off es eof
  segment : p.loading = false → p.rc = none → Segment d p.off p.base p.eof
  nextoff : p.loading = false → p.rc = none → p.nextoff = (p.base.getLast?.map Dirent.off).getD p.off
  dents : p.dents ⊆ p.base
  bad : p.rc ≠ none → p.eof = false
  fresh : p.loading → p.rc = none

/-- No readers, and pages that agree with the directory. -/
structure Start (d : Dir) (s : State) : Prop where
  readers : s.readers = []
  alive : s.crashed = false
  agrees : ∀ p ∈ s.pages, p.Agrees d

end Slash2.Dircache
