/-
# The name cache of a directory

The client keeps one hash table from names to files. Its entries belong to a page of directory
entries or to the private list of their directory. `_namecache_lookup` searches the table under
the lock of a bucket; an entry that is to be removed is then taken out of its array or list under
another lock (`dircache_ent_zap`). A page is registered name by name, and its array is attached at
the end.
-/
import Mathlib.Algebra.BigOperators.Group.List.Basic
import Mathlib.Algebra.Ring.Nat

namespace Slash2.Dircache.Namecache

/-! ### Entries and where they are -/

/-- `struct dircache_ent` -/
structure Dce where
  id : ℕ
  name : String
  /-- `pfd_ino` -/
  fid : ℕ
  page : Option ℕ
  deriving DecidableEq

structure Page where
  /-- `dcp_dents_off` is not set yet -/
  loading : Bool
  gone : Bool
  ents : List ℕ
  todo : List Dce

/-- `NAMECACHELOOKUPF_*` -/
inductive Lookup where
  | clobber
  | delete
  | insert
  | peek
  | update
  deriving DecidableEq

/-- Where a call of `_namecache_lookup` is. -/
inductive Pc where
  | search
  | insert
  | zap (e : Dce)
  /-- it has returned; `none` is `FID_ANY` -/
  | done (rc : Option ℕ)
  deriving DecidableEq

def Pc.dce : Pc → Option Dce
  | .zap e => some e
  | _ => none

/-- A call of `_namecache_lookup`. -/
structure Call where
  op : Lookup
  name : String
  cfid : ℕ
  pc : Pc

structure State where
  /-- the entries of the directory in `msl_namecache_hashtbl` -/
  table : List Dce
  /-- `fci_dc_pages`, by their addresses -/
  pages : List Page
  ents : List ℕ
  /-- the page being freed, under the page cache's lock -/
  freeing : Option ℕ
  calls : List Call
  next : ℕ
  /-- names and files set by calls that have returned -/
  settled : List (String × ℕ)
  crashed : Bool

def State.init : State := ⟨[], [], [], none, [], 0, [], false⟩

def State.find (s : State) (name : String) : Option Dce := s.table.find? (·.name = name)

variable (s : State)

def State.lookup (name : String) : Option ℕ := (s.find name).map Dce.fid

def State.refs (x : ℕ) : ℕ := (s.pages.map fun p => p.ents.count x).sum + s.ents.count x

def State.setPage (k : ℕ) (p : Page) : State := { s with pages := s.pages.set k p }

def State.goto (i : ℕ) (c : Call) (pc : Pc) : State :=
  { s with calls := s.calls.set i { c with pc := pc } }

def State.change (name : String) : State :=
  { s with settled := s.settled.filter (·.1 ≠ name) }

def State.settle (c : Call) : State :=
  { s with settled := (c.name, c.cfid) :: s.settled }

/-- `PHLF_DEL`: what the search finds is removed. -/
def State.del (name : String) : State :=
  { s.change name with table := s.table.eraseP (·.name = name) }

/-- `dircache_ent_update` of the entry that was found. -/
def State.entUpdate (e : Dce) (cfid : ℕ) : State :=
  { s.change e.name with table := s.table.map fun a => if a.id = e.id then { a with fid := cfid } else a }

def State.addItem (e : Dce) : State :=
  { s.change e.name with table := e :: s.table }

/-- `dircache_ent_zap` -/
def State.entZap (e : Dce) : State :=
  match e.page with
  | none => { s with ents := s.ents.erase e.id }
  | some k =>
    match s.pages[k]? with
    | none => { s with crashed := true }
    | some p =>
      -- the array is not there yet, or no longer
      if p.loading ∨ p.gone then { s with crashed := true }
      else s.setPage k { p with ents := p.ents.erase e.id }

/-- The first search of `_namecache_lookup`. -/
def search (i : ℕ) (c : Call) : State :=
  match c.op, s.find c.name with
  | .peek, e => s.goto i c (.done (e.map Dce.fid))
  | .delete, some e => (s.del c.name).goto i c (.zap e)
  | .delete, none => s.goto i c (.done none)
  | .update, some e => ((s.entUpdate e c.cfid).settle c).goto i c (.done none)
  | .update, none => (s.settle c).goto i c (.done none)
  | .clobber, some e => ((s.entUpdate e c.cfid).settle c).goto i c (.done none)
  | .clobber, none => s.goto i c .insert
  | .insert, some _ => (s.settle c).goto i c (.done none)
  | .insert, none => s.goto i c .insert

/-- The second search of `_namecache_lookup`. -/
def insert (i : ℕ) (c : Call) : Option State :=
  match s.find c.name with
  | some _ => some ((s.settle c).goto i c (.done none))
  | none =>
    if s.freeing = none then
      let s' := { s.addItem ⟨s.next, c.name, c.cfid, none⟩ with ents := s.next :: s.ents, next := s.next + 1 }
      some ((s'.settle c).goto i c (.done none))
    else none

/-- The entries `dircache_reg_ents` allocates for page `k`. -/
def dents (k : ℕ) : ℕ → List (String × ℕ) → List Dce
  | _, [] => []
  | next, (name, fid) :: l => ⟨next, name, fid, some k⟩ :: dents k (next + 1) l

/-- `dircache_reg_ents` up to the first entry. -/
def regStart (l : List (String × ℕ)) : State :=
  let es := dents s.pages.length s.next l
  { s with pages := s.pages ++ [⟨true, false, es.map Dce.id, es⟩], next := s.next + l.length }

/-- `dircache_reg_ents`, one entry. -/
def regEnt (k : ℕ) (p : Page) (e : Dce) : Option State :=
  let s := s.setPage k { p with todo := p.todo.tail }
  match s.find e.name with
  | none => some (s.addItem e)
  | some e2 => if s.freeing = none then some (((s.del e.name).entZap e2).addItem e) else none

/-- `_dircache_free_page`, one entry. -/
def freeEnt (k : ℕ) (p : Page) (x : ℕ) : State :=
  match s.table.find? (·.id = x) with
  -- the entry is on no list from which it could be removed
  | none => { s with crashed := true }
  | some e => { (s.change e.name).setPage k { p with ents := p.ents.tail } with
                table := s.table.eraseP (·.id = x) }

inductive Op where
  /-- a call of `_namecache_lookup` -/
  | call (op : Lookup) (name : String) (cfid : ℕ)
  | search (i : ℕ)
  | insert (i : ℕ)
  /-- `dircache_ent_zap` of a call -/
  | zap (i : ℕ)
  | regStart (l : List (String × ℕ))
  | regEnt (k : ℕ)
  | regEnd (k : ℕ)
  | freeStart (k : ℕ)
  | freeEnt
  | freeEnd

def step (o : Op) : Option State :=
  if s.crashed then none
  else match o with
  | .call op name cfid => some { s with calls := s.calls ++ [⟨op, name, cfid, .search⟩] }
  | .search i => do
    let c ← s.calls[i]?
    if c.pc = .search then some (search s i c) else none
  | .insert i => do
    let c ← s.calls[i]?
    if c.pc = .insert then insert s i c else none
  | .zap i => do
    let c ← s.calls[i]?
    let e ← c.pc.dce
    if s.freeing = none then some ((s.entZap e).goto i c (.done none)) else none
  | .regStart l => if (l.map Prod.fst).Nodup then some (regStart s l) else none
  | .regEnt k => do
    let p ← s.pages[k]?
    let e ← p.todo.head?
    regEnt s k p e
  | .regEnd k => do
    let p ← s.pages[k]?
    if p.loading ∧ p.todo = [] ∧ s.freeing = none then some (s.setPage k { p with loading := false }) else none
  | .freeStart k => do
    let p ← s.pages[k]?
    if p.loading = false ∧ p.gone = false ∧ s.freeing = none then some { s with freeing := some k } else none
  | .freeEnt => do
    let k ← s.freeing
    let p ← s.pages[k]?
    let x ← p.ents.head?
    some (freeEnt s k p x)
  | .freeEnd => do
    let k ← s.freeing
    let p ← s.pages[k]?
    if p.ents = [] then some { s.setPage k { p with gone := true } with freeing := none } else none

/-- Names are unique, entries referenced once, and settled names are found. -/
structure Consistent (s : State) : Prop where
  alive : s.crashed = false
  names : (s.table.map Dce.name).Nodup
  refs : ∀ e ∈ s.table, s.refs e.id = 1
  settled : ∀ n f, (n, f) ∈ s.settled → s.lookup n = some f

/-- `dircache_ent_zap` finds the array of the entry. -/
def Removable (e : Dce) : Prop :=
  ∀ k ∈ e.page, ∃ p ∈ s.pages[k]?, p.loading = false ∧ p.gone = false
  deriving Decidable

/-- An insertion finds no other file, an update finds one, and neither the page nor its entries are gone. -/
def Fine : Op → Prop
  | .search i => ∀ c ∈ s.calls[i]?,
    (c.op = .insert → ∀ e ∈ s.find c.name, e.fid = c.cfid) ∧ (c.op = .update → s.find c.name ≠ none)
  | .insert i => ∀ c ∈ s.calls[i]?, ∀ e ∈ s.find c.name, e.fid = c.cfid
  | .zap i => ∀ c ∈ s.calls[i]?, ∀ e ∈ c.pc.dce, Removable s e
  | .regEnt k => ∀ p ∈ s.pages[k]?, ∀ e ∈ p.todo.head?, ∀ e2 ∈ s.find e.name, Removable s e2
  | .freeEnt => ∀ k ∈ s.freeing, ∀ p ∈ s.pages[k]?, ∀ x ∈ p.ents.head?, x ∈ s.table.map Dce.id
  | _ => True

instance : DecidablePred (Fine s) := fun o => by
  cases o <;> unfold Fine <;> infer_instance

end Slash2.Dircache.Namecache
