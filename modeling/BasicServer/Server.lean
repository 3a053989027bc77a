/-
  The server's shared state and the calls that touch it (`server.cpp`, `table.cpp`).

  A `Table*` is an address (`Ptr`); `tables` is the heap, `next` the first address no table has
  been allocated at, `tableNames` the map of names to tables.  A mutex is the thread that holds it,
  or nobody: locking it waits until it is free, `pthread_mutex_trylock` does not wait, and unlocking
  frees it whoever calls.

  Every access of a session to this state is one `Call`.  A call carries the session that makes it
  (`Site`), so that the state of the caller at that moment can be seen from outside.  `walk` is the
  order in which an `unordered_set` is walked: the interleaved system lets it be any permutation
  (`Call.Step`), the one that runs requests back to back takes the order of insertion
  (`Call.apply`).  `terminate` is the end of the process, after which nothing moves.
-/
import BasicServer.Table
import BasicServer.Lib.Interleave

namespace BasicServer

open Function (update)
open Overlay (Map)

/-- `Table*`. -/
abbrev Ptr : Type := Nat

/-- `class Server`, with the heap its tables live in. -/
@[ext]
structure Server (ι : Type) where
  tableNames : Map Str Ptr := ∅
  tables : Ptr → Table ι := fun _ => {}
  next : Ptr := 0
  mutex : Option ι := none
  aborted : Bool := false

/-- The state of one `ClientConnection`.  `firstValidMessage` is the local variable of
    `chat_with_client`; `replies` is what has been written to the socket for the current input. -/
structure Session where
  stack : List Str := []
  lockedTables : List Ptr := []
  inTransaction : Bool := false
  loopInProgress : Bool := true
  firstValidMessage : Bool := true
  replies : List Str := []
  deriving DecidableEq

/-- The calls of a session to the shared state. -/
inductive Call where
  | serverLock
  | serverUnlock
  | findTable (name : Str)
  | createTable (name : Str)
  | lock (t : Ptr)
  | trylock (t : Ptr)
  | unlock (t : Ptr)
  | set (t : Ptr) (key value : Str)
  | hasKey (t : Ptr) (key : Str)
  | get (t : Ptr) (key : Str)
  | commitChanges (t : Ptr)
  | rollbackChanges (t : Ptr)
  | walk (ts : List Ptr)
  | terminate
  deriving DecidableEq

/-- The type of the answer to a call. -/
abbrev Call.Ans : Call → Type
  | .findTable _ => Option Ptr
  | .trylock _ => Bool
  | .hasKey _ _ => Bool
  | .get _ _ => Except Exn Str
  | .walk _ => List Ptr
  | _ => Unit

/-- A call and the session that makes it. -/
structure Site where
  call : Call
  self : Session
  deriving DecidableEq

/-- The signature of the calls. -/
abbrev calls : Sig := ⟨Site, fun o => o.call.Ans⟩

namespace Server

variable {ι : Type}

/-- Replace the table at an address. -/
def setTable (srv : Server ι) (t : Ptr) (table : Table ι) : Server ι :=
  { srv with tables := update srv.tables t table }

/-- `Server::find_table`. -/
def findTable (srv : Server ι) (name : Str) : Option Ptr := srv.tableNames.lookup name

/-- `Server::create_table`: a new table, and the entry of the map is written. -/
def createTable (srv : Server ι) (name : Str) : Server ι :=
  { srv with
    tableNames := srv.tableNames.insert name srv.next
    tables := update srv.tables srv.next {}
    next := srv.next + 1 }

/-- Set the holder of the mutex of a table. -/
def setMutex (srv : Server ι) (t : Ptr) (m : Option ι) : Server ι :=
  srv.setTable t { srv.tables t with mutex := m }

section Simp

variable (srv : Server ι) (t : Ptr) (table : Table ι) (m : Option ι)

@[simp] theorem tableNames_setTable : (srv.setTable t table).tableNames = srv.tableNames := rfl
@[simp] theorem next_setTable : (srv.setTable t table).next = srv.next := rfl
@[simp] theorem mutex_setTable : (srv.setTable t table).mutex = srv.mutex := rfl
@[simp] theorem aborted_setTable : (srv.setTable t table).aborted = srv.aborted := rfl
@[simp] theorem tables_setTable : (srv.setTable t table).tables t = table := by simp [setTable]

theorem tables_setTable_ne {t' : Ptr} (h : t' ≠ t) :
    (srv.setTable t table).tables t' = srv.tables t' := by simp [setTable, h]

@[simp] theorem findTable_setTable (name : Str) :
    (srv.setTable t table).findTable name = srv.findTable name := rfl

@[simp] theorem next_setMutex : (srv.setMutex t m).next = srv.next := rfl
@[simp] theorem mutex_setMutex : (srv.setMutex t m).mutex = srv.mutex := rfl
@[simp] theorem aborted_setMutex : (srv.setMutex t m).aborted = srv.aborted := rfl
@[simp] theorem findTable_setMutex (name : Str) :
    (srv.setMutex t m).findTable name = srv.findTable name := rfl
@[simp] theorem tables_setMutex :
    (srv.setMutex t m).tables t = { srv.tables t with mutex := m } := by simp [setMutex]

theorem tables_setMutex_ne {t' : Ptr} (h : t' ≠ t) :
    (srv.setMutex t m).tables t' = srv.tables t' := tables_setTable_ne srv t _ h

@[simp] theorem setTable_setTable (table' : Table ι) :
    (srv.setTable t table).setTable t table' = srv.setTable t table' := by
  simp [setTable]

@[simp] theorem setTable_self : srv.setTable t (srv.tables t) = srv := by
  simp [setTable]

@[simp] theorem tables_createTable (name : Str) : (srv.createTable name).tables srv.next = {} := by
  simp [createTable]

theorem tables_createTable_ne (name : Str) (h : t ≠ srv.next) :
    (srv.createTable name).tables t = srv.tables t := by simp [createTable, h]

@[simp] theorem findTable_createTable (name : Str) :
    (srv.createTable name).findTable name = some srv.next := AList.lookup_insert _

theorem findTable_createTable_ne {name name' : Str} (h : name ≠ name') :
    (srv.createTable name').findTable name = srv.findTable name := AList.lookup_insert_ne h

end Simp

end Server

/-- What a call does, for the thread `i`: the answer and the state after, or `none` while the call
    has to wait. -/
def Call.apply {ι : Type} (i : ι) (srv : Server ι) : (c : Call) → Option (c.Ans × Server ι)
  | .serverLock =>
    match srv.mutex with
    | none => some ((), { srv with mutex := some i })
    | some _ => none
  | .serverUnlock => some ((), { srv with mutex := none })
  | .findTable name => some (srv.findTable name, srv)
  | .createTable name => some ((), srv.createTable name)
  | .lock t =>
    match (srv.tables t).mutex with
    | none => some ((), srv.setMutex t (some i))
    | some _ => none
  | .trylock t =>
    match (srv.tables t).mutex with
    | none => some (true, srv.setMutex t (some i))
    | some _ => some (false, srv)
  | .unlock t => some ((), srv.setMutex t none)
  | .set t key value => some ((), srv.setTable t ((srv.tables t).set key value))
  | .hasKey t key => some ((srv.tables t).hasKey key, srv)
  | .get t key => some ((srv.tables t).get key, srv)
  | .commitChanges t => some ((), srv.setTable t (srv.tables t).commitChanges)
  | .rollbackChanges t => some ((), srv.setTable t (srv.tables t).rollbackChanges)
  | .walk ts => some (ts, srv)
  | .terminate => some ((), { srv with aborted := true })

/-- One call of thread `i` in the interleaved system.  Nothing moves after the end of the process;
    a set may be walked in any order; every other call does what `apply` says. -/
def Call.Step {ι : Type} (i : ι) (srv : Server ι) (c : Call) (r : c.Ans) (srv' : Server ι) : Prop :=
  srv.aborted = false ∧
  match c, r with
  | .walk ts, r => List.Perm r ts ∧ srv' = srv
  | c, r => c.apply i srv = some (r, srv')

/-- The handler that makes the calls of one thread back to back. -/
def serve {ι : Type} (i : ι) (o : calls.Op) (srv : Server ι) : Option (calls.Ans o × Server ι) :=
  if srv.aborted then none else o.call.apply i srv

/-- What `serve` does is a step of the interleaved system. -/
theorem step_of_serve {ι : Type} {i : ι} {o : calls.Op} {srv srv' : Server ι} {r : calls.Ans o}
    (h : serve i o srv = some (r, srv')) : o.call.Step i srv r srv' := by
  obtain ⟨c, self⟩ := o
  unfold serve at h
  split at h
  · cases h
  · rename_i hab
    refine ⟨by simpa using hab, ?_⟩
    cases c with
    | walk ts =>
      obtain ⟨rfl, rfl⟩ := Prod.mk.inj (Option.some.inj h)
      exact ⟨List.Perm.refl _, rfl⟩
    | _ => exact h

end BasicServer
