/-
  Whole requests: what an input does when nobody interferes.

  `exec (serve i)` runs the program of an input back to back.  `Effect` lists what comes of it, case
  by case: the session after and the server after, in terms of the state before.  Two rules connect
  the two, for a session that may run (`MayRun`):

  1. `exec_of_effect` — an effect whose conditions are met is what the program does;
  2. `effect_of_exec` — whatever the program does is one of the effects.

  COMMIT and every end of a transaction go over all locked tables; the order of the walk does not
  show (`exec_releaseAll` has one result for every order).
-/
import BasicServer.Shape

namespace BasicServer

open Function (update)

/-! ## Changes of the server -/

namespace Server

variable {ι : Type}

/-- Apply `f` to the tables of a list and free their mutexes. -/
def release (srv : Server ι) (f : Table ι → Table ι) (ts : List Ptr) : Server ι :=
  { srv with
    tables := fun t => if t ∈ ts then { f (srv.tables t) with mutex := none } else srv.tables t }

/-- The server after the transaction of a session, if it has one, was ended. -/
def ended (srv : Server ι) (s : Session) : Server ι :=
  if s.inTransaction then srv.release Table.rollbackChanges s.lockedTables else srv

section Simp

variable (srv : Server ι) (f : Table ι → Table ι) (ts : List Ptr) (t : Ptr) (s : Session)

@[simp] theorem tableNames_release : (srv.release f ts).tableNames = srv.tableNames := rfl
@[simp] theorem next_release : (srv.release f ts).next = srv.next := rfl
@[simp] theorem mutex_release : (srv.release f ts).mutex = srv.mutex := rfl
@[simp] theorem aborted_release : (srv.release f ts).aborted = srv.aborted := rfl

theorem tables_release_mem (ht : t ∈ ts) :
    (srv.release f ts).tables t = { f (srv.tables t) with mutex := none } := if_pos ht

theorem tables_release_not (ht : t ∉ ts) : (srv.release f ts).tables t = srv.tables t := if_neg ht

@[simp] theorem release_nil : srv.release f [] = srv := by
  simp [release]

@[simp] theorem tableNames_ended : (srv.ended s).tableNames = srv.tableNames := by
  unfold ended; split <;> rfl

@[simp] theorem next_ended : (srv.ended s).next = srv.next := by
  unfold ended; split <;> rfl

@[simp] theorem mutex_ended : (srv.ended s).mutex = srv.mutex := by
  unfold ended; split <;> rfl

@[simp] theorem aborted_ended : (srv.ended s).aborted = srv.aborted := by
  unfold ended; split <;> rfl

theorem ended_of_not (h : s.inTransaction = false) : srv.ended s = srv := by
  rw [ended, if_neg (by rw [h]; decide)]

theorem ended_of_tx (h : s.inTransaction = true) :
    srv.ended s = srv.release Table.rollbackChanges s.lockedTables := if_pos h

/-- A table that is released anyway may have been unlocked before. -/
theorem release_setMutex {m : Option ι} (ht : t ∈ ts) (hf : ∀ (table : Table ι) m',
    { f { table with mutex := m' } with mutex := none } = ({ f table with mutex := none } : Table ι)) :
    (srv.setMutex t m).release f ts = srv.release f ts := by
  have htables : ((srv.setMutex t m).release f ts).tables = (srv.release f ts).tables := by
    funext t'
    by_cases ht' : t' = t
    · subst ht'
      rw [tables_release_mem _ _ _ _ ht, tables_release_mem _ _ _ _ ht, tables_setMutex, hf]
    · by_cases hmem : t' ∈ ts
      · rw [tables_release_mem _ _ _ _ hmem, tables_release_mem _ _ _ _ hmem,
          tables_setMutex_ne _ _ _ ht']
      · rw [tables_release_not _ _ _ _ hmem, tables_release_not _ _ _ _ hmem,
          tables_setMutex_ne _ _ _ ht']
  exact Server.ext rfl htables rfl rfl rfl

/-- Locking a free mutex and unlocking it again. -/
theorem setMutex_none {m : Option ι} (hfree : (srv.tables t).mutex = none) :
    (srv.setMutex t m).setMutex t none = srv := by
  have htable : ({ (srv.setMutex t m).tables t with mutex := none } : Table ι) = srv.tables t := by
    rw [tables_setMutex, ← hfree]
  rw [setMutex, htable, setMutex, setTable_setTable, setTable_self]

theorem setMutex_setMutex (m m' : Option ι) :
    (srv.setMutex t m).setMutex t m' = srv.setMutex t m' := by
  rw [setMutex, tables_setMutex, setMutex, setTable_setTable]
  rfl

theorem setMutex_self {m : Option ι} (h : (srv.tables t).mutex = m) : srv.setMutex t m = srv := by
  rw [setMutex, ← h]
  exact setTable_self ..

end Simp

end Server

/-! ## Running the programs -/

section Exec

variable {ι : Type} {i : ι} {srv srv' : Server ι} {s : Session}

/-- The rule for one call. -/
theorem exec_ask {α : Type} {c : Call} {k : c.Ans → Prog calls α} {r : c.Ans}
    (hab : srv.aborted = false) (h : c.apply i srv = some (r, srv')) :
    (Prog.call ⟨c, s⟩ k : Prog calls α).exec (serve i) srv = (k r).exec (serve i) srv' := by
  have hserve : serve i ⟨c, s⟩ srv = some (r, srv') := by
    rw [serve, if_neg (by rw [hab]; decide)]
    exact h
  rw [Prog.exec_call, hserve]
  rfl

/-- The loop of COMMIT or of a rollback, over any order of the tables. -/
theorem exec_releaseAll {act : Ptr → Call} {f : Table ι → Table ι}
    (hact : act = .commitChanges ∧ f = Table.commitChanges ∨
      act = .rollbackChanges ∧ f = Table.rollbackChanges)
    {ts : List Ptr} (hnodup : ts.Nodup) (hab : srv.aborted = false) :
    (releaseAll act s ts).exec (serve i) srv = some ((), srv.release f ts) := by
  induction ts generalizing srv with
  | nil => rw [Server.release_nil]; rfl
  | cons t ts ih =>
    obtain ⟨hnot, hnodup⟩ := List.nodup_cons.mp hnodup
    have hstep : (releaseAll act s (t :: ts)).exec (serve i) srv
        = (releaseAll act s ts).exec (serve i) ((srv.setTable t (f (srv.tables t))).setMutex t none) := by
      rcases hact with ⟨rfl, rfl⟩ | ⟨rfl, rfl⟩
      · exact (exec_ask hab rfl).trans (exec_ask (by exact hab) rfl)
      · exact (exec_ask hab rfl).trans (exec_ask (by exact hab) rfl)
    rw [hstep, ih hnodup (by exact hab)]
    congr 2
    refine Server.ext rfl ?_ rfl rfl rfl
    funext t'
    by_cases ht : t' = t
    · subst ht
      rw [Server.tables_release_not _ _ _ _ hnot, Server.tables_setMutex, Server.tables_setTable,
        Server.tables_release_mem _ _ _ _ (List.mem_cons_self ..)]
    · have hother : ((srv.setTable t (f (srv.tables t))).setMutex t none).tables t' = srv.tables t' := by
        rw [Server.tables_setMutex_ne _ _ _ ht, Server.tables_setTable_ne _ _ _ ht]
      by_cases hmem : t' ∈ ts
      · rw [Server.tables_release_mem _ _ _ _ hmem,
          Server.tables_release_mem _ _ _ _ (List.mem_cons_of_mem t hmem), hother]
      · have hmem' : t' ∉ t :: ts := fun h => (List.mem_cons.mp h).elim ht hmem
        rw [Server.tables_release_not _ _ _ _ hmem, Server.tables_release_not _ _ _ _ hmem', hother]

/-- Ending the transaction. -/
theorem exec_giveUp {fin : Session → Session} (hnodup : s.lockedTables.Nodup)
    (hab : srv.aborted = false) :
    (giveUp s fin).exec (serve i) srv = some (fin (released s), srv.ended s) := by
  unfold giveUp released Server.ended
  by_cases htx : s.inTransaction = true
  · rw [if_pos htx, if_pos htx, if_pos htx, exec_ask hab rfl, Prog.exec_bind,
      exec_releaseAll (Or.inr ⟨rfl, rfl⟩) hnodup hab]
    rfl
  · rw [if_neg htx, if_neg htx, if_neg htx]
    rfl

theorem exec_failWith {what : Str} (hnodup : s.lockedTables.Nodup) (hab : srv.aborted = false) :
    (failWith s what).exec (serve i) srv
      = some (answered (released s) (failLine what), srv.ended s) := exec_giveUp hnodup hab

theorem exec_abort (hab : srv.aborted = false) :
    (abort s).exec (serve i) srv = some (s, { srv with aborted := true }) := exec_ask hab rfl

theorem exec_findTree {name : Str} {body : Ptr → Prog calls Session} (hab : srv.aborted = false) :
    (findTree s name body).exec (serve i) srv = match srv.findTable name with
      | none => (failWith s "Could not find table.".toList).exec (serve i) srv
      | some t => (body t).exec (serve i) srv := by
  rw [findTree, exec_ask hab rfl]
  cases srv.findTable name <;> rfl

/-- The table is the session's already, or it is free. -/
def Acquires (i : ι) (s : Session) (srv : Server ι) (t : Ptr) : Prop :=
  t ∈ s.lockedTables ∧ (srv.tables t).mutex = some i ∨
    t ∉ s.lockedTables ∧ (srv.tables t).mutex = none

theorem exec_acquireTree {t : Ptr} {body : Session → Prog calls Session}
    (hab : srv.aborted = false) (h : Acquires i s srv t) :
    (acquireTree s t body).exec (serve i) srv
      = (body (acquired s t)).exec (serve i) (srv.setMutex t (some i)) := by
  unfold acquireTree acquired
  rcases h with ⟨hmem, hm⟩ | ⟨hmem, hm⟩
  · rw [if_pos hmem, List.insert_of_mem hmem, Server.setMutex_self _ _ hm]
  · have htry : (Call.trylock t).apply i srv = some (true, srv.setMutex t (some i)) := by
      simp only [Call.apply, hm]
    rw [if_neg hmem, List.insert_of_not_mem hmem, exec_ask hab htry]
    rfl

theorem exec_acquireTree_busy {t : Ptr} {body : Session → Prog calls Session}
    (hab : srv.aborted = false) (hnot : t ∉ s.lockedTables) (hbusy : (srv.tables t).mutex ≠ none) :
    (acquireTree s t body).exec (serve i) srv
      = (failWith s "Could not gain access to table.".toList).exec (serve i) srv := by
  obtain ⟨j, hj⟩ := Option.ne_none_iff_exists'.mp hbusy
  have htry : (Call.trylock t).apply i srv = some (false, srv) := by
    simp only [Call.apply, hj]
  rw [acquireTree, if_neg hnot, exec_ask hab htry]
  rfl

/-- An autocommit request waits for the table. -/
theorem exec_lock_busy {α : Type} {t : Ptr} {k : Unit → Prog calls α}
    (hbusy : (srv.tables t).mutex ≠ none) :
    (Prog.call ⟨.lock t, s⟩ k : Prog calls α).exec (serve i) srv = none := by
  obtain ⟨j, hj⟩ := Option.ne_none_iff_exists'.mp hbusy
  have happly : (Call.lock t).apply i srv = none := by simp only [Call.apply, hj]
  rw [Prog.exec_call, serve]
  split
  · rfl
  · rw [happly]; rfl

end Exec

/-! ## The effects -/

/-- The requests that only work on the value stack. -/
theorem Computes.notShared {msg : Message} {st st' : List Str} {line : Str}
    (h : Computes msg st st' line) : msg.mMessageType ∉ [.set, .commit, .begin] := by
  cases h with
  | @arith t op few r l st m n k ht => cases t <;> cases ht <;> simp
  | _ => simp

/-- The message a line is, if it is one. -/
def request : Input → Option Message
  | .line buf => (decode buf {}).toOption
  | .eof => none

theorem request_of_decode {buf : Str} {msg : Message} (h : decode buf {} = .ok msg) :
    request (.line buf) = some msg := by
  rw [request, h]
  rfl

theorem decode_of_request {buf : Str} {msg : Message} (h : request (.line buf) = some msg) :
    decode buf {} = .ok msg := by
  rw [request] at h
  cases hdec : decode buf {} with
  | error e =>
    rw [hdec] at h
    cases h
  | ok msg' =>
    rw [hdec] at h
    rw [Option.some.inj h]

section Effects

variable {ι : Type}

/-- SET, with something to store, or GET. -/
def UsesTable (s : Session) (t : MessageType) : Prop := t = .set ∧ s.stack ≠ [] ∨ t = .get

/-- `Served i s srv msg s' srv'` — client `i`, logged in and starting on `msg` in `s`, is left in
    `s'`, and the server in `srv'`; for the requests that use the shared state. -/
inductive Served (i : ι) (s : Session) (srv : Server ι) : Message → Session → Server ι → Prop
  | commit (htx : s.inTransaction = true) :
      Served i s srv ⟨.commit, []⟩ (answered (dropped s) okLine)
        (srv.release Table.commitChanges s.lockedTables)
  | created {name : Str} (hname : srv.findTable name = none) :
      Served i s srv ⟨.create, [name]⟩ (answered s okLine) (srv.createTable name)
  | bound {name : Str} {t : Ptr} (hname : srv.findTable name = some t) :
      Served i s srv ⟨.create, [name]⟩
        (answered (released s) (failLine "A table with this name already exists.".toList))
        (srv.ended s)
  | unknown {mt : MessageType} {name key : Str} (hmt : UsesTable s mt)
      (hname : srv.findTable name = none) :
      Served i s srv ⟨mt, [name, key]⟩
        (answered (released s) (failLine "Could not find table.".toList)) (srv.ended s)
  | conflict {mt : MessageType} {name key : Str} {t : Ptr} (hmt : UsesTable s mt)
      (hname : srv.findTable name = some t) (htx : s.inTransaction = true)
      (hnot : t ∉ s.lockedTables) (hbusy : (srv.tables t).mutex ≠ none) :
      Served i s srv ⟨mt, [name, key]⟩
        (answered (released s) (failLine "Could not gain access to table.".toList)) (srv.ended s)
  | setTx {name key v : Str} {st : List Str} {t : Ptr} (hst : s.stack = v :: st)
      (hname : srv.findTable name = some t) (htx : s.inTransaction = true)
      (hacq : Acquires i s srv t) :
      Served i s srv ⟨.set, [name, key]⟩ (answered { acquired s t with stack := st } okLine)
        (srv.setTable t { (srv.tables t).set key v with mutex := some i })
  | setAuto {name key v : Str} {st : List Str} {t : Ptr} (hst : s.stack = v :: st)
      (hname : srv.findTable name = some t) (htx : s.inTransaction = false)
      (hfree : (srv.tables t).mutex = none) :
      Served i s srv ⟨.set, [name, key]⟩ (answered { s with stack := st } okLine)
        (srv.setTable t ((srv.tables t).set key v).commitChanges)
  | getTx {name key v : Str} {t : Ptr} (hname : srv.findTable name = some t)
      (htx : s.inTransaction = true) (hacq : Acquires i s srv t)
      (hget : (srv.tables t).get key = .ok v) :
      Served i s srv ⟨.get, [name, key]⟩
        (answered { acquired s t with stack := v :: s.stack } okLine) (srv.setMutex t (some i))
  | missTx {name key : Str} {t : Ptr} (hname : srv.findTable name = some t)
      (htx : s.inTransaction = true) (hacq : Acquires i s srv t)
      (hmiss : (srv.tables t).hasKey key = false) :
      Served i s srv ⟨.get, [name, key]⟩
        (answered (released (acquired s t))
          (failLine "Could not find key in specified table.".toList))
        (srv.ended (acquired s t))
  | getAuto {name key v : Str} {t : Ptr} (hname : srv.findTable name = some t)
      (htx : s.inTransaction = false) (hfree : (srv.tables t).mutex = none)
      (hget : (srv.tables t).get key = .ok v) :
      Served i s srv ⟨.get, [name, key]⟩ (answered { s with stack := v :: s.stack } okLine) srv
  | missAuto {name key : Str} {t : Ptr} (hname : srv.findTable name = some t)
      (htx : s.inTransaction = false) (hfree : (srv.tables t).mutex = none)
      (hmiss : (srv.tables t).hasKey key = false) :
      Served i s srv ⟨.get, [name, key]⟩
        (answered s (failLine "Could not find key in specified table.".toList)) srv

/-- `Effect i s srv input s' srv'` — the input leaves client `i` in `s'` instead of `s`, and the
    server in `srv'` instead of `srv`. -/
inductive Effect (i : ι) (s : Session) (srv : Server ι) : Input → Session → Server ι → Prop
  | still {input : Input} {s' : Session} (hp : process input s = .ret s')
      (hl : s'.lockedTables = s.lockedTables) (htx : s'.inTransaction = s.inTransaction)
      (hmsg : ∀ msg, request input = some msg → msg.mMessageType ∉ [.set, .commit, .begin]) :
      Effect i s srv input s' srv
  | givesUp {input : Input} {s₁ : Session} {fin : Session → Session}
      (hp : process input s = giveUp s₁ fin)
      (hl : s₁.lockedTables = s.lockedTables) (htx : s₁.inTransaction = s.inTransaction)
      (hfin : ∀ s, (fin s).lockedTables = s.lockedTables ∧ (fin s).inTransaction = s.inTransaction)
      (hok : ∀ msg, request input = some msg → (fin (released s₁)).replies = [okLine] →
        msg.mMessageType = .bye) :
      Effect i s srv input (fin (released s₁)) (srv.ended s)
  | dies {input : Input} {s₁ : Session} (hp : process input s = abort s₁)
      (hl : s₁.lockedTables = s.lockedTables) (htx : s₁.inTransaction = s.inTransaction)
      (hno : s₁.replies = []) :
      Effect i s srv input s₁ { srv with aborted := true }
  | begin {buf : Str} (hdec : decode buf {} = .ok ⟨.begin, []⟩) (hfirst : s.firstValidMessage = false)
      (htx : s.inTransaction = false) :
      Effect i s srv (.line buf) (answered { ready s with inTransaction := true } okLine) srv
  | served {buf : Str} {msg : Message} {s' : Session} {srv' : Server ι} (hdec : decode buf {} = .ok msg)
      (hfirst : s.firstValidMessage = false) (h : Served i (ready s) srv msg s' srv') :
      Effect i s srv (.line buf) s' srv'

/-- Client `i` may run a request now: the process is there, nobody is in the critical section of
    CREATE, and the client holds what it has locked. -/
structure MayRun (i : ι) (s : Session) (srv : Server ι) : Prop where
  live : srv.aborted = false
  mutex : srv.mutex = none
  isOpen : s.loopInProgress = true
  nodup : s.lockedTables.Nodup
  mine : ∀ t ∈ s.lockedTables, (srv.tables t).mutex = some i
  noTx : s.inTransaction = false → s.lockedTables = []

/-- The table of a request is written or read under the mutex that the request has taken. -/
theorem setTable_of_mutex (srv : Server ι) (t : Ptr) (m : Option ι) (table : Table ι) :
    (srv.setMutex t m).setTable t table = srv.setTable t table := Server.setTable_setTable ..

section Autocommit

variable {ι : Type} {i : ι} {s : Session} {srv : Server ι} {buf name key v : Str} {t : Ptr}
  (hab : srv.aborted = false) (hs : s.loopInProgress = true) (hfirst : s.firstValidMessage = false)
  (hname : srv.findTable name = some t) (htx : s.inTransaction = false)
  (hfree : (srv.tables t).mutex = none)
include hab hs hfirst hname htx hfree

/-- SET outside a transaction, on a free table. -/
theorem exec_setAuto {st : List Str} (hdec : decode buf {} = .ok ⟨.set, [name, key]⟩)
    (hst : s.stack = v :: st) : (process (.line buf) s).exec (serve i) srv
      = some (answered { ready s with stack := st } okLine,
          srv.setTable t ((srv.tables t).set key v).commitChanges) := by
  have htake : (Call.lock t).apply i srv = some ((), srv.setMutex t (some i)) := by
    simp only [Call.apply, hfree]
  rw [process_set hs hfirst hdec hst, setTree, exec_findTree hab, hname]
  simp only [if_neg (show ¬ (ready s).inTransaction = true by rw [ready, htx]; decide)]
  rw [exec_ask hab htake, exec_ask (by exact hab) rfl, exec_ask (by exact hab) rfl,
    exec_ask (by exact hab) rfl]
  simp only [Server.setMutex, Server.setTable_setTable, Server.tables_setTable]
  show some (_, _) = some (_, _)
  congr 3
  show ({ ((srv.tables t).set key v).commitChanges with mutex := none } : Table ι) = _
  rw [← hfree]
  rfl

/-- GET outside a transaction, of a key that is there. -/
theorem exec_getAuto (hdec : decode buf {} = .ok ⟨.get, [name, key]⟩)
    (hget : (srv.tables t).get key = .ok v) : (process (.line buf) s).exec (serve i) srv
      = some (answered { ready s with stack := v :: s.stack } okLine, srv) := by
  have hhas : (srv.tables t).hasKey key = true := Table.get_of_hasKey.mpr ⟨v, hget⟩
  have htake : (Call.lock t).apply i srv = some ((), srv.setMutex t (some i)) := by
    simp only [Call.apply, hfree]
  have hhas' : (Call.hasKey t key).apply i (srv.setMutex t (some i))
      = some (true, srv.setMutex t (some i)) := by
    simp only [Call.apply, Server.tables_setMutex]
    rw [← hhas]
    rfl
  have hget' : (Call.get t key).apply i (srv.setMutex t (some i))
      = some (.ok v, srv.setMutex t (some i)) := by
    simp only [Call.apply, Server.tables_setMutex]
    rw [← hget]
    rfl
  rw [process_get hs hfirst hdec, getTree, exec_findTree hab, hname]
  simp only [if_neg (show ¬ (ready s).inTransaction = true by rw [ready, htx]; decide)]
  rw [exec_ask hab htake, exec_ask (by exact hab) hhas', if_pos rfl, exec_ask (by exact hab) hget']
  show (Prog.call ⟨.unlock t, _⟩ _ : Prog calls Session).exec _ _ = _
  rw [exec_ask (by exact hab) rfl, Server.setMutex_none _ _ hfree]
  rfl

end Autocommit

/-- **The effects happen**: the program of the input does what the effect says. -/
theorem exec_of_served {i : ι} {s s' : Session} {srv srv' : Server ι} {buf : Str} {msg : Message}
    (hrun : MayRun i s srv) (hdec : decode buf {} = .ok msg) (hfirst : s.firstValidMessage = false)
    (h : Served i (ready s) srv msg s' srv') :
    (process (.line buf) s).exec (serve i) srv = some (s', srv') := by
  have hab := hrun.live
  have hs := hrun.isOpen
  have fails : ∀ what, (failWith (ready s) what).exec (serve i) srv
      = some (answered (released (ready s)) (failLine what), srv.ended (ready s)) :=
    fun what => exec_failWith hrun.nodup hab
  have hlock : (Call.serverLock).apply i srv = some ((), { srv with mutex := some i }) := by
    simp only [Call.apply, hrun.mutex]
  have hunlock : ({ srv with mutex := none } : Server ι) = srv := Server.ext rfl rfl rfl hrun.mutex.symm rfl
  cases h with
  | commit htx =>
    have hnodup : (ready s).lockedTables.Nodup := hrun.nodup
    rw [process_commit hs hfirst hdec htx, commitTree, exec_ask hab rfl, Prog.exec_bind,
      exec_releaseAll (Or.inl ⟨rfl, rfl⟩) hnodup hab]
    rfl
  | @created name hname =>
    rw [process_create hs hfirst hdec, createTree, exec_ask hab hlock, exec_ask (by exact hab) rfl,
      show (({ srv with mutex := some i } : Server ι).findTable name) = none from hname,
      if_neg (fun h => h rfl), exec_ask (by exact hab) rfl, exec_ask (by exact hab) rfl]
    have hcreate : { (({ srv with mutex := some i } : Server ι).createTable name) with mutex := none }
        = srv.createTable name := Server.ext rfl rfl rfl hrun.mutex.symm rfl
    rw [hcreate]
    rfl
  | @bound name t hname =>
    rw [process_create hs hfirst hdec, createTree, exec_ask hab hlock, exec_ask (by exact hab) rfl,
      show (({ srv with mutex := some i } : Server ι).findTable name) = some t from hname,
      if_pos (Option.some_ne_none _), exec_ask (by exact hab) rfl]
    rw [show ({ ({ srv with mutex := some i } : Server ι) with mutex := none }) = srv from hunlock]
    exact fails _
  | @unknown mt name key hmt hname =>
    rcases hmt with ⟨rfl, hst⟩ | rfl
    · obtain ⟨v, st, hst⟩ := List.exists_cons_of_ne_nil hst
      rw [process_set hs hfirst hdec hst, setTree, exec_findTree hab, hname]
      exact fails _
    · rw [process_get hs hfirst hdec, getTree, exec_findTree hab, hname]
      exact fails _
  | @conflict mt name key t hmt hname htx hnot hbusy =>
    rcases hmt with ⟨rfl, hst⟩ | rfl
    · obtain ⟨v, st, hst⟩ := List.exists_cons_of_ne_nil hst
      rw [process_set hs hfirst hdec hst, setTree, exec_findTree hab, hname]
      simp only [if_pos htx]
      rw [exec_acquireTree_busy hab hnot hbusy]
      exact fails _
    · rw [process_get hs hfirst hdec, getTree, exec_findTree hab, hname]
      simp only [if_pos htx]
      rw [exec_acquireTree_busy hab hnot hbusy]
      exact fails _
  | @setTx name key v st t hst hname htx hacq =>
    rw [process_set hs hfirst hdec hst, setTree, exec_findTree hab, hname]
    simp only [if_pos htx]
    rw [exec_acquireTree hab hacq, exec_ask (by exact hab) rfl, setTable_of_mutex,
      Server.tables_setMutex]
    rfl
  | @setAuto name key v st t hst hname htx hfree =>
    exact exec_setAuto hab hs hfirst hname htx hfree hdec hst
  | @getTx name key v t hname htx hacq hget =>
    have hhas : (srv.tables t).hasKey key = true := Table.get_of_hasKey.mpr ⟨v, hget⟩
    have hhas' : (Call.hasKey t key).apply i (srv.setMutex t (some i))
        = some (true, srv.setMutex t (some i)) := by
      simp only [Call.apply, Server.tables_setMutex]
      rw [← hhas]
      rfl
    have hget' : (Call.get t key).apply i (srv.setMutex t (some i))
        = some (.ok v, srv.setMutex t (some i)) := by
      simp only [Call.apply, Server.tables_setMutex]
      rw [← hget]
      rfl
    rw [process_get hs hfirst hdec, getTree, exec_findTree hab, hname]
    simp only [if_pos htx]
    rw [exec_acquireTree hab hacq, exec_ask (by exact hab) hhas', if_pos rfl,
      exec_ask (by exact hab) hget']
    rfl
  | @missTx name key t hname htx hacq hmiss =>
    have hhas : (Call.hasKey t key).apply i (srv.setMutex t (some i))
        = some (false, srv.setMutex t (some i)) := by
      simp only [Call.apply, Server.tables_setMutex]
      rw [← hmiss]
      rfl
    have hnodup : (acquired (ready s) t).lockedTables.Nodup := List.Nodup.insert hrun.nodup
    have hfail := @exec_failWith ι i (srv.setMutex t none) (acquired (ready s) t)
      "Could not find key in specified table.".toList hnodup hab
    have htx' : (acquired (ready s) t).inTransaction = true := htx
    have hmem : t ∈ (acquired (ready s) t).lockedTables := List.mem_insert_self
    rw [process_get hs hfirst hdec, getTree, exec_findTree hab, hname]
    simp only [if_pos htx]
    rw [exec_acquireTree hab hacq, exec_ask (by exact hab) hhas, if_neg Bool.false_ne_true,
      exec_ask (by exact hab) rfl, Server.setMutex_setMutex, hfail,
      Server.ended_of_tx _ _ htx', Server.ended_of_tx _ _ htx',
      Server.release_setMutex _ _ _ _ hmem fun _ _ => rfl]
  | @getAuto name key v t hname htx hfree hget =>
    exact exec_getAuto hab hs hfirst hname htx hfree hdec hget
  | @missAuto name key t hname htx hfree hmiss =>
    have htake : (Call.lock t).apply i srv = some ((), srv.setMutex t (some i)) := by
      simp only [Call.apply, hfree]
    have hhas : (Call.hasKey t key).apply i (srv.setMutex t (some i))
        = some (false, srv.setMutex t (some i)) := by
      simp only [Call.apply, Server.tables_setMutex]
      rw [← hmiss]
      rfl
    rw [process_get hs hfirst hdec, getTree, exec_findTree hab, hname]
    simp only [if_neg (show ¬ (ready s).inTransaction = true by rw [htx]; decide)]
    rw [exec_ask hab htake, exec_ask (by exact hab) hhas, if_neg Bool.false_ne_true,
      exec_ask (by exact hab) rfl, exec_ask (by exact hab) rfl, Server.setMutex_setMutex,
      Server.setMutex_setMutex, Server.setMutex_self _ _ hfree, fails, Server.ended_of_not _ _ htx,
      released, if_neg (by rw [htx]; decide)]

/-- **The effects happen**: the program of the input does what the effect says. -/
theorem exec_of_effect {i : ι} {s s' : Session} {srv srv' : Server ι} {input : Input}
    (hrun : MayRun i s srv) (h : Effect i s srv input s' srv') :
    (process input s).exec (serve i) srv = some (s', srv') := by
  have hab := hrun.live
  cases h with
  | still hp => rw [hp]; rfl
  | @givesUp _ s₁ fin hp hl htx =>
    have hnodup : s₁.lockedTables.Nodup := hl ▸ hrun.nodup
    rw [hp, exec_giveUp hnodup hab, Server.ended, Server.ended, htx, hl]
  | dies hp => rw [hp, exec_abort hab]
  | begin hdec hfirst htx => rw [process_begin hrun.isOpen hfirst hdec htx]; rfl
  | served hdec hfirst h => exact exec_of_served hrun hdec hfirst h

/-- A shared request has an effect, or it waits for a table. -/
theorem served_or_waits {i : ι} {s : Session} {srv : Server ι} (hrun : MayRun i s srv)
    {mt : MessageType} (hmt : UsesTable s mt) {name key : Str} :
    (∃ s' srv', Served i s srv ⟨mt, [name, key]⟩ s' srv') ∨
      ∃ t, srv.findTable name = some t ∧ s.inTransaction = false ∧ (srv.tables t).mutex ≠ none := by
  cases hname : srv.findTable name with
  | none => exact .inl ⟨_, _, .unknown hmt hname⟩
  | some t =>
    cases htx : s.inTransaction with
    | false =>
      by_cases hfree : (srv.tables t).mutex = none
      · rcases hmt with ⟨rfl, hst⟩ | rfl
        · obtain ⟨v, st, hst⟩ := List.exists_cons_of_ne_nil hst
          exact .inl ⟨_, _, .setAuto hst hname htx hfree⟩
        · cases hhas : (srv.tables t).hasKey key with
          | false => exact .inl ⟨_, _, .missAuto hname htx hfree hhas⟩
          | true =>
            obtain ⟨v, hget⟩ := Table.get_of_hasKey.mp hhas
            exact .inl ⟨_, _, .getAuto hname htx hfree hget⟩
      · exact .inr ⟨t, rfl, rfl, hfree⟩
    | true =>
      have hmem : Acquires i s srv t ∨ t ∉ s.lockedTables ∧ (srv.tables t).mutex ≠ none := by
        by_cases ht : t ∈ s.lockedTables
        · exact .inl (.inl ⟨ht, hrun.mine t ht⟩)
        · by_cases hfree : (srv.tables t).mutex = none
          · exact .inl (.inr ⟨ht, hfree⟩)
          · exact .inr ⟨ht, hfree⟩
      rcases hmem with hacq | ⟨hnot, hbusy⟩
      · rcases hmt with ⟨rfl, hst⟩ | rfl
        · obtain ⟨v, st, hst⟩ := List.exists_cons_of_ne_nil hst
          exact .inl ⟨_, _, .setTx hst hname htx hacq⟩
        · cases hhas : (srv.tables t).hasKey key with
          | false => exact .inl ⟨_, _, .missTx hname htx hacq hhas⟩
          | true =>
            obtain ⟨v, hget⟩ := Table.get_of_hasKey.mp hhas
            exact .inl ⟨_, _, .getTx hname htx hacq hget⟩
      · exact .inl ⟨_, _, .conflict hmt hname htx hnot hbusy⟩

/-- An input has an effect, or it waits for a table. -/
theorem effect_or_waits {i : ι} {s : Session} {srv : Server ι} (hrun : MayRun i s srv)
    (input : Input) : (∃ s' srv', Effect i s srv input s' srv') ∨
      (process input s).exec (serve i) srv = none := by
  have hready : MayRun i (ready s) srv :=
    ⟨hrun.live, hrun.mutex, hrun.isOpen, hrun.nodup, hrun.mine, hrun.noTx⟩
  have hshape := process_shape hrun.isOpen input
  generalize hp : process input s = p at hshape
  cases hshape with
  | eof => exact .inl ⟨_, _, .givesUp hp rfl rfl (fun _ => ⟨rfl, rfl⟩) nofun⟩
  | empty => exact .inl ⟨_, _, .dies hp rfl rfl rfl⟩
  | undecodable hdec hfit =>
    refine .inl ⟨_, _, .givesUp hp rfl rfl (fun _ => ⟨rfl, rfl⟩) fun msg hmsg => ?_⟩
    rw [request, hdec] at hmsg
    cases hmsg
  | login hdec ht =>
    refine .inl ⟨_, _, .still hp rfl rfl fun msg hmsg => ?_⟩
    rw [request_of_decode hdec, Option.some.injEq] at hmsg
    subst hmsg
    rw [ht]
    decide
  | premature hdec ht hfirst =>
    refine .inl ⟨_, _, .givesUp hp rfl rfl (fun _ => ⟨rfl, rfl⟩) fun msg hmsg hok => ?_⟩
    rw [show id (released _) = released _ from rfl, replies_released] at hok
    exact absurd (List.singleton_injective hok) (errLine_ne_okLine _)
  | @request buf msg p hdec ht hfirst hresp =>
    have hreq : ∀ {msg'}, request (.line buf) = some msg' → msg' = msg := fun h => by
      rw [request_of_decode hdec, Option.some.injEq] at h
      exact h.symm
    cases hresp with
    | @computes _ st' line h =>
      refine .inl ⟨_, _, .still hp rfl rfl fun msg' hmsg => ?_⟩
      rw [hreq hmsg]
      exact h.notShared
    | @refuses _ st' what h =>
      refine .inl ⟨_, _, .givesUp hp rfl rfl (fun _ => ⟨rfl, rfl⟩) fun msg' hmsg hok => ?_⟩
      rw [replies_over rfl] at hok
      exact absurd (List.singleton_injective hok) (okLine_ne _).symm
    | @kills _ st' h => exact .inl ⟨_, _, .dies hp rfl rfl rfl⟩
    | overlong hst h =>
      refine .inl ⟨_, _, .givesUp hp rfl rfl (fun _ => ⟨rfl, rfl⟩) fun msg' hmsg hok => ?_⟩
      rw [replies_over rfl] at hok
      exact absurd (List.singleton_injective hok) (errLine_ne_okLine _)
    | begin htx => exact .inl ⟨_, _, .begin hdec hfirst htx⟩
    | commit htx => exact .inl ⟨_, _, .served hdec hfirst (.commit htx)⟩
    | bye =>
      refine .inl ⟨_, _, .givesUp hp rfl rfl (fun _ => ⟨rfl, rfl⟩) fun msg' hmsg _ => ?_⟩
      rw [hreq hmsg]
    | @create name =>
      cases hname : srv.findTable name with
      | none => exact .inl ⟨_, _, .served hdec hfirst (.created hname)⟩
      | some t => exact .inl ⟨_, _, .served hdec hfirst (.bound hname)⟩
    | @set name key v st hst =>
      rcases served_or_waits hready (.inl ⟨rfl, by rw [hst]; exact nofun⟩) with
        ⟨s', srv', h⟩ | ⟨t, hname, htx, hbusy⟩
      · exact .inl ⟨s', srv', .served hdec hfirst h⟩
      · refine .inr ?_
        rw [setTree, exec_findTree hrun.live, hname]
        simp only [if_neg (show ¬ (ready s).inTransaction = true by rw [htx]; decide)]
        exact exec_lock_busy hbusy
    | @get name key =>
      rcases served_or_waits hready (.inr rfl) with ⟨s', srv', h⟩ | ⟨t, hname, htx, hbusy⟩
      · exact .inl ⟨s', srv', .served hdec hfirst h⟩
      · refine .inr ?_
        rw [getTree, exec_findTree hrun.live, hname]
        simp only [if_neg (show ¬ (ready s).inTransaction = true by rw [htx]; decide)]
        exact exec_lock_busy hbusy

/-- **Nothing else happens**: whatever the program of an input does is one of the effects. -/
theorem effect_of_exec {i : ι} {s s' : Session} {srv srv' : Server ι} {input : Input}
    (hrun : MayRun i s srv) (he : (process input s).exec (serve i) srv = some (s', srv')) :
    Effect i s srv input s' srv' := by
  rcases effect_or_waits hrun input with ⟨s₁, srv₁, h⟩ | hstuck
  · have heq := (exec_of_effect hrun h).symm.trans he
    obtain ⟨rfl, rfl⟩ := Prod.mk.inj (Option.some.inj heq)
    exact h
  · rw [hstuck] at he
    cases he

end Effects

end BasicServer
