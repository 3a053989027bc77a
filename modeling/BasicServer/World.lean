/-
  The server between requests: whole requests as atomic steps.

  A `World` is the shared state and every session, at rest.  `World.request` hands an input to one
  client and carries it out back to back; it has no result while the client waits for the mutex of a
  table, after the client's last input, and after the end of the process.  A `Run` keeps the history
  of what was done, the newest `Event` first.

  1. `Mark` — what an event counts as, by its request and its answer: the BEGINs, COMMITs and SETs
     that were answered OK, and all others.
  2. `Deed` — the effects of `Requests`, grouped by what they do to the tables.
  3. `WellLocked` — who holds which table: an invariant of every run.
  4. `OneName` — no table has two names: another one.
-/
import BasicServer.Requests

namespace BasicServer

open Function (update)

/-! ## Events and runs -/

/-- The server and its clients, nobody in the middle of a request. -/
structure World (ι : Type) where
  server : Server ι := {}
  sessions : ι → Session := fun _ => {}

/-- One request: who made it, the server and the session before, and the session after. -/
structure Event (ι : Type) where
  who : ι
  input : Input
  server : Server ι
  before : Session
  after : Session

section Runs

variable {ι : Type} [DecidableEq ι]

/-- Client `i` takes an input and carries it out. -/
def World.request (w : World ι) (i : ι) (input : Input) : Option (Event ι × World ι) :=
  if (w.sessions i).loopInProgress ∧ w.server.aborted = false then
    ((process input (w.sessions i)).exec (serve i) w.server).map fun r =>
      (⟨i, input, w.server, w.sessions i, r.1⟩, ⟨r.2, update w.sessions i r.1⟩)
  else none

/-- `Run w₀ h w` — the requests of `h`, of which the head is the last, lead from `w₀` to `w`. -/
inductive Run (w₀ : World ι) : List (Event ι) → World ι → Prop
  | nil : Run w₀ [] w₀
  | snoc {h : List (Event ι)} {w w' : World ι} {i : ι} {input : Input} {e : Event ι}
      (hrun : Run w₀ h w) (hstep : w.request i input = some (e, w')) : Run w₀ (e :: h) w'

/-- Hand out inputs one after the other. -/
def World.perform (w : World ι) : List (ι × Input) → Option (List (Event ι) × World ι)
  | [] => some ([], w)
  | (i, input) :: rest =>
    match w.perform rest with
    | none => none
    | some (h, w) => (w.request i input).map fun r => (r.1 :: h, r.2)

theorem Run.of_perform {w₀ w : World ι} {todo : List (ι × Input)} {h : List (Event ι)}
    (hp : w₀.perform todo = some (h, w)) : Run w₀ h w := by
  induction todo generalizing h w with
  | nil =>
    obtain ⟨rfl, rfl⟩ := Prod.mk.inj (Option.some.inj hp)
    exact .nil
  | cons a todo ih =>
    obtain ⟨i, input⟩ := a
    rw [World.perform] at hp
    cases hrest : w₀.perform todo with
    | none => rw [hrest] at hp; cases hp
    | some r =>
      rw [hrest] at hp
      obtain ⟨⟨e, w'⟩, hreq, heq⟩ := Option.map_eq_some_iff.mp hp
      obtain ⟨rfl, rfl⟩ := Prod.mk.inj heq
      exact .snoc (ih hrest) hreq

/-- Handing out inputs shows that what they lead to is reachable. -/
theorem Run.of_any {w₀ : World ι} {todo : List (ι × Input)} {p : List (Event ι) × World ι → Bool}
    (hp : (w₀.perform todo).any p = true) : ∃ h w, Run w₀ h w ∧ p (h, w) = true := by
  obtain ⟨⟨h, w⟩, hperform, hval⟩ := (Option.any_eq_true _ _).mp hp
  exact ⟨h, w, .of_perform hperform, hval⟩

/-- What a request needs, and what is recorded of it. -/
theorem World.request_inv {w w' : World ι} {i : ι} {input : Input} {e : Event ι}
    (h : w.request i input = some (e, w')) :
    (w.sessions i).loopInProgress = true ∧ w.server.aborted = false ∧
      e = ⟨i, input, w.server, w.sessions i, w'.sessions i⟩ ∧
      w'.sessions = update w.sessions i (w'.sessions i) ∧
      (process input (w.sessions i)).exec (serve i) w.server
        = some (w'.sessions i, w'.server) := by
  unfold World.request at h
  split at h
  · rename_i hguard
    obtain ⟨⟨s', srv'⟩, he, heq⟩ := Option.map_eq_some_iff.mp h
    obtain ⟨rfl, rfl⟩ := Prod.mk.inj heq
    refine ⟨hguard.1, hguard.2, ?_, ?_, ?_⟩
    · simp only [Function.update_self]
    · simp only [Function.update_self]
    · simp only [Function.update_self]
      exact he
  · cases h

end Runs

/-! ## What an event counts as -/

/-- The requests answered OK that matter for the committed entries. -/
inductive Mark where
  | begin
  | commit
  | set (name key value : Str)
  | other
  deriving DecidableEq

/-- The mark of an input that takes a session from `s` to `s'`. -/
def mark (input : Input) (s s' : Session) : Mark :=
  if s'.replies = [okLine] then
    match request input, s.stack with
    | some ⟨.begin, _⟩, _ => .begin
    | some ⟨.commit, _⟩, _ => .commit
    | some ⟨.set, [name, key]⟩, v :: _ => .set name key v
    | _, _ => .other
  else .other

section Marks

variable {input : Input} {s s' : Session}

theorem mark_not_ok (h : s'.replies ≠ [okLine]) : mark input s s' = .other := if_neg h

theorem mark_not_shared
    (h : ∀ msg, request input = some msg → msg.mMessageType ∉ [.set, .commit, .begin]) :
    mark input s s' = .other := by
  unfold mark
  split
  · split
    · rename_i hreq; exact absurd (h _ hreq) (by simp)
    · rename_i hreq; exact absurd (h _ hreq) (by simp)
    · rename_i hreq _; exact absurd (h _ hreq) (by simp)
    · rfl
  · rfl

theorem mark_begin {buf : Str} {args : List Str} (hdec : decode buf {} = .ok ⟨.begin, args⟩)
    (hok : s'.replies = [okLine]) : mark (.line buf) s s' = .begin := by
  rw [mark, if_pos hok, request_of_decode hdec]

theorem mark_commit {buf : Str} {args : List Str} (hdec : decode buf {} = .ok ⟨.commit, args⟩)
    (hok : s'.replies = [okLine]) : mark (.line buf) s s' = .commit := by
  rw [mark, if_pos hok, request_of_decode hdec]

/-- What a COMMIT answered OK was. -/
theorem mark_commit_inv (h : mark input s s' = .commit) :
    s'.replies = [okLine] ∧ ∃ args, request input = some ⟨.commit, args⟩ := by
  unfold mark at h
  split at h
  · rename_i hok
    split at h
    · cases h
    · exact ⟨hok, _, ‹_›⟩
    · cases h
    · cases h
  · cases h

theorem mark_set {buf name key v : Str} {st : List Str}
    (hdec : decode buf {} = .ok ⟨.set, [name, key]⟩) (hst : s.stack = v :: st)
    (hok : s'.replies = [okLine]) : mark (.line buf) s s' = .set name key v := by
  rw [mark, if_pos hok, request_of_decode hdec, hst]

end Marks

/-! ## What a request does to the tables -/

section Deeds

variable {ι : Type}

/-- `Deed i s srv input s' srv'` — the effect of an input, by what it does to the tables and to the
    transaction of client `i`. -/
inductive Deed (i : ι) (s : Session) (srv : Server ι) (input : Input) (s' : Session) :
    Server ι → Prop
  | quiet (hmark : mark input s s' = .other) (hl : s'.lockedTables = s.lockedTables)
      (htx : s'.inTransaction = s.inTransaction) : Deed i s srv input s' srv
  | dies (hmark : mark input s s' = .other) (hl : s'.lockedTables = s.lockedTables)
      (htx : s'.inTransaction = s.inTransaction) :
      Deed i s srv input s' { srv with aborted := true }
  | begins (hmark : mark input s s' = .begin) (hl : s'.lockedTables = s.lockedTables)
      (hout : s.inTransaction = false) (hin : s'.inTransaction = true) : Deed i s srv input s' srv
  | creates {name : Str} (hmark : mark input s s' = .other)
      (hreq : request input = some ⟨.create, [name]⟩) (hl : s'.lockedTables = s.lockedTables)
      (htx : s'.inTransaction = s.inTransaction) (hnew : srv.findTable name = none) :
      Deed i s srv input s' (srv.createTable name)
  | stores {name key v : Str} {t : Ptr} (hmark : mark input s s' = .set name key v)
      (hpop : s.stack = v :: s'.stack) (hname : srv.findTable name = some t)
      (hout : s.inTransaction = false) (hfree : (srv.tables t).mutex = none)
      (hl : s'.lockedTables = s.lockedTables) (htx : s'.inTransaction = s.inTransaction) :
      Deed i s srv input s' (srv.setTable t ((srv.tables t).set key v).commitChanges)
  | takes {name : Str} {t : Ptr} (hmark : mark input s s' = .other)
      (hname : srv.findTable name = some t) (hin : s.inTransaction = true) (hacq : Acquires i s srv t)
      (hl : s'.lockedTables = s.lockedTables.insert t)
      (htx : s'.inTransaction = s.inTransaction) : Deed i s srv input s' (srv.setMutex t (some i))
  | puts {name key v : Str} {t : Ptr} (hmark : mark input s s' = .set name key v)
      (hpop : s.stack = v :: s'.stack) (hname : srv.findTable name = some t)
      (hin : s.inTransaction = true) (hacq : Acquires i s srv t)
      (hl : s'.lockedTables = s.lockedTables.insert t)
      (htx : s'.inTransaction = s.inTransaction) :
      Deed i s srv input s' (srv.setTable t { (srv.tables t).set key v with mutex := some i })
  | commits (hmark : mark input s s' = .commit) (hin : s.inTransaction = true)
      (hl : s'.lockedTables = []) (hout : s'.inTransaction = false) :
      Deed i s srv input s' (srv.release Table.commitChanges s.lockedTables)
  | drops {ts : List Ptr} (hmark : mark input s s' = .other) (hin : s.inTransaction = true)
      (hl : s'.lockedTables = []) (hout : s'.inTransaction = false)
      -- a GET that misses its key may have taken one more table
      (hsub : ∀ t ∈ s.lockedTables, t ∈ ts)
      (hts : ∀ t ∈ ts, t ∈ s.lockedTables ∨ (srv.tables t).mutex = none) :
      Deed i s srv input s' (srv.release Table.rollbackChanges ts)

variable {i : ι} {s s' s₁ : Session} {srv srv' : Server ι} {input : Input}

/-- Ending the transaction is a rollback inside one, and nothing outside. -/
theorem Deed.ended (hmark : mark input s s' = .other) (hl : s₁.lockedTables = s.lockedTables)
    (htx : s₁.inTransaction = s.inTransaction)
    (hl' : s'.lockedTables = (released s₁).lockedTables)
    (htx' : s'.inTransaction = (released s₁).inTransaction) :
    Deed i s srv input s' (srv.ended s) := by
  cases h : s.inTransaction with
  | false =>
    have hs₁ : released s₁ = s₁ := if_neg (by rw [htx, h]; decide)
    rw [hs₁] at hl' htx'
    rw [Server.ended_of_not _ _ h]
    exact .quiet hmark (hl'.trans hl) (htx'.trans htx)
  | true =>
    have hs₁ : released s₁ = dropped s₁ := if_pos (htx.trans h)
    rw [hs₁] at hl' htx'
    rw [Server.ended_of_tx _ _ h]
    exact .drops hmark h hl' htx' (fun _ ht => ht) (fun _ ht => .inl ht)

/-- **Every effect is a deed.** -/
theorem deed_of_effect (h : Effect i s srv input s' srv') : Deed i s srv input s' srv' := by
  cases h with
  | still hp hl htx hmsg => exact .quiet (mark_not_shared hmsg) hl htx
  | @givesUp _ s₁ fin hp hl htx hfin hok =>
    refine .ended ?_ hl htx (hfin _).1 (hfin _).2
    by_cases hans : (fin (released s₁)).replies = [okLine]
    · exact mark_not_shared fun msg hmsg => by rw [hok msg hmsg hans]; decide
    · exact mark_not_ok hans
  | dies hp hl htx hno => exact .dies (mark_not_ok (by rw [hno]; exact nofun)) hl htx
  | begin hdec hfirst htx => exact .begins (mark_begin hdec rfl) rfl htx rfl
  | @served buf msg s' srv' hdec hfirst h =>
    have failed : ∀ {s₁ : Session} {what : Str}, s₁.replies = [] →
        mark (.line buf) s (answered (released s₁) (failLine what)) = .other := fun hno => by
      refine mark_not_ok fun hok => ?_
      rw [replies_over hno] at hok
      exact okLine_ne _ (List.singleton_injective hok).symm
    have other : ∀ {s' : Session}, msg.mMessageType ∉ [.set, .commit, .begin] →
        mark (.line buf) s s' = .other := fun ht => mark_not_shared fun msg' hmsg => by
      rw [request_of_decode hdec, Option.some.injEq] at hmsg
      exact hmsg ▸ ht
    cases h with
    | commit htx => exact .commits (mark_commit hdec rfl) htx rfl rfl
    | created hname => exact .creates (other (by simp)) (request_of_decode hdec) rfl rfl hname
    | bound hname => exact @Deed.ended _ _ _ _ (ready s) _ _ (other (by simp)) rfl rfl rfl rfl
    | unknown hmt hname => exact @Deed.ended _ _ _ _ (ready s) _ _ (failed rfl) rfl rfl rfl rfl
    | conflict hmt hname htx hnot hbusy =>
      exact @Deed.ended _ _ _ _ (ready s) _ _ (failed rfl) rfl rfl rfl rfl
    | setTx hst hname htx hacq => exact .puts (mark_set hdec hst rfl) hst hname htx hacq rfl rfl
    | setAuto hst hname htx hfree =>
      exact .stores (mark_set hdec hst rfl) hst hname htx hfree rfl rfl
    | getTx hname htx hacq hget => exact .takes (other (by simp)) hname htx hacq rfl rfl
    | @missTx name key t hname htx hacq hmiss =>
      have hend : released (acquired (ready s) t) = dropped (acquired (ready s) t) := if_pos htx
      have htx' : (acquired (ready s) t).inTransaction = true := htx
      rw [Server.ended_of_tx _ _ htx', hend]
      refine .drops (other (by simp)) htx rfl rfl (fun t' ht' => ?_) fun t' ht' => ?_
      · exact List.mem_insert_of_mem ht'
      · rcases List.mem_insert_iff.mp ht' with rfl | ht'
        · rcases hacq with ⟨hmem, -⟩ | ⟨-, hfree⟩
          · exact .inl hmem
          · exact .inr hfree
        · exact .inl ht'
    | getAuto hname htx hfree hget => exact .quiet (other (by simp)) rfl rfl
    | missAuto hname htx hfree hmiss => exact .quiet (other (by simp)) rfl rfl

/-- A SET answered OK pops the value it stores. -/
theorem Deed.popped (h : Deed i s srv input s' srv') {name key v : Str}
    (hm : mark input s s' = .set name key v) : s.stack = v :: s'.stack := by
  cases h with
  | stores hmark hpop | puts hmark hpop =>
    obtain ⟨-, -, rfl⟩ := Mark.set.inj (hm.symm.trans hmark)
    exact hpop
  | _ hmark => rw [hm] at hmark; cases hmark

end Deeds

/-! ## Who holds which table -/

section Locks

variable {ι : Type}

/-- Between requests: the server's mutex is free, the tables of a client are the ones whose mutex it
    holds, and outside a transaction it has none.  Names lead to tables that were allocated. -/
structure WellLocked (w : World ι) : Prop where
  mutex : w.server.mutex = none
  held : ∀ t i, (w.server.tables t).mutex = some i ↔ t ∈ (w.sessions i).lockedTables
  nodup : ∀ i, (w.sessions i).lockedTables.Nodup
  noTx : ∀ i, (w.sessions i).inTransaction = false → (w.sessions i).lockedTables = []
  fresh : ∀ t, w.server.next ≤ t → (w.server.tables t).mutex = none
  names : ∀ name t, w.server.findTable name = some t → t < w.server.next

theorem wellLocked_start : WellLocked ({} : World ι) where
  mutex := rfl
  held _ _ := ⟨nofun, nofun⟩
  nodup _ := List.nodup_nil
  noTx _ _ := rfl
  fresh _ _ := rfl
  names _ _ h := nomatch h

/-- What a request of client `i` does to the mutexes. -/
inductive Relock (i : ι) (s : Session) (srv : Server ι) (s' : Session) (srv' : Server ι) : Prop
  | same (hl : s'.lockedTables = s.lockedTables)
      (hm : ∀ t, (srv'.tables t).mutex = (srv.tables t).mutex)
  | freed (hl : s'.lockedTables = [])
      (hm : ∀ t, (srv'.tables t).mutex = if t ∈ s.lockedTables then none else (srv.tables t).mutex)
  | taken {t : Ptr} (hacq : Acquires i s srv t) (hlt : t < srv.next)
      (hl : s'.lockedTables = s.lockedTables.insert t)
      (hm : ∀ t', (srv'.tables t').mutex = if t' = t then some i else (srv.tables t').mutex)

variable {i : ι} {s s' : Session} {srv srv' : Server ι} {input : Input} {w : World ι}

theorem Deed.relock (hfresh : (srv.tables srv.next).mutex = none)
    (hnames : ∀ name t, srv.findTable name = some t → t < srv.next)
    (h : Deed i s srv input s' srv') : Relock i s srv s' srv' := by
  have one : ∀ {t t' : Ptr} {table : Table ι}, ((srv.setTable t table).tables t').mutex
      = if t' = t then table.mutex else (srv.tables t').mutex := by
    intro t t' table
    by_cases ht : t' = t
    · rw [if_pos ht, ht, Server.tables_setTable]
    · rw [if_neg ht, Server.tables_setTable_ne _ _ _ ht]
  cases h with
  | quiet hmark hl => exact .same hl fun _ => rfl
  | dies hmark hl => exact .same hl fun _ => rfl
  | begins hmark hl => exact .same hl fun _ => rfl
  | creates hmark hreq hl =>
    refine .same hl fun t => ?_
    by_cases ht : t = srv.next
    · subst ht
      rw [hfresh, Server.tables_createTable]
    · rw [Server.tables_createTable_ne _ _ _ ht]
  | @stores name key v t hmark hpop hname hout hfree hl =>
    refine .same hl fun t' => ?_
    rw [one]
    by_cases ht : t' = t
    · rw [if_pos ht, ht]; rfl
    · rw [if_neg ht]
  | takes hmark hname hin hacq hl => exact .taken hacq (hnames _ _ hname) hl fun t' => one
  | puts hmark hpop hname hin hacq hl => exact .taken hacq (hnames _ _ hname) hl fun t' => one
  | commits hmark hin hl =>
    refine .freed hl fun t => ?_
    by_cases ht : t ∈ s.lockedTables
    · rw [if_pos ht, Server.tables_release_mem _ _ _ _ ht]
    · rw [if_neg ht, Server.tables_release_not _ _ _ _ ht]
  | @drops ts hmark hin hl hout hsub hts =>
    refine .freed hl fun t => ?_
    by_cases ht : t ∈ s.lockedTables
    · rw [if_pos ht, Server.tables_release_mem _ _ _ _ (hsub t ht)]
    · rw [if_neg ht]
      by_cases hmem : t ∈ ts
      · rw [Server.tables_release_mem _ _ _ _ hmem]
        exact ((hts t hmem).resolve_left ht).symm
      · rw [Server.tables_release_not _ _ _ _ hmem]

theorem Deed.mutex_eq (h : Deed i s srv input s' srv') : srv'.mutex = srv.mutex := by
  cases h <;> rfl

/-- Only CREATE allocates a table and binds a name. -/
theorem Deed.names (h : Deed i s srv input s' srv') :
    (srv'.next = srv.next ∧ srv'.tableNames = srv.tableNames) ∨
      ∃ name, request input = some ⟨.create, [name]⟩ ∧ srv' = srv.createTable name := by
  cases h with
  | creates hmark hreq => exact .inr ⟨_, hreq, rfl⟩
  | _ => exact .inl ⟨rfl, rfl⟩

/-- A name stays with its table. -/
theorem Deed.findTable (h : Deed i s srv input s' srv') {name : Str} {t : Ptr}
    (hname : srv.findTable name = some t) : srv'.findTable name = some t := by
  cases h with
  | @creates new _ _ _ _ hnew =>
    have hne : name ≠ new := by
      rintro rfl
      rw [hnew] at hname
      cases hname
    rw [Server.findTable_createTable_ne _ hne]
    exact hname
  | _ => exact hname

theorem Deed.noTx (hnoTx : s.inTransaction = false → s.lockedTables = [])
    (h : Deed i s srv input s' srv') : s'.inTransaction = false → s'.lockedTables = [] := by
  intro hout
  cases h with
  | commits _ _ hl | drops _ _ hl => exact hl
  | begins _ _ _ hin => rw [hin] at hout; cases hout
  | takes _ _ hin _ _ htx | puts _ _ _ hin _ _ htx => rw [htx, hin] at hout; cases hout
  | quiet _ hl htx | dies _ hl htx | creates _ _ hl htx | stores _ _ _ _ _ hl htx =>
    exact hl.trans (hnoTx (htx.symm.trans hout))

/-- No table has two names. -/
def OneName (w : World ι) : Prop :=
  ∀ name name' t, w.server.findTable name = some t → w.server.findTable name' = some t → name = name'

theorem oneName_start : OneName ({} : World ι) := by
  intro name name' t hname
  cases hname

/-- The step lemma of the names: a new table has a new address. -/
theorem OneName.deed (h : OneName w) (hw : WellLocked w) (hd : Deed i s w.server input s' srv')
    {w' : World ι} (hserver : w'.server = srv') : OneName w' := by
  subst hserver
  intro name name' t hname hname'
  rcases hd.names with ⟨-, hnames⟩ | ⟨new, -, hsrv⟩
  · rw [Server.findTable, hnames] at hname hname'
    exact h name name' t hname hname'
  · have hold : ∀ {n}, n ≠ new → w'.server.findTable n = some t →
        w.server.findTable n = some t ∧ t ≠ w.server.next := by
      intro n hn hfind
      rw [hsrv, Server.findTable_createTable_ne _ hn] at hfind
      exact ⟨hfind, Nat.ne_of_lt (hw.names n t hfind)⟩
    have hnew : w'.server.findTable new = some w.server.next := by
      rw [hsrv]
      exact Server.findTable_createTable ..
    by_cases hn : name = new
    · by_cases hn' : name' = new
      · rw [hn, hn']
      · rw [hn, hnew] at hname
        exact absurd (Option.some.inj hname).symm (hold hn' hname').2
    · by_cases hn' : name' = new
      · rw [hn', hnew] at hname'
        exact absurd (Option.some.inj hname').symm (hold hn hname).2
      · exact h name name' t (hold hn hname).1 (hold hn' hname').1

/-- A client that takes an input may run. -/
theorem WellLocked.mayRun (hw : WellLocked w) (hopen : (w.sessions i).loopInProgress = true)
    (hlive : w.server.aborted = false) : MayRun i (w.sessions i) w.server :=
  ⟨hlive, hw.mutex, hopen, hw.nodup i, fun t => (hw.held t i).mpr, hw.noTx i⟩

/-- The tables of another client are not free, and not the client's own. -/
theorem WellLocked.not_acquires (hw : WellLocked w) {j : ι} {t : Ptr} (hij : j ≠ i)
    (ht : t ∈ (w.sessions j).lockedTables) : ¬ Acquires i (w.sessions i) w.server t := by
  have hj := (hw.held t j).mpr ht
  rintro (⟨-, hi⟩ | ⟨-, hfree⟩)
  · exact hij (Option.some.inj (hj.symm.trans hi))
  · rw [hj] at hfree; cases hfree

/-- While no transaction is open, every table is free. -/
theorem WellLocked.free (hw : WellLocked w) (hidle : ∀ i, (w.sessions i).inTransaction = false)
    (t : Ptr) : (w.server.tables t).mutex = none := by
  cases hm : (w.server.tables t).mutex with
  | none => rfl
  | some j =>
    have hmem := (hw.held t j).mp hm
    rw [hw.noTx j (hidle j)] at hmem
    cases hmem

/-- **A request leaves alone what others hold.** -/
theorem WellLocked.frame (hw : WellLocked w) (h : Deed i (w.sessions i) w.server input s' srv')
    {j : ι} {t : Ptr} (hij : j ≠ i) (ht : t ∈ (w.sessions j).lockedTables) :
    srv'.tables t = w.server.tables t := by
  have hj : (w.server.tables t).mutex = some j := (hw.held t j).mpr ht
  have hnot : t ∉ (w.sessions i).lockedTables := fun hi =>
    hij (Option.some.inj (hj.symm.trans ((hw.held t i).mpr hi)))
  have hbusy : (w.server.tables t).mutex ≠ none := by rw [hj]; exact nofun
  cases h with
  | quiet | dies | begins => rfl
  | creates =>
    refine Server.tables_createTable_ne _ _ _ ?_
    rintro rfl
    exact hbusy (hw.fresh _ le_rfl)
  | stores _ _ _ _ hfree =>
    refine Server.tables_setTable_ne _ _ _ ?_
    rintro rfl
    exact hbusy hfree
  | takes _ _ _ hacq | puts _ _ _ _ hacq =>
    refine Server.tables_setTable_ne _ _ _ ?_
    rintro rfl
    exact hw.not_acquires hij ht hacq
  | commits => exact Server.tables_release_not _ _ _ _ hnot
  | drops _ _ _ _ _ hts =>
    refine Server.tables_release_not _ _ _ _ fun hmem => ?_
    exact (hts t hmem).elim hnot hbusy

/-- Tables that nobody holds have nothing pending, before a request and after it. -/
theorem Deed.clean (hclean : ∀ t, (srv.tables t).mutex = none → (srv.tables t).Clean)
    (h : Deed i s srv input s' srv') (t : Ptr) (hfree : (srv'.tables t).mutex = none) :
    (srv'.tables t).Clean := by
  cases h with
  | quiet | dies | begins => exact hclean t hfree
  | creates =>
    by_cases ht : t = srv.next
    · rw [ht, Server.tables_createTable]
      exact Table.clean_empty
    · rw [Server.tables_createTable_ne _ _ _ ht] at hfree ⊢
      exact hclean t hfree
  | @stores _ key v t₀ =>
    by_cases ht : t = t₀
    · rw [ht, Server.tables_setTable]
      exact Table.clean_commitChanges _
    · rw [Server.tables_setTable_ne _ _ _ ht] at hfree ⊢
      exact hclean t hfree
  | @takes _ t₀ =>
    by_cases ht : t = t₀
    · rw [ht, Server.tables_setMutex] at hfree; cases hfree
    · rw [Server.tables_setMutex_ne _ _ _ ht] at hfree ⊢
      exact hclean t hfree
  | @puts _ _ _ t₀ =>
    by_cases ht : t = t₀
    · rw [ht, Server.tables_setTable] at hfree; cases hfree
    · rw [Server.tables_setTable_ne _ _ _ ht] at hfree ⊢
      exact hclean t hfree
  | commits =>
    by_cases ht : t ∈ s.lockedTables
    · rw [Server.tables_release_mem _ _ _ _ ht]
      exact (Table.clean_commitChanges (srv.tables t)).withMutex none
    · rw [Server.tables_release_not _ _ _ _ ht] at hfree ⊢
      exact hclean t hfree
  | @drops ts =>
    by_cases ht : t ∈ ts
    · rw [Server.tables_release_mem _ _ _ _ ht]
      exact (Table.clean_rollbackChanges (srv.tables t)).withMutex none
    · rw [Server.tables_release_not _ _ _ _ ht] at hfree ⊢
      exact hclean t hfree

variable [DecidableEq ι]

theorem WellLocked.step_held (hw : WellLocked w)
    (h : Relock i (w.sessions i) w.server s' srv') (t : Ptr) (j : ι) :
    (srv'.tables t).mutex = some j ↔ t ∈ (update w.sessions i s' j).lockedTables := by
  by_cases hj : j = i
  · subst hj
    rw [Function.update_self]
    cases h with
    | same hl hm => rw [hm, hl]; exact hw.held t j
    | freed hl hm =>
      rw [hm, hl]
      split
      · exact ⟨nofun, nofun⟩
      · rename_i ht; exact ⟨fun h => absurd ((hw.held t j).mp h) ht, nofun⟩
    | @taken t₀ hacq hlt hl hm =>
      rw [hm, hl, List.mem_insert_iff]
      by_cases ht : t = t₀
      · rw [if_pos ht]; exact ⟨fun _ => .inl ht, fun _ => rfl⟩
      · rw [if_neg ht, hw.held t j]; exact ⟨.inr, fun h => h.resolve_left ht⟩
  · rw [Function.update_of_ne hj]
    cases h with
    | same hl hm => rw [hm]; exact hw.held t j
    | freed hl hm =>
      rw [hm]
      split
      · rename_i ht
        refine ⟨nofun, fun htj => ?_⟩
        have hheld := (hw.held t j).mpr htj
        rw [(hw.held t i).mpr ht] at hheld
        exact absurd (Option.some.inj hheld).symm hj
      · exact hw.held t j
    | @taken t₀ hacq hlt hl hm =>
      rw [hm]
      by_cases ht : t = t₀
      · subst ht
        rw [if_pos rfl]
        exact ⟨fun h => absurd (Option.some.inj h).symm hj,
          fun htj => absurd hacq (hw.not_acquires hj htj)⟩
      · rw [if_neg ht]; exact hw.held t j

/-- The step lemma of the locks. -/
theorem WellLocked.deed (hw : WellLocked w) (h : Deed i (w.sessions i) w.server input s' srv') :
    WellLocked (⟨srv', update w.sessions i s'⟩ : World ι) := by
  have hrelock := h.relock (hw.fresh _ le_rfl) hw.names
  have hown : ∀ (P : Session → Prop), P s' → (∀ j, j ≠ i → P (w.sessions j)) →
      ∀ j, P (update w.sessions i s' j) := by
    intro P hs' hother j
    by_cases hj : j = i
    · rw [hj, Function.update_self]; exact hs'
    · rw [Function.update_of_ne hj]; exact hother j hj
  refine ⟨h.mutex_eq.trans hw.mutex, hw.step_held hrelock, ?_, ?_, ?_, ?_⟩
  · refine hown (·.lockedTables.Nodup) ?_ fun j _ => hw.nodup j
    cases hrelock with
    | same hl => rw [hl]; exact hw.nodup i
    | freed hl => rw [hl]; exact List.nodup_nil
    | taken _ _ hl => rw [hl]; exact (hw.nodup i).insert
  · exact hown (fun s => s.inTransaction = false → s.lockedTables = []) (h.noTx (hw.noTx i))
      fun j _ => hw.noTx j
  · intro t ht
    have hnext : w.server.next ≤ t := by
      rcases h.names with ⟨hnext, -⟩ | ⟨name, -, rfl⟩
      · exact hnext ▸ ht
      · exact Nat.le_of_succ_le ht
    cases hrelock with
    | same _ hm => rw [hm]; exact hw.fresh t hnext
    | freed _ hm =>
      rw [hm]
      split
      · rfl
      · exact hw.fresh t hnext
    | @taken t₀ hacq hlt hl hm =>
      rw [hm, if_neg (by rintro rfl; exact absurd hlt (Nat.not_lt.mpr hnext))]
      exact hw.fresh t hnext
  · intro name t hname
    rcases h.names with ⟨hnext, htables⟩ | ⟨name', -, rfl⟩
    · show t < srv'.next
      rw [hnext]
      exact hw.names name t (by rw [Server.findTable, ← htables]; exact hname)
    · show t < w.server.next + 1
      by_cases hn : name = name'
      · subst hn
        rw [Server.findTable_createTable] at hname
        obtain rfl := Option.some.inj hname
        exact Nat.lt_succ_self _
      · rw [Server.findTable_createTable_ne _ hn] at hname
        exact Nat.lt_succ_of_lt (hw.names name t hname)

/-- **A request is a deed of its client.** -/
theorem WellLocked.request {w' : World ι} {e : Event ι} (hw : WellLocked w)
    (h : w.request i input = some (e, w')) :
    Deed i (w.sessions i) w.server input (w'.sessions i) w'.server := by
  obtain ⟨hopen, hlive, -, -, he⟩ := World.request_inv h
  exact deed_of_effect (effect_of_exec (hw.mayRun hopen hlive) he)

theorem WellLocked.step {w' : World ι} {e : Event ι} (hw : WellLocked w)
    (h : w.request i input = some (e, w')) : WellLocked w' := by
  have hstep := hw.deed (hw.request h)
  obtain ⟨-, -, -, hsessions, -⟩ := World.request_inv h
  rwa [← hsessions] at hstep

/-- **The tables are locked well in every run.** -/
theorem Run.wellLocked {w₀ : World ι} {h : List (Event ι)} (h₀ : WellLocked w₀)
    (hrun : Run w₀ h w) : WellLocked w := by
  induction hrun with
  | nil => exact h₀
  | snoc _ hstep ih => exact ih.step hstep

end Locks

end BasicServer
