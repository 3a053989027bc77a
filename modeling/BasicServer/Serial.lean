/-
  Serializability.

  `blocks` cuts a history into what a serial run has to repeat: every request made outside a
  transaction, and every transaction from its BEGIN to a COMMIT answered OK, in the order in which
  they ended.  Transactions that failed or are still open are not among them.  `replay` carries
  blocks out one after the other, each from the session its client had when the block began.

  The proof is a simulation by the server of the replay.  An open transaction is not in the replay
  yet; what is known of it is `Redo`: on every idle server that agrees with the current one on the
  committed entries of the tables the client holds, its requests get the same answers, and leave
  those tables as they are now.  Nobody else writes to these tables until the transaction ends
  (`WellLocked.frame`), so the server of the replay is such a server when the COMMIT comes.
-/
import BasicServer.Committed

namespace BasicServer

open Function (update)
open Overlay (Map)

/-! ## Blocks and their replay -/

/-- Requests of one client: the session before, the inputs in order, the responses to each, and the
    session after. -/
structure Block (ι : Type) where
  who : ι
  start : Session
  inputs : List Input
  replies : List (List Str)
  final : Session

/-- The blocks of a history: the open transaction of each client, and what is done. -/
structure Ledger (ι : Type) where
  pending : ι → Option (Block ι) := fun _ => none
  done : List (Block ι) := []

section Definitions

variable {ι : Type}

/-- One request on its own. -/
def Event.block (e : Event ι) : Block ι :=
  ⟨e.who, e.before, [e.input], [e.after.replies], e.after⟩

/-- One more request. -/
def Block.extend (b : Block ι) (e : Event ι) : Block ι :=
  { b with
    inputs := b.inputs ++ [e.input]
    replies := b.replies ++ [e.after.replies]
    final := e.after }

/-- Enter a request. -/
def Ledger.record [DecidableEq ι] (e : Event ι) (l : Ledger ι) : Ledger ι :=
  match l.pending e.who with
  | none =>
    if e.mark = .begin then { l with pending := update l.pending e.who (some e.block) }
    else { l with done := l.done ++ [e.block] }
  | some b =>
    if e.mark = .commit then
      { pending := update l.pending e.who none, done := l.done ++ [b.extend e] }
    else if e.after.inTransaction then
      { l with pending := update l.pending e.who (some (b.extend e)) }
    else { l with pending := update l.pending e.who none }

/-- The ledger of a history. -/
def ledger [DecidableEq ι] (h : List (Event ι)) : Ledger ι := h.foldr Ledger.record {}

/-- The blocks of a history that a serial run repeats. -/
def blocks [DecidableEq ι] (h : List (Event ι)) : List (Block ι) := (ledger h).done

/-- Carry out inputs of one client back to back. -/
def performAll (i : ι) :
    List Input → Session → Server ι → Option (List (List Str) × Session × Server ι)
  | [], s, srv => some ([], s, srv)
  | input :: rest, s, srv =>
    match (process input s).exec (serve i) srv with
    | none => none
    | some (s₁, srv₁) =>
      (performAll i rest s₁ srv₁).map fun r => (s₁.replies :: r.1, r.2.1, r.2.2)

/-- Carry out blocks one after the other: the responses and the last session of each. -/
def replay : List (Block ι) → Server ι → Option (List (List (List Str) × Session) × Server ι)
  | [], srv => some ([], srv)
  | b :: bs, srv =>
    match performAll b.who b.inputs b.start srv with
    | none => none
    | some (rs, s, srv₁) => (replay bs srv₁).map fun r => ((rs, s) :: r.1, r.2)

/-- What came of a block in the run it was taken from. -/
def Block.outcome (b : Block ι) : List (List Str) × Session := (b.replies, b.final)

theorem performAll_single {i : ι} {input : Input} {s s' : Session} {srv srv' : Server ι}
    (h : (process input s).exec (serve i) srv = some (s', srv')) :
    performAll i [input] s srv = some ([s'.replies], s', srv') := by
  rw [performAll, h]
  rfl

theorem performAll_snoc {i : ι} {inputs : List Input} {input : Input} {s s₁ s₂ : Session}
    {srv srv₁ srv₂ : Server ι} {rs : List (List Str)}
    (h : performAll i inputs s srv = some (rs, s₁, srv₁))
    (hlast : (process input s₁).exec (serve i) srv₁ = some (s₂, srv₂)) :
    performAll i (inputs ++ [input]) s srv = some (rs ++ [s₂.replies], s₂, srv₂) := by
  induction inputs generalizing s srv rs with
  | nil =>
    obtain ⟨rfl, rfl, rfl⟩ : rs = [] ∧ s₁ = s ∧ srv₁ = srv := by
      simpa [performAll, eq_comm] using h
    simp [performAll, hlast]
  | cons a inputs ih =>
    rw [performAll] at h
    rw [List.cons_append, performAll]
    cases hfirst : (process a s).exec (serve i) srv with
    | none => rw [hfirst] at h; cases h
    | some r =>
      obtain ⟨sa, srva⟩ := r
      rw [hfirst] at h
      obtain ⟨⟨rs', s', srv'⟩, hrest, heq⟩ := Option.map_eq_some_iff.mp h
      obtain ⟨rfl, rfl, rfl⟩ : sa.replies :: rs' = rs ∧ s' = s₁ ∧ srv' = srv₁ := by simpa using heq
      show (performAll i (inputs ++ [input]) sa srva).map _ = _
      rw [ih hrest]
      rfl

theorem replay_snoc {bs : List (Block ι)} {b : Block ι} {srv srv₁ srv₂ : Server ι}
    {outs : List (List (List Str) × Session)} {rs : List (List Str)} {s : Session}
    (h : replay bs srv = some (outs, srv₁))
    (hlast : performAll b.who b.inputs b.start srv₁ = some (rs, s, srv₂)) :
    replay (bs ++ [b]) srv = some (outs ++ [(rs, s)], srv₂) := by
  induction bs generalizing srv outs with
  | nil =>
    obtain ⟨rfl, rfl⟩ : outs = [] ∧ srv₁ = srv := by simpa [replay, eq_comm] using h
    simp [replay, hlast]
  | cons a bs ih =>
    rw [replay] at h
    rw [List.cons_append, replay]
    cases hfirst : performAll a.who a.inputs a.start srv with
    | none => rw [hfirst] at h; cases h
    | some r =>
      obtain ⟨rsa, sa, srva⟩ := r
      rw [hfirst] at h
      obtain ⟨⟨outs', srv'⟩, hrest, heq⟩ := Option.map_eq_some_iff.mp h
      obtain ⟨rfl, rfl⟩ : (rsa, sa) :: outs' = outs ∧ srv' = srv₁ := by simpa using heq
      show (replay (bs ++ [b]) srva).map _ = _
      rw [ih hrest]
      rfl

end Definitions

/-! ## Servers that agree -/

/-- The same entries, committed and pending, and the same holder. -/
structure Table.Like {ι : Type} (a b : Table ι) : Prop where
  mutex : a.mutex = b.mutex
  committed : ∀ k, a.keyValuePairs.lookup k = b.keyValuePairs.lookup k
  pending : ∀ k, a.pending k = b.pending k

namespace Table.Like

variable {ι : Type} {a b : Table ι}

theorem hasKey (h : a.Like b) (k : Str) : a.hasKey k = b.hasKey k := by
  rw [hasKey_eq, hasKey_eq, h.pending]

theorem get (h : a.Like b) (k : Str) : a.get k = b.get k := by
  rw [get_eq, get_eq, h.pending, h.committed]

theorem withMutex (h : a.Like b) (m : Option ι) :
    ({ a with mutex := m } : Table ι).Like { b with mutex := m } := ⟨rfl, h.committed, h.pending⟩

theorem set (h : a.Like b) (k v : Str) : (a.set k v).Like (b.set k v) where
  mutex := h.mutex
  committed := h.committed
  pending j := by rw [pending_set, pending_set, h.pending]

theorem commit (h : a.Like b) (k : Str) :
    a.commitChanges.keyValuePairs.lookup k = b.commitChanges.keyValuePairs.lookup k := by
  rw [lookup_commitChanges, lookup_commitChanges, h.pending]

/-- Tables with nothing pending are alike if they have the same committed entries. -/
theorem of_clean (ha : a.Clean) (hb : b.Clean) (hm : a.mutex = b.mutex)
    (hc : ∀ k, a.keyValuePairs.lookup k = b.keyValuePairs.lookup k) : a.Like b :=
  ⟨hm, hc, fun k => by rw [ha k, hb k, hc k]⟩

end Table.Like

/-- The committed entries of a table of two servers are the same. -/
def SameCommitted {ι : Type} (p q : Server ι) (t : Ptr) : Prop :=
  ∀ k, (p.tables t).keyValuePairs.lookup k = (q.tables t).keyValuePairs.lookup k

/-- A server with the given table names on which no transaction is open. -/
structure Idle {ι : Type} (names : Map Str Ptr) (q : Server ι) : Prop where
  live : q.aborted = false
  mutex : q.mutex = none
  free : ∀ t, (q.tables t).mutex = none
  clean : ∀ t, (q.tables t).Clean
  names : q.tableNames = names

section Again

variable {ι : Type} {i : ι} {s s' : Session} {srv srv' q : Server ι} {input : Input}

/-- A client outside a transaction may run on an idle server. -/
theorem Idle.mayRun {names : Map Str Ptr} (hq : Idle names q) (hrun : MayRun i s srv)
    (hout : s.inTransaction = false) : MayRun i s q :=
  ⟨hq.live, hq.mutex, hrun.isOpen, hrun.nodup, by rw [hrun.noTx hout]; exact nofun, hrun.noTx⟩

/-- **Outside a transaction**: the request again, on an idle server with the same committed
    entries. -/
theorem again_outside (hrun : MayRun i s srv) (h : Effect i s srv input s' srv')
    (hout : s.inTransaction = false) (hout' : s'.inTransaction = false)
    (hlive : srv'.aborted = false)
    (hfixed : ∀ msg, request input = some msg → msg.mMessageType ≠ .create)
    (hclean : ∀ t, (srv.tables t).mutex = none → (srv.tables t).Clean)
    (hq : Idle srv.tableNames q) (hsame : ∀ t, SameCommitted q srv t) :
    ∃ q', (process input s).exec (serve i) q = some (s', q') ∧ Idle srv'.tableNames q' ∧
      ∀ t, SameCommitted q' srv' t := by
  have hagain : MayRun i s q := hq.mayRun hrun hout
  have hfind : ∀ name, q.findTable name = srv.findTable name := fun name => by
    rw [Server.findTable, hq.names]; rfl
  have halike : ∀ t, (srv.tables t).mutex = none → (q.tables t).Like (srv.tables t) := fun t hfree =>
    .of_clean (hq.clean t) (hclean t hfree) ((hq.free t).trans hfree.symm) (hsame t)
  have hended : q.ended s = q := Server.ended_of_not _ _ hout
  have hended' : q.ended (ready s) = q := Server.ended_of_not _ _ hout
  cases h with
  | still hp hl htx hmsg =>
    exact ⟨q, exec_of_effect hagain (.still hp hl htx hmsg), hq, hsame⟩
  | givesUp hp hl htx hfin hok =>
    have hex := exec_of_effect hagain (.givesUp hp hl htx hfin hok)
    rw [hended] at hex
    rw [Server.ended_of_not _ _ hout]
    exact ⟨q, hex, hq, hsame⟩
  | dies => cases hlive
  | begin => cases hout'
  | @served buf msg _ _ hdec hfirst h =>
    have notCreate : msg.mMessageType ≠ .create := hfixed msg (request_of_decode hdec)
    have hstill : srv.ended (ready s) = srv := Server.ended_of_not _ _ hout
    cases h with
    | created | bound => exact absurd rfl notCreate
    | commit htx | conflict _ _ htx | setTx _ _ htx | getTx _ htx | missTx _ htx =>
      exact absurd (htx.symm.trans hout) (by decide)
    | unknown hmt hname =>
      have hex := exec_of_effect hagain
        (.served hdec hfirst (.unknown hmt ((hfind _).trans hname)))
      rw [hended'] at hex
      rw [hstill]
      exact ⟨q, hex, hq, hsame⟩
    | @setAuto name key v st t hst hname htx hfree =>
      refine ⟨_, exec_of_effect hagain
        (.served hdec hfirst (.setAuto hst ((hfind _).trans hname) htx (hq.free t))), ?_, ?_⟩
      · refine ⟨hq.live, hq.mutex, fun t' => ?_, fun t' => ?_, hq.names⟩
        · by_cases ht : t' = t
          · rw [ht, Server.tables_setTable]; exact hq.free t
          · rw [Server.tables_setTable_ne _ _ _ ht]; exact hq.free t'
        · by_cases ht : t' = t
          · rw [ht, Server.tables_setTable]; exact Table.clean_commitChanges _
          · rw [Server.tables_setTable_ne _ _ _ ht]; exact hq.clean t'
      · intro t' k
        by_cases ht : t' = t
        · rw [ht, Server.tables_setTable, Server.tables_setTable]
          exact ((halike t hfree).set key v).commit k
        · rw [Server.tables_setTable_ne _ _ _ ht, Server.tables_setTable_ne _ _ _ ht]
          exact hsame t' k
    | getAuto hname htx hfree hget =>
      exact ⟨q, exec_of_effect hagain (.served hdec hfirst (.getAuto ((hfind _).trans hname) htx
        (hq.free _) (((halike _ hfree).get _).trans hget))), hq, hsame⟩
    | missAuto hname htx hfree hmiss =>
      exact ⟨q, exec_of_effect hagain (.served hdec hfirst (.missAuto ((hfind _).trans hname) htx
        (hq.free _) (((halike _ hfree).hasKey _).trans hmiss))), hq, hsame⟩

/-- **BEGIN again**, on any server. -/
theorem again_begin (hagain : MayRun i s q) (h : Effect i s srv input s' srv')
    (hout : s.inTransaction = false) (hin : s'.inTransaction = true) :
    (process input s).exec (serve i) q = some (s', q) ∧ srv' = srv ∧
      s'.lockedTables = s.lockedTables := by
  have habsurd : ∀ {s : Session}, s.inTransaction = false → (released s).inTransaction = false := by
    intro s hs
    rw [released, if_neg (by rw [hs]; decide)]
    exact hs
  cases h with
  | still _ _ htx | dies _ _ htx => exact absurd (hin.symm.trans (htx.trans hout)) (by decide)
  | givesUp _ _ htx hfin =>
    exact absurd (hin.symm.trans ((hfin _).2.trans (habsurd (htx.trans hout)))) (by decide)
  | begin hdec hfirst htx => exact ⟨exec_of_effect hagain (.begin hdec hfirst htx), rfl, rfl⟩
  | served hdec hfirst h =>
    cases h with
    | commit => cases hin
    | created | setAuto | getAuto | missAuto => exact absurd (hin.symm.trans hout) (by decide)
    | bound | unknown =>
      exact absurd (hin.symm.trans (habsurd (s := ready s) hout)) (by decide)
    | conflict _ _ htx | setTx _ _ htx | getTx _ htx | missTx _ htx =>
      exact absurd (htx.symm.trans hout) (by decide)

/-- The server of a replay in the middle of a transaction of client `i`. -/
structure Midway (names : Map Str Ptr) (q : Server ι) : Prop where
  live : q.aborted = false
  mutex : q.mutex = none
  names : q.tableNames = names

theorem Midway.mayRun (hq : Midway srv.tableNames q) (hrun : MayRun i s srv)
    (hlike : ∀ t ∈ s.lockedTables, (q.tables t).Like (srv.tables t)) : MayRun i s q :=
  ⟨hq.live, hq.mutex, hrun.isOpen, hrun.nodup,
    fun t ht => (hlike t ht).mutex.trans (hrun.mine t ht), hrun.noTx⟩

theorem Acquires.like {t : Ptr} (hacq : Acquires i s srv t) (h : (q.tables t).Like (srv.tables t)) :
    Acquires i s q t := by
  rcases hacq with ⟨hmem, hm⟩ | ⟨hnot, hm⟩
  · exact .inl ⟨hmem, h.mutex.trans hm⟩
  · exact .inr ⟨hnot, h.mutex.trans hm⟩

/-- Two servers alike on the tables of a list stay so when one of these tables is replaced. -/
theorem like_setTable {ts : List Ptr} {t : Ptr} {a b : Table ι} (hab : a.Like b)
    (hlike : ∀ t ∈ ts, (q.tables t).Like (srv.tables t)) :
    ∀ t' ∈ ts, ((q.setTable t a).tables t').Like ((srv.setTable t b).tables t') := by
  intro t' ht'
  by_cases ht : t' = t
  · subst ht
    rw [Server.tables_setTable, Server.tables_setTable]
    exact hab
  · rw [Server.tables_setTable_ne _ _ _ ht, Server.tables_setTable_ne _ _ _ ht]
    exact hlike t' ht'

/-- **Inside a transaction**: the request again, on a server that is alike on the tables the client
    has after it. -/
theorem again_inside (hrun : MayRun i s srv) (h : Effect i s srv input s' srv')
    (hin : s.inTransaction = true) (hin' : s'.inTransaction = true) (hlive : srv'.aborted = false)
    (hfixed : ∀ msg, request input = some msg → msg.mMessageType ≠ .create)
    (hq : Midway srv.tableNames q)
    (hlike : ∀ t ∈ s'.lockedTables, (q.tables t).Like (srv.tables t))
    (hgrow : ∀ t ∈ s.lockedTables, t ∈ s'.lockedTables) :
    ∃ q', (process input s).exec (serve i) q = some (s', q') ∧ Midway srv'.tableNames q' ∧
      (∀ t ∈ s'.lockedTables, (q'.tables t).Like (srv'.tables t)) ∧
      ∀ t, t ∉ s'.lockedTables → q'.tables t = q.tables t := by
  have hagain : MayRun i s q := hq.mayRun hrun fun t ht => hlike t (hgrow t ht)
  have hfind : ∀ name, q.findTable name = srv.findTable name := fun name => by
    rw [Server.findTable, hq.names]; rfl
  have hends : ∀ {s : Session}, s.inTransaction = true → (released s).inTransaction = false := by
    intro s hs
    rw [released, if_pos hs]
    rfl
  cases h with
  | still hp hl htx hmsg =>
    exact ⟨q, exec_of_effect hagain (.still hp hl htx hmsg), hq, hlike, fun _ _ => rfl⟩
  | givesUp _ _ htx hfin =>
    exact absurd (hin'.symm.trans ((hfin _).2.trans (hends (htx.trans hin)))) (by decide)
  | dies => cases hlive
  | begin _ _ htx => exact absurd (htx.symm.trans hin) (by decide)
  | @served buf msg _ _ hdec hfirst h =>
    have notCreate : msg.mMessageType ≠ .create := hfixed msg (request_of_decode hdec)
    cases h with
    | created | bound => exact absurd rfl notCreate
    | commit => cases hin'
    | unknown | conflict => exact absurd (hin'.symm.trans (hends (s := ready s) hin)) (by decide)
    | @missTx _ _ t =>
      exact absurd (hin'.symm.trans (hends (s := acquired (ready s) t) hin)) (by decide)
    | setAuto _ _ htx | getAuto _ htx | missAuto _ htx =>
      exact absurd (htx.symm.trans hin) (by decide)
    | @setTx name key v st t hst hname htx hacq =>
      have ht := hlike t List.mem_insert_self
      refine ⟨_, exec_of_effect hagain
        (.served hdec hfirst (.setTx hst ((hfind _).trans hname) htx (hacq.like ht))),
        ⟨hq.live, hq.mutex, hq.names⟩, like_setTable ((ht.set key v).withMutex (some i)) hlike,
        fun t' ht' => Server.tables_setTable_ne _ _ _ ?_⟩
      rintro rfl
      exact ht' List.mem_insert_self
    | @getTx name key v t hname htx hacq hget =>
      have ht := hlike t List.mem_insert_self
      refine ⟨_, exec_of_effect hagain (.served hdec hfirst (.getTx ((hfind _).trans hname) htx
        (hacq.like ht) ((ht.get _).trans hget))), ⟨hq.live, hq.mutex, hq.names⟩,
        like_setTable (ht.withMutex (some i)) hlike,
        fun t' ht' => Server.tables_setMutex_ne _ _ _ ?_⟩
      rintro rfl
      exact ht' List.mem_insert_self

/-- **COMMIT again**. -/
theorem again_commit (hagain : MayRun i s q) (h : Effect i s srv input s' srv')
    (hm : mark input s s' = .commit) :
    (process input s).exec (serve i) q
        = some (s', q.release Table.commitChanges s.lockedTables) ∧
      srv' = srv.release Table.commitChanges s.lockedTables := by
  obtain ⟨hok, args, hreq⟩ := mark_commit_inv hm
  cases h with
  | still _ _ _ hmsg => exact absurd (hmsg _ hreq) (by simp)
  | givesUp _ _ _ _ hbye => exact absurd (hbye _ hreq hok) (by simp)
  | dies _ _ _ hno => rw [hno] at hok; cases hok
  | begin hdec =>
    rw [request_of_decode hdec] at hreq
    cases hreq
  | served hdec hfirst h =>
    rw [request_of_decode hdec] at hreq
    obtain rfl := Option.some.inj hreq
    cases h with
    | commit htx => exact ⟨exec_of_effect hagain (.served hdec hfirst (.commit htx)), rfl⟩
    | unknown hmt | conflict hmt => rcases hmt with ⟨hmt, -⟩ | hmt <;> cases hmt

end Again

/-! ## What the deeds say -/

section Deeds

variable {ι : Type} {i : ι} {s s' : Session} {srv srv' : Server ι} {input : Input}

/-- A transaction starts with a BEGIN answered OK, and with nothing else. -/
theorem Deed.begin_iff (h : Deed i s srv input s' srv') (hout : s.inTransaction = false) :
    mark input s s' = .begin ↔ s'.inTransaction = true := by
  cases h with
  | begins hmark _ _ hin => exact iff_of_true hmark hin
  | quiet hmark _ htx | dies hmark _ htx | creates hmark _ _ htx | stores hmark _ _ _ _ _ htx =>
    rw [htx, hout, hmark]
    exact iff_of_false nofun nofun
  | takes _ _ hin | puts _ _ _ hin | commits _ hin | drops _ hin =>
    exact absurd (hin.symm.trans hout) (by decide)

/-- In a transaction only COMMIT changes committed entries. -/
theorem Deed.sameCommitted (h : Deed i s srv input s' srv') (hin : s.inTransaction = true)
    (hm : mark input s s' ≠ .commit)
    (hfixed : ∀ msg, request input = some msg → msg.mMessageType ≠ .create) (t : Ptr) :
    SameCommitted srv' srv t := by
  intro k
  cases h with
  | quiet | dies => rfl
  | begins _ _ hout | stores _ _ _ hout => exact absurd (hin.symm.trans hout) (by decide)
  | creates _ hreq => exact absurd rfl (hfixed _ hreq)
  | @takes _ t₀ =>
    by_cases ht : t = t₀
    · rw [ht, Server.tables_setMutex]
    · rw [Server.tables_setMutex_ne _ _ _ ht]
  | @puts _ _ _ t₀ =>
    by_cases ht : t = t₀
    · rw [ht, Server.tables_setTable]; rfl
    · rw [Server.tables_setTable_ne _ _ _ ht]
  | commits hmark => exact absurd hmark hm
  | @drops ts =>
    by_cases ht : t ∈ ts
    · rw [Server.tables_release_mem _ _ _ _ ht]; rfl
    · rw [Server.tables_release_not _ _ _ _ ht]

/-- As long as a transaction goes on, a client keeps its tables, and the ones it takes were free. -/
theorem Deed.keeps (h : Deed i s srv input s' srv') (hin : s.inTransaction = true)
    (hin' : s'.inTransaction = true) : (∀ t ∈ s.lockedTables, t ∈ s'.lockedTables) ∧
      ∀ t ∈ s'.lockedTables, t ∉ s.lockedTables → (srv.tables t).mutex = none := by
  cases h with
  | quiet _ hl | dies _ hl | creates _ _ hl =>
    rw [hl]
    exact ⟨fun _ ht => ht, fun _ ht hnot => absurd ht hnot⟩
  | begins _ _ hout | stores _ _ _ hout => exact absurd (hin.symm.trans hout) (by decide)
  | takes _ _ _ hacq hl | puts _ _ _ _ hacq hl =>
    rw [hl]
    refine ⟨fun _ => List.mem_insert_of_mem, fun t ht hnot => ?_⟩
    obtain rfl := (List.mem_insert_iff.mp ht).resolve_right hnot
    exact (hacq.resolve_left fun h => hnot h.1).2
  | commits _ _ _ hout | drops _ _ _ hout => exact absurd (hin'.symm.trans hout) (by decide)

/-- A COMMIT answered OK ends a transaction. -/
theorem Deed.commit_inv (h : Deed i s srv input s' srv') (hm : mark input s s' = .commit) :
    s.inTransaction = true ∧ s'.inTransaction = false := by
  cases h with
  | commits _ hin _ hout => exact ⟨hin, hout⟩
  | _ hmark => rw [hm] at hmark; cases hmark

end Deeds

/-! ## The simulation -/

section Simulation

variable {ι : Type}

/-- Client `i` is in the middle of the transaction that `b` records: on every idle server with the
    same committed entries in the client's tables, the requests so far come out as recorded. -/
def Redo (w : World ι) (i : ι) (b : Block ι) : Prop :=
  ∀ q, Idle w.server.tableNames q →
    (∀ t ∈ (w.sessions i).lockedTables, SameCommitted q w.server t) →
    ∃ q', performAll i b.inputs b.start q = some (b.replies, w.sessions i, q') ∧
      Midway w.server.tableNames q' ∧
      (∀ t ∈ (w.sessions i).lockedTables, (q'.tables t).Like (w.server.tables t)) ∧
      ∀ t, t ∉ (w.sessions i).lockedTables → q'.tables t = q.tables t

/-- The requests of others change nothing about an open transaction. -/
theorem Redo.frame {w w' : World ι} {j : ι} {b : Block ι} (h : Redo w j b)
    (hsession : w'.sessions j = w.sessions j)
    (htables : ∀ t ∈ (w.sessions j).lockedTables, w'.server.tables t = w.server.tables t)
    (hnames : w'.server.tableNames = w.server.tableNames) : Redo w' j b := by
  intro q hq hsame
  rw [hsession] at hsame ⊢
  rw [hnames] at hq ⊢
  have hsame' : ∀ t ∈ (w.sessions j).lockedTables, SameCommitted q w.server t := fun t ht k => by
    rw [hsame t ht k, htables t ht]
  obtain ⟨q', hperform, hq', hlike, hrest⟩ := h q hq hsame'
  refine ⟨q', hperform, hq', fun t ht => ?_, hrest⟩
  rw [htables t ht]
  exact hlike t ht

/-- The ledger against the run from `srv₀`. -/
structure Serial (srv₀ : Server ι) (w : World ι) (l : Ledger ι) : Prop where
  locked : WellLocked w
  clean : ∀ t, (w.server.tables t).mutex = none → (w.server.tables t).Clean
  opened : ∀ i, (w.sessions i).inTransaction = true →
    ∃ b, l.pending i = some b ∧ b.who = i ∧ Redo w i b
  closed : ∀ i, (w.sessions i).inTransaction = false → l.pending i = none
  replayed : ∃ q, replay l.done srv₀ = some (l.done.map Block.outcome, q) ∧
    Idle w.server.tableNames q ∧ ∀ t, SameCommitted q w.server t

/-! ### Entering a request -/

variable [DecidableEq ι]

section Record

variable {l : Ledger ι} {e : Event ι} {b : Block ι}

theorem record_others {j : ι} (hj : j ≠ e.who) : (l.record e).pending j = l.pending j := by
  unfold Ledger.record
  split
  · split
    · exact Function.update_of_ne hj _ _
    · rfl
  · split
    · exact Function.update_of_ne hj _ _
    · split <;> exact Function.update_of_ne hj _ _

theorem record_begin (hp : l.pending e.who = none) (hm : e.mark = .begin) :
    l.record e = { l with pending := update l.pending e.who (some e.block) } := by
  rw [Ledger.record, hp]
  exact if_pos hm

theorem record_single (hp : l.pending e.who = none) (hm : e.mark ≠ .begin) :
    l.record e = { l with done := l.done ++ [e.block] } := by
  rw [Ledger.record, hp]
  exact if_neg hm

theorem record_commit (hp : l.pending e.who = some b) (hm : e.mark = .commit) : l.record e
    = { pending := update l.pending e.who none, done := l.done ++ [b.extend e] } := by
  rw [Ledger.record, hp]
  exact if_pos hm

theorem record_inside (hp : l.pending e.who = some b) (hm : e.mark ≠ .commit)
    (hin : e.after.inTransaction = true) :
    l.record e = { l with pending := update l.pending e.who (some (b.extend e)) } := by
  rw [Ledger.record, hp]
  exact (if_neg hm).trans (if_pos hin)

theorem record_dropped (hp : l.pending e.who = some b) (hm : e.mark ≠ .commit)
    (hout : e.after.inTransaction = false) :
    l.record e = { l with pending := update l.pending e.who none } := by
  rw [Ledger.record, hp]
  exact (if_neg hm).trans (if_neg (by rw [hout]; decide))

end Record

/-! ### One more request -/

section Step

variable {srv₀ : Server ι} {w w' : World ι} {l : Ledger ι} {i : ι} {input : Input} {e : Event ι}

/-- What is the same in all cases: the other clients. -/
theorem Serial.advance (hs : Serial srv₀ w l) (hstep : w.request i input = some (e, w'))
    (hnames : w'.server.tableNames = w.server.tableNames)
    (hopened : (w'.sessions i).inTransaction = true →
      ∃ b, (l.record e).pending i = some b ∧ b.who = i ∧ Redo w' i b)
    (hclosed : (w'.sessions i).inTransaction = false → (l.record e).pending i = none)
    (hreplayed : ∃ q, replay (l.record e).done srv₀
        = some ((l.record e).done.map Block.outcome, q) ∧
      Idle w'.server.tableNames q ∧ ∀ t, SameCommitted q w'.server t) :
    Serial srv₀ w' (l.record e) := by
  have hd := hs.locked.request hstep
  obtain ⟨-, -, he, hsessions, -⟩ := World.request_inv hstep
  have hwho : e.who = i := by rw [he]
  have hother : ∀ {j}, j ≠ i → w'.sessions j = w.sessions j := fun hj => by
    rw [hsessions, Function.update_of_ne hj]
  have hpending : ∀ {j}, j ≠ i → (l.record e).pending j = l.pending j := fun hj =>
    record_others (hwho ▸ hj)
  refine ⟨hs.locked.step hstep, hd.clean hs.clean, fun j hin => ?_, fun j hout => ?_, hreplayed⟩
  · by_cases hj : j = i
    · exact hj ▸ hopened (hj ▸ hin)
    · rw [hother hj] at hin
      obtain ⟨b, hb, hwho, hredo⟩ := hs.opened j hin
      exact ⟨b, (hpending hj).trans hb, hwho,
        hredo.frame (hother hj) (fun t ht => hs.locked.frame hd hj ht) hnames⟩
  · by_cases hj : j = i
    · exact hj ▸ hclosed (hj ▸ hout)
    · rw [hother hj] at hout
      exact (hpending hj).trans (hs.closed j hout)

variable (hs : Serial srv₀ w l) (hstep : w.request i input = some (e, w'))
  (hfixed : ∀ msg, request input = some msg → msg.mMessageType ≠ .create)
include hs hstep hfixed

theorem Serial.names_eq : w'.server.tableNames = w.server.tableNames := by
  rcases (hs.locked.request hstep).names with ⟨-, hnames⟩ | ⟨name, hreq, -⟩
  · exact hnames
  · exact absurd rfl (hfixed _ hreq)

theorem Serial.step_begin (hout : (w.sessions i).inTransaction = false)
    (hin : (w'.sessions i).inTransaction = true) : Serial srv₀ w' (l.record e) := by
  have hd := hs.locked.request hstep
  have hnames := hs.names_eq hstep hfixed
  obtain ⟨hopen, hlive, he, -, hexec⟩ := World.request_inv hstep
  have hrun := hs.locked.mayRun hopen hlive
  have heff := effect_of_exec hrun hexec
  have hwho : e.who = i := by rw [he]
  have hmark : e.mark = .begin := by rw [he]; exact (hd.begin_iff hout).mpr hin
  have hpending : l.pending e.who = none := hwho ▸ hs.closed i hout
  have hrecord := record_begin hpending hmark
  obtain ⟨-, hsrv, hlocked⟩ := again_begin hrun heff hout hin
  refine hs.advance hstep hnames (fun _ => ⟨e.block, ?_, hwho, fun q hq _ => ?_⟩)
    (fun h => absurd (hin.symm.trans h) (by decide)) ?_
  · rw [hrecord, hwho]
    exact Function.update_self ..
  · obtain ⟨hagain, -, -⟩ := again_begin (hq.mayRun hrun hout) heff hout hin
    refine ⟨q, ?_, ⟨hq.live, hq.mutex, hq.names⟩, ?_, fun _ _ => rfl⟩
    · rw [he]
      exact performAll_single hagain
    · rw [hlocked, hs.locked.noTx i hout]
      exact nofun
  · rw [hrecord, hsrv]
    exact hs.replayed

theorem Serial.step_single (hlive' : w'.server.aborted = false)
    (hout : (w.sessions i).inTransaction = false) (hout' : (w'.sessions i).inTransaction = false) :
    Serial srv₀ w' (l.record e) := by
  have hd := hs.locked.request hstep
  have hnames := hs.names_eq hstep hfixed
  obtain ⟨hopen, hlive, he, -, hexec⟩ := World.request_inv hstep
  have hrun := hs.locked.mayRun hopen hlive
  have heff := effect_of_exec hrun hexec
  have hwho : e.who = i := by rw [he]
  have hmark : e.mark ≠ .begin := by
    rw [he]
    intro h
    exact absurd (hout'.symm.trans ((hd.begin_iff hout).mp h)) (by decide)
  have hpending : l.pending e.who = none := hwho ▸ hs.closed i hout
  have hrecord := record_single hpending hmark
  obtain ⟨q, hreplay, hq, hsame⟩ := hs.replayed
  obtain ⟨q', hagain, hq', hsame'⟩ :=
    again_outside hrun heff hout hout' hlive' hfixed hs.clean hq hsame
  refine hs.advance hstep hnames (fun h => absurd (hout'.symm.trans h) (by decide))
    (fun _ => ?_) ⟨q', ?_, hq', hsame'⟩
  · rw [hrecord]
    exact hs.closed i hout
  · rw [hrecord, List.map_append]
    refine replay_snoc hreplay ?_
    rw [he]
    exact performAll_single hagain

theorem Serial.step_commit (hmark : e.mark = .commit) : Serial srv₀ w' (l.record e) := by
  have hd := hs.locked.request hstep
  have hnames := hs.names_eq hstep hfixed
  obtain ⟨hopen, hlive, he, -, hexec⟩ := World.request_inv hstep
  have hrun := hs.locked.mayRun hopen hlive
  have heff := effect_of_exec hrun hexec
  have hwho : e.who = i := by rw [he]
  have hm : BasicServer.mark input (w.sessions i) (w'.sessions i) = .commit := by rw [he] at hmark; exact hmark
  obtain ⟨hin, hout'⟩ := hd.commit_inv hm
  obtain ⟨b, hb, hbwho, hredo⟩ := hs.opened i hin
  have hrecord := record_commit (hwho ▸ hb) hmark
  obtain ⟨q, hreplay, hq, hsame⟩ := hs.replayed
  obtain ⟨q₁, hperform, hq₁, hlike, hrest⟩ := hredo q hq fun t _ => hsame t
  obtain ⟨hagain, hsrv⟩ := again_commit (hq₁.mayRun hrun hlike) heff hm
  refine hs.advance hstep hnames (fun h => absurd (hout'.symm.trans h) (by decide))
    (fun _ => ?_) ⟨q₁.release Table.commitChanges (w.sessions i).lockedTables, ?_, ?_, ?_⟩
  · rw [hrecord, hwho]
    exact Function.update_self ..
  · rw [hrecord, List.map_append]
    refine replay_snoc hreplay ?_
    rw [he]
    show performAll b.who (b.inputs ++ [input]) b.start q = _
    rw [hbwho]
    exact performAll_snoc hperform hagain
  · refine ⟨hq₁.live, hq₁.mutex, fun t => ?_, fun t => ?_, hq₁.names.trans hnames.symm⟩
    · by_cases ht : t ∈ (w.sessions i).lockedTables
      · rw [Server.tables_release_mem _ _ _ _ ht]
      · rw [Server.tables_release_not _ _ _ _ ht, hrest t ht]
        exact hq.free t
    · by_cases ht : t ∈ (w.sessions i).lockedTables
      · rw [Server.tables_release_mem _ _ _ _ ht]
        exact (Table.clean_commitChanges (q₁.tables t)).withMutex none
      · rw [Server.tables_release_not _ _ _ _ ht, hrest t ht]
        exact hq.clean t
  · intro t k
    rw [hsrv]
    by_cases ht : t ∈ (w.sessions i).lockedTables
    · rw [Server.tables_release_mem _ _ _ _ ht, Server.tables_release_mem _ _ _ _ ht]
      exact (hlike t ht).commit k
    · rw [Server.tables_release_not _ _ _ _ ht, Server.tables_release_not _ _ _ _ ht, hrest t ht]
      exact hsame t k

theorem Serial.step_inside (hlive' : w'.server.aborted = false)
    (hin : (w.sessions i).inTransaction = true) (hin' : (w'.sessions i).inTransaction = true) :
    Serial srv₀ w' (l.record e) := by
  have hd := hs.locked.request hstep
  have hnames := hs.names_eq hstep hfixed
  obtain ⟨hopen, hlive, he, -, hexec⟩ := World.request_inv hstep
  have hrun := hs.locked.mayRun hopen hlive
  have heff := effect_of_exec hrun hexec
  have hwho : e.who = i := by rw [he]
  have hm : BasicServer.mark input (w.sessions i) (w'.sessions i) ≠ .commit := fun h =>
    absurd (hin'.symm.trans (hd.commit_inv h).2) (by decide)
  have hmark : e.mark ≠ .commit := by rw [he]; exact hm
  have hafter : e.after.inTransaction = true := by rw [he]; exact hin'
  obtain ⟨b, hb, hbwho, hredo⟩ := hs.opened i hin
  have hrecord := record_inside (hwho ▸ hb) hmark hafter
  have hsameW := hd.sameCommitted hin hm hfixed
  obtain ⟨hgrow, htaken⟩ := hd.keeps hin hin'
  refine hs.advance hstep hnames (fun _ => ⟨b.extend e, ?_, hbwho, fun q hq hsame => ?_⟩)
    (fun h => absurd (hin'.symm.trans h) (by decide)) ?_
  · rw [hrecord, hwho]
    exact Function.update_self ..
  · rw [hnames] at hq ⊢
    have hsame₀ : ∀ t ∈ (w'.sessions i).lockedTables, SameCommitted q w.server t :=
      fun t ht k => (hsame t ht k).trans (hsameW t k)
    obtain ⟨q₁, hperform, hq₁, hlike, hrest⟩ := hredo q hq fun t ht => hsame₀ t (hgrow t ht)
    -- the tables taken by this request are still as they are on the idle server
    have hlike' : ∀ t ∈ (w'.sessions i).lockedTables, (q₁.tables t).Like (w.server.tables t) := by
      intro t ht
      by_cases hmem : t ∈ (w.sessions i).lockedTables
      · exact hlike t hmem
      · have hfree := htaken t ht hmem
        rw [hrest t hmem]
        exact .of_clean (hq.clean t) (hs.clean t hfree) ((hq.free t).trans hfree.symm)
          (hsame₀ t ht)
    obtain ⟨q₂, hagain, hq₂, hlike₂, hrest₂⟩ :=
      again_inside hrun heff hin hin' hlive' hfixed hq₁ hlike' hgrow
    refine ⟨q₂, ?_, hnames ▸ hq₂, hlike₂, fun t ht => ?_⟩
    · rw [he]
      exact performAll_snoc hperform hagain
    · rw [hrest₂ t ht, hrest t fun h => ht (hgrow t h)]
  · rw [hrecord, hnames]
    obtain ⟨q, hreplay, hq, hsame⟩ := hs.replayed
    exact ⟨q, hreplay, hq, fun t k => (hsame t k).trans (hsameW t k).symm⟩

theorem Serial.step_dropped (hmark : e.mark ≠ .commit) (hin : (w.sessions i).inTransaction = true)
    (hout' : (w'.sessions i).inTransaction = false) : Serial srv₀ w' (l.record e) := by
  have hd := hs.locked.request hstep
  have hnames := hs.names_eq hstep hfixed
  obtain ⟨-, -, he, -, -⟩ := World.request_inv hstep
  have hwho : e.who = i := by rw [he]
  have hm : BasicServer.mark input (w.sessions i) (w'.sessions i) ≠ .commit := by
    rw [he] at hmark
    exact hmark
  have hafter : e.after.inTransaction = false := by rw [he]; exact hout'
  obtain ⟨b, hb, -, -⟩ := hs.opened i hin
  have hrecord := record_dropped (hwho ▸ hb) hmark hafter
  have hsameW := hd.sameCommitted hin hm hfixed
  refine hs.advance hstep hnames (fun h => absurd (hout'.symm.trans h) (by decide))
    (fun _ => ?_) ?_
  · rw [hrecord, hwho]
    exact Function.update_self ..
  · rw [hrecord, hnames]
    obtain ⟨q, hreplay, hq, hsame⟩ := hs.replayed
    exact ⟨q, hreplay, hq, fun t k => (hsame t k).trans (hsameW t k).symm⟩

/-- The step lemma of the simulation. -/
theorem Serial.step (hlive' : w'.server.aborted = false) : Serial srv₀ w' (l.record e) := by
  cases hin : (w.sessions i).inTransaction with
  | false =>
    cases hin' : (w'.sessions i).inTransaction with
    | false => exact hs.step_single hstep hfixed hlive' hin hin'
    | true => exact hs.step_begin hstep hfixed hin hin'
  | true =>
    by_cases hmark : e.mark = .commit
    · exact hs.step_commit hstep hfixed hmark
    · cases hin' : (w'.sessions i).inTransaction with
      | false => exact hs.step_dropped hstep hfixed hmark hin hin'
      | true => exact hs.step_inside hstep hfixed hlive' hin hin'

end Step

end Simulation

/-! ## The theorem -/

section Theorem

variable {ι : Type}

/-- A world in which no transaction is open. -/
structure World.Settled (w : World ι) : Prop where
  locked : WellLocked w
  idle : ∀ i, (w.sessions i).inTransaction = false
  clean : ∀ t, (w.server.tables t).Clean

theorem Serial.start {w : World ι} (h : w.Settled) (hlive : w.server.aborted = false) :
    Serial w.server w {} where
  locked := h.locked
  clean t _ := h.clean t
  opened i hin := absurd (hin.symm.trans (h.idle i)) (by decide)
  closed _ _ := rfl
  replayed := ⟨w.server, rfl, ⟨hlive, h.locked.mutex, h.locked.free h.idle, h.clean, rfl⟩,
    fun _ _ => rfl⟩

variable [DecidableEq ι]

/-- Every run from the start leads to a settled world whenever no transaction is open. -/
theorem Run.settled {w : World ι} {h : List (Event ι)} (hrun : Run {} h w)
    (hidle : ∀ i, (w.sessions i).inTransaction = false) : w.Settled :=
  have hlocked := hrun.wellLocked wellLocked_start
  ⟨hlocked, hidle, fun t => hrun.tracks.clean t (hlocked.free hidle t)⟩

theorem Run.serial {w₀ w : World ι} {h : List (Event ι)} (h₀ : w₀.Settled) (hrun : Run w₀ h w)
    (hfixed : ∀ e ∈ h, ∀ msg, request e.input = some msg → msg.mMessageType ≠ .create)
    (hlive : w.server.aborted = false) : Serial w₀.server w (ledger h) := by
  induction hrun with
  | nil => exact Serial.start h₀ hlive
  | @snoc h w w' i input e hrun hstep ih =>
    obtain ⟨-, hlive₀, he, -, -⟩ := World.request_inv hstep
    have hcreate := hfixed e (List.mem_cons_self ..)
    rw [he] at hcreate
    exact (ih (fun e' he' => hfixed e' (List.mem_cons_of_mem _ he')) hlive₀).step hstep hcreate hlive

/-- **Serializability.**  Take any run from a world in which no transaction is open, that creates no
    table and does not end the process.  Its blocks, carried out one after the other in the order in
    which they ended, get the same responses and leave the same sessions, and at the end every table
    has the same committed entries. -/
theorem serializable {w₀ w : World ι} {h : List (Event ι)} (h₀ : w₀.Settled) (hrun : Run w₀ h w)
    (hfixed : ∀ e ∈ h, ∀ msg, request e.input = some msg → msg.mMessageType ≠ .create)
    (hlive : w.server.aborted = false) :
    ∃ srv, replay (blocks h) w₀.server
        = some ((blocks h).map fun b => (b.replies, b.final), srv) ∧
      ∀ t key, (srv.tables t).keyValuePairs.lookup key
        = (w.server.tables t).keyValuePairs.lookup key := by
  obtain ⟨srv, hreplay, -, hsame⟩ := (hrun.serial h₀ hfixed hlive).replayed
  exact ⟨srv, hreplay, hsame⟩

/-- Two clients, of which one fails over a table that the other has locked. -/
theorem serializable_two : ∃ (w₀ w : World Bool) (h : List (Event Bool)),
    w₀.Settled ∧ Run w₀ h w ∧ (blocks h).length = 3 ∧
    ∃ srv, replay (blocks h) w₀.server
        = some ((blocks h).map fun b => (b.replies, b.final), srv) ∧
      ∀ t key, (srv.tables t).keyValuePairs.lookup key
        = (w.server.tables t).keyValuePairs.lookup key := by
  have hperform : (({} : World Bool).perform
      ([(false, "CREATE t\n"), (false, "LOGIN a\n")].map fun r => (r.1, .line r.2.toList))).any
      (fun r => decide (∀ i, (r.2.sessions i).inTransaction = false) &&
        (r.2.perform ([(true, "GET t k\n"), (false, "COMMIT\n"), (true, "GET t k\n"),
            (false, "SET t k\n"), (true, "BEGIN\n"), (false, "PUSH 1\n"), (false, "BEGIN\n"),
            (true, "LOGIN b\n")].map fun r => (r.1, .line r.2.toList))).any fun r' =>
          r'.1.all (fun e => (request e.input).all (·.mMessageType ≠ .create)) &&
            decide (r'.2.server.aborted = false ∧ (blocks r'.1).length = 3)) = true := by
    decide +kernel
  obtain ⟨h₁, w₀, hrun₁, hw₀⟩ := Run.of_any hperform
  obtain ⟨hidle, hmore⟩ := Bool.and_eq_true_iff.mp hw₀
  obtain ⟨h, w, hrun, hw⟩ := Run.of_any hmore
  obtain ⟨hall, hend⟩ := Bool.and_eq_true_iff.mp hw
  obtain ⟨hlive, hlen⟩ := of_decide_eq_true hend
  have h₀ : w₀.Settled := hrun₁.settled (of_decide_eq_true hidle)
  have hfixed : ∀ e ∈ h, ∀ msg, request e.input = some msg → msg.mMessageType ≠ .create := by
    intro e he msg hmsg
    have hreq := List.all_eq_true.mp hall e he
    rw [hmsg] at hreq
    exact of_decide_eq_true hreq
  exact ⟨w₀, w, h, h₀, hrun, hlen, serializable h₀ hrun hfixed hlive⟩

end Theorem

end BasicServer
