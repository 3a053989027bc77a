/-
  Which writes take effect.

  `lastSet i t key h` reads a history backwards: the value client `i` has last SET for the key since
  its BEGIN.  `Event.written` is what a request ought to write into the committed entries: the named
  key for an autocommit SET answered OK, all of `lastSet` for a COMMIT answered OK, nothing
  otherwise.

  The invariant of every run (`Tracks`) has three clauses: a table that nobody holds has nothing
  pending; in a table that a client holds, exactly the client's own SETs are pending; it has SET
  nothing in the tables it does not hold.
-/
import BasicServer.World

namespace BasicServer

variable {ι : Type} [DecidableEq ι]

/-- The mark of an event. -/
def Event.mark (e : Event ι) : Mark := BasicServer.mark e.input e.before e.after

/-- The last value that client `i` SET under the key of the table since its last BEGIN. -/
def lastSet (i : ι) (t : Ptr) (key : Str) : List (Event ι) → Option Str
  | [] => none
  | e :: h =>
    if e.who = i then
      match e.mark with
      | .begin => none
      | .set name k v =>
        if e.server.findTable name = some t ∧ k = key then some v else lastSet i t key h
      | _ => lastSet i t key h
    else lastSet i t key h

/-- What a request that follows the history `h` writes into the committed entries. -/
def Event.written (h : List (Event ι)) (e : Event ι) (t : Ptr) (key : Str) : Option Str :=
  match e.mark with
  | .commit => lastSet e.who t key h
  | .set name k v =>
    if e.before.inTransaction = false ∧ e.server.findTable name = some t ∧ k = key then some v
    else none
  | _ => none

section Reading

variable {i j : ι} {t : Ptr} {key : Str} {input : Input} {srv : Server ι} {s s' : Session}
  {h : List (Event ι)}

theorem lastSet_others (hi : j ≠ i) :
    lastSet i t key (⟨j, input, srv, s, s'⟩ :: h) = lastSet i t key h := if_neg hi

theorem lastSet_other (hm : mark input s s' = .other) :
    lastSet i t key (⟨j, input, srv, s, s'⟩ :: h) = lastSet i t key h := by
  rw [lastSet, Event.mark, hm]
  exact ite_self _

theorem lastSet_begin (hm : mark input s s' = .begin) :
    lastSet i t key (⟨i, input, srv, s, s'⟩ :: h) = none := by
  rw [lastSet, if_pos rfl, Event.mark, hm]

theorem lastSet_set {name k v : Str} (hm : mark input s s' = .set name k v) :
    lastSet i t key (⟨i, input, srv, s, s'⟩ :: h)
      = if srv.findTable name = some t ∧ k = key then some v else lastSet i t key h := by
  rw [lastSet, if_pos rfl, Event.mark, hm]

theorem written_commit (hm : mark input s s' = .commit) :
    (⟨i, input, srv, s, s'⟩ : Event ι).written h t key = lastSet i t key h := by
  rw [Event.written, Event.mark, hm]

theorem written_set {name k v : Str} (hm : mark input s s' = .set name k v) :
    (⟨i, input, srv, s, s'⟩ : Event ι).written h t key
      = if s.inTransaction = false ∧ srv.findTable name = some t ∧ k = key then some v
        else none := by
  rw [Event.written, Event.mark, hm]

theorem written_not (hm : mark input s s' = .other ∨ mark input s s' = .begin) :
    (⟨i, input, srv, s, s'⟩ : Event ι).written h t key = none := by
  rw [Event.written, Event.mark]
  rcases hm with hm | hm <;> rw [hm]

end Reading

/-! ## The invariant -/

/-- The pending entries against the history. -/
structure Tracks (w : World ι) (h : List (Event ι)) : Prop where
  clean : ∀ t, (w.server.tables t).mutex = none → (w.server.tables t).Clean
  mine : ∀ i, ∀ t ∈ (w.sessions i).lockedTables, ∀ key, (w.server.tables t).pending key
    = (lastSet i t key h).or ((w.server.tables t).keyValuePairs.lookup key)
  only : ∀ i, (w.sessions i).inTransaction = true → ∀ t ∉ (w.sessions i).lockedTables, ∀ key,
    lastSet i t key h = none

theorem tracks_start : Tracks ({} : World ι) [] where
  clean _ _ := Table.clean_empty
  mine _ _ ht := nomatch ht
  only _ _ _ _ _ := rfl

section Step

variable {i : ι} {s' : Session} {srv' : Server ι} {input : Input} {w : World ι}
  {h : List (Event ι)}

/-- What is pending in the client's own tables, after its request. -/
theorem mine_deed (hw : WellLocked w) (ht : Tracks w h)
    (hd : Deed i (w.sessions i) w.server input s' srv') {t : Ptr} (hmem : t ∈ s'.lockedTables)
    (key : Str) : (srv'.tables t).pending key
      = (lastSet i t key (⟨i, input, w.server, w.sessions i, s'⟩ :: h)).or
          ((srv'.tables t).keyValuePairs.lookup key) := by
  -- the pending entries of a table that the client has now, as they were before
  have hold : ∀ {t₀}, (w.sessions i).inTransaction = true → Acquires i (w.sessions i) w.server t₀ →
      t ∈ (w.sessions i).lockedTables.insert t₀ → ∀ key, (w.server.tables t).pending key
        = (lastSet i t key h).or ((w.server.tables t).keyValuePairs.lookup key) := by
    intro t₀ hin hacq hmem key
    by_cases hl : t ∈ (w.sessions i).lockedTables
    · exact ht.mine i t hl key
    · have ht₀ : t = t₀ := (List.mem_insert_iff.mp hmem).resolve_right hl
      subst ht₀
      have hfree : (w.server.tables t).mutex = none := (hacq.resolve_left fun h => hl h.1).2
      rw [ht.only i hin t hl key, ht.clean t hfree key]
      rfl
  cases hd with
  | quiet hmark hl => rw [lastSet_other hmark]; exact ht.mine i t (hl ▸ hmem) key
  | dies hmark hl => rw [lastSet_other hmark]; exact ht.mine i t (hl ▸ hmem) key
  | begins hmark hl hout => rw [hl, hw.noTx i hout] at hmem; cases hmem
  | creates hmark hreq hl =>
    rw [hl] at hmem
    have hne : t ≠ w.server.next := by
      rintro rfl
      have hheld := (hw.held _ i).mpr hmem
      rw [hw.fresh _ le_rfl] at hheld
      cases hheld
    rw [lastSet_other hmark, Server.tables_createTable_ne _ _ _ hne]
    exact ht.mine i t hmem key
  | stores hmark hpop hname hout hfree hl => rw [hl, hw.noTx i hout] at hmem; cases hmem
  | @takes _ t₀ hmark hname hin hacq hl =>
    rw [hl] at hmem
    rw [lastSet_other hmark]
    by_cases heq : t = t₀
    · subst heq
      rw [Server.tables_setMutex]
      exact hold hin hacq hmem key
    · rw [Server.tables_setMutex_ne _ _ _ heq]
      exact hold hin hacq hmem key
  | @puts name k v t₀ hmark hpop hname hin hacq hl =>
    rw [hl] at hmem
    rw [lastSet_set hmark]
    by_cases heq : t = t₀
    · subst heq
      have hset : ((w.server.tables t).set k v).pending key
          = if key = k then some v else (w.server.tables t).pending key := Table.pending_set ..
      rw [Server.tables_setTable]
      show ((w.server.tables t).set k v).pending key = _
      rw [hset]
      by_cases hk : key = k
      · subst hk
        rw [if_pos rfl, if_pos ⟨hname, rfl⟩]
        rfl
      · rw [if_neg hk, if_neg fun h => hk h.2.symm]
        exact hold hin hacq hmem key
    · have hother : w.server.findTable name ≠ some t := by
        rw [hname]
        exact fun h => heq (Option.some.inj h).symm
      rw [Server.tables_setTable_ne _ _ _ heq, if_neg fun h => hother h.1]
      exact hold hin hacq hmem key
  | commits _ _ hl | drops _ _ hl => rw [hl] at hmem; cases hmem

/-- The client has SET nothing in tables it does not hold, after its request. -/
theorem only_deed (ht : Tracks w h)
    (hd : Deed i (w.sessions i) w.server input s' srv') (hin' : s'.inTransaction = true) {t : Ptr}
    (hmem : t ∉ s'.lockedTables) (key : Str) :
    lastSet i t key (⟨i, input, w.server, w.sessions i, s'⟩ :: h) = none := by
  cases hd with
  | quiet hmark hl htx | dies hmark hl htx | creates hmark _ hl htx =>
    rw [lastSet_other hmark]
    exact ht.only i (htx.symm.trans hin') t (hl ▸ hmem) key
  | begins hmark => exact lastSet_begin hmark
  | stores _ _ _ hout _ _ htx => rw [htx, hout] at hin'; cases hin'
  | takes hmark _ hin _ hl =>
    rw [lastSet_other hmark]
    exact ht.only i hin t (fun h => hmem (hl ▸ List.mem_insert_of_mem h)) key
  | @puts name k v t₀ hmark _ hname hin _ hl =>
    have hne : w.server.findTable name ≠ some t := by
      rw [hname]
      intro h
      rw [hl, Option.some.inj h] at hmem
      exact hmem List.mem_insert_self
    rw [lastSet_set hmark, if_neg fun h => hne h.1]
    exact ht.only i hin t (fun h => hmem (hl ▸ List.mem_insert_of_mem h)) key
  | commits _ _ _ hout | drops _ _ _ hout => rw [hout] at hin'; cases hin'

/-- The step lemma of the invariant. -/
theorem Tracks.deed (hw : WellLocked w) (ht : Tracks w h)
    (hd : Deed i (w.sessions i) w.server input s' srv') :
    Tracks (⟨srv', Function.update w.sessions i s'⟩ : World ι)
      (⟨i, input, w.server, w.sessions i, s'⟩ :: h) where
  clean := hd.clean ht.clean
  mine j t hmem key := by
    by_cases hj : j = i
    · subst hj
      have hmem' : t ∈ (Function.update w.sessions j s' j).lockedTables := hmem
      rw [Function.update_self] at hmem'
      exact mine_deed hw ht hd hmem' key
    · have hmem' : t ∈ (Function.update w.sessions i s' j).lockedTables := hmem
      rw [Function.update_of_ne hj] at hmem'
      show (srv'.tables t).pending key = _
      rw [lastSet_others (Ne.symm hj)]
      show _ = (lastSet j t key h).or ((srv'.tables t).keyValuePairs.lookup key)
      rw [hw.frame hd hj hmem']
      exact ht.mine j t hmem' key
  only j hin t hmem key := by
    by_cases hj : j = i
    · subst hj
      have hin' : (Function.update w.sessions j s' j).inTransaction = true := hin
      have hmem' : t ∉ (Function.update w.sessions j s' j).lockedTables := hmem
      rw [Function.update_self] at hin' hmem'
      exact only_deed ht hd hin' hmem' key
    · have hin' : (Function.update w.sessions i s' j).inTransaction = true := hin
      have hmem' : t ∉ (Function.update w.sessions i s' j).lockedTables := hmem
      rw [Function.update_of_ne hj] at hin' hmem'
      rw [lastSet_others (Ne.symm hj)]
      exact ht.only j hin' t hmem' key

end Step

/-- The pending entries are tracked in every run. -/
theorem Run.tracks {w : World ι} {h : List (Event ι)} (hrun : Run {} h w) : Tracks w h := by
  induction hrun with
  | nil => exact tracks_start
  | @snoc h w w' i input e hrun hstep ih =>
    have hw := hrun.wellLocked wellLocked_start
    obtain ⟨-, -, rfl, hsessions, -⟩ := World.request_inv hstep
    have hnext := ih.deed hw (hw.request hstep)
    rw [← hsessions] at hnext
    exact hnext

/-! ## The committed entries -/

/-- What one request does to the committed entries. -/
theorem committed_deed {w : World ι} {h : List (Event ι)} {i : ι} {input : Input} {s' : Session}
    {srv' : Server ι} (ht : Tracks w h) (hd : Deed i (w.sessions i) w.server input s' srv')
    {t : Ptr} (hlt : t < w.server.next) (key : Str) :
    (srv'.tables t).keyValuePairs.lookup key
      = ((⟨i, input, w.server, w.sessions i, s'⟩ : Event ι).written h t key).or
          ((w.server.tables t).keyValuePairs.lookup key) := by
  cases hd with
  | quiet hmark | dies hmark => rw [written_not (.inl hmark)]; rfl
  | begins hmark => rw [written_not (.inr hmark)]; rfl
  | creates hmark =>
    rw [written_not (.inl hmark), Server.tables_createTable_ne _ _ _ (Nat.ne_of_lt hlt)]
    rfl
  | @stores name k v t₀ hmark hpop hname hout hfree =>
    rw [written_set hmark]
    by_cases heq : t = t₀
    · subst heq
      rw [Server.tables_setTable, Table.lookup_commitChanges, Table.pending_set, ht.clean t hfree]
      by_cases hk : key = k
      · subst hk
        rw [if_pos rfl, if_pos ⟨hout, hname, rfl⟩]
        rfl
      · rw [if_neg hk, if_neg fun h => hk h.2.2.symm]
        rfl
    · have hother : w.server.findTable name ≠ some t := by
        rw [hname]
        exact fun h => heq (Option.some.inj h).symm
      rw [Server.tables_setTable_ne _ _ _ heq, if_neg fun h => hother h.2.1]
      rfl
  | @takes _ t₀ hmark =>
    rw [written_not (.inl hmark)]
    by_cases heq : t = t₀
    · subst heq; rw [Server.tables_setMutex]; rfl
    · rw [Server.tables_setMutex_ne _ _ _ heq]; rfl
  | @puts name k v t₀ hmark hpop hname hin =>
    rw [written_set hmark, if_neg fun h => Bool.false_ne_true (h.1.symm.trans hin)]
    by_cases heq : t = t₀
    · subst heq; rw [Server.tables_setTable]; rfl
    · rw [Server.tables_setTable_ne _ _ _ heq]; rfl
  | commits hmark hin =>
    rw [written_commit hmark]
    by_cases hmem : t ∈ (w.sessions i).lockedTables
    · rw [Server.tables_release_mem _ _ _ _ hmem]
      show (w.server.tables t).commitChanges.keyValuePairs.lookup key = _
      rw [Table.lookup_commitChanges]
      exact ht.mine i t hmem key
    · rw [Server.tables_release_not _ _ _ _ hmem, ht.only i hin t hmem key]
      rfl
  | @drops ts hmark =>
    rw [written_not (.inl hmark)]
    by_cases hmem : t ∈ ts
    · rw [Server.tables_release_mem _ _ _ _ hmem]; rfl
    · rw [Server.tables_release_not _ _ _ _ hmem]; rfl

/-- **Exactly the committed writes take effect.**  In every run from the start, a request changes
    the committed entries of the tables that exist by what it writes, and by nothing else; a SET
    answered OK stores the value that it pops. -/
theorem committed_writes {h : List (Event ι)} {w w' : World ι} {i : ι} {input : Input} {e : Event ι}
    (hrun : Run {} h w) (hstep : w.request i input = some (e, w')) :
    (∀ name key v, e.mark = .set name key v → e.before.stack = v :: e.after.stack) ∧
    ∀ t < w.server.next, ∀ key, (w'.server.tables t).keyValuePairs.lookup key
      = (e.written h t key).or ((w.server.tables t).keyValuePairs.lookup key) := by
  have hd := (hrun.wellLocked wellLocked_start).request hstep
  obtain ⟨-, -, rfl, -, -⟩ := World.request_inv hstep
  exact ⟨fun name key v => hd.popped, fun t hlt key => committed_deed hrun.tracks hd hlt key⟩

/-- One client sets a key in a transaction and commits. -/
theorem committed_writes_commit : ∃ (h : List (Event Unit)) (w w' : World Unit) (e : Event Unit),
    Run {} h w ∧ w.request () (.line "COMMIT\n".toList) = some (e, w') ∧
    e.written h 0 "k".toList = some "1".toList ∧
    (w'.server.tables 0).keyValuePairs.lookup "k".toList = some "1".toList := by
  have hperform : (({} : World Unit).perform (["SET t k\n", "PUSH 1\n", "BEGIN\n", "CREATE t\n",
      "LOGIN a\n"].map fun line => ((), .line line.toList))).any (fun r =>
        (r.2.request () (.line "COMMIT\n".toList)).any fun r' =>
          decide (0 < r.2.server.next ∧ r'.1.written r.1 0 "k".toList = some "1".toList)) = true := by
    decide +kernel
  obtain ⟨h, w, hrun, hw⟩ := Run.of_any hperform
  obtain ⟨⟨e, w'⟩, hreq, hval⟩ := (Option.any_eq_true _ _).mp hw
  obtain ⟨hlt, hwritten⟩ := of_decide_eq_true hval
  refine ⟨h, w, w', e, hrun, hreq, hwritten, ?_⟩
  rw [(committed_writes hrun hreq).2 0 hlt, hwritten]
  rfl

end BasicServer
