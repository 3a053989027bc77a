/-
  The server that carries out whole requests, one after the other.

  `Turn` differs from `World.request` in one point: a SET or GET in a transaction may fail to gain
  access to a table that nobody holds (`Turn.refused`).  In the interleaved server that happens:
  another client may hold the table for an autocommit request, or may have committed and not have
  unlocked it yet.

  A refusal is a deed like the others, a rollback (`WellLocked.turn_deed`), so what is known of runs
  of whole requests carries over:

  1. `Turns.wellLocked`, `Turns.tracks` — who holds which table, and what is pending in it.
  2. **Which writes take effect** (`Turns.committed`) — a committed entry is the last one written.
  3. **Serializability** (`Turns.serial`).
-/
import BasicServer.Serial
import BasicServer.Lib.History

namespace BasicServer

open Function (update)

/-! ## The server that carries out whole requests -/

section Turns

variable {ι : Type} [DecidableEq ι]

/-- What is recorded of a request. -/
def Event.done (e : Event ι) : Done ι Input Session := ⟨e.who, e.input, e.after⟩

/-- The session that could not get hold of a table. -/
def refusal (s : Session) : Session :=
  answered (released (ready s)) (failLine "Could not gain access to table.".toList)

/-- `Turn w e w'` — a whole request. -/
inductive Turn (w : World ι) : Event ι → World ι → Prop
  | served {i : ι} {input : Input} {e : Event ι} {w' : World ι}
      (h : w.request i input = some (e, w')) : Turn w e w'
  | refused {i : ι} {input : Input} {mt : MessageType} {name key : Str} {t : Ptr}
      (hopen : (w.sessions i).loopInProgress = true) (hlive : w.server.aborted = false)
      (hreq : request input = some ⟨mt, [name, key]⟩) (hmt : UsesTable (w.sessions i) mt)
      (hname : w.server.findTable name = some t) (hin : (w.sessions i).inTransaction = true)
      (hnot : t ∉ (w.sessions i).lockedTables) :
      Turn w ⟨i, input, w.server, w.sessions i, refusal (w.sessions i)⟩
        ⟨w.server.ended (w.sessions i), update w.sessions i (refusal (w.sessions i))⟩

/-- `Turns w₀ h w` — the requests of `h`, of which the head is the last, lead from `w₀` to `w`. -/
inductive Turns (w₀ : World ι) : List (Event ι) → World ι → Prop
  | nil : Turns w₀ [] w₀
  | snoc {h : List (Event ι)} {w w' : World ι} {e : Event ι} (hrun : Turns w₀ h w)
      (hstep : Turn w e w') : Turns w₀ (e :: h) w'

variable {w w' : World ι} {e : Event ι}

/-- What a turn needs, and what is recorded of it. -/
theorem Turn.inv (h : Turn w e w') : (w.sessions e.who).loopInProgress = true ∧
    w.server.aborted = false ∧
    e = ⟨e.who, e.input, w.server, w.sessions e.who, w'.sessions e.who⟩ ∧
    w'.sessions = update w.sessions e.who (w'.sessions e.who) := by
  cases h with
  | served h =>
    obtain ⟨hopen, hlive, rfl, hsessions, -⟩ := World.request_inv h
    exact ⟨hopen, hlive, rfl, hsessions⟩
  | refused hopen hlive =>
    refine ⟨hopen, hlive, ?_, ?_⟩ <;> simp only [Function.update_self]

omit [DecidableEq ι] in
/-- A refusal gives the transaction up. -/
theorem deed_refused {i : ι} {s : Session} {srv : Server ι} {input : Input}
    (hin : s.inTransaction = true) : Deed i s srv input (refusal s) (srv.ended s) := by
  have hmark : mark input s (refusal s) = .other := by
    refine mark_not_ok fun hok => ?_
    have hreplies : (refusal s).replies = [failLine "Could not gain access to table.".toList] :=
      replies_over rfl
    rw [hreplies] at hok
    exact okLine_ne _ (List.singleton_injective hok).symm
  have hend : released (ready s) = dropped (ready s) := if_pos hin
  rw [Server.ended_of_tx _ _ hin]
  refine .drops hmark hin ?_ ?_ (fun _ ht => ht) fun _ ht => .inl ht
  · rw [refusal, hend]; rfl
  · rw [refusal, hend]; rfl

/-- Every turn is a deed of its client. -/
theorem WellLocked.turn_deed (hw : WellLocked w) (h : Turn w e w') :
    Deed e.who (w.sessions e.who) w.server e.input (w'.sessions e.who) w'.server := by
  cases h with
  | served h =>
    have hd := hw.request h
    obtain ⟨-, -, rfl, -, -⟩ := World.request_inv h
    exact hd
  | refused hopen hlive hreq hmt hname hin hnot =>
    simp only [Function.update_self]
    exact deed_refused hin

theorem WellLocked.turn (hw : WellLocked w) (h : Turn w e w') : WellLocked w' := by
  have hstep := hw.deed (hw.turn_deed h)
  obtain ⟨-, -, -, hsessions⟩ := h.inv
  rwa [← hsessions] at hstep

theorem Turns.wellLocked {w₀ : World ι} {h : List (Event ι)} (h₀ : WellLocked w₀)
    (hrun : Turns w₀ h w) : WellLocked w := by
  induction hrun with
  | nil => exact h₀
  | snoc _ hstep ih => exact ih.turn hstep

theorem Turns.oneName {w₀ w : World ι} {h : List (Event ι)} (h₀ : WellLocked w₀) (hone : OneName w₀)
    (hrun : Turns w₀ h w) : OneName w := by
  induction hrun with
  | nil => exact hone
  | snoc hrun hstep ih =>
    have hw := hrun.wellLocked h₀
    exact ih.deed hw (hw.turn_deed hstep) rfl

/-- The pending entries are tracked in every run. -/
theorem Turns.tracks {h : List (Event ι)} (hrun : Turns {} h w) : Tracks w h := by
  induction hrun with
  | nil => exact tracks_start
  | @snoc h w w' e hrun hstep ih =>
    have hw := hrun.wellLocked wellLocked_start
    have hd := hw.turn_deed hstep
    obtain ⟨-, -, he, hsessions⟩ := hstep.inv
    have hnext := ih.deed hw hd
    rw [← hsessions] at hnext
    rw [he]
    exact hnext

end Turns

/-! ## Which writes take effect -/

section Committed

variable {ι : Type} [DecidableEq ι]

/-- The last value that a history has written under the key of a table. -/
def lastWritten (t : Ptr) (key : Str) : List (Event ι) → Option Str
  | [] => none
  | e :: h => (e.written h t key).or (lastWritten t key h)

/-- Nothing is written to a table that is not there yet. -/
theorem unwritten_deed {w : World ι} {h : List (Event ι)} {i : ι} {input : Input} {s' : Session}
    {srv' : Server ι} (hw : WellLocked w) (ht : Tracks w h)
    (hd : Deed i (w.sessions i) w.server input s' srv') {t : Ptr} (hle : w.server.next ≤ t) (key : Str)
    (hnone : (w.server.tables t).keyValuePairs.lookup key = none) :
    (⟨i, input, w.server, w.sessions i, s'⟩ : Event ι).written h t key = none ∧
      (srv'.tables t).keyValuePairs.lookup key = none := by
  have hunnamed : ∀ {name t₀}, w.server.findTable name = some t₀ → t ≠ t₀ := by
    rintro name t₀ hname rfl
    exact absurd (hw.names name t hname) (Nat.not_lt.mpr hle)
  have hfree : t ∉ (w.sessions i).lockedTables := by
    intro hmem
    have hheld := (hw.held t i).mpr hmem
    rw [hw.fresh t hle] at hheld
    cases hheld
  cases hd with
  | quiet hmark | dies hmark => exact ⟨written_not (.inl hmark), hnone⟩
  | begins hmark => exact ⟨written_not (.inr hmark), hnone⟩
  | creates hmark =>
    refine ⟨written_not (.inl hmark), ?_⟩
    by_cases heq : t = w.server.next
    · rw [heq, Server.tables_createTable]; rfl
    · rw [Server.tables_createTable_ne _ _ _ heq]; exact hnone
  | stores hmark _ hname =>
    rw [written_set hmark, if_neg fun h => hunnamed h.2.1 rfl]
    exact ⟨rfl, by rw [Server.tables_setTable_ne _ _ _ (hunnamed hname)]; exact hnone⟩
  | takes hmark hname =>
    refine ⟨written_not (.inl hmark), ?_⟩
    rw [Server.tables_setMutex_ne _ _ _ (hunnamed hname)]
    exact hnone
  | puts hmark _ hname =>
    rw [written_set hmark, if_neg fun h => hunnamed h.2.1 rfl]
    exact ⟨rfl, by rw [Server.tables_setTable_ne _ _ _ (hunnamed hname)]; exact hnone⟩
  | commits hmark hin =>
    rw [written_commit hmark, Server.tables_release_not _ _ _ _ hfree]
    exact ⟨ht.only i hin t hfree key, hnone⟩
  | @drops ts hmark =>
    refine ⟨written_not (.inl hmark), ?_⟩
    by_cases hmem : t ∈ ts
    · rw [Server.tables_release_mem _ _ _ _ hmem]; exact hnone
    · rw [Server.tables_release_not _ _ _ _ hmem]; exact hnone

/-- **A committed entry is the last one written**, and there is none in a table that is not there. -/
theorem Turns.committed {w : World ι} {h : List (Event ι)} (hrun : Turns {} h w) (t : Ptr) (key : Str) :
    (w.server.tables t).keyValuePairs.lookup key = lastWritten t key h ∧
      (w.server.next ≤ t → lastWritten t key h = none) := by
  induction hrun with
  | nil => exact ⟨rfl, fun _ => rfl⟩
  | @snoc h w w' e hrun hstep ih =>
    obtain ⟨hlookup, hfresh⟩ := ih
    have hw := hrun.wellLocked wellLocked_start
    have hd := hw.turn_deed hstep
    obtain ⟨-, -, he, -⟩ := hstep.inv
    by_cases hlt : t < w.server.next
    · have hwrite := committed_deed hrun.tracks hd hlt key
      rw [← he, hlookup] at hwrite
      refine ⟨hwrite, fun hle => absurd hlt (Nat.not_lt.mpr (Nat.le_trans ?_ hle))⟩
      rcases hd.names with ⟨hnext, -⟩ | ⟨name, -, hsrv⟩
      · exact Nat.le_of_eq hnext.symm
      · rw [hsrv]
        exact Nat.le_succ _
    · have hle := Nat.not_lt.mp hlt
      obtain ⟨hnone, hlookup'⟩ :=
        unwritten_deed hw hrun.tracks hd hle key (hlookup.trans (hfresh hle))
      rw [← he] at hnone
      rw [hlookup', lastWritten, hnone, hfresh hle]
      exact ⟨rfl, fun _ => rfl⟩

end Committed

/-! ## Serializability -/

section Serializability

variable {ι : Type} [DecidableEq ι]

/-- A refusal drops an open transaction, which the replay has not seen. -/
theorem Serial.refused {srv₀ : Server ι} {w w' : World ι} {l : Ledger ι} {e : Event ι}
    (hs : Serial srv₀ w l) (hturn : Turn w e w') (hin : (w.sessions e.who).inTransaction = true)
    (hafter : w'.sessions e.who = refusal (w.sessions e.who))
    (hfixed : ∀ msg, request e.input = some msg → msg.mMessageType ≠ .create) :
    Serial srv₀ w' (l.record e) := by
  have hd := hs.locked.turn_deed hturn
  obtain ⟨-, -, he, hsessions⟩ := hturn.inv
  have hend : released (ready (w.sessions e.who)) = dropped (ready (w.sessions e.who)) := if_pos hin
  have hout : (w'.sessions e.who).inTransaction = false := by
    rw [hafter, refusal, hend]
    rfl
  have hm : BasicServer.mark e.input (w.sessions e.who) (w'.sessions e.who) ≠ .commit := by
    intro hcommit
    obtain ⟨hok, -⟩ := mark_commit_inv hcommit
    have hreplies : (refusal (w.sessions e.who)).replies
        = [failLine "Could not gain access to table.".toList] := replies_over rfl
    rw [hafter, hreplies] at hok
    exact okLine_ne _ (List.singleton_injective hok).symm
  have hmark : e.mark ≠ .commit := by
    rw [he]
    exact hm
  have hnames : w'.server.tableNames = w.server.tableNames := by
    rcases hd.names with ⟨-, hnames⟩ | ⟨name, hreq, -⟩
    · exact hnames
    · exact absurd rfl (hfixed _ hreq)
  have hother : ∀ {j}, j ≠ e.who → w'.sessions j = w.sessions j := fun hj => by
    rw [hsessions, Function.update_of_ne hj]
  have hafter' : e.after.inTransaction = false := by
    rw [he]
    exact hout
  have hsameW := hd.sameCommitted hin hm hfixed
  obtain ⟨b, hb, -, -⟩ := hs.opened e.who hin
  have hrecord := record_dropped hb hmark hafter'
  refine ⟨hs.locked.turn hturn, hd.clean hs.clean, fun j hin' => ?_, fun j hout' => ?_, ?_⟩
  · have hj : j ≠ e.who := by
      rintro rfl
      rw [hout] at hin'
      cases hin'
    rw [hother hj] at hin'
    obtain ⟨b', hb', hwho, hredo⟩ := hs.opened j hin'
    exact ⟨b', (record_others hj).trans hb', hwho,
      hredo.frame (hother hj) (fun t ht => hs.locked.frame hd hj ht) hnames⟩
  · by_cases hj : j = e.who
    · rw [hrecord, hj]
      exact Function.update_self ..
    · rw [hother hj] at hout'
      exact (record_others hj).trans (hs.closed j hout')
  · rw [hrecord, hnames]
    obtain ⟨q, hreplay, hq, hsame⟩ := hs.replayed
    exact ⟨q, hreplay, hq, fun t k => (hsame t k).trans (hsameW t k).symm⟩

/-- The step lemma of the simulation, with refusals. -/
theorem Serial.turn {srv₀ : Server ι} {w w' : World ι} {l : Ledger ι} {e : Event ι}
    (hs : Serial srv₀ w l) (hturn : Turn w e w')
    (hfixed : ∀ msg, request e.input = some msg → msg.mMessageType ≠ .create)
    (hlive : w'.server.aborted = false) : Serial srv₀ w' (l.record e) := by
  have hturn' := hturn
  cases hturn with
  | served h =>
    obtain ⟨-, -, he, -, -⟩ := World.request_inv h
    rw [he] at hfixed
    exact hs.step h hfixed hlive
  | refused _ _ _ _ _ hin _ => exact hs.refused hturn' hin (Function.update_self ..) hfixed

theorem Turns.serial {w₀ w : World ι} {h : List (Event ι)} (h₀ : w₀.Settled) (hrun : Turns w₀ h w)
    (hfixed : ∀ e ∈ h, ∀ msg, request e.input = some msg → msg.mMessageType ≠ .create)
    (hlive : w.server.aborted = false) : Serial w₀.server w (ledger h) := by
  induction hrun with
  | nil => exact Serial.start h₀ hlive
  | snoc _ hstep ih =>
    obtain ⟨-, hlive₀, -, -⟩ := hstep.inv
    have hbefore := ih (fun e he => hfixed e (List.mem_cons_of_mem _ he)) hlive₀
    exact hbefore.turn hstep (hfixed _ List.mem_cons_self) hlive

end Serializability

end BasicServer
