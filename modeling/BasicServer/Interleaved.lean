/-
  What atomicity says about the interleaved server.

  `atomic` turns a run of the server's threads, call by call, into a run of whole requests.  So what
  is known of whole requests holds of every interleaving in which each GET finds its key:

  1. **Reads and writes** (`interleaved_reads`) — a GET gives the last value that was committed for
     its key; without one, the value that the client itself has SET in its transaction.
  2. **Repeatable reads** (`repeatable`) — two GETs of a key in one transaction give the same value,
     unless the client itself SETs it in between.
  3. **Serializability** (`interleaved_serializable`) — the transactions could have run one by one.
-/
import BasicServer.Atomic

namespace BasicServer

open Function (update)

variable {ι : Type} [DecidableEq ι]

/-- What was made of a schedule whose GETs find their keys. -/
theorem found_chat {T : Chat ι} {ms : List (System.Move ι Input)} {P : Chat ι → Prop}
    [DecidablePred P] (h : (Trace.play ((serverSystem ι).restrict FindsKey) serveFound ms T).any
      (fun T' => decide (P T')) = true) :
    ∃ T', System.Leads ((serverSystem ι).restrict FindsKey) T T' ∧ P T' :=
  System.Leads.of_play (fun _ _ _ _ _ h => step_of_serveFound h) h

/-- What was completed on the way is what was put in front. -/
theorem done_take {T T' : Chat ι} {n : Nat}
    (h : System.Leads ((serverSystem ι).restrict FindsKey) T T')
    (hn : T'.done.length = T.done.length + n) :
    ∃ newer, T'.done = newer ++ T.done ∧ T'.done.take n = newer := by
  obtain ⟨newer, hdone⟩ := System.Leads.done h
  have hlen : newer.length = n := by
    rw [hdone, List.length_append] at hn
    omega
  refine ⟨newer, hdone, ?_⟩
  rw [hdone, ← hlen, List.take_left]

theorem requests_append (i : ι) (newer older : List (Event ι)) :
    requests i (newer ++ older) = requests i newer ++ requests i older := by
  rw [requests, List.map_append, past_append]
  rfl

/-! ## Reads and writes -/

/-- The value that a client is to get for a key after the history `h`. -/
def readable (i : ι) (inTransaction : Bool) (t : Ptr) (key : Str) (h : List (Event ι)) : Option Str :=
  (lastWritten t key h).or (if inTransaction then lastSet i t key h else none)

omit [DecidableEq ι] in
/-- A GET that is answered OK ran to its end. -/
theorem served_of_get {i : ι} {s s' : Session} {srv srv' : Server ι} {input : Input} {name key : Str}
    (hrun : MayRun i s srv) (hreq : request input = some ⟨.get, [name, key]⟩)
    (hok : s'.replies = [okLine]) (he : (process input s).exec (serve i) srv = some (s', srv')) :
    Served i (ready s) srv ⟨.get, [name, key]⟩ s' srv' := by
  cases input with
  | eof => cases hreq
  | line buf =>
    have hdec := decode_of_request hreq
    cases hfirst : s.firstValidMessage with
    | true =>
      -- before the login it is answered ERROR
      have hshape := process_shape hrun.isOpen (.line buf)
      generalize hp : process (.line buf) s = p at hshape he
      cases hshape with
      | empty => cases hdec
      | undecodable h => rw [hdec] at h; cases h
      | login h ht =>
        rw [hdec] at h
        obtain rfl := Except.ok.inj h
        cases ht
      | premature =>
        have hover := @exec_giveUp ι i srv
          (closed (answered (ready s) (errLine "Please log in first.".toList))) id hrun.nodup hrun.live
        obtain ⟨rfl, -⟩ := Prod.mk.inj (Option.some.inj (hover.symm.trans he))
        rw [show id (released _) = released _ from rfl, replies_released] at hok
        exact absurd (List.singleton_injective hok) (errLine_ne_okLine _)
      | request _ _ hlogged => rw [hfirst] at hlogged; cases hlogged
    | false =>
      have hready : MayRun i (ready s) srv :=
        ⟨hrun.live, hrun.mutex, hrun.isOpen, hrun.nodup, hrun.mine, hrun.noTx⟩
      rcases @served_or_waits ι i (ready s) srv hready .get (.inr rfl) name key with
        ⟨s₁, srv₁, h⟩ | ⟨t, hname, htx, hbusy⟩
      · have heq := (exec_of_served hrun hdec hfirst h).symm.trans he
        obtain ⟨rfl, rfl⟩ := Prod.mk.inj (Option.some.inj heq)
        exact h
      · rw [process_get hrun.isOpen hfirst hdec, getTree, exec_findTree hrun.live, hname] at he
        simp only [if_neg (show ¬ (ready s).inTransaction = true by rw [htx]; decide)] at he
        rw [exec_lock_busy hbusy] at he
        cases he

/-- What a GET finds: the last value committed, and without one what is pending. -/
theorem Turns.get_eq {w : World ι} {h : List (Event ι)} (hrun : Turns {} h w) {t : Ptr} {key v : Str}
    (hget : (w.server.tables t).get key = .ok v) :
    (lastWritten t key h).or ((w.server.tables t).pending key) = some v := by
  rw [Table.get_ok_iff, (hrun.committed t key).1] at hget
  exact hget

/-- In a table that nobody holds there is only what was committed. -/
theorem Turns.get_free {w : World ι} {h : List (Event ι)} (hrun : Turns {} h w) {t : Ptr}
    {key v : Str} (hfree : (w.server.tables t).mutex = none)
    (hget : (w.server.tables t).get key = .ok v) : lastWritten t key h = some v := by
  have hor := hrun.get_eq hget
  rw [hrun.tracks.clean t hfree key, (hrun.committed t key).1, Option.or_self] at hor
  exact hor

/-- A GET that was answered OK has found an entry `v` of the table `t`. -/
structure Gets (w : World ι) (e : Event ι) (w' : World ι) (name key : Str) (t : Ptr) (v : Str) : Prop where
  name : w.server.findTable name = some t
  found : (w.server.tables t).get key = .ok v
  pushed : e.after.stack = v :: e.before.stack
  tx : e.after.inTransaction = e.before.inTransaction
  inside : e.before.inTransaction = true → Acquires e.who e.before w.server t ∧
    t ∈ e.after.lockedTables ∧ (w'.server.tables t).get key = .ok v
  outside : e.before.inTransaction = false → (w.server.tables t).mutex = none

theorem Turn.gets {w w' : World ι} (hw : WellLocked w) {e : Event ι} (hstep : Turn w e w')
    {name key : Str} (hreq : request e.input = some ⟨.get, [name, key]⟩)
    (hok : e.after.replies = [okLine]) : ∃ t v, Gets w e w' name key t v := by
  cases hstep with
  | @refused i =>
    have hreplies : (refusal (w.sessions i)).replies
        = [failLine "Could not gain access to table.".toList] := replies_over rfl
    have hok' : (refusal (w.sessions i)).replies = [okLine] := hok
    rw [hreplies] at hok'
    exact absurd (List.singleton_injective hok').symm (okLine_ne _)
  | @served i input _ _ hreqw =>
    obtain ⟨hopen, hlive, rfl, -, hexec⟩ := World.request_inv hreqw
    have hserved := served_of_get (hw.mayRun hopen hlive) hreq hok hexec
    have hfails : ∀ {s₁ : Session} {what : Str}, s₁.replies = [] →
        w'.sessions i = answered (released s₁) (failLine what) → False := by
      intro s₁ what hno hs
      have hok' : (w'.sessions i).replies = [okLine] := hok
      rw [hs, replies_over hno] at hok'
      exact okLine_ne _ (List.singleton_injective hok').symm
    generalize hs' : w'.sessions i = s' at hserved hfails ⊢
    generalize hsrv' : w'.server = srv' at hserved
    cases hserved with
    | unknown | conflict => exact (hfails rfl rfl).elim
    | missTx => exact (hfails rfl rfl).elim
    | missAuto _ htx =>
      have hnot : released (ready (w.sessions i)) = ready (w.sessions i) :=
        if_neg (by rw [htx]; decide)
      exact (hfails rfl (congrArg (answered · _) hnot.symm)).elim
    | @getTx _ _ v t hname htx hacq hget =>
      have hin : (w.sessions i).inTransaction = true := htx
      refine ⟨t, v, hname, hget, rfl, rfl, fun _ => ⟨hacq, List.mem_insert_self, ?_⟩, fun hout => ?_⟩
      · rw [hsrv', Server.tables_setMutex]
        exact hget
      · exact absurd (hin.symm.trans hout) (by decide)
    | @getAuto _ _ v t hname htx hfree hget =>
      have hout : (w.sessions i).inTransaction = false := htx
      refine ⟨t, v, hname, hget, rfl, rfl, fun hin => ?_, fun _ => hfree⟩
      exact absurd (hin.symm.trans hout) (by decide)

/-- A GET that was answered OK found its table, and an entry that is readable. -/
theorem Turns.reads {w w' : World ι} {h : List (Event ι)} (hrun : Turns {} h w) {e : Event ι}
    (hstep : Turn w e w') {name key : Str} (hreq : request e.input = some ⟨.get, [name, key]⟩)
    (hok : e.after.replies = [okLine]) :
    ∃ t v, e.server.findTable name = some t ∧ e.after.stack = v :: e.before.stack ∧
      readable e.who e.before.inTransaction t key h = some v := by
  obtain ⟨t, v, hgets⟩ := hstep.gets (hrun.wellLocked wellLocked_start) hreq hok
  obtain ⟨-, -, he, -⟩ := hstep.inv
  have hserver : e.server = w.server := by rw [he]
  have hbefore : e.before = w.sessions e.who := by rw [he]
  refine ⟨t, v, hserver ▸ hgets.name, hgets.pushed, ?_⟩
  cases hin : e.before.inTransaction with
  | false =>
    rw [readable, hrun.get_free (hgets.outside hin) hgets.found]
    rfl
  | true =>
    rw [readable, if_pos rfl]
    rcases (hgets.inside hin).1 with ⟨hmem, -⟩ | ⟨-, hfree⟩
    · have hor := hrun.get_eq hgets.found
      rw [hrun.tracks.mine e.who t (hbefore ▸ hmem) key, (hrun.committed t key).1] at hor
      cases hl : lastWritten t key h with
      | some v' => rw [hl] at hor; exact hor
      | none => rw [hl, Option.or_none] at hor; exact hor
    · rw [hrun.get_free hfree hgets.found]
      rfl

/-- A run can be cut at each of its requests. -/
theorem Turns.cut {w₀ w : World ι} {newer older : List (Event ι)} {e : Event ι}
    (hrun : Turns w₀ (newer ++ e :: older) w) :
    ∃ w₁ w₂, Turns w₀ older w₁ ∧ Turn w₁ e w₂ ∧ Turns w₂ newer w := by
  induction newer generalizing w with
  | nil =>
    cases hrun with
    | snoc hrun hstep => exact ⟨_, _, hrun, hstep, .nil⟩
  | cons e' newer ih =>
    cases hrun with
    | snoc hrun hlast =>
      obtain ⟨w₁, w₂, hbefore, hstep, hafter⟩ := ih hrun
      exact ⟨w₁, w₂, hbefore, hstep, .snoc hafter hlast⟩

/-- **Reads and writes.**  The requests of an interleaving can be put in an order, that of each
    client included, in which every GET that was answered OK gave what was readable; and with no
    request under way, the committed entries are the last values written. -/
theorem interleaved_reads {T : Chat ι}
    (h : System.Leads ((serverSystem ι).restrict FindsKey) (opening ι) T) :
    ∃ (hist : List (Event ι)) (w : World ι), Turns {} hist w ∧ Explains T hist w ∧
      (∀ newer e older, hist = newer ++ e :: older → ∀ name key,
        request e.input = some ⟨.get, [name, key]⟩ → e.after.replies = [okLine] →
        ∃ t v, e.server.findTable name = some t ∧ e.after.stack = v :: e.before.stack ∧
          readable e.who e.before.inTransaction t key older = some v) ∧
      ((∀ i, ∃ s, T.config.threads i = .rest s) → ∀ t key,
        (T.config.shared.tables t).keyValuePairs.lookup key = lastWritten t key hist) := by
  obtain ⟨early, late, w₁, w₂, hturns, -, hf, -⟩ := follows_turns h .refl
  have hex := explains_of_follows hf
  refine ⟨early, w₁, hturns, hex, ?_, fun hrest t key => ?_⟩
  · rintro newer e older rfl name key hreq hok
    obtain ⟨w, w', hrun, hstep, -⟩ := hturns.cut
    exact hrun.reads hstep hreq hok
  · rw [← hex.server hrest]
    exact (hturns.committed t key).1

/-- A client reads what another one has committed, and then its own SET. -/
theorem interleaved_reads_own : ∃ (T : Chat Bool) (hist : List (Event Bool)) (w : World Bool),
    (past true T.done).map (fun e => e.2.stack)
      = [["2".toList, "1".toList], ["1".toList], ["2".toList, "1".toList], ["1".toList], [], []] ∧
    Turns {} hist w ∧ Explains T hist w ∧
    (∀ newer e older, hist = newer ++ e :: older → ∀ name key,
      request e.input = some ⟨.get, [name, key]⟩ → e.after.replies = [okLine] →
      ∃ t v, e.server.findTable name = some t ∧ e.after.stack = v :: e.before.stack ∧
        readable e.who e.before.inTransaction t key older = some v) := by
  obtain ⟨T, hlead, hstacks⟩ := @found_chat Bool _ (opening Bool)
    (told false "LOGIN a\n" 1 ++ told false "CREATE t\n" 5 ++ told false "PUSH 1\n" 1 ++
      told true "LOGIN b\n" 1 ++ told true "BEGIN\n" 1 ++ told false "SET t k\n" 6 ++
      told true "GET t k\n" 5 ++ told false "PUSH 3\n" 1 ++ told false "SET t j\n" 1 ++
      told true "PUSH 2\n" 1 ++ told true "SET t j\n" 3 ++ told true "GET t j\n" 4)
    (fun T => (past true T.done).map (fun e => e.2.stack)
      = [["2".toList, "1".toList], ["1".toList], ["2".toList, "1".toList], ["1".toList], [], []])
    inferInstance (by decide +kernel)
  obtain ⟨hist, w, hturns, hex, hreads, -⟩ := interleaved_reads hlead
  exact ⟨T, hist, w, hstacks, hturns, hex, hreads⟩

/-! ## Repeatable reads -/

/-- What a SET answered OK was. -/
theorem mark_set_inv {input : Input} {s s' : Session} {name key v : Str}
    (h : mark input s s' = .set name key v) : request input = some ⟨.set, [name, key]⟩ := by
  unfold mark at h
  split at h
  · split at h
    · cases h
    · cases h
    · rename_i hreq _
      obtain ⟨rfl, rfl, -⟩ := Mark.set.inj h
      exact hreq
    · cases h
  · cases h

omit [DecidableEq ι] in
/-- A client that has a table is in a transaction. -/
theorem WellLocked.inTransaction {w : World ι} (hw : WellLocked w) {i : ι} {t : Ptr}
    (hmem : t ∈ (w.sessions i).lockedTables) : (w.sessions i).inTransaction = true := by
  cases hin : (w.sessions i).inTransaction with
  | true => rfl
  | false => rw [hw.noTx i hin] at hmem; cases hmem

omit [DecidableEq ι] in
/-- What a client's own request does to an entry of a table that it keeps. -/
theorem Deed.kept {w : World ι} {i : ι} {s' : Session} {srv' : Server ι} {input : Input} {t : Ptr}
    {name key : Str} (hw : WellLocked w) (hone : OneName w)
    (hd : Deed i (w.sessions i) w.server input s' srv') (hmem : t ∈ (w.sessions i).lockedTables)
    (hgoes : s'.inTransaction = true) (hname : w.server.findTable name = some t)
    (hno : request input ≠ some ⟨.set, [name, key]⟩) :
    (srv'.tables t).get key = (w.server.tables t).get key := by
  have hin := hw.inTransaction hmem
  cases hd with
  | quiet | dies => rfl
  | begins _ _ hout | stores _ _ _ hout => exact absurd (hin.symm.trans hout) (by decide)
  | creates =>
    have hne : t ≠ w.server.next := by
      rintro rfl
      have hheld := (hw.held _ i).mpr hmem
      rw [hw.fresh _ le_rfl] at hheld
      cases hheld
    rw [Server.tables_createTable_ne _ _ _ hne]
  | @takes _ t₀ =>
    by_cases ht : t = t₀
    · subst ht
      rw [Server.setMutex_self _ _ ((hw.held t i).mpr hmem)]
    · rw [Server.tables_setMutex_ne _ _ _ ht]
  | @puts name' key' v t₀ hmark _ hname' =>
    by_cases ht : t = t₀
    · subst ht
      -- the table has no other name, so this is another key
      obtain rfl := hone _ _ _ hname hname'
      have hkey : key ≠ key' := by
        rintro rfl
        exact hno (mark_set_inv hmark)
      rw [Server.tables_setTable]
      exact (w.server.tables t).get_set_ne v hkey
    · rw [Server.tables_setTable_ne _ _ _ ht]
  | commits _ _ _ hout | drops _ _ _ hout => exact absurd (hgoes.symm.trans hout) (by decide)

/-- **An entry of a table that a client has** in a run of whole requests, as long as its transaction
    goes on and it does not SET that entry. -/
theorem Turns.kept {w₀ w : World ι} {h : List (Event ι)} (h₀ : WellLocked w₀) (hone : OneName w₀)
    (hrun : Turns w₀ h w) {i : ι} {t : Ptr} {name key : Str}
    (hmem : t ∈ (w₀.sessions i).lockedTables) (hname : w₀.server.findTable name = some t)
    (hgoes : ∀ e ∈ requests i h, e.2.inTransaction = true)
    (hno : ∀ e ∈ requests i h, request e.1 ≠ some ⟨.set, [name, key]⟩) :
    t ∈ (w.sessions i).lockedTables ∧ w.server.findTable name = some t ∧
      (w.server.tables t).get key = (w₀.server.tables t).get key := by
  induction hrun with
  | nil => exact ⟨hmem, hname, rfl⟩
  | @snoc h w w' e hrun hstep ih =>
    have hw := hrun.wellLocked h₀
    have hd := hw.turn_deed hstep
    obtain ⟨-, -, he, hsessions⟩ := hstep.inv
    by_cases hi : e.who = i
    · subst hi
      have hafter : e.after = w'.sessions e.who := by rw [he]
      have hcons : requests e.who (e :: h) = (e.input, w'.sessions e.who) :: requests e.who h := by
        rw [← hafter]
        exact past_cons_self e.who e.input e.after _
      rw [hcons] at hgoes hno
      obtain ⟨hlast, hgoes⟩ := List.forall_mem_cons.mp hgoes
      obtain ⟨hnot, hno⟩ := List.forall_mem_cons.mp hno
      obtain ⟨hmine, hfind, hsame⟩ := ih hgoes hno
      refine ⟨(hd.keeps (hw.inTransaction hmine) hlast).1 t hmine, hd.findTable hfind, ?_⟩
      exact (hd.kept hw (hrun.oneName h₀ hone) hmine hlast hfind hnot).trans hsame
    · have hskip : requests i (e :: h) = requests i h := past_cons_ne hi _
      rw [hskip] at hgoes hno
      obtain ⟨hmine, hfind, hsame⟩ := ih hgoes hno
      have hframe : w'.server.tables t = w.server.tables t := hw.frame hd (Ne.symm hi) hmine
      rw [hframe, hsessions, Function.update_of_ne (Ne.symm hi)]
      exact ⟨hmine, hd.findTable hfind, hsame⟩

/-- The session that a client's requests have led to. -/
def after : List (Input × Session) → Session
  | [] => {}
  | (_, s) :: _ => s

theorem Turns.session {w : World ι} {h : List (Event ι)} (hrun : Turns {} h w) (i : ι) :
    w.sessions i = after (requests i h) := by
  induction hrun with
  | nil => rfl
  | @snoc h w w' e _ hstep ih =>
    obtain ⟨-, -, he, hsessions⟩ := hstep.inv
    by_cases hi : e.who = i
    · subst hi
      have hcons : requests e.who (e :: h) = (e.input, e.after) :: requests e.who h :=
        past_cons_self ..
      rw [hcons, after, he]
    · have hskip : requests i (e :: h) = requests i h := past_cons_ne hi _
      rw [hskip, hsessions, Function.update_of_ne (Ne.symm hi)]
      exact ih

/-- Each request of a client is one of the history. -/
theorem requests_split {i : ι} {h : List (Event ι)} {later earlier : List (Input × Session)}
    {input : Input} {s : Session} (hreq : requests i h = later ++ (input, s) :: earlier) :
    ∃ newer e older, h = newer ++ e :: older ∧ e.who = i ∧ e.input = input ∧ e.after = s ∧
      requests i newer = later ∧ requests i older = earlier := by
  induction h generalizing later with
  | nil => exact absurd hreq.symm (List.append_ne_nil_of_right_ne_nil _ (List.cons_ne_nil _ _))
  | cons e h ih =>
    by_cases hi : e.who = i
    · subst hi
      have hcons : requests e.who (e :: h) = (e.input, e.after) :: requests e.who h :=
        past_cons_self ..
      rw [hcons] at hreq
      cases later with
      | nil =>
        obtain ⟨hhead, htail⟩ := List.cons.inj hreq
        obtain ⟨hinput, hs⟩ := Prod.mk.inj hhead
        exact ⟨[], e, h, rfl, rfl, hinput, hs, rfl, htail⟩
      | cons x later =>
        obtain ⟨rfl, htail⟩ := List.cons.inj hreq
        obtain ⟨newer, e', older, rfl, hwho, hinput, hs, hnewer, holder⟩ := ih htail
        refine ⟨e :: newer, e', older, rfl, hwho, hinput, hs, ?_, holder⟩
        rw [← hnewer]
        exact past_cons_self ..
    · have hskip : ∀ l, requests i (e :: l) = requests i l := fun l => past_cons_ne hi _
      rw [hskip] at hreq
      obtain ⟨newer, e', older, rfl, hwho, hinput, hs, hnewer, holder⟩ := ih hreq
      exact ⟨e :: newer, e', older, rfl, hwho, hinput, hs, (hskip newer).trans hnewer, holder⟩

/-- What a client has completed is in the history. -/
theorem Explains.past_of {T : Chat ι} {h : List (Event ι)} {w : World ι} (hex : Explains T h w) (i : ι) :
    ∃ now, requests i h = now ++ past i T.done := by
  cases hc : T.config.threads i with
  | rest s => exact ⟨[], (hex.rest i s hc).2⟩
  | busy p =>
    obtain ⟨input, -, hpast | ⟨s', hpast⟩⟩ := hex.busy i p hc
    · exact ⟨[], hpast⟩
    · exact ⟨[(input, s')], hpast⟩

/-- **Repeatable reads.**  Two GETs of a key that a client makes in one transaction, both answered OK,
    push the same value, if the client does not SET that key in between, whatever else it does, and
    whatever the others do. -/
theorem repeatable {T : Chat ι} {i : ι} {name key : Str} {input₁ input₂ : Input} {s₁ s₂ : Session}
    {later between earlier : List (Input × Session)}
    (h : System.Leads ((serverSystem ι).restrict FindsKey) (opening ι) T)
    (hpast : past i T.done = later ++ (input₂, s₂) :: (between ++ (input₁, s₁) :: earlier))
    (hget₁ : request input₁ = some ⟨.get, [name, key]⟩) (hok₁ : s₁.replies = [okLine])
    (hget₂ : request input₂ = some ⟨.get, [name, key]⟩) (hok₂ : s₂.replies = [okLine])
    (hin : s₁.inTransaction = true) (hgoes : ∀ e ∈ between, e.2.inTransaction = true)
    (hno : ∀ e ∈ between, request e.1 ≠ some ⟨.set, [name, key]⟩) :
    ∃ v, s₁.stack = v :: (after earlier).stack ∧
      s₂.stack = v :: (after (between ++ (input₁, s₁) :: earlier)).stack := by
  obtain ⟨hist, -, w, -, hturns, -, hf, -⟩ := follows_turns h .refl
  obtain ⟨now, hnow⟩ := (explains_of_follows hf).past_of i
  rw [hpast, ← List.append_assoc] at hnow
  obtain ⟨_, e₂, older₂, rfl, rfl, rfl, rfl, -, holder₂⟩ := requests_split hnow
  obtain ⟨mid, e₁, older₁, rfl, hwho, rfl, rfl, hmid, holder₁⟩ := requests_split holder₂
  obtain ⟨w₃, w₄, hrun₃, hstep₂, -⟩ := hturns.cut
  obtain ⟨w₁, w₂, hrun₁, hstep₁, hrun₂⟩ := hrun₃.cut
  have hw₁ := hrun₁.wellLocked wellLocked_start
  have hw₂ := hw₁.turn hstep₁
  obtain ⟨t₁, v, hgets₁⟩ := hstep₁.gets hw₁ hget₁ hok₁
  obtain ⟨t₂, v', hgets₂⟩ := hstep₂.gets (hrun₃.wellLocked wellLocked_start) hget₂ hok₂
  obtain ⟨-, -, he₁, -⟩ := hstep₁.inv
  obtain ⟨-, -, he₂, -⟩ := hstep₂.inv
  have hbefore₁ : e₁.before = after earlier := by
    rw [he₁, ← holder₁, hwho]
    exact hrun₁.session e₂.who
  have hbefore₂ : e₂.before = after (between ++ (e₁.input, e₁.after) :: earlier) := by
    rw [he₂, ← holder₂]
    exact hrun₃.session e₂.who
  -- the table stays locked in between
  obtain ⟨-, hmem, hfound⟩ := hgets₁.inside (hgets₁.tx ▸ hin)
  have hafter₁ : e₁.after = w₂.sessions e₂.who := by rw [he₁, hwho]
  have hone₂ := (hrun₁.oneName wellLocked_start oneName_start).deed hw₁ (hw₁.turn_deed hstep₁) rfl
  rw [← hmid] at hgoes hno
  obtain ⟨-, hname, hsame⟩ := hrun₂.kept hw₂ hone₂ (hafter₁ ▸ hmem)
    ((hw₁.turn_deed hstep₁).findTable hgets₁.name) hgoes hno
  obtain rfl := Option.some.inj (hname.symm.trans hgets₂.name)
  obtain rfl := Except.ok.inj (hfound.symm.trans (hsame.symm.trans hgets₂.found))
  refine ⟨v, ?_, ?_⟩
  · rw [← hbefore₁]
    exact hgets₁.pushed
  · rw [← hbefore₂]
    exact hgets₂.pushed

/-- A client's last four requests: it has read `k` of `t` twice, and not SET it in between. -/
def readTwice : List (Input × Session) → Bool
  | (input₂, s₂) :: e :: e' :: (input₁, s₁) :: _ =>
    request input₁ = some ⟨.get, ["t".toList, "k".toList]⟩ ∧ s₁.replies = [okLine] ∧
    request input₂ = some ⟨.get, ["t".toList, "k".toList]⟩ ∧ s₂.replies = [okLine] ∧
    s₁.inTransaction = true ∧ ∀ d ∈ [e, e'], d.2.inTransaction = true ∧
      request d.1 ≠ some ⟨.set, ["t".toList, "k".toList]⟩
  | _ => false

/-- Between its two GETs a client SETs another key, and another client waits to SET this one. -/
theorem repeatable_get : ∃ (T : Chat Bool) (s₁ s₂ : Session) (between earlier : List (Input × Session))
    (input₁ input₂ : Input) (v : Str),
    past false T.done = (input₂, s₂) :: (between ++ (input₁, s₁) :: earlier) ∧
    between.map (fun e => e.2.stack) = [["1".toList], ["3".toList, "1".toList]] ∧
    (T.config.threads true).call?.map (·.call) = some (.lock 0) ∧
    s₁.stack = v :: (after earlier).stack ∧
    s₂.stack = v :: (after (between ++ (input₁, s₁) :: earlier)).stack := by
  obtain ⟨T, hlead, hwaits, hstacks, htwice⟩ := @found_chat Bool _ (opening Bool)
    (told false "LOGIN a\n" 1 ++ told false "CREATE t\n" 5 ++ told false "PUSH 1\n" 1 ++
      told false "SET t k\n" 6 ++ told false "BEGIN\n" 1 ++ told false "GET t k\n" 5 ++
      told false "PUSH 3\n" 1 ++ told true "LOGIN b\n" 1 ++ told true "PUSH 2\n" 1 ++
      -- find_table
      told true "SET t k\n" 1 ++ told false "SET t j\n" 3 ++ told false "GET t k\n" 4)
    (fun T => (T.config.threads true).call?.map (·.call) = some (.lock 0) ∧
      (((past false T.done).drop 1).take 2).map (fun e => e.2.stack)
        = [["1".toList], ["3".toList, "1".toList]] ∧
      readTwice (past false T.done) = true) inferInstance (by decide +kernel)
  generalize hpast : past false T.done = l at hstacks htwice
  unfold readTwice at htwice
  split at htwice
  · rename_i input₂ s₂ e e' input₁ s₁ earlier
    obtain ⟨hget₁, hok₁, hget₂, hok₂, hin, hbetween⟩ := of_decide_eq_true htwice
    have hall : past false T.done = [] ++ (input₂, s₂) :: ([e, e'] ++ (input₁, s₁) :: earlier) := hpast
    obtain ⟨v, h₁, h₂⟩ := repeatable hlead hall hget₁ hok₁ hget₂ hok₂ hin
      (fun d hd => (hbetween d hd).1) fun d hd => (hbetween d hd).2
    exact ⟨T, s₁, s₂, [e, e'], earlier, input₁, input₂, v, hpast, hstacks, hwaits, h₁, h₂⟩
  · cases htwice

/-! ## Serializability -/

/-- The client does not make this request. -/
def Omits (ty : MessageType) (input : Input) : Prop :=
  ∀ msg, request input = some msg → msg.mMessageType ≠ ty

/-- The run of whole requests that explains a part of a run. -/
theorem settled_turns {T₁ T₂ : Chat ι} {newer : List (Done ι Input Session)}
    (h₁ : System.Leads ((serverSystem ι).restrict FindsKey) (opening ι) T₁)
    (h₂ : System.Leads ((serverSystem ι).restrict FindsKey) T₁ T₂)
    (hidle : ∀ i, ∃ s, T₁.config.threads i = .rest s ∧ s.inTransaction = false)
    (hrest : ∀ i, ∃ s, T₂.config.threads i = .rest s) (hdone : T₂.done = newer ++ T₁.done) :
    ∃ (late : List (Event ι)) (w₁ w₂ : World ι), Turns w₁ late w₂ ∧ w₁.Settled ∧
      w₁.server = T₁.config.shared ∧ w₂.server = T₂.config.shared ∧
      (∀ i, T₁.config.threads i = .rest (w₁.sessions i)) ∧ ∀ i, requests i late = past i newer := by
  obtain ⟨early, late, w₁, w₂, hearly, hlate, hf₁, hf₂⟩ := follows_turns h₁ h₂
  have hex₁ := explains_of_follows hf₁
  have hex₂ := explains_of_follows hf₂
  have hserver₁ : w₁.server = T₁.config.shared := hex₁.server fun i => by
    obtain ⟨s, hs, -⟩ := hidle i
    exact ⟨s, hs⟩
  have hsessions : ∀ i, T₁.config.threads i = .rest (w₁.sessions i) := by
    intro i
    obtain ⟨s, hs, -⟩ := hidle i
    rw [hs, (hex₁.rest i s hs).1]
  have hrequests : ∀ i, requests i late = past i newer := by
    intro i
    obtain ⟨s, hs⟩ := hrest i
    have hpast := (hex₂.rest i s hs).2
    rw [requests_append, (hex₁.rest i _ (hsessions i)).2, hdone, past_append] at hpast
    exact List.append_cancel_right hpast
  -- the run of whole requests starts where no transaction is open
  have hlocked := hearly.wellLocked wellLocked_start
  have hout : ∀ i, (w₁.sessions i).inTransaction = false := by
    intro i
    obtain ⟨s, hs, hin⟩ := hidle i
    rw [(hex₁.rest i s hs).1]
    exact hin
  have hsettled : w₁.Settled :=
    ⟨hlocked, hout, fun t => hearly.tracks.clean t (hlocked.free hout t)⟩
  exact ⟨late, w₁, w₂, hlate, hsettled, hserver₁, hex₂.server hrest, hsessions, hrequests⟩

/-- What holds of the requests holds of the events. -/
theorem forall_events {late : List (Event ι)} {newer : List (Done ι Input Session)}
    {p : Input → Session → Prop} (hrequests : ∀ i, requests i late = past i newer)
    (hp : ∀ d ∈ newer, p d.input d.after) : ∀ e ∈ late, p e.input e.after := by
  intro e he
  have hmem : (e.input, e.after) ∈ requests e.who late :=
    mem_past.mpr (List.mem_map.mpr ⟨e, he, rfl⟩)
  rw [hrequests] at hmem
  exact hp _ (mem_past.mp hmem)

/-- **Serializability of the interleaved server.**  From a moment at which nothing is under way and
    no transaction is open to one at which nothing is under way: if no table is created and the
    process goes on, then the requests made in between can be put in an order, that of each client
    included, whose transactions could as well have been carried out one by one, with the same
    responses and the same committed entries. -/
theorem interleaved_serializable {T₁ T₂ : Chat ι} {newer : List (Done ι Input Session)}
    (h₁ : System.Leads ((serverSystem ι).restrict FindsKey) (opening ι) T₁)
    (h₂ : System.Leads ((serverSystem ι).restrict FindsKey) T₁ T₂)
    (hidle : ∀ i, ∃ s, T₁.config.threads i = .rest s ∧ s.inTransaction = false)
    (hrest : ∀ i, ∃ s, T₂.config.threads i = .rest s) (hdone : T₂.done = newer ++ T₁.done)
    (hfixed : ∀ d ∈ newer, Omits .create d.input)
    (hlive : T₂.config.shared.aborted = false) :
    ∃ (late : List (Event ι)) (w₁ w₂ : World ι), Turns w₁ late w₂ ∧
      w₁.server = T₁.config.shared ∧ (∀ i, T₁.config.threads i = .rest (w₁.sessions i)) ∧
      (∀ i, requests i late = past i newer) ∧
      ∃ srv, replay (blocks late) T₁.config.shared
          = some ((blocks late).map fun b => (b.replies, b.final), srv) ∧
        ∀ t key, (srv.tables t).keyValuePairs.lookup key
          = (T₂.config.shared.tables t).keyValuePairs.lookup key := by
  obtain ⟨late, w₁, w₂, hlate, hsettled, hserver₁, hserver₂, hsessions, hrequests⟩ :=
    settled_turns h₁ h₂ hidle hrest hdone
  have hfixed' := forall_events (p := fun input _ => Omits .create input) hrequests hfixed
  have hlive' : w₂.server.aborted = false := by
    rw [hserver₂]
    exact hlive
  obtain ⟨srv, hreplay, -, hsame⟩ := (hlate.serial hsettled hfixed' hlive').replayed
  rw [hserver₁] at hreplay
  rw [← hserver₂]
  exact ⟨late, w₁, w₂, hlate, hserver₁, hsessions, hrequests, srv, hreplay, hsame⟩

/-- Two transactions on one table, of which one fails. -/
theorem interleaved_serializable_two : ∃ (T₁ T₂ : Chat Bool) (late : List (Event Bool))
    (w₁ w₂ : World Bool), Turns w₁ late w₂ ∧
    (past true T₂.done).head?.map (fun e => e.2.stack) = some ["1".toList, "2".toList] ∧
    ∃ srv, replay (blocks late) T₁.config.shared
        = some ((blocks late).map fun b => (b.replies, b.final), srv) ∧
      ∀ t key, (srv.tables t).keyValuePairs.lookup key
        = (T₂.config.shared.tables t).keyValuePairs.lookup key := by
  obtain ⟨T₁, hlead₁, hidle, hmore⟩ := @found_chat Bool _ (opening Bool)
    (told false "LOGIN a\n" 1 ++ told false "CREATE t\n" 5 ++ told true "LOGIN b\n" 1 ++
      told true "PUSH 2\n" 1 ++ told false "PUSH 1\n" 1)
    (fun T₁ => (∀ i, (T₁.config.threads i).rest?.map (·.inTransaction) = some false) ∧
      (Trace.play ((serverSystem Bool).restrict FindsKey) serveFound
        (told false "BEGIN\n" 1 ++ told true "BEGIN\n" 1 ++ told false "SET t k\n" 2 ++
          told true "SET t k\n" 4 ++ List.replicate 2 (.go false) ++ told false "COMMIT\n" 2 ++
          told true "GET t k\n" 1 ++ List.replicate 2 (.go false) ++ List.replicate 5 (.go true)) T₁).any
        (fun T₂ => decide ((past true T₂.done).head?.map (fun e => e.2.stack)
            = some ["1".toList, "2".toList] ∧
          (∀ i, (T₂.config.threads i).rest?.isSome = true) ∧ T₂.config.shared.aborted = false ∧
          T₂.done.length = T₁.done.length + 6 ∧ (T₂.done.take 6).all (fun d =>
            (request d.input).all (·.mMessageType ≠ .create)) = true)) = true)
    inferInstance (by decide +kernel)
  obtain ⟨T₂, hlead₂, hstack, hrest, hlive, hlen, hall⟩ := found_chat hmore
  obtain ⟨newer, hdone, hnewer⟩ := done_take hlead₂ hlen
  rw [hnewer] at hall
  obtain ⟨late, w₁, w₂, hturns, -, -, -, srv, hreplay⟩ := interleaved_serializable hlead₁ hlead₂
    (fun i => by
      obtain ⟨s, hs, hin⟩ := Option.map_eq_some_iff.mp (hidle i)
      exact ⟨s, Thread.rest?_eq_some hs, hin⟩)
    (fun i => by
      obtain ⟨s, hs⟩ := Option.isSome_iff_exists.mp (hrest i)
      exact ⟨s, Thread.rest?_eq_some hs⟩) hdone
    (fun d hd msg hmsg => by
      have hno := List.all_eq_true.mp hall d hd
      rw [hmsg] at hno
      exact of_decide_eq_true hno) hlive
  exact ⟨T₁, T₂, late, w₁, w₂, hturns, hstack, srv, hreplay⟩

end BasicServer
