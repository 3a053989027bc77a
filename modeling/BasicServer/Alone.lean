/-
  A client that is alone with the server: `incr_value`, with the option `-t` and without
  (`incr_value.cpp`).

  The clients of `Client` send a message, read one line, and go on if it is an OK.  So they exit with 0
  exactly if their requests are all answered OK, and when that is so, `Programs` tells.

  1. **The client and its session** (`run_of_exits`, `alwaysExits_of_run`).
  2. **A program as a client** (`exits_of_gives`) — it always exits with 0 if the program has a meaning,
     and never if it has none; and it leaves the entries that the program means.
  3. **`incr_value`** (`incr_exits`) — with `-t` and without, alone it does the same.
-/
import BasicServer.Programs
import BasicServer.SetValue

namespace BasicServer

open Commands
open Message (maxEncodedLen)
open Overlay (Map)
open Words (IsWord)

/-! ## The client and its session -/

section Requests

variable {ι : Type} {i : ι} {msgs : List Message} {ops : List Operation} {l l' : Link ι}

theorem talk_step_sent {msg : Message} {line : Str} {before : List (List Str)} {s s' : Session}
    {srv srv' : Server ι} (h : SentAs msg line)
    (he : (process (.line line) s).exec (serve i) srv = some (s', srv')) :
    Talk.step i msg ⟨before, s, srv⟩ = some ⟨before ++ [s'.replies], s', srv'⟩ := by
  rw [Talk.step, h.received]
  simp only [he, Option.map_some]

/-- What a client exits with 0 after was answered OK. -/
theorem run_of_exits {out : List Str} (hsent : ∀ msg ∈ msgs, ∃ line, SentAs msg line)
    (hl : l.unread = []) (h : Exits i (msgs.map .expectOk ++ ops) l out l')
    (before : List (List Str)) :
    ∃ rs s srv, run (Talk.step i) msgs ⟨before, l.peer.session, l.peer.server⟩
        = some ⟨before ++ rs, s, srv⟩ ∧ (∀ r ∈ rs, r = [okLine]) ∧
      Exits i ops ⟨{ l.peer with session := s, server := srv }, []⟩ out l' := by
  induction msgs generalizing l out before with
  | nil =>
    obtain ⟨peer, unread⟩ := l
    subst hl
    exact ⟨[], peer.session, peer.server, by rw [List.append_nil]; rfl,
      fun r hr => absurd hr List.not_mem_nil, h⟩
  | cons msg msgs ih =>
    obtain ⟨⟨line, hline⟩, hsent⟩ := List.forall_mem_cons.mp hsent
    rw [List.map_cons, List.cons_append] at h
    cases h with
    | cons hask hzero hdrop h =>
      obtain ⟨hok, rfl⟩ := expectOk_zero hzero
      obtain ⟨hp, s', srv', he, hreply, rfl⟩ := ask_ok hline hl hask hok
      obtain rfl := hdrop.eq rfl
      obtain ⟨rs, s, srv, hrun, hall, hexits⟩ := ih hsent rfl h (before ++ [s'.replies])
      refine ⟨s'.replies :: rs, s, srv, ?_, List.forall_mem_cons.mpr ⟨hreply, hall⟩, hexits⟩
      rw [run, talk_step_sent hline he, Option.bind_some, hrun, List.append_assoc]
      rfl

/-- A session that has answered OK goes on. -/
theorem open_of_ok {s s' : Session} {line : Str} {msg : Message} (hout : Outcome s (.line line) s')
    (hopen : s.loopInProgress = true) (hdec : decode line {} = .ok msg)
    (htype : msg.mMessageType ∉ [.login, .bye]) (hok : s'.replies = [okLine]) :
    s'.loopInProgress = true := by
  have hlogin : msg.mMessageType ≠ .login := fun heq => htype (heq ▸ List.mem_cons_self)
  obtain ⟨-, ha⟩ := answer_of_ok hout hdec hlogin hok
  cases ha with
  | computes | begin | commit | created | set | got => exact hopen
  | kills => cases hok
  | bye => exact absurd (List.mem_cons_of_mem _ List.mem_cons_self) htype
  | overlong =>
    rw [replies_over rfl] at hok
    exact absurd (List.singleton_injective hok) (errLine_ne_okLine _)
  | refuses | failed | bound =>
    rw [replies_over rfl] at hok
    exact absurd (List.singleton_injective hok).symm (okLine_ne _)

/-- If its requests are answered OK, the client goes on. -/
theorem alwaysExits_of_run {Q : List Str → Prop} {c c' : Talk ι}
    (hsent : ∀ msg ∈ msgs, ∃ line, SentAs msg line)
    (htypes : ∀ msg ∈ msgs, msg.mMessageType ∉ [.login, .bye])
    (hp : (⟨c.server, c.session, false⟩ : Peer ι).Listens)
    (hrun : run (Talk.step i) msgs c = some c') (hok : c'.AllOk)
    (h : (⟨c'.server, c'.session, false⟩ : Peer ι).Listens →
      AlwaysExits i ops ⟨⟨c'.server, c'.session, false⟩, []⟩ Q) :
    AlwaysExits i (msgs.map .expectOk ++ ops) ⟨⟨c.server, c.session, false⟩, []⟩ Q := by
  induction msgs generalizing c with
  | nil =>
    obtain rfl := Option.some.inj hrun
    exact h hp
  | cons msg msgs ih =>
    obtain ⟨⟨line, hline⟩, hsent⟩ := List.forall_mem_cons.mp hsent
    obtain ⟨hhead, htypes⟩ := List.forall_mem_cons.mp htypes
    obtain ⟨c₁, hstep, hrun⟩ := Option.bind_eq_some_iff.mp hrun
    have hok₁ := good_run talk_good hrun hok
    rw [Talk.step, hline.received] at hstep
    obtain ⟨⟨s', srv'⟩, he, rfl⟩ := Option.map_eq_some_iff.mp hstep
    have hreply : s'.replies = [okLine] := hok₁ _ (List.mem_append_right _ List.mem_cons_self)
    have hask := ask_reply (l := ⟨⟨c.server, c.session, false⟩, []⟩) hline rfl hp he hreply
      legible_okLine
    obtain ⟨m, hdec⟩ := decoded_of_ok (exec_outcome hp.2.1 he) hreply
    have htype : m.mMessageType = msg.mMessageType := by
      obtain ⟨w, hw, rfl, -⟩ := encode_inv hline.encoded
      exact decode_lineOf_type hw hdec
    have hopen := open_of_ok (exec_outcome hp.2.1 he) hp.2.1 hdec (htype ▸ hhead) hreply
    have hlive := live_of_replies hp.2.1 hp.2.2 he (hreply ▸ List.cons_ne_nil okLine [])
    exact .cons hask (expectOk_okLine msg) rfl (ih hsent htypes ⟨rfl, hopen, hlive⟩ hrun)

end Requests

/-! ## A program as a client -/

/-- LOGIN, the requests of a program, and BYE. -/
def clientOf (username : Str) (body : List Message) : List Operation :=
  .expectOk (loginOperation username) :: (body.map .expectOk ++ [.expectOk byeOperation])

section Program

variable {ι : Type} {i : ι} {names : Map Str Ptr} {srv : Server ι} {username line : Str}
  {body : List Message} {out : Option Entries}

/-- The session after LOGIN. -/
theorem outside_login (hidle : Idle names srv) :
    Outside i names srv.entries [] ⟨[[okLine]], answered (loggedIn (ready {})) okLine, srv⟩ :=
  ⟨rfl, rfl, rfl, rfl, rfl, hidle, fun _ _ => rfl, fun _ hr => List.mem_singleton.mp hr⟩

/-- **A program as a client**: it exits with 0 if the program has a meaning, and only then; and the
    entries are what the program means. -/
theorem exits_of_gives (hidle : Idle names srv) (hlogin : SentAs (loginOperation username) line)
    (hdec : decode line {} = .ok (loginOperation username))
    (hsent : ∀ msg ∈ body, ∃ line, SentAs msg line)
    (htypes : ∀ msg ∈ body, msg.mMessageType ∉ [.login, .bye])
    (hgives : Gives (Talk.step i) Talk.AllOk (Outside i names srv.entries []) body out
      fun final => Outside i names final []) :
    (∀ final, out = some final → AlwaysExits i (clientOf username body) (connect srv) (fun outs => outs = [])) ∧
    ∀ outs l, Exits i (clientOf username body) (connect srv) outs l →
      out = some l.peer.server.entries ∧ Idle names l.peer.server := by
  have hstart := @outside_login ι i names srv hidle
  constructor
  · intro final hout
    obtain ⟨c', hrun, hc'⟩ := hgives.computes hstart hout
    have he : (process (.line line) {}).exec (serve i) srv
        = some (answered (loggedIn (ready {})) okLine, srv) := by
      rw [process_login rfl hdec rfl]
      rfl
    have hask := ask_reply (l := connect srv) hlogin rfl ⟨rfl, rfl, hidle.live⟩ he rfl legible_okLine
    refine .cons hask (expectOk_okLine _) rfl ?_
    refine alwaysExits_of_run hsent htypes ⟨rfl, rfl, hidle.live⟩ hrun hc'.ok fun hp => ?_
    have hbye : (process (.line "BYE\n".toList) c'.session).exec (serve i) c'.server
        = some (answered (closed (ready c'.session)) okLine, c'.server) :=
      exec_bye hc'.first hc'.tx decode_bye
    have hask := ask_reply (l := ⟨⟨c'.server, c'.session, false⟩, []⟩) sentAs_bye rfl hp hbye rfl
      legible_okLine
    exact .cons hask (expectOk_okLine _) rfl rfl
  · intro outs l h
    rw [clientOf] at h
    cases h with
    | cons hask hzero hdrop h =>
      obtain ⟨hok, rfl⟩ := expectOk_zero hzero
      obtain ⟨-, -, rfl⟩ := ask_login hlogin rfl hask hok
      obtain rfl := hdrop.eq rfl
      obtain ⟨rs, s, srv', hrun, hall, h⟩ := run_of_exits hsent rfl h [[okLine]]
      have hok' : (⟨[[okLine]] ++ rs, s, srv'⟩ : Talk ι).AllOk :=
        List.forall_mem_cons.mpr ⟨rfl, hall⟩
      cases hout : out with
      | none => exact absurd hok' (hgives.fails hstart hout hrun)
      | some final =>
        obtain ⟨c', hrun', hc'⟩ := hgives.computes hstart hout
        obtain rfl := Option.some.inj (hrun'.symm.trans hrun)
        -- BYE leaves the server as it is
        cases h with
        | cons hask hzero hdrop h =>
          cases h
          obtain ⟨-, s', srv₁, he, -, rfl⟩ := ask_ok sentAs_bye rfl hask (expectOk_zero hzero).1
          have hbye : (process (.line "BYE\n".toList) s).exec (serve i) srv'
              = some (answered (closed (ready s)) okLine, srv') := exec_bye hc'.first hc'.tx decode_bye
          obtain ⟨-, rfl⟩ := Prod.mk.inj (Option.some.inj (he.symm.trans hbye))
          have hfinal : final = srv₁.entries := by
            funext t k
            exact (hc'.committed t k).symm
          rw [hdrop.1]
          exact ⟨congrArg some hfinal, hc'.idle⟩

end Program

/-! ## `incr_value` -/

/-- `main`, where `use_transaction` says whether there is the option `-t`. -/
def IncrValue.operations (c : IncrValue) (useTransaction : Bool) : List Operation :=
  .expectOk (loginOperation c.username) ::
    ((if useTransaction then [.expectOk beginOperation] else []) ++
      [.expectOk (getOperation c.table c.key), .expectOk pushOperation, .expectOk addOperation,
        .expectOk (setOperation c.table c.key)] ++
      (if useTransaction then [.expectOk commitOperation] else []) ++ [.expectOk byeOperation])

theorem isWord_one : IsWord isspace "1".toList := by decide

theorem fits_one : (lineOf "PUSH".toList ["1".toList]).length ≤ maxEncodedLen := by decide

/-- What `main` does to its key. -/
def IncrValue.increment (c : IncrValue)
    (fits : (lineOf "SET".toList [c.table, c.key]).length ≤ maxEncodedLen) : Assignment :=
  let e : Entry := ⟨c.table, c.key, c.table_ok, c.key_ok, fits⟩
  ⟨e, .node .add (.leaf (.entry e)) (.leaf (.literal ⟨"1".toList, isWord_one, fits_one⟩))⟩

/-- The entries after an increment, if the key has a value that can be incremented. -/
def incremented (names : Map Str Ptr) (es : Entries) (table key : Str) : Option Entries :=
  (names.lookup table).bind fun t => (es t key).bind fun v =>
    (Operator.add.apply v "1".toList).map (es.write t key)

/-- The value is one more, where that is an `int`. -/
theorem incremented_exact {names : Map Str Ptr} {es : Entries} {table key v : Str} {t : Ptr} {n : Int}
    (ht : names.lookup table = some t) (hv : es t key = some v) (hn : stoi v = .ok n)
    (hfits : FitsInt (n + 1)) :
    incremented names es table key = some (es.write t key (toStr (n + 1))) := by
  have hone : stoi "1".toList = .ok 1 := by decide
  have hadd : Operator.add.apply v "1".toList = some (toStr (n + 1)) :=
    Operator.apply_exact hn hone rfl hfits
  rw [incremented, ht, Option.bind_some, hv, Option.bind_some, hadd]
  rfl

section Increment

variable {ι : Type} {i : ι} {names : Map Str Ptr} {srv : Server ι} {c : IncrValue}

/-- An increment means the same in a transaction and outside. -/
theorem denote_increment {see : Entries → Entries} {es : Entries} (hsee : see es = es)
    (fits : (lineOf "SET".toList [c.table, c.key]).length ≤ maxEncodedLen) :
    denote names see [c.increment fits] es = incremented names es c.table c.key := by
  simp only [IncrValue.increment, denote, Expr.eval, Leaf.value, if_neg one_there, incremented, hsee,
    Option.bind_some]
  cases names.lookup c.table with
  | none => rfl
  | some t =>
    simp only [Option.bind_some]
    cases es t c.key with
    | none => rfl
    | some v =>
      simp only [Option.bind_some]
      cases Operator.add.apply v "1".toList <;> rfl

/-- The requests of an increment are one line each. -/
theorem sent_increment (fits : (lineOf "SET".toList [c.table, c.key]).length ≤ maxEncodedLen)
    {msg : Message} (h : msg ∈ transaction [c.increment fits]) :
    (∃ line, SentAs msg line) ∧ msg.mMessageType ∉ [.login, .bye] := by
  have hone : ∀ arg ∈ ["1".toList], '\n' ∉ arg ∧ '\x00' ∉ arg :=
    List.forall_mem_singleton.mpr ⟨by decide, by decide⟩
  have hentry : ∀ arg ∈ [c.table, c.key], '\n' ∉ arg ∧ '\x00' ∉ arg := by
    intro arg harg
    rcases List.mem_pair.mp harg with rfl | rfl
    · exact ident_plain c.table_ok
    · exact ident_plain c.key_ok
  have hno : ∀ arg ∈ ([] : List Str), '\n' ∉ arg ∧ '\x00' ∉ arg := fun _ h => absurd h List.not_mem_nil
  have hmem : msg ∈ [beginOperation, getOperation c.table c.key, pushOperation, addOperation,
      setOperation c.table c.key, commitOperation] := h
  simp only [List.mem_cons, List.not_mem_nil, or_false] at hmem
  have hargs : ∀ arg ∈ msg.mArgs, '\n' ∉ arg ∧ '\x00' ∉ arg := by
    rcases hmem with rfl | rfl | rfl | rfl | rfl | rfl
    exacts [hno, hentry, hone, hno, hentry, hno]
  obtain ⟨⟨_, hrec, -⟩, htype⟩ := intact_of_mem h
  obtain ⟨line, henc⟩ := encoded_of_received hrec
  refine ⟨⟨line, sentAs henc hargs⟩, fun hmem => htype ?_⟩
  have hsub : ∀ t ∈ [MessageType.login, .bye], t ∈ [MessageType.login, .create, .bye] := by decide
  exact hsub _ hmem

/-- **`incr_value`, alone with the server**, does the same with `-t` and without.  It always exits with
    0 if the table is there and the key has a value that can be incremented.  If it may exit with 0,
    then that is so; the value was incremented, and nothing else has changed. -/
theorem incr_exits (useTransaction : Bool) (hidle : Idle names srv)
    (huser : Message.isValidIdentifier c.username = .ok true)
    (hlogin : (lineOf "LOGIN".toList [c.username]).length ≤ maxEncodedLen)
    (fits : (lineOf "SET".toList [c.table, c.key]).length ≤ maxEncodedLen) :
    (∀ final, incremented names srv.entries c.table c.key = some final →
      AlwaysExits i (c.operations useTransaction) (connect srv) fun outs => outs = []) ∧
    ∀ outs l, Exits i (c.operations useTransaction) (connect srv) outs l →
      incremented names srv.entries c.table c.key = some l.peer.server.entries ∧
      Idle names l.peer.server := by
  have hargs : ∀ arg ∈ [c.username], '\n' ∉ arg ∧ '\x00' ∉ arg :=
    List.forall_mem_singleton.mpr (ident_plain huser)
  have hspoken : Spoken (loginOperation c.username) (lineOf "LOGIN".toList [c.username]) :=
    spoken rfl (by decide) hlogin (List.forall_mem_singleton.mpr (isWord_of_ident huser))
      (fun arg harg => (hargs arg harg).2)
      ((isValid_takesIdents rfl rfl).mpr (List.forall_mem_singleton.mpr huser))
  have hsentLogin := sentAs (@encode_ok (loginOperation c.username) _ rfl hlogin) hargs
  have hsent := @sent_increment c fits
  cases useTransaction with
  | true =>
    have hsee : srv.entries.under srv.entries = srv.entries := by
      funext t k
      exact Option.or_self
    have hden : denote names (·.under srv.entries) [c.increment fits] srv.entries
        = incremented names srv.entries c.table c.key := denote_increment hsee fits
    rw [← hden]
    exact exits_of_gives hidle hsentLogin hspoken.decoded (fun msg hmsg => (hsent hmsg).1)
      (fun msg hmsg => (hsent hmsg).2) (transaction_gives _)
  | false =>
    -- the requests between BEGIN and COMMIT
    have hmem : ∀ msg ∈ [c.increment fits].flatMap Assignment.code, msg ∈ transaction [c.increment fits] :=
      fun msg hmsg => List.mem_cons_of_mem _ (List.mem_append_left _ hmsg)
    have hden : denote names id [c.increment fits] srv.entries
        = incremented names srv.entries c.table c.key := denote_increment rfl fits
    rw [← hden]
    exact exits_of_gives hidle hsentLogin hspoken.decoded (fun msg hmsg => (hsent (hmem msg hmsg)).1)
      (fun msg hmsg => (hsent (hmem msg hmsg)).2) (Outside.assign _ _)

end Increment

/-- The arguments of a client that increments `k`. -/
def incrThere : IncrValue := ⟨"a".toList, "t".toList, "k".toList, (ident_plain rfl).1, rfl, rfl⟩

theorem incremented_there : incremented withEntry.tableNames withEntry.entries "t".toList "k".toList
    = some (withEntry.entries.write 0 "k".toList "42".toList) := by
  have hn : stoi "41".toList = .ok 41 := by decide
  exact incremented_exact rfl rfl hn (by decide)

/-- Without `-t` it may exit with 0, and with `-t` it always does. -/
theorem incr_exits_there : ∃ outs l,
    Exits () (incrThere.operations false) (connect withEntry) outs l ∧
    (l.peer.server.tables 0).keyValuePairs.lookup "k".toList = some "42".toList ∧
    AlwaysExits () (incrThere.operations true) (connect withEntry) fun outs => outs = [] := by
  have hrun : (exitsWith () (incrThere.operations false) (connect withEntry)).isSome = true := by
    decide +kernel
  obtain ⟨⟨outs, l⟩, hrun⟩ := Option.isSome_iff_exists.mp hrun
  have h := exits_of_exitsWith hrun
  have hidle := outside_there.idle
  have hincr := ((incr_exits (c := incrThere) false hidle (by decide) (by decide) (by decide)).2 outs l h).1
  have hentries := Option.some.inj (incremented_there.symm.trans hincr)
  refine ⟨outs, l, h, ?_, ?_⟩
  · show l.peer.server.entries 0 "k".toList = _
    rw [← hentries]
    rfl
  · exact (incr_exits (c := incrThere) true hidle (by decide) (by decide) (by decide)).1 _
      incremented_there

end BasicServer
