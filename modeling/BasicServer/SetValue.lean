/-
  What `set_value` stores, `get_value` prints (`set_value.cpp`, `get_value.cpp`).

  Both put their arguments into messages without looking at them.  A space in an argument ends a
  word, and a newline ends a line: a value `7\nPUSH 8` is two requests, each is answered OK, and the
  one answer that `set_value` reads says nothing about the other.  `set_value` then reports success,
  and the table holds 8.

  1. **Only then** (`GetValue.printed`) — if `get_value` prints a value in every run, its arguments
     have no newline (`unread_nil`: it begins with nothing unread after the LOGIN and after the GET,
     so these were one line each), and what it prints is a word that fits a DATA line.
  2. **Then always** (`SetValue.stored`, `GetValue.prints`) — from the OK answers, one line at a
     time: the value is in the table under the names that `decode` finds in the SET line, and it
     finds the same ones in the GET line.
-/
import BasicServer.Client

namespace BasicServer

open Message (maxEncodedLen)

/-! ## The programs -/

/-- A string of `argv`. -/
abbrev Arg : Type := { s : Str // '\x00' ∉ s }

/-- The arguments of `get_value`. -/
structure GetValue where
  username : Arg
  table : Arg
  key : Arg

/-- The arguments of `set_value`. -/
structure SetValue where
  username : Arg
  table : Arg
  key : Arg
  value : Arg

/-- `handle_top_response`. -/
def handleTopResponse (buf : Str) : Except Exn (Int × List Str) := do
  let topResponse ← decode buf {}
  if topResponse.mMessageType = .data then
    if topResponse.mArgs.length < 1 then
      return (-1, [])
    let data ← topResponse.getArg 0
    return (0, [data])
  else if topResponse.mMessageType = .error ∨ topResponse.mMessageType = .failed then
    let _ ← topResponse.getArg 0
    return (-1, [])
  return (-1, [])

/-- `top_operation`. -/
def topOperation : Message := ⟨.top, []⟩

/-- An operation whose response is given to `handle_possible_ok_response`. -/
def Operation.expectOk (msg : Message) : Operation where
  msg := msg
  handle buf := do return (← handlePossibleOkResponse buf, [])
  decodes h := by
    obtain ⟨_, h, -⟩ := ok_bind.mp h
    obtain ⟨m, hdec, -⟩ := ok_bind.mp h
    exact ⟨m, hdec⟩

/-- An operation whose response is given to `handle_top_response`. -/
def Operation.expectData (msg : Message) : Operation where
  msg := msg
  handle := handleTopResponse
  decodes h := by
    obtain ⟨m, hdec, -⟩ := ok_bind.mp h
    exact ⟨m, hdec⟩

/-- `push_operation` of `set_value`. -/
def SetValue.pushOperation (value : Str) : Message := Message.pushArg ⟨.push, []⟩ value

/-- `main` of `set_value`. -/
def SetValue.main (a : SetValue) : List Operation :=
  [.expectOk (loginOperation a.username), .expectOk (pushOperation a.value),
    .expectOk (setOperation a.table a.key), .expectOk byeOperation]

/-- `main` of `get_value`. -/
def GetValue.main (g : GetValue) : List Operation :=
  [.expectOk (loginOperation g.username), .expectOk (getOperation g.table g.key),
    .expectData topOperation, .expectOk byeOperation]

/-- `get_value` with the same username, table and key. -/
def SetValue.getValue (a : SetValue) : GetValue := ⟨a.username, a.table, a.key⟩

/-! ## The handlers -/

theorem expectOk_zero {msg : Message} {buf : Str} {out : List Str}
    (h : (Operation.expectOk msg).handle buf = .ok (0, out)) :
    handlePossibleOkResponse buf = .ok 0 ∧ out = [] := by
  obtain ⟨r, hr, h⟩ := ok_bind.mp h
  obtain ⟨rfl, rfl⟩ := Prod.mk.inj (Except.ok.inj h)
  exact ⟨hr, rfl⟩

theorem expectOk_okLine (msg : Message) : (Operation.expectOk msg).handle okLine = .ok (0, []) := by
  have h : handlePossibleOkResponse okLine = .ok 0 := by decide
  show (handlePossibleOkResponse okLine >>= fun r => .ok (r, [])) = _
  rw [h]
  rfl

/-- What `handle_top_response` prints is the first argument of a DATA. -/
theorem handleTopResponse_zero {buf : Str} {out : List Str} (h : handleTopResponse buf = .ok (0, out)) :
    ∃ data args, decode buf {} = .ok ⟨.data, data :: args⟩ ∧ out = [data] := by
  obtain ⟨m, hdec, h⟩ := ok_bind.mp h
  split at h
  · rename_i ht
    obtain ⟨t, args⟩ := m
    obtain rfl : t = .data := ht
    cases args with
    | nil => exact absurd (Prod.mk.inj (Except.ok.inj h)).1 (by decide)
    | cons data args => exact ⟨data, args, hdec, (Prod.mk.inj (Except.ok.inj h)).2.symm⟩
  · split at h
    · obtain ⟨_, -, h⟩ := ok_bind.mp h
      exact absurd (Prod.mk.inj (Except.ok.inj h)).1 (by decide)
    · exact absurd (Prod.mk.inj (Except.ok.inj h)).1 (by decide)

/-- No response is an OK and a DATA. -/
theorem ok_not_data {buf : Str} {out : List Str} (h : handlePossibleOkResponse buf = .ok 0) :
    handleTopResponse buf ≠ .ok (0, out) := by
  intro htop
  obtain ⟨m, hdec, ht⟩ := handlePossibleOkResponse_zero h
  obtain ⟨data, args, hdec', -⟩ := handleTopResponse_zero htop
  obtain rfl := Except.ok.inj (hdec.symm.trans hdec')
  cases ht

/-! ## What is printed in every run -/

/-- **A value that `get_value` always prints** is a word that fits a DATA line, and no argument has a
    newline in it. -/
theorem GetValue.printed {ι : Type} {i : ι} {g : GetValue} {srv : Server ι} {v : Str}
    (h : AlwaysExits i g.main (connect srv) fun outs => outs = [v]) :
    '\n' ∉ g.username.val ∧ '\n' ∉ g.table.val ∧ '\n' ∉ g.key.val ∧
      Words.IsWord isspace v ∧ v.length + 6 < maxEncodedLen := by
  obtain ⟨login, l₁, out₁, hlogin, hzero₁, h₁⟩ := h
  obtain ⟨get, l₂, out₂, hget, hzero₂, h₂⟩ := h₁ l₁ (.refl l₁)
  obtain ⟨top, l₃, out₃, htop, hzero₃, h₃⟩ := h₂ l₂ (.refl l₂)
  obtain ⟨bye, l₄, out₄, -, hzero₄, h₄⟩ := h₃ l₃ (.refl l₃)
  obtain ⟨enc₁, henc₁, -⟩ := ask_inv hlogin
  obtain ⟨enc₂, henc₂, -⟩ := ask_inv hget
  obtain ⟨enc₃, henc₃, -⟩ := ask_inv htop
  obtain ⟨-, hended₁, -⟩ := ask_legible (.inl rfl) hlogin hzero₁ henc₁
  obtain ⟨-, hended₂, -⟩ := ask_legible hended₁ hget hzero₂ henc₂
  obtain ⟨hlegible, -⟩ := ask_legible hended₂ htop hzero₃ henc₃
  -- a GET expects an OK, the TOP after it a DATA, the BYE after that an OK
  have hnew₁ : l₁.unread = [] := by
    refine unread_nil hended₁ (fun buf out out' hok htop => ?_) h₁
    exact ok_not_data (expectOk_zero hok).1 htop
  have hnew₂ : l₂.unread = [] := by
    refine unread_nil hended₂ (fun buf out out' htop hok => ?_) h₂
    exact ok_not_data (expectOk_zero hok).1 htop
  have hone₁ := one_line rfl henc₁ hlogin hzero₁ hnew₁ (h₁ l₁ (.refl l₁))
  have hone₂ := one_line hnew₁ henc₂ hget hzero₂ hnew₂ (h₂ l₂ (.refl l₂))
  have hargs₁ := no_newline_of_one henc₁ hone₁
  have hargs₂ := no_newline_of_one henc₂ hone₂
  obtain ⟨data, args, hdec, rfl⟩ := handleTopResponse_zero hzero₃
  obtain ⟨-, rfl⟩ := expectOk_zero hzero₁
  obtain ⟨-, rfl⟩ := expectOk_zero hzero₂
  obtain ⟨-, rfl⟩ := expectOk_zero hzero₄
  obtain rfl : data = v := (List.cons.inj (h₄ l₄ (.refl l₄))).1
  obtain ⟨w, hw, hwords, hle⟩ := decode_shape hdec (by simp)
  obtain rfl : "DATA".toList = w := Except.ok.inj hw
  have hfits := hlegible.fits
  have hle' : (lineOf "DATA".toList (data :: args)).length ≤ top.length := hle
  have hlen : data.length + 6 ≤ (lineOf "DATA".toList (data :: args)).length := by
    simp only [lineOf, Words.joined_cons, List.length_append, List.length_cons]
    have hdata : "DATA".toList.length = 4 := rfl
    omega
  refine ⟨?_, ?_, ?_, hwords data (List.mem_cons_self ..), by omega⟩
  · exact hargs₁ _ (List.mem_singleton_self _)
  · exact hargs₂ _ (List.mem_cons_self ..)
  · exact hargs₂ _ (List.mem_cons_of_mem _ (List.mem_singleton_self _))

/-! ## What is stored when every answer is OK -/

/-- No newline where it would end a line, no space where it would end a word, and the value is not
    too long for a DATA line. -/
structure SetValue.Clean (a : SetValue) : Prop where
  username : '\n' ∉ a.username.val
  table : '\n' ∉ a.table.val
  key : '\n' ∉ a.key.val
  value : ∀ c ∈ a.value.val, isspace c = false
  short : a.value.val.length + 6 < maxEncodedLen

/-- What `get_value` looks for is there, and it is `v`. -/
structure GetValue.Finds {ι : Type} (g : GetValue) (srv : Server ι) (v : Str) : Prop where
  live : srv.aborted = false
  login : ∃ line m, SentAs (loginOperation g.username) line ∧ decode line {} = .ok m ∧
    m.mMessageType = .login
  get : ∃ line name key t, SentAs (getOperation g.table g.key) line ∧
    decode line {} = .ok ⟨.get, [name, key]⟩ ∧ srv.findTable name = some t ∧
    (srv.tables t).mutex = none ∧ (srv.tables t).get key = .ok v

section Answered

variable {ι : Type} {i : ι} {l l₁ : Link ι} {line buf : Str}

/-- LOGIN. -/
theorem ask_login {username : Str} (h : SentAs (loginOperation username) line) (hl : l.unread = [])
    (hask : l.ask i (loginOperation username) = some (buf, l₁))
    (hok : handlePossibleOkResponse buf = .ok 0) :
    l.peer.Listens ∧ (∃ m, decode line {} = .ok m ∧ m.mMessageType = .login) ∧
      l₁ = ⟨{ l.peer with session := answered (loggedIn (ready l.peer.session)) okLine }, []⟩ := by
  obtain ⟨hp, s', srv', he, hreply, rfl⟩ := ask_ok h hl hask hok
  obtain ⟨m, hdec⟩ := decoded_of_ok (exec_outcome hp.2.1 he) hreply
  have ht : m.mMessageType = .login := by
    obtain ⟨w, hw, rfl, -⟩ := encode_inv h.encoded
    exact decode_lineOf_type hw hdec
  rw [process_login hp.2.1 hdec ht] at he
  obtain ⟨rfl, rfl⟩ := Prod.mk.inj (Option.some.inj he)
  exact ⟨hp, ⟨m, hdec, ht⟩, rfl⟩

/-- A word is pushed as it is. -/
theorem decode_push {v : Str} (h : SentAs (SetValue.pushOperation v) line)
    (hv : Words.IsWord isspace v) : decode line {} = .ok ⟨.push, [v]⟩ := by
  obtain ⟨w, hw, rfl, hlen⟩ := encode_inv h.encoded
  have hspace : v.all isspace = false := by
    obtain ⟨c, rest, rfl⟩ := List.exists_cons_of_ne_nil hv.1
    rw [List.all_cons, hv.2 c (List.mem_cons_self ..), Bool.false_and]
  have hvalid : Message.isValid ⟨.push, [v]⟩ = .ok true := by
    simp [Message.isValid, Message.argIdx, hspace, bind, Except.bind, pure, Except.pure]
  exact decode_lineOf hw (by simp [SetValue.pushOperation, Message.pushArg]) hlen
    (List.forall_mem_singleton.mpr hv) hvalid {}

/-- PUSH. -/
theorem ask_push {v : Str} (h : SentAs (SetValue.pushOperation v) line) (hl : l.unread = [])
    (hfirst : l.peer.session.firstValidMessage = false) (hv : ∀ c ∈ v, isspace c = false)
    (hask : l.ask i (SetValue.pushOperation v) = some (buf, l₁))
    (hok : handlePossibleOkResponse buf = .ok 0) : Words.IsWord isspace v ∧
      l₁ = ⟨{ l.peer with
        session := answered { ready l.peer.session with stack := v :: l.peer.session.stack } okLine },
        []⟩ := by
  obtain ⟨hp, s', srv', he, hreply, rfl⟩ := ask_ok h hl hask hok
  have hword : Words.IsWord isspace v := by
    refine ⟨?_, hv⟩
    -- PUSH without an argument is no message
    rintro rfl
    obtain ⟨m, hdec⟩ := decoded_of_ok (exec_outcome hp.2.1 he) hreply
    obtain rfl : "PUSH \n".toList = line := Except.ok.inj h.encoded
    exact absurd hdec (by rw [show decode "PUSH \n".toList {} = .error _ from rfl]; exact nofun)
  rw [process_computes hp.2.1 hfirst (decode_push h hword) .push] at he
  obtain ⟨rfl, rfl⟩ := Prod.mk.inj (Option.some.inj he)
  exact ⟨hword, rfl⟩

/-- SET, outside a transaction. -/
theorem ask_set {table key v : Str} {st : List Str} (h : SentAs (setOperation table key) line)
    (hl : l.unread = []) (hfirst : l.peer.session.firstValidMessage = false)
    (htx : l.peer.session.inTransaction = false) (hst : l.peer.session.stack = v :: st)
    (hask : l.ask i (setOperation table key) = some (buf, l₁))
    (hok : handlePossibleOkResponse buf = .ok 0) : ∃ name k t,
      decode line {} = .ok ⟨.set, [name, k]⟩ ∧ l.peer.server.findTable name = some t ∧
      (l.peer.server.tables t).mutex = none ∧
      l₁ = ⟨{ l.peer with
        session := answered { ready l.peer.session with stack := st } okLine
        server := l.peer.server.setTable t ((l.peer.server.tables t).set k v).commitChanges }, []⟩ := by
  obtain ⟨⟨-, hopen, hab⟩, s', srv', he, hreply, rfl⟩ := ask_ok h hl hask hok
  obtain ⟨⟨mt, args⟩, hdec⟩ := decoded_of_ok (exec_outcome hopen he) hreply
  obtain ⟨w, hw, rfl, -⟩ := encode_inv h.encoded
  obtain rfl : mt = .set := decode_lineOf_type hw hdec
  obtain ⟨-, -, -, -, -, -, hvalid, -⟩ := decode_inv hdec
  obtain ⟨name, k, rfl⟩ := List.length_eq_two.mp (Message.isValid_arity hvalid rfl)
  have hready : (ready l.peer.session).inTransaction = false := htx
  have hproc := process_set hopen hfirst hdec hst
  cases hname : l.peer.server.findTable name with
  | none =>
    -- the answer is FAILED
    rw [hproc, setTree, exec_findTree hab, hname] at he
    simp only [failWith, giveUp, hready, Bool.false_eq_true, if_false] at he
    obtain ⟨rfl, -⟩ := Prod.mk.inj (Option.some.inj he)
    exact absurd (List.singleton_injective hreply).symm (okLine_ne _)
  | some t =>
    by_cases hfree : (l.peer.server.tables t).mutex = none
    · rw [exec_setAuto hab hopen hfirst hname htx hfree hdec hst] at he
      obtain ⟨rfl, rfl⟩ := Prod.mk.inj (Option.some.inj he)
      exact ⟨name, k, t, hdec, hname, hfree, rfl⟩
    · -- the session waits for the table
      rw [hproc, setTree, exec_findTree hab, hname] at he
      simp only [hready, Bool.false_eq_true, if_false] at he
      rw [exec_lock_busy hfree] at he
      cases he

/-- BYE ends the session. -/
theorem exec_bye {s : Session} {srv : Server ι} (hfirst : s.firstValidMessage = false)
    (htx : s.inTransaction = false) (hdec : decode line {} = .ok ⟨.bye, []⟩) :
    (process (.line line) s).exec (serve i) srv = some (answered (closed (ready s)) okLine, srv) := by
  have htx' : (answered (closed (ready s)) okLine).inTransaction = false := htx
  rw [process_bye hfirst hdec, giveUp, if_neg (by rw [htx']; decide)]
  rfl

theorem sentAs_bye : SentAs byeOperation "BYE\n".toList := ⟨rfl, by decide, by decide⟩

theorem sentAs_top : SentAs topOperation "TOP\n".toList := ⟨rfl, by decide, by decide⟩

theorem decode_top : decode "TOP\n".toList {} = .ok ⟨.top, []⟩ := by decide

theorem decode_bye : decode "BYE\n".toList {} = .ok ⟨.bye, []⟩ := by decide

/-- BYE leaves the server as it is, and so does the end of the stream after it. -/
theorem ask_bye (hl : l.unread = []) (hfirst : l.peer.session.firstValidMessage = false)
    (htx : l.peer.session.inTransaction = false) (hask : l.ask i byeOperation = some (buf, l₁))
    (hok : handlePossibleOkResponse buf = .ok 0) :
    (l₁.peer.hangUp i).server = l.peer.server := by
  obtain ⟨hp, s', srv', he, -, rfl⟩ := ask_ok sentAs_bye hl hask hok
  rw [exec_bye hfirst htx decode_bye] at he
  obtain ⟨rfl, rfl⟩ := Prod.mk.inj (Option.some.inj he)
  rw [Peer.hangUp, input_idle fun h => absurd h.2.1 (by simp [answered, closed])]

end Answered

/-- A GET line has the words of the SET line. -/
theorem decode_get {table key line name k : Str} (h : SentAs (setOperation table key) line)
    (hargs : ∀ arg ∈ [table, key], '\n' ∉ arg ∧ '\x00' ∉ arg)
    (hdec : decode line {} = .ok ⟨.set, [name, k]⟩) : ∃ line',
      SentAs (getOperation table key) line' ∧ decode line' {} = .ok ⟨.get, [name, k]⟩ := by
  obtain ⟨w, hw, rfl, hlen⟩ := encode_inv h.encoded
  obtain rfl : "SET".toList = w := Except.ok.inj hw
  obtain ⟨-, -, w', ss, hnext, -, hvalid, hparse⟩ := decode_inv hdec
  rw [next_lineOf (typeName_isWord hw)] at hnext
  obtain ⟨-, rfl⟩ := Prod.mk.inj hnext
  have hlen' : (lineOf "GET".toList [table, key]).length ≤ maxEncodedLen := by
    have hsame : (lineOf "GET".toList [table, key]).length
        = (lineOf "SET".toList [table, key]).length := by
      simp only [lineOf, List.length_append]
      rfl
    rw [hsame]
    exact hlen
  have hwords : parseArgs .get (getline (Words.joined ' ' [table, key] ++ ['\n']))
      = .ok ⟨.get, [name, k]⟩ := by
    have hset := congrArg Message.mArgs (Except.ok.inj hparse)
    exact congrArg (fun args => Except.ok (Message.mk .get args)) hset
  have hvalid' : Message.isValid ⟨.get, [name, k]⟩ = .ok true := hvalid
  refine ⟨lineOf "GET".toList [table, key], sentAs (encode_ok rfl hlen') hargs, ?_⟩
  rw [decode_eq hlen' (lineOf_getLast ..), next_lineOf (typeName_isWord (t := .get) rfl)]
  show finish .get (Words.joined ' ' [table, key] ++ ['\n']) = _
  rw [finish, hwords]
  simp only [bind, Except.bind, hvalid']
  rfl

/-- **What `set_value` stores, when every answer is OK.** -/
theorem SetValue.stored {ι : Type} {i : ι} {a : SetValue} {srv : Server ι} {out : List Str}
    {l : Link ι} (ha : a.Clean) (h : Exits i a.main (connect srv) out l) :
    a.getValue.Finds (l.peer.hangUp i).server a.value ∧ Words.IsWord isspace a.value.val := by
  obtain _ | ⟨hlogin, hzero₁, hdrop₁, h⟩ := h
  obtain _ | ⟨hpush, hzero₂, hdrop₂, h⟩ := h
  obtain _ | ⟨hset, hzero₃, hdrop₃, h⟩ := h
  obtain _ | ⟨hbye, hzero₄, hdrop₄, h⟩ := h
  obtain _ | _ := h
  -- each message is one line
  obtain ⟨line₁, henc₁, -⟩ := ask_inv hlogin
  obtain ⟨line₂, henc₂, -⟩ := ask_inv hpush
  obtain ⟨line₃, henc₃, -⟩ := ask_inv hset
  have hvalue : '\n' ∉ a.value.val := fun hnl => absurd (ha.value _ hnl) (by decide)
  have hargs₁ : ∀ arg ∈ [a.username.val], '\n' ∉ arg ∧ '\x00' ∉ arg :=
    List.forall_mem_singleton.mpr ⟨ha.username, a.username.property⟩
  have hargs₂ : ∀ arg ∈ [a.value.val], '\n' ∉ arg ∧ '\x00' ∉ arg :=
    List.forall_mem_singleton.mpr ⟨hvalue, a.value.property⟩
  have hargs₃ : ∀ arg ∈ [a.table.val, a.key.val], '\n' ∉ arg ∧ '\x00' ∉ arg := by
    intro arg harg
    rcases List.mem_pair.mp harg with rfl | rfl
    · exact ⟨ha.table, a.table.property⟩
    · exact ⟨ha.key, a.key.property⟩
  have hsent₁ := sentAs henc₁ hargs₁
  have hsent₂ := sentAs henc₂ hargs₂
  have hsent₃ := sentAs henc₃ hargs₃
  -- one OK after the other; nothing is unread, so nothing can be lost
  obtain ⟨⟨-, -, hlive⟩, ⟨m, hdec₁, ht⟩, rfl⟩ :=
    ask_login hsent₁ rfl hlogin (expectOk_zero hzero₁).1
  obtain rfl := hdrop₁.eq rfl
  obtain ⟨hword, rfl⟩ := ask_push hsent₂ rfl rfl ha.value hpush (expectOk_zero hzero₂).1
  obtain rfl := hdrop₂.eq rfl
  obtain ⟨name, k, t, hdec₃, hname, hfree, rfl⟩ :=
    ask_set hsent₃ rfl rfl rfl rfl hset (expectOk_zero hzero₃).1
  obtain rfl := hdrop₃.eq rfl
  have hserver := ask_bye rfl rfl rfl hbye (expectOk_zero hzero₄).1
  obtain ⟨line₃', hget, hdec₃'⟩ := decode_get hsent₃ hargs₃ hdec₃
  rw [hdrop₄.1, hserver]
  refine ⟨⟨hlive, ⟨line₁, m, hsent₁, hdec₁, ht⟩, line₃', name, k, t, hget, hdec₃', hname, ?_, ?_⟩,
    hword⟩
  · rw [Server.tables_setTable]
    exact hfree
  · rw [Server.tables_setTable, Table.get_eq, Table.lookup_commitChanges, Table.pending_set,
      if_pos rfl]
    rfl

/-! ## What is printed then -/

theorem AlwaysExits.cons {ι : Type} {i : ι} {op : Operation} {ops : List Operation} {l l₁ : Link ι}
    {buf : Str} {out : List Str} {Q : List Str → Prop} (hask : l.ask i op.msg = some (buf, l₁))
    (hzero : op.handle buf = .ok (0, out)) (hnew : l₁.unread = [])
    (h : AlwaysExits i ops l₁ fun outs => Q (out ++ outs)) : AlwaysExits i (op :: ops) l Q :=
  ⟨buf, l₁, out, hask, hzero, fun _ hdrop => hdrop.eq hnew ▸ h⟩

section Printed

variable {v : Str} (hv : Words.IsWord isspace v) (hlen : v.length + 6 < maxEncodedLen)
include hv hlen

omit hv in
theorem length_dataLine : (dataLine v).length < maxEncodedLen := by
  rw [dataLine, length_lineOf_one]
  have hdata : "DATA".toList.length = 4 := rfl
  omega

theorem legible_dataLine (hnul : '\x00' ∉ v) : Legible (dataLine v) := by
  have hw : typeName .data = .ok "DATA".toList := rfl
  refine ⟨lineOf_body hw ?_, lineOf_no_nul hw ?_, length_dataLine hlen⟩
  · exact List.forall_mem_singleton.mpr (isWord_no_newline hv)
  · exact List.forall_mem_singleton.mpr hnul

theorem handleTopResponse_dataLine : handleTopResponse (dataLine v) = .ok (0, [v]) := by
  have hdec : decode (dataLine v) {} = .ok ⟨.data, [v]⟩ :=
    decode_lineOf rfl (by simp) (Nat.le_of_lt (length_dataLine hlen))
      (List.forall_mem_singleton.mpr hv) rfl {}
  rw [handleTopResponse, hdec]
  rfl

/-- **`get_value` prints what it finds**, in every run. -/
theorem GetValue.prints {ι : Type} {i : ι} {g : GetValue} {srv : Server ι} (hnul : '\x00' ∉ v)
    (h : g.Finds srv v) : AlwaysExits i g.main (connect srv) fun outs => outs = [v] := by
  obtain ⟨line₁, m, hsent₁, hdec₁, ht⟩ := h.login
  obtain ⟨line₂, name, key, t, hsent₂, hdec₂, hname, hfree, hget⟩ := h.get
  have hdata : encode ⟨.data, [v]⟩ = .ok (dataLine v) :=
    encode_ok rfl (Nat.le_of_lt (length_dataLine hlen))
  have hlive := h.live
  -- the session after LOGIN, after GET, and after TOP
  let s₁ : Session := answered (loggedIn (ready {})) okLine
  let s₂ : Session := answered { ready s₁ with stack := [v] } okLine
  let s₃ : Session := answered { ready s₂ with stack := [v] } (dataLine v)
  have he₁ : (process (.line line₁) {}).exec (serve i) srv = some (s₁, srv) := by
    rw [process_login rfl hdec₁ ht]
    rfl
  have he₂ : (process (.line line₂) s₁).exec (serve i) srv = some (s₂, srv) :=
    exec_getAuto hlive rfl rfl hname rfl hfree hdec₂ hget
  have he₃ : (process (.line "TOP\n".toList) s₂).exec (serve i) srv = some (s₃, srv) := by
    rw [process_computes rfl rfl decode_top (.top hdata)]
    rfl
  have he₄ : (process (.line "BYE\n".toList) s₃).exec (serve i) srv
      = some (answered (closed (ready s₃)) okLine, srv) := exec_bye rfl rfl decode_bye
  have hask₁ := ask_reply (l := connect srv) hsent₁ rfl ⟨rfl, rfl, hlive⟩ he₁ rfl legible_okLine
  have hask₂ := ask_reply (l := ⟨⟨srv, s₁, false⟩, []⟩) hsent₂ rfl ⟨rfl, rfl, hlive⟩ he₂ rfl
    legible_okLine
  have hask₃ := ask_reply (l := ⟨⟨srv, s₂, false⟩, []⟩) sentAs_top rfl ⟨rfl, rfl, hlive⟩ he₃ rfl
    (legible_dataLine hv hlen hnul)
  have hask₄ := ask_reply (l := ⟨⟨srv, s₃, false⟩, []⟩) sentAs_bye rfl ⟨rfl, rfl, hlive⟩ he₄ rfl
    legible_okLine
  refine .cons hask₁ (expectOk_okLine _) rfl (.cons hask₂ (expectOk_okLine _) rfl ?_)
  refine .cons hask₃ (handleTopResponse_dataLine hv hlen) rfl (.cons hask₄ (expectOk_okLine _) rfl ?_)
  exact rfl

end Printed

/-! ## The two programs -/

/-- **When `get_value` prints what `set_value` has stored.**  After a run of `set_value` in which
    every answer was OK, on any state of the server, `get_value` succeeds in every run and prints
    exactly the value, if and only if the arguments are clean. -/
theorem storedPrinted_iff {ι : Type} (i j : ι) (a : SetValue) (srv : Server ι) (out : List Str)
    (l : Link ι) (h : Exits i a.main (connect srv) out l) :
    AlwaysExits j a.getValue.main (connect (l.peer.hangUp i).server) (fun outs => outs = [a.value.val])
      ↔ a.Clean := by
  constructor
  · intro hprint
    obtain ⟨husername, htable, hkey, hword, hlen⟩ := GetValue.printed hprint
    exact ⟨husername, htable, hkey, hword.2, hlen⟩
  · intro ha
    obtain ⟨hfinds, hword⟩ := SetValue.stored ha h
    exact GetValue.prints hword ha.short a.value.property hfinds

/-- `set_value ann t x value`. -/
def settingX (value : String) (h : '\x00' ∉ value.toList) : SetValue :=
  ⟨⟨"ann".toList, by decide⟩, ⟨"t".toList, by decide⟩, ⟨"x".toList, by decide⟩, ⟨value.toList, h⟩⟩

/-- A server with the table `t`. -/
def withTable : Server Unit := ({} : Server Unit).createTable "t".toList

/-- The run of `set_value` there. -/
theorem exits_of_isSome {a : SetValue} (h : (exitsWith () a.main (connect withTable)).isSome = true) :
    ∃ out l, Exits () a.main (connect withTable) out l := by
  obtain ⟨⟨out, l⟩, hrun⟩ := Option.isSome_iff_exists.mp h
  exact ⟨out, l, exits_of_exitsWith hrun⟩

/-- The value 7. -/
theorem storedPrinted_iff_seven : ∃ out l,
    Exits () (settingX "7" (by decide)).main (connect withTable) out l ∧
    (AlwaysExits () (settingX "7" (by decide)).getValue.main (connect (l.peer.hangUp ()).server)
      (fun outs => outs = [(settingX "7" (by decide)).value.val]) ↔
      (settingX "7" (by decide)).Clean) := by
  obtain ⟨out, l, h⟩ := exits_of_isSome (a := settingX "7" (by decide)) (by decide +kernel)
  exact ⟨out, l, h, storedPrinted_iff () () _ withTable out l h⟩

/-- A second PUSH in the value is answered too, and `set_value` never looks at that answer. -/
theorem not_storedPrinted_push : ¬ ∀ (ι : Type) (i j : ι) (a : SetValue) (srv : Server ι) (out : List Str)
    (l : Link ι), Exits i a.main (connect srv) out l →
    AlwaysExits j a.getValue.main (connect (l.peer.hangUp i).server)
      (fun outs => outs = [a.value.val]) := by
  intro h
  obtain ⟨out, l, hexits⟩ :=
    exits_of_isSome (a := settingX "7\nPUSH 8" (by decide)) (by decide +kernel)
  obtain ⟨-, -, -, hword, -⟩ := GetValue.printed (h Unit () () _ withTable out l hexits)
  exact absurd (hword.2 '\n' (by decide)) (by decide)

/-- What is stored then is 8. -/
example : ((exitsWith () (settingX "7\nPUSH 8" (by decide)).main (connect withTable)).bind
    fun (_, l) => (exitsWith () (settingX "7\nPUSH 8" (by decide)).getValue.main
      (connect (l.peer.hangUp ()).server)).map Prod.fst) = some ["8".toList] := by decide +kernel

end BasicServer
