/-
  The client `incr_value -t`, and the server while only such clients are there (`incr_value.cpp`).

  Each `*_operation` of the client builds one message, sends its encoding, reads one line and goes on
  if `handle_possible_ok_response` returns 0; here it is the message.  `main` sends the messages one
  after the other.  The client may be gone at any moment: then the server reads the end of the
  stream, and before that, possibly, the beginning of a line (`sends`).

  `incrSystem` is the interleaved server of `Sessions`, with one such client at each connection.  A
  connection at rest keeps the answers so far, as its client has them.
-/
import BasicServer.Sessions
import BasicServer.Shape

namespace BasicServer

/-! ## The program -/

/-- The arguments of one process. -/
structure IncrValue where
  username : Str
  table : Str
  key : Str
  oneLine : '\n' ∉ username
  table_ok : Message.isValidIdentifier table = .ok true
  key_ok : Message.isValidIdentifier key = .ok true

/-- `handle_possible_ok_response`. -/
def handlePossibleOkResponse (buf : Str) : Except Exn Int := do
  let response ← decode buf {}
  let responseType := response.mMessageType
  if responseType = .ok then
    return 0
  else if responseType = .failed ∨ responseType = .error then
    let _ ← response.getArg 0
    return -1
  return -1

/-- `login_operation`. -/
def loginOperation (username : Str) : Message := Message.pushArg ⟨.login, []⟩ username

/-- `begin_operation`. -/
def beginOperation : Message := ⟨.begin, []⟩

/-- `get_operation`. -/
def getOperation (table key : Str) : Message := (Message.pushArg ⟨.get, []⟩ table).pushArg key

/-- `push_operation`. -/
def pushOperation : Message := Message.pushArg ⟨.push, []⟩ "1".toList

/-- `add_operation`. -/
def addOperation : Message := ⟨.add, []⟩

/-- `set_operation`. -/
def setOperation (table key : Str) : Message := (Message.pushArg ⟨.set, []⟩ table).pushArg key

/-- `commit_operation`. -/
def commitOperation : Message := ⟨.commit, []⟩

/-- `bye_operation`. -/
def byeOperation : Message := ⟨.bye, []⟩

namespace IncrValue

/-- `main`, with the option `-t`: what is sent, as long as every answer is OK. -/
def main (c : IncrValue) : List Message :=
  [loginOperation c.username, beginOperation, getOperation c.table c.key, pushOperation,
    addOperation, setOperation c.table c.key, commitOperation, byeOperation]

end IncrValue

/-- The client goes on after these lines, of which it reads the first. -/
def goesOn : List Str → Bool
  | [] => false
  | line :: _ =>
    match handlePossibleOkResponse line with
    | .ok 0 => true
    | _ => false

/-- What may come from the client next, if it has got these answers: the next line or, if the client
    is cut off, the beginning of it; or the end of the stream. -/
def IncrValue.sends (c : IncrValue) (answers : List (List Str)) : Input → Bool
  | .eof => true
  | .line buf =>
    answers.all goesOn && !buf.isEmpty && match (c.main[answers.length]?).map encode with
      | some (.ok line) => buf.isPrefixOf line
      | _ => false

/-- A line that comes from the client is the next one, or the beginning of it. -/
theorem IncrValue.sends_line {c : IncrValue} {answers : List (List Str)} {buf : Str}
    (h : c.sends answers (.line buf) = true) :
    answers.all goesOn = true ∧ buf ≠ [] ∧ ∃ m line, c.main[answers.length]? = some m ∧
      encode m = .ok line ∧ buf <+: line := by
  simp only [sends, Bool.and_eq_true, Bool.not_eq_true', List.isEmpty_eq_false_iff] at h
  obtain ⟨⟨hall, hbuf⟩, hline⟩ := h
  refine ⟨hall, hbuf, ?_⟩
  split at hline
  · rename_i line hmap
    obtain ⟨m, hm, henc⟩ := Option.map_eq_some_iff.mp hmap
    exact ⟨m, line, hm, henc, List.isPrefixOf_iff_prefix.mp hline⟩
  · cases hline

/-- A connection: the session, and the answer to each line so far. -/
structure Conn where
  session : Session := {}
  answers : List (List Str) := []

/-- The connection after an input that has left the session `s'`. -/
def Conn.after (l : Conn) (input : Input) (s' : Session) : Conn :=
  match input with
  | .line _ => ⟨s', l.answers ++ [s'.replies]⟩
  | .eof => ⟨s', l.answers⟩

/-- The server, with the clients `c`. -/
def incrSystem {ι : Type} (c : ι → IncrValue) : System ι (Server ι) Conn Input calls where
  step i o srv r srv' := o.call.Step i srv r srv'
  accept i srv l input :=
    if l.session.loopInProgress ∧ srv.aborted = false ∧ (c i).sends l.answers input then
      some ((process input l.session).bind fun s' => .ret (l.after input s'))
    else none

/-- Nothing has been sent yet. -/
def incrStart {ι : Type} (srv : Server ι) : Config ι (Server ι) Conn calls := ⟨srv, fun _ => .rest {}⟩

/-! ## What the server reads -/

section Lines

variable {c : IncrValue} {n : Nat} {m : Message} {line buf : Str}

/-- Each line of the client ends with its only newline. -/
theorem IncrValue.line_body (hm : m ∈ c.main) (henc : encode m = .ok line) :
    ∃ body, line = body ++ ['\n'] ∧ '\n' ∉ body := by
  have htable := isWord_no_newline (isWord_of_ident c.table_ok)
  have hkey := isWord_no_newline (isWord_of_ident c.key_ok)
  have hargs : ∀ a ∈ m.mArgs, '\n' ∉ a := by
    simp only [main, loginOperation, beginOperation, getOperation, pushOperation, addOperation,
      setOperation, commitOperation, byeOperation, Message.pushArg, List.mem_cons,
      List.not_mem_nil, or_false, List.nil_append, List.cons_append] at hm
    rcases hm with rfl | rfl | rfl | rfl | rfl | rfl | rfl | rfl
    all_goals intro a ha
    · rcases List.mem_singleton.mp ha with rfl
      exact c.oneLine
    · cases ha
    · rcases List.mem_pair.mp ha with rfl | rfl
      · exact htable
      · exact hkey
    · rcases List.mem_singleton.mp ha with rfl
      decide
    · cases ha
    · rcases List.mem_pair.mp ha with rfl | rfl
      · exact htable
      · exact hkey
    · cases ha
    · cases ha
  obtain ⟨w, hw, rfl, -⟩ := encode_inv henc
  exact lineOf_body hw hargs

/-- A line that was cut off is no message. -/
theorem IncrValue.decode_cut (hm : m ∈ c.main) (henc : encode m = .ok line) (hpre : buf <+: line)
    (hcut : buf ≠ line) (m' : Message) : decode buf {} ≠ .ok m' := by
  intro hdec
  obtain ⟨body, rfl, hbody⟩ := IncrValue.line_body hm henc
  obtain ⟨-, hlast⟩ := decode_size hdec
  have hpre' : buf <+: body := (List.prefix_concat_iff.mp hpre).resolve_left hcut
  exact hbody (hpre'.subset (List.mem_of_getLast? hlast))

/-- Every line but the first is the message that it was. -/
theorem IncrValue.decode_line (hm : c.main[n + 1]? = some m) (henc : encode m = .ok line) :
    decode line {} = .ok m := by
  have htable := isWord_of_ident c.table_ok
  have hkey := isWord_of_ident c.key_ok
  have hmem := List.mem_of_getElem? (show c.main.tail[n]? = some m from hm)
  have hfacts : ¬ Quoted m.mMessageType ∧ (∀ a ∈ m.mArgs, Words.IsWord isspace a) ∧
      m.isValid = .ok true := by
    simp only [main, beginOperation, getOperation, pushOperation, addOperation, setOperation,
      commitOperation, byeOperation, Message.pushArg, List.tail_cons, List.mem_cons,
      List.not_mem_nil, or_false, List.nil_append, List.cons_append] at hmem
    have htwo : ∀ a ∈ [c.table, c.key], Words.IsWord isspace a := by
      intro a ha
      rcases List.mem_pair.mp ha with rfl | rfl
      · exact htable
      · exact hkey
    have hone : ∀ a ∈ ["1".toList], Words.IsWord isspace a := by
      intro a ha
      obtain rfl := List.mem_singleton.mp ha
      refine ⟨List.cons_ne_nil _ _, fun d hd => ?_⟩
      obtain rfl : d = '1' := List.mem_singleton.mp hd
      rfl
    have hvalid : ∀ t, t = .get ∨ t = .set → Message.isValid ⟨t, [c.table, c.key]⟩ = .ok true := by
      rintro t (rfl | rfl) <;>
        simp [Message.isValid, Message.argIdx, c.table_ok, c.key_ok, bind, Except.bind, pure,
          Except.pure]
    rcases hmem with rfl | rfl | rfl | rfl | rfl | rfl | rfl
    · exact ⟨by simp, List.forall_mem_nil _, rfl⟩
    · exact ⟨by simp, htwo, hvalid _ (.inl rfl)⟩
    · exact ⟨by simp, hone, rfl⟩
    · exact ⟨by simp, List.forall_mem_nil _, rfl⟩
    · exact ⟨by simp, htwo, hvalid _ (.inr rfl)⟩
    · exact ⟨by simp, List.forall_mem_nil _, rfl⟩
    · exact ⟨by simp, List.forall_mem_nil _, rfl⟩
  obtain ⟨hquoted, hargs, hvalid⟩ := hfacts
  obtain ⟨w, hw, rfl, hlen⟩ := encode_inv henc
  exact decode_lineOf hw hquoted hlen hargs hvalid {}

/-- The first line is a LOGIN, if it is a message. -/
theorem IncrValue.decode_login (hm : c.main[0]? = some m) (henc : encode m = .ok line)
    {m' : Message} (hdec : decode line {} = .ok m') : m'.mMessageType = .login := by
  obtain rfl : loginOperation c.username = m := Option.some.inj hm
  obtain ⟨w, hw, rfl, -⟩ := encode_inv henc
  exact decode_lineOf_type hw hdec

end Lines

/-! ## What the client makes of the answers -/

/-- The response is an OK where `handle_possible_ok_response` returns 0. -/
theorem handlePossibleOkResponse_zero {buf : Str} (h : handlePossibleOkResponse buf = .ok 0) :
    ∃ m, decode buf {} = .ok m ∧ m.mMessageType = .ok := by
  obtain ⟨m, hdec, hrest⟩ := ok_bind.mp h
  refine ⟨m, hdec, ?_⟩
  by_contra hne
  rw [if_neg hne] at hrest
  split at hrest
  · obtain ⟨_, -, hrest⟩ := ok_bind.mp hrest
    exact absurd (Except.ok.inj hrest) (by decide)
  · exact absurd (Except.ok.inj hrest) (by decide)

/-- A line of any type but OK makes the client stop. -/
theorem not_goesOn {t : MessageType} {w : Str} {args : List Str} (hw : typeName t = .ok w)
    (ht : t ≠ .ok) : goesOn [lineOf w args] = false := by
  show (match handlePossibleOkResponse (lineOf w args) with
    | .ok 0 => true
    | _ => false) = false
  split
  · rename_i hzero
    obtain ⟨m, hdec, hok⟩ := handlePossibleOkResponse_zero hzero
    exact absurd ((decode_lineOf_type hw hdec).symm.trans hok) ht
  · rfl

theorem not_goesOn_failLine (what : Str) : goesOn [failLine what] = false :=
  not_goesOn (t := .failed) rfl nofun

theorem not_goesOn_errLine (what : Str) : goesOn [errLine what] = false :=
  not_goesOn (t := .error) rfl nofun

end BasicServer
