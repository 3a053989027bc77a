/-
  What one input makes a session do.

  For every input and every session, `process` is one of a few explicit programs: `Shape` lists
  them, and `Responds` those of a request after login.  A result about sessions is a case analysis
  on these two and never unfolds a handler (`process_shape`).
-/
import BasicServer.Evaluation

namespace BasicServer

open Handler
open Message (maxEncodedLen)

/-! ## The requests after login -/

/-- `Responds s msg p` — a session that has logged in, and starts on the request `msg` in the state
    `s`, runs the program `p`. -/
inductive Responds (s : Session) : Message → Prog calls Session → Prop
  | computes {msg : Message} {st' : List Str} {line : Str} (h : Computes msg s.stack st' line) :
      Responds s msg (.ret (answered { s with stack := st' } line))
  | refuses {msg : Message} {st' : List Str} {what : Str}
      (h : Refuses msg s.inTransaction s.stack st' what) :
      Responds s msg (failWith { s with stack := st' } what)
  | kills {msg : Message} {st' : List Str} (h : Kills msg s.stack st') :
      Responds s msg (abort { s with stack := st' })
  | overlong {v : Str} {st : List Str} (hst : s.stack = v :: st)
      (h : encode ⟨.data, [v]⟩ = .error (.invalidMessage "Message is too long.".toList)) :
      -- the value on top does not fit a DATA line: TOP ends the session
      Responds s ⟨.top, []⟩
        (giveUp (closed s) (answered · (errLine "Message is too long.".toList)))
  | begin (htx : s.inTransaction = false) :
      Responds s ⟨.begin, []⟩ (.ret (answered { s with inTransaction := true } okLine))
  | commit (htx : s.inTransaction = true) : Responds s ⟨.commit, []⟩ (commitTree s)
  | bye : Responds s ⟨.bye, []⟩ (giveUp (answered (closed s) okLine) id)
  | create {name : Str} : Responds s ⟨.create, [name]⟩ (createTree s name)
  | set {name key v : Str} {st : List Str} (hst : s.stack = v :: st) :
      Responds s ⟨.set, [name, key]⟩ (setTree s name key v st)
  | get {name key : Str} : Responds s ⟨.get, [name, key]⟩ (getTree s name key)

theorem Computes.not_login {msg : Message} {st st' : List Str} {line : Str}
    (h : Computes msg st st' line) : msg.mMessageType ≠ .login := by
  cases h with
  | @arith t op few r l st m n k ht => rintro rfl; cases ht
  | _ => exact nofun

theorem Kills.not_login {msg : Message} {st st' : List Str} (h : Kills msg st st') :
    msg.mMessageType ≠ .login := by
  cases h with
  | right ht | left ht => rintro rfl; cases ht
  | divide => exact nofun

/-- An arithmetic operation traps or has a value, and only a division traps. -/
theorem arith_result {t : MessageType} {op : Int → Int → Except Exn Int} {few : Str}
    (ht : arith t = some (op, few)) (n m : Int) :
    (∃ k, op n m = .ok k) ∨ t = .div ∧ intDiv n m = .error .sigfpe := by
  cases t <;> cases ht
  case div =>
    by_cases hd : m = 0 ∨ (n = intMin ∧ m = -1)
    · exact Or.inr ⟨rfl, if_pos hd⟩
    · exact Or.inl ⟨_, if_neg hd⟩
  all_goals exact Or.inl ⟨_, rfl⟩

/-- The three things that can become of an arithmetic request. -/
theorem arith_cases {t : MessageType} {op : Int → Int → Except Exn Int} {few : Str}
    (ht : arith t = some (op, few)) (tx : Bool) (st : List Str) :
    (∃ st' line, Computes ⟨t, []⟩ st st' line) ∨ (∃ st' what, Refuses ⟨t, []⟩ tx st st' what) ∨
      ∃ st', Kills ⟨t, []⟩ st st' := by
  match st with
  | [] => exact Or.inr (Or.inl ⟨_, _, .few ht (by decide)⟩)
  | [_] => exact Or.inr (Or.inl ⟨_, _, .few ht (by simp)⟩)
  | r :: l :: st =>
    cases hr : stoi r with
    | error e =>
      rcases stoi_error hr with rfl | rfl
      · exact Or.inr (Or.inl ⟨_, _, .right ht hr⟩)
      · exact Or.inr (Or.inr ⟨_, .right ht hr⟩)
    | ok m =>
      cases hl : stoi l with
      | error e =>
        rcases stoi_error hl with rfl | rfl
        · exact Or.inr (Or.inl ⟨_, _, .left ht hr hl⟩)
        · exact Or.inr (Or.inr ⟨_, .left ht hr hl⟩)
      | ok n =>
        rcases arith_result ht n m with ⟨k, hk⟩ | ⟨rfl, hk⟩
        · exact Or.inl ⟨_, _, .arith ht hr hl hk⟩
        · exact Or.inr (Or.inr ⟨_, .divide hr hl hk⟩)

/-- BEGIN outside a transaction. -/
theorem respond_begin {s : Session} (htx : s.inTransaction = false) :
    respond ⟨.begin, []⟩ s = .ret (.ok (), answered { s with inTransaction := true } okLine) := by
  show handleBegin s = _
  simp only [handleBegin, bind_apply, self_apply, Prog.bind_ret, next_ok, if_apply, assign_apply,
    writeOk_eq]
  rw [if_neg (by rw [htx]; decide)]

/-- BYE. -/
theorem respond_bye (s : Session) :
    (respond ⟨.bye, []⟩ s).bind settle = giveUp (answered (closed s) okLine) id := by
  have h : handleBye s = .ret (.ok (), answered (closed s) okLine) := by
    simp only [handleBye, bind_apply, assign_apply, Prog.bind_ret, next_ok, writeOk_eq, closed]
  show (handleBye s).bind settle = _
  rw [h, Prog.bind_ret]
  exact afterIteration_closed (s := answered (closed s) okLine) rfl

/-- What the session does after the keyword was recognised, for a message with its arguments. -/
theorem respond_responds {s : Session} {msg : Message} (hs : s.loopInProgress = true)
    (hv : msg.isValid = .ok true) (hlogin : msg.mMessageType ≠ .login) :
    Responds s msg ((respond msg s).bind settle) := by
  have computes : ∀ {st st' line}, s.stack = st → Computes msg st st' line →
      Responds s msg ((respond msg s).bind settle) := by
    rintro _ st' line rfl h
    have hok : settle (.ok (), answered { s with stack := st' } line)
        = .ret (answered { s with stack := st' } line) := settle_ok hs
    rw [respond_computes h, Prog.bind_ret, hok]
    exact .computes h
  have refuses : ∀ {tx st st' what}, s.inTransaction = tx → s.stack = st →
      Refuses msg tx st st' what → Responds s msg ((respond msg s).bind settle) := by
    rintro _ _ st' what rfl rfl h
    rw [respond_refuses h]
    exact .refuses h
  have ofArith : ∀ {op few}, arith msg.mMessageType = some (op, few) → msg.mArgs = [] →
      Responds s msg ((respond msg s).bind settle) := by
    intro op few ht hargs
    obtain ⟨t, args⟩ := msg
    obtain rfl : args = [] := hargs
    rcases arith_cases ht s.inTransaction s.stack with ⟨_, _, h⟩ | ⟨_, _, h⟩ | ⟨_, h⟩
    · exact computes rfl h
    · exact refuses rfl rfl h
    · rw [respond_kills h]; exact .kills h
  obtain ⟨t, args⟩ := msg
  have hlen : ∀ {n}, Message.arity t = some n → args.length = n :=
    fun hn => Message.isValid_arity hv hn
  cases t with
  | login => exact absurd rfl hlogin
  | none | ok | failed | error | data => exact refuses rfl rfl (.response (by simp))
  | add | sub | mul | div => exact ofArith rfl (List.length_eq_zero_iff.mp (hlen rfl))
  | push =>
    obtain ⟨v, rfl⟩ := List.length_eq_one_iff.mp (hlen rfl)
    exact computes rfl .push
  | pop =>
    obtain rfl := List.length_eq_zero_iff.mp (hlen rfl)
    cases hst : s.stack with
    | nil => exact refuses rfl hst .pop
    | cons v st => exact computes hst .pop
  | top =>
    obtain rfl := List.length_eq_zero_iff.mp (hlen rfl)
    cases hst : s.stack with
    | nil => exact refuses rfl hst .top
    | cons v st =>
      cases henc : encode ⟨.data, [v]⟩ with
      | ok line => exact computes hst (.top henc)
      | error e =>
        have he : e = .invalidMessage "Message is too long.".toList := by
          rw [encode_eq (w := "DATA".toList) rfl] at henc
          split at henc
          · exact (Except.error.inj henc).symm
          · cases henc
        subst he
        have hrespond : respond ⟨.top, []⟩ s
            = .ret (.error (.invalidMessage "Message is too long.".toList), s) := by
          show handleTop s = _
          rw [handleTop, bind_apply, tryCatch_apply, getTop_apply, hst, ValueStack.getTop,
            Prog.bind_ret, rescue_ok, Prog.bind_ret, next_ok, send_error henc]
        rw [hrespond, Prog.bind_ret, settle_invalid (by decide)]
        exact .overlong hst henc
  | begin =>
    obtain rfl := List.length_eq_zero_iff.mp (hlen rfl)
    cases htx : s.inTransaction with
    | true => exact refuses htx rfl .nested
    | false =>
      have hok : settle (.ok (), answered { s with inTransaction := true } okLine)
          = .ret (answered { s with inTransaction := true } okLine) := settle_ok hs
      rw [respond_begin htx, Prog.bind_ret, hok]
      exact .begin htx
  | commit =>
    obtain rfl := List.length_eq_zero_iff.mp (hlen rfl)
    cases htx : s.inTransaction with
    | false => exact refuses htx rfl .outside
    | true =>
      rw [show respond ⟨.commit, []⟩ s = handleCommit s from rfl, handleCommit_settle hs htx]
      exact .commit htx
  | bye =>
    obtain rfl := List.length_eq_zero_iff.mp (hlen rfl)
    rw [respond_bye]
    exact .bye
  | create =>
    obtain ⟨name, rfl⟩ := List.length_eq_one_iff.mp (hlen rfl)
    rw [show respond ⟨.create, [name]⟩ s = handleCreate ⟨.create, [name]⟩ s from rfl,
      handleCreate_settle hs]
    exact .create
  | set =>
    obtain ⟨name, key, rfl⟩ := List.length_eq_two.mp (hlen rfl)
    cases hst : s.stack with
    | nil => exact refuses rfl hst .noValue
    | cons v st =>
      rw [show respond ⟨.set, [name, key]⟩ s = handleSet ⟨.set, [name, key]⟩ s from rfl,
        handleSet_settle hs hst]
      exact .set hst
  | get =>
    obtain ⟨name, key, rfl⟩ := List.length_eq_two.mp (hlen rfl)
    rw [show respond ⟨.get, [name, key]⟩ s = handleGet ⟨.get, [name, key]⟩ s from rfl,
      handleGet_settle hs]
    exact .get

/-! ## All inputs -/

/-- The session after a LOGIN. -/
def loggedIn (s : Session) : Session := { s with firstValidMessage := false }

/-- `Shape s input p` — a session in the state `s` runs the program `p` on the input. -/
inductive Shape (s : Session) : Input → Prog calls Session → Prop
  | eof : Shape s .eof (giveUp (closed (ready s)) id)
  | empty : Shape s (.line []) (abort (ready s))
  | undecodable {buf what : Str} (h : decode buf {} = .error (.invalidMessage what))
      (hfit : Fits what) :
      -- the session goes on after such a line
      Shape s (.line buf) (giveUp (ready s) (answered · (errLine what)))
  | login {buf : Str} {msg : Message} (h : decode buf {} = .ok msg)
      (ht : msg.mMessageType = .login) :
      Shape s (.line buf) (.ret (answered (loggedIn (ready s)) okLine))
  | premature {buf : Str} {msg : Message} (h : decode buf {} = .ok msg)
      (ht : msg.mMessageType ≠ .login) (hfirst : s.firstValidMessage = true) :
      Shape s (.line buf)
        (giveUp (closed (answered (ready s) (errLine "Please log in first.".toList))) id)
  | request {buf : Str} {msg : Message} {p : Prog calls Session} (h : decode buf {} = .ok msg)
      (ht : msg.mMessageType ≠ .login) (hfirst : s.firstValidMessage = false)
      (hp : Responds (ready s) msg p) : Shape s (.line buf) p

theorem process_line (buf : Str) (s : Session) :
    process (.line buf) s = (chatLine buf (ready s)).bind afterIteration := rfl

/-- A request after login goes to its handler. -/
theorem process_respond {s : Session} {buf : Str} {msg : Message} (hdec : decode buf {} = .ok msg)
    (ht : msg.mMessageType ≠ .login) (hfirst : s.firstValidMessage = false) :
    process (.line buf) s = (respond msg (ready s)).bind settle := by
  rw [process_line, chatLine, hdec]
  simp only [if_neg ht, bind_apply, self_apply, Prog.bind_ret, next_ok, if_apply]
  rw [if_neg (show ¬ (ready s).firstValidMessage = true by rw [ready, hfirst]; decide),
    callResponseFunction, tryCatch_apply, Prog.bind_assoc]
  rfl

section Trees

variable {s : Session} {buf : Str}

/-- A line that is no message is answered ERROR; the session goes on. -/
theorem process_undecodable {what : Str} (hdec : decode buf {} = .error (.invalidMessage what))
    (hfit : Fits what) : process (.line buf) s = giveUp (ready s) (answered · (errLine what)) := by
  have h : chatLine buf = manageException what false := by rw [chatLine, hdec]
  rw [process_line, h, manageException_error (encode_error hfit)]

/-- The end of the stream. -/
theorem process_eof (s : Session) : process .eof s = giveUp (closed (ready s)) id :=
  afterIteration_closed (s := closed (ready s)) rfl

variable (hs : s.loopInProgress = true)
include hs

theorem process_login {msg : Message} (hdec : decode buf {} = .ok msg)
    (ht : msg.mMessageType = .login) :
    process (.line buf) s = .ret (answered (loggedIn (ready s)) okLine) := by
  have h : chatLine buf (ready s) = .ret (.ok (), answered (loggedIn (ready s)) okLine) := by
    rw [chatLine, hdec]
    simp only [if_pos ht, tryCatch_apply, handleLogin, bind_apply, assign_apply, if_apply,
      reduceCtorEq, if_false, Prog.bind_ret, next_ok, writeOk_eq, rescue_ok]
    rfl
  rw [process_line, h, Prog.bind_ret]
  exact afterIteration_open (s := answered (loggedIn (ready s)) okLine) hs

variable (hfirst : s.firstValidMessage = false)
include hfirst

theorem process_computes {msg : Message} {st' : List Str} {line : Str}
    (hdec : decode buf {} = .ok msg) (h : Computes msg s.stack st' line) :
    process (.line buf) s = .ret (answered { ready s with stack := st' } line) := by
  have ht : msg.mMessageType ≠ .login := h.not_login
  rw [process_respond hdec ht hfirst, respond_computes (s := ready s) h, Prog.bind_ret]
  exact settle_ok (s := answered { ready s with stack := st' } line) hs

omit hs in
theorem process_kills {msg : Message} {st' : List Str} (hdec : decode buf {} = .ok msg)
    (h : Kills msg s.stack st') : process (.line buf) s = abort { ready s with stack := st' } := by
  have ht : msg.mMessageType ≠ .login := h.not_login
  rw [process_respond hdec ht hfirst, respond_kills (s := ready s) h]

omit hs in
theorem process_bye (hdec : decode buf {} = .ok ⟨.bye, []⟩) :
    process (.line buf) s = giveUp (answered (closed (ready s)) okLine) id := by
  rw [process_respond hdec nofun hfirst]
  exact respond_bye (ready s)

theorem process_begin (hdec : decode buf {} = .ok ⟨.begin, []⟩) (htx : s.inTransaction = false) :
    process (.line buf) s = .ret (answered { ready s with inTransaction := true } okLine) := by
  have hready : (ready s).inTransaction = false := htx
  rw [process_respond hdec nofun hfirst, respond_begin hready, Prog.bind_ret]
  exact settle_ok hs

theorem process_commit (hdec : decode buf {} = .ok ⟨.commit, []⟩) (htx : s.inTransaction = true) :
    process (.line buf) s = commitTree (ready s) := by
  rw [process_respond hdec nofun hfirst]
  exact handleCommit_settle (s := ready s) hs htx

theorem process_create {name : Str} (hdec : decode buf {} = .ok ⟨.create, [name]⟩) :
    process (.line buf) s = createTree (ready s) name := by
  rw [process_respond hdec nofun hfirst]
  exact handleCreate_settle (s := ready s) hs name

theorem process_set {name key v : Str} {st : List Str}
    (hdec : decode buf {} = .ok ⟨.set, [name, key]⟩) (hst : s.stack = v :: st) :
    process (.line buf) s = setTree (ready s) name key v st := by
  rw [process_respond hdec nofun hfirst]
  exact handleSet_settle (s := ready s) hs hst

theorem process_get {name key : Str} (hdec : decode buf {} = .ok ⟨.get, [name, key]⟩) :
    process (.line buf) s = getTree (ready s) name key := by
  rw [process_respond hdec nofun hfirst]
  exact handleGet_settle (s := ready s) hs

end Trees

/-- **What an input makes a session do.** -/
theorem process_shape {s : Session} (hs : s.loopInProgress = true) (input : Input) :
    Shape s input (process input s) := by
  cases input with
  | eof =>
    rw [process_eof]
    exact .eof
  | line buf =>
    by_cases hbuf : buf = []
    · subst hbuf; exact .empty
    cases hdec : decode buf {} with
    | error e =>
      obtain ⟨what, hmem, rfl⟩ := decode_error hbuf hdec
      have hfit : Fits what := by
        have hall : ∀ w ∈ decodeTexts, Fits w := by decide
        exact hall what hmem
      rw [process_undecodable hdec hfit]
      exact .undecodable hdec hfit
    | ok msg =>
      by_cases ht : msg.mMessageType = .login
      · rw [process_login hs hdec ht]
        exact .login hdec ht
      · by_cases hfirst : s.firstValidMessage = true
        · have h : chatLine buf (ready s) = .ret
              (.ok (), closed (answered (ready s) (errLine "Please log in first.".toList))) := by
            have henc : encode ⟨.error, ["Please log in first.".toList]⟩
                = .ok (errLine "Please log in first.".toList) := encode_error (by decide)
            rw [chatLine, hdec]
            simp only [if_neg ht, bind_apply, self_apply, Prog.bind_ret, next_ok, if_apply,
              send_ok henc, assign_apply]
            rw [if_pos (show (ready s).firstValidMessage = true from hfirst)]
            rfl
          have hafter := afterIteration_closed
            (s := closed (answered (ready s) (errLine "Please log in first.".toList))) rfl
          rw [process_line, h, Prog.bind_ret, hafter]
          exact .premature hdec ht hfirst
        · have hfirst' : s.firstValidMessage = false := by simpa using hfirst
          obtain ⟨-, -, -, -, -, -, hv, -⟩ := decode_inv hdec
          rw [process_respond hdec ht hfirst']
          exact .request hdec ht hfirst' (respond_responds hs hv ht)

end BasicServer
