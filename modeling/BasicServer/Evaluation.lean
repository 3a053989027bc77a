/-
  The request handlers, evaluated.

  `bind_apply` and its companions compute the handlers of `Connection` to plain programs over the
  `calls`; here this is done once for each of them, up to the end of the iteration (`settle`).

  1. **Responses** — the lines that are sent, and `giveUp`: what every exception and the destructor
     do to an open transaction.
  2. **Stack requests** — described by their effect on the value stack: `Computes` when they are
     answered OK or DATA, `Refuses` when they are answered FAILED, `Kills` when nothing catches what
     they throw.
  3. **Shared requests** — `createTree`, `commitTree`, `setTree` and `getTree`, the four programs
     that do more with the shared state than roll back.
-/
import BasicServer.Connection
import BasicServer.Wire

namespace BasicServer

open Handler (self assign lift ask next rescue)
open Message (maxEncodedLen)

/-! ## Evaluating handlers -/

namespace Handler

variable {α β : Type}

theorem pure_apply (a : α) (s : Session) : (pure a : Handler α) s = .ret (.ok a, s) := rfl

theorem bind_apply (x : Handler α) (f : α → Handler β) (s : Session) :
    (x >>= f) s = (x s).bind (next f) := rfl

theorem throw_apply (e : Exn) (s : Session) :
    (throw e : Handler α) s = .ret (.error e, s) := rfl

theorem tryCatch_apply (x : Handler α) (h : Exn → Handler α) (s : Session) :
    (tryCatch x h : Handler α) s = (x s).bind (rescue h) := rfl

theorem self_apply (s : Session) : self s = .ret (.ok s, s) := rfl

theorem assign_apply (f : Session → Session) (s : Session) :
    assign f s = .ret (.ok (), f s) := rfl

theorem lift_apply (x : Except Exn α) (s : Session) : lift x s = .ret (x, s) := rfl

theorem ask_apply (c : Call) (s : Session) :
    ask c s = .call ⟨c, s⟩ fun r => .ret (.ok r, s) := rfl

theorem if_apply (c : Prop) [Decidable c] (x y : Handler α) (s : Session) :
    (if c then x else y) s = if c then x s else y s := by split <;> rfl

theorem next_ok (f : α → Handler β) (a : α) (s : Session) : next f (.ok a, s) = f a s := rfl

theorem next_error (f : α → Handler β) (e : Exn) (s : Session) :
    next f (.error e, s) = .ret (.error e, s) := rfl

theorem rescue_ok (h : Exn → Handler α) (a : α) (s : Session) :
    rescue h (.ok a, s) = .ret (.ok a, s) := rfl

theorem rescue_error (h : Exn → Handler α) (e : Exn) (s : Session) :
    rescue h (.error e, s) = h e s := rfl

end Handler

open Handler

/-! ## Responses -/

/-- The line of an OK response. -/
def okLine : Str := "OK\n".toList

/-- The line of a FAILED response. -/
def failLine (what : Str) : Str := lineOf "FAILED".toList [what]

/-- The line of an ERROR response. -/
def errLine (what : Str) : Str := lineOf "ERROR".toList [what]

/-- The line of a DATA response. -/
def dataLine (value : Str) : Str := lineOf "DATA".toList [value]

theorem failLine_head (what : Str) : (failLine what).head? = some 'F' := rfl

theorem okLine_ne (what : Str) : okLine ≠ failLine what := by
  intro h
  have hhead := congrArg List.head? h
  rw [failLine_head] at hhead
  exact absurd hhead (by decide)

theorem errLine_ne (w what : Str) : errLine w ≠ failLine what := by
  intro h
  have hhead := congrArg List.head? h
  rw [failLine_head] at hhead
  cases hhead

theorem errLine_ne_okLine (what : Str) : errLine what ≠ okLine := by
  intro h
  exact absurd (congrArg List.head? h) (by decide : some 'E' ≠ some 'O')

/-- The session after a line was written to the socket. -/
def answered (s : Session) (line : Str) : Session := { s with replies := s.replies ++ [line] }

/-- The session after its transaction was ended. -/
def dropped (s : Session) : Session := { s with lockedTables := [], inTransaction := false }

/-- The session after its transaction, if it has one, was ended. -/
def released (s : Session) : Session := if s.inTransaction then dropped s else s

@[simp] theorem stack_released (s : Session) : (released s).stack = s.stack := by
  unfold released; split <;> rfl

@[simp] theorem replies_released (s : Session) : (released s).replies = s.replies := by
  unfold released; split <;> rfl

@[simp] theorem loopInProgress_released (s : Session) :
    (released s).loopInProgress = s.loopInProgress := by
  unfold released; split <;> rfl

@[simp] theorem firstValidMessage_released (s : Session) :
    (released s).firstValidMessage = s.firstValidMessage := by
  unfold released; split <;> rfl

theorem inTransaction_released (s : Session) : (released s).inTransaction = false := by
  unfold released
  split
  · rfl
  · rename_i h
    simpa using h

/-- The one answer of a request that is given up. -/
theorem replies_over {s : Session} {line : Str} (h : s.replies = []) :
    (answered (released s) line).replies = [line] := by
  show (released s).replies ++ [line] = [line]
  rw [replies_released, h]
  rfl

/-- A text short enough to be sent in a FAILED or ERROR response. -/
def Fits (what : Str) : Prop := what.length + 8 ≤ maxEncodedLen

instance (what : Str) : Decidable (Fits what) := inferInstanceAs (Decidable (_ ≤ _))

theorem length_lineOf_one (w what : Str) : (lineOf w [what]).length = w.length + what.length + 2 := by
  simp [lineOf]; omega

theorem encode_ok_msg : encode ⟨.ok, []⟩ = .ok okLine := rfl

theorem encode_failed {what : Str} (h : Fits what) : encode ⟨.failed, [what]⟩ = .ok (failLine what) :=
  encode_ok rfl (by
    show (lineOf _ [what]).length ≤ _
    rw [length_lineOf_one]
    have hw : "FAILED".toList.length = 6 := rfl
    unfold Fits at h
    omega)

theorem encode_error {what : Str} (h : Fits what) : encode ⟨.error, [what]⟩ = .ok (errLine what) :=
  encode_ok rfl (by
    show (lineOf _ [what]).length ≤ _
    rw [length_lineOf_one]
    have hw : "ERROR".toList.length = 5 := rfl
    unfold Fits at h
    omega)

theorem send_ok {msg : Message} {line : Str} (h : encode msg = .ok line) (s : Session) :
    send msg s = .ret (.ok (), answered s line) := by
  simp only [send, rioWriten, h, bind_apply, lift_apply, assign_apply, next_ok, Prog.bind_ret,
    answered]

theorem send_error {msg : Message} {e : Exn} (h : encode msg = .error e) (s : Session) :
    send msg s = .ret (.error e, s) := by
  simp only [send, h, bind_apply, lift_apply, next_error, Prog.bind_ret]

theorem writeOk_eq (s : Session) : writeOk s = .ret (.ok (), answered s okLine) :=
  send_ok encode_ok_msg s

/-! ## Ending a transaction -/

/-- Make the call `act t` and unlock `t`, for the tables `t` of a list in its order. -/
def releaseAll (act : Ptr → Call) (s : Session) : List Ptr → Prog calls Unit
  | [] => .ret ()
  | t :: ts => .call ⟨act t, s⟩ fun _ => .call ⟨.unlock t, s⟩ fun _ => releaseAll act s ts

/-- End the transaction, if there is one, by rolling back; the session continues as `fin`. -/
def giveUp (s : Session) (fin : Session → Session) : Prog calls Session :=
  if s.inTransaction then
    .call ⟨.walk s.lockedTables, s⟩ fun ts =>
      (releaseAll .rollbackChanges s ts).bind fun _ => .ret (fin (dropped s))
  else .ret (fin s)

theorem forM_release (act : Ptr → Call) (s : Session) (ts : List Ptr) :
    (ts.forM fun t => (do let _ ← ask (act t); ask (.unlock t) : Handler Unit)) s
      = (releaseAll act s ts).bind fun _ => .ret (.ok (), s) := by
  induction ts with
  | nil => rfl
  | cons t ts ih =>
    rw [List.forM, bind_apply]
    simp only [bind_apply, ask_apply, next_ok, Prog.bind_call, Prog.bind_ret, ih, releaseAll]

/-- The loop of `fail_transaction`. -/
theorem forM_rollback (s : Session) (ts : List Ptr) :
    (ts.forM fun t => (do ask (.rollbackChanges t); ask (.unlock t) : Handler Unit)) s
      = (releaseAll .rollbackChanges s ts).bind fun _ => .ret (.ok (), s) :=
  forM_release .rollbackChanges s ts

/-- The loop of `handle_commit`. -/
theorem forM_commit (s : Session) (ts : List Ptr) :
    (ts.forM fun t => (do ask (.commitChanges t); ask (.unlock t) : Handler Unit)) s
      = (releaseAll .commitChanges s ts).bind fun _ => .ret (.ok (), s) :=
  forM_release .commitChanges s ts

theorem failTransaction_eq (s : Session) :
    failTransaction s = .call ⟨.walk s.lockedTables, s⟩ fun ts =>
      (releaseAll .rollbackChanges s ts).bind fun _ => .ret (.ok (), dropped s) := by
  simp only [failTransaction, bind_apply, self_apply, ask_apply, assign_apply, next_ok,
    Prog.bind_call, Prog.bind_ret, forM_rollback, Prog.bind_assoc, dropped]

/-- The transaction is ended before the text of the exception is sent. -/
theorem manageException_eq {what line : Str} {recoverable : Bool}
    (h : encode ⟨if recoverable then .failed else .error, [what]⟩ = .ok line) (s : Session) :
    manageException what recoverable s
      = (giveUp s (answered · line)).bind fun s => .ret (.ok (), s) := by
  simp only [manageException, bind_apply, self_apply, next_ok, Prog.bind_ret, if_apply, giveUp]
  cases ht : s.inTransaction with
  | false => simp only [Bool.false_eq_true, if_false, Prog.bind_ret, send_ok h]
  | true =>
    simp only [if_true, failTransaction_eq, Prog.bind_call, Prog.bind_assoc, Prog.bind_ret, next_ok,
      send_ok h]

/-! ## After a handler -/

/-- The session when it starts on an input. -/
def ready (s : Session) : Session := { s with replies := [] }

/-- The session after its last input. -/
def closed (s : Session) : Session := { s with loopInProgress := false }

/-- What becomes of the result of a handler: `call_response_function` catches, then the iteration
    ends. -/
def settle (r : Except Exn Unit × Session) : Prog calls Session :=
  (rescue catchResponse r).bind afterIteration

/-- A request that is answered FAILED. -/
def failWith (s : Session) (what : Str) : Prog calls Session :=
  giveUp s (answered · (failLine what))

/-- The end of the process. -/
def abort (s : Session) : Prog calls Session := .call ⟨.terminate, s⟩ fun _ => .ret s

theorem afterIteration_open {s : Session} (h : s.loopInProgress = true) :
    afterIteration (.ok (), s) = .ret s := by
  rw [afterIteration, if_pos h]

theorem afterIteration_closed {s : Session} (h : s.loopInProgress = false) :
    afterIteration (.ok (), s) = giveUp s id := by
  rw [afterIteration, if_neg (by rw [h]; decide), destructor, bind_apply, self_apply, Prog.bind_ret,
    next_ok, if_apply, giveUp]
  cases ht : s.inTransaction with
  | false => rfl
  | true => simp only [if_true, failTransaction_eq, Prog.bind_call, Prog.bind_assoc, Prog.bind_ret, id]

/-- Ending the transaction leaves nothing for the destructor to do, and nothing else changes. -/
theorem giveUp_bind {fin : Session → Session} {s : Session}
    {f : Except Exn Unit × Session → Prog calls Session}
    (hf : ∀ s', s'.loopInProgress = s.loopInProgress → s'.inTransaction = false →
      f (.ok (), fin s') = .ret (fin s')) :
    ((giveUp s fin).bind fun s => .ret (.ok (), s)).bind f = giveUp s fin := by
  unfold giveUp
  cases ht : s.inTransaction with
  | false => simp only [Bool.false_eq_true, if_false, Prog.bind_ret, hf s rfl ht]
  | true =>
    simp only [if_true, Prog.bind_call, Prog.bind_assoc, Prog.bind_ret]
    congr 1; funext ts; congr 1; funext _
    exact hf (dropped s) rfl rfl

/-- After an exception has been answered, the iteration ends. -/
theorem manageException_after {what line : Str} {recoverable : Bool}
    (h : encode ⟨if recoverable then .failed else .error, [what]⟩ = .ok line) (s : Session) :
    (manageException what recoverable s).bind afterIteration = giveUp s (answered · line) := by
  rw [manageException_eq h]
  refine giveUp_bind fun s' hloop htx => ?_
  cases hs : s.loopInProgress with
  | true => exact afterIteration_open (hloop.trans hs)
  | false =>
    rw [afterIteration_closed (s := answered s' line) (hloop.trans hs), giveUp]
    rw [show (answered s' line).inTransaction = false from htx]
    rfl

theorem manageException_failed {what line : Str} (h : encode ⟨.failed, [what]⟩ = .ok line)
    (s : Session) : (manageException what true s).bind afterIteration = giveUp s (answered · line) :=
  @manageException_after what line true h s

theorem manageException_error {what line : Str} (h : encode ⟨.error, [what]⟩ = .ok line)
    (s : Session) : (manageException what false s).bind afterIteration = giveUp s (answered · line) :=
  @manageException_after what line false h s

theorem settle_ok {s : Session} (h : s.loopInProgress = true) : settle (.ok (), s) = .ret s :=
  afterIteration_open h

theorem settle_operation {what : Str} (h : Fits what) (s : Session) :
    settle (.error (.operationException what), s) = failWith s what :=
  manageException_failed (encode_failed h) s

theorem settle_transaction {what : Str} (h : Fits what) (s : Session) :
    settle (.error (.failedTransaction what), s) = failWith s what :=
  manageException_failed (encode_failed h) s

theorem settle_invalid {what : Str} (h : Fits what) (s : Session) :
    settle (.error (.invalidMessage what), s) = giveUp (closed s) (answered · (errLine what)) := by
  rw [settle, rescue_error, catchResponse, bind_apply, assign_apply, Prog.bind_ret, next_ok]
  exact manageException_error (encode_error h) _

theorem settle_escape {e : Exn} (h : e = .outOfRange ∨ e = .sigfpe) (s : Session) :
    settle (.error e, s) = abort s := by
  rcases h with rfl | rfl <;> rfl

/-! ## The requests that work on the value stack -/

/-- The operation of an arithmetic request, and what it says if the stack is too short. -/
def arith : MessageType → Option ((Int → Int → Except Exn Int) × Str)
  | .add => some (intAdd, "There are not enough operands to add with.".toList)
  | .sub => some (intSub, "There are not enough operands to subtract with.".toList)
  | .mul => some (intMul, "There are not enough operands to multiply with.".toList)
  | .div => some (intDiv, "There are not enough operands to divide with.".toList)
  | _ => none

/-- `Computes msg st st' line` — on the value stack `st` the request is answered by `line`, and
    leaves `st'`. -/
inductive Computes : Message → List Str → List Str → Str → Prop
  | push {v : Str} {st : List Str} : Computes ⟨.push, [v]⟩ st (v :: st) okLine
  | pop {v : Str} {st : List Str} : Computes ⟨.pop, []⟩ (v :: st) st okLine
  | top {v line : Str} {st : List Str} (henc : encode ⟨.data, [v]⟩ = .ok line) :
      Computes ⟨.top, []⟩ (v :: st) (v :: st) line
  | arith {t : MessageType} {op : Int → Int → Except Exn Int} {few r l : Str} {st : List Str}
      {m n k : Int} (ht : arith t = some (op, few)) (hr : stoi r = .ok m) (hl : stoi l = .ok n)
      (hop : op n m = .ok k) : Computes ⟨t, []⟩ (r :: l :: st) (toStr k :: st) okLine

/-- `Refuses msg inTransaction st st' what` — the request is answered FAILED, before it has used the
    shared state, and leaves `st'` where `st` was. -/
inductive Refuses : Message → Bool → List Str → List Str → Str → Prop
  | pop {tx : Bool} :
      Refuses ⟨.pop, []⟩ tx [] [] "Tried to call POP on an empty operations stack.".toList
  | top {tx : Bool} :
      Refuses ⟨.top, []⟩ tx [] [] "Tried to call TOP on an empty operations stack.".toList
  | few {tx : Bool} {t : MessageType} {op : Int → Int → Except Exn Int} {few : Str} {st : List Str}
      (ht : arith t = some (op, few)) (hst : st.length < 2) : Refuses ⟨t, []⟩ tx st st few
  | right {tx : Bool} {t : MessageType} {op : Int → Int → Except Exn Int} {few r l : Str}
      {st : List Str} (ht : arith t = some (op, few)) (hr : stoi r = .error .invalidArgument) :
      Refuses ⟨t, []⟩ tx (r :: l :: st) (r :: l :: st)
        "Value on stack could not be converted to an integer.".toList
  | left {tx : Bool} {t : MessageType} {op : Int → Int → Except Exn Int} {few r l : Str}
      {st : List Str} {m : Int} (ht : arith t = some (op, few)) (hr : stoi r = .ok m)
      (hl : stoi l = .error .invalidArgument) :
      -- the right operand goes back as it is printed, not as it was
      Refuses ⟨t, []⟩ tx (r :: l :: st) (toStr m :: l :: st)
        "Value on stack could not be converted to an integer.".toList
  | nested {st : List Str} :
      Refuses ⟨.begin, []⟩ true st st "Nested transactions are not supported.".toList
  | outside {st : List Str} :
      Refuses ⟨.commit, []⟩ false st st "Transaction is not ongoing.".toList
  | noValue {tx : Bool} {name key : Str} :
      Refuses ⟨.set, [name, key]⟩ tx [] [] "No value on stack.".toList
  | response {tx : Bool} {t : MessageType} {args : List Str} {st : List Str}
      (ht : t = .none ∨ t = .ok ∨ t = .failed ∨ t = .error ∨ t = .data) :
      Refuses ⟨t, args⟩ tx st st "Please only enter standardized requests.".toList

/-- `Kills msg st st'` — nothing catches what the request throws; the stack is `st'` then. -/
inductive Kills : Message → List Str → List Str → Prop
  | right {t : MessageType} {op : Int → Int → Except Exn Int} {few r l : Str} {st : List Str}
      (ht : arith t = some (op, few)) (hr : stoi r = .error .outOfRange) :
      Kills ⟨t, []⟩ (r :: l :: st) (r :: l :: st)
  | left {t : MessageType} {op : Int → Int → Except Exn Int} {few r l : Str} {st : List Str} {m : Int}
      (ht : arith t = some (op, few)) (hr : stoi r = .ok m) (hl : stoi l = .error .outOfRange) :
      Kills ⟨t, []⟩ (r :: l :: st) (l :: st)
  | divide {r l : Str} {st : List Str} {m n : Int} (hr : stoi r = .ok m) (hl : stoi l = .ok n)
      (hop : intDiv n m = .error .sigfpe) : Kills ⟨.div, []⟩ (r :: l :: st) st

/-- Every text of a refusal can be sent. -/
theorem Refuses.fits {msg : Message} {tx : Bool} {st st' : List Str} {what : Str}
    (h : Refuses msg tx st st' what) : Fits what := by
  cases h with
  | @few tx t op few st ht hlen => cases t <;> cases ht <;> decide +kernel
  | _ => decide +kernel

/-! ## Evaluating the stack requests -/

theorem getTop_apply (s : Session) : getTop s = .ret (ValueStack.getTop s.stack, s) := rfl

theorem pop_cons {s : Session} {v : Str} {st : List Str} (h : s.stack = v :: st) :
    pop s = .ret (.ok (), { s with stack := st }) := by
  simp only [pop, bind_apply, self_apply, lift_apply, assign_apply, Prog.bind_ret, next_ok, h,
    ValueStack.pop]

theorem pop_nil {s : Session} (h : s.stack = []) : pop s = .ret
    (.error (.operationException "Tried to call POP on an empty operations stack.".toList), s) := by
  simp only [pop, bind_apply, self_apply, lift_apply, Prog.bind_ret, next_ok, next_error, h,
    ValueStack.pop]

theorem popInt_ok {s : Session} {v : Str} {st : List Str} {n : Int} (h : s.stack = v :: st)
    (hv : stoi v = .ok n) : popInt s = .ret (.ok n, { s with stack := st }) := by
  simp only [popInt, bind_apply, getTop_apply, h, ValueStack.getTop, Prog.bind_ret, next_ok,
    lift_apply, hv, pop_cons h, pure_apply]

theorem popInt_error {s : Session} {v : Str} {st : List Str} {e : Exn} (h : s.stack = v :: st)
    (hv : stoi v = .error e) : popInt s = .ret (.error e, s) := by
  simp only [popInt, bind_apply, getTop_apply, h, ValueStack.getTop, Prog.bind_ret, next_ok,
    next_error, lift_apply, hv]

section Arith

variable {few : Str} {op : Int → Int → Except Exn Int} {s : Session} {r l : Str} {st : List Str}
  {m n k : Int} {e : Exn}

/-- What is left of an arithmetic request once the right operand is known. -/
def withRight (op : Int → Int → Except Exn Int) (rightOperand : Int) : Handler Unit := do
  let leftOperand ← tryCatch popInt (catchInvalid (some rightOperand))
  push (toStr (← lift (op leftOperand rightOperand)))
  writeOk

theorem handleArith_few (h : s.stack.length < 2) :
    handleArith few op s = .ret (.error (.operationException few), s) := by
  simp only [handleArith, getSize, bind_apply, self_apply, pure_apply, Prog.bind_ret, next_ok,
    if_apply, if_pos h, throw_apply, next_error]

theorem handleArith_two (h : s.stack = r :: l :: st) :
    handleArith few op s
      = ((popInt s).bind (rescue (catchInvalid none))).bind (next (withRight op)) := by
  have hlen : ¬ s.stack.length < 2 := by rw [h]; simp
  simp only [handleArith, getSize, bind_apply, self_apply, pure_apply, Prog.bind_ret, next_ok,
    if_apply, if_neg hlen, tryCatch_apply]
  rfl

theorem handleArith_right (h : s.stack = r :: l :: st) (hr : stoi r = .error e) :
    handleArith few op s = ((catchInvalid none e : Handler Int) s).bind (next (withRight op)) := by
  rw [handleArith_two h, popInt_error h hr, Prog.bind_ret, rescue_error]

theorem handleArith_left (h : s.stack = r :: l :: st) (hr : stoi r = .ok m)
    (hl : stoi l = .error e) :
    handleArith few op s = ((catchInvalid (some m) e : Handler Int) { s with stack := l :: st }).bind
      (next fun left => do push (toStr (← lift (op left m))); writeOk) := by
  have hl' := popInt_error (s := { s with stack := l :: st }) rfl hl
  rw [handleArith_two h, popInt_ok h hr, Prog.bind_ret, rescue_ok, Prog.bind_ret, next_ok,
    withRight, bind_apply, tryCatch_apply, hl', Prog.bind_ret, rescue_error]

theorem handleArith_both (h : s.stack = r :: l :: st) (hr : stoi r = .ok m) (hl : stoi l = .ok n) :
    handleArith few op s = match op n m with
      | .ok k => .ret (.ok (), answered { s with stack := toStr k :: st } okLine)
      | .error e => .ret (.error e, { s with stack := st }) := by
  have hl' := popInt_ok (s := { s with stack := l :: st }) rfl hl
  rw [handleArith_two h, popInt_ok h hr, Prog.bind_ret, rescue_ok, Prog.bind_ret, next_ok,
    withRight, bind_apply, tryCatch_apply, hl', Prog.bind_ret, rescue_ok, Prog.bind_ret, next_ok,
    bind_apply, lift_apply, Prog.bind_ret]
  cases op n m with
  | error e => rfl
  | ok k => simp only [next_ok, bind_apply, push, assign_apply, Prog.bind_ret, writeOk_eq]

end Arith

theorem respond_arith {t : MessageType} {op : Int → Int → Except Exn Int} {few : Str}
    (ht : arith t = some (op, few)) : respond ⟨t, []⟩ = handleArith few op := by
  cases t <;> cases ht <;> rfl

/-- A stack request that is answered OK or DATA. -/
theorem respond_computes {msg : Message} {s : Session} {st' : List Str} {line : Str}
    (h : Computes msg s.stack st' line) :
    respond msg s = .ret (.ok (), answered { s with stack := st' } line) := by
  obtain ⟨st, hst⟩ : ∃ st, s.stack = st := ⟨_, rfl⟩
  rw [hst] at h
  cases h with
  | @push v st =>
    subst hst
    show handlePush _ s = _
    simp only [handlePush, bind_apply, lift_apply, Message.getArg, List.getElem?_cons_zero,
      Prog.bind_ret, next_ok, push, assign_apply, writeOk_eq]
  | pop =>
    show handlePop s = _
    simp only [handlePop, bind_apply, tryCatch_apply, pop_cons hst, Prog.bind_ret, rescue_ok,
      next_ok, writeOk_eq]
  | @top v line st henc =>
    show handleTop s = _
    rw [handleTop, bind_apply, tryCatch_apply, getTop_apply, hst, ValueStack.getTop, Prog.bind_ret,
      rescue_ok, Prog.bind_ret, next_ok, send_ok henc, ← hst]
  | arith ht hr hl hop =>
    rw [respond_arith ht, handleArith_both hst hr hl, hop]

/-- A request that is answered FAILED without a use of the shared state. -/
theorem respond_refuses {msg : Message} {s : Session} {st' : List Str} {what : Str}
    (h : Refuses msg s.inTransaction s.stack st' what) :
    (respond msg s).bind settle = failWith { s with stack := st' } what := by
  have hfit := h.fits
  obtain ⟨st, hst⟩ : ∃ st, s.stack = st := ⟨_, rfl⟩
  obtain ⟨tx, htx⟩ : ∃ tx, s.inTransaction = tx := ⟨_, rfl⟩
  have hself : ({ s with stack := st } : Session) = s := by rw [← hst]
  rw [hst, htx] at h
  cases h with
  | pop =>
    rw [hself, ← settle_operation hfit]
    show (handlePop s).bind settle = _
    simp only [handlePop, bind_apply, tryCatch_apply, pop_nil hst, Prog.bind_ret, rescue_error,
      rethrow, throw_apply, next_error]
  | top =>
    rw [hself, ← settle_operation hfit]
    show (handleTop s).bind settle = _
    simp only [handleTop, bind_apply, tryCatch_apply, getTop_apply, hst, ValueStack.getTop,
      Prog.bind_ret, rescue_error, rethrow, throw_apply, next_error]
  | few ht hlen =>
    rw [hself, respond_arith ht, handleArith_few (by rw [hst]; exact hlen), Prog.bind_ret,
      settle_operation hfit]
  | right ht hr =>
    rw [hself, ← settle_operation hfit, respond_arith ht, handleArith_right hst hr]
    simp only [catchInvalid, throw_apply, Prog.bind_ret, next_error]
  | left ht hr hl =>
    rw [← settle_operation hfit, respond_arith ht, handleArith_left hst hr hl]
    simp only [catchInvalid, bind_apply, push, assign_apply, throw_apply, Prog.bind_ret, next_ok,
      next_error]
  | nested =>
    rw [hself, ← settle_transaction hfit]
    show (handleBegin s).bind settle = _
    simp only [handleBegin, bind_apply, self_apply, Prog.bind_ret, next_ok, htx, if_true, if_apply,
      throw_apply, next_error]
  | outside =>
    rw [hself, ← settle_transaction hfit]
    show (handleCommit s).bind settle = _
    simp only [handleCommit, bind_apply, self_apply, Prog.bind_ret, next_ok, htx, Bool.not_false,
      if_true, if_apply, throw_apply, next_error]
  | noValue =>
    rw [hself, ← settle_operation hfit]
    show (handleSet _ s).bind settle = _
    simp only [handleSet, getSize, bind_apply, self_apply, pure_apply, Prog.bind_ret, next_ok, hst,
      if_apply, List.length_nil, Nat.zero_lt_one, if_true, throw_apply, next_error]
  | @response tx t args st ht =>
    have hmsg : respond ⟨t, args⟩ s = .ret
        (.error (.operationException "Please only enter standardized requests.".toList), s) := by
      rcases ht with rfl | rfl | rfl | rfl | rfl <;> rfl
    rw [hself, hmsg, Prog.bind_ret, settle_operation hfit]

/-- A request whose exception nothing catches. -/
theorem respond_kills {msg : Message} {s : Session} {st' : List Str}
    (h : Kills msg s.stack st') :
    (respond msg s).bind settle = abort { s with stack := st' } := by
  obtain ⟨st, hst⟩ : ∃ st, s.stack = st := ⟨_, rfl⟩
  have hself : ({ s with stack := st } : Session) = s := by rw [← hst]
  rw [hst] at h
  cases h with
  | right ht hr =>
    rw [hself, respond_arith ht, handleArith_right hst hr, ← settle_escape (Or.inl rfl)]
    simp only [catchInvalid, throw_apply, Prog.bind_ret, next_error]
  | left ht hr hl =>
    rw [respond_arith ht, handleArith_left hst hr hl, ← settle_escape (Or.inl rfl)]
    simp only [catchInvalid, throw_apply, Prog.bind_ret, next_error]
  | divide hr hl hop =>
    show (handleArith _ intDiv s).bind settle = _
    rw [handleArith_both hst hr hl, hop]
    exact settle_escape (Or.inr rfl) _

/-! ## The requests that use the shared state -/

/-- CREATE. -/
def createTree (s : Session) (name : Str) : Prog calls Session :=
  .call ⟨.serverLock, s⟩ fun _ => .call ⟨.findTable name, s⟩ fun found =>
    if found ≠ none then
      .call ⟨.serverUnlock, s⟩ fun _ => failWith s "A table with this name already exists.".toList
    else
      .call ⟨.createTable name, s⟩ fun _ => .call ⟨.serverUnlock, answered s okLine⟩ fun _ =>
        .ret (answered s okLine)

/-- COMMIT in a transaction. -/
def commitTree (s : Session) : Prog calls Session :=
  .call ⟨.walk s.lockedTables, s⟩ fun ts => (releaseAll .commitChanges s ts).bind fun _ =>
    .ret (answered (dropped s) okLine)

/-- The session with the table among the ones it has locked. -/
def acquired (s : Session) (t : Ptr) : Session := { s with lockedTables := s.lockedTables.insert t }

/-- In a transaction: get hold of the table, then continue. -/
def acquireTree (s : Session) (t : Ptr) (body : Session → Prog calls Session) :
    Prog calls Session :=
  if t ∈ s.lockedTables then body s
  else
    .call ⟨.trylock t, s⟩ fun success =>
      if success then body { s with lockedTables := t :: s.lockedTables }
      else failWith s "Could not gain access to table.".toList

/-- Look a table up, or fail. -/
def findTree (s : Session) (name : Str) (body : Ptr → Prog calls Session) : Prog calls Session :=
  .call ⟨.findTable name, s⟩ fun
    | none => failWith s "Could not find table.".toList
    | some t => body t

/-- SET, with the value `v` on top of the stack and `st` below. -/
def setTree (s : Session) (name key v : Str) (st : List Str) : Prog calls Session :=
  findTree s name fun t =>
    if s.inTransaction then
      acquireTree s t fun s => .call ⟨.set t key v, s⟩ fun _ =>
        .ret (answered { s with stack := st } okLine)
    else
      .call ⟨.lock t, s⟩ fun _ => .call ⟨.set t key v, s⟩ fun _ =>
        .call ⟨.commitChanges t, { s with stack := st }⟩ fun _ =>
        .call ⟨.unlock t, { s with stack := st }⟩ fun _ =>
        .ret (answered { s with stack := st } okLine)

/-- GET.  Where the key is missing, the first `unlock` is the one of `get_table_value`; a key that
    was there may be gone when it is read, if others do not keep away from the table. -/
def getTree (s : Session) (name key : Str) : Prog calls Session :=
  findTree s name fun t =>
    if s.inTransaction then
      acquireTree s t fun s => .call ⟨.hasKey t key, s⟩ fun has =>
        if has then
          .call ⟨.get t key, s⟩ fun
            | .ok v => .ret (answered { s with stack := v :: s.stack } okLine)
            | .error e => settle (.error e, s)
        else
          .call ⟨.unlock t, s⟩ fun _ =>
            failWith s "Could not find key in specified table.".toList
    else
      .call ⟨.lock t, s⟩ fun _ => .call ⟨.hasKey t key, s⟩ fun has =>
        if has then
          .call ⟨.get t key, s⟩ fun
            | .ok v => .call ⟨.unlock t, { s with stack := v :: s.stack }⟩ fun _ =>
                .ret (answered { s with stack := v :: s.stack } okLine)
            | .error (.operationException what) => .call ⟨.unlock t, s⟩ fun _ =>
                settle (.error (.operationException what), s)
            | .error e => settle (.error e, s)
        else
          .call ⟨.unlock t, s⟩ fun _ => .call ⟨.unlock t, s⟩ fun _ =>
            failWith s "Could not find key in specified table.".toList

theorem handleCreate_settle {s : Session} (hs : s.loopInProgress = true) (name : Str) :
    (handleCreate ⟨.create, [name]⟩ s).bind settle = createTree s name := by
  have harg : Message.getArg ⟨.create, [name]⟩ 0 = .ok name := rfl
  simp only [handleCreate, bind_apply, ask_apply, lift_apply, harg, Prog.bind_call, Prog.bind_ret,
    next_ok, if_apply, createTree]
  congr 1; funext _; congr 1; funext found
  by_cases hf : found = none
  · rw [if_neg (not_not.mpr hf), if_neg (not_not.mpr hf)]
    simp only [writeOk_eq, ask_apply, Prog.bind_call, Prog.bind_ret, next_ok]
    congr 1; funext _; congr 1; funext _
    exact settle_ok hs
  · rw [if_pos hf, if_pos hf]
    simp only [throw_apply, Prog.bind_call, Prog.bind_ret, next_error]
    congr 1; funext _
    exact settle_operation (by decide +kernel) s

theorem handleCommit_settle {s : Session} (hs : s.loopInProgress = true)
    (htx : s.inTransaction = true) : (handleCommit s).bind settle = commitTree s := by
  simp only [handleCommit, bind_apply, self_apply, ask_apply, assign_apply, Prog.bind_call,
    Prog.bind_ret, Prog.bind_assoc, next_ok, if_apply, htx, Bool.not_true, Bool.false_eq_true,
    if_false, forM_commit, writeOk_eq, commitTree]
  congr 1; funext ts; congr 1; funext _
  exact settle_ok hs

/-- `acquire` and what follows it, with `settle` at the end. -/
theorem acquire_settle {t : Ptr} {f : Handler Unit} {s : Session} {body : Session → Prog calls Session}
    (hbody : ∀ ts, (f { s with lockedTables := ts }).bind settle
      = body { s with lockedTables := ts }) :
    ((acquire t >>= fun _ => f) s).bind settle = acquireTree s t body := by
  simp only [acquire, bind_apply, self_apply, Prog.bind_ret, next_ok, if_apply, acquireTree]
  by_cases ht : t ∈ s.lockedTables
  · rw [if_neg (not_not.mpr ht), if_pos ht]
    exact hbody s.lockedTables
  · rw [if_pos ht, if_neg ht]
    simp only [ask_apply, Prog.bind_call, Prog.bind_ret, next_ok]
    congr 1; funext success
    cases success with
    | true => exact hbody (t :: s.lockedTables)
    | false => exact settle_transaction (by decide +kernel) s

theorem setTableValue_apply {s : Session} {name key v : Str} {st : List Str} {t : Ptr}
    (hst : s.stack = v :: st) : setTableValue ⟨.set, [name, key]⟩ t s
      = .call ⟨.set t key v, s⟩ fun _ => .ret (.ok (), { s with stack := st }) := by
  have harg : Message.getArg ⟨.set, [name, key]⟩ 1 = .ok key := rfl
  simp only [setTableValue, bind_apply, lift_apply, harg, getTop_apply, hst, ValueStack.getTop,
    ask_apply, Prog.bind_call, Prog.bind_ret, next_ok, pop_cons hst]

theorem handleSet_settle {s : Session} (hs : s.loopInProgress = true) {name key v : Str}
    {st : List Str} (hst : s.stack = v :: st) :
    (handleSet ⟨.set, [name, key]⟩ s).bind settle = setTree s name key v st := by
  have harg : Message.getArg ⟨.set, [name, key]⟩ 0 = .ok name := rfl
  have hsize : ¬ s.stack.length < 1 := by rw [hst]; simp
  simp only [handleSet, getSize, bind_apply, self_apply, pure_apply, Prog.bind_ret, next_ok,
    if_apply, if_neg hsize, lift_apply, harg, ask_apply, Prog.bind_call, setTree, findTree]
  congr 1; funext found
  cases found with
  | none => exact settle_operation (by decide +kernel) s
  | some t =>
    simp only [bind_apply, self_apply, Prog.bind_ret, next_ok, if_apply]
    by_cases htx : s.inTransaction = true
    · rw [if_neg (by simp [htx]), if_pos htx]
      refine acquire_settle fun ts => ?_
      simp only [bind_apply, setTableValue_apply (s := { s with lockedTables := ts }) hst,
        Prog.bind_call, Prog.bind_ret, next_ok, writeOk_eq]
      congr 1; funext _
      exact settle_ok hs
    · rw [if_pos (by simpa using htx), if_neg htx]
      simp only [bind_apply, ask_apply, setTableValue_apply hst, Prog.bind_call, Prog.bind_ret,
        next_ok, writeOk_eq]
      congr 1; funext _; congr 1; funext _; congr 1; funext _; congr 1; funext _
      exact settle_ok hs

theorem getTableValue_apply {s : Session} {name key : Str} {t : Ptr} :
    getTableValue ⟨.get, [name, key]⟩ t s = .call ⟨.hasKey t key, s⟩ fun has =>
      if has then .call ⟨.get t key, s⟩ fun
        | .ok v => .ret (.ok (), { s with stack := v :: s.stack })
        | .error e => .ret (.error e, s)
      else .call ⟨.unlock t, s⟩ fun _ => .ret (.error
        (.operationException "Could not find key in specified table.".toList), s) := by
  have harg : Message.getArg ⟨.get, [name, key]⟩ 1 = .ok key := rfl
  simp only [getTableValue, bind_apply, lift_apply, harg, ask_apply, Prog.bind_call, Prog.bind_ret,
    next_ok, if_apply]
  congr 1; funext has
  cases has with
  | false => rfl
  | true =>
    simp only [Bool.not_true, Bool.false_eq_true, if_false, if_true]
    show Prog.call _ _ = Prog.call _ _
    congr 1; funext r
    cases r with
    | error e => rfl
    | ok v => rfl

theorem handleGet_settle {s : Session} (hs : s.loopInProgress = true) {name key : Str} :
    (handleGet ⟨.get, [name, key]⟩ s).bind settle = getTree s name key := by
  have harg : Message.getArg ⟨.get, [name, key]⟩ 0 = .ok name := rfl
  simp only [handleGet, bind_apply, Prog.bind_ret, next_ok, lift_apply, harg, ask_apply,
    Prog.bind_call, getTree, findTree]
  congr 1; funext found
  cases found with
  | none => exact settle_operation (by decide +kernel) s
  | some t =>
    simp only [bind_apply, self_apply, Prog.bind_ret, next_ok, if_apply]
    by_cases htx : s.inTransaction = true
    · rw [if_neg (by simp [htx]), if_pos htx]
      refine acquire_settle fun ts => ?_
      simp only [bind_apply, tryCatch_apply, getTableValue_apply, Prog.bind_call]
      congr 1; funext has
      cases has with
      | false =>
        simp only [Bool.false_eq_true, if_false, Prog.bind_call, Prog.bind_ret, rescue_error,
          rethrow, throw_apply, next_error]
        congr 1; funext _
        exact settle_operation (by decide +kernel) _
      | true =>
        simp only [if_true, Prog.bind_call]
        congr 1; funext r
        cases r with
        | ok v =>
          simp only [Prog.bind_ret, rescue_ok, next_ok, writeOk_eq]
          exact settle_ok hs
        | error e => cases e <;> rfl
    · rw [if_pos (by simpa using htx), if_neg htx]
      simp only [bind_apply, ask_apply, tryCatch_apply, getTableValue_apply, Prog.bind_call,
        Prog.bind_ret, next_ok]
      congr 1; funext _; congr 1; funext has
      cases has with
      | false =>
        simp only [Bool.false_eq_true, if_false, Prog.bind_call, Prog.bind_ret, rescue_error,
          bind_apply, ask_apply, throw_apply, next_ok, next_error]
        congr 1; funext _; congr 1; funext _
        exact settle_operation (by decide +kernel) s
      | true =>
        simp only [if_true, Prog.bind_call]
        congr 1; funext r
        cases r with
        | ok v =>
          show Prog.call _ _ = Prog.call _ _
          congr 1; funext _
          exact settle_ok hs
        | error e => cases e <;> rfl

end BasicServer
