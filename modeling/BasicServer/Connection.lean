/-
  One client connection: the request handlers and the session loop (`client_connection.cpp`,
  `value_stack.cpp`).

  A `Handler α` is a member function of `ClientConnection`: from the state of the connection it
  gives a program over the server's `calls` that ends with a value or an exception and the state
  of the connection then.  A throw keeps the changes made so far, as in C++.

  `process` is what a thread runs for one input, a line handed to `decode` or the end of the
  stream: one iteration of the loop in `chat_with_client` and, if that was the last one, the
  destructor.  An exception that no `catch` of these functions names ends the process
  (`Call.terminate`).
-/
import BasicServer.Server
import BasicServer.Serialization
import BasicServer.Numeric

namespace BasicServer

/-! ## Handlers -/

/-- A member function of `ClientConnection` that returns an `α`. -/
def Handler (α : Type) : Type := Session → Prog calls (Except Exn α × Session)

namespace Handler

variable {α β : Type}

/-- Continue after a value; an exception ends the function. -/
def next (f : α → Handler β) : Except Exn α × Session → Prog calls (Except Exn β × Session)
  | (.ok a, s) => f a s
  | (.error e, s) => .ret (.error e, s)

/-- Continue after an exception; a value ends the `try`. -/
def rescue (h : Exn → Handler α) : Except Exn α × Session → Prog calls (Except Exn α × Session)
  | (.ok a, s) => .ret (.ok a, s)
  | (.error e, s) => h e s

instance : Monad Handler where
  pure a := fun s => .ret (.ok a, s)
  bind x f := fun s => (x s).bind (next f)

instance : MonadExceptOf Exn Handler where
  throw e := fun s => .ret (.error e, s)
  tryCatch x h := fun s => (x s).bind (rescue h)

/-- The state of the connection. -/
def self : Handler Session := fun s => .ret (.ok s, s)

/-- Assign to members of the connection. -/
def assign (f : Session → Session) : Handler Unit := fun s => .ret (.ok (), f s)

/-- Call a function that touches no shared state. -/
def lift (x : Except Exn α) : Handler α := fun s => .ret (x, s)

/-- Make one call to the shared state. -/
def ask (c : Call) : Handler c.Ans := fun s => .call ⟨c, s⟩ fun r => .ret (.ok r, s)

end Handler

open Handler (self assign lift ask)

/-! ## The value stack; its top is the head of the list -/

namespace ValueStack

/-- `ValueStack::get_top`. -/
def getTop : List Str → Except Exn Str
  | v :: _ => .ok v
  | [] => .error (.operationException "Tried to call TOP on an empty operations stack.".toList)

/-- `ValueStack::pop`. -/
def pop : List Str → Except Exn (List Str)
  | _ :: st => .ok st
  | [] => .error (.operationException "Tried to call POP on an empty operations stack.".toList)

end ValueStack

/-- `stack.get_top()`. -/
def getTop : Handler Str := do lift (ValueStack.getTop (← self).stack)

/-- `stack.pop()`. -/
def pop : Handler Unit := do
  let st ← lift (ValueStack.pop (← self).stack)
  assign fun s => { s with stack := st }

/-- `stack.push(value)`. -/
def push (value : Str) : Handler Unit := assign fun s => { s with stack := value :: s.stack }

/-- `stack.get_size()`. -/
def getSize : Handler Nat := do return (← self).stack.length

/-! ## Responses -/

/-- `rio_writen` to the client's socket. -/
def rioWriten (data : Str) : Handler Unit :=
  assign fun s => { s with replies := s.replies ++ [data] }

/-- Encode a message and write it to the socket. -/
def send (msg : Message) : Handler Unit := do
  let encoded ← lift (encode msg)
  rioWriten encoded

/-- `write_ok`. -/
def writeOk : Handler Unit := send ⟨.ok, []⟩

/-- `fail_transaction`. -/
def failTransaction : Handler Unit := do
  let tables ← ask (.walk (← self).lockedTables)
  tables.forM fun t => do
    ask (.rollbackChanges t)
    ask (.unlock t)
  assign fun s => { s with lockedTables := [] }
  assign fun s => { s with inTransaction := false }

/-- `manage_exception`; `what` is the text of the exception. -/
def manageException (what : Str) (recoverable : Bool) : Handler Unit := do
  if (← self).inTransaction then failTransaction
  let responseType := if recoverable then MessageType.failed else MessageType.error
  send ⟨responseType, [what]⟩

/-! ## The request handlers -/

/-- A pointer to a local variable, or the null pointer. -/
inductive Pointer where
  | null
  | addr
  deriving DecidableEq

/-- `handle_create`. -/
def handleCreate (clientMsg : Message) : Handler Unit := do
  ask .serverLock
  let tableName ← lift (clientMsg.getArg 0)
  if (← ask (.findTable tableName)) ≠ none then
    ask .serverUnlock
    throw (.operationException "A table with this name already exists.".toList)
  ask (.createTable tableName)
  writeOk
  ask .serverUnlock

/-- `handle_login`.  The test `!first_valid_message` is on the pointer, not on what it points to. -/
def handleLogin (firstValidMessage : Pointer) : Handler Unit := do
  if firstValidMessage = .null then
    throw (.operationException "You are already logged in.".toList)
  assign fun s => { s with firstValidMessage := false }
  writeOk

/-- `handle_begin`. -/
def handleBegin : Handler Unit := do
  if (← self).inTransaction then
    throw (.failedTransaction "Nested transactions are not supported.".toList)
  assign fun s => { s with inTransaction := true }
  writeOk

/-- `handle_commit`. -/
def handleCommit : Handler Unit := do
  if !(← self).inTransaction then
    throw (.failedTransaction "Transaction is not ongoing.".toList)
  let tables ← ask (.walk (← self).lockedTables)
  tables.forM fun t => do
    ask (.commitChanges t)
    ask (.unlock t)
  assign fun s => { s with lockedTables := [] }
  assign fun s => { s with inTransaction := false }
  writeOk

/-- `catch (OperationException const& ex) { throw OperationException(ex.what()); }`. -/
def rethrow {α : Type} : Exn → Handler α
  | .operationException what => throw (.operationException what)
  | e => throw e

/-- `handle_pop`. -/
def handlePop : Handler Unit := do
  tryCatch pop rethrow
  writeOk

/-- `handle_top`. -/
def handleTop : Handler Unit := do
  let topValue ← tryCatch getTop rethrow
  send ⟨.data, [topValue]⟩

/-- The `catch (std::invalid_argument)` of the arithmetic handlers.  `right` is the right operand
    if it was popped before the throw (`right_popped`). -/
def catchInvalid {α : Type} (right : Option Int) : Exn → Handler α
  | .invalidArgument => do
    match right with
    | some rightOperand => push (toStr rightOperand)
    | none => pure ()
    throw (.operationException "Value on stack could not be converted to an integer.".toList)
  | e => throw e

/-- Convert the top of the stack and pop it. -/
def popInt : Handler Int := do
  let operand ← lift (stoi (← getTop))
  pop
  return operand

/-- The common text of `handle_add`, `handle_sub`, `handle_mul` and `handle_div`.  The `try` block
    converts two operands; each conversion is written with the `catch` clause as it applies there,
    before and after `right_popped` is set. -/
def handleArith (tooFew : Str) (op : Int → Int → Except Exn Int) : Handler Unit := do
  if (← getSize) < 2 then throw (.operationException tooFew)
  let rightOperand ← tryCatch popInt (catchInvalid none)
  let leftOperand ← tryCatch popInt (catchInvalid (some rightOperand))
  push (toStr (← lift (op leftOperand rightOperand)))
  writeOk

/-- `handle_add`. -/
def handleAdd : Handler Unit :=
  handleArith "There are not enough operands to add with.".toList intAdd

/-- `handle_sub`. -/
def handleSub : Handler Unit :=
  handleArith "There are not enough operands to subtract with.".toList intSub

/-- `handle_mul`. -/
def handleMul : Handler Unit :=
  handleArith "There are not enough operands to multiply with.".toList intMul

/-- `handle_div`. -/
def handleDiv : Handler Unit :=
  handleArith "There are not enough operands to divide with.".toList intDiv

/-- `handle_bye`. -/
def handleBye : Handler Unit := do
  assign fun s => { s with loopInProgress := false }
  writeOk

/-- `handle_push`. -/
def handlePush (clientMsg : Message) : Handler Unit := do
  push (← lift (clientMsg.getArg 0))
  writeOk

/-- `set_table_value`. -/
def setTableValue (clientMsg : Message) (tableObj : Ptr) : Handler Unit := do
  let key ← lift (clientMsg.getArg 1)
  ask (.set tableObj key (← getTop))
  pop

/-- Get hold of the table's lock in a transaction, unless it is held already. -/
def acquire (tableObj : Ptr) : Handler Unit := do
  if tableObj ∉ (← self).lockedTables then
    let lockSuccessful ← ask (.trylock tableObj)
    if !lockSuccessful then
      throw (.failedTransaction "Could not gain access to table.".toList)
    else
      assign fun s => { s with lockedTables := tableObj :: s.lockedTables }

/-- `handle_set`. -/
def handleSet (clientMsg : Message) : Handler Unit := do
  if (← getSize) < 1 then throw (.operationException "No value on stack.".toList)
  let tableName ← lift (clientMsg.getArg 0)
  match ← ask (.findTable tableName) with
  | none => throw (.operationException "Could not find table.".toList)
  | some tableObj =>
    if !(← self).inTransaction then
      ask (.lock tableObj)
      setTableValue clientMsg tableObj
      ask (.commitChanges tableObj)
      ask (.unlock tableObj)
    else
      acquire tableObj
      setTableValue clientMsg tableObj
    writeOk

/-- `get_table_value`. -/
def getTableValue (clientMsg : Message) (tableObj : Ptr) : Handler Unit := do
  let key ← lift (clientMsg.getArg 1)
  if !(← ask (.hasKey tableObj key)) then
    ask (.unlock tableObj)
    throw (.operationException "Could not find key in specified table.".toList)
  else
    push (← lift (← ask (.get tableObj key)))

/-- `handle_get`. -/
def handleGet (clientMsg : Message) : Handler Unit := do
  let tableName ← lift (clientMsg.getArg 0)
  match ← ask (.findTable tableName) with
  | none => throw (.operationException "Could not find table.".toList)
  | some tableObj =>
    if !(← self).inTransaction then
      ask (.lock tableObj)
      tryCatch (getTableValue clientMsg tableObj) fun
        | .operationException what => do
          ask (.unlock tableObj)
          throw (.operationException what)
        | e => throw e
      ask (.unlock tableObj)
    else
      acquire tableObj
      tryCatch (getTableValue clientMsg tableObj) rethrow
    writeOk

/-! ## The session -/

/-- The `switch` of `call_response_function`. -/
def respond (clientMsg : Message) : Handler Unit :=
  match clientMsg.mMessageType with
  | .create => handleCreate clientMsg
  | .begin => handleBegin
  | .commit => handleCommit
  | .pop => handlePop
  | .top => handleTop
  | .add => handleAdd
  | .sub => handleSub
  | .mul => handleMul
  | .div => handleDiv
  | .bye => handleBye
  | .push => handlePush clientMsg
  | .set => handleSet clientMsg
  | .get => handleGet clientMsg
  | _ => throw (.operationException "Please only enter standardized requests.".toList)

/-- The `catch` clauses of `call_response_function`: `InvalidMessage`, then any other
    `std::runtime_error`. -/
def catchResponse : Exn → Handler Unit
  | .invalidMessage what => do
    assign fun s => { s with loopInProgress := false }
    manageException what false
  | .commException what | .operationException what | .failedTransaction what =>
    manageException what true
  | e => throw e

/-- `call_response_function`. -/
def callResponseFunction (clientMsg : Message) : Handler Unit :=
  tryCatch (respond clientMsg) catchResponse

/-- The body of the loop in `chat_with_client`, for a line that was read. -/
def chatLine (buf : Str) : Handler Unit :=
  match decode buf {} with
  | .error (.invalidMessage what) => manageException what false
  | .error e => throw e
  | .ok clientMsg => do
    if clientMsg.mMessageType = .login then
      tryCatch (handleLogin .addr) fun
        | .operationException what => manageException what true
        | e => throw e
    else if (← self).firstValidMessage then
      send ⟨.error, ["Please log in first.".toList]⟩
      assign fun s => { s with loopInProgress := false }
    else
      callResponseFunction clientMsg

/-- What `rio_readlineb` gives: a line, or nothing any more. -/
inductive Input where
  | line (buf : Str)
  | eof

/-- One iteration of the loop in `chat_with_client`. -/
def iteration : Input → Handler Unit
  | .line buf => chatLine buf
  | .eof => assign fun s => { s with loopInProgress := false }

/-- `~ClientConnection`. -/
def destructor : Handler Unit := do
  if (← self).inTransaction then failTransaction

/-- The end of an input: another iteration, or the end of the session; an exception that nothing
    has caught ends the process. -/
def afterIteration : Except Exn Unit × Session → Prog calls Session
  | (.error _, s) => .call ⟨.terminate, s⟩ fun _ => .ret s
  | (.ok (), s) =>
    if s.loopInProgress then .ret s else (destructor s).bind fun r => .ret r.2

/-- What the thread of a session runs for one input. -/
def process (input : Input) (s : Session) : Prog calls Session :=
  (iteration input { s with replies := [] }).bind afterIteration

end BasicServer
