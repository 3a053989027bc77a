/-
  Messages of the protocol, and when they are valid (`exceptions.h`, `message.h`, `message.cpp`).

  A `std::string` is a list of characters (`Str`).  A C++ `char` is modelled by Lean's `Char`: the
  code only ever compares characters with ASCII ones, so the theorems hold for every byte string,
  and for more.  White space is that of the "C" locale, which `isspace` and the stream extraction
  `>>` share.

  A C++ exception is an `Exn`.  Three of its cases are no exception objects of the program's own
  classes: `invalidArgument` and `outOfRange` are what the standard library throws (both are
  `std::logic_error`s, so a `catch` of `std::runtime_error` lets them pass); `sigfpe` is the trap of
  an integer division, and `undefined` stands for an operation used outside its precondition.  No
  `catch` clause names these two, and the model gives no meaning to what follows them.

  `isValid` is the if/else-if chain of `Message::is_valid` as it stands, with the partial
  operations it uses: `m_args[i]`, which is undefined out of range, and `arg.at(i)`, which throws.
-/
import Mathlib.Tactic.Common

namespace BasicServer

/-- `std::string`. -/
abbrev Str : Type := List Char

/-- What can be thrown, or end the process. -/
inductive Exn where
  | invalidMessage (what : Str)
  | commException (what : Str)
  | operationException (what : Str)
  | failedTransaction (what : Str)
  | invalidArgument
  | outOfRange
  | sigfpe
  | undefined
  deriving DecidableEq, Repr

/-- `enum class MessageType`. -/
inductive MessageType where
  | none
  | login | create | push | pop | top | set | get | add | sub | mul | div | begin | commit | bye
  | ok | failed | error | data
  deriving DecidableEq, Repr

/-- `class Message`. -/
structure Message where
  mMessageType : MessageType := .none
  mArgs : List Str := []
  deriving DecidableEq, Repr

/-- `isspace` in the "C" locale. -/
def isspace (c : Char) : Bool :=
  c = ' ' || c = '\t' || c = '\n' || c = '\x0b' || c = '\x0c' || c = '\r'

/-- `str.at(i)`: throws out of range. -/
def strAt (s : Str) (i : Nat) : Except Exn Char :=
  match s[i]? with
  | some c => .ok c
  | none => .error .outOfRange

/-- `m_args[i]`: undefined out of range. -/
def Message.argIdx (msg : Message) (i : Nat) : Except Exn Str :=
  match msg.mArgs[i]? with
  | some arg => .ok arg
  | none => .error .undefined

namespace Message

/-- `Message::MAX_ENCODED_LEN`. -/
def maxEncodedLen : Nat := 1024

def setMessageType (msg : Message) (t : MessageType) : Message := { msg with mMessageType := t }

def pushArg (msg : Message) (arg : Str) : Message := { msg with mArgs := msg.mArgs ++ [arg] }

def clearArgs (msg : Message) : Message := { msg with mArgs := [] }

/-- `Message::get_arg`: `m_args.at(i)`, which throws out of range. -/
def getArg (msg : Message) (i : Nat) : Except Exn Str :=
  match msg.mArgs[i]? with
  | some arg => .ok arg
  | none => .error .outOfRange

/-- A letter. -/
def isLetter (c : Char) : Bool := ('A' ≤ c && c ≤ 'Z') || ('a' ≤ c && c ≤ 'z')

/-- A letter, a digit or an underscore. -/
def isIdentChar (c : Char) : Bool :=
  ('A' ≤ c && c ≤ 'Z') || ('a' ≤ c && c ≤ 'z') || ('0' ≤ c && c ≤ '9') || c = '_'

/-- The loop of `is_valid_identifier` over the positions `i, …, i + n - 1`. -/
def restIsIdent (arg : Str) : Nat → Nat → Except Exn Bool
  | _, 0 => .ok true
  | i, n + 1 => do
    let c ← strAt arg i
    if !isIdentChar c then return false
    restIsIdent arg (i + 1) n

/-- `Message::is_valid_identifier`. -/
def isValidIdentifier (arg : Str) : Except Exn Bool := do
  let c ← strAt arg 0
  if !isLetter c then return false
  restIsIdent arg 1 (arg.length - 1)

/-- `Message::is_valid`. -/
def isValid (msg : Message) : Except Exn Bool := do
  let msgType := msg.mMessageType
  if (msgType = .pop ∨ msgType = .top ∨ msgType = .add ∨ msgType = .mul ∨ msgType = .sub ∨
      msgType = .div ∨ msgType = .begin ∨ msgType = .commit ∨ msgType = .bye) ∧
      msg.mArgs.length ≠ 0 then
    return false
  else if (msgType = .login ∨ msgType = .create ∨ msgType = .push ∨ msgType = .data) ∧
      msg.mArgs.length ≠ 1 then
    return false
  else if (msgType = .set ∨ msgType = .get) ∧ msg.mArgs.length ≠ 2 then
    return false
  else if msgType = .login ∨ msgType = .create ∨ msgType = .set ∨ msgType = .get then
    if !(← isValidIdentifier (← msg.argIdx 0)) then return false
    if msgType = .set ∨ msgType = .get then
      if !(← isValidIdentifier (← msg.argIdx 1)) then return false
    return true
  else if msgType = .push then
    if (← msg.argIdx 0).all isspace then return false
    return true
  else
    return true

/-! ## What `isValid` asks for -/

/-- The number of arguments a type must have; the responses OK, FAILED and ERROR are not counted. -/
def arity : MessageType → Option Nat
  | .pop | .top | .add | .sub | .mul | .div | .begin | .commit | .bye => some 0
  | .login | .create | .push | .data => some 1
  | .set | .get => some 2
  | _ => none

/-- The types whose arguments are identifiers. -/
def takesIdents (t : MessageType) : Bool := t = .login || t = .create || t = .set || t = .get

/-- `[A-Za-z][A-Za-z0-9_]*`. -/
def IsIdent (arg : Str) : Prop := ∃ c rest, arg = c :: rest ∧ isLetter c = true ∧
  rest.all isIdentChar = true

theorem restIsIdent_eq (pre rest : Str) :
    restIsIdent (pre ++ rest) pre.length rest.length = .ok (rest.all isIdentChar) := by
  induction rest generalizing pre with
  | nil => rfl
  | cons c rest ih =>
    have hat : strAt (pre ++ c :: rest) pre.length = .ok c := by
      simp [strAt]
    have ih' := ih (pre ++ [c])
    rw [List.append_assoc, List.length_append] at ih'
    rw [List.length_cons, restIsIdent, hat, List.all_cons]
    cases hc : isIdentChar c with
    | false => simp [bind, Except.bind, pure, Except.pure, hc]
    | true => simpa [bind, Except.bind, hc] using ih'

/-- On a non-empty string the identifier test answers, and tests what its name says. -/
theorem isValidIdentifier_cons (c : Char) (rest : Str) :
    isValidIdentifier (c :: rest) = .ok (isLetter c && rest.all isIdentChar) := by
  have h := restIsIdent_eq [c] rest
  simp only [List.cons_append, List.nil_append, List.length_cons, List.length_nil] at h
  cases hc : isLetter c with
  | false => simp [isValidIdentifier, strAt, bind, Except.bind, pure, Except.pure, hc]
  | true =>
    simp only [isValidIdentifier, strAt, List.getElem?_cons_zero, bind, Except.bind, hc,
      Bool.not_true, Bool.false_eq_true, if_false, List.length_cons, Nat.add_sub_cancel,
      Bool.true_and]
    exact h

/-- The identifier test throws exactly on the empty string. -/
theorem isValidIdentifier_eq_true {arg : Str} :
    isValidIdentifier arg = .ok true ↔ IsIdent arg := by
  cases arg with
  | nil =>
    constructor
    · intro h; cases h
    · rintro ⟨c, rest, h, -⟩; cases h
  | cons c rest =>
    rw [isValidIdentifier_cons, Except.ok.injEq, Bool.and_eq_true]
    constructor
    · rintro ⟨hc, hr⟩; exact ⟨c, rest, rfl, hc, hr⟩
    · rintro ⟨d, t, h, hd, ht⟩
      obtain ⟨rfl, rfl⟩ := List.cons.inj h
      exact ⟨hd, ht⟩

theorem isValid_of_arity {msg : Message} {n : Nat} (hn : arity msg.mMessageType = some n)
    (hlen : msg.mArgs.length ≠ n) : msg.isValid = .ok false := by
  obtain ⟨t, args⟩ := msg
  cases t <;> cases hn <;> simp [isValid, hlen, pure, Except.pure]

/-- The argument count comes first. -/
theorem isValid_arity {msg : Message} {n : Nat} (h : msg.isValid = .ok true)
    (hn : arity msg.mMessageType = some n) : msg.mArgs.length = n := by
  by_contra hlen
  rw [isValid_of_arity hn hlen] at h
  cases h

/-- The identifiers of a message, tested from left to right until one is refused. -/
def allIdents : List Str → Except Exn Bool
  | [] => .ok true
  | arg :: args => do
    if !(← isValidIdentifier arg) then return false
    allIdents args

/-- Where the arguments are identifiers, the check tests them and nothing else. -/
theorem isValid_eq_allIdents {t : MessageType} {args : List Str} (ht : takesIdents t = true)
    (hn : arity t = some args.length) : isValid ⟨t, args⟩ = allIdents args := by
  match args with
  | [] => cases t <;> first | cases ht; done | cases hn
  | [a] =>
    cases t <;> first | cases ht; done | cases hn; done | skip
    all_goals
      cases ha : isValidIdentifier a with
      | error e => simp [isValid, allIdents, argIdx, ha, bind, Except.bind]
      | ok v => cases v <;> simp [isValid, allIdents, argIdx, ha, bind, Except.bind, pure, Except.pure]
  | [a, b] =>
    cases t <;> first | cases ht; done | cases hn; done | skip
    all_goals
      cases ha : isValidIdentifier a with
      | error e => simp [isValid, allIdents, argIdx, ha, bind, Except.bind]
      | ok v =>
        cases hb : isValidIdentifier b with
        | error e => cases v <;> simp [isValid, allIdents, argIdx, ha, hb, bind, Except.bind, pure,
            Except.pure]
        | ok w => cases v <;> cases w <;> simp [isValid, allIdents, argIdx, ha, hb, bind,
            Except.bind, pure, Except.pure]
  | _ :: _ :: _ :: _ => cases t <;> cases hn

theorem allIdents_cons {arg : Str} {args : List Str} {v : Bool} (h : isValidIdentifier arg = .ok v) :
    allIdents (arg :: args) = if v then allIdents args else .ok false := by
  rw [allIdents, h]
  cases v <;> rfl

theorem allIdents_eq_true {args : List Str} :
    allIdents args = .ok true ↔ ∀ a ∈ args, isValidIdentifier a = .ok true := by
  induction args with
  | nil => exact iff_of_true rfl nofun
  | cons a args ih =>
    rw [List.forall_mem_cons]
    cases ha : isValidIdentifier a with
    | error e => rw [allIdents, ha]; exact iff_of_false nofun fun h => nomatch h.1
    | ok v =>
      rw [allIdents_cons ha, ← ih]
      cases v <;> simp

/-- The test of the identifiers has an answer exactly if it does not come to an empty one. -/
theorem allIdents_answers {args : List Str} :
    (∃ b, allIdents args = .ok b) ↔
      ∀ pre post, args = pre ++ [] :: post → ∃ a ∈ pre, ¬ IsIdent a := by
  induction args with
  | nil => simp [allIdents]
  | cons a args ih =>
    cases a with
    | nil =>
      constructor
      · rintro ⟨b, h⟩; cases h
      · intro h
        obtain ⟨a, hmem, -⟩ := h [] args rfl
        cases hmem
    | cons c rest =>
      have hident := isValidIdentifier_cons c rest
      generalize (isLetter c && rest.all isIdentChar) = v at hident
      rw [allIdents_cons hident]
      constructor
      · rintro ⟨b, h⟩ pre post heq
        cases pre with
        | nil => cases heq
        | cons d pre =>
          obtain ⟨rfl, hargs⟩ := List.cons.inj heq
          cases v with
          | false =>
            refine ⟨_, List.mem_cons_self .., fun hd => ?_⟩
            rw [isValidIdentifier_eq_true.mpr hd] at hident
            cases hident
          | true =>
            obtain ⟨a, hmem, ha⟩ := ih.mp ⟨b, h⟩ pre post hargs
            exact ⟨a, List.mem_cons_of_mem _ hmem, ha⟩
      · intro h
        cases v with
        | false => exact ⟨false, rfl⟩
        | true =>
          refine ih.mpr fun pre post hargs => ?_
          obtain ⟨a, hmem, ha⟩ := h ((c :: rest) :: pre) post (by rw [hargs]; rfl)
          rcases List.mem_cons.mp hmem with rfl | hmem
          · exact absurd (isValidIdentifier_eq_true.mp hident) ha
          · exact ⟨a, hmem, ha⟩

/-- The identifiers of a message are counted. -/
theorem arity_of_idents {t : MessageType} {k : Nat} (ht : takesIdents t = true)
    (hn : ∀ n, arity t = some n → k = n) : arity t = some k := by
  cases harity : arity t with
  | none => cases t <;> first | cases ht; done | cases harity
  | some n => rw [hn n harity]

/-- Where the arguments are no identifiers and there are enough of them, only a blank PUSH is
    refused. -/
theorem isValid_not_idents {t : MessageType} {args : List Str} (ht : takesIdents t = false)
    (hn : ∀ n, arity t = some n → args.length = n) :
    isValid ⟨t, args⟩ = .ok !(t = .push && args.all fun a => a.all isspace) := by
  by_cases hpush : t = .push
  · subst hpush
    obtain ⟨a, rfl⟩ := List.length_eq_one_iff.mp (hn 1 rfl)
    cases ha : a.all isspace <;>
      simp [isValid, argIdx, ha, bind, Except.bind, pure, Except.pure]
  · rw [decide_eq_false hpush, Bool.false_and, Bool.not_false]
    cases harity : arity t with
    | none => cases t <;> cases harity <;> rfl
    | some n =>
      have hlen := hn n harity
      cases t <;> first | exact absurd rfl hpush | (cases ht; done) | (cases harity; done) | cases harity
      all_goals simp [isValid, hlen, pure, Except.pure]

/-- If the identifiers are not empty, the check has an answer. -/
theorem isValid_total {msg : Message}
    (h : takesIdents msg.mMessageType = true → ∀ a ∈ msg.mArgs, a ≠ []) :
    ∃ b, msg.isValid = .ok b := by
  obtain ⟨t, args⟩ := msg
  by_cases hn : ∀ n, arity t = some n → args.length = n
  · cases ht : takesIdents t with
    | false => exact ⟨_, isValid_not_idents ht hn⟩
    | true =>
      rw [isValid_eq_allIdents ht (arity_of_idents ht hn)]
      refine allIdents_answers.mpr fun pre post hargs => ?_
      exact absurd rfl (h ht [] (by rw [show args = pre ++ [] :: post from hargs]; simp))
  · simp only [not_forall] at hn
    obtain ⟨n, harity, hlen⟩ := hn
    exact ⟨false, isValid_of_arity harity hlen⟩

end Message

end BasicServer
