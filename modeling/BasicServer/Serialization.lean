/-
  Encoding and decoding of messages (`message_serialization.cpp`).

  `decode` reads a line with two tokenisers: `ss >> m_type` takes the keyword, `std::getline` the
  text up to the next newline, and a second stream splits that text into the arguments.  FAILED and
  ERROR take a quoted text instead.  Both tokenisers are `Words` over `isspace`.

  The out-parameter of `decode` is an argument (the message before the call) and the result.  A
  throw leaves it half written; no caller reads it then.

  `decode_inv` takes a successful call of `decode` apart, and `decode_error` says what an
  unsuccessful one throws: nothing but `InvalidMessage`, unless the string is empty.
-/
import BasicServer.Message
import BasicServer.Lib.Words
import Mathlib.Algebra.Group.Nat.Defs

namespace BasicServer

open Message (maxEncodedLen)

/-! ## The code -/

/-- `check_message_size`. -/
def checkMessageSize (msg : Str) : Except Exn Unit :=
  if msg.length > maxEncodedLen then .error (.invalidMessage "Message is too long.".toList)
  else .ok ()

/-- The `switch` of `encode`: the keyword of a type. -/
def typeName : MessageType → Except Exn Str
  | .create => .ok "CREATE".toList
  | .login => .ok "LOGIN".toList
  | .begin => .ok "BEGIN".toList
  | .commit => .ok "COMMIT".toList
  | .pop => .ok "POP".toList
  | .top => .ok "TOP".toList
  | .add => .ok "ADD".toList
  | .sub => .ok "SUB".toList
  | .mul => .ok "MUL".toList
  | .div => .ok "DIV".toList
  | .bye => .ok "BYE".toList
  | .ok => .ok "OK".toList
  | .failed => .ok "FAILED".toList
  | .error => .ok "ERROR".toList
  | .push => .ok "PUSH".toList
  | .set => .ok "SET".toList
  | .get => .ok "GET".toList
  | .data => .ok "DATA".toList
  | .none => .error (.invalidMessage "Message must have a type.".toList)

/-- `encode`. -/
def encode (msg : Message) : Except Exn Str := do
  let encodedMsg ← typeName msg.mMessageType
  let encodedMsg := msg.mArgs.foldl (fun enc arg => enc ++ " ".toList ++ arg) encodedMsg
  let encodedMsg := encodedMsg ++ "\n".toList
  checkMessageSize encodedMsg
  return encodedMsg

/-- `str.back()`: undefined on the empty string. -/
def back (s : Str) : Except Exn Char :=
  match s.getLast? with
  | some c => .ok c
  | none => .error .undefined

/-- The `std::string` that a buffer of characters is converted to: it ends before the first NUL. -/
def cString (buf : Str) : Str := buf.takeWhile (· ≠ '\x00')

/-- The comparisons in the if/else-if chain of `decode`, in its order. -/
def keywords : List (Str × MessageType) :=
  [("BEGIN".toList, .begin), ("COMMIT".toList, .commit), ("POP".toList, .pop),
   ("TOP".toList, .top), ("ADD".toList, .add), ("SUB".toList, .sub),
   ("MUL".toList, .mul), ("DIV".toList, .div), ("BYE".toList, .bye),
   ("OK".toList, .ok), ("FAILED".toList, .failed), ("ERROR".toList, .error),
   ("LOGIN".toList, .login), ("CREATE".toList, .create), ("PUSH".toList, .push),
   ("SET".toList, .set), ("GET".toList, .get), ("DATA".toList, .data)]

/-- The if/else-if chain of `decode`: the type of the first keyword that is equal. -/
def keyword (mType : Str) : Option MessageType := keywords.lookup mType

/-- `std::getline`: what comes before the next newline. -/
def getline (s : Str) : Str := s.takeWhile (· ≠ '\n')

/-- `str.find_first_of(c)`; `none` is `npos`. -/
def findFirstOf (s : Str) (c : Char) : Option Nat := s.findIdx? (· = c)

/-- `str.find_last_of(c)`; `none` is `npos`. -/
def findLastOf (s : Str) (c : Char) : Option Nat :=
  (s.reverse.findIdx? (· = c)).map (s.length - 1 - ·)

/-- Subtraction of `size_t` values, which wraps around. -/
def sizeSub (a b : Nat) : Nat := (a + 2 ^ 64 - b) % 2 ^ 64

/-- `str.substr(pos, n)`: throws if `pos` is past the end. -/
def substr (s : Str) (pos n : Nat) : Except Exn Str :=
  if s.length < pos then .error .outOfRange else .ok ((s.drop pos).take n)

/-- `extract_quoted_text_arg`. -/
def extractQuotedTextArg (msg : Message) (quotedText : Str) : Except Exn Message :=
  match findFirstOf quotedText '"', findLastOf quotedText '"' with
  | some openQuoteInd, some closeQuoteInd => do
    let text ← substr quotedText (openQuoteInd + 1) (sizeSub (sizeSub closeQuoteInd openQuoteInd) 1)
    return msg.pushArg text
  | _, _ => .error (.invalidMessage
      "Message whose type requires a quoted text argument does not contain a quotation.".toList)

/-- `extract_single_word_args`: `while (ss >> curr_arg) { msg->push_arg(curr_arg); }`. -/
def extractSingleWordArgs (msg : Message) (argsList : Str) : Message :=
  (Words.words isspace argsList).foldl Message.pushArg msg

/-- `decode`. -/
def decode (encodedMsg : Str) (msg : Message) : Except Exn Message := do
  checkMessageSize encodedMsg
  if (← back encodedMsg) ≠ '\n' then
    throw (.invalidMessage "Encoded message is missing a newline.".toList)
  let (mType, ss) := Words.next isspace encodedMsg
  match keyword mType with
  | none => throw (.invalidMessage "Message must have a type.".toList)
  | some t =>
    let msg := (msg.setMessageType t).clearArgs
    let remainingText := getline ss
    let msg ← if t = .failed ∨ t = .error then extractQuotedTextArg msg remainingText
      else pure (extractSingleWordArgs msg remainingText)
    if !(← msg.isValid) then throw (.invalidMessage "Message is not valid.".toList)
    return msg

/-! ## Taking a successful computation apart -/

theorem ok_bind {α β : Type} {x : Except Exn α} {f : α → Except Exn β} {b : β} :
    x >>= f = .ok b ↔ ∃ a, x = .ok a ∧ f a = .ok b := by
  cases x with
  | error e => simp [bind, Except.bind]
  | ok a => simp [bind, Except.bind]

/-- A computation that succeeds did not stop at a check that throws. -/
theorem ok_of_not_throw {α : Type} {c : Prop} [Decidable c] {e : Exn} {f : Unit → Except Exn α}
    {a : α} (h : (if c then throw e >>= f else f ()) = .ok a) : ¬ c ∧ f () = .ok a := by
  by_cases hc : c
  · rw [if_pos hc] at h; cases h
  · rw [if_neg hc] at h; exact ⟨hc, h⟩

/-! ## Keywords -/

theorem mem_of_lookup {w : Str} {t : MessageType} :
    ∀ {l : List (Str × MessageType)}, l.lookup w = some t → (w, t) ∈ l
  | (k, u) :: l, h => by
    rw [List.lookup_cons] at h
    cases hk : w == k with
    | true =>
      rw [hk] at h
      obtain rfl := eq_of_beq hk
      obtain rfl := Option.some.inj h
      exact List.mem_cons_self ..
    | false =>
      rw [hk] at h
      exact List.mem_cons_of_mem _ (mem_of_lookup h)

/-- The two tables are inverse to each other. -/
theorem keyword_eq_some {w : Str} {t : MessageType} : keyword w = some t ↔ typeName t = .ok w := by
  constructor
  · intro h
    have hall : ∀ e ∈ keywords, typeName e.2 = .ok e.1 := by
      simp [keywords, typeName]
    exact hall (w, t) (mem_of_lookup h)
  · intro h
    cases t <;> cases h <;> decide

/-- A keyword is a word. -/
theorem typeName_isWord {w : Str} {t : MessageType} (h : typeName t = .ok w) :
    Words.IsWord isspace w := by
  have hall : w ≠ [] ∧ (w.all fun c => !isspace c) = true := by
    cases t <;> cases h <;> decide
  refine ⟨hall.1, fun c hc => ?_⟩
  simpa using List.all_eq_true.mp hall.2 c hc

/-! ## What encode writes -/

theorem foldl_args (args : List Str) (enc : Str) :
    args.foldl (fun enc arg => enc ++ " ".toList ++ arg) enc = enc ++ Words.joined ' ' args := by
  induction args generalizing enc with
  | nil => simp
  | cons arg args ih => rw [List.foldl_cons, ih]; simp

/-- The line `encode` builds for the keyword `w`. -/
def lineOf (w : Str) (args : List Str) : Str := w ++ (Words.joined ' ' args ++ ['\n'])

theorem encode_eq {msg : Message} {w : Str} (hw : typeName msg.mMessageType = .ok w) :
    encode msg = if (lineOf w msg.mArgs).length > maxEncodedLen
      then .error (.invalidMessage "Message is too long.".toList)
      else .ok (lineOf w msg.mArgs) := by
  have hline : w ++ Words.joined ' ' msg.mArgs ++ "\n".toList = lineOf w msg.mArgs := by
    rw [lineOf, List.append_assoc]; rfl
  simp only [encode, hw, bind, Except.bind, pure, Except.pure, foldl_args, hline,
    checkMessageSize]
  by_cases hlen : (lineOf w msg.mArgs).length > maxEncodedLen
  · rw [if_pos hlen, if_pos hlen]
  · rw [if_neg hlen, if_neg hlen]

theorem encode_ok {msg : Message} {w : Str} (hw : typeName msg.mMessageType = .ok w)
    (hlen : (lineOf w msg.mArgs).length ≤ maxEncodedLen) : encode msg = .ok (lineOf w msg.mArgs) := by
  rw [encode_eq hw, if_neg (by omega)]

/-- **Inversion of encode**. -/
theorem encode_inv {msg : Message} {line : Str} (h : encode msg = .ok line) :
    ∃ w, typeName msg.mMessageType = .ok w ∧ line = lineOf w msg.mArgs ∧
      line.length ≤ maxEncodedLen := by
  obtain ⟨w, hw, -⟩ := ok_bind.mp h
  rw [encode_eq hw] at h
  split at h
  · cases h
  · obtain rfl := Except.ok.inj h
    exact ⟨w, hw, rfl, by omega⟩

/-! ## What decode accepts -/

theorem back_eq_ok {s : Str} {c : Char} : back s = .ok c ↔ s.getLast? = some c := by
  unfold back
  cases s.getLast? <;> simp

theorem extractSingleWordArgs_eq (t : MessageType) (text : Str) :
    extractSingleWordArgs ⟨t, []⟩ text = ⟨t, Words.words isspace text⟩ := by
  have h : ∀ (ws args : List Str), ws.foldl Message.pushArg ⟨t, args⟩ = ⟨t, args ++ ws⟩ := by
    intro ws
    induction ws with
    | nil => intro args; simp
    | cons w ws ih => intro args; rw [List.foldl_cons, Message.pushArg, ih]; simp
  exact h (Words.words isspace text) []

/-- The types whose text is quoted on the wire. -/
abbrev Quoted (t : MessageType) : Prop := t = .failed ∨ t = .error

/-- The arguments of a message of type `t`, from the text after the keyword. -/
def parseArgs (t : MessageType) (text : Str) : Except Exn Message :=
  if Quoted t then extractQuotedTextArg ⟨t, []⟩ text else .ok ⟨t, Words.words isspace text⟩

/-- The part of `decode` after the keyword: the arguments, and the final check. -/
def finish (t : MessageType) (ss : Str) : Except Exn Message := do
  let msg ← parseArgs t (getline ss)
  if !(← msg.isValid) then throw (.invalidMessage "Message is not valid.".toList)
  return msg

theorem decode_eq {s : Str} {m₀ : Message} (hlen : s.length ≤ maxEncodedLen)
    (hlast : s.getLast? = some '\n') :
    decode s m₀ = match keyword (Words.next isspace s).1 with
      | none => .error (.invalidMessage "Message must have a type.".toList)
      | some t => finish t (Words.next isspace s).2 := by
  have hsize : checkMessageSize s = .ok () := by rw [checkMessageSize, if_neg (by omega)]
  simp only [decode, hsize, back_eq_ok.mpr hlast, bind, Except.bind, ne_eq, not_true_eq_false,
    if_false, pure, Except.pure, finish, parseArgs, Message.setMessageType, Message.clearArgs,
    extractSingleWordArgs_eq]
  cases keyword (Words.next isspace s).1 with
  | none => rfl
  | some t =>
    by_cases hq : Quoted t
    · simp only [if_pos hq]
    · simp only [if_neg hq]

/-- Lines that are too long, or lack the newline, are refused. -/
theorem decode_size {s : Str} {m₀ m : Message} (h : decode s m₀ = .ok m) :
    s.length ≤ maxEncodedLen ∧ s.getLast? = some '\n' := by
  obtain ⟨_, hsize, h⟩ := ok_bind.mp h
  obtain ⟨c, hback, h⟩ := ok_bind.mp h
  have hc := (ok_of_not_throw h).1
  constructor
  · unfold checkMessageSize at hsize
    split at hsize
    · cases hsize
    · omega
  · rw [back_eq_ok.mp hback, not_not.mp hc]

/-- The argument parsers fill in the arguments of the message and leave its type. -/
theorem parseArgs_type {t : MessageType} {text : Str} {m : Message}
    (h : parseArgs t text = .ok m) : m.mMessageType = t := by
  unfold parseArgs at h
  split at h
  · unfold extractQuotedTextArg at h
    split at h
    · obtain ⟨arg, -, h⟩ := ok_bind.mp h
      obtain rfl := Except.ok.inj h
      rfl
    · cases h
  · obtain rfl := Except.ok.inj h
    rfl

/-- **Inversion of decode**: what a successful call says about the line and the message. -/
theorem decode_inv {s : Str} {m₀ m : Message} (h : decode s m₀ = .ok m) :
    s.length ≤ maxEncodedLen ∧ s.getLast? = some '\n' ∧ ∃ w ss, Words.next isspace s = (w, ss) ∧
      typeName m.mMessageType = .ok w ∧ m.isValid = .ok true ∧
      parseArgs m.mMessageType (getline ss) = .ok m := by
  obtain ⟨hlen, hlast⟩ := decode_size h
  refine ⟨hlen, hlast, _, _, rfl, ?_⟩
  rw [decode_eq hlen hlast] at h
  cases hk : keyword (Words.next isspace s).1 with
  | none => rw [hk] at h; cases h
  | some t =>
    rw [hk] at h
    obtain ⟨m', hargs, h⟩ := ok_bind.mp h
    obtain ⟨b, hv, h⟩ := ok_bind.mp h
    obtain ⟨hb, h⟩ := ok_of_not_throw h
    obtain rfl := Except.ok.inj h
    have ht := parseArgs_type hargs
    rw [ht]
    refine ⟨keyword_eq_some.mp hk, ?_, hargs⟩
    rw [hv]
    simpa using hb

/-! ## What decode throws -/

theorem findFirstOf_lt {s : Str} {c : Char} {i : Nat} (h : findFirstOf s c = some i) : i < s.length := by
  rw [findFirstOf, List.findIdx?_eq_some_iff_getElem] at h
  exact h.1

/-- The text that `decode` throws is one of these. -/
def decodeTexts : List Str :=
  ["Message is too long.".toList, "Encoded message is missing a newline.".toList,
   "Message must have a type.".toList,
   "Message whose type requires a quoted text argument does not contain a quotation.".toList,
   "Message is not valid.".toList]

theorem extractQuotedTextArg_error {msg : Message} {text : Str} {e : Exn}
    (h : extractQuotedTextArg msg text = .error e) :
    ∃ what ∈ decodeTexts.drop 3, e = .invalidMessage what := by
  unfold extractQuotedTextArg at h
  split at h
  · rename_i i j hi hj
    have hlt := findFirstOf_lt hi
    simp only [substr, if_neg (show ¬ text.length < i + 1 by omega)] at h
    cases h
  · cases h
    exact ⟨_, by decide, rfl⟩

/-- After the keyword, only the last two of them are thrown. -/
theorem finish_error {t : MessageType} {ss : Str} {e : Exn} (h : finish t ss = .error e) :
    ∃ what ∈ decodeTexts.drop 3, e = .invalidMessage what := by
  unfold finish at h
  cases hp : parseArgs t (getline ss) with
  | error e' =>
    rw [hp] at h
    obtain rfl := Except.error.inj h
    unfold parseArgs at hp
    split at hp
    · exact extractQuotedTextArg_error hp
    · cases hp
  | ok m =>
    have hwords : Message.takesIdents m.mMessageType = true → ∀ a ∈ m.mArgs, a ≠ [] := by
      intro ht a ha
      rw [parseArgs_type hp] at ht
      have hq : ¬ Quoted t := by
        rintro (rfl | rfl) <;> exact absurd ht (by decide)
      rw [parseArgs, if_neg hq] at hp
      obtain rfl := Except.ok.inj hp
      exact (Words.isWord_of_mem ha).1
    obtain ⟨b, hb⟩ := Message.isValid_total hwords
    rw [hp] at h
    simp only [bind, Except.bind, hb] at h
    cases b with
    | true => cases h
    | false =>
      obtain rfl := Except.error.inj h
      exact ⟨_, by decide, rfl⟩

/-- A line that is cut off is refused. -/
theorem decode_cut {s : Str} {m₀ : Message} {c : Char} (hlen : s.length ≤ maxEncodedLen)
    (hlast : s.getLast? = some c) (hc : c ≠ '\n') : decode s m₀
      = .error (.invalidMessage "Encoded message is missing a newline.".toList) := by
  simp only [decode, checkMessageSize, if_neg (show ¬ s.length > maxEncodedLen by omega), bind,
    Except.bind, back_eq_ok.mpr hlast, if_pos (show c ≠ '\n' from hc)]
  rfl

/-- What is thrown at a line of good size with its newline. -/
theorem decode_line_error {s : Str} {m₀ : Message} {e : Exn} (hlen : s.length ≤ maxEncodedLen)
    (hlast : s.getLast? = some '\n') (h : decode s m₀ = .error e) :
    ∃ what ∈ decodeTexts.drop 2, e = .invalidMessage what := by
  rw [decode_eq hlen hlast] at h
  split at h
  · obtain rfl := Except.error.inj h
    exact ⟨_, by decide, rfl⟩
  · obtain ⟨what, hmem, rfl⟩ := finish_error h
    exact ⟨what, List.mem_of_mem_drop (i := 1) (by rw [List.drop_drop]; exact hmem), rfl⟩

/-- **InvalidMessage is all that decode throws**, unless the string is empty. -/
theorem decode_error {s : Str} {m₀ : Message} {e : Exn} (hs : s ≠ []) (h : decode s m₀ = .error e) :
    ∃ what ∈ decodeTexts, e = .invalidMessage what := by
  by_cases hlen : s.length ≤ maxEncodedLen
  · cases hl : s.getLast? with
    | none => exact absurd (List.getLast?_eq_none_iff.mp hl) hs
    | some c =>
      by_cases hc : c = '\n'
      · subst hc
        obtain ⟨what, hmem, rfl⟩ := decode_line_error hlen hl h
        exact ⟨what, List.mem_of_mem_drop hmem, rfl⟩
      · rw [decode_cut hlen hl hc] at h
        obtain rfl := Except.error.inj h
        exact ⟨_, by decide, rfl⟩
  · simp only [decode, checkMessageSize, if_pos (show s.length > maxEncodedLen by omega), bind,
      Except.bind] at h
    obtain rfl := Except.error.inj h
    exact ⟨_, by decide, rfl⟩

end BasicServer
