/-
  Valid messages on the wire.

  The check, the encoder and the decoder each have their own idea of an argument: `isValid` wants
  identifiers, or a value that is not blank, or nothing at all; `encode` writes whatever it is given;
  `decode` reads words.

  1. **The check** (`isValid_answers`) — it has an answer unless it comes to an empty identifier,
     whose first character it asks for.
  2. **One line** (`oneLine_iff`) — where the check has an answer, and the arguments it does not look
     into are words, a valid message is one line, and that line is the message.
-/
import BasicServer.Grammar

namespace BasicServer

open Message (maxEncodedLen arity takesIdents IsIdent)
open Words (IsWord)

/-! ## What should hold of a message -/

/-- The check has an answer, and a valid message that can be encoded is one line, which is decoded
    as the message. -/
structure OneLine (m : Message) : Prop where
  answers : ∃ b, m.isValid = .ok b
  line : m.isValid = .ok true → ∀ enc, encode m = .ok enc →
    ∃ body, enc = body ++ ['\n'] ∧ '\n' ∉ body
  readBack : m.isValid = .ok true → ∀ enc, encode m = .ok enc → ∀ m₀, decode enc m₀ = .ok m

/-- The types whose arguments the check does not look into, but for a blank PUSH. -/
def unchecked (t : MessageType) : Bool := t = .push || t = .data || t = .ok

/-- How long the line is for a keyword and arguments, one separator before each. -/
def lineLength (w : Str) (args : List Str) : Nat :=
  args.foldr (fun arg n => 1 + arg.length + n) (w.length + 1)

/-- When it does.  An empty identifier comes after one that is refused; and the arguments of PUSH,
    DATA and OK are words, if there are as many as there should be, not all blank for PUSH, and the
    line is not too long. -/
structure Careful (m : Message) : Prop where
  idents : takesIdents m.mMessageType = true → arity m.mMessageType = some m.mArgs.length →
    ∀ pre post, m.mArgs = pre ++ [] :: post → ∃ a ∈ pre, ¬ IsIdent a
  words : unchecked m.mMessageType = true →
    (∀ n, arity m.mMessageType = some n → m.mArgs.length = n) →
    ¬ (m.mMessageType = .push ∧ ∀ a ∈ m.mArgs, a.all isspace = true) →
    (∀ w, typeName m.mMessageType = .ok w → lineLength w m.mArgs ≤ maxEncodedLen) →
    ∀ a ∈ m.mArgs, IsWord isspace a

/-! ## The check -/

/-- Requests, OK and DATA are of three kinds. -/
theorem kinds {t : MessageType} (ht : t ∉ [.none, .failed, .error]) :
    takesIdents t = true ∨ unchecked t = true ∨ arity t = some 0 := by
  cases t <;> first | exact absurd (by decide) ht | decide

/-- **When the check has an answer.** -/
theorem isValid_answers {m : Message} :
    (∃ b, m.isValid = .ok b) ↔
      (takesIdents m.mMessageType = true → arity m.mMessageType = some m.mArgs.length →
        ∀ pre post, m.mArgs = pre ++ [] :: post → ∃ a ∈ pre, ¬ IsIdent a) := by
  obtain ⟨t, args⟩ := m
  cases ht : takesIdents t with
  | false => exact iff_of_true (Message.isValid_total fun h => nomatch ht.symm.trans h) nofun
  | true =>
    by_cases hn : ∀ n, arity t = some n → args.length = n
    · have hlen := Message.arity_of_idents ht hn
      rw [Message.isValid_eq_allIdents ht hlen, Message.allIdents_answers]
      exact ⟨fun h _ _ => h, fun h => h rfl hlen⟩
    · simp only [not_forall] at hn
      obtain ⟨n, harity, hne⟩ := hn
      refine iff_of_true ⟨false, Message.isValid_of_arity harity hne⟩ fun _ h => ?_
      exact absurd (Option.some.inj (h.symm.trans harity)) hne

/-- What the check asks of the types it does not look into. -/
theorem isValid_unchecked {t : MessageType} {args : List Str} (ht : unchecked t = true)
    (hn : ∀ n, arity t = some n → args.length = n) :
    Message.isValid ⟨t, args⟩ = .ok true ↔ ¬ (t = .push ∧ ∀ a ∈ args, a.all isspace = true) := by
  have hid : takesIdents t = false := by
    cases t <;> first | rfl | cases ht
  rw [Message.isValid_not_idents hid hn, Except.ok.injEq, Bool.not_eq_true', ← Bool.not_eq_true,
    Bool.and_eq_true, decide_eq_true_eq, List.all_eq_true]

/-! ## The line -/

theorem length_lineOf (w : Str) (args : List Str) : (lineOf w args).length = lineLength w args := by
  induction args with
  | nil => exact List.length_append
  | cons arg args ih =>
    simp only [lineOf, lineLength, Words.joined_cons, List.foldr_cons, List.length_append,
      List.length_cons, List.length_nil] at ih ⊢
    omega

/-- The arguments of a careful message are words, once it was found valid and encoded. -/
theorem Careful.isWord {m : Message} {enc : Str} (h : Careful m)
    (ht : m.mMessageType ∉ [.none, .failed, .error]) (hv : m.isValid = .ok true)
    (henc : encode m = .ok enc) : ∀ a ∈ m.mArgs, IsWord isspace a := by
  have hn : ∀ n, arity m.mMessageType = some n → m.mArgs.length = n :=
    fun n hn => Message.isValid_arity hv hn
  rcases kinds ht with hid | hun | hzero
  · have hidents := (isValid_takesIdents hid (Message.arity_of_idents hid hn)).mp hv
    exact fun a ha => isWord_of_ident (hidents a ha)
  · refine h.words hun hn ((isValid_unchecked hun hn).mp hv) fun w hw => ?_
    obtain ⟨w', hw', rfl, hlen⟩ := encode_inv henc
    obtain rfl := Except.ok.inj (hw.symm.trans hw')
    rwa [length_lineOf] at hlen
  · have hnil := List.eq_nil_of_length_eq_zero (hn 0 hzero)
    rw [hnil]
    exact nofun

theorem not_quoted {t : MessageType} (ht : t ∉ [.none, .failed, .error]) : ¬ Quoted t := by
  rintro (rfl | rfl) <;> exact ht (by decide)

/-- **A valid message is one line on the wire**, exactly if it is careful: a request, OK or DATA with
    any arguments whatever. -/
theorem oneLine_iff (m : Message) (ht : m.mMessageType ∉ [.none, .failed, .error]) :
    OneLine m ↔ Careful m := by
  constructor
  · intro h
    refine ⟨isValid_answers.mp h.answers, fun hun hn hblank hlen => ?_⟩
    have hv := (isValid_unchecked hun hn).mpr hblank
    obtain ⟨w, hw⟩ : ∃ w, typeName m.mMessageType = .ok w := by
      generalize m.mMessageType = t at hun
      cases t <;> first | exact ⟨_, rfl⟩ | cases hun
    have hle : (lineOf w m.mArgs).length ≤ maxEncodedLen := by
      rw [length_lineOf]
      exact hlen w hw
    -- what is decoded is a list of words
    have hdec := h.readBack hv _ (encode_ok hw hle) {}
    obtain ⟨-, -, hwords, -⟩ := decode_shape hdec (not_quoted ht)
    exact hwords
  · intro h
    refine ⟨isValid_answers.mpr h.idents, fun hv enc henc => ?_, fun hv enc henc m₀ => ?_⟩
    · have hwords := h.isWord ht hv henc
      obtain ⟨w, hw, rfl, -⟩ := encode_inv henc
      exact lineOf_body hw fun a ha => isWord_no_newline (hwords a ha)
    · have hwords := h.isWord ht hv henc
      obtain ⟨w, hw, rfl, hlen⟩ := encode_inv henc
      exact decode_lineOf hw (not_quoted ht) hlen hwords hv m₀

/-- A value with white space inside is no word. -/
theorem oneLine_iff_push : ¬ OneLine ⟨.push, ["1 2".toList]⟩ := by
  rw [oneLine_iff _ (by decide)]
  intro h
  have hword := h.words rfl (fun n hn => Option.some.inj hn) (by decide)
    (fun w hw => by cases hw; decide) _ (List.mem_singleton_self _)
  exact absurd (hword.2 ' ' (by decide)) (by decide)

/-- The decoder takes this line for two arguments, and refuses it. -/
theorem not_oneLine : ¬ ∀ m : Message, m.mMessageType ∉ [.none, .failed, .error] → OneLine m := by
  intro h
  have hdec := (h ⟨.push, ["1 2".toList]⟩ (by decide)).readBack (by decide) _ rfl {}
  exact absurd hdec (by decide)

/-- The check on an empty identifier. -/
example : Message.isValid ⟨.login, [[]]⟩ = .error .outOfRange := rfl

end BasicServer
