/-
  Encoding against decoding.

  `lineOf w args` is what `encode` writes: the keyword, each argument after one space, a newline.
  `next_lineOf` and `getline_lineOf` say how `decode` reads such a line back; with `words_joined`
  this gives the two sides of the wire:

  1. **Canonical form** (`encode_decode_canonical`) — a line that `decode` accepts as a request, OK
     or DATA is brought by `encode` to the one line with single spaces, which is no longer, and
     means the same message.
  2. **Quoted text** (`decode_encode_quoted`) — `encode` writes the text of a FAILED or ERROR
     message as it is, without the quotation marks that `decode` looks for.  Such a line is refused
     by every `decode`, whatever the text.
-/
import BasicServer.Serialization

namespace BasicServer

open Message (maxEncodedLen isLetter isIdentChar)
open Words (IsWord Stops)

/-! ## How decode reads a line that encode wrote -/

theorem isWord_no_newline {w : Str} (h : IsWord isspace w) : '\n' ∉ w := by
  intro hmem
  have hc := h.2 '\n' hmem
  simp [isspace] at hc

/-- An identifier is a word. -/
theorem isWord_of_ident {arg : Str} (h : Message.isValidIdentifier arg = .ok true) :
    IsWord isspace arg := by
  obtain ⟨c, rest, rfl, hc, hrest⟩ := Message.isValidIdentifier_eq_true.mp h
  refine ⟨nofun, fun d hd => ?_⟩
  have hident : isIdentChar d = true := by
    rcases List.mem_cons.mp hd with rfl | hd
    · unfold isLetter at hc
      unfold isIdentChar
      simp only [Bool.or_eq_true] at hc ⊢
      exact .inl (.inl hc)
    · exact List.all_eq_true.mp hrest d hd
  cases hs : isspace d with
  | false => rfl
  | true =>
    exfalso
    simp only [isspace, Bool.or_eq_true, decide_eq_true_eq] at hs
    rcases hs with ((((rfl | rfl) | rfl) | rfl) | rfl) | rfl <;> exact absurd hident (by decide)

theorem joined_no_newline {args : List Str} (h : ∀ a ∈ args, '\n' ∉ a) :
    '\n' ∉ Words.joined ' ' args := Words.not_mem_joined (by decide) h

/-- A line that `encode` wrote ends with its only newline, if no argument has one. -/
theorem lineOf_body {t : MessageType} {w : Str} {args : List Str} (hw : typeName t = .ok w)
    (h : ∀ a ∈ args, '\n' ∉ a) : ∃ body, lineOf w args = body ++ ['\n'] ∧ '\n' ∉ body := by
  refine ⟨w ++ Words.joined ' ' args, by rw [lineOf, List.append_assoc], fun hmem => ?_⟩
  rcases List.mem_append.mp hmem with hmem | hmem
  · exact isWord_no_newline (typeName_isWord hw) hmem
  · exact joined_no_newline h hmem

/-- The keyword of a line is read back, and leaves the arguments. -/
theorem next_lineOf {w : Str} (hw : IsWord isspace w) (args : List Str) :
    Words.next isspace (lineOf w args) = (w, Words.joined ' ' args ++ ['\n']) := by
  have hstop : Stops isspace (Words.joined ' ' args ++ ['\n']) := by
    intro c t h
    cases args with
    | nil => cases h; rfl
    | cons a args => cases h; rfl
  exact @Words.next_word _ isspace [] w _ (fun c hc => absurd hc List.not_mem_nil) hw hstop

/-- What comes before the first `c`. -/
theorem takeWhile_ne_append {c : Char} {text : Str} (h : c ∉ text) (more : Str) :
    (text ++ c :: more).takeWhile (· ≠ c) = text := by
  induction text with
  | nil => simp
  | cons d text ih =>
    have hd : d ≠ c := fun h' => h (h' ▸ List.mem_cons_self ..)
    have ih' := ih fun hmem => h (List.mem_cons_of_mem d hmem)
    rw [List.cons_append, List.takeWhile_cons, if_pos (by simpa using hd), ih']

theorem getline_append {text more : Str} (h : '\n' ∉ text) :
    getline (text ++ '\n' :: more) = text := takeWhile_ne_append h more

theorem lineOf_getLast (w : Str) (args : List Str) : (lineOf w args).getLast? = some '\n' := by
  rw [lineOf, ← List.append_assoc, List.getLast?_append]; rfl

/-- Decoding a line that `encode` wrote for a type with word arguments. -/
theorem decode_lineOf {t : MessageType} {w : Str} {args : List Str} (hw : typeName t = .ok w)
    (hq : ¬ Quoted t) (hlen : (lineOf w args).length ≤ maxEncodedLen)
    (hargs : ∀ a ∈ args, IsWord isspace a) (hv : Message.isValid ⟨t, args⟩ = .ok true)
    (m₀ : Message) : decode (lineOf w args) m₀ = .ok ⟨t, args⟩ := by
  have hline : getline (Words.joined ' ' args ++ ['\n']) = Words.joined ' ' args :=
    getline_append (joined_no_newline fun a ha => isWord_no_newline (hargs a ha))
  have hwords : Words.words isspace (Words.joined ' ' args) = args :=
    @Words.words_joined _ isspace ' ' rfl _ hargs
  rw [decode_eq hlen (lineOf_getLast w args), next_lineOf (typeName_isWord hw),
    keyword_eq_some.mpr hw]
  show finish t (Words.joined ' ' args ++ ['\n']) = .ok ⟨t, args⟩
  rw [finish, parseArgs, if_neg hq, hline, hwords]
  simp [bind, Except.bind, pure, Except.pure, hv]

/-- A line that `encode` wrote is decoded as a message of the same type, if at all. -/
theorem decode_lineOf_type {t : MessageType} {w : Str} {args : List Str} {m₀ m : Message}
    (hw : typeName t = .ok w) (h : decode (lineOf w args) m₀ = .ok m) : m.mMessageType = t := by
  obtain ⟨-, -, w', ss, hnext, hw', -⟩ := decode_inv h
  rw [next_lineOf (typeName_isWord hw)] at hnext
  obtain ⟨rfl, -⟩ := Prod.mk.inj hnext
  have hkeyword := keyword_eq_some.mpr hw'
  rw [keyword_eq_some.mpr hw] at hkeyword
  exact (Option.some.inj hkeyword).symm

/-! ## The canonical form -/

/-- What an accepted line looks like: the keyword, then a line of arguments, each found in `s`. -/
theorem decode_shape {s : Str} {m₀ m : Message} (h : decode s m₀ = .ok m)
    (hq : ¬ Quoted m.mMessageType) :
    ∃ w, typeName m.mMessageType = .ok w ∧ (∀ a ∈ m.mArgs, IsWord isspace a) ∧
      (lineOf w m.mArgs).length ≤ s.length := by
  obtain ⟨-, hlast, w, ss, hnext, hw, -, hparse⟩ := decode_inv h
  have hargs : m.mArgs = Words.words isspace (getline ss) := by
    rw [parseArgs, if_neg hq] at hparse
    exact (congrArg Message.mArgs (Except.ok.inj hparse)).symm
  refine ⟨w, hw, fun a ha => Words.isWord_of_mem (hargs ▸ ha), ?_⟩
  obtain ⟨gap, -, hs, hfree, hstop⟩ := @Words.next_split _ isspace s
  rw [hnext] at hs hfree hstop
  -- the newline at the end of `s` is after the keyword, so `getline` stops before the end
  have hmem : '\n' ∈ ss := by
    rw [hs, List.getLast?_append, List.getLast?_append] at hlast
    cases hss : ss.getLast? with
    | some c =>
      rw [hss] at hlast
      obtain rfl : c = '\n' := by simpa using hlast
      exact List.mem_of_getLast? hss
    | none =>
      exfalso
      rw [hss] at hlast
      have hword := typeName_isWord hw
      cases hwl : w.getLast? with
      | none => exact hword.1 (List.getLast?_eq_none_iff.mp hwl)
      | some c =>
        rw [hwl] at hlast
        obtain rfl : c = '\n' := by simpa using hlast
        exact isWord_no_newline hword (List.mem_of_getLast? hwl)
  have hgl : (getline ss).length + 1 ≤ ss.length := by
    have hsplit := List.takeWhile_append_dropWhile (p := fun c => decide (c ≠ '\n')) (l := ss)
    cases hd : ss.dropWhile (fun c => decide (c ≠ '\n')) with
    | nil =>
      rw [hd, List.append_nil] at hsplit
      rw [← hsplit] at hmem
      have := List.mem_takeWhile_imp hmem
      simp at this
    | cons c t =>
      rw [hd] at hsplit
      have hl := congrArg List.length hsplit
      rw [List.length_append, List.length_cons] at hl
      have hg : (getline ss).length = (ss.takeWhile fun c => decide (c ≠ '\n')).length := rfl
      omega
  have hstop' : Stops isspace (getline ss) := by
    intro c t hct
    cases ss with
    | nil => cases hct
    | cons d ss =>
      by_cases hd : d = '\n'
      · subst hd; simp [getline] at hct
      · rw [getline, List.takeWhile_cons, if_pos (by simpa using hd)] at hct
        obtain rfl := (List.cons.inj hct).1
        exact hstop d ss rfl
  have hjoin : (Words.joined ' ' m.mArgs).length ≤ (getline ss).length := by
    rw [hargs]; exact Words.length_joined_le ' ' hstop'
  have hl := congrArg List.length hs
  simp only [List.length_append] at hl
  simp only [lineOf, List.length_append, List.length_cons, List.length_nil]
  omega

/-- **Decode then encode is a canonical form.**  A message that `decode` made of some line `s`, and
    that is no FAILED or ERROR, is encoded without a throw, on one line no longer than `s`; decoding
    that line gives the message back, and encoding once more gives the line back. -/
theorem encode_decode_canonical (s : Str) (m₀ m : Message) (h : decode s m₀ = .ok m)
    (hq : m.mMessageType ≠ .failed ∧ m.mMessageType ≠ .error) :
    ∃ enc body, encode m = .ok enc ∧ enc.length ≤ s.length ∧ enc = body ++ ['\n'] ∧ '\n' ∉ body ∧
      (∀ m₁, decode enc m₁ = .ok m) ∧ ∀ m₁ m₂, decode enc m₁ = .ok m₂ → encode m₂ = .ok enc := by
  have hnq : ¬ Quoted m.mMessageType := fun h' => h'.elim hq.1 hq.2
  obtain ⟨w, hw, hargs, hle⟩ := decode_shape h hnq
  obtain ⟨hlen, -, -, -, -, -, hv, -⟩ := decode_inv h
  have henc := encode_ok hw (Nat.le_trans hle hlen)
  have hdec := decode_lineOf hw hnq (Nat.le_trans hle hlen) hargs hv
  obtain ⟨body, hbody, hnl⟩ := lineOf_body hw fun a ha => isWord_no_newline (hargs a ha)
  refine ⟨lineOf w m.mArgs, body, henc, hle, hbody, hnl, hdec, ?_⟩
  intro m₁ m₂ h₂
  rw [hdec m₁] at h₂
  obtain rfl := Except.ok.inj h₂
  exact henc

/-- The canonical form of a line with unusual white space. -/
theorem encode_decode_canonical_create :
    ∃ enc body, encode ⟨.create, ["invoices".toList]⟩ = .ok enc ∧
      enc.length ≤ "     CREATE   invoices  \n".toList.length ∧ enc = body ++ ['\n'] ∧
      '\n' ∉ body ∧ (∀ m₁, decode enc m₁ = .ok ⟨.create, ["invoices".toList]⟩) ∧
      ∀ m₁ m₂, decode enc m₁ = .ok m₂ → encode m₂ = .ok enc :=
  encode_decode_canonical "     CREATE   invoices  \n".toList {} ⟨.create, ["invoices".toList]⟩
    (by decide) (by decide)

/-! ## Quoted text -/

/-- A text without quotation marks has none to be found. -/
theorem extractQuotedTextArg_none {text : Str} (h : '"' ∉ text) (msg : Message) :
    extractQuotedTextArg msg text = .error (.invalidMessage
      "Message whose type requires a quoted text argument does not contain a quotation.".toList) := by
  have hnone : findFirstOf text '"' = none := by
    rw [findFirstOf, List.findIdx?_eq_none_iff]
    intro c hc
    have hne : c ≠ '"' := fun h' => h (h' ▸ hc)
    simpa using hne
  rw [extractQuotedTextArg, hnone]

/-- **What encode writes for a FAILED or ERROR text, decode refuses**: the text is on the line as it
    is, and the quotation marks are missing. -/
theorem decode_encode_quoted {t : MessageType} {w text : Str} (ht : Quoted t)
    (hw : typeName t = .ok w) (hnl : '\n' ∉ text) (hquote : '"' ∉ text)
    (hlen : (lineOf w [text]).length ≤ maxEncodedLen) :
    encode ⟨t, [text]⟩ = .ok (lineOf w [text]) ∧
    ∀ m₀, decode (lineOf w [text]) m₀ = .error (.invalidMessage
      "Message whose type requires a quoted text argument does not contain a quotation.".toList) := by
  refine ⟨encode_ok hw hlen, fun m₀ => ?_⟩
  have hline : getline (Words.joined ' ' [text] ++ ['\n']) = ' ' :: text := by
    have h := @getline_append (' ' :: text) [] (by
      intro hmem
      rcases List.mem_cons.mp hmem with hc | hc
      · cases hc
      · exact hnl hc)
    simpa using h
  rw [decode_eq hlen (lineOf_getLast w [text]), next_lineOf (typeName_isWord hw),
    keyword_eq_some.mpr hw]
  show finish t (Words.joined ' ' [text] ++ ['\n']) = _
  have hnone : '"' ∉ ' ' :: text := by
    intro hmem
    rcases List.mem_cons.mp hmem with hc | hc
    · cases hc
    · exact hquote hc
  rw [finish, parseArgs, if_pos ht, hline, extractQuotedTextArg_none hnone]
  rfl

end BasicServer
