/-
  The lines that `decode` accepts.

  A line is cut twice: `ss >> m_type` takes the keyword off, `std::getline` gives the rest, and the
  rest is cut again.  `decode_body` brings the two together: on a body without newline, what comes
  after the keyword is what `Words` leaves after it.

  1. **Requests and DATA** (`decode_request`) — accepted exactly by the grammar `Request`, with
     InvalidMessage for every other line.
  2. **Failures** (`decodesOrThrows_iff`) — nothing but InvalidMessage is thrown, and no operation is
     used outside its precondition, unless the string is empty.
  3. **Quoted text** (`quotedText_iff`) — the text of FAILED and ERROR is the one between the first
     and the last quotation mark, unless there is only one.
-/
import BasicServer.Wire

namespace BasicServer

open Message (maxEncodedLen isLetter isIdentChar isValidIdentifier arity takesIdents IsIdent)
open Words (IsWord Stops Splits)

/-! ## The two tokenisers -/

/-- The newline at the end changes nothing for the keyword. -/
theorem next_newline (body : Str) :
    (Words.next isspace (body ++ ['\n'])).1 = (Words.next isspace body).1 ∧
      ((Words.next isspace body).1 ≠ [] →
        (Words.next isspace (body ++ ['\n'])).2 = (Words.next isspace body).2 ++ ['\n']) := by
  have hsplit := @Words.splits_words _ isspace body
  generalize Words.words isspace body = ws at hsplit
  cases hsplit with
  | nil hs =>
    have hs' : ∀ c ∈ body ++ ['\n'], isspace c = true := by
      intro c hc
      rcases List.mem_append.mp hc with hc | hc
      · exact hs c hc
      · obtain rfl := List.mem_singleton.mp hc
        rfl
    rw [Words.next_seps hs, Words.next_seps hs']
    exact ⟨rfl, fun h => absurd rfl h⟩
  | @cons gap w rest ws hgap hw hr _ =>
    have hr' : Stops isspace (rest ++ ['\n']) := by
      intro c t h
      cases rest with
      | nil =>
        obtain ⟨rfl, -⟩ := List.cons.inj h
        rfl
      | cons d rest =>
        obtain ⟨rfl, -⟩ := List.cons.inj h
        exact hr d rest rfl
    rw [Words.next_word hgap hw hr, List.append_assoc, List.append_assoc,
      Words.next_word hgap hw hr']
    exact ⟨rfl, fun _ => rfl⟩

/-- What is left after the keyword has no newline either. -/
theorem next_no_newline {body : Str} (hnl : '\n' ∉ body) : '\n' ∉ (Words.next isspace body).2 := by
  obtain ⟨gap, -, hbody, -⟩ := @Words.next_split _ isspace body
  intro hmem
  refine hnl ?_
  rw [hbody]
  exact List.mem_append_right _ (List.mem_append_right _ hmem)

/-- Check the parsed message. -/
def checked (msg : Message) : Except Exn Message := do
  if !(← msg.isValid) then throw (.invalidMessage "Message is not valid.".toList)
  return msg

/-- **`decode` on a line**, in terms of its body. -/
theorem decode_body {body : Str} (hnl : '\n' ∉ body)
    (hlen : (body ++ ['\n']).length ≤ maxEncodedLen) (m₀ : Message) :
    decode (body ++ ['\n']) m₀ = match keyword (Words.next isspace body).1 with
      | none => .error (.invalidMessage "Message must have a type.".toList)
      | some t => (parseArgs t (Words.next isspace body).2).bind checked := by
  obtain ⟨hfirst, hrest⟩ := next_newline body
  rw [decode_eq hlen (by simp), hfirst]
  cases hk : keyword (Words.next isspace body).1 with
  | none => rfl
  | some t =>
    have hne : (Words.next isspace body).1 ≠ [] := by
      intro h
      rw [h] at hk
      cases hk
    have hline := @getline_append (Words.next isspace body).2 [] (next_no_newline hnl)
    show finish t (Words.next isspace (body ++ ['\n'])).2 = _
    rw [finish, hrest hne, hline]
    rfl

/-! ## Requests and DATA -/

/-- **The grammar**: the words of a line, and the message they make.  A keyword of a request or of
    DATA is followed by as many words as it takes arguments, and the arguments of LOGIN, CREATE, SET
    and GET are identifiers. -/
inductive Request : List Str → Message → Prop
  | intro {t : MessageType} {w : Str} {args : List Str} (hw : typeName t = .ok w)
      (hlen : arity t = some args.length) (hid : takesIdents t = true → ∀ a ∈ args, IsIdent a) :
      Request (w :: args) ⟨t, args⟩

/-- Where the arguments are identifiers, the final check asks just that. -/
theorem isValid_takesIdents {t : MessageType} {args : List Str} (ht : takesIdents t = true)
    (hlen : arity t = some args.length) :
    Message.isValid ⟨t, args⟩ = .ok true ↔ ∀ a ∈ args, isValidIdentifier a = .ok true := by
  rw [Message.isValid_eq_allIdents ht hlen, Message.allIdents_eq_true]

/-- Where they are not, words are good enough. -/
theorem isValid_free {t : MessageType} {args : List Str} (ht : takesIdents t = false)
    (hlen : arity t = some args.length) (hwords : ∀ a ∈ args, IsWord isspace a) :
    Message.isValid ⟨t, args⟩ = .ok true := by
  have hn : ∀ n, arity t = some n → args.length = n := fun n h =>
    Option.some.inj (hlen.symm.trans h)
  have hblank : (t = .push && args.all fun a => a.all isspace) = false := by
    by_contra h
    rw [Bool.not_eq_false, Bool.and_eq_true, decide_eq_true_eq, List.all_eq_true] at h
    obtain ⟨rfl, hall⟩ := h
    obtain ⟨a, rfl⟩ := List.length_eq_one_iff.mp (hn 1 rfl)
    obtain ⟨hne, hfree⟩ := hwords a (List.mem_singleton_self a)
    obtain ⟨c, rest, rfl⟩ := List.exists_cons_of_ne_nil hne
    have hc := List.all_eq_true.mp (hall _ (List.mem_singleton_self _)) c (List.mem_cons_self ..)
    rw [hfree c (List.mem_cons_self ..)] at hc
    cases hc
  rw [Message.isValid_not_idents ht hn, hblank]
  rfl

/-- What the final check asks of arguments that are words. -/
theorem isValid_words {t : MessageType} {args : List Str} {n : Nat} (hn : arity t = some n)
    (hwords : ∀ a ∈ args, IsWord isspace a) :
    Message.isValid ⟨t, args⟩ = .ok true ↔
      args.length = n ∧ (takesIdents t = true → ∀ a ∈ args, IsIdent a) := by
  by_cases hlen : args.length = n
  · rw [and_iff_right hlen]
    subst hlen
    cases ht : takesIdents t with
    | true =>
      rw [isValid_takesIdents ht hn]
      constructor
      · intro h _ a ha
        exact Message.isValidIdentifier_eq_true.mp (h a ha)
      · intro h a ha
        exact Message.isValidIdentifier_eq_true.mpr (h rfl a ha)
    | false => exact iff_of_true (isValid_free ht hn hwords) nofun
  · rw [Message.isValid_of_arity hn hlen]
    exact iff_of_false nofun fun h => hlen h.1

theorem checked_eq_ok {msg m : Message} : checked msg = .ok m ↔ msg.isValid = .ok true ∧ m = msg := by
  constructor
  · intro h
    obtain ⟨b, hv, h⟩ := ok_bind.mp h
    obtain ⟨hb, h⟩ := ok_of_not_throw h
    refine ⟨?_, (Except.ok.inj h).symm⟩
    rw [hv]
    simpa using hb
  · rintro ⟨hv, rfl⟩
    rw [checked, hv]
    rfl

/-- The keyword of a request or of DATA. -/
theorem arity_of_keyword {w : Str} {t : MessageType} (hk : keyword w = some t)
    (hw : w ≠ "OK".toList ∧ w ≠ "FAILED".toList ∧ w ≠ "ERROR".toList) :
    ¬ Quoted t ∧ ∃ n, arity t = some n := by
  have htype := keyword_eq_some.mp hk
  obtain ⟨hok, hfailed, herror⟩ := hw
  cases t with
  | none => cases htype
  | ok => exact absurd (Except.ok.inj htype).symm hok
  | failed => exact absurd (Except.ok.inj htype).symm hfailed
  | error => exact absurd (Except.ok.inj htype).symm herror
  | _ => exact ⟨by simp, _, rfl⟩

/-- **Decode accepts exactly the request grammar.**  On a line whose words are `ws`, the first of which
    is not OK, FAILED or ERROR, `decode` gives the message that the grammar makes of them, whatever the
    message held before; if there is none, it throws InvalidMessage. -/
theorem decode_request {body : Str} {ws : List Str} (hnl : '\n' ∉ body)
    (hlen : (body ++ ['\n']).length ≤ maxEncodedLen) (hws : Splits isspace body ws)
    (hw : ∀ w args, ws = w :: args → w ≠ "OK".toList ∧ w ≠ "FAILED".toList ∧ w ≠ "ERROR".toList)
    (m₀ : Message) :
    (∀ m, decode (body ++ ['\n']) m₀ = .ok m ↔ Request ws m) ∧
      ((¬ ∃ m, Request ws m) →
        ∃ what, decode (body ++ ['\n']) m₀ = .error (.invalidMessage what)) := by
  have hne : body ++ ['\n'] ≠ [] := by simp
  have hiff : ∀ m, decode (body ++ ['\n']) m₀ = .ok m ↔ Request ws m := by
    intro m
    rw [decode_body hnl hlen]
    -- the two tokenisers together find the words of the line
    rw [← hws.words, Words.words_eq] at hw ⊢
    generalize (Words.next isspace body).1 = w at hw ⊢
    generalize (Words.next isspace body).2 = rest at hw ⊢
    by_cases hnil : w = []
    · subst hnil
      exact iff_of_false nofun nofun
    · rw [if_neg hnil] at hw ⊢
      have hword := hw w _ rfl
      cases hk : keyword w with
      | none =>
        refine iff_of_false nofun ?_
        rintro ⟨htype, -, -⟩
        rw [keyword_eq_some.mpr htype] at hk
        cases hk
      | some t =>
        obtain ⟨hq, n, hn⟩ := arity_of_keyword hk hword
        have hargs : ∀ a ∈ Words.words isspace rest, IsWord isspace a :=
          fun a ha => Words.isWord_of_mem ha
        show (parseArgs t rest).bind checked = .ok m ↔ _
        rw [parseArgs, if_neg hq]
        show checked ⟨t, Words.words isspace rest⟩ = .ok m ↔ _
        rw [checked_eq_ok, isValid_words hn hargs]
        constructor
        · rintro ⟨⟨hcount, hid⟩, rfl⟩
          exact .intro (keyword_eq_some.mp hk) (by rw [hn, hcount]) hid
        · rintro ⟨htype, hcount, hid⟩
          rw [keyword_eq_some.mpr htype] at hk
          obtain rfl := Option.some.inj hk
          rw [hn] at hcount
          exact ⟨⟨(Option.some.inj hcount).symm, hid⟩, rfl⟩
  refine ⟨hiff, fun hno => ?_⟩
  cases he : decode (body ++ ['\n']) m₀ with
  | ok m => exact absurd ⟨m, (hiff m).mp he⟩ hno
  | error e =>
    obtain ⟨what, -, rfl⟩ := decode_error hne he
    exact ⟨what, rfl⟩

/-- Keyword and arguments among other white space. -/
theorem decode_request_set :
    (∀ m, decode "\tSET  t\r k \n".toList {} = .ok m ↔ Request ["SET".toList, ['t'], ['k']] m) ∧
      ((¬ ∃ m, Request ["SET".toList, ['t'], ['k']] m) →
        ∃ what, decode "\tSET  t\r k \n".toList {} = .error (.invalidMessage what)) := by
  have hwords : Words.words isspace "\tSET  t\r k ".toList = ["SET".toList, ['t'], ['k']] := by decide
  have hws := @Words.splits_words _ isspace "\tSET  t\r k ".toList
  rw [hwords] at hws
  refine @decode_request "\tSET  t\r k ".toList _ (by decide) (by decide) hws (fun w args h => ?_) {}
  obtain ⟨rfl, -⟩ := List.cons.inj h
  decide

/-! ## Failures -/

/-- `decode` gives a valid message, or throws InvalidMessage. -/
def DecodesOrThrows (s : Str) (m₀ : Message) : Prop :=
  (∃ m, decode s m₀ = .ok m ∧ m.isValid = .ok true) ∨
    ∃ what, decode s m₀ = .error (.invalidMessage what)

theorem cString_eq_nil {buf : Str} : cString buf = [] ↔ buf = [] ∨ buf.head? = some '\x00' := by
  cases buf with
  | nil => exact iff_of_true rfl (.inl rfl)
  | cons c buf =>
    rw [cString, List.takeWhile_cons]
    by_cases hc : c = '\x00'
    · subst hc
      exact iff_of_true rfl (.inr rfl)
    · rw [if_pos (by simpa using hc)]
      refine iff_of_false nofun ?_
      rintro (h | h)
      · cases h
      · exact hc (Option.some.inj h)

/-- **InvalidMessage is the only failure of decode**, unless the string is empty: `back()` has no
    character to give then.  The server hands over what comes before the first NUL of a line, and so
    the empty string for a line that starts with one. -/
theorem decodesOrThrows_iff (s : Str) (m₀ : Message) :
    (DecodesOrThrows s m₀ ↔ s ≠ []) ∧
      (DecodesOrThrows (cString s) m₀ ↔ s ≠ [] ∧ s.head? ≠ some '\x00') := by
  have hiff : ∀ s, DecodesOrThrows s m₀ ↔ s ≠ [] := by
    intro s
    constructor
    · rintro (⟨m, hdec, -⟩ | ⟨what, hdec⟩) rfl
      · cases hdec
      · cases hdec
    · intro hs
      cases he : decode s m₀ with
      | ok m =>
        obtain ⟨-, -, -, -, -, -, hv, -⟩ := decode_inv he
        exact .inl ⟨m, he, hv⟩
      | error e =>
        obtain ⟨what, -, rfl⟩ := decode_error hs he
        exact .inr ⟨what, he⟩
  refine ⟨hiff s, ?_⟩
  rw [hiff, ne_eq, cString_eq_nil, not_or]

/-- A line that is a NUL and a newline. -/
theorem not_decodesOrThrows : ¬ ∀ s m₀, DecodesOrThrows (cString s) m₀ := by
  intro h
  rcases h "\x00\n".toList {} with ⟨m, hdec, -⟩ | ⟨what, hdec⟩
  · cases hdec
  · cases hdec

/-! ## Quoted text -/

/-- The text strictly between the first and the last quotation mark. -/
def Between (rest text : Str) : Prop :=
  ∃ before after, rest = before ++ '"' :: (text ++ '"' :: after) ∧ '"' ∉ before ∧ '"' ∉ after

/-- What `decode` should make of a FAILED or ERROR line: the text between the first and the last
    quotation mark after the keyword, if there are at least two. -/
def QuotedText (t : MessageType) (body : Str) (m₀ : Message) : Prop :=
  (2 ≤ (Words.next isspace body).2.count '"' → ∃ text, Between (Words.next isspace body).2 text ∧
    decode (body ++ ['\n']) m₀ = .ok ⟨t, [text]⟩) ∧
  ((Words.next isspace body).2.count '"' < 2 →
    ∃ what, decode (body ++ ['\n']) m₀ = .error (.invalidMessage what))

theorem findFirstOf_append {before : Str} (h : '"' ∉ before) (more : Str) :
    findFirstOf (before ++ '"' :: more) '"' = some before.length := by
  induction before with
  | nil => rfl
  | cons c before ih =>
    have hc : c ≠ '"' := fun hc => h (hc ▸ List.mem_cons_self ..)
    have ih' := ih fun hmem => h (List.mem_cons_of_mem c hmem)
    rw [findFirstOf] at ih' ⊢
    rw [List.cons_append, List.findIdx?_cons, ih']
    simp [hc]

theorem findLastOf_append {after : Str} (h : '"' ∉ after) (before : Str) :
    findLastOf (before ++ '"' :: after) '"' = some before.length := by
  have hrev : (before ++ '"' :: after).reverse = after.reverse ++ '"' :: before.reverse := by simp
  have hfirst := @findFirstOf_append after.reverse (by simpa using h) before.reverse
  rw [findFirstOf] at hfirst
  rw [findLastOf, hrev, hfirst, Option.map_some, List.length_append, List.length_reverse,
    List.length_cons]
  congr 1
  omega

/-- Both searches find the quotation marks that delimit the text. -/
theorem extractQuotedTextArg_between {rest text : Str} (h : Between rest text)
    (hsize : rest.length < 2 ^ 64) (msg : Message) :
    extractQuotedTextArg msg rest = .ok (msg.pushArg text) := by
  obtain ⟨before, after, rfl, hbefore, hafter⟩ := h
  have hfirst := findFirstOf_append hbefore (text ++ '"' :: after)
  have hlast : findLastOf (before ++ '"' :: (text ++ '"' :: after)) '"'
      = some (before.length + 1 + text.length) := by
    have hassoc : before ++ '"' :: (text ++ '"' :: after)
        = (before ++ '"' :: text) ++ '"' :: after := by simp
    rw [hassoc, findLastOf_append hafter, List.length_append, List.length_cons]
    congr 1
    omega
  simp only [List.length_append, List.length_cons] at hsize
  have hcount : sizeSub (sizeSub (before.length + 1 + text.length) before.length) 1 = text.length := by
    unfold sizeSub
    omega
  have hdrop : (before ++ '"' :: (text ++ '"' :: after)).drop (before.length + 1)
      = text ++ '"' :: after := by
    rw [List.drop_append, List.drop_eq_nil_of_le (by omega)]
    simp
  rw [extractQuotedTextArg, hfirst, hlast]
  simp only [substr, hcount, hdrop, List.length_append, List.length_cons]
  rw [if_neg (by omega), List.take_left']
  · rfl
  · rfl

/-- With one quotation mark both searches find the same, and the length wraps around: everything
    after the mark is taken. -/
theorem extractQuotedTextArg_single {before after : Str} (hbefore : '"' ∉ before)
    (hafter : '"' ∉ after) (hsize : (before ++ '"' :: after).length < 2 ^ 64) (msg : Message) :
    extractQuotedTextArg msg (before ++ '"' :: after) = .ok (msg.pushArg after) := by
  have hfirst := findFirstOf_append hbefore after
  have hlast := findLastOf_append hafter before
  simp only [List.length_append, List.length_cons] at hsize
  have hcount : sizeSub (sizeSub before.length before.length) 1 = 2 ^ 64 - 1 := by
    unfold sizeSub
    omega
  have hdrop : (before ++ '"' :: after).drop (before.length + 1) = after := by
    rw [List.drop_append, List.drop_eq_nil_of_le (by omega)]
    simp
  rw [extractQuotedTextArg, hfirst, hlast]
  simp only [substr, hcount, hdrop, List.length_append, List.length_cons]
  rw [if_neg (by omega), List.take_of_length_le (by omega)]
  rfl

/-- No quotation mark, one, or a text between two. -/
theorem quotes_cases (rest : Str) : '"' ∉ rest ∨
    (∃ before after, rest = before ++ '"' :: after ∧ '"' ∉ before ∧ '"' ∉ after) ∨
    ∃ text, Between rest text := by
  by_cases hmem : '"' ∈ rest
  · obtain ⟨before, more, rfl, hbefore⟩ := List.eq_append_cons_of_mem hmem
    by_cases hmore : '"' ∈ more
    · obtain ⟨after, text, hrev, hafter⟩ :=
        List.eq_append_cons_of_mem (List.mem_reverse.mpr hmore)
      obtain rfl : more = text.reverse ++ '"' :: after.reverse := by
        rw [← List.reverse_reverse more, hrev]
        simp
      exact .inr (.inr ⟨_, before, after.reverse, rfl, hbefore, by simpa using hafter⟩)
    · exact .inr (.inl ⟨before, more, rfl, hbefore, hmore⟩)
  · exact .inl hmem

/-- FAILED and ERROR ask nothing of their argument. -/
theorem checked_quoted {t : MessageType} (ht : Quoted t) (text : Str) :
    checked ⟨t, [text]⟩ = .ok ⟨t, [text]⟩ := by
  rcases ht with rfl | rfl <;> rfl

/-- **When quoted text is read as it should be**: exactly if the text after the keyword does not
    hold a single quotation mark. -/
theorem quotedText_iff {t : MessageType} {w body : Str} (ht : t = .failed ∨ t = .error)
    (hw : typeName t = .ok w) (hnl : '\n' ∉ body) (hlen : (body ++ ['\n']).length ≤ maxEncodedLen)
    (hfirst : (Words.next isspace body).1 = w) (m₀ : Message) :
    QuotedText t body m₀ ↔ (Words.next isspace body).2.count '"' ≠ 1 := by
  have hdec : decode (body ++ ['\n']) m₀
      = (extractQuotedTextArg ⟨t, []⟩ (Words.next isspace body).2).bind checked := by
    rw [decode_body hnl hlen, hfirst, keyword_eq_some.mpr hw]
    show (parseArgs t _).bind checked = _
    rw [parseArgs, if_pos ht]
  have hsize : (Words.next isspace body).2.length < 2 ^ 64 := by
    obtain ⟨gap, -, hbody, -⟩ := @Words.next_split _ isspace body
    have hl := congrArg List.length hbody
    simp only [List.length_append] at hl hlen
    unfold maxEncodedLen at hlen
    omega
  unfold QuotedText
  rw [hdec]
  generalize (Words.next isspace body).2 = rest at hsize
  rcases quotes_cases rest with hno | ⟨before, after, rfl, hbefore, hafter⟩ | ⟨text, hbetween⟩
  · have hcount : rest.count '"' = 0 := List.count_eq_zero.mpr hno
    rw [hcount, extractQuotedTextArg_none hno]
    exact iff_of_true ⟨by omega, fun _ => ⟨_, rfl⟩⟩ (by omega)
  · have hcount : (before ++ '"' :: after).count '"' = 1 := by
      rw [List.count_append, List.count_cons_self, List.count_eq_zero.mpr hbefore,
        List.count_eq_zero.mpr hafter]
    rw [hcount, extractQuotedTextArg_single hbefore hafter hsize]
    refine iff_of_false (fun h => ?_) (fun h => h rfl)
    obtain ⟨what, hthrow⟩ := h.2 (by omega)
    have hok : checked ⟨t, [after]⟩ = .error (.invalidMessage what) := hthrow
    rw [checked_quoted ht] at hok
    cases hok
  · have hcount : 2 ≤ rest.count '"' := by
      obtain ⟨before, after, rfl, -, -⟩ := hbetween
      simp only [List.count_append, List.count_cons_self]
      omega
    rw [extractQuotedTextArg_between hbetween hsize]
    have hok : checked ⟨t, [text]⟩ = .ok ⟨t, [text]⟩ := checked_quoted ht text
    exact iff_of_true ⟨fun _ => ⟨text, hbetween, hok⟩, by omega⟩ (by omega)

/-- An ERROR line with two quotation marks. -/
theorem quotedText_iff_error :
    QuotedText .error "ERROR \"a b\"".toList {} ↔
      (Words.next isspace "ERROR \"a b\"".toList).2.count '"' ≠ 1 :=
  @quotedText_iff .error _ "ERROR \"a b\"".toList (.inr rfl) rfl (by decide) (by decide) (by decide) {}

/-- One quotation mark is enough for `decode`. -/
theorem not_quotedText_single :
    ¬ ∀ (t : MessageType) (w body : Str), t = .failed ∨ t = .error → typeName t = .ok w →
      '\n' ∉ body → (body ++ ['\n']).length ≤ maxEncodedLen →
      (Words.next isspace body).1 = w → ∀ m₀, QuotedText t body m₀ := by
  intro h
  obtain ⟨-, hthrow⟩ := h .failed "FAILED".toList "FAILED \"oops".toList (.inl rfl) rfl (by decide)
    (by decide) (by decide) {}
  obtain ⟨what, hdec⟩ := hthrow (by decide)
  have hok : decode "FAILED \"oops\n".toList {} = .ok ⟨.failed, ["oops".toList]⟩ := by decide
  exact absurd (hok.symm.trans hdec) nofun

end BasicServer
