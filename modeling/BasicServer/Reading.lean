/-
  Reading lines from a connection (`rio_readlineb` of `csapp.c`), and its callers.

  `rioReadlineb maxlen` stores at most `maxlen - 1` characters and a NUL, and stops after a newline.
  Every caller reads into a buffer of MAX_ENCODED_LEN characters.  The clients pass the size of that
  buffer; `chat_with_client` passes the size of its `rio_t`, which is larger.

  So a line of MAX_ENCODED_LEN characters, which `encode` still accepts, is one too many for both: the
  clients get it without its newline, and the server writes the NUL after the end of its buffer.
  `readsWell_iff` is the exact account for every stream.
-/
import BasicServer.Wire

namespace BasicServer

open Message (maxEncodedLen)

/-! ## The code -/

/-- What will be read from a descriptor: characters, and then the end of the file or an error. -/
inductive Incoming where
  | eof
  | error
  | char (c : Char) (rest : Incoming)

/-- The characters of a string, and then `more`. -/
def Incoming.after (s : Str) (more : Incoming) : Incoming := s.foldr .char more

/-- What a call of `rio_readlineb` returns, what it has stored in the buffer, and what is left. -/
structure Readline where
  ret : Int
  buf : Str
  rest : Incoming

/-- The loop of `rio_readlineb`.  The first argument is `maxlen - n`; `buf` is what is stored. -/
def readlineLoop : Nat → Int → Str → Incoming → Readline
  | 0, n, buf, s => ⟨n - 1, buf ++ ['\x00'], s⟩
  | left + 1, n, buf, .char c s =>
    if c = '\n' then ⟨n + 1 - 1, buf ++ [c] ++ ['\x00'], s⟩ else readlineLoop left (n + 1) (buf ++ [c]) s
  | _ + 1, n, buf, .eof => if n = 1 then ⟨0, buf, .eof⟩ else ⟨n - 1, buf ++ ['\x00'], .eof⟩
  | _ + 1, _, buf, .error => ⟨-1, buf, .error⟩

/-- `rio_readlineb(rp, buf, maxlen)`. -/
def rioReadlineb (maxlen : Nat) (s : Incoming) : Readline := readlineLoop (maxlen - 1) 1 [] s

/-- `sizeof(rio_t)`: two `int`s, a pointer, and RIO_BUFSIZE characters. -/
def sizeofRio : Nat := 4 + 4 + 8 + 8192

/-- The calls: the one in `chat_with_client`, and the one in each operation of a client. -/
inductive CallSite where
  | chatWithClient
  | clientOperation
  deriving DecidableEq

/-- The argument `maxlen`: `sizeof(m_fdbuf)`, or `sizeof(buf)`. -/
def CallSite.maxlen : CallSite → Nat
  | .chatWithClient => sizeofRio
  | .clientOperation => maxEncodedLen

/-! ## What it stores -/

/-- The room that a line takes in a buffer: its characters, and the NUL, which is not written after
    an error. -/
def Incoming.room : Incoming → Nat
  | .eof => 1
  | .error => 0
  | .char c s => if c = '\n' then 2 else s.room + 1

/-- Never more than `maxlen`. -/
theorem length_readlineLoop_le (left : Nat) (n : Int) (buf : Str) (s : Incoming) :
    (readlineLoop left n buf s).buf.length ≤ buf.length + left + 1 := by
  induction left generalizing n buf s with
  | zero => simp [readlineLoop]
  | succ left ih =>
    cases s with
    | eof =>
      rw [readlineLoop]
      split
      · simp only
        omega
      · simp only [List.length_append, List.length_singleton]
        omega
    | error =>
      simp only [readlineLoop]
      omega
    | char c s =>
      rw [readlineLoop]
      split
      · simp only [List.length_append, List.length_singleton]
        omega
      · have h := ih (n + 1) (buf ++ [c]) s
        simp only [List.length_append, List.length_singleton] at h
        omega

/-- No more than the line takes, if there is room for it. -/
theorem length_readlineLoop_room {left : Nat} (n : Int) (buf : Str) {s : Incoming}
    (h : s.room < left) : (readlineLoop left n buf s).buf.length ≤ buf.length + s.room := by
  induction left generalizing n buf s with
  | zero => omega
  | succ left ih =>
    cases s with
    | eof =>
      rw [readlineLoop]
      split <;> simp [Incoming.room]
    | error => simp [readlineLoop]
    | char c s =>
      rw [readlineLoop]
      rw [Incoming.room] at h ⊢
      split
      · simp
      · rename_i hc
        rw [if_neg hc] at h
        have ih' := @ih (n + 1) (buf ++ [c]) s (by omega)
        simp only [List.length_append, List.length_singleton] at ih'
        omega

/-- As much as the line takes, or as much as fits. -/
theorem le_length_readlineLoop (left : Nat) {n : Int} (buf : Str) {s : Incoming}
    (h : n = 1 → s ≠ .eof) (hn : 0 < n) :
    buf.length + min s.room (left + 1) ≤ (readlineLoop left n buf s).buf.length := by
  induction left generalizing n buf s with
  | zero =>
    simp only [readlineLoop, List.length_append, List.length_singleton]
    omega
  | succ left ih =>
    cases s with
    | eof =>
      rw [readlineLoop, if_neg fun hone => h hone rfl, Incoming.room]
      simp
    | error => simp [readlineLoop, Incoming.room]
    | char c s =>
      rw [readlineLoop, Incoming.room]
      split
      · simp
      · have ih' := @ih (n + 1) (buf ++ [c]) s (fun hone => by omega) (by omega)
        simp only [List.length_append, List.length_singleton] at ih'
        omega

/-- A line that fits is stored whole, with its newline. -/
theorem readlineLoop_line {body : Str} (hnl : '\n' ∉ body) {left : Nat} (hfit : body.length < left)
    (n : Int) (buf : Str) (more : Incoming) :
    readlineLoop left n buf (.after (body ++ ['\n']) more)
      = ⟨n + body.length, buf ++ (body ++ ['\n']) ++ ['\x00'], more⟩ := by
  induction body generalizing left n buf with
  | nil =>
    obtain ⟨left, rfl⟩ := Nat.exists_eq_succ_of_ne_zero (Nat.ne_of_gt hfit)
    simp [Incoming.after, readlineLoop]
  | cons c body ih =>
    obtain ⟨left, rfl⟩ := Nat.exists_eq_succ_of_ne_zero (show left ≠ 0 by omega)
    have hc : c ≠ '\n' := fun h => hnl (h ▸ List.mem_cons_self ..)
    have ih' := ih (fun h => hnl (List.mem_cons_of_mem c h)) (Nat.lt_of_succ_lt_succ hfit) (n + 1)
      (buf ++ [c])
    show readlineLoop (left + 1) n buf (.char c (.after (body ++ ['\n']) more)) = _
    rw [readlineLoop, if_neg hc, ih']
    simp
    omega

/-- A line that does not fit is cut off before its newline. -/
theorem readlineLoop_cut {body : Str} (hnl : '\n' ∉ body) {left : Nat} (hfit : left ≤ body.length)
    (n : Int) (buf : Str) (more : Incoming) :
    (readlineLoop left n buf (.after (body ++ ['\n']) more)).buf
      = buf ++ body.take left ++ ['\x00'] := by
  induction body generalizing left n buf with
  | nil =>
    obtain rfl : left = 0 := Nat.le_zero.mp hfit
    simp [readlineLoop]
  | cons c body ih =>
    have hc : c ≠ '\n' := fun h => hnl (h ▸ List.mem_cons_self ..)
    cases left with
    | zero => simp [readlineLoop]
    | succ left =>
      have ih' := ih (fun h => hnl (List.mem_cons_of_mem c h)) (Nat.le_of_succ_le_succ hfit) (n + 1)
        (buf ++ [c])
      show (readlineLoop (left + 1) n buf (.char c (.after (body ++ ['\n']) more))).buf = _
      rw [readlineLoop, if_neg hc, ih']
      simp

theorem room_line {body : Str} (hnl : '\n' ∉ body) (more : Incoming) :
    (Incoming.after (body ++ ['\n']) more).room = body.length + 2 := by
  induction body with
  | nil => rfl
  | cons c body ih =>
    have hc : c ≠ '\n' := fun h => hnl (h ▸ List.mem_cons_self ..)
    have ih' := ih fun h => hnl (List.mem_cons_of_mem c h)
    show (Incoming.char c (.after (body ++ ['\n']) more)).room = _
    rw [Incoming.room, if_neg hc, ih', List.length_cons]

/-! ## What the callers need -/

/-- What `encode` writes for some message, if its only newline is at the end. -/
def EncodedLine (line : Str) : Prop :=
  (∃ m, encode m = .ok line) ∧ ∃ body, line = body ++ ['\n'] ∧ '\n' ∉ body

/-- A call that reads from `s` stays inside the caller's buffer, and if a message comes, it gives
    the whole line, which `decode` finds neither too long nor cut off. -/
structure ReadsWell (site : CallSite) (s : Incoming) : Prop where
  inside : (rioReadlineb site.maxlen s).buf.length ≤ maxEncodedLen
  whole : ∀ line more, EncodedLine line → s = .after line more →
    (rioReadlineb site.maxlen s).ret = line.length ∧
    (rioReadlineb site.maxlen s).buf = line ++ ['\x00'] ∧
    ∀ m₀, decode (cString (rioReadlineb site.maxlen s).buf) m₀
        ≠ .error (.invalidMessage "Message is too long.".toList) ∧
      decode (cString (rioReadlineb site.maxlen s).buf) m₀
        ≠ .error (.invalidMessage "Encoded message is missing a newline.".toList)

/-- At the server, the first line fits in MAX_ENCODED_LEN characters with its NUL; and a message is
    shorter than MAX_ENCODED_LEN, and has no NUL in it. -/
def Readable (site : CallSite) (s : Incoming) : Prop :=
  (site = .chatWithClient → s.room ≤ maxEncodedLen) ∧
  ∀ line more, EncodedLine line → s = .after line more →
    line.length < maxEncodedLen ∧ '\x00' ∉ line

/-- It starts with a keyword. -/
theorem head_encodedLine {line : Str} (h : EncodedLine line) : line.head? ≠ some '\x00' := by
  obtain ⟨⟨m, henc⟩, -⟩ := h
  obtain ⟨w, hw, rfl, -⟩ := encode_inv henc
  rw [lineOf]
  generalize m.mMessageType = t at hw
  cases t <;> cases hw <;> (intro h; cases h)

/-- A line with a NUL in it reaches `decode` without its newline. -/
theorem decode_nul {line : Str} (h : EncodedLine line) (hnul : '\x00' ∈ line) (m₀ : Message) :
    decode (cString (line ++ ['\x00'])) m₀
      = .error (.invalidMessage "Encoded message is missing a newline.".toList) := by
  have hhead := head_encodedLine h
  obtain ⟨⟨m, henc⟩, body, hbody, hnl⟩ := h
  obtain ⟨-, -, -, hlen⟩ := encode_inv henc
  obtain ⟨text, rest, rfl, hfree⟩ := List.eq_append_cons_of_mem hnul
  have hcut : cString (text ++ '\x00' :: rest ++ ['\x00']) = text := by
    rw [List.append_assoc]
    exact takeWhile_ne_append hfree _
  have hpre : text <+: body := by
    have hpre : text <+: body ++ ['\n'] := hbody ▸ List.prefix_append text _
    refine (List.prefix_concat_iff.mp hpre).resolve_left fun heq => ?_
    have hl := congrArg List.length (hbody.trans heq.symm)
    simp at hl
  simp only [List.length_append, List.length_cons] at hlen
  rw [hcut]
  cases hlast : text.getLast? with
  | none =>
    rw [List.getLast?_eq_none_iff] at hlast
    subst hlast
    exact absurd rfl hhead
  | some c =>
    refine decode_cut (by omega) hlast fun hc => hnl ?_
    exact hc ▸ hpre.subset (List.mem_of_getLast? hlast)

theorem ReadsWell.readable {site : CallSite} {s : Incoming} (h : ReadsWell site s) :
    Readable site s := by
  refine ⟨fun hsite => ?_, fun line more hline hs => ?_⟩
  · subst hsite
    by_contra hroom
    have hne : s ≠ .eof := by
      rintro rfl
      exact hroom (by decide)
    have hstored := @le_length_readlineLoop (sizeofRio - 1) 1 [] s (fun _ => hne) (by decide)
    have hinside := h.inside
    rw [rioReadlineb] at hinside
    rw [List.length_nil, Nat.zero_add] at hstored
    have hsize : CallSite.chatWithClient.maxlen = sizeofRio := rfl
    rw [hsize] at hinside
    unfold sizeofRio at hstored hinside
    unfold maxEncodedLen at hinside hroom
    omega
  · obtain ⟨-, hbuf, hdec⟩ := h.whole line more hline hs
    have hinside := h.inside
    rw [hbuf, List.length_append, List.length_singleton] at hinside
    refine ⟨hinside, fun hnul => ?_⟩
    rw [hbuf] at hdec
    exact (hdec {}).2 (decode_nul hline hnul {})

/-- **When `rio_readlineb` serves its callers**, for each of them and every stream. -/
theorem readsWell_iff (site : CallSite) (s : Incoming) : ReadsWell site s ↔ Readable site s := by
  have hmax : maxEncodedLen ≤ site.maxlen ∧ (site = .chatWithClient → site.maxlen = sizeofRio) ∧
      (site ≠ .chatWithClient → site.maxlen = maxEncodedLen) := by
    cases site with
    | chatWithClient => exact ⟨by decide, fun _ => rfl, fun h => absurd rfl h⟩
    | clientOperation => exact ⟨Nat.le_refl _, nofun, fun _ => rfl⟩
  obtain ⟨hle, hserver, hclient⟩ := hmax
  unfold sizeofRio maxEncodedLen at *
  constructor
  · exact ReadsWell.readable
  · rintro ⟨hroom, hshort⟩
    refine ⟨?_, fun line more hline hs => ?_⟩
    · by_cases hsite : site = .chatWithClient
      · have hfit : s.room < site.maxlen - 1 := by
          have hr := hroom hsite
          rw [hserver hsite]
          unfold maxEncodedLen at hr
          omega
        have hstored := length_readlineLoop_room 1 [] hfit
        rw [List.length_nil, Nat.zero_add] at hstored
        exact Nat.le_trans hstored (hroom hsite)
      · have hstored := length_readlineLoop_le (site.maxlen - 1) 1 [] s
        rw [List.length_nil, hclient hsite] at hstored
        rw [rioReadlineb, hclient hsite]
        exact hstored
    · obtain ⟨hlen, hnul⟩ := hshort line more hline hs
      obtain ⟨-, body, rfl, hnl⟩ := hline
      have hfit : body.length < site.maxlen - 1 := by
        rw [List.length_append, List.length_singleton] at hlen
        unfold maxEncodedLen at hlen
        omega
      have hread : rioReadlineb site.maxlen s
          = ⟨1 + body.length, [] ++ (body ++ ['\n']) ++ ['\x00'], more⟩ := by
        rw [hs, rioReadlineb, readlineLoop_line hnl hfit]
      have hcut : cString (body ++ ['\n'] ++ ['\x00']) = body ++ ['\n'] :=
        takeWhile_ne_append hnul []
      rw [hread, List.nil_append, hcut]
      refine ⟨?_, rfl, fun m₀ => ⟨fun hthrow => ?_, fun hthrow => ?_⟩⟩
      · show 1 + (body.length : Int) = ((body ++ ['\n']).length : Int)
        rw [List.length_append, List.length_singleton]
        omega
      · obtain ⟨what, hmem, heq⟩ := decode_line_error (Nat.le_of_lt hlen) (by simp) hthrow
        rw [← Exn.invalidMessage.inj heq] at hmem
        exact absurd hmem (by decide)
      · obtain ⟨what, hmem, heq⟩ := decode_line_error (Nat.le_of_lt hlen) (by simp) hthrow
        rw [← Exn.invalidMessage.inj heq] at hmem
        exact absurd hmem (by decide)

/-- The longest PUSH that `encode` accepts is one character too long for the server. -/
theorem not_readsWell_longest : ¬ ∀ site s, ReadsWell site s := by
  intro h
  have hread := h .chatWithClient (.after ("PUSH ".toList ++ List.replicate 1018 'a' ++ ['\n']) .eof)
  have hroom := hread.readable.1 rfl
  rw [room_line] at hroom
  · rw [List.length_append, List.length_replicate] at hroom
    exact absurd hroom (by decide)
  · intro hmem
    rcases List.mem_append.mp hmem with hmem | hmem
    · exact absurd hmem (by decide)
    · exact absurd (List.eq_of_mem_replicate hmem) (by decide)

end BasicServer
