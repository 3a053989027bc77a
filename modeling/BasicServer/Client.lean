/-
  A client process and the session at the other end.

  Each `*_operation` of a client builds a message, sends its encoding, reads one line and handles it;
  `main` goes on as long as the result is 0.  The client does not look at the strings it puts into a
  message, so what it sends may be several lines.  The session reads them one after the other and may
  answer each (`Peer.receive`), while the client takes one line for the answer.

  Every operation has a `rio_t` of its own.  What `read` has put there after the line is lost at the
  end of the operation; how much that is depends on what has arrived (`Drops`).  So a statement
  about a client is about some of its runs (`Exits`) or about all of them (`AlwaysExits`).

  1. **Reading** (`Legible.read`, `legible_of_read`) — a response that can be decoded was a whole line.
  2. **Answering** (`input_answers`, `receive_many`) — every line gets a line back, or it was the last.
  3. **Nothing left over** (`unread_nil`) — two operations that expect different responses, one after
     the other in every run, begin with nothing unread: otherwise the same line could come to both.
  4. **One line at a time** (`ask_ok`, `ask_reply`) — what an operation does that sends one line.
-/
import BasicServer.Reading
import BasicServer.Requests
import BasicServer.Answers
import BasicServer.IncrValue

namespace BasicServer

open Message (maxEncodedLen)

/-! ## The session and its server -/

/-- What `rio_readlineb` gives the server, one call after the other, while there is something.  Of a
    line of MAX_ENCODED_LEN characters `decode` gets all; what its NUL overwrites is left out here. -/
def linesOf : Str → List Str
  | [] => []
  | c :: s =>
    if c = '\n' then [c] :: linesOf s
    else match linesOf s with
      | [] => [[c]]
      | line :: lines => (c :: line) :: lines

/-- The session of one client, and the server.  No other client is active, so a session that waits
    for a mutex waits forever. -/
structure Peer (ι : Type) where
  server : Server ι
  session : Session := {}
  waiting : Bool := false

section Peer

variable {ι : Type}

/-- The session takes another input. -/
def Peer.Listens (p : Peer ι) : Prop :=
  p.waiting = false ∧ p.session.loopInProgress = true ∧ p.server.aborted = false

instance (p : Peer ι) : Decidable p.Listens := inferInstanceAs (Decidable (_ ∧ _))

/-- One input: what is written to the socket, and the session and the server after. -/
def Peer.input (i : ι) (p : Peer ι) (input : Input) : Str × Peer ι :=
  if p.Listens then
    match (process input p.session).exec (serve i) p.server with
    | some (s', srv') => (s'.replies.flatten, { p with session := s', server := srv' })
    | none => ([], { p with waiting := true })
  else ([], p)

/-- The lines of one message. -/
def Peer.receive (i : ι) (p : Peer ι) : List Str → Str × Peer ι
  | [] => ([], p)
  | line :: lines =>
    let (out, p') := p.input i (.line (cString line))
    let (outs, p'') := p'.receive i lines
    (out ++ outs, p'')

/-- The client has exited. -/
def Peer.hangUp (i : ι) (p : Peer ι) : Peer ι := (p.input i .eof).2

end Peer

/-! ## The client -/

/-- The characters that are left. -/
def Incoming.chars : Incoming → Str
  | .char c s => c :: s.chars
  | .eof | .error => []

/-- The `rio_readlineb` of an operation: the string in `buf`, and what is left; `none` if it returns
    0 or less. -/
def readResponse (s : Str) : Option (Str × Str) :=
  let r := rioReadlineb CallSite.clientOperation.maxlen (.after s .eof)
  if 0 < r.ret then some (cString r.buf, r.rest.chars) else none

/-- A connection, with what the server has written and the client has not read. -/
structure Link (ι : Type) where
  peer : Peer ι
  unread : Str := []

/-- A step of the client: the message that it sends, and what it makes of the response, that is what
    it returns and what it prints on `std::cout`.  It decodes the response first. -/
structure Operation where
  msg : Message
  handle : Str → Except Exn (Int × List Str)
  decodes : ∀ {buf : Str} {r : Int × List Str}, handle buf = .ok r → ∃ m, decode buf {} = .ok m

section Link

variable {ι : Type}

/-- `open_clientfd`. -/
def connect (srv : Server ι) : Link ι := { peer := { server := srv } }

/-- Send a message, and read the response.  It is `none` where `encode` throws, which ends the
    client, and where nothing can be read. -/
def Link.ask (i : ι) (l : Link ι) (msg : Message) : Option (Str × Link ι) :=
  match encode msg with
  | .error _ => none
  | .ok encoded =>
    let (out, peer) := l.peer.receive i (linesOf encoded)
    (readResponse (l.unread ++ out)).map fun (buf, rest) => (buf, ⟨peer, rest⟩)

/-- The next operation has a new `rio_t`: some of what was not read is gone. -/
def Drops (l l' : Link ι) : Prop := l'.peer = l.peer ∧ l'.unread <:+ l.unread

/-- `Exits i ops l out l'` — a client that has these operations to do may exit with 0.  It has then
    printed `out`, and left `l'`. -/
inductive Exits (i : ι) : List Operation → Link ι → List Str → Link ι → Prop
  | nil {l : Link ι} : Exits i [] l [] l
  | cons {op : Operation} {ops : List Operation} {l l₁ l₂ l' : Link ι} {buf : Str}
      {out outs : List Str} (hask : l.ask i op.msg = some (buf, l₁))
      (hzero : op.handle buf = .ok (0, out)) (hdrop : Drops l₁ l₂) (h : Exits i ops l₂ outs l') :
      Exits i (op :: ops) l (out ++ outs) l'

/-- It always exits with 0, and what it has printed is in `Q`. -/
def AlwaysExits (i : ι) : List Operation → Link ι → (List Str → Prop) → Prop
  | [], _, Q => Q []
  | op :: ops, l, Q => ∃ buf l₁ out, l.ask i op.msg = some (buf, l₁) ∧
      op.handle buf = .ok (0, out) ∧
      ∀ l₂, Drops l₁ l₂ → AlwaysExits i ops l₂ fun outs => Q (out ++ outs)

/-- The run in which nothing is lost. -/
def exitsWith (i : ι) : List Operation → Link ι → Option (List Str × Link ι)
  | [], l => some ([], l)
  | op :: ops, l =>
    match l.ask i op.msg with
    | none => none
    | some (buf, l₁) =>
      match op.handle buf with
      | .ok (0, out) => (exitsWith i ops l₁).map fun (outs, l') => (out ++ outs, l')
      | _ => none

theorem exits_of_exitsWith {i : ι} {ops : List Operation} {l l' : Link ι} {out : List Str}
    (h : exitsWith i ops l = some (out, l')) : Exits i ops l out l' := by
  induction ops generalizing l out with
  | nil =>
    obtain ⟨rfl, rfl⟩ := Prod.mk.inj (Option.some.inj h)
    exact .nil
  | cons op ops ih =>
    rw [exitsWith] at h
    split at h
    · cases h
    · rename_i buf l₁ hask
      split at h
      · rename_i out₁ hzero
        obtain ⟨⟨outs, l₂⟩, hrest, heq⟩ := Option.map_eq_some_iff.mp h
        obtain ⟨rfl, rfl⟩ := Prod.mk.inj heq
        exact .cons hask hzero ⟨rfl, List.suffix_rfl⟩ (ih hrest)
      · cases h

end Link

/-! ## Lines -/

/-- A line that ends with its only newline is one line. -/
theorem linesOf_line {body : Str} (hnl : '\n' ∉ body) : linesOf (body ++ ['\n']) = [body ++ ['\n']] := by
  induction body with
  | nil => rfl
  | cons c body ih =>
    have hc : c ≠ '\n' := fun h => hnl (h ▸ List.mem_cons_self ..)
    rw [List.cons_append, linesOf, if_neg hc, ih fun h => hnl (List.mem_cons_of_mem c h)]

/-- There are at least as many lines as newlines. -/
theorem count_le_length_linesOf (s : Str) : s.count '\n' ≤ (linesOf s).length := by
  induction s with
  | nil => exact Nat.le_refl 0
  | cons c s ih =>
    rw [linesOf]
    by_cases hc : c = '\n'
    · subst hc
      rw [if_pos rfl, List.count_cons_self, List.length_cons]
      omega
    · rw [if_neg hc, List.count_cons_of_ne (Ne.symm hc).symm]
      split
      · rename_i hnil
        rw [hnil] at ih
        exact Nat.le_succ_of_le ih
      · rename_i hcons
        rw [hcons] at ih
        exact ih

/-- Nothing, or a text that ends with a newline. -/
def Ended (s : Str) : Prop := s = [] ∨ s.getLast? = some '\n'

theorem Ended.append {s t : Str} (hs : Ended s) (ht : Ended t) : Ended (s ++ t) := by
  rcases ht with rfl | ht
  · rwa [List.append_nil]
  · exact .inr (by rw [List.getLast?_append, ht]; rfl)

theorem Ended.suffix {s t : Str} (hs : Ended s) (h : t <:+ s) : Ended t := by
  obtain ⟨u, rfl⟩ := h
  by_cases ht : t = []
  · exact .inl ht
  · rcases hs with hnil | hlast
    · exact .inl (List.append_eq_nil_iff.mp hnil).2
    · exact .inr (by rwa [List.getLast?_append_of_ne_nil _ ht] at hlast)

theorem Ended.mem {s : Str} (hs : Ended s) (hne : s ≠ []) : '\n' ∈ s :=
  List.mem_of_getLast? (hs.resolve_left hne)

/-! ## Reading -/

theorem chars_after (s : Str) : (Incoming.after s .eof).chars = s := by
  induction s with
  | nil => rfl
  | cons c s ih => exact congrArg (c :: ·) ih

theorem after_append (s t : Str) (more : Incoming) :
    Incoming.after (s ++ t) more = .after s (.after t more) := List.foldr_append ..

theorem cString_append_nul (s : Str) : cString (s ++ ['\x00']) = cString s := by
  induction s with
  | nil => rfl
  | cons c s ih =>
    have ih' : (s ++ ['\x00']).takeWhile (· ≠ '\x00') = s.takeWhile (· ≠ '\x00') := ih
    show (c :: (s ++ ['\x00'])).takeWhile _ = (c :: s).takeWhile _
    rw [List.takeWhile_cons, List.takeWhile_cons, ih']

theorem cString_eq {s : Str} (h : '\x00' ∉ s) : cString s = s :=
  List.takeWhile_eq_self_iff.mpr fun _ hc => decide_eq_true fun h' => h (h' ▸ hc)

/-- A line that a client gets as it was sent. -/
structure Legible (line : Str) : Prop where
  ending : ∃ body, line = body ++ ['\n'] ∧ '\n' ∉ body
  noNul : '\x00' ∉ line
  fits : line.length < maxEncodedLen

/-- What `readResponse` gives for a line that fits. -/
theorem readResponse_line {body : Str} (hnl : '\n' ∉ body) (hfit : body.length + 1 < maxEncodedLen)
    (more : Str) :
    readResponse (body ++ '\n' :: more) = some (cString (body ++ ['\n']), more) := by
  have hread : rioReadlineb CallSite.clientOperation.maxlen (.after (body ++ '\n' :: more) .eof)
      = ⟨1 + body.length, [] ++ (body ++ ['\n']) ++ ['\x00'], .after more .eof⟩ := by
    rw [List.append_cons, after_append]
    exact readlineLoop_line hnl (by show body.length < maxEncodedLen - 1; omega) 1 [] _
  have hpos : (0 : Int) < 1 + body.length := by omega
  simp only [readResponse, hread, if_pos hpos, chars_after, List.nil_append, cString_append_nul]

theorem Legible.read {line : Str} (h : Legible line) (more : Str) :
    readResponse (line ++ more) = some (line, more) := by
  obtain ⟨body, rfl, hnl⟩ := h.ending
  have hfit := h.fits
  rw [List.length_append, List.length_singleton] at hfit
  rw [← List.append_cons, readResponse_line hnl hfit, cString_eq h.noNul]

/-- What was read and can be decoded was a whole line: the first one of `s`, if `s` has one. -/
theorem legible_of_read {s t buf rest : Str} (hread : readResponse (s ++ t) = some (buf, rest))
    (hs : '\n' ∈ s) {m : Message} (hdec : decode buf {} = .ok m) :
    Legible buf ∧ ∃ more, s = buf ++ more ∧ rest = more ++ t := by
  obtain ⟨-, hlast⟩ := decode_size hdec
  obtain ⟨body, more, rfl, hnl⟩ := List.eq_append_cons_of_mem hs
  rw [List.append_assoc, List.cons_append] at hread
  have hnl' : '\n' ∈ buf := List.mem_of_getLast? hlast
  by_cases hfit : body.length + 1 < maxEncodedLen
  · rw [readResponse_line hnl hfit] at hread
    obtain ⟨rfl, rfl⟩ := Prod.mk.inj (Option.some.inj hread)
    -- a NUL before the newline would have cut it off
    have hnul : '\x00' ∉ body ++ ['\n'] := by
      intro hmem
      have hmem' : '\x00' ∈ body :=
        (List.mem_append.mp hmem).resolve_right fun h => absurd (List.mem_singleton.mp h) (by decide)
      obtain ⟨text, after, rfl, hfree⟩ := List.eq_append_cons_of_mem hmem'
      have hcut : cString (text ++ '\x00' :: after ++ ['\n']) = text := by
        rw [List.append_assoc]
        exact takeWhile_ne_append hfree _
      rw [hcut] at hnl'
      exact hnl (List.mem_append_left _ hnl')
    rw [cString_eq hnul]
    refine ⟨⟨⟨body, rfl, hnl⟩, hnul, ?_⟩, more, List.append_cons .., rfl⟩
    rw [List.length_append, List.length_singleton]
    exact hfit
  · -- the line was cut off before its newline, and `decode` wants one
    exfalso
    have hcut := @readlineLoop_cut body hnl (maxEncodedLen - 1) (by omega) 1 []
      (.after (more ++ t) .eof)
    rw [← after_append, ← List.append_cons, List.nil_append] at hcut
    simp only [readResponse] at hread
    split at hread
    · obtain ⟨hbuf, -⟩ := Prod.mk.inj (Option.some.inj hread)
      have hbuf' : cString (body.take (maxEncodedLen - 1)) = buf := by
        rw [← cString_append_nul, ← hcut]
        exact hbuf
      rw [← hbuf'] at hnl'
      exact hnl (List.mem_of_mem_take ((List.takeWhile_sublist _).subset hnl'))
    · cases hread

/-! ## Answering -/

section Answering

variable {ι : Type} {i : ι}

/-- What comes of an input is one of its outcomes. -/
theorem exec_outcome {s s' : Session} {srv srv' : Server ι} {input : Input}
    (hs : s.loopInProgress = true)
    (he : (process input s).exec (serve i) srv = some (s', srv')) : Outcome s input s' := by
  have hcall : ∀ o Q (g : Unit) (srv : Server ι) r srv', (anyAnswer False).pre o Q g → True →
      serve i o srv = some (r, srv') → ∃ g', Q r g' ∧ True :=
    fun o Q g srv r srv' hpre _ ho => ⟨g, hpre.2 r ⟨ι, i, srv, srv', step_of_serve ho⟩, trivial⟩
  obtain ⟨-, hout, -⟩ := Prog.exec_wp hcall (process_outcome hs nofun) trivial he
  exact hout

/-- A line that is answered OK is a message. -/
theorem decoded_of_ok {s s' : Session} {line : Str} (hout : Outcome s (.line line) s')
    (hok : s'.replies = [okLine]) : ∃ msg, decode line {} = .ok msg := by
  cases hout with
  | empty => cases hok
  | undecodable =>
    rw [answered, replies_released] at hok
    exact absurd (List.singleton_injective hok) (errLine_ne_okLine _)
  | login hdec | premature hdec | request hdec => exact ⟨_, hdec⟩

/-- Every response ends with a newline. -/
theorem ResponseLine.ended {line : Str} (h : ResponseLine line) : line.getLast? = some '\n' := by
  cases h with
  | ok => rfl
  | data | failed | error => exact lineOf_getLast ..

/-- An input that ends the process. -/
theorem process_aborts {s : Session} {buf : Str}
    (h : buf = [] ∨ EndsProcess s buf) :
    ∃ s', process (.line buf) s = abort s' ∧ s'.replies = [] := by
  rcases h with rfl | hends
  · exact ⟨ready s, rfl, rfl⟩
  · obtain ⟨hfirst, msg, st', hdec, hk⟩ := endsProcess_iff.mp hends
    exact ⟨_, process_kills hfirst hdec hk, rfl⟩

/-- Only one call ends the process. -/
theorem live_of_serve {o : calls.Op} {srv srv' : Server ι} {r : calls.Ans o}
    (ho : o.call ≠ .terminate) (h : serve i o srv = some (r, srv')) : srv'.aborted = srv.aborted := by
  obtain ⟨c, self⟩ := o
  obtain ⟨-, happly⟩ := step_of_serve h
  cases c with
  | terminate => exact absurd rfl ho
  | walk => rw [happly.2]
  | serverLock | lock | trylock =>
    simp only [Call.apply] at happly
    split at happly
    all_goals cases happly
    all_goals rfl
  | _ => cases happly; rfl

/-- While there are answers, the process goes on. -/
theorem live_of_replies {s s' : Session} {srv srv' : Server ι} {buf : Str}
    (hs : s.loopInProgress = true) (hab : srv.aborted = false)
    (he : (process (.line buf) s).exec (serve i) srv = some (s', srv')) (hreplies : s'.replies ≠ []) :
    srv'.aborted = false := by
  have hno : ¬ (buf = [] ∨ EndsProcess s buf) := by
    intro hdies
    obtain ⟨s₁, hproc, hnone⟩ := process_aborts hdies
    rw [hproc, exec_abort hab] at he
    obtain ⟨rfl, -⟩ := Prod.mk.inj (Option.some.inj he)
    exact hreplies hnone
  have hwp : (process (.line buf) s).wp (anyAnswer True) (fun s' _ => Outcome s (.line buf) s') () :=
    process_outcome hs fun _ b hb => by
      cases hb
      exact not_or.mp hno
  have hcall : ∀ o Q (g : Unit) (srv : Server ι) r srv', (anyAnswer True).pre o Q g →
      srv.aborted = false → serve i o srv = some (r, srv') → ∃ g', Q r g' ∧ srv'.aborted = false := by
    intro o Q g srv r srv' hpre hab ho
    refine ⟨g, hpre.2 r ⟨ι, i, srv, srv', step_of_serve ho⟩, ?_⟩
    rw [live_of_serve (hpre.1 trivial) ho, hab]
  obtain ⟨-, -, hlive⟩ := Prog.exec_wp hcall hwp hab he
  exact hlive

theorem input_idle {p : Peer ι} (h : ¬ p.Listens) (input : Input) : p.input i input = ([], p) :=
  if_neg h

theorem input_exec {p : Peer ι} {input : Input} {s' : Session} {srv' : Server ι} (h : p.Listens)
    (he : (process input p.session).exec (serve i) p.server = some (s', srv')) :
    p.input i input = (s'.replies.flatten, { p with session := s', server := srv' }) := by
  rw [Peer.input, if_pos h, he]

/-- **A line gets a line back, or it was the last.** -/
theorem input_answers (i : ι) (p : Peer ι) (buf : Str) :
    (p.input i (.line buf)).1 = [] ∧ ¬ (p.input i (.line buf)).2.Listens ∨
      ∃ s' srv' line, p.Listens ∧
        (process (.line buf) p.session).exec (serve i) p.server = some (s', srv') ∧
        s'.replies = [line] ∧ ResponseLine line := by
  by_cases hp : p.Listens
  · -- the process ends, the session waits, or there is one response
    by_cases hdies : buf = [] ∨ EndsProcess p.session buf
    · obtain ⟨s', hproc, hnone⟩ := process_aborts hdies
      have he : (process (.line buf) p.session).exec (serve i) p.server
          = some (s', { p.server with aborted := true }) := by rw [hproc, exec_abort hp.2.2]
      rw [input_exec hp he, hnone]
      exact .inl ⟨rfl, fun h => absurd h.2.2 (by simp)⟩
    · obtain ⟨hbuf, hno⟩ := not_or.mp hdies
      cases he : (process (.line buf) p.session).exec (serve i) p.server with
      | none =>
        rw [Peer.input, if_pos hp, he]
        exact .inl ⟨rfl, fun h => absurd h.1 (by simp)⟩
      | some r =>
        obtain ⟨s', srv'⟩ := r
        have hout := exec_outcome hp.2.1 he
        obtain ⟨line, hline⟩ := List.length_eq_one_iff.mp (hout.one_reply hbuf hno)
        have hresp := hout.response line (by rw [hline]; exact List.mem_singleton_self _)
        exact .inr ⟨s', srv', line, hp, rfl, hline, hresp⟩
  · rw [input_idle hp]
    exact .inl ⟨rfl, hp⟩

/-- What comes back for a line, if anything, ends with a newline. -/
theorem input_ended (i : ι) (p : Peer ι) (buf : Str) :
    (p.input i (.line buf)).1 = [] ∧ ¬ (p.input i (.line buf)).2.Listens ∨
      (p.input i (.line buf)).1.getLast? = some '\n' := by
  rcases input_answers i p buf with hidle | ⟨s', srv', line, hp, he, hline, hresp⟩
  · exact .inl hidle
  · rw [input_exec hp he, hline, List.flatten_singleton]
    exact .inr hresp.ended

theorem receive_cons (p : Peer ι) (line : Str) (lines : List Str) :
    p.receive i (line :: lines) =
      ((p.input i (.line (cString line))).1 ++ ((p.input i (.line (cString line))).2.receive i lines).1,
        ((p.input i (.line (cString line))).2.receive i lines).2) := rfl

theorem receive_idle {p : Peer ι} (h : ¬ p.Listens) (lines : List Str) :
    p.receive i lines = ([], p) := by
  induction lines with
  | nil => rfl
  | cons line lines ih => rw [receive_cons, input_idle h, ih]; rfl

theorem receive_ended (i : ι) (p : Peer ι) (lines : List Str) : Ended (p.receive i lines).1 := by
  induction lines generalizing p with
  | nil => exact .inl rfl
  | cons line lines ih =>
    rw [receive_cons]
    refine Ended.append ?_ (ih _)
    rcases input_ended i p (cString line) with ⟨hnil, -⟩ | hlast
    · exact .inl hnil
    · exact .inr hlast

/-- Two lines or more get two responses or more, or the last of them was the last of all. -/
theorem receive_many (i : ι) (p : Peer ι) {lines : List Str} (h : 2 ≤ lines.length) :
    ¬ (p.receive i lines).2.Listens ∨
      ∃ first others, (p.receive i lines).1 = first ++ others ∧ '\n' ∈ first ∧ others ≠ [] := by
  match lines, h with
  | line :: line' :: lines, _ =>
    rw [receive_cons, receive_cons]
    rcases input_ended i p (cString line) with ⟨-, hidle⟩ | hfirst
    · rw [input_idle hidle, receive_idle hidle]
      exact .inl hidle
    · rcases input_ended i (p.input i (.line (cString line))).2 (cString line') with ⟨-, hidle⟩ | hnext
      · rw [receive_idle hidle]
        exact .inl hidle
      · refine .inr ⟨_, _, rfl, List.mem_of_getLast? hfirst, fun hnil => ?_⟩
        rw [(List.append_eq_nil_iff.mp hnil).1] at hnext
        cases hnext

end Answering

/-! ## Nothing left over -/

section Unread

variable {ι : Type} {i : ι} {l l₁ : Link ι} {op op' : Operation} {ops : List Operation}
  {msg : Message} {buf encoded : Str} {Q : List Str → Prop}

theorem Drops.refl (l : Link ι) : Drops l l := ⟨rfl, List.suffix_rfl⟩

theorem Drops.eq {l l' : Link ι} (h : Drops l l') (hl : l.unread = []) : l' = l := by
  obtain ⟨hpeer, hunread⟩ := h
  rw [hl, List.suffix_nil] at hunread
  obtain ⟨peer, unread⟩ := l
  obtain ⟨peer', unread'⟩ := l'
  rw [Link.mk.injEq]
  exact ⟨hpeer, hunread.trans hl.symm⟩

/-- **Inversion of ask**. -/
theorem ask_inv (h : l.ask i msg = some (buf, l₁)) : ∃ encoded, encode msg = .ok encoded ∧
    readResponse (l.unread ++ (l.peer.receive i (linesOf encoded)).1) = some (buf, l₁.unread) ∧
    l₁.peer = (l.peer.receive i (linesOf encoded)).2 := by
  unfold Link.ask at h
  split at h
  · cases h
  · rename_i encoded henc
    obtain ⟨⟨buf', rest⟩, hread, heq⟩ := Option.map_eq_some_iff.mp h
    obtain ⟨rfl, rfl⟩ := Prod.mk.inj heq
    exact ⟨encoded, henc, hread, rfl⟩

/-- A response that is handled was the first line there was, and lines are left. -/
theorem ask_legible (hended : Ended l.unread) (hask : l.ask i op.msg = some (buf, l₁))
    {r : Int × List Str} (hr : op.handle buf = .ok r) (henc : encode op.msg = .ok encoded) :
    Legible buf ∧ Ended l₁.unread ∧
      l.unread ++ (l.peer.receive i (linesOf encoded)).1 = buf ++ l₁.unread := by
  obtain ⟨encoded', henc', hread, -⟩ := ask_inv hask
  obtain rfl := Except.ok.inj (henc.symm.trans henc')
  obtain ⟨m, hdec⟩ := op.decodes hr
  have hall : Ended (l.unread ++ (l.peer.receive i (linesOf encoded)).1) :=
    hended.append (receive_ended ..)
  have hmem : '\n' ∈ l.unread ++ (l.peer.receive i (linesOf encoded)).1 := by
    refine hall.mem fun hnil => ?_
    rw [hnil] at hread
    cases hread
  rw [← List.append_nil (l.unread ++ _)] at hread
  obtain ⟨hlegible, more, hsplit, hrest⟩ := legible_of_read hread hmem hdec
  rw [List.append_nil] at hrest
  rw [hrest]
  exact ⟨hlegible, hall.suffix ⟨buf, hsplit.symm⟩, hsplit⟩

/-- **Nothing left over.**  If the first line that is unread were not lost, `op` would take it, and
    `op'` would take the one after it; if it were lost, `op` would take that one. -/
theorem unread_nil (hended : Ended l.unread)
    (hconflict : ∀ buf out out', op.handle buf = .ok (0, out) → op'.handle buf ≠ .ok (0, out'))
    (h : ∀ l', Drops l l' → AlwaysExits i (op :: op' :: ops) l' Q) : l.unread = [] := by
  by_contra hne
  obtain ⟨buf, l₁, out, hask, hzero, hnext⟩ := h l (.refl l)
  obtain ⟨encoded, henc, hread, hpeer⟩ := ask_inv hask
  obtain ⟨m, hdec⟩ := op.decodes hzero
  obtain ⟨-, more, hsplit, hrest⟩ := legible_of_read hread (hended.mem hne) hdec
  -- the other run: the line is lost
  have hlost : Drops l ⟨l.peer, more⟩ := ⟨rfl, buf, hsplit.symm⟩
  obtain ⟨buf₂, l₂, out₂, hask₂, hzero₂, -⟩ := h _ hlost
  obtain ⟨hlegible, -, hsplit₂⟩ := ask_legible (hended.suffix hlost.2) hask₂ hzero₂ henc
  -- in the first run that is the line that `op'` gets
  obtain ⟨buf₃, l₃, out₃, hask₃, hzero₃, -⟩ := hnext l₁ (.refl l₁)
  obtain ⟨encoded₃, -, hread₃, -⟩ := ask_inv hask₃
  rw [hrest, show more ++ (l.peer.receive i (linesOf encoded)).1 = buf₂ ++ l₂.unread from hsplit₂,
    List.append_assoc, hlegible.read] at hread₃
  obtain ⟨rfl, -⟩ := Prod.mk.inj (Option.some.inj hread₃)
  exact hconflict _ _ _ hzero₂ hzero₃

/-- Then the message was one line: the others would have been answered too. -/
theorem one_line (hnew : l.unread = []) (henc : encode op.msg = .ok encoded)
    (hask : l.ask i op.msg = some (buf, l₁)) {out : List Str} (hzero : op.handle buf = .ok (0, out))
    (hrest : l₁.unread = []) (h : AlwaysExits i (op' :: ops) l₁ Q) : (linesOf encoded).length < 2 := by
  by_contra hmany
  obtain ⟨encoded', henc', hread, hpeer⟩ := ask_inv hask
  obtain rfl := Except.ok.inj (henc.symm.trans henc')
  rw [hnew, List.nil_append] at hread
  rcases receive_many i l.peer (Nat.le_of_not_lt hmany) with hidle | ⟨first, others, hout, hnl, hne⟩
  · -- nobody is there to answer `op'`
    obtain ⟨buf', l₂, out', hask', -⟩ := h
    obtain ⟨encoded', -, hread', -⟩ := ask_inv hask'
    rw [hrest, hpeer, receive_idle hidle] at hread'
    cases hread'
  · obtain ⟨m, hdec⟩ := op.decodes hzero
    rw [hout] at hread
    obtain ⟨-, more, -, hmore⟩ := legible_of_read hread hnl hdec
    rw [hrest] at hmore
    exact hne (List.append_eq_nil_iff.mp hmore.symm).2

/-- A message of one line has no newline in an argument. -/
theorem no_newline_of_one (henc : encode msg = .ok encoded) (h : (linesOf encoded).length < 2) :
    ∀ arg ∈ msg.mArgs, '\n' ∉ arg := by
  intro arg harg hmem
  obtain ⟨w, hw, rfl, -⟩ := encode_inv henc
  have hpos : 0 < (Words.joined ' ' msg.mArgs).count '\n' := by
    refine List.count_pos_iff.mpr (List.mem_flatMap.mpr ⟨arg, harg, ?_⟩)
    exact List.mem_cons_of_mem _ hmem
  have hcount := count_le_length_linesOf (lineOf w msg.mArgs)
  rw [lineOf, List.count_append, List.count_append, List.count_singleton_self] at hcount
  rw [lineOf] at h
  omega

end Unread

/-! ## One line at a time -/

/-- A message that is sent as one line, and arrives as it is. -/
structure SentAs (msg : Message) (line : Str) : Prop where
  encoded : encode msg = .ok line
  lines : linesOf line = [line]
  text : cString line = line

theorem lineOf_no_nul {t : MessageType} {w : Str} {args : List Str} (hw : typeName t = .ok w)
    (h : ∀ arg ∈ args, '\x00' ∉ arg) : '\x00' ∉ lineOf w args := by
  intro hmem
  rw [lineOf, List.mem_append, List.mem_append] at hmem
  rcases hmem with hmem | hmem | hmem
  · have hall : ∀ t w, typeName t = .ok w → '\x00' ∉ w := by
      intro t w hw
      cases t <;> cases hw <;> decide
    exact hall t w hw hmem
  · exact Words.not_mem_joined (by decide) h hmem
  · exact absurd (List.mem_singleton.mp hmem) (by decide)

/-- No argument has a newline or a NUL in it. -/
theorem sentAs {msg : Message} {line : Str} (henc : encode msg = .ok line)
    (hargs : ∀ arg ∈ msg.mArgs, '\n' ∉ arg ∧ '\x00' ∉ arg) : SentAs msg line := by
  obtain ⟨w, hw, rfl, -⟩ := encode_inv henc
  obtain ⟨body, hbody, hnl⟩ := lineOf_body hw fun arg harg => (hargs arg harg).1
  have hnul := lineOf_no_nul hw fun arg harg => (hargs arg harg).2
  exact ⟨henc, by rw [hbody, linesOf_line hnl], cString_eq hnul⟩

/-- A response of any other type begins with a line of that type. -/
theorem line_of_response {w arg buf rest : Str} (hw : '\n' ∉ w) (hbuf : Legible buf)
    (h : lineOf w [arg] = buf ++ rest) : ∃ arg', buf = lineOf w [arg'] := by
  obtain ⟨body, rfl, hnl⟩ := hbuf.ending
  rw [← List.append_cons] at h
  have h' : w ++ (' ' :: (arg ++ ['\n'])) = body ++ '\n' :: rest := by
    rw [← h, lineOf, Words.joined_cons, Words.joined_nil, List.append_nil, List.cons_append]
  rcases List.append_eq_append_iff.mp h' with ⟨a, rfl, ha⟩ | ⟨a, rfl, ha⟩
  · cases a with
    | nil => exact absurd (List.cons.inj ha).1 (by decide)
    | cons c a =>
      obtain ⟨rfl, -⟩ := List.cons.inj ha
      exact ⟨a, by simp [lineOf]⟩
  · cases a with
    | nil => exact absurd (List.cons.inj ha).1 (by decide)
    | cons c a =>
      obtain ⟨rfl, -⟩ := List.cons.inj ha
      exact absurd (List.mem_append_right body (List.mem_cons_self ..)) hw

theorem legible_okLine : Legible okLine := ⟨⟨"OK".toList, rfl, by decide⟩, by decide, by decide⟩

/-- What the client takes for an OK is one. -/
theorem ResponseLine.eq_okLine {line buf rest : Str} (h : ResponseLine line)
    (hread : readResponse line = some (buf, rest)) (hok : handlePossibleOkResponse buf = .ok 0) :
    line = okLine := by
  obtain ⟨m, hdec, ht⟩ := handlePossibleOkResponse_zero hok
  rw [← List.append_nil line] at hread
  obtain ⟨hbuf, more, hline, -⟩ := legible_of_read hread (List.mem_of_getLast? h.ended) hdec
  have other : ∀ {t : MessageType} {w arg : Str}, typeName t = .ok w → t ≠ .ok →
      lineOf w [arg] = buf ++ more → False := by
    intro t w arg hw hne heq
    obtain ⟨arg', rfl⟩ := line_of_response (isWord_no_newline (typeName_isWord hw)) hbuf heq
    exact hne ((decode_lineOf_type hw hdec).symm.trans ht)
  cases h with
  | ok => rfl
  | data v => exact (other (t := .data) rfl nofun hline).elim
  | failed => exact (other (t := .failed) rfl nofun hline).elim
  | error => exact (other (t := .error) rfl nofun hline).elim

section OneLine

variable {ι : Type} {i : ι} {l l₁ : Link ι} {msg : Message} {line buf : Str}

theorem ask_sentAs (h : SentAs msg line) (hl : l.unread = []) :
    l.ask i msg = (readResponse (l.peer.input i (.line line)).1).map fun (buf, rest) =>
      (buf, ⟨(l.peer.input i (.line line)).2, rest⟩) := by
  have hreceive : l.peer.receive i (linesOf line) = l.peer.input i (.line line) := by
    rw [h.lines, receive_cons, h.text, Peer.receive, List.append_nil]
  rw [Link.ask, h.encoded]
  simp only [hreceive, hl, List.nil_append]

/-- The response is read, and nothing is left. -/
theorem ask_reply (h : SentAs msg line) (hl : l.unread = []) (hp : l.peer.Listens) {s' : Session}
    {srv' : Server ι} (he : (process (.line line) l.peer.session).exec (serve i) l.peer.server
      = some (s', srv')) {reply : Str} (hreply : s'.replies = [reply]) (hlegible : Legible reply) :
    l.ask i msg = some (reply, ⟨{ l.peer with session := s', server := srv' }, []⟩) := by
  have hread := hlegible.read []
  rw [List.append_nil] at hread
  rw [ask_sentAs h hl, input_exec hp he, hreply, List.flatten_singleton, hread]
  rfl

/-- **The response is an OK**: the session has answered the line with it, and with nothing else. -/
theorem ask_ok (h : SentAs msg line) (hl : l.unread = []) (hask : l.ask i msg = some (buf, l₁))
    (hok : handlePossibleOkResponse buf = .ok 0) : l.peer.Listens ∧ ∃ s' srv',
      (process (.line line) l.peer.session).exec (serve i) l.peer.server = some (s', srv') ∧
      s'.replies = [okLine] ∧ l₁ = ⟨{ l.peer with session := s', server := srv' }, []⟩ := by
  have hask' := hask
  rw [ask_sentAs h hl] at hask'
  obtain ⟨⟨buf', rest⟩, hread, heq⟩ := Option.map_eq_some_iff.mp hask'
  obtain ⟨rfl, -⟩ := Prod.mk.inj heq
  rcases input_answers i l.peer line with ⟨hnil, -⟩ | ⟨s', srv', reply, hp, he, hreply, hresp⟩
  · rw [hnil] at hread
    cases hread
  · rw [input_exec hp he, hreply, List.flatten_singleton] at hread
    obtain rfl := hresp.eq_okLine hread hok
    rw [ask_reply h hl hp he hreply legible_okLine] at hask
    exact ⟨hp, s', srv', he, hreply, (Prod.mk.inj (Option.some.inj hask)).2.symm⟩

end OneLine

end BasicServer
