/-
  The buffered reader and the writer of `csapp.c`, one call to the kernel after the other.

  What arrives on a connection comes in pieces, and signals may interrupt a call.  `rio_read` keeps
  what it has not handed out yet in `rio_buf`; `rio_writen` goes on until all is written.

  1. **The line reader refines the one of `Reading`** (`readlineb_refines`): the pieces do not show.
  2. **The session** (`chat_heard`) — `chat_with_client`, reading from its `m_fdbuf`, carries out the
     lines of the stream, however it is cut.
  3. **The client** (`client_in_pieces`) — each operation has a `rio_t` of its own.  A client whose
     responses arrive in pieces does what a client of `Client` may do.
  4. **The writer** (`Rio.writen_sent`) — what is written is all of it, in order, or the call fails.
-/
import BasicServer.SetValue
import BasicServer.Lib.Feed

namespace BasicServer

open Message (maxEncodedLen)
open Words (IsWord)

/-! ## The reader -/

/-- RIO_BUFSIZE. -/
def rioBufsize : Nat := 8192

/-- A `rio_t` without its descriptor: `rio_cnt`, the index that `rio_bufptr` points to, and what the
    last call of `read` has put into `rio_buf`. -/
structure Rio where
  rioCnt : Int
  rioBufptr : Nat
  rioBuf : Str
  fits : rioBuf.length ≤ rioBufsize
  inside : rioBufptr + rioCnt.toNat ≤ rioBuf.length

/-- `rio_readinitb`. -/
def rioReadinitb : Rio := ⟨0, 0, [], Nat.zero_le _, Nat.le_refl 0⟩

/-- What a call returns, what it has stored for the caller, and the buffer and the descriptor after. -/
structure Reads where
  ret : Int
  buf : Str
  rio : Rio
  fd : Feed Char

namespace Rio

/-- The buffer after a `read` that returned no characters. -/
def drained (rp : Rio) (ret : Int) (h : ret ≤ 0) : Rio :=
  { rp with
    rioCnt := ret
    inside := by
      have := rp.inside
      omega }

/-- The buffer after a `read` of some characters. -/
def refilled (l : Str) (h : l.length ≤ rioBufsize) : Rio :=
  ⟨l.length, 0, l, h, by rw [Int.toNat_natCast, Nat.zero_add]⟩

/-- The last part of `rio_read`: copy `min(n, rio_cnt)` characters. -/
def copy (rp : Rio) (fd : Feed Char) (n : Nat) : Reads :=
  let cnt := if rp.rioCnt < n then rp.rioCnt.toNat else n
  ⟨cnt, (rp.rioBuf.drop rp.rioBufptr).take cnt,
    { rp with
      rioCnt := rp.rioCnt - cnt
      rioBufptr := rp.rioBufptr + cnt
      inside := by
        have := rp.inside
        simp only [cnt]
        split <;> omega },
    fd⟩

/-- `rio_read(rp, usrbuf, n)`.  Its loop ends when there is something in the buffer. -/
def read (rp : Rio) (fd : Feed Char) (n : Nat) : Reads :=
  if 0 < rp.rioCnt then rp.copy fd n
  else match h : fd.again rioBufsize with
    | (none, fd') => ⟨-1, [], rp.drained (-1) (by decide), fd'⟩
    | (some [], fd') => ⟨0, [], rp.drained 0 (by decide), fd'⟩
    | (some (c :: l), fd') => (refilled (c :: l) (Feed.length_again (by decide) h)).copy fd' n

/-- The loop of `rio_readlineb`.  The first argument is `maxlen - n`; `buf` is what is stored. -/
def readlineLoop : Nat → Int → Str → Rio → Feed Char → Reads
  | 0, n, buf, rp, fd => ⟨n - 1, buf ++ ['\x00'], rp, fd⟩
  | left + 1, n, buf, rp, fd =>
    match rp.read fd 1 with
    | ⟨rc, c, rp, fd⟩ =>
      if rc = 1 then
        if c = ['\n'] then ⟨n + 1 - 1, buf ++ c ++ ['\x00'], rp, fd⟩
        else readlineLoop left (n + 1) (buf ++ c) rp fd
      else if rc = 0 then
        if n = 1 then ⟨0, buf, rp, fd⟩ else ⟨n - 1, buf ++ ['\x00'], rp, fd⟩
      else ⟨-1, buf, rp, fd⟩

/-- `rio_readlineb(rp, usrbuf, maxlen)`. -/
def readlineb (rp : Rio) (fd : Feed Char) (maxlen : Nat) : Reads :=
  rp.readlineLoop (maxlen - 1) 1 [] fd

/-! ### The stream -/

/-- The characters that were read and not handed out. -/
def unread (rp : Rio) : Str := (rp.rioBuf.drop rp.rioBufptr).take rp.rioCnt.toNat

/-- What will be read from a descriptor through a buffer. -/
def incoming (rp : Rio) (fd : Feed Char) : Incoming :=
  .after (rp.unread ++ fd.items) (if fd.fails then .error else .eof)

/-- What `rp.read fd n` can be. -/
inductive Took (rp : Rio) (fd : Feed Char) (n : Nat) : Reads → Prop
  | eof {rp' : Rio} {fd' : Feed Char} (h : rp.incoming fd = .eof) (h' : rp'.incoming fd' = .eof) :
      Took rp fd n ⟨0, [], rp', fd'⟩
  | error {rp' : Rio} {fd' : Feed Char} (h : rp.incoming fd = .error) : Took rp fd n ⟨-1, [], rp', fd'⟩
  | got {c : Char} {l : Str} {rp' : Rio} {fd' : Feed Char} (hlen : (c :: l).length ≤ n)
      (h : rp.incoming fd = .after (c :: l) (rp'.incoming fd')) :
      Took rp fd n ⟨(c :: l).length, c :: l, rp', fd'⟩

theorem unread_drained (rp : Rio) {ret : Int} (h : ret ≤ 0) : (rp.drained ret h).unread = [] := by
  show (rp.rioBuf.drop rp.rioBufptr).take ret.toNat = []
  rw [Int.toNat_of_nonpos h]
  rfl

theorem unread_refilled {l : Str} (h : l.length ≤ rioBufsize) : (refilled l h).unread = l := by
  show (l.drop 0).take (l.length : Int).toNat = l
  rw [Int.toNat_natCast, List.drop_zero, List.take_length]

/-- Nothing is unread when the loop of `rio_read` starts. -/
theorem unread_empty {rp : Rio} (h : ¬ 0 < rp.rioCnt) : rp.unread = [] := by
  rw [unread, Int.toNat_of_nonpos (Int.not_lt.mp h)]
  rfl

/-- What is copied comes off the front. -/
theorem copy_took {rp : Rio} {fd : Feed Char} {n : Nat} (hn : 0 < n) (hcnt : 0 < rp.rioCnt) :
    ∃ c l rp', rp.copy fd n = ⟨(c :: l).length, c :: l, rp', fd⟩ ∧ (c :: l).length ≤ n ∧
      rp.unread = c :: l ++ rp'.unread := by
  obtain ⟨k, hk, hpos, hle, hkn⟩ : ∃ k : Nat, (if rp.rioCnt < n then rp.rioCnt.toNat else n) = k ∧
      0 < k ∧ k ≤ rp.rioCnt.toNat ∧ k ≤ n := by
    refine ⟨_, rfl, ?_, ?_, ?_⟩ <;> split <;> omega
  have hroom : k ≤ (rp.rioBuf.drop rp.rioBufptr).length := by
    have hinside := rp.inside
    rw [List.length_drop]
    omega
  have hlen : ((rp.rioBuf.drop rp.rioBufptr).take k).length = k := by
    rw [List.length_take]
    omega
  have hrest : rp.unread = (rp.rioBuf.drop rp.rioBufptr).take k ++ (rp.copy fd n).rio.unread := by
    show (rp.rioBuf.drop rp.rioBufptr).take rp.rioCnt.toNat = _ ++
      (rp.rioBuf.drop (rp.rioBufptr + if rp.rioCnt < n then rp.rioCnt.toNat else n)).take
        (rp.rioCnt - (if rp.rioCnt < n then rp.rioCnt.toNat else n : Nat)).toNat
    have hsplit : rp.rioCnt.toNat = k + (rp.rioCnt - (k : Int)).toNat := by omega
    rw [hk, ← List.drop_drop, ← List.take_add, ← hsplit]
  cases htake : (rp.rioBuf.drop rp.rioBufptr).take k with
  | nil =>
    rw [htake] at hlen
    exact absurd hlen.symm (Nat.ne_of_gt hpos)
  | cons c l =>
    rw [htake] at hlen hrest
    refine ⟨c, l, (rp.copy fd n).rio, ?_, hlen ▸ hkn, hrest⟩
    rw [hlen, ← htake, ← hk]
    rfl

/-- **`rio_read` takes from the stream.** -/
theorem read_took (rp : Rio) (fd : Feed Char) {n : Nat} (hn : 0 < n) : Took rp fd n (rp.read fd n) := by
  unfold read
  split
  · rename_i hcnt
    obtain ⟨c, l, rp', hcopy, hlen, hunread⟩ := @copy_took _ fd _ hn hcnt
    rw [hcopy]
    refine .got hlen ?_
    rw [incoming, hunread, List.append_assoc, after_append]
    rfl
  · rename_i hcnt
    have hspec := Feed.again_spec (show 0 < rioBufsize by decide) fd
    have hempty := unread_empty hcnt
    split
    · rename_i fd' h
      rw [h] at hspec
      cases hspec with
      | broken hitems hfails =>
        refine .error ?_
        rw [incoming, hempty, hitems, hfails]
        rfl
    · rename_i fd' h
      rw [h] at hspec
      cases hspec with
      | finished hitems hfails =>
        refine .eof ?_ ?_
        · rw [incoming, hempty, hitems, hfails]
          rfl
        · rw [incoming, unread_drained]
          rfl
    · rename_i a more fd' h
      rw [h] at hspec
      cases hspec with
      | got hitems hfails hlen =>
        obtain ⟨c, l, rp', hcopy, hlen', hunread⟩ :=
          @copy_took (refilled (a :: more) hlen) fd' _ hn (by
            show (0 : Int) < (a :: more).length
            rw [List.length_cons]
            omega)
        rw [hcopy]
        refine .got hlen' ?_
        rw [unread_refilled] at hunread
        rw [incoming, incoming, hempty, hitems, hunread, hfails, List.nil_append, List.append_assoc,
          after_append]

end Rio

/-! ## The pieces do not show -/

namespace Rio

/-- What a call of the buffered line reader has in common with one on the stream.  After an error the
    stream of `Reading` is at its end; the descriptor may go on. -/
structure Agrees (r : Reads) (r' : Readline) : Prop where
  ret : r.ret = r'.ret
  buf : r.buf = r'.buf
  rest : 0 ≤ r.ret → r.rio.incoming r.fd = r'.rest

theorem readlineLoop_agrees {left : Nat} {n : Int} {buf : Str} {rp : Rio} {fd : Feed Char}
    (hn : 0 < n) : Agrees (readlineLoop left n buf rp fd)
      (BasicServer.readlineLoop left n buf (rp.incoming fd)) := by
  induction left generalizing n buf rp fd with
  | zero => exact ⟨rfl, rfl, fun _ => rfl⟩
  | succ left ih =>
    have htook := read_took rp fd (show 0 < 1 by decide)
    rw [readlineLoop]
    generalize rp.read fd 1 = r at htook
    cases htook with
    | eof h h' =>
      rw [h]
      simp only [BasicServer.readlineLoop, if_neg (show ¬ (0 : Int) = 1 by decide), if_pos]
      split
      · exact ⟨rfl, rfl, fun _ => h'⟩
      · exact ⟨rfl, rfl, fun _ => h'⟩
    | error h =>
      rw [h]
      simp only [BasicServer.readlineLoop, if_neg (show ¬ (-1 : Int) = 1 by decide),
        if_neg (show ¬ (-1 : Int) = 0 by decide)]
      exact ⟨rfl, rfl, fun hret => absurd hret (show ¬ (0 : Int) ≤ -1 by decide)⟩
    | @got c l rp' fd' hlen h =>
      obtain rfl : l = [] := List.eq_nil_of_length_eq_zero (by
        rw [List.length_cons] at hlen
        omega)
      rw [h]
      show Agrees _ (BasicServer.readlineLoop (left + 1) n buf (.char c (rp'.incoming fd')))
      simp only [BasicServer.readlineLoop, List.length_singleton, Int.natCast_one, if_pos]
      by_cases hc : c = '\n'
      · rw [if_pos (congrArg (fun c => [c]) hc), if_pos hc]
        exact ⟨rfl, rfl, fun _ => rfl⟩
      · rw [if_neg fun heq => hc (List.singleton_injective heq), if_neg hc]
        exact ih (by omega)

/-- **Refinement**: the buffered `rio_readlineb` is the one on the stream, in whatever pieces the
    stream arrives. -/
theorem readlineb_refines (rp : Rio) (fd : Feed Char) (maxlen : Nat) :
    Agrees (rp.readlineb fd maxlen) (rioReadlineb maxlen (rp.incoming fd)) :=
  readlineLoop_agrees (by decide)

end Rio

/-! ## The session -/

section Session

variable {ι : Type} {i : ι}

/-- `chat_with_client`, from its first call of `rio_readlineb` to the last of at most `n`. -/
def chat (i : ι) : Nat → Peer ι → Rio → Feed Char → Str × Peer ι
  | 0, p, _, _ => ([], p)
  | n + 1, p, rp, fd =>
    if p.Listens then
      match rp.readlineb fd CallSite.chatWithClient.maxlen with
      | ⟨ret, buf, rp, fd⟩ =>
        let (out, p) := p.input i (if ret ≤ 0 then .eof else .line (cString buf))
        let (outs, p) := chat i n p rp fd
        (out ++ outs, p)
    else ([], p)

/-- The lines of a stream; if it ends with an error, a last line without its newline is lost. -/
def heard (s : Str) (failed : Bool) : List Str :=
  if failed then (linesOf s).filter fun line => line.getLast? = some '\n' else linesOf s

theorem linesOf_cons_line {body : Str} (hnl : '\n' ∉ body) (more : Str) :
    linesOf (body ++ '\n' :: more) = (body ++ ['\n']) :: linesOf more := by
  induction body with
  | nil => rfl
  | cons c body ih =>
    have hc : c ≠ '\n' := fun h => hnl (h ▸ List.mem_cons_self ..)
    rw [List.cons_append, linesOf, if_neg hc, ih fun h => hnl (List.mem_cons_of_mem c h)]
    rfl

theorem linesOf_tail {s : Str} (hnl : '\n' ∉ s) (hs : s ≠ []) : linesOf s = [s] := by
  induction s with
  | nil => exact absurd rfl hs
  | cons c s ih =>
    have hc : c ≠ '\n' := fun h => hnl (h ▸ List.mem_cons_self ..)
    rw [linesOf, if_neg hc]
    cases s with
    | nil => rfl
    | cons c' s => rw [ih (fun h => hnl (List.mem_cons_of_mem c h)) (List.cons_ne_nil c' s)]

/-- A last line without its newline. -/
theorem readlineLoop_tail {s : Str} (hnl : '\n' ∉ s) {left : Nat} (hfit : s.length < left) {n : Int}
    (hn : 0 < n) (hs : n = 1 → s ≠ []) (buf : Str) :
    readlineLoop left n buf (.after s .eof) = ⟨n + s.length - 1, buf ++ s ++ ['\x00'], .eof⟩ ∧
      (readlineLoop left n buf (.after s .error)).ret = -1 := by
  induction s generalizing left n buf with
  | nil =>
    obtain ⟨left, rfl⟩ := Nat.exists_eq_succ_of_ne_zero (Nat.ne_of_gt hfit)
    have hone : n ≠ 1 := fun h => hs h rfl
    show readlineLoop (left + 1) n buf .eof = _ ∧ (readlineLoop (left + 1) n buf .error).ret = _
    simp only [readlineLoop, if_neg hone, List.append_nil, List.length_nil]
    exact ⟨by rw [Int.natCast_zero, Int.add_zero], trivial⟩
  | cons c s ih =>
    obtain ⟨left, rfl⟩ := Nat.exists_eq_succ_of_ne_zero (show left ≠ 0 by omega)
    have hc : c ≠ '\n' := fun h => hnl (h ▸ List.mem_cons_self ..)
    have ih' := ih (fun h => hnl (List.mem_cons_of_mem c h)) (Nat.lt_of_succ_lt_succ hfit)
      (show 0 < n + 1 by omega) (fun h => by omega) (buf ++ [c])
    show readlineLoop (left + 1) n buf (.char c (.after s .eof)) = _ ∧
      (readlineLoop (left + 1) n buf (.char c (.after s .error))).ret = _
    rw [readlineLoop, readlineLoop, if_neg hc, if_neg hc, ih'.1]
    refine ⟨?_, ih'.2⟩
    rw [List.append_assoc buf, List.singleton_append, List.length_cons]
    congr 1
    omega

/-- The end of the stream closes the session, and is not answered. -/
theorem input_eof (i : ι) (p : Peer ι) : p.input i .eof = ([], p.hangUp i) ∧ ¬ (p.hangUp i).Listens := by
  by_cases hp : p.Listens
  · unfold Peer.hangUp
    rw [Peer.input, if_pos hp]
    cases he : (process .eof p.session).exec (serve i) p.server with
    | none => exact ⟨rfl, fun h => absurd h.1 (by simp)⟩
    | some r =>
      obtain ⟨s', srv'⟩ := r
      cases exec_outcome hp.2.1 he with
      | eof =>
        refine ⟨?_, fun h => ?_⟩
        · show ((released (closed (ready p.session))).replies.flatten, _) = _
          rw [replies_released]
          rfl
        · have hopen : (released (closed (ready p.session))).loopInProgress = true := h.2.1
          rw [released] at hopen
          split at hopen <;> cases hopen
  · rw [Peer.hangUp, input_idle hp]
    exact ⟨rfl, hp⟩

theorem chat_idle {p : Peer ι} (h : ¬ p.Listens) (n : Nat) (rp : Rio) (fd : Feed Char) :
    chat i n p rp fd = ([], p) := by
  cases n with
  | zero => rfl
  | succ n => rw [chat, if_neg h]

/-- One iteration, in terms of the stream. -/
theorem chat_succ {p : Peer ι} (hp : p.Listens) {n : Nat} {rp : Rio} {fd : Feed Char} {r : Readline}
    (hr : rioReadlineb CallSite.chatWithClient.maxlen (rp.incoming fd) = r) :
    ∃ rp' fd', (0 ≤ r.ret → rp'.incoming fd' = r.rest) ∧ chat i (n + 1) p rp fd =
      ((p.input i (if r.ret ≤ 0 then .eof else .line (cString r.buf))).1 ++
        (chat i n (p.input i (if r.ret ≤ 0 then .eof else .line (cString r.buf))).2 rp' fd').1,
       (chat i n (p.input i (if r.ret ≤ 0 then .eof else .line (cString r.buf))).2 rp' fd').2) := by
  obtain ⟨hret, hbuf, hrest⟩ := rp.readlineb_refines fd CallSite.chatWithClient.maxlen
  rw [hr] at hret hbuf hrest
  rw [← hret, ← hbuf]
  refine ⟨_, _, hrest, ?_⟩
  rw [chat, if_pos hp]

/-- What the session gets from its first call on a stream. -/
inductive First (s : Str) (failed : Bool) (r : Readline) : Prop
  | finished (hret : r.ret ≤ 0) (hheard : heard s failed = [])
  | line {line more : Str} (hret : 0 < r.ret) (hbuf : cString r.buf = cString line)
      (hrest : r.rest = .after more (if failed then .error else .eof))
      (hheard : heard s failed = line :: heard more failed) (hlen : more.length < s.length)
      (hmore : ∀ line ∈ linesOf more, line.length < maxEncodedLen)

/-- A stream whose lines fit begins with one of its lines, or it is over. -/
theorem first_heard {s : Str} {failed : Bool}
    (hfit : ∀ line ∈ linesOf s, line.length < maxEncodedLen) :
    First s failed (rioReadlineb CallSite.chatWithClient.maxlen
      (.after s (if failed then .error else .eof))) := by
  have hmax : maxEncodedLen < CallSite.chatWithClient.maxlen - 1 := by decide
  by_cases hnl : '\n' ∈ s
  · obtain ⟨body, more, rfl, hbody⟩ := List.eq_append_cons_of_mem hnl
    rw [linesOf_cons_line hbody] at hfit
    obtain ⟨hline, hmore⟩ := List.forall_mem_cons.mp hfit
    rw [List.length_append, List.length_singleton] at hline
    rw [List.append_cons, after_append, rioReadlineb, readlineLoop_line hbody (by omega)]
    refine @First.line _ _ _ (body ++ ['\n']) _ ?_ ?_ rfl ?_ ?_ hmore
    · show (0 : Int) < 1 + body.length
      omega
    · rw [List.nil_append, cString_append_nul]
    · have hlast : (body ++ ['\n']).getLast? = some '\n' := List.getLast?_concat ..
      rw [← List.append_cons]
      unfold heard
      rw [linesOf_cons_line hbody]
      cases failed with
      | false => rfl
      | true => rw [if_pos rfl, if_pos rfl, List.filter_cons, if_pos (decide_eq_true hlast)]
    · rw [List.length_append, List.length_append, List.length_singleton]
      omega
  · by_cases hnil : s = []
    · subst hnil
      cases failed
      · exact .finished (by decide) rfl
      · exact .finished (by decide) rfl
    · rw [linesOf_tail hnl hnil] at hfit
      have hshort := hfit s (List.mem_singleton_self s)
      obtain ⟨heof, herror⟩ := @readlineLoop_tail s hnl (CallSite.chatWithClient.maxlen - 1)
        (by omega) 1 (by decide) (fun _ => hnil) []
      have hpos : 0 < s.length := List.length_pos_iff.mpr hnil
      cases failed with
      | true =>
        have hno : ¬ decide (s.getLast? = some '\n') = true := by
          rw [decide_eq_true_iff]
          exact fun h => hnl (List.mem_of_getLast? h)
        rw [if_pos rfl, rioReadlineb]
        refine .finished (by rw [herror]; decide) ?_
        rw [heard, if_pos rfl, linesOf_tail hnl hnil, List.filter_cons, if_neg hno]
        rfl
      | false =>
        rw [if_neg Bool.false_ne_true, rioReadlineb, heof]
        refine @First.line _ _ _ s [] ?_ ?_ rfl (linesOf_tail hnl hnil) hpos
          fun _ h => absurd h List.not_mem_nil
        · show (0 : Int) < 1 + s.length - 1
          omega
        · rw [List.nil_append, cString_append_nul]

/-- **What a session does depends on the lines alone.**  Whatever the pieces in which they arrive
    and the signals in between, they are carried out one after the other, and then the end. -/
theorem chat_heard {s : Str} {failed : Bool} {n : Nat} {p : Peer ι} {rp : Rio} {fd : Feed Char}
    (hin : rp.incoming fd = .after s (if failed then .error else .eof))
    (hfit : ∀ line ∈ linesOf s, line.length < maxEncodedLen) (hn : s.length < n) :
    chat i n p rp fd
      = ((p.receive i (heard s failed)).1, (p.receive i (heard s failed)).2.hangUp i) := by
  induction n generalizing s p rp fd with
  | zero => exact absurd hn (Nat.not_lt_zero _)
  | succ n ih =>
    by_cases hp : p.Listens
    · have hfirst := @first_heard s failed hfit
      rw [← hin] at hfirst
      generalize hr : rioReadlineb CallSite.chatWithClient.maxlen (rp.incoming fd) = r at hfirst
      obtain ⟨rp', fd', hin', hchat⟩ := @chat_succ ι i p hp n rp fd r hr
      cases hfirst with
      | finished hret hheard =>
        obtain ⟨heof, hidle⟩ := input_eof i p
        rw [if_pos hret, heof, chat_idle hidle] at hchat
        rw [hchat, hheard]
        rfl
      | line hret hbuf hrest hheard hlen hmore =>
        rw [if_neg (Int.not_le.mpr hret), hbuf] at hchat
        have hnext := hin' (Int.le_of_lt hret)
        rw [hrest] at hnext
        rw [hchat, ih hnext hmore (by omega), hheard, receive_cons]
    · rw [chat_idle hp, receive_idle hp, Peer.hangUp, input_idle hp]

end Session

/-- Three requests in two pieces; of the fourth not all has arrived when the connection breaks. -/
theorem chat_heard_pieces :
    (chat () 40 { server := ({} : Server Unit) } rioReadinitb
      [.piece 'L' "OGIN a\nPU".toList, .signal, .piece 'S' "H 7\nTOP\nPO".toList, .failure]).1
    = "OK\nOK\nDATA 7\n".toList := by
  have hfit : ∀ line ∈ linesOf "LOGIN a\nPUSH 7\nTOP\nPO".toList, line.length < maxEncodedLen := by
    decide
  rw [@chat_heard _ () "LOGIN a\nPUSH 7\nTOP\nPO".toList true 40 _ _ _ rfl hfit (by decide)]
  decide +kernel

/-! ## The client -/

section Client

variable {ι : Type} {i : ι}

/-- A stream ends with an error. -/
def Incoming.broken : Incoming → Bool
  | .eof => false
  | .error => true
  | .char _ s => s.broken

theorem broken_after (s : Str) (more : Incoming) : (Incoming.after s more).broken = more.broken := by
  induction s with
  | nil => rfl
  | cons c s ih => exact ih

theorem broken_incoming (rp : Rio) (fd : Feed Char) : (rp.incoming fd).broken = fd.fails := by
  rw [Rio.incoming, broken_after]
  cases fd.fails <;> rfl

theorem broken_readlineLoop (left : Nat) (n : Int) (buf : Str) (s : Incoming) :
    (readlineLoop left n buf s).rest.broken = s.broken := by
  induction left generalizing n buf s with
  | zero => rfl
  | succ left ih =>
    cases s with
    | eof =>
      rw [readlineLoop]
      split <;> rfl
    | error => rfl
    | char c s =>
      rw [readlineLoop]
      split
      · rfl
      · exact ih ..

theorem incoming_whole {rp : Rio} {fd : Feed Char} (h : fd.fails = false) :
    rp.incoming fd = .after (rp.unread ++ fd.items) .eof := by
  rw [Rio.incoming, h, if_neg Bool.false_ne_true]

/-- The `rio_readlineb` of an operation, on what has arrived. -/
def response (fd : Feed Char) : Reads := rioReadinitb.readlineb fd CallSite.clientOperation.maxlen

/-- **A new `rio_t` reads the same response**, and what it leaves to the next one is some of what it
    did not hand out. -/
theorem response_reads {fd : Feed Char} (h : fd.fails = false) :
    (0 < (response fd).ret → (response fd).fd.fails = false ∧ ∃ rest,
      readResponse fd.items = some (cString (response fd).buf, rest) ∧
      (response fd).fd.items <:+ rest) ∧
    (¬ 0 < (response fd).ret → readResponse fd.items = none) := by
  obtain ⟨hret, hbuf, hrest⟩ := rioReadinitb.readlineb_refines fd CallSite.clientOperation.maxlen
  have hbroken := broken_readlineLoop (CallSite.clientOperation.maxlen - 1) 1 []
    (rioReadinitb.incoming fd)
  rw [broken_incoming, h] at hbroken
  have hin : rioReadinitb.incoming fd = .after fd.items .eof := incoming_whole h
  unfold response readResponse
  rw [hin] at hret hbuf hrest hbroken
  simp only [← hret, ← hbuf]
  refine ⟨fun hpos => ?_, fun hpos => if_neg hpos⟩
  have hnext := hrest (Int.le_of_lt hpos)
  have hwhole : (rioReadinitb.readlineb fd CallSite.clientOperation.maxlen).fd.fails = false := by
    rw [← broken_incoming, hnext]
    exact hbroken
  refine ⟨hwhole, _, if_pos hpos, ?_⟩
  rw [incoming_whole hwhole] at hnext
  rw [← hnext, chars_after]
  exact List.suffix_append ..

/-- A connection, with what has arrived and was not read. -/
structure Wire (ι : Type) where
  peer : Peer ι
  fd : Feed Char := []

/-- The connection of `Client`. -/
def Wire.link (c : Wire ι) : Link ι := ⟨c.peer, c.fd.items⟩

/-- `Arrives i ops c out c'` — a client that has these operations to do may exit with 0, its responses
    arriving in any pieces.  It has then printed `out`, and left `c'`. -/
inductive Arrives (i : ι) : List Operation → Wire ι → List Str → Wire ι → Prop
  | nil {c : Wire ι} : Arrives i [] c [] c
  | cons {op : Operation} {ops : List Operation} {c c' : Wire ι} {encoded : Str} {f : Feed Char}
      {out outs : List Str} (henc : encode op.msg = .ok encoded)
      (hcut : Feed.Cut (c.peer.receive i (linesOf encoded)).1 f)
      (hpos : 0 < (response (c.fd ++ f)).ret)
      (hzero : op.handle (cString (response (c.fd ++ f)).buf) = .ok (0, out))
      (h : Arrives i ops ⟨(c.peer.receive i (linesOf encoded)).2, (response (c.fd ++ f)).fd⟩ outs c') :
      Arrives i (op :: ops) c (out ++ outs) c'

/-- It always exits with 0, and what it has printed is in `Q`. -/
def AlwaysArrives (i : ι) : List Operation → Wire ι → (List Str → Prop) → Prop
  | [], _, Q => Q []
  | op :: ops, c, Q => ∃ encoded, encode op.msg = .ok encoded ∧
      ∀ f, Feed.Cut (c.peer.receive i (linesOf encoded)).1 f → 0 < (response (c.fd ++ f)).ret ∧
        ∃ out, op.handle (cString (response (c.fd ++ f)).buf) = .ok (0, out) ∧
          AlwaysArrives i ops ⟨(c.peer.receive i (linesOf encoded)).2, (response (c.fd ++ f)).fd⟩
            fun outs => Q (out ++ outs)

/-- One operation: the response is the one of `Client`, and some of the rest is gone. -/
theorem ask_arrives {c : Wire ι} {msg : Message} {encoded : Str} {f : Feed Char}
    (hwhole : c.fd.fails = false) (henc : encode msg = .ok encoded)
    (hcut : Feed.Cut (c.peer.receive i (linesOf encoded)).1 f) :
    (0 < (response (c.fd ++ f)).ret → (response (c.fd ++ f)).fd.fails = false ∧ ∃ l₁,
      c.link.ask i msg = some (cString (response (c.fd ++ f)).buf, l₁) ∧
      Drops l₁ (Wire.link ⟨(c.peer.receive i (linesOf encoded)).2, (response (c.fd ++ f)).fd⟩)) ∧
    (¬ 0 < (response (c.fd ++ f)).ret → c.link.ask i msg = none) := by
  have hfails : Feed.fails (c.fd ++ f) = false := (Feed.fails_append hwhole f).trans hcut.whole
  have hitems : Feed.items (c.fd ++ f)
      = c.fd.items ++ (c.peer.receive i (linesOf encoded)).1 := by
    rw [Feed.items_append hwhole, hcut.items]
  obtain ⟨hread, hnone⟩ := response_reads hfails
  have hask : c.link.ask i msg = (readResponse (Feed.items (c.fd ++ f))).map fun r =>
      (r.1, ⟨(c.peer.receive i (linesOf encoded)).2, r.2⟩) := by
    rw [Link.ask, henc, hitems]
    rfl
  refine ⟨fun hpos => ?_, fun hpos => by rw [hask, hnone hpos]; rfl⟩
  obtain ⟨hrest, rest, hresp, hsuffix⟩ := hread hpos
  refine ⟨hrest, ⟨(c.peer.receive i (linesOf encoded)).2, rest⟩, ?_, rfl, hsuffix⟩
  rw [hask, hresp]
  rfl

/-- What happens at the descriptor may happen in `Client`. -/
theorem exits_of_arrives {ops : List Operation} {c c' : Wire ι} {out : List Str}
    (hwhole : c.fd.fails = false) (h : Arrives i ops c out c') : Exits i ops c.link out c'.link := by
  induction h with
  | nil => exact .nil
  | cons henc hcut hpos hzero _ ih =>
    obtain ⟨hnext, l₁, hask, hdrop⟩ := (ask_arrives hwhole henc hcut).1 hpos
    exact .cons hask hzero hdrop (ih hnext)

/-- What always happens in `Client` always happens, whatever the pieces. -/
theorem alwaysArrives_of_exits {ops : List Operation} {c : Wire ι} {Q : List Str → Prop}
    (hwhole : c.fd.fails = false) (h : AlwaysExits i ops c.link Q) : AlwaysArrives i ops c Q := by
  induction ops generalizing c Q with
  | nil => exact h
  | cons op ops ih =>
    obtain ⟨buf, l₁, out, hask, hzero, hnext⟩ := h
    obtain ⟨encoded, henc, -, -⟩ := ask_inv hask
    refine ⟨encoded, henc, fun f hcut => ?_⟩
    obtain ⟨hread, hnone⟩ := ask_arrives hwhole henc hcut
    have hpos : 0 < (response (c.fd ++ f)).ret := by
      by_contra hpos
      rw [hnone hpos] at hask
      cases hask
    obtain ⟨hrest, l₂, hask₂, hdrop⟩ := hread hpos
    rw [hask] at hask₂
    obtain ⟨hbuf, rfl⟩ := Prod.mk.inj (Option.some.inj hask₂)
    exact ⟨hpos, out, hbuf ▸ hzero, ih hrest (hnext _ hdrop)⟩

/-- **The client at the descriptor refines the one of `Client`**: its runs, and what all of them do. -/
theorem client_in_pieces {ops : List Operation} {c : Wire ι} (hwhole : c.fd.fails = false) :
    (∀ out c', Arrives i ops c out c' → Exits i ops c.link out c'.link) ∧
      ∀ Q, AlwaysExits i ops c.link Q → AlwaysArrives i ops c Q :=
  ⟨fun _ _ => exits_of_arrives hwhole, fun _ => alwaysArrives_of_exits hwhole⟩

/-- **What `set_value` has stored, `get_value` prints**, when the responses to both arrive in any
    pieces. -/
theorem printed_in_pieces {i j : ι} {a : SetValue} {srv : Server ι} {out : List Str} {c : Wire ι}
    (ha : a.Clean) (h : Arrives i a.main ⟨{ server := srv }, []⟩ out c) :
    AlwaysArrives j a.getValue.main ⟨{ server := (c.peer.hangUp i).server }, []⟩
      fun outs => outs = [a.value.val] := by
  have hexits := exits_of_arrives rfl h
  obtain ⟨hfinds, hword⟩ := SetValue.stored ha hexits
  exact alwaysArrives_of_exits rfl (GetValue.prints hword ha.short a.value.property hfinds)

/-- The run in which every character of a response comes on its own. -/
def dribbles (i : ι) : List Operation → Wire ι → Option (List Str × Wire ι)
  | [], c => some ([], c)
  | op :: ops, c =>
    match encode op.msg with
    | .error _ => none
    | .ok encoded =>
      let (out, peer) := c.peer.receive i (linesOf encoded)
      let r := response (c.fd ++ Feed.dribble out)
      if 0 < r.ret then
        match op.handle (cString r.buf) with
        | .ok (0, out) => (dribbles i ops ⟨peer, r.fd⟩).map fun (outs, c') => (out ++ outs, c')
        | _ => none
      else none

theorem arrives_of_dribbles {ops : List Operation} {c c' : Wire ι} {out : List Str}
    (h : dribbles i ops c = some (out, c')) : Arrives i ops c out c' := by
  induction ops generalizing c out with
  | nil =>
    obtain ⟨rfl, rfl⟩ := Prod.mk.inj (Option.some.inj h)
    exact .nil
  | cons op ops ih =>
    rw [dribbles] at h
    split at h
    · cases h
    · rename_i encoded henc
      simp only at h
      split at h
      · rename_i hpos
        split at h
        · rename_i out₁ hzero
          obtain ⟨⟨outs, c₂⟩, hrest, heq⟩ := Option.map_eq_some_iff.mp h
          obtain ⟨rfl, rfl⟩ := Prod.mk.inj heq
          exact .cons henc (Feed.cut_dribble _) hpos hzero (ih hrest)
        · cases h
      · cases h

/-- A run of `set_value` in which every character of a response comes on its own. -/
theorem arrives_seven : ∃ out c,
    Arrives () (settingX "7" (by decide)).main ⟨{ server := withTable }, []⟩ out c := by
  have hrun : (dribbles () (settingX "7" (by decide)).main
      ⟨{ server := withTable }, []⟩).isSome = true := by decide +kernel
  obtain ⟨⟨out, c⟩, hrun⟩ := Option.isSome_iff_exists.mp hrun
  exact ⟨out, c, arrives_of_dribbles hrun⟩

theorem client_in_pieces_seven : ∃ out l,
    Exits () (settingX "7" (by decide)).main (connect withTable) out l := by
  obtain ⟨out, c, h⟩ := arrives_seven
  exact ⟨out, c.link, (client_in_pieces rfl).1 out c h⟩

theorem printed_in_pieces_seven : ∃ c : Wire Unit,
    AlwaysArrives () (settingX "7" (by decide)).getValue.main
      ⟨{ server := (c.peer.hangUp ()).server }, []⟩ fun outs => outs = ["7".toList] := by
  obtain ⟨out, c, h⟩ := arrives_seven
  have hword : IsWord isspace "7".toList := by decide
  have ha : (settingX "7" (by decide)).Clean := ⟨by decide, by decide, by decide, hword.2, by decide⟩
  exact ⟨c, printed_in_pieces ha h⟩

end Client

/-! ## The writer -/

/-- What a call of `write` does: it takes some characters, at least one and at most the given number
    after it; it returns 0; it is interrupted; or it fails. -/
inductive Writes where
  | chars (more : Nat)
  | nothing
  | signal
  | failure

/-- The loop of `rio_writen`: what it returns, and what was written.  `interrupted` says that `errno`
    is EINTR, which a call that returns 0 does not change.  It has no result while the call to the
    kernel does not return. -/
def writenLoop (n : Nat) : List Writes → Bool → Str → Str → Option (Int × Str)
  | _, _, sent, [] => some (n, sent)
  | [], _, _, _ :: _ => none
  | .chars more :: calls, interrupted, sent, c :: buf =>
    writenLoop n calls interrupted (sent ++ (c :: buf).take (more + 1)) ((c :: buf).drop (more + 1))
  | .nothing :: calls, interrupted, sent, c :: buf =>
    if interrupted then writenLoop n calls interrupted sent (c :: buf) else some (-1, sent)
  | .signal :: calls, _, sent, c :: buf => writenLoop n calls true sent (c :: buf)
  | .failure :: _, _, sent, _ :: _ => some (-1, sent)

/-- `rio_writen(fd, usrbuf, n)`, of all of `usrbuf`. -/
def Rio.writen (calls : List Writes) (interrupted : Bool) (usrbuf : Str) : Option (Int × Str) :=
  writenLoop usrbuf.length calls interrupted [] usrbuf

theorem writenLoop_sent {n : Nat} {calls : List Writes} {interrupted : Bool} {sent buf out : Str}
    {ret : Int} (h : writenLoop n calls interrupted sent buf = some (ret, out)) :
    ret = n ∧ out = sent ++ buf ∨ ret = -1 ∧ ∃ more, more ≠ [] ∧ out ++ more = sent ++ buf := by
  induction calls generalizing interrupted sent buf with
  | nil =>
    cases buf with
    | cons c buf => cases h
    | nil =>
      obtain ⟨rfl, rfl⟩ := Prod.mk.inj (Option.some.inj h)
      exact .inl ⟨rfl, (List.append_nil _).symm⟩
  | cons call calls ih =>
    cases buf with
    | nil =>
      obtain ⟨rfl, rfl⟩ : (n : Int) = ret ∧ sent = out := by
        cases call <;> exact Prod.mk.inj (Option.some.inj h)
      exact .inl ⟨rfl, (List.append_nil _).symm⟩
    | cons c buf =>
      have hfailed : some (-1, sent) = some (ret, out) →
          ret = -1 ∧ ∃ more, more ≠ [] ∧ out ++ more = sent ++ (c :: buf) := by
        intro h
        obtain ⟨rfl, rfl⟩ := Prod.mk.inj (Option.some.inj h)
        exact ⟨rfl, c :: buf, List.cons_ne_nil c buf, rfl⟩
      cases call with
      | chars more =>
        have ih' := ih h
        rwa [List.append_assoc, List.take_append_drop] at ih'
      | nothing =>
        rw [writenLoop] at h
        split at h
        · exact ih h
        · exact .inr (hfailed h)
      | signal => exact ih h
      | failure => exact .inr (hfailed h)

/-- **All or an error**: what is written is the text, or less of it if the call fails. -/
theorem Rio.writen_sent {calls : List Writes} {interrupted : Bool} {usrbuf sent : Str} {ret : Int}
    (h : Rio.writen calls interrupted usrbuf = some (ret, sent)) :
    ret = usrbuf.length ∧ sent = usrbuf ∨ ret = -1 ∧ ∃ more, more ≠ [] ∧ sent ++ more = usrbuf :=
  writenLoop_sent h

/-- **A line gets through.**  A line that fits, written by `rio_writen` in any portions and read by
    a client in any pieces, is read as it was, and what follows it is left. -/
theorem line_delivered {calls : List Writes} {interrupted : Bool} {line sent more : Str} {ret : Int}
    {fd : Feed Char} (hline : Legible line) (hwrite : Rio.writen calls interrupted line = some (ret, sent))
    (hok : 0 ≤ ret) (hcut : Feed.Cut (sent ++ more) fd) :
    (response fd).ret = line.length ∧ (response fd).buf = line ++ ['\x00'] ∧
      (response fd).rio.unread ++ (response fd).fd.items = more := by
  obtain ⟨-, rfl⟩ := (Rio.writen_sent hwrite).resolve_right fun h => by omega
  obtain ⟨body, rfl, hnl⟩ := hline.ending
  have hfits := hline.fits
  rw [List.length_append, List.length_singleton] at hfits
  obtain ⟨hret, hbuf, hrest⟩ := rioReadinitb.readlineb_refines fd CallSite.clientOperation.maxlen
  have hin : rioReadinitb.incoming fd = .after (body ++ ['\n'] ++ more) .eof := by
    rw [incoming_whole hcut.whole, hcut.items]
    rfl
  have hread := readlineLoop_line hnl (show body.length < maxEncodedLen - 1 by omega) 1 []
    (.after more .eof)
  rw [← after_append, ← hin] at hread
  rw [rioReadlineb, show CallSite.clientOperation.maxlen = maxEncodedLen from rfl, hread]
    at hret hbuf hrest
  have hlen : (1 : Int) + body.length = ((body ++ ['\n']).length : Int) := by
    rw [List.length_append, List.length_singleton]
    omega
  refine ⟨hret.trans hlen, hbuf, ?_⟩
  have hnext := hrest (by
    rw [hret]
    show (0 : Int) ≤ 1 + body.length
    omega)
  have hfails := broken_incoming (response fd).rio (response fd).fd
  rw [show (response fd).rio.incoming (response fd).fd = .after more .eof from hnext, broken_after]
    at hfails
  have hchars : ((response fd).rio.incoming (response fd).fd).chars = more := by
    rw [show (response fd).rio.incoming (response fd).fd = .after more .eof from hnext, chars_after]
  rw [incoming_whole hfails.symm, chars_after] at hchars
  exact hchars

/-- OK is written in two portions, and read in two others. -/
theorem line_delivered_ok : ∃ fd : Feed Char, (response fd).ret = 3 ∧
    (response fd).buf = okLine ++ ['\x00'] ∧
    (response fd).rio.unread ++ (response fd).fd.items = "OK".toList := by
  refine ⟨[.signal, .piece 'O' [], .signal, .piece 'K' "\nOK".toList], ?_⟩
  exact @line_delivered [.signal, .nothing, .chars 1, .chars 5] false _ okLine _ 3 _ legible_okLine
    (by decide) (by decide) ⟨by decide, rfl⟩

end BasicServer
