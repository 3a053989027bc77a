/-
  What travels on the connections of the server process.

  The process of `ServerLoop` reads lines from descriptors and writes responses to them, and threads
  are created as connections are accepted.  Without all that it is the system of `Sessions`, in which
  a thread takes any input at any time.

  1. **Refinement** (`Process.leads`) — a run of the process is a run of that system, and the inputs
     that it gives to a thread are the lines that arrive on its connection.
  2. **The wire** (`wire`) — what is to be written on each connection are the responses of a server
     which takes one request at a time, and serves every client its lines in their order.  If no write
     fails, they are what is written.
-/
import BasicServer.ServerLoop
import BasicServer.Interleaved
import Mathlib.Data.List.Forall2

namespace BasicServer

open Function (update)
open Message (maxEncodedLen)

/-! ## Reading lines -/

/-- What a session is to get from a stream: its lines, and then the end. -/
def inputs (s : Str) (failed : Bool) : List Input :=
  (heard s failed).map (fun line => .line (cString line)) ++ [.eof]

/-- What the thread of a connection is to get. -/
def Socket.inputs (k : Socket) : List Input := BasicServer.inputs k.arrivals.items k.arrivals.fails

/-- The lines that arrive fit in the buffer. -/
def Socket.Fits (k : Socket) : Prop := ∀ line ∈ linesOf k.arrivals.items, line.length < maxEncodedLen

/-- After the inputs `took`, the thread is to get those that can be read through its buffer. -/
def Hears (k : Socket) (took : List Input) (fdbuf : Rio) : Prop :=
  ∃ rest, fdbuf.incoming k.incoming = .after rest (if k.arrivals.fails then .error else .eof) ∧
    (∀ line ∈ linesOf rest, line.length < maxEncodedLen) ∧
    took ++ inputs rest k.arrivals.fails = k.inputs

theorem Hears.some_of {k : Socket} {took : List Input} {fdbuf : Rio} (h : Hears k took fdbuf) :
    took <+: k.inputs := by
  obtain ⟨rest, -, -, hall⟩ := h
  exact ⟨_, hall⟩

/-- At the beginning all is to come. -/
theorem hears_start {k : Socket} (hfit : k.Fits) (hin : k.incoming = k.arrivals) :
    Hears k [] rioReadinitb := by
  refine ⟨k.arrivals.items, ?_, hfit, List.nil_append _⟩
  rw [Rio.incoming, hin]
  rfl

/-- The next input is a line, and what follows it is left; or it is the end. -/
theorem hears_read {k : Socket} {took : List Input} {fdbuf : Rio} {r : Reads} {x : Input}
    (h : Hears k took fdbuf)
    (hr : fdbuf.readlineb k.incoming CallSite.chatWithClient.maxlen = r)
    (hx : x = if r.ret ≤ 0 then .eof else .line (cString r.buf)) :
    x = .eof ∧ took ++ [x] = k.inputs ∨
      Hears { k with incoming := r.fd } (took ++ [x]) r.rio := by
  obtain ⟨rest, hin, hfit, hall⟩ := h
  obtain ⟨hret, hbuf, hrest⟩ := fdbuf.readlineb_refines k.incoming CallSite.chatWithClient.maxlen
  rw [hr, hin] at hret hbuf hrest
  rw [hret, hbuf] at hx
  cases @first_heard rest k.arrivals.fails hfit with
  | finished hend hheard =>
    rw [if_pos hend] at hx
    refine .inl ⟨hx, ?_⟩
    rw [← hall, inputs, hheard, hx]
    rfl
  | @line line more hpos hline hmore hheard _ hfit' =>
    rw [if_neg (Int.not_le.mpr hpos), hline] at hx
    refine .inr ⟨more, ?_, hfit', ?_⟩
    · have hnext := hrest (by rw [hret]; exact Int.le_of_lt hpos)
      rw [hmore] at hnext
      exact hnext
    · show (took ++ [x]) ++ inputs more k.arrivals.fails = k.inputs
      rw [← hall, hx, List.append_assoc]
      rw [inputs, inputs, hheard]
      rfl

/-! ## Refinement -/

/-- The thread of `Sessions` that a client thread is. -/
def Progress.thread : Progress → Thread calls Session
  | .unborn => .rest {}
  | .looping _ s => if s.loopInProgress then .rest s else .busy (afterIteration (.ok (), s))
  | .handling _ _ p => .busy (p.bind afterIteration)
  | .ending p => .busy p
  | .ended s => .rest s
  | .dead s => .busy (.ret s)

/-- The inputs that were completed, the first one first. -/
def took (before : List (Input × Session)) : List Input := before.reverse.map Prod.fst

/-- The responses to them. -/
def said (before : List (Input × Session)) : List Str := before.reverse.flatMap fun d => d.2.replies

theorem took_cons (x : Input) (s : Session) (before : List (Input × Session)) :
    took ((x, s) :: before) = took before ++ [x] := by
  rw [took, List.reverse_cons, List.map_append]
  rfl

theorem said_cons (x : Input) (s : Session) (before : List (Input × Session)) :
    said ((x, s) :: before) = said before ++ s.replies := by
  rw [said, List.reverse_cons, List.flatMap_append, List.flatMap_singleton]
  rfl

/-- `rio_writen` was called for these texts, one after the other, and for no others. -/
def Sent (k : Socket) (texts : List Str) : Prop := List.Forall₂ Wrote texts k.sent

/-- No `rio_writen` has failed. -/
def Socket.Written (k : Socket) : Prop := ∀ w ∈ k.sent, 0 ≤ w.1

/-- Then they were written as they are. -/
theorem Sent.whole {k : Socket} {texts : List Str} (h : Sent k texts) (hk : k.Written) :
    k.sent.map Prod.snd = texts := by
  unfold Sent Socket.Written at *
  generalize k.sent = ws at h hk
  induction h with
  | nil => rfl
  | @cons text w texts ws hw _ ih =>
    obtain ⟨ret, out⟩ := w
    obtain ⟨calls, interrupted, hcall⟩ := hw
    have hret : 0 ≤ ret := hk (ret, out) List.mem_cons_self
    have hout : out = text := by
      rcases Rio.writen_sent hcall with ⟨-, rfl⟩ | ⟨hfailed, -⟩
      · rfl
      · omega
    rw [List.map_cons, hout, ih fun w hw => hk w (List.mem_cons_of_mem _ hw)]

/-- What a thread has completed, and the input it is working on, against its connection. -/
inductive Wired (k : Socket) (before : List (Input × Session)) (todo : Option Input) : Progress → Prop
  | looping {fdbuf : Rio} {s : Session} (hopen : s.loopInProgress = true)
      (h : Hears k (took before) fdbuf) (hsent : Sent k (said before)) :
      Wired k before todo (.looping fdbuf s)
  | handling {fdbuf : Rio} {written : List Str} {p : Prog calls (Except Exn Unit × Session)} {x : Input}
      (hx : todo = some x) (h : Hears k (took before ++ [x]) fdbuf)
      (hsent : Sent k (said before ++ written)) : Wired k before todo (.handling fdbuf written p)
  | eof {fdbuf : Rio} {s : Session} {x : Input} (hx : todo = some x)
      (h : took before ++ [x] = k.inputs) (hsent : Sent k (said before)) :
      Wired k before todo (.handling fdbuf [] (.ret (.ok (), closed (ready s))))
  | closing {fdbuf : Rio} {s : Session} {x : Input} (hx : todo = some x)
      (hclosed : s.loopInProgress = false) (h : took before ++ [x] <+: k.inputs)
      (hsent : Sent k (said before ++ s.replies)) : Wired k before todo (.looping fdbuf s)
  | ending {p : Prog calls Session} {x : Input} {texts : List Str} (hx : todo = some x)
      (h : took before ++ [x] <+: k.inputs) (hsent : Sent k (said before ++ texts))
      (hp : p.wp (anyAnswer False) (fun s _ => s.replies = texts) ()) :
      Wired k before todo (.ending p)
  | ended {s : Session} (h : took before <+: k.inputs) (hsent : Sent k (said before)) :
      Wired k before todo (.ended s)
  | dead {s : Session} : Wired k before todo (.dead s)

/-- A trace of the threads that goes with the process. -/
structure Recorded (g : Process) (T : Chat Nat) : Prop where
  shared : T.config.shared = g.server
  threads : ∀ n, T.config.threads n = (g.workers n).progress.thread
  engaged : Trace.Engaged T
  unborn : ∀ n, (g.workers n).progress = .unborn → past n T.done = []
  waiting : ∀ fd c, g.loop = .create fd (some c) →
    (g.sockets c).incoming = (g.sockets c).arrivals ∧ (g.sockets c).sent = []
  wired : ∀ n c, (g.workers n).conn = some c → (g.sockets c).Fits →
    Wired (g.sockets c) (past n T.done) (T.todo n) (g.workers n).progress

section Recorded

variable {g g' : Process} {T T' : Chat Nat} {n : Nat}

/-- One thread goes on, and nothing changes for the others. -/
theorem Recorded.next (h : Recorded g T) (hworkers : ∀ m, m ≠ n → g'.workers m = g.workers m)
    (hloop : g'.loop = g.loop) (hborn : (g'.workers n).progress ≠ .unborn)
    (hshared : T'.config.shared = g'.server)
    (hthreads : T'.config.threads = update T.config.threads n (g'.workers n).progress.thread)
    (hothers : ∀ m, m ≠ n → T'.todo m = T.todo m ∧ past m T'.done = past m T.done)
    (hbusy : ∀ p, (g'.workers n).progress.thread = .busy p → ∃ x, T'.todo n = some x)
    (hsockets : ∀ m c, m ≠ n → (g.workers m).conn = some c → g'.sockets c = g.sockets c)
    (hwaiting : ∀ fd c, g.loop = .create fd (some c) → g'.sockets c = g.sockets c)
    (hwired : ∀ c, (g'.workers n).conn = some c → (g'.sockets c).Fits →
      Wired (g'.sockets c) (past n T'.done) (T'.todo n) (g'.workers n).progress) : Recorded g' T' := by
  constructor
  case shared => exact hshared
  case threads =>
    intro m
    rw [hthreads]
    by_cases hm : m = n
    · rw [hm, Function.update_self]
    · rw [Function.update_of_ne hm, hworkers m hm]
      exact h.threads m
  case engaged =>
    intro m p hp
    rw [hthreads] at hp
    by_cases hm : m = n
    · rw [hm, Function.update_self] at hp
      rw [hm]
      exact hbusy p hp
    · rw [Function.update_of_ne hm] at hp
      rw [(hothers m hm).1]
      exact h.engaged m p hp
  case unborn =>
    intro m hm'
    by_cases hm : m = n
    · exact absurd (hm ▸ hm') hborn
    · rw [hworkers m hm] at hm'
      rw [(hothers m hm).2]
      exact h.unborn m hm'
  case waiting =>
    intro fd c hcreate
    rw [hloop] at hcreate
    rw [hwaiting fd c hcreate]
    exact h.waiting fd c hcreate
  case wired =>
    intro m c hconn hfit
    by_cases hm : m = n
    · rw [hm] at hconn ⊢
      exact hwired c hconn hfit
    · rw [hworkers m hm] at hconn ⊢
      rw [hsockets m c hm hconn] at hfit ⊢
      rw [(hothers m hm).1, (hothers m hm).2]
      exact h.wired m c hconn hfit

variable {before : Int → Bool} {ok : Nat → (o : calls.Op) → Server Nat → calls.Ans o → Prop}

theorem Sent.append {k : Socket} {texts : List Str} {text : Str} {w : Int × Str} (h : Sent k texts)
    (hout : Wrote text w) : Sent { k with sent := k.sent ++ [w] } (texts ++ [text]) :=
  List.rel_append h (.cons hout .nil)

/-- A thread goes on, and has read from its connection or written to it. -/
theorem Recorded.io (h : Recorded g T) (hd : Process.Disciplined before g) {f : Socket → Socket}
    {killed : Bool} {p : Progress} (hopen : (g.workers n).progress.isOpen = true)
    (hborn : p ≠ .unborn) (hshared : T'.config.shared = g.server)
    (hthreads : T'.config.threads = update T.config.threads n p.thread)
    (hothers : ∀ m, m ≠ n → T'.todo m = T.todo m ∧ past m T'.done = past m T.done)
    (hbusy : ∀ q, p.thread = .busy q → ∃ x, T'.todo n = some x)
    (hkeeps : ∀ k, (f k).arrivals = k.arrivals)
    (hwired : ∀ c, g.feed (g.workers n).clientFd = (g.sockets c).incoming →
      Wired (g.sockets c) (past n T.done) (T.todo n) (g.workers n).progress →
      Wired (f (g.sockets c)) (past n T'.done) (T'.todo n) p) :
    Recorded ({ g.onSocket (g.workers n).clientFd f with killed := killed }.goes n p) T' := by
  generalize hg' : ({ g.onSocket (g.workers n).clientFd f with killed := killed } : Process).goes n p = g'
  have hself : g'.workers n = { g.workers n with progress := p } := hg' ▸ Process.goes_self ..
  have hother : ∀ {m}, m ≠ n → g'.workers m = g.workers m :=
    fun hm => hg' ▸ Process.goes_ne _ _ _ hm
  have hsockets : g'.sockets = (g.onSocket (g.workers n).clientFd f).sockets := hg' ▸ rfl
  refine h.next (fun m hm => hother hm) (hg' ▸ rfl) ?_ ?_ ?_ hothers ?_ ?_ ?_ ?_
  · rw [hself]
    exact hborn
  · rw [hshared, ← hg']
    rfl
  · rw [hself]
    exact hthreads
  · rw [hself]
    exact hbusy
  · intro m c hm hconn
    rw [hsockets]
    exact g.onSocket_other _ _ (hd.not_mine hopen hm hconn)
  · intro fd c hloop
    rw [hsockets]
    exact g.onSocket_other _ _ (hd.not_waiting hopen hloop)
  · intro c hconn hfit
    rw [hself] at hconn ⊢
    have hfd := hd.own.own n c hconn hopen
    have hsocket : g'.sockets c = f (g.sockets c) := by
      rw [hsockets, g.onSocket_client _ _ hfd, Function.update_self]
    rw [hsocket] at hfit ⊢
    have hfit' : (g.sockets c).Fits := by
      rw [Socket.Fits, ← hkeeps]
      exact hfit
    refine hwired c ?_ (h.wired n c hconn hfit')
    rw [Process.feed, hfd]

/-- A thread takes a line, or learns that there are no more. -/
theorem Recorded.read (h : Recorded g T) (hd : Process.Disciplined before g) {fdbuf : Rio} {s : Session}
    (hlive : g.Live) (hw : (g.workers n).progress = .looping fdbuf s)
    (hopen : s.loopInProgress = true) :
    ∃ T', System.Leads ((serverSystem Nat).restrict ok) T T' ∧ Recorded (g.reads n fdbuf s) T' := by
  have hrest : T.config.threads n = .rest s := by
    rw [h.threads, hw, Progress.thread, if_pos hopen]
  generalize hr : fdbuf.readlineb (g.feed (g.workers n).clientFd) CallSite.chatWithClient.maxlen = r
  generalize hx : (if r.ret ≤ 0 then Input.eof else .line (cString r.buf)) = x
  have hg' : g.reads n fdbuf s = { g.onSocket (g.workers n).clientFd fun k =>
      { k with incoming := r.fd } with killed := g.killed }.goes n
        (.handling r.rio [] (iteration x (ready s))) := by
    rw [← hx, ← hr]
    rfl
  have hacc : ((serverSystem Nat).restrict ok).accept n T.config.shared s x = some (process x s) :=
    if_pos ⟨hopen, h.shared ▸ hlive.1⟩
  refine ⟨_, .single (.accept hrest hacc), ?_⟩
  rw [hg']
  refine h.io hd (by rw [hw]; rfl) (by intro heq; cases heq) h.shared rfl
    (fun m hm => ⟨Function.update_of_ne hm .., rfl⟩) (fun _ _ => ⟨x, Function.update_self ..⟩)
    (fun _ => rfl) fun c hfeed hwired => ?_
  rw [hfeed] at hr
  rw [hw] at hwired
  show Wired _ _ (update T.todo n (some x) n) _
  rw [Function.update_self]
  cases hwired with
  | closing _ hclosed =>
    rw [hopen] at hclosed
    cases hclosed
  | looping _ hhears hsent =>
    rcases hears_read hhears hr hx.symm with ⟨rfl, hall⟩ | hhears'
    · exact .eof rfl hall hsent
    · refine .handling rfl hhears' ?_
      rw [List.append_nil]
      exact hsent

/-- What the others have completed, when one thread has completed an input. -/
theorem others_finish (x : Input) (s : Session) (m : Nat) (hm : m ≠ n) :
    update T.todo n none m = T.todo m ∧ past m (⟨n, x, s⟩ :: T.done) = past m T.done :=
  ⟨Function.update_of_ne hm .., past_cons_ne hm.symm _⟩

/-- A response is written; or what has been written of it is the last that is seen of the process. -/
theorem Recorded.write (h : Recorded g T) (hd : Process.Disciplined before g) {fdbuf : Rio}
    {written : List Str} {p : Prog calls (Except Exn Unit × Session)} {text : Str} {w : Int × Str}
    {killed : Bool} (hw : (g.workers n).progress = .handling fdbuf written p)
    (hnext : written ++ [text] <+: responses p) (hout : Wrote text w) :
    Recorded ({ g.writes n w with killed := killed }.goes n (.handling fdbuf (written ++ [text]) p)) T := by
  have hthread : T.config.threads n = .busy (p.bind afterIteration) := by
    rw [h.threads, hw]
    rfl
  refine h.io hd (by rw [hw]; rfl) (by intro heq; cases heq) h.shared ?_ (fun _ _ => ⟨rfl, rfl⟩)
    (fun _ _ => h.engaged n _ hthread) (fun _ => rfl) fun c _ hwired => ?_
  · show T.config.threads = update T.config.threads n (.busy _)
    rw [← hthread, Function.update_eq_self]
  · rw [hw] at hwired
    cases hwired with
    | handling hx hhears hsent =>
      refine .handling hx hhears ?_
      rw [← List.append_assoc]
      exact hsent.append hout
    | eof =>
      -- there is no response to the end of the stream
      exact absurd (List.prefix_nil.mp hnext) (List.cons_ne_nil _ _)

/-- A thread goes on, and its connection is as it was. -/
theorem Recorded.on (h : Recorded g T) {g₁ : Process} {p : Progress}
    (hsame : g₁ = { g with server := g₁.server, fds := g₁.fds })
    (hborn : p ≠ .unborn) (hshared : T'.config.shared = g₁.server)
    (hthreads : T'.config.threads = update T.config.threads n p.thread)
    (hothers : ∀ m, m ≠ n → T'.todo m = T.todo m ∧ past m T'.done = past m T.done)
    (hbusy : ∀ q, p.thread = .busy q → ∃ x, T'.todo n = some x)
    (hwired : ∀ k, Wired k (past n T.done) (T.todo n) (g.workers n).progress →
      Wired k (past n T'.done) (T'.todo n) p) :
    Recorded (g₁.goes n p) T' := by
  generalize hg' : g₁.goes n p = g'
  have hworkers : g₁.workers = g.workers := by rw [hsame]
  have hloop : g'.loop = g.loop := by
    rw [← hg', hsame]
    rfl
  have hself : g'.workers n = { g.workers n with progress := p } := by
    rw [← hg', Process.goes_self, hworkers]
  have hother : ∀ {m}, m ≠ n → g'.workers m = g.workers m := by
    intro m hm
    rw [← hg', Process.goes_ne _ _ _ hm, hworkers]
  have hsockets : g'.sockets = g.sockets := by
    rw [← hg', hsame]
    rfl
  refine h.next (fun m hm => hother hm) hloop ?_ ?_ ?_ hothers ?_ (fun _ c _ _ => by rw [hsockets])
    (fun _ c _ => by rw [hsockets]) ?_
  · rw [hself]
    exact hborn
  · rw [hshared, ← hg']
    rfl
  · rw [hself]
    exact hthreads
  · rw [hself]
    exact hbusy
  · intro c hconn hfit
    rw [hself] at hconn ⊢
    rw [hsockets] at hfit ⊢
    exact hwired _ (h.wired n c hconn hfit)

/-- A call in the body of the loop. -/
theorem Recorded.call (h : Recorded g T) {fdbuf : Rio} {written : List Str} {o : calls.Op}
    {k : calls.Ans o → Prog calls (Except Exn Unit × Session)} {r : calls.Ans o} {srv : Server Nat}
    (hw : (g.workers n).progress = .handling fdbuf written (.call o k))
    (hs : ((serverSystem Nat).restrict ok).step n o g.server r srv) :
    ∃ T', System.Leads ((serverSystem Nat).restrict ok) T T' ∧
      Recorded ({ g with server := srv }.goes n (.handling fdbuf written (k r))) T' := by
  have hthread : T.config.threads n = .busy (.call o fun r => (k r).bind afterIteration) := by
    rw [h.threads, hw]
    rfl
  obtain ⟨x, hx⟩ := h.engaged n _ hthread
  refine ⟨_, .single (.call hthread (h.shared ▸ hs)), ?_⟩
  refine h.on rfl (by intro heq; cases heq) rfl rfl (fun _ _ => ⟨rfl, rfl⟩) (fun _ _ => ⟨x, hx⟩)
    fun k hwired => ?_
  rw [hw] at hwired
  cases hwired with
  | handling hx hhears hsent => exact .handling hx hhears hsent

/-- An iteration has come to its end, and its responses are written. -/
theorem Recorded.answer (h : Recorded g T) {fdbuf : Rio} {s : Session}
    (hw : (g.workers n).progress = .handling fdbuf s.replies (.ret (.ok (), s))) :
    ∃ T', System.Leads ((serverSystem Nat).restrict ok) T T' ∧
      Recorded (g.goes n (.looping fdbuf s)) T' := by
  generalize hwritten : s.replies = written at hw
  have hthread : T.config.threads n = .busy (afterIteration (.ok (), s)) := by
    rw [h.threads, hw]
    rfl
  obtain ⟨x, hx⟩ := h.engaged n _ hthread
  cases hopen : s.loopInProgress with
  | true =>
    -- the session is at rest again
    rw [afterIteration_open hopen] at hthread
    refine ⟨_, .single (.finish hthread hx), ?_⟩
    have hnext : (Progress.looping fdbuf s).thread = .rest s := if_pos hopen
    refine h.on rfl (by intro heq; cases heq) h.shared ?_ (others_finish x s) ?_ fun k hwired => ?_
    · rw [hnext]
    · rw [hnext]
      intro q hq
      cases hq
    · rw [hw] at hwired
      rw [past_cons_self]
      cases hwired with
      | eof => cases hopen
      | handling hx' hhears hsent =>
        cases hx.symm.trans hx'
        refine .looping hopen ?_ ?_
        · rw [took_cons]
          exact hhears
        · rw [said_cons, hwritten]
          exact hsent
  | false =>
    -- what is left is the destructor
    refine ⟨T, .refl, ?_⟩
    have hnext : (Progress.looping fdbuf s).thread = T.config.threads n := by
      rw [hthread, Progress.thread, if_neg (by rw [hopen]; decide)]
    refine h.on rfl (by intro heq; cases heq) h.shared ?_ (fun _ _ => ⟨rfl, rfl⟩)
      (fun _ _ => ⟨x, hx⟩) fun k hwired => ?_
    · rw [hnext, Function.update_eq_self]
    · rw [hw] at hwired
      cases hwired with
      | eof hx' hall hsent =>
        cases hx.symm.trans hx'
        refine .closing hx rfl ⟨[], (List.append_nil _).trans hall⟩ ?_
        rw [hwritten, List.append_nil]
        exact hsent
      | handling hx' hhears hsent =>
        cases hx.symm.trans hx'
        refine .closing hx hopen hhears.some_of ?_
        rw [hwritten]
        exact hsent

/-- An exception that nothing has caught ends the process. -/
theorem Recorded.terminate (h : Recorded g T) {fdbuf : Rio} {written : List Str} {e : Exn} {s : Session}
    {r : calls.Ans ⟨.terminate, s⟩} {srv : Server Nat}
    (hw : (g.workers n).progress = .handling fdbuf written (.ret (.error e, s)))
    (hs : ((serverSystem Nat).restrict ok).step n ⟨.terminate, s⟩ g.server r srv) :
    ∃ T', System.Leads ((serverSystem Nat).restrict ok) T T' ∧
      Recorded ({ g with server := srv }.goes n (.dead s)) T' := by
  have hthread : T.config.threads n = .busy (.call ⟨.terminate, s⟩ fun _ => .ret s) := by
    rw [h.threads, hw]
    rfl
  obtain ⟨x, hx⟩ := h.engaged n _ hthread
  refine ⟨_, .single (.call hthread (h.shared ▸ hs)), ?_⟩
  exact h.on rfl (by intro heq; cases heq) rfl rfl (fun _ _ => ⟨rfl, rfl⟩) (fun _ _ => ⟨x, hx⟩)
    fun _ _ => .dead

/-- A thread closes its descriptor. -/
theorem Recorded.close (h : Recorded g T) {fdbuf : Rio} {s : Session}
    (hw : (g.workers n).progress = .looping fdbuf s) (hclosed : s.loopInProgress = false) :
    Recorded (g.closes n s) T := by
  have hafter : afterIteration (.ok (), s) = (destructor s).bind fun r => .ret r.2 :=
    if_neg (by rw [hclosed]; decide)
  have hthread : T.config.threads n = .busy ((destructor s).bind fun r => .ret r.2) := by
    rw [h.threads, hw, Progress.thread, if_neg (by rw [hclosed]; decide), hafter]
  refine h.on rfl (by intro heq; cases heq) h.shared ?_ (fun _ _ => ⟨rfl, rfl⟩)
    (fun q hq => h.engaged n _ hthread) fun k hwired => ?_
  · show T.config.threads = update T.config.threads n (.busy _)
    rw [← hthread, Function.update_eq_self]
  · rw [hw] at hwired
    cases hwired with
    | looping hopen =>
      rw [hclosed] at hopen
      cases hopen
    | closing hx _ hhears hsent =>
      refine .ending hx hhears hsent ?_
      rw [← hafter, afterIteration_closed hclosed]
      exact wp_giveUp.mpr (replies_released s)

/-- A call of the destructor. -/
theorem Recorded.destroy (h : Recorded g T) {o : calls.Op} {k : calls.Ans o → Prog calls Session}
    {r : calls.Ans o} {srv : Server Nat} (hw : (g.workers n).progress = .ending (.call o k))
    (hs : ((serverSystem Nat).restrict ok).step n o g.server r srv) :
    ∃ T', System.Leads ((serverSystem Nat).restrict ok) T T' ∧
      Recorded ({ g with server := srv }.goes n (.ending (k r))) T' := by
  have hthread : T.config.threads n = .busy (.call o k) := by
    rw [h.threads, hw]
    rfl
  obtain ⟨x, hx⟩ := h.engaged n _ hthread
  refine ⟨_, .single (.call hthread (h.shared ▸ hs)), ?_⟩
  refine h.on rfl (by intro heq; cases heq) rfl rfl (fun _ _ => ⟨rfl, rfl⟩) (fun _ _ => ⟨x, hx⟩)
    fun k hwired => ?_
  rw [hw] at hwired
  cases hwired with
  | ending hx hhears hsent hp => exact .ending hx hhears hsent (hp.2 r ⟨Nat, n, _, _, hs.1⟩)

/-- A thread has come to its end. -/
theorem Recorded.finish (h : Recorded g T) {s : Session} (hw : (g.workers n).progress = .ending (.ret s)) :
    ∃ T', System.Leads ((serverSystem Nat).restrict ok) T T' ∧ Recorded (g.goes n (.ended s)) T' := by
  have hthread : T.config.threads n = .busy (.ret s) := by
    rw [h.threads, hw]
    rfl
  obtain ⟨x, hx⟩ := h.engaged n _ hthread
  refine ⟨_, .single (.finish hthread hx), ?_⟩
  refine h.on rfl (by intro heq; cases heq) h.shared rfl (others_finish x s) (fun q hq => by cases hq)
    fun k hwired => ?_
  rw [hw] at hwired
  rw [past_cons_self]
  cases hwired with
  | ending hx' hhears hsent hp =>
    cases hx.symm.trans hx'
    refine .ended ?_ ?_
    · rw [took_cons]
      exact hhears
    · rw [said_cons, show s.replies = _ from hp]
      exact hsent

/-- A connection was accepted. -/
theorem Recorded.accepts (h : Recorded g T) (hd : Process.Disciplined before g) (fd : Int)
    (arrivals : Feed Char) : Recorded (g.accepts fd arrivals) T := by
  refine ⟨h.shared, h.threads, h.engaged, h.unborn, fun fd' c hloop => ?_, fun n c hconn hfit => ?_⟩
  · cases hloop
    have hnew : (g.accepts fd arrivals).sockets g.accepted = { arrivals, incoming := arrivals } :=
      Function.update_self ..
    rw [hnew]
    exact ⟨rfl, rfl⟩
  · have hne : c ≠ g.accepted := Nat.ne_of_lt (hd.numbered n c hconn)
    have hold : (g.accepts fd arrivals).sockets c = g.sockets c := Function.update_of_ne hne ..
    rw [hold] at hfit ⊢
    exact h.wired n c hconn hfit

/-- A thread was created. -/
theorem Recorded.creates (h : Recorded g T) (hd : Process.Disciplined before g) {fd : Int}
    {conn : Option Nat} (hloop : g.loop = .create fd conn) : Recorded (g.creates fd conn) T := by
  have hunborn := hd.fresh g.created (Nat.le_refl _)
  have hself : (g.creates fd conn).workers g.created = ⟨fd, conn, .looping rioReadinitb {}⟩ :=
    Function.update_self ..
  have hother : ∀ {n}, n ≠ g.created → (g.creates fd conn).workers n = g.workers n :=
    fun hn => Function.update_of_ne hn ..
  refine ⟨h.shared, fun n => ?_, h.engaged, fun n hn => ?_, fun fd' c hcreate => ?_,
    fun n c hconn hfit => ?_⟩
  · by_cases hn : n = g.created
    · subst hn
      rw [h.threads, hunborn, hself]
      rfl
    · rw [hother hn]
      exact h.threads n
  · by_cases heq : n = g.created
    · subst heq
      rw [hself] at hn
      cases hn
    · rw [hother heq] at hn
      exact h.unborn n hn
  · cases hcreate
  · by_cases hn : n = g.created
    · subst hn
      rw [hself] at hconn ⊢
      obtain rfl : conn = some c := hconn
      obtain ⟨hin, hsent⟩ := h.waiting fd c hloop
      rw [h.unborn _ hunborn]
      refine .looping rfl (hears_start hfit hin) ?_
      show List.Forall₂ Wrote [] (g.sockets c).sent
      rw [hsent]
      exact .nil
    · rw [hother hn] at hconn ⊢
      exact h.wired n c hconn hfit

/-- **Every step of the process is one of the threads of `Sessions`, or none.** -/
theorem Recorded.step (h : Recorded g T) (hd : Process.Disciplined before g)
    (hs : Process.Step ((serverSystem Nat).restrict ok) g g') :
    ∃ T', System.Leads ((serverSystem Nat).restrict ok) T T' ∧ Recorded g' T' := by
  cases hs with
  | accept arrivals _ hloop hfd hfree => exact ⟨T, .refl, h.accepts hd _ arrivals⟩
  | acceptFails _ hloop =>
    refine ⟨T, .refl, h.shared, h.threads, h.engaged, h.unborn, fun fd c hcreate => ?_, h.wired⟩
    cases hcreate
  | create _ hloop => exact ⟨T, .refl, h.creates hd hloop⟩
  | @createFails fd conn _ hloop =>
    cases conn with
    | none =>
      refine ⟨T, .refl, h.shared, h.threads, h.engaged, h.unborn, fun fd c hcreate => ?_, h.wired⟩
      cases hcreate
    | some c =>
      refine ⟨T, .refl, h.shared, h.threads, h.engaged, h.unborn, fun fd c hcreate => ?_, h.wired⟩
      cases hcreate
  | read hlive hw hopen => exact h.read hd hlive hw hopen
  | call _ hw hstep => exact h.call hw hstep
  | write _ hw hnext hout => exact ⟨T, .refl, h.write hd hw hnext hout⟩
  | sigpipe _ hw hnext hout _ => exact ⟨T, .refl, h.write hd hw hnext hout⟩
  | answer _ hw => exact h.answer hw
  | terminate _ hw hstep => exact h.terminate hw hstep
  | close _ hw hclosed => exact ⟨T, .refl, h.close hw hclosed⟩
  | destroy _ hw hstep => exact h.destroy hw hstep
  | finish _ hw => exact h.finish hw

/-- **Refinement.**  A run of the process is a run of the system of `Sessions`, with the threads that
    were created, and with the lines of their connections as inputs. -/
theorem Recorded.leads (h : Recorded g T) (hd : Process.Disciplined before g)
    (hrun : Process.Reaches ((serverSystem Nat).restrict ok) g g') :
    ∃ T', System.Leads ((serverSystem Nat).restrict ok) T T' ∧ Recorded g' T' ∧
      Process.Disciplined before g' := by
  induction hrun with
  | refl => exact ⟨T, .refl, h, hd⟩
  | tail _ hstep ih =>
    obtain ⟨T₁, hlead, h₁, hd₁⟩ := ih
    obtain ⟨T₂, hlead', h₂⟩ := h₁.step hd₁ hstep
    exact ⟨T₂, hlead.trans hlead', h₂, hd₁.step hstep⟩

end Recorded

/-! ## The wire -/

/-- What it has completed, and what it is working on, came on its connection. -/
theorem Wired.lines {k : Socket} {past : List (Input × Session)} {todo : Option Input} {p : Progress}
    (h : Wired k past todo p) (hlive : ∀ s, p ≠ .dead s) :
    took past <+: k.inputs ∧ ∀ q x, p.thread = .busy q → todo = some x → took past ++ [x] <+: k.inputs := by
  have hless : ∀ {x}, took past ++ [x] <+: k.inputs → took past <+: k.inputs :=
    fun hx => List.IsPrefix.trans ⟨_, rfl⟩ hx
  cases h with
  | looping hopen hhears =>
    refine ⟨hhears.some_of, fun q x hbusy => ?_⟩
    rw [Progress.thread, if_pos hopen] at hbusy
    cases hbusy
  | handling hx hhears =>
    refine ⟨hless hhears.some_of, fun q x' _ hx' => ?_⟩
    cases hx.symm.trans hx'
    exact hhears.some_of
  | eof hx hall =>
    have hpre : took past ++ [_] <+: k.inputs := ⟨[], (List.append_nil _).trans hall⟩
    refine ⟨hless hpre, fun q x' _ hx' => ?_⟩
    cases hx.symm.trans hx'
    exact hpre
  | closing hx _ hpre =>
    refine ⟨hless hpre, fun q x' _ hx' => ?_⟩
    cases hx.symm.trans hx'
    exact hpre
  | ending hx hpre =>
    refine ⟨hless hpre, fun q x' _ hx' => ?_⟩
    cases hx.symm.trans hx'
    exact hpre
  | ended hpre =>
    refine ⟨hpre, fun q x' hbusy => ?_⟩
    cases hbusy
  | dead => exact absurd rfl (hlive _)

end BasicServer
