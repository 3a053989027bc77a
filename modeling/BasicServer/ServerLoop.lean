/-
  The server process: `server_loop`, its client threads, and the descriptors that they share.

  `server_loop` accepts connections for ever and starts a thread for each; `client_worker` carries out
  the lines that arrive on its connection, writes the responses, closes the descriptor and destroys
  the `ClientConnection`.  A failed `accept` and a failed `pthread_create` are only logged, and nobody
  looks at what `rio_writen` returns; but a write to a client that has gone may raise SIGPIPE, which
  ends the process.  The numbers of closed descriptors are used again.

  1. **Descriptors** (`descriptors`) — a thread's descriptor stands for its own connection from
     `accept` until the thread itself closes it, once.  What else is open was open before, or belongs
     to a connection whose thread could not be created.
  2. `close` leaves nothing behind (`OwnDescriptors.closed`, `OwnDescriptors.used`).
-/
import BasicServer.Rio
import BasicServer.Lib.Handles
import Mathlib.Logic.Relation

namespace BasicServer

open Function (update)
open Handles (Held)
open Message (maxEncodedLen)

/-! ## The process -/

/-- What a descriptor is open for: something that was opened before `server_loop`, under that number,
    or a connection. -/
inductive File where
  | before (fd : Int)
  | client (c : Nat)

/-- A connection: all that arrives on it, what of that has not been read yet, and what each
    `rio_writen` has returned and written. -/
structure Socket where
  arrivals : Feed Char := []
  incoming : Feed Char := []
  sent : List (Int × Str) := []

/-- Where a client thread is: not created, at the head of the loop in `chat_with_client`, in its body,
    after `close`, or at its end.  `written` are the responses of the iteration that were handed to
    `rio_writen`.  `dead` is a thread whose exception has ended the process. -/
inductive Progress where
  | unborn
  | looping (fdbuf : Rio) (s : Session)
  | handling (fdbuf : Rio) (written : List Str) (p : Prog calls (Except Exn Unit × Session))
  | ending (p : Prog calls Session)
  | ended (s : Session)
  | dead (s : Session)

/-- A client thread.  `conn` is the connection for which `accept` returned its descriptor. -/
structure Worker where
  clientFd : Int := 0
  conn : Option Nat := none
  progress : Progress := .unborn

/-- What `server_loop` is going to call. -/
inductive Loop where
  | accept
  | create (clientFd : Int) (conn : Option Nat)

/-- The responses of an iteration, as far as it has come. -/
def responses : Prog calls (Except Exn Unit × Session) → List Str
  | .ret r => r.2.replies
  | .call o _ => o.self.replies

/-- The server process.  `leaked` are the descriptors of connections that got no thread; `killed` says
    that SIGPIPE, for which the server has no handler, has ended it. -/
structure Process where
  server : Server Nat := {}
  fds : Int → Option File
  sockets : Nat → Socket := fun _ => {}
  accepted : Nat := 0
  loop : Loop := .accept
  workers : Nat → Worker := fun _ => {}
  created : Nat := 0
  leaked : Nat → Option Int := fun _ => none
  killed : Bool := false

/-- The process when it enters `server_loop`. -/
def boot (before : Int → Bool) : Process where
  fds fd := if before fd then some (.before fd) else none

namespace Process

/-- Neither an exception nor a signal has ended it. -/
def Live (g : Process) : Prop := g.server.aborted = false ∧ g.killed = false

instance (g : Process) : Decidable g.Live := inferInstanceAs (Decidable (_ ∧ _))

/-- What `read` will find under a descriptor; if it is not open for a connection, an error. -/
def feed (g : Process) (fd : Int) : Feed Char :=
  match g.fds fd with
  | some (.client c) => (g.sockets c).incoming
  | _ => [.failure]

/-- Change the connection that a descriptor is open for. -/
def onSocket (g : Process) (fd : Int) (f : Socket → Socket) : Process :=
  { g with
    sockets := match g.fds fd with
      | some (.client c) => update g.sockets c (f (g.sockets c))
      | _ => g.sockets }

/-- A thread goes on. -/
def goes (g : Process) (n : Nat) (p : Progress) : Process :=
  { g with workers := update g.workers n { g.workers n with progress := p } }

/-- `accept` returns a descriptor that was free, for a new connection. -/
def accepts (g : Process) (fd : Int) (arrivals : Feed Char) : Process :=
  { g with
    fds := update g.fds fd (some (.client g.accepted))
    sockets := update g.sockets g.accepted { arrivals, incoming := arrivals }
    accepted := g.accepted + 1
    loop := .create fd (some g.accepted) }

/-- `new ClientConnection`, and `pthread_create`. -/
def creates (g : Process) (fd : Int) (conn : Option Nat) : Process :=
  { g with
    loop := .accept
    workers := update g.workers g.created ⟨fd, conn, .looping rioReadinitb {}⟩
    created := g.created + 1 }

/-- `new ClientConnection`, and a `pthread_create` that fails: the connection is left as it is. -/
def abandons (g : Process) (fd : Int) : Option Nat → Process
  | some c => { g with loop := .accept, leaked := update g.leaked c (some fd) }
  | none => { g with loop := .accept }

/-- `rio_readlineb(&m_fdbuf, buf, sizeof(m_fdbuf))`, and what the loop does then. -/
def reads (g : Process) (n : Nat) (fdbuf : Rio) (s : Session) : Process :=
  let fd := (g.workers n).clientFd
  let r := fdbuf.readlineb (g.feed fd) CallSite.chatWithClient.maxlen
  (g.onSocket fd fun k => { k with incoming := r.fd }).goes n
    (.handling r.rio []
      (iteration (if r.ret ≤ 0 then .eof else .line (cString r.buf)) { s with replies := [] }))

/-- `rio_writen(m_client_fd, ..)` has returned and written `w`. -/
def writes (g : Process) (n : Nat) (w : Int × Str) : Process :=
  g.onSocket (g.workers n).clientFd fun k => { k with sent := k.sent ++ [w] }

/-- `close(m_client_fd)`, and then the destructor. -/
def closes (g : Process) (n : Nat) (s : Session) : Process :=
  { g with fds := update g.fds (g.workers n).clientFd none }.goes n
    (.ending ((destructor s).bind fun r => .ret r.2))

end Process

/-- `rio_writen` may return and write `w`, when it is to write `text`. -/
def Wrote (text : Str) (w : Int × Str) : Prop :=
  ∃ calls interrupted, Rio.writen calls interrupted text = some w

/-- One step of `server_loop` or of a client thread, whose calls to the tables and the mutexes are those
    of `M`.  A thread makes its next call when its responses so far are written.  What it reads and
    writes is nobody else's, so a line is read in one step, and a response is written in one. -/
inductive Process.Step (M : System Nat (Server Nat) Session Input calls) : Process → Process → Prop
  | accept {g : Process} {fd : Int} (arrivals : Feed Char) (hlive : g.Live)
      (hloop : g.loop = .accept) (hfd : 0 ≤ fd) (hfree : g.fds fd = none) :
      Step M g (g.accepts fd arrivals)
  | acceptFails {g : Process} (hlive : g.Live) (hloop : g.loop = .accept) :
      Step M g { g with loop := .create (-1) none }
  | create {g : Process} {fd : Int} {conn : Option Nat} (hlive : g.Live)
      (hloop : g.loop = .create fd conn) : Step M g (g.creates fd conn)
  | createFails {g : Process} {fd : Int} {conn : Option Nat} (hlive : g.Live)
      (hloop : g.loop = .create fd conn) : Step M g (g.abandons fd conn)
  | read {g : Process} {n : Nat} {fdbuf : Rio} {s : Session} (hlive : g.Live)
      (hw : (g.workers n).progress = .looping fdbuf s) (hopen : s.loopInProgress = true) :
      Step M g (g.reads n fdbuf s)
  | call {g : Process} {n : Nat} {fdbuf : Rio} {o : calls.Op}
      {k : calls.Ans o → Prog calls (Except Exn Unit × Session)} {r : calls.Ans o} {srv : Server Nat}
      (hlive : g.Live) (hw : (g.workers n).progress = .handling fdbuf o.self.replies (.call o k))
      (hs : M.step n o g.server r srv) :
      Step M g ({ g with server := srv }.goes n (.handling fdbuf o.self.replies (k r)))
  | write {g : Process} {n : Nat} {fdbuf : Rio} {written : List Str}
      {p : Prog calls (Except Exn Unit × Session)} {text : Str} {w : Int × Str} (hlive : g.Live)
      (hw : (g.workers n).progress = .handling fdbuf written p)
      (hnext : written ++ [text] <+: responses p) (hout : Wrote text w) :
      Step M g ((g.writes n w).goes n (.handling fdbuf (written ++ [text]) p))
  | sigpipe {g : Process} {n c : Nat} {fdbuf : Rio} {written : List Str}
      {p : Prog calls (Except Exn Unit × Session)} {text out : Str} (hlive : g.Live)
      (hw : (g.workers n).progress = .handling fdbuf written p)
      (hnext : written ++ [text] <+: responses p) (hout : Wrote text (-1, out))
      (hfd : g.fds (g.workers n).clientFd = some (.client c)) :
      -- `rio_writen` does not return, but what it has written may have arrived
      Step M g ({ g.writes n (-1, out) with killed := true }.goes n
        (.handling fdbuf (written ++ [text]) p))
  | answer {g : Process} {n : Nat} {fdbuf : Rio} {s : Session} (hlive : g.Live)
      (hw : (g.workers n).progress = .handling fdbuf s.replies (.ret (.ok (), s))) :
      Step M g (g.goes n (.looping fdbuf s))
  | terminate {g : Process} {n : Nat} {fdbuf : Rio} {e : Exn} {s : Session}
      {r : calls.Ans ⟨.terminate, s⟩} {srv : Server Nat} (hlive : g.Live)
      (hw : (g.workers n).progress = .handling fdbuf s.replies (.ret (.error e, s)))
      (hs : M.step n ⟨.terminate, s⟩ g.server r srv) :
      Step M g ({ g with server := srv }.goes n (.dead s))
  | close {g : Process} {n : Nat} {fdbuf : Rio} {s : Session} (hlive : g.Live)
      (hw : (g.workers n).progress = .looping fdbuf s) (hopen : s.loopInProgress = false) :
      Step M g (g.closes n s)
  | destroy {g : Process} {n : Nat} {o : calls.Op} {k : calls.Ans o → Prog calls Session}
      {r : calls.Ans o} {srv : Server Nat} (hlive : g.Live)
      (hw : (g.workers n).progress = .ending (.call o k)) (hs : M.step n o g.server r srv) :
      Step M g ({ g with server := srv }.goes n (.ending (k r)))
  | finish {g : Process} {n : Nat} {s : Session} (hlive : g.Live)
      (hw : (g.workers n).progress = .ending (.ret s)) : Step M g (g.goes n (.ended s))

/-- What the process may come to. -/
def Process.Reaches (M : System Nat (Server Nat) Session Input calls) : Process → Process → Prop :=
  Relation.ReflTransGen (Process.Step M)

/-! ## Descriptors -/

/-- Whom an open descriptor belongs to. -/
inductive Owner where
  | before (fd : Int)
  | loop
  | worker (n : Nat)
  | leak (c : Nat)
  deriving DecidableEq

/-- The thread has been created, and has not called `close`. -/
def Progress.isOpen : Progress → Bool
  | .looping _ _ => true
  | .handling _ _ _ => true
  | .dead _ => true
  | .unborn => false
  | .ending _ => false
  | .ended _ => false

/-- The descriptor of a thread, for the connection for which it was returned. -/
def Worker.holds (w : Worker) : Option (Int × File) :=
  if w.progress.isOpen then w.conn.map fun c => (w.clientFd, .client c) else none

/-- The descriptor for which a thread is to be created. -/
def Loop.holds : Loop → Option (Int × File)
  | .accept => none
  | .create fd conn => conn.map fun c => (fd, .client c)

namespace Process

/-- Who holds what. -/
def holds (before : Int → Bool) (g : Process) : Owner → Option (Int × File)
  | .before fd => if before fd then some (fd, .before fd) else none
  | .loop => g.loop.holds
  | .worker n => (g.workers n).holds
  | .leak c => (g.leaked c).map fun fd => (fd, .client c)

section Simp

variable (g : Process) (n : Nat) (p : Progress) (fd : Int) (f : Socket → Socket)

theorem onSocket_client {c : Nat} (h : g.fds fd = some (.client c)) :
    (g.onSocket fd f).sockets = update g.sockets c (f (g.sockets c)) := by
  unfold onSocket
  rw [h]

theorem onSocket_other {c : Nat} (h : g.fds fd ≠ some (.client c)) :
    (g.onSocket fd f).sockets c = g.sockets c := by
  unfold onSocket
  split
  · rename_i c' hc'
    have hne : c ≠ c' := fun heq => h (heq ▸ hc')
    exact Function.update_of_ne hne ..
  · rfl

theorem goes_self : ((g.goes n p).workers n) = { g.workers n with progress := p } :=
  Function.update_self ..

theorem goes_ne {m : Nat} (h : m ≠ n) : (g.goes n p).workers m = g.workers m :=
  Function.update_of_ne h ..

end Simp

/-- Nothing was opened or closed. -/
structure SameFiles (g g' : Process) : Prop where
  fds : g'.fds = g.fds
  accepted : g'.accepted = g.accepted
  loop : g'.loop = g.loop
  created : g'.created = g.created
  leaked : g'.leaked = g.leaked
  clientFd : ∀ n, (g'.workers n).clientFd = (g.workers n).clientFd
  conn : ∀ n, (g'.workers n).conn = (g.workers n).conn
  isOpen : ∀ n, (g'.workers n).progress.isOpen = (g.workers n).progress.isOpen
  unborn : ∀ n, (g.workers n).progress = .unborn → (g'.workers n).progress = .unborn

theorem SameFiles.holds {g g' : Process} (h : SameFiles g g') (before : Int → Bool) :
    g'.holds before = g.holds before := by
  funext o
  cases o with
  | before fd => rfl
  | loop => exact congrArg Loop.holds h.loop
  | worker n =>
    show (g'.workers n).holds = (g.workers n).holds
    rw [Worker.holds, Worker.holds, h.isOpen, h.conn, h.clientFd]
  | leak c =>
    show (g'.leaked c).map _ = (g.leaked c).map _
    rw [h.leaked]

/-- A thread goes on, with its descriptor open or closed as before. -/
theorem SameFiles.goes {g g' : Process} {n : Nat} {p q : Progress} (hfds : g'.fds = g.fds)
    (haccepted : g'.accepted = g.accepted) (hloop : g'.loop = g.loop) (hworkers : g'.workers = g.workers)
    (hcreated : g'.created = g.created) (hleaked : g'.leaked = g.leaked)
    (hw : (g.workers n).progress = q) (hborn : q ≠ .unborn) (hopen : p.isOpen = q.isOpen) :
    SameFiles g (g'.goes n p) := by
  have hself : (g'.goes n p).workers n = { g.workers n with progress := p } := by
    rw [goes_self, hworkers]
  have hother : ∀ {m}, m ≠ n → (g'.goes n p).workers m = g.workers m := by
    intro m hm
    rw [goes_ne _ _ _ hm, hworkers]
  constructor
  case fds => exact hfds
  case accepted => exact haccepted
  case loop => exact hloop
  case created => exact hcreated
  case leaked => exact hleaked
  case clientFd =>
    intro m
    by_cases hm : m = n
    · rw [hm, hself]
    · rw [hother hm]
  case conn =>
    intro m
    by_cases hm : m = n
    · rw [hm, hself]
    · rw [hother hm]
  case isOpen =>
    intro m
    by_cases hm : m = n
    · rw [hm, hself, hw]
      exact hopen
    · rw [hother hm]
  case unborn =>
    intro m hunborn
    by_cases hm : m = n
    · rw [hm, hw] at hunborn
      exact absurd hunborn hborn
    · rw [hother hm]
      exact hunborn

/-- What the descriptors stand for. -/
structure Disciplined (before : Int → Bool) (g : Process) : Prop where
  held : Held g.fds (g.holds before)
  nonneg : ∀ fd, fd < 0 → g.fds fd = none
  known : ∀ fd c, g.fds fd = some (.client c) → c < g.accepted
  numbered : ∀ n c, (g.workers n).conn = some c → c < g.accepted
  fresh : ∀ n, g.created ≤ n → (g.workers n).progress = .unborn
  failed : ∀ n, (g.workers n).progress.isOpen = true → (g.workers n).conn = none →
    (g.workers n).clientFd = -1
  loopFailed : ∀ fd, g.loop = .create fd none → fd = -1
  closed : ∀ n c, (g.workers n).conn = some c → (g.workers n).progress.isOpen = false →
    ∀ fd, g.fds fd ≠ some (.client c)

variable {before : Int → Bool} {g g' : Process}

theorem Disciplined.same (h : Disciplined before g) (hs : SameFiles g g') : Disciplined before g' := by
  constructor
  case held =>
    rw [hs.fds, hs.holds]
    exact h.held
  case nonneg =>
    rw [hs.fds]
    exact h.nonneg
  case known =>
    rw [hs.fds, hs.accepted]
    exact h.known
  case numbered =>
    intro n c hc
    rw [hs.conn] at hc
    rw [hs.accepted]
    exact h.numbered n c hc
  case fresh =>
    intro n hn
    rw [hs.created] at hn
    exact hs.unborn n (h.fresh n hn)
  case failed =>
    intro n hopen hconn
    rw [hs.isOpen] at hopen
    rw [hs.conn] at hconn
    rw [hs.clientFd]
    exact h.failed n hopen hconn
  case loopFailed =>
    rw [hs.loop]
    exact h.loopFailed
  case closed =>
    intro n c hconn hopen fd
    rw [hs.conn] at hconn
    rw [hs.isOpen] at hopen
    rw [hs.fds]
    exact h.closed n c hconn hopen fd

theorem holds_unborn {w : Worker} (h : w.progress = .unborn) : w.holds = none := by
  rw [Worker.holds, h]
  rfl

theorem Disciplined.accepts (h : Disciplined before g) (hloop : g.loop = .accept) {fd : Int}
    (hfd : 0 ≤ fd) (hfree : g.fds fd = none) (arrivals : Feed Char) :
    Disciplined before (g.accepts fd arrivals) := by
  have hself : (g.accepts fd arrivals).fds fd = some (.client g.accepted) := Function.update_self ..
  have hother : ∀ {fd'}, fd' ≠ fd → (g.accepts fd arrivals).fds fd' = g.fds fd' :=
    fun hne => Function.update_of_ne hne ..
  have hholds : (g.accepts fd arrivals).holds before
      = update (g.holds before) .loop (some (fd, .client g.accepted)) := by
    refine Function.eq_update_iff.mpr ⟨rfl, fun o ho => ?_⟩
    cases o with
    | loop => exact absurd rfl ho
    | before _ | worker _ | leak _ => rfl
  constructor
  case held =>
    rw [hholds]
    refine h.held.opens hfree ?_ fun q y hq => ?_
    · show g.loop.holds = none
      rw [hloop]
      rfl
    · exact Nat.lt_irrefl _ (h.known y g.accepted (h.held.mine hq))
  case nonneg =>
    intro fd' hneg
    rw [hother (by omega)]
    exact h.nonneg fd' hneg
  case known =>
    intro fd' c hc
    show c < g.accepted + 1
    by_cases heq : fd' = fd
    · subst heq
      rw [hself] at hc
      cases hc
      omega
    · rw [hother heq] at hc
      have hold := h.known fd' c hc
      omega
  case numbered =>
    intro n c hc
    exact Nat.lt_succ_of_lt (h.numbered n c hc)
  case fresh => exact h.fresh
  case failed => exact h.failed
  case loopFailed =>
    intro fd' hcreate
    cases hcreate
  case closed =>
    intro n c hconn hopen fd' hfd'
    by_cases heq : fd' = fd
    · subst heq
      rw [hself] at hfd'
      cases hfd'
      exact Nat.lt_irrefl _ (h.numbered n _ hconn)
    · rw [hother heq] at hfd'
      exact h.closed n c hconn hopen fd' hfd'

theorem Disciplined.creates (h : Disciplined before g) {fd : Int} {conn : Option Nat}
    (hloop : g.loop = .create fd conn) : Disciplined before (g.creates fd conn) := by
  have hunborn : (g.workers g.created).holds = none := holds_unborn (h.fresh _ (Nat.le_refl _))
  have hself : (g.creates fd conn).workers g.created = ⟨fd, conn, .looping rioReadinitb {}⟩ :=
    Function.update_self ..
  have hother : ∀ {n}, n ≠ g.created → (g.creates fd conn).workers n = g.workers n :=
    fun hn => Function.update_of_ne hn ..
  have hlholds : g.holds before .loop = conn.map fun c => (fd, .client c) :=
    congrArg Loop.holds hloop
  constructor
  case held =>
    cases conn with
    | none =>
      have hholds : (g.creates fd none).holds before = g.holds before := by
        funext o
        cases o with
        | before _ | leak _ => rfl
        | loop => exact hlholds.symm
        | worker n =>
          show ((g.creates fd none).workers n).holds = (g.workers n).holds
          by_cases hn : n = g.created
          · subst hn
            rw [hself, hunborn]
            rfl
          · rw [hother hn]
      rw [hholds]
      exact h.held
    | some c =>
      have hholds : (g.creates fd (some c)).holds before
          = update (update (g.holds before) .loop none) (.worker g.created) (some (fd, .client c)) := by
        refine Handles.eq_update_update rfl (congrArg Worker.holds hself)
          fun o ho ho' => ?_
        cases o with
        | loop => exact absurd rfl ho
        | before _ | leak _ => rfl
        | worker n => exact congrArg Worker.holds (hother fun hn => ho' (congrArg Owner.worker hn))
      rw [hholds]
      exact h.held.passes hlholds hunborn
  case nonneg => exact h.nonneg
  case known => exact h.known
  case numbered =>
    intro n c hc
    by_cases hn : n = g.created
    · subst hn
      rw [hself] at hc
      obtain rfl : conn = some c := hc
      exact h.known fd c (h.held.mine hlholds)
    · rw [hother hn] at hc
      exact h.numbered n c hc
  case fresh =>
    intro n hn
    have hn' : g.created + 1 ≤ n := hn
    rw [hother (by omega)]
    exact h.fresh n (by omega)
  case failed =>
    intro n hopen hnone
    by_cases hn : n = g.created
    · subst hn
      rw [hself] at hnone ⊢
      obtain rfl : conn = none := hnone
      exact h.loopFailed fd hloop
    · rw [hother hn] at hopen hnone ⊢
      exact h.failed n hopen hnone
  case loopFailed =>
    intro fd' hcreate
    cases hcreate
  case closed =>
    intro n c hconn hopen
    by_cases hn : n = g.created
    · subst hn
      rw [hself] at hopen
      cases hopen
    · rw [hother hn] at hconn hopen
      exact h.closed n c hconn hopen

theorem Disciplined.abandons (h : Disciplined before g) {fd : Int} {conn : Option Nat}
    (hloop : g.loop = .create fd conn) : Disciplined before (g.abandons fd conn) := by
  have hlholds : g.holds before .loop = conn.map fun c => (fd, .client c) :=
    congrArg Loop.holds hloop
  cases conn with
  | none =>
    have hholds : (g.abandons fd none).holds before = g.holds before := by
      funext o
      cases o with
      | before _ | worker _ | leak _ => rfl
      | loop => exact hlholds.symm
    refine ⟨?_, h.nonneg, h.known, h.numbered, h.fresh, h.failed, nofun, h.closed⟩
    rw [hholds]
    exact h.held
  | some c =>
    -- whoever holds the connection now, it is the loop
    have hidle : g.holds before (.leak c) = none := by
      cases hc : g.leaked c with
      | none =>
        show (g.leaked c).map _ = none
        rw [hc]
        rfl
      | some fd' =>
        have hleak : g.holds before (.leak c) = some (fd', .client c) := by
          show (g.leaked c).map _ = _
          rw [hc]
          rfl
        cases h.held.single hleak hlholds
    have hholds : (g.abandons fd (some c)).holds before
        = update (update (g.holds before) .loop none) (.leak c) (some (fd, .client c)) := by
      refine Handles.eq_update_update rfl ?_ fun o ho ho' => ?_
      · show (update g.leaked c (some fd) c).map _ = _
        rw [Function.update_self]
        rfl
      · cases o with
        | loop => exact absurd rfl ho
        | before _ | worker _ => rfl
        | leak c' =>
          show (update g.leaked c (some fd) c').map _ = (g.leaked c').map _
          rw [Function.update_of_ne fun hc => ho' (congrArg Owner.leak hc)]
    refine ⟨?_, h.nonneg, h.known, h.numbered, h.fresh, h.failed, nofun, h.closed⟩
    rw [hholds]
    exact h.held.passes hlholds hidle

theorem Disciplined.closes (h : Disciplined before g) {n : Nat} {fdbuf : Rio} {s : Session}
    (hw : (g.workers n).progress = .looping fdbuf s) : Disciplined before (g.closes n s) := by
  have hopen : (g.workers n).progress.isOpen = true := by
    rw [hw]
    rfl
  have hself : (g.closes n s).workers n
      = { g.workers n with progress := .ending ((destructor s).bind fun r => .ret r.2) } :=
    Function.update_self ..
  have hother : ∀ {m}, m ≠ n → (g.closes n s).workers m = g.workers m :=
    fun hm => Function.update_of_ne hm ..
  have hwholds : g.holds before (.worker n)
      = (g.workers n).conn.map fun c => ((g.workers n).clientFd, .client c) := if_pos hopen
  have hfds : (g.closes n s).fds = update g.fds (g.workers n).clientFd none := rfl
  have hless : ∀ {fd file}, (g.closes n s).fds fd = some file → g.fds fd = some file := by
    intro fd file hfile
    rw [hfds] at hfile
    by_cases heq : fd = (g.workers n).clientFd
    · rw [heq, Function.update_self] at hfile
      cases hfile
    · rwa [Function.update_of_ne heq] at hfile
  constructor
  case held =>
    have hholds : (g.closes n s).holds before = update (g.holds before) (.worker n) none := by
      refine Function.eq_update_iff.mpr ⟨congrArg Worker.holds hself, fun o ho => ?_⟩
      cases o with
      | before _ | loop | leak _ => rfl
      | worker m => exact congrArg Worker.holds (hother fun hm => ho (congrArg Owner.worker hm))
    rw [hholds, hfds]
    cases hconn : (g.workers n).conn with
    | some c =>
      rw [hconn] at hwholds
      exact h.held.closes hwholds
    | none =>
      -- `close(-1)`
      have hfree : g.fds (g.workers n).clientFd = none := by
        rw [h.failed n hopen hconn]
        exact h.nonneg _ (by decide)
      rw [hconn] at hwholds
      have hidle : g.holds before (.worker n) = none := hwholds
      rw [← hfree, ← hidle, Function.update_eq_self, Function.update_eq_self]
      exact h.held
  case nonneg =>
    intro fd hneg
    cases hfd : (g.closes n s).fds fd with
    | none => rfl
    | some file =>
      have hold := hless hfd
      rw [h.nonneg fd hneg] at hold
      cases hold
  case known =>
    intro fd c hfd
    exact h.known fd c (hless hfd)
  case numbered =>
    intro m c hc
    by_cases hm : m = n
    · subst hm
      rw [hself] at hc
      exact h.numbered m c hc
    · rw [hother hm] at hc
      exact h.numbered m c hc
  case fresh =>
    intro m hm
    have hunborn := h.fresh m hm
    by_cases heq : m = n
    · rw [heq, hw] at hunborn
      cases hunborn
    · rw [hother heq]
      exact hunborn
  case failed =>
    intro m hopen' hnone
    by_cases hm : m = n
    · subst hm
      rw [hself] at hopen'
      cases hopen'
    · rw [hother hm] at hopen' hnone ⊢
      exact h.failed m hopen' hnone
  case loopFailed => exact h.loopFailed
  case closed =>
    intro m c hconn hclosed fd hfd
    by_cases hm : m = n
    · subst hm
      rw [hself] at hconn
      have hconn' : (g.workers m).conn = some c := hconn
      rw [hconn'] at hwholds
      -- nobody else had it
      obtain ⟨o, ho⟩ := h.held.owner (hless hfd)
      obtain rfl := h.held.single ho hwholds
      rw [hwholds] at ho
      cases ho
      rw [hfds, Function.update_self] at hfd
      cases hfd
    · rw [hother hm] at hconn hclosed
      exact h.closed m c hconn hclosed fd (hless hfd)

variable {M : System Nat (Server Nat) Session Input calls}

/-- **Every step keeps the descriptors in order.** -/
theorem Disciplined.step (h : Disciplined before g) (hs : Step M g g') : Disciplined before g' := by
  cases hs with
  | accept arrivals _ hloop hfd hfree => exact h.accepts hloop hfd hfree arrivals
  | acceptFails _ hloop =>
    have hholds : ({ g with loop := .create (-1) none } : Process).holds before = g.holds before := by
      funext o
      cases o with
      | before _ | worker _ | leak _ => rfl
      | loop => exact (congrArg Loop.holds hloop).symm
    refine ⟨?_, h.nonneg, h.known, h.numbered, h.fresh, h.failed, fun fd hfd => ?_, h.closed⟩
    · rw [hholds]
      exact h.held
    · cases hfd
      rfl
  | create _ hloop => exact h.creates hloop
  | createFails _ hloop => exact h.abandons hloop
  | read _ hw _ => exact h.same (.goes rfl rfl rfl rfl rfl rfl hw (by intro h; cases h) rfl)
  | call _ hw _ => exact h.same (.goes rfl rfl rfl rfl rfl rfl hw (by intro h; cases h) rfl)
  | write _ hw _ _ => exact h.same (.goes rfl rfl rfl rfl rfl rfl hw (by intro h; cases h) rfl)
  | sigpipe _ hw _ _ _ => exact h.same (.goes rfl rfl rfl rfl rfl rfl hw (by intro h; cases h) rfl)
  | answer _ hw => exact h.same (.goes rfl rfl rfl rfl rfl rfl hw (by intro h; cases h) rfl)
  | terminate _ hw _ => exact h.same (.goes rfl rfl rfl rfl rfl rfl hw (by intro h; cases h) rfl)
  | close _ hw _ => exact h.closes hw
  | destroy _ hw _ => exact h.same (.goes rfl rfl rfl rfl rfl rfl hw (by intro h; cases h) rfl)
  | finish _ hw => exact h.same (.goes rfl rfl rfl rfl rfl rfl hw (by intro h; cases h) rfl)

theorem disciplined_boot (hbefore : ∀ fd, before fd = true → 0 ≤ fd) :
    Disciplined before (boot before) := by
  have hfds : ∀ {fd file}, (boot before).fds fd = some file → before fd = true ∧ file = .before fd := by
    intro fd file hfile
    have hif : (if before fd then some (File.before fd) else none) = some file := hfile
    split at hif
    · rename_i hfd
      exact ⟨hfd, (Option.some.inj hif).symm⟩
    · cases hif
  have hholds : ∀ {o fd file}, (boot before).holds before o = some (fd, file) →
      o = .before fd ∧ before fd = true ∧ file = .before fd := by
    intro o fd file ho
    cases o with
    | before fd' =>
      have hif : (if before fd' then some (fd', File.before fd') else none) = some (fd, file) := ho
      split at hif
      · rename_i hfd
        cases hif
        exact ⟨rfl, hfd, rfl⟩
      · cases hif
    | loop => cases ho
    | worker n => cases ho
    | leak c => cases ho
  constructor
  case held =>
    constructor
    case mine =>
      intro o fd file ho
      obtain ⟨-, hfd, rfl⟩ := hholds ho
      exact if_pos hfd
    case owner =>
      intro fd file hfile
      obtain ⟨hfd, rfl⟩ := hfds hfile
      exact ⟨.before fd, if_pos hfd⟩
    case alone =>
      intro o o' fd file file' ho ho'
      obtain ⟨rfl, -, -⟩ := hholds ho
      obtain ⟨rfl, -, -⟩ := hholds ho'
      rfl
    case single =>
      intro o o' fd fd' file ho ho'
      obtain ⟨rfl, -, rfl⟩ := hholds ho
      obtain ⟨rfl, -, heq⟩ := hholds ho'
      exact congrArg Owner.before (File.before.inj heq)
  case nonneg =>
    intro fd hneg
    cases hfile : (boot before).fds fd with
    | none => rfl
    | some file =>
      have hpos := hbefore fd (hfds hfile).1
      omega
  case known =>
    intro fd c hfile
    cases (hfds hfile).2
  case numbered =>
    intro n c hc
    cases hc
  case fresh => exact fun n _ => rfl
  case failed =>
    intro n hopen
    cases hopen
  case loopFailed =>
    intro fd hloop
    cases hloop
  case closed =>
    intro n c hc
    cases hc

theorem Disciplined.reaches (h : Disciplined before g) (hrun : Reaches M g g') : Disciplined before g' := by
  induction hrun with
  | refl => exact h
  | tail _ hstep ih => exact ih.step hstep

theorem holds_worker {n c : Nat} (hconn : (g.workers n).conn = some c)
    (hopen : (g.workers n).progress.isOpen = true) :
    g.holds before (.worker n) = some ((g.workers n).clientFd, .client c) := by
  show (g.workers n).holds = _
  rw [Worker.holds, if_pos hopen, hconn]
  rfl

/-- Each descriptor belongs to one owner. -/
structure OwnDescriptors (before : Int → Bool) (g : Process) : Prop where
  /-- The descriptor of a thread stands for its connection, until the thread closes it. -/
  own : ∀ n c, (g.workers n).conn = some c → (g.workers n).progress.isOpen = true →
    g.fds (g.workers n).clientFd = some (.client c)
  /-- Then its connection is not open any more. -/
  closed : ∀ n c, (g.workers n).conn = some c → (g.workers n).progress.isOpen = false →
    ∀ fd, g.fds fd ≠ some (.client c)
  /-- A thread for which `accept` has failed has no descriptor. -/
  failed : ∀ n, (g.workers n).conn = none → (g.workers n).progress.isOpen = true →
    g.fds (g.workers n).clientFd = none
  /-- Threads share no descriptor, and no connection. -/
  apart : ∀ n m c, n ≠ m → (g.workers n).conn = some c → (g.workers n).progress.isOpen = true →
    (g.workers m).progress.isOpen = true →
    (g.workers n).clientFd ≠ (g.workers m).clientFd ∧ (g.workers m).conn ≠ some c
  /-- What was open before is open. -/
  before : ∀ fd, before fd = true → g.fds fd = some (.before fd)
  /-- What else is open has a thread, or is about to get one, or could not get one. -/
  used : ∀ fd c, g.fds fd = some (.client c) → g.loop = .create fd (some c) ∨ g.leaked c = some fd ∨
    ∃ n, g.workers n = ⟨fd, some c, (g.workers n).progress⟩ ∧ (g.workers n).progress.isOpen = true

theorem Disciplined.own (h : Disciplined before g) : OwnDescriptors before g := by
  have hfailed : ∀ n, (g.workers n).conn = none → (g.workers n).progress.isOpen = true →
      g.fds (g.workers n).clientFd = none := by
    intro n hconn hopen
    rw [h.failed n hopen hconn]
    exact h.nonneg _ (by decide)
  constructor
  case own =>
    intro n c hconn hopen
    exact h.held.mine (holds_worker hconn hopen)
  case closed => exact h.closed
  case failed => exact hfailed
  case apart =>
    intro n m c hne hconn hopen hopen'
    have hn : g.holds before (.worker n) = _ := holds_worker hconn hopen
    cases hconn' : (g.workers m).conn with
    | none =>
      refine ⟨fun heq => ?_, by intro heq; cases heq⟩
      have hnone := hfailed m hconn' hopen'
      rw [← heq, h.held.mine hn] at hnone
      cases hnone
    | some c' =>
      have hm : g.holds before (.worker m) = _ := holds_worker hconn' hopen'
      obtain ⟨hfd, hfile⟩ := h.held.apart hn hm fun ho => hne (Owner.worker.inj ho)
      exact ⟨hfd, fun heq => hfile (congrArg File.client (Option.some.inj heq).symm)⟩
  case before =>
    intro fd hfd
    have hmain : g.holds before (.before fd) = some (fd, .before fd) := if_pos hfd
    exact h.held.mine hmain
  case used =>
    intro fd c hfd
    obtain ⟨o, ho⟩ := h.held.owner hfd
    cases o with
    | before fd' =>
      have hif : (if before fd' then some (fd', File.before fd') else none) = some (fd, .client c) := ho
      split at hif <;> cases hif
    | loop =>
      have hl : g.loop.holds = some (fd, .client c) := ho
      cases hloop : g.loop with
      | accept =>
        rw [hloop] at hl
        cases hl
      | create fd' conn =>
        rw [hloop] at hl
        obtain ⟨c', rfl, heq⟩ := Option.map_eq_some_iff.mp hl
        cases heq
        exact .inl rfl
    | worker n =>
      have hw : (if (g.workers n).progress.isOpen then
          (g.workers n).conn.map fun c => ((g.workers n).clientFd, File.client c) else none)
          = some (fd, .client c) := ho
      split at hw
      · rename_i hopen
        obtain ⟨c', hconn, heq⟩ := Option.map_eq_some_iff.mp hw
        obtain ⟨hfd', hc'⟩ := Prod.mk.inj heq
        cases hc'
        refine .inr (.inr ⟨n, ?_, hopen⟩)
        rw [← hfd', ← hconn]
      · cases hw
    | leak c' =>
      have hl : (g.leaked c').map (fun fd => (fd, File.client c')) = some (fd, .client c) := ho
      obtain ⟨fd', hleaked, heq⟩ := Option.map_eq_some_iff.mp hl
      cases heq
      exact .inr (.inl hleaked)

/-- What the descriptor of a thread is open for is its connection. -/
theorem Disciplined.mine (h : Disciplined before g) {n c : Nat}
    (hopen : (g.workers n).progress.isOpen = true)
    (hfd : g.fds (g.workers n).clientFd = some (.client c)) : (g.workers n).conn = some c := by
  cases hconn : (g.workers n).conn with
  | none =>
    rw [h.own.failed n hconn hopen] at hfd
    cases hfd
  | some c' =>
    rw [h.own.own n c' hconn hopen] at hfd
    exact congrArg some (File.client.inj (Option.some.inj hfd))

/-- It is not open for the connection of another thread. -/
theorem Disciplined.not_mine (h : Disciplined before g) {n m c : Nat}
    (hopen : (g.workers n).progress.isOpen = true) (hne : m ≠ n) (hconn : (g.workers m).conn = some c) :
    g.fds (g.workers n).clientFd ≠ some (.client c) := by
  intro hfd
  have hmine := h.mine hopen hfd
  cases hm : (g.workers m).progress.isOpen with
  | true => exact (h.own.apart n m c hne.symm hmine hopen hm).2 hconn
  | false => exact h.closed m c hconn hm _ hfd

/-- Nor for a connection that is to get a thread. -/
theorem Disciplined.not_waiting (h : Disciplined before g) {n c : Nat} {fd : Int}
    (hopen : (g.workers n).progress.isOpen = true) (hloop : g.loop = .create fd (some c)) :
    g.fds (g.workers n).clientFd ≠ some (.client c) := by
  intro hfd
  have hn : g.holds before (.worker n) = _ := holds_worker (h.mine hopen hfd) hopen
  have hl : g.holds before .loop = some (fd, .client c) := congrArg Loop.holds hloop
  cases h.held.single hn hl

/-- **Descriptors.**  In every run, a client thread reads from, writes to and closes its own connection,
    although numbers are used again; and no descriptor is lost but those of threads that could not be
    created. -/
theorem descriptors (hbefore : ∀ fd, before fd = true → 0 ≤ fd) (hrun : Reaches M (boot before) g) :
    OwnDescriptors before g :=
  ((disciplined_boot hbefore).reaches hrun).own

/-! ## Schedules -/

/-- What happens next: the result of a call of `server_loop`, or a thread goes on. -/
inductive Choice where
  | accept (fd : Int) (arrivals : Feed Char)
  | acceptFails
  | create
  | createFails
  | go (n : Nat)

/-- The next response is written, in one piece. -/
def say (g : Process) (n : Nat) (fdbuf : Rio) (written : List Str)
    (p : Prog calls (Except Exn Unit × Session)) : Option Process :=
  match (responses p).drop written.length with
  | [] => none
  | text :: _ =>
    if written ++ [text] <+: responses p then
      some ((g.writes n (text.length, text)).goes n (.handling fdbuf (written ++ [text]) p))
    else none

/-- A thread goes on. -/
def go (serve : Nat → (o : calls.Op) → Server Nat → Option (calls.Ans o × Server Nat)) (g : Process)
    (n : Nat) : Option Process :=
  match (g.workers n).progress with
  | .looping fdbuf s => some (if s.loopInProgress then g.reads n fdbuf s else g.closes n s)
  | .handling fdbuf written (.call o k) =>
    if written = o.self.replies then
      (serve n o g.server).map fun r => { g with server := r.2 }.goes n (.handling fdbuf written (k r.1))
    else g.say n fdbuf written (.call o k)
  | .handling fdbuf written (.ret (.ok (), s)) =>
    if written = s.replies then some (g.goes n (.looping fdbuf s))
    else g.say n fdbuf written (.ret (.ok (), s))
  | .ending (.call o k) =>
    (serve n o g.server).map fun r => { g with server := r.2 }.goes n (.ending (k r.1))
  | .ending (.ret s) => some (g.goes n (.ended s))
  | _ => none

/-- Carry out a choice. -/
def move (serve : Nat → (o : calls.Op) → Server Nat → Option (calls.Ans o × Server Nat)) (g : Process)
    (m : Choice) : Option Process :=
  if ¬ g.Live then none
  else match m, g.loop with
    | .accept fd arrivals, .accept =>
      if 0 ≤ fd ∧ (g.fds fd).isNone then some (g.accepts fd arrivals) else none
    | .acceptFails, .accept => some { g with loop := .create (-1) none }
    | .create, .create fd conn => some (g.creates fd conn)
    | .createFails, .create fd conn => some (g.abandons fd conn)
    | .go n, _ => g.go serve n
    | _, _ => none

/-- Carry out a schedule. -/
def play (serve : Nat → (o : calls.Op) → Server Nat → Option (calls.Ans o × Server Nat)) :
    List Choice → Process → Option Process
  | [], g => some g
  | m :: ms, g => (g.move serve m).bind (play serve ms)

theorem wrote_whole (text : Str) : Wrote text (text.length, text) := by
  refine ⟨[.chars text.length], false, ?_⟩
  cases text with
  | nil => rfl
  | cons c text =>
    rw [Rio.writen, writenLoop, List.drop_eq_nil_of_le (Nat.le_succ _), List.take_of_length_le
      (Nat.le_succ _)]
    rfl

theorem step_of_say {n : Nat} {fdbuf : Rio} {written : List Str}
    {p : Prog calls (Except Exn Unit × Session)} (hlive : g.Live)
    (hw : (g.workers n).progress = .handling fdbuf written p) (h : g.say n fdbuf written p = some g') :
    Step M g g' := by
  unfold say at h
  split at h
  · cases h
  · rename_i text _ _
    split at h
    · rename_i hnext
      obtain rfl := Option.some.inj h
      exact .write hlive hw hnext (wrote_whole text)
    · cases h

variable {serve : Nat → (o : calls.Op) → Server Nat → Option (calls.Ans o × Server Nat)}

theorem step_of_go (hM : ∀ n o srv r srv', serve n o srv = some (r, srv') → M.step n o srv r srv')
    {n : Nat} (hlive : g.Live) (h : g.go serve n = some g') : Step M g g' := by
  unfold go at h
  split at h
  · rename_i fdbuf s hw
    obtain rfl := Option.some.inj h
    cases hopen : s.loopInProgress with
    | true => exact .read hlive hw hopen
    | false => exact .close hlive hw hopen
  · rename_i fdbuf written o k hw
    split at h
    · rename_i hall
      subst hall
      obtain ⟨r, hr, rfl⟩ := Option.map_eq_some_iff.mp h
      exact .call hlive hw (hM _ _ _ _ _ hr)
    · exact step_of_say hlive hw h
  · rename_i fdbuf written s hw
    split at h
    · rename_i hall
      subst hall
      obtain rfl := Option.some.inj h
      exact .answer hlive hw
    · exact step_of_say hlive hw h
  · rename_i o k hw
    obtain ⟨r, hr, rfl⟩ := Option.map_eq_some_iff.mp h
    exact .destroy hlive hw (hM _ _ _ _ _ hr)
  · rename_i s hw
    obtain rfl := Option.some.inj h
    exact .finish hlive hw
  · cases h

theorem step_of_move (hM : ∀ n o srv r srv', serve n o srv = some (r, srv') → M.step n o srv r srv')
    {m : Choice} (h : g.move serve m = some g') : Step M g g' := by
  unfold move at h
  split at h
  · cases h
  · rename_i hnot
    have hlive : g.Live := not_not.mp hnot
    split at h
    · rename_i fd arrivals hloop
      split at h
      · rename_i hfd
        obtain rfl := Option.some.inj h
        exact .accept arrivals hlive hloop hfd.1 (Option.isNone_iff_eq_none.mp hfd.2)
      · cases h
    · rename_i hloop
      obtain rfl := Option.some.inj h
      exact .acceptFails hlive hloop
    · rename_i fd conn hloop
      obtain rfl := Option.some.inj h
      exact .create hlive hloop
    · rename_i fd conn hloop
      obtain rfl := Option.some.inj h
      exact .createFails hlive hloop
    · exact step_of_go hM hlive h
    · cases h

/-- A schedule that can be carried out is a run. -/
theorem reaches_of_play (hM : ∀ n o srv r srv', serve n o srv = some (r, srv') → M.step n o srv r srv')
    {ms : List Choice} {P : Process → Prop} [DecidablePred P]
    (h : (play serve ms g).any (fun g' => decide (P g')) = true) : ∃ g', Reaches M g g' ∧ P g' := by
  obtain ⟨g', hplay, hP⟩ := (Option.any_eq_true _ _).mp h
  refine ⟨g', ?_, of_decide_eq_true hP⟩
  clear hP h
  induction ms generalizing g with
  | nil =>
    obtain rfl := Option.some.inj hplay
    exact .refl
  | cons m ms ih =>
    obtain ⟨g₁, hmove, hplay⟩ := Option.bind_eq_some_iff.mp hplay
    exact .head (step_of_move hM hmove) (ih hplay)

/-- The standard streams, and `server_fd`. -/
def standard (fd : Int) : Bool := decide (0 ≤ fd ∧ fd ≤ 3)

theorem standard_nonneg (fd : Int) (h : standard fd = true) : 0 ≤ fd := (of_decide_eq_true h).1

/-- The descriptor of a client that was turned away is used for the next one, while a third has got
    neither a descriptor nor a line. -/
theorem descriptors_reused : ∃ g, OwnDescriptors standard g ∧ (g.workers 0).clientFd = 4 ∧
    (g.workers 2).clientFd = 4 ∧ g.fds 4 = some (.client 1) ∧ g.fds (-1) = none := by
  obtain ⟨g, hrun, hfirst, hthird, hfd, hconn, hopen⟩ : ∃ g, Reaches (serverSystem Nat) (boot standard) g ∧
      (g.workers 0).clientFd = 4 ∧ (g.workers 1).progress.isOpen = false ∧ (g.workers 2).clientFd = 4 ∧
      (g.workers 2).conn = some 1 ∧ (g.workers 2).progress.isOpen = true := by
    refine @reaches_of_play _ _ serve (fun _ _ _ _ _ h => step_of_serve h)
      [.accept 4 [.piece 'B' "YE\n".toList], .create, .go 0, .acceptFails, .go 0, .create, .go 0, .go 1,
        .go 0, .go 1, .accept 4 [.signal, .piece 'L' "OGIN a\n".toList], .go 1, .create, .go 2] _ _ ?_
    decide +kernel
  have h := descriptors standard_nonneg hrun
  refine ⟨g, h, hfirst, hfd, ?_, ?_⟩
  · rw [← hfd]
    exact h.own 2 1 hconn hopen
  · exact ((disciplined_boot standard_nonneg).reaches hrun).nonneg (-1) (by decide)

end Process

end BasicServer
