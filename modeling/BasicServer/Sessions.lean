/-
  All client sessions over one server.

  `serverSystem` is the server as its threads run it: every call to the shared state is a step of
  its own, and the steps of different sessions interleave in any order.  A session takes any input
  while its loop is in progress.  `accept` with a single program per input is `process`, so a
  statement about every `Run` covers every request sequence of every client.

  Requests that are carried out without interruption are runs too (`request_run`), and so is every
  schedule that `serve` can answer (`played`).
-/
import BasicServer.Connection

namespace BasicServer

open Function (update)

variable {ι : Type}

/-- The sessions `ι`, one thread each. -/
def serverSystem (ι : Type) : System ι (Server ι) Session Input calls where
  step i o srv r srv' := o.call.Step i srv r srv'
  accept _ srv s input :=
    if s.loopInProgress ∧ srv.aborted = false then some (process input s) else none

/-- No table, and every session before its first line. -/
def start (ι : Type) : Config ι (Server ι) Session calls := ⟨{}, fun _ => .rest {}⟩

/-- A session takes an input only while its loop is in progress and the process is there. -/
theorem accept_serverSystem {i : ι} {srv : Server ι} {s : Session} {input : Input}
    {p : Prog calls Session} (h : (serverSystem ι).accept i srv s input = some p) :
    s.loopInProgress = true ∧ srv.aborted = false ∧ p = process input s := by
  have h' : (if s.loopInProgress ∧ srv.aborted = false then some (process input s) else none)
      = some p := h
  split at h'
  · rename_i hs
    exact ⟨hs.1, hs.2, (Option.some.inj h').symm⟩
  · cases h'

/-- Thread `i` is handed a line, and takes `n` steps on it. -/
def told (i : ι) (line : String) (n : Nat) : List (System.Move ι Input) :=
  .accept i (.line line.toList) :: List.replicate n (.go i)

section Runs

variable [DecidableEq ι]

/-- A request carried out without interruption is one of the interleavings. -/
theorem request_run {i : ι} {s s' : Session} {srv srv' : Server ι} {input : Input}
    (th : ι → Thread calls Session) (hs : s.loopInProgress = true) (hab : srv.aborted = false)
    (he : (process input s).exec (serve i) srv = some (s', srv')) :
    ∃ log, System.Run (serverSystem ι) ⟨srv, update th i (.rest s)⟩ log
      ⟨srv', update th i (.rest s')⟩ := by
  have hacc : System.Step (serverSystem ι) ⟨srv, update th i (.rest s)⟩ i (.accept input)
      ⟨srv, update (update th i (.rest s)) i (.busy (process input s))⟩ :=
    .accept (by simp) (if_pos ⟨hs, hab⟩)
  rw [Function.update_idem] at hacc
  obtain ⟨log, hrun⟩ := System.Run.exec (M := serverSystem ι) (h := serve)
    (fun _ _ _ _ _ h => step_of_serve h) th he
  exact ⟨_, (System.Run.snoc .nil hacc).trans hrun⟩

/-- Evaluating a schedule with `serve` shows that what it leads to is reachable. -/
theorem played {ms : List (System.Move ι Input)} {c : Config ι (Server ι) Session calls}
    {P : Config ι (Server ι) Session calls → Prop} [DecidablePred P]
    (h : ((serverSystem ι).play serve ms c).any (fun c' => decide (P c')) = true) :
    ∃ log c', System.Run (serverSystem ι) c log c' ∧ P c' :=
  System.Run.of_play (fun _ _ _ _ _ h => step_of_serve h) h

end Runs

end BasicServer
