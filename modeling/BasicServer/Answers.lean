/-
  What a session answers, whatever the server's state and the other clients do.

  `anyAnswer` lets every call be answered as it may be in some state of the server.  A weakest
  precondition for it holds on every path of a program, hence in every interleaving.  On top of the
  leaves of the four shared requests this gives, for every session and every line:

  1. **One response** (`survives_iff`) — the line gets exactly one response and the process goes on,
     unless it is an arithmetic request on operands that overflow `int` or trap.
  2. **The stack of a failed request** (`keepsStack_iff`) — it is as before, unless the right operand
     of an arithmetic request was not written as `std::to_string` writes it and the left one is no
     number.
  3. **Responses on the wire** (`quoted_not_decoded`) — no FAILED or ERROR response can be decoded.
-/
import BasicServer.Shape
import BasicServer.Sessions

namespace BasicServer

open Handler
open Message (maxEncodedLen)

/-! ## Any answer -/

/-- In some state of the server the call may be answered by `r`. -/
def Possible (c : Call) (r : c.Ans) : Prop :=
  ∃ (ι : Type) (i : ι) (srv srv' : Server ι), c.Step i srv r srv'

/-- Every call may be made and get any possible answer; with `survive`, the process may not end. -/
def anyAnswer (survive : Prop) : Prog.Spec calls Unit where
  pre o Q g := (survive → o.call ≠ .terminate) ∧ ∀ r, Possible o.call r → Q r g
  mono hQ h := ⟨h.1, fun r hr => hQ r _ (h.2 r hr)⟩

/-- An answer that the back-to-back handler gives to a fresh server is possible. -/
theorem possible_apply {c : Call} {r : c.Ans} {srv' : Server Unit}
    (h : serve () ⟨c, {}⟩ {} = some (r, srv')) : Possible c r :=
  ⟨Unit, (), {}, srv', step_of_serve h⟩

/-- The one exception that `get` throws. -/
theorem possible_get {t : Ptr} {key : Str} {e : Exn} (h : Possible (.get t key) (.error e)) :
    e = .operationException "Key that does not exist requested".toList := by
  obtain ⟨ι, i, srv, srv', -, h⟩ := h
  exact Table.get_error (Prod.mk.inj (Option.some.inj h)).1

/-! ## Leaves -/

section Leaves

variable {survive : Prop} {Q : Session → Unit → Prop} {s : Session}

/-- The rule for a call that is not the end of the process. -/
theorem wp_ask {α : Type} {c : Call} {k : c.Ans → Prog calls α} {Q : α → Unit → Prop}
    (hc : c ≠ .terminate) (h : ∀ r, Possible c r → (k r).wp (anyAnswer survive) Q ()) :
    (Prog.call ⟨c, s⟩ k : Prog calls α).wp (anyAnswer survive) Q () := ⟨fun _ => hc, h⟩

theorem wp_releaseAll {act : Ptr → Call} (hact : ∀ t, act t ≠ .terminate) (s : Session)
    (ts : List Ptr) {P : Prop} (h : P) :
    (releaseAll act s ts).wp (anyAnswer survive) (fun _ _ => P) () := by
  induction ts with
  | nil => exact h
  | cons t ts ih => exact wp_ask (hact t) fun _ _ => wp_ask nofun fun _ _ => ih

/-- The rollback of a list of tables is a path. -/
theorem of_wp_rollback {s : Session} {ts : List Ptr} {P : Prop}
    (h : (releaseAll .rollbackChanges s ts).wp (anyAnswer survive) (fun _ _ => P) ()) : P := by
  induction ts with
  | nil => exact h
  | cons t ts ih =>
    have h₁ := h.2 () (possible_apply rfl)
    have h₂ := h₁.2 () (possible_apply rfl)
    exact ih h₂

/-- Ending the transaction has one outcome. -/
theorem wp_giveUp {fin : Session → Session} :
    (giveUp s fin).wp (anyAnswer survive) Q () ↔ Q (fin (released s)) () := by
  unfold giveUp released
  split
  · constructor
    · intro h
      have h₁ := (Prog.wp_bind _ _ _ _ _).mp (h.2 s.lockedTables (possible_apply rfl))
      exact of_wp_rollback h₁
    · intro h
      refine wp_ask nofun fun ts _ => ?_
      rw [Prog.wp_bind]
      exact wp_releaseAll (by nofun) s ts h
  · exact Iff.rfl

theorem wp_failWith {what : Str} : (failWith s what).wp (anyAnswer survive) Q () ↔
    Q (answered (released s) (failLine what)) () := wp_giveUp

/-- The end of the process is a path, unless that is forbidden. -/
theorem wp_abort : (abort s).wp (anyAnswer survive) Q () ↔ ¬ survive ∧ Q s () := by
  constructor
  · intro h
    exact ⟨fun hs => h.1 hs rfl, h.2 () (possible_apply rfl)⟩
  · rintro ⟨hs, hQ⟩
    exact ⟨fun h => absurd h hs, fun _ _ => hQ⟩

theorem wp_createTree {name : Str} (hok : Q (answered s okLine) ())
    (hfail : Q (answered (released s) (failLine "A table with this name already exists.".toList)) ()) :
    (createTree s name).wp (anyAnswer survive) Q () := by
  refine wp_ask nofun fun _ _ => wp_ask nofun fun found _ => ?_
  by_cases hf : found = none
  · rw [if_neg (not_not.mpr hf)]
    exact wp_ask nofun fun _ _ => wp_ask nofun fun _ _ => hok
  · rw [if_pos hf]
    exact wp_ask nofun fun _ _ => wp_failWith.mpr hfail

theorem wp_commitTree (hok : Q (answered (dropped s) okLine) ()) :
    (commitTree s).wp (anyAnswer survive) Q () := by
  refine wp_ask nofun fun ts _ => ?_
  rw [Prog.wp_bind]
  exact wp_releaseAll (by nofun) s ts hok

/-- What SET and GET say when they fail after `find_table`. -/
def lateTexts : List Str :=
  ["Could not find table.".toList, "Could not gain access to table.".toList,
   "Could not find key in specified table.".toList, "Key that does not exist requested".toList]

/-- The session with other tables locked. -/
def holding (s : Session) (ts : List Ptr) : Session := { s with lockedTables := ts }

/-- `Q` holds of every failure of SET and GET after `find_table`. -/
def OfFailures (Q : Session → Unit → Prop) (s : Session) : Prop :=
  ∀ ts, ∀ what ∈ lateTexts, Q (answered (released (holding s ts)) (failLine what)) ()

theorem OfFailures.wp (hfail : OfFailures Q s) {what : Str} (hwhat : what ∈ lateTexts)
    (ts : List Ptr) : (failWith (holding s ts) what).wp (anyAnswer survive) Q () :=
  wp_failWith.mpr (hfail ts what hwhat)

theorem wp_findTree {name : Str} {body : Ptr → Prog calls Session} (hfail : OfFailures Q s)
    (hbody : ∀ t, (body t).wp (anyAnswer survive) Q ()) :
    (findTree s name body).wp (anyAnswer survive) Q () := by
  refine wp_ask nofun fun found _ => ?_
  cases found with
  | none => exact hfail.wp (by decide) s.lockedTables
  | some t => exact hbody t

theorem wp_acquireTree {t : Ptr} {body : Session → Prog calls Session} (hfail : OfFailures Q s)
    (hbody : ∀ ts, (body (holding s ts)).wp (anyAnswer survive) Q ()) :
    (acquireTree s t body).wp (anyAnswer survive) Q () := by
  unfold acquireTree
  split
  · exact hbody s.lockedTables
  · refine wp_ask nofun fun success _ => ?_
    cases success with
    | true => exact hbody (t :: s.lockedTables)
    | false => exact hfail.wp (by decide) s.lockedTables

theorem wp_setTree {name key v : Str} {st : List Str} (hfail : OfFailures Q s)
    (hok : ∀ ts, Q (answered { holding s ts with stack := st } okLine) ()) :
    (setTree s name key v st).wp (anyAnswer survive) Q () := by
  refine wp_findTree hfail fun t => ?_
  by_cases htx : s.inTransaction = true
  · rw [if_pos htx]
    exact wp_acquireTree hfail fun ts => wp_ask nofun fun _ _ => hok ts
  · rw [if_neg htx]
    -- lock, set, commit_changes, unlock
    exact wp_ask nofun fun _ _ => wp_ask nofun fun _ _ => wp_ask nofun fun _ _ =>
      wp_ask nofun fun _ _ => hok s.lockedTables

theorem wp_getTree {name key : Str} (hfail : OfFailures Q s)
    (hok : ∀ ts v, Q (answered { holding s ts with stack := v :: s.stack } okLine) ()) :
    (getTree s name key).wp (anyAnswer survive) Q () := by
  refine wp_findTree hfail fun t => ?_
  by_cases htx : s.inTransaction = true
  · rw [if_pos htx]
    refine wp_acquireTree hfail fun ts => wp_ask nofun fun has _ => ?_
    cases has with
    | false => exact wp_ask nofun fun _ _ => hfail.wp (by decide) ts
    | true =>
      refine wp_ask nofun fun r hr => ?_
      cases r with
      | ok v => exact hok ts v
      | error e =>
        obtain rfl := possible_get hr
        show (settle _).wp _ _ _
        rw [settle_operation (by decide)]
        exact hfail.wp (by decide) ts
  · rw [if_neg htx]
    refine wp_ask nofun fun _ _ => wp_ask nofun fun has _ => ?_
    cases has with
    | false =>
      exact wp_ask nofun fun _ _ => wp_ask nofun fun _ _ =>
        hfail.wp (by decide) s.lockedTables
    | true =>
      refine wp_ask nofun fun r hr => ?_
      cases r with
      | ok v => exact wp_ask nofun fun _ _ => hok s.lockedTables v
      | error e =>
        obtain rfl := possible_get hr
        refine wp_ask nofun fun _ _ => ?_
        rw [settle_operation (by decide)]
        exact hfail.wp (by decide) s.lockedTables

end Leaves

/-! ## Outcomes -/

/-- `Answer s msg s'` — a session that has logged in, and starts on `msg` in the state `s`, may end
    it in `s'`. -/
inductive Answer (s : Session) : Message → Session → Prop
  | computes {msg : Message} {st' : List Str} {line : Str} (h : Computes msg s.stack st' line) :
      Answer s msg (answered { s with stack := st' } line)
  | refuses {msg : Message} {st' : List Str} {what : Str}
      (h : Refuses msg s.inTransaction s.stack st' what) :
      Answer s msg (answered (released { s with stack := st' }) (failLine what))
  | kills {msg : Message} {st' : List Str} (h : Kills msg s.stack st') :
      Answer s msg { s with stack := st' }
  | overlong {v : Str} {st : List Str} (hst : s.stack = v :: st)
      (h : encode ⟨.data, [v]⟩ = .error (.invalidMessage "Message is too long.".toList)) :
      Answer s ⟨.top, []⟩ (answered (released (closed s)) (errLine "Message is too long.".toList))
  | begin (htx : s.inTransaction = false) :
      Answer s ⟨.begin, []⟩ (answered { s with inTransaction := true } okLine)
  | commit (htx : s.inTransaction = true) : Answer s ⟨.commit, []⟩ (answered (dropped s) okLine)
  | bye : Answer s ⟨.bye, []⟩ (released (answered (closed s) okLine))
  | created {name : Str} : Answer s ⟨.create, [name]⟩ (answered s okLine)
  | bound {name : Str} : Answer s ⟨.create, [name]⟩
      (answered (released s) (failLine "A table with this name already exists.".toList))
  | failed {t : MessageType} {name key what : Str} {ts : List Ptr} (ht : t = .set ∨ t = .get)
      (hwhat : what ∈ lateTexts) :
      Answer s ⟨t, [name, key]⟩ (answered (released (holding s ts)) (failLine what))
  | set {name key v : Str} {st : List Str} {ts : List Ptr} (hst : s.stack = v :: st) :
      Answer s ⟨.set, [name, key]⟩ (answered { holding s ts with stack := st } okLine)
  | got {name key v : Str} {ts : List Ptr} :
      Answer s ⟨.get, [name, key]⟩ (answered { holding s ts with stack := v :: s.stack } okLine)

/-- `Outcome s input s'` — a session in the state `s` may end the input in `s'`. -/
inductive Outcome (s : Session) : Input → Session → Prop
  | eof : Outcome s .eof (released (closed (ready s)))
  | empty : Outcome s (.line []) (ready s)
  | undecodable {buf what : Str} (h : decode buf {} = .error (.invalidMessage what)) :
      Outcome s (.line buf) (answered (released (ready s)) (errLine what))
  | login {buf : Str} {msg : Message} (h : decode buf {} = .ok msg)
      (ht : msg.mMessageType = .login) :
      Outcome s (.line buf) (answered (loggedIn (ready s)) okLine)
  | premature {buf : Str} {msg : Message} (h : decode buf {} = .ok msg)
      (ht : msg.mMessageType ≠ .login) (hfirst : s.firstValidMessage = true) :
      Outcome s (.line buf)
        (released (closed (answered (ready s) (errLine "Please log in first.".toList))))
  | request {buf : Str} {msg : Message} {s' : Session} (h : decode buf {} = .ok msg)
      (ht : msg.mMessageType ≠ .login) (hfirst : s.firstValidMessage = false)
      (ha : Answer (ready s) msg s') : Outcome s (.line buf) s'

/-- ADD, SUB, MUL or DIV after login, on two operands one of which is a number outside `int`, or
    whose quotient is undefined. -/
def EndsProcess (s : Session) (buf : Str) : Prop :=
  s.firstValidMessage = false ∧ ∃ t r l st, decode buf {} = .ok ⟨t, []⟩ ∧
    t ∈ [.add, .sub, .mul, .div] ∧ s.stack = r :: l :: st ∧
    (stoi r = .error .outOfRange ∨ ∃ m, stoi r = .ok m ∧ (stoi l = .error .outOfRange ∨
      t = .div ∧ ∃ n, stoi l = .ok n ∧ (m = 0 ∨ n = intMin ∧ m = -1)))

theorem intDiv_traps {n m : Int} :
    intDiv n m = .error .sigfpe ↔ m = 0 ∨ n = intMin ∧ m = -1 := by
  unfold intDiv
  split
  · rename_i h; exact ⟨fun _ => h, fun _ => rfl⟩
  · rename_i h; exact ⟨nofun, fun h' => absurd h' h⟩

theorem arith_of_mem {t : MessageType} (ht : t ∈ [MessageType.add, .sub, .mul, .div]) :
    ∃ op few, arith t = some (op, few) := by
  simp only [List.mem_cons, List.not_mem_nil, or_false] at ht
  rcases ht with rfl | rfl | rfl | rfl <;> exact ⟨_, _, rfl⟩

theorem mem_of_arith {t : MessageType} {op : Int → Int → Except Exn Int} {few : Str}
    (ht : arith t = some (op, few)) : t ∈ [MessageType.add, .sub, .mul, .div] := by
  cases t <;> first | decide | cases ht

/-- The condition is that nothing catches what the handler throws. -/
theorem endsProcess_iff {s : Session} {buf : Str} :
    EndsProcess s buf ↔ s.firstValidMessage = false ∧ ∃ msg st', decode buf {} = .ok msg ∧
      Kills msg s.stack st' := by
  constructor
  · rintro ⟨hfirst, t, r, l, st, hdec, ht, hst, h⟩
    obtain ⟨op, few, hop⟩ := arith_of_mem ht
    rw [hst]
    rcases h with hr | ⟨m, hr, hl | ⟨rfl, n, hl, hd⟩⟩
    · exact ⟨hfirst, _, _, hdec, .right hop hr⟩
    · exact ⟨hfirst, _, _, hdec, .left hop hr hl⟩
    · exact ⟨hfirst, _, _, hdec, .divide hr hl (intDiv_traps.mpr hd)⟩
  · rintro ⟨hfirst, msg, st', hdec, h⟩
    obtain ⟨st, hst⟩ : ∃ st, s.stack = st := ⟨_, rfl⟩
    rw [hst] at h
    cases h with
    | right ht hr => exact ⟨hfirst, _, _, _, _, hdec, mem_of_arith ht, hst, Or.inl hr⟩
    | left ht hr hl =>
      exact ⟨hfirst, _, _, _, _, hdec, mem_of_arith ht, hst, Or.inr ⟨_, hr, Or.inl hl⟩⟩
    | divide hr hl hop =>
      exact ⟨hfirst, _, _, _, _, hdec, by decide, hst,
        Or.inr ⟨_, hr, Or.inr ⟨rfl, _, hl, intDiv_traps.mp hop⟩⟩⟩

/-- The programs of a request have these outcomes, however the calls are answered. -/
theorem responds_answer {s : Session} {msg : Message} {p : Prog calls Session} {survive : Prop}
    (h : Responds s msg p) (hk : survive → ∀ st', ¬ Kills msg s.stack st') :
    p.wp (anyAnswer survive) (fun s' _ => Answer s msg s') () := by
  cases h with
  | computes h => exact .computes h
  | refuses h => exact wp_failWith.mpr (.refuses h)
  | kills h => exact wp_abort.mpr ⟨fun hs => hk hs _ h, .kills h⟩
  | overlong hst h => exact wp_giveUp.mpr (.overlong hst h)
  | begin htx => exact .begin htx
  | commit htx => exact wp_commitTree (.commit htx)
  | bye => exact wp_giveUp.mpr .bye
  | create => exact wp_createTree .created .bound
  | set hst =>
    exact wp_setTree (fun ts what hwhat => .failed (Or.inl rfl) hwhat) fun ts => .set hst
  | get => exact wp_getTree (fun ts what hwhat => .failed (Or.inr rfl) hwhat) fun ts v => .got

/-- **Every input ends in one of its outcomes**, however the calls are answered. -/
theorem process_outcome {s : Session} {input : Input} {survive : Prop} (hs : s.loopInProgress = true)
    (hk : survive → ∀ buf, input = .line buf → buf ≠ [] ∧ ¬ EndsProcess s buf) :
    (process input s).wp (anyAnswer survive) (fun s' _ => Outcome s input s') () := by
  have hshape := process_shape hs input
  generalize process input s = p at hshape ⊢
  cases hshape with
  | eof => exact wp_giveUp.mpr .eof
  | empty => exact wp_abort.mpr ⟨fun h => (hk h [] rfl).1 rfl, .empty⟩
  | undecodable h => exact wp_giveUp.mpr (.undecodable h)
  | login h ht => exact .login h ht
  | premature h ht hfirst => exact wp_giveUp.mpr (.premature h ht hfirst)
  | @request buf msg _ h ht hfirst hp =>
    refine Prog.wp_mono (fun s' _ ha => .request h ht hfirst ha) (responds_answer hp ?_)
    intro hsurv st' hkill
    exact (hk hsurv buf rfl).2 (endsProcess_iff.mpr ⟨hfirst, msg, st', h, hkill⟩)

/-! ## One response, and the process goes on -/

/-- However the calls are answered, the line gets one response, and the process does not end. -/
def Survives (s : Session) (buf : Str) : Prop :=
  (process (.line buf) s).wp (anyAnswer True) (fun s' _ => s'.replies.length = 1) ()

theorem Answer.one_reply {s s' : Session} {msg : Message} (h : Answer s msg s')
    (hs : s.replies = []) (hk : ∀ st', ¬ Kills msg s.stack st') : s'.replies.length = 1 := by
  cases h with
  | kills h => exact absurd h (hk _)
  | _ => simp [answered, closed, holding, dropped, hs]

theorem Outcome.one_reply {s s' : Session} {buf : Str} (h : Outcome s (.line buf) s')
    (hbuf : buf ≠ []) (hno : ¬ EndsProcess s buf) : s'.replies.length = 1 := by
  cases h with
  | empty => exact absurd rfl hbuf
  | request hdec ht hfirst ha =>
    refine ha.one_reply rfl fun st' hkill => hno ?_
    exact endsProcess_iff.mpr ⟨hfirst, _, st', hdec, hkill⟩
  | _ => simp [answered, closed, ready, loggedIn]

theorem Survives.not_endsProcess {s : Session} {buf : Str} (h : Survives s buf) :
    ¬ EndsProcess s buf := by
  intro hends
  obtain ⟨hfirst, msg, st', hdec, hk⟩ := endsProcess_iff.mp hends
  rw [Survives, process_kills hfirst hdec hk] at h
  exact (wp_abort.mp h).1 trivial

/-- **No request brings the server down, and each gets one response** — except the arithmetic
    requests of `EndsProcess`. -/
theorem survives_iff (s : Session) (buf : Str) (hs : s.loopInProgress = true) (hbuf : buf ≠ []) :
    Survives s buf ↔ ¬ EndsProcess s buf := by
  constructor
  · exact Survives.not_endsProcess
  · intro hno
    have hout : (process (.line buf) s).wp (anyAnswer True) (fun s' _ => Outcome s (.line buf) s') () :=
      process_outcome hs fun _ b hb => by cases hb; exact ⟨hbuf, hno⟩
    exact Prog.wp_mono (fun s' _ h => h.one_reply hbuf hno) hout

/-- An ADD of two numbers. -/
theorem survives_iff_add :
    Survives { stack := ["2".toList, "1".toList], firstValidMessage := false } "ADD\n".toList ↔
      ¬ EndsProcess { stack := ["2".toList, "1".toList], firstValidMessage := false }
        "ADD\n".toList :=
  survives_iff { stack := ["2".toList, "1".toList], firstValidMessage := false } "ADD\n".toList rfl
    (by decide)

/-- A client that adds a number outside `int` brings the server down. -/
theorem not_survives_overflow :
    ¬ ∀ log c, System.Run (serverSystem Unit) (start Unit) log c → ∀ i s buf,
      c.threads i = .rest s → s.loopInProgress = true → c.shared.aborted = false → buf ≠ [] →
      Survives s buf := by
  intro h
  obtain ⟨log, c, hrun, hrest, hab⟩ := @played Unit _
    (told () "LOGIN a\n" 1 ++ told () "PUSH 1\n" 1 ++ told () "PUSH 9999999999\n" 1) (start Unit)
    (fun c => (c.threads ()).rest? = some ⟨["9999999999".toList, "1".toList], [], false, true, false,
      [okLine]⟩ ∧ c.shared.aborted = false) inferInstance (by decide +kernel)
  have hsurv := h log c hrun () _ "ADD\n".toList (Thread.rest?_eq_some hrest) rfl hab (by decide)
  refine hsurv.not_endsProcess ?_
  exact ⟨rfl, .add, _, _, [], by decide, by decide, rfl, Or.inl (by decide)⟩

/-! ## The stack of a failed request -/

/-- However the calls are answered, if the line is answered FAILED, the value stack is as before. -/
def KeepsStack (s : Session) (buf : Str) : Prop :=
  (process (.line buf) s).wp (anyAnswer False)
    (fun s' _ => (∃ what, s'.replies = [failLine what]) → s'.stack = s.stack) ()

/-- ADD, SUB, MUL or DIV after login, whose left operand is no number, and whose right operand is
    one but not in the form `std::to_string` prints it in. -/
def ReprintsOperand (s : Session) (buf : Str) : Prop :=
  s.firstValidMessage = false ∧ ∃ t r l st m, decode buf {} = .ok ⟨t, []⟩ ∧
    t ∈ [.add, .sub, .mul, .div] ∧ s.stack = r :: l :: st ∧ stoi r = .ok m ∧
    stoi l = .error .invalidArgument ∧ r ≠ toStr m

/-- The answer to a stack request is OK or DATA. -/
theorem Computes.line_cases {msg : Message} {st st' : List Str} {line : Str}
    (h : Computes msg st st' line) : line = okLine ∨ ∃ v, line = dataLine v := by
  cases h with
  | @top v line st henc =>
    rw [encode_eq (w := "DATA".toList) rfl] at henc
    split at henc
    · cases henc
    · exact Or.inr ⟨v, (Except.ok.inj henc).symm⟩
  | _ => exact Or.inl rfl

theorem Computes.line_ne {msg : Message} {st st' : List Str} {line : Str}
    (h : Computes msg st st' line) (what : Str) : line ≠ failLine what := by
  rcases h.line_cases with rfl | ⟨v, rfl⟩
  · exact okLine_ne what
  · intro h
    have hhead := congrArg List.head? h
    rw [failLine_head] at hhead
    cases hhead

/-- A refusal keeps the stack, unless the right operand is printed anew. -/
theorem Refuses.stack_eq {msg : Message} {tx : Bool} {st st' : List Str} {what : Str}
    (h : Refuses msg tx st st' what)
    (hno : ∀ r l rest m, arith msg.mMessageType ≠ none → msg.mArgs = [] → st = r :: l :: rest →
      stoi r = .ok m → stoi l = .error .invalidArgument → r = toStr m) : st' = st := by
  cases h with
  | @left tx t op few r l st m ht hr hl =>
    have hrm := hno r l st m (by rw [ht]; nofun) rfl rfl hr hl
    rw [← hrm]
  | _ => rfl

theorem Answer.stack_eq {s s' : Session} {msg : Message} (h : Answer s msg s')
    (hs : s.replies = []) (hfailed : ∃ what, s'.replies = [failLine what])
    (hno : ∀ r l rest m, arith msg.mMessageType ≠ none → msg.mArgs = [] → s.stack = r :: l :: rest →
      stoi r = .ok m → stoi l = .error .invalidArgument → r = toStr m) : s'.stack = s.stack := by
  obtain ⟨what, hfailed⟩ := hfailed
  have one : ∀ {s₁ : Session} {line : Str}, s₁.replies = [] →
      (answered s₁ line).replies = [failLine what] → line = failLine what := by
    intro s₁ line h₁ h₂
    have h₃ : s₁.replies ++ [line] = [failLine what] := h₂
    rw [h₁] at h₃
    exact (List.cons.inj h₃).1
  cases h with
  | computes h => exact absurd (one (by exact hs) hfailed) (h.line_ne what)
  | refuses h =>
    show (answered (released _) _).stack = _
    rw [answered, stack_released]
    exact h.stack_eq hno
  | kills => rw [hs] at hfailed; cases hfailed
  | overlong hst h => exact absurd (one (by simp [closed, hs]) hfailed) (errLine_ne _ what)
  | begin => exact absurd (one (by exact hs) hfailed) (okLine_ne what)
  | commit => exact absurd (one (by exact hs) hfailed) (okLine_ne what)
  | bye =>
    rw [replies_released] at hfailed
    exact absurd (one (by exact hs) hfailed) (okLine_ne what)
  | created => exact absurd (one (by exact hs) hfailed) (okLine_ne what)
  | bound => exact stack_released s
  | failed => exact stack_released _
  | set => exact absurd (one (by exact hs) hfailed) (okLine_ne what)
  | got => exact absurd (one (by exact hs) hfailed) (okLine_ne what)

theorem KeepsStack.not_reprints {s : Session} {buf : Str} (h : KeepsStack s buf) :
    ¬ ReprintsOperand s buf := by
  rintro ⟨hfirst, t, r, l, st, m, hdec, ht, hst, hr, hl, hne⟩
  obtain ⟨op, few, hop⟩ := arith_of_mem ht
  have hlogin : t ≠ .login := by rintro rfl; cases hop
  have href : Refuses ⟨t, []⟩ (ready s).inTransaction (ready s).stack (toStr m :: l :: st)
      "Value on stack could not be converted to an integer.".toList := by
    rw [show (ready s).stack = r :: l :: st from hst]
    exact .left hop hr hl
  rw [KeepsStack, process_respond hdec hlogin hfirst, respond_refuses href, wp_failWith] at h
  have hstack := h ⟨_, by rw [answered, replies_released]; rfl⟩
  rw [answered, stack_released, hst] at hstack
  exact hne (List.cons.inj hstack).1.symm

/-- **A failed request does not touch the value stack** — except for a right operand that is printed
    anew. -/
theorem keepsStack_iff (s : Session) (buf : Str) (hs : s.loopInProgress = true) :
    KeepsStack s buf ↔ ¬ ReprintsOperand s buf := by
  constructor
  · exact KeepsStack.not_reprints
  · intro hno
    have hout : (process (.line buf) s).wp (anyAnswer False) (fun s' _ => Outcome s (.line buf) s') () :=
      process_outcome hs nofun
    refine Prog.wp_mono (fun s' _ h hfailed => ?_) hout
    cases h with
    | empty => obtain ⟨what, hfailed⟩ := hfailed; cases hfailed
    | undecodable h => exact stack_released _
    | login h ht => rfl
    | premature h ht hfirst => exact stack_released _
    | @request _ msg _ hdec ht hfirst ha =>
      refine ha.stack_eq rfl hfailed fun r l rest m hop hargs hst hr hl => ?_
      by_contra hne
      obtain ⟨⟨op, few⟩, hop⟩ := Option.ne_none_iff_exists'.mp hop
      have hmsg : msg = ⟨msg.mMessageType, []⟩ := by rw [← hargs]
      exact hno ⟨hfirst, _, r, l, rest, m, by rw [hdec, hmsg], mem_of_arith hop, hst, hr, hl, hne⟩

/-- A DIV with no number below the top. -/
theorem keepsStack_iff_div :
    KeepsStack { stack := ["2".toList, "x".toList], firstValidMessage := false } "DIV\n".toList ↔
      ¬ ReprintsOperand { stack := ["2".toList, "x".toList], firstValidMessage := false }
        "DIV\n".toList :=
  keepsStack_iff { stack := ["2".toList, "x".toList], firstValidMessage := false } "DIV\n".toList rfl

/-- A right operand with leading zeros comes back without them. -/
theorem not_keepsStack_zeros :
    ¬ ∀ log c, System.Run (serverSystem Unit) (start Unit) log c → ∀ i s buf,
      c.threads i = .rest s → s.loopInProgress = true → KeepsStack s buf := by
  intro h
  obtain ⟨log, c, hrun, hrest⟩ := @played Unit _
    (told () "LOGIN a\n" 1 ++ told () "PUSH x\n" 1 ++ told () "PUSH 007\n" 1) (start Unit)
    (fun c => (c.threads ()).rest? = some ⟨["007".toList, "x".toList], [], false, true, false,
      [okLine]⟩) inferInstance (by decide +kernel)
  have hkeep := h log c hrun () _ "ADD\n".toList (Thread.rest?_eq_some hrest) rfl
  refine hkeep.not_reprints ?_
  exact ⟨rfl, .add, _, _, [], 7, by decide, by decide, rfl, by decide, by decide, by decide⟩

/-! ## Responses on the wire -/

/-- A text that could be quoted, and sent without the quotation marks. -/
def Plain (what : Str) : Prop := '\n' ∉ what ∧ '"' ∉ what ∧ Fits what

instance (what : Str) : Decidable (Plain what) := inferInstanceAs (Decidable (_ ∧ _))

/-- The lines of the four response types; a FAILED or ERROR has a plain text. -/
inductive ResponseLine : Str → Prop
  | ok : ResponseLine okLine
  | data (v : Str) : ResponseLine (dataLine v)
  | failed {what : Str} (h : Plain what) : ResponseLine (failLine what)
  | error {what : Str} (h : Plain what) : ResponseLine (errLine what)

theorem Refuses.plain {msg : Message} {tx : Bool} {st st' : List Str} {what : Str}
    (h : Refuses msg tx st st' what) : Plain what := by
  cases h with
  | @few tx t op few st ht hlen => cases t <;> cases ht <;> decide +kernel
  | _ => decide +kernel

theorem Answer.response {s s' : Session} {msg : Message} (h : Answer s msg s')
    (hs : s.replies = []) : ∀ line ∈ s'.replies, ResponseLine line := by
  have one : ∀ {s₁ : Session} {line : Str}, s₁.replies = [] → ResponseLine line →
      ∀ l ∈ (answered s₁ line).replies, ResponseLine l := by
    intro s₁ line h₁ hline l hl
    rw [answered, h₁] at hl
    rwa [List.eq_of_mem_singleton hl]
  have hrel : ∀ {s₁ : Session}, s₁.replies = [] → (released s₁).replies = [] := by
    intro s₁ h₁; rw [replies_released, h₁]
  cases h with
  | computes h =>
    rcases h.line_cases with rfl | ⟨v, rfl⟩
    · exact one (by exact hs) .ok
    · exact one (by exact hs) (.data v)
  | refuses h => exact one (hrel (by exact hs)) (.failed h.plain)
  | kills => intro line hline; rw [hs] at hline; cases hline
  | overlong => exact one (hrel (by exact hs)) (.error (by decide +kernel))
  | bye => rw [replies_released]; exact one (by exact hs) .ok
  | bound => exact one (hrel (by exact hs)) (.failed (by decide +kernel))
  | @failed t name key what ts ht hwhat =>
    have hall : ∀ w ∈ lateTexts, Plain w := by decide +kernel
    exact one (hrel (by exact hs)) (.failed (hall what hwhat))
  | begin | commit | created | set | got => exact one (by exact hs) .ok

/-- What is sent for an input is a line of one of the response types. -/
theorem Outcome.response {s s' : Session} {input : Input} (h : Outcome s input s') :
    ∀ line ∈ s'.replies, ResponseLine line := by
  cases h with
  | eof => intro line hline; rw [replies_released] at hline; cases hline
  | empty => intro line hline; cases hline
  | @undecodable buf what h =>
    have hbuf : buf ≠ [] := by rintro rfl; cases h
    obtain ⟨_, hmem, hwhat⟩ := decode_error hbuf h
    obtain rfl := Exn.invalidMessage.inj hwhat
    have hall : ∀ w ∈ decodeTexts, Plain w := by decide +kernel
    intro line hline
    rw [answered, replies_released] at hline
    rw [List.eq_of_mem_singleton hline]
    exact .error (hall what hmem)
  | login =>
    intro line hline
    rw [List.eq_of_mem_singleton hline]
    exact .ok
  | premature =>
    intro line hline
    rw [replies_released] at hline
    rw [List.eq_of_mem_singleton hline]
    exact .error (by decide +kernel)
  | request h ht hfirst ha => exact ha.response rfl

/-- No FAILED or ERROR line of the server can be decoded. -/
theorem ResponseLine.not_decoded {line : Str} (h : ResponseLine line)
    (herr : line.head? = some 'F' ∨ line.head? = some 'E') (m₀ m : Message) :
    decode line m₀ ≠ .ok m := by
  have plain : ∀ {t : MessageType} {w what : Str}, Quoted t → typeName t = .ok w → w.length ≤ 6 →
      Plain what → decode (lineOf w [what]) m₀ ≠ .ok m := by
    intro t w what ht hw hlen hp
    have hfit : (lineOf w [what]).length ≤ maxEncodedLen := by
      have hfits : what.length + 8 ≤ maxEncodedLen := hp.2.2
      rw [length_lineOf_one]
      omega
    rw [(decode_encode_quoted ht hw hp.1 hp.2.1 hfit).2 m₀]
    nofun
  cases h with
  | ok => exact absurd herr (by decide)
  | data v => rcases herr with h | h <;> cases h
  | failed hp => exact plain (t := .failed) (Or.inl rfl) rfl (by decide) hp
  | error hp => exact plain (t := .error) (Or.inr rfl) rfl (by decide) hp

/-- **FAILED and ERROR do not survive the wire.**  Any text without newline and quotation mark that
    would fit with its quotation marks is encoded, and what is written is refused by `decode`; so no
    FAILED or ERROR response of the server, whatever it answers, is decoded by a client. -/
theorem quoted_not_decoded {t : MessageType} {w : Str} (ht : t = .failed ∨ t = .error)
    (hw : typeName t = .ok w) :
    (∀ text : Str, '\n' ∉ text → '"' ∉ text →
      (lineOf w ['"' :: text ++ ['"']]).length ≤ maxEncodedLen →
      ∃ enc, encode ⟨t, [text]⟩ = .ok enc ∧ ∀ m₀ m, decode enc m₀ ≠ .ok m) ∧
    ∀ (s : Session) (input : Input), s.loopInProgress = true →
      (process input s).wp (anyAnswer False) (fun s' _ => ∀ line ∈ s'.replies,
        (∃ what, line = lineOf w [what]) → ∀ m₀ m, decode line m₀ ≠ .ok m) () := by
  constructor
  · intro text hnl hq hlen
    have hfit : (lineOf w [text]).length ≤ maxEncodedLen := by
      rw [length_lineOf_one] at hlen ⊢
      simp only [List.cons_append, List.length_cons, List.length_append] at hlen
      omega
    obtain ⟨henc, hdec⟩ := decode_encode_quoted ht hw hnl hq hfit
    refine ⟨_, henc, fun m₀ m h => ?_⟩
    rw [hdec m₀] at h
    cases h
  · intro s input hs
    refine Prog.wp_mono (fun s' _ h line hline hq => ?_) (process_outcome hs nofun)
    refine (h.response line hline).not_decoded ?_
    obtain ⟨what, rfl⟩ := hq
    rcases ht with rfl | rfl
    · obtain rfl := Except.ok.inj hw
      exact Or.inl rfl
    · obtain rfl := Except.ok.inj hw
      exact Or.inr rfl

/-- A text that could be quoted, and the same text in the server's response to a POP. -/
theorem quoted_not_decoded_pop :
    (∃ enc, encode ⟨.failed, ["Tried to call POP on an empty operations stack.".toList]⟩ = .ok enc ∧
      ∀ m₀ m, decode enc m₀ ≠ .ok m) ∧
    ∃ s', process (.line "POP\n".toList) { firstValidMessage := false } = .ret s' ∧
      ∃ line ∈ s'.replies,
        line = lineOf "FAILED".toList ["Tried to call POP on an empty operations stack.".toList] ∧
        ∀ m₀ m, decode line m₀ ≠ .ok m := by
  have h := @quoted_not_decoded .failed "FAILED".toList (Or.inl rfl) rfl
  refine ⟨h.1 _ (by decide) (by decide) (by decide), _, rfl, ?_⟩
  have hpop := h.2 { firstValidMessage := false } (.line "POP\n".toList) rfl
  exact ⟨_, List.mem_cons_self .., rfl, hpop _ (List.mem_cons_self ..)
    ⟨"Tried to call POP on an empty operations stack.".toList, rfl⟩⟩

/-- The empty text is enough. -/
theorem not_decoded_empty :
    ¬ ∀ (t : MessageType) (w text : Str), t = .failed ∨ t = .error → typeName t = .ok w →
      '\n' ∉ text → '"' ∉ text → (lineOf w ['"' :: text ++ ['"']]).length ≤ maxEncodedLen →
      ∃ enc, encode ⟨t, [text]⟩ = .ok enc ∧ ∀ m₀, decode enc m₀ = .ok ⟨t, [text]⟩ := by
  intro h
  obtain ⟨enc, henc, hdec⟩ := h .failed "FAILED".toList [] (Or.inl rfl) rfl (by decide) (by decide)
    (by decide)
  obtain rfl : "FAILED \n".toList = enc := Except.ok.inj henc
  exact absurd (hdec {}) (by decide)

end BasicServer
