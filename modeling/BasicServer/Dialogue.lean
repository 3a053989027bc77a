/-
  One session, line after line.

  `Dialogue before s` — a session has completed the inputs in `before`, each with the session that it
  left, the newest first, and is now in the state `s`.  It says only what any server and any other
  clients allow (`Outcome`); every session of every interleaving has one (`Dialogue.of_leads`), and
  what follows here is by induction on it.

  1. **Replies** (`Outcome.reply`) — nothing, OK or DATA, FAILED, or ERROR, and whether the loop of the
     session is still in progress after it.
  2. **One LOGIN** (`oneLogin_iff`) — nothing is served before a LOGIN, and no second LOGIN is answered
     OK, in the sessions that send at most one.
  3. **ERROR is final, FAILED is not** (`errorFinal_iff`) — in the sessions all of whose lines are
     messages.
-/
import BasicServer.Answers
import BasicServer.Locks
import BasicServer.Requests
import BasicServer.Lib.History

namespace BasicServer

/-- The record of a run of the server. -/
abbrev Chat (ι : Type) : Type := Trace ι (Server ι) Session Input calls

/-- Nothing has happened. -/
def opening (ι : Type) : Chat ι := { config := start ι }

/-- The inputs completed, and the state of the session after them. -/
inductive Dialogue : List (Input × Session) → Session → Prop
  | nil : Dialogue [] {}
  | next {before : List (Input × Session)} {s s' : Session} {input : Input}
      (h : Dialogue before s) (hopen : s.loopInProgress = true) (hout : Outcome s input s') :
      Dialogue ((input, s') :: before) s'

section Every

variable {ι : Type}

theorem rest_start (i : ι) : ∃ s, (start ι).threads i = .rest s := ⟨{}, rfl⟩

/-- Every run of the server has a record. -/
theorem exists_chat [DecidableEq ι] {c : Config ι (Server ι) Session calls} {log : List (Called ι calls)}
    (h : System.Run (serverSystem ι) (start ι) log c) :
    ∃ T : Chat ι, System.Leads (serverSystem ι) (opening ι) T ∧ T.config = c ∧ T.log = log :=
  h.traced rest_start

variable [DecidableEq ι] {T : Chat ι} {i : ι}

/-- The outline: what a session has completed is a dialogue. -/
def dialogueOutline (ι : Type) [DecidableEq ι] :
    System.Outline (System.recording (serverSystem ι)) Unit where
  spec _ := anyAnswer False
  rest _ l _ := Dialogue l.2 l.1
  inv _ _ _ := True
  accept_ok := by
    intro i _ srv γ l input p _ hrest hacc
    obtain ⟨q, hq, rfl⟩ := System.accept_recording hacc
    obtain ⟨hopen, -, rfl⟩ := accept_serverSystem hq
    rw [Prog.wp_bind]
    exact Prog.wp_mono (fun s' _ hout => .next hrest hopen hout) (process_outcome hopen nofun)
  call_ok := by
    intro i o _ srv γ r srv' Q _ hpre hstep
    exact ⟨(), hpre.2 r ⟨ι, i, srv, srv', hstep⟩, trivial⟩

/-- **Every session has a dialogue**, in every interleaving. -/
theorem Dialogue.of_leads (h : System.Leads (serverSystem ι) (opening ι) T) {s : Session}
    (hc : T.config.threads i = .rest s) : Dialogue (past i T.done) s := by
  obtain ⟨log, -, hrun⟩ := h.recording
  have hstart : (dialogueOutline ι).Holds [] (Trace.noted (opening ι)) :=
    ⟨fun _ => (), trivial, fun _ => .nil⟩
  obtain ⟨γ, -, hat⟩ := (dialogueOutline ι).run hstart hrun
  have hi := hat i
  rw [Trace.noted_rest hc] at hi
  exact hi

/-- The session at work was at rest before, with its loop in progress. -/
theorem Dialogue.of_located (h : System.Leads (serverSystem ι) (opening ι) T) (i : ι) :
    (∃ s, T.config.threads i = .rest s ∧ Dialogue (past i T.done) s) ∨
    ∃ s input q, T.config.threads i = .busy q ∧ Dialogue (past i T.done) s ∧
      s.loopInProgress = true ∧ (process input s).Residual q := by
  cases h.located rest_start i with
  | rest hc => exact .inl ⟨_, hc, .of_leads h hc⟩
  | busy hfirst _ hc hp hpast _ hq hleft =>
    obtain ⟨hopen, -, rfl⟩ := accept_serverSystem hp
    refine .inr ⟨_, _, _, hq, ?_, hopen, hleft⟩
    rw [hpast]
    exact .of_leads hfirst hc

end Every

/-! ## Replies -/

theorem dataLine_ne_errLine (v what : Str) : dataLine v ≠ errLine what := by
  intro h
  exact absurd (congrArg List.head? h) (by decide : some 'D' ≠ some 'E')

theorem dataLine_ne_failLine (v what : Str) : dataLine v ≠ failLine what := by
  intro h
  exact absurd (congrArg List.head? h) (by decide : some 'D' ≠ some 'F')

/-- The input is a line that is no message. -/
def Undecodable (input : Input) : Prop :=
  ∃ buf what, input = .line buf ∧ decode buf {} = .error (.invalidMessage what)

theorem not_undecodable {input : Input} (h : (request input).isSome = true) :
    ¬ Undecodable input := by
  rintro ⟨buf, what, rfl, hdec⟩
  rw [request, hdec] at h
  cases h

/-- What a session has answered to an input. -/
inductive Reply (input : Input) (s' : Session) : Prop
  | silent (h : s'.replies = [])
  | served (h : s'.replies = [okLine] ∨ ∃ v, s'.replies = [dataLine v])
      (hfirst : s'.firstValidMessage = false)
      (hopen : s'.loopInProgress = true ∨ request input = some ⟨.bye, []⟩ ∧ s'.loopInProgress = false)
      (hbye : request input = some ⟨.bye, []⟩ → s'.loopInProgress = false)
  | failed {what : Str} (h : s'.replies = [failLine what]) (hopen : s'.loopInProgress = true)
      (htx : s'.inTransaction = false)
  | error {what : Str} (h : s'.replies = [errLine what])
      (hend : s'.loopInProgress = false ∨ Undecodable input)

theorem Reply.length_le {input : Input} {s' : Session} (h : Reply input s') :
    s'.replies.length ≤ 1 := by
  cases h with
  | silent h | failed h | error h => rw [h]; simp
  | served h => rcases h with h | ⟨v, h⟩ <;> rw [h] <;> simp

/-- Before login nothing is served. -/
theorem Reply.unserved {input : Input} {s' : Session} (h : Reply input s')
    (hfirst : s'.firstValidMessage = true) :
    okLine ∉ s'.replies ∧ ∀ v, dataLine v ∉ s'.replies := by
  cases h with
  | silent h => rw [h]; exact ⟨List.not_mem_nil, fun _ => List.not_mem_nil⟩
  | served _ hno => rw [hno] at hfirst; cases hfirst
  | @failed what h =>
    rw [h]
    refine ⟨fun hmem => ?_, fun v hmem => ?_⟩
    · exact okLine_ne what (List.eq_of_mem_singleton hmem)
    · exact dataLine_ne_failLine v what (List.eq_of_mem_singleton hmem)
  | @error what h =>
    rw [h]
    refine ⟨fun hmem => ?_, fun v hmem => ?_⟩
    · exact errLine_ne_okLine what (List.eq_of_mem_singleton hmem).symm
    · exact dataLine_ne_errLine v what (List.eq_of_mem_singleton hmem)

/-- The requests that work on the stack alone. -/
theorem Computes.type {msg : Message} {st st' : List Str} {line : Str}
    (h : Computes msg st st' line) :
    msg.mMessageType ∈ [MessageType.push, .pop, .top, .add, .sub, .mul, .div] := by
  cases h with
  | arith ht =>
    have hmem := mem_of_arith ht
    exact List.mem_cons_of_mem _ (List.mem_cons_of_mem _ (List.mem_cons_of_mem _ hmem))
  | push => exact .head _
  | pop => exact .tail _ (.head _)
  | top => exact .tail _ (.tail _ (.head _))

/-- **The replies** of one input. -/
theorem Outcome.reply {s s' : Session} {input : Input} (h : Outcome s input s')
    (hopen : s.loopInProgress = true) : Reply input s' := by
  have failed : ∀ {s₁ : Session} {what : Str}, s₁.replies = [] → s₁.loopInProgress = true →
      Reply input (answered (released s₁) (failLine what)) := by
    intro s₁ what hno hs₁
    refine .failed (replies_over hno) ?_ (inTransaction_released s₁)
    show (released s₁).loopInProgress = true
    rw [loopInProgress_released, hs₁]
  cases h with
  | eof => exact .silent (replies_released _)
  | empty => exact .silent rfl
  | undecodable hdec => exact .error (replies_over rfl) (.inr ⟨_, _, rfl, hdec⟩)
  | login hdec ht =>
    refine .served (.inl rfl) rfl (.inl hopen) fun hreq => ?_
    rw [request_of_decode hdec] at hreq
    obtain rfl := Option.some.inj hreq
    cases ht
  | premature =>
    refine .error (replies_released _) (.inl ?_)
    rw [loopInProgress_released]
    rfl
  | @request buf msg s' hdec ht hfirst ha =>
    have hreq : ∀ {msg'}, BasicServer.request (.line buf) = some msg' → msg' = msg := fun h => by
      rw [request_of_decode hdec, Option.some.injEq] at h
      exact h.symm
    have hfirst' : (ready s).firstValidMessage = false := hfirst
    cases ha with
    | @computes _ st' line h =>
      have hbye : BasicServer.request (.line buf) = some ⟨.bye, []⟩ →
          (ready s).loopInProgress = false := by
        intro hb
        obtain rfl := hreq hb
        exact absurd h.type (by decide)
      rcases h.line_cases with rfl | ⟨v, rfl⟩
      · exact .served (.inl rfl) hfirst (.inl hopen) hbye
      · exact .served (.inr ⟨v, rfl⟩) hfirst (.inl hopen) hbye
    | refuses h => exact failed rfl hopen
    | kills h => exact .silent rfl
    | overlong hst h =>
      refine .error (replies_over rfl) (.inl ?_)
      show (released _).loopInProgress = false
      rw [loopInProgress_released]
      rfl
    | bye =>
      have hclosed : (released (answered (closed (ready s)) okLine)).loopInProgress = false := by
        rw [loopInProgress_released]
        rfl
      refine .served (.inl (replies_released _)) ?_ (.inr ⟨request_of_decode hdec, hclosed⟩)
        fun _ => hclosed
      unfold released
      split <;> exact hfirst
    | bound | failed => exact failed rfl hopen
    | begin | commit | created | set | got =>
      exact .served (.inl rfl) hfirst (.inl hopen) fun hb => nomatch hreq hb

/-- What was completed was left in a state that had its own dialogue. -/
theorem Dialogue.cut {newer older : List (Input × Session)} {e : Input × Session} {s : Session}
    (h : Dialogue (newer ++ e :: older) s) :
    ∃ s₀, Dialogue older s₀ ∧ s₀.loopInProgress = true ∧ Outcome s₀ e.1 e.2 := by
  induction newer generalizing s with
  | nil =>
    cases h with
    | next h hopen hout => exact ⟨_, h, hopen, hout⟩
  | cons _ newer ih =>
    cases h with
    | next h => exact ih h

/-! ## One LOGIN -/

/-- The input is a LOGIN. -/
def isLogin (input : Input) : Bool := (request input).any fun msg => msg.mMessageType = .login

/-- It was answered OK. -/
def loginOk (e : Input × Session) : Bool := isLogin e.1 && decide (e.2.replies = [okLine])

/-- Nothing of a session is served before a LOGIN was answered OK, and no other LOGIN is. -/
structure OneLogin {ι : Type} [DecidableEq ι] (T : Chat ι) (i : ι) : Prop where
  before : ∀ newer e older, past i T.done = newer ++ e :: older →
    (∀ e' ∈ e :: older, loginOk e' = false) →
    okLine ∉ e.2.replies ∧ (∀ v, dataLine v ∉ e.2.replies) ∧
      e.2.stack = [] ∧ e.2.inTransaction = false ∧ e.2.lockedTables = []
  calls : (∀ e ∈ past i T.done, loginOk e = false) →
    ∀ c ∈ T.log, c.who = i → c.op.call = .terminate
  once : (past i T.done).countP loginOk ≤ 1
  refused : ∀ newer e older, past i T.done = newer ++ e :: older → isLogin e.1 = true →
    (∃ e' ∈ older, loginOk e' = true) → e.2.replies = [failLine "You are already logged in.".toList]

theorem isLogin_of_decode {buf : Str} {msg : Message} (h : decode buf {} = .ok msg) :
    isLogin (.line buf) = decide (msg.mMessageType = .login) := by
  rw [isLogin, request_of_decode h]
  rfl

theorem Answer.first {s s' : Session} {msg : Message} (h : Answer s msg s') :
    s'.firstValidMessage = s.firstValidMessage := by
  cases h with
  | refuses | overlong | bound | failed | bye => exact firstValidMessage_released _
  | _ => rfl

/-- A LOGIN is answered OK, whenever it comes, and it alone sets the flag. -/
theorem Outcome.first {s s' : Session} {input : Input} (h : Outcome s input s') :
    isLogin input = true ∧ s'.replies = [okLine] ∧ s'.firstValidMessage = false ∨
    isLogin input = false ∧ s'.firstValidMessage = s.firstValidMessage := by
  cases h with
  | eof => exact .inr ⟨rfl, firstValidMessage_released _⟩
  | empty => exact .inr ⟨rfl, rfl⟩
  | undecodable hdec =>
    refine .inr ⟨?_, firstValidMessage_released _⟩
    rw [isLogin, BasicServer.request, hdec]
    rfl
  | login hdec ht => exact .inl ⟨(isLogin_of_decode hdec).trans (decide_eq_true ht), rfl, rfl⟩
  | premature hdec ht =>
    exact .inr ⟨(isLogin_of_decode hdec).trans (decide_eq_false ht), firstValidMessage_released _⟩
  | request hdec ht _ ha =>
    exact .inr ⟨(isLogin_of_decode hdec).trans (decide_eq_false ht), ha.first⟩

section Login

variable {before : List (Input × Session)} {s : Session}

/-- The flag says whether there was a LOGIN. -/
theorem Dialogue.first (h : Dialogue before s) :
    s.firstValidMessage = true ↔ ∀ e ∈ before, isLogin e.1 = false := by
  induction h with
  | nil => exact ⟨fun _ => nofun, fun _ => rfl⟩
  | next _ _ hout ih =>
    rw [List.forall_mem_cons]
    rcases hout.first with ⟨hlogin, -, hfirst⟩ | ⟨hlogin, hfirst⟩
    · rw [hlogin, hfirst]
      exact ⟨nofun, fun hall => absurd hall.1 nofun⟩
    · rw [hlogin, hfirst, ih]
      exact ⟨fun hall => ⟨rfl, hall⟩, fun hall => hall.2⟩

/-- Every LOGIN was answered OK. -/
theorem Dialogue.loginOk (h : Dialogue before s) :
    ∀ e ∈ before, BasicServer.loginOk e = isLogin e.1 := by
  induction h with
  | nil => exact nofun
  | next _ _ hout ih =>
    refine List.forall_mem_cons.mpr ⟨?_, ih⟩
    show (isLogin _ && decide _) = isLogin _
    rcases hout.first with ⟨hlogin, hok, -⟩ | ⟨hlogin, -⟩
    · rw [hlogin, hok]; rfl
    · rw [hlogin]; rfl

/-- Before the first LOGIN the session is as it was at the start. -/
theorem Dialogue.fresh (h : Dialogue before s) (hfirst : s.firstValidMessage = true) :
    s.stack = [] ∧ s.inTransaction = false ∧ s.lockedTables = [] := by
  induction h with
  | nil => exact ⟨rfl, rfl, rfl⟩
  | next _ _ hout ih =>
    rcases hout.first with ⟨-, -, hno⟩ | ⟨hlogin, hfirst'⟩
    · rw [hno] at hfirst; cases hfirst
    rw [hfirst'] at hfirst
    obtain ⟨hst, htx, hl⟩ := ih hfirst
    -- ending no transaction changes nothing
    have keeps : ∀ {s₁ : Session}, s₁.stack = [] → s₁.inTransaction = false →
        s₁.lockedTables = [] → (released s₁).stack = [] ∧ (released s₁).inTransaction = false ∧
          (released s₁).lockedTables = [] := by
      intro s₁ hst₁ htx₁ hl₁
      rw [show released s₁ = s₁ from if_neg (by rw [htx₁]; exact nofun)]
      exact ⟨hst₁, htx₁, hl₁⟩
    cases hout with
    | eof | undecodable | premature => exact keeps hst htx hl
    | empty => exact ⟨hst, htx, hl⟩
    | login hdec ht =>
      rw [isLogin_of_decode hdec, decide_eq_true ht] at hlogin
      cases hlogin
    | request _ _ hno => rw [hfirst] at hno; cases hno

/-- What a session does before its LOGIN: it makes no call, unless the process ends. -/
theorem process_before_login (hopen : s.loopInProgress = true)
    (hfirst : s.firstValidMessage = true) (htx : s.inTransaction = false) (input : Input) :
    (∃ s', process input s = .ret s') ∨ process input s = abort (ready s) := by
  have hgiveUp : ∀ {s₁ : Session} {fin}, s₁.inTransaction = false → giveUp s₁ fin = .ret (fin s₁) :=
    fun h₁ => if_neg (by rw [h₁]; exact nofun)
  have hshape := process_shape hopen input
  generalize process input s = p at hshape ⊢
  cases hshape with
  | eof => exact .inl ⟨_, hgiveUp htx⟩
  | empty => exact .inr rfl
  | undecodable => exact .inl ⟨_, hgiveUp htx⟩
  | login => exact .inl ⟨_, rfl⟩
  | premature => exact .inl ⟨_, hgiveUp htx⟩
  | request _ _ hno => rw [hfirst] at hno; cases hno

end Login

section Sessions

variable {ι : Type} [DecidableEq ι] {T : Chat ι} {i : ι}

theorem Dialogue.exists (h : System.Leads (serverSystem ι) (opening ι) T) (i : ι) :
    ∃ s, Dialogue (past i T.done) s := by
  rcases Dialogue.of_located h i with ⟨s, -, hd⟩ | ⟨s, -, -, -, hd, -⟩
  · exact ⟨s, hd⟩
  · exact ⟨s, hd⟩

/-- A call is made after a LOGIN that was answered OK, or it is the end of the process. -/
theorem call_after_login (h : System.Leads (serverSystem ι) (opening ι) T) {o : calls.Op}
    {k : calls.Ans o → Prog calls Session} (hc : T.config.threads i = .busy (.call o k)) :
    o.call = .terminate ∨ ∃ e ∈ past i T.done, loginOk e = true := by
  rcases Dialogue.of_located h i with ⟨s, hs, -⟩ | ⟨s, input, q, hq, hd, hopen, hleft⟩
  · rw [hc] at hs; cases hs
  obtain rfl := Thread.busy.inj (hq.symm.trans hc)
  by_cases hfirst : s.firstValidMessage = true
  · left
    rcases process_before_login hopen hfirst (hd.fresh hfirst).2.1 input with ⟨s', hp⟩ | hp
    · rw [hp] at hleft
      cases hleft.of_ret
    · rw [hp] at hleft
      rcases Prog.Residual.of_call hleft with heq | ⟨_, heq⟩
      · cases heq; rfl
      · cases heq
  · right
    rw [hd.first] at hfirst
    push Not at hfirst
    obtain ⟨e, he, hlogin⟩ := hfirst
    exact ⟨e, he, (hd.loginOk e he).trans (by simpa using hlogin)⟩

/-- So a session that has not logged in has made none. -/
theorem calls_before_login (h : System.Leads (serverSystem ι) (opening ι) T)
    (hno : ∀ e ∈ past i T.done, loginOk e = false) :
    ∀ c ∈ T.log, c.who = i → c.op.call = .terminate := by
  induction h with
  | refl => exact nofun
  | tail hlead hnext ih =>
    cases hnext with
    | accept => exact ih hno
    | call hc hs =>
      intro c hmem hwho
      rcases List.mem_append.mp hmem with hmem | hmem
      · exact ih hno c hmem hwho
      · obtain rfl := List.eq_of_mem_singleton hmem
        obtain rfl := hwho
        rcases call_after_login hlead hc with hterm | ⟨e, he, hok⟩
        · exact hterm
        · rw [hno e he] at hok
          cases hok
    | @finish j s input hc hx =>
      refine ih fun e he => hno e ?_
      rw [mem_past] at he ⊢
      exact List.mem_cons_of_mem _ he

/-- **One LOGIN.**  What holds of the sessions that start with one LOGIN holds exactly as long as the
    session sends at most one. -/
theorem oneLogin_iff (h : System.Leads (serverSystem ι) (opening ι) T) (i : ι) :
    OneLogin T i ↔ (past i T.done).countP (fun e => isLogin e.1) ≤ 1 := by
  obtain ⟨s, hd⟩ := Dialogue.exists h i
  have hcount : (past i T.done).countP loginOk = (past i T.done).countP (fun e => isLogin e.1) :=
    List.countP_congr fun e he => by rw [hd.loginOk e he]
  constructor
  · intro hone
    rw [← hcount]
    exact hone.once
  intro hle
  refine ⟨?_, calls_before_login h, by omega, ?_⟩
  · intro newer e older hpast hno
    rw [hpast] at hd
    obtain ⟨s₀, hd₀, hopen, hout⟩ := hd.cut
    have he : Dialogue (e :: older) e.2 := .next hd₀ hopen hout
    have hfirst : e.2.firstValidMessage = true := by
      rw [he.first]
      intro e' he'
      rw [← he.loginOk e' he']
      exact hno e' he'
    obtain ⟨hok, hdata⟩ := (hout.reply hopen).unserved hfirst
    exact ⟨hok, hdata, he.fresh hfirst⟩
  · intro newer e older hpast hlogin ⟨e', he', hok⟩
    exfalso
    rw [hpast] at hd
    obtain ⟨s₀, hd₀, -, -⟩ := hd.cut
    have hlogin' : isLogin e'.1 = true := (hd₀.loginOk e' he').symm.trans hok
    have hpos : 0 < older.countP (fun e => isLogin e.1) :=
      List.countP_pos_iff.mpr ⟨e', he', hlogin'⟩
    have hcons : (e :: older).countP (fun e => isLogin e.1) = older.countP (fun e => isLogin e.1) + 1 :=
      List.countP_cons_of_pos hlogin
    rw [hpast, List.countP_append] at hle
    omega

end Sessions

/-- Evaluating a schedule shows that what it leads to is reachable. -/
theorem chatted {ι : Type} [DecidableEq ι] {ms : List (System.Move ι Input)} {P : Chat ι → Prop}
    [DecidablePred P] (h : (Trace.play (serverSystem ι) serve ms (opening ι)).any
      (fun T => decide (P T)) = true) :
    ∃ T, System.Leads (serverSystem ι) (opening ι) T ∧ P T :=
  System.Leads.of_play (fun _ _ _ _ _ h => step_of_serve h) h

/-- A LOGIN and a PUSH. -/
theorem oneLogin_iff_one : ∃ T, System.Leads (serverSystem Unit) (opening Unit) T ∧
    (past () T.done).map (fun e => e.2.replies) = [[okLine], [okLine]] ∧ OneLogin T () := by
  obtain ⟨T, hlead, hreplies, hcount⟩ := @chatted Unit _
    (told () "LOGIN a\n" 1 ++ told () "PUSH 1\n" 1)
    (fun T => (past () T.done).map (fun e => e.2.replies) = [[okLine], [okLine]] ∧
      (past () T.done).countP (fun e => isLogin e.1) ≤ 1) inferInstance (by decide +kernel)
  exact ⟨T, hlead, hreplies, (oneLogin_iff hlead ()).mpr hcount⟩

/-- Two LOGINs, both answered OK. -/
theorem not_oneLogin : ¬ ∀ T, System.Leads (serverSystem Unit) (opening Unit) T →
    ∀ i, OneLogin T i := by
  intro h
  obtain ⟨T, hlead, hcount⟩ := @chatted Unit _ (told () "LOGIN a\n" 1 ++ told () "LOGIN b\n" 1)
    (fun T => (past () T.done).countP loginOk = 2) inferInstance (by decide +kernel)
  have honce := (h T hlead ()).once
  rw [hcount] at honce
  omega

/-! ## ERROR is final, FAILED is not -/

/-- The answer is ERROR, or the OK of a BYE. -/
def EndsSession (e : Input × Session) : Prop :=
  (∃ what, errLine what ∈ e.2.replies) ∨ request e.1 = some ⟨.bye, []⟩ ∧ okLine ∈ e.2.replies

/-- After ERROR or the OK of a BYE the session has ended; after FAILED it goes on, in no transaction
    and with no mutex, and takes any next line that comes while the process is there. -/
structure ErrorFinal {ι : Type} [DecidableEq ι] (T : Chat ι) (i : ι) : Prop where
  final : ∀ newer e older, past i T.done = newer ++ e :: older → EndsSession e →
    e.2.replies.length ≤ 1 ∧ newer = [] ∧ T.config.threads i = .rest e.2 ∧
      ∀ srv input, (serverSystem ι).accept i srv e.2 input = none
  goesOn : ∀ newer e older what, past i T.done = newer ++ e :: older → failLine what ∈ e.2.replies →
    e.2.inTransaction = false ∧ e.2.lockedTables = [] ∧
      (∀ srv input, srv.aborted = false → ((serverSystem ι).accept i srv e.2 input).isSome) ∧
      (newer = [] → T.config.threads i = .rest e.2 → HoldsNothing T.config i)

/-- What a line that is no message leaves. -/
theorem Outcome.undecodable_left {s s' : Session} {buf what : Str}
    (h : Outcome s (.line buf) s') (hopen : s.loopInProgress = true)
    (hdec : decode buf {} = .error (.invalidMessage what)) :
    s'.replies = [errLine what] ∧ s'.loopInProgress = true := by
  cases h with
  | empty => cases hdec
  | undecodable hdec' =>
    obtain rfl := Exn.invalidMessage.inj (Except.error.inj (hdec'.symm.trans hdec))
    refine ⟨replies_over rfl, ?_⟩
    show (released (ready s)).loopInProgress = true
    rw [loopInProgress_released]
    exact hopen
  | login hdec' => rw [hdec] at hdec'; cases hdec'
  | premature hdec' => rw [hdec] at hdec'; cases hdec'
  | request hdec' => rw [hdec] at hdec'; cases hdec'

/-- What an ERROR or the OK of a BYE leaves. -/
theorem Reply.ends {input : Input} {s' : Session} (h : Reply input s')
    (hend : EndsSession (input, s')) : s'.loopInProgress = false ∨ Undecodable input := by
  cases h with
  | silent h =>
    rcases hend with ⟨what, hmem⟩ | ⟨-, hmem⟩
    · rw [h] at hmem; cases hmem
    · rw [h] at hmem; cases hmem
  | served h _ _ hbye =>
    rcases hend with ⟨what, hmem⟩ | ⟨hreq, -⟩
    · exfalso
      rcases h with h | ⟨v, h⟩
      · rw [h] at hmem
        exact errLine_ne_okLine what (List.eq_of_mem_singleton hmem)
      · rw [h] at hmem
        exact dataLine_ne_errLine v what (List.eq_of_mem_singleton hmem).symm
    · exact .inl (hbye hreq)
  | @failed what' h =>
    exfalso
    rcases hend with ⟨what, hmem⟩ | ⟨-, hmem⟩
    · rw [h] at hmem
      exact errLine_ne what what' (List.eq_of_mem_singleton hmem)
    · rw [h] at hmem
      exact okLine_ne what' (List.eq_of_mem_singleton hmem)
  | error _ hend => exact hend

/-- What a FAILED leaves. -/
theorem Reply.goesOn {input : Input} {s' : Session} (h : Reply input s') {what : Str}
    (hfail : failLine what ∈ s'.replies) : s'.loopInProgress = true ∧ s'.inTransaction = false := by
  cases h with
  | silent h => rw [h] at hfail; cases hfail
  | served h =>
    exfalso
    rcases h with h | ⟨v, h⟩
    · rw [h] at hfail
      exact okLine_ne what (List.eq_of_mem_singleton hfail).symm
    · rw [h] at hfail
      exact dataLine_ne_failLine v what (List.eq_of_mem_singleton hfail).symm
  | failed _ hopen htx => exact ⟨hopen, htx⟩
  | @error what' h =>
    rw [h] at hfail
    exact absurd (List.eq_of_mem_singleton hfail).symm (errLine_ne what' what)

/-- Nothing follows the end of a loop. -/
theorem Dialogue.last {newer older : List (Input × Session)} {e : Input × Session} {s : Session}
    (h : Dialogue (newer ++ e :: older) s) (hend : e.2.loopInProgress = false) :
    newer = [] ∧ s = e.2 := by
  induction newer generalizing s with
  | nil =>
    cases h with
    | next => exact ⟨rfl, rfl⟩
  | cons _ newer ih =>
    cases h with
    | next h hopen =>
      obtain ⟨-, rfl⟩ := ih h
      rw [hend] at hopen
      cases hopen

section Final

variable {ι : Type} {i : ι}

theorem accept_closed {srv : Server ι} {s : Session} {input : Input}
    (h : s.loopInProgress = false) : (serverSystem ι).accept i srv s input = none := by
  show (if s.loopInProgress ∧ srv.aborted = false then _ else none) = none
  rw [h]
  exact if_neg fun hs => Bool.false_ne_true hs.1

theorem accept_open {srv : Server ι} {s : Session} (h : s.loopInProgress = true)
    (hab : srv.aborted = false) (i : ι) (input : Input) : ((serverSystem ι).accept i srv s input).isSome := by
  show (if s.loopInProgress ∧ srv.aborted = false then _ else none).isSome
  rw [if_pos ⟨h, hab⟩]
  rfl

variable [DecidableEq ι] {T : Chat ι}

/-- The claims of the threads agree with the mutexes. -/
theorem owned_of_leads (h : System.Leads (serverSystem ι) (opening ι) T) :
    ∃ γ, Owned False T.config.shared γ ∧ ∀ i, Placed False (T.config.threads i) (γ i) := by
  obtain ⟨log, -, hrun⟩ := h.run
  have hrun' : System.Run ((serverSystem ι).restrict fun i o srv r => False → FindsKey i o srv r)
      (start ι) log T.config := System.Run.mono hrun rfl fun i o srv r srv' h => ⟨h, nofun⟩
  exact reachable_owned hrun'

/-- Outside a transaction a session at rest has no table. -/
theorem rest_holdsNothing (h : System.Leads (serverSystem ι) (opening ι) T) {s : Session}
    (hc : T.config.threads i = .rest s) (htx : s.inTransaction = false) :
    s.lockedTables = [] ∧ HoldsNothing T.config i := by
  obtain ⟨γ, hown, hat⟩ := owned_of_leads h
  have hi := hat i
  rw [hc] at hi
  have hrest : AtRest False s (γ i) := hi
  refine ⟨hrest.noTx htx, fun t hm => ?_, fun hm => ?_⟩
  · have hmem := hown.held t i hm
    rw [hrest.noTables htx] at hmem
    exact Finset.notMem_empty t hmem
  · have hserver := (hown.server i).mp hm
    rw [hrest.server] at hserver
    cases hserver

/-- The loop goes on after a line that is no message. -/
theorem ErrorFinal.decodable (h : System.Leads (serverSystem ι) (opening ι) T) (herr : ErrorFinal T i) :
    ∀ e ∈ past i T.done, ¬ Undecodable e.1 := by
  rintro e he ⟨buf, what, hline, hdec⟩
  obtain ⟨s, hd⟩ := Dialogue.exists h i
  obtain ⟨newer, older, hpast⟩ := List.append_of_mem he
  rw [hpast] at hd
  obtain ⟨s₀, -, hopen, hout⟩ := hd.cut
  have hleft : e.2.replies = [errLine what] ∧ e.2.loopInProgress = true := by
    rw [hline] at hout
    exact hout.undecodable_left hopen hdec
  have hnone := (herr.final newer e older hpast
    (.inl ⟨what, by rw [hleft.1]; exact List.mem_singleton_self _⟩)).2.2.2 {} .eof
  have hsome := @accept_open ι {} e.2 hleft.2 rfl i .eof
  rw [hnone] at hsome
  cases hsome

/-- **ERROR is final and FAILED is not** in exactly the sessions all of whose lines are messages. -/
theorem errorFinal_iff (h : System.Leads (serverSystem ι) (opening ι) T) (i : ι) :
    ErrorFinal T i ↔ ∀ e ∈ past i T.done, ¬ Undecodable e.1 := by
  constructor
  · exact ErrorFinal.decodable h
  intro hall
  obtain ⟨s, hd⟩ := Dialogue.exists h i
  constructor
  case final =>
    intro newer e older hpast hend
    have he : e ∈ past i T.done := by rw [hpast]; simp
    have hcut := hd
    rw [hpast] at hcut
    obtain ⟨s₀, -, hopen, hout⟩ := hcut.cut
    have hclosed : e.2.loopInProgress = false :=
      ((hout.reply hopen).ends hend).resolve_right (hall e he)
    obtain ⟨hnew, -⟩ := hcut.last hclosed
    refine ⟨(hout.reply hopen).length_le, hnew, ?_, fun srv input => accept_closed hclosed⟩
    rcases Dialogue.of_located h i with ⟨s₁, hc, hd₁⟩ | ⟨s₁, _, _, _, hd₁, hopen₁, _⟩
    · rw [hpast] at hd₁
      obtain ⟨-, rfl⟩ := hd₁.last hclosed
      exact hc
    · -- the session cannot be at work on another input
      rw [hpast] at hd₁
      obtain ⟨-, rfl⟩ := hd₁.last hclosed
      rw [hclosed] at hopen₁
      cases hopen₁
  case goesOn =>
    intro newer e older what hpast hfail
    obtain ⟨T₁, hlead, -, hc, -⟩ := h.completed rfl hpast
    rw [hpast] at hd
    obtain ⟨s₀, -, hopen, hout⟩ := hd.cut
    obtain ⟨hopen', htx⟩ := (hout.reply hopen).goesOn hfail
    refine ⟨htx, (rest_holdsNothing hlead hc htx).1, fun srv input hab => accept_open hopen' hab i input, ?_⟩
    exact fun _ hrest => (rest_holdsNothing h hrest htx).2

end Final

/-- A FAILED and then a BYE. -/
theorem errorFinal_iff_bye : ∃ T, System.Leads (serverSystem Unit) (opening Unit) T ∧
    (past () T.done).map (fun e => e.2.replies)
      = [[okLine], [failLine "No value on stack.".toList], [okLine]] ∧ ErrorFinal T () := by
  obtain ⟨T, hlead, hreplies, hall⟩ := @chatted Unit _
    (told () "LOGIN a\n" 1 ++ told () "SET t k\n" 1 ++ told () "BYE\n" 1)
    (fun T => (past () T.done).map (fun e => e.2.replies)
        = [[okLine], [failLine "No value on stack.".toList], [okLine]] ∧
      (past () T.done).all (fun e => (request e.1).isSome) = true) inferInstance (by decide +kernel)
  refine ⟨T, hlead, hreplies, (errorFinal_iff hlead ()).mpr fun e he => ?_⟩
  exact not_undecodable (List.all_eq_true.mp hall e he)

/-- An ERROR, and then an OK. -/
theorem not_errorFinal : ¬ ∀ T, System.Leads (serverSystem Unit) (opening Unit) T →
    ∀ i, ErrorFinal T i := by
  intro h
  obtain ⟨T, hlead, hreplies⟩ := @chatted Unit _
    (told () "LOGIN a\n" 1 ++ told () "FOO\n" 1 ++ told () "PUSH 1\n" 1)
    (fun T => (past () T.done).map (fun e => e.2.replies)
      = [[okLine], [errLine "Message must have a type.".toList], [okLine]]) inferInstance
    (by decide +kernel)
  obtain ⟨e₃, rest, hpast, -, hrest⟩ := List.map_eq_cons_iff.mp hreplies
  obtain ⟨e₂, older, rfl, he₂, -⟩ := List.map_eq_cons_iff.mp hrest
  have hend : EndsSession e₂ := .inl ⟨_, by rw [he₂]; exact List.mem_singleton_self _⟩
  have hnew := ((h T hlead ()).final [e₃] e₂ older hpast hend).2.1
  cases hnew

end BasicServer
