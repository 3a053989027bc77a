/-
  Table names.

  `create_table` writes the entry of the map whether the name is bound or not, so it is the critical
  section of CREATE that keeps a name from being bound twice.  The outline gives every thread a
  `Maker`: whether it holds the server's mutex, the name it has found missing since it took it, and
  the names it has created.  A name found missing stays missing until the mutex is given back,
  because nobody else can create one.

  1. **Outline** (`creationOutline`) — a table is created under a missing name only, and the CREATEs
     of a thread answered OK are as many as the tables it has created.
  2. **Runs** (`names_stay`) — at most one CREATE of a name is answered OK, a name stays bound to its
     table, and a CREATE of a bound name fails.
-/
import BasicServer.Dialogue

namespace BasicServer

open Function (update)

/-- What a thread does inside CREATE, and has done. -/
structure Maker where
  server : Bool := false
  missing : Option Str := none
  made : List Str := []

/-- What a call asks of its caller. -/
def Call.Expects (g : Maker) : Call → Prop
  | .serverLock => g.server = false
  | .serverUnlock => g.server = true
  | .createTable name => g.server = true ∧ g.missing = some name
  | _ => True

/-- The caller after the call. -/
def Call.maker (g : Maker) : (c : Call) → c.Ans → Maker
  | .serverLock, _ => { g with server := true }
  | .serverUnlock, _ => { g with server := false, missing := none }
  | .findTable name, none => if g.server then { g with missing := some name } else g
  | .createTable name, _ => { g with missing := none, made := name :: g.made }
  | _, _ => g

/-- The specification of the calls. -/
def creation : Prog.Spec calls Maker where
  pre o Q g := o.call.Expects g ∧ ∀ r, Possible o.call r → Q r (o.call.maker g r)
  mono hQ h := ⟨h.1, fun r hr => hQ r _ (h.2 r hr)⟩

/-- The call is none of those by which CREATE works on the map of the tables. -/
def Call.Calm : Call → Prop
  | .serverLock | .serverUnlock | .createTable _ => False
  | _ => True

/-! ## Programs -/

section Programs

variable {s : Session} {g : Maker} {Q : Session → Maker → Prop}

/-- The rule for a call. -/
theorem making {α : Type} {c : Call} {k : c.Ans → Prog calls α} {Q : α → Maker → Prop}
    (hc : c.Expects g) (h : ∀ r, Possible c r → (k r).wp creation Q (c.maker g r)) :
    (Prog.call ⟨c, s⟩ k : Prog calls α).wp creation Q g := ⟨hc, h⟩

variable (hg : g.server = false)
include hg

/-- Outside CREATE a call leaves the caller as it is. -/
theorem calm {α : Type} {c : Call} {k : c.Ans → Prog calls α} {Q : α → Maker → Prop}
    (hc : c.Calm) (h : ∀ r, Possible c r → (k r).wp creation Q g) :
    (Prog.call ⟨c, s⟩ k : Prog calls α).wp creation Q g := by
  have hasks : c.Expects g := by cases c <;> trivial
  refine making hasks fun r hr => ?_
  have hsame : c.maker g r = g := by
    cases c with
    | serverLock | serverUnlock | createTable => exact hc.elim
    | findTable name =>
      cases r with
      | none => exact if_neg (by rw [hg]; exact nofun)
      | some t => rfl
    | _ => rfl
  rw [hsame]
  exact h r hr

theorem calm_releaseAll (act : Ptr → Call) (hact : ∀ t, (act t).Calm) (ts : List Ptr) {P : Prop}
    (h : P) : (releaseAll act s ts).wp creation (fun _ g' => g' = g ∧ P) g := by
  induction ts with
  | nil => exact ⟨rfl, h⟩
  | cons t ts ih => exact calm hg (hact t) fun _ _ => calm hg trivial fun _ _ => ih

theorem calm_giveUp {fin : Session → Session} (h : Q (fin (released s)) g) :
    (giveUp s fin).wp creation Q g := by
  unfold giveUp released at *
  split
  · rename_i htx
    rw [if_pos htx] at h
    refine calm hg trivial fun ts _ => ?_
    rw [Prog.wp_bind]
    refine Prog.wp_mono ?_ (calm_releaseAll hg .rollbackChanges (fun _ => trivial) ts h)
    rintro _ _ ⟨rfl, hQ⟩
    exact hQ
  · rename_i htx
    rw [if_neg htx] at h
    exact h

theorem calm_failWith {what : Str} : (failWith s what).wp creation (fun _ g' => g' = g) g :=
  calm_giveUp hg rfl

theorem calm_findTree {name : Str} {body : Ptr → Prog calls Session}
    (hbody : ∀ t, (body t).wp creation (fun _ g' => g' = g) g) :
    (findTree s name body).wp creation (fun _ g' => g' = g) g := by
  refine calm hg trivial fun found _ => ?_
  cases found with
  | none => exact calm_failWith hg
  | some t => exact hbody t

theorem calm_acquireTree {t : Ptr} {body : Session → Prog calls Session}
    (hbody : ∀ s', (body s').wp creation (fun _ g' => g' = g) g) :
    (acquireTree s t body).wp creation (fun _ g' => g' = g) g := by
  unfold acquireTree
  split
  · exact hbody _
  · refine calm hg trivial fun success _ => ?_
    cases success with
    | false => exact calm_failWith hg
    | true => exact hbody _

theorem calm_commitTree : (commitTree s).wp creation (fun _ g' => g' = g) g := by
  refine calm hg trivial fun ts _ => ?_
  rw [Prog.wp_bind]
  exact Prog.wp_mono (fun _ _ h => h.1)
    (calm_releaseAll hg .commitChanges (fun _ => trivial) ts trivial)

theorem calm_setTree {name key v : Str} {st : List Str} :
    (setTree s name key v st).wp creation (fun _ g' => g' = g) g := by
  refine calm_findTree hg fun t => ?_
  split
  · exact calm_acquireTree hg fun s' => calm hg trivial fun _ _ => rfl
  · -- lock, set, commit_changes, unlock
    exact calm hg trivial fun _ _ => calm hg trivial fun _ _ => calm hg trivial fun _ _ =>
      calm hg trivial fun _ _ => rfl

theorem calm_getTree {name key : Str} :
    (getTree s name key).wp creation (fun _ g' => g' = g) g := by
  refine calm_findTree hg fun t => ?_
  split
  · refine calm_acquireTree hg fun s' => calm hg trivial fun has _ => ?_
    split
    · refine calm hg trivial fun r hr => ?_
      cases r with
      | ok v => exact rfl
      | error e =>
        obtain rfl := possible_get hr
        show (settle _).wp _ _ _
        rw [settle_operation (by decide)]
        exact calm_failWith hg
    · exact calm hg trivial fun _ _ => calm_failWith hg
  · refine calm hg trivial fun _ _ => calm hg trivial fun has _ => ?_
    split
    · refine calm hg trivial fun r hr => ?_
      cases r with
      | ok v => exact calm hg trivial fun _ _ => rfl
      | error e =>
        obtain rfl := possible_get hr
        refine calm hg trivial fun _ _ => ?_
        rw [settle_operation (by decide)]
        exact calm_failWith hg
    · exact calm hg trivial fun _ _ => calm hg trivial fun _ _ => calm_failWith hg

/-- **CREATE** checks and creates in one critical section, and leaves it. -/
theorem making_createTree {name : Str} (hno : Q (answered (released s)
      (failLine "A table with this name already exists.".toList)) ⟨false, none, g.made⟩)
    (hok : Q (answered s okLine) ⟨false, none, name :: g.made⟩) :
    (createTree s name).wp creation Q g := by
  refine making hg fun _ _ => making trivial fun found _ => ?_
  cases found with
  | some t =>
    rw [if_pos nofun]
    refine making rfl fun _ _ => ?_
    show Prog.wp creation _ Q ⟨false, none, g.made⟩
    exact calm_giveUp rfl hno
  | none =>
    rw [if_neg (not_not.mpr rfl)]
    -- the name is missing, and it stays so while the mutex is held
    show Prog.wp creation _ Q ⟨true, some name, g.made⟩
    exact making ⟨rfl, rfl⟩ fun _ _ => making rfl fun _ _ => hok

end Programs

/-- The input is a CREATE of the name. -/
def creates (name : Str) (input : Input) : Bool :=
  decide (request input = some ⟨.create, [name]⟩)

/-- It was answered OK. -/
def createOk (name : Str) (e : Input × Session) : Bool :=
  creates name e.1 && decide (e.2.replies = [okLine])

theorem createOk_of_not {name : Str} {e : Input × Session} (h : creates name e.1 = false) :
    createOk name e = false := by
  rw [createOk, h]
  rfl

theorem createOk_of_replies {name : Str} {e : Input × Session} (h : e.2.replies ≠ [okLine]) :
    createOk name e = false := by
  rw [createOk, decide_eq_false h, Bool.and_false]

theorem creates_of_decode {buf name : Str} {msg : Message} (h : decode buf {} = .ok msg) :
    creates name (.line buf) = decide (msg = ⟨.create, [name]⟩) := by
  rw [creates, request_of_decode h]
  exact decide_eq_decide.mpr ⟨Option.some.inj, congrArg some⟩

/-- `Makes g input s' g'` — the input left the session `s'`, and one more table if it was a CREATE
    answered OK. -/
inductive Makes (g : Maker) (input : Input) (s' : Session) : Maker → Prop
  | nothing (h : ∀ name, createOk name (input, s') = false) : Makes g input s' g
  | table {name : Str} (h : ∀ name', createOk name' (input, s') = decide (name' = name)) :
      Makes g input s' ⟨false, none, name :: g.made⟩

/-- **What the program of an input makes.** -/
theorem process_creation {s : Session} {g : Maker} (hg : g.server = false) (hm : g.missing = none)
    (hopen : s.loopInProgress = true) (input : Input) :
    (process input s).wp creation (fun s' g' => Makes g input s' g') g := by
  obtain ⟨_, _, made⟩ := g
  obtain rfl : _ = false := hg
  obtain rfl : _ = none := hm
  have hshape := process_shape hopen input
  generalize process input s = p at hshape ⊢
  have other : ∀ {p : Prog calls Session}, (∀ name, creates name input = false) →
      p.wp creation (fun _ g' => g' = ⟨false, none, made⟩) ⟨false, none, made⟩ →
      p.wp creation (fun s' g' => Makes ⟨false, none, made⟩ input s' g') ⟨false, none, made⟩ := by
    intro p hno hp
    refine Prog.wp_mono ?_ hp
    rintro s' _ rfl
    exact .nothing fun name => createOk_of_not (hno name)
  cases hshape with
  | eof => exact other (fun _ => rfl) (calm_giveUp rfl rfl)
  | empty => exact other (fun _ => rfl) (calm rfl trivial fun _ _ => rfl)
  | undecodable hdec =>
    refine other (fun name => ?_) (calm_giveUp rfl rfl)
    rw [creates, request, hdec]
    rfl
  | login hdec ht =>
    refine other (fun name => ?_) rfl
    rw [creates_of_decode hdec]
    refine decide_eq_false ?_
    rintro rfl
    cases ht
  | premature hdec ht hfirst =>
    refine calm_giveUp rfl (.nothing fun name => createOk_of_replies fun hok => ?_)
    rw [show id (released _) = released _ from rfl, replies_released] at hok
    exact errLine_ne_okLine _ (List.singleton_injective hok)
  | @request buf msg p hdec ht hfirst hp =>
    have not_create : msg.mMessageType ≠ .create → ∀ name, creates name (.line buf) = false := by
      intro hmsg name
      rw [creates_of_decode hdec]
      refine decide_eq_false ?_
      rintro rfl
      exact hmsg rfl
    cases hp with
    | computes h =>
      refine other (not_create fun hmsg => ?_) rfl
      have htype := h.type
      rw [hmsg] at htype
      exact absurd htype (by decide)
    | refuses h =>
      refine calm_giveUp rfl (.nothing fun name => createOk_of_replies fun hok => ?_)
      rw [replies_over rfl] at hok
      exact okLine_ne _ (List.singleton_injective hok).symm
    | kills h =>
      exact calm rfl trivial fun _ _ => .nothing fun name => createOk_of_replies (List.cons_ne_nil _ _).symm
    | overlong => exact other (not_create (by simp)) (calm_giveUp rfl rfl)
    | begin => exact other (not_create (by simp)) rfl
    | commit => exact other (not_create (by simp)) (calm_commitTree rfl)
    | bye => exact other (not_create (by simp)) (calm_giveUp rfl rfl)
    | @create name =>
      refine making_createTree rfl (.nothing fun name' => createOk_of_replies fun hok => ?_)
        (.table fun name' => ?_)
      · rw [replies_over rfl] at hok
        exact okLine_ne _ (List.singleton_injective hok).symm
      · show (creates name' (.line buf) && true) = _
        rw [Bool.and_true, creates_of_decode hdec]
        refine decide_eq_decide.mpr ⟨fun heq => ?_, ?_⟩
        · cases heq; rfl
        · rintro rfl; rfl
    | set => exact other (not_create (by simp)) (calm_setTree rfl)
    | get => exact other (not_create (by simp)) (calm_getTree rfl)

/-! ## Every reachable state -/

section Reachable

variable {ι : Type}

/-- The call creates a table of the name. -/
def isCreation (name : Str) (c : Called ι calls) : Bool := decide (c.op.call = .createTable name)

/-- The makers agree with the server's mutex, the names and the tables created so far. -/
structure Made [DecidableEq ι] (log : List (Called ι calls)) (srv : Server ι) (γ : ι → Maker) :
    Prop where
  mutex : ∀ i, srv.mutex = some i ↔ (γ i).server = true
  missing : ∀ i name, (γ i).missing = some name → (γ i).server = true ∧ srv.findTable name = none
  made : ∀ i name, (γ i).made.count name = (log.filter (·.who = i)).countP (isCreation name)
  names : ∀ name, log.countP (isCreation name) = (srv.findTable name).toList.length

variable [DecidableEq ι]

/-- A call that creates nothing. -/
theorem Made.pass {log : List (Called ι calls)} {srv srv' : Server ι} {γ γ' : ι → Maker}
    (h : Made log srv γ) {c : Called ι calls} (hc : ∀ name, isCreation name c = false)
    (hnames : ∀ name, srv'.findTable name = srv.findTable name)
    (hmade : ∀ i, (γ' i).made = (γ i).made)
    (hmutex : ∀ i, srv'.mutex = some i ↔ (γ' i).server = true)
    (hmissing : ∀ i name, (γ' i).missing = some name →
      (γ' i).server = true ∧ srv.findTable name = none) :
    Made (log ++ [c]) srv' γ' where
  mutex := hmutex
  missing i name hm := by rw [hnames]; exact hmissing i name hm
  made i name := by
    have hzero : ([c].filter (·.who = i)).countP (isCreation name) = 0 := by
      rw [List.countP_eq_zero]
      intro c' hc'
      obtain rfl := List.eq_of_mem_singleton (List.mem_filter.mp hc').1
      rw [hc name]
      exact Bool.false_ne_true
    rw [List.filter_append, List.countP_append, hzero, Nat.add_zero, hmade, h.made]
  names name := by
    rw [List.countP_append, hnames, h.names, List.countP_singleton, hc name]
    rfl

/-- The holder of the server's mutex is one. -/
theorem Made.holder {log : List (Called ι calls)} {srv : Server ι} {γ : ι → Maker}
    (h : Made log srv γ) {i j : ι} (hi : (γ i).server = true) (hj : (γ j).server = true) :
    j = i := by
  have hi' := (h.mutex i).mpr hi
  rw [(h.mutex j).mpr hj] at hi'
  exact Option.some.inj hi'

omit [DecidableEq ι] in
theorem maker_findTable (g : Maker) (name : Str) (r : Option Ptr) :
    Call.maker g (.findTable name) r
      = if g.server = true ∧ r = none then { g with missing := some name } else g := by
  cases r with
  | none => simp [Call.maker]
  | some t => simp [Call.maker]

/-- **One call** keeps the makers in agreement. -/
theorem Made.call {log : List (Called ι calls)} {srv srv' : Server ι} {γ : ι → Maker}
    (h : Made log srv γ) {i : ι} {o : calls.Op} {r : calls.Ans o} (hask : o.call.Expects (γ i))
    (hstep : o.call.Step i srv r srv') :
    Made (log ++ [⟨i, o, r⟩]) srv' (update γ i (o.call.maker (γ i) r)) := by
  obtain ⟨c, s⟩ := o
  obtain ⟨-, hs⟩ := hstep
  have same : ∀ {srv' : Server ι}, (∀ name, isCreation name (⟨i, ⟨c, s⟩, r⟩ : Called ι calls) = false) →
      srv'.mutex = srv.mutex → (∀ name, srv'.findTable name = srv.findTable name) →
      c.maker (γ i) r = γ i →
      Made (log ++ [⟨i, ⟨c, s⟩, r⟩]) srv' (update γ i (c.maker (γ i) r)) := by
    intro srv' hc hmutex hnames hg
    rw [hg, Function.update_eq_self]
    exact h.pass hc hnames (fun _ => rfl) (fun j => by rw [hmutex]; exact h.mutex j) h.missing
  have made : ∀ {g : Maker}, g.made = (γ i).made → ∀ j, (update γ i g j).made = (γ j).made := by
    intro g hg j
    by_cases hji : j = i
    · subst hji; rw [Function.update_self]; exact hg
    · rw [Function.update_of_ne hji]
  cases c with
  | serverLock =>
    have hno : (γ i).server = false := hask
    simp only [Call.apply] at hs
    split at hs
    · rename_i hfree
      cases hs
      refine h.pass (fun _ => rfl) (fun _ => rfl) (made rfl) (fun j => ?_) fun j name hm => ?_
      · by_cases hji : j = i
        · subst hji
          rw [Function.update_self]
          exact ⟨fun _ => rfl, fun _ => rfl⟩
        · rw [Function.update_of_ne hji]
          refine ⟨fun hj => absurd (Option.some.inj hj).symm hji, fun hj => ?_⟩
          rw [(h.mutex j).mpr hj] at hfree
          cases hfree
      · by_cases hji : j = i
        · subst hji
          rw [Function.update_self] at hm
          have hserver := (h.missing j name hm).1
          rw [hno] at hserver
          cases hserver
        · rw [Function.update_of_ne hji] at hm ⊢
          exact h.missing j name hm
    · cases hs
  | serverUnlock =>
    cases hs
    refine h.pass (fun _ => rfl) (fun _ => rfl) (made rfl) (fun j => ?_) fun j name hm => ?_
    · by_cases hji : j = i
      · subst hji
        rw [Function.update_self]
        constructor
        · intro hj; cases hj
        · intro hj; cases hj
      · rw [Function.update_of_ne hji]
        refine ⟨fun hj => ?_, fun hj => absurd (h.holder hask hj) hji⟩
        cases hj
    · by_cases hji : j = i
      · subst hji
        rw [Function.update_self] at hm
        cases hm
      · rw [Function.update_of_ne hji] at hm ⊢
        exact h.missing j name hm
  | findTable name =>
    cases hs
    rw [maker_findTable]
    split
    · -- inside the critical section what is found stays true
      rename_i hinside
      refine h.pass (fun _ => rfl) (fun _ => rfl) (made rfl) (fun j => ?_) fun j name' hm => ?_
      · by_cases hji : j = i
        · subst hji; rw [Function.update_self]; exact h.mutex j
        · rw [Function.update_of_ne hji]; exact h.mutex j
      · by_cases hji : j = i
        · subst hji
          rw [Function.update_self] at hm ⊢
          obtain rfl := Option.some.inj hm
          exact hinside
        · rw [Function.update_of_ne hji] at hm ⊢
          exact h.missing j name' hm
    · rw [Function.update_eq_self]
      exact h.pass (fun _ => rfl) (fun _ => rfl) (fun _ => rfl) h.mutex h.missing
  | createTable name =>
    cases hs
    obtain ⟨hserver, hmissing⟩ := hask
    have hnone : srv.findTable name = none := (h.missing i name hmissing).2
    have hcreates : ∀ name', isCreation name' (⟨i, ⟨.createTable name, s⟩, ()⟩ : Called ι calls)
        = decide (name = name') := fun name' => by simp [isCreation]
    constructor
    case mutex =>
      intro j
      by_cases hji : j = i
      · subst hji; rw [Function.update_self]; exact h.mutex j
      · rw [Function.update_of_ne hji]; exact h.mutex j
    case missing =>
      intro j name' hm
      by_cases hji : j = i
      · subst hji
        rw [Function.update_self] at hm
        cases hm
      · -- nobody else is in the critical section
        rw [Function.update_of_ne hji] at hm
        exact absurd (h.holder hserver (h.missing j name' hm).1) hji
    case made =>
      intro j name'
      rw [List.filter_append, List.countP_append, ← h.made]
      by_cases hji : j = i
      · subst hji
        rw [Function.update_self, List.filter_cons_of_pos (by simp), List.filter_nil,
          List.countP_singleton, hcreates]
        show (name :: (γ j).made).count name' = _
        rw [List.count_cons]
        simp
      · rw [Function.update_of_ne hji, List.filter_cons_of_neg (by simpa using Ne.symm hji)]
        rfl
    case names =>
      intro name'
      rw [List.countP_append, h.names, List.countP_singleton, hcreates]
      by_cases hname : name = name'
      · subst hname
        rw [hnone, Server.findTable_createTable, decide_eq_true rfl]
        rfl
      · rw [Server.findTable_createTable_ne _ (Ne.symm hname), decide_eq_false hname]
        rfl
  | lock t =>
    simp only [Call.apply] at hs
    split at hs
    · cases hs; exact same (fun _ => rfl) rfl (fun _ => rfl) rfl
    · cases hs
  | trylock t =>
    simp only [Call.apply] at hs
    split at hs
    · cases hs; exact same (fun _ => rfl) rfl (fun _ => rfl) rfl
    · cases hs; exact same (fun _ => rfl) rfl (fun _ => rfl) rfl
  | walk ts =>
    obtain ⟨-, rfl⟩ := hs
    exact same (fun _ => rfl) rfl (fun _ => rfl) rfl
  | unlock t | set t key value | hasKey t key | get t key | commitChanges t | rollbackChanges t
    | terminate => cases hs; exact same (fun _ => rfl) rfl (fun _ => rfl) rfl

/-- The outline: the makers are in agreement, and a session at rest has made as many tables as its
    CREATEs were answered OK. -/
def creationOutline (ι : Type) [DecidableEq ι] :
    System.Outline (System.recording (serverSystem ι)) Maker where
  spec _ := creation
  rest _ l g := g.server = false ∧ g.missing = none ∧
    ∀ name, l.2.countP (createOk name) = g.made.count name
  inv log srv γ := Made log srv γ
  accept_ok := by
    rintro i _ srv γ l input p _ ⟨hg, hm, hcount⟩ hacc
    obtain ⟨q, hq, rfl⟩ := System.accept_recording hacc
    obtain ⟨hopen, -, rfl⟩ := accept_serverSystem hq
    rw [Prog.wp_bind]
    refine Prog.wp_mono ?_ (process_creation hg hm hopen input)
    intro s' g' hmakes
    cases hmakes with
    | nothing h =>
      refine ⟨hg, hm, fun name => ?_⟩
      rw [List.countP_cons, h]
      exact hcount name
    | @table made h =>
      refine ⟨rfl, rfl, fun name => ?_⟩
      rw [List.countP_cons, h, List.count_cons, hcount]
      by_cases hname : name = made
      · subst hname
        simp
      · simp [hname, Ne.symm hname]
  call_ok := by
    intro i o _ srv γ r srv' Q hinv hpre hstep
    exact ⟨_, hpre.2 r ⟨ι, i, srv, srv', hstep⟩, hinv.call hpre.1 hstep⟩

variable {T T₁ T₂ : Chat ι}

/-- **In every reachable state** the makers are in agreement. -/
theorem reachable_made (h : System.Leads (serverSystem ι) (opening ι) T) :
    ∃ γ, Made T.log T.config.shared γ ∧
      (∀ i s, T.config.threads i = .rest s → (γ i).server = false ∧
        ∀ name, (past i T.done).countP (createOk name) = (γ i).made.count name) ∧
      ∀ i o k, T.config.threads i = .busy (.call o k) → o.call.Expects (γ i) := by
  obtain ⟨log, hlog, hrun⟩ := h.recording
  have hstart : (creationOutline ι).Holds [] (Trace.noted (opening ι)) := by
    refine ⟨fun _ => {}, ⟨fun _ => ⟨nofun, nofun⟩, fun _ _ => nofun, fun _ _ => rfl, fun _ => rfl⟩, ?_⟩
    exact fun _ => ⟨rfl, rfl, fun _ => rfl⟩
  obtain ⟨γ, hinv, hat⟩ := (creationOutline ι).run hstart hrun
  have hlog' : log = T.log := by rw [hlog]; rfl
  rw [hlog'] at hinv
  refine ⟨γ, hinv, fun i s hc => ?_, fun i o k hc => ?_⟩
  · have hi := hat i
    rw [Trace.noted_rest hc] at hi
    exact ⟨hi.1, hi.2.2⟩
  · have hi := hat i
    rw [Trace.noted_busy hc] at hi
    exact And.left hi

/-- A name is created once. -/
theorem creation_once (h : System.Leads (serverSystem ι) (opening ι) T) (name : Str) :
    T.log.countP (isCreation name) ≤ 1 := by
  obtain ⟨γ, hmade, -⟩ := reachable_made h
  rw [hmade.names]
  cases T.config.shared.findTable name with
  | none => exact Nat.zero_le _
  | some t => exact Nat.le_refl 1

/-- A session has created a table for each of its CREATEs that was answered OK. -/
theorem createOk_le (h : System.Leads (serverSystem ι) (opening ι) T) (i : ι) (name : Str) :
    (past i T.done).countP (createOk name)
      ≤ (T.log.filter (·.who = i)).countP (isCreation name) := by
  cases h.located rest_start i with
  | rest hc =>
    obtain ⟨γ, hmade, hrest, -⟩ := reachable_made h
    rw [(hrest i _ hc).2, hmade.made]
  | busy hfirst hthen hc _ hpast _ _ _ =>
    obtain ⟨γ, hmade, hrest, -⟩ := reachable_made hfirst
    obtain ⟨more, hlog, -⟩ := hthen.run
    rw [hpast, (hrest i _ hc).2, hmade.made, hlog, List.filter_append, List.countP_append]
    omega

/-- At most one CREATE of a name is answered OK. -/
theorem createOk_once (h : System.Leads (serverSystem ι) (opening ι) T) (name : Str) :
    T.done.countP (fun d => createOk name (d.input, d.after)) ≤ 1 := by
  have created : ∀ d ∈ T.done, createOk name (d.input, d.after) = true →
      ∃ c ∈ T.log.filter (isCreation name), c.who = d.who := by
    intro d hd hok
    have hpos : 0 < (past d.who T.done).countP (createOk name) :=
      List.countP_pos_iff.mpr ⟨_, mem_past.mpr hd, hok⟩
    have hle := createOk_le h d.who name
    obtain ⟨c, hc, hcreates⟩ := List.countP_pos_iff.mp (Nat.lt_of_lt_of_le hpos hle)
    obtain ⟨hmem, hwho⟩ := List.mem_filter.mp hc
    exact ⟨c, List.mem_filter.mpr ⟨hmem, hcreates⟩, by simpa using hwho⟩
  have honce := creation_once h name
  rw [List.countP_eq_length_filter] at honce
  rcases Nat.eq_zero_or_pos (T.done.countP fun d => createOk name (d.input, d.after)) with h0 | hpos
  · omega
  obtain ⟨d, hd, hok⟩ := List.countP_pos_iff.mp hpos
  obtain ⟨c, hc, hwho⟩ := created d hd hok
  obtain ⟨a, ha⟩ : ∃ a, T.log.filter (isCreation name) = [a] := by
    have hlen := List.length_pos_of_mem hc
    exact List.length_eq_one_iff.mp (by omega)
  -- the thread that has created the table is the only one with such an answer
  have hone : ∀ d' ∈ T.done, createOk name (d'.input, d'.after) = true → d'.who = d.who := by
    intro d' hd' hok'
    obtain ⟨c', hc', hwho'⟩ := created d' hd' hok'
    rw [ha] at hc hc'
    rw [← hwho, ← hwho', List.eq_of_mem_singleton hc, List.eq_of_mem_singleton hc']
  rw [countP_past hone]
  calc (past d.who T.done).countP (createOk name)
      ≤ (T.log.filter (·.who = d.who)).countP (isCreation name) := createOk_le h d.who name
    _ ≤ T.log.countP (isCreation name) := List.filter_sublist.countP_le
    _ ≤ 1 := creation_once h name

/-- One step keeps the table of every bound name. -/
theorem findTable_next (h : System.Leads (serverSystem ι) (opening ι) T)
    (hnext : System.Next (serverSystem ι) T T₁) {name : Str} {t : Ptr}
    (ht : T.config.shared.findTable name = some t) : T₁.config.shared.findTable name = some t := by
  cases hnext with
  | accept | finish => exact ht
  | @call i o k r srv' hc hstep =>
    obtain ⟨γ, hmade, -, hexpects⟩ := reachable_made h
    have hask := hexpects i o k hc
    obtain ⟨c, s⟩ := o
    obtain ⟨-, hs⟩ := hstep
    show srv'.findTable name = some t
    cases c with
    | createTable name' =>
      cases hs
      have hne : name ≠ name' := by
        rintro rfl
        rw [(hmade.missing i name hask.2).2] at ht
        cases ht
      rw [Server.findTable_createTable_ne _ hne]
      exact ht
    | serverLock | lock t' =>
      simp only [Call.apply] at hs
      split at hs
      · cases hs; exact ht
      · cases hs
    | trylock t' =>
      simp only [Call.apply] at hs
      split at hs <;> (cases hs; exact ht)
    | walk ts =>
      obtain ⟨-, rfl⟩ := hs
      exact ht
    | serverUnlock | findTable name' | unlock t' | set t' key value | hasKey t' key | get t' key
      | commitChanges t' | rollbackChanges t' | terminate => cases hs; exact ht

/-- What becomes of the names and the tables between `T₁` and `T₂`. -/
structure NamesStay (T₁ T₂ : Chat ι) : Prop where
  once : ∀ name, T₂.done.countP (fun d => createOk name (d.input, d.after)) ≤ 1
  refused : ∀ name t i s newer d, T₁.config.shared.findTable name = some t →
    T₁.config.threads i = .rest s → T₂.done = newer ++ T₁.done → d ∈ newer → d.who = i →
    creates name d.input = true →
    d.after.replies = [failLine "A table with this name already exists.".toList] ∨
      -- no request is served before login
      d.after.firstValidMessage = true ∧
        d.after.replies = [errLine "Please log in first.".toList]
  untouched : ∀ name t more, T₁.config.shared.findTable name = some t → T₂.log = T₁.log ++ more →
    ∀ c ∈ more, c.op.call ≠ .createTable name
  stays : ∀ name t, T₁.config.shared.findTable name = some t →
    T₂.config.shared.findTable name = some t
  kept : ∀ i name s k, T₂.config.threads i = .busy (.call ⟨.createTable name, s⟩ k) →
    T₂.config.shared.findTable name = none ∧ ∀ name' t, T₂.config.shared.findTable name' = some t →
      (T₂.config.shared.createTable name).tables t = T₂.config.shared.tables t
  released : ∀ i s, T₂.config.threads i = .rest s → T₂.config.shared.mutex ≠ some i

theorem Refuses.not_create {msg : Message} {tx : Bool} {st st' : List Str} {what : Str}
    (h : Refuses msg tx st st' what) : msg.mMessageType ≠ .create := by
  cases h with
  | few ht | right ht | left ht => rintro rfl; cases ht
  | response ht => rintro rfl; rcases ht with ht | ht | ht | ht | ht <;> cases ht
  | _ => exact nofun

theorem Kills.not_create {msg : Message} {st st' : List Str} (h : Kills msg st st') :
    msg.mMessageType ≠ .create := by
  cases h with
  | right ht | left ht => rintro rfl; cases ht
  | divide => exact nofun

/-- A CREATE after login is answered OK, or FAILED because the name is bound. -/
theorem Outcome.create {s s' : Session} {input : Input} {name : Str} (h : Outcome s input s')
    (hcreates : creates name input = true) :
    s'.replies = [okLine] ∨
      s'.replies = [failLine "A table with this name already exists.".toList] ∨
      s'.firstValidMessage = true ∧ s'.replies = [errLine "Please log in first.".toList] := by
  have hreq : BasicServer.request input = some ⟨.create, [name]⟩ := of_decide_eq_true hcreates
  cases h with
  | eof => cases hreq
  | empty => cases hreq
  | undecodable hdec => rw [BasicServer.request, hdec] at hreq; cases hreq
  | login hdec ht =>
    rw [request_of_decode hdec] at hreq
    obtain rfl := Option.some.inj hreq
    cases ht
  | premature _ _ hfirst =>
    exact .inr (.inr ⟨(firstValidMessage_released _).trans hfirst, replies_released _⟩)
  | request hdec _ _ ha =>
    rw [request_of_decode hdec] at hreq
    obtain rfl := Option.some.inj hreq
    cases ha with
    | computes h => exact absurd h.type (show MessageType.create ∉ _ by decide)
    | refuses h => exact absurd rfl h.not_create
    | kills h => exact absurd rfl h.not_create
    | created => exact .inl rfl
    | bound => exact .inr (.inl (replies_over rfl))

section Between

variable (h₁ : System.Leads (serverSystem ι) (opening ι) T₁) (h₂ : System.Leads (serverSystem ι) T₁ T₂)
  {name : Str} {t : Ptr} (ht : T₁.config.shared.findTable name = some t)
include h₁ h₂ ht

/-- No table is created for a name that is bound. -/
theorem creation_bound {more : List (Called ι calls)} (hlog : T₂.log = T₁.log ++ more) :
    more.countP (isCreation name) = 0 := by
  obtain ⟨γ, hmade, -⟩ := reachable_made h₁
  have hone := hmade.names name
  have honce := creation_once (h₁.trans h₂) name
  rw [ht] at hone
  rw [hlog, List.countP_append, hone] at honce
  have hlen : (some t).toList.length = 1 := rfl
  omega

/-- A bound name keeps its table. -/
theorem findTable_leads : T₂.config.shared.findTable name = some t := by
  induction h₂ with
  | refl => exact ht
  | tail hlead hnext ih => exact findTable_next (h₁.trans hlead) hnext ih

/-- No CREATE of a bound name is answered OK. -/
theorem createOk_bound {i : ι} {s : Session} {newer : List (Done ι Input Session)}
    (hc : T₁.config.threads i = .rest s) (hdone : T₂.done = newer ++ T₁.done) {e : Input × Session}
    (he : e ∈ past i newer) : createOk name e = false := by
  obtain ⟨γ, hmade, hrest, -⟩ := reachable_made h₁
  obtain ⟨more, hlog, -⟩ := h₂.run
  -- all tables of the name were created before `T₁`, and so all its CREATEs answered OK
  have hle := createOk_le (h₁.trans h₂) i name
  have hsame := (hrest i s hc).2 name
  have hmore : (more.filter (·.who = i)).countP (isCreation name) = 0 :=
    Nat.eq_zero_of_le_zero (creation_bound h₁ h₂ ht hlog ▸ List.filter_sublist.countP_le)
  rw [hdone, past_append, List.countP_append, hsame, hmade.made, hlog, List.filter_append,
    List.countP_append, hmore] at hle
  have hzero : (past i newer).countP (createOk name) = 0 := by omega
  exact Bool.not_eq_true _ ▸ List.countP_eq_zero.mp hzero e he

end Between

/-- **Names stay.**  For any number of clients and every interleaving: at most one CREATE of a name
    is answered OK, one of a bound name fails and creates nothing, a name keeps its table and the
    table its entries, and no session keeps the server's mutex. -/
theorem names_stay (h₁ : System.Leads (serverSystem ι) (opening ι) T₁)
    (h₂ : System.Leads (serverSystem ι) T₁ T₂) : NamesStay T₁ T₂ := by
  have h : System.Leads (serverSystem ι) (opening ι) T₂ := h₁.trans h₂
  obtain ⟨γ, hmade, hrest, hexpects⟩ := reachable_made h
  constructor
  case once => exact createOk_once h
  case refused =>
    intro name t i s newer d ht hc hdone hmem hwho hcreates
    obtain ⟨j, input, s'⟩ := d
    obtain rfl : i = j := hwho.symm
    have hpast : (input, s') ∈ past i newer := mem_past.mpr hmem
    have hno := createOk_bound h₁ h₂ ht hc hdone hpast
    obtain ⟨after, before, hsplit⟩ := List.append_of_mem hpast
    obtain ⟨s₂, hd₂⟩ := Dialogue.exists h i
    rw [hdone, past_append, hsplit, List.append_assoc, List.cons_append] at hd₂
    obtain ⟨s₀, hd₀, -, hout⟩ := hd₂.cut
    refine (hout.create hcreates).resolve_left fun hok => ?_
    rw [createOk, hcreates, decide_eq_true hok] at hno
    cases hno
  case untouched =>
    intro name t more ht hlog c hc hcall
    have hzero := List.countP_eq_zero.mp (creation_bound h₁ h₂ ht hlog) c hc
    exact hzero (decide_eq_true hcall)
  case stays =>
    intro name t ht
    exact findTable_leads h₁ h₂ ht
  case kept =>
    intro i name s k hc
    refine ⟨(hmade.missing i name (hexpects i _ k hc).2).2, fun name' t ht => ?_⟩
    obtain ⟨_, hown, -⟩ := owned_of_leads h
    exact Server.tables_createTable_ne _ _ _ (Nat.ne_of_lt (hown.names_lt name' t ht))
  case released =>
    intro i s hc hm
    have hserver := (hmade.mutex i).mp hm
    rw [(hrest i s hc).1] at hserver
    cases hserver

/-- Two clients CREATE the same table, one after the other. -/
theorem names_stay_two : ∃ T₁ T₂, System.Leads (serverSystem Bool) (opening Bool) T₁ ∧
    System.Leads (serverSystem Bool) T₁ T₂ ∧
    T₁.config.shared.findTable "t".toList = some 0 ∧ T₂.done.map (fun d => d.after.replies)
      = [[failLine "A table with this name already exists.".toList], [okLine], [okLine], [okLine]] ∧
    NamesStay T₁ T₂ := by
  obtain ⟨T₁, h₁, hname, hnext⟩ := @chatted Bool _
    (told false "LOGIN a\n" 1 ++ told true "LOGIN b\n" 1 ++ told false "CREATE t\n" 5)
    (fun T => T.config.shared.findTable "t".toList = some 0 ∧
      (Trace.play (serverSystem Bool) serve (told true "CREATE t\n" 4) T).any (fun T' =>
        decide (T'.done.map (fun d => d.after.replies)
          = [[failLine "A table with this name already exists.".toList], [okLine], [okLine],
             [okLine]])) = true) inferInstance (by decide +kernel)
  obtain ⟨T₂, h₂, hreplies⟩ := System.Leads.of_play (fun _ _ _ _ _ h => step_of_serve h) hnext
  exact ⟨T₁, T₂, h₁, h₂, hname, hreplies, names_stay h₁ h₂⟩

end Reachable

end BasicServer
