/-
  Runs that keep a record of what was completed.

  A `Trace` is a configuration with the calls made so far, the inputs that were completed (each with
  its thread and the local state it left, the newest first) and the inputs under way.  `Leads` is the
  reflexive transitive closure of one step, so a trace can be cut at any point, and what happened
  after the cut is what was put in front.

  1. **Erasure** — without the record a trace is a run (`Leads.run`), and every run from threads at
     rest is what is left of a trace (`Run.traced`).
  2. **Recording** — the system whose local states carry their own past (`recording`).  Traces are
     runs of it (`Leads.recording`), so an outline for it is a statement about the past of a thread.
  3. **Where a thread is** (`Leads.located`) — at rest, or in what is left of the program that it
     accepted when it was last at rest, with the past it had then.
     What it has completed was the last thing it had completed, once (`Leads.completed`).
  4. **Schedules** — evaluating one shows that its trace exists (`Leads.of_play`).
-/
import BasicServer.Lib.Interleave
import Mathlib.Logic.Relation

open Function (update)

/-- `Residual p q` — after some of the calls of `p`, and some answers, `q` is left. -/
inductive Prog.Residual {S : Sig} {α : Type} (p : Prog S α) : Prog S α → Prop
  | refl : Residual p p
  | call {o : S.Op} {k : S.Ans o → Prog S α} (h : Residual p (.call o k)) (r : S.Ans o) :
      Residual p (k r)

theorem Prog.Residual.of_ret {S : Sig} {α : Type} {a : α} {q : Prog S α}
    (h : Prog.Residual (.ret a) q) : q = .ret a := by
  induction h with
  | refl => rfl
  | call _ r ih => cases ih

/-- A program of one call is waiting for the answer, or has it. -/
theorem Prog.Residual.of_call {S : Sig} {α : Type} {o : S.Op} {f : S.Ans o → α} {q : Prog S α}
    (h : Prog.Residual (.call o fun r => .ret (f r)) q) :
    q = (.call o fun r => .ret (f r)) ∨ ∃ r, q = .ret (f r) := by
  induction h with
  | refl => exact .inl rfl
  | call _ r ih =>
    rcases ih with heq | ⟨r', heq⟩
    · cases heq
      exact .inr ⟨r, rfl⟩
    · cases heq

/-- An input that was completed: by whom, and the local state it left. -/
structure Done (ι X L : Type) where
  who : ι
  input : X
  after : L

/-- A configuration and how it came about. -/
structure Trace (ι σ L X : Type) (S : Sig) where
  config : Config ι σ L S
  log : List (Called ι S) := []
  done : List (Done ι X L) := []
  todo : ι → Option X := fun _ => none

section Past

variable {ι X L : Type} [DecidableEq ι]

/-- What thread `i` has completed. -/
def past (i : ι) (done : List (Done ι X L)) : List (X × L) :=
  done.filterMap fun d => if d.who = i then some (d.input, d.after) else none

theorem past_cons_self (i : ι) (x : X) (l : L) (done : List (Done ι X L)) :
    past i (⟨i, x, l⟩ :: done) = (x, l) :: past i done := by
  exact List.filterMap_cons_some (if_pos rfl)

theorem past_cons_ne {i : ι} {d : Done ι X L} (h : d.who ≠ i) (done : List (Done ι X L)) :
    past i (d :: done) = past i done := by
  exact List.filterMap_cons_none (if_neg h)

theorem past_append (i : ι) (newer older : List (Done ι X L)) :
    past i (newer ++ older) = past i newer ++ past i older := List.filterMap_append

theorem mem_past {i : ι} {done : List (Done ι X L)} {x : X} {l : L} :
    (x, l) ∈ past i done ↔ ⟨i, x, l⟩ ∈ done := by
  unfold past
  rw [List.mem_filterMap]
  constructor
  · rintro ⟨⟨j, y, m⟩, hmem, hd⟩
    split at hd
    · rename_i hj
      obtain rfl : j = i := hj
      obtain ⟨rfl, rfl⟩ := Prod.mk.inj (Option.some.inj hd)
      exact hmem
    · cases hd
  · exact fun hmem => ⟨_, hmem, if_pos rfl⟩

/-- What one thread alone has done can be counted in its past. -/
theorem countP_past {i : ι} {p : X × L → Bool} {done : List (Done ι X L)}
    (h : ∀ d ∈ done, p (d.input, d.after) = true → d.who = i) :
    done.countP (fun d => p (d.input, d.after)) = (past i done).countP p := by
  induction done with
  | nil => rfl
  | cons d done ih =>
    obtain ⟨hd, hdone⟩ := List.forall_mem_cons.mp h
    rw [List.countP_cons, ih hdone]
    by_cases hi : d.who = i
    · subst hi
      rw [past_cons_self d.who d.input d.after, List.countP_cons]
    · have hno : ¬ p (d.input, d.after) = true := fun hp => hi (hd hp)
      rw [past_cons_ne hi, if_neg hno, Nat.add_zero]

end Past

/-- Give a thread its past, and the input it is working on. -/
def Thread.noted {S : Sig} {L X : Type} (todo : Option X) (before : List (X × L)) :
    Thread S L → Thread S (L × List (X × L))
  | .rest l => .rest (l, before)
  | .busy p => .busy (p.bind fun l' => .ret (l', (todo.map (·, l')).toList ++ before))


open System

variable {ι σ L X G : Type} {S : Sig} [DecidableEq ι]

/-- One step of a trace. -/
inductive System.Next (M : System ι σ L X S) : Trace ι σ L X S → Trace ι σ L X S → Prop
  | accept {T : Trace ι σ L X S} {i : ι} {l : L} {x : X} {p : Prog S L}
      (hc : T.config.threads i = .rest l) (hp : M.accept i T.config.shared l x = some p) :
      Next M T { T with
        config := ⟨T.config.shared, update T.config.threads i (.busy p)⟩
        todo := update T.todo i (some x) }
  | call {T : Trace ι σ L X S} {i : ι} {o : S.Op} {k : S.Ans o → Prog S L} {r : S.Ans o} {s' : σ}
      (hc : T.config.threads i = .busy (.call o k)) (hs : M.step i o T.config.shared r s') :
      Next M T { T with
        config := ⟨s', update T.config.threads i (.busy (k r))⟩
        log := T.log ++ [⟨i, o, r⟩] }
  | finish {T : Trace ι σ L X S} {i : ι} {l : L} {x : X}
      (hc : T.config.threads i = .busy (.ret l)) (hx : T.todo i = some x) :
      Next M T { T with
        config := ⟨T.config.shared, update T.config.threads i (.rest l)⟩
        done := ⟨i, x, l⟩ :: T.done
        todo := update T.todo i none }

/-- `Leads M T T'` — some interleaving leads from `T` to `T'`. -/
def System.Leads (M : System ι σ L X S) : Trace ι σ L X S → Trace ι σ L X S → Prop :=
  Relation.ReflTransGen (Next M)

variable {M : System ι σ L X S} {T T' : Trace ι σ L X S}

/-! ## Erasure -/

/-- A step without the record. -/
theorem System.Next.step (h : Next M T T') :
    ∃ i a, Step M T.config i a T'.config ∧ T'.log = T.log ++ a.log i := by
  cases h with
  | accept hc hp => exact ⟨_, _, .accept hc hp, (List.append_nil _).symm⟩
  | call hc hs => exact ⟨_, _, .call hc hs, rfl⟩
  | finish hc hx => exact ⟨_, _, .finish hc, (List.append_nil _).symm⟩

/-- A trace without the record is a run. -/
theorem System.Leads.run (h : Leads M T T') :
    ∃ log, T'.log = T.log ++ log ∧ Run M T.config log T'.config := by
  induction h with
  | refl => exact ⟨[], (List.append_nil _).symm, .nil⟩
  | tail _ hnext ih =>
    obtain ⟨log, hlog, hrun⟩ := ih
    obtain ⟨i, a, hstep, hlog'⟩ := hnext.step
    refine ⟨log ++ a.log i, ?_, .snoc hrun hstep⟩
    rw [hlog', hlog, List.append_assoc]

/-- The threads at work have an input under way. -/
def Trace.Engaged (T : Trace ι σ L X S) : Prop :=
  ∀ i p, T.config.threads i = .busy p → ∃ x, T.todo i = some x

omit [DecidableEq ι] in
theorem engaged_of_rest {c : Config ι σ L S} (h : ∀ i, ∃ l, c.threads i = .rest l) :
    Trace.Engaged (X := X) ⟨c, [], [], fun _ => none⟩ := by
  intro i p hp
  obtain ⟨l, hl⟩ := h i
  have hp' : c.threads i = .busy p := hp
  rw [hl] at hp'
  cases hp'

/-- A step can be recorded, and the threads at work still have an input under way. -/
theorem System.Step.next {i : ι} {a : Act X S} {c : Config ι σ L S} (hT : Trace.Engaged T)
    (h : Step M T.config i a c) : ∃ T', Next M T T' ∧ T'.config = c ∧ T'.log = T.log ++ a.log i ∧
      Trace.Engaged T' := by
  cases h with
  | accept hc hp =>
    refine ⟨_, .accept hc hp, rfl, (List.append_nil _).symm, fun j q hj => ?_⟩
    by_cases hji : j = i
    · subst hji; exact ⟨_, Function.update_self ..⟩
    · simp only [Function.update_of_ne hji] at hj ⊢
      exact hT j q hj
  | call hc hs =>
    refine ⟨_, .call hc hs, rfl, rfl, fun j q hj => ?_⟩
    by_cases hji : j = i
    · subst hji; exact hT j _ hc
    · simp only [Function.update_of_ne hji] at hj
      exact hT j q hj
  | finish hc =>
    obtain ⟨x, hx⟩ := hT i _ hc
    refine ⟨_, .finish hc hx, rfl, (List.append_nil _).symm, fun j q hj => ?_⟩
    by_cases hji : j = i
    · subst hji; simp only [Function.update_self] at hj; cases hj
    · simp only [Function.update_of_ne hji] at hj ⊢
      exact hT j q hj

/-- Every run from threads at rest is what is left of a trace. -/
theorem System.Run.traced {c₀ c : Config ι σ L S} {log : List (Called ι S)} (h : Run M c₀ log c)
    (hrest : ∀ i, ∃ l, c₀.threads i = .rest l) :
    ∃ T : Trace ι σ L X S, Leads M { config := c₀ } T ∧ T.config = c ∧ T.log = log := by
  suffices hT : ∃ T : Trace ι σ L X S, Leads M { config := c₀ } T ∧ T.config = c ∧ T.log = log ∧
      Trace.Engaged T by
    obtain ⟨T, hlead, hc, hlog, -⟩ := hT
    exact ⟨T, hlead, hc, hlog⟩
  induction h with
  | nil => exact ⟨_, .refl, rfl, rfl, engaged_of_rest hrest⟩
  | snoc _ hstep ih =>
    obtain ⟨T, hlead, rfl, rfl, hT⟩ := ih
    obtain ⟨T', hnext, hc, hlog, hT'⟩ := hstep.next hT
    exact ⟨T', hlead.tail hnext, hc, hlog, hT'⟩

/-- What was completed stays on record. -/
theorem System.Leads.done (h : Leads M T T') : ∃ newer, T'.done = newer ++ T.done := by
  induction h with
  | refl => exact ⟨[], rfl⟩
  | tail _ hnext ih =>
    obtain ⟨newer, hnewer⟩ := ih
    cases hnext with
    | accept | call => exact ⟨newer, hnewer⟩
    | @finish i l x hc hx => exact ⟨⟨i, x, l⟩ :: newer, congrArg (List.cons _) hnewer⟩

/-! ## Recording -/

/-- The same system; a thread remembers what it has completed. -/
def System.recording (M : System ι σ L X S) : System ι σ (L × List (X × L)) X S where
  step := M.step
  accept i s l x := (M.accept i s l.1 x).map fun p => p.bind fun l' => .ret (l', (x, l') :: l.2)

omit [DecidableEq ι] in
theorem System.accept_recording {i : ι} {s : σ} {l : L × List (X × L)} {x : X}
    {p : Prog S (L × List (X × L))} (h : (recording M).accept i s l x = some p) :
    ∃ q, M.accept i s l.1 x = some q ∧ p = q.bind fun l' => .ret (l', (x, l') :: l.2) := by
  obtain ⟨q, hq, rfl⟩ := Option.map_eq_some_iff.mp h
  exact ⟨q, hq, rfl⟩

/-- The configuration in which every thread remembers what it has completed. -/
def Trace.noted (T : Trace ι σ L X S) : Config ι σ (L × List (X × L)) S :=
  ⟨T.config.shared, fun i => (T.config.threads i).noted (T.todo i) (past i T.done)⟩

/-- What a step of thread `i` does to what the threads remember. -/
theorem Trace.noted_update {i : ι} {t : Thread S L} {s : σ} {log : List (Called ι S)}
    {done : List (Done ι X L)} {todo : ι → Option X}
    (hne : ∀ j, j ≠ i → todo j = T.todo j ∧ past j done = past j T.done) :
    Trace.noted ⟨⟨s, update T.config.threads i t⟩, log, done, todo⟩
      = ⟨s, update (Trace.noted T).threads i (t.noted (todo i) (past i done))⟩ := by
  unfold Trace.noted
  congr 1
  funext j
  by_cases hji : j = i
  · subst hji
    simp only [Function.update_self]
  · obtain ⟨htodo, hpast⟩ := hne j hji
    simp only [Function.update_of_ne hji, htodo, hpast]

theorem Trace.noted_rest {i : ι} {l : L} (hc : T.config.threads i = .rest l) :
    (Trace.noted T).threads i = .rest (l, past i T.done) := by
  show (T.config.threads i).noted _ _ = _
  rw [hc]
  rfl

theorem Trace.noted_busy {i : ι} {p : Prog S L} (hc : T.config.threads i = .busy p) :
    (Trace.noted T).threads i =
      .busy (p.bind fun l => .ret (l, ((T.todo i).map (·, l)).toList ++ past i T.done)) := by
  show (T.config.threads i).noted _ _ = _
  rw [hc]
  rfl

/-- One step of a trace is a step of the recording system. -/
theorem System.Next.recording (h : Next M T T') : ∃ i a,
    Step (recording M) (Trace.noted T) i a (Trace.noted T') ∧ T'.log = T.log ++ a.log i := by
  cases h with
  | @accept i l x p hc hp =>
    have hacc : (System.recording M).accept i T.config.shared (l, past i T.done) x
        = some (p.bind fun l' => .ret (l', (x, l') :: past i T.done)) := by
      show (M.accept i T.config.shared l x).map _ = _
      rw [hp]
      rfl
    refine ⟨i, .accept x, ?_, (List.append_nil _).symm⟩
    rw [Trace.noted_update fun j hj => ⟨Function.update_of_ne hj .., rfl⟩, Function.update_self]
    exact .accept (Trace.noted_rest hc) hacc
  | @call i o k r s' hc hs =>
    refine ⟨i, .call o r, ?_, rfl⟩
    rw [Trace.noted_update fun j hj => ⟨rfl, rfl⟩]
    exact .call (Trace.noted_busy hc) hs
  | @finish i l x hc hx =>
    have hbusy := Trace.noted_busy hc
    rw [hx] at hbusy
    have hne : ∀ j, j ≠ i → update T.todo i none j = T.todo j ∧
        past j (⟨i, x, l⟩ :: T.done) = past j T.done :=
      fun j hj => ⟨Function.update_of_ne hj .., past_cons_ne (Ne.symm hj) _⟩
    refine ⟨i, .finish, ?_, (List.append_nil _).symm⟩
    rw [Trace.noted_update hne, Function.update_self, past_cons_self]
    exact .finish hbusy

/-- A trace is a run of the recording system. -/
theorem System.Leads.recording (h : Leads M T T') :
    ∃ log, T'.log = T.log ++ log ∧ Run (recording M) (Trace.noted T) log (Trace.noted T') := by
  induction h with
  | refl => exact ⟨[], (List.append_nil _).symm, .nil⟩
  | tail _ hnext ih =>
    obtain ⟨log, hlog, hrun⟩ := ih
    obtain ⟨i, a, hstep, hlog'⟩ := hnext.recording
    refine ⟨log ++ a.log i, ?_, .snoc hrun hstep⟩
    rw [hlog', hlog, List.append_assoc]

/-! ## Where a thread is -/

/-- Thread `i` at the end of a trace that started with all threads at rest. -/
inductive System.Located (M : System ι σ L X S) (T₀ T : Trace ι σ L X S) (i : ι) : Prop
  | rest {l : L} (hc : T.config.threads i = .rest l)
  | busy {T₁ : Trace ι σ L X S} {l : L} {x : X} {p q : Prog S L} (hfirst : Leads M T₀ T₁)
      (hthen : Leads M T₁ T) (hc : T₁.config.threads i = .rest l)
      (hp : M.accept i T₁.config.shared l x = some p)
      (hpast : past i T.done = past i T₁.done) (hx : T.todo i = some x)
      (hq : T.config.threads i = .busy q) (hleft : p.Residual q)

/-- **At rest, or at work on an input that it accepted at rest.** -/
theorem System.Leads.located (h : Leads M T T') (hrest : ∀ i, ∃ l, T.config.threads i = .rest l) (i : ι) :
    Located M T T' i := by
  induction h with
  | refl =>
    obtain ⟨l, hl⟩ := hrest i
    exact .rest hl
  | @tail T₂ T₃ hlead hnext ih =>
    -- a step of another thread leaves this one where it is
    have other : ∀ {T₃}, Next M T₂ T₃ → T₃.config.threads i = T₂.config.threads i →
        T₃.todo i = T₂.todo i → past i T₃.done = past i T₂.done → Located M T T₃ i := by
      intro T₃ hnext hc htodo hpast
      cases ih with
      | rest hl => exact .rest (hc.trans hl)
      | busy hfirst hthen hl hp hp' hx hq hleft =>
        exact .busy hfirst (hthen.tail hnext) hl hp (hpast.trans hp') (htodo.trans hx)
          (hc.trans hq) hleft
    have hnext' := hnext
    cases hnext with
    | @accept j l x p hc hp =>
      by_cases hji : i = j
      · subst hji
        exact .busy hlead (.single hnext') hc hp rfl (Function.update_self ..)
          (Function.update_self ..) .refl
      · exact other hnext' (Function.update_of_ne hji ..) (Function.update_of_ne hji ..) rfl
    | @call j o k r s' hc hs =>
      by_cases hji : i = j
      · subst hji
        cases ih with
        | rest hl => rw [hc] at hl; cases hl
        | busy hfirst hthen hl hp hpast hx hq hleft =>
          obtain rfl := Thread.busy.inj (hc.symm.trans hq)
          exact .busy hfirst (hthen.tail hnext') hl hp hpast hx (Function.update_self ..)
            (hleft.call r)
      · exact other hnext' (Function.update_of_ne hji ..) rfl rfl
    | @finish j l x hc hx =>
      by_cases hji : i = j
      · subst hji
        exact .rest (Function.update_self ..)
      · exact other hnext' (Function.update_of_ne hji ..) (Function.update_of_ne hji ..)
          (past_cons_ne (Ne.symm hji) _)

/-- What was completed was once the last, with the thread at rest. -/
theorem System.Leads.completed (h : Leads M T T') (hnew : T.done = []) {i : ι} {x : X} {l : L}
    {newer older : List (X × L)} (hpast : past i T'.done = newer ++ (x, l) :: older) :
    ∃ T₁, Leads M T T₁ ∧ Leads M T₁ T' ∧ T₁.config.threads i = .rest l ∧
      past i T₁.done = (x, l) :: older := by
  induction h generalizing newer with
  | refl =>
    rw [hnew] at hpast
    cases newer <;> cases hpast
  | @tail T₂ T₃ hlead hnext ih =>
    have before : ∀ {newer}, past i T₂.done = newer ++ (x, l) :: older → ∃ T₁, Leads M T T₁ ∧
        Leads M T₁ T₃ ∧ T₁.config.threads i = .rest l ∧ past i T₁.done = (x, l) :: older := by
      intro newer hp
      obtain ⟨T₁, h₁, h₂, hrest, hp₁⟩ := ih hp
      exact ⟨T₁, h₁, h₂.tail hnext, hrest, hp₁⟩
    have hnext' := hnext
    cases hnext with
    | accept | call => exact before hpast
    | @finish j l' y hc hx =>
      by_cases hji : j = i
      · subst hji
        have hpast' : (y, l') :: past j T₂.done = newer ++ (x, l) :: older := by
          rw [← past_cons_self]
          exact hpast
        rcases newer with _ | ⟨e, newer⟩
        · obtain ⟨heq, hp⟩ := List.cons.inj hpast'
          obtain ⟨rfl, rfl⟩ := Prod.mk.inj heq
          exact ⟨_, hlead.tail hnext', .refl, Function.update_self .., hpast⟩
        · exact before (List.cons.inj hpast').2
      · have hp : past i (⟨j, y, l'⟩ :: T₂.done) = past i T₂.done := past_cons_ne hji _
        exact before (hp.symm.trans hpast)

/-! ## Schedules -/

section Play

variable {h : ι → (o : S.Op) → σ → Option (S.Ans o × σ)}

/-- Carry out one move of a schedule, and record it. -/
def Trace.move (M : System ι σ L X S) (h : ι → (o : S.Op) → σ → Option (S.Ans o × σ))
    (T : Trace ι σ L X S) : Move ι X → Option (Trace ι σ L X S)
  | .accept i x =>
    match T.config.threads i with
    | .rest l => (M.accept i T.config.shared l x).map fun p =>
      { T with
        config := ⟨T.config.shared, update T.config.threads i (.busy p)⟩
        todo := update T.todo i (some x) }
    | .busy _ => none
  | .go i =>
    match T.config.threads i with
    | .rest _ => none
    | .busy (.ret l) => (T.todo i).map fun x =>
      { T with
        config := ⟨T.config.shared, update T.config.threads i (.rest l)⟩
        done := ⟨i, x, l⟩ :: T.done
        todo := update T.todo i none }
    | .busy (.call o k) => (h i o T.config.shared).map fun rs =>
      { T with
        config := ⟨rs.2, update T.config.threads i (.busy (k rs.1))⟩
        log := T.log ++ [⟨i, o, rs.1⟩] }

/-- Carry out a whole schedule. -/
def Trace.play (M : System ι σ L X S) (h : ι → (o : S.Op) → σ → Option (S.Ans o × σ)) :
    List (Move ι X) → Trace ι σ L X S → Option (Trace ι σ L X S)
  | [], T => some T
  | m :: ms, T => (Trace.move M h T m).bind (Trace.play M h ms)

theorem System.Next.of_move (hM : ∀ i o s r s', h i o s = some (r, s') → M.step i o s r s')
    {m : Move ι X} (hm : Trace.move M h T m = some T') : Next M T T' := by
  cases m with
  | accept i x =>
    cases hc : T.config.threads i with
    | busy p => simp [Trace.move, hc] at hm
    | rest l =>
      simp only [Trace.move, hc, Option.map_eq_some_iff] at hm
      obtain ⟨p, hacc, rfl⟩ := hm
      exact .accept hc hacc
  | go i =>
    cases hc : T.config.threads i with
    | rest l => simp [Trace.move, hc] at hm
    | busy p =>
      cases p with
      | ret l =>
        simp only [Trace.move, hc, Option.map_eq_some_iff] at hm
        obtain ⟨x, hx, rfl⟩ := hm
        exact .finish hc hx
      | call o k =>
        simp only [Trace.move, hc, Option.map_eq_some_iff] at hm
        obtain ⟨rs, ho, rfl⟩ := hm
        exact .call hc (hM i o T.config.shared rs.1 rs.2 ho)

/-- A schedule that can be carried out leads to what it leads to. -/
theorem System.Leads.play (hM : ∀ i o s r s', h i o s = some (r, s') → M.step i o s r s')
    {ms : List (Move ι X)} (hp : Trace.play M h ms T = some T') : Leads M T T' := by
  induction ms generalizing T with
  | nil => cases hp; exact .refl
  | cons m ms ih =>
    rw [Trace.play, Option.bind_eq_some_iff] at hp
    obtain ⟨T₁, hm, hp⟩ := hp
    exact .head (Next.of_move hM hm) (ih hp)

/-- Evaluating a schedule shows that what it leads to is reachable. -/
theorem System.Leads.of_play (hM : ∀ i o s r s', h i o s = some (r, s') → M.step i o s r s')
    {ms : List (Move ι X)} {P : Trace ι σ L X S → Prop} [DecidablePred P]
    (hp : (Trace.play M h ms T).any (fun T' => decide (P T')) = true) :
    ∃ T', Leads M T T' ∧ P T' := by
  obtain ⟨T', hT', hP⟩ := (Option.any_eq_true _ _).mp hp
  exact ⟨T', Leads.play hM hT', of_decide_eq_true hP⟩

end Play
