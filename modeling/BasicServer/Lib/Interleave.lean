/-
  Threads that run programs over one shared state, one call at a time.

  A thread is at rest with a local state, or busy with the rest of a program.  At rest it may accept
  an input and become busy; busy, it makes its next call; a program that has returned leaves its
  value as the new local state.  Between two calls of one thread the others may do anything, so a
  statement about every `Run` is a statement about every interleaving.

  The proof rule is `Outline`: every thread owns a ghost value, a `Spec` says what each call needs
  and does to the ghost of its caller, and one invariant `inv` ties the shared state (and the calls
  made so far) to the ghosts of all threads.  `Outline.run` then gives, for every run, the
  invariant together with a weakest precondition for the unfinished program of every thread.
-/
import BasicServer.Lib.Prog
import Mathlib.Logic.Function.Basic

open Function (update)

/-- A system of threads named by `ι`, with shared state `σ`, local states `L` and inputs `X`. -/
structure System (ι σ L X : Type) (S : Sig) where
  /-- `step i o s r s'` — thread `i` may make the call `o` in `s`, get `r` and leave `s'`. -/
  step : ι → (o : S.Op) → σ → S.Ans o → σ → Prop
  /-- The program that thread `i`, at rest, runs on an input; `none` if it takes no such input. -/
  accept : ι → σ → L → X → Option (Prog S L)

/-- The control state of one thread. -/
inductive Thread (S : Sig) (L : Type) : Type
  | rest (l : L) : Thread S L
  | busy (p : Prog S L) : Thread S L

namespace Thread

variable {S : Sig} {L : Type}

/-- The local state of a thread at rest. -/
def rest? : Thread S L → Option L
  | .rest l => some l
  | .busy _ => none

/-- The call that a busy thread is about to make. -/
def call? : Thread S L → Option S.Op
  | .busy (.call o _) => some o
  | _ => none

theorem rest?_eq_some {t : Thread S L} {l : L} (h : t.rest? = some l) : t = .rest l := by
  cases t with
  | rest l' => exact congrArg Thread.rest (Option.some.inj h)
  | busy p => cases h

theorem call?_eq_some {t : Thread S L} {o : S.Op} (h : t.call? = some o) :
    ∃ k, t = .busy (.call o k) := by
  cases t with
  | rest l => cases h
  | busy p =>
    cases p with
    | ret l => cases h
    | call o' k =>
      obtain rfl := Option.some.inj h
      exact ⟨k, rfl⟩

end Thread

/-- A global state: the shared part and where each thread is. -/
structure Config (ι σ L : Type) (S : Sig) where
  shared : σ
  threads : ι → Thread S L

/-- What a thread does in one step. -/
inductive Act (X : Type) (S : Sig) : Type
  | accept (x : X) : Act X S
  | call (o : S.Op) (r : S.Ans o) : Act X S
  | finish : Act X S

/-- One call of a run: who made it, which, and the answer. -/
structure Called (ι : Type) (S : Sig) where
  who : ι
  op : S.Op
  ans : S.Ans op

/-- The entry a step adds to the log of calls. -/
def Act.log {ι X : Type} {S : Sig} (i : ι) : Act X S → List (Called ι S)
  | accept _ => []
  | call o r => [⟨i, o, r⟩]
  | finish => []

namespace System

variable {ι σ L X G : Type} {S : Sig} [DecidableEq ι]

/-- One step of thread `i`. -/
inductive Step (M : System ι σ L X S) :
    Config ι σ L S → ι → Act X S → Config ι σ L S → Prop
  | accept {c : Config ι σ L S} {i : ι} {l : L} {x : X} {p : Prog S L}
      (hc : c.threads i = .rest l) (hp : M.accept i c.shared l x = some p) :
      Step M c i (.accept x) ⟨c.shared, update c.threads i (.busy p)⟩
  | call {c : Config ι σ L S} {i : ι} {o : S.Op} {k : S.Ans o → Prog S L} {r : S.Ans o} {s' : σ}
      (hc : c.threads i = .busy (.call o k)) (hs : M.step i o c.shared r s') :
      Step M c i (.call o r) ⟨s', update c.threads i (.busy (k r))⟩
  | finish {c : Config ι σ L S} {i : ι} {l : L} (hc : c.threads i = .busy (.ret l)) :
      Step M c i .finish ⟨c.shared, update c.threads i (.rest l)⟩

/-- `Run M c₀ log c` — some interleaving leads from `c₀` to `c`, making the calls in `log`. -/
inductive Run (M : System ι σ L X S) (c₀ : Config ι σ L S) :
    List (Called ι S) → Config ι σ L S → Prop
  | nil : Run M c₀ [] c₀
  | snoc {log : List (Called ι S)} {c c' : Config ι σ L S} {i : ι} {a : Act X S}
      (h : Run M c₀ log c) (hstep : Step M c i a c') : Run M c₀ (log ++ a.log i) c'

/-- The system in which only the calls that meet `ok` are made: its runs are the runs of `M` all of
    whose calls meet `ok`. -/
def restrict (M : System ι σ L X S) (ok : ι → (o : S.Op) → σ → S.Ans o → Prop) :
    System ι σ L X S where
  step i o s r s' := M.step i o s r s' ∧ ok i o s r
  accept := M.accept

/-- A step of a system is one of any system that accepts the same and allows the same calls. -/
theorem Step.mono {M M' : System ι σ L X S} (hacc : M.accept = M'.accept)
    (hstep : ∀ i o s r s', M.step i o s r s' → M'.step i o s r s') {c c' : Config ι σ L S} {i : ι}
    {a : Act X S} (h : Step M c i a c') : Step M' c i a c' := by
  cases h with
  | accept hc hp => exact .accept hc (hacc ▸ hp)
  | call hc hs => exact .call hc (hstep _ _ _ _ _ hs)
  | finish hc => exact .finish hc

theorem Run.mono {M M' : System ι σ L X S} {c₀ c : Config ι σ L S} {log : List (Called ι S)}
    (h : Run M c₀ log c) (hacc : M.accept = M'.accept)
    (hstep : ∀ i o s r s', M.step i o s r s' → M'.step i o s r s') : Run M' c₀ log c := by
  induction h with
  | nil => exact .nil
  | snoc _ hs ih => exact .snoc ih (hs.mono hacc hstep)

theorem Run.trans {M : System ι σ L X S} {c₀ c₁ c₂ : Config ι σ L S}
    {log₁ log₂ : List (Called ι S)} (h₁ : Run M c₀ log₁ c₁) (h₂ : Run M c₁ log₂ c₂) :
    Run M c₀ (log₁ ++ log₂) c₂ := by
  induction h₂ with
  | nil => simpa using h₁
  | snoc _ hstep ih => rw [← List.append_assoc]; exact .snoc ih hstep

/-! ## Proof outlines -/

/-- A proof outline for the system `M` with one ghost value in `G` for each thread. -/
structure Outline (M : System ι σ L X S) (G : Type) where
  /-- What each thread's calls need of its ghost value, and what they make of it. -/
  spec : ι → Prog.Spec S G
  /-- What holds of a thread at rest. -/
  rest : ι → L → G → Prop
  /-- The invariant, over the calls made so far, the shared state and all ghost values. -/
  inv : List (Called ι S) → σ → (ι → G) → Prop
  accept_ok : ∀ {i log s γ l x p}, inv log s γ → rest i l (γ i) → M.accept i s l x = some p →
    p.wp (spec i) (rest i) (γ i)
  call_ok : ∀ {i o log s γ r s'} {Q : S.Ans o → G → Prop}, inv log s γ → (spec i).pre o Q (γ i) →
    M.step i o s r s' → ∃ g', Q r g' ∧ inv (log ++ [⟨i, o, r⟩]) s' (update γ i g')

namespace Outline

variable {M : System ι σ L X S} (O : Outline M G)

/-- Where a thread is agrees with its ghost value. -/
def At (i : ι) : Thread S L → G → Prop
  | .rest l, g => O.rest i l g
  | .busy p, g => p.wp (O.spec i) (O.rest i) g

/-- The outline holds of a configuration: the invariant, and every thread is where it may be. -/
def Holds (log : List (Called ι S)) (c : Config ι σ L S) : Prop :=
  ∃ γ, O.inv log c.shared γ ∧ ∀ i, O.At i (c.threads i) (γ i)

/-- Replacing thread `i` and its ghost keeps all the others where they are. -/
theorem at_update {γ : ι → G} {th : ι → Thread S L} {i : ι} {t : Thread S L} {g : G}
    (h : ∀ j, O.At j (th j) (γ j)) (hi : O.At i t g) :
    ∀ j, O.At j (update th i t j) (update γ i g j) := by
  intro j
  by_cases hj : j = i
  · subst hj; simpa using hi
  · simpa [Function.update_of_ne hj] using h j

/-- One step of any thread keeps the outline. -/
theorem step {log : List (Called ι S)} {c c' : Config ι σ L S} {i : ι} {a : Act X S}
    (h : O.Holds log c) (hs : Step M c i a c') : O.Holds (log ++ a.log i) c' := by
  obtain ⟨γ, hinv, hat⟩ := h
  have hi := hat i
  cases hs with
  | @accept l x p hc hp =>
    rw [hc] at hi
    have hwp : O.At i (.busy p) (γ i) := O.accept_ok hinv hi hp
    refine ⟨γ, by simpa [Act.log] using hinv, ?_⟩
    simpa using O.at_update hat hwp
  | @call o k r s' hc hstep =>
    rw [hc] at hi
    obtain ⟨g', hQ, hinv'⟩ := O.call_ok hinv hi hstep
    exact ⟨update γ i g', hinv', O.at_update hat hQ⟩
  | @finish l hc =>
    rw [hc] at hi
    have hrest : O.At i (.rest l) (γ i) := hi
    refine ⟨γ, by simpa [Act.log] using hinv, ?_⟩
    simpa using O.at_update hat hrest

/-- **The rule for runs**: an outline that holds at the start holds after every interleaving. -/
theorem run {c₀ c : Config ι σ L S} {log : List (Called ι S)} (h₀ : O.Holds [] c₀)
    (h : Run M c₀ log c) : O.Holds log c := by
  induction h with
  | nil => exact h₀
  | snoc _ hstep ih => exact O.step ih hstep

end Outline

/-! ## Runs that a handler carries out -/

section Play

variable {M : System ι σ L X S} {h : ι → (o : S.Op) → σ → Option (S.Ans o × σ)}

/-- A program all of whose calls are made back to back is one of the interleavings: no other thread
    moves in between. -/
theorem Run.exec (hM : ∀ i o s r s', h i o s = some (r, s') → M.step i o s r s') {i : ι}
    {p : Prog S L} {l : L} {s s' : σ} (th : ι → Thread S L)
    (he : p.exec (h i) s = some (l, s')) :
    ∃ log, Run M ⟨s, update th i (.busy p)⟩ log ⟨s', update th i (.rest l)⟩ := by
  induction p generalizing s with
  | ret a =>
    simp only [Prog.exec_ret, Option.some.injEq, Prod.mk.injEq] at he
    obtain ⟨rfl, rfl⟩ := he
    have hfin : Step M ⟨s, update th i (.busy (.ret a))⟩ i .finish
        ⟨s, update (update th i (.busy (.ret a))) i (.rest a)⟩ := .finish (by simp)
    rw [Function.update_idem] at hfin
    exact ⟨_, .snoc .nil hfin⟩
  | call o k ih =>
    rw [Prog.exec_call] at he
    cases ho : h i o s with
    | none => rw [ho] at he; cases he
    | some rs =>
      rw [ho] at he
      obtain ⟨log, hrun⟩ := ih rs.1 he
      have hcall : Step M ⟨s, update th i (.busy (.call o k))⟩ i (.call o rs.1)
          ⟨rs.2, update (update th i (.busy (.call o k))) i (.busy (k rs.1))⟩ :=
        .call (by simp) (hM i o s rs.1 rs.2 ho)
      rw [Function.update_idem] at hcall
      exact ⟨_, (Run.snoc .nil hcall).trans hrun⟩

/-- One move of a schedule: hand thread `i` an input, or let it take its next step. -/
inductive Move (ι X : Type) : Type
  | accept (i : ι) (x : X) : Move ι X
  | go (i : ι) : Move ι X

/-- Carry out one move, with the calls answered by the handler `h`. -/
def move (M : System ι σ L X S) (h : ι → (o : S.Op) → σ → Option (S.Ans o × σ))
    (c : Config ι σ L S) : Move ι X → Option (Config ι σ L S)
  | .accept i x =>
    match c.threads i with
    | .rest l => (M.accept i c.shared l x).map fun p => ⟨c.shared, update c.threads i (.busy p)⟩
    | .busy _ => none
  | .go i =>
    match c.threads i with
    | .rest _ => none
    | .busy (.ret l) => some ⟨c.shared, update c.threads i (.rest l)⟩
    | .busy (.call o k) =>
      (h i o c.shared).map fun rs => ⟨rs.2, update c.threads i (.busy (k rs.1))⟩

/-- Carry out a whole schedule. -/
def play (M : System ι σ L X S) (h : ι → (o : S.Op) → σ → Option (S.Ans o × σ)) :
    List (Move ι X) → Config ι σ L S → Option (Config ι σ L S)
  | [], c => some c
  | m :: ms, c => (M.move h c m).bind (M.play h ms)

/-- A schedule that can be carried out is a run. -/
theorem Run.play (hM : ∀ i o s r s', h i o s = some (r, s') → M.step i o s r s')
    {ms : List (Move ι X)} {c c' : Config ι σ L S} (hp : M.play h ms c = some c') :
    ∃ log, Run M c log c' := by
  induction ms generalizing c with
  | nil => cases hp; exact ⟨[], .nil⟩
  | cons m ms ih =>
    rw [System.play, Option.bind_eq_some_iff] at hp
    obtain ⟨c₁, hm, hp⟩ := hp
    obtain ⟨log, hrun⟩ := ih hp
    suffices hs : ∃ i a, Step M c i a c₁ by
      obtain ⟨i, a, hs⟩ := hs
      exact ⟨_, (Run.snoc .nil hs).trans hrun⟩
    cases m with
    | accept i x =>
      cases hc : c.threads i with
      | busy p => simp [move, hc] at hm
      | rest l =>
        simp only [move, hc, Option.map_eq_some_iff] at hm
        obtain ⟨p, hacc, rfl⟩ := hm
        exact ⟨i, _, .accept hc hacc⟩
    | go i =>
      cases hc : c.threads i with
      | rest l => simp [move, hc] at hm
      | busy p =>
        cases p with
        | ret l =>
          simp only [move, hc, Option.some.injEq] at hm
          subst hm
          exact ⟨i, _, .finish hc⟩
        | call o k =>
          simp only [move, hc, Option.map_eq_some_iff] at hm
          obtain ⟨rs, ho, rfl⟩ := hm
          exact ⟨i, _, .call hc (hM i o c.shared rs.1 rs.2 ho)⟩

/-- Evaluating a schedule shows that what it leads to is reachable. -/
theorem Run.of_play (hM : ∀ i o s r s', h i o s = some (r, s') → M.step i o s r s')
    {ms : List (Move ι X)} {c : Config ι σ L S} {P : Config ι σ L S → Prop} [DecidablePred P]
    (hp : (M.play h ms c).any (fun c' => decide (P c')) = true) :
    ∃ log c', Run M c log c' ∧ P c' := by
  obtain ⟨c', hc', hP⟩ := (Option.any_eq_true _ _).mp hp
  obtain ⟨log, hrun⟩ := Run.play hM hc'
  exact ⟨log, c', hrun, of_decide_eq_true hP⟩

end Play

end System
