/-
  Threads whose inputs take effect one at a time.

  A machine takes whole inputs as single steps (`act`).  An `Abstraction` says when a system of
  threads behaves like such a machine: every input a thread accepts takes effect at one moment
  between its acceptance and the end of its program, and leaves the thread what the machine said.

  1. **One program** — `Takes` follows a program call by call, over what its thread knows (a ghost
     value) and the `Phase` of its input.  The moment may be the acceptance or any call, whichever
     the proof chooses; before the program returns, it must have come.
  2. **One step** (`Abstraction.step`) — a step of a trace is no step of the machine, or one.
  3. **All interleavings** (`Abstraction.leads`) — what the machine has done is what the threads have
     completed, each in its order, but for inputs under way that have taken effect already.
     As the record of the machine only grows, an input completed before another is accepted takes
     effect before it.
-/
import BasicServer.Lib.History

open Function (update)

/-- What has become of the input that a thread is working on: nothing yet, or it has taken effect and
    is going to leave `l`. -/
inductive Phase (X L : Type) : Type
  | todo (x : X) : Phase X L
  | done (l : L) : Phase X L

namespace System

variable {ι σ L X α G : Type} {S : Sig} [DecidableEq ι]

/-- `Acts act a₀ h a` — the inputs recorded in `h`, of which the head is the last, take the machine
    from `a₀` to `a`. -/
inductive Acts (act : α → Done ι X L → α → Prop) (a₀ : α) : List (Done ι X L) → α → Prop
  | nil : Acts act a₀ [] a₀
  | snoc {h : List (Done ι X L)} {a a' : α} {d : Done ι X L} (hrun : Acts act a₀ h a)
      (hact : act a d a') : Acts act a₀ (d :: h) a'

/-- A machine beside the system `M`, with a ghost value in `G` for each thread. -/
structure Abstraction (M : System ι σ L X S) (α G : Type) where
  /-- `act a d a'` — the input that `d` records takes effect. -/
  act : α → Done ι X L → α → Prop
  /-- The shared state of the system against the state of the machine. -/
  rel : σ → α → (ι → G) → Prop
  /-- What holds of a thread at rest. -/
  rest : ι → L → G → Prop

namespace Abstraction

variable {M : System ι σ L X S} (R : Abstraction M α G)

/-! ## One program -/

/-- The machine follows thread `i` to the shared state `s`, with no step or with the one in which the
    input takes effect. -/
def Moves (i : ι) (st : Phase X L) (s : σ) (a : α) (γ : ι → G) (P : Phase X L → G → Prop) : Prop :=
  (∃ g, R.rel s a (update γ i g) ∧ P st g) ∨
  ∃ x l a' g, st = .todo x ∧ R.act a ⟨i, x, l⟩ a' ∧ R.rel s a' (update γ i g) ∧ P (.done l) g

/-- The rest of a program, in a phase of its input: whatever the others do, the machine follows. -/
def Takes (i : ι) : Prog S L → Phase X L → G → Prop
  | .ret l, .done l', g => l = l' ∧ R.rest i l g
  | .ret _, .todo _, _ => False
  | .call o k, st, g => ∀ s a γ r s', R.rel s a γ → γ i = g → M.step i o s r s' →
      R.Moves i st s' a γ (Takes i (k r))

/-- Every program that is accepted can be followed. -/
structure Sound : Prop where
  accept : ∀ {i s a γ l x p}, R.rel s a γ → R.rest i l (γ i) → M.accept i s l x = some p →
    R.Moves i (.todo x) s a γ (R.Takes i p)

variable {R} in
/-- What the thread knew before does not matter. -/
theorem Moves.of_update {i : ι} {st : Phase X L} {s : σ} {a : α} {γ : ι → G} {g : G}
    {P : Phase X L → G → Prop} (h : R.Moves i st s a (update γ i g) P) : R.Moves i st s a γ P := by
  rcases h with ⟨g', hrel, hP⟩ | ⟨x, l, a', g', hst, hact, hrel, hP⟩
  · rw [Function.update_idem] at hrel
    exact .inl ⟨g', hrel, hP⟩
  · rw [Function.update_idem] at hrel
    exact .inr ⟨x, l, a', g', hst, hact, hrel, hP⟩

/-! ## One step -/

/-- Thread `i` of a trace against the record `h` of the machine. -/
def Placed (T : Trace ι σ L X S) (h : List (Done ι X L)) (i : ι) (g : G) : Prop :=
  match T.config.threads i with
  | .rest l => R.rest i l g ∧ past i h = past i T.done
  | .busy p => ∃ x, T.todo i = some x ∧
      (R.Takes i p (.todo x) g ∧ past i h = past i T.done ∨
        ∃ l, R.Takes i p (.done l) g ∧ past i h = (x, l) :: past i T.done)

/-- A trace against the machine. -/
def Follows (T : Trace ι σ L X S) (h : List (Done ι X L)) (a : α) : Prop :=
  ∃ γ, R.rel T.config.shared a γ ∧ ∀ i, R.Placed T h i (γ i)

variable {R} {T T' : Trace ι σ L X S} {h : List (Done ι X L)} {a : α}

theorem Placed.of_rest {i : ι} {g : G} {l : L} (hp : R.Placed T h i g)
    (hc : T.config.threads i = .rest l) : R.rest i l g ∧ past i h = past i T.done := by
  unfold Placed at hp
  rw [hc] at hp
  exact hp

theorem Placed.of_busy {i : ι} {g : G} {p : Prog S L} (hp : R.Placed T h i g)
    (hc : T.config.threads i = .busy p) : ∃ x, T.todo i = some x ∧
      (R.Takes i p (.todo x) g ∧ past i h = past i T.done ∨
        ∃ l, R.Takes i p (.done l) g ∧ past i h = (x, l) :: past i T.done) := by
  unfold Placed at hp
  rw [hc] at hp
  exact hp

theorem placed_rest {i : ι} {g : G} {l : L} (hc : T.config.threads i = .rest l)
    (hrest : R.rest i l g) (hpast : past i h = past i T.done) : R.Placed T h i g := by
  unfold Placed
  rw [hc]
  exact ⟨hrest, hpast⟩

theorem placed_busy {i : ι} {g : G} {p : Prog S L} {x : X} (hc : T.config.threads i = .busy p)
    (hx : T.todo i = some x) (hstage : R.Takes i p (.todo x) g ∧ past i h = past i T.done ∨
      ∃ l, R.Takes i p (.done l) g ∧ past i h = (x, l) :: past i T.done) : R.Placed T h i g := by
  unfold Placed
  rw [hc]
  exact ⟨x, hx, hstage⟩

/-- Another thread is where it was. -/
theorem Placed.other {h' : List (Done ι X L)} {j : ι} {g : G} (hp : R.Placed T h j g)
    (hc : T'.config.threads j = T.config.threads j) (hx : T'.todo j = T.todo j)
    (hd : past j T'.done = past j T.done) (hh : past j h' = past j h) : R.Placed T' h' j g := by
  unfold Placed at hp ⊢
  rw [hc, hx, hd, hh]
  exact hp

/-- The thread that moves is busy afterwards. -/
theorem follow_moves {i : ι} {x : X} {q : Prog S L} {st : Phase X L} {γ : ι → G}
    (hm : R.Moves i st T'.config.shared a γ (R.Takes i q)) (hat : ∀ j, R.Placed T h j (γ j))
    (hq : T'.config.threads i = .busy q) (hx : T'.todo i = some x)
    (hst : st = .todo x ∧ past i h = past i T'.done ∨
      ∃ l, st = .done l ∧ past i h = (x, l) :: past i T'.done)
    (hne : ∀ j, j ≠ i → T'.config.threads j = T.config.threads j ∧ T'.todo j = T.todo j ∧
      past j T'.done = past j T.done) :
    R.Follows T' h a ∨ ∃ d a', R.act a d a' ∧ R.Follows T' (d :: h) a' := by
  rcases hm with ⟨g, hrel, hq'⟩ | ⟨y, l, a', g, rfl, hact, hrel, hq'⟩
  · refine .inl ⟨update γ i g, hrel, fun j => ?_⟩
    by_cases hj : j = i
    · subst hj
      rw [Function.update_self]
      rcases hst with ⟨rfl, hpast⟩ | ⟨l, rfl, hpast⟩
      · exact placed_busy hq hx (.inl ⟨hq', hpast⟩)
      · exact placed_busy hq hx (.inr ⟨l, hq', hpast⟩)
    · rw [Function.update_of_ne hj]
      obtain ⟨hc, htodo, hdone⟩ := hne j hj
      exact (hat j).other hc htodo hdone rfl
  · -- the input takes effect here
    rcases hst with ⟨hxy, hpast⟩ | ⟨l', hdone, -⟩
    · obtain rfl := Phase.todo.inj hxy
      refine .inr ⟨_, a', hact, update γ i g, hrel, fun j => ?_⟩
      by_cases hj : j = i
      · subst hj
        rw [Function.update_self]
        exact placed_busy hq hx (.inr ⟨l, hq', by rw [past_cons_self, hpast]⟩)
      · rw [Function.update_of_ne hj]
        obtain ⟨hc, htodo, hdone⟩ := hne j hj
        exact (hat j).other hc htodo hdone (past_cons_ne (Ne.symm hj) h)
    · cases hdone

/-- **One step of a trace is no step of the machine, or one.** -/
theorem step (hR : R.Sound) (hf : R.Follows T h a) (hnext : Next M T T') :
    R.Follows T' h a ∨ ∃ d a', R.act a d a' ∧ R.Follows T' (d :: h) a' := by
  obtain ⟨γ, hrel, hat⟩ := hf
  cases hnext with
  | @accept i l x p hc hp =>
    obtain ⟨hrest, hpast⟩ := (hat i).of_rest hc
    have hm := hR.accept hrel hrest hp
    refine follow_moves hm hat (Function.update_self ..) (Function.update_self ..)
      (.inl ⟨rfl, hpast⟩) fun j hj => ?_
    exact ⟨Function.update_of_ne hj .., Function.update_of_ne hj .., rfl⟩
  | @call i o k r s' hc hs =>
    obtain ⟨x, hx, hstage⟩ := (hat i).of_busy hc
    have hne : ∀ j, j ≠ i → update T.config.threads i (.busy (k r)) j = T.config.threads j ∧
        T.todo j = T.todo j ∧ past j T.done = past j T.done :=
      fun j hj => ⟨Function.update_of_ne hj .., rfl, rfl⟩
    rcases hstage with ⟨htakes, hpast⟩ | ⟨l, htakes, hpast⟩
    · have hm := htakes _ _ _ r s' hrel rfl hs
      exact follow_moves hm hat (Function.update_self ..) hx (.inl ⟨rfl, hpast⟩) hne
    · have hm := htakes _ _ _ r s' hrel rfl hs
      exact follow_moves hm hat (Function.update_self ..) hx (.inr ⟨l, rfl, hpast⟩) hne
  | @finish i l x hc hx =>
    obtain ⟨y, hy, hstage⟩ := (hat i).of_busy hc
    obtain rfl := Option.some.inj (hy.symm.trans hx)
    rcases hstage with ⟨htakes, -⟩ | ⟨l', ⟨rfl, hrest⟩, hpast⟩
    · cases htakes
    · refine .inl ⟨γ, hrel, fun j => ?_⟩
      by_cases hj : j = i
      · subst hj
        exact placed_rest (Function.update_self ..) hrest (hpast.trans (past_cons_self ..).symm)
      · refine (hat j).other (Function.update_of_ne hj ..) (Function.update_of_ne hj ..) ?_ rfl
        exact past_cons_ne (Ne.symm hj) _

/-! ## All interleavings -/

/-- **The machine follows every interleaving**, and its record only grows. -/
theorem leads (hR : R.Sound) (hf : R.Follows T h a) (hlead : Leads M T T') :
    ∃ newer a', Acts R.act a newer a' ∧ R.Follows T' (newer ++ h) a' := by
  induction hlead with
  | refl => exact ⟨[], a, .nil, hf⟩
  | tail _ hnext ih =>
    obtain ⟨newer, a₁, hacts, hf₁⟩ := ih
    rcases step hR hf₁ hnext with hf₂ | ⟨d, a₂, hact, hf₂⟩
    · exact ⟨newer, a₁, hacts, hf₂⟩
    · exact ⟨d :: newer, a₂, .snoc hacts hact, hf₂⟩

end Abstraction

end System
