/-
  Programs over a signature of calls — the free monad, with its predicate-transformer rules.

  A `Prog S α` is a finite tree: a leaf returns a value, a node makes one call and continues with
  whatever answer the environment gives.  Nothing here fixes what a call does, so one program text
  can be run in two ways: all its calls back to back (`exec`, below), or one call at a time between
  the calls of other threads (`Interleave`).

  1. **Programs** — `Prog`, its `bind` and the monad laws.
  2. **Specifications** — a `Spec S G` says, call by call, what the caller must establish and what
     it may rely on afterwards, over a ghost state `G`; `wp` folds it over a program.  The rules
     (`wp_bind`, `wp_mono`) are the ones a sequential Hoare logic has.
  3. **Running back to back** — `exec h` with a deterministic handler `h` that may refuse a call
     (a lock that is taken); `exec_wp` transfers a weakest precondition to such a run.
-/
import Mathlib.Tactic.Common

/-- A signature: the calls a program may make and the type of the answer to each. -/
structure Sig where
  Op : Type
  Ans : Op → Type

/-- A program over the signature `S` that returns an `α`. -/
inductive Prog (S : Sig) (α : Type) : Type
  | ret (a : α) : Prog S α
  | call (o : S.Op) (k : S.Ans o → Prog S α) : Prog S α

namespace Prog

variable {S : Sig} {α β γ σ G : Type}

/-! ## Sequencing -/

/-- Run `p`, then the program that `f` gives for its result. -/
def bind : Prog S α → (α → Prog S β) → Prog S β
  | ret a, f => f a
  | call o k, f => call o fun r => (k r).bind f

@[simp] theorem bind_ret (a : α) (f : α → Prog S β) : (ret a).bind f = f a := rfl

@[simp] theorem bind_call (o : S.Op) (k : S.Ans o → Prog S α) (f : α → Prog S β) :
    (call o k).bind f = call o fun r => (k r).bind f := rfl

theorem bind_assoc (p : Prog S α) (f : α → Prog S β) (g : β → Prog S γ) :
    (p.bind f).bind g = p.bind fun a => (f a).bind g := by
  induction p with
  | ret a => rfl
  | call o k ih => simp only [bind_call]; congr 1; funext r; exact ih r

/-! ## Specifications of the calls, and weakest preconditions -/

/-- What each call asks of its caller and what it promises, as a predicate transformer over the
    caller's ghost state `G`.  Transformers are monotone. -/
structure Spec (S : Sig) (G : Type) where
  pre : (o : S.Op) → (S.Ans o → G → Prop) → G → Prop
  mono : ∀ {o : S.Op} {Q Q' : S.Ans o → G → Prop} {g : G},
    (∀ r g', Q r g' → Q' r g') → pre o Q g → pre o Q' g

/-- `wp P p Q g` — started with ghost state `g`, the program `p` makes only calls that `P` allows,
    and ends in `Q`, whatever the answers are that `P` admits. -/
def wp (P : Spec S G) : Prog S α → (α → G → Prop) → G → Prop
  | ret a, Q, g => Q a g
  | call o k, Q, g => P.pre o (fun r g' => wp P (k r) Q g') g

@[simp] theorem wp_ret (P : Spec S G) (a : α) (Q : α → G → Prop) (g : G) :
    wp P (ret a) Q g ↔ Q a g := Iff.rfl

@[simp] theorem wp_call (P : Spec S G) (o : S.Op) (k : S.Ans o → Prog S α) (Q : α → G → Prop)
    (g : G) : wp P (call o k) Q g ↔ P.pre o (fun r g' => wp P (k r) Q g') g := Iff.rfl

theorem wp_mono {P : Spec S G} {p : Prog S α} {Q Q' : α → G → Prop} {g : G}
    (hQ : ∀ a g', Q a g' → Q' a g') (h : wp P p Q g) : wp P p Q' g := by
  induction p generalizing g with
  | ret a => exact hQ a g h
  | call o k ih => exact P.mono (fun r _ hr => ih r hr) h

theorem wp_bind (P : Spec S G) (p : Prog S α) (f : α → Prog S β) (Q : β → G → Prop) (g : G) :
    wp P (p.bind f) Q g ↔ wp P p (fun a g' => wp P (f a) Q g') g := by
  induction p generalizing g with
  | ret a => exact Iff.rfl
  | call o k ih =>
    exact ⟨P.mono fun r g' hr => (ih r g').mp hr, P.mono fun r g' hr => (ih r g').mpr hr⟩

/-! ## Running a program back to back -/

/-- Run every call of the program through the handler `h`, in order.  `none` means that some call
    was refused: the program is stuck there. -/
def exec (h : (o : S.Op) → σ → Option (S.Ans o × σ)) : Prog S α → σ → Option (α × σ)
  | ret a, s => some (a, s)
  | call o k, s =>
    match h o s with
    | none => none
    | some (r, s') => exec h (k r) s'

section Exec

variable {h : (o : S.Op) → σ → Option (S.Ans o × σ)}

@[simp] theorem exec_ret (a : α) (s : σ) : exec h (ret a) s = some (a, s) := rfl

theorem exec_call (o : S.Op) (k : S.Ans o → Prog S α) (s : σ) :
    exec h (call o k) s = (h o s).bind fun rs => exec h (k rs.1) rs.2 := by
  simp only [exec]
  cases h o s with
  | none => rfl
  | some rs => rfl

theorem exec_bind (p : Prog S α) (f : α → Prog S β) (s : σ) :
    exec h (p.bind f) s = (exec h p s).bind fun as => exec h (f as.1) as.2 := by
  induction p generalizing s with
  | ret a => rfl
  | call o k ih =>
    simp only [bind_call, exec_call]
    cases h o s with
    | none => rfl
    | some rs => exact ih rs.1 rs.2

/-- What a specification promises holds of a run back to back, as soon as one call of the handler
    preserves an invariant `I` that ties the state to the ghost. -/
theorem exec_wp {P : Spec S G} {I : G → σ → Prop}
    (hcall : ∀ o Q g s r s', P.pre o Q g → I g s → h o s = some (r, s') → ∃ g', Q r g' ∧ I g' s')
    {p : Prog S α} {Q : α → G → Prop} {g : G} {s s' : σ} {a : α}
    (hp : wp P p Q g) (hI : I g s) (he : exec h p s = some (a, s')) : ∃ g', Q a g' ∧ I g' s' := by
  induction p generalizing g s with
  | ret b =>
    simp only [exec_ret, Option.some.injEq, Prod.mk.injEq] at he
    obtain ⟨rfl, rfl⟩ := he
    exact ⟨g, hp, hI⟩
  | call o k ih =>
    rw [exec_call] at he
    cases ho : h o s with
    | none => rw [ho] at he; cases he
    | some rs =>
      rw [ho] at he
      obtain ⟨g', hQ, hI'⟩ := hcall o _ g s rs.1 rs.2 hp hI ho
      exact ih rs.1 hQ hI' he

end Exec

end Prog
