/-
  Commands carried out one after the other, and expressions on a stack.

  `step c s` is the state after a command, if it has an effect.  `Gives` says what commands compute, and
  when they fail: if there is a result, they all have an effect, and lead to a state that fits it; if
  there is none, they lead to no good state.  A state that was not good does not become so.

  1. **Rules** — for no command, for one, and for a sequence (`Gives.bind`).
  2. **Postfix** (`Expr.code_gives`) — let the command of each leaf push its value, and that of each
     operator put its result in place of its operands, where there is one: then the code of an
     expression pushes its value, where there is one.
-/
import Mathlib.Data.List.Basic

namespace Commands

variable {C σ α β : Type} {step : C → σ → Option σ} {good : σ → Prop}

/-- Carry out commands one after the other. -/
def run (step : C → σ → Option σ) : List C → σ → Option σ
  | [], s => some s
  | c :: cs, s => (step c s).bind (run step cs)

/-- From `P`, the commands lead to `Q a` if the result is `a`, and to no good state if there is none. -/
structure Gives (step : C → σ → Option σ) (good : σ → Prop) (P : σ → Prop) (cs : List C)
    (out : Option α) (Q : α → σ → Prop) : Prop where
  computes : ∀ {s a}, P s → out = some a → ∃ s', run step cs s = some s' ∧ Q a s'
  fails : ∀ {s s'}, P s → out = none → run step cs s = some s' → ¬ good s'

theorem run_append (cs cs' : List C) (s : σ) :
    run step (cs ++ cs') s = (run step cs s).bind (run step cs') := by
  induction cs generalizing s with
  | nil => rfl
  | cons c cs ih =>
    rw [List.cons_append, run, run]
    cases step c s with
    | none => rfl
    | some s' => exact ih s'

/-- If the end is good, so was the beginning. -/
theorem good_run (hgood : ∀ {c s s'}, step c s = some s' → good s' → good s) {cs : List C} {s s' : σ}
    (h : run step cs s = some s') (hs : good s') : good s := by
  induction cs generalizing s with
  | nil =>
    obtain rfl := Option.some.inj h
    exact hs
  | cons c cs ih =>
    obtain ⟨s₁, hstep, hrun⟩ := Option.bind_eq_some_iff.mp h
    exact hgood hstep (ih hrun)

/-! ## Rules -/

section Rules

variable {P : σ → Prop} {c : C} {cs cs' : List C} {out : Option α} {Q : α → σ → Prop}

theorem Gives.nil {a : α} (h : ∀ {s}, P s → Q a s) : Gives step good P [] (some a) Q := by
  constructor
  · intro s b hs hout
    obtain rfl := Option.some.inj hout
    exact ⟨s, rfl, h hs⟩
  · intro s s' _ hout
    cases hout

theorem Gives.single (hsome : ∀ {s a}, P s → out = some a → ∃ s', step c s = some s' ∧ Q a s')
    (hnone : ∀ {s s'}, P s → out = none → step c s = some s' → ¬ good s') :
    Gives step good P [c] out Q := by
  have hrun : ∀ s, run step [c] s = step c s := by
    intro s
    rw [run]
    cases step c s <;> rfl
  constructor
  · intro s a hs hout
    rw [hrun]
    exact hsome hs hout
  · intro s s' hs hout h
    rw [hrun] at h
    exact hnone hs hout h

theorem Gives.single_some {a : α} (h : ∀ {s}, P s → ∃ s', step c s = some s' ∧ Q a s') :
    Gives step good P [c] (some a) Q := by
  refine .single (fun hs hout => ?_) fun _ hout => ?_
  · obtain rfl := Option.some.inj hout
    exact h hs
  · cases hout

theorem Gives.bind {f : α → Option β} {R : β → σ → Prop}
    (hgood : ∀ {c s s'}, step c s = some s' → good s' → good s) (h : Gives step good P cs out Q)
    (hnext : ∀ a, out = some a → Gives step good (Q a) cs' (f a) R) :
    Gives step good P (cs ++ cs') (out.bind f) R := by
  constructor
  · intro s b hs hout
    obtain ⟨a, ha, hb⟩ := Option.bind_eq_some_iff.mp hout
    obtain ⟨s₁, hrun, hs₁⟩ := h.computes hs ha
    obtain ⟨s₂, hrun', hs₂⟩ := (hnext a ha).computes hs₁ hb
    refine ⟨s₂, ?_, hs₂⟩
    rw [run_append, hrun]
    exact hrun'
  · intro s s' hs hout hrun hs'
    rw [run_append] at hrun
    obtain ⟨s₁, hrun, hrun'⟩ := Option.bind_eq_some_iff.mp hrun
    cases ha : out with
    | none => exact h.fails hs ha hrun (good_run hgood hrun' hs')
    | some a =>
      rw [ha] at hout
      obtain ⟨s₁', hsame, hs₁⟩ := h.computes hs ha
      obtain rfl := Option.some.inj (hsame.symm.trans hrun)
      exact (hnext a ha).fails hs₁ hout hrun' hs'

end Rules

/-! ## Postfix -/

/-- Expressions with leaves `A` and binary operators `O`. -/
inductive Expr (A O : Type) where
  | leaf (a : A)
  | node (o : O) (left right : Expr A O)

namespace Expr

variable {A O V : Type}

/-- The value of an expression, if it has one. -/
def eval (value : A → Option V) (apply : O → V → V → Option V) : Expr A O → Option V
  | .leaf a => value a
  | .node o left right =>
    (left.eval value apply).bind fun l => (right.eval value apply).bind fun r => apply o l r

/-- The operands, and then the operator. -/
def code (push : A → C) (act : O → C) : Expr A O → List C
  | .leaf a => [push a]
  | .node o left right => left.code push act ++ right.code push act ++ [act o]

/-- The leaves of an expression, from left to right. -/
def leaves : Expr A O → List A
  | .leaf a => [a]
  | .node _ left right => left.leaves ++ right.leaves

theorem mem_code {push : A → C} {act : O → C} {e : Expr A O} {c : C} (h : c ∈ e.code push act) :
    (∃ a, c = push a) ∨ ∃ o, c = act o := by
  induction e with
  | leaf a => exact .inl ⟨a, List.mem_singleton.mp h⟩
  | node o left right ihl ihr =>
    rcases List.mem_append.mp h with h | h
    · exact (List.mem_append.mp h).elim ihl ihr
    · exact .inr ⟨o, List.mem_singleton.mp h⟩

/-- The value depends on the leaves that there are. -/
theorem eval_congr {value value' : A → Option V} {apply : O → V → V → Option V} {e : Expr A O}
    (h : ∀ a ∈ e.leaves, value a = value' a) : e.eval value apply = e.eval value' apply := by
  induction e with
  | leaf a => exact h a List.mem_cons_self
  | node o left right ihl ihr =>
    rw [eval, eval, ihl fun a ha => h a (List.mem_append_left _ ha)]
    rw [ihr fun a ha => h a (List.mem_append_right _ ha)]

/-- **The code of an expression pushes its value.**  `At st` says that the stack is `st`, and what
    else the commands keep. -/
theorem code_gives {At : List V → σ → Prop} {value : A → Option V}
    {apply : O → V → V → Option V} {push : A → C} {act : O → C}
    (hgood : ∀ {c s s'}, step c s = some s' → good s' → good s)
    (hleaf : ∀ a st, Gives step good (At st) [push a] (value a) fun v => At (v :: st))
    (hnode : ∀ o l r st, Gives step good (At (r :: l :: st)) [act o] (apply o l r) fun v => At (v :: st))
    (e : Expr A O) (st : List V) :
    Gives step good (At st) (e.code push act) (e.eval value apply) fun v => At (v :: st) := by
  induction e generalizing st with
  | leaf a => exact hleaf a st
  | node o left right ihl ihr =>
    rw [code, List.append_assoc]
    exact (ihl st).bind hgood fun l _ => (ihr (l :: st)).bind hgood fun r _ => hnode o l r st

end Expr

end Commands
