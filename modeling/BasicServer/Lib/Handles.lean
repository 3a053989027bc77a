/-
  Handles that are given back and used again.

  `table h = some r` says that the handle `h` stands for the resource `r` now.  A handle that was
  closed may be opened again for another resource, so an owner that keeps only the handle relies on
  nobody else closing it.  `Held table holds` says that it may: the handles in use are those that the
  owners hold, each of them and each resource with one owner.

  1. `Held.apart` — two owners have different handles, and different resources.
  2. `Held.passes`, `Held.opens`, `Held.closes` — handing one's handle on, opening a free one for a new
     resource, and closing one's own.
-/
import Mathlib.Logic.Function.Basic

open Function (update)

namespace Handles

variable {H R O : Type}

/-- The handles in use, and who holds them. -/
structure Held (table : H → Option R) (holds : O → Option (H × R)) : Prop where
  mine : ∀ {o h r}, holds o = some (h, r) → table h = some r
  owner : ∀ {h r}, table h = some r → ∃ o, holds o = some (h, r)
  alone : ∀ {o o' h r r'}, holds o = some (h, r) → holds o' = some (h, r') → o = o'
  single : ∀ {o o' h h' r}, holds o = some (h, r) → holds o' = some (h', r) → o = o'

variable {table : H → Option R} {holds : O → Option (H × R)} {o o' : O} {h h' : H} {r r' : R}

/-- Two owners have neither a handle nor a resource in common. -/
theorem Held.apart (hh : Held table holds) (ho : holds o = some (h, r)) (ho' : holds o' = some (h', r'))
    (hne : o ≠ o') : h ≠ h' ∧ r ≠ r' := by
  constructor
  · rintro rfl
    exact hne (hh.alone ho ho')
  · rintro rfl
    exact hne (hh.single ho ho')

variable [DecidableEq O]

/-- What the owners hold after `o` was given something: it, or what they held before. -/
theorem holds_update {p : Option (H × R)} {q : O} {y : H} {s : R}
    (hq : update holds o p q = some (y, s)) :
    q = o ∧ p = some (y, s) ∨ q ≠ o ∧ holds q = some (y, s) := by
  by_cases hqo : q = o
  · subst hqo
    rw [Function.update_self] at hq
    exact .inl ⟨rfl, hq⟩
  · rw [Function.update_of_ne hqo] at hq
    exact .inr ⟨hqo, hq⟩

/-- Two owners hold something else than before. -/
theorem eq_update_update {holds' : O → Option (H × R)} {p : Option (H × R)}
    (ho : holds' o = none) (ho' : holds' o' = p) (hrest : ∀ q, q ≠ o → q ≠ o' → holds' q = holds q) :
    holds' = update (update holds o none) o' p := by
  refine Function.eq_update_iff.mpr ⟨ho', fun q hq => ?_⟩
  by_cases hqo : q = o
  · rw [hqo, Function.update_self]
    exact ho
  · rw [Function.update_of_ne hqo]
    exact hrest q hqo hq

/-- An owner hands its handle on. -/
theorem Held.passes (hh : Held table holds) (ho : holds o = some (h, r)) (hidle : holds o' = none) :
    Held table (update (update holds o none) o' (some (h, r))) := by
  -- who holds what afterwards did so before, or it is what was handed on
  have hback : ∀ {q y s}, update (update holds o none) o' (some (h, r)) q = some (y, s) →
      q = o' ∧ (h, r) = (y, s) ∨ q ≠ o' ∧ q ≠ o ∧ holds q = some (y, s) := by
    intro q y s hq
    rcases holds_update hq with ⟨rfl, hp⟩ | ⟨hqo', hold⟩
    · exact .inl ⟨rfl, Option.some.inj hp⟩
    · rcases holds_update hold with ⟨-, hp⟩ | ⟨hqo, hold⟩
      · cases hp
      · exact .inr ⟨hqo', hqo, hold⟩
  constructor
  case mine =>
    intro q y s hq
    rcases hback hq with ⟨-, hp⟩ | ⟨-, -, hold⟩
    · cases hp
      exact hh.mine ho
    · exact hh.mine hold
  case owner =>
    intro y s hy
    obtain ⟨q, hq⟩ := hh.owner hy
    by_cases hqo : q = o
    · rw [hqo, ho] at hq
      exact ⟨o', (Function.update_self ..).trans hq⟩
    · have hqo' : q ≠ o' := fun heq => by
        rw [heq, hidle] at hq
        cases hq
      refine ⟨q, ?_⟩
      rw [Function.update_of_ne hqo', Function.update_of_ne hqo]
      exact hq
  case alone =>
    intro q q' y s s' hq hq'
    rcases hback hq with ⟨rfl, hp⟩ | ⟨-, hqo, hold⟩ <;>
      rcases hback hq' with ⟨rfl, hp'⟩ | ⟨-, hqo', hold'⟩
    · rfl
    · cases hp
      exact absurd (hh.alone hold' ho) hqo'
    · cases hp'
      exact absurd (hh.alone hold ho) hqo
    · exact hh.alone hold hold'
  case single =>
    intro q q' y y' s hq hq'
    rcases hback hq with ⟨rfl, hp⟩ | ⟨-, hqo, hold⟩ <;>
      rcases hback hq' with ⟨rfl, hp'⟩ | ⟨-, hqo', hold'⟩
    · rfl
    · cases hp
      exact absurd (hh.single hold' ho) hqo'
    · cases hp'
      exact absurd (hh.single hold ho) hqo
    · exact hh.single hold hold'

variable [DecidableEq H]

/-- A free handle is opened for a new resource. -/
theorem Held.opens (hh : Held table holds) (hfree : table h = none) (hidle : holds o = none)
    (hnew : ∀ q y, holds q ≠ some (y, r)) :
    Held (update table h (some r)) (update holds o (some (h, r))) := by
  have hunused : ∀ q s, holds q ≠ some (h, s) := by
    intro q s hq
    rw [hh.mine hq] at hfree
    cases hfree
  constructor
  case mine =>
    intro q y s hq
    rcases holds_update hq with ⟨-, hp⟩ | ⟨-, hq⟩
    · cases hp
      exact Function.update_self ..
    · have hne : y ≠ h := fun heq => hunused q s (heq ▸ hq)
      rw [Function.update_of_ne hne]
      exact hh.mine hq
  case owner =>
    intro y s hy
    by_cases hyh : y = h
    · subst hyh
      rw [Function.update_self] at hy
      cases hy
      exact ⟨o, Function.update_self ..⟩
    · rw [Function.update_of_ne hyh] at hy
      obtain ⟨q, hq⟩ := hh.owner hy
      have hqo : q ≠ o := fun heq => by
        rw [heq, hidle] at hq
        cases hq
      exact ⟨q, (Function.update_of_ne hqo ..).trans hq⟩
  case alone =>
    intro q q' y s s' hq hq'
    rcases holds_update hq with ⟨rfl, hp⟩ | ⟨-, hold⟩ <;>
      rcases holds_update hq' with ⟨rfl, hp'⟩ | ⟨-, hold'⟩
    · rfl
    · cases hp
      exact absurd hold' (hunused _ _)
    · cases hp'
      exact absurd hold (hunused _ _)
    · exact hh.alone hold hold'
  case single =>
    intro q q' y y' s hq hq'
    rcases holds_update hq with ⟨rfl, hp⟩ | ⟨-, hold⟩ <;>
      rcases holds_update hq' with ⟨rfl, hp'⟩ | ⟨-, hold'⟩
    · rfl
    · cases hp
      exact absurd hold' (hnew _ _)
    · cases hp'
      exact absurd hold (hnew _ _)
    · exact hh.single hold hold'

/-- An owner closes its handle. -/
theorem Held.closes (hh : Held table holds) (ho : holds o = some (h, r)) :
    Held (update table h none) (update holds o none) := by
  constructor
  case mine =>
    intro q y s hq
    rcases holds_update hq with ⟨-, hp⟩ | ⟨hqo, hq⟩
    · cases hp
    · have hne : y ≠ h := (hh.apart hq ho hqo).1
      rw [Function.update_of_ne hne]
      exact hh.mine hq
  case owner =>
    intro y s hy
    by_cases hyh : y = h
    · rw [hyh, Function.update_self] at hy
      cases hy
    · rw [Function.update_of_ne hyh] at hy
      obtain ⟨q, hq⟩ := hh.owner hy
      have hqo : q ≠ o := fun heq => by
        rw [heq, ho] at hq
        exact hyh (congrArg Prod.fst (Option.some.inj hq)).symm
      exact ⟨q, (Function.update_of_ne hqo ..).trans hq⟩
  case alone =>
    intro q q' y s s' hq hq'
    obtain ⟨-, hp⟩ | ⟨-, hold⟩ := holds_update hq
    · cases hp
    obtain ⟨-, hp'⟩ | ⟨-, hold'⟩ := holds_update hq'
    · cases hp'
    exact hh.alone hold hold'
  case single =>
    intro q q' y y' s hq hq'
    obtain ⟨-, hp⟩ | ⟨-, hold⟩ := holds_update hq
    · cases hp
    obtain ⟨-, hp'⟩ | ⟨-, hold'⟩ := holds_update hq'
    · cases hp'
    exact hh.single hold hold'

end Handles
