/-
  One finite map laid over another.

  Finite maps are Mathlib's association lists with unique keys (`AList`).  Writing every entry of a
  map `p` into a map `m`, in whatever order the entries stand, gives the overlay of `p` over `m`:
  a key of `p` has its value there, any other key the one of `m` (`lookup_writeAll`).

  `Agrees p m` says that `p` holds nothing `m` does not hold already.  Laying such a `p` over `m`
  changes no lookup (`shown_of_agrees`), which is why leftovers of earlier writes do no harm.
-/
import Mathlib.Tactic.Common
import Mathlib.Data.List.AList

namespace Overlay

variable {K V : Type} [DecidableEq K]

/-- Finite maps from `K` to `V`. -/
abbrev Map (K V : Type) : Type := AList (fun _ : K => V)

/-- The value of a key with `p` laid over `m`: the one in `p`, else the one in `m`. -/
def shown (p m : Map K V) (k : K) : Option V := (p.lookup k).or (m.lookup k)

/-- Write every entry of `p` into `m`. -/
def writeAll (p m : Map K V) : Map K V := p.foldl (fun m k v => m.insert k v) m

theorem lookup_foldl_insert (k : K) : ∀ (l : List (Sigma fun _ : K => V)) (m : Map K V),
    l.NodupKeys →
    (l.foldl (fun (m : Map K V) e => m.insert e.1 e.2) m).lookup k
      = (l.dlookup k).or (m.lookup k) := by
  intro l
  induction l with
  | nil => intro m _; rfl
  | cons e l ih =>
    intro m hnd
    obtain ⟨a, b⟩ := e
    rw [List.nodupKeys_cons] at hnd
    rw [List.foldl_cons, ih _ hnd.2]
    by_cases hk : k = a
    · subst hk
      have hnone : l.dlookup k = none := List.dlookup_eq_none.mpr hnd.1
      rw [hnone, AList.lookup_insert, List.dlookup_cons_eq]
      rfl
    · rw [AList.lookup_insert_ne hk, @List.dlookup_cons_ne K (fun _ => V) _ l k ⟨a, b⟩ hk]

/-- Writing all entries of `p` into `m` is laying `p` over `m`. -/
@[simp] theorem lookup_writeAll (p m : Map K V) (k : K) :
    (writeAll p m).lookup k = shown p m k :=
  lookup_foldl_insert k p.entries m p.nodupKeys

/-- Every entry of `p` is an entry of `m`. -/
def Agrees (p m : Map K V) : Prop := ∀ k v, p.lookup k = some v → m.lookup k = some v

theorem agrees_empty (m : Map K V) : Agrees ∅ m := by
  intro k v h
  rw [AList.lookup_empty] at h
  cases h

theorem shown_of_agrees {p m : Map K V} (h : Agrees p m) (k : K) : shown p m k = m.lookup k := by
  rw [shown]
  cases hp : p.lookup k with
  | none => rfl
  | some v => rw [h k v hp]; rfl

/-- After `p` has been written into `m`, its entries are leftovers. -/
theorem agrees_writeAll (p m : Map K V) : Agrees p (writeAll p m) := by
  intro k v h
  rw [lookup_writeAll, shown, h]
  rfl

@[simp] theorem shown_empty (m : Map K V) (k : K) : shown ∅ m k = m.lookup k :=
  shown_of_agrees (agrees_empty m) k

theorem shown_insert (p m : Map K V) (k : K) (v : V) (j : K) :
    shown (p.insert k v) m j = if j = k then some v else shown p m j := by
  rw [shown]
  by_cases hj : j = k
  · subst hj; rw [AList.lookup_insert, if_pos rfl]; rfl
  · rw [AList.lookup_insert_ne hj, if_neg hj]; rfl

theorem shown_isSome (p m : Map K V) (k : K) :
    (shown p m k).isSome = ((m.lookup k).isSome || (p.lookup k).isSome) := by
  rw [shown]
  cases p.lookup k <;> cases m.lookup k <;> rfl

end Overlay
