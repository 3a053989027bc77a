/-
  A stream that comes in pieces.

  A `Feed` is what the calls of a `read` will find, one after the other: some elements, a signal that
  interrupts the call, or an error; and then the end of the file.  A call gives at most as many
  elements as it was asked for; what it leaves of a piece is there for the next one.

  1. `items`, `fails` — the stream: the elements up to the first error, and whether there is one.
  2. `again` — read, and again after each signal.  It gives a piece of the stream (`again_spec`).
  3. `Cut` — the ways in which a list may arrive: any pieces, and any signals in between.
-/
import Mathlib.Data.List.Basic

/-- What a `read` may find. -/
inductive Arrival (α : Type) where
  | piece (a : α) (more : List α)
  | signal
  | failure

/-- What will be found, and then the end of the file. -/
abbrev Feed (α : Type) : Type := List (Arrival α)

namespace Feed

variable {α : Type}

/-- The elements up to the first error. -/
def items : Feed α → List α
  | [] => []
  | .piece a more :: f => a :: more ++ items f
  | .signal :: f => items f
  | .failure :: _ => []

/-- There is an error. -/
def fails : Feed α → Bool
  | [] => false
  | .piece _ _ :: f => fails f
  | .signal :: f => fails f
  | .failure :: _ => true

/-- Read at most `n` elements, and again after each signal.  At the end of the file there is nothing,
    and `none` is an error. -/
def again (n : Nat) : Feed α → Option (List α) × Feed α
  | [] => (some [], [])
  | .signal :: f => again n f
  | .failure :: f => (none, f)
  | .piece a more :: f =>
    match (a :: more).drop n with
    | [] => (some (a :: more), f)
    | b :: rest => (some ((a :: more).take n), .piece b rest :: f)

/-- What `again n f` can be. -/
inductive Again (n : Nat) (f : Feed α) : Option (List α) × Feed α → Prop
  | finished (hitems : items f = []) (hfails : fails f = false) : Again n f (some [], [])
  | broken {f' : Feed α} (hitems : items f = []) (hfails : fails f = true) : Again n f (none, f')
  | got {a : α} {l : List α} {f' : Feed α} (hitems : items f = a :: l ++ items f')
      (hfails : fails f' = fails f) (hlen : (a :: l).length ≤ n) : Again n f (some (a :: l), f')

/-- **Reading gives a piece of the stream**, and nothing at its end. -/
theorem again_spec {n : Nat} (hn : 0 < n) (f : Feed α) : Again n f (again n f) := by
  induction f with
  | nil => exact .finished rfl rfl
  | cons x f ih =>
    cases x with
    | failure => exact .broken rfl rfl
    | signal =>
      rw [again]
      generalize again n f = r at ih
      cases ih with
      | finished hitems hfails => exact .finished hitems hfails
      | broken hitems hfails => exact .broken hitems hfails
      | got hitems hfails hlen => exact .got hitems hfails hlen
    | piece a more =>
      rw [again]
      have hsplit : (a :: more).take n ++ (a :: more).drop n = a :: more := List.take_append_drop ..
      split
      · rename_i hdrop
        have hlen : (a :: more).length ≤ n := List.drop_eq_nil_iff.mp hdrop
        exact .got rfl rfl hlen
      · rename_i b rest hdrop
        obtain ⟨n, rfl⟩ := Nat.exists_eq_succ_of_ne_zero (Nat.ne_of_gt hn)
        rw [List.take_succ_cons]
        rw [hdrop, List.take_succ_cons] at hsplit
        refine .got ?_ rfl ?_
        · show a :: more ++ items f = a :: more.take n ++ (b :: rest ++ items f)
          rw [← List.append_assoc, hsplit]
        · rw [List.length_cons, List.length_take]
          omega

/-- Never more than was asked for. -/
theorem length_again {n : Nat} (hn : 0 < n) {f f' : Feed α} {l : List α}
    (h : again n f = (some l, f')) : l.length ≤ n := by
  have hspec := again_spec hn f
  rw [h] at hspec
  cases hspec with
  | finished => exact Nat.zero_le n
  | got _ _ hlen => exact hlen

/-! ## Pieces put together -/

theorem items_append {f : Feed α} (hf : fails f = false) (g : Feed α) :
    items (f ++ g) = items f ++ items g := by
  induction f with
  | nil => rfl
  | cons x f ih =>
    cases x with
    | failure => cases hf
    | signal => exact ih hf
    | piece a more =>
      have ih' := ih hf
      show a :: more ++ items (f ++ g) = a :: more ++ items f ++ items g
      rw [ih', List.append_assoc]

theorem fails_append {f : Feed α} (hf : fails f = false) (g : Feed α) :
    fails (f ++ g) = fails g := by
  induction f with
  | nil => rfl
  | cons x f ih =>
    cases x with
    | failure => cases hf
    | signal => exact ih hf
    | piece a more => exact ih hf

/-- A way in which a list may arrive. -/
structure Cut (l : List α) (f : Feed α) : Prop where
  items : items f = l
  whole : fails f = false

theorem Cut.append {l l' : List α} {f g : Feed α} (hf : Cut l f) (hg : Cut l' g) :
    Cut (l ++ l') (f ++ g) where
  items := by rw [items_append hf.whole, hf.items, hg.items]
  whole := by rw [fails_append hf.whole, hg.whole]

/-- Everything arrives on its own, after a signal. -/
def dribble (l : List α) : Feed α := l.flatMap fun a => [.signal, .piece a []]

theorem cut_dribble (l : List α) : Cut l (dribble l) := by
  induction l with
  | nil => exact ⟨rfl, rfl⟩
  | cons a l ih => exact Cut.append (l := [a]) (f := [.signal, .piece a []]) ⟨rfl, rfl⟩ ih

end Feed
