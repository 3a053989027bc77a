/-
  The table of the server: committed entries under pending ones (`table.cpp`).

  `keyValuePairs` holds the committed entries, `proposedPairs` the pending ones.  Nothing takes an
  entry out of `proposedPairs` on commit, and `get` looks into `keyValuePairs` first.  `mutex` is
  the thread that holds the table's mutex, if any; the operations on the entries do not look at it.

  The abstract side is `View`: what the table holds as two functions, the entries as of the last
  commit and the ones set since the last commit or rollback, over arbitrary keys and values.
  `Table.Shows` relates the two: the committed entries are the same, and so is the overlay of the
  pending ones.  Every operation preserves it (`Shows.set`, `Shows.commit`, `Shows.rollback`), and
  it determines `hasKey` for every key, and `get` exactly where the two layers do not disagree
  (`Shows.get_iff`).

  1. **Visibility** (`readsView_iff`) — when a reader sees what was set last.
  2. **Commit without clearing** (`forgetting_unobservable`) — a table whose commit also empties
     `proposedPairs` shows the same view, so the entries left behind make no difference.
-/
import BasicServer.Message
import BasicServer.Lib.Overlay

namespace BasicServer

open Overlay (Map shown writeAll Agrees)

/-! ## The code -/

/-- `class Table`; `ι` names the threads. -/
structure Table (ι : Type) where
  mutex : Option ι := none
  keyValuePairs : Map Str Str := ∅
  proposedPairs : Map Str Str := ∅

namespace Table

variable {ι : Type}

/-- `Table::set`. -/
def set (t : Table ι) (key value : Str) : Table ι :=
  { t with proposedPairs := t.proposedPairs.insert key value }

/-- `Table::get`. -/
def get (t : Table ι) (key : Str) : Except Exn Str :=
  match t.keyValuePairs.lookup key with
  | some value => .ok value
  | none =>
    match t.proposedPairs.lookup key with
    | some value => .ok value
    | none => .error (.operationException "Key that does not exist requested".toList)

/-- `Table::has_key`. -/
def hasKey (t : Table ι) (key : Str) : Bool :=
  (t.keyValuePairs.lookup key).isSome || (t.proposedPairs.lookup key).isSome

/-- `Table::commit_changes`. -/
def commitChanges (t : Table ι) : Table ι :=
  { t with keyValuePairs := writeAll t.proposedPairs t.keyValuePairs }

/-- `Table::rollback_changes`. -/
def rollbackChanges (t : Table ι) : Table ι := { t with proposedPairs := ∅ }

/-- The pending entries over the committed ones. -/
def pending (t : Table ι) (key : Str) : Option Str := shown t.proposedPairs t.keyValuePairs key

@[simp] theorem mutex_set (t : Table ι) (k v : Str) : (t.set k v).mutex = t.mutex := rfl
@[simp] theorem mutex_commitChanges (t : Table ι) : t.commitChanges.mutex = t.mutex := rfl
@[simp] theorem mutex_rollbackChanges (t : Table ι) : t.rollbackChanges.mutex = t.mutex := rfl
@[simp] theorem keyValuePairs_set (t : Table ι) (k v : Str) :
    (t.set k v).keyValuePairs = t.keyValuePairs := rfl
@[simp] theorem keyValuePairs_rollbackChanges (t : Table ι) :
    t.rollbackChanges.keyValuePairs = t.keyValuePairs := rfl
@[simp] theorem proposedPairs_rollbackChanges (t : Table ι) :
    t.rollbackChanges.proposedPairs = ∅ := rfl
@[simp] theorem proposedPairs_commitChanges (t : Table ι) :
    t.commitChanges.proposedPairs = t.proposedPairs := rfl

theorem lookup_commitChanges (t : Table ι) (k : Str) :
    t.commitChanges.keyValuePairs.lookup k = t.pending k := Overlay.lookup_writeAll ..

theorem pending_set (t : Table ι) (k v j : Str) :
    (t.set k v).pending j = if j = k then some v else t.pending j := Overlay.shown_insert ..

theorem pending_rollbackChanges (t : Table ι) (k : Str) :
    t.rollbackChanges.pending k = t.keyValuePairs.lookup k := Overlay.shown_empty ..

theorem pending_commitChanges (t : Table ι) (k : Str) : t.commitChanges.pending k = t.pending k :=
  (Overlay.shown_of_agrees (Overlay.agrees_writeAll _ _) k).trans (lookup_commitChanges t k)

/-- Nothing is pending that is not committed. -/
def Clean (t : Table ι) : Prop := ∀ k, t.pending k = t.keyValuePairs.lookup k

theorem clean_empty : ({} : Table ι).Clean := fun _ => rfl

/-- The mutex has nothing to do with the entries. -/
theorem Clean.withMutex {t : Table ι} (h : t.Clean) (m : Option ι) :
    ({ t with mutex := m } : Table ι).Clean := h

theorem clean_commitChanges (t : Table ι) : t.commitChanges.Clean := fun k => by
  rw [pending_commitChanges, lookup_commitChanges]

theorem clean_rollbackChanges (t : Table ι) : t.rollbackChanges.Clean :=
  pending_rollbackChanges t

/-- A key is there exactly when the overlay has it. -/
theorem hasKey_eq (t : Table ι) (k : Str) : t.hasKey k = (t.pending k).isSome :=
  (Overlay.shown_isSome ..).symm

/-- `get` answers with the committed entry, and with the overlay where there is none. -/
theorem get_eq (t : Table ι) (k : Str) :
    t.get k = match (t.keyValuePairs.lookup k).or (t.pending k) with
      | some v => .ok v
      | none => .error (.operationException "Key that does not exist requested".toList) := by
  rw [get, pending, shown]
  cases t.keyValuePairs.lookup k <;> cases t.proposedPairs.lookup k <;> rfl

/-- SETting one key does not change what is got for another. -/
theorem get_set_ne (t : Table ι) {k key : Str} (v : Str) (h : key ≠ k) :
    (t.set k v).get key = t.get key := by
  rw [get_eq, get_eq, pending_set, if_neg h]
  rfl

theorem get_ok_iff {t : Table ι} {k v : Str} :
    t.get k = .ok v ↔ (t.keyValuePairs.lookup k).or (t.pending k) = some v := by
  rw [get_eq]
  cases (t.keyValuePairs.lookup k).or (t.pending k) with
  | none => simp only [reduceCtorEq]
  | some w => simp only [Except.ok.injEq, Option.some.injEq]

/-- `get` has an answer exactly for the keys that `hasKey` finds. -/
theorem get_of_hasKey {t : Table ι} {k : Str} : t.hasKey k = true ↔ ∃ v, t.get k = .ok v := by
  rw [hasKey, get]
  cases t.keyValuePairs.lookup k <;> cases t.proposedPairs.lookup k <;> simp

/-- The one exception that `get` throws. -/
theorem get_error {t : Table ι} {k : Str} {e : Exn} (h : t.get k = .error e) :
    e = .operationException "Key that does not exist requested".toList := by
  unfold get at h
  split at h
  · cases h
  · split at h
    · cases h
    · exact (Except.error.inj h).symm

end Table

/-! ## What a table is for -/

/-- The entries as of the last commit, and the ones set since the last commit or rollback. -/
structure View (K V : Type) where
  base : K → Option V := fun _ => none
  since : K → Option V := fun _ => none

namespace View

variable {K V : Type}

/-- The view a reader should have: the new entries over the old ones. -/
def read (w : View K V) (k : K) : Option V := (w.since k).or (w.base k)

def set [DecidableEq K] (w : View K V) (k : K) (v : V) : View K V :=
  { w with since := fun j => if j = k then some v else w.since j }

def commit (w : View K V) : View K V := ⟨w.read, fun _ => none⟩

def rollback (w : View K V) : View K V := { w with since := fun _ => none }

theorem read_set [DecidableEq K] (w : View K V) (k : K) (v : V) (j : K) :
    (w.set k v).read j = if j = k then some v else w.read j := by
  by_cases hj : j = k
  · subst hj; simp [read, set]
  · simp [read, set, hj]

theorem read_commit (w : View K V) (k : K) : w.commit.read k = w.read k := by
  simp [read, commit]

theorem read_rollback (w : View K V) (k : K) : w.rollback.read k = w.base k := by
  simp [read, rollback]

end View

/-! ## The table against its view -/

/-- The table shows the view: same committed entries, same overlay. -/
structure Table.Shows {ι : Type} (t : Table ι) (w : View Str Str) : Prop where
  base : ∀ k, t.keyValuePairs.lookup k = w.base k
  read : ∀ k, t.pending k = w.read k

namespace Table.Shows

variable {ι : Type} {t : Table ι} {w : View Str Str}

theorem fresh : ({} : Table ι).Shows {} := ⟨fun _ => rfl, fun _ => rfl⟩

theorem set (h : t.Shows w) (k v : Str) : (t.set k v).Shows (w.set k v) where
  base j := h.base j
  read j := by rw [pending_set, View.read_set, h.read j]

theorem commit (h : t.Shows w) : t.commitChanges.Shows w.commit where
  base k := by rw [lookup_commitChanges, h.read k]; rfl
  read k := by rw [pending_commitChanges, View.read_commit, h.read k]

theorem rollback (h : t.Shows w) : t.rollbackChanges.Shows w.rollback where
  base k := h.base k
  read k := by rw [pending_rollbackChanges, View.read_rollback, h.base k]

theorem hasKey (h : t.Shows w) (k : Str) : t.hasKey k = (w.read k).isSome := by
  rw [hasKey_eq, h.read k]

/-- What `get` answers, in terms of the view: the committed entry comes first. -/
theorem get (h : t.Shows w) (k : Str) :
    t.get k = match (w.base k).or (w.read k) with
      | some v => .ok v
      | none => .error (.operationException "Key that does not exist requested".toList) := by
  rw [get_eq, h.base k, h.read k]

/-- `get` answers with the view's value exactly where the new entry, if there is one, does not
    differ from the committed one, if there is one. -/
theorem get_iff (h : t.Shows w) (k : Str) :
    (∀ v, w.read k = some v → t.get k = .ok v) ↔
      ∀ u v, w.since k = some u → w.base k = some v → u = v := by
  rw [h.get k, View.read]
  cases w.since k <;> cases w.base k <;> simp [eq_comm]

end Table.Shows

/-! ## Every sequence of calls -/

/-- A call that changes the table. -/
inductive TableCall where
  | set (key value : Str)
  | commitChanges
  | rollbackChanges

namespace TableCall

/-- The call on a table. -/
def onTable {ι : Type} (t : Table ι) : TableCall → Table ι
  | .set key value => t.set key value
  | .commitChanges => t.commitChanges
  | .rollbackChanges => t.rollbackChanges

/-- What the call should do to the view. -/
def onView (w : View Str Str) : TableCall → View Str Str
  | .set key value => w.set key value
  | .commitChanges => w.commit
  | .rollbackChanges => w.rollback

end TableCall

/-- A fresh table after the calls. -/
def tableAfter (calls : List TableCall) : Table Unit := calls.foldl TableCall.onTable {}

/-- The empty view after the calls. -/
def viewAfter (calls : List TableCall) : View Str Str := calls.foldl TableCall.onView {}

/-- The step lemma: a call does to the table what it should do to the view. -/
theorem Table.Shows.call {ι : Type} {t : Table ι} {w : View Str Str} (h : t.Shows w)
    (c : TableCall) : (c.onTable t).Shows (c.onView w) := by
  cases c with
  | set key value => exact h.set key value
  | commitChanges => exact h.commit
  | rollbackChanges => exact h.rollback

theorem shows_foldl {ι : Type} (calls : List TableCall) {t : Table ι} {w : View Str Str}
    (h : t.Shows w) : (calls.foldl TableCall.onTable t).Shows (calls.foldl TableCall.onView w) :=
  List.foldl_rel h fun c _ _ _ h => h.call c

/-- **A fresh table shows its view after every sequence of calls.** -/
theorem shows_after (calls : List TableCall) : (tableAfter calls).Shows (viewAfter calls) :=
  shows_foldl calls Table.Shows.fresh

/-- A reader of the key `k` sees the view: the key is there when the view has it, and then `get`
    gives the view's value. -/
def ReadsView (calls : List TableCall) (k : Str) : Prop :=
  ((tableAfter calls).hasKey k = true ↔ (viewAfter calls).read k ≠ none) ∧
  ∀ v, (viewAfter calls).read k = some v → (tableAfter calls).get k = .ok v

/-- **When pending changes are visible.**  After any calls, a key reads as in the view exactly if
    it was not set, since the last commit or rollback, to a value other than its committed one. -/
theorem readsView_iff (calls : List TableCall) (k : Str) :
    ReadsView calls k ↔
      ∀ u v, (viewAfter calls).since k = some u → (viewAfter calls).base k = some v → u = v := by
  have h := shows_after calls
  rw [ReadsView, ← h.get_iff k]
  refine and_iff_right ?_
  rw [h.hasKey k, Option.isSome_iff_ne_none]

/-- A committed key that is set again reads as before. -/
theorem not_readsView_set_again : ¬ ∀ calls k, ReadsView calls k := by
  intro h
  have hget := (h [.set ['k'] ['1'], .commitChanges, .set ['k'] ['2']] ['k']).2 ['2'] rfl
  exact absurd hget (by decide)

/-! ## The table that forgets

Nothing takes a committed entry out of `proposedPairs`.  A table that does so shows the same view,
so nobody can tell which of the two it is. -/

/-- `commit_changes`, if it also emptied `proposed_pairs` after applying it. -/
def Table.commitForgetting {ι : Type} (t : Table ι) : Table ι :=
  { t.commitChanges with proposedPairs := ∅ }

/-- The call on a table that forgets. -/
def TableCall.onForgetful {ι : Type} (t : Table ι) : TableCall → Table ι
  | .commitChanges => t.commitForgetting
  | c => c.onTable t

/-- A fresh table that forgets after the calls. -/
def forgetfulAfter (calls : List TableCall) : Table Unit := calls.foldl TableCall.onForgetful {}

/-- The same committed entries, and no reader can tell the two apart. -/
structure Table.LooksLike {ι : Type} (t u : Table ι) : Prop where
  committed : ∀ k, t.keyValuePairs.lookup k = u.keyValuePairs.lookup k
  hasKey : ∀ k, t.hasKey k = u.hasKey k
  get : ∀ k, t.get k = u.get k

section Forgetting

variable {ι : Type} {t u : Table ι} {w : View Str Str}

/-- Tables that show one view look alike. -/
theorem Table.Shows.looksLike (ht : t.Shows w) (hu : u.Shows w) : t.LooksLike u where
  committed k := (ht.base k).trans (hu.base k).symm
  hasKey k := (ht.hasKey k).trans (hu.hasKey k).symm
  get k := (ht.get k).trans (hu.get k).symm

theorem Table.Shows.commitForgetting (h : t.Shows w) : t.commitForgetting.Shows w.commit where
  base k := h.commit.base k
  read k := by
    -- what is not pending any more is committed, with the value it had
    have hpending : t.commitForgetting.pending k = t.commitChanges.keyValuePairs.lookup k :=
      Overlay.shown_empty ..
    rw [hpending, h.commit.base k, View.read_commit]
    rfl

theorem Table.Shows.forgetful (h : t.Shows w) (c : TableCall) :
    (c.onForgetful t).Shows (c.onView w) := by
  cases c with
  | set key value => exact h.set key value
  | commitChanges => exact h.commitForgetting
  | rollbackChanges => exact h.rollback

theorem forgetful_shows_after (calls : List TableCall) :
    (forgetfulAfter calls).Shows (viewAfter calls) :=
  List.foldl_rel Table.Shows.fresh fun c _ _ _ h => h.forgetful c

/-- Without a commit the base of a view stays. -/
theorem base_foldl {since : List TableCall} (h : .commitChanges ∉ since) (w : View Str Str) :
    (since.foldl TableCall.onView w).base = w.base := by
  induction since generalizing w with
  | nil => rfl
  | cons c since ih =>
    rw [List.mem_cons, not_or] at h
    rw [List.foldl_cons, ih h.2]
    cases c with
    | commitChanges => exact absurd rfl h.1
    | set | rollbackChanges => rfl

/-- Right after a commit, and at the start, nothing is new. -/
theorem since_viewAfter {done : List TableCall}
    (h : done = [] ∨ done.getLast? = some .commitChanges) :
    (viewAfter done).since = fun _ => none := by
  rcases h with rfl | h
  · rfl
  · obtain ⟨done, rfl⟩ := List.getLast?_eq_some_iff.mp h
    rw [viewAfter, List.foldl_append]
    rfl

/-- A rollback brings back the view as of the last commit. -/
theorem viewAfter_rollback {done since : List TableCall}
    (hdone : done = [] ∨ done.getLast? = some .commitChanges) (hsince : .commitChanges ∉ since) :
    viewAfter (done ++ since ++ [.rollbackChanges]) = viewAfter done := by
  have hbase := base_foldl hsince (viewAfter done)
  have hnew := since_viewAfter hdone
  rw [viewAfter, List.foldl_append, List.foldl_append, List.foldl_cons, List.foldl_nil]
  show View.rollback (since.foldl TableCall.onView (viewAfter done)) = viewAfter done
  rw [View.rollback, hbase, ← hnew]

end Forgetting

/-- **Keeping committed entries pending is unobservable.**  After every prefix of every sequence of
    calls the table and the one that forgets look alike; and a rollback always brings back what the
    table looked like after the last commit, or at the start. -/
theorem forgetting_unobservable (calls : List TableCall) :
    (∀ pre, pre <+: calls → (tableAfter pre).LooksLike (forgetfulAfter pre)) ∧
    ∀ done since, calls = done ++ since →
      (done = [] ∨ done.getLast? = some .commitChanges) → .commitChanges ∉ since →
      (tableAfter (calls ++ [.rollbackChanges])).LooksLike (tableAfter done) := by
  constructor
  · intro pre _
    exact (shows_after pre).looksLike (forgetful_shows_after pre)
  · intro done since hcalls hdone hsince
    subst hcalls
    have hrolled := shows_after (done ++ since ++ [.rollbackChanges])
    rw [viewAfter_rollback hdone hsince] at hrolled
    exact hrolled.looksLike (shows_after done)

/-- The two pending maps do differ. -/
example : (tableAfter [.set ['k'] ['1'], .commitChanges]).proposedPairs.lookup ['k'] = some ['1'] ∧
    (forgetfulAfter [.set ['k'] ['1'], .commitChanges]).proposedPairs.lookup ['k'] = none := by
  decide

end BasicServer
