/-
  No increment is lost.

  Any number of `incr_value -t` clients, all their steps interleaved.  The ghost value of a
  connection (`Ghost`) says how far its increment has come on the shared side: whether it has the
  table, and then whether the new value is pending; and whether its commit was carried out.

  1. **Invariant** (`Counted`) — the value committed under a key is the initial one plus the number
     of clients for that key that are done; the table of a client that has written holds the new
     value and nothing else that is pending, any other table nothing.
  2. **Program** (`process_inStep`) — each line of a client does to the ghost what it should; every
     failure, and every way of leaving, ends with the table rolled back and unlocked.
  3. **Run** (`increments_kept`).
-/
import BasicServer.IncrValue
import Mathlib.Data.Fintype.Card

namespace BasicServer

open Function (update)

/-! ## Ghost values -/

/-- The hold on the table: none, taken with the committed value `v` in it, or with the successor of
    `v` written. -/
inductive Hold where
  | none
  | read (v : Int)
  | wrote (v : Int)

/-- How far a client's increment has come.  After the end of the process nothing is claimed of the
    session that ended it. -/
structure Ghost where
  hold : Hold := .none
  done : Bool := false
  dead : Bool := false

/-- What a call asks of a client's connection.  `name`, `t` and `key` are its table, by name and by
    address, and its key. -/
def Call.Asks (name : Str) (t : Ptr) (key : Str) (g : Ghost) : Call → Prop
  | .findTable n => n = name
  | .trylock t' => t' = t ∧ g.hold = .none ∧ g.done = false
  | .hasKey t' k | .get t' k => t' = t ∧ k = key ∧ ∃ v, g.hold = .read v
  | .set t' k x => t' = t ∧ k = key ∧ ∃ v, g.hold = .read v ∧ x = toStr (v + 1)
  | .commitChanges t' => t' = t ∧ g.done = false ∧ ∃ v, g.hold = .wrote v
  | .rollbackChanges t' => t' = t ∧ g.hold ≠ .none
  | .unlock t' => t' = t ∧ ∃ v, g.hold = .read v
  | .walk _ | .terminate => True
  | .serverLock | .serverUnlock | .createTable _ | .lock _ => False

/-- The answers it has to be ready for, and the ghost value then. -/
def Call.Yields (t : Ptr) (g : Ghost) : (c : Call) → c.Ans → Ghost → Prop
  | .findTable _, r, g' => r = some t ∧ g' = g
  | .trylock _, false, g' => g' = g
  | .trylock _, true, g' => ∃ v, v < intMax ∧ g' = { g with hold := .read v }
  | .hasKey _ _, r, g' => r = true ∧ g' = g
  | .get _ _, r, g' => ∃ v, g.hold = .read v ∧ r = .ok (toStr v) ∧ g' = g
  | .set _ _ _, _, g' => ∃ v, g.hold = .read v ∧ g' = { g with hold := .wrote v }
  | .commitChanges _, _, g' =>
    ∃ v, g.hold = .wrote v ∧ g' = { g with hold := .read (v + 1), done := true }
  | .rollbackChanges _, _, g' =>
    ∃ v, (g.hold = .read v ∨ g.hold = .wrote v) ∧ g' = { g with hold := .read v }
  | .unlock _, _, g' => g' = { g with hold := .none }
  | .walk ts, r, g' => List.Perm r ts ∧ g' = g
  | .terminate, _, g' => g' = { g with dead := true }
  | _, _, g' => g' = g

/-- The specification of the calls. -/
def incrementing (name : Str) (t : Ptr) (key : Str) : Prog.Spec calls Ghost where
  pre o Q g := o.call.Asks name t key g ∧ ∀ r g', o.call.Yields t g r g' → Q r g'
  mono hQ h := ⟨h.1, fun r g' hr => hQ r g' (h.2 r g' hr)⟩

/-! ## The invariant -/

/-- The entries of a client's table, for its key with the value `n`. -/
def Content {ι : Type} (table : Table ι) (key : Str) (n : Int) : Hold → Prop
  | .none => True
  | .read v => v = n ∧ table.Clean
  | .wrote v => v = n ∧ ∀ k, table.pending k
      = if k = key then some (toStr (v + 1)) else table.keyValuePairs.lookup k

section Invariant

variable {ι : Type} (c : ι → IncrValue) (target : ι → Ptr)

/-- Two clients increment the same key of the same table. -/
def SameKey (i j : ι) : Prop := target j = target i ∧ (c j).key = (c i).key

instance (i j : ι) : Decidable (SameKey c target i j) := inferInstanceAs (Decidable (_ ∧ _))

/-- The commits of a run, in the table of client `i` and for its key. -/
def commits (i : ι) (log : List (Called ι calls)) : Nat :=
  log.countP fun e => decide (e.op.call = .commitChanges (target i) ∧ (c e.who).key = (c i).key)

variable [Fintype ι]

/-- The number of clients for the key of `i` that are done. -/
def increments (γ : ι → Ghost) (i : ι) : Nat :=
  (Finset.univ.filter fun j => (γ j).done = true ∧ SameKey c target i j).card

/-- The invariant; `z` is the initial value of each key. -/
structure Counted (z : Ptr → Str → Int) (log : List (Called ι calls)) (srv : Server ι)
    (γ : ι → Ghost) : Prop where
  named : ∀ i, srv.findTable (c i).table = some (target i)
  held : ∀ t i, (srv.tables t).mutex = some i ↔ target i = t ∧ (γ i).hold ≠ .none
  clean : ∀ t, (srv.tables t).mutex = none → (srv.tables t).Clean
  content : ∀ i, Content (srv.tables (target i)) (c i).key
    (z (target i) (c i).key + increments c target γ i) (γ i).hold
  value : ∀ i, (srv.tables (target i)).keyValuePairs.lookup (c i).key
    = some (toStr (z (target i) (c i).key + increments c target γ i))
  logged : ∀ i, commits c target i log = increments c target γ i
  dead : ∀ i, (γ i).dead = true → srv.aborted = true

end Invariant

/-! ### Counting -/

section Counting

variable {ι : Type} {c : ι → IncrValue} {target : ι → Ptr} {log : List (Called ι calls)}

theorem commits_snoc (i : ι) (e : Called ι calls) : commits c target i (log ++ [e])
    = commits c target i log
      + if e.op.call = .commitChanges (target i) ∧ (c e.who).key = (c i).key then 1 else 0 := by
  simp [commits, List.countP_append, List.countP_cons]

variable [Fintype ι] {γ : ι → Ghost} {i : ι} {g : Ghost}

/-- Clients of one key count alike. -/
theorem increments_congr {j : ι} (h : SameKey c target i j) :
    increments c target γ j = increments c target γ i := by
  unfold increments
  congr 1
  ext k
  simp only [Finset.mem_filter, Finset.mem_univ, true_and]
  rw [SameKey, SameKey, h.1, h.2]

/-- A client that is not done is not counted. -/
theorem increments_lt (h : (γ i).done = false) : increments c target γ i < Fintype.card ι := by
  refine Finset.card_lt_univ_of_notMem (x := i) fun hmem => ?_
  rw [Finset.mem_filter, h] at hmem
  exact absurd hmem.2.1 (by decide)

variable [DecidableEq ι]

/-- The count depends on who is done only. -/
theorem increments_same (h : g.done = (γ i).done) (j : ι) :
    increments c target (update γ i g) j = increments c target γ j := by
  have hdone : ∀ k, (update γ i g k).done = (γ k).done := by
    intro k
    by_cases hk : k = i
    · rw [hk, Function.update_self, h]
    · rw [Function.update_of_ne hk]
  unfold increments
  simp only [hdone]

/-- One more client is done. -/
theorem increments_done (h : (γ i).done = false) (hg : g.done = true) (j : ι) :
    increments c target (update γ i g) j
      = increments c target γ j + if SameKey c target j i then 1 else 0 := by
  have hdone : ∀ k, (update γ i g k).done = true ↔ k = i ∨ (γ k).done = true := by
    intro k
    by_cases hk : k = i
    · rw [hk, Function.update_self]
      exact iff_of_true hg (.inl rfl)
    · rw [Function.update_of_ne hk, or_iff_right hk]
  unfold increments
  by_cases hkey : SameKey c target j i
  · rw [if_pos hkey, ← Finset.card_insert_of_notMem (a := i)]
    · congr 1
      ext k
      simp only [Finset.mem_filter, Finset.mem_univ, true_and, Finset.mem_insert, hdone]
      constructor
      · rintro ⟨rfl | hk, hsame⟩
        · exact .inl rfl
        · exact .inr ⟨hk, hsame⟩
      · rintro (rfl | ⟨hk, hsame⟩)
        · exact ⟨.inl rfl, hkey⟩
        · exact ⟨.inr hk, hsame⟩
    · intro hmem
      rw [Finset.mem_filter, h] at hmem
      exact absurd hmem.2.1 (by decide)
  · rw [if_neg hkey, Nat.add_zero]
    congr 1
    ext k
    simp only [Finset.mem_filter, Finset.mem_univ, true_and, hdone]
    constructor
    · rintro ⟨rfl | hk, hsame⟩
      · exact absurd hsame hkey
      · exact ⟨hk, hsame⟩
    · rintro ⟨hk, hsame⟩
      exact ⟨.inr hk, hsame⟩

end Counting

/-! ### One call -/

section Calls

variable {ι : Type} [Fintype ι] {c : ι → IncrValue} {target : ι → Ptr} {z : Ptr → Str → Int}
  {log : List (Called ι calls)} {srv : Server ι} {γ : ι → Ghost} {i : ι} {e : Called ι calls}

/-- A call that changes nothing. -/
theorem Counted.idle (h : Counted c target z log srv γ)
    (he : ∀ t, e.op.call ≠ .commitChanges t) : Counted c target z (log ++ [e]) srv γ :=
  { h with
    logged := fun j => by
      rw [commits_snoc, if_neg fun hc => he _ hc.1, Nat.add_zero]
      exact h.logged j }

/-- Nobody else has the table, if it is free or the client's. -/
theorem Counted.alone (h : Counted c target z log srv γ)
    (hm : (srv.tables (target i)).mutex = none ∨ (srv.tables (target i)).mutex = some i) (j : ι)
    (hj : j ≠ i) (hhold : (γ j).hold ≠ .none) : target j ≠ target i := by
  intro heq
  have hheld := (h.held (target j) j).mpr ⟨rfl, hhold⟩
  rw [heq] at hheld
  rcases hm with hm | hm
  · rw [hm] at hheld; cases hheld
  · rw [hm] at hheld; exact hj (Option.some.inj hheld).symm

variable [DecidableEq ι]

/-- The client's table and ghost value are replaced. -/
theorem Counted.change (h : Counted c target z log srv γ) {table : Table ι} {g : Ghost}
    (halone : ∀ j, j ≠ i → (γ j).hold ≠ .none → target j ≠ target i)
    (hm : table.mutex = some i ∧ g.hold ≠ .none ∨
      table.mutex = none ∧ g.hold = .none ∧ table.Clean)
    (hcontent : Content table (c i).key
      (z (target i) (c i).key + increments c target (update γ i g) i) g.hold)
    (hvalue : ∀ j, target j = target i → table.keyValuePairs.lookup (c j).key
      = some (toStr (z (target j) (c j).key + increments c target (update γ i g) j)))
    (hsame : ∀ j, target j ≠ target i →
      increments c target (update γ i g) j = increments c target γ j)
    (hlogged : ∀ j, commits c target j (log ++ [e]) = increments c target (update γ i g) j)
    (hdead : g.dead = (γ i).dead) :
    Counted c target z (log ++ [e]) (srv.setTable (target i) table) (update γ i g) where
  named := h.named
  logged := hlogged
  held t j := by
    by_cases ht : t = target i
    · subst ht
      rw [Server.tables_setTable]
      by_cases hj : j = i
      · subst hj
        rw [Function.update_self]
        rcases hm with ⟨hm, hhold⟩ | ⟨hm, hhold, -⟩
        · exact iff_of_true hm ⟨rfl, hhold⟩
        · rw [hm]
          exact iff_of_false nofun fun h => h.2 hhold
      · rw [Function.update_of_ne hj]
        refine iff_of_false (fun hmj => ?_) fun hR => halone j hj hR.2 hR.1
        rcases hm with ⟨hm, -⟩ | ⟨hm, -⟩
        · exact hj (Option.some.inj (hmj.symm.trans hm))
        · rw [hm] at hmj; cases hmj
    · rw [Server.tables_setTable_ne _ _ _ ht]
      by_cases hj : j = i
      · subst hj
        rw [h.held t j]
        exact iff_of_false (fun hL => ht hL.1.symm) fun hR => ht hR.1.symm
      · rw [Function.update_of_ne hj]
        exact h.held t j
  clean t hfree := by
    by_cases ht : t = target i
    · subst ht
      rw [Server.tables_setTable] at hfree ⊢
      rcases hm with ⟨hm, -⟩ | ⟨-, -, hclean⟩
      · rw [hm] at hfree; cases hfree
      · exact hclean
    · rw [Server.tables_setTable_ne _ _ _ ht] at hfree ⊢
      exact h.clean t hfree
  content j := by
    by_cases hj : j = i
    · subst hj
      rw [Function.update_self, Server.tables_setTable]
      exact hcontent
    · rw [Function.update_of_ne hj]
      by_cases ht : target j = target i
      · -- two clients of one table: the other one does not have it
        have hnone : (γ j).hold = .none := by
          by_contra hhold
          exact halone j hj hhold ht
        rw [hnone]
        trivial
      · rw [Server.tables_setTable_ne _ _ _ ht, hsame j ht]
        exact h.content j
  value j := by
    by_cases ht : target j = target i
    · rw [ht, Server.tables_setTable, hvalue j ht, ht]
    · rw [Server.tables_setTable_ne _ _ _ ht, hsame j ht]
      exact h.value j
  dead j hj := by
    by_cases hji : j = i
    · subst hji
      rw [Function.update_self, hdead] at hj
      exact h.dead j hj
    · rw [Function.update_of_ne hji] at hj
      exact h.dead j hj

/-- The client's table is replaced by one with the same committed entries. -/
theorem Counted.quiet (h : Counted c target z log srv γ) {table : Table ι} {hold : Hold}
    (he : ∀ t, e.op.call ≠ .commitChanges t)
    (halone : ∀ j, j ≠ i → (γ j).hold ≠ .none → target j ≠ target i)
    (hm : table.mutex = some i ∧ hold ≠ .none ∨ table.mutex = none ∧ hold = .none ∧ table.Clean)
    (hcontent : Content table (c i).key
      (z (target i) (c i).key + increments c target γ i) hold)
    (hcommitted : ∀ k, table.keyValuePairs.lookup k
      = (srv.tables (target i)).keyValuePairs.lookup k) :
    Counted c target z (log ++ [e]) (srv.setTable (target i) table)
      (update γ i { γ i with hold := hold }) := by
  have hsame : ∀ j, increments c target (update γ i { γ i with hold := hold }) j
      = increments c target γ j := increments_same rfl
  refine h.change halone hm ?_ (fun j ht => ?_) (fun j _ => hsame j) (fun j => ?_) rfl
  · rw [hsame]; exact hcontent
  · rw [hsame, hcommitted, ← ht]; exact h.value j
  · rw [hsame, commits_snoc, if_neg fun hc => he _ hc.1, Nat.add_zero]
    exact h.logged j

/-- The process ends. -/
theorem Counted.die (h : Counted c target z log srv γ) :
    Counted c target z log { srv with aborted := true } (update γ i { γ i with dead := true }) := by
  have hsame : ∀ j, increments c target (update γ i { γ i with dead := true }) j
      = increments c target γ j := increments_same rfl
  have hhold : ∀ j, (update γ i { γ i with dead := true } j).hold = (γ j).hold := by
    intro j
    by_cases hj : j = i
    · rw [hj, Function.update_self]
    · rw [Function.update_of_ne hj]
  refine ⟨h.named, fun t j => ?_, h.clean, fun j => ?_, fun j => ?_, fun j => ?_, fun _ _ => rfl⟩
  · rw [hhold]; exact h.held t j
  · rw [hhold, hsame]; exact h.content j
  · rw [hsame]; exact h.value j
  · rw [hsame]; exact h.logged j

/-- **One call of any client keeps the count.** -/
theorem Counted.call (h : Counted c target z log srv γ)
    (hfits : ∀ i, z (target i) (c i).key + Fintype.card ι ≤ intMax) {cl : Call} {s : Session}
    {r : cl.Ans} {srv' : Server ι}
    (ha : cl.Asks (c i).table (target i) (c i).key (γ i)) (hs : cl.Step i srv r srv') :
    ∃ g', cl.Yields (target i) (γ i) r g' ∧
      Counted c target z (log ++ [⟨i, ⟨cl, s⟩, r⟩]) srv' (update γ i g') := by
  have hself : update γ i (γ i) = γ := Function.update_eq_self i γ
  have hcontent := h.content i
  obtain ⟨-, hs⟩ := hs
  cases cl with
  | findTable name =>
    cases hs
    obtain rfl : name = (c i).table := ha
    refine ⟨γ i, ⟨h.named i, rfl⟩, ?_⟩
    rw [hself]
    exact h.idle (by simp)
  | trylock t =>
    obtain ⟨rfl, hnone, hdone⟩ := ha
    simp only [Call.apply] at hs
    cases hm : (srv.tables (target i)).mutex with
    | some j =>
      rw [hm] at hs
      cases hs
      refine ⟨γ i, rfl, ?_⟩
      rw [hself]
      exact h.idle (by simp)
    | none =>
      rw [hm] at hs
      cases hs
      have hlt : z (target i) (c i).key + increments c target γ i < intMax := by
        have hcount : increments c target γ i < Fintype.card ι := increments_lt hdone
        have hfit := hfits i
        omega
      refine ⟨_, ⟨_, hlt, rfl⟩, h.quiet (by simp) (h.alone (.inl hm)) (.inl ⟨rfl, by simp⟩) ?_ ?_⟩
      · exact ⟨rfl, (h.clean _ hm).withMutex _⟩
      · intro k; rfl
  | unlock t =>
    cases hs
    obtain ⟨rfl, v, hread⟩ := ha
    have hheld := (h.held (target i) i).mpr ⟨rfl, by rw [hread]; simp⟩
    rw [hread] at hcontent
    refine ⟨_, rfl, h.quiet (by simp) (h.alone (.inr hheld)) (.inr ⟨rfl, rfl, ?_⟩) trivial fun k => rfl⟩
    exact hcontent.2.withMutex none
  | set t key x =>
    cases hs
    obtain ⟨rfl, rfl, v, hread, rfl⟩ := ha
    have hheld := (h.held (target i) i).mpr ⟨rfl, by rw [hread]; simp⟩
    rw [hread] at hcontent
    refine ⟨_, ⟨v, hread, rfl⟩, h.quiet (by simp) (h.alone (.inr hheld)) (.inl ⟨hheld, by simp⟩) ?_
      fun k => rfl⟩
    refine ⟨hcontent.1, fun k => ?_⟩
    rw [Table.pending_set, hcontent.2 k]
    rfl
  | hasKey t key =>
    cases hs
    obtain ⟨rfl, rfl, v, hread⟩ := ha
    refine ⟨γ i, ⟨?_, rfl⟩, ?_⟩
    · rw [Table.hasKey, h.value i]; rfl
    · rw [hself]; exact h.idle (by simp)
  | get t key =>
    cases hs
    obtain ⟨rfl, rfl, v, hread⟩ := ha
    rw [hread] at hcontent
    refine ⟨γ i, ⟨v, hread, ?_, rfl⟩, ?_⟩
    · rw [Table.get, h.value i, hcontent.1]
    · rw [hself]; exact h.idle (by simp)
  | commitChanges t =>
    cases hs
    obtain ⟨rfl, hdone, v, hwrote⟩ := ha
    have hheld := (h.held (target i) i).mpr ⟨rfl, by rw [hwrote]; simp⟩
    rw [hwrote] at hcontent
    obtain ⟨rfl, hpending⟩ := hcontent
    refine ⟨_, ⟨_, hwrote, rfl⟩, ?_⟩
    have hcount := @increments_done ι c target _ γ i
      { γ i with hold := .read (z (target i) (c i).key + increments c target γ i + 1), done := true }
      _ hdone rfl
    refine h.change (h.alone (.inr hheld)) (.inl ⟨hheld, by simp⟩) ?_ (fun j ht => ?_)
      (fun j ht => ?_) (fun j => ?_) rfl
    · rw [hcount, if_pos ⟨rfl, rfl⟩]
      refine ⟨by omega, Table.clean_commitChanges _⟩
    · rw [hcount, Table.lookup_commitChanges, hpending]
      by_cases hkey : (c j).key = (c i).key
      · have hcj := increments_congr (γ := γ) (show SameKey c target i j from ⟨ht, hkey⟩)
        rw [if_pos hkey, if_pos ⟨ht.symm, hkey.symm⟩, hcj, ht, hkey]
        congr 2
        omega
      · rw [if_neg hkey, if_neg fun hsame => hkey hsame.2.symm, Nat.add_zero, ← ht]
        exact h.value j
    · rw [hcount, if_neg fun hsame => ht hsame.1.symm, Nat.add_zero]
    · rw [hcount, commits_snoc, h.logged j]
      congr 1
      refine if_congr ⟨fun hc => ⟨?_, hc.2⟩, fun hc => ⟨?_, hc.2⟩⟩ rfl rfl
      · exact Call.commitChanges.inj hc.1
      · exact congrArg Call.commitChanges hc.1
  | rollbackChanges t =>
    cases hs
    obtain ⟨rfl, hhold⟩ := ha
    have hheld := (h.held (target i) i).mpr ⟨rfl, hhold⟩
    obtain ⟨v, hv, hval⟩ : ∃ v, ((γ i).hold = .read v ∨ (γ i).hold = .wrote v) ∧
        v = z (target i) (c i).key + increments c target γ i := by
      cases hcase : (γ i).hold with
      | none => exact absurd hcase hhold
      | read v => rw [hcase] at hcontent; exact ⟨v, .inl rfl, hcontent.1⟩
      | wrote v => rw [hcase] at hcontent; exact ⟨v, .inr rfl, hcontent.1⟩
    refine ⟨_, ⟨v, hv, rfl⟩, h.quiet (by simp) (h.alone (.inr hheld)) (.inl ⟨hheld, by simp⟩) ?_
      fun k => rfl⟩
    exact ⟨hval, Table.clean_rollbackChanges _⟩
  | walk ts =>
    obtain ⟨hperm, rfl⟩ := hs
    refine ⟨γ i, ⟨hperm, rfl⟩, ?_⟩
    rw [hself]
    exact h.idle (by simp)
  | terminate =>
    cases hs
    have hidle : Counted c target z (log ++ [⟨i, ⟨.terminate, s⟩, ()⟩]) srv γ := h.idle (by simp)
    exact ⟨_, rfl, hidle.die⟩
  | serverLock | serverUnlock | createTable _ | lock _ => exact ha.elim

end Calls

/-! ## The program of a client -/

/-- The client's COMMIT was answered OK. -/
def Conn.committed (l : Conn) : Bool := l.answers[6]? = some [okLine]

/-- `Stage t n s hold done` — where the session and the shared side are after `n` lines, all answered
    OK. -/
inductive Stage (t : Ptr) : Nat → Session → Hold → Bool → Prop
  | connected {s : Session} (hst : s.stack = []) (htx : s.inTransaction = false)
      (hl : s.lockedTables = []) : Stage t 0 s .none false
  | loggedIn {s : Session} (hfirst : s.firstValidMessage = false) (hst : s.stack = [])
      (htx : s.inTransaction = false) (hl : s.lockedTables = []) : Stage t 1 s .none false
  | begun {s : Session} (hfirst : s.firstValidMessage = false) (hst : s.stack = [])
      (htx : s.inTransaction = true) (hl : s.lockedTables = []) : Stage t 2 s .none false
  | read {s : Session} {v : Int} (hv : v < intMax) (hfirst : s.firstValidMessage = false)
      (hst : s.stack = [toStr v]) (htx : s.inTransaction = true) (hl : s.lockedTables = [t]) :
      Stage t 3 s (.read v) false
  | pushed {s : Session} {v : Int} (hv : v < intMax) (hfirst : s.firstValidMessage = false)
      (hst : s.stack = ["1".toList, toStr v]) (htx : s.inTransaction = true)
      (hl : s.lockedTables = [t]) : Stage t 4 s (.read v) false
  | added {s : Session} {v : Int} (hfirst : s.firstValidMessage = false)
      (hst : s.stack = [toStr (v + 1)]) (htx : s.inTransaction = true)
      (hl : s.lockedTables = [t]) : Stage t 5 s (.read v) false
  | wrote {s : Session} {v : Int} (hfirst : s.firstValidMessage = false)
      (htx : s.inTransaction = true) (hl : s.lockedTables = [t]) : Stage t 6 s (.wrote v) false
  | committed {s : Session} (hfirst : s.firstValidMessage = false)
      (htx : s.inTransaction = false) (hl : s.lockedTables = []) : Stage t 7 s .none true

/-- The session knows what it has locked. -/
def Tied (t : Ptr) (s : Session) : Hold → Prop
  | .none => s.lockedTables = []
  | _ => s.inTransaction = true ∧ s.lockedTables = [t]

/-- A connection at rest: nothing is claimed after the end of the process; else it is at its stage,
    or the client has stopped and the session has nothing. -/
def Conn.InStep (t : Ptr) (l : Conn) (g : Ghost) : Prop :=
  g.done = l.committed ∧ (g.dead = true ∨
    (l.session.loopInProgress = true ∧ l.answers.all goesOn = true ∧
      Stage t l.answers.length l.session g.hold g.done) ∨
    (g.hold = .none ∧ l.session.lockedTables = [] ∧ l.session.inTransaction = false ∧
      (l.session.loopInProgress = true → l.answers.all goesOn = false)))

section Program

variable {name key buf : Str} {t : Ptr} {s : Session} {g : Ghost} {l : Conn}

theorem Stage.tied {n : Nat} {hold : Hold} {done : Bool} (h : Stage t n s hold done) :
    Tied t s hold := by
  cases h with
  | connected _ _ hl | loggedIn _ _ _ hl | begun _ _ _ hl | committed _ _ hl => exact hl
  | read _ _ _ htx hl | pushed _ _ _ htx hl | added _ _ htx hl | wrote _ htx hl => exact ⟨htx, hl⟩

theorem Tied.released {hold : Hold} (h : Tied t s hold) :
    (released s).lockedTables = [] ∧ (released s).inTransaction = false := by
  unfold BasicServer.released
  by_cases htx : s.inTransaction = true
  · rw [if_pos htx]
    exact ⟨rfl, rfl⟩
  · rw [if_neg htx]
    cases hold with
    | none => exact ⟨h, by simpa using htx⟩
    | read v | wrote v => exact absurd h.1 htx

/-- The rule for one call. -/
theorem incr_ask {α : Type} {cl : Call} {k : cl.Ans → Prog calls α} {Q : α → Ghost → Prop}
    (ha : cl.Asks name t key g)
    (hk : ∀ r g', cl.Yields t g r g' → (k r).wp (incrementing name t key) Q g') :
    (Prog.call ⟨cl, s⟩ k : Prog calls α).wp (incrementing name t key) Q g := ⟨ha, hk⟩

/-- Ending the transaction lets go of the table. -/
theorem incr_giveUp {fin : Session → Session} {Q : Session → Ghost → Prop}
    (htied : Tied t s g.hold) (hQ : Q (fin (released s)) { g with hold := .none }) :
    (giveUp s fin).wp (incrementing name t key) Q g := by
  unfold giveUp
  obtain ⟨hold, done, dead⟩ := g
  by_cases htx : s.inTransaction = true
  · rw [if_pos htx]
    rw [BasicServer.released, if_pos htx] at hQ
    refine incr_ask trivial fun r g' hr => ?_
    obtain ⟨hperm, rfl⟩ := hr
    cases hold with
    | none =>
      have hl : s.lockedTables = [] := htied
      rw [hl] at hperm
      obtain rfl := hperm.eq_nil
      exact hQ
    | read v =>
      rw [htied.2] at hperm
      obtain rfl := List.perm_singleton.mp hperm
      refine incr_ask ⟨rfl, nofun⟩ fun _ g' hg' => ?_
      obtain ⟨u, -, rfl⟩ := hg'
      refine incr_ask ⟨rfl, u, rfl⟩ fun _ g' hg' => ?_
      obtain rfl := hg'
      exact hQ
    | wrote v =>
      rw [htied.2] at hperm
      obtain rfl := List.perm_singleton.mp hperm
      refine incr_ask ⟨rfl, nofun⟩ fun _ g' hg' => ?_
      obtain ⟨u, -, rfl⟩ := hg'
      refine incr_ask ⟨rfl, u, rfl⟩ fun _ g' hg' => ?_
      obtain rfl := hg'
      exact hQ
  · rw [if_neg htx]
    rw [BasicServer.released, if_neg htx] at hQ
    cases hold with
    | none => exact hQ
    | read v | wrote v => exact absurd htied.1 htx

/-! ### The answers -/

/-- Only the answer to COMMIT matters, and only if it is OK. -/
theorem committed_snoc {s' : Session}
    (h : l.answers.length ≠ 6 ∨ s'.replies ≠ [okLine]) :
    (l.after (.line buf) s').committed = l.committed := by
  unfold Conn.committed Conn.after
  rw [List.getElem?_append]
  by_cases hlt : 6 < l.answers.length
  · rw [if_pos hlt]
  · rw [if_neg hlt, List.getElem?_eq_none (Nat.le_of_not_lt hlt)]
    rcases h with hlen | hne
    · have hpos : 6 - l.answers.length ≠ 0 := by omega
      obtain ⟨n, hn⟩ := Nat.exists_eq_succ_of_ne_zero hpos
      rw [hn]
      rfl
    · cases 6 - l.answers.length with
      | zero => simpa using hne
      | succ n => rfl

/-- A line was answered OK, and the client goes on. -/
theorem inStep_next {s' : Session} {g' : Ghost} (hall : l.answers.all goesOn = true)
    (hopen : s'.loopInProgress = true) (hok : s'.replies = [okLine])
    (hdone : g'.done = (l.after (.line buf) s').committed)
    (hstage : Stage t (l.answers.length + 1) s' g'.hold g'.done) :
    (l.after (.line buf) s').InStep t g' := by
  refine ⟨hdone, .inr (.inl ⟨hopen, ?_, ?_⟩)⟩
  · show (l.answers ++ [s'.replies]).all goesOn = true
    rw [List.all_append, hall, hok]
    decide
  · show Stage t (l.answers ++ [s'.replies]).length s' g'.hold g'.done
    rw [List.length_append]
    exact hstage

/-- A line was not answered OK, and the client stops. -/
theorem inStep_stop {line : Str} (hdone : g.done = l.committed) (htied : Tied t s g.hold)
    (hno : s.replies = []) (hstop : goesOn [line] = false) :
    (l.after (.line buf) (answered (released s) line)).InStep t { g with hold := .none } := by
  have hreplies : (answered (released s) line).replies = [line] := replies_over hno
  obtain ⟨hl, htx⟩ := htied.released
  refine ⟨?_, .inr (.inr ⟨rfl, hl, htx, fun _ => ?_⟩)⟩
  · rw [committed_snoc (.inr ?_)]
    · exact hdone
    · rw [hreplies]
      intro hok
      rw [List.singleton_injective hok] at hstop
      exact absurd hstop (by decide)
  · show (l.answers ++ [(answered (released s) line).replies]).all goesOn = false
    rw [List.all_append, hreplies]
    show (_ && (goesOn [line] && true)) = false
    rw [hstop, Bool.false_and, Bool.and_false]

/-- A request that is answered FAILED. -/
theorem failWith_inStep {what : Str} (hdone : g.done = l.committed) (htied : Tied t s g.hold)
    (hno : s.replies = []) :
    (failWith s what).wp (incrementing name t key)
      (fun s' g' => (l.after (.line buf) s').InStep t g') g := by
  unfold failWith
  exact incr_giveUp htied (inStep_stop hdone htied hno (not_goesOn_failLine what))

/-- A line that is no message. -/
theorem undecodable_inStep (hdone : g.done = l.committed) (htied : Tied t l.session g.hold)
    (hbuf : buf ≠ []) (hdec : ∀ m, decode buf {} ≠ .ok m) :
    (process (.line buf) l.session).wp (incrementing name t key)
      (fun s' g' => (l.after (.line buf) s').InStep t g') g := by
  cases he : decode buf {} with
  | ok m => exact absurd he (hdec m)
  | error e =>
    obtain ⟨what, hmem, rfl⟩ := decode_error hbuf he
    have hfit : Fits what := by
      have hall : ∀ w ∈ decodeTexts, Fits w := by decide
      exact hall what hmem
    have htied' : Tied t (ready l.session) g.hold := by
      cases hh : g.hold with
      | none => rw [hh] at htied; exact htied
      | read v | wrote v => rw [hh] at htied; exact htied
    rw [process_undecodable he hfit]
    exact incr_giveUp htied' (inStep_stop hdone htied' rfl (not_goesOn_errLine what))

/-! ### The lines of the client -/

variable {c : IncrValue} {m : Message}

/-- A line that was answered OK and left the shared side alone. -/
theorem inStep_local {s' : Session} (hdone : g.done = l.committed)
    (hall : l.answers.all goesOn = true) (hlen : l.answers.length ≠ 6)
    (hopen : s'.loopInProgress = true) (hok : s'.replies = [okLine])
    (hstage : Stage t (l.answers.length + 1) s' g.hold g.done) :
    (l.after (.line buf) s').InStep t g := by
  refine inStep_next hall hopen hok ?_ hstage
  rw [committed_snoc (.inl hlen)]
  exact hdone

/-- GET, with nothing locked. -/
theorem get_inStep (hdone : g.done = l.committed) (hall : l.answers.all goesOn = true)
    (hlen : l.answers.length = 2) (hopen : l.session.loopInProgress = true)
    (hfirst : l.session.firstValidMessage = false) (hst : l.session.stack = [])
    (htx : l.session.inTransaction = true) (hl : l.session.lockedTables = [])
    (hhold : g.hold = .none) (hd : g.done = false) :
    (getTree (ready l.session) name key).wp (incrementing name t key)
      (fun s' g' => (l.after (.line buf) s').InStep t g') g := by
  have htx' : (ready l.session).inTransaction = true := htx
  have hfree : t ∉ (ready l.session).lockedTables := by
    rw [show (ready l.session).lockedTables = [] from hl]
    exact List.not_mem_nil
  unfold getTree findTree
  refine incr_ask rfl fun r g' hr => ?_
  obtain ⟨rfl, rfl⟩ := hr
  show Prog.wp _ (if (ready l.session).inTransaction = true then _ else _) _ g'
  rw [if_pos htx', acquireTree, if_neg hfree]
  refine incr_ask ⟨rfl, hhold, hd⟩ fun success g₁ hg₁ => ?_
  cases success with
  | false =>
    obtain rfl : g₁ = g' := hg₁
    have htied : Tied t (ready l.session) g₁.hold := by rw [hhold]; exact hl
    exact failWith_inStep hdone htied rfl
  | true =>
    obtain ⟨v, hv, rfl⟩ := hg₁
    refine incr_ask ⟨rfl, rfl, v, rfl⟩ fun has g₂ hg₂ => ?_
    obtain ⟨rfl, rfl⟩ := hg₂
    refine incr_ask ⟨rfl, rfl, v, rfl⟩ fun value g₃ hg₃ => ?_
    obtain ⟨u, hu, rfl, rfl⟩ := hg₃
    obtain rfl : v = u := Hold.read.inj hu
    refine inStep_local hdone hall (by omega) hopen rfl ?_
    rw [hlen, show g'.done = false from hd]
    refine .read hv hfirst ?_ htx ?_
    · show toStr v :: l.session.stack = [toStr v]
      rw [hst]
    · show t :: l.session.lockedTables = [t]
      rw [hl]

/-- SET, with the table locked. -/
theorem set_inStep {v : Int} (hdone : g.done = l.committed) (hall : l.answers.all goesOn = true)
    (hlen : l.answers.length = 5) (hopen : l.session.loopInProgress = true)
    (hfirst : l.session.firstValidMessage = false) (htx : l.session.inTransaction = true)
    (hl : l.session.lockedTables = [t]) (hhold : g.hold = .read v) (hd : g.done = false) :
    (setTree (ready l.session) name key (toStr (v + 1)) []).wp (incrementing name t key)
      (fun s' g' => (l.after (.line buf) s').InStep t g') g := by
  have htx' : (ready l.session).inTransaction = true := htx
  have hheld : t ∈ (ready l.session).lockedTables := by
    rw [show (ready l.session).lockedTables = [t] from hl]
    exact List.mem_singleton_self t
  unfold setTree findTree
  refine incr_ask rfl fun r g' hr => ?_
  obtain ⟨rfl, rfl⟩ := hr
  show Prog.wp _ (if (ready l.session).inTransaction = true then _ else _) _ g'
  rw [if_pos htx', acquireTree, if_pos hheld]
  refine incr_ask ⟨rfl, rfl, v, hhold, rfl⟩ fun _ g₁ hg₁ => ?_
  obtain ⟨u, hu, rfl⟩ := hg₁
  refine inStep_local hdone hall (by omega) hopen rfl ?_
  rw [hlen, show g'.done = false from hd]
  exact .wrote hfirst htx hl

/-- COMMIT, with the new value pending. -/
theorem commit_inStep {v : Int} (hall : l.answers.all goesOn = true)
    (hlen : l.answers.length = 6) (hopen : l.session.loopInProgress = true)
    (hfirst : l.session.firstValidMessage = false) (hl : l.session.lockedTables = [t])
    (hhold : g.hold = .wrote v) (hd : g.done = false) :
    (commitTree (ready l.session)).wp (incrementing name t key)
      (fun s' g' => (l.after (.line buf) s').InStep t g') g := by
  unfold commitTree
  refine incr_ask trivial fun ts g' hr => ?_
  obtain ⟨hperm, rfl⟩ := hr
  rw [show (ready l.session).lockedTables = [t] from hl] at hperm
  obtain rfl := List.perm_singleton.mp hperm
  refine incr_ask ⟨rfl, hd, v, hhold⟩ fun _ g₁ hg₁ => ?_
  obtain ⟨u, -, rfl⟩ := hg₁
  refine incr_ask ⟨rfl, _, rfl⟩ fun _ g₂ hg₂ => ?_
  obtain rfl := hg₂
  refine inStep_next hall hopen rfl ?_ ?_
  · show true = decide ((l.answers ++ [[okLine]])[6]? = some [okLine])
    rw [← hlen, List.getElem?_concat_length]
    exact (decide_eq_true rfl).symm
  · rw [hlen]
    exact .committed hfirst rfl rfl

/-- ADD, of 1 to the value that was read. -/
theorem add_inStep {v : Int} (hdone : g.done = l.committed) (hall : l.answers.all goesOn = true)
    (hlen : l.answers.length = 4) (hopen : l.session.loopInProgress = true)
    (hdec : decode buf {} = .ok addOperation) (hv : v < intMax)
    (hfirst : l.session.firstValidMessage = false)
    (hst : l.session.stack = ["1".toList, toStr v]) (htx : l.session.inTransaction = true)
    (hl : l.session.lockedTables = [t]) (hhold : g.hold = .read v) (hd : g.done = false) :
    (process (.line buf) l.session).wp (incrementing name t key)
      (fun s' g' => (l.after (.line buf) s').InStep t g') g := by
  have hone : stoi "1".toList = .ok 1 := by decide
  by_cases hfit : FitsInt v
  · have hfit' : FitsInt (v + 1) := by
      obtain ⟨hlo, -⟩ := hfit
      exact ⟨by omega, by omega⟩
    have hcomputes : Computes addOperation l.session.stack [toStr (wrap (v + 1))] okLine := by
      rw [hst]
      exact .arith rfl hone (stoi_toStr hfit) rfl
    rw [wrap_of_fits hfit'] at hcomputes
    rw [process_computes hopen hfirst hdec hcomputes]
    refine inStep_local hdone hall (by omega) hopen rfl ?_
    rw [hlen, hhold, hd]
    exact .added hfirst rfl htx hl
  · -- a numeral too small for `stoi`: nothing catches what it throws, and the process ends
    have hkills : Kills addOperation l.session.stack [toStr v] := by
      rw [hst]
      refine .left rfl hone ?_
      rw [stoi_toStr_eq, if_neg hfit]
    rw [process_kills hfirst hdec hkills]
    refine incr_ask trivial fun _ g' hg' => ?_
    obtain rfl := hg'
    refine ⟨?_, .inl rfl⟩
    rw [committed_snoc (.inl (by omega))]
    exact hdone

/-- A whole line of the client. -/
theorem whole_inStep (hdone : g.done = l.committed) (hall : l.answers.all goesOn = true)
    (hopen : l.session.loopInProgress = true)
    (hstage : Stage t l.answers.length l.session g.hold g.done) (hbuf : buf ≠ [])
    (hm : c.main[l.answers.length]? = some m) (henc : encode m = .ok buf) :
    (process (.line buf) l.session).wp (incrementing c.table t c.key)
      (fun s' g' => (l.after (.line buf) s').InStep t g') g := by
  have hdec : ∀ n, l.answers.length = n + 1 → decode buf {} = .ok m := by
    intro n hn
    rw [hn] at hm
    exact IncrValue.decode_line hm henc
  generalize hn : l.answers.length = n at hstage hm
  generalize hs : l.session = s at hstage
  generalize hhold : g.hold = hold at hstage
  generalize hd : g.done = done at hstage
  cases hstage with
  | connected hst htx hl =>
    subst hs
    by_cases hmsg : ∃ m', decode buf {} = .ok m'
    · obtain ⟨m', hm'⟩ := hmsg
      rw [process_login hopen hm' (IncrValue.decode_login hm henc hm')]
      refine inStep_local hdone hall (by omega) hopen rfl ?_
      rw [hn, hhold, hd]
      exact .loggedIn rfl hst htx hl
    · refine undecodable_inStep hdone ?_ hbuf fun m' hm' => hmsg ⟨m', hm'⟩
      rw [hhold]
      exact hl
  | loggedIn hfirst hst htx hl =>
    obtain rfl : beginOperation = m := Option.some.inj hm
    subst hs
    rw [process_begin hopen hfirst (hdec _ hn) htx]
    refine inStep_local hdone hall (by omega) hopen rfl ?_
    rw [hn, hhold, hd]
    exact .begun hfirst hst rfl hl
  | begun hfirst hst htx hl =>
    obtain rfl : getOperation c.table c.key = m := Option.some.inj hm
    subst hs
    rw [process_get hopen hfirst (hdec _ hn)]
    exact get_inStep hdone hall hn hopen hfirst hst htx hl hhold hd
  | @read _ v hv hfirst hst htx hl =>
    obtain rfl : pushOperation = m := Option.some.inj hm
    subst hs
    have hcomputes : Computes pushOperation l.session.stack ["1".toList, toStr v] okLine := by
      rw [hst]
      exact .push
    rw [process_computes hopen hfirst (hdec _ hn) hcomputes]
    refine inStep_local hdone hall (by omega) hopen rfl ?_
    rw [hn, hhold, hd]
    exact .pushed hv hfirst rfl htx hl
  | pushed hv hfirst hst htx hl =>
    obtain rfl : addOperation = m := Option.some.inj hm
    subst hs
    exact add_inStep hdone hall hn hopen (hdec _ hn) hv hfirst hst htx hl hhold hd
  | added hfirst hst htx hl =>
    obtain rfl : setOperation c.table c.key = m := Option.some.inj hm
    subst hs
    rw [process_set hopen hfirst (hdec _ hn) hst]
    exact set_inStep hdone hall hn hopen hfirst htx hl hhold hd
  | wrote hfirst htx hl =>
    obtain rfl : commitOperation = m := Option.some.inj hm
    subst hs
    rw [process_commit hopen hfirst (hdec _ hn) htx]
    exact commit_inStep hall hn hopen hfirst hl hhold hd
  | committed hfirst htx hl =>
    obtain rfl : byeOperation = m := Option.some.inj hm
    subst hs
    rw [process_bye hfirst (hdec _ hn)]
    have htied : Tied t (answered (closed (ready l.session)) okLine) g.hold := by
      rw [hhold]
      exact hl
    refine incr_giveUp htied ⟨?_, .inr (.inr ⟨rfl, ?_⟩)⟩
    · show g.done = _
      rw [committed_snoc (.inl (by omega))]
      exact hdone
    · obtain ⟨hl', htx'⟩ := htied.released
      refine ⟨hl', htx', fun hloop => ?_⟩
      exact absurd ((loopInProgress_released _).symm.trans hloop) Bool.false_ne_true

/-- **What comes from the client keeps it in step.** -/
theorem process_inStep {input : Input} (hrest : l.InStep t g) (hdead : g.dead = false)
    (hopen : l.session.loopInProgress = true) (hsends : c.sends l.answers input = true) :
    (process input l.session).wp (incrementing c.table t c.key)
      (fun s' g' => (l.after input s').InStep t g') g := by
  obtain ⟨hdone, hrest⟩ := hrest
  have hplace := hrest.resolve_left (by rw [hdead]; decide)
  cases input with
  | eof =>
    have htied : Tied t (closed (ready l.session)) g.hold := by
      rcases hplace with ⟨-, -, hstage⟩ | ⟨hhold, hl, -, -⟩
      · have h := hstage.tied
        cases hh : g.hold with
        | none => rw [hh] at h; exact h
        | read v | wrote v => rw [hh] at h; exact h
      · rw [hhold]
        exact hl
    rw [process_eof]
    obtain ⟨hl', htx'⟩ := htied.released
    refine incr_giveUp htied ⟨hdone, .inr (.inr ⟨rfl, hl', htx', fun hloop => ?_⟩)⟩
    exact absurd ((loopInProgress_released _).symm.trans hloop) Bool.false_ne_true
  | line buf =>
    obtain ⟨hall, hbuf, m, line, hm, henc, hpre⟩ := IncrValue.sends_line hsends
    have hstage : Stage t l.answers.length l.session g.hold g.done := by
      rcases hplace with ⟨-, -, hstage⟩ | ⟨-, -, -, hstop⟩
      · exact hstage
      · rw [hstop hopen] at hall
        cases hall
    by_cases hcut : buf = line
    · subst hcut
      exact whole_inStep hdone hall hopen hstage hbuf hm henc
    · exact undecodable_inStep hdone hstage.tied hbuf fun m' =>
        IncrValue.decode_cut (List.mem_of_getElem? hm) henc hpre hcut m'

end Program

/-! ## All runs -/

section Runs

variable {ι : Type} [Fintype ι] [DecidableEq ι] {c : ι → IncrValue} {target : ι → Ptr}
  {z : Ptr → Str → Int} {srv₀ : Server ι}

/-- A server for the clients `c`: the tables are there and at rest, and every key has a number that
    all increments leave an `int`. -/
structure Ready (c : ι → IncrValue) (target : ι → Ptr) (z : Ptr → Str → Int)
    (srv₀ : Server ι) : Prop where
  named : ∀ i, srv₀.findTable (c i).table = some (target i)
  free : ∀ t, (srv₀.tables t).mutex = none
  clean : ∀ t, (srv₀.tables t).Clean
  value : ∀ i, (srv₀.tables (target i)).keyValuePairs.lookup (c i).key
    = some (toStr (z (target i) (c i).key))
  fits : ∀ i, z (target i) (c i).key + Fintype.card ι ≤ intMax

/-- The proof outline of the clients. -/
def incrOutline (c : ι → IncrValue) (target : ι → Ptr) (z : Ptr → Str → Int)
    (hfits : ∀ i, z (target i) (c i).key + Fintype.card ι ≤ intMax) :
    System.Outline (incrSystem c) Ghost where
  spec i := incrementing (c i).table (target i) (c i).key
  rest i l g := l.InStep (target i) g
  inv := Counted c target z
  accept_ok := by
    intro i log srv γ l input p hinv hrest hacc
    have hacc' : (if l.session.loopInProgress ∧ srv.aborted = false ∧
        (c i).sends l.answers input then
          some ((process input l.session).bind fun s' => .ret (l.after input s'))
        else none) = some p := hacc
    split at hacc'
    · rename_i hcond
      obtain ⟨hopen, hab, hsends⟩ := hcond
      have hdead : (γ i).dead = false := by
        rw [Bool.eq_false_iff]
        intro hdead
        rw [hinv.dead i hdead] at hab
        cases hab
      obtain rfl := Option.some.inj hacc'
      rw [Prog.wp_bind]
      exact process_inStep hrest hdead hopen hsends
    · cases hacc'
  call_ok := by
    intro i o log srv γ r srv' Q hinv hpre hstep
    obtain ⟨g', hg', hinv'⟩ := hinv.call hfits hpre.1 hstep
    exact ⟨g', hpre.2 r g' hg', hinv'⟩

/-- The outline holds at the start. -/
theorem incrOutline_start (h : Ready c target z srv₀) :
    (incrOutline c target z h.fits).Holds [] (incrStart srv₀) := by
  have hnobody : ∀ i, increments c target (fun _ => {}) i = 0 := by
    intro i
    unfold increments
    rw [Finset.card_eq_zero, Finset.filter_eq_empty_iff]
    rintro j - ⟨hdone, -⟩
    cases hdone
  refine ⟨fun _ => {}, ⟨h.named, fun t i => ?_, fun t _ => h.clean t, fun i => trivial, fun i => ?_,
    fun i => ?_, nofun⟩, fun i => ⟨rfl, .inr (.inl ⟨rfl, rfl, .connected rfl rfl rfl⟩)⟩⟩
  · show (srv₀.tables t).mutex = some i ↔ _
    rw [h.free t]
    exact iff_of_false nofun fun hR => hR.2 rfl
  · rw [hnobody]
    show (srv₀.tables (target i)).keyValuePairs.lookup (c i).key = _
    rw [h.value i]
    simp
  · rw [hnobody]
    rfl

/-- **No increment is lost.**  After every interleaving, each key has its initial value plus the
    commits applied to it; and if no request is under way, the latter are the COMMITs that were
    carried out. -/
theorem increments_kept (h : Ready c target z srv₀) {log : List (Called ι calls)}
    {cfg : Config ι (Server ι) Conn calls}
    (hrun : System.Run (incrSystem c) (incrStart srv₀) log cfg) (i : ι) :
    (cfg.shared.tables (target i)).keyValuePairs.lookup (c i).key
        = some (toStr (z (target i) (c i).key + commits c target i log)) ∧
      ∀ l : ι → Conn, (∀ j, cfg.threads j = .rest (l j)) →
        (cfg.shared.tables (target i)).keyValuePairs.lookup (c i).key
          = some (toStr (z (target i) (c i).key
              + (Finset.univ.filter fun j => (l j).committed = true ∧ SameKey c target i j).card)) := by
  obtain ⟨γ, hinv, hat⟩ := (incrOutline c target z h.fits).run (incrOutline_start h) hrun
  refine ⟨?_, fun l hl => ?_⟩
  · rw [hinv.logged i]
    exact hinv.value i
  · have hdone : ∀ j, (γ j).done = (l j).committed := by
      intro j
      have hj := hat j
      rw [hl j] at hj
      exact hj.1
    have hcount : increments c target γ i
        = (Finset.univ.filter fun j => (l j).committed = true ∧ SameKey c target i j).card := by
      unfold increments
      simp only [hdone]
    rw [← hcount]
    exact hinv.value i

/-- Three clients of one key; the table is locked when one of them asks for it. -/
theorem increments_kept_three : ∃ (c : Fin 3 → IncrValue) (srv₀ : Server (Fin 3))
    (log : List (Called (Fin 3) calls)) (cfg : Config (Fin 3) (Server (Fin 3)) Conn calls),
    Ready c (fun _ => 0) (fun _ _ => 5) srv₀ ∧
      System.Run (incrSystem c) (incrStart srv₀) log cfg ∧
      (cfg.shared.tables 0).keyValuePairs.lookup (c 0).key = some "7".toList := by
  let ann : IncrValue :=
    { username := "ann".toList, table := "t".toList, key := "x".toList, oneLine := by decide,
      table_ok := rfl, key_ok := rfl }
  let srv₀ : Server (Fin 3) := (Server.createTable {} "t".toList).setTable 0
    { keyValuePairs := (∅ : Overlay.Map Str Str).insert "x".toList "5".toList }
  let opening (i : Fin 3) := told i "LOGIN ann\n" 1 ++ told i "BEGIN\n" 1
  let closing (i : Fin 3) := told i "PUSH 1\n" 1 ++ told i "ADD\n" 1 ++ told i "SET t x\n" 3
    ++ told i "COMMIT\n" 4 ++ told i "BYE\n" 1
  let ms := [0, 1, 2].flatMap opening ++ told 0 "GET t x\n" 5 ++ told 2 "GET t x\n" 4
    ++ closing 0 ++ told 1 "GET t x\n" 5 ++ closing 1
  have hready : Ready (fun _ => ann) (fun _ => 0) (fun _ _ => 5) srv₀ := by
    refine ⟨fun _ => rfl, fun t => ?_, fun t => ?_, fun _ => rfl, fun _ => by decide⟩
    · cases t with
      | zero => rfl
      | succ t => rfl
    · intro k
      cases t with
      | zero => exact Overlay.shown_empty _ k
      | succ t => rfl
  have hplay : ((incrSystem fun _ => ann).play serve ms (incrStart srv₀)).any
      (fun cfg => decide (∀ i : Fin 3,
        (cfg.threads i).rest?.map Conn.committed = some (decide (i ≠ 2)))) = true := by
    decide +kernel
  obtain ⟨log, cfg, hrun, hend⟩ :=
    System.Run.of_play (fun _ _ _ _ _ h => step_of_serve h) hplay
  have hrest : ∀ i, ∃ l, cfg.threads i = .rest l ∧ l.committed = decide (i ≠ 2) := by
    intro i
    obtain ⟨l, hl, hc⟩ := Option.map_eq_some_iff.mp (hend i)
    exact ⟨l, Thread.rest?_eq_some hl, hc⟩
  choose l hl hc using hrest
  refine ⟨fun _ => ann, srv₀, log, cfg, hready, hrun, ?_⟩
  have hvalue := (increments_kept hready hrun 0).2 l hl
  have hcard : (Finset.univ.filter fun j => (l j).committed = true ∧
      SameKey (fun _ : Fin 3 => ann) (fun _ => 0) 0 j).card = 2 := by
    simp only [hc]
    rfl
  rw [hcard] at hvalue
  exact hvalue

end Runs

end BasicServer
