/-
  Who holds which mutex.

  The proof outline of the interleaved server: every thread has a `Claim`, the table mutexes it may
  hold and whether it holds the server's.  `Call.Needs` told what a call asks of the caller's claim,
  `Call.claim` what becomes of it, and `Owned` ties the claims to the mutexes.  One call of any
  thread keeps `Owned` (`Owned.call`), every program of a session keeps to its claim
  (`process_keeps`), and so both hold in every reachable state (`outline`).

  Whether a claim is exact is the parameter `strict`.  GET of a missing key unlocks its table twice,
  so in general a claim is only an upper bound: another thread may have taken the mutex meanwhile.
  In the runs in which every GET finds its key it is exact.

  1. **Lock discipline** (`lock_discipline`) — where every GET finds its key, a table is used and
     unlocked by the thread that holds its mutex, and by no other.
  2. **No deadlock** (`no_deadlock`) — in every run, with or without the double unlock.
-/
import BasicServer.Shape
import BasicServer.Sessions
import Mathlib.Data.Finset.Basic
import Mathlib.Logic.Relation

namespace BasicServer

open Function (update)

/-! ## Claims -/

/-- What a thread may hold: table mutexes, the server's mutex; and the tables it has seen. -/
structure Claim where
  tables : Finset Ptr := ∅
  server : Bool := false
  seen : Finset Ptr := ∅

/-- What a call asks of its caller, a session `s` with the claim `g`. -/
def Call.Needs (strict : Prop) (s : Session) (g : Claim) : Call → Prop
  | .serverLock => g.server = false
  | .serverUnlock | .createTable _ => g.server = true
  | .lock t => s.inTransaction = false ∧ g.tables = ∅ ∧ g.server = false ∧ t ∈ g.seen
  | .trylock t => t ∈ g.seen
  | .unlock t | .set t _ _ | .hasKey t _ | .get t _ | .commitChanges t | .rollbackChanges t =>
    t ∈ g.seen ∧ (strict → t ∈ g.tables)
  | .findTable _ | .walk _ | .terminate => True

/-- The answers a caller has to be ready for. -/
def Call.Allows (strict : Prop) : (c : Call) → c.Ans → Prop
  | .walk ts, r => List.Perm r ts
  | .hasKey _ _, b => strict → b = true
  | .get _ _, r => ∀ e, r = .error e →
    e = .operationException "Key that does not exist requested".toList
  | _, _ => True

/-- The claim after a call. -/
def Call.claim (g : Claim) : (c : Call) → c.Ans → Claim
  | .serverLock, _ => { g with server := true }
  | .serverUnlock, _ => { g with server := false }
  | .findTable _, some t => { g with seen := insert t g.seen }
  | .lock t, _ => { g with tables := insert t g.tables }
  | .trylock t, true => { g with tables := insert t g.tables }
  | .unlock t, _ => { g with tables := g.tables.erase t }
  | _, _ => g

/-- The specification of the calls. -/
def ownership (strict : Prop) : Prog.Spec calls Claim where
  pre o Q g := o.call.Needs strict o.self g ∧
    ∀ r, o.call.Allows strict r → Q r (o.call.claim g r)
  mono hQ h := ⟨h.1, fun r hr => hQ r _ (h.2 r hr)⟩

/-- The claims of all threads agree with the mutexes. -/
structure Owned {ι : Type} (strict : Prop) (srv : Server ι) (γ : ι → Claim) : Prop where
  held : ∀ t i, (srv.tables t).mutex = some i → t ∈ (γ i).tables
  exact : strict → ∀ t i, t ∈ (γ i).tables → (srv.tables t).mutex = some i
  server : ∀ i, srv.mutex = some i ↔ (γ i).server = true
  tables_seen : ∀ i, (γ i).tables ⊆ (γ i).seen
  seen_lt : ∀ i, ∀ t ∈ (γ i).seen, t < srv.next
  names_lt : ∀ name t, srv.findTable name = some t → t < srv.next

namespace Owned

variable {ι : Type} {strict : Prop} {srv : Server ι} {γ : ι → Claim} {i : ι}

theorem lt_of_tables (h : Owned strict srv γ) {t : Ptr} (ht : t ∈ (γ i).tables) : t < srv.next :=
  h.seen_lt i t (h.tables_seen i ht)

/-- The entries of a table are not looked at. -/
theorem setTable (h : Owned strict srv γ) {t : Ptr} {table : Table ι}
    (hm : table.mutex = (srv.tables t).mutex) : Owned strict (srv.setTable t table) γ := by
  have hmutex : ∀ t', ((srv.setTable t table).tables t').mutex = (srv.tables t').mutex := by
    intro t'
    by_cases ht : t' = t
    · subst ht; rw [Server.tables_setTable, hm]
    · rw [Server.tables_setTable_ne _ _ _ ht]
  exact { h with
    held := fun t' j hj => h.held t' j (by rw [← hmutex]; exact hj)
    exact := fun hs t' j hj => by rw [hmutex]; exact h.exact hs t' j hj }

variable [DecidableEq ι]

theorem tables_update (γ : ι → Claim) (i : ι) (T : Finset Ptr) (j : ι) :
    (update γ i { γ i with tables := T } j).tables = if j = i then T else (γ j).tables := by
  by_cases hji : j = i
  · subst hji; simp
  · simp [hji]

/-- Replace the tables of one claim, and change mutexes alike. -/
theorem update_tables (h : Owned strict srv γ) {T : Finset Ptr} {t : Ptr} {m : Option ι}
    (hheld : ∀ j, m = some j → t ∈ if j = i then T else (γ j).tables)
    (hexact : strict → ∀ j, t ∈ (if j = i then T else (γ j).tables) → m = some j)
    (hother : ∀ t', t' ≠ t → (t' ∈ T ↔ t' ∈ (γ i).tables)) (hT : T ⊆ (γ i).seen) :
    Owned strict (srv.setMutex t m) (update γ i { γ i with tables := T }) := by
  have hsame : ∀ j, (update γ i { γ i with tables := T } j).server = (γ j).server ∧
      (update γ i { γ i with tables := T } j).seen = (γ j).seen := by
    intro j
    by_cases hji : j = i
    · subst hji; simp
    · simp [hji]
  have hmem : ∀ t' j, t' ≠ t →
      (t' ∈ (update γ i { γ i with tables := T } j).tables ↔ t' ∈ (γ j).tables) := by
    intro t' j ht
    rw [tables_update]
    by_cases hji : j = i
    · subst hji; rw [if_pos rfl]; exact hother t' ht
    · rw [if_neg hji]
  constructor
  case held =>
    intro t' j hj
    by_cases ht : t' = t
    · subst ht
      rw [tables_update]
      exact hheld j (by simpa using hj)
    · rw [Server.tables_setMutex_ne _ _ _ ht] at hj
      exact (hmem t' j ht).mpr (h.held t' j hj)
  case exact =>
    intro hs t' j hj
    by_cases ht : t' = t
    · subst ht
      rw [tables_update] at hj
      simpa using hexact hs j hj
    · rw [Server.tables_setMutex_ne _ _ _ ht]
      exact h.exact hs t' j ((hmem t' j ht).mp hj)
  case server => intro j; rw [(hsame j).1]; exact h.server j
  case tables_seen =>
    intro j
    rw [(hsame j).2, tables_update]
    by_cases hji : j = i
    · subst hji; rw [if_pos rfl]; exact hT
    · rw [if_neg hji]; exact h.tables_seen j
  case seen_lt => intro j; rw [(hsame j).2]; exact h.seen_lt j
  case names_lt => exact h.names_lt

/-- A free mutex is taken. -/
theorem take (h : Owned strict srv γ) {t : Ptr} (hfree : (srv.tables t).mutex = none)
    (hseen : t ∈ (γ i).seen) : Owned strict (srv.setMutex t (some i))
      (update γ i { γ i with tables := insert t (γ i).tables }) := by
  refine h.update_tables ?_ ?_ ?_ (Finset.insert_subset hseen (h.tables_seen i))
  · rintro j hj
    obtain rfl := Option.some.inj hj
    rw [if_pos rfl]
    exact Finset.mem_insert_self ..
  · intro hs j hj
    by_cases hji : j = i
    · rw [hji]
    · rw [if_neg hji] at hj
      -- nobody else has a claim on a mutex that is free
      rw [h.exact hs t j hj] at hfree
      cases hfree
  · intro t' ht
    rw [Finset.mem_insert, or_iff_right ht]

/-- A mutex is freed, by whomever. -/
theorem free (h : Owned strict srv γ) {t : Ptr} (hown : strict → t ∈ (γ i).tables) :
    Owned strict (srv.setMutex t none)
      (update γ i { γ i with tables := (γ i).tables.erase t }) := by
  refine h.update_tables nofun ?_ ?_ ((Finset.erase_subset ..).trans (h.tables_seen i))
  · intro hs j hj
    by_cases hji : j = i
    · rw [if_pos hji] at hj
      exact absurd hj (Finset.notMem_erase t _)
    · rw [if_neg hji] at hj
      have hi := h.exact hs t i (hown hs)
      rw [h.exact hs t j hj] at hi
      exact absurd (Option.some.inj hi) hji
  · intro t' ht
    rw [Finset.mem_erase, and_iff_right ht]

/-- Only the server's mutex and the claim on it change. -/
theorem setServer (h : Owned strict srv γ) {m : Option ι} {b : Bool}
    (hm : ∀ j, m = some j ↔ (if j = i then b else (γ j).server) = true) :
    Owned strict { srv with mutex := m } (update γ i { γ i with server := b }) := by
  have hsame : ∀ j, (update γ i { γ i with server := b } j).tables = (γ j).tables ∧
      (update γ i { γ i with server := b } j).seen = (γ j).seen ∧
      (update γ i { γ i with server := b } j).server = if j = i then b else (γ j).server := by
    intro j
    by_cases hji : j = i
    · subst hji; simp
    · simp [hji]
  constructor
  case held => intro t j hj; rw [(hsame j).1]; exact h.held t j hj
  case exact => intro hs t j hj; rw [(hsame j).1] at hj; exact h.exact hs t j hj
  case server => intro j; rw [(hsame j).2.2]; exact hm j
  case tables_seen => intro j; rw [(hsame j).1, (hsame j).2.1]; exact h.tables_seen j
  case seen_lt => intro j; rw [(hsame j).2.1]; exact h.seen_lt j
  case names_lt => exact h.names_lt

/-- The server's mutex is taken. -/
theorem takeServer (h : Owned strict srv γ) (hfree : srv.mutex = none) :
    Owned strict { srv with mutex := some i } (update γ i { γ i with server := true }) := by
  refine h.setServer fun j => ?_
  by_cases hji : j = i
  · subst hji; simp
  · rw [if_neg hji, ← h.server j, hfree]
    exact ⟨fun hj => absurd (Option.some.inj hj).symm hji, nofun⟩

/-- Its holder frees the server's mutex. -/
theorem freeServer (h : Owned strict srv γ) (hown : (γ i).server = true) :
    Owned strict { srv with mutex := none } (update γ i { γ i with server := false }) := by
  refine h.setServer fun j => ?_
  by_cases hji : j = i
  · subst hji; simp
  · rw [if_neg hji, ← h.server j, (h.server i).mpr hown]
    exact ⟨nofun, fun hj => absurd (Option.some.inj hj).symm hji⟩

/-- A table that the map has is seen. -/
theorem see (h : Owned strict srv γ) {t : Ptr} (ht : t < srv.next) :
    Owned strict srv (update γ i { γ i with seen := insert t (γ i).seen }) := by
  have hsame : ∀ j, (update γ i { γ i with seen := insert t (γ i).seen } j).tables = (γ j).tables ∧
      (update γ i { γ i with seen := insert t (γ i).seen } j).server = (γ j).server := by
    intro j
    by_cases hji : j = i
    · subst hji; simp
    · simp [hji]
  constructor
  case held => intro t j hj; rw [(hsame j).1]; exact h.held t j hj
  case exact => intro hs t j hj; rw [(hsame j).1] at hj; exact h.exact hs t j hj
  case server => intro j; rw [(hsame j).2]; exact h.server j
  case tables_seen =>
    intro j
    rw [(hsame j).1]
    by_cases hji : j = i
    · subst hji
      simpa using (h.tables_seen j).trans (Finset.subset_insert ..)
    · rw [Function.update_of_ne hji]; exact h.tables_seen j
  case seen_lt =>
    intro j t' ht'
    by_cases hji : j = i
    · subst hji
      rw [Function.update_self, Finset.mem_insert] at ht'
      rcases ht' with rfl | ht'
      · exact ht
      · exact h.seen_lt j t' ht'
    · rw [Function.update_of_ne hji] at ht'; exact h.seen_lt j t' ht'
  case names_lt => exact h.names_lt

omit [DecidableEq ι] in
/-- A new table is one that nobody has a claim on. -/
theorem create (h : Owned strict srv γ) (name : Str) : Owned strict (srv.createTable name) γ := by
  have hmutex : ∀ t, t < srv.next → (srv.createTable name).tables t = srv.tables t :=
    fun t ht => Server.tables_createTable_ne _ _ _ (Nat.ne_of_lt ht)
  constructor
  case held =>
    intro t j hj
    by_cases ht : t = srv.next
    · subst ht
      rw [Server.tables_createTable] at hj
      cases hj
    · rw [Server.tables_createTable_ne _ _ _ ht] at hj
      exact h.held t j hj
  case exact =>
    intro hs t j hj
    rw [hmutex t (h.lt_of_tables hj)]
    exact h.exact hs t j hj
  case server => exact h.server
  case tables_seen => exact h.tables_seen
  case seen_lt =>
    intro j t ht
    exact Nat.lt_succ_of_lt (h.seen_lt j t ht)
  case names_lt =>
    intro name' t ht
    show t < srv.next + 1
    by_cases hname : name' = name
    · subst hname
      rw [Server.findTable_createTable] at ht
      rw [← Option.some.inj ht]
      exact Nat.lt_succ_self srv.next
    · rw [Server.findTable_createTable_ne _ hname] at ht
      exact Nat.lt_succ_of_lt (h.names_lt name' t ht)

/-- **One call of any thread keeps the claims**, and is answered in a way the caller is ready for. -/
theorem call (h : Owned strict srv γ) {c : Call} {s : Session} {r : c.Ans} {srv' : Server ι}
    (hn : c.Needs strict s (γ i)) (hs : c.Step i srv r srv')
    (hfound : strict → ∀ t key, c = .hasKey t key → (srv.tables t).hasKey key = true) :
    c.Allows strict r ∧ Owned strict srv' (update γ i (c.claim (γ i) r)) := by
  have hsame : update γ i (γ i) = γ := Function.update_eq_self i γ
  obtain ⟨-, hs⟩ := hs
  cases c with
  | serverLock =>
    simp only [Call.apply] at hs
    cases hm : srv.mutex with
    | some j => rw [hm] at hs; cases hs
    | none =>
      rw [hm] at hs
      cases hs
      exact ⟨trivial, h.takeServer hm⟩
  | serverUnlock => cases hs; exact ⟨trivial, h.freeServer hn⟩
  | findTable name =>
    cases hs
    refine ⟨trivial, ?_⟩
    cases hf : srv.findTable name with
    | none => exact (congrArg (Owned strict srv) hsame).mpr h
    | some t => exact h.see (h.names_lt name t hf)
  | createTable name =>
    cases hs
    exact ⟨trivial, (congrArg (Owned strict _) hsame).mpr (h.create name)⟩
  | lock t =>
    simp only [Call.apply] at hs
    cases hm : (srv.tables t).mutex with
    | some j => rw [hm] at hs; cases hs
    | none =>
      rw [hm] at hs
      cases hs
      exact ⟨trivial, h.take hm hn.2.2.2⟩
  | trylock t =>
    simp only [Call.apply] at hs
    cases hm : (srv.tables t).mutex with
    | some j =>
      rw [hm] at hs
      cases hs
      exact ⟨trivial, (congrArg (Owned strict srv) hsame).mpr h⟩
    | none =>
      rw [hm] at hs
      cases hs
      exact ⟨trivial, h.take hm hn⟩
  | unlock t => cases hs; exact ⟨trivial, h.free hn.2⟩
  | set t key value =>
    cases hs
    exact ⟨trivial, (congrArg (Owned strict _) hsame).mpr (h.setTable rfl)⟩
  | hasKey t key =>
    cases hs
    exact ⟨fun hstrict => hfound hstrict t key rfl, (congrArg (Owned strict srv) hsame).mpr h⟩
  | get t key =>
    cases hs
    exact ⟨fun e he => Table.get_error he, (congrArg (Owned strict srv) hsame).mpr h⟩
  | commitChanges t =>
    cases hs
    exact ⟨trivial, (congrArg (Owned strict _) hsame).mpr (h.setTable rfl)⟩
  | rollbackChanges t =>
    cases hs
    exact ⟨trivial, (congrArg (Owned strict _) hsame).mpr (h.setTable rfl)⟩
  | walk ts =>
    obtain ⟨hperm, rfl⟩ := hs
    exact ⟨hperm, (congrArg (Owned strict _) hsame).mpr h⟩
  | terminate =>
    cases hs
    exact ⟨trivial, (congrArg (Owned strict _) hsame).mpr { h with }⟩

end Owned

/-! ## Programs keep to their claim -/

/-- What a session has claimed, while the server's mutex is not involved.  With `strict` unmet a
    table it has locked may be missing from the claim: it was unlocked too early. -/
structure Keeps (strict : Prop) (s : Session) (g : Claim) : Prop where
  sub : ∀ t ∈ g.tables, t ∈ s.lockedTables
  all : strict → ∀ t ∈ s.lockedTables, t ∈ g.tables
  server : g.server = false
  nodup : s.lockedTables.Nodup
  seen : ∀ t ∈ s.lockedTables, t ∈ g.seen
  noTx : s.inTransaction = false → s.lockedTables = []

/-- A session between two inputs. -/
structure AtRest (strict : Prop) (s : Session) (g : Claim) : Prop extends Keeps strict s g where
  ended : s.loopInProgress = false → s.inTransaction = false

namespace Keeps

variable {strict : Prop} {s : Session} {g : Claim} {Q : Session → Claim → Prop}

/-- Nothing but the locks and the transaction matters. -/
theorem congr (h : Keeps strict s g) {s' : Session} (hl : s'.lockedTables = s.lockedTables)
    (ht : s'.inTransaction = s.inTransaction) : Keeps strict s' g where
  sub := by rw [hl]; exact h.sub
  all := by rw [hl]; exact h.all
  server := h.server
  nodup := by rw [hl]; exact h.nodup
  seen := by rw [hl]; exact h.seen
  noTx := by rw [hl, ht]; exact h.noTx

/-- More tables may have been seen. -/
theorem seeMore (h : Keeps strict s g) {t : Ptr} :
    Keeps strict s { g with seen := insert t g.seen } :=
  { h with seen := fun t' ht' => Finset.mem_insert_of_mem (h.seen t' ht') }

/-- Outside a transaction there are no claims. -/
theorem noTables (h : Keeps strict s g) (htx : s.inTransaction = false) : g.tables = ∅ := by
  refine Finset.eq_empty_of_forall_notMem fun t ht => ?_
  have hmem := h.sub t ht
  rw [h.noTx htx] at hmem
  cases hmem

/-- The transaction, if there was one, is over. -/
theorem rest_released (h : Keeps strict s g) {s' : Session}
    (hl : s'.lockedTables = (released s).lockedTables)
    (ht : s'.inTransaction = (released s).inTransaction) :
    AtRest strict s' { g with tables := ∅ } := by
  have hlocked : s'.lockedTables = [] := by
    rw [hl, released]
    split
    · rfl
    · rename_i htx; exact h.noTx (by simpa using htx)
  have htx : s'.inTransaction = false := by
    rw [ht, released]
    split
    · rfl
    · rename_i htx; simpa using htx
  exact { sub := fun t ht => absurd ht (Finset.notMem_empty t)
          all := fun _ t ht => by rw [hlocked] at ht; cases ht
          server := h.server
          nodup := by rw [hlocked]; exact List.nodup_nil
          seen := fun t ht => by rw [hlocked] at ht; cases ht
          noTx := fun _ => hlocked
          ended := fun _ => htx }

end Keeps

section Programs

variable {strict : Prop} {s : Session} {g : Claim} {Q : Session → Claim → Prop}

/-- The rule for a call. -/
theorem claim_ask {α : Type} {c : Call} {k : c.Ans → Prog calls α} {Q : α → Claim → Prop}
    (hn : c.Needs strict s g)
    (h : ∀ r, c.Allows strict r → (k r).wp (ownership strict) Q (c.claim g r)) :
    (Prog.call ⟨c, s⟩ k : Prog calls α).wp (ownership strict) Q g := ⟨hn, h⟩

/-- The loops of COMMIT and of a rollback use up the claim on the tables. -/
theorem claim_releaseAll {act : Ptr → Call} (hact : act = .rollbackChanges ∨ act = .commitChanges)
    {ts : List Ptr} (hnodup : ts.Nodup) (hsub : ∀ t ∈ g.tables, t ∈ ts)
    (hall : strict → ∀ t ∈ ts, t ∈ g.tables) (hseen : ∀ t ∈ ts, t ∈ g.seen) :
    (releaseAll act s ts).wp (ownership strict) (fun _ g' => g' = { g with tables := ∅ }) g := by
  induction ts generalizing g with
  | nil =>
    have hempty : g.tables = ∅ :=
      Finset.eq_empty_of_forall_notMem fun t ht => List.not_mem_nil (hsub t ht)
    show g = { g with tables := ∅ }
    rw [← hempty]
  | cons t ts ih =>
    have hown : t ∈ g.seen ∧ (strict → t ∈ g.tables) :=
      ⟨hseen t (List.mem_cons_self ..), fun hs => hall hs t (List.mem_cons_self ..)⟩
    obtain ⟨hnot, hnodup⟩ := List.nodup_cons.mp hnodup
    have hrest : (releaseAll act s ts).wp (ownership strict)
        (fun _ g' => g' = { g with tables := ∅ }) { g with tables := g.tables.erase t } := by
      refine @ih { g with tables := g.tables.erase t } hnodup (fun t' ht' => ?_)
        (fun hs t' ht' => ?_) (fun t' ht' => ?_)
      · obtain ⟨hne, hmem⟩ := Finset.mem_erase.mp ht'
        exact (List.mem_cons.mp (hsub t' hmem)).resolve_left hne
      · refine Finset.mem_erase.mpr ⟨?_, hall hs t' (List.mem_cons_of_mem t ht')⟩
        rintro rfl
        exact hnot ht'
      · exact hseen t' (List.mem_cons_of_mem t ht')
    rcases hact with rfl | rfl
    · exact claim_ask hown fun _ _ => claim_ask hown fun _ _ => hrest
    · exact claim_ask hown fun _ _ => claim_ask hown fun _ _ => hrest

/-- Ending the transaction gives up the claim on the tables. -/
theorem claim_giveUp (h : Keeps strict s g) {fin : Session → Session}
    (hQ : Q (fin (released s)) { g with tables := ∅ }) :
    (giveUp s fin).wp (ownership strict) Q g := by
  unfold giveUp released at *
  by_cases htx : s.inTransaction = true
  · rw [if_pos htx] at hQ ⊢
    refine claim_ask trivial fun ts (hperm : ts.Perm s.lockedTables) => ?_
    rw [Prog.wp_bind]
    refine Prog.wp_mono ?_ (claim_releaseAll (Or.inl rfl) (hperm.nodup_iff.mpr h.nodup)
      (fun t ht => hperm.mem_iff.mpr (h.sub t ht))
      (fun hs t ht => h.all hs t (hperm.mem_iff.mp ht)) fun t ht => h.seen t (hperm.mem_iff.mp ht))
    rintro _ g' rfl
    exact hQ
  · rw [if_neg htx] at hQ ⊢
    rw [← h.noTables (by simpa using htx)] at hQ
    exact hQ

/-- The end of the transaction, and of the session or the request. -/
theorem claim_end (h : Keeps strict s g) {fin : Session → Session}
    (hl : ∀ s, (fin s).lockedTables = s.lockedTables)
    (ht : ∀ s, (fin s).inTransaction = s.inTransaction) :
    (giveUp s fin).wp (ownership strict) (AtRest strict) g :=
  claim_giveUp h (h.rest_released (hl _) (ht _))

theorem claim_failWith (h : Keeps strict s g) {what : Str} :
    (failWith s what).wp (ownership strict) (AtRest strict) g :=
  claim_end h (fun _ => rfl) fun _ => rfl

theorem claim_createTree (h : AtRest strict s g) {name : Str} :
    (createTree s name).wp (ownership strict) (AtRest strict) g := by
  refine claim_ask h.server fun _ _ => claim_ask trivial fun found _ => ?_
  cases found with
  | some t =>
    rw [if_pos (by nofun)]
    refine claim_ask rfl fun _ _ => claim_failWith ?_
    exact { h.toKeeps.seeMore with server := rfl }
  | none =>
    rw [if_neg (fun hne => hne rfl)]
    refine claim_ask rfl fun _ _ => claim_ask rfl fun _ _ => ?_
    have hkeeps : Keeps strict (answered s okLine) g := h.toKeeps.congr rfl rfl
    exact { hkeeps with server := rfl, ended := h.ended }

theorem claim_commitTree (h : AtRest strict s g) (htx : s.inTransaction = true) :
    (commitTree s).wp (ownership strict) (AtRest strict) g := by
  refine claim_ask trivial fun ts (hperm : ts.Perm s.lockedTables) => ?_
  rw [Prog.wp_bind]
  refine Prog.wp_mono ?_ (claim_releaseAll (Or.inr rfl) (hperm.nodup_iff.mpr h.nodup)
    (fun t ht => hperm.mem_iff.mpr (h.sub t ht))
    (fun hs t ht => h.all hs t (hperm.mem_iff.mp ht)) fun t ht => h.seen t (hperm.mem_iff.mp ht))
  rintro _ g' rfl
  refine h.toKeeps.rest_released ?_ ?_
  · rw [released, if_pos htx]; rfl
  · rw [released, if_pos htx]; rfl

/-- In a transaction: the table is among the locked ones before anything is done with it. -/
theorem claim_acquireTree (h : Keeps strict s g) {t : Ptr} (ht : t ∈ g.seen)
    (htx : s.inTransaction = true) {body : Session → Prog calls Session}
    (hbody : ∀ ts g', t ∈ ts → Keeps strict { s with lockedTables := ts } g' →
      (body { s with lockedTables := ts }).wp (ownership strict) (AtRest strict) g') :
    (acquireTree s t body).wp (ownership strict) (AtRest strict) g := by
  unfold acquireTree
  by_cases hmem : t ∈ s.lockedTables
  · rw [if_pos hmem]
    exact hbody s.lockedTables g hmem h
  · rw [if_neg hmem]
    refine claim_ask ht fun success _ => ?_
    cases success with
    | false => exact claim_failWith h
    | true =>
      refine hbody (t :: s.lockedTables) _ (List.mem_cons_self ..) ?_
      exact { sub := fun t' ht' => List.mem_cons.mpr ((Finset.mem_insert.mp ht').imp id (h.sub t'))
              all := fun hs t' ht' =>
                Finset.mem_insert.mpr ((List.mem_cons.mp ht').imp id (h.all hs t'))
              server := h.server
              nodup := List.nodup_cons.mpr ⟨hmem, h.nodup⟩
              seen := fun t' ht' => by
                rcases List.mem_cons.mp ht' with rfl | ht'
                · exact ht
                · exact h.seen t' ht'
              noTx := fun hno => by rw [htx] at hno; cases hno }

theorem claim_findTree (h : Keeps strict s g) {name : Str} {body : Ptr → Prog calls Session}
    (hbody : ∀ t g', t ∈ g'.seen → Keeps strict s g' →
      (body t).wp (ownership strict) (AtRest strict) g') :
    (findTree s name body).wp (ownership strict) (AtRest strict) g := by
  refine claim_ask trivial fun found _ => ?_
  cases found with
  | none => exact claim_failWith h
  | some t => exact hbody t _ (Finset.mem_insert_self ..) h.seeMore

/-- Inside a transaction, what follows the acquisition of a table keeps to the claim on it. -/
theorem Keeps.uses (h : Keeps strict s g) {t : Ptr} (ht : t ∈ s.lockedTables) :
    t ∈ g.seen ∧ (strict → t ∈ g.tables) := ⟨h.seen t ht, fun hs => h.all hs t ht⟩

/-- After the last unlock of an autocommit request nothing is claimed. -/
theorem Keeps.unlocked (h : Keeps strict s g) (htx : s.inTransaction = false) {t : Ptr} :
    (insert t g.tables).erase t = g.tables := by
  rw [h.noTables htx]
  exact Finset.erase_insert (Finset.notMem_empty t)

theorem claim_setTree (h : AtRest strict s g) (hs : s.loopInProgress = true) {name key v : Str}
    {st : List Str} :
    (setTree s name key v st).wp (ownership strict) (AtRest strict) g := by
  refine claim_findTree h.toKeeps fun t g₁ hseen h₁ => ?_
  by_cases htx : s.inTransaction = true
  · rw [if_pos htx]
    refine claim_acquireTree h₁ hseen htx fun ts g₂ ht h₂ => claim_ask (h₂.uses ht) fun _ _ => ?_
    exact { h₂ with ended := fun hno => absurd (hs.symm.trans hno) nofun }
  · rw [if_neg htx]
    have htx' : s.inTransaction = false := by simpa using htx
    have hown : strict → t ∈ insert t g₁.tables := fun _ => Finset.mem_insert_self ..
    refine claim_ask ⟨htx', h₁.noTables htx', h₁.server, hseen⟩ fun _ _ =>
      claim_ask ⟨hseen, hown⟩ fun _ _ => claim_ask ⟨hseen, hown⟩ fun _ _ =>
      claim_ask ⟨hseen, hown⟩ fun _ _ => ?_
    show AtRest strict _ { g₁ with tables := (insert t g₁.tables).erase t }
    rw [h₁.unlocked htx']
    exact { h₁ with ended := fun hno => absurd (hs.symm.trans hno) nofun }

theorem claim_getTree (h : AtRest strict s g) (hs : s.loopInProgress = true) {name key : Str} :
    (getTree s name key).wp (ownership strict) (AtRest strict) g := by
  refine claim_findTree h.toKeeps fun t g₁ hseen h₁ => ?_
  by_cases htx : s.inTransaction = true
  · rw [if_pos htx]
    refine claim_acquireTree h₁ hseen htx fun ts g₂ ht h₂ =>
      claim_ask (h₂.uses ht) fun has hhas => ?_
    cases has with
    | true =>
      refine claim_ask (h₂.uses ht) fun r hr => ?_
      cases r with
      | ok v => exact { h₂ with ended := fun hno => absurd (hs.symm.trans hno) nofun }
      | error e =>
        obtain rfl := hr e rfl
        show (settle _).wp _ _ _
        rw [settle_operation (by decide)]
        exact claim_failWith h₂
    | false =>
      -- the table is unlocked, and stays among the locked ones until the rollback
      have hlax : ¬ strict := fun hstrict => absurd (hhas hstrict) nofun
      refine claim_ask (h₂.uses ht) fun _ _ => claim_failWith ?_
      exact { h₂ with
        sub := fun t' ht' => h₂.sub t' (Finset.mem_of_mem_erase ht')
        all := fun hstrict => absurd hstrict hlax }
  · rw [if_neg htx]
    have htx' : s.inTransaction = false := by simpa using htx
    have hown : strict → t ∈ insert t g₁.tables := fun _ => Finset.mem_insert_self ..
    have hunlock : Keeps strict s { g₁ with tables := (insert t g₁.tables).erase t } := by
      rw [h₁.unlocked htx']; exact h₁
    refine claim_ask ⟨htx', h₁.noTables htx', h₁.server, hseen⟩ fun _ _ =>
      claim_ask ⟨hseen, hown⟩ fun has hhas => ?_
    cases has with
    | true =>
      refine claim_ask ⟨hseen, hown⟩ fun r hr => ?_
      cases r with
      | ok v =>
        refine claim_ask ⟨hseen, hown⟩ fun _ _ => ?_
        exact { hunlock with ended := fun hno => absurd (hs.symm.trans hno) nofun }
      | error e =>
        obtain rfl := hr e rfl
        refine claim_ask ⟨hseen, hown⟩ fun _ _ => ?_
        rw [settle_operation (by decide)]
        exact claim_failWith hunlock
    | false =>
      -- unlocked once by `get_table_value`, and again by `handle_get`
      have hlax : ¬ strict := fun hstrict => absurd (hhas hstrict) nofun
      refine claim_ask ⟨hseen, hown⟩ fun _ _ =>
        claim_ask ⟨hseen, fun hstrict => absurd hstrict hlax⟩ fun _ _ => claim_failWith ?_
      exact { hunlock with
        sub := fun t' ht' => hunlock.sub t' (Finset.mem_of_mem_erase ht')
        all := fun hstrict => absurd hstrict hlax }

/-- **Every program of a session keeps to the claim of its thread.** -/
theorem process_keeps (h : AtRest strict s g) (hs : s.loopInProgress = true) (input : Input) :
    (process input s).wp (ownership strict) (AtRest strict) g := by
  have hready : AtRest strict (ready s) g := { h.toKeeps.congr rfl rfl with ended := h.ended }
  have hshape := process_shape hs input
  generalize process input s = p at hshape ⊢
  cases hshape with
  | eof =>
    apply claim_end
    exacts [hready.toKeeps.congr rfl rfl, fun _ => rfl, fun _ => rfl]
  | empty => exact claim_ask trivial fun _ _ => hready
  | undecodable => exact claim_end hready.toKeeps (fun _ => rfl) fun _ => rfl
  | login => exact { hready.toKeeps.congr rfl rfl with ended := h.ended }
  | premature =>
    apply claim_end
    exacts [hready.toKeeps.congr rfl rfl, fun _ => rfl, fun _ => rfl]
  | request hdec ht hfirst hp =>
    cases hp with
    | computes => exact { hready.toKeeps.congr rfl rfl with ended := h.ended }
    | refuses =>
      apply claim_end
      exacts [hready.toKeeps.congr rfl rfl, fun _ => rfl, fun _ => rfl]
    | kills => exact claim_ask trivial fun _ _ => { hready.toKeeps.congr rfl rfl with ended := h.ended }
    | overlong =>
      apply claim_end
      exacts [hready.toKeeps.congr rfl rfl, fun _ => rfl, fun _ => rfl]
    | begin htx =>
      exact { hready.toKeeps with
        noTx := fun hno => absurd hno nofun
        ended := fun hno => absurd (hs.symm.trans hno) nofun }
    | commit htx => exact claim_commitTree hready htx
    | bye =>
      apply claim_end
      exacts [hready.toKeeps.congr rfl rfl, fun _ => rfl, fun _ => rfl]
    | create => exact claim_createTree hready
    | set => exact claim_setTree hready hs
    | get => exact claim_getTree hready hs

end Programs

/-! ## Every reachable state -/

section Reachable

variable {ι : Type} [DecidableEq ι]

/-- If the call is a `has_key`, it finds its key. -/
def FindsKey (_ : ι) (o : calls.Op) (srv : Server ι) (_ : calls.Ans o) : Prop :=
  ∀ t key, o.call = .hasKey t key → (srv.tables t).hasKey key = true

/-- The outline: threads keep to their claims, and the claims agree with the mutexes. -/
def lockOutline (ι : Type) [DecidableEq ι] (strict : Prop) : System.Outline
    ((serverSystem ι).restrict fun i o srv r => strict → FindsKey i o srv r) Claim where
  spec _ := ownership strict
  rest _ := AtRest strict
  inv _ srv γ := Owned strict srv γ
  accept_ok := by
    intro i _ srv γ s input p _ hrest hacc
    obtain ⟨hs, -, rfl⟩ := @accept_serverSystem ι i srv s input p hacc
    exact process_keeps hrest hs input
  call_ok := by
    intro i o _ srv γ r srv' Q hinv hpre hstep
    obtain ⟨hallow, hinv'⟩ := hinv.call hpre.1 hstep.1 fun hs => hstep.2 hs
    exact ⟨_, hpre.2 r hallow, hinv'⟩

/-- Where a thread is agrees with its claim. -/
def Placed (strict : Prop) : Thread calls Session → Claim → Prop
  | .rest s, g => AtRest strict s g
  | .busy p, g => p.wp (ownership strict) (AtRest strict) g

/-- A thread that is about to make a call has the claim for it. -/
theorem Placed.needs {strict : Prop} {o : calls.Op} {k : calls.Ans o → Prog calls Session} {g : Claim}
    (h : Placed strict (.busy (.call o k)) g) : o.call.Needs strict o.self g := And.left h

omit [DecidableEq ι] in
theorem owned_start (strict : Prop) : Owned strict (start ι).shared fun _ => {} where
  held := nofun
  exact := fun _ t _ ht => absurd ht (Finset.notMem_empty t)
  server := fun _ => ⟨nofun, nofun⟩
  tables_seen := fun _ => Finset.Subset.refl _
  seen_lt := fun _ t ht => absurd ht (Finset.notMem_empty t)
  names_lt := nofun

theorem atRest_start (strict : Prop) : AtRest strict {} {} where
  sub := fun t ht => absurd ht (Finset.notMem_empty t)
  all := nofun
  server := rfl
  nodup := List.nodup_nil
  seen := nofun
  noTx := fun _ => rfl
  ended := nofun

/-- **In every reachable state** the claims agree with the mutexes, and every thread is placed. -/
theorem reachable_owned {strict : Prop} {log : List (Called ι calls)}
    {c : Config ι (Server ι) Session calls} (hrun : System.Run
      ((serverSystem ι).restrict fun i o srv r => strict → FindsKey i o srv r) (start ι) log c) :
    ∃ γ, Owned strict c.shared γ ∧ ∀ i, Placed strict (c.threads i) (γ i) := by
  have hstart : (lockOutline ι strict).Holds [] (start ι) :=
    ⟨fun _ => {}, owned_start strict, fun _ => atRest_start strict⟩
  obtain ⟨γ, hinv, hat⟩ := (lockOutline ι strict).run hstart hrun
  refine ⟨γ, hinv, fun i => ?_⟩
  have hi := hat i
  cases hc : c.threads i with
  | rest s => rw [hc] at hi; exact hi
  | busy p => rw [hc] at hi; exact hi

/-- The table that a call uses, or unlocks. -/
def Call.uses : Call → Option Ptr
  | .unlock t | .set t _ _ | .hasKey t _ | .get t _ | .commitChanges t | .rollbackChanges t => some t
  | _ => none

/-- **Lock discipline.**  In every run in which each GET finds its key, a table is used and unlocked
    by the holder of its mutex only. -/
theorem lock_discipline {log : List (Called ι calls)} {c c' : Config ι (Server ι) Session calls}
    (hrun : System.Run ((serverSystem ι).restrict FindsKey) (start ι) log c) {i : ι} {o : calls.Op}
    {r : calls.Ans o} (hstep : System.Step (serverSystem ι) c i (.call o r) c') {t : Ptr}
    (ht : o.call.uses = some t) : (c.shared.tables t).mutex = some i := by
  have hrun' : System.Run ((serverSystem ι).restrict fun i o srv r => True → FindsKey i o srv r)
      (start ι) log c := by
    refine System.Run.mono hrun rfl ?_
    intro i o srv r srv' h
    exact ⟨And.left h, fun _ => And.right h⟩
  obtain ⟨γ, hinv, hat⟩ := reachable_owned hrun'
  cases hstep with
  | @call _ k _ srv' hc hs =>
    have hi := hat i
    rw [hc] at hi
    have hneeds := hi.needs
    have hmem : t ∈ (γ i).tables := by
      revert hneeds ht
      cases o.call <;> intro ht hneeds <;> cases ht
      all_goals exact hneeds.2 trivial
    exact hinv.exact trivial t i hmem

/-! ### One that does not find its key -/

/-- The handler for the runs in which every GET finds its key. -/
def serveFound {ι : Type} (i : ι) (o : calls.Op) (srv : Server ι) :
    Option (calls.Ans o × Server ι) :=
  match o.call with
  | .hasKey t key => if (srv.tables t).hasKey key then serve i o srv else none
  | _ => serve i o srv

omit [DecidableEq ι] in
theorem step_of_serveFound {i : ι} {o : calls.Op} {srv srv' : Server ι} {r : calls.Ans o}
    (h : serveFound i o srv = some (r, srv')) :
    ((serverSystem ι).restrict FindsKey).step i o srv r srv' := by
  obtain ⟨c, self⟩ := o
  unfold serveFound at h
  cases c with
  | hasKey t key =>
    simp only at h
    split at h
    · rename_i hkey
      refine ⟨step_of_serve h, ?_⟩
      rintro t' key' heq
      cases heq
      exact hkey
    · cases h
  | _ => exact ⟨step_of_serve h, nofun⟩

/-- A SET outside a transaction is about to write into the table it has locked. -/
theorem lock_discipline_set : ∃ log c c' self,
    System.Run ((serverSystem Unit).restrict FindsKey) (start Unit) log c ∧
    System.Step (serverSystem Unit) c () (.call ⟨.set 0 "k".toList "1".toList, self⟩ ()) c' ∧
    (c.shared.tables 0).mutex = some () := by
  obtain ⟨log, c, hrun, hcall, hab⟩ := @System.Run.of_play Unit (Server Unit) Session Input calls _
    ((serverSystem Unit).restrict FindsKey) serveFound (fun _ _ _ _ _ h => step_of_serveFound h)
    (told () "LOGIN a\n" 1 ++ told () "CREATE t\n" 5 ++ told () "PUSH 1\n" 1 ++
      told () "SET t k\n" 2) (start Unit)
    (fun c => (c.threads ()).call? = some ⟨.set 0 "k".toList "1".toList,
      ⟨["1".toList], [], false, true, false, []⟩⟩ ∧ c.shared.aborted = false) inferInstance
    (by decide +kernel)
  obtain ⟨k, hthread⟩ := Thread.call?_eq_some hcall
  have hset : (Call.set 0 "k".toList "1".toList).Step () c.shared () _ := ⟨hab, rfl⟩
  have hstep := System.Step.call (M := serverSystem Unit) hthread hset
  exact ⟨log, c, _, _, hrun, hstep, lock_discipline hrun hstep rfl⟩

/-- A GET of a missing key in a transaction, then another client's SET, then the rollback. -/
def doubleUnlock : List (System.Move Bool Input) :=
  told false "LOGIN a\n" 1 ++ told false "CREATE t\n" 5 ++ told false "BEGIN\n" 1 ++
  told true "LOGIN b\n" 1 ++ told true "BEGIN\n" 1 ++ told true "PUSH 1\n" 1 ++
  -- find_table, trylock, has_key, unlock
  told false "GET t k\n" 4 ++
  -- find_table, trylock, set
  told true "SET t j\n" 4 ++
  -- the walk over the locked tables
  [.go false]

/-- The rollback reaches a table that another client has locked, and its pending entry. -/
theorem not_lock_discipline : ¬ ∀ log c (_ : System.Run (serverSystem Bool) (start Bool) log c) i o r c'
    (_ : System.Step (serverSystem Bool) c i (.call o r) c') t (_ : o.call.uses = some t),
    (c.shared.tables t).mutex = some i := by
  intro h
  obtain ⟨log, c, hrun, hcall, hmutex, hab⟩ := @played Bool _ doubleUnlock (start Bool)
    (fun c => (c.threads false).call? = some ⟨.rollbackChanges 0,
        ⟨[], [0], true, true, false, []⟩⟩ ∧
      (c.shared.tables 0).mutex = some true ∧ c.shared.aborted = false) inferInstance
    (by decide +kernel)
  obtain ⟨k, hthread⟩ := Thread.call?_eq_some hcall
  have hroll : (Call.rollbackChanges 0).Step false c.shared () _ := ⟨hab, rfl⟩
  have hstep := System.Step.call (M := serverSystem Bool) hthread hroll
  have hheld := h log c hrun false _ _ _ hstep 0 rfl
  rw [hmutex] at hheld
  cases hheld

/-! ## Deadlocks -/

/-- `i` is blocked on a mutex that `j` holds. -/
inductive WaitsFor (c : Config ι (Server ι) Session calls) : ι → ι → Prop
  | table {i j : ι} {t : Ptr} {s : Session} {k : Unit → Prog calls Session}
      (hc : c.threads i = .busy (.call ⟨.lock t, s⟩ k)) (hm : (c.shared.tables t).mutex = some j) :
      WaitsFor c i j
  | server {i j : ι} {s : Session} {k : Unit → Prog calls Session}
      (hc : c.threads i = .busy (.call ⟨.serverLock, s⟩ k)) (hm : c.shared.mutex = some j) :
      WaitsFor c i j

/-- The thread holds no mutex. -/
def HoldsNothing (c : Config ι (Server ι) Session calls) (i : ι) : Prop :=
  (∀ t, (c.shared.tables t).mutex ≠ some i) ∧ c.shared.mutex ≠ some i

/-- What keeps the server from deadlock, and that it does. -/
structure NoDeadlock (c : Config ι (Server ι) Session calls) : Prop where
  locking : ∀ i t s k, c.threads i = .busy (.call ⟨.lock t, s⟩ k) →
    s.inTransaction = false ∧ HoldsNothing c i
  server : ∀ i, c.shared.mutex = some i → ∀ j, ¬ WaitsFor c i j
  ended : ∀ i s, c.threads i = .rest s → s.loopInProgress = false → HoldsNothing c i
  noCycle : ∀ i, ¬ Relation.TransGen (WaitsFor c) i i
  live : ∀ i j s, WaitsFor c i j → c.threads j = .rest s → s.loopInProgress = true

/-- A cycle goes on from each of its members. -/
theorem cycle_next {α : Type} {R : α → α → Prop} {a : α} (h : Relation.TransGen R a a) :
    ∃ b, R a b ∧ Relation.TransGen R b b := by
  obtain ⟨b, hab, hba⟩ := Relation.TransGen.head'_iff.mp h
  exact ⟨b, hab, Relation.TransGen.tail' hba hab⟩

/-- **No deadlock**, in every reachable state of every run. -/
theorem no_deadlock {log : List (Called ι calls)} {c : Config ι (Server ι) Session calls}
    (hrun : System.Run (serverSystem ι) (start ι) log c) : NoDeadlock c := by
  have hrun' : System.Run ((serverSystem ι).restrict fun i o srv r => False → FindsKey i o srv r)
      (start ι) log c := by
    refine System.Run.mono hrun rfl ?_
    intro i o srv r srv' h
    exact ⟨h, nofun⟩
  obtain ⟨γ, hinv, hat⟩ := reachable_owned hrun'
  have nothing : ∀ i, (γ i).tables = ∅ → (γ i).server = false → HoldsNothing c i := by
    intro i ht hs
    constructor
    · intro t hm
      have hmem := hinv.held t i hm
      rw [ht] at hmem
      exact Finset.notMem_empty t hmem
    · intro hm
      have hown := (hinv.server i).mp hm
      rw [hs] at hown
      cases hown
  have locking : ∀ i t s k, c.threads i = .busy (.call ⟨.lock t, s⟩ k) →
      s.inTransaction = false ∧ HoldsNothing c i := by
    intro i t s k hc
    have hi := hat i
    rw [hc] at hi
    have hneeds := hi.needs
    exact ⟨hneeds.1, nothing i hneeds.2.1 hneeds.2.2.1⟩
  have server : ∀ i, c.shared.mutex = some i → ∀ j, ¬ WaitsFor c i j := by
    rintro i hm j (⟨hc, -⟩ | ⟨hc, -⟩)
    · exact (locking i _ _ _ hc).2.2 hm
    · have hi := hat i
      rw [hc] at hi
      have hown := (hinv.server i).mp hm
      rw [show (γ i).server = false from hi.needs] at hown
      cases hown
  have ended : ∀ i s, c.threads i = .rest s → s.loopInProgress = false → HoldsNothing c i := by
    intro i s hc hs
    have hi := hat i
    rw [hc] at hi
    have hrest : AtRest False s (γ i) := hi
    exact nothing i (hrest.noTables (hrest.ended hs)) hrest.server
  refine ⟨locking, server, ended, ?_, ?_⟩
  · intro i hcycle
    -- three steps along the cycle: `j` holds something and waits, so it waits for the server's
    -- mutex, and `k`, who holds that, waits for nobody
    obtain ⟨j, hij, hj⟩ := cycle_next hcycle
    obtain ⟨k, hjk, hk⟩ := cycle_next hj
    obtain ⟨l, hkl, -⟩ := cycle_next hk
    rcases hjk with ⟨hc, -⟩ | ⟨-, hm⟩
    · obtain ⟨-, htables, hserver⟩ := locking j _ _ _ hc
      rcases hij with ⟨-, hm⟩ | ⟨-, hm⟩
      · exact htables _ hm
      · exact hserver hm
    · exact server k hm l hkl
  · intro i j s hij hc
    by_contra hs
    obtain ⟨htables, hserver⟩ := ended j s hc (by simpa using hs)
    rcases hij with ⟨-, hm⟩ | ⟨-, hm⟩
    · exact htables _ hm
    · exact hserver hm

/-- Client 0 has table `t` in its transaction and is in the middle of a CREATE; client 1, in a GET
    outside a transaction, waits for the table, and client 2 for the server's mutex. -/
theorem no_deadlock_waiting : ∃ log c s k,
    System.Run (serverSystem (Fin 3)) (start (Fin 3)) log c ∧
    c.threads 0 = .busy (.call ⟨.createTable "u".toList, s⟩ k) ∧ s.inTransaction = true ∧
    s.lockedTables = [0] ∧ WaitsFor c 1 0 ∧ WaitsFor c 2 0 ∧ NoDeadlock c := by
  obtain ⟨log, c, hrun, hcreates, hgets, hwaits, htable, hserver⟩ := @played (Fin 3) _
    (told 0 "LOGIN a\n" 1 ++ told 0 "CREATE t\n" 5 ++ told 0 "PUSH 1\n" 1 ++
      told 0 "BEGIN\n" 1 ++ told 0 "SET t k\n" 4 ++
      -- lock, find_table
      told 0 "CREATE u\n" 2 ++
      -- find_table
      told 1 "LOGIN b\n" 1 ++ told 1 "GET t k\n" 1 ++
      told 2 "LOGIN c\n" 1 ++ told 2 "CREATE v\n" 0) (start (Fin 3))
    (fun c => (c.threads 0).call? = some ⟨.createTable "u".toList,
        ⟨[], [0], true, true, false, []⟩⟩ ∧
      (c.threads 1).call? = some ⟨.lock 0, ⟨[], [], false, true, false, []⟩⟩ ∧
      (c.threads 2).call? = some ⟨.serverLock, ⟨[], [], false, true, false, []⟩⟩ ∧
      (c.shared.tables 0).mutex = some 0 ∧ c.shared.mutex = some 0) inferInstance
    (by decide +kernel)
  obtain ⟨k, hcreate⟩ := Thread.call?_eq_some hcreates
  obtain ⟨_, hget⟩ := Thread.call?_eq_some hgets
  obtain ⟨_, hwait⟩ := Thread.call?_eq_some hwaits
  exact ⟨log, c, _, k, hrun, hcreate, rfl, rfl, .table hget htable, .server hwait hserver,
    no_deadlock hrun⟩

end Reachable

end BasicServer
