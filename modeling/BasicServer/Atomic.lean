/-
  Requests take effect one at a time.

  The server's threads interleave call by call; `Turns` are runs of whole requests.  Each request has
  one call at which the atomic server carries it out:

  * everything that needs no table, and COMMIT — when the thread accepts it;
  * SET and GET — the `set` or `get`, or the call that shows that it fails;
  * CREATE — `create_table`, or the end of its critical section if the name is taken.

  After that only tables are left to be written back and unlocked, and nobody else can see them.

  1. **The calls** — one rule for each, in terms of what the thread knows (`takes_set`, …).
  2. **The moment** — what the atomic server does then (`reaches_act`).
  3. **The requests** — the programs of `Shape`, followed from their acceptance (`reaches_process`).
  4. **Atomicity** (`atomic`) — in every run in which each GET finds its key.  (A GET that does not
     unlocks its table twice, and then another client may lose the table it holds.)
-/
import BasicServer.Locks
import BasicServer.Dialogue
import BasicServer.Mirror
import BasicServer.Turns
import BasicServer.Lib.Linear

namespace BasicServer

open Function (update)

/-! ## Following one program -/

section Programs

variable {ι : Type}

/-- The tables of `ts` are those of thread `i`, and the atomic server has `f` of each. -/
def Knowledge.Views (g : Knowledge ι) (i : ι) (f : Table ι → Table ι) (ts : List Ptr) : Prop :=
  ∀ t, (t ∈ ts → ∃ table, table.mutex = some i ∧ g.view t = some (table, f table)) ∧
    (t ∉ ts → g.view t = none)

/-- A thread at rest holds the tables of its session, and the atomic server has them as they are. -/
structure AtEase (i : ι) (s : Session) (g : Knowledge ι) : Prop where
  session : g.session = s
  views : g.Views i id s.lockedTables
  making : g.making = none

variable [DecidableEq ι]

/-- The server against the one that carries out whole requests. -/
def atomically (ι : Type) [DecidableEq ι] :
    System.Abstraction ((serverSystem ι).restrict FindsKey) (World ι) (Knowledge ι) where
  act w d w' := ∃ e, Turn w e w' ∧ e.done = d
  rel := Mirrors
  rest := AtEase

/-- A program of thread `i`, in this phase and with this knowledge, can be followed from here, where
    the atomic server meets `C`. -/
def Reaches (C : Server ι → Prop) (i : ι) (p : Prog calls Session) (st : Phase Input Session)
    (g : Knowledge ι) : Prop :=
  ∀ srv w γ, Mirrors srv w γ → γ i = g → srv.aborted = false → C w.server →
    (atomically ι).Moves i st srv w γ ((atomically ι).Takes i p)

variable {i : ι} {g : Knowledge ι} {st : Phase Input Session} {s : Session}

/-- Nothing happens here. -/
theorem reaches_on {C : Server ι → Prop} {p : Prog calls Session}
    (h : (atomically ι).Takes i p st g) : Reaches C i p st g := by
  rintro srv w γ hrel rfl - -
  exact .inl ⟨γ i, hrel.same, h⟩

/-- The rule for a call. -/
theorem takes_call {o : calls.Op} {k : calls.Ans o → Prog calls Session}
    (h : ∀ srv w γ r srv', Mirrors srv w γ → γ i = g → srv.aborted = false →
      o.call.Step i srv r srv' → FindsKey i o srv r → ∃ (C : Server ι → Prop) (g' : Knowledge ι),
        Mirrors srv' w (update γ i g') ∧ srv'.aborted = false ∧ C w.server ∧ Reaches C i (k r) st g') :
    (atomically ι).Takes i (.call o k) st g := by
  rintro srv w γ r srv' hrel hg ⟨hstep, hfinds⟩
  obtain ⟨C, g', hrel', hlive, hC, hreach⟩ := h srv w γ r srv' hrel hg hstep.1 hstep hfinds
  exact (hreach srv' w _ hrel' (Function.update_self ..) hlive hC).of_update

/-! ### The calls to a table -/

/-- A call that writes to a table that the thread holds. -/
theorem takes_write {c : Call} {k : c.Ans → Prog calls Session} {t : Ptr} {table a : Table ι}
    {f : Table ι → Table ι} {r₀ : c.Ans} (hmutex : ∀ table : Table ι, (f table).mutex = table.mutex)
    (hcall : ∀ srv r srv', c.Step i srv r srv' → r = r₀ ∧ srv' = srv.setTable t (f (srv.tables t)))
    (hv : g.view t = some (table, a))
    (hk : Reaches (fun _ => True) i (k r₀) st (g.put t (some (f table, a)))) :
    (atomically ι).Takes i (.call ⟨c, s⟩ k) st g := by
  refine takes_call ?_
  rintro srv w γ r srv' hrel rfl hlive hstep -
  obtain ⟨rfl, rfl⟩ := hcall srv r srv' hstep
  obtain ⟨hm, rfl, rfl⟩ := hrel.seen hv
  exact ⟨_, _, hrel.put (.inr hm) (hrel.lt_of_mutex hm) (.inr ⟨(hmutex _).trans hm, rfl⟩), hlive,
    trivial, hk⟩

theorem takes_set {t : Ptr} {key v : Str} {k : Unit → Prog calls Session} {table a : Table ι}
    (hv : g.view t = some (table, a))
    (hk : Reaches (fun _ => True) i (k ()) st (g.put t (some (table.set key v, a)))) :
    (atomically ι).Takes i (.call ⟨.set t key v, s⟩ k) st g := by
  refine @takes_write _ _ _ _ _ _ (.set t key v) k t table a (·.set key v) () (fun _ => rfl) ?_ hv hk
  rintro srv ⟨⟩ srv' ⟨-, hstep⟩
  exact ⟨rfl, (congrArg Prod.snd (Option.some.inj hstep)).symm⟩

/-- COMMIT's write, or the one of a rollback. -/
theorem takes_end (act : Ptr → Call) {f : Table ι → Table ι}
    (hact : act = .commitChanges ∧ f = Table.commitChanges ∨
      act = .rollbackChanges ∧ f = Table.rollbackChanges)
    {t : Ptr} {k : (act t).Ans → Prog calls Session} {table a : Table ι} {r : (act t).Ans}
    (hv : g.view t = some (table, a))
    (hk : Reaches (fun _ => True) i (k r) st (g.put t (some (f table, a)))) :
    (atomically ι).Takes i (.call ⟨act t, s⟩ k) st g := by
  rcases hact with ⟨rfl, rfl⟩ | ⟨rfl, rfl⟩
  · refine @takes_write _ _ _ _ _ _ (.commitChanges t) k t table a Table.commitChanges r
      (fun _ => rfl) ?_ hv hk
    rintro srv ⟨⟩ srv' ⟨-, hstep⟩
    exact ⟨rfl, (congrArg Prod.snd (Option.some.inj hstep)).symm⟩
  · refine @takes_write _ _ _ _ _ _ (.rollbackChanges t) k t table a Table.rollbackChanges r
      (fun _ => rfl) ?_ hv hk
    rintro srv ⟨⟩ srv' ⟨-, hstep⟩
    exact ⟨rfl, (congrArg Prod.snd (Option.some.inj hstep)).symm⟩

/-- A table can be unlocked when the atomic server has it as it is, and free. -/
theorem takes_unlock {t : Ptr} {k : Unit → Prog calls Session} (table : Table ι)
    (hv : g.view t = some (table, { table with mutex := none }))
    (hk : Reaches (fun _ => True) i (k ()) st (g.put t none)) :
    (atomically ι).Takes i (.call ⟨.unlock t, s⟩ k) st g := by
  refine takes_call ?_
  rintro srv w γ r srv' hrel rfl hlive ⟨-, hstep⟩ -
  obtain rfl := congrArg Prod.snd (Option.some.inj hstep)
  obtain ⟨hm, rfl, ha⟩ := hrel.seen hv
  exact ⟨_, _, hrel.put (.inr hm) (hrel.lt_of_mutex hm) (.inl ⟨rfl, ha.symm, rfl⟩), hlive, trivial,
    hk⟩

/-- A mutex that is free is taken; what the table holds is anything. -/
theorem mirrors_take {srv : Server ι} {w : World ι} {γ : ι → Knowledge ι} (hrel : Mirrors srv w γ)
    {name : Str} {t : Ptr} (hfound : (γ i).found = some (name, t))
    (hfree : (srv.tables t).mutex = none) :
    Mirrors (srv.setMutex t (some i)) w (update γ i ((γ i).put t
      (some ({ srv.tables t with mutex := some i }, srv.tables t)))) := by
  refine hrel.put (.inl hfree) (hrel.lt_next (hrel.found i name t hfound)) (.inr ⟨rfl, ?_⟩)
  rw [hrel.free t hfree]

theorem takes_lock {name : Str} {t : Ptr} {k : Unit → Prog calls Session}
    (hfound : g.found = some (name, t))
    (hk : ∀ table : Table ι, table.mutex = none → Reaches (fun _ => True) i (k ()) st
      (g.put t (some ({ table with mutex := some i }, table)))) :
    (atomically ι).Takes i (.call ⟨.lock t, s⟩ k) st g := by
  refine takes_call ?_
  rintro srv w γ r srv' hrel rfl hlive ⟨-, hstep⟩ -
  simp only [Call.apply] at hstep
  cases hm : (srv.tables t).mutex with
  | some j => rw [hm] at hstep; cases hstep
  | none =>
    rw [hm] at hstep
    obtain rfl := congrArg Prod.snd (Option.some.inj hstep)
    exact ⟨_, _, mirrors_take hrel hfound hm, hlive, trivial, hk _ hm⟩

theorem takes_trylock {name : Str} {t : Ptr} {k : Bool → Prog calls Session}
    (hfound : g.found = some (name, t))
    (htrue : ∀ table : Table ι, table.mutex = none → Reaches (fun _ => True) i (k true) st
      (g.put t (some ({ table with mutex := some i }, table))))
    (hfalse : Reaches (fun _ => True) i (k false) st g) :
    (atomically ι).Takes i (.call ⟨.trylock t, s⟩ k) st g := by
  refine takes_call ?_
  rintro srv w γ r srv' hrel rfl hlive ⟨-, hstep⟩ -
  simp only [Call.apply] at hstep
  cases hm : (srv.tables t).mutex with
  | some j =>
    rw [hm] at hstep
    obtain ⟨rfl, rfl⟩ := Prod.mk.inj (Option.some.inj hstep)
    exact ⟨_, γ i, hrel.same, hlive, trivial, hfalse⟩
  | none =>
    rw [hm] at hstep
    obtain ⟨rfl, rfl⟩ := Prod.mk.inj (Option.some.inj hstep)
    exact ⟨_, _, mirrors_take hrel hfound hm, hlive, trivial, htrue _ hm⟩

/-- In these runs the key is there. -/
theorem takes_hasKey {t : Ptr} {key : Str} {k : Bool → Prog calls Session} {table a : Table ι}
    (hv : g.view t = some (table, a))
    (hk : table.hasKey key = true → Reaches (fun _ => True) i (k true) st g) :
    (atomically ι).Takes i (.call ⟨.hasKey t key, s⟩ k) st g := by
  refine takes_call ?_
  rintro srv w γ r srv' hrel rfl hlive ⟨-, hstep⟩ hfinds
  obtain ⟨rfl, rfl⟩ := Prod.mk.inj (Option.some.inj hstep)
  obtain ⟨-, rfl, -⟩ := hrel.seen hv
  have hkey := hfinds t key rfl
  refine ⟨fun _ => True, γ i, hrel.same, hlive, trivial, ?_⟩
  rw [hkey]
  exact hk hkey

theorem takes_get {t : Ptr} {key : Str} {k : Except Exn Str → Prog calls Session} {table a : Table ι}
    (hv : g.view t = some (table, a))
    (hk : Reaches (fun _ => True) i (k (table.get key)) st g) :
    (atomically ι).Takes i (.call ⟨.get t key, s⟩ k) st g := by
  refine takes_call ?_
  rintro srv w γ r srv' hrel rfl hlive ⟨-, hstep⟩ -
  obtain ⟨rfl, rfl⟩ := Prod.mk.inj (Option.some.inj hstep)
  obtain ⟨-, rfl, -⟩ := hrel.seen hv
  exact ⟨_, γ i, hrel.same, hlive, trivial, hk⟩

/-! ### The calls to the map of tables -/

/-- A name that is found stays where it is; one that is not found may not be missing for long. -/
theorem takes_findTable {name : Str} {k : Option Ptr → Prog calls Session} (hmaking : g.making = none)
    (hnone : Reaches (fun srv => srv.findTable name = none) i (k none) st g)
    (hsome : ∀ t, Reaches (fun _ => True) i (k (some t)) st { g with found := some (name, t) }) :
    (atomically ι).Takes i (.call ⟨.findTable name, s⟩ k) st g := by
  refine takes_call ?_
  rintro srv w γ r srv' hrel rfl hlive ⟨-, hstep⟩ -
  obtain ⟨rfl, rfl⟩ := Prod.mk.inj (Option.some.inj hstep)
  cases hf : srv.findTable name with
  | none =>
    exact ⟨_, γ i, hrel.same, hlive, (hrel.findTable name).trans hf, hnone⟩
  | some t =>
    refine ⟨fun _ => True, { γ i with found := some (name, t) }, hrel.learn rfl rfl rfl ?_ ?_, hlive, trivial,
      hsome t⟩
    · rintro name' t' heq
      obtain ⟨rfl, rfl⟩ := Prod.mk.inj (Option.some.inj heq)
      exact hf
    · intro name' hname
      exact hrel.absent i name' hname

/-- In the critical section of CREATE a name that is not found stays missing. -/
theorem takes_findTable_making {name : Str} {k : Option Ptr → Prog calls Session}
    (hmaking : g.making = some none)
    (hnone : Reaches (fun _ => True) i (k none) st { g with making := some (some name) })
    (hsome : ∀ t, Reaches (fun _ => True) i (k (some t)) st { g with found := some (name, t) }) :
    (atomically ι).Takes i (.call ⟨.findTable name, s⟩ k) st g := by
  refine takes_call ?_
  rintro srv w γ r srv' hrel rfl hlive ⟨-, hstep⟩ -
  obtain ⟨rfl, rfl⟩ := Prod.mk.inj (Option.some.inj hstep)
  cases hf : srv.findTable name with
  | none =>
    refine ⟨fun _ => True, { γ i with making := some (some name) }, hrel.learn rfl rfl ?_ ?_ ?_, hlive, trivial,
      hnone⟩
    · rw [hmaking]; rfl
    · intro name' t' hname
      exact hrel.found i name' t' hname
    · intro name' hname
      obtain rfl := Option.some.inj (Option.some.inj hname)
      exact hf
  | some t =>
    refine ⟨fun _ => True, { γ i with found := some (name, t) }, hrel.learn rfl rfl rfl ?_ ?_, hlive, trivial,
      hsome t⟩
    · rintro name' t' heq
      obtain ⟨rfl, rfl⟩ := Prod.mk.inj (Option.some.inj heq)
      exact hf
    · intro name' hname
      exact hrel.absent i name' hname

/-- The order of a walk is left open. -/
theorem takes_walk {ts : List Ptr} {k : List Ptr → Prog calls Session}
    (hk : ∀ order, order.Perm ts → Reaches (fun _ => True) i (k order) st g) :
    (atomically ι).Takes i (.call ⟨.walk ts, s⟩ k) st g := by
  refine takes_call ?_
  rintro srv w γ r srv' hrel rfl hlive ⟨-, hperm, rfl⟩ -
  exact ⟨_, γ i, hrel.same, hlive, trivial, hk r hperm⟩

theorem takes_serverLock {k : Unit → Prog calls Session} (hmaking : g.making = none)
    (hk : Reaches (fun _ => True) i (k ()) st { g with making := some none }) :
    (atomically ι).Takes i (.call ⟨.serverLock, s⟩ k) st g := by
  refine takes_call ?_
  rintro srv w γ r srv' hrel rfl hlive ⟨-, hstep⟩ -
  simp only [Call.apply] at hstep
  cases hm : srv.mutex with
  | some j => rw [hm] at hstep; cases hstep
  | none =>
    rw [hm] at hstep
    obtain rfl := congrArg Prod.snd (Option.some.inj hstep)
    refine ⟨_, _, hrel.setMaker (fun j => ?_) (fun name hname => ?_), hlive, trivial, hk⟩
    · by_cases hj : j = i
      · subst hj; simp
      · rw [if_neg hj, ← hrel.maker j, hm]
        exact ⟨fun heq => absurd (Option.some.inj heq).symm hj, fun heq => by cases heq⟩
    · cases hname

theorem takes_serverUnlock {k : Unit → Prog calls Session} (hmaking : g.making.isSome = true)
    (hk : Reaches (fun _ => True) i (k ()) st { g with making := none }) :
    (atomically ι).Takes i (.call ⟨.serverUnlock, s⟩ k) st g := by
  refine takes_call ?_
  rintro srv w γ r srv' hrel rfl hlive ⟨-, hstep⟩ -
  obtain rfl := congrArg Prod.snd (Option.some.inj hstep)
  have hm := (hrel.maker i).mpr hmaking
  refine ⟨_, _, hrel.setMaker (fun j => ?_) (fun name hname => ?_), hlive, trivial, hk⟩
  · by_cases hj : j = i
    · subst hj; simp
    · rw [if_neg hj, ← hrel.maker j, hm]
      exact ⟨fun heq => (by cases heq), fun heq => absurd (Option.some.inj heq).symm hj⟩
  · cases hname

/-! ### The moment of a request -/

/-- What thread `i` knows of the atomic server. -/
structure Sees (i : ι) (g : Knowledge ι) (w : World ι) : Prop where
  locked : WellLocked w
  live : w.server.aborted = false
  session : w.sessions i = g.session
  tables : ∀ t table a, g.view t = some (table, a) → w.server.tables t = a
  found : ∀ name t, g.found = some (name, t) → w.server.findTable name = some t
  absent : ∀ name, g.making = some (some name) → w.server.findTable name = none

omit [DecidableEq ι] in
theorem Mirrors.sees {srv : Server ι} {w : World ι} {γ : ι → Knowledge ι} (h : Mirrors srv w γ)
    (hlive : srv.aborted = false) : Sees i (γ i) w where
  locked := h.locked
  live := h.aborted.trans hlive
  session := h.session i
  tables _ _ _ hv := (h.seen hv).2.2.symm
  found name t hf := (h.findTable name).trans (h.found i name t hf)
  absent name hname := (h.findTable name).trans (h.absent i name hname)

/-- The request takes effect here, on tables that the thread holds. -/
theorem reaches_act {C : Server ι → Prop} {input : Input} {p : Prog calls Session} (s' : Session)
    (f : Ptr → Table ι → Table ι) (hf : ∀ t table, g.view t = none → f t table = table)
    (hmutex : ∀ t j table a, g.view t = some (table, a) → f t a ≠ a →
      (f t a).mutex = some j → j = i)
    (hturn : ∀ w, Sees i g w → C w.server → Turn w ⟨i, input, w.server, w.sessions i, s'⟩
      ⟨{ w.server with tables := fun t => f t (w.server.tables t) }, update w.sessions i s'⟩)
    (htakes : g.session.lockedTables.Nodup → (atomically ι).Takes i p (.done s')
      { g with session := s', view := fun t => (g.view t).map fun q => (q.1, f t q.2) }) :
    Reaches C i p (.todo input) g := by
  rintro srv w γ hrel rfl hlive hC
  have hsees : Sees i (γ i) w := hrel.sees hlive
  have hturn' := hturn w hsees hC
  have hnodup := hrel.locked.nodup i
  rw [hsees.session] at hnodup
  exact .inr ⟨input, s', _, _, rfl, ⟨_, hturn', rfl⟩,
    hrel.act (hrel.locked.turn hturn') hf hmutex, htakes hnodup⟩

/-- CREATE takes effect when the table is created. -/
theorem takes_createTable {input : Input} {name : Str} (s' : Session) {k : Unit → Prog calls Session}
    (hmaking : g.making = some (some name))
    (hturn : ∀ w, Sees i g w → Turn w ⟨i, input, w.server, w.sessions i, s'⟩
      ⟨w.server.createTable name, update w.sessions i s'⟩)
    (hk : (atomically ι).Takes i (k ()) (.done s')
      { g with session := s', making := some none }) :
    (atomically ι).Takes i (.call ⟨.createTable name, s⟩ k) (.todo input) g := by
  rintro srv w γ r srv' hrel rfl ⟨⟨hlive, hstep⟩, -⟩
  obtain rfl := congrArg Prod.snd (Option.some.inj hstep)
  have hturn' := hturn w (hrel.sees hlive)
  exact .inr ⟨input, s', _, _, rfl, ⟨_, hturn', rfl⟩,
    hrel.create hmaking (hrel.locked.turn hturn'), hk⟩

/-- The end of the process is the moment of the request that caused it. -/
theorem takes_abort {input : Input} {s' : Session} (hease : AtEase i g.session g)
    (hl : s'.lockedTables = g.session.lockedTables)
    (hturn : ∀ w, Sees i g w → Turn w ⟨i, input, w.server, w.sessions i, s'⟩
      ⟨{ w.server with aborted := true }, update w.sessions i s'⟩) :
    (atomically ι).Takes i (abort s') (.todo input) g := by
  rintro srv w γ r srv' hrel rfl ⟨⟨hlive, hstep⟩, -⟩
  obtain rfl := congrArg Prod.snd (Option.some.inj hstep)
  have hturn' := hturn w (hrel.sees hlive)
  refine .inr ⟨input, s', _, _, rfl, ⟨_, hturn', rfl⟩, hrel.abort (hrel.locked.turn hturn'), rfl, ?_⟩
  exact ⟨rfl, by rw [hl]; exact hease.views, hease.making⟩

/-! ### After the moment: writing back and unlocking -/

omit [DecidableEq ι] in
theorem Knowledge.Views.tail {f : Table ι → Table ι} {t : Ptr} {ts : List Ptr} (hnot : t ∉ ts)
    {g' : Knowledge ι} (h : g.Views i f (t :: ts)) (ht : g'.view t = none)
    (hother : ∀ t', t' ≠ t → g'.view t' = g.view t') : g'.Views i f ts := by
  intro t'
  by_cases heq : t' = t
  · subst heq
    exact ⟨fun hmem => absurd hmem hnot, fun _ => ht⟩
  · rw [hother t' heq]
    refine ⟨fun hmem => (h t').1 (List.mem_cons_of_mem t hmem), fun hmem => (h t').2 fun hcons => ?_⟩
    exact (List.mem_cons.mp hcons).elim heq hmem

/-- The loops of COMMIT and of a rollback do what the atomic server has done already. -/
theorem takes_releaseAll {act : Ptr → Call} {f : Table ι → Table ι}
    (hact : act = .commitChanges ∧ f = Table.commitChanges ∨
      act = .rollbackChanges ∧ f = Table.rollbackChanges)
    {ts : List Ptr} {q : Prog calls Session} (hnodup : ts.Nodup)
    (hviews : g.Views i (fun table => { f table with mutex := none }) ts)
    (hq : ∀ g' : Knowledge ι, g'.session = g.session → g'.making = g.making →
      (∀ t, g'.view t = none) → (atomically ι).Takes i q st g') :
    (atomically ι).Takes i ((releaseAll act s ts).bind fun _ => q) st g := by
  induction ts generalizing g with
  | nil => exact hq g rfl rfl fun t => (hviews t).2 List.not_mem_nil
  | cons t ts ih =>
    obtain ⟨hnot, hnodup⟩ := List.nodup_cons.mp hnodup
    obtain ⟨table, -, hv⟩ := (hviews t).1 List.mem_cons_self
    have hrest : (atomically ι).Takes i ((releaseAll act s ts).bind fun _ => q) st
        ((g.put t (some (f table, { f table with mutex := none }))).put t none) := by
      refine ih hnodup (hviews.tail hnot ?_ fun t' ht => ?_) fun g' hs hm hnone => ?_
      · exact Function.update_self ..
      · simp only [Knowledge.put, Function.update_of_ne ht]
      · exact hq g' hs hm hnone
    have hunlock : (atomically ι).Takes i
        (.call ⟨.unlock t, s⟩ fun _ => (releaseAll act s ts).bind fun _ => q) st
        (g.put t (some (f table, { f table with mutex := none }))) :=
      takes_unlock (f table) (Function.update_self ..) (reaches_on hrest)
    rcases hact with ⟨rfl, rfl⟩ | ⟨rfl, rfl⟩
    · exact takes_end .commitChanges (r := ()) (.inl ⟨rfl, rfl⟩) hv (reaches_on hunlock)
    · exact takes_end .rollbackChanges (r := ()) (.inr ⟨rfl, rfl⟩) hv (reaches_on hunlock)

/-- The end of a transaction, when the atomic server has ended it. -/
theorem takes_giveUp {fin : Session → Session} (hnodup : s.lockedTables.Nodup)
    (hl : ∀ s, (fin s).lockedTables = s.lockedTables) (hsession : g.session = fin (released s))
    (hmaking : g.making = none)
    (hin : s.inTransaction = true →
      g.Views i (fun table => { table.rollbackChanges with mutex := none }) s.lockedTables)
    (hout : s.inTransaction = false → g.Views i id s.lockedTables) :
    (atomically ι).Takes i (giveUp s fin) (.done (fin (released s))) g := by
  unfold giveUp
  cases htx : s.inTransaction with
  | false =>
    have hend : released s = s := if_neg (by rw [htx]; decide)
    rw [if_neg Bool.false_ne_true]
    rw [hend] at hsession ⊢
    exact ⟨rfl, hsession, by rw [hl]; exact hout htx, hmaking⟩
  | true =>
    have hend : released s = dropped s := if_pos htx
    rw [if_pos rfl]
    refine takes_walk fun order hperm => reaches_on ?_
    have hviews : g.Views i (fun table => { table.rollbackChanges with mutex := none }) order := by
      intro t
      rw [hperm.mem_iff]
      exact hin htx t
    refine takes_releaseAll (.inr ⟨rfl, rfl⟩) (hperm.nodup_iff.mpr hnodup) hviews ?_
    intro g' hs' hm hnone
    rw [hend] at hsession ⊢
    refine ⟨rfl, hs'.trans hsession, fun t => ?_, hm.trans hmaking⟩
    rw [hl]
    exact ⟨fun hmem => absurd hmem List.not_mem_nil, fun _ => hnone t⟩

omit [DecidableEq ι] in
/-- What the atomic server makes of the tables, against what it had of them. -/
theorem Knowledge.Views.act {f f' : Table ι → Table ι} {ts : List Ptr} (h : g.Views i f ts)
    (s' : Session) (F : Ptr → Table ι → Table ι) (hF : ∀ t ∈ ts, ∀ table, F t (f table) = f' table) :
    Knowledge.Views { g with session := s', view := fun t => (g.view t).map fun q => (q.1, F t q.2) }
      i f' ts := by
  intro t
  refine ⟨fun ht => ?_, fun ht => ?_⟩
  · obtain ⟨table, hm, hv⟩ := (h t).1 ht
    refine ⟨table, hm, ?_⟩
    show (g.view t).map _ = _
    rw [hv, Option.map_some, hF t ht]
  · show (g.view t).map _ = _
    rw [(h t).2 ht]
    rfl

/-- The atomic server, after the transaction of a session was ended. -/
def endedTable (s : Session) (t : Ptr) (table : Table ι) : Table ι :=
  if s.inTransaction = true ∧ t ∈ s.lockedTables then { table.rollbackChanges with mutex := none }
  else table

omit [DecidableEq ι] in
theorem ended_eq (srv : Server ι) (s : Session) :
    srv.ended s = { srv with tables := fun t => endedTable s t (srv.tables t) } := by
  refine Server.ext ?_ ?_ ?_ ?_ ?_
  · exact Server.tableNames_ended ..
  · funext t
    show (srv.ended s).tables t = endedTable s t (srv.tables t)
    cases htx : s.inTransaction with
    | false => rw [Server.ended_of_not _ _ htx, endedTable, htx, if_neg fun h => by cases h.1]
    | true =>
      rw [Server.ended_of_tx _ _ htx, endedTable, htx]
      by_cases ht : t ∈ s.lockedTables
      · rw [if_pos ⟨rfl, ht⟩, Server.tables_release_mem _ _ _ _ ht]
      · rw [if_neg fun h => ht h.2, Server.tables_release_not _ _ _ _ ht]
  · exact Server.next_ended ..
  · exact Server.mutex_ended ..
  · exact Server.aborted_ended ..

/-- A request that is given up, or refused: the transaction is ended. -/
theorem reaches_giveUp {C : Server ι → Prop} {input : Input} {s₁ : Session}
    {fin : Session → Session} (hs : AtEase i s g) (hl : s₁.lockedTables = s.lockedTables)
    (htx : s₁.inTransaction = s.inTransaction) (hfin : ∀ s, (fin s).lockedTables = s.lockedTables)
    (hturn : ∀ w, Sees i g w → C w.server →
      Turn w ⟨i, input, w.server, w.sessions i, fin (released s₁)⟩
        ⟨w.server.ended s, update w.sessions i (fin (released s₁))⟩) :
    Reaches C i (giveUp s₁ fin) (.todo input) g := by
  refine reaches_act (fin (released s₁)) (endedTable s) (fun t table hv => ?_)
    (fun t j table a _ hne hj => ?_) (fun w hsees hC => ?_) fun hnodup => ?_
  · -- what the session has locked is in view
    unfold endedTable
    refine if_neg fun h => ?_
    obtain ⟨_, -, hv'⟩ := (hs.views t).1 h.2
    rw [hv'] at hv
    cases hv
  · unfold endedTable at hne hj
    split at hj
    · cases hj
    · rename_i h
      exact absurd (if_neg h) hne
  · rw [← ended_eq]
    exact hturn w hsees hC
  · have hnodup' : s₁.lockedTables.Nodup := by
      rw [hl, ← hs.session]
      exact hnodup
    refine takes_giveUp hnodup' hfin rfl hs.making (fun hin => ?_) fun hout => ?_
    · rw [hl]
      refine hs.views.act _ (endedTable s) fun t ht table => ?_
      exact if_pos ⟨htx.symm.trans hin, ht⟩
    · rw [hl]
      refine hs.views.act _ (endedTable s) fun t _ table => ?_
      exact if_neg fun h => Bool.false_ne_true ((hout.symm.trans htx).trans h.1)

/-! ## The programs of the requests -/

/-- Change one table. -/
def one (t : Ptr) (f : Table ι → Table ι) : Ptr → Table ι → Table ι :=
  fun t' table => if t' = t then f table else table

omit [DecidableEq ι] in
theorem setTable_one (srv : Server ι) (t : Ptr) (f : Table ι → Table ι) :
    srv.setTable t (f (srv.tables t))
      = { srv with tables := fun t' => one t f t' (srv.tables t') } := by
  refine Server.ext rfl ?_ rfl rfl rfl
  funext t'
  show (srv.setTable t (f (srv.tables t))).tables t' = one t f t' (srv.tables t')
  by_cases ht : t' = t
  · subst ht
    rw [Server.tables_setTable, one, if_pos rfl]
  · rw [Server.tables_setTable_ne _ _ _ ht, one, if_neg ht]

/-- What the program does back to back, on what the thread sees, is a turn. -/
theorem Sees.turn_of_exec {w : World ι} (h : Sees i g w) (hopen : g.session.loopInProgress = true)
    {input : Input} {s' : Session} {srv' : Server ι}
    (he : (process input g.session).exec (serve i) w.server = some (s', srv')) :
    Turn w ⟨i, input, w.server, w.sessions i, s'⟩ ⟨srv', update w.sessions i s'⟩ := by
  refine @Turn.served _ _ w i input _ _ ?_
  rw [World.request, h.session, if_pos ⟨hopen, h.live⟩, he]
  rfl

/-- The effect of the input, on what the thread sees, is a turn. -/
theorem Sees.turn {w : World ι} (h : Sees i g w) (hopen : g.session.loopInProgress = true)
    {input : Input} {s' : Session} {srv' : Server ι}
    (heff : Effect i g.session w.server input s' srv') :
    Turn w ⟨i, input, w.server, w.sessions i, s'⟩ ⟨srv', update w.sessions i s'⟩ := by
  rw [← h.session] at hopen
  have hrun := h.locked.mayRun hopen h.live
  rw [h.session] at hopen hrun
  exact h.turn_of_exec hopen (exec_of_effect hrun heff)

/-- A request that uses no shared state. -/
theorem reaches_still {C : Server ι → Prop} {input : Input} {s' : Session} (hs : AtEase i s g)
    (hopen : s.loopInProgress = true) (hp : process input s = .ret s')
    (hl : s'.lockedTables = s.lockedTables) : Reaches C i (.ret s') (.todo input) g := by
  refine reaches_act s' (fun _ table => table) (fun _ _ _ => rfl)
    (fun _ _ _ _ _ hne _ => absurd rfl hne) (fun w hsees _ => ?_) fun _ => ⟨rfl, ?_⟩
  · obtain rfl := hs.session
    refine hsees.turn_of_exec hopen ?_
    rw [hp]
    rfl
  · refine ⟨rfl, ?_, hs.making⟩
    rw [hl]
    exact hs.views.act s' (fun _ table => table) fun _ _ _ => rfl

/-- A request that only ends the transaction. -/
theorem reaches_over {C : Server ι → Prop} {input : Input} {s₁ : Session} {fin : Session → Session}
    (hs : AtEase i s g) (hopen : s.loopInProgress = true) (hp : process input s = giveUp s₁ fin)
    (hl : s₁.lockedTables = s.lockedTables) (htx : s₁.inTransaction = s.inTransaction)
    (hfin : ∀ s, (fin s).lockedTables = s.lockedTables) :
    Reaches C i (giveUp s₁ fin) (.todo input) g := by
  refine reaches_giveUp hs hl htx hfin fun w hsees _ => ?_
  obtain rfl := hs.session
  refine hsees.turn_of_exec hopen ?_
  have hnodup : s₁.lockedTables.Nodup := by
    rw [hl, ← hsees.session]
    exact hsees.locked.nodup i
  rw [hp, exec_giveUp hnodup hsees.live, Server.ended, Server.ended, htx, hl]

/-- A request that ends the process. -/
theorem reaches_abort {C : Server ι → Prop} {input : Input} {s₁ : Session} (hs : AtEase i s g)
    (hopen : s.loopInProgress = true) (hp : process input s = abort s₁)
    (hl : s₁.lockedTables = s.lockedTables) : Reaches C i (abort s₁) (.todo input) g := by
  obtain rfl := hs.session
  refine reaches_on (takes_abort hs hl fun w hsees => hsees.turn_of_exec hopen ?_)
  rw [hp, exec_abort hsees.live]

/-- COMMIT takes effect when it is accepted. -/
theorem reaches_commitTree {C : Server ι → Prop} {buf : Str} (hs : AtEase i s g)
    (hopen : s.loopInProgress = true) (hdec : decode buf {} = .ok ⟨.commit, []⟩)
    (hfirst : s.firstValidMessage = false) (hin : s.inTransaction = true) :
    Reaches C i (commitTree (ready s)) (.todo (.line buf)) g := by
  refine reaches_act (answered (dropped (ready s)) okLine)
    (fun t table => if t ∈ s.lockedTables then { table.commitChanges with mutex := none } else table)
    (fun t table hv => ?_) (fun t j table a _ hne hj => ?_) (fun w hsees _ => ?_) fun hnodup => ?_
  · refine if_neg fun ht => ?_
    obtain ⟨_, -, hv'⟩ := (hs.views t).1 ht
    rw [hv'] at hv
    cases hv
  · split at hj
    · cases hj
    · rename_i ht
      exact absurd (if_neg ht) hne
  · obtain rfl := hs.session
    exact hsees.turn hopen (.served hdec hfirst (.commit hin))
  · rw [hs.session] at hnodup
    refine takes_walk fun order hperm => reaches_on ?_
    refine takes_releaseAll (.inl ⟨rfl, rfl⟩) (hperm.nodup_iff.mpr hnodup) (fun t => ?_) ?_
    · have hviews : Knowledge.Views _ i (fun table => { table.commitChanges with mutex := none })
          s.lockedTables := hs.views.act (answered (dropped (ready s)) okLine)
        (fun t table => if t ∈ s.lockedTables then { table.commitChanges with mutex := none }
          else table) fun t ht table => if_pos ht
      rw [hperm.mem_iff]
      exact hviews t
    · intro g' hs' hm hnone
      refine ⟨rfl, hs', fun t => ?_, hm.trans hs.making⟩
      exact ⟨fun hmem => absurd hmem List.not_mem_nil, fun _ => hnone t⟩

/-- CREATE. -/
theorem reaches_createTree {C : Server ι → Prop} {buf name : Str} (hs : AtEase i s g)
    (hopen : s.loopInProgress = true) (hdec : decode buf {} = .ok ⟨.create, [name]⟩)
    (hfirst : s.firstValidMessage = false) :
    Reaches C i (createTree (ready s) name) (.todo (.line buf)) g := by
  refine reaches_on (takes_serverLock hs.making (reaches_on ?_))
  refine takes_findTable_making rfl (reaches_on ?_) fun t => reaches_on ?_
  · -- the name is not there: the table is created
    rw [if_neg (fun hne => hne rfl)]
    refine takes_createTable (answered (ready s) okLine) rfl (fun w hsees => ?_) ?_
    · obtain rfl := hs.session
      exact hsees.turn hopen (.served hdec hfirst (.created (hsees.absent name rfl)))
    · refine takes_serverUnlock rfl (reaches_on ⟨rfl, rfl, hs.views, rfl⟩)
  · rw [if_pos (Option.some_ne_none t)]
    refine takes_serverUnlock rfl ?_
    have hs' : AtEase i s { g with found := some (name, t), making := none } :=
      ⟨hs.session, hs.views, rfl⟩
    refine reaches_giveUp hs' rfl rfl (fun _ => rfl) fun w hsees _ => ?_
    obtain rfl := hs.session
    exact hsees.turn hopen (.served hdec hfirst (.bound (hsees.found name t rfl)))

/-- Thread `i` has found the table `t` and taken its mutex; the atomic server has the table as `a`.
    The other tables are those of the session. -/
structure Got (i : ι) (s : Session) (name : Str) (t : Ptr) (g : Knowledge ι) (a : Table ι) : Prop where
  session : g.session = s
  making : g.making = none
  found : g.found = some (name, t)
  view : g.view t = some ({ a with mutex := some i }, a)
  acquires : t ∈ s.lockedTables ∧ a.mutex = some i ∨ t ∉ s.lockedTables ∧ a.mutex = none
  others : ∀ t', t' ≠ t →
    (t' ∈ s.lockedTables → ∃ table, table.mutex = some i ∧ g.view t' = some (table, table)) ∧
    (t' ∉ s.lockedTables → g.view t' = none)

section Tables

variable {name : Str} {t : Ptr} {a : Table ι} {input : Input}

omit [DecidableEq ι] in
theorem Got.sees_acquires (hgot : Got i s name t g a) {w : World ι} (h : Sees i g w) :
    w.server.findTable name = some t ∧ w.server.tables t = a ∧
      Acquires i g.session w.server t := by
  have ha := h.tables t _ _ hgot.view
  refine ⟨h.found name t hgot.found, ha, ?_⟩
  rw [Acquires, ha, hgot.session]
  exact hgot.acquires

omit [DecidableEq ι] in
/-- A table just taken. -/
theorem AtEase.take (hs : AtEase i s g) (hfound : g.found = some (name, t)) (hnot : t ∉ s.lockedTables)
    (hfree : a.mutex = none) :
    Got i s name t (g.put t (some ({ a with mutex := some i }, a))) a where
  session := hs.session
  making := hs.making
  found := hfound
  view := Function.update_self ..
  acquires := .inr ⟨hnot, hfree⟩
  others t' ht := by
    have hview : (g.put t (some ({ a with mutex := some i }, a))).view t' = g.view t' :=
      Function.update_of_ne ht ..
    rw [hview]
    exact hs.views t'

/-- The moment of a request on the table that the thread has got. -/
theorem Got.act (hgot : Got i s name t g a) {table : Table ι} (f : Table ι → Table ι) (s' : Session)
    (hm : ∀ j, (f a).mutex = some j → j = i) {p : Prog calls Session}
    (hturn : ∀ w, Sees i g w → Turn w ⟨i, input, w.server, w.sessions i, s'⟩
      ⟨w.server.setTable t (f (w.server.tables t)), update w.sessions i s'⟩)
    (htakes : ∀ g' : Knowledge ι, g'.session = s' → g'.making = none → g'.view t = some (table, f a) →
      (∀ t', t' ≠ t → g'.view t' = g.view t') → (atomically ι).Takes i p (.done s') g') :
    Reaches (fun _ => True) i p (.todo input) (g.put t (some (table, a))) := by
  have hview : (g.put t (some (table, a))).view t = some (table, a) := Function.update_self ..
  have hother : ∀ t', t' ≠ t → (g.put t (some (table, a))).view t' = g.view t' :=
    fun t' ht => Function.update_of_ne ht ..
  refine reaches_act s' (one t f) (fun t' table' hv => ?_) (fun t' j table' a' hv hne hj => ?_)
    (fun w hsees _ => ?_) fun _ => htakes _ rfl hgot.making ?_ fun t' ht => ?_
  · refine if_neg fun ht => ?_
    rw [ht, hview] at hv
    cases hv
  · by_cases ht : t' = t
    · subst ht
      obtain ⟨rfl, rfl⟩ := Prod.mk.inj (Option.some.inj (hview.symm.trans hv))
      rw [one, if_pos rfl] at hj
      exact hm j hj
    · exact absurd (if_neg ht) hne
  · rw [← setTable_one]
    refine hturn w { hsees with tables := fun t' table' a' hv => ?_ }
    by_cases ht : t' = t
    · subst ht
      obtain ⟨-, rfl⟩ := Prod.mk.inj (Option.some.inj (hgot.view.symm.trans hv))
      exact hsees.tables t' _ _ hview
    · exact hsees.tables t' table' a' ((hother t' ht).trans hv)
  · show Option.map (fun q => (q.1, one t f t q.2)) ((g.put t (some (table, a))).view t) = _
    rw [hview, Option.map_some, one, if_pos rfl]
  · show Option.map (fun q => (q.1, one t f t' q.2)) ((g.put t (some (table, a))).view t') = _
    rw [hother t' ht]
    cases g.view t' with
    | none => rfl
    | some q => rw [Option.map_some, one, if_neg ht]

omit [DecidableEq ι] in
/-- In a transaction the table is kept. -/
theorem Got.ease_inside (hgot : Got i s name t g a) {table : Table ι} {g' : Knowledge ι} {s' : Session}
    (hm : table.mutex = some i) (hl : s'.lockedTables = s.lockedTables.insert t)
    (hs' : g'.session = s') (hmaking : g'.making = none) (hv : g'.view t = some (table, table))
    (hother : ∀ t', t' ≠ t → g'.view t' = g.view t') : AtEase i s' g' := by
  refine ⟨hs', fun t' => ?_, hmaking⟩
  rw [hl, List.mem_insert_iff]
  by_cases ht : t' = t
  · subst ht
    exact ⟨fun _ => ⟨table, hm, hv⟩, fun hno => absurd (.inl rfl) hno⟩
  · rw [hother t' ht]
    refine ⟨fun hmem => (hgot.others t' ht).1 (hmem.resolve_left ht), fun hno => ?_⟩
    exact (hgot.others t' ht).2 fun hmem => hno (.inr hmem)

omit [DecidableEq ι] in
/-- Outside a transaction it has been unlocked. -/
theorem Got.ease_outside (hgot : Got i s name t g a) (hnot : t ∉ s.lockedTables) {g' : Knowledge ι}
    {s' : Session} (hl : s'.lockedTables = s.lockedTables) (hs' : g'.session = s')
    (hmaking : g'.making = none) (hv : g'.view t = none)
    (hother : ∀ t', t' ≠ t → g'.view t' = g.view t') : AtEase i s' g' := by
  refine ⟨hs', fun t' => ?_, hmaking⟩
  rw [hl]
  by_cases ht : t' = t
  · subst ht
    exact ⟨fun hmem => absurd hmem hnot, fun _ => hv⟩
  · rw [hother t' ht]
    exact hgot.others t' ht

/-- Looking a table up; the moment of a request whose table is not there. -/
theorem reaches_findTree {C : Server ι → Prop} {buf key : Str} {mt : MessageType}
    {body : Ptr → Prog calls Session} (hs : AtEase i s g) (hopen : s.loopInProgress = true)
    (hdec : decode buf {} = .ok ⟨mt, [name, key]⟩) (hfirst : s.firstValidMessage = false)
    (hmt : UsesTable s mt)
    (hbody : ∀ t g', AtEase i s g' → g'.found = some (name, t) →
      (atomically ι).Takes i (body t) (.todo (.line buf)) g') :
    Reaches C i (findTree (ready s) name body) (.todo (.line buf)) g := by
  refine reaches_on (takes_findTable hs.making ?_ fun t => ?_)
  · refine reaches_giveUp hs rfl rfl (fun _ => rfl) fun w hsees hC => ?_
    obtain rfl := hs.session
    exact hsees.turn hopen (.served hdec hfirst (.unknown hmt hC))
  · exact reaches_on (hbody t _ ⟨hs.session, hs.views, hs.making⟩ rfl)

/-- Taking the table in a transaction; the moment of a request that cannot. -/
theorem takes_acquireTree {buf key : Str} {mt : MessageType}
    {body : Session → Prog calls Session} (hs : AtEase i s g) (hopen : s.loopInProgress = true)
    (hdec : decode buf {} = .ok ⟨mt, [name, key]⟩) (hmt : UsesTable s mt)
    (hin : s.inTransaction = true) (hfound : g.found = some (name, t))
    (hbody : ∀ g' a, Got i s name t g' a →
      (atomically ι).Takes i (body (acquired (ready s) t)) (.todo (.line buf)) g') :
    (atomically ι).Takes i (acquireTree (ready s) t body) (.todo (.line buf)) g := by
  unfold acquireTree
  unfold acquired at hbody
  by_cases hmem : t ∈ s.lockedTables
  · rw [if_pos (show t ∈ (ready s).lockedTables from hmem)]
    rw [List.insert_of_mem (show t ∈ (ready s).lockedTables from hmem)] at hbody
    obtain ⟨table, hm, hv⟩ := (hs.views t).1 hmem
    have hsame : ({ table with mutex := some i } : Table ι) = table := by rw [← hm]
    exact hbody g table ⟨hs.session, hs.making, hfound, by rw [hsame]; exact hv, .inl ⟨hmem, hm⟩,
      fun t' _ => hs.views t'⟩
  · rw [if_neg (show t ∉ (ready s).lockedTables from hmem)]
    rw [List.insert_of_not_mem (show t ∉ (ready s).lockedTables from hmem)] at hbody
    refine takes_trylock hfound (fun a hfree => ?_) ?_
    · exact reaches_on (hbody _ a (hs.take hfound hmem hfree))
    · rw [if_neg Bool.false_ne_true]
      refine reaches_giveUp hs rfl rfl (fun _ => rfl) fun w hsees _ => ?_
      obtain rfl := hs.session
      have hnot : t ∉ (w.sessions i).lockedTables := by rw [hsees.session]; exact hmem
      have hin' : (w.sessions i).inTransaction = true := by rw [hsees.session]; exact hin
      have hturn := Turn.refused (w := w) (i := i) (by rw [hsees.session]; exact hopen) hsees.live
        (request_of_decode hdec) (by rw [hsees.session]; exact hmt) (hsees.found name t hfound) hin' hnot
      rw [hsees.session] at hturn ⊢
      exact hturn

/-- SET. -/
theorem reaches_setTree {C : Server ι → Prop} {buf key v : Str} {st : List Str} (hs : AtEase i s g)
    (hopen : s.loopInProgress = true) (hdec : decode buf {} = .ok ⟨.set, [name, key]⟩)
    (hfirst : s.firstValidMessage = false) (hst : s.stack = v :: st)
    (hnoTx : s.inTransaction = false → s.lockedTables = []) :
    Reaches C i (setTree (ready s) name key v st) (.todo (.line buf)) g := by
  have hmt : UsesTable s .set := .inl ⟨rfl, by rw [hst]; exact List.cons_ne_nil v st⟩
  refine reaches_findTree hs hopen hdec hfirst hmt fun t g₁ hs₁ hfound => ?_
  cases htx : s.inTransaction with
  | true =>
    have htx' : (ready s).inTransaction = true := htx
    rw [if_pos htx']
    refine takes_acquireTree hs₁ hopen hdec hmt htx hfound fun g₂ a hgot => ?_
    refine takes_set hgot.view ?_
    refine hgot.act (fun table => { table.set key v with mutex := some i })
      (answered { acquired (ready s) t with stack := st } okLine)
      (fun j hj => (Option.some.inj hj).symm) (fun w hsees => ?_) fun g₃ hs' hm hv hother => ?_
    · obtain ⟨hname, -, hacq⟩ := hgot.sees_acquires hsees
      obtain rfl := hgot.session
      exact hsees.turn hopen (.served hdec hfirst (.setTx hst hname htx hacq))
    · exact ⟨rfl, hgot.ease_inside rfl rfl hs' hm hv hother⟩
  | false =>
    have htx' : ¬ (ready s).inTransaction = true := by
      show ¬ s.inTransaction = true
      rw [htx]
      decide
    rw [if_neg htx']
    have hnot : t ∉ s.lockedTables := by
      rw [hnoTx htx]
      exact List.not_mem_nil
    refine takes_lock hfound fun a hfree => reaches_on ?_
    have hgot := hs₁.take hfound hnot hfree
    refine takes_set hgot.view ?_
    refine hgot.act (fun table => (table.set key v).commitChanges)
      (answered { ready s with stack := st } okLine) (fun j hj => ?_) (fun w hsees => ?_)
      fun g₃ hs' hm hv hother => ?_
    · have hj' : a.mutex = some j := hj
      rw [hfree] at hj'
      cases hj'
    · obtain ⟨hname, ha, -⟩ := hgot.sees_acquires hsees
      have hfree' : (w.server.tables t).mutex = none := by rw [ha]; exact hfree
      obtain rfl := hs₁.session
      exact hsees.turn hopen (.served hdec hfirst (.setAuto hst hname htx hfree'))
    · -- the pending entry is written back, and the table unlocked
      refine takes_end .commitChanges (r := ()) (.inl ⟨rfl, rfl⟩) hv (reaches_on ?_)
      have hback : ({ (({ a with mutex := some i } : Table ι).set key v).commitChanges with
          mutex := none } : Table ι) = (a.set key v).commitChanges := by
        rw [← hfree]
        rfl
      refine takes_unlock (({ a with mutex := some i } : Table ι).set key v).commitChanges
        ?_ (reaches_on ⟨rfl, ?_⟩)
      · rw [hback]
        exact Knowledge.view_put ..
      · refine hgot.ease_outside hnot rfl hs' hm (Knowledge.view_put ..) fun t' ht => ?_
        rw [Knowledge.view_put_ne _ ht, Knowledge.view_put_ne _ ht]
        exact hother t' ht

/-- GET. -/
theorem reaches_getTree {C : Server ι → Prop} {buf key : Str} (hs : AtEase i s g)
    (hopen : s.loopInProgress = true) (hdec : decode buf {} = .ok ⟨.get, [name, key]⟩)
    (hfirst : s.firstValidMessage = false)
    (hnoTx : s.inTransaction = false → s.lockedTables = []) :
    Reaches C i (getTree (ready s) name key) (.todo (.line buf)) g := by
  have hmt : UsesTable s .get := .inr rfl
  refine reaches_findTree hs hopen hdec hfirst hmt fun t g₁ hs₁ hfound => ?_
  cases htx : s.inTransaction with
  | true =>
    have htx' : (ready s).inTransaction = true := htx
    rw [if_pos htx']
    refine takes_acquireTree hs₁ hopen hdec hmt htx hfound fun g₂ a hgot => ?_
    refine takes_hasKey hgot.view fun hkey => reaches_on ?_
    rw [if_pos rfl]
    obtain ⟨v, hget⟩ := Table.get_of_hasKey.mp hkey
    refine takes_get hgot.view ?_
    rw [hget]
    rw [← Knowledge.put_self hgot.view]
    refine hgot.act (fun table => { table with mutex := some i })
      (answered { acquired (ready s) t with stack := v :: s.stack } okLine)
      (fun j hj => (Option.some.inj hj).symm) (fun w hsees => ?_) fun g₃ hs' hm hv hother => ?_
    · obtain ⟨hname, ha, hacq⟩ := hgot.sees_acquires hsees
      have hget' : (w.server.tables t).get key = .ok v := by
        rw [ha]
        exact hget
      obtain rfl := hgot.session
      exact hsees.turn hopen (.served hdec hfirst (.getTx hname htx hacq hget'))
    · exact ⟨rfl, hgot.ease_inside rfl rfl hs' hm hv hother⟩
  | false =>
    have htx' : ¬ (ready s).inTransaction = true := by
      show ¬ s.inTransaction = true
      rw [htx]
      decide
    rw [if_neg htx']
    have hnot : t ∉ s.lockedTables := by
      rw [hnoTx htx]
      exact List.not_mem_nil
    refine takes_lock hfound fun a hfree => reaches_on ?_
    have hgot := hs₁.take hfound hnot hfree
    refine takes_hasKey hgot.view fun hkey => reaches_on ?_
    rw [if_pos rfl]
    obtain ⟨v, hget⟩ := Table.get_of_hasKey.mp hkey
    refine takes_get hgot.view ?_
    rw [hget]
    have hback : ({ ({ a with mutex := some i } : Table ι) with mutex := none } : Table ι) = a := by
      rw [← hfree]
    rw [← Knowledge.put_self hgot.view]
    refine hgot.act (fun table => table) (answered { ready s with stack := v :: s.stack } okLine)
      (fun j hj => ?_) (fun w hsees => ?_) fun g₃ hs' hm hv hother => ?_
    · rw [hfree] at hj
      cases hj
    · obtain ⟨hname, ha, -⟩ := hgot.sees_acquires hsees
      have hfree' : (w.server.tables t).mutex = none := by rw [ha]; exact hfree
      have hget' : (w.server.tables t).get key = .ok v := by
        rw [ha]
        exact hget
      obtain rfl := hs₁.session
      rw [Server.setTable_self]
      exact hsees.turn hopen (.served hdec hfirst (.getAuto hname htx hfree' hget'))
    · refine takes_unlock { a with mutex := some i } ?_ (reaches_on ⟨rfl, ?_⟩)
      · rw [hback]
        exact hv
      · refine hgot.ease_outside hnot rfl hs' hm (Knowledge.view_put ..) fun t' ht => ?_
        rw [Knowledge.view_put_ne _ ht]
        exact hother t' ht

end Tables

/-- **Every request can be followed.** -/
theorem reaches_process {input : Input} (hs : AtEase i s g) (hopen : s.loopInProgress = true)
    (hnoTx : s.inTransaction = false → s.lockedTables = []) :
    Reaches (fun _ => True) i (process input s) (.todo input) g := by
  have hshape := process_shape hopen input
  generalize hp : process input s = p at hshape
  cases hshape with
  | eof | undecodable | premature => exact reaches_over hs hopen hp rfl rfl fun _ => rfl
  | empty => exact reaches_abort hs hopen hp rfl
  | login => exact reaches_still hs hopen hp rfl
  | request hdec ht hfirst hresp =>
    cases hresp with
    | computes | begin => exact reaches_still hs hopen hp rfl
    | refuses | overlong | bye => exact reaches_over hs hopen hp rfl rfl fun _ => rfl
    | kills => exact reaches_abort hs hopen hp rfl
    | commit htx => exact reaches_commitTree hs hopen hdec hfirst htx
    | create => exact reaches_createTree hs hopen hdec hfirst
    | set hst => exact reaches_setTree hs hopen hdec hfirst hst hnoTx
    | get => exact reaches_getTree hs hopen hdec hfirst hnoTx

theorem atomically_sound : (atomically ι).Sound where
  accept := by
    intro i srv w γ s input p hrel hrest hacc
    obtain ⟨hopen, hlive, rfl⟩ := @accept_serverSystem ι i srv s input p hacc
    have hsession := hrest.session
    have hnoTx : s.inTransaction = false → s.lockedTables = [] := by
      rw [← hsession, ← hrel.session i]
      exact hrel.locked.noTx i
    exact reaches_process hrest hopen hnoTx srv w γ hrel rfl hlive trivial

end Programs

/-! ## The theorem -/

section Theorem

variable {ι : Type} [DecidableEq ι]

/-- The requests that client `i` has made. -/
def requests (i : ι) (h : List (Event ι)) : List (Input × Session) := past i (h.map Event.done)

/-- Whole requests explain a trace: what each client has completed is what it has got, in its order,
    but for an input under way that may have taken effect.  The names of the tables are the same on
    both sides at any moment, and so are the tables that are free, and those of a client at rest; and
    where nothing is under way, so are the servers. -/
structure Explains (T : Chat ι) (h : List (Event ι)) (w : World ι) : Prop where
  rest : ∀ i s, T.config.threads i = .rest s →
    w.sessions i = s ∧ requests i h = past i T.done
  busy : ∀ i p, T.config.threads i = .busy p → ∃ input, T.todo i = some input ∧
    (requests i h = past i T.done ∨ ∃ s', requests i h = (input, s') :: past i T.done)
  names : w.server.tableNames = T.config.shared.tableNames
  free : ∀ t, (T.config.shared.tables t).mutex = none →
    w.server.tables t = T.config.shared.tables t
  mine : ∀ i s, T.config.threads i = .rest s → ∀ t ∈ s.lockedTables,
    w.server.tables t = T.config.shared.tables t
  server : (∀ i, ∃ s, T.config.threads i = .rest s) → w.server = T.config.shared

theorem exists_turns {w₀ w : World ι} {done : List (Done ι Input Session)}
    (h : System.Acts (atomically ι).act w₀ done w) :
    ∃ h, Turns w₀ h w ∧ h.map Event.done = done := by
  induction h with
  | nil => exact ⟨[], .nil, rfl⟩
  | snoc _ hact ih =>
    obtain ⟨h, hturns, rfl⟩ := ih
    obtain ⟨e, hturn, rfl⟩ := hact
    exact ⟨e :: h, .snoc hturns hturn, rfl⟩

omit [DecidableEq ι] in
/-- At rest everywhere, the atomic server is the server. -/
theorem Mirrors.server_eq {srv : Server ι} {w : World ι} {γ : ι → Knowledge ι} (h : Mirrors srv w γ)
    (hrest : ∀ i, ∃ s, AtEase i s (γ i)) : w.server = srv := by
  refine Server.ext h.names ?_ h.next ?_ h.aborted
  · funext t
    cases hm : (srv.tables t).mutex with
    | none => exact h.free t hm
    | some i =>
      obtain ⟨s, hs⟩ := hrest i
      have hv := h.held t i hm
      by_cases ht : t ∈ s.lockedTables
      · obtain ⟨table, -, hv'⟩ := (hs.views t).1 ht
        obtain ⟨rfl, heq⟩ := Prod.mk.inj (Option.some.inj (hv'.symm.trans hv))
        exact heq.symm
      · rw [(hs.views t).2 ht] at hv
        cases hv
  · rw [h.locked.mutex]
    cases hm : srv.mutex with
    | none => rfl
    | some i =>
      obtain ⟨s, hs⟩ := hrest i
      have hmaker := (h.maker i).mp hm
      rw [hs.making] at hmaker
      cases hmaker

theorem explains_of_follows {T : Chat ι} {w : World ι} {h : List (Event ι)}
    (hf : (atomically ι).Follows T (h.map Event.done) w) : Explains T h w := by
  obtain ⟨γ, hrel, hat⟩ := hf
  constructor
  case rest =>
    intro i s hc
    obtain ⟨hrest, hpast⟩ := (hat i).of_rest hc
    exact ⟨(hrel.session i).trans hrest.session, hpast⟩
  case busy =>
    intro i p hc
    obtain ⟨input, hx, hstage⟩ := (hat i).of_busy hc
    refine ⟨input, hx, hstage.imp And.right ?_⟩
    rintro ⟨s', -, hpast⟩
    exact ⟨s', hpast⟩
  case names => exact hrel.names
  case free => exact hrel.free
  case mine =>
    intro i s hc t ht
    obtain ⟨hrest, -⟩ := (hat i).of_rest hc
    obtain ⟨table, -, hv⟩ := (hrest.views t).1 ht
    obtain ⟨-, htable, ha⟩ := hrel.seen hv
    exact ha.symm.trans htable
  case server =>
    intro hall
    refine hrel.server_eq fun i => ?_
    obtain ⟨s, hc⟩ := hall i
    exact ⟨s, ((hat i).of_rest hc).1⟩

omit [DecidableEq ι] in
theorem mirrors_start : Mirrors ({} : Server ι) {} fun _ => {} where
  locked := wellLocked_start
  names := rfl
  next := rfl
  aborted := rfl
  session _ := rfl
  free _ _ := rfl
  held _ _ h := by cases h
  view _ _ _ h := by cases h
  mine _ _ _ h := by cases h
  maker _ := ⟨fun h => (by cases h), fun h => (by cases h)⟩
  found _ _ _ h := by cases h
  absent _ _ h := by cases h
  fresh _ _ := rfl

theorem follows_opening : (atomically ι).Follows (opening ι) [] {} := by
  refine ⟨fun _ => {}, mirrors_start, fun i => ?_⟩
  refine System.Abstraction.placed_rest (l := {}) rfl ⟨rfl, fun t => ?_, rfl⟩ rfl
  exact ⟨fun ht => absurd ht List.not_mem_nil, fun _ => rfl⟩

/-- The runs of whole requests that two parts of a run follow. -/
theorem follows_turns {T₁ T₂ : Chat ι}
    (h₁ : System.Leads ((serverSystem ι).restrict FindsKey) (opening ι) T₁)
    (h₂ : System.Leads ((serverSystem ι).restrict FindsKey) T₁ T₂) :
    ∃ (early late : List (Event ι)) (w₁ w₂ : World ι), Turns {} early w₁ ∧ Turns w₁ late w₂ ∧
      (atomically ι).Follows T₁ (early.map Event.done) w₁ ∧
      (atomically ι).Follows T₂ ((late ++ early).map Event.done) w₂ := by
  obtain ⟨done₁, w₁, hacts₁, hf₁⟩ := System.Abstraction.leads atomically_sound follows_opening h₁
  rw [List.append_nil] at hf₁
  obtain ⟨done₂, w₂, hacts₂, hf₂⟩ := System.Abstraction.leads atomically_sound hf₁ h₂
  obtain ⟨early, hturns₁, rfl⟩ := exists_turns hacts₁
  obtain ⟨late, hturns₂, rfl⟩ := exists_turns hacts₂
  rw [← List.map_append] at hf₂
  exact ⟨early, late, w₁, w₂, hturns₁, hturns₂, hf₁, hf₂⟩

end Theorem

end BasicServer
