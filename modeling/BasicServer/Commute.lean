/-
  Independent requests commute.

  The footprint of a request is the table its line names, together with the tables its client has
  locked.  Two requests of different clients whose footprints are disjoint, and neither of which ends
  the process, can be carried out in either order: the responses are the same, and so is the state.

  1. `Effect.local` — a request changes tables of its footprint, or makes the table it names, and
     what it does depends on its footprint only.
  2. `Apart.agrees` — after the request of one client the other finds its footprint as it was.
  3. `Apart.comm` — the two changes commute.

  Two CREATEs take the addresses of their tables in the order in which they run.  An address says no
  more than which object a name leads to, so states are compared up to a renaming of the addresses
  (`World.Renamed`).  Tables that were there before stay where they are.
-/
import BasicServer.World
import Mathlib.Data.Set.Defs
import Mathlib.Logic.Equiv.Basic

namespace BasicServer

open Function (update)

/-! ## Footprints -/

/-- The table name that a SET, a GET or a CREATE carries. -/
def carried (input : Input) : Option Str :=
  match request input with
  | some ⟨.set, name :: _⟩ => some name
  | some ⟨.get, name :: _⟩ => some name
  | some ⟨.create, name :: _⟩ => some name
  | _ => none

section Definitions

variable {ι : Type}

/-- The tables a request of client `i` may use, by their names. -/
def footprint (w : World ι) (i : ι) (input : Input) : Set Str :=
  { name | carried input = some name ∨
      ∃ t ∈ (w.sessions i).lockedTables, w.server.findTable name = some t }

/-- The tables a request may use, by their addresses. -/
def Touched (input : Input) (s : Session) (srv : Server ι) (t : Ptr) : Prop :=
  t ∈ s.lockedTables ∨ ∃ name, carried input = some name ∧ srv.findTable name = some t

/-- The server `q` is as `srv` wherever a request looks. -/
structure Agrees (input : Input) (s : Session) (srv q : Server ι) : Prop where
  aborted : q.aborted = srv.aborted
  mutex : q.mutex = srv.mutex
  find : ∀ name, carried input = some name → q.findTable name = srv.findTable name
  tables : ∀ t, Touched input s srv t → q.tables t = srv.tables t

theorem Agrees.refl (input : Input) (s : Session) (srv : Server ι) : Agrees input s srv srv :=
  ⟨rfl, rfl, fun _ _ => rfl, fun _ _ => rfl⟩

/-- What a request does to the shared state: it gives tables a new content, or it makes a table. -/
inductive Change (ι : Type) where
  | writes (ts : List Ptr) (new : Ptr → Table ι)
  | creates (name : Str)

def Change.apply (srv : Server ι) : Change ι → Server ι
  | .writes ts new => { srv with tables := fun t => if t ∈ ts then new t else srv.tables t }
  | .creates name => srv.createTable name

/-- A change of nothing but the footprint. -/
def Change.Within (input : Input) (s : Session) (srv : Server ι) : Change ι → Prop
  | .writes ts _ => ∀ t ∈ ts, Touched input s srv t
  | .creates name => carried input = some name

/-- The same state with its tables at other addresses: `ρ` takes the old one to the new one. -/
structure Server.Renamed (ρ : Equiv.Perm Ptr) (srv srv' : Server ι) : Prop where
  names : ∀ name, srv'.findTable name = (srv.findTable name).map ρ
  tables : ∀ t, srv'.tables (ρ t) = srv.tables t
  next : srv'.next = srv.next
  mutex : srv'.mutex = srv.mutex
  aborted : srv'.aborted = srv.aborted

/-- The same for the server and its clients. -/
structure World.Renamed (ρ : Equiv.Perm Ptr) (w w' : World ι) : Prop where
  server : w.server.Renamed ρ w'.server
  sessions : ∀ k, w'.sessions k
    = { w.sessions k with lockedTables := (w.sessions k).lockedTables.map ρ }

end Definitions

/-! ## A request keeps to its footprint -/

section Local

variable {ι : Type} {i : ι} {s s' : Session} {srv srv' q : Server ι} {input : Input}

theorem carried_of_decode {buf : Str} {msg : Message} (h : decode buf {} = .ok msg) {name : Str}
    {rest : List Str} (hmsg : msg.mArgs = name :: rest)
    (ht : msg.mMessageType = .set ∨ msg.mMessageType = .get ∨ msg.mMessageType = .create) :
    carried (.line buf) = some name := by
  obtain ⟨t, args⟩ := msg
  obtain rfl : args = name :: rest := hmsg
  rw [carried, request_of_decode h]
  rcases ht with rfl | rfl | rfl <;> rfl

theorem carried_of_uses {buf name key : Str} {mt : MessageType} (hmt : UsesTable s mt)
    (h : decode buf {} = .ok ⟨mt, [name, key]⟩) : carried (.line buf) = some name := by
  refine carried_of_decode h rfl ?_
  rcases hmt with ⟨rfl, -⟩ | rfl
  · exact .inl rfl
  · exact .inr (.inl rfl)

/-- Where a request finds its footprint as it was, its client may still run. -/
theorem MayRun.agrees (hrun : MayRun i s srv) (h : Agrees input s srv q) : MayRun i s q :=
  ⟨h.aborted.trans hrun.live, h.mutex.trans hrun.mutex, hrun.isOpen, hrun.nodup,
    fun t ht => (congrArg Table.mutex (h.tables t (.inl ht))).trans (hrun.mine t ht), hrun.noTx⟩

namespace Change

theorem apply_nil (new : Ptr → Table ι) (q : Server ι) : (writes [] new).apply q = q := by
  simp [apply]

theorem setTable_eq (srv q : Server ι) (t : Ptr) (table : Table ι) :
    q.setTable t table = (writes [t] (srv.setTable t table).tables).apply q := by
  refine Server.ext rfl ?_ rfl rfl rfl
  funext t'
  show _ = if t' ∈ [t] then (srv.setTable t table).tables t' else q.tables t'
  by_cases ht : t' = t
  · subst ht
    rw [if_pos (List.mem_singleton_self _), Server.tables_setTable, Server.tables_setTable]
  · rw [if_neg (fun h => ht (List.mem_singleton.mp h)), Server.tables_setTable_ne _ _ _ ht]

theorem release_eq {f : Table ι → Table ι} {ts : List Ptr}
    (h : ∀ t ∈ ts, q.tables t = srv.tables t) :
    q.release f ts = (writes ts (srv.release f ts).tables).apply q := by
  refine Server.ext rfl ?_ rfl rfl rfl
  funext t
  show _ = if t ∈ ts then (srv.release f ts).tables t else q.tables t
  by_cases ht : t ∈ ts
  · rw [if_pos ht, Server.tables_release_mem _ _ _ _ ht, Server.tables_release_mem _ _ _ _ ht, h t ht]
  · rw [if_neg ht, Server.tables_release_not _ _ _ _ ht]

theorem ended_eq (hnoTx : s.inTransaction = false → s.lockedTables = [])
    (h : ∀ t ∈ s.lockedTables, q.tables t = srv.tables t) :
    q.ended s = (writes s.lockedTables (srv.ended s).tables).apply q := by
  cases htx : s.inTransaction with
  | true => rw [Server.ended_of_tx _ _ htx, Server.ended_of_tx _ _ htx]; exact release_eq h
  | false => rw [Server.ended_of_not _ _ htx, hnoTx htx, apply_nil]

end Change

/-- What the input does from `srv` on, it does wherever it finds its footprint as in `srv`. -/
def Locally (i : ι) (s : Session) (srv : Server ι) (input : Input) (s' : Session)
    (srv' : Server ι) : Prop :=
  ∃ c : Change ι, c.Within input s srv ∧ srv' = c.apply srv ∧
    ∀ q, Agrees input s srv q → Effect i s q input s' (c.apply q)

/-- How to show it for an effect that writes to the tables `ts`. -/
theorem Locally.writes {ts : List Ptr} {F : Server ι → Server ι}
    (hts : ∀ t ∈ ts, Touched input s srv t)
    (hF : ∀ q, Agrees input s srv q → F q = (Change.writes ts (F srv).tables).apply q)
    (h : ∀ q, Agrees input s srv q → Effect i s q input s' (F q)) :
    Locally i s srv input s' (F srv) := by
  refine ⟨.writes ts (F srv).tables, hts, hF srv (.refl ..), fun q hq => ?_⟩
  rw [← hF q hq]
  exact h q hq

/-- How to show it for an effect that leaves the server alone. -/
theorem Locally.still (h : ∀ q, Agrees input s srv q → Effect i s q input s' q) :
    Locally i s srv input s' srv :=
  @Locally.writes _ _ _ _ _ _ [] id nofun (fun q _ => (Change.apply_nil _ q).symm) h

/-- How to show it for an effect that ends the transaction of `s₁`. -/
theorem Locally.ended (s₁ : Session) (hnoTx : s₁.inTransaction = false → s₁.lockedTables = [])
    (hts : ∀ t ∈ s₁.lockedTables, Touched input s srv t)
    (h : ∀ q, Agrees input s srv q → Effect i s q input s' (q.ended s₁)) :
    Locally i s srv input s' (srv.ended s₁) :=
  @Locally.writes _ _ _ _ _ _ s₁.lockedTables (·.ended s₁) hts
    (fun _ hq => Change.ended_eq hnoTx fun t ht => hq.tables t (hts t ht)) h

/-- How to show it for an effect that replaces one table. -/
theorem Locally.setTable {t : Ptr} {table : Table ι} (ht : Touched input s srv t)
    (h : ∀ q, Agrees input s srv q → Effect i s q input s' (q.setTable t table)) :
    Locally i s srv input s' (srv.setTable t table) :=
  @Locally.writes _ _ _ _ _ _ [t] (·.setTable t table)
    (fun _ ht' => List.mem_singleton.mp ht' ▸ ht) (fun q _ => Change.setTable_eq srv q t table) h

/-- The requests that use the shared state. -/
theorem Served.local {buf : Str} {msg : Message} (hrun : MayRun i s srv)
    (hdec : decode buf {} = .ok msg) (hfirst : s.firstValidMessage = false)
    (h : Served i (ready s) srv msg s' srv') : Locally i s srv (.line buf) s' srv' := by
  have hown : ∀ t ∈ (ready s).lockedTables, Touched (.line buf) s srv t := fun _ ht => .inl ht
  have served : ∀ {q q' : Server ι}, Served i (ready s) q msg s' q' →
      Effect i s q (.line buf) s' q' := fun h => .served hdec hfirst h
  -- the table that the line names, on a server that agrees on the footprint
  have named : ∀ {q : Server ι} {name : Str} {t : Ptr}, Agrees (.line buf) s srv q →
      carried (.line buf) = some name → srv.findTable name = some t →
      q.findTable name = some t ∧ q.tables t = srv.tables t := fun hq hc hname =>
    ⟨(hq.find _ hc).trans hname, hq.tables _ (.inr ⟨_, hc, hname⟩)⟩
  have acquires : ∀ {q : Server ι} {t : Ptr}, q.tables t = srv.tables t →
      Acquires i (ready s) srv t → Acquires i (ready s) q t := fun ht hacq => by
    rw [Acquires, ht]
    exact hacq
  cases h with
  | commit htx =>
    refine @Locally.writes _ _ _ _ _ _ s.lockedTables (·.release Table.commitChanges s.lockedTables)
      hown (fun q hq => Change.release_eq fun t ht => hq.tables t (.inl ht)) fun q _ => ?_
    exact served (.commit htx)
  | @created name hname =>
    have hc := carried_of_decode hdec rfl (.inr (.inr rfl))
    refine ⟨.creates name, hc, rfl, fun q hq => ?_⟩
    exact served (.created ((hq.find _ hc).trans hname))
  | @bound name t hname =>
    have hc := carried_of_decode hdec rfl (.inr (.inr rfl))
    refine .ended (ready s) hrun.noTx hown fun q hq => ?_
    exact served (.bound (named hq hc hname).1)
  | @unknown mt name key hmt hname =>
    have hc := carried_of_uses hmt hdec
    refine .ended (ready s) hrun.noTx hown fun q hq => ?_
    exact served (.unknown hmt ((hq.find _ hc).trans hname))
  | @conflict mt name key t hmt hname htx hnot hbusy =>
    have hc := carried_of_uses hmt hdec
    refine .ended (ready s) hrun.noTx hown fun q hq => ?_
    obtain ⟨hname', ht⟩ := named hq hc hname
    exact served (.conflict hmt hname' htx hnot (by rw [ht]; exact hbusy))
  | @setTx name key v st t hst hname htx hacq =>
    have hc := carried_of_decode hdec rfl (.inl rfl)
    refine .setTable (.inr ⟨name, hc, hname⟩) fun q hq => ?_
    obtain ⟨hname', ht⟩ := named hq hc hname
    rw [← ht]
    exact served (.setTx hst hname' htx (acquires ht hacq))
  | @setAuto name key v st t hst hname htx hfree =>
    have hc := carried_of_decode hdec rfl (.inl rfl)
    refine .setTable (.inr ⟨name, hc, hname⟩) fun q hq => ?_
    obtain ⟨hname', ht⟩ := named hq hc hname
    rw [← ht]
    exact served (.setAuto hst hname' htx (by rw [ht]; exact hfree))
  | @getTx name key v t hname htx hacq hget =>
    have hc := carried_of_decode hdec rfl (.inr (.inl rfl))
    refine .setTable (.inr ⟨name, hc, hname⟩) fun q hq => ?_
    obtain ⟨hname', ht⟩ := named hq hc hname
    rw [← ht]
    exact served (.getTx hname' htx (acquires ht hacq) (by rw [ht]; exact hget))
  | @missTx name key t hname htx hacq hmiss =>
    have hc := carried_of_decode hdec rfl (.inr (.inl rfl))
    have htx' : (acquired (ready s) t).inTransaction = true := htx
    refine .ended (acquired (ready s) t) (fun h => nomatch htx'.symm.trans h)
      (fun t' ht' => ?_) fun q hq => ?_
    · -- the table is unlocked with the others
      rcases List.mem_insert_iff.mp ht' with rfl | ht'
      · exact .inr ⟨name, hc, hname⟩
      · exact .inl ht'
    · obtain ⟨hname', ht⟩ := named hq hc hname
      exact served (.missTx hname' htx (acquires ht hacq) (by rw [ht]; exact hmiss))
  | @getAuto name key v t hname htx hfree hget =>
    have hc := carried_of_decode hdec rfl (.inr (.inl rfl))
    refine .still fun q hq => ?_
    obtain ⟨hname', ht⟩ := named hq hc hname
    exact served (.getAuto hname' htx (by rw [ht]; exact hfree) (by rw [ht]; exact hget))
  | @missAuto name key t hname htx hfree hmiss =>
    have hc := carried_of_decode hdec rfl (.inr (.inl rfl))
    refine .still fun q hq => ?_
    obtain ⟨hname', ht⟩ := named hq hc hname
    exact served (.missAuto hname' htx (by rw [ht]; exact hfree) (by rw [ht]; exact hmiss))

/-- **A request keeps to its footprint**, unless it ends the process. -/
theorem Effect.local (hrun : MayRun i s srv) (h : Effect i s srv input s' srv')
    (hlive : srv'.aborted = false) : Locally i s srv input s' srv' := by
  cases h with
  | still hp hl htx hmsg => exact .still fun q _ => .still hp hl htx hmsg
  | givesUp hp hl htx hfin hok =>
    exact .ended s hrun.noTx (fun _ ht => .inl ht) fun q _ => .givesUp hp hl htx hfin hok
  | dies => cases hlive
  | begin hdec hfirst htx => exact .still fun q _ => .begin hdec hfirst htx
  | served hdec hfirst h => exact h.local hrun hdec hfirst

end Local

/-! ## Disjoint footprints -/

section Worlds

variable {ι : Type} {w w' : World ι} {i j : ι} {a b : Input} {e : Event ι}

/-- Locked tables were allocated. -/
theorem WellLocked.locked_lt (hw : WellLocked w) {k : ι} {t : Ptr}
    (ht : t ∈ (w.sessions k).lockedTables) : t < w.server.next := by
  have hheld := (hw.held t k).mpr ht
  by_contra hge
  rw [hw.fresh t (Nat.le_of_not_lt hge)] at hheld
  cases hheld

theorem WellLocked.touched_lt (hw : WellLocked w) {t : Ptr}
    (ht : Touched a (w.sessions i) w.server t) : t < w.server.next := by
  rcases ht with ht | ⟨name, -, hname⟩
  · exact hw.locked_lt ht
  · exact hw.names name t hname

/-- Input `a` of client `i` and input `b` of client `j` use different tables. -/
structure Apart (w : World ι) (i j : ι) (a b : Input) : Prop where
  tables : ∀ t, Touched a (w.sessions i) w.server t → ¬ Touched b (w.sessions j) w.server t
  names : ∀ name, carried a = some name → carried b ≠ some name

theorem Apart.symm (h : Apart w i j a b) : Apart w j i b a :=
  ⟨fun t hb ha => h.tables t ha hb, fun name hb ha => h.names name ha hb⟩

/-- **Disjoint footprints are disjoint in memory**: a table is locked by one client only, and has one
    name only. -/
theorem WellLocked.apart (hw : WellLocked w) (hone : OneName w) (hij : i ≠ j)
    (hdis : ∀ name, name ∈ footprint w i a → name ∉ footprint w j b) : Apart w i j a b := by
  have hboth : ∀ {name}, name ∈ footprint w i a → name ∉ footprint w j b := fun ha => hdis _ ha
  constructor
  · rintro t (hi | ⟨name, ha, hname⟩) (hj | ⟨name', hb, hname'⟩)
    · -- locked by both
      exact hij (Option.some.inj (((hw.held t i).mpr hi).symm.trans ((hw.held t j).mpr hj)))
    · exact hboth (.inr ⟨t, hi, hname'⟩) (.inl hb)
    · exact hboth (.inl ha) (.inr ⟨t, hj, hname⟩)
    · -- named by both
      obtain rfl := hone name name' t hname hname'
      exact hboth (.inl ha) (.inl hb)
  · intro name ha hb
    exact hboth (.inl ha) (.inl hb)

/-- **The other client finds its footprint as it was.** -/
theorem Apart.agrees (h : Apart w i j a b) (hw : WellLocked w) {c : Change ι}
    (hc : c.Within a (w.sessions i) w.server) :
    Agrees b (w.sessions j) w.server (c.apply w.server) := by
  cases c with
  | writes ts new =>
    constructor
    · rfl
    · rfl
    · intro name hb; rfl
    · intro t ht
      show (if t ∈ ts then new t else w.server.tables t) = w.server.tables t
      rw [if_neg fun hmem => h.tables t (hc t hmem) ht]
  | creates name =>
    constructor
    · rfl
    · rfl
    · intro name' hb
      have hne : name' ≠ name := by
        rintro rfl
        exact h.names _ hc hb
      exact Server.findTable_createTable_ne _ hne
    · -- the new table is at an address that no request has touched yet
      intro t ht
      exact Server.tables_createTable_ne _ _ _ (Nat.ne_of_lt (hw.touched_lt ht))

variable [DecidableEq ι]

theorem Run.oneName {h : List (Event ι)} (hrun : Run {} h w) : OneName w := by
  induction hrun with
  | nil => exact oneName_start
  | snoc hrun hstep ih =>
    have hw := hrun.wellLocked wellLocked_start
    exact ih.deed hw (hw.request hstep) rfl

/-- A request locks no table that it has just made. -/
theorem WellLocked.locked_lt_step (hw : WellLocked w) (h : w.request i a = some (e, w')) {k : ι}
    {t : Ptr} (ht : t ∈ (w'.sessions k).lockedTables) : t < w.server.next := by
  obtain ⟨-, -, -, hsessions, -⟩ := World.request_inv h
  by_cases hk : k = i
  · subst hk
    cases (hw.request h).relock (hw.fresh _ le_rfl) hw.names with
    | same hl => exact hw.locked_lt (hl ▸ ht)
    | freed hl => rw [hl] at ht; cases ht
    | taken _ hlt hl =>
      rw [hl] at ht
      rcases List.mem_insert_iff.mp ht with rfl | ht
      · exact hlt
      · exact hw.locked_lt ht
  · rw [hsessions, Function.update_of_ne hk] at ht
    exact hw.locked_lt ht

end Worlds

/-! ## The changes commute -/

section Changes

variable {ι : Type} {srv srv' : Server ι}

theorem Server.Renamed.of_eq (h : srv = srv') : srv.Renamed (.refl Ptr) srv' := by
  subst h
  refine ⟨fun name => ?_, fun _ => rfl, rfl, rfl, rfl⟩
  cases srv.findTable name <;> rfl

/-- A renaming does not show: every name leads to a table with the same content. -/
theorem Server.Renamed.byName {ρ : Equiv.Perm Ptr} (h : srv.Renamed ρ srv') (name : Str) :
    (srv'.findTable name).map srv'.tables = (srv.findTable name).map srv.tables := by
  rw [h.names name]
  cases srv.findTable name with
  | none => rfl
  | some t => rw [Option.map_some, Option.map_some, Option.map_some, h.tables t]

namespace Change

theorem writes_comm {ts us : List Ptr} (new new' : Ptr → Table ι) (h : ∀ t ∈ ts, t ∉ us) :
    (writes us new').apply ((writes ts new).apply srv)
      = (writes ts new).apply ((writes us new').apply srv) := by
  refine Server.ext rfl ?_ rfl rfl rfl
  funext t
  show (if t ∈ us then new' t else if t ∈ ts then new t else srv.tables t)
    = if t ∈ ts then new t else if t ∈ us then new' t else srv.tables t
  by_cases ht : t ∈ ts
  · rw [if_neg (h t ht), if_pos ht, if_pos ht]
  · rw [if_neg ht, if_neg ht]

theorem writes_creates_comm {ts : List Ptr} (new : Ptr → Table ι) (name : Str)
    (h : ∀ t ∈ ts, t < srv.next) :
    (creates name).apply ((writes ts new).apply srv)
      = (writes ts new).apply ((creates name).apply srv) := by
  refine Server.ext rfl ?_ rfl rfl rfl
  funext t
  show update (fun t => if t ∈ ts then new t else srv.tables t) srv.next {} t
    = if t ∈ ts then new t else update srv.tables srv.next {} t
  by_cases ht : t = srv.next
  · subst ht
    rw [Function.update_self, Function.update_self, if_neg fun hmem => Nat.lt_irrefl _ (h _ hmem)]
  · rw [Function.update_of_ne ht, Function.update_of_ne ht]

/-- Two new tables: the addresses are swapped. -/
theorem creates_comm {name name' : Str} (hne : name ≠ name')
    (hnames : ∀ n t, srv.findTable n = some t → t < srv.next) :
    ((srv.createTable name).createTable name').Renamed (Equiv.swap srv.next (srv.next + 1))
      ((srv.createTable name').createTable name) := by
  have hold : ∀ t, t ≠ srv.next → t ≠ srv.next + 1 → ∀ n n',
      ((srv.createTable n).createTable n').tables t = srv.tables t := fun t h h' n n' => by
    rw [Server.tables_createTable_ne _ _ _ (show t ≠ (srv.createTable n).next from h'),
      Server.tables_createTable_ne _ _ _ h]
  have hfirst : ∀ n n', ((srv.createTable n).createTable n').tables srv.next = {} := fun n n' => by
    rw [Server.tables_createTable_ne _ _ _
      (show srv.next ≠ (srv.createTable n).next from Nat.ne_of_lt (Nat.lt_succ_self _)),
      Server.tables_createTable]
  have hsecond : ∀ n n', ((srv.createTable n).createTable n').tables (srv.next + 1) = {} :=
    fun n n' => Server.tables_createTable (srv.createTable n) n'
  have hfind : ∀ {n n'}, n ≠ n' →
      ((srv.createTable n).createTable n').findTable n = some srv.next := fun hn => by
    rw [Server.findTable_createTable_ne _ hn, Server.findTable_createTable]
  have hfind' : ∀ n n', ((srv.createTable n).createTable n').findTable n' = some (srv.next + 1) :=
    fun n n' => Server.findTable_createTable (srv.createTable n) n'
  refine ⟨fun n => ?_, fun t => ?_, rfl, rfl, rfl⟩
  · by_cases hn : n = name
    · subst hn
      rw [hfind hne, hfind', Option.map_some, Equiv.swap_apply_left]
    · by_cases hn' : n = name'
      · subst hn'
        rw [hfind' name n, hfind (Ne.symm hne), Option.map_some, Equiv.swap_apply_right]
      · rw [Server.findTable_createTable_ne _ hn, Server.findTable_createTable_ne _ hn',
          Server.findTable_createTable_ne _ hn', Server.findTable_createTable_ne _ hn]
        cases hfound : srv.findTable n with
        | none => rfl
        | some t =>
          have hlt := hnames n t hfound
          rw [Option.map_some, Equiv.swap_apply_of_ne_of_ne (Nat.ne_of_lt hlt)
            (Nat.ne_of_lt (Nat.lt_succ_of_lt hlt))]
  · by_cases ht : t = srv.next
    · rw [ht, Equiv.swap_apply_left, hfirst, hsecond]
    · by_cases ht' : t = srv.next + 1
      · rw [ht', Equiv.swap_apply_right, hfirst, hsecond]
      · rw [Equiv.swap_apply_of_ne_of_ne ht ht', hold t ht ht', hold t ht ht']

end Change

variable {w : World ι} {i j : ι} {a b : Input}

/-- **The changes of two requests that are apart commute**, with the addresses of two new tables
    swapped. -/
theorem Apart.comm (h : Apart w i j a b) (hw : WellLocked w) {c d : Change ι}
    (hc : c.Within a (w.sessions i) w.server) (hd : d.Within b (w.sessions j) w.server) :
    ∃ ρ : Equiv.Perm Ptr,
      (d.apply (c.apply w.server)).Renamed ρ (c.apply (d.apply w.server)) ∧
      (∀ t, t < w.server.next → ρ t = t) ∧
      ((c.apply w.server).next = w.server.next ∨ (d.apply w.server).next = w.server.next →
        ρ = .refl Ptr) := by
  cases c with
  | writes ts new =>
    refine ⟨.refl Ptr, .of_eq ?_, fun _ _ => rfl, fun _ => rfl⟩
    cases d with
    | writes us new' =>
      exact Change.writes_comm new new' fun t ht hu => h.tables t (hc t ht) (hd t hu)
    | creates name =>
      exact Change.writes_creates_comm new name fun t ht => hw.touched_lt (hc t ht)
  | creates name =>
    cases d with
    | writes us new' =>
      refine ⟨.refl Ptr, .of_eq ?_, fun _ _ => rfl, fun _ => rfl⟩
      exact (Change.writes_creates_comm new' name fun t ht => hw.touched_lt (hd t ht)).symm
    | creates name' =>
      have hne : name ≠ name' := by
        rintro rfl
        exact h.names _ hc hd
      refine ⟨_, Change.creates_comm hne hw.names, fun t ht => ?_, fun hnext => ?_⟩
      · exact Equiv.swap_apply_of_ne_of_ne (Nat.ne_of_lt ht) (Nat.ne_of_lt (Nat.lt_succ_of_lt ht))
      · -- both have made a table
        rcases hnext with hnext | hnext <;> exact absurd hnext (Nat.succ_ne_self _)

end Changes

/-! ## Either order -/

section Orders

variable {ι : Type} [DecidableEq ι] {w w₁ w₂ : World ι} {i j : ι} {a b : Input} {e₁ e₂ : Event ι}

/-- An effect is what the request does. -/
theorem World.request_of_effect {s' : Session} {srv' : Server ι}
    (hrun : MayRun i (w.sessions i) w.server)
    (h : Effect i (w.sessions i) w.server a s' srv') :
    w.request i a = some (⟨i, a, w.server, w.sessions i, s'⟩, ⟨srv', update w.sessions i s'⟩) := by
  rw [World.request, if_pos ⟨hrun.isOpen, hrun.live⟩, exec_of_effect hrun h]
  rfl

/-- The request of client `i` is local. -/
theorem WellLocked.local (hw : WellLocked w) (h : w.request i a = some (e₁, w₁))
    (hlive : w₁.server.aborted = false) :
    Locally i (w.sessions i) w.server a (w₁.sessions i) w₁.server := by
  obtain ⟨hopen, hrunning, -, -, he⟩ := World.request_inv h
  have hrun := hw.mayRun hopen hrunning
  exact (effect_of_exec hrun he).local hrun hlive

/-- **The request again, after one of another client.** -/
theorem Apart.request (h : Apart w i j a b) (hw : WellLocked w) (hij : i ≠ j)
    (h₁ : w.request i a = some (e₁, w₁)) (h₂ : w.request j b = some (e₂, w₂)) {c d : Change ι}
    (hc : c.Within a (w.sessions i) w.server) (hsrv : w₁.server = c.apply w.server)
    (hd : ∀ q, Agrees b (w.sessions j) w.server q →
      Effect j (w.sessions j) q b (w₂.sessions j) (d.apply q)) :
    ∃ f₂, w₁.request j b = some (f₂, ⟨d.apply w₁.server, update w₁.sessions j (w₂.sessions j)⟩) ∧
      f₂.after = e₂.after := by
  obtain ⟨hopen, hrunning, hevent, -, -⟩ := World.request_inv h₂
  obtain ⟨-, -, -, hsessions, -⟩ := World.request_inv h₁
  have hsame : w₁.sessions j = w.sessions j := by
    rw [hsessions, Function.update_of_ne (Ne.symm hij)]
  have hagrees : Agrees b (w.sessions j) w.server w₁.server := by
    rw [hsrv]
    exact h.agrees hw hc
  have hmay := (hw.mayRun hopen hrunning).agrees hagrees
  have heffect := hd _ hagrees
  rw [← hsame] at hmay heffect
  exact ⟨_, World.request_of_effect hmay heffect, by rw [hevent]⟩

/-- **Independent requests of different clients commute.**  From every reachable state: two requests
    with disjoint footprints that can both be carried out there, and do not end the process, can be
    carried out in either order; the responses are the same, and so is the state, with the tables
    that were there at their addresses.  No address differs unless both requests have made a
    table. -/
theorem independent_commute {h : List (Event ι)} (hrun : Run {} h w) (hij : i ≠ j)
    (h₁ : w.request i a = some (e₁, w₁)) (h₂ : w.request j b = some (e₂, w₂))
    (hlive₁ : w₁.server.aborted = false) (hlive₂ : w₂.server.aborted = false)
    (hdis : ∀ name, name ∈ footprint w i a → name ∉ footprint w j b) :
    ∃ f₁ f₂ w₁₂ w₂₁, w₁.request j b = some (f₂, w₁₂) ∧ w₂.request i a = some (f₁, w₂₁) ∧
      f₁.after.replies = e₁.after.replies ∧ f₂.after.replies = e₂.after.replies ∧
      ∃ ρ : Equiv.Perm Ptr, w₁₂.Renamed ρ w₂₁ ∧ (∀ t, t < w.server.next → ρ t = t) ∧
        (w₁.server.next = w.server.next ∨ w₂.server.next = w.server.next → ρ = .refl Ptr) := by
  have hw := hrun.wellLocked wellLocked_start
  have hapart := hw.apart hrun.oneName hij hdis
  obtain ⟨c, hc, hsrv₁, heff₁⟩ := hw.local h₁ hlive₁
  obtain ⟨d, hd, hsrv₂, heff₂⟩ := hw.local h₂ hlive₂
  obtain ⟨f₂, hreq₂, hf₂⟩ := hapart.request hw hij h₁ h₂ hc hsrv₁ heff₂
  obtain ⟨f₁, hreq₁, hf₁⟩ := hapart.symm.request hw (Ne.symm hij) h₂ h₁ hd hsrv₂ heff₁
  obtain ⟨ρ, hserver, hfixed, hrefl⟩ := hapart.comm hw hc hd
  rw [← hsrv₁, ← hsrv₂] at hserver hrefl
  refine ⟨f₁, f₂, _, _, hreq₂, hreq₁, by rw [hf₁], by rw [hf₂], ρ, ⟨hserver, fun k => ?_⟩, hfixed,
    hrefl⟩
  obtain ⟨-, -, -, hsessions₁, -⟩ := World.request_inv h₁
  obtain ⟨-, -, -, hsessions₂, -⟩ := World.request_inv h₂
  have hsessions : update w₂.sessions i (w₁.sessions i) k = update w₁.sessions j (w₂.sessions j) k := by
    rw [hsessions₁, hsessions₂, Function.update_self, Function.update_self,
      Function.update_comm hij]
  have hlocked : ∀ t ∈ (update w₁.sessions j (w₂.sessions j) k).lockedTables, ρ t = t := by
    intro t ht
    refine hfixed t ?_
    by_cases hk : k = j
    · subst hk
      rw [Function.update_self] at ht
      exact hw.locked_lt_step h₂ ht
    · rw [Function.update_of_ne hk] at ht
      exact hw.locked_lt_step h₁ ht
  have hmap : ((update w₁.sessions j (w₂.sessions j) k).lockedTables).map ρ
      = (update w₁.sessions j (w₂.sessions j) k).lockedTables :=
    (List.map_congr_left hlocked).trans (List.map_id' _)
  show update w₂.sessions i (w₁.sessions i) k = { update w₁.sessions j (w₂.sessions j) k with
    lockedTables := ((update w₁.sessions j (w₂.sessions j) k).lockedTables).map ρ }
  rw [hsessions, hmap]

/-- One client commits a transaction on a table while another stores a value in a second table. -/
theorem independent_commute_commit : ∃ (h : List (Event Bool)) (w w₁ w₂ : World Bool)
    (e₁ e₂ : Event Bool), Run {} h w ∧
    w.request false (.line "COMMIT\n".toList) = some (e₁, w₁) ∧
    w.request true (.line "SET orders k\n".toList) = some (e₂, w₂) ∧
    e₁.after.replies = [okLine] ∧ e₂.after.replies = [okLine] ∧
    ∃ f₁ f₂ w₁₂ w₂₁, w₁.request true (.line "SET orders k\n".toList) = some (f₂, w₁₂) ∧
      w₂.request false (.line "COMMIT\n".toList) = some (f₁, w₂₁) ∧
      f₁.after.replies = [okLine] ∧ f₂.after.replies = [okLine] ∧
      w₁₂.Renamed (.refl Ptr) w₂₁ := by
  have hperform : (({} : World Bool).perform
      ([(true, "PUSH 2\n"), (true, "LOGIN b\n"), (false, "SET accounts k\n"), (false, "PUSH 1\n"),
        (false, "BEGIN\n"), (false, "CREATE orders\n"), (false, "CREATE accounts\n"),
        (false, "LOGIN a\n")].map fun r => (r.1, .line r.2.toList))).any
      (fun r => decide ((r.2.sessions false).lockedTables = [0] ∧ (r.2.sessions true).lockedTables = []
          ∧ r.2.server.findTable "orders".toList = some 1) &&
        ((r.2.request false (.line "COMMIT\n".toList)).any fun r' =>
          decide (r'.2.server.aborted = false ∧ r'.1.after.replies = [okLine] ∧
            r'.2.server.next = r.2.server.next)) &&
        (r.2.request true (.line "SET orders k\n".toList)).any fun r' =>
          decide (r'.2.server.aborted = false ∧ r'.1.after.replies = [okLine])) = true := by
    decide +kernel
  obtain ⟨h, w, hrun, hw⟩ := Run.of_any hperform
  obtain ⟨hw, hset⟩ := Bool.and_eq_true_iff.mp hw
  obtain ⟨hstate, hcommit⟩ := Bool.and_eq_true_iff.mp hw
  obtain ⟨hfalse, htrue, horders⟩ := of_decide_eq_true hstate
  obtain ⟨⟨e₁, w₁⟩, h₁, hval₁⟩ := (Option.any_eq_true _ _).mp hcommit
  obtain ⟨⟨e₂, w₂⟩, h₂, hval₂⟩ := (Option.any_eq_true _ _).mp hset
  obtain ⟨hlive₁, hok₁, hnext⟩ := of_decide_eq_true hval₁
  obtain ⟨hlive₂, hok₂⟩ := of_decide_eq_true hval₂
  have hdis : ∀ name, name ∈ footprint w false (.line "COMMIT\n".toList) →
      name ∉ footprint w true (.line "SET orders k\n".toList) := by
    rintro name (hc | ⟨t, ht, hname⟩) (hc' | ⟨t', ht', -⟩)
    · have hnone : carried (.line "COMMIT\n".toList) = none := by decide
      rw [hnone] at hc
      cases hc
    · rw [htrue] at ht'; cases ht'
    · rw [show carried (.line "SET orders k\n".toList) = some "orders".toList by decide] at hc'
      obtain rfl := Option.some.inj hc'
      rw [hfalse] at ht
      rw [horders, List.mem_singleton.mp ht] at hname
      exact absurd hname (by decide)
    · rw [htrue] at ht'; cases ht'
  obtain ⟨f₁, f₂, w₁₂, w₂₁, hreq₂, hreq₁, hf₁, hf₂, ρ, hrenamed, -, hrefl⟩ :=
    independent_commute hrun (by decide) h₁ h₂ hlive₁ hlive₂ hdis
  rw [hrefl (.inl hnext)] at hrenamed
  exact ⟨h, w, w₁, w₂, e₁, e₂, hrun, h₁, h₂, hok₁, hok₂, f₁, f₂, w₁₂, w₂₁, hreq₂, hreq₁,
    hf₁.trans hok₁, hf₂.trans hok₂, hrenamed⟩

end Orders

end BasicServer
