/-
  The server beside the one that carries out whole requests.

  While requests are under way the two differ.  A thread knows the tables whose mutex it holds, as
  they are and as the atomic server has them (`Knowledge`); all other tables are the same on both sides.
  `Mirrors` is this relation.  It is kept by

  1. what a thread does to a table of its own, or to a free one (`Mirrors.put`);
  2. the critical section of CREATE (`Mirrors.setMaker`);
  3. a request of the atomic server that changes only tables of the thread (`Mirrors.act`);
  4. the steps that both make at once: a table is created, the process ends (`Mirrors.create`,
     `Mirrors.abort`).
-/
import BasicServer.World

namespace BasicServer

open Function (update)

/-! ## What a thread knows while it is at work -/

/-- A thread's own: its session, as the atomic server has it; the tables whose mutex it holds, as
    they are and as the atomic server has them; a table it has looked up; and whether it is in the
    critical section of CREATE, and then the name that it has not found. -/
structure Knowledge (ι : Type) where
  session : Session := {}
  view : Ptr → Option (Table ι × Table ι) := fun _ => none
  found : Option (Str × Ptr) := none
  making : Option (Option Str) := none

/-- Replace what is known of one table. -/
def Knowledge.put {ι : Type} (g : Knowledge ι) (t : Ptr) (v : Option (Table ι × Table ι)) : Knowledge ι :=
  { g with view := update g.view t v }

@[simp] theorem Knowledge.view_put {ι : Type} (g : Knowledge ι) (t : Ptr) (v : Option (Table ι × Table ι)) :
    (g.put t v).view t = v := Function.update_self ..

theorem Knowledge.view_put_ne {ι : Type} (g : Knowledge ι) {t t' : Ptr} {v : Option (Table ι × Table ι)}
    (ht : t' ≠ t) : (g.put t v).view t' = g.view t' := Function.update_of_ne ht ..

theorem Knowledge.put_self {ι : Type} {g : Knowledge ι} {t : Ptr} {v : Option (Table ι × Table ι)}
    (hv : g.view t = v) : g.put t v = g := by
  subst hv
  unfold Knowledge.put
  rw [Function.update_eq_self]

/-- The server against the atomic one. -/
structure Mirrors {ι : Type} (srv : Server ι) (w : World ι) (γ : ι → Knowledge ι) : Prop where
  locked : WellLocked w
  names : w.server.tableNames = srv.tableNames
  next : w.server.next = srv.next
  aborted : w.server.aborted = srv.aborted
  session : ∀ i, w.sessions i = (γ i).session
  free : ∀ t, (srv.tables t).mutex = none → w.server.tables t = srv.tables t
  held : ∀ t i, (srv.tables t).mutex = some i →
    (γ i).view t = some (srv.tables t, w.server.tables t)
  view : ∀ i t p, (γ i).view t = some p → (srv.tables t).mutex = some i
  -- the atomic server has no other holder
  mine : ∀ t i j, (srv.tables t).mutex = some i → (w.server.tables t).mutex = some j → j = i
  maker : ∀ i, srv.mutex = some i ↔ (γ i).making.isSome = true
  found : ∀ i name t, (γ i).found = some (name, t) → srv.findTable name = some t
  absent : ∀ i name, (γ i).making = some (some name) → srv.findTable name = none
  fresh : ∀ t, srv.next ≤ t → (srv.tables t).mutex = none

namespace Mirrors

variable {ι : Type} {srv : Server ι} {w : World ι} {γ : ι → Knowledge ι} {i : ι}

theorem findTable (h : Mirrors srv w γ) (name : Str) :
    w.server.findTable name = srv.findTable name := by
  rw [Server.findTable, h.names]
  rfl

/-- A table that a name leads to is allocated. -/
theorem lt_next (h : Mirrors srv w γ) {name : Str} {t : Ptr} (ht : srv.findTable name = some t) :
    t < srv.next := by
  rw [← h.next]
  exact h.locked.names name t ((h.findTable name).trans ht)

theorem lt_of_mutex (h : Mirrors srv w γ) {t : Ptr} (hm : (srv.tables t).mutex = some i) :
    t < srv.next := by
  by_contra hle
  rw [h.fresh t (Nat.not_lt.mp hle)] at hm
  cases hm

/-- What a thread knows of a table is so. -/
theorem seen (h : Mirrors srv w γ) {t : Ptr} {table a : Table ι}
    (hv : (γ i).view t = some (table, a)) :
    (srv.tables t).mutex = some i ∧ table = srv.tables t ∧ a = w.server.tables t := by
  have hm := h.view i t _ hv
  obtain ⟨htable, ha⟩ := Prod.mk.inj (Option.some.inj (hv.symm.trans (h.held t i hm)))
  exact ⟨hm, htable, ha⟩

variable [DecidableEq ι]

theorem same (h : Mirrors srv w γ) : Mirrors srv w (update γ i (γ i)) := by
  rw [Function.update_eq_self]
  exact h

/-- Thread `i` learns something that is no table. -/
theorem learn (h : Mirrors srv w γ) {g : Knowledge ι} (hs : g.session = (γ i).session)
    (hv : g.view = (γ i).view) (hm : g.making.isSome = (γ i).making.isSome)
    (hf : ∀ name t, g.found = some (name, t) → srv.findTable name = some t)
    (ha : ∀ name, g.making = some (some name) → srv.findTable name = none) :
    Mirrors srv w (update γ i g) := by
  have hsame : ∀ j, (update γ i g j).session = (γ j).session ∧ (update γ i g j).view = (γ j).view ∧
      (update γ i g j).making.isSome = (γ j).making.isSome := by
    intro j
    by_cases hj : j = i
    · subst hj; rw [Function.update_self]; exact ⟨hs, hv, hm⟩
    · rw [Function.update_of_ne hj]; exact ⟨rfl, rfl, rfl⟩
  exact { h with
    session := fun j => by rw [(hsame j).1]; exact h.session j
    held := fun t j hj => by rw [(hsame j).2.1]; exact h.held t j hj
    view := fun j t p hp => h.view j t p (by rw [← (hsame j).2.1]; exact hp)
    maker := fun j => by rw [(hsame j).2.2]; exact h.maker j
    found := fun j name t hj => by
      by_cases hji : j = i
      · subst hji; rw [Function.update_self] at hj; exact hf name t hj
      · rw [Function.update_of_ne hji] at hj; exact h.found j name t hj
    absent := fun j name hj => by
      by_cases hji : j = i
      · subst hji; rw [Function.update_self] at hj; exact ha name hj
      · rw [Function.update_of_ne hji] at hj; exact h.absent j name hj }

/-- Thread `i` replaces a table that is its own or free, with its mutex. -/
theorem put (h : Mirrors srv w γ) {t : Ptr} {table : Table ι} {v : Option (Table ι × Table ι)}
    (hold : (srv.tables t).mutex = none ∨ (srv.tables t).mutex = some i) (hlt : t < srv.next)
    (hnew : table.mutex = none ∧ w.server.tables t = table ∧ v = none ∨
      table.mutex = some i ∧ v = some (table, w.server.tables t)) :
    Mirrors (srv.setTable t table) w (update γ i ((γ i).put t v)) := by
  have hother : ∀ {t'}, t' ≠ t → (srv.setTable t table).tables t' = srv.tables t' :=
    fun ht => Server.tables_setTable_ne _ _ _ ht
  have hsame : ∀ j, (update γ i ((γ i).put t v) j).session = (γ j).session ∧
      (update γ i ((γ i).put t v) j).found = (γ j).found ∧
      (update γ i ((γ i).put t v) j).making = (γ j).making ∧
      ∀ t', t' ≠ t ∨ j ≠ i → (update γ i ((γ i).put t v) j).view t' = (γ j).view t' := by
    intro j
    by_cases hj : j = i
    · subst hj
      rw [Function.update_self]
      refine ⟨rfl, rfl, rfl, fun t' ht => ?_⟩
      exact Function.update_of_ne (ht.resolve_right fun hne => hne rfl) _ _
    · rw [Function.update_of_ne hj]
      exact ⟨rfl, rfl, rfl, fun _ _ => rfl⟩
  have hself : (update γ i ((γ i).put t v) i).view t = v := by
    rw [Function.update_self]
    exact Function.update_self ..
  -- nobody but `i` knows anything of the table
  have halone : ∀ {j p}, j ≠ i → (γ j).view t ≠ some p := by
    intro j p hj hp
    have hm := h.view j t p hp
    rcases hold with hno | hi
    · rw [hno] at hm; cases hm
    · rw [hi] at hm; exact hj (Option.some.inj hm).symm
  have hmine : ∀ j, (w.server.tables t).mutex = some j → j = i := by
    intro j hj
    rcases hold with hno | hi
    · rw [h.free t hno, hno] at hj; cases hj
    · exact h.mine t i j hi hj
  refine { h with session := ?_, free := ?_, held := ?_, view := ?_, mine := ?_, maker := ?_,
                  found := ?_, absent := ?_, fresh := ?_ }
  · intro j; rw [(hsame j).1]; exact h.session j
  · intro t' ht'
    by_cases ht : t' = t
    · subst ht
      rw [Server.tables_setTable] at ht' ⊢
      rcases hnew with ⟨-, heq, -⟩ | ⟨hm, -⟩
      · exact heq
      · rw [hm] at ht'; cases ht'
    · rw [hother ht] at ht' ⊢
      exact h.free t' ht'
  · intro t' j hj
    by_cases ht : t' = t
    · subst ht
      rw [Server.tables_setTable] at hj ⊢
      rcases hnew with ⟨hm, -⟩ | ⟨hm, hv⟩
      · rw [hm] at hj; cases hj
      · obtain rfl := Option.some.inj (hm.symm.trans hj)
        rw [hself, hv]
    · rw [hother ht] at hj ⊢
      rw [(hsame j).2.2.2 t' (.inl ht)]
      exact h.held t' j hj
  · intro j t' p hp
    by_cases ht : t' = t
    · subst ht
      rw [Server.tables_setTable]
      by_cases hj : j = i
      · subst hj
        rw [hself] at hp
        rcases hnew with ⟨-, -, hv⟩ | ⟨hm, -⟩
        · rw [hv] at hp; cases hp
        · exact hm
      · rw [(hsame j).2.2.2 t' (.inr hj)] at hp
        exact absurd hp (halone hj)
    · rw [hother ht]
      rw [(hsame j).2.2.2 t' (.inl ht)] at hp
      exact h.view j t' p hp
  · intro t' j k hj hk
    by_cases ht : t' = t
    · subst ht
      rw [Server.tables_setTable] at hj
      rcases hnew with ⟨hm, -⟩ | ⟨hm, -⟩
      · rw [hm] at hj; cases hj
      · obtain rfl := Option.some.inj (hm.symm.trans hj)
        exact hmine k hk
    · rw [hother ht] at hj
      exact h.mine t' j k hj hk
  · intro j; rw [(hsame j).2.2.1]; exact h.maker j
  · intro j name t' hj
    rw [(hsame j).2.1] at hj
    exact h.found j name t' hj
  · intro j name hj
    rw [(hsame j).2.2.1] at hj
    exact h.absent j name hj
  · intro t' ht'
    have hne : t' ≠ t := by
      have hle : srv.next ≤ t' := ht'
      rintro rfl
      exact absurd hlt (Nat.not_lt.mpr hle)
    rw [hother hne]
    exact h.fresh t' ht'

/-- Thread `i` enters the critical section of CREATE, or leaves it. -/
theorem setMaker (h : Mirrors srv w γ) {m : Option ι} {b : Option (Option Str)}
    (hm : ∀ j, m = some j ↔ (if j = i then b else (γ j).making).isSome = true)
    (hb : ∀ name, b = some (some name) → srv.findTable name = none) :
    Mirrors { srv with mutex := m } w (update γ i { γ i with making := b }) := by
  have hsame : ∀ j, (update γ i { γ i with making := b } j).session = (γ j).session ∧
      (update γ i { γ i with making := b } j).view = (γ j).view ∧
      (update γ i { γ i with making := b } j).found = (γ j).found ∧
      (update γ i { γ i with making := b } j).making = if j = i then b else (γ j).making := by
    intro j
    by_cases hj : j = i
    · subst hj; simp
    · simp [hj]
  constructor
  case locked => exact h.locked
  case names => exact h.names
  case next => exact h.next
  case aborted => exact h.aborted
  case session => intro j; rw [(hsame j).1]; exact h.session j
  case free => exact h.free
  case held => intro t j hj; rw [(hsame j).2.1]; exact h.held t j hj
  case view => intro j t p hp; rw [(hsame j).2.1] at hp; exact h.view j t p hp
  case mine => exact h.mine
  case maker => intro j; rw [(hsame j).2.2.2]; exact hm j
  case found => intro j name t hj; rw [(hsame j).2.2.1] at hj; exact h.found j name t hj
  case absent =>
    intro j name hj
    rw [(hsame j).2.2.2] at hj
    by_cases hji : j = i
    · rw [if_pos hji] at hj; exact hb name hj
    · rw [if_neg hji] at hj; exact h.absent j name hj
  case fresh => exact h.fresh

/-- The atomic server carries out a request of thread `i`, which changes no tables but the
    thread's. -/
theorem act (h : Mirrors srv w γ) {s' : Session} {f : Ptr → Table ι → Table ι}
    (hw : WellLocked (⟨{ w.server with tables := fun t => f t (w.server.tables t) },
      update w.sessions i s'⟩ : World ι))
    (hf : ∀ t table, (γ i).view t = none → f t table = table)
    (hmutex : ∀ t j table a, (γ i).view t = some (table, a) → f t a ≠ a →
      (f t a).mutex = some j → j = i) :
    Mirrors srv ⟨{ w.server with tables := fun t => f t (w.server.tables t) },
        update w.sessions i s'⟩
      (update γ i { γ i with
        session := s', view := fun t => ((γ i).view t).map fun p => (p.1, f t p.2) }) := by
  have hnone : ∀ {t}, (srv.tables t).mutex ≠ some i → (γ i).view t = none := by
    intro t ht
    cases hv : (γ i).view t with
    | none => rfl
    | some p => exact absurd (h.view i t p hv) ht
  constructor
  case locked => exact hw
  case names => exact h.names
  case next => exact h.next
  case aborted => exact h.aborted
  case session =>
    intro j
    by_cases hj : j = i
    · subst hj; simp
    · simp only [Function.update_of_ne hj]; exact h.session j
  case free =>
    intro t ht
    show f t (w.server.tables t) = _
    rw [hf t _ (hnone (by rw [ht]; exact nofun))]
    exact h.free t ht
  case held =>
    intro t j hj
    show _ = some (srv.tables t, f t (w.server.tables t))
    by_cases hji : j = i
    · subst hji
      simp only [Function.update_self, h.held t j hj, Option.map_some]
    · rw [Function.update_of_ne hji, h.held t j hj,
        hf t _ (hnone (by rw [hj]; exact fun heq => hji (Option.some.inj heq)))]
  case view =>
    intro j t p hp
    by_cases hji : j = i
    · subst hji
      simp only [Function.update_self] at hp
      obtain ⟨q, hq, -⟩ := Option.map_eq_some_iff.mp hp
      exact h.view j t q hq
    · rw [Function.update_of_ne hji] at hp
      exact h.view j t p hp
  case mine =>
    intro t j k hj hk
    have hk' : (f t (w.server.tables t)).mutex = some k := hk
    by_cases heq : f t (w.server.tables t) = w.server.tables t
    · rw [heq] at hk'
      exact h.mine t j k hj hk'
    · have hji : j = i := by
        by_contra hne
        exact heq (hf t _ (hnone (by rw [hj]; exact fun heq => hne (Option.some.inj heq))))
      subst hji
      exact hmutex t k _ _ (h.held t j hj) heq hk'
  case maker =>
    intro j
    by_cases hji : j = i
    · subst hji; simp only [Function.update_self]; exact h.maker j
    · simp only [Function.update_of_ne hji]; exact h.maker j
  case found =>
    intro j name t hj
    by_cases hji : j = i
    · subst hji; simp only [Function.update_self] at hj; exact h.found j name t hj
    · simp only [Function.update_of_ne hji] at hj; exact h.found j name t hj
  case absent =>
    intro j name hj
    by_cases hji : j = i
    · subst hji; simp only [Function.update_self] at hj; exact h.absent j name hj
    · simp only [Function.update_of_ne hji] at hj; exact h.absent j name hj
  case fresh => exact h.fresh

/-- Both servers create a table. -/
theorem create (h : Mirrors srv w γ) {name : Str} {s' : Session}
    (hmaking : (γ i).making = some (some name))
    (hw : WellLocked (⟨w.server.createTable name, update w.sessions i s'⟩ : World ι)) :
    Mirrors (srv.createTable name) ⟨w.server.createTable name, update w.sessions i s'⟩
      (update γ i { γ i with session := s', making := some none }) := by
  have habsent := h.absent i name hmaking
  have hsection : srv.mutex = some i := (h.maker i).mpr (by rw [hmaking]; rfl)
  have hne : ∀ {t j}, ((srv.createTable name).tables t).mutex = some j → t ≠ srv.next := by
    rintro t j hj rfl
    rw [Server.tables_createTable] at hj
    cases hj
  have hthere : ∀ {t}, t ≠ srv.next → (srv.createTable name).tables t = srv.tables t ∧
      (w.server.createTable name).tables t = w.server.tables t := by
    intro t ht
    exact ⟨Server.tables_createTable_ne _ _ _ ht,
      Server.tables_createTable_ne _ _ _ (by rw [h.next]; exact ht)⟩
  have hsame : ∀ j, (update γ i { γ i with session := s', making := some none } j).view = (γ j).view ∧
      (update γ i { γ i with session := s', making := some none } j).found = (γ j).found ∧
      (update γ i { γ i with session := s', making := some none } j).making.isSome
        = (γ j).making.isSome := by
    intro j
    by_cases hj : j = i
    · subst hj; simp [hmaking]
    · simp [hj]
  constructor
  case locked => exact hw
  case names =>
    show w.server.tableNames.insert name w.server.next = srv.tableNames.insert name srv.next
    rw [h.names, h.next]
  case next =>
    show w.server.next + 1 = srv.next + 1
    rw [h.next]
  case aborted => exact h.aborted
  case session =>
    intro j
    by_cases hj : j = i
    · subst hj; simp
    · simp only [Function.update_of_ne hj]; exact h.session j
  case free =>
    intro t ht
    by_cases hnew : t = srv.next
    · rw [hnew, Server.tables_createTable, ← h.next]
      exact Server.tables_createTable ..
    · rw [(hthere hnew).1] at ht ⊢
      exact (hthere hnew).2.trans (h.free t ht)
  case held =>
    intro t j hj
    have hold := hthere (hne hj)
    show _ = some (_, (w.server.createTable name).tables t)
    rw [hold.1] at hj ⊢
    rw [hold.2, (hsame j).1]
    exact h.held t j hj
  case view =>
    intro j t p hp
    rw [(hsame j).1] at hp
    have hm := h.view j t p hp
    rw [(hthere (Nat.ne_of_lt (h.lt_of_mutex hm))).1]
    exact hm
  case mine =>
    intro t j k hj hk
    have hold := hthere (hne hj)
    have hk' : ((w.server.createTable name).tables t).mutex = some k := hk
    rw [hold.1] at hj
    rw [hold.2] at hk'
    exact h.mine t j k hj hk'
  case maker => intro j; rw [(hsame j).2.2]; exact h.maker j
  case found =>
    intro j name' t hj
    rw [(hsame j).2.1] at hj
    have hf := h.found j name' t hj
    have hname : name' ≠ name := by
      rintro rfl
      rw [habsent] at hf
      cases hf
    rw [Server.findTable_createTable_ne _ hname]
    exact hf
  case absent =>
    intro j name' hj
    by_cases hji : j = i
    · subst hji; simp at hj
    · -- nobody else is in the critical section
      simp only [Function.update_of_ne hji] at hj
      have hj' := (h.maker j).mpr (by rw [hj]; rfl)
      rw [hsection] at hj'
      exact absurd (Option.some.inj hj').symm hji
  case fresh =>
    intro t ht
    have hlt : srv.next < t := ht
    rw [(hthere (Nat.ne_of_gt hlt)).1]
    exact h.fresh t (Nat.le_of_lt hlt)

/-- Both processes end. -/
theorem abort (h : Mirrors srv w γ) {s' : Session}
    (hw : WellLocked (⟨{ w.server with aborted := true }, update w.sessions i s'⟩ : World ι)) :
    Mirrors { srv with aborted := true } ⟨{ w.server with aborted := true }, update w.sessions i s'⟩
      (update γ i { γ i with session := s' }) := by
  have hsame : ∀ j, (update γ i { γ i with session := s' } j).view = (γ j).view ∧
      (update γ i { γ i with session := s' } j).found = (γ j).found ∧
      (update γ i { γ i with session := s' } j).making = (γ j).making := by
    intro j
    by_cases hj : j = i
    · subst hj; simp
    · simp [hj]
  constructor
  case locked => exact hw
  case names => exact h.names
  case next => exact h.next
  case aborted => rfl
  case session =>
    intro j
    by_cases hj : j = i
    · subst hj; simp
    · simp only [Function.update_of_ne hj]; exact h.session j
  case free => exact h.free
  case held => intro t j hj; rw [(hsame j).1]; exact h.held t j hj
  case view => intro j t p hp; rw [(hsame j).1] at hp; exact h.view j t p hp
  case mine => exact h.mine
  case maker => intro j; rw [(hsame j).2.2]; exact h.maker j
  case found => intro j name t hj; rw [(hsame j).2.1] at hj; exact h.found j name t hj
  case absent => intro j name hj; rw [(hsame j).2.2] at hj; exact h.absent j name hj
  case fresh => exact h.fresh

end Mirrors

end BasicServer
