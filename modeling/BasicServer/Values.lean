/-
  TOP can always be answered.

  A value travels from a PUSH line or an arithmetic result over the stacks and the tables of the
  server to other stacks, and TOP sends it in a DATA line.  `Servable` is what it needs for that: to
  be a word, and to fit.  The bound is tight, because PUSH and DATA have keywords of one length.

  1. **Sources** (`servable_push`, `servable_toStr`) — what is pushed, and every printed `int`.
  2. **Outline** (`valueOutline`) — no call stores anything else, and so no call finds anything else.
  3. **Runs** (`values_servable`) — all strings on all stacks and in all tables are servable, and TOP
     answers with a line that decodes to what was on top.
-/
import BasicServer.Arithmetic

namespace BasicServer

open Message (maxEncodedLen)
open Words (IsWord)

/-- A word that fits in a DATA line. -/
def Servable (v : Str) : Prop := IsWord isspace v ∧ (dataLine v).length ≤ maxEncodedLen

/-- Everything on the stack is servable. -/
def Stacked (s : Session) : Prop := ∀ v ∈ s.stack, Servable v

/-- Everything in the table, committed or pending, is servable. -/
def Table.Stored {ι : Type} (t : Table ι) : Prop :=
  ∀ k v, t.keyValuePairs.lookup k = some v ∨ t.proposedPairs.lookup k = some v → Servable v

/-! ## Sources -/

/-- The argument of a PUSH that was decoded. -/
theorem servable_push {buf v : Str} (h : decode buf {} = .ok ⟨.push, [v]⟩) : Servable v := by
  obtain ⟨w, hw, hargs, hle⟩ := decode_shape h (by simp)
  obtain ⟨hlen, -⟩ := decode_size h
  obtain rfl := Except.ok.inj hw
  refine ⟨hargs v (List.mem_singleton_self v), ?_⟩
  rw [length_lineOf_one] at hle
  rw [dataLine, length_lineOf_one]
  have hkeyword : "PUSH".toList.length = "DATA".toList.length := rfl
  omega

/-- A printed `int`. -/
theorem servable_toStr {n : Int} (h : FitsInt n) : Servable (toStr n) := by
  have hdigits : ∀ c ∈ toStr n, c = '-' ∨ c.isDigit = true := by
    intro c hc
    rw [toStr] at hc
    split at hc
    · rcases List.mem_cons.mp hc with rfl | hc
      · exact .inl rfl
      · exact .inr (Nat.isDigit_of_mem_toDigits (by omega) (Nat.le_refl 10) hc)
    · exact .inr (Nat.isDigit_of_mem_toDigits (by omega) (Nat.le_refl 10) hc)
  have hlen : (Nat.toDigits 10 n.natAbs).length ≤ 10 := by
    rw [Nat.length_toDigits_le_iff (by decide) (by decide)]
    unfold FitsInt intMin intMax at h
    omega
  have hlen' : (toStr n).length ≤ 11 := by
    rw [toStr]
    split
    · rw [List.length_cons]
      omega
    · omega
  refine ⟨⟨?_, fun c hc => ?_⟩, ?_⟩
  · intro hnil
    rw [toStr] at hnil
    split at hnil
    · cases hnil
    · exact Nat.toDigits_ne_nil hnil
  · cases hs : isspace c with
    | false => rfl
    | true =>
      exfalso
      have hc' := hdigits c hc
      simp only [isspace, Bool.or_eq_true, decide_eq_true_eq] at hs
      rcases hs with ((((rfl | rfl) | rfl) | rfl) | rfl) | rfl <;> exact absurd hc' (by decide)
  · rw [dataLine, length_lineOf_one]
    have hkeyword : "DATA".toList.length = 4 := rfl
    unfold maxEncodedLen
    omega

/-- The result of an operation on `int`s is an `int`. -/
theorem fitsInt_op {t : MessageType} {op : Int → Int → Except Exn Int} {few : Str} {n m k : Int}
    (ht : arith t = some (op, few)) (hn : FitsInt n) (hop : op n m = .ok k) : FitsInt k := by
  obtain ⟨e, -, rfl⟩ := op_exact ht hn hop
  exact fitsInt_wrap e

/-- The requests on the stack push nothing else. -/
theorem Computes.stacked {buf : Str} {msg : Message} {st st' : List Str} {line : Str}
    (hdec : decode buf {} = .ok msg) (h : Computes msg st st' line) (hst : ∀ v ∈ st, Servable v) :
    ∀ v ∈ st', Servable v := by
  cases h with
  | push =>
    intro v hv
    rcases List.mem_cons.mp hv with rfl | hv
    · exact servable_push hdec
    · exact hst v hv
  | pop => exact fun v hv => hst v (List.mem_cons_of_mem _ hv)
  | top => exact hst
  | arith ht hr hl hop =>
    -- the result is an `int` again, and `std::to_string` writes it
    intro v hv
    rcases List.mem_cons.mp hv with rfl | hv
    · exact servable_toStr (fitsInt_op ht (fitsInt_of_stoi hl) hop)
    · exact hst v (List.mem_cons_of_mem _ (List.mem_cons_of_mem _ hv))

/-- Nor do they if they are refused. -/
theorem Refuses.stacked {msg : Message} {tx : Bool} {st st' : List Str} {what : Str}
    (h : Refuses msg tx st st' what) (hst : ∀ v ∈ st, Servable v) : ∀ v ∈ st', Servable v := by
  cases h with
  | left ht hr hl =>
    -- the right operand is printed anew
    intro v hv
    rcases List.mem_cons.mp hv with rfl | hv
    · exact servable_toStr (fitsInt_of_stoi hr)
    · exact hst v (List.mem_cons_of_mem _ hv)
  | _ => exact hst

theorem Kills.stacked {msg : Message} {st st' : List Str} (h : Kills msg st st')
    (hst : ∀ v ∈ st, Servable v) : ∀ v ∈ st', Servable v := by
  cases h with
  | right => exact hst
  | left => exact fun v hv => hst v (List.mem_cons_of_mem _ hv)
  | divide => exact fun v hv => hst v (List.mem_cons_of_mem _ (List.mem_cons_of_mem _ hv))

/-! ## What the calls store and find -/

/-- What a call may store. -/
def Call.Stores : Call → Prop
  | .set _ _ v => Servable v
  | _ => True

/-- What a call may find. -/
def Call.Finds : (c : Call) → c.Ans → Prop
  | .get _ _, r => (∀ v, r = .ok v → Servable v) ∧
    ∀ e, r = .error e → e = .operationException "Key that does not exist requested".toList
  | _, _ => True

/-- The specification of the calls. -/
def serving : Prog.Spec calls Unit where
  pre o Q g := (Stacked o.self ∧ o.call.Stores) ∧ ∀ r, o.call.Finds r → Q r g
  mono hQ h := ⟨h.1, fun r hr => hQ r _ (h.2 r hr)⟩

section Programs

variable {s : Session}

/-- The rule for a call. -/
theorem serving_ask {α : Type} {c : Call} {k : c.Ans → Prog calls α} {Q : α → Unit → Prop}
    (hs : Stacked s) (hc : c.Stores) (h : ∀ r, c.Finds r → (k r).wp serving Q ()) :
    (Prog.call ⟨c, s⟩ k : Prog calls α).wp serving Q () := ⟨⟨hs, hc⟩, h⟩

theorem serving_releaseAll (act : Ptr → Call) (hact : ∀ t, (act t).Stores) (hs : Stacked s)
    (ts : List Ptr) {P : Prop} (h : P) : (releaseAll act s ts).wp serving (fun _ _ => P) () := by
  induction ts with
  | nil => exact h
  | cons t ts ih =>
    exact serving_ask hs (hact t) fun _ _ => serving_ask hs trivial fun _ _ => ih

theorem serving_giveUp {fin : Session → Session} (hs : Stacked s)
    (hfin : ∀ s', (fin s').stack = s'.stack) :
    (giveUp s fin).wp serving (fun s' _ => Stacked s') () := by
  have hfin' : ∀ s', s'.stack = s.stack → Stacked (fin s') := by
    intro s' h'
    unfold Stacked
    rw [hfin, h']
    exact hs
  unfold giveUp
  split
  · refine serving_ask hs trivial fun ts _ => ?_
    rw [Prog.wp_bind]
    exact serving_releaseAll .rollbackChanges (fun _ => trivial) hs ts (hfin' (dropped s) rfl)
  · exact hfin' s rfl

theorem serving_failWith {what : Str} (hs : Stacked s) :
    (failWith s what).wp serving (fun s' _ => Stacked s') () := serving_giveUp hs fun _ => rfl

theorem serving_findTree {name : Str} {body : Ptr → Prog calls Session} (hs : Stacked s)
    (hbody : ∀ t, (body t).wp serving (fun s' _ => Stacked s') ()) :
    (findTree s name body).wp serving (fun s' _ => Stacked s') () := by
  refine serving_ask hs trivial fun found _ => ?_
  cases found with
  | none => exact serving_failWith hs
  | some t => exact hbody t

theorem serving_acquireTree {t : Ptr} {body : Session → Prog calls Session} (hs : Stacked s)
    (hbody : ∀ ts, (body { s with lockedTables := ts }).wp serving (fun s' _ => Stacked s') ()) :
    (acquireTree s t body).wp serving (fun s' _ => Stacked s') () := by
  unfold acquireTree
  split
  · exact hbody s.lockedTables
  · refine serving_ask hs trivial fun success _ => ?_
    cases success with
    | false => exact serving_failWith hs
    | true => exact hbody _

theorem serving_createTree {name : Str} (hs : Stacked s) :
    (createTree s name).wp serving (fun s' _ => Stacked s') () := by
  refine serving_ask hs trivial fun _ _ => serving_ask hs trivial fun found _ => ?_
  split
  · exact serving_ask hs trivial fun _ _ => serving_failWith hs
  · exact serving_ask hs trivial fun _ _ => serving_ask hs trivial fun _ _ => hs

theorem serving_commitTree (hs : Stacked s) :
    (commitTree s).wp serving (fun s' _ => Stacked s') () := by
  refine serving_ask hs trivial fun ts _ => ?_
  rw [Prog.wp_bind]
  exact serving_releaseAll .commitChanges (fun _ => trivial) hs ts hs

theorem serving_setTree {name key v : Str} {st : List Str} (hs : Stacked s)
    (hst : s.stack = v :: st) : (setTree s name key v st).wp serving (fun s' _ => Stacked s') () := by
  have hv : Servable v := hs v (by rw [hst]; exact List.mem_cons_self ..)
  have hpopped : Stacked { s with stack := st } := by
    intro u hu
    exact hs u (by rw [hst]; exact List.mem_cons_of_mem v hu)
  refine serving_findTree hs fun t => ?_
  split
  · exact serving_acquireTree hs fun ts => serving_ask hs hv fun _ _ => hpopped
  · exact serving_ask hs trivial fun _ _ => serving_ask hs hv fun _ _ =>
      serving_ask hpopped trivial fun _ _ => serving_ask hpopped trivial fun _ _ => hpopped

theorem serving_getTree {name key : Str} (hs : Stacked s) :
    (getTree s name key).wp serving (fun s' _ => Stacked s') () := by
  have hpush : ∀ {v}, Servable v → ∀ u ∈ v :: s.stack, Servable u := by
    intro v hv u hu
    rcases List.mem_cons.mp hu with rfl | hu
    · exact hv
    · exact hs u hu
  refine serving_findTree hs fun t => ?_
  split
  · refine serving_acquireTree hs fun ts => serving_ask hs trivial fun has _ => ?_
    split
    · refine serving_ask hs trivial fun r hr => ?_
      cases r with
      | ok v => exact hpush (hr.1 v rfl)
      | error e =>
        obtain rfl := hr.2 e rfl
        show (settle _).wp _ _ _
        rw [settle_operation (by decide)]
        exact serving_failWith hs
    · exact serving_ask hs trivial fun _ _ => serving_failWith hs
  · refine serving_ask hs trivial fun _ _ => serving_ask hs trivial fun has _ => ?_
    split
    · refine serving_ask hs trivial fun r hr => ?_
      cases r with
      | ok v => exact serving_ask (hpush (hr.1 v rfl)) trivial fun _ _ => hpush (hr.1 v rfl)
      | error e =>
        obtain rfl := hr.2 e rfl
        refine serving_ask hs trivial fun _ _ => ?_
        rw [settle_operation (by decide)]
        exact serving_failWith hs
    · exact serving_ask hs trivial fun _ _ => serving_ask hs trivial fun _ _ => serving_failWith hs

/-- **No program of a session stores anything else.** -/
theorem process_serving (hs : Stacked s) (hopen : s.loopInProgress = true) (input : Input) :
    (process input s).wp serving (fun s' _ => Stacked s') () := by
  have hready : Stacked (ready s) := hs
  have hshape := process_shape hopen input
  generalize process input s = p at hshape ⊢
  cases hshape with
  | eof => exact serving_giveUp hready fun _ => rfl
  | empty => exact serving_ask hready trivial fun _ _ => hready
  | undecodable => exact serving_giveUp hready fun _ => rfl
  | login => exact hready
  | premature => exact serving_giveUp hready fun _ => rfl
  | request hdec ht hfirst hp =>
    cases hp with
    | computes h => exact h.stacked hdec hready
    | refuses h =>
      exact serving_failWith (s := { ready s with stack := _ }) (h.stacked hready)
    | kills h => exact serving_ask (h.stacked hready) trivial fun _ _ => h.stacked hready
    | overlong => exact serving_giveUp hready fun _ => rfl
    | begin => exact hready
    | commit => exact serving_commitTree hready
    | bye => exact serving_giveUp hready fun _ => rfl
    | create => exact serving_createTree hready
    | set hst => exact serving_setTree hready hst
    | get => exact serving_getTree hready

end Programs

/-! ## Every reachable state -/

theorem Table.stored_set {ι : Type} {t : Table ι} (h : t.Stored) (key : Str) {v : Str}
    (hv : Servable v) : (t.set key v).Stored := by
  rintro k u (hu | hu)
  · exact h k u (.inl hu)
  · have hu' : (t.proposedPairs.insert key v).lookup k = some u := hu
    by_cases hk : k = key
    · subst hk
      rw [AList.lookup_insert] at hu'
      obtain rfl := Option.some.inj hu'
      exact hv
    · rw [AList.lookup_insert_ne hk] at hu'
      exact h k u (.inr hu')

theorem Table.stored_commitChanges {ι : Type} {t : Table ι} (h : t.Stored) :
    t.commitChanges.Stored := by
  rintro k u (hu | hu)
  · rw [Table.lookup_commitChanges, Table.pending, Overlay.shown, Option.or_eq_some_iff] at hu
    -- it was pending, or it was committed before
    rcases hu with hu | ⟨-, hu⟩
    · exact h k u (.inr hu)
    · exact h k u (.inl hu)
  · exact h k u (.inr hu)

theorem Table.stored_rollbackChanges {ι : Type} {t : Table ι} (h : t.Stored) :
    t.rollbackChanges.Stored := by
  rintro k u (hu | hu)
  · exact h k u (.inl hu)
  · cases hu

/-- What `get` answers is in the table. -/
theorem Table.servable_get {ι : Type} {t : Table ι} (h : t.Stored) {key v : Str}
    (hget : t.get key = .ok v) : Servable v := by
  unfold Table.get at hget
  split at hget
  · rename_i u hu
    obtain rfl := Except.ok.inj hget
    exact h key u (.inl hu)
  · split at hget
    · rename_i u hu
      obtain rfl := Except.ok.inj hget
      exact h key u (.inr hu)
    · cases hget

section Reachable

variable {ι : Type}

/-- Replacing one table. -/
theorem stored_setTable {srv : Server ι} (h : ∀ t, (srv.tables t).Stored) (t : Ptr)
    {table : Table ι} (ht : table.Stored) : ∀ t', ((srv.setTable t table).tables t').Stored := by
  intro t'
  by_cases heq : t' = t
  · subst heq
    rw [Server.tables_setTable]
    exact ht
  · rw [Server.tables_setTable_ne _ _ _ heq]
    exact h t'

/-- One call keeps the tables as they should be, and finds what it may. -/
theorem Call.stored {i : ι} {srv srv' : Server ι} {c : Call} {r : c.Ans}
    (h : ∀ t, (srv.tables t).Stored) (hc : c.Stores) (hstep : c.Step i srv r srv') :
    c.Finds r ∧ ∀ t, (srv'.tables t).Stored := by
  obtain ⟨-, hs⟩ := hstep
  cases c with
  | serverLock =>
    simp only [Call.apply] at hs
    split at hs
    · cases hs; exact ⟨trivial, h⟩
    · cases hs
  | serverUnlock | findTable name | terminate => cases hs; exact ⟨trivial, h⟩
  | createTable name =>
    cases hs
    refine ⟨trivial, fun t => ?_⟩
    by_cases ht : t = srv.next
    · subst ht
      rw [Server.tables_createTable]
      rintro k v (hv | hv) <;> cases hv
    · rw [Server.tables_createTable_ne _ _ _ ht]
      exact h t
  | lock t =>
    simp only [Call.apply] at hs
    split at hs
    · cases hs; exact ⟨trivial, stored_setTable h t (h t)⟩
    · cases hs
  | trylock t =>
    simp only [Call.apply] at hs
    split at hs
    · cases hs; exact ⟨trivial, stored_setTable h t (h t)⟩
    · cases hs; exact ⟨trivial, h⟩
  | unlock t => cases hs; exact ⟨trivial, stored_setTable h t (h t)⟩
  | set t key v => cases hs; exact ⟨trivial, stored_setTable h t (Table.stored_set (h t) key hc)⟩
  | hasKey t key => cases hs; exact ⟨trivial, h⟩
  | get t key =>
    cases hs
    exact ⟨⟨fun v hv => Table.servable_get (h t) hv, fun e he => Table.get_error he⟩, h⟩
  | commitChanges t =>
    cases hs
    exact ⟨trivial, stored_setTable h t (Table.stored_commitChanges (h t))⟩
  | rollbackChanges t =>
    cases hs
    exact ⟨trivial, stored_setTable h t (Table.stored_rollbackChanges (h t))⟩
  | walk ts =>
    obtain ⟨-, rfl⟩ := hs
    exact ⟨trivial, h⟩

variable [DecidableEq ι]

/-- The outline: what is on the stacks and in the tables is servable. -/
def valueOutline (ι : Type) [DecidableEq ι] : System.Outline (serverSystem ι) Unit where
  spec _ := serving
  rest _ s _ := Stacked s
  inv _ srv _ := ∀ t, (srv.tables t).Stored
  accept_ok := by
    intro i _ srv γ s input p _ hrest hacc
    obtain ⟨hs, -, rfl⟩ := accept_serverSystem hacc
    exact process_serving hrest hs input
  call_ok := by
    intro i o _ srv γ r srv' Q hinv hpre hstep
    obtain ⟨hfinds, hinv'⟩ := Call.stored hinv hpre.1.2 hstep
    exact ⟨(), hpre.2 r hfinds, hinv'⟩

/-- TOP sends the value in a line that decodes to it. -/
theorem top_servable {s : Session} (hopen : s.loopInProgress = true)
    (hfirst : s.firstValidMessage = false) {v : Str} {st : List Str} (hst : s.stack = v :: st)
    (hv : Servable v) {buf : Str} (hdec : decode buf {} = .ok ⟨.top, []⟩) :
    encode ⟨.data, [v]⟩ = .ok (dataLine v) ∧
      process (.line buf) s = .ret (answered (ready s) (dataLine v)) ∧
      ∀ m₀, decode (dataLine v) m₀ = .ok ⟨.data, [v]⟩ := by
  have henc : encode ⟨.data, [v]⟩ = .ok (dataLine v) := encode_ok rfl hv.2
  refine ⟨henc, ?_, fun m₀ => ?_⟩
  · have hcomputes : Computes ⟨.top, []⟩ s.stack (v :: st) (dataLine v) := by
      rw [hst]
      exact .top henc
    rw [process_computes hopen hfirst hdec hcomputes, ← hst]
    rfl
  · refine decode_lineOf (t := .data) rfl (by simp) hv.2 (fun a ha => ?_) rfl m₀
    obtain rfl := List.mem_singleton.mp ha
    exact hv.1

/-- **TOP can always be answered.**  In every reachable state, every string on a stack, of a session
    at rest or about to make a call, and every committed or pending value is a word that fits in a
    DATA line; and TOP sends the top of the stack in such a line, which decodes to it. -/
theorem values_servable {log : List (Called ι calls)} {cfg : Config ι (Server ι) Session calls}
    (hrun : System.Run (serverSystem ι) (start ι) log cfg) :
    (∀ i s, (cfg.threads i).rest? = some s → ∀ v ∈ s.stack, Servable v) ∧
    (∀ i o, (cfg.threads i).call? = some o → ∀ v ∈ o.self.stack, Servable v) ∧
    (∀ t k v, (cfg.shared.tables t).keyValuePairs.lookup k = some v ∨
      (cfg.shared.tables t).proposedPairs.lookup k = some v → Servable v) ∧
    ∀ i s v st buf, (cfg.threads i).rest? = some s → s.loopInProgress = true →
      s.firstValidMessage = false → s.stack = v :: st → decode buf {} = .ok ⟨.top, []⟩ →
      encode ⟨.data, [v]⟩ = .ok (dataLine v) ∧
      process (.line buf) s = .ret (answered (ready s) (dataLine v)) ∧
      ∀ m₀, decode (dataLine v) m₀ = .ok ⟨.data, [v]⟩ := by
  have hstart : (valueOutline ι).Holds [] (start ι) := by
    refine ⟨fun _ => (), ?_, fun i => ?_⟩
    · rintro t k v (hv | hv) <;> cases hv
    · exact fun v hv => absurd hv List.not_mem_nil
  obtain ⟨γ, hinv, hat⟩ := (valueOutline ι).run hstart hrun
  have hrest : ∀ i s, (cfg.threads i).rest? = some s → Stacked s := by
    intro i s hs
    have hi := hat i
    rw [Thread.rest?_eq_some hs] at hi
    exact hi
  refine ⟨hrest, fun i o ho => ?_, hinv, fun i s v st buf hs hopen hfirst hst hdec => ?_⟩
  · obtain ⟨k, hk⟩ := Thread.call?_eq_some ho
    have hi := hat i
    rw [hk] at hi
    have hwp : (Prog.call o k).wp serving (fun s' _ => Stacked s') () := hi
    exact hwp.1.1
  · have hv : Servable v := hrest i s hs v (by rw [hst]; exact List.mem_cons_self ..)
    exact top_servable hopen hfirst hst hv hdec

/-- Two clients, of which one reads what the other has stored. -/
theorem values_servable_two : ∃ log cfg, System.Run (serverSystem Bool) (start Bool) log cfg ∧
    ∃ s, (cfg.threads true).rest? = some s ∧ s.stack ≠ [] ∧ ∀ v ∈ s.stack, Servable v := by
  obtain ⟨log, cfg, hrun, hend⟩ := @played Bool _
    (told false "LOGIN a\n" 1 ++ told false "CREATE t\n" 5 ++ told false "PUSH 7\n" 1
      ++ told false "SET t k\n" 6 ++ told true "LOGIN b\n" 1 ++ told true "GET t k\n" 6) (start Bool)
    (fun cfg => ((cfg.threads true).rest?.map Session.stack) = some ["7".toList]) inferInstance
    (by decide +kernel)
  obtain ⟨s, hs, hstack⟩ := Option.map_eq_some_iff.mp hend
  refine ⟨log, cfg, hrun, s, hs, ?_, (values_servable hrun).1 true s hs⟩
  rw [hstack]
  exact nofun

end Reachable

end BasicServer
