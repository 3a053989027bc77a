/-
  What concurrent transactions compute.

  Clients send transactions of the language of `Programs`, all at the same time.  By `Interleaved` they
  could have been carried out one by one, and by `Programs` each of them then computes what its
  assignments mean.

  1. **One after the other** (`replay_denotes`) — blocks of requests that carry out transactions, and are
     answered OK, compute what the transactions mean.
  2. **The blocks of a run** (`kept_of_turns`) — while every request is answered OK, the ledger has the
     transactions of each client, in its order.
  3. **At the same time** (`concurrent_transactions`) — the committed entries at the end are what the
     transactions mean in some order.
-/
import BasicServer.Programs
import BasicServer.Interleaved
import Mathlib.Data.List.Forall2

namespace BasicServer

open Commands
open Function (update)
open Overlay (Map)

/-! ## One after the other -/

/-- Transactions one after the other. -/
def denoteAll (names : Map Str Ptr) : List (List Assignment) → Entries → Option Entries
  | [], es => some es
  | as :: rest, es => (denote names (·.under es) as es).bind (denoteAll names rest)

/-- The input is what `decode` gets of a message. -/
def IsLine (msg : Message) (input : Input) : Prop :=
  ∃ line, received msg = .ok line ∧ input = .line line

instance (msg : Message) : ∀ input, Decidable (IsLine msg input)
  | .eof => isFalse (by rintro ⟨line, -, h⟩; cases h)
  | .line line => decidable_of_iff (received msg = .ok line)
      ⟨fun h => ⟨line, h, rfl⟩, by rintro ⟨line', h, heq⟩; cases heq; exact h⟩

/-- A session that may begin a transaction. -/
structure Starts (s : Session) : Prop where
  isOpen : s.loopInProgress = true
  first : s.firstValidMessage = false
  tx : s.inTransaction = false
  tables : s.lockedTables = []

/-- A block of client `i` that has the requests `msgs`, all answered OK. -/
structure Carries {ι : Type} (i : ι) (msgs : List Message) (b : Block ι) : Prop where
  who : b.who = i
  start : Starts b.start
  sent : List.Forall₂ IsLine msgs b.inputs
  ok : ∀ r ∈ b.replies, r = [okLine]

section Replay

variable {ι : Type}

theorem run_of_performAll {i : ι} {msgs : List Message} {inputs : List Input} {s s' : Session}
    {srv srv' : Server ι} {rs : List (List Str)} (hsent : List.Forall₂ IsLine msgs inputs)
    (h : performAll i inputs s srv = some (rs, s', srv')) (before : List (List Str)) :
    run (Talk.step i) msgs ⟨before, s, srv⟩ = some ⟨before ++ rs, s', srv'⟩ := by
  induction hsent generalizing s srv rs before with
  | nil =>
    obtain ⟨rfl, rfl, rfl⟩ : rs = [] ∧ s' = s ∧ srv' = srv := by
      simpa [performAll, eq_comm] using h
    rw [List.append_nil]
    rfl
  | @cons msg input msgs inputs hline _ ih =>
    obtain ⟨line, hrec, rfl⟩ := hline
    rw [performAll] at h
    cases hfirst : (process (.line line) s).exec (serve i) srv with
    | none => rw [hfirst] at h; cases h
    | some r =>
      rw [hfirst] at h
      obtain ⟨⟨rs', s₂, srv₂⟩, hrest, heq⟩ := Option.map_eq_some_iff.mp h
      obtain ⟨rfl, rfl, rfl⟩ : r.1.replies :: rs' = rs ∧ s₂ = s' ∧ srv₂ = srv' := by simpa using heq
      have hstep : Talk.step i msg ⟨before, s, srv⟩ = some ⟨before ++ [r.1.replies], r.1, r.2⟩ := by
        rw [Talk.step, hrec]
        simp only [hfirst, Option.map_some]
      rw [run, hstep, Option.bind_some, ih hrest, List.append_assoc]
      rfl

/-- A transaction that was answered OK has computed what it means. -/
theorem Carries.denotes {i : ι} {as : List Assignment} {b : Block ι}
    (hb : Carries i (transaction as) b) {names : Map Str Ptr} {srv srv' : Server ι} {s' : Session}
    (hidle : Idle names srv)
    (h : performAll b.who b.inputs b.start srv = some (b.replies, s', srv')) :
    denote names (·.under srv.entries) as srv.entries = some srv'.entries ∧ Idle names srv' := by
  have hrun := run_of_performAll hb.sent h []
  have hout : Outside b.who names srv.entries b.start.stack ⟨[], b.start, srv⟩ :=
    ⟨hb.start.isOpen, hb.start.first, hb.start.tx, hb.start.tables, rfl, hidle, fun _ _ => rfl,
      fun _ hr => absurd hr List.not_mem_nil⟩
  have hgives := @transaction_gives ι b.who names srv.entries b.start.stack as
  cases hden : denote names (·.under srv.entries) as srv.entries with
  | none => exact absurd hb.ok (hgives.fails hout hden hrun)
  | some final =>
    obtain ⟨c', hrun', hc'⟩ := hgives.computes hout hden
    obtain rfl := Option.some.inj (hrun'.symm.trans hrun)
    have hfinal : final = srv'.entries := by
      funext t k
      exact (hc'.committed t k).symm
    exact ⟨congrArg some hfinal, hc'.idle⟩

/-- **Transactions that were replayed one after the other** have computed what they mean. -/
theorem replay_denotes {order : List (ι × List Assignment)} {bs : List (Block ι)}
    (h : List.Forall₂ (fun p b => Carries p.1 (transaction p.2) b) order bs) {names : Map Str Ptr}
    {srv srv' : Server ι} (hidle : Idle names srv)
    (hreplay : replay bs srv = some (bs.map Block.outcome, srv')) :
    denoteAll names (order.map Prod.snd) srv.entries = some srv'.entries := by
  induction h generalizing srv with
  | nil =>
    obtain rfl : srv' = srv := by simpa [replay, eq_comm] using hreplay
    rfl
  | @cons p b order bs hb _ ih =>
    rw [replay] at hreplay
    cases hfirst : performAll b.who b.inputs b.start srv with
    | none => rw [hfirst] at hreplay; cases hreplay
    | some r =>
      obtain ⟨rs, s, srv₁⟩ := r
      rw [hfirst] at hreplay
      obtain ⟨⟨outs, srv₂⟩, hrest, heq⟩ := Option.map_eq_some_iff.mp hreplay
      obtain ⟨⟨hout, houts⟩, rfl⟩ : ((rs, s) = b.outcome ∧ outs = bs.map Block.outcome) ∧
        srv₂ = srv' := by simpa using heq
      obtain ⟨rfl, -⟩ := Prod.mk.inj hout
      subst houts
      obtain ⟨hden, hidle₁⟩ := hb.denotes hidle hfirst
      rw [List.map_cons, denoteAll, hden, Option.bind_some]
      exact ih hidle₁ hrest

end Replay

/-! ## The requests of a transaction -/

/-- Answered OK, it leaves the transaction open. -/
theorem Inner.stays {msg : Message} (h : Inner msg) {s s' : Session} (ha : Answer (ready s) msg s')
    (hok : s'.replies = [okLine]) : s'.inTransaction = s.inTransaction := by
  have htype := h.type
  cases ha with
  | computes | kills | set | got => rfl
  | refuses | failed =>
    rw [replies_over rfl] at hok
    exact absurd (List.singleton_injective hok).symm (okLine_ne _)
  | overlong | begin | commit | bye => exact absurd htype (by decide)
  | created | bound => exact absurd (show MessageType.create ∈ _ from htype) (by decide)

theorem line_of_isLine {msg : Message} {input : Input} (h : ∃ line, Intact msg line)
    (hline : IsLine msg input) :
    ∃ line, input = .line line ∧ ∀ msg', decode line {} = .ok msg' → msg' = msg := by
  obtain ⟨line, hrec, hdec⟩ := h
  obtain ⟨line', hrec', rfl⟩ := hline
  obtain rfl := Except.ok.inj (hrec.symm.trans hrec')
  exact ⟨line, rfl, hdec⟩

/-- A message that was answered OK has arrived as it was sent. -/
theorem decode_of_isLine {msg : Message} {input : Input} {s s' : Session}
    (h : ∃ line, Intact msg line) (hline : IsLine msg input) (hout : Outcome s input s')
    (hok : s'.replies = [okLine]) : ∃ line, input = .line line ∧ decode line {} = .ok msg := by
  obtain ⟨line, rfl, hsame⟩ := line_of_isLine h hline
  obtain ⟨msg', hdec⟩ := decoded_of_ok hout hok
  obtain rfl := hsame msg' hdec
  exact ⟨line, rfl, hdec⟩

theorem exists_isLine {msgs : List Message} {inputs : List Input} (h : List.Forall₂ IsLine msgs inputs)
    {input : Input} (hmem : input ∈ inputs) : ∃ msg ∈ msgs, IsLine msg input := by
  induction h with
  | nil => cases hmem
  | cons hline _ ih =>
    rcases List.mem_cons.mp hmem with rfl | hmem
    · exact ⟨_, List.mem_cons_self, hline⟩
    · obtain ⟨msg, hmsg, hline⟩ := ih hmem
      exact ⟨msg, List.mem_cons_of_mem _ hmsg, hline⟩

/-- No table is created. -/
theorem omits_create {progs : List (List Assignment)} {inputs : List Input}
    (h : List.Forall₂ IsLine (progs.flatMap transaction) inputs) {input : Input}
    (hmem : input ∈ inputs) : Omits .create input := by
  obtain ⟨msg, hmsg, hline⟩ := exists_isLine h hmem
  obtain ⟨as, -, hmsg⟩ := List.mem_flatMap.mp hmsg
  obtain ⟨hintact, htype⟩ := intact_of_mem hmsg
  obtain ⟨line, rfl, hsame⟩ := line_of_isLine hintact hline
  intro msg' hreq hcreate
  obtain rfl := hsame msg' (decode_of_request hreq)
  rw [hcreate] at htype
  exact htype (by decide)

/-- What comes after the first request and before the last. -/
theorem inner_of_eq {as : List Assignment} {pre post : List Message} {msg : Message}
    (h : transaction as = pre ++ msg :: post) (hpre : pre ≠ []) (hpost : post ≠ []) : Inner msg := by
  obtain ⟨first, pre, rfl⟩ := List.exists_cons_of_ne_nil hpre
  obtain ⟨post, last, rfl⟩ := (List.eq_nil_or_concat post).resolve_left hpost
  have htail : as.flatMap Assignment.code ++ [commitOperation] = (pre ++ msg :: post) ++ [last] := by
    have hcons := (List.cons.inj h).2
    simpa using hcons
  have hmid := List.append_inj_left' htail rfl
  exact inner_of_mem (hmid ▸ List.mem_append_right _ List.mem_cons_self)

/-- The last one. -/
theorem commit_of_eq {as : List Assignment} {pre : List Message} {msg : Message}
    (h : transaction as = pre ++ [msg]) : msg = commitOperation := by
  have hlast := congrArg List.getLast? h
  rw [List.getLast?_concat, transaction, ← List.cons_append, List.getLast?_concat] at hlast
  exact (Option.some.inj hlast).symm

/-! ## The blocks of a run -/

/-- How far client `i` has come: the block of its open transaction, the transactions to be completed,
    and the inputs to come. -/
inductive Place {ι : Type} (i : ι) : Option (Block ι) → List (List Assignment) → List Input → Prop
  | between {todo : List (List Assignment)} {inputs : List Input}
      (hsent : List.Forall₂ IsLine (todo.flatMap transaction) inputs) : Place i none todo inputs
  | within {as : List Assignment} {todo : List (List Assignment)} {pre post : List Message}
      {b : Block ι} {inputs : List Input} (hcode : transaction as = pre ++ post) (hpre : pre ≠ [])
      (hpost : post ≠ []) (hb : Carries i pre b)
      (hsent : List.Forall₂ IsLine (post ++ todo.flatMap transaction) inputs) :
      Place i (some b) (as :: todo) inputs

/-- With nothing to come, all is completed. -/
theorem Place.nothing {ι : Type} {i : ι} {p : Option (Block ι)} {todo : List (List Assignment)}
    (h : Place i p todo []) : todo = [] := by
  cases h with
  | between hsent =>
    have hnil := List.forall₂_nil_right_iff.mp hsent
    cases todo with
    | nil => rfl
    | cons as todo => cases hnil
  | within hcode hpre hpost hb hsent =>
    exact absurd (List.append_eq_nil_iff.mp (List.forall₂_nil_right_iff.mp hsent)).1 hpost

section Ledger

variable {ι : Type} [DecidableEq ι]

/-- The transactions of client `i` in an order of all. -/
def mine (i : ι) (order : List (ι × List Assignment)) : List (List Assignment) :=
  (order.filter fun p => p.1 = i).map Prod.snd

theorem mine_append (i : ι) (order order' : List (ι × List Assignment)) :
    mine i (order ++ order') = mine i order ++ mine i order' := by
  rw [mine, List.filter_append, List.map_append]
  rfl

theorem mine_self (i : ι) (as : List Assignment) : mine i [(i, as)] = [as] := by
  rw [mine, List.filter_cons_of_pos (by exact decide_eq_true rfl)]
  rfl

theorem mine_ne {i j : ι} (h : i ≠ j) (as : List Assignment) : mine j [(i, as)] = [] := by
  rw [mine, List.filter_cons_of_neg (by rw [decide_eq_true_eq]; exact h)]
  rfl

/-- The ledger has the transactions of `order`; what is left is to come. -/
structure Kept (progs : ι → List (List Assignment)) (future : ι → List Input) (l : Ledger ι)
    (order : List (ι × List Assignment)) : Prop where
  done : List.Forall₂ (fun p b => Carries p.1 (transaction p.2) b) order l.done
  place : ∀ i, ∃ todo, progs i = mine i order ++ todo ∧ Place i (l.pending i) todo (future i)

variable {progs : ι → List (List Assignment)} {future : ι → List Input} {l l' : Ledger ι}
  {order order' : List (ι × List Assignment)} {w w' : World ι} {e : Event ι}

/-- The other clients are where they were. -/
theorem Kept.advance {i : ι} {x : Input} (hk : Kept progs (update future i (x :: future i)) l order)
    (hothers : ∀ j, j ≠ i → l'.pending j = l.pending j) (hmine : ∀ j, j ≠ i → mine j order' = mine j order)
    (hdone : List.Forall₂ (fun p b => Carries p.1 (transaction p.2) b) order' l'.done)
    (hplace : ∃ todo, progs i = mine i order' ++ todo ∧ Place i (l'.pending i) todo (future i)) :
    Kept progs future l' order' := by
  refine ⟨hdone, fun j => ?_⟩
  by_cases hj : j = i
  · subst hj
    exact hplace
  · obtain ⟨todo, hprogs, hplace⟩ := hk.place j
    rw [Function.update_of_ne hj] at hplace
    rw [hothers j hj, hmine j hj]
    exact ⟨todo, hprogs, hplace⟩

omit [DecidableEq ι] in
theorem Carries.extend {i : ι} {pre : List Message} {msg : Message} {b : Block ι}
    (hb : Carries i pre b) (hline : IsLine msg e.input) (hok : e.after.replies = [okLine]) :
    Carries i (pre ++ [msg]) (b.extend e) where
  who := hb.who
  start := hb.start
  sent := List.rel_append hb.sent (.cons hline .nil)
  ok r hr := by
    rcases List.mem_append.mp hr with hr | hr
    · exact hb.ok r hr
    · rw [List.mem_singleton.mp hr, hok]

/-- What came of a turn that was answered OK. -/
theorem outcome_of_turn (h : Turn w e w') (hok : e.after.replies = [okLine]) :
    Outcome e.before e.input e.after := by
  cases h with
  | served h =>
    obtain ⟨hopen, -, rfl, -, he⟩ := World.request_inv h
    exact exec_outcome hopen he
  | refused =>
    have hreplies : (refusal _).replies = [okLine] := hok
    rw [refusal, replies_over rfl] at hreplies
    exact absurd (List.singleton_injective hreplies).symm (okLine_ne _)

/-- One more request that was answered OK. -/
theorem Kept.record {srv₀ : Server ι}
    (hk : Kept progs (update future e.who (e.input :: future e.who)) l order) (hs : Serial srv₀ w l)
    (hturn : Turn w e w') (hok : e.after.replies = [okLine]) :
    ∃ order', Kept progs future (l.record e) order' := by
  have hout := outcome_of_turn hturn hok
  obtain ⟨hopen, -, he, -⟩ := hturn.inv
  have hbefore : e.before = w.sessions e.who := by rw [he]
  have hothers : ∀ j, j ≠ e.who → (l.record e).pending j = l.pending j := fun j hj => record_others hj
  obtain ⟨todo, hprogs, hplace⟩ := hk.place e.who
  rw [Function.update_self] at hplace
  generalize hp : l.pending e.who = p at hplace
  generalize hf : e.input :: future e.who = inputs at hplace
  cases hplace with
  | between hsent =>
    subst hf
    cases todo with
    | nil => cases hsent
    | cons as todo =>
      -- the next request is BEGIN
      rw [List.flatMap_cons, transaction, List.cons_append] at hsent
      obtain ⟨hline, hsent⟩ := List.forall₂_cons.mp hsent
      obtain ⟨line, hinput, hdec⟩ := decode_of_isLine ⟨_, spoken_begin.intact⟩ hline hout hok
      have hmark : e.mark = .begin := by
        rw [Event.mark, hinput]
        exact mark_begin hdec hok
      have htx : e.before.inTransaction = false := by
        cases hin : e.before.inTransaction with
        | false => rfl
        | true =>
          rw [hbefore] at hin
          obtain ⟨b, hb, -⟩ := hs.opened e.who hin
          cases hp.symm.trans hb
      rw [hinput] at hout
      have hstart : Starts e.before := {
        isOpen := hbefore ▸ hopen
        first := (answer_of_ok hout hdec (by decide) hok).1
        tx := htx
        tables := by
          rw [hbefore] at htx ⊢
          exact hs.locked.noTx e.who htx }
      refine ⟨order, hk.advance hothers (fun _ _ => rfl) ?_ ⟨as :: todo, hprogs, ?_⟩⟩
      · rw [record_begin hp hmark]
        exact hk.done
      · rw [record_begin hp hmark]
        show Place e.who (update l.pending e.who (some e.block) e.who) _ _
        rw [Function.update_self]
        refine @Place.within ι e.who as todo [beginOperation] _ e.block _ rfl (List.cons_ne_nil _ _)
          ?_ ?_ hsent
        · exact List.append_ne_nil_of_right_ne_nil _ (List.cons_ne_nil _ _)
        · exact ⟨rfl, hstart, .cons hline .nil, fun r hr => (List.mem_singleton.mp hr).trans hok⟩
  | @within as todo pre post b _ hcode hpre hpost hb hsent =>
    subst hf
    cases post with
    | nil => exact absurd rfl hpost
    | cons msg post =>
      obtain ⟨hline, hrest⟩ := List.forall₂_cons.mp hsent
      cases post with
      | nil =>
        -- the next request is COMMIT
        obtain rfl := commit_of_eq hcode
        obtain ⟨line, hinput, hdec⟩ := decode_of_isLine ⟨_, spoken_commit.intact⟩ hline hout hok
        have hmark : e.mark = .commit := by
          rw [Event.mark, hinput]
          exact mark_commit hdec hok
        refine ⟨order ++ [(e.who, as)], hk.advance hothers (fun j hj => ?_) ?_ ⟨todo, ?_, ?_⟩⟩
        · rw [mine_append, mine_ne (Ne.symm hj), List.append_nil]
        · rw [record_commit hp hmark]
          refine List.rel_append hk.done (.cons ?_ .nil)
          have hext := hb.extend hline hok
          rwa [← hcode] at hext
        · rw [mine_append, mine_self, List.append_assoc]
          exact hprogs
        · rw [record_commit hp hmark]
          show Place e.who (update l.pending e.who none e.who) _ _
          rw [Function.update_self]
          exact .between hrest
      | cons next post =>
        have hinner := inner_of_eq hcode hpre (List.cons_ne_nil next post)
        obtain ⟨line, hinput, hdec⟩ := decode_of_isLine hinner.intact hline hout hok
        have hmark : e.mark ≠ .commit := by
          intro hcommit
          obtain ⟨-, args, hreq⟩ := mark_commit_inv hcommit
          rw [hinput, request_of_decode hdec] at hreq
          have htype := hinner.type
          rw [Option.some.inj hreq] at htype
          exact absurd (show MessageType.commit ∈ _ from htype) (by decide)
        have hin : e.after.inTransaction = true := by
          rw [hinput] at hout
          have hlogin : msg.mMessageType ≠ .login := by
            intro heq
            have htype := hinner.type
            rw [heq] at htype
            exact absurd htype (by decide)
          rw [hinner.stays (answer_of_ok hout hdec hlogin hok).2 hok]
          cases htx : e.before.inTransaction with
          | true => rfl
          | false =>
            rw [hbefore] at htx
            cases hp.symm.trans (hs.closed e.who htx)
        refine ⟨order, hk.advance hothers (fun _ _ => rfl) ?_ ⟨as :: todo, hprogs, ?_⟩⟩
        · rw [record_inside hp hmark hin]
          exact hk.done
        · rw [record_inside hp hmark hin]
          show Place e.who (update l.pending e.who (some (b.extend e)) e.who) _ _
          rw [Function.update_self]
          refine @Place.within ι e.who as todo (pre ++ [msg]) _ _ _ ?_ ?_ (List.cons_ne_nil next post)
            (hb.extend hline hok) hrest
          · rw [List.append_assoc]
            exact hcode
          · exact List.append_ne_nil_of_right_ne_nil _ (List.cons_ne_nil _ _)

/-- After an OK the process goes on. -/
theorem Turns.live {w₀ : World ι} {h : List (Event ι)} (hrun : Turns w₀ h w)
    (hlive : w₀.server.aborted = false) (hok : ∀ e ∈ h, e.after.replies = [okLine]) :
    w.server.aborted = false := by
  cases hrun with
  | nil => exact hlive
  | snoc _ hstep =>
    have hlast := hok _ List.mem_cons_self
    cases hstep with
    | @served i input _ _ h =>
      obtain ⟨hopen, hlive, rfl, -, he⟩ := World.request_inv h
      cases input with
      | eof =>
        have hreplies : (w.sessions i).replies = [okLine] := hlast
        have hout := exec_outcome hopen he
        generalize w.sessions i = s' at hreplies hout
        cases hout with
        | eof =>
          rw [replies_released] at hreplies
          cases hreplies
      | line buf => exact live_of_replies hopen hlive he (hlast ▸ List.cons_ne_nil okLine [])
    | refused _ hlive => exact (Server.aborted_ended ..).trans hlive

/-- **The blocks of a run**: while every request is answered OK, they are the transactions that the
    clients have sent. -/
theorem kept_of_turns {h : List (Event ι)} {w₁ : World ι} (h₁ : w₁.Settled) (hrun : Turns w₁ h w)
    (hok : ∀ e ∈ h, e.after.replies = [okLine]) (hfixed : ∀ e ∈ h, Omits .create e.input)
    (hsent : ∀ i, List.Forall₂ IsLine ((progs i).flatMap transaction)
      ((requests i h).reverse.map Prod.fst ++ future i)) :
    ∃ order, Kept progs future (ledger h) order := by
  induction hrun generalizing future with
  | nil => exact ⟨[], .nil, fun i => ⟨progs i, rfl, .between (hsent i)⟩⟩
  | @snoc h w w' e hrun hstep ih =>
    obtain ⟨-, hlive, -, -⟩ := hstep.inv
    obtain ⟨hokHead, hok⟩ := List.forall_mem_cons.mp hok
    obtain ⟨-, hfixed⟩ := List.forall_mem_cons.mp hfixed
    have hs := hrun.serial h₁ hfixed hlive
    obtain ⟨order, hk⟩ := @ih (update future e.who (e.input :: future e.who)) hok hfixed fun i => by
      have hnext := hsent i
      by_cases hi : i = e.who
      · subst hi
        have hcons : requests e.who (e :: h) = (e.input, e.after) :: requests e.who h :=
          past_cons_self ..
        rw [hcons, List.reverse_cons, List.map_append, List.append_assoc] at hnext
        rw [Function.update_self]
        exact hnext
      · have hcons : requests i (e :: h) = requests i h := past_cons_ne (Ne.symm hi) _
        rw [hcons] at hnext
        rw [Function.update_of_ne hi]
        exact hnext
    exact hk.record hs hstep hokHead

end Ledger

/-! ## At the same time -/

section Theorem

variable {ι : Type} [DecidableEq ι]

/-- **What concurrent transactions compute.**  From a moment at which nothing is under way and no
    transaction is open to one at which nothing is under way, the clients send transactions, and get
    OK for every request.  Then there is an order of all these transactions, that of each client
    included, in which they mean the committed entries at the end. -/
theorem concurrent_transactions {T₁ T₂ : Chat ι} {newer : List (Done ι Input Session)}
    {progs : ι → List (List Assignment)}
    (h₁ : System.Leads ((serverSystem ι).restrict FindsKey) (opening ι) T₁)
    (h₂ : System.Leads ((serverSystem ι).restrict FindsKey) T₁ T₂)
    (hidle : ∀ i, ∃ s, T₁.config.threads i = .rest s ∧ s.inTransaction = false)
    (hrest : ∀ i, ∃ s, T₂.config.threads i = .rest s) (hdone : T₂.done = newer ++ T₁.done)
    (hlive : T₁.config.shared.aborted = false)
    (hsent : ∀ i, List.Forall₂ IsLine ((progs i).flatMap transaction)
      ((past i newer).reverse.map Prod.fst))
    (hok : ∀ d ∈ newer, d.after.replies = [okLine]) :
    ∃ order : List (ι × List Assignment), (∀ i, mine i order = progs i) ∧
      denoteAll T₁.config.shared.tableNames (order.map Prod.snd) T₁.config.shared.entries
        = some T₂.config.shared.entries := by
  obtain ⟨late, w₁, w₂, hlate, hsettled, hserver₁, hserver₂, -, hrequests⟩ :=
    settled_turns h₁ h₂ hidle hrest hdone
  have hok' := forall_events (p := fun _ s => s.replies = [okLine]) hrequests hok
  have hfixed := forall_events (p := fun input _ => Omits .create input) hrequests fun d hd =>
    omits_create (hsent d.who) (List.mem_map_of_mem (List.mem_reverse.mpr (mem_past.mpr hd)))
  have hlive₁ : w₁.server.aborted = false := by
    rw [hserver₁]
    exact hlive
  have hkept : ∃ order, Kept progs (fun _ => []) (ledger late) order :=
    kept_of_turns hsettled hlate hok' hfixed fun i => by
      rw [List.append_nil, hrequests]
      exact hsent i
  obtain ⟨order, hk⟩ := hkept
  refine ⟨order, fun i => ?_, ?_⟩
  · -- nothing is to come
    obtain ⟨todo, hprogs, hplace⟩ := hk.place i
    rw [hprogs, hplace.nothing, List.append_nil]
  · obtain ⟨srv, hreplay, -, hsame⟩ := (hlate.serial hsettled hfixed (hlate.live hlive₁ hok')).replayed
    have hidle₁ : Idle w₁.server.tableNames w₁.server :=
      ⟨hlive₁, hsettled.locked.mutex, hsettled.locked.free hsettled.idle, hsettled.clean, rfl⟩
    have hden := replay_denotes hk.done hidle₁ hreplay
    have hentries : srv.entries = w₂.server.entries := by
      funext t k
      exact hsame t k
    rw [hentries, hserver₁, hserver₂] at hden
    exact hden

end Theorem

/-- Client `false` increments `k`, and client `true` keeps its value in `j`. -/
def bumps : Bool → List (List Assignment)
  | false => [bump.drop 1]
  | true => [bump.take 1]

/-- Client `true` begins first, and reads what the other has committed. -/
theorem concurrent_transactions_two : ∃ (T₁ T₂ : Chat Bool) (order : List (Bool × List Assignment)),
    (T₂.config.shared.tables 0).keyValuePairs.lookup "j".toList = some "2".toList ∧
    (∀ i, mine i order = bumps i) ∧
    denoteAll T₁.config.shared.tableNames (order.map Prod.snd) T₁.config.shared.entries
      = some T₂.config.shared.entries := by
  obtain ⟨T₁, hlead₁, hidle, hlive, hmore⟩ := @found_chat Bool _ (opening Bool)
    (told false "LOGIN a\n" 1 ++ told false "CREATE t\n" 5 ++ told true "LOGIN b\n" 1 ++
      told false "PUSH 1\n" 1 ++ told false "SET t k\n" 6)
    (fun T₁ => (∀ i, (T₁.config.threads i).rest?.map (·.inTransaction) = some false) ∧
      T₁.config.shared.aborted = false ∧ (Trace.play ((serverSystem Bool).restrict FindsKey) serveFound
        (told true "BEGIN\n" 1 ++ told false "BEGIN\n" 1 ++ told false "GET t k\n" 5 ++
          told false "PUSH 1\n" 1 ++ told false "ADD\n" 1 ++ told false "SET t k\n" 3 ++
          told false "COMMIT\n" 2 ++ told true "GET t k\n" 1 ++ List.replicate 2 (.go false) ++
          List.replicate 4 (.go true) ++ told true "SET t j\n" 3 ++ told true "COMMIT\n" 4) T₁).any
        (fun T₂ => decide ((T₂.config.shared.tables 0).keyValuePairs.lookup "j".toList = some "2".toList ∧
          (∀ i, (T₂.config.threads i).rest?.isSome = true) ∧ T₂.done.length = T₁.done.length + 10 ∧
          (∀ i, List.Forall₂ IsLine ((bumps i).flatMap transaction)
            ((past i (T₂.done.take 10)).reverse.map Prod.fst)) ∧
          (T₂.done.take 10).all (fun d => d.after.replies = [okLine]) = true)) = true)
    inferInstance (by decide +kernel)
  obtain ⟨T₂, hlead₂, hj, hrest, hlen, hsent, hok⟩ := found_chat hmore
  obtain ⟨newer, hdone, hnewer⟩ := done_take hlead₂ hlen
  rw [hnewer] at hok hsent
  obtain ⟨order, hmine, hden⟩ := concurrent_transactions hlead₁ hlead₂
    (fun i => by
      obtain ⟨s, hs, hin⟩ := Option.map_eq_some_iff.mp (hidle i)
      exact ⟨s, Thread.rest?_eq_some hs, hin⟩)
    (fun i => by
      obtain ⟨s, hs⟩ := Option.isSome_iff_exists.mp (hrest i)
      exact ⟨s, Thread.rest?_eq_some hs⟩) hdone hlive hsent
    (fun d hd => of_decide_eq_true (List.all_eq_true.mp hok d hd))
  exact ⟨T₁, T₂, order, hj, hmine, hden⟩

end BasicServer
