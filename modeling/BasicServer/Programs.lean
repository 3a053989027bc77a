/-
  What transactions compute.

  The requests are a language: a session is a stack machine, whose variables are the entries of the
  tables.  An assignment evaluates an expression in postfix and SETs the result, as `incr_value` does
  with `key + 1`.

  1. **Rules** — what each request gives, and when it is not answered OK, in a transaction (`Inside`)
     and outside of one (`Outside`), while no other client is active.
  2. **In a transaction** (`transaction_computes`) an expression sees the entries that were committed
     before BEGIN, and an assignment only where there was none; COMMIT makes all of them.  All requests
     are answered OK exactly if all expressions have values.
  3. **Outside of one** (`Outside.assign`) every assignment is made at once.
  4. **The two agree** (`transaction_autocommit`) if no expression reads what was assigned before.
-/
import BasicServer.Serial
import BasicServer.Grammar
import BasicServer.Arithmetic
import BasicServer.Client
import BasicServer.Lib.Commands

namespace BasicServer

open Commands
open Message (maxEncodedLen takesIdents arity)
open Overlay (Map)
open Words (IsWord)

/-! ## The language -/

/-- A table and a key that fit in one line. -/
structure Entry where
  table : Str
  key : Str
  table_ok : Message.isValidIdentifier table = .ok true
  key_ok : Message.isValidIdentifier key = .ok true
  fits : (lineOf "SET".toList [table, key]).length ≤ maxEncodedLen

/-- A word that fits in one line. -/
structure Literal where
  val : Str
  word : IsWord isspace val
  fits : (lineOf "PUSH".toList [val]).length ≤ maxEncodedLen

/-- What an expression is made of. -/
inductive Leaf where
  | literal (v : Literal)
  | entry (e : Entry)

/-- The arithmetic requests. -/
inductive Operator where
  | add
  | sub
  | mul
  | div

/-- Put the value of an expression into an entry. -/
structure Assignment where
  entry : Entry
  value : Expr Leaf Operator

def Operator.type : Operator → MessageType
  | .add => .add
  | .sub => .sub
  | .mul => .mul
  | .div => .div

/-- The request of a leaf. -/
def Leaf.push : Leaf → Message
  | .literal v => ⟨.push, [v.val]⟩
  | .entry e => getOperation e.table e.key

/-- The request of an operator. -/
def Operator.act (o : Operator) : Message := ⟨o.type, []⟩

/-- The requests of an assignment. -/
def Assignment.code (a : Assignment) : List Message :=
  a.value.code Leaf.push Operator.act ++ [setOperation a.entry.table a.entry.key]

/-- The requests of a transaction. -/
def transaction (as : List Assignment) : List Message :=
  beginOperation :: (as.flatMap Assignment.code ++ [commitOperation])

/-! ### Its meaning -/

/-- The entries of the tables. -/
abbrev Entries : Type := Ptr → Str → Option Str

/-- The committed entries of a server. -/
def Server.entries {ι : Type} (srv : Server ι) : Entries :=
  fun t k => (srv.tables t).keyValuePairs.lookup k

/-- The operators, as the server carries them out: the operands are parsed, and the result is printed. -/
def Operator.apply (o : Operator) (l r : Str) : Option Str :=
  match arith o.type, stoi l, stoi r with
  | some (op, _), .ok n, .ok m => (op n m).toOption.map toStr
  | _, _, _ => none

/-- The value of a leaf, for what the entries are.  A word with a NUL in it cannot be pushed. -/
def Leaf.value (names : Map Str Ptr) (look : Entries) : Leaf → Option Str
  | .literal v => if '\x00' ∈ v.val then none else some v.val
  | .entry e => (names.lookup e.table).bind fun t => look t e.key

/-- An entry after an assignment. -/
def Entries.write (es : Entries) (t : Ptr) (key v : Str) : Entries :=
  fun t' k => if t' = t ∧ k = key then some v else es t' k

/-- What is seen in a transaction: what was committed, or else what was assigned. -/
def Entries.under (pending committed : Entries) : Entries :=
  fun t k => (committed t k).or (pending t k)

/-- Assignments one after the other, where `see` is what expressions see of the entries. -/
def denote (names : Map Str Ptr) (see : Entries → Entries) : List Assignment → Entries → Option Entries
  | [], es => some es
  | a :: as, es =>
    (a.value.eval (Leaf.value names (see es)) Operator.apply).bind fun v =>
      (names.lookup a.entry.table).bind fun t => denote names see as (es.write t a.entry.key v)

/-! ## The requests -/

/-- A session with a client, and the replies so far. -/
structure Talk (ι : Type) where
  replies : List (List Str) := []
  session : Session
  server : Server ι

section Talk

variable {ι : Type}

/-- What `decode` gets of a message: its line, which ends at the first NUL. -/
def received (msg : Message) : Except Exn Str := (encode msg).map cString

/-- One request, sent in a line. -/
def Talk.step (i : ι) (msg : Message) (c : Talk ι) : Option (Talk ι) :=
  match received msg with
  | .error _ => none
  | .ok line => ((process (.line line) c.session).exec (serve i) c.server).map fun r =>
      ⟨c.replies ++ [r.1.replies], r.1, r.2⟩

/-- A message that arrives as it was sent. -/
structure Spoken (msg : Message) (line : Str) : Prop where
  received : received msg = .ok line
  decoded : decode line {} = .ok msg

theorem talk_step {i : ι} {msg : Message} {line : Str} {c : Talk ι} {s' : Session} {srv' : Server ι}
    (h : Spoken msg line)
    (he : (process (.line line) c.session).exec (serve i) c.server = some (s', srv')) :
    Talk.step i msg c = some ⟨c.replies ++ [s'.replies], s', srv'⟩ := by
  rw [Talk.step, h.received]
  simp only [he, Option.map_some]

/-- Every request so far was answered OK. -/
def Talk.AllOk (c : Talk ι) : Prop := ∀ r ∈ c.replies, r = [okLine]

theorem allOk_append {c : Talk ι} (h : c.AllOk) {s' : Session} (hs : s'.replies = [okLine]) :
    ∀ r ∈ c.replies ++ [s'.replies], r = [okLine] := by
  intro r hr
  rcases List.mem_append.mp hr with hr | hr
  · exact h r hr
  · rw [List.mem_singleton.mp hr, hs]

/-- What was carried out, and that it was answered OK. -/
theorem talk_inv {i : ι} {msg : Message} {line : Str} {c c' : Talk ι} (h : received msg = .ok line)
    (hstep : Talk.step i msg c = some c') :
    (process (.line line) c.session).exec (serve i) c.server = some (c'.session, c'.server) ∧
      (c'.AllOk → c.AllOk ∧ c'.session.replies = [okLine]) := by
  rw [Talk.step, h] at hstep
  obtain ⟨⟨s', srv'⟩, he, rfl⟩ := Option.map_eq_some_iff.mp hstep
  refine ⟨he, fun hok => ⟨fun r hr => ?_, ?_⟩⟩
  · exact hok r (List.mem_append_left _ hr)
  · exact hok _ (List.mem_append_right _ List.mem_cons_self)

theorem talk_good {i : ι} {msg : Message} {c c' : Talk ι} (hstep : Talk.step i msg c = some c')
    (hok : c'.AllOk) : c.AllOk := by
  unfold Talk.step at hstep
  split at hstep
  · cases hstep
  · obtain ⟨⟨s', srv'⟩, he, rfl⟩ := Option.map_eq_some_iff.mp hstep
    exact fun r hr => hok r (List.mem_append_left _ hr)

end Talk

theorem received_eq {msg : Message} {line : Str} (henc : encode msg = .ok line) :
    received msg = .ok (cString line) := by
  rw [received, henc]
  rfl

theorem encoded_of_received {msg : Message} {line : Str} (h : received msg = .ok line) :
    ∃ enc, encode msg = .ok enc := by
  rw [received] at h
  cases henc : encode msg with
  | ok enc => exact ⟨enc, rfl⟩
  | error e =>
    rw [henc] at h
    cases h

theorem SentAs.received {msg : Message} {line : Str} (h : SentAs msg line) :
    received msg = .ok line := by
  rw [received_eq h.encoded, h.text]

theorem spoken {t : MessageType} {w : Str} {args : List Str} (hw : typeName t = .ok w)
    (hq : ¬ Quoted t) (hlen : (lineOf w args).length ≤ maxEncodedLen)
    (hargs : ∀ a ∈ args, IsWord isspace a) (hnul : ∀ a ∈ args, '\x00' ∉ a)
    (hv : Message.isValid ⟨t, args⟩ = .ok true) : Spoken ⟨t, args⟩ (lineOf w args) := by
  refine ⟨?_, decode_lineOf hw hq hlen hargs hv {}⟩
  rw [received_eq (@encode_ok ⟨t, args⟩ _ hw hlen), cString_eq (lineOf_no_nul hw hnul)]

theorem Literal.words (v : Literal) : ∀ a ∈ [v.val], IsWord isspace a :=
  List.forall_mem_singleton.mpr v.word

theorem spoken_push {v : Literal} (hnul : '\x00' ∉ v.val) :
    Spoken (Leaf.push (.literal v)) (lineOf "PUSH".toList [v.val]) :=
  spoken rfl (by decide) v.fits v.words (List.forall_mem_singleton.mpr hnul)
    (isValid_free rfl rfl v.words)

/-- Of a word with a NUL in it only a part arrives, and no newline. -/
theorem received_nul {v : Literal} (hnul : '\x00' ∈ v.val) : ∃ line,
    received (Leaf.push (.literal v)) = .ok line ∧ decode line {}
      = .error (.invalidMessage "Encoded message is missing a newline.".toList) := by
  have henc := @encode_ok (Leaf.push (.literal v)) _ rfl v.fits
  obtain ⟨body, hbody, hnl⟩ := @lineOf_body .push "PUSH".toList [v.val] rfl
    fun a ha => isWord_no_newline (v.words a ha)
  refine ⟨_, received_eq henc, ?_⟩
  rw [← cString_append_nul]
  refine decode_nul ⟨⟨_, henc⟩, body, hbody, hnl⟩ ?_ {}
  exact List.mem_append_right _ (List.mem_append_left _ (List.mem_cons_of_mem _
    (List.mem_append_left _ hnul)))

/-- An identifier has no newline in it, and no NUL. -/
theorem ident_plain {a : Str} (h : Message.isValidIdentifier a = .ok true) : '\n' ∉ a ∧ '\x00' ∉ a := by
  refine ⟨isWord_no_newline (isWord_of_ident h), fun hnul => ?_⟩
  obtain ⟨c, rest, rfl, hc, hrest⟩ := Message.isValidIdentifier_eq_true.mp h
  rcases List.mem_cons.mp hnul with rfl | hnul
  · exact absurd hc (by decide)
  · exact absurd (List.all_eq_true.mp hrest _ hnul) (by decide)

theorem Entry.words (e : Entry) : ∀ a ∈ [e.table, e.key], IsWord isspace a := by
  intro a ha
  rcases List.mem_cons.mp ha with rfl | ha
  · exact isWord_of_ident e.table_ok
  · rw [List.mem_singleton.mp ha]
    exact isWord_of_ident e.key_ok

theorem Entry.valid (e : Entry) {t : MessageType} (ht : t = .set ∨ t = .get) :
    Message.isValid ⟨t, [e.table, e.key]⟩ = .ok true := by
  have hid : takesIdents t = true ∧ arity t = some 2 := by
    rcases ht with rfl | rfl <;> exact ⟨rfl, rfl⟩
  refine (@isValid_takesIdents t [e.table, e.key] hid.1 hid.2).mpr fun a ha => ?_
  rcases List.mem_cons.mp ha with rfl | ha
  · exact e.table_ok
  · rw [List.mem_singleton.mp ha]
    exact e.key_ok

theorem Entry.plain (e : Entry) : ∀ a ∈ [e.table, e.key], '\n' ∉ a ∧ '\x00' ∉ a := by
  intro a ha
  rcases List.mem_pair.mp ha with rfl | rfl
  · exact ident_plain e.table_ok
  · exact ident_plain e.key_ok

theorem spoken_get (e : Entry) :
    Spoken (Leaf.push (.entry e)) (lineOf "GET".toList [e.table, e.key]) :=
  spoken rfl (show ¬ Quoted .get by decide) e.fits e.words (fun a ha => (e.plain a ha).2)
    (e.valid (.inr rfl))

theorem spoken_set (e : Entry) :
    Spoken (setOperation e.table e.key) (lineOf "SET".toList [e.table, e.key]) :=
  spoken rfl (show ¬ Quoted .set by decide) e.fits e.words (fun a ha => (e.plain a ha).2)
    (e.valid (.inl rfl))

theorem spoken_act (o : Operator) : ∃ line, Spoken o.act line := by
  have hargs : ∀ a ∈ ([] : List Str), IsWord isspace a := fun a ha => absurd ha List.not_mem_nil
  have hnul : ∀ a ∈ ([] : List Str), '\x00' ∉ a := fun a ha => absurd ha List.not_mem_nil
  cases o
  · exact ⟨_, spoken (w := "ADD".toList) rfl (by decide) (by decide) hargs hnul rfl⟩
  · exact ⟨_, spoken (w := "SUB".toList) rfl (by decide) (by decide) hargs hnul rfl⟩
  · exact ⟨_, spoken (w := "MUL".toList) rfl (by decide) (by decide) hargs hnul rfl⟩
  · exact ⟨_, spoken (w := "DIV".toList) rfl (by decide) (by decide) hargs hnul rfl⟩

theorem spoken_begin : Spoken beginOperation "BEGIN\n".toList := ⟨rfl, by decide⟩

theorem spoken_commit : Spoken commitOperation "COMMIT\n".toList := ⟨rfl, by decide⟩

/-- A request between BEGIN and COMMIT. -/
def Inner (msg : Message) : Prop :=
  (∃ a : Leaf, msg = a.push) ∨ (∃ o : Operator, msg = o.act) ∨
    ∃ e : Entry, msg = setOperation e.table e.key

theorem inner_of_mem {as : List Assignment} {msg : Message} (h : msg ∈ as.flatMap Assignment.code) :
    Inner msg := by
  obtain ⟨a, -, h⟩ := List.mem_flatMap.mp h
  rcases List.mem_append.mp h with h | h
  · exact (Expr.mem_code h).imp id .inl
  · exact .inr (.inr ⟨a.entry, List.mem_singleton.mp h⟩)

/-- A message that arrives as it was sent, or cannot be decoded. -/
def Intact (msg : Message) (line : Str) : Prop :=
  received msg = .ok line ∧ ∀ msg', decode line {} = .ok msg' → msg' = msg

theorem Spoken.intact {msg : Message} {line : Str} (h : Spoken msg line) : Intact msg line :=
  ⟨h.received, fun _ hdec => Except.ok.inj (hdec.symm.trans h.decoded)⟩

theorem Inner.intact {msg : Message} (h : Inner msg) : ∃ line, Intact msg line := by
  rcases h with ⟨a, rfl⟩ | ⟨o, rfl⟩ | ⟨e, rfl⟩
  · cases a with
    | literal v =>
      by_cases hnul : '\x00' ∈ v.val
      · obtain ⟨line, hrec, herr⟩ := received_nul hnul
        exact ⟨line, hrec, fun msg' hdec => nomatch herr.symm.trans hdec⟩
      · exact ⟨_, (spoken_push hnul).intact⟩
    | entry e => exact ⟨_, (spoken_get e).intact⟩
  · obtain ⟨line, hline⟩ := spoken_act o
    exact ⟨line, hline.intact⟩
  · exact ⟨_, (spoken_set e).intact⟩

theorem Inner.type {msg : Message} (h : Inner msg) :
    msg.mMessageType ∈ [.push, .get, .add, .sub, .mul, .div, .set] := by
  rcases h with ⟨a, rfl⟩ | ⟨o, rfl⟩ | ⟨e, rfl⟩
  · cases a with
    | literal v => exact List.mem_cons_self
    | entry e =>
      show MessageType.get ∈ _
      decide
  · cases o <;> decide
  · show MessageType.set ∈ _
    decide

/-- The requests of a transaction arrive as they were sent, if they can be decoded. -/
theorem intact_of_mem {as : List Assignment} {msg : Message} (h : msg ∈ transaction as) :
    (∃ line, Intact msg line) ∧ msg.mMessageType ∉ [.login, .create, .bye] := by
  rcases List.mem_cons.mp h with rfl | h
  · exact ⟨⟨_, spoken_begin.intact⟩, by decide⟩
  · rcases List.mem_append.mp h with h | h
    · have hinner := inner_of_mem h
      have hapart : ∀ t ∈ [MessageType.push, .get, .add, .sub, .mul, .div, .set],
          t ∉ [MessageType.login, .create, .bye] := by decide
      exact ⟨hinner.intact, hapart _ hinner.type⟩
    · rw [List.mem_singleton.mp h]
      exact ⟨⟨_, spoken_commit.intact⟩, by decide⟩

theorem Operator.arith (o : Operator) : ∃ op few, BasicServer.arith o.type = some (op, few) := by
  cases o <;> exact ⟨_, _, rfl⟩

/-- Exact arithmetic, where nothing overflows. -/
theorem Operator.apply_exact {o : Operator} {l r : Str} {n m k : Int} (hl : stoi l = .ok n)
    (hr : stoi r = .ok m) (hk : exactResult o.type n m = some k) (hfits : FitsInt k) :
    o.apply l r = some (toStr k) := by
  obtain ⟨op, few, hop⟩ := o.arith
  have htotal : o.type = .div → m ≠ 0 ∧ ¬ (n = intMin ∧ m = -1) := by
    intro hdiv
    rw [hdiv, exactResult] at hk
    split at hk
    · cases hk
    · rename_i hm
      refine ⟨hm, ?_⟩
      rintro ⟨rfl, rfl⟩
      obtain rfl := Option.some.inj hk
      exact absurd hfits.2 (by decide)
  obtain ⟨k', hval⟩ := (op_ok hop).mpr htotal
  obtain ⟨e, he, rfl⟩ := op_exact hop (fitsInt_of_stoi hl) hval
  obtain rfl := Option.some.inj (hk.symm.trans he)
  rw [Operator.apply, hop, hl, hr]
  simp only [hval, Except.toOption, Option.map_some, wrap_of_fits hfits]

/-- The server carries out the operator. -/
theorem Operator.computes {o : Operator} {l r v : Str} (h : o.apply l r = some v) (st : List Str) :
    Computes o.act (r :: l :: st) (v :: st) okLine := by
  unfold Operator.apply at h
  split at h
  · rename_i op few n m hop hl hr
    obtain ⟨k, hk, rfl⟩ := Option.map_eq_some_iff.mp h
    cases hval : op n m with
    | error e =>
      rw [hval] at hk
      cases hk
    | ok k' =>
      rw [hval] at hk
      obtain rfl := Option.some.inj hk
      exact .arith hop hr hl hval
  · cases h

/-- It computes nothing else. -/
theorem Operator.apply_of_computes {o : Operator} {l r line : Str} {st st' : List Str}
    (h : Computes o.act (r :: l :: st) st' line) : ∃ v, o.apply l r = some v := by
  generalize hmsg : o.act = msg at h
  generalize hst : r :: l :: st = st₀ at h
  cases h with
  | push => cases o <;> cases hmsg
  | pop => cases o <;> cases hmsg
  | top => cases o <;> cases hmsg
  | @arith t op few r' l' st'' m n k ht hr hl hop =>
    cases hst
    obtain rfl : o.type = t := congrArg Message.mMessageType hmsg
    exact ⟨toStr k, by rw [Operator.apply, ht, hl, hr]; simp only [hop, Except.toOption, Option.map_some]⟩

section Answered

variable {ι : Type} {i : ι} {c c' : Talk ι}

/-- A request that was answered OK was carried out. -/
theorem answer_of_ok {s s' : Session} {line : Str} {msg : Message} (hout : Outcome s (.line line) s')
    (hdec : decode line {} = .ok msg) (hlogin : msg.mMessageType ≠ .login)
    (hok : s'.replies = [okLine]) : s.firstValidMessage = false ∧ Answer (ready s) msg s' := by
  cases hout with
  | empty => cases hok
  | undecodable h => cases hdec.symm.trans h
  | login h ht =>
    obtain rfl := Except.ok.inj (hdec.symm.trans h)
    exact absurd ht hlogin
  | premature h =>
    rw [replies_released] at hok
    exact absurd (List.singleton_injective hok) (errLine_ne_okLine _)
  | request h _ hfirst ha =>
    obtain rfl := Except.ok.inj (hdec.symm.trans h)
    exact ⟨hfirst, ha⟩

/-- A word that was pushed has no NUL in it. -/
theorem push_ok {v : Literal} (hopen : c.session.loopInProgress = true)
    (hstep : Talk.step i (Leaf.push (.literal v)) c = some c') (hok : c'.AllOk) : '\x00' ∉ v.val := by
  intro hnul
  obtain ⟨line, hrec, herr⟩ := received_nul hnul
  obtain ⟨he, hinv⟩ := talk_inv hrec hstep
  obtain ⟨msg, hdec⟩ := decoded_of_ok (exec_outcome hopen he) (hinv hok).2
  cases herr.symm.trans hdec

/-- A PUSH pushes its word, if it arrives as it was sent. -/
theorem gives_push {v : Literal} {names : Map Str Ptr} {look : Entries} {P : Talk ι → Prop}
    {Q : Str → Talk ι → Prop} (hopen : ∀ c, P c → c.session.loopInProgress = true)
    (hpush : Spoken (Leaf.push (.literal v)) (lineOf "PUSH".toList [v.val]) → ∀ c, P c →
      ∃ c', Talk.step i (Leaf.push (.literal v)) c = some c' ∧ Q v.val c') :
    Gives (Talk.step i) Talk.AllOk P [Leaf.push (.literal v)] (Leaf.value names look (.literal v)) Q := by
  rw [Leaf.value]
  by_cases hnul : '\x00' ∈ v.val
  · rw [if_pos hnul]
    refine .single (fun _ hsome => ?_) fun hc _ hstep hok => ?_
    · cases hsome
    · exact push_ok (hopen _ hc) hstep hok hnul
  · rw [if_neg hnul]
    exact .single_some fun hc => hpush (spoken_push hnul) _ hc

/-- An operator that was answered OK had a result. -/
theorem act_ok {o : Operator} {l r : Str} {st : List Str} (hopen : c.session.loopInProgress = true)
    (hstack : c.session.stack = r :: l :: st) (hstep : Talk.step i o.act c = some c')
    (hok : c'.AllOk) : ∃ v, o.apply l r = some v := by
  obtain ⟨line, hline⟩ := spoken_act o
  obtain ⟨he, hinv⟩ := talk_inv hline.received hstep
  have hreplies := (hinv hok).2
  have hlogin : o.act.mMessageType ≠ .login := by cases o <;> decide
  obtain ⟨-, ha⟩ := answer_of_ok (exec_outcome hopen he) hline.decoded hlogin hreplies
  generalize hmsg : o.act = msg at ha
  generalize c'.session = s' at hreplies ha
  cases ha with
  | computes hcomp =>
    subst hmsg
    have hcomp' : Computes o.act (r :: l :: st) _ _ := hstack ▸ hcomp
    exact Operator.apply_of_computes hcomp'
  | refuses =>
    rw [replies_over rfl] at hreplies
    exact absurd (List.singleton_injective hreplies).symm (okLine_ne _)
  | kills => cases hreplies
  | overlong | begin | commit | bye | created | bound | failed | set | got => cases o <;> cases hmsg

/-- A request for a table is served, if the table can be had. -/
theorem talk_served {mt : MessageType} {name key line : Str} (hrun : MayRun i c.session c.server)
    (hfirst : c.session.firstValidMessage = false) (hmt : UsesTable (ready c.session) mt)
    (hfree : c.session.inTransaction = false → ∀ t, (c.server.tables t).mutex = none)
    (h : Spoken ⟨mt, [name, key]⟩ line) (hstep : Talk.step i ⟨mt, [name, key]⟩ c = some c') :
    Served i (ready c.session) c.server ⟨mt, [name, key]⟩ c'.session c'.server := by
  have hready : MayRun i (ready c.session) c.server :=
    ⟨hrun.live, hrun.mutex, hrun.isOpen, hrun.nodup, hrun.mine, hrun.noTx⟩
  rcases @served_or_waits ι i (ready c.session) c.server hready mt hmt name key with
    ⟨s₁, srv₁, hserved⟩ | ⟨t, -, hno, hbusy⟩
  · have heq := (exec_of_served hrun h.decoded hfirst hserved).symm.trans (talk_inv h.received hstep).1
    obtain ⟨rfl, rfl⟩ := Prod.mk.inj (Option.some.inj heq)
    exact hserved
  · exact absurd (hfree hno t) hbusy

/-- A GET that was answered OK has found an entry. -/
theorem served_get_ok {s s' : Session} {srv srv' : Server ι} {name key : Str} (hno : s.replies = [])
    (hok : s'.replies = [okLine]) (h : Served i s srv ⟨.get, [name, key]⟩ s' srv') :
    ∃ t v, srv.findTable name = some t ∧ (srv.tables t).get key = .ok v := by
  have hfails : ∀ {s₁ : Session} {what : Str}, s₁.replies = [] →
      (answered s₁ (failLine what)).replies ≠ [okLine] := by
    intro s₁ what hs₁ hreplies
    have hline : s₁.replies ++ [failLine what] = [okLine] := hreplies
    rw [hs₁] at hline
    exact okLine_ne _ (List.singleton_injective hline).symm
  cases h with
  | unknown | conflict | missTx => exact absurd hok (hfails ((replies_released _).trans hno))
  | missAuto => exact absurd hok (hfails hno)
  | getTx hname _ _ hget => exact ⟨_, _, hname, hget⟩
  | getAuto hname _ _ hget => exact ⟨_, _, hname, hget⟩

/-- A SET that was answered OK has found its table. -/
theorem served_set_ok {s s' : Session} {srv srv' : Server ι} {name key : Str} (hno : s.replies = [])
    (hok : s'.replies = [okLine]) (h : Served i s srv ⟨.set, [name, key]⟩ s' srv') :
    ∃ t, srv.findTable name = some t := by
  cases h with
  | unknown | conflict =>
    have hline : (released s).replies ++ [failLine _] = [okLine] := hok
    rw [replies_released, hno] at hline
    exact absurd (List.singleton_injective hline).symm (okLine_ne _)
  | setTx _ hname => exact ⟨_, hname⟩
  | setAuto _ hname => exact ⟨_, hname⟩

end Answered

/-! ## In a transaction -/

section Inside

variable {ι : Type} {i : ι} {names : Map Str Ptr} {committed pending : Entries} {st : List Str}

/-- Client `i` is in a transaction, nobody else is; these are the entries and the stack. -/
structure Inside (i : ι) (names : Map Str Ptr) (committed pending : Entries) (st : List Str)
    (c : Talk ι) : Prop where
  run : MayRun i c.session c.server
  first : c.session.firstValidMessage = false
  tx : c.session.inTransaction = true
  stack : c.session.stack = st
  names : c.server.tableNames = names
  others : ∀ t ∉ c.session.lockedTables, (c.server.tables t).mutex = none ∧ (c.server.tables t).Clean
  committed : ∀ t k, (c.server.tables t).keyValuePairs.lookup k = committed t k
  pending : ∀ t k, (c.server.tables t).pending k = pending t k
  ok : c.AllOk

/-- A request on the stack leaves the server as it is. -/
theorem Inside.computes {c : Talk ι} {msg : Message} {st' : List Str} {line : Str}
    (hc : Inside i names committed pending st c) (h : Spoken msg line)
    (hcomp : Computes msg st st' okLine) :
    ∃ c', Talk.step i msg c = some c' ∧ Inside i names committed pending st' c' := by
  have hcomp' : Computes msg c.session.stack st' okLine := hc.stack ▸ hcomp
  have he : (process (.line line) c.session).exec (serve i) c.server
      = some (answered { ready c.session with stack := st' } okLine, c.server) := by
    rw [process_computes hc.run.isOpen hc.first h.decoded hcomp']
    rfl
  refine ⟨_, talk_step h he, ?_⟩
  exact {
    run := ⟨hc.run.live, hc.run.mutex, hc.run.isOpen, hc.run.nodup, hc.run.mine, hc.run.noTx⟩
    first := hc.first
    tx := hc.tx
    stack := rfl
    names := hc.names
    others := hc.others
    committed := hc.committed
    pending := hc.pending
    ok := allOk_append hc.ok rfl }

/-- The table of a request can be had. -/
theorem Inside.acquires {c : Talk ι} (hc : Inside i names committed pending st c) (t : Ptr) :
    Acquires i (ready c.session) c.server t := by
  by_cases ht : t ∈ c.session.lockedTables
  · exact .inl ⟨ht, hc.run.mine t ht⟩
  · exact .inr ⟨ht, (hc.others t ht).1⟩

/-- The tables after a request has taken `t`, and what it holds is `table`. -/
theorem Inside.touch {c : Talk ι} (hc : Inside i names committed pending st c) {t : Ptr}
    {table : Table ι} {s' : Session} {pending' : Entries} {st' : List Str} (hm : table.mutex = some i)
    (hcommitted : ∀ k, table.keyValuePairs.lookup k = committed t k)
    (hpending : ∀ k, table.pending k = pending' t k) (hsame : ∀ t', t' ≠ t → pending' t' = pending t')
    (hs : s' = answered { acquired (ready c.session) t with stack := st' } okLine) :
    Inside i names committed pending' st' ⟨c.replies ++ [s'.replies], s', c.server.setTable t table⟩ := by
  subst hs
  have hother : ∀ {t'}, t' ≠ t → (c.server.setTable t table).tables t' = c.server.tables t' :=
    fun h => Server.tables_setTable_ne _ _ _ h
  have hself : (c.server.setTable t table).tables t = table := Server.tables_setTable ..
  constructor
  case run =>
    refine ⟨hc.run.live, hc.run.mutex, hc.run.isOpen, List.Nodup.insert hc.run.nodup, ?_, ?_⟩
    · intro t' ht'
      by_cases heq : t' = t
      · rw [heq, hself]
        exact hm
      · rw [hother heq]
        exact hc.run.mine t' ((List.mem_insert_iff.mp ht').resolve_left heq)
    · intro hout
      exact absurd (hc.tx.symm.trans hout) (by decide)
  case first => exact hc.first
  case tx => exact hc.tx
  case stack => rfl
  case names => exact hc.names
  case others =>
    intro t' ht'
    have hne : t' ≠ t := fun heq => ht' (heq ▸ List.mem_insert_self)
    rw [hother hne]
    exact hc.others t' fun hmem => ht' (List.mem_insert_of_mem hmem)
  case committed =>
    intro t' k
    by_cases heq : t' = t
    · subst heq
      rw [hself]
      exact hcommitted k
    · rw [hother heq]
      exact hc.committed t' k
  case pending =>
    intro t' k
    by_cases heq : t' = t
    · subst heq
      rw [hself]
      exact hpending k
    · rw [hother heq, hsame t' heq]
      exact hc.pending t' k
  case ok => exact allOk_append hc.ok rfl

/-- An operator puts its result in place of its operands. -/
theorem Inside.act {o : Operator} {l r : Str} :
    Gives (Talk.step i) Talk.AllOk (Inside i names committed pending (r :: l :: st)) [o.act] (o.apply l r)
      fun v => Inside i names committed pending (v :: st) := by
  refine .single ?_ ?_
  · intro c v hc hv
    obtain ⟨line, hline⟩ := spoken_act o
    exact hc.computes hline (Operator.computes hv st)
  · intro c c' hc hno hstep hok
    obtain ⟨v, hv⟩ := act_ok hc.run.isOpen hc.stack hstep hok
    exact Option.some_ne_none v (hv.symm.trans hno)

/-- A GET pushes what is seen of an entry. -/
theorem Inside.get {e : Entry} :
    Gives (Talk.step i) Talk.AllOk (Inside i names committed pending st) [Leaf.push (.entry e)]
      (Leaf.value names (pending.under committed) (.entry e))
      fun v => Inside i names committed pending (v :: st) := by
  refine .single ?_ ?_
  · intro c v hc hv
    obtain ⟨t, hname, hv⟩ := Option.bind_eq_some_iff.mp hv
    have hfind : c.server.findTable e.table = some t := by rw [Server.findTable, hc.names, hname]
    have hget : (c.server.tables t).get e.key = .ok v := by
      rw [Table.get_ok_iff, hc.committed, hc.pending]
      exact hv
    have he := exec_of_effect hc.run (.served (spoken_get e).decoded hc.first
      (.getTx (s := ready c.session) hfind hc.tx (hc.acquires t) hget))
    refine ⟨_, talk_step (spoken_get e) he, ?_⟩
    refine hc.touch rfl (hc.committed t) (hc.pending t) (fun _ _ => rfl) ?_
    rw [← hc.stack]
    rfl
  · intro c c' hc hno hstep hok
    have hserved := talk_served hc.run hc.first (.inr rfl)
      (fun hout => absurd (hc.tx.symm.trans hout) (by decide)) (spoken_get e) hstep
    obtain ⟨t, v, hfind, hget⟩ := served_get_ok rfl ((talk_inv (spoken_get e).received hstep).2 hok).2 hserved
    have hname : names.lookup e.table = some t := hc.names ▸ hfind
    have hv : pending.under committed t e.key = some v := by
      rw [Table.get_ok_iff, hc.committed, hc.pending] at hget
      exact hget
    exact Option.some_ne_none v ((Option.bind_eq_some_iff.mpr ⟨t, hname, hv⟩).symm.trans hno)

/-- A SET writes the value on the stack to an entry. -/
theorem Inside.set {e : Entry} {v : Str} :
    Gives (Talk.step i) Talk.AllOk (Inside i names committed pending (v :: st))
      [setOperation e.table e.key] (names.lookup e.table)
      fun t => Inside i names committed (pending.write t e.key v) st := by
  refine .single ?_ ?_
  · intro c t hc hname
    have hfind : c.server.findTable e.table = some t := by rw [Server.findTable, hc.names, hname]
    have he := exec_of_effect hc.run (.served (spoken_set e).decoded hc.first
      (.setTx (s := ready c.session) hc.stack hfind hc.tx (hc.acquires t)))
    refine ⟨_, talk_step (spoken_set e) he, ?_⟩
    refine hc.touch rfl (hc.committed t) (fun k => ?_) (fun t' ht' => ?_) rfl
    · show ((c.server.tables t).set e.key v).pending k = _
      rw [Table.pending_set, Entries.write, hc.pending]
      by_cases hk : k = e.key
      · rw [if_pos hk, if_pos ⟨rfl, hk⟩]
      · rw [if_neg hk, if_neg fun h => hk h.2]
    · funext k
      rw [Entries.write, if_neg fun h => ht' h.1]
  · intro c c' hc hno hstep hok
    have hstack : c.session.stack ≠ [] := hc.stack ▸ List.cons_ne_nil v st
    have hserved := talk_served hc.run hc.first (.inl ⟨rfl, hstack⟩)
      (fun hout => absurd (hc.tx.symm.trans hout) (by decide)) (spoken_set e) hstep
    obtain ⟨t, hfind⟩ := served_set_ok rfl ((talk_inv (spoken_set e).received hstep).2 hok).2 hserved
    have hname : names.lookup e.table = some t := hc.names ▸ hfind
    exact Option.some_ne_none t (hname.symm.trans hno)

/-- The code of an expression, in a transaction. -/
theorem Inside.eval (e : Expr Leaf Operator) (st : List Str) :
    Gives (Talk.step i) Talk.AllOk (Inside i names committed pending st)
      (e.code Leaf.push Operator.act) (e.eval (Leaf.value names (pending.under committed)) Operator.apply)
      fun v => Inside i names committed pending (v :: st) := by
  refine @Expr.code_gives _ _ _ _ _ _ _ (Inside i names committed pending) _ _ _ _ talk_good ?_ ?_ e st
  · intro a st
    cases a with
    | literal v => exact gives_push (fun _ hc => hc.run.isOpen) fun hv _ hc => hc.computes hv .push
    | entry e => exact Inside.get
  · intro o l r st
    exact Inside.act

/-- Assignments, in a transaction. -/
theorem Inside.assign (as : List Assignment) (pending : Entries) :
    Gives (Talk.step i) Talk.AllOk (Inside i names committed pending st) (as.flatMap Assignment.code)
      (denote names (·.under committed) as pending)
      fun final => Inside i names committed final st := by
  induction as generalizing pending with
  | nil => exact .nil id
  | cons a as ih =>
    rw [List.flatMap_cons, Assignment.code, List.append_assoc, denote]
    exact (Inside.eval a.value st).bind talk_good fun v _ =>
      Inside.set.bind talk_good fun t _ => ih (pending.write t a.entry.key v)

end Inside

/-! ## Outside of one -/

section Outside

variable {ι : Type} {i : ι} {names : Map Str Ptr} {committed pending : Entries} {st : List Str}

/-- No transaction is open; these are the entries and the stack. -/
structure Outside (i : ι) (names : Map Str Ptr) (committed : Entries) (st : List Str) (c : Talk ι) :
    Prop where
  isOpen : c.session.loopInProgress = true
  first : c.session.firstValidMessage = false
  tx : c.session.inTransaction = false
  tables : c.session.lockedTables = []
  stack : c.session.stack = st
  idle : Idle names c.server
  committed : ∀ t k, (c.server.tables t).keyValuePairs.lookup k = committed t k
  ok : c.AllOk

theorem Outside.mayRun {c : Talk ι} (hc : Outside i names committed st c) :
    MayRun i c.session c.server where
  live := hc.idle.live
  mutex := hc.idle.mutex
  isOpen := hc.isOpen
  nodup := by
    rw [hc.tables]
    exact List.nodup_nil
  mine t ht := by
    rw [hc.tables] at ht
    cases ht
  noTx _ := hc.tables

theorem Outside.computes {c : Talk ι} {msg : Message} {st' : List Str} {line : Str}
    (hc : Outside i names committed st c) (h : Spoken msg line) (hcomp : Computes msg st st' okLine) :
    ∃ c', Talk.step i msg c = some c' ∧ Outside i names committed st' c' := by
  have hcomp' : Computes msg c.session.stack st' okLine := hc.stack ▸ hcomp
  have he : (process (.line line) c.session).exec (serve i) c.server
      = some (answered { ready c.session with stack := st' } okLine, c.server) := by
    rw [process_computes hc.isOpen hc.first h.decoded hcomp']
    rfl
  refine ⟨_, talk_step h he, ?_⟩
  exact ⟨hc.isOpen, hc.first, hc.tx, hc.tables, rfl, hc.idle, hc.committed, allOk_append hc.ok rfl⟩

/-- An operator puts its result in place of its operands. -/
theorem Outside.act {o : Operator} {l r : Str} :
    Gives (Talk.step i) Talk.AllOk (Outside i names committed (r :: l :: st)) [o.act] (o.apply l r)
      fun v => Outside i names committed (v :: st) := by
  refine .single ?_ ?_
  · intro c v hc hv
    obtain ⟨line, hline⟩ := spoken_act o
    exact hc.computes hline (Operator.computes hv st)
  · intro c c' hc hno hstep hok
    obtain ⟨v, hv⟩ := act_ok hc.isOpen hc.stack hstep hok
    exact Option.some_ne_none v (hv.symm.trans hno)

/-- A GET pushes an entry. -/
theorem Outside.get {e : Entry} :
    Gives (Talk.step i) Talk.AllOk (Outside i names committed st) [Leaf.push (.entry e)]
      (Leaf.value names committed (.entry e)) fun v => Outside i names committed (v :: st) := by
  have hsees : ∀ {c : Talk ι} {t v}, Outside i names committed st c →
      ((c.server.tables t).get e.key = .ok v ↔ committed t e.key = some v) := by
    intro c t v hc
    rw [Table.get_ok_iff, hc.idle.clean t, hc.committed, Option.or_self]
  refine .single ?_ ?_
  · intro c v hc hv
    obtain ⟨t, hname, hv⟩ := Option.bind_eq_some_iff.mp hv
    have hfind : c.server.findTable e.table = some t := by rw [Server.findTable, hc.idle.names, hname]
    have he := exec_of_effect hc.mayRun (.served (spoken_get e).decoded hc.first
      (.getAuto (s := ready c.session) hfind hc.tx (hc.idle.free t) ((hsees hc).mpr hv)))
    refine ⟨_, talk_step (spoken_get e) he, ?_⟩
    refine ⟨hc.isOpen, hc.first, hc.tx, hc.tables, ?_, hc.idle, hc.committed, allOk_append hc.ok rfl⟩
    exact congrArg (v :: ·) hc.stack
  · intro c c' hc hno hstep hok
    have hserved := talk_served hc.mayRun hc.first (.inr rfl) (fun _ => hc.idle.free) (spoken_get e) hstep
    obtain ⟨t, v, hfind, hget⟩ := served_get_ok rfl ((talk_inv (spoken_get e).received hstep).2 hok).2 hserved
    have hname : names.lookup e.table = some t := hc.idle.names ▸ hfind
    have hv := (hsees hc).mp hget
    exact Option.some_ne_none v ((Option.bind_eq_some_iff.mpr ⟨t, hname, hv⟩).symm.trans hno)

/-- The entries after a SET. -/
theorem Outside.write {c : Talk ι} {e : Entry} {t : Ptr} {v : Str} {s' : Session}
    (hc : Outside i names committed (v :: st) c)
    (hs : s' = answered { ready c.session with stack := st } okLine) :
    Outside i names (committed.write t e.key v) st ⟨c.replies ++ [s'.replies], s',
      c.server.setTable t ((c.server.tables t).set e.key v).commitChanges⟩ := by
  subst hs
  have hother : ∀ {t'}, t' ≠ t → (c.server.setTable t
      ((c.server.tables t).set e.key v).commitChanges).tables t' = c.server.tables t' :=
    fun h => Server.tables_setTable_ne _ _ _ h
  refine ⟨hc.isOpen, hc.first, hc.tx, hc.tables, rfl, ?_, fun t' k => ?_, allOk_append hc.ok rfl⟩
  · refine ⟨hc.idle.live, hc.idle.mutex, fun t' => ?_, fun t' => ?_, hc.idle.names⟩
    · by_cases heq : t' = t
      · rw [heq, Server.tables_setTable]
        exact hc.idle.free t
      · rw [hother heq]
        exact hc.idle.free t'
    · by_cases heq : t' = t
      · rw [heq, Server.tables_setTable]
        exact Table.clean_commitChanges _
      · rw [hother heq]
        exact hc.idle.clean t'
  · rw [Entries.write]
    by_cases heq : t' = t
    · rw [heq, Server.tables_setTable, Table.lookup_commitChanges, Table.pending_set, hc.idle.clean,
        hc.committed]
      by_cases hk : k = e.key
      · rw [if_pos hk, if_pos ⟨rfl, hk⟩]
      · rw [if_neg hk, if_neg fun h => hk h.2]
    · rw [hother heq, if_neg fun h => heq h.1]
      exact hc.committed t' k

/-- A SET writes the value on the stack to an entry. -/
theorem Outside.set {e : Entry} {v : Str} :
    Gives (Talk.step i) Talk.AllOk (Outside i names committed (v :: st))
      [setOperation e.table e.key] (names.lookup e.table)
      fun t => Outside i names (committed.write t e.key v) st := by
  refine .single ?_ ?_
  · intro c t hc hname
    have hfind : c.server.findTable e.table = some t := by rw [Server.findTable, hc.idle.names, hname]
    have he := exec_of_effect hc.mayRun (.served (spoken_set e).decoded hc.first
      (.setAuto (s := ready c.session) hc.stack hfind hc.tx (hc.idle.free t)))
    exact ⟨_, talk_step (spoken_set e) he, hc.write rfl⟩
  · intro c c' hc hno hstep hok
    have hstack : c.session.stack ≠ [] := hc.stack ▸ List.cons_ne_nil v st
    have hserved := talk_served hc.mayRun hc.first (.inl ⟨rfl, hstack⟩) (fun _ => hc.idle.free)
      (spoken_set e) hstep
    obtain ⟨t, hfind⟩ := served_set_ok rfl ((talk_inv (spoken_set e).received hstep).2 hok).2 hserved
    have hname : names.lookup e.table = some t := hc.idle.names ▸ hfind
    exact Option.some_ne_none t (hname.symm.trans hno)

/-- The code of an expression, outside of a transaction. -/
theorem Outside.eval (e : Expr Leaf Operator) (st : List Str) :
    Gives (Talk.step i) Talk.AllOk (Outside i names committed st)
      (e.code Leaf.push Operator.act) (e.eval (Leaf.value names committed) Operator.apply)
      fun v => Outside i names committed (v :: st) := by
  refine @Expr.code_gives _ _ _ _ _ _ _ (Outside i names committed) _ _ _ _ talk_good ?_ ?_ e st
  · intro a st
    cases a with
    | literal v => exact gives_push (fun _ hc => hc.isOpen) fun hv _ hc => hc.computes hv .push
    | entry e => exact Outside.get
  · intro o l r st
    exact Outside.act

/-- Assignments, outside of a transaction. -/
theorem Outside.assign (as : List Assignment) (committed : Entries) :
    Gives (Talk.step i) Talk.AllOk (Outside i names committed st) (as.flatMap Assignment.code)
      (denote names id as committed) fun final => Outside i names final st := by
  induction as generalizing committed with
  | nil => exact .nil id
  | cons a as ih =>
    rw [List.flatMap_cons, Assignment.code, List.append_assoc, denote]
    exact (Outside.eval a.value st).bind talk_good fun v _ =>
      Outside.set.bind talk_good fun t _ => ih (committed.write t a.entry.key v)

theorem Outside.begin : Gives (Talk.step i) Talk.AllOk (Outside i names committed st) [beginOperation]
    (some committed) fun pending => Inside i names committed pending st := by
  refine .single_some fun {c} hc => ?_
  have he := exec_of_effect hc.mayRun (.begin spoken_begin.decoded hc.first hc.tx)
  refine ⟨_, talk_step spoken_begin he, ?_⟩
  constructor
  case run =>
    have hrun := hc.mayRun
    exact ⟨hrun.live, hrun.mutex, hrun.isOpen, hrun.nodup, hrun.mine, fun _ => hc.tables⟩
  case first => exact hc.first
  case tx => rfl
  case stack => exact hc.stack
  case names => exact hc.idle.names
  case others => exact fun t _ => ⟨hc.idle.free t, hc.idle.clean t⟩
  case committed => exact hc.committed
  case pending =>
    intro t k
    rw [hc.idle.clean t k]
    exact hc.committed t k
  case ok => exact allOk_append hc.ok rfl

theorem Inside.commit : Gives (Talk.step i) Talk.AllOk (Inside i names committed pending st)
    [commitOperation] (some pending) fun final => Outside i names final st := by
  refine .single_some fun {c} hc => ?_
  have he := exec_of_effect hc.run (.served spoken_commit.decoded hc.first
    (.commit (s := ready c.session) hc.tx))
  refine ⟨_, talk_step spoken_commit he, ?_⟩
  have hmine : ∀ {t}, t ∈ c.session.lockedTables →
      (c.server.release Table.commitChanges c.session.lockedTables).tables t
        = { (c.server.tables t).commitChanges with mutex := none } :=
    fun h => Server.tables_release_mem _ _ _ _ h
  have hother : ∀ {t}, t ∉ c.session.lockedTables →
      (c.server.release Table.commitChanges c.session.lockedTables).tables t = c.server.tables t :=
    fun h => Server.tables_release_not _ _ _ _ h
  refine ⟨hc.run.isOpen, hc.first, rfl, rfl, hc.stack, ?_, fun t k => ?_, allOk_append hc.ok rfl⟩
  · refine ⟨hc.run.live, hc.run.mutex, fun t => ?_, fun t => ?_, hc.names⟩
    · by_cases ht : t ∈ c.session.lockedTables
      · exact congrArg Table.mutex (hmine ht)
      · exact (congrArg Table.mutex (hother ht)).trans (hc.others t ht).1
    · by_cases ht : t ∈ c.session.lockedTables
      · show ((c.server.release Table.commitChanges c.session.lockedTables).tables t).Clean
        rw [hmine ht]
        exact (Table.clean_commitChanges _).withMutex none
      · show ((c.server.release Table.commitChanges c.session.lockedTables).tables t).Clean
        rw [hother ht]
        exact (hc.others t ht).2
  · show ((c.server.release Table.commitChanges c.session.lockedTables).tables t).keyValuePairs.lookup k
      = pending t k
    by_cases ht : t ∈ c.session.lockedTables
    · rw [hmine ht, ← hc.pending t k]
      exact Table.lookup_commitChanges _ k
    · -- nothing was assigned in a table that is not locked
      rw [hother ht, ← hc.pending t k]
      exact ((hc.others t ht).2 k).symm

end Outside

/-! ## The theorems -/

section Computes

variable {ι : Type} {i : ι} {names : Map Str Ptr} {committed final : Entries} {st : List Str}
  {as : List Assignment}

/-- The requests of a transaction. -/
theorem transaction_gives (as : List Assignment) :
    Gives (Talk.step i) Talk.AllOk (Outside i names committed st) (transaction as)
      (denote names (·.under committed) as committed) fun final => Outside i names final st := by
  have hall := (@Outside.begin ι i names committed st).bind talk_good fun pending _ =>
    (Inside.assign as pending).bind talk_good fun final _ => Inside.commit
  rw [Option.bind_some, Option.bind_fun_some] at hall
  exact hall

/-- **What a transaction computes.**  Its requests are all answered OK exactly if its assignments have
    a meaning, where expressions see what was committed before.  COMMIT makes them all, and the value
    stack is as it was. -/
theorem transaction_computes {c : Talk ι} (hc : Outside i names committed st c) :
    (∀ final, denote names (·.under committed) as committed = some final →
      ∃ c', run (Talk.step i) (transaction as) c = some c' ∧ Outside i names final st c') ∧
    (denote names (·.under committed) as committed = none →
      ∀ c', run (Talk.step i) (transaction as) c = some c' → ¬ c'.AllOk) :=
  ⟨fun _ => (transaction_gives as).computes hc, fun h _ => (transaction_gives as).fails hc h⟩

/-- The value that `b` assigns does not depend on the entry that `a` assigns to. -/
def Untouched (names : Map Str Ptr) (a b : Assignment) : Prop :=
  ∀ e, Leaf.entry e ∈ b.value.leaves →
    names.lookup e.table ≠ names.lookup a.entry.table ∨ e.key ≠ a.entry.key

/-- Where nothing is read after it was assigned, both ways to see the entries are the same. -/
theorem denote_agree {es : Entries} (hpair : as.Pairwise (Untouched names))
    (hsee : ∀ a ∈ as, ∀ e, Leaf.entry e ∈ a.value.leaves → ∀ t, names.lookup e.table = some t →
      es.under committed t e.key = es t e.key) :
    denote names (·.under committed) as es = denote names id as es := by
  induction as generalizing es with
  | nil => rfl
  | cons a as ih =>
    obtain ⟨hhead, htail⟩ := List.forall_mem_cons.mp hsee
    obtain ⟨hfirst, hrest⟩ := List.pairwise_cons.mp hpair
    have heval : a.value.eval (Leaf.value names (es.under committed)) Operator.apply
        = a.value.eval (Leaf.value names es) Operator.apply := by
      refine Expr.eval_congr fun leaf hleaf => ?_
      cases leaf with
      | literal w => rfl
      | entry e =>
        show (names.lookup e.table).bind _ = (names.lookup e.table).bind _
        cases hname : names.lookup e.table with
        | none => rfl
        | some t => exact hhead e hleaf t hname
    rw [denote, denote, heval]
    simp only [id]
    congr 1
    funext v
    cases hname : names.lookup a.entry.table with
    | none => rfl
    | some t =>
      -- what the others read is not what was written
      refine ih hrest fun b hb e he t' hname' => ?_
      have hne : ¬ (t' = t ∧ e.key = a.entry.key) := by
        rintro ⟨rfl, hkey⟩
        rcases hfirst b hb e he with hdiff | hdiff
        · exact hdiff (hname'.trans hname.symm)
        · exact hdiff hkey
      have hold := htail b hb e he t' hname'
      rw [Entries.under] at hold ⊢
      rw [Entries.write, if_neg hne]
      exact hold

/-- **A transaction, or one request after the other.**  If no expression reads what was assigned
    before, then either a transaction and autocommit requests are both answered OK throughout, and
    leave the same entries, or neither is. -/
theorem transaction_autocommit {c : Talk ι} (hpair : as.Pairwise (Untouched names))
    (hc : Outside i names committed st c) :
    (∀ final, denote names id as committed = some final →
      ∃ c₁ c₂, run (Talk.step i) (transaction as) c = some c₁ ∧
        run (Talk.step i) (as.flatMap Assignment.code) c = some c₂ ∧
        Outside i names final st c₁ ∧ Outside i names final st c₂) ∧
    (denote names id as committed = none →
      ∀ c', run (Talk.step i) (transaction as) c = some c' ∨
        run (Talk.step i) (as.flatMap Assignment.code) c = some c' → ¬ c'.AllOk) := by
  have hagree : denote names (·.under committed) as committed = denote names id as committed :=
    denote_agree hpair fun a _ e _ t _ => Option.or_self
  have htx := @transaction_gives ι i names committed st as
  have hauto := @Outside.assign ι i names st as committed
  rw [hagree] at htx
  constructor
  · intro final hden
    obtain ⟨c₁, hrun₁, hc₁⟩ := htx.computes hc hden
    obtain ⟨c₂, hrun₂, hc₂⟩ := hauto.computes hc hden
    exact ⟨c₁, c₂, hrun₁, hrun₂, hc₁, hc₂⟩
  · intro hden c' hrun
    rcases hrun with hrun | hrun
    · exact htx.fails hc hden hrun
    · exact hauto.fails hc hden hrun

end Computes

/-! ## An example -/

/-- A server with the entry `k` of the table `t`, which is 41. -/
def withEntry : Server Unit :=
  (({} : Server Unit).createTable "t".toList).setTable 0
    (((({} : Server Unit).createTable "t".toList).tables 0).set "k".toList "41".toList).commitChanges

/-- A client that has logged in there. -/
def loggedInThere : Talk Unit := { session := { firstValidMessage := false }, server := withEntry }

/-- Increment `k`, and keep the old value in `j`. -/
def bump : List Assignment :=
  let k : Entry := ⟨"t".toList, "k".toList, by decide, by decide, by decide⟩
  let j : Entry := ⟨"t".toList, "j".toList, by decide, by decide, by decide⟩
  [⟨j, .leaf (.entry k)⟩,
    ⟨k, .node .add (.leaf (.entry k)) (.leaf (.literal ⟨"1".toList, by decide, by decide⟩))⟩]

theorem outside_there : Outside () withEntry.tableNames withEntry.entries [] loggedInThere where
  isOpen := rfl
  first := rfl
  tx := rfl
  tables := rfl
  stack := rfl
  idle := by
    have htables : ∀ t, (withEntry.tables t).mutex = none ∧ (withEntry.tables t).Clean := by
      intro t
      by_cases ht : t = 0
      · subst ht
        exact ⟨rfl, Table.clean_commitChanges _⟩
      · have hother : withEntry.tables t = (({} : Server Unit).createTable "t".toList).tables t :=
          Server.tables_setTable_ne _ _ _ ht
        rw [hother, Server.tables_createTable_ne _ _ _ ht]
        exact ⟨rfl, Table.clean_empty⟩
    exact ⟨rfl, rfl, fun t => (htables t).1, fun t => (htables t).2, rfl⟩
  committed _ _ := rfl
  ok _ h := absurd h List.not_mem_nil

theorem one_there : '\x00' ∉ "1".toList := by decide

theorem add_there : Operator.add.apply "41".toList "1".toList = some "42".toList := by decide +kernel

theorem denote_bump : denote withEntry.tableNames id bump withEntry.entries
    = some ((withEntry.entries.write 0 "j".toList "41".toList).write 0 "k".toList "42".toList) := by
  have ht : withEntry.tableNames.lookup "t".toList = some 0 := rfl
  have hk : withEntry.entries 0 "k".toList = some "41".toList := rfl
  have hk' : withEntry.entries.write 0 "j".toList "41".toList 0 "k".toList = some "41".toList := rfl
  simp only [bump, denote, Expr.eval, Leaf.value, if_neg one_there, ht, id, Option.bind_some, hk, hk',
    add_there]

/-- In a transaction, `j` gets the old value also if `k` comes first. -/
theorem transaction_computes_old : ∃ c,
    run (Talk.step ()) (transaction bump.reverse) loggedInThere = some c ∧
    (c.server.tables 0).keyValuePairs.lookup "k".toList = some "42".toList ∧
    (c.server.tables 0).keyValuePairs.lookup "j".toList = some "41".toList := by
  have hden : denote withEntry.tableNames (·.under withEntry.entries) bump.reverse withEntry.entries
      = some ((withEntry.entries.write 0 "k".toList "42".toList).write 0 "j".toList "41".toList) := by
    have ht : withEntry.tableNames.lookup "t".toList = some 0 := rfl
    have hk : withEntry.entries.under withEntry.entries 0 "k".toList = some "41".toList := rfl
    -- the new value is not seen
    have hk' : (withEntry.entries.write 0 "k".toList "42".toList).under withEntry.entries 0 "k".toList
        = some "41".toList := rfl
    simp only [bump, List.reverse_cons, List.reverse_nil, List.nil_append, List.cons_append, denote,
      Expr.eval, Leaf.value, if_neg one_there, ht, Option.bind_some, hk, hk', add_there]
  obtain ⟨c, hrun, hc⟩ := (@transaction_computes Unit () _ _ [] _ _ outside_there).1 _ hden
  exact ⟨c, hrun, hc.committed 0 _, hc.committed 0 _⟩

theorem untouched_bump : bump.Pairwise (Untouched withEntry.tableNames) := by
  refine List.pairwise_pair.mpr fun e he => .inr ?_
  rcases List.mem_cons.mp he with he | he
  · cases he
    decide
  · cases List.mem_singleton.mp he

theorem transaction_autocommit_bump : ∃ c₁ c₂,
    run (Talk.step ()) (transaction bump) loggedInThere = some c₁ ∧
    run (Talk.step ()) (bump.flatMap Assignment.code) loggedInThere = some c₂ ∧
    (c₁.server.tables 0).keyValuePairs.lookup "k".toList = some "42".toList ∧
    (c₂.server.tables 0).keyValuePairs.lookup "k".toList = some "42".toList := by
  obtain ⟨c₁, c₂, hrun₁, hrun₂, hc₁, hc₂⟩ :=
    (transaction_autocommit (i := ()) untouched_bump outside_there).1 _ denote_bump
  exact ⟨c₁, c₂, hrun₁, hrun₂, hc₁.committed 0 _, hc₂.committed 0 _⟩

end BasicServer
