/-
  ADD, SUB, MUL and DIV against arithmetic.

  The four handlers are one text: two operands are converted with `std::stoi`, the result is printed
  with `std::to_string`.  What can go wrong for an answer OK is then the same for all four.  `std::stoi`
  stops at the first character that is no digit, and the result of the `int` operation may not be
  the exact one.  `exactAnswer_iff` says that nothing else goes wrong.
-/
import BasicServer.Answers

namespace BasicServer

/-- The string is, as a whole, a decimal numeral: an optional sign, and digits. -/
def Numeral (s : Str) (n : Int) : Prop :=
  ∃ negative digits, splitSign s = (negative, digits) ∧ digits ≠ [] ∧
    digits.all Char.isDigit = true ∧ n = signed negative (Nat.ofDigitChars 10 digits 0)

/-- The exact result of an arithmetic request, if there is one. -/
def exactResult : MessageType → Int → Int → Option Int
  | .add, left, right => some (left + right)
  | .sub, left, right => some (left - right)
  | .mul, left, right => some (left * right)
  | .div, left, right => if right = 0 then none else some (left.tdiv right)
  | _, _, _ => none

/-- However the calls are answered, an answer OK to the arithmetic request `t` on the line `buf`
    means that both operands are numerals, and that the exact result has taken their place. -/
def ExactAnswer (s : Session) (buf : Str) (t : MessageType) (r l : Str) (st : List Str) : Prop :=
  (process (.line buf) s).wp (anyAnswer False) (fun s' _ => s'.replies = [okLine] →
    ∃ m n k, Numeral r m ∧ Numeral l n ∧ exactResult t n m = some k ∧ s'.stack = toStr k :: st) ()

/-- If `std::stoi` parses both operands and the operation does not trap, then the operands are
    numerals to the end, and the exact result fits an `int`. -/
def KeepsExact (t : MessageType) (r l : Str) : Prop :=
  ∀ m n, stoi r = .ok m → stoi l = .ok n → (t = .div → m ≠ 0 ∧ ¬ (n = intMin ∧ m = -1)) →
    Numeral r m ∧ Numeral l n ∧ ∀ k, exactResult t n m = some k → FitsInt k

/-! ## Numerals -/

/-- A numeral starts with no white space. -/
theorem dropWhile_numeral {s : Str} {n : Int} (h : Numeral s n) : s.dropWhile isspace = s := by
  obtain ⟨negative, digits, hsplit, hne, hall, -⟩ := h
  cases s with
  | nil => rfl
  | cons c s =>
    have hc : c = '-' ∨ c = '+' ∨ c.isDigit = true := by
      unfold splitSign at hsplit
      split at hsplit
      · rename_i hs
        exact .inl (List.cons.inj hs).1
      · rename_i hs
        exact .inr (.inl (List.cons.inj hs).1)
      · obtain ⟨-, rfl⟩ := Prod.mk.inj hsplit
        exact .inr (.inr (List.all_eq_true.mp hall c (List.mem_cons_self ..)))
    have hspace : isspace c = false := by
      cases hs : isspace c with
      | false => rfl
      | true =>
        exfalso
        simp only [isspace, Bool.or_eq_true, decide_eq_true_eq] at hs
        rcases hs with ((((rfl | rfl) | rfl) | rfl) | rfl) | rfl <;>
          exact absurd hc (by decide)
    rw [List.dropWhile_cons, hspace]
    rfl

/-- `std::stoi` reads a numeral as the number that it denotes. -/
theorem stoi_numeral {s : Str} {n : Int} (h : Numeral s n) :
    stoi s = if FitsInt n then .ok n else .error .outOfRange := by
  have hdrop := dropWhile_numeral h
  obtain ⟨negative, digits, hsplit, hne, hall, rfl⟩ := h
  have htake : digits.takeWhile Char.isDigit = digits :=
    List.takeWhile_eq_self_iff.mpr (List.all_eq_true.mp hall)
  simp only [stoi, hdrop, hsplit, htake, if_neg hne]

/-- A string that is parsed denotes, if it is a numeral, what it was parsed to. -/
theorem numeral_of_stoi {s : Str} {n m : Int} (h : Numeral s n) (hs : stoi s = .ok m) : n = m := by
  rw [stoi_numeral h] at hs
  split at hs
  · exact Except.ok.inj hs
  · cases hs

/-! ## The four operations -/

section Operations

variable {t : MessageType} {op : Int → Int → Except Exn Int} {few : Str} {n m : Int}

/-- The operation wraps the exact result around. -/
theorem op_exact (ht : arith t = some (op, few)) (hn : FitsInt n) {k : Int} (hop : op n m = .ok k) :
    ∃ e, exactResult t n m = some e ∧ k = wrap e := by
  cases t <;> cases ht
  case add =>
    obtain rfl := Except.ok.inj hop
    exact ⟨_, rfl, rfl⟩
  case sub =>
    obtain rfl := Except.ok.inj hop
    exact ⟨_, rfl, rfl⟩
  case mul =>
    obtain rfl := Except.ok.inj hop
    exact ⟨_, rfl, rfl⟩
  case div =>
    unfold intDiv at hop
    split at hop
    · cases hop
    · rename_i hd
      obtain rfl := Except.ok.inj hop
      have hm : m ≠ 0 := fun h => hd (.inl h)
      refine ⟨n.tdiv m, if_neg hm, ?_⟩
      exact (wrap_of_fits (fitsInt_tdiv hn hm fun h => hd (.inr h))).symm

/-- Where the operation gives a value. -/
theorem op_ok (ht : arith t = some (op, few)) :
    (∃ k, op n m = .ok k) ↔ (t = .div → m ≠ 0 ∧ ¬ (n = intMin ∧ m = -1)) := by
  cases t <;> cases ht
  case div =>
    unfold intDiv
    split
    · rename_i hd
      refine iff_of_false nofun fun h => ?_
      obtain ⟨hm, hno⟩ := h rfl
      exact hd.elim hm hno
    · rename_i hd
      exact iff_of_true ⟨_, rfl⟩ fun _ => not_or.mp hd
  all_goals exact iff_of_true ⟨_, rfl⟩ nofun

end Operations

/-! ## Answers -/

section Answers

variable {s : Session} {buf : Str} {t : MessageType} {r l : Str} {st : List Str}

/-- A request that is refused is not answered OK. -/
theorem refuses_not_ok {msg : Message} {st' : List Str} {what : Str} {P : Session → Prop}
    (hdec : decode buf {} = .ok msg) (hlogin : msg.mMessageType ≠ .login)
    (hfirst : s.firstValidMessage = false) (h : Refuses msg s.inTransaction s.stack st' what) :
    (process (.line buf) s).wp (anyAnswer False) (fun s' _ => s'.replies = [okLine] → P s') () := by
  rw [process_respond hdec hlogin hfirst, respond_refuses (s := ready s) h, wp_failWith]
  intro hok
  rw [replies_over rfl] at hok
  exact absurd (List.cons.inj hok).1.symm (okLine_ne what)

/-- Nor is one that ends the process. -/
theorem kills_not_ok {msg : Message} {st' : List Str} {P : Session → Prop}
    (hdec : decode buf {} = .ok msg) (hfirst : s.firstValidMessage = false)
    (h : Kills msg s.stack st') :
    (process (.line buf) s).wp (anyAnswer False) (fun s' _ => s'.replies = [okLine] → P s') () := by
  rw [process_kills hfirst hdec h, wp_abort]
  exact ⟨not_false, nofun⟩

/-- If the operation has a value, its wrapped result is what is answered. -/
theorem exactAnswer_value (hs : s.loopInProgress = true) (hfirst : s.firstValidMessage = false)
    (hdec : decode buf {} = .ok ⟨t, []⟩) (hst : s.stack = r :: l :: st) {m k : Int}
    (ht : arith t = some (op, few)) (hr : stoi r = .ok m) (hl : stoi l = .ok n)
    (hop : op n m = .ok k) : ExactAnswer s buf t r l st ↔
      Numeral r m ∧ Numeral l n ∧ ∀ k, exactResult t n m = some k → FitsInt k := by
  obtain ⟨e, hexact, rfl⟩ := op_exact ht (fitsInt_of_stoi hl) hop
  have hcomputes : Computes ⟨t, []⟩ s.stack (toStr (wrap e) :: st) okLine := by
    rw [hst]
    exact .arith ht hr hl hop
  rw [ExactAnswer, process_computes hs hfirst hdec hcomputes, Prog.wp_ret]
  constructor
  · intro h
    obtain ⟨m', n', k, hnumr, hnuml, hk, hstack⟩ := h rfl
    obtain rfl := numeral_of_stoi hnumr hr
    obtain rfl := numeral_of_stoi hnuml hl
    obtain rfl := Option.some.inj (hexact.symm.trans hk)
    refine ⟨hnumr, hnuml, fun k hk' => ?_⟩
    obtain rfl := Option.some.inj (hexact.symm.trans hk')
    rw [← toStr_inj (List.cons.inj hstack).1]
    exact fitsInt_wrap e
  · rintro ⟨hnumr, hnuml, hfits⟩ _
    refine ⟨m, n, e, hnumr, hnuml, hexact, ?_⟩
    show toStr (wrap e) :: st = toStr e :: st
    rw [wrap_of_fits (hfits e hexact)]

/-- **When arithmetic answers are exact**: exactly if, whenever `std::stoi` parses both operands
    and the operation does not trap, the operands are whole numerals and the result fits. -/
theorem exactAnswer_iff (hs : s.loopInProgress = true) (hfirst : s.firstValidMessage = false)
    (ht : t ∈ [MessageType.add, .sub, .mul, .div]) (hdec : decode buf {} = .ok ⟨t, []⟩)
    (hst : s.stack = r :: l :: st) : ExactAnswer s buf t r l st ↔ KeepsExact t r l := by
  obtain ⟨op, few, harith⟩ := arith_of_mem ht
  have hlogin : t ≠ .login := by rintro rfl; cases harith
  cases hr : stoi r with
  | error e =>
    refine iff_of_true ?_ fun m n hm => absurd (hr.symm.trans hm) nofun
    rcases stoi_error hr with rfl | rfl
    · exact refuses_not_ok hdec hlogin hfirst (by rw [hst]; exact .right harith hr)
    · exact kills_not_ok hdec hfirst (by rw [hst]; exact .right harith hr)
  | ok m =>
    cases hl : stoi l with
    | error e =>
      refine iff_of_true ?_ fun m n _ hn => absurd (hl.symm.trans hn) nofun
      rcases stoi_error hl with rfl | rfl
      · exact refuses_not_ok hdec hlogin hfirst (by rw [hst]; exact .left harith hr hl)
      · exact kills_not_ok hdec hfirst (by rw [hst]; exact .left harith hr hl)
    | ok n =>
      rcases arith_result harith n m with ⟨k, hop⟩ | ⟨rfl, htrap⟩
      · rw [exactAnswer_value hs hfirst hdec hst harith hr hl hop]
        constructor
        · intro h m' n' hm' hn' _
          obtain rfl := Except.ok.inj (hr.symm.trans hm')
          obtain rfl := Except.ok.inj (hl.symm.trans hn')
          exact h
        · intro h
          exact h m n hr hl ((op_ok harith).mp ⟨_, hop⟩)
      · have hkills : Kills ⟨.div, []⟩ s.stack st := by
          rw [hst]
          exact .divide hr hl htrap
        refine iff_of_true (kills_not_ok hdec hfirst hkills) fun m' n' hm' hn' hno => ?_
        obtain rfl := Except.ok.inj (hr.symm.trans hm')
        obtain rfl := Except.ok.inj (hl.symm.trans hn')
        obtain ⟨k, hop⟩ := (op_ok harith).mpr hno
        obtain rfl : op = intDiv := (Prod.mk.inj (Option.some.inj harith)).1.symm
        rw [hop] at htrap
        cases htrap

/-- SUB of two numerals. -/
theorem exactAnswer_iff_sub :
    ExactAnswer { stack := ["-2".toList, "+1".toList], firstValidMessage := false } "SUB\n".toList
      .sub "-2".toList "+1".toList [] ↔ KeepsExact .sub "-2".toList "+1".toList :=
  exactAnswer_iff rfl rfl (by decide) (by decide) rfl

/-- The sum of the largest `int` and one, and of a string that only begins with digits. -/
theorem not_exactAnswer : ¬ ∀ log c, System.Run (serverSystem Unit) (start Unit) log c →
    ∀ i s buf t r l st, c.threads i = .rest s → s.loopInProgress = true →
      s.firstValidMessage = false → t ∈ [MessageType.add, .sub, .mul, .div] →
      decode buf {} = .ok ⟨t, []⟩ → s.stack = r :: l :: st → ExactAnswer s buf t r l st := by
  intro h
  obtain ⟨log, c, hrun, hrest⟩ := @played Unit _
    (told () "LOGIN a\n" 1 ++ told () "PUSH 2147483647\n" 1 ++ told () "PUSH 1\n" 1) (start Unit)
    (fun c => (c.threads ()).rest? = some ⟨["1".toList, "2147483647".toList], [], false, true, false,
      [okLine]⟩) inferInstance (by decide +kernel)
  have hexact := h log c hrun () _ "ADD\n".toList .add "1".toList "2147483647".toList []
    (Thread.rest?_eq_some hrest) rfl rfl (by decide) (by decide) rfl
  have hr : stoi "1".toList = .ok 1 := by decide
  have hl : stoi "2147483647".toList = .ok 2147483647 := by decide
  obtain ⟨-, -, hfits⟩ :=
    (exactAnswer_value rfl rfl (by decide) rfl (t := .add) rfl hr hl rfl).mp hexact
  exact absurd (hfits 2147483648 rfl) (by decide)

end Answers

end BasicServer
