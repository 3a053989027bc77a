/-
  `int` arithmetic and its conversions, as the server uses them.

  `stoi` is `std::stoi` in base ten: leading white space, an optional sign, the longest run of
  digits.  It throws `invalid_argument` when there is no digit and `out_of_range` when the number
  does not fit an `int`; what follows the digits is ignored.  `toStr` is `std::to_string`.

  Sums, differences and products that do not fit are undefined in C++; the model has the result of
  the two's complement instructions the Makefile's unoptimised build compiles them to (`wrap`).  A
  division traps when the divisor is zero or the quotient does not fit (`intDiv`).

  `stoi_toStr` is the round trip: what `std::to_string` prints of an `int`, `std::stoi` reads back.
-/
import BasicServer.Message
import Mathlib.Data.List.TakeWhile
import Mathlib.Algebra.Group.Nat.Defs

namespace BasicServer

/-- `INT_MIN`. -/
def intMin : Int := -2147483648

/-- `INT_MAX`. -/
def intMax : Int := 2147483647

/-- The number fits an `int`. -/
def FitsInt (n : Int) : Prop := intMin ≤ n ∧ n ≤ intMax

instance (n : Int) : Decidable (FitsInt n) := inferInstanceAs (Decidable (_ ∧ _))

/-- The sign in front of the digits, and what follows it. -/
def splitSign : Str → Bool × Str
  | '-' :: s => (true, s)
  | '+' :: s => (false, s)
  | s => (false, s)

/-- The number that a sign and digits denote. -/
def signed (negative : Bool) (n : Nat) : Int := if negative then -n else n

/-- `std::stoi(s)`. -/
def stoi (s : Str) : Except Exn Int :=
  let (negative, rest) := splitSign (s.dropWhile isspace)
  let digits := rest.takeWhile Char.isDigit
  if digits = [] then .error .invalidArgument
  else
    let n := signed negative (Nat.ofDigitChars 10 digits 0)
    if FitsInt n then .ok n else .error .outOfRange

/-- `std::to_string(n)`. -/
def toStr (n : Int) : Str :=
  if n < 0 then '-' :: Nat.toDigits 10 n.natAbs else Nat.toDigits 10 n.natAbs

/-- The low 32 bits of `n`, as a two's complement number. -/
def wrap (n : Int) : Int := n.bmod (2 ^ 32)

def intAdd (left right : Int) : Except Exn Int := .ok (wrap (left + right))

def intSub (left right : Int) : Except Exn Int := .ok (wrap (left - right))

def intMul (left right : Int) : Except Exn Int := .ok (wrap (left * right))

/-- `left / right`: truncated, and a trap where the quotient is no `int`. -/
def intDiv (left right : Int) : Except Exn Int :=
  if right = 0 ∨ (left = intMin ∧ right = -1) then .error .sigfpe else .ok (left.tdiv right)

/-! ## Reading back what was printed -/

theorem takeWhile_toDigits (n : Nat) :
    (Nat.toDigits 10 n).takeWhile Char.isDigit = Nat.toDigits 10 n := by
  rw [List.takeWhile_eq_self_iff]
  intro c hc
  exact Nat.isDigit_of_mem_toDigits (by omega) (Nat.le_refl 10) hc

/-- A numeral starts with a digit: no white space, no sign. -/
theorem splitSign_toDigits (n : Nat) :
    splitSign ((Nat.toDigits 10 n).dropWhile isspace) = (false, Nat.toDigits 10 n) := by
  cases hd : Nat.toDigits 10 n with
  | nil => exact absurd hd Nat.toDigits_ne_nil
  | cons c t =>
    have hc : c.isDigit = true :=
      Nat.isDigit_of_mem_toDigits (n := n) (by omega) (Nat.le_refl 10)
        (by rw [hd]; exact List.mem_cons_self ..)
    have hspace : isspace c = false := by
      cases hs : isspace c with
      | false => rfl
      | true =>
        exfalso
        simp only [isspace, Bool.or_eq_true, decide_eq_true_eq] at hs
        rcases hs with ((((rfl | rfl) | rfl) | rfl) | rfl) | rfl <;> exact absurd hc (by decide)
    rw [List.dropWhile_cons, hspace]
    unfold splitSign
    split
    · rename_i h
      obtain ⟨rfl, -⟩ := List.cons.inj h
      exact absurd hc (by decide)
    · rename_i h
      obtain ⟨rfl, -⟩ := List.cons.inj h
      exact absurd hc (by decide)
    · rfl

/-- The sign and the digits of a numeral that `std::to_string` could have printed. -/
theorem splitSign_toStr (n : Int) : splitSign ((toStr n).dropWhile isspace)
    = (decide (n < 0), Nat.toDigits 10 n.natAbs) := by
  by_cases hn : n < 0
  · rw [toStr, if_pos hn, decide_eq_true hn]
    rfl
  · rw [toStr, if_neg hn, decide_eq_false hn]
    exact splitSign_toDigits _

theorem signed_natAbs (n : Int) : signed (decide (n < 0)) n.natAbs = n := by
  by_cases hn : n < 0
  · simp only [signed, hn, decide_true, if_true]
    omega
  · simp only [signed, hn, decide_false, Bool.false_eq_true, if_false]
    omega

/-- What `std::stoi` makes of a numeral that `std::to_string` could have printed. -/
theorem stoi_toStr_eq (n : Int) :
    stoi (toStr n) = if FitsInt n then .ok n else .error .outOfRange := by
  have hval : Nat.ofDigitChars 10 (Nat.toDigits 10 n.natAbs) 0 = n.natAbs :=
    Nat.ofDigitChars_ten_toDigits
  simp only [stoi, splitSign_toStr, takeWhile_toDigits, if_neg Nat.toDigits_ne_nil, hval,
    signed_natAbs]

/-- Two numbers are not printed alike. -/
theorem toStr_inj {n k : Int} (h : toStr n = toStr k) : n = k := by
  have hsplit := splitSign_toStr n
  rw [h, splitSign_toStr k] at hsplit
  obtain ⟨hsign, hdigits⟩ := Prod.mk.inj hsplit
  have habs : n.natAbs = k.natAbs := by
    rw [← @Nat.ofDigitChars_ten_toDigits n.natAbs, ← hdigits, Nat.ofDigitChars_ten_toDigits]
  rw [← signed_natAbs n, ← hsign, habs, signed_natAbs]

/-- **Round trip**: `std::stoi` reads back what `std::to_string` printed of an `int`. -/
theorem stoi_toStr {n : Int} (h : FitsInt n) : stoi (toStr n) = .ok n := by
  rw [stoi_toStr_eq, if_pos h]

/-- A sum that fits is the sum. -/
theorem wrap_of_fits {n : Int} (h : FitsInt n) : wrap n = n := by
  obtain ⟨hlo, hhi⟩ := h
  unfold intMin at hlo
  unfold intMax at hhi
  exact Int.bmod_eq_of_le_mul_two (by omega) (by omega)

theorem fitsInt_wrap (n : Int) : FitsInt (wrap n) := by
  have hlo := @Int.le_bmod n (2 ^ 32) (by decide)
  have hhi := @Int.bmod_lt n (2 ^ 32) (by decide)
  unfold FitsInt intMin intMax wrap
  omega

/-- A quotient of two `int`s fits, but for one. -/
theorem fitsInt_tdiv {n m : Int} (hn : FitsInt n) (hm : m ≠ 0) (hno : ¬ (n = intMin ∧ m = -1)) :
    FitsInt (n.tdiv m) := by
  unfold FitsInt intMin intMax at *
  rcases (by omega : m = -1 ∨ m = 1 ∨ 2 ≤ m.natAbs) with rfl | rfl | habs
  · have hneg : n.tdiv (-1) = -n := by rw [Int.tdiv_neg, Int.tdiv_one]
    rw [hneg]
    omega
  · rw [Int.tdiv_one]
    exact hn
  · have hquot : (n.tdiv m).natAbs ≤ n.natAbs / 2 := by
      rw [Int.natAbs_tdiv]
      exact Nat.div_le_div_left habs (by decide)
    omega

/-- What `stoi` answers fits an `int`. -/
theorem fitsInt_of_stoi {s : Str} {n : Int} (h : stoi s = .ok n) : FitsInt n := by
  simp only [stoi] at h
  split at h
  · cases h
  · split at h
    · rename_i hfit
      obtain rfl := Except.ok.inj h
      exact hfit
    · cases h

theorem stoi_error {s : Str} {e : Exn} (h : stoi s = .error e) :
    e = .invalidArgument ∨ e = .outOfRange := by
  simp only [stoi] at h
  split at h
  · exact Or.inl (Except.error.inj h).symm
  · split at h
    · cases h
    · exact Or.inr (Except.error.inj h).symm

example : stoi " -12x".toList = .ok (-12) := by decide
example : stoi "99999999999".toList = .error .outOfRange := by decide

end BasicServer
