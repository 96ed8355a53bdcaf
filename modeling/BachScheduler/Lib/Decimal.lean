import BachScheduler.Lib.CString
import Mathlib.Algebra.Group.Int.Defs

/-!
# Decimal numbers in strings

`strtol` reads spaces, a sign and digits, and is left at what follows them.  On a number in
decimal it returns that number.
-/

namespace BachScheduler.CString

/-- `isspace`. -/
def isspace (c : Char) : Bool :=
  c = ' ' || (9 ≤ c.toNat && c.toNat ≤ 13)

/-- A sign, if there is one, and whether it is a minus. -/
def scanSign : List Char → Bool × List Char
  | '-' :: str => (true, str)
  | '+' :: str => (false, str)
  | str => (false, str)

/-- The nearest number of 64 bits. -/
def saturate (value : Int) : Int :=
  max (-2 ^ 63) (min value (2 ^ 63 - 1))

/-- A number at the start of a string, and what follows it. -/
def scanNumber (str : List Char) : Option (Int × List Char) :=
  let (negative, str) := scanSign (str.dropWhile isspace)
  let digits := str.takeWhile Char.isDigit
  if digits = [] then
    none
  else
    let value : Int := Nat.ofDigitChars 10 digits 0
    some (saturate (if negative then -value else value), str.dropWhile Char.isDigit)

/-- `strtol` in base 10, with what `*endptr` refers to. -/
def strtol (str : List Char) : Int × List Char :=
  (scanNumber str).getD (0, str)

/-- `atol`. -/
def atol (str : List Char) : Int :=
  (strtol str).1

/-- A number in decimal. -/
def decimal (n : Int) : List Char :=
  if n < 0 then '-' :: Nat.toDigits 10 n.natAbs else Nat.toDigits 10 n.natAbs

section Digits

variable {c : Char} {n : Nat} {rest : List Char}

theorem isspace_of_isDigit (digit : c.isDigit) : isspace c = false := by
  rw [Char.isDigit_iff_toNat] at digit
  have low : 48 ≤ c.toNat := digit.1
  have other : c ≠ ' ' := by
    rintro rfl
    exact absurd low (by decide)
  simp only [isspace, other, decide_false, Bool.false_or, Bool.and_eq_false_iff,
    decide_eq_false_iff_not]
  omega

theorem takeWhile_digits (stop : ∀ c, rest.head? = some c → c.isDigit = false) :
    (Nat.toDigits 10 n ++ rest).takeWhile Char.isDigit = Nat.toDigits 10 n ∧
      (Nat.toDigits 10 n ++ rest).dropWhile Char.isDigit = rest := by
  have digits : ∀ c ∈ Nat.toDigits 10 n, c.isDigit := fun c member =>
    Nat.isDigit_of_mem_toDigits (by decide) (by decide) member
  rw [List.takeWhile_append_of_pos digits, List.dropWhile_append_of_pos digits]
  cases rest with
  | nil => simp
  | cons c rest => simp [stop c rfl]

theorem saturate_small {value : Int} (low : -2 ^ 63 ≤ value) (high : value < 2 ^ 63) :
    saturate value = value := by
  unfold saturate
  omega

/-- The digits of a number are neither spaces nor signs. -/
theorem scanSign_digits (n : Nat) (rest : List Char) :
    scanSign ((Nat.toDigits 10 n ++ rest).dropWhile isspace) =
      (false, Nat.toDigits 10 n ++ rest) := by
  cases digits : Nat.toDigits 10 n with
  | nil => exact absurd digits Nat.toDigits_ne_nil
  | cons first others =>
      have digit : first.isDigit := by
        refine Nat.isDigit_of_mem_toDigits (b := 10) (n := n) (by decide) (by decide) ?_
        rw [digits]
        exact List.mem_cons_self
      rw [List.cons_append, List.dropWhile_cons_of_neg (by simp [isspace_of_isDigit digit])]
      unfold scanSign
      split
      · next equal => exact absurd digit ((List.cons.inj equal).1 ▸ by decide)
      · next equal => exact absurd digit ((List.cons.inj equal).1 ▸ by decide)
      · rfl

/-- `strtol` reads back a number in decimal. -/
theorem scanNumber_decimal {n : Int} {rest : List Char} (low : -2 ^ 63 ≤ n) (high : n < 2 ^ 63)
    (stop : ∀ c, rest.head? = some c → c.isDigit = false) :
    scanNumber (decimal n ++ rest) = some (n, rest) := by
  obtain ⟨taken, dropped⟩ := takeWhile_digits (n := n.natAbs) stop
  unfold decimal
  split
  · next negative =>
      have sign : scanSign (('-' :: (Nat.toDigits 10 n.natAbs ++ rest)).dropWhile isspace) =
          (true, Nat.toDigits 10 n.natAbs ++ rest) := rfl
      have value : -(n.natAbs : Int) = n := by omega
      simp only [scanNumber, List.cons_append, sign, taken, dropped, Nat.toDigits_ne_nil, if_false,
        if_true, Nat.ofDigitChars_ten_toDigits, value, saturate_small low high]
  · next positive =>
      have value : (n.natAbs : Int) = n := by omega
      simp only [scanNumber, scanSign_digits, taken, dropped, Nat.toDigits_ne_nil, if_false,
        Bool.false_eq_true, Nat.ofDigitChars_ten_toDigits, value, saturate_small low high]

theorem strtol_decimal {n : Int} {rest : List Char} (low : -2 ^ 63 ≤ n) (high : n < 2 ^ 63)
    (stop : ∀ c, rest.head? = some c → c.isDigit = false) :
    strtol (decimal n ++ rest) = (n, rest) := by
  rw [strtol, scanNumber_decimal low high stop]
  rfl

/-- A number in decimal is not empty, and made of digits and at most a sign. -/
theorem decimal_ne_nil (n : Int) : decimal n ≠ [] := by
  unfold decimal
  split
  · exact List.cons_ne_nil _ _
  · exact Nat.toDigits_ne_nil

theorem mem_decimal {n : Int} (member : c ∈ decimal n) : c = '-' ∧ n < 0 ∨ c.isDigit := by
  have digits (member : c ∈ Nat.toDigits 10 n.natAbs) : c.isDigit :=
    Nat.isDigit_of_mem_toDigits (by decide) (by decide) member
  unfold decimal at member
  split at member
  · next negative =>
      rcases List.mem_cons.mp member with rfl | inside
      · exact .inl ⟨rfl, negative⟩
      · exact .inr (digits inside)
  · exact .inr (digits member)

end Digits

end BachScheduler.CString
