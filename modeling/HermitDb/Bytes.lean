import Mathlib.Data.Nat.Digits.Lemmas

/-!
# Byte strings and decimal text

Keys, values and wire data are arbitrary byte strings.  This file fixes the
representation, the two case conversions the dispatcher applies to command
words, and the decimal text shared by the RESP writer, the parser and the
log: `std::to_string` on the way out, `std::from_chars` on the way in.
-/

namespace HermitDb

/-- A `std::string`: any bytes, of any length. -/
abbrev Bytes := List UInt8

/-- The bytes of an ASCII source literal. -/
def ascii (text : String) : Bytes :=
  text.toList.map fun letter => UInt8.ofNat letter.toNat

def cr : UInt8 := 13

def lf : UInt8 := 10

/-- The line terminator of the protocol. -/
def crlf : Bytes := [cr, lf]

/-- `std::toupper` in the C locale. -/
def toupper (letter : UInt8) : UInt8 :=
  if 97 ≤ letter ∧ letter ≤ 122 then letter - 32 else letter

/-- `std::tolower` in the C locale. -/
def tolower (letter : UInt8) : UInt8 :=
  if 65 ≤ letter ∧ letter ≤ 90 then letter + 32 else letter

def upper (word : Bytes) : Bytes :=
  word.map toupper

def lower (word : Bytes) : Bytes :=
  word.map tolower

/-! ## Decimal text -/

def digitByte (digit : Nat) : UInt8 :=
  UInt8.ofNat (48 + digit)

/-- `std::to_string` of an unsigned number. -/
def unsignedToString (number : Nat) : Bytes :=
  if number = 0 then [48]
  else (Nat.digits 10 number).reverse.map digitByte

/-- Decimal text of an unbounded integer. -/
def intToString (number : Int) : Bytes :=
  if number < 0 then 45 :: unsignedToString number.natAbs
  else unsignedToString number.natAbs

/-- `std::to_string` of an `int64_t`. -/
def i64ToString (number : Int64) : Bytes :=
  intToString number.toInt

def isDigit (letter : UInt8) : Bool :=
  48 ≤ letter && letter ≤ 57

/-- The digit run read by `std::from_chars`, when it spans the whole text. -/
def parseDigits (digits : Bytes) : Option Nat :=
  if digits.isEmpty || !digits.all isDigit then none
  else some (digits.foldl (fun value letter => value * 10 + (letter.toNat - 48)) 0)

/-- The whole text is a base-10 `int64_t`: an optional minus sign and digits
whose value is in range.  The parser and the dispatcher carry identical copies
of this function. -/
def parseI64 (text : Bytes) : Option Int64 :=
  match text with
  | 45 :: digits =>
      match parseDigits digits with
      | some magnitude =>
          if magnitude ≤ 2 ^ 63 then some (Int64.ofInt (-magnitude)) else none
      | none => none
  | digits =>
      match parseDigits digits with
      | some magnitude =>
          if magnitude < 2 ^ 63 then some (Int64.ofInt magnitude) else none
      | none => none

theorem digitByte_toNat {digit : Nat} (small : digit < 10) :
    (digitByte digit).toNat = 48 + digit := by
  unfold digitByte
  rw [UInt8.toNat_ofNat']
  omega

theorem isDigit_iff {letter : UInt8} :
    isDigit letter = true ↔ 48 ≤ letter.toNat ∧ letter.toNat ≤ 57 := by
  simp [isDigit, UInt8.le_iff_toNat_le]

theorem isDigit_digitByte {digit : Nat} (small : digit < 10) :
    isDigit (digitByte digit) = true := by
  rw [isDigit_iff, digitByte_toNat small]
  omega

theorem unsignedToString_ne_nil (number : Nat) :
    unsignedToString number ≠ [] := by
  unfold unsignedToString
  split
  · simp
  · rename_i positive
    simpa [Nat.digits_eq_nil_iff_eq_zero] using positive

theorem unsignedToString_length {number width : Nat} (positive : 0 < width)
    (small : number < 10 ^ width) : (unsignedToString number).length ≤ width := by
  unfold unsignedToString
  split
  · exact positive
  · rw [List.length_map, List.length_reverse,
      Nat.digits_length_le_iff (by decide)]
    exact small

theorem i64ToString_length (number : Int64) :
    (i64ToString number).length ≤ 20 := by
  have low := Int64.minValue_le_toInt number
  have high := Int64.toInt_lt number
  rw [Int64.toInt_minValue] at low
  have digits : (unsignedToString number.toInt.natAbs).length ≤ 19 := by
    apply unsignedToString_length (by decide)
    omega
  unfold i64ToString intToString
  split
  · simp only [List.length_cons]
    omega
  · omega

/-- Decimal text consists of digits only. -/
theorem unsignedToString_digits (number : Nat) :
    ∀ letter ∈ unsignedToString number, isDigit letter = true := by
  intro letter member
  unfold unsignedToString at member
  split at member
  · simp only [List.mem_singleton] at member
    subst letter
    rfl
  · obtain ⟨digit, digitMember, rfl⟩ := List.mem_map.mp member
    exact isDigit_digitByte
      (Nat.digits_lt_base (by decide) (List.mem_reverse.mp digitMember))

private theorem foldl_digitBytes (digits : List Nat)
    (small : ∀ digit ∈ digits, digit < 10) :
    (digits.reverse.map digitByte).foldl
        (fun value letter => value * 10 + (letter.toNat - 48)) 0 =
      Nat.ofDigits 10 digits := by
  induction digits with
  | nil => rfl
  | cons digit digits induction =>
      have tail := induction fun candidate member =>
        small candidate (List.mem_cons_of_mem _ member)
      have head := digitByte_toNat (small digit List.mem_cons_self)
      rw [List.reverse_cons, List.map_append, List.foldl_append, tail,
        Nat.ofDigits_cons]
      simp only [List.map_cons, List.map_nil, List.foldl_cons, List.foldl_nil,
        head]
      omega

theorem parseDigits_unsignedToString (number : Nat) :
    parseDigits (unsignedToString number) = some number := by
  have nonempty : (unsignedToString number).isEmpty = false := by
    simpa using unsignedToString_ne_nil number
  have digits : (unsignedToString number).all isDigit = true :=
    List.all_eq_true.mpr (unsignedToString_digits number)
  unfold parseDigits
  rw [nonempty, digits]
  simp only [Bool.not_true, Bool.or_false, Bool.false_eq_true, if_false,
    Option.some.injEq]
  unfold unsignedToString
  split
  · rename_i zero
    subst number
    rfl
  · rw [foldl_digitBytes _ fun digit member =>
      Nat.digits_lt_base (by decide) member]
    exact Nat.ofDigits_digits 10 number

/-- Decimal text never starts with a minus sign. -/
theorem unsignedToString_head {number : Nat} {letter : UInt8} {rest : Bytes}
    (shape : unsignedToString number = letter :: rest) :
    isDigit letter = true :=
  unsignedToString_digits number letter (by rw [shape]; exact List.mem_cons_self)

theorem parseI64_of_digit_head {letter : UInt8} {rest : Bytes}
    (digit : isDigit letter = true) :
    parseI64 (letter :: rest) =
      match parseDigits (letter :: rest) with
      | some magnitude =>
          if magnitude < 2 ^ 63 then some (Int64.ofInt magnitude) else none
      | none => none := by
  have notMinus : letter ≠ 45 := by
    intro equality
    subst letter
    exact absurd digit (by decide)
  unfold parseI64
  split
  · rename_i equality
    simp only [List.cons.injEq] at equality
    exact absurd equality.1 notMinus
  · rfl

theorem parseI64_unsignedToString {number : Nat} (small : number < 2 ^ 63) :
    parseI64 (unsignedToString number) = some (Int64.ofInt number) := by
  cases shape : unsignedToString number with
  | nil => exact absurd shape (unsignedToString_ne_nil number)
  | cons letter rest =>
      rw [parseI64_of_digit_head (unsignedToString_head shape), ← shape,
        parseDigits_unsignedToString]
      exact if_pos small

/-- A length too large for `int64_t` does not parse. -/
theorem parseI64_unsignedToString_none {number : Nat} (large : 2 ^ 63 ≤ number) :
    parseI64 (unsignedToString number) = none := by
  cases shape : unsignedToString number with
  | nil => exact absurd shape (unsignedToString_ne_nil number)
  | cons letter rest =>
      rw [parseI64_of_digit_head (unsignedToString_head shape), ← shape,
        parseDigits_unsignedToString]
      simp only [ite_eq_right_iff]
      omega

/-- What `std::to_string` prints, `parse_i64` reads back. -/
theorem parseI64_i64ToString (number : Int64) :
    parseI64 (i64ToString number) = some number := by
  have lower := Int64.minValue_le_toInt number
  have upper := Int64.toInt_lt number
  unfold i64ToString intToString
  by_cases negative : number.toInt < 0
  · rw [if_pos negative]
    simp only [parseI64, parseDigits_unsignedToString]
    have bounded : number.toInt.natAbs ≤ 2 ^ 63 := by
      have := Int64.toInt_minValue
      omega
    have restored : -(number.toInt.natAbs : Int) = number.toInt := by omega
    rw [if_pos bounded, restored, Int64.ofInt_toInt]
  · rw [if_neg negative, parseI64_unsignedToString (by omega)]
    have restored : (number.toInt.natAbs : Int) = number.toInt := by omega
    rw [restored, Int64.ofInt_toInt]

end HermitDb
