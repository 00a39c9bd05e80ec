import HermitDb.Library.PrefixCode
import HermitDb.Protocol.ChunkIndependence

/-!
# The grammar of the parser

Frames are defined here without reference to the machine.  The parser accepts a
byte string exactly if it splits into complete frames and a residue whose
complete lines and arguments are in order, with at most one cap's worth of
bytes that are not yet a line or an argument.  An incomplete line is not judged:
it may be one that no frame starts with.
-/

namespace HermitDb.Protocol

open Library

/-! ## Integers and lines -/

/-- The number a run of digits stands for. -/
def decimalValue (digits : Bytes) : Nat :=
  Nat.ofDigits 10 (digits.reverse.map fun letter => letter.toNat - 48)

/-- An optional minus sign and decimal digits, in the range of `int64_t`. -/
inductive Decimal : Bytes → Int → Prop where
  | plain {digits : Bytes} (nonempty : digits ≠ [])
      (allDigits : ∀ letter ∈ digits, isDigit letter = true)
      (inRange : decimalValue digits < 2 ^ 63) :
      Decimal digits (decimalValue digits)
  | minus {digits : Bytes} (nonempty : digits ≠ [])
      (allDigits : ∀ letter ∈ digits, isDigit letter = true)
      (inRange : decimalValue digits ≤ 2 ^ 63) :
      Decimal (45 :: digits) (-decimalValue digits)

/-- The text without one CR at its end. -/
def stripCr (raw : Bytes) : Bytes :=
  if raw.getLast? = some cr then raw.dropLast else raw

/-- A line and its text. -/
inductive IsLine : Bytes → Bytes → Prop where
  | mk {raw : Bytes} (noLf : lf ∉ raw) : IsLine (raw ++ [lf]) (stripCr raw)

/-! ## Frames -/

section Frames

variable (cap : Nat)

/-- One argument of an array: its length line, its bytes and CRLF. -/
inductive Group : Bytes → Bytes → Prop where
  | mk {line digits payload : Bytes} (isLine : IsLine line (36 :: digits))
      (isLength : Decimal digits payload.length)
      (fits : payload.length + 2 ≤ cap) :
      Group (line ++ payload ++ crlf) payload

/-- The digits after `*` announce an array of `count` arguments. -/
structure Announces (digits : Bytes) (count : Nat) : Prop where
  isCount : Decimal digits count
  positive : 1 ≤ count
  notMany : (count : Int) ≤ kMaxArgs
  fits : count ≤ cap

/-- The command of an inline line, if it has words at all. -/
def inlineCommand (text : Bytes) : Option Command :=
  if (RespParser.splitInline text).isEmpty then none
  else some (RespParser.splitInline text)

/-- What may follow the first line of a frame, given its text, and the command
the frame then stands for, if any. -/
inductive FrameAfter : Bytes → Bytes → Option Command → Prop where
  | blank : FrameAfter [] [] none
  | empty {digits : Bytes} {count : Int} (isCount : Decimal digits count)
      (low : count ≤ 0) : FrameAfter (42 :: digits) [] none
  | array {digits : Bytes} {groups : List (Bytes × Bytes)}
      (announces : Announces cap digits groups.length)
      (good : AllEncode (Group cap) groups) :
      FrameAfter (42 :: digits) (joined groups) (some (groups.map Prod.snd))
  | inline {letter : UInt8} {text : Bytes} (notArray : letter ≠ 42) :
      FrameAfter (letter :: text) [] (inlineCommand (letter :: text))

/-- A complete frame. -/
inductive Frame : Bytes → Option Command → Prop where
  | mk {line text rest : Bytes} {command : Option Command}
      (isLine : IsLine line text) (after : FrameAfter cap text rest command) :
      Frame (line ++ rest) command

/-- An array that is not complete: its first line and the arguments so far. -/
inductive Opened : Bytes → List Bytes → Prop where
  | mk {line digits : Bytes} {count : Nat} {groups : List (Bytes × Bytes)}
      (isLine : IsLine line (42 :: digits))
      (announces : Announces cap digits count)
      (good : AllEncode (Group cap) groups) (more : groups.length < count) :
      Opened (line ++ joined groups) (groups.map Prod.snd)

/-- A residue, the arguments it completes and its unconsumed end. -/
inductive Residue : Bytes → List Bytes → Bytes → Prop where
  | line {rest : Bytes} (noLf : lf ∉ rest) : Residue rest [] rest
  | head {start rest : Bytes} {args : List Bytes} (opened : Opened cap start args)
      (noLf : lf ∉ rest) : Residue (start ++ rest) args rest
  | body {start line digits rest : Bytes} {args : List Bytes} {length : Nat}
      (opened : Opened cap start args) (isLine : IsLine line (36 :: digits))
      (isLength : Decimal digits length) (fits : length + 2 ≤ cap)
      (short : rest.length < length + 2) :
      Residue (start ++ (line ++ rest)) args rest

/-- Bytes that start with a violation of the grammar, and the message about
it. -/
inductive Malformed : Bytes → Bytes → Prop where
  | count {line digits more : Bytes} (isLine : IsLine line (42 :: digits))
      (bad : ∀ count, Decimal digits count →
        kMaxArgs < count ∨ (cap : Int) < count) :
      Malformed (line ++ more) RespParser.multibulkError
  | head {start line text more : Bytes} {args : List Bytes}
      (opened : Opened cap start args) (isLine : IsLine line text)
      (bad : text.head? ≠ some 36) :
      Malformed (start ++ (line ++ more)) RespParser.expectedDollarError
  | length {start line digits more : Bytes} {args : List Bytes}
      (opened : Opened cap start args) (isLine : IsLine line (36 :: digits))
      (bad : ∀ length, Decimal digits length →
        length < 0 ∨ (cap : Int) < length + 2) :
      Malformed (start ++ (line ++ more)) RespParser.bulkLengthError
  | terminator {start line digits rest : Bytes} {args : List Bytes}
      {length : Nat} (opened : Opened cap start args)
      (isLine : IsLine line (36 :: digits)) (isLength : Decimal digits length)
      (fits : length + 2 ≤ cap) (enough : length + 2 ≤ rest.length)
      (bad : (rest.drop length).take 2 ≠ crlf) :
      Malformed (start ++ (line ++ rest)) RespParser.unterminatedError

end Frames

/-! ## Integers -/

theorem foldl_eq_decimalValue (digits : Bytes) :
    digits.foldl (fun value letter => value * 10 + (letter.toNat - 48)) 0 =
      decimalValue digits := by
  rw [decimalValue, Nat.ofDigits_eq_foldr, List.foldr_map, List.foldr_reverse]
  congr 1
  funext value letter
  rw [Nat.cast_id, Nat.mul_comm, Nat.add_comm]

theorem parseDigits_of_digits {digits : Bytes} (nonempty : digits ≠ [])
    (allDigits : ∀ letter ∈ digits, isDigit letter = true) :
    parseDigits digits = some (decimalValue digits) := by
  rw [parseDigits, foldl_eq_decimalValue]
  apply if_neg
  simpa [nonempty] using allDigits

theorem digits_of_parseDigits {digits : Bytes} {value : Nat}
    (parsed : parseDigits digits = some value) :
    digits ≠ [] ∧ (∀ letter ∈ digits, isDigit letter = true) ∧
      value = decimalValue digits := by
  rw [parseDigits, foldl_eq_decimalValue] at parsed
  split at parsed
  · cases parsed
  · rename_i shape
    cases parsed
    simpa using shape

theorem Decimal.parse {text : Bytes} {number : Int}
    (decimal : Decimal text number) :
    ∃ parsed : Int64, parseI64 text = some parsed ∧ parsed.toInt = number := by
  cases decimal with
  | plain nonempty allDigits inRange =>
      refine ⟨Int64.ofInt (decimalValue text), ?_,
        Int64.toInt_ofInt_of_le (by omega) (by omega)⟩
      obtain ⟨letter, rest, rfl⟩ := List.exists_cons_of_ne_nil nonempty
      rw [parseI64_of_digit_head (allDigits letter List.mem_cons_self),
        parseDigits_of_digits nonempty allDigits]
      exact if_pos inRange
  | @minus digits nonempty allDigits inRange =>
      refine ⟨Int64.ofInt (-decimalValue digits), ?_,
        Int64.toInt_ofInt_of_le (by omega) (by omega)⟩
      simp only [parseI64, parseDigits_of_digits nonempty allDigits]
      exact if_pos inRange

theorem decimal_of_parse {text : Bytes} {number : Int64}
    (parsed : parseI64 text = some number) : Decimal text number.toInt := by
  unfold parseI64 at parsed
  split at parsed
  · rename_i digits
    split at parsed
    · rename_i value isValue
      obtain ⟨nonempty, allDigits, rfl⟩ := digits_of_parseDigits isValue
      split at parsed
      · rename_i inRange
        cases parsed
        rw [Int64.toInt_ofInt_of_le (by omega) (by omega)]
        exact .minus nonempty allDigits inRange
      · cases parsed
    · cases parsed
  · split at parsed
    · rename_i value isValue
      obtain ⟨nonempty, allDigits, rfl⟩ := digits_of_parseDigits isValue
      split at parsed
      · rename_i inRange
        cases parsed
        rw [Int64.toInt_ofInt_of_le (by omega) (by omega)]
        exact .plain nonempty allDigits inRange
      · cases parsed
    · cases parsed

theorem Decimal.unique {text : Bytes} {first second : Int}
    (isFirst : Decimal text first) (isSecond : Decimal text second) :
    first = second := by
  obtain ⟨parsed, reads, rfl⟩ := isFirst.parse
  obtain ⟨again, readsAgain, rfl⟩ := isSecond.parse
  rw [reads] at readsAgain
  cases readsAgain
  rfl

/-! ## Lines -/

theorem IsLine.takeLine {line text : Bytes} (isLine : IsLine line text)
    (more : Bytes) : RespParser.takeLine (line ++ more) = some (text, more) := by
  obtain ⟨noLf⟩ := isLine
  rw [List.append_assoc, List.singleton_append,
    RespParser.takeLine_append_lf noLf]
  rfl

theorem isLine_of_takeLine {input text rest : Bytes}
    (taken : RespParser.takeLine input = some (text, rest)) :
    ∃ line, IsLine line text ∧ input = line ++ rest := by
  obtain ⟨raw, noLf, rfl, rfl⟩ := RespParser.takeLine_shape taken
  exact ⟨raw ++ [lf], ⟨noLf⟩, by simp⟩

theorem IsLine.prefixUnique : PrefixUnique IsLine := by
  intro left right more rest leftText rightText isLeft isRight same
  have taken := isLeft.takeLine more
  rw [same, isRight.takeLine rest] at taken
  cases taken
  exact ⟨List.append_cancel_right same, rfl⟩

/-- A line does not start in bytes without LF. -/
theorem IsLine.stuck {rest : Bytes} (noLf : lf ∉ rest) : Stuck IsLine rest := by
  rintro line text isLine ⟨more, rfl⟩
  have taken := isLine.takeLine more
  rw [RespParser.takeLine_eq_none_iff.mpr noLf] at taken
  cases taken

/-! ## Reading frames in one way only -/

section Unique

variable {cap : Nat}

theorem Group.prefixUnique : PrefixUnique (Group cap) := by
  intro _ _ more rest left right leftGroup rightGroup same
  cases leftGroup with
  | mk isLeft leftLength =>
      cases rightGroup with
      | mk isRight rightLength =>
          simp only [List.append_assoc] at same
          obtain ⟨rfl, sameText⟩ := IsLine.prefixUnique isLeft isRight same
          cases sameText
          have sameLength : left.length = right.length := by
            exact_mod_cast leftLength.unique rightLength
          have sameBody := List.append_cancel_left same
          obtain rfl := List.append_inj_left sameBody sameLength
          exact ⟨rfl, rfl⟩

theorem Announces.unique {digits : Bytes} {first second : Nat}
    (isFirst : Announces cap digits first)
    (isSecond : Announces cap digits second) : first = second := by
  exact_mod_cast isFirst.isCount.unique isSecond.isCount

theorem Announces.not_low {digits : Bytes} {count : Nat} {low : Int}
    (announces : Announces cap digits count) (isLow : Decimal digits low) :
    ¬ low ≤ 0 := by
  have same := announces.isCount.unique isLow
  have positive := announces.positive
  omega

theorem FrameAfter.unique {text left right more rest : Bytes}
    {leftCommand rightCommand : Option Command}
    (isLeft : FrameAfter cap text left leftCommand)
    (isRight : FrameAfter cap text right rightCommand)
    (same : left ++ more = right ++ rest) :
    left = right ∧ leftCommand = rightCommand := by
  cases isLeft with
  | blank =>
      cases isRight
      exact ⟨rfl, rfl⟩
  | empty isCount low =>
      cases isRight with
      | empty => exact ⟨rfl, rfl⟩
      | array announces _ => exact absurd low (announces.not_low isCount)
      | inline notArray => exact absurd rfl notArray
  | array announces good =>
      cases isRight with
      | empty isCount low => exact absurd low (announces.not_low isCount)
      | array otherAnnounces otherGood =>
          obtain ⟨rfl, _⟩ := Group.prefixUnique.of_length good otherGood
            (announces.unique otherAnnounces) same
          exact ⟨rfl, rfl⟩
      | inline notArray => exact absurd rfl notArray
  | inline notArray =>
      cases isRight with
      | empty | array => exact absurd rfl notArray
      | inline => exact ⟨rfl, rfl⟩

theorem Frame.prefixUnique : PrefixUnique (Frame cap) := by
  rintro _ _ more rest _ _ ⟨isLeft, leftAfter⟩ ⟨isRight, rightAfter⟩ same
  simp only [List.append_assoc] at same
  obtain ⟨rfl, rfl⟩ := IsLine.prefixUnique isLeft isRight same
  obtain ⟨rfl, rfl⟩ := leftAfter.unique rightAfter (List.append_cancel_left same)
  exact ⟨rfl, rfl⟩

/-! ## Bytes that start no frame -/

theorem Group.stuck_of_noLf {rest : Bytes} (noLf : lf ∉ rest) :
    Stuck (Group cap) rest := by
  rintro _ _ ⟨isLine, _, _⟩ ⟨more, same⟩
  refine IsLine.stuck noLf _ _ isLine ?_
  exact ⟨_, by simpa only [List.append_assoc] using same⟩

theorem Group.stuck_of_line {line text rest : Bytes} (isLine : IsLine line text)
    (bad : ∀ digits payload, text = 36 :: digits →
      Decimal digits payload.length → payload.length + 2 ≤ cap →
      ¬ payload ++ crlf <+: rest) : Stuck (Group cap) (line ++ rest) := by
  rintro _ _ ⟨isOther, isLength, fits⟩ ⟨more, same⟩
  simp only [List.append_assoc] at same
  obtain ⟨rfl, isText⟩ := IsLine.prefixUnique isOther isLine same
  refine bad _ _ isText.symm isLength fits ⟨more, ?_⟩
  rw [List.append_assoc]
  exact List.append_cancel_left same

theorem Opened.stuck {start rest : Bytes} {args : List Bytes}
    (opened : Opened cap start args) (stuck : Stuck (Group cap) rest) :
    Stuck (Frame cap) (start ++ rest) := by
  obtain ⟨isLine, announces, good, more⟩ := opened
  rintro _ _ ⟨isOther, after⟩ ⟨further, same⟩
  simp only [List.append_assoc] at same
  obtain ⟨rfl, rfl⟩ := IsLine.prefixUnique isOther isLine same
  cases after with
  | empty isCount low => exact absurd low (announces.not_low isCount)
  | array otherAnnounces otherGood =>
      obtain ⟨tail, rfl, _⟩ := Group.prefixUnique.extends_of_stuck otherGood
        good stuck (List.append_cancel_left same)
      have sameCount := announces.unique otherAnnounces
      rw [List.length_append] at more
      omega
  | inline notArray => exact absurd rfl notArray

theorem Residue.stuck {residue rest : Bytes} {args : List Bytes}
    (isResidue : Residue cap residue args rest) : Stuck (Frame cap) residue := by
  cases isResidue with
  | line noLf =>
      rintro _ _ ⟨isLine, _⟩ ⟨more, same⟩
      refine IsLine.stuck noLf _ _ isLine ?_
      exact ⟨_, by simpa only [List.append_assoc] using same⟩
  | head opened noLf => exact opened.stuck (Group.stuck_of_noLf noLf)
  | body opened isLine isLength fits short =>
      apply opened.stuck
      apply Group.stuck_of_line isLine
      rintro digits payload ⟨⟩ isOther _ starts
      have sameLength := isLength.unique isOther
      have enough := starts.length_le
      rw [List.length_append] at enough
      have terminator : crlf.length = 2 := rfl
      omega

theorem Malformed.stuck {bytes message : Bytes}
    (malformed : Malformed cap bytes message) : Stuck (Frame cap) bytes := by
  cases malformed with
  | count isLine bad =>
      rintro _ _ ⟨isOther, after⟩ ⟨further, same⟩
      simp only [List.append_assoc] at same
      obtain ⟨rfl, rfl⟩ := IsLine.prefixUnique isOther isLine same
      cases after with
      | empty isCount low =>
          have tooMany := bad _ isCount
          have positive : 0 < kMaxArgs := by decide
          omega
      | array announces _ =>
          have tooMany := bad _ announces.isCount
          have notMany := announces.notMany
          have fits := announces.fits
          omega
      | inline notArray => exact absurd rfl notArray
  | head opened isLine bad =>
      apply opened.stuck
      apply Group.stuck_of_line isLine
      rintro digits payload rfl
      exact absurd rfl bad
  | length opened isLine bad =>
      apply opened.stuck
      apply Group.stuck_of_line isLine
      rintro digits payload ⟨⟩ isLength fits
      have tooLong := bad _ isLength
      omega
  | terminator opened isLine isLength fits enough bad =>
      apply opened.stuck
      apply Group.stuck_of_line isLine
      rintro digits payload ⟨⟩ isOther _ ⟨more, rfl⟩
      obtain rfl : _ = payload.length := by
        exact_mod_cast isLength.unique isOther
      refine absurd ?_ bad
      rw [List.append_assoc, List.drop_left]
      rfl

end Unique

end HermitDb.Protocol
