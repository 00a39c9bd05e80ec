import HermitDb.Library.Torn
import HermitDb.Persist.Wal
import HermitDb.Protocol.Acceptance

/-!
# Records are frames

What `encode` writes is a frame of the parser's grammar, as long as it keeps
within the limits of the parser.  A prefix of a log therefore consists of the
frames of the records wholly inside it and a residue, which the parser accepts
and waits at.
-/

namespace HermitDb.Persist

open Protocol Library

/-- The limits a parser with this cap puts on an array frame. -/
structure Admissible (cap : Nat) (command : Command) : Prop where
  nonempty : command ≠ []
  count : command.length ≤ 2 ^ 20
  args : ∀ arg ∈ command, arg.length + 2 ≤ cap

/-! ## Header lines -/

/-- A tag byte, a decimal length and CR, as they stand before the line end. -/
def headerText (tag : UInt8) (number : Nat) : Bytes :=
  tag :: unsignedToString number ++ [cr]

def header (tag : UInt8) (number : Nat) : Bytes :=
  headerText tag number ++ [lf]

theorem encodeArg_eq (arg : Bytes) :
    encodeArg arg = header 36 arg.length ++ arg ++ crlf := by
  rw [header, headerText, List.append_assoc _ [cr], List.append_assoc _ arg]
  rfl

theorem encode_eq (command : Command) :
    encode command =
      header 42 command.length ++ command.flatMap encodeArg := by
  rw [header, headerText, List.append_assoc _ [cr]]
  rfl

theorem header_isLine {tag : UInt8} (tagNotLf : tag ≠ lf) (number : Nat) :
    IsLine (header tag number) (tag :: unsignedToString number) := by
  have noLf : lf ∉ headerText tag number := by
    intro member
    simp only [headerText, List.cons_append, List.mem_cons, List.mem_append,
      List.not_mem_nil, or_false] at member
    rcases member with tagIsLf | digit | crIsLf
    · exact tagNotLf tagIsLf.symm
    · exact absurd (unsignedToString_digits number lf digit) (by decide)
    · exact absurd crIsLf (by decide)
  have text : stripCr (headerText tag number) =
      tag :: unsignedToString number := by
    rw [headerText, stripCr, List.getLast?_concat, if_pos rfl,
      List.dropLast_concat]
  rw [← text]
  exact .mk noLf

theorem length_headerText (tag : UInt8) {number : Nat}
    (small : number < 2 ^ 63) : (headerText tag number).length ≤ 21 := by
  have digits : (unsignedToString number).length ≤ 19 :=
    unsignedToString_length (by decide) (lt_trans small (by decide))
  rw [headerText, List.length_append, List.length_cons, List.length_singleton]
  omega

theorem decimal_unsignedToString {number : Nat} (small : number < 2 ^ 63) :
    Decimal (unsignedToString number) number := by
  have decimal := decimal_of_parse (parseI64_unsignedToString small)
  rwa [Int64.toInt_ofInt_of_le (by omega) (by omega)] at decimal

/-- A length that is out of range is not read as another one. -/
theorem decimal_unsignedToString_iff {number : Nat} {value : Int} :
    Decimal (unsignedToString number) value ↔
      number < 2 ^ 63 ∧ value = number := by
  constructor
  · intro decimal
    by_cases small : number < 2 ^ 63
    · exact ⟨small, decimal.unique (decimal_unsignedToString small)⟩
    · obtain ⟨parsed, reads, _⟩ := decimal.parse
      rw [parseI64_unsignedToString_none (Nat.le_of_not_lt small)] at reads
      cases reads
  · rintro ⟨small, rfl⟩
    exact decimal_unsignedToString small

/-! ## Records -/

section Records

variable {cap : Nat} {command : Command}

/-- The arguments with their encodings. -/
def argGroups (args : List Bytes) : List (Bytes × Bytes) :=
  args.map fun arg => (encodeArg arg, arg)

theorem joined_argGroups (args : List Bytes) :
    joined (argGroups args) = args.flatMap encodeArg := by
  rw [joined, argGroups, List.map_map, List.flatMap_def]
  rfl

theorem map_snd_argGroups (args : List Bytes) :
    (argGroups args).map Prod.snd = args := by
  rw [argGroups, List.map_map]
  exact List.map_id args

theorem argGroups_encode (high : cap < 2 ^ 63) {args : List Bytes}
    (fits : ∀ arg ∈ args, arg.length + 2 ≤ cap) :
    AllEncode (Group cap) (argGroups args) := by
  rw [AllEncode, argGroups, List.forall_mem_map]
  intro arg member
  have argFits := fits arg member
  change Group cap (encodeArg arg) arg
  rw [encodeArg_eq]
  exact .mk (header_isLine (by decide) _)
    (decimal_unsignedToString (by omega)) argFits

theorem announces_length (low : 2 ^ 20 ≤ cap) (nonempty : command ≠ [])
    (count : command.length ≤ 2 ^ 20) :
    Announces cap (unsignedToString command.length) command.length :=
  ⟨decimal_unsignedToString (by omega), List.length_pos_of_ne_nil nonempty,
    by rw [kMaxArgs]; omega, count.trans low⟩

/-- A record within the limits is a frame. -/
theorem encode_frame (low : 2 ^ 20 ≤ cap) (high : cap < 2 ^ 63)
    (admissible : Admissible cap command) :
    Frame cap (encode command) (some command) := by
  have announces := announces_length low admissible.nonempty admissible.count
  have after : FrameAfter cap (42 :: unsignedToString command.length)
      (joined (argGroups command)) (some ((argGroups command).map Prod.snd)) := by
    apply FrameAfter.array
    · rwa [argGroups, List.length_map]
    · exact argGroups_encode high admissible.args
  rw [joined_argGroups, map_snd_argGroups] at after
  rw [encode_eq]
  exact .mk (header_isLine (by decide) _) after

/-- What comes before each LF that `encode` writes itself. -/
def encodeBlocks (command : Command) : List Bytes :=
  headerText 42 command.length ::
    command.flatMap fun arg => [headerText 36 arg.length, arg ++ [cr]]

theorem encode_eq_blocks (command : Command) :
    encode command = (encodeBlocks command).flatMap (· ++ [lf]) := by
  rw [encode_eq, encodeBlocks, List.flatMap_cons, List.flatMap_assoc]
  congr 1
  apply List.flatMap_congr
  intro arg _
  simp [encodeArg_eq, header, crlf]

theorem length_encodeBlocks (low : 2 ^ 20 ≤ cap) (high : cap < 2 ^ 63)
    (admissible : Admissible cap command) :
    ∀ block ∈ encodeBlocks command, block.length ≤ cap := by
  have count := admissible.count
  rw [encodeBlocks, List.forall_mem_cons]
  constructor
  · have short := length_headerText 42 (show command.length < 2 ^ 63 by omega)
    omega
  · intro block member
    obtain ⟨arg, isArg, isBlock⟩ := List.mem_flatMap.mp member
    have fits := admissible.args arg isArg
    simp only [List.mem_cons, List.not_mem_nil, or_false] at isBlock
    rcases isBlock with rfl | rfl
    · have short := length_headerText 36 (show arg.length < 2 ^ 63 by omega)
      omega
    · rw [List.length_append, List.length_singleton]
      omega

/-- A proper prefix of a record is a residue, and what the parser has to keep of
it is within the cap. -/
theorem residue_of_torn (low : 2 ^ 20 ≤ cap) (high : cap < 2 ^ 63)
    (admissible : Admissible cap command) {part : Bytes}
    (torn : Torn part (encode command)) :
    ∃ args unconsumed, Residue cap part args unconsumed ∧
      unconsumed.length ≤ cap := by
  obtain ⟨missing, present, whole⟩ := torn
  have frame := encode_frame low high admissible
  rw [← whole] at frame
  obtain ⟨args, unconsumed, residue⟩ := residue_of_extends frame present
  refine ⟨args, unconsumed, residue, ?_⟩
  have blocks := length_encodeBlocks low high admissible
  rw [encode_eq_blocks] at whole
  cases residue with
  | line noLf =>
      exact @length_le_of_separator_free _ _ _ _ blocks [] _ ⟨missing, whole⟩
        noLf
  | head _ noLf =>
      exact length_le_of_separator_free blocks ⟨missing, whole⟩ noLf
  | body _ _ _ fits short => omega

end Records

/-! ## Logs -/

section Logs

variable {cap : Nat} {commands : List Command}

/-- The records with their encodings. -/
def recordFrames (commands : List Command) : List (Bytes × Option Command) :=
  commands.map fun command => (encode command, some command)

theorem joined_recordFrames (commands : List Command) :
    joined (recordFrames commands) = encodeAll commands := by
  rw [joined, recordFrames, List.map_map, encodeAll, List.flatMap_def]
  rfl

theorem filterMap_recordFrames (commands : List Command) :
    (recordFrames commands).filterMap Prod.snd = commands := by
  rw [recordFrames, List.filterMap_map]
  exact List.filterMap_some

theorem recordFrames_encode (low : 2 ^ 20 ≤ cap) (high : cap < 2 ^ 63)
    (admissible : ∀ command ∈ commands, Admissible cap command) :
    AllEncode (Frame cap) (recordFrames commands) := by
  rw [AllEncode, recordFrames, List.forall_mem_map]
  intro command member
  exact encode_frame low high (admissible command member)

/-- Any prefix of a log splits into the records wholly inside it and a
residue. -/
theorem split_of_cut (low : 2 ^ 20 ≤ cap) (high : cap < 2 ^ 63)
    (admissible : ∀ command ∈ commands, Admissible cap command) {part : Bytes}
    (cut : part <+: encodeAll commands) :
    ∃ residue unconsumed, Split cap part
      (recordFrames (wholeItems encode commands part.length)) residue
      unconsumed := by
  obtain ⟨tail, shape, tailShape⟩ := prefix_flatMap cut
  have isResidue : ∃ args unconsumed, Residue cap tail args unconsumed ∧
      unconsumed.length ≤ cap := by
    rcases tailShape with rfl | ⟨next, rest, split, torn⟩
    · exact ⟨[], [], .line List.not_mem_nil, Nat.zero_le _⟩
    · refine residue_of_torn low high (admissible next ?_) torn
      rw [split]
      simp
  obtain ⟨args, unconsumed, residue, fits⟩ := isResidue
  refine ⟨tail, unconsumed, recordFrames_encode low high ?_, ?_,
    ⟨args, residue⟩, fits⟩
  · intro command member
    exact admissible command ((prefix_wholeItems _ _ _).subset member)
  · rw [joined_recordFrames]
    exact shape

/-- The parser takes any prefix of a log and returns the records wholly inside
it. -/
theorem feed_cut (low : 2 ^ 20 ≤ cap) (high : cap < 2 ^ 63)
    (admissible : ∀ command ∈ commands, Admissible cap command) {part : Bytes}
    (cut : part <+: encodeAll commands) :
    ((RespParser.fresh cap).feed part).1 =
      ⟨.ok, wholeItems encode commands part.length, []⟩ := by
  obtain ⟨residue, unconsumed, split⟩ := split_of_cut low high admissible cut
  rw [split.feed, filterMap_recordFrames]

end Logs

end HermitDb.Persist
