import HermitDb.Bytes
import HermitDb.Library.Consumer
import Mathlib.Data.List.TakeWhile
import Mathlib.Tactic.SplitIfs
import Mathlib.Tactic.ByContra

/-!
# Incremental RESP2 command parser

The parser is a three-state machine over the bytes it has not consumed yet.
`RespParser.round` is one pass through the body of its loop; the loop itself is
the drain of the resumable consumer `RespParser.machine`.
-/

namespace HermitDb.Protocol

open Library

/-- One client command as argv. -/
abbrev Command := List Bytes

inductive ParseStatus where
  | ok
  | protocolError
  deriving DecidableEq

structure ParseResult where
  status : ParseStatus
  commands : List Command
  error : Bytes
  deriving DecidableEq

/-- An argv larger than this is refused whatever the frame cap allows. -/
def kMaxArgs : Int :=
  1024 * 1024

def fail (message : Bytes) : ParseResult :=
  { status := .protocolError, commands := [], error := message }

def isSpace (letter : UInt8) : Bool :=
  letter == 32 || letter == 9

inductive ParserState where
  | line
  | bulkHead
  | bulkBody
  deriving DecidableEq

/-- The fields of the parser.  `unread` is the part of the buffer at and after
the cursor; the consumed part before it is never looked at again. -/
structure RespParser where
  maxFrameBytes : Nat
  unread : Bytes
  state : ParserState
  pendingArgc : Nat
  bulkLen : Nat
  args : List Bytes
  deriving DecidableEq

namespace RespParser

def fresh (maxFrameBytes : Nat) : RespParser :=
  { maxFrameBytes := maxFrameBytes
    unread := []
    state := .line
    pendingArgc := 0
    bulkLen := 0
    args := [] }

/-- Consume one line of the unread bytes.  The line ends at the first LF and
loses one CR before it; `none` means no complete line is buffered yet. -/
def takeLine (unread : Bytes) : Option (Bytes × Bytes) :=
  match unread.dropWhile (· != lf) with
  | [] => none
  | _ :: rest =>
      let line := unread.takeWhile (· != lf)
      some (if line.getLast? = some cr then line.dropLast else line, rest)

/-- Split an inline command on blanks. -/
def splitInline (line : Bytes) : Command :=
  (line.splitOnP isSpace).filter fun word => !word.isEmpty

def multibulkError : Bytes :=
  ascii "ERR Protocol error: invalid multibulk length"

def expectedDollarError : Bytes :=
  ascii "ERR Protocol error: expected '$', got something else"

def bulkLengthError : Bytes :=
  ascii "ERR Protocol error: invalid bulk length"

def unterminatedError : Bytes :=
  ascii "ERR Protocol error: bulk payload not terminated by CRLF"

def tooBigError : Bytes :=
  ascii "ERR Protocol error: too big inline request"

/-- Between frames: `*<n>` opens an array, any other line is an inline
command. -/
def roundLine (parser : RespParser) : Round RespParser Command Bytes :=
  match takeLine parser.unread with
  | none => .wait
  | some (line, rest) =>
      let parser := { parser with unread := rest }
      match line with
      | [] => .next parser []
      | 42 :: digits =>
          match parseI64 digits with
          | none => .fail parser multibulkError
          | some count =>
              if count.toInt ≤ 0 then .next parser []
              else if kMaxArgs < count.toInt ∨
                  (parser.maxFrameBytes : Int) < count.toInt then
                .fail parser multibulkError
              else
                .next { parser with
                  pendingArgc := count.toInt.toNat
                  args := []
                  state := .bulkHead } []
      | _ =>
          let command := splitInline line
          .next parser (if command.isEmpty then [] else [command])

/-- Inside an array: emit the finished argv, or read the next `$<len>`. -/
def roundBulkHead (parser : RespParser) : Round RespParser Command Bytes :=
  if parser.args.length = parser.pendingArgc then
    .next { parser with args := [], state := .line } [parser.args]
  else
    match takeLine parser.unread with
    | none => .wait
    | some (line, rest) =>
        let parser := { parser with unread := rest }
        match line with
        | 36 :: digits =>
            match parseI64 digits with
            | none => .fail parser bulkLengthError
            | some len =>
                if len.toInt < 0 ∨ (parser.maxFrameBytes : Int) < len.toInt + 2 then
                  .fail parser bulkLengthError
                else
                  .next { parser with
                    bulkLen := len.toInt.toNat
                    state := .bulkBody } []
        | _ => .fail parser expectedDollarError

/-- A payload of known length and its CRLF.  Line feeds inside the payload are
data. -/
def roundBulkBody (parser : RespParser) : Round RespParser Command Bytes :=
  if parser.unread.length < parser.bulkLen + 2 then .wait
  else if (parser.unread.drop parser.bulkLen).take 2 ≠ crlf then
    .fail parser unterminatedError
  else
    .next { parser with
      args := parser.args ++ [parser.unread.take parser.bulkLen]
      unread := parser.unread.drop (parser.bulkLen + 2)
      state := .bulkHead } []

/-- One pass through the loop of `feed`. -/
def round (parser : RespParser) : Round RespParser Command Bytes :=
  match parser.state with
  | .line => parser.roundLine
  | .bulkHead => parser.roundBulkHead
  | .bulkBody => parser.roundBulkBody

def extend (parser : RespParser) (bytes : Bytes) : RespParser :=
  { parser with unread := parser.unread ++ bytes }

/-- Emitting a finished argv consumes nothing but leaves `bulkHead`; every
other pass consumes at least one byte. -/
def size (parser : RespParser) : Nat :=
  2 * parser.unread.length + if parser.state = .bulkHead then 1 else 0

/-! ## Lines -/

theorem takeLine_eq_none_iff {unread : Bytes} :
    takeLine unread = none ↔ lf ∉ unread := by
  unfold takeLine
  cases tail : unread.dropWhile (· != lf) with
  | nil =>
      have keeps := List.dropWhile_eq_nil_iff.mp tail
      simp only [true_iff]
      intro member
      simpa using keeps lf member
  | cons head rest =>
      simp only [reduceCtorEq, false_iff, not_not]
      by_contra missing
      have keeps : ∀ letter ∈ unread, (letter != lf) = true := by
        intro letter member
        rw [bne_iff_ne]
        rintro rfl
        exact missing member
      rw [List.dropWhile_eq_nil_iff.mpr keeps] at tail
      cases tail

theorem takeLine_append_lf {raw rest : Bytes} (noLf : lf ∉ raw) :
    takeLine (raw ++ lf :: rest) =
      some (if raw.getLast? = some cr then raw.dropLast else raw, rest) := by
  have keeps : ∀ letter ∈ raw, (letter != lf) = true := by
    intro letter member
    rw [bne_iff_ne]
    rintro rfl
    exact noLf member
  unfold takeLine
  rw [List.dropWhile_append_of_pos keeps, List.takeWhile_append_of_pos keeps]
  simp

/-- A taken line is a run of bytes without LF, cut at the LF after it. -/
theorem takeLine_shape {unread line rest : Bytes}
    (taken : takeLine unread = some (line, rest)) :
    ∃ raw, lf ∉ raw ∧ unread = raw ++ lf :: rest ∧
      line = if raw.getLast? = some cr then raw.dropLast else raw := by
  have member : lf ∈ unread := by
    by_contra missing
    rw [takeLine_eq_none_iff.mpr missing] at taken
    cases taken
  obtain ⟨raw, tail, rfl, noLf⟩ := List.eq_append_cons_of_mem member
  rw [takeLine_append_lf noLf] at taken
  cases taken
  exact ⟨raw, noLf, rfl, rfl⟩

theorem takeLine_append {unread line rest : Bytes} (more : Bytes)
    (taken : takeLine unread = some (line, rest)) :
    takeLine (unread ++ more) = some (line, rest ++ more) := by
  obtain ⟨raw, noLf, rfl, rfl⟩ := takeLine_shape taken
  rw [List.append_assoc, List.cons_append, takeLine_append_lf noLf]

theorem takeLine_length {unread line rest : Bytes}
    (taken : takeLine unread = some (line, rest)) :
    rest.length < unread.length := by
  obtain ⟨raw, -, rfl, -⟩ := takeLine_shape taken
  simp only [List.length_append, List.length_cons]
  omega

/-! ## The resumable consumer -/

theorem roundLine_extend (parser : RespParser) (more : Bytes)
    (moves : parser.roundLine ≠ .wait) :
    (parser.extend more).roundLine = parser.roundLine.map (·.extend more) := by
  unfold roundLine at moves ⊢
  cases taken : takeLine parser.unread with
  | none => simp [taken] at moves
  | some pair =>
      obtain ⟨line, rest⟩ := pair
      simp only [extend, takeLine_append more taken]
      split
      · rfl
      · split
        · rfl
        · rename_i count _
          by_cases empty : count.toInt ≤ 0
          · simp only [empty, if_true, Round.map]
          · by_cases tooMany : kMaxArgs < count.toInt ∨
                (parser.maxFrameBytes : Int) < count.toInt
            · simp only [empty, tooMany, if_true, if_false, Round.map]
            · simp only [empty, tooMany, if_false, Round.map]
      · rfl

theorem roundBulkHead_extend (parser : RespParser) (more : Bytes)
    (moves : parser.roundBulkHead ≠ .wait) :
    (parser.extend more).roundBulkHead =
      parser.roundBulkHead.map (·.extend more) := by
  unfold roundBulkHead at moves ⊢
  by_cases complete : parser.args.length = parser.pendingArgc
  · simp [extend, complete, Round.map]
  · simp only [extend, complete, if_false] at moves ⊢
    cases taken : takeLine parser.unread with
    | none => simp [taken] at moves
    | some pair =>
        obtain ⟨line, rest⟩ := pair
        simp only [takeLine_append more taken]
        split
        · split
          · rfl
          · rename_i len _
            by_cases refused : len.toInt < 0 ∨
                (parser.maxFrameBytes : Int) < len.toInt + 2
            · simp only [refused, if_true, Round.map]
            · simp only [refused, if_false, Round.map]
        · rfl

theorem roundBulkBody_extend (parser : RespParser) (more : Bytes)
    (moves : parser.roundBulkBody ≠ .wait) :
    (parser.extend more).roundBulkBody =
      parser.roundBulkBody.map (·.extend more) := by
  unfold roundBulkBody at moves ⊢
  by_cases short : parser.unread.length < parser.bulkLen + 2
  · simp [short] at moves
  · have longer : ¬ (parser.unread ++ more).length < parser.bulkLen + 2 := by
      simp only [List.length_append]
      omega
    have sameTerminator :
        ((parser.unread ++ more).drop parser.bulkLen).take 2 =
          (parser.unread.drop parser.bulkLen).take 2 := by
      rw [List.drop_append_of_le_length (by omega),
        List.take_append_of_le_length (by rw [List.length_drop]; omega)]
    have samePayload :
        (parser.unread ++ more).take parser.bulkLen =
          parser.unread.take parser.bulkLen :=
      List.take_append_of_le_length (by omega)
    have sameRest :
        (parser.unread ++ more).drop (parser.bulkLen + 2) =
          parser.unread.drop (parser.bulkLen + 2) ++ more :=
      List.drop_append_of_le_length (by omega)
    simp only [extend, short, longer, if_false, sameTerminator, samePayload,
      sameRest]
    split_ifs <;> rfl

theorem round_extend (parser : RespParser) (more : Bytes)
    (moves : parser.round ≠ .wait) :
    (parser.extend more).round = parser.round.map (·.extend more) := by
  unfold round at moves ⊢
  have sameState : (parser.extend more).state = parser.state := rfl
  rw [sameState]
  cases state : parser.state with
  | line => exact roundLine_extend parser more (by simpa [state] using moves)
  | bulkHead =>
      exact roundBulkHead_extend parser more (by simpa [state] using moves)
  | bulkBody =>
      exact roundBulkBody_extend parser more (by simpa [state] using moves)

theorem roundLine_size {parser following : RespParser} {output : List Command}
    (line : parser.state = .line)
    (moves : parser.roundLine = .next following output) :
    following.size < parser.size := by
  unfold roundLine at moves
  cases taken : takeLine parser.unread with
  | none => simp [taken] at moves
  | some pair =>
      obtain ⟨text, rest⟩ := pair
      have shorter := takeLine_length taken
      simp only [taken] at moves
      split at moves
      · cases moves
        simp [size, line]
        omega
      · split at moves
        · cases moves
        · split_ifs at moves <;> cases moves <;> simp [size, line] <;> omega
      · cases moves
        simp [size, line]
        omega

theorem roundBulkHead_size {parser following : RespParser}
    {output : List Command} (head : parser.state = .bulkHead)
    (moves : parser.roundBulkHead = .next following output) :
    following.size < parser.size := by
  unfold roundBulkHead at moves
  split at moves
  · cases moves
    simp [size, head]
  · cases taken : takeLine parser.unread with
    | none => simp [taken] at moves
    | some pair =>
        obtain ⟨text, rest⟩ := pair
        have shorter := takeLine_length taken
        simp only [taken] at moves
        split at moves
        · split at moves
          · cases moves
          · split_ifs at moves
            cases moves
            simp [size, head]
            omega
        · cases moves

theorem roundBulkBody_size {parser following : RespParser}
    {output : List Command} (body : parser.state = .bulkBody)
    (moves : parser.roundBulkBody = .next following output) :
    following.size < parser.size := by
  unfold roundBulkBody at moves
  split_ifs at moves with short
  cases moves
  simp [size, body]
  omega

theorem round_size {parser following : RespParser} {output : List Command}
    (moves : parser.round = .next following output) :
    following.size < parser.size := by
  unfold round at moves
  cases state : parser.state with
  | line => exact roundLine_size state (by simpa [state] using moves)
  | bulkHead => exact roundBulkHead_size state (by simpa [state] using moves)
  | bulkBody => exact roundBulkBody_size state (by simpa [state] using moves)

/-- The loop of `feed` as a resumable consumer. -/
def machine : Consumer UInt8 RespParser Command Bytes where
  round := round
  extend := extend
  size := size
  size_lt := round_size
  extend_nil := fun parser => by simp [extend]
  extend_extend := fun parser first second => by simp [extend]
  round_extend := round_extend

@[simp] theorem machine_round (parser : RespParser) :
    machine.round parser = parser.round := rfl

@[simp] theorem machine_extend (parser : RespParser) (bytes : Bytes) :
    machine.extend parser bytes = parser.extend bytes := rfl

/-- Consume a chunk.  Running out of bytes leaves one incomplete frame, whose
buffered part is checked against the cap; a failure drops every command
decoded by this call. -/
def feed (parser : RespParser) (bytes : Bytes) : ParseResult × RespParser :=
  let drained := machine.drain (parser.extend bytes)
  match drained.error with
  | some message => (fail message, drained.state)
  | none =>
      if drained.state.maxFrameBytes < drained.state.unread.length then
        (fail tooBigError, drained.state)
      else
        ({ status := .ok, commands := drained.output, error := [] },
          drained.state)

/-! ## Inline commands -/

/-- A word that survives on an inline line. -/
structure PlainWord (word : Bytes) : Prop where
  nonempty : word ≠ []
  unbroken : ∀ letter ∈ word, isSpace letter = false
  noCr : cr ∉ word
  noLf : lf ∉ word

theorem plainWord_of_all {word : Bytes} (nonempty : word ≠ [])
    (plain : (word.all fun letter =>
      !isSpace letter && letter != cr && letter != lf) = true) :
    PlainWord word := by
  simp only [List.all_eq_true, Bool.and_eq_true, Bool.not_eq_true',
    bne_iff_ne] at plain
  refine ⟨nonempty, fun letter member => (plain letter member).1.1, ?_, ?_⟩
  · exact fun member => (plain cr member).1.2 rfl
  · exact fun member => (plain lf member).2 rfl

/-- The words of a line, one blank between any two. -/
def inlineText (word : Bytes) (words : List Bytes) : Bytes :=
  word ++ words.flatMap fun next => 32 :: next

theorem splitInline_append_blank (first rest : Bytes) :
    splitInline (first ++ 32 :: rest) = splitInline first ++ splitInline rest := by
  rw [splitInline, List.splitOnP_append_cons first rest rfl, List.filter_append]
  rfl

theorem splitInline_plain {word : Bytes} (plain : PlainWord word) :
    splitInline word = [word] := by
  rw [splitInline, List.splitOnP_eq_singleton plain.unbroken]
  simp [plain.nonempty]

theorem splitInline_inlineText {word : Bytes} {words : List Bytes}
    (plain : ∀ any ∈ word :: words, PlainWord any) :
    splitInline (inlineText word words) = word :: words := by
  induction words generalizing word with
  | nil =>
      rw [inlineText, List.flatMap_nil, List.append_nil]
      exact splitInline_plain (plain word List.mem_cons_self)
  | cons next words induction =>
      rw [List.forall_mem_cons] at plain
      have rest := induction plain.2
      rw [inlineText, List.flatMap_cons, List.cons_append,
        splitInline_append_blank, splitInline_plain plain.1]
      exact congrArg (word :: ·) rest

theorem letters_inlineText {word : Bytes} {words : List Bytes}
    {letter : UInt8} (member : letter ∈ inlineText word words) :
    letter = 32 ∨ ∃ any ∈ word :: words, letter ∈ any := by
  rw [inlineText, List.mem_append, List.mem_flatMap] at member
  rcases member with first | ⟨next, inWords, inNext⟩
  · exact .inr ⟨word, List.mem_cons_self, first⟩
  · rcases List.mem_cons.mp inNext with isBlank | inside
    · exact .inl isBlank
    · exact .inr ⟨next, List.mem_cons_of_mem _ inWords, inside⟩

/-- A line of plain words is one command, however many words it has and
whatever the cap is. -/
theorem feed_inlineText (cap : Nat) {word : Bytes} {words : List Bytes}
    (plain : ∀ any ∈ word :: words, PlainWord any)
    (notArray : word.head? ≠ some 42) :
    ((fresh cap).feed (inlineText word words ++ crlf)).1 =
      ⟨.ok, [word :: words], []⟩ := by
  have excluded : ∀ letter, letter ≠ 32 → (∀ any ∈ word :: words, letter ∉ any) →
      letter ∉ inlineText word words := by
    intro letter notBlank absent member
    rcases letters_inlineText member with isBlank | ⟨any, inWords, inside⟩
    · exact notBlank isBlank
    · exact absent any inWords inside
  have noLf : lf ∉ inlineText word words ++ [cr] := by
    rw [List.mem_append, not_or]
    exact ⟨excluded lf (by decide) fun any member => (plain any member).noLf,
      by decide⟩
  have taken : takeLine (inlineText word words ++ crlf) =
      some (inlineText word words, []) := by
    have shape : inlineText word words ++ crlf =
        (inlineText word words ++ [cr]) ++ [lf] := by
      simp [crlf]
    rw [shape, takeLine_append_lf noLf, List.getLast?_concat, if_pos rfl,
      List.dropLast_concat]
  have opens : machine.round ((fresh cap).extend
      (inlineText word words ++ crlf)) = .next (fresh cap) [word :: words] := by
    have split := splitInline_inlineText plain
    obtain ⟨letter, tail, isWord⟩ :=
      List.exists_cons_of_ne_nil (plain word List.mem_cons_self).nonempty
    subst isWord
    have notStar : letter ≠ 42 := by
      rintro rfl
      exact notArray rfl
    rw [machine_round]
    simp only [round, fresh, extend, roundLine, List.nil_append, taken]
    rw [split]
    simp [inlineText, notStar]
  have waits : machine.round (fresh cap) = .wait := rfl
  have drained := machine.drain_next opens
  rw [machine.drain_wait waits] at drained
  simp only [feed, drained]
  rfl

end RespParser

end HermitDb.Protocol
