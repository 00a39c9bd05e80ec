import HermitDb.Protocol.Grammar

/-!
# The parser reads the grammar

Fed with a frame, the machine returns its command and is between frames again;
fed with a residue it waits, and fed with a violation it fails.  Every byte
string consists of frames followed by one of the latter two, so this is all it
can do.
-/

namespace HermitDb.Protocol

open Library RespParser

/-! ## The machine between and inside frames -/

/-- Between frames, with nothing buffered. -/
structure Idle (cap : Nat) (parser : RespParser) : Prop where
  cap_eq : parser.maxFrameBytes = cap
  state_eq : parser.state = .line
  unread_eq : parser.unread = []
  args_eq : parser.args = []

/-- Inside an array of `count` arguments, with nothing buffered. -/
structure Inside (cap count : Nat) (args : List Bytes) (parser : RespParser) :
    Prop where
  cap_eq : parser.maxFrameBytes = cap
  state_eq : parser.state = .bulkHead
  unread_eq : parser.unread = []
  count_eq : parser.pendingArgc = count
  args_eq : parser.args = args

/-- What the parser keeps of an incomplete frame. -/
structure Keeps (cap : Nat) (args : List Bytes) (rest : Bytes)
    (parser : RespParser) : Prop where
  cap_eq : parser.maxFrameBytes = cap
  args_eq : parser.args = args
  unread_eq : parser.unread = rest

theorem fresh_idle (cap : Nat) : Idle cap (fresh cap) :=
  ⟨rfl, rfl, rfl, rfl⟩

section Machine

variable {cap count : Nat} {parser : RespParser} {args : List Bytes}

theorem Idle.taken (idle : Idle cap parser) {line text : Bytes}
    (isLine : IsLine line text) (more : Bytes) :
    takeLine (parser.extend (line ++ more)).unread = some (text, more) := by
  rw [extend, idle.unread_eq]
  exact isLine.takeLine more

theorem Idle.round_eq (idle : Idle cap parser) (bytes : Bytes) :
    machine.round (parser.extend bytes) = (parser.extend bytes).roundLine := by
  rw [machine_round, RespParser.round]
  simp only [extend, idle.state_eq]

theorem Inside.taken (inside : Inside cap count args parser)
    {line text : Bytes} (isLine : IsLine line text) (more : Bytes) :
    takeLine (parser.extend (line ++ more)).unread = some (text, more) := by
  rw [extend, inside.unread_eq]
  exact isLine.takeLine more

theorem Inside.round_eq (inside : Inside cap count args parser)
    (bytes : Bytes) :
    machine.round (parser.extend bytes) =
      (parser.extend bytes).roundBulkHead := by
  rw [machine_round, RespParser.round]
  simp only [extend, inside.state_eq]

theorem Inside.unfinished (inside : Inside cap count args parser)
    (more : args.length < count) (bytes : Bytes) :
    ¬ (parser.extend bytes).args.length = (parser.extend bytes).pendingArgc := by
  rw [extend, inside.args_eq, inside.count_eq]
  omega

/-- The line that opens an array. -/
theorem Idle.header (idle : Idle cap parser) {line digits : Bytes}
    (isLine : IsLine line (42 :: digits))
    (announces : Announces cap digits count) :
    ∃ inside, Inside cap count [] inside ∧ ∀ more,
      machine.drain (parser.extend (line ++ more)) =
        machine.drain (inside.extend more) := by
  obtain ⟨parsed, reads, isCount⟩ := announces.isCount.parse
  have positive := announces.positive
  have notMany := announces.notMany
  have fits := announces.fits
  let inside := { parser with
    pendingArgc := parsed.toInt.toNat, args := [], state := .bulkHead }
  refine ⟨inside, ⟨idle.cap_eq, rfl, idle.unread_eq, ?_, rfl⟩, ?_⟩
  · change parsed.toInt.toNat = count
    rw [isCount]
    exact Int.toNat_natCast count
  · intro more
    have moves : machine.round (parser.extend (line ++ more)) =
        .next (inside.extend more) [] := by
      rw [idle.round_eq, roundLine, idle.taken isLine more]
      simp only [reads]
      rw [if_neg (by omega), if_neg]
      · simp [inside, extend, idle.unread_eq]
      · rw [extend, idle.cap_eq]
        omega
    rw [machine.drain_next moves, Drained.after_nil]

/-- The next `$<len>` line is taken. -/
theorem Inside.length_line (inside : Inside cap count args parser)
    (more : args.length < count) {line digits : Bytes}
    (isLine : IsLine line (36 :: digits)) {length : Nat}
    (isLength : Decimal digits length) (fits : length + 2 ≤ cap) :
    ∀ rest, machine.round (parser.extend (line ++ rest)) =
      .next ({ parser with bulkLen := length, state := .bulkBody }.extend rest)
        [] := by
  intro rest
  obtain ⟨parsed, reads, sameLength⟩ := isLength.parse
  rw [inside.round_eq, roundBulkHead, if_neg (inside.unfinished more _),
    inside.taken isLine rest]
  simp only [reads]
  rw [if_neg]
  · simp [extend, inside.unread_eq, sameLength]
  · rw [extend, inside.cap_eq]
    omega

/-- One more argument. -/
theorem Inside.group (inside : Inside cap count args parser)
    (more : args.length < count) {encoding payload : Bytes}
    (group : Group cap encoding payload) :
    ∃ following, Inside cap count (args ++ [payload]) following ∧ ∀ rest,
      machine.drain (parser.extend (encoding ++ rest)) =
        machine.drain (following.extend rest) := by
  obtain ⟨isLine, isLength, fits⟩ := group
  let body := { parser with bulkLen := payload.length, state := .bulkBody }
  let following := { parser with
    bulkLen := payload.length, args := args ++ [payload] }
  refine ⟨following, ⟨inside.cap_eq, inside.state_eq, inside.unread_eq,
    inside.count_eq, rfl⟩, ?_⟩
  intro rest
  have takesLine := inside.length_line more isLine isLength fits
    (payload ++ (crlf ++ rest))
  have takesBody : machine.round (body.extend (payload ++ (crlf ++ rest))) =
      .next (following.extend rest) [] := by
    have terminator : crlf.length = 2 := rfl
    have dropped : (payload ++ (crlf ++ rest)).drop (payload.length + 2) =
        rest := by
      rw [← List.append_assoc]
      exact List.drop_left' (by rw [List.length_append, terminator])
    rw [machine_round, RespParser.round]
    simp only [body, extend, roundBulkBody, inside.unread_eq, List.nil_append]
    rw [if_neg (by simp only [List.length_append]; omega), if_neg]
    · simp [following, inside.args_eq, inside.state_eq, inside.unread_eq,
        dropped]
    · rw [List.drop_left]
      exact fun different => different rfl
  simp only [List.append_assoc]
  rw [machine.drain_next takesLine, Drained.after_nil,
    machine.drain_next takesBody, Drained.after_nil]

theorem Inside.groups (inside : Inside cap count args parser)
    {groups : List (Bytes × Bytes)} (good : AllEncode (Group cap) groups)
    (room : args.length + groups.length ≤ count) :
    ∃ following, Inside cap count (args ++ groups.map Prod.snd) following ∧
      ∀ rest, machine.drain (parser.extend (joined groups ++ rest)) =
        machine.drain (following.extend rest) := by
  induction groups generalizing args parser with
  | nil =>
      refine ⟨parser, ?_, fun _ => rfl⟩
      rwa [List.map_nil, List.append_nil]
  | cons group groups induction =>
      rw [AllEncode.cons] at good
      rw [List.length_cons] at room
      obtain ⟨middle, insideMiddle, first⟩ :=
        inside.group (by omega) good.1
      obtain ⟨following, insideAfter, later⟩ := induction insideMiddle good.2
        (by rw [List.length_append, List.length_singleton]; omega)
      refine ⟨following, ?_, ?_⟩
      · rwa [List.append_assoc] at insideAfter
      · intro rest
        rw [joined_cons, List.append_assoc, first, later]

/-- The last argument completes the frame. -/
theorem Inside.complete (inside : Inside cap count args parser)
    (full : args.length = count) :
    ∃ following, Idle cap following ∧ ∀ rest,
      machine.drain (parser.extend rest) =
        (machine.drain (following.extend rest)).after [args] := by
  let following := { parser with args := [], state := .line }
  refine ⟨following, ⟨inside.cap_eq, rfl, inside.unread_eq, rfl⟩, ?_⟩
  intro rest
  have moves : machine.round (parser.extend rest) =
      .next (following.extend rest) [args] := by
    rw [inside.round_eq, roundBulkHead, if_pos]
    · simp [following, extend, inside.args_eq]
    · rw [extend, inside.args_eq, inside.count_eq, full]
  exact machine.drain_next moves

theorem Opened.drain {start : Bytes} (opened : Opened cap start args)
    (idle : Idle cap parser) :
    ∃ count inside, Inside cap count args inside ∧ args.length < count ∧
      ∀ rest, machine.drain (parser.extend (start ++ rest)) =
        machine.drain (inside.extend rest) := by
  obtain ⟨isLine, announces, good, more⟩ := opened
  obtain ⟨first, insideFirst, opens⟩ := idle.header isLine announces
  obtain ⟨following, insideAfter, reads⟩ := insideFirst.groups good
    (by rw [List.length_nil]; omega)
  refine ⟨_, following, insideAfter, by simpa using more, ?_⟩
  intro rest
  rw [List.append_assoc, opens, reads]

theorem Idle.advance (idle : Idle cap parser) {bytes : Bytes}
    {following : RespParser} {output : List Command}
    (moves : (parser.extend bytes).roundLine = .next following output) :
    machine.drain (parser.extend bytes) =
      (machine.drain following).after output :=
  machine.drain_next ((idle.round_eq bytes).trans moves)

/-- A line that is a frame of its own. -/
theorem Idle.line (idle : Idle cap parser) {line : Bytes} {output : List Command}
    (moves : ∀ rest, (parser.extend (line ++ rest)).roundLine =
      .next (parser.extend rest) output) :
    ∃ following, Idle cap following ∧ ∀ rest,
      machine.drain (parser.extend (line ++ [] ++ rest)) =
        (machine.drain (following.extend rest)).after output := by
  refine ⟨parser, idle, fun rest => ?_⟩
  rw [List.append_nil]
  exact idle.advance (moves rest)

/-- A frame is read, and the machine is between frames again. -/
theorem Idle.frame (idle : Idle cap parser) {encoding : Bytes}
    {command : Option Command} (frame : Frame cap encoding command) :
    ∃ following, Idle cap following ∧ ∀ rest,
      machine.drain (parser.extend (encoding ++ rest)) =
        (machine.drain (following.extend rest)).after command.toList := by
  obtain ⟨isLine, after⟩ := frame
  cases after with
  | blank =>
      refine idle.line fun rest => ?_
      rw [roundLine, idle.taken isLine rest]
      simp [extend, idle.unread_eq]
  | empty isCount low =>
      obtain ⟨parsed, reads, sameCount⟩ := isCount.parse
      refine idle.line fun rest => ?_
      rw [roundLine, idle.taken isLine rest]
      simp only [reads, sameCount, if_pos low]
      simp [extend, idle.unread_eq]
  | inline notArray =>
      refine idle.line fun rest => ?_
      rw [roundLine, idle.taken isLine rest]
      simp only [inlineCommand]
      split
      · rename_i isBlank
        cases isBlank
      · rename_i isArray
        exact absurd (List.cons.inj isArray).1 notArray
      · simp only [extend, idle.unread_eq, List.nil_append]
        split <;> rfl
  | array announces good =>
      obtain ⟨first, insideFirst, opens⟩ := idle.header isLine announces
      obtain ⟨middle, insideAfter, reads⟩ := insideFirst.groups good
        (by rw [List.length_nil, Nat.zero_add])
      obtain ⟨following, idleAfter, completes⟩ := insideAfter.complete
        (by simp)
      refine ⟨following, idleAfter, fun rest => ?_⟩
      rw [List.append_assoc, opens, reads, completes]
      rfl

theorem Idle.frames (idle : Idle cap parser)
    {frames : List (Bytes × Option Command)}
    (good : AllEncode (Frame cap) frames) :
    ∃ following, Idle cap following ∧ ∀ rest,
      machine.drain (parser.extend (joined frames ++ rest)) =
        (machine.drain (following.extend rest)).after
          (frames.filterMap Prod.snd) := by
  induction frames generalizing parser with
  | nil => exact ⟨parser, idle, fun _ => rfl⟩
  | cons frame frames induction =>
      rw [AllEncode.cons] at good
      obtain ⟨middle, idleMiddle, first⟩ := idle.frame good.1
      obtain ⟨following, idleAfter, later⟩ := induction idleMiddle good.2
      refine ⟨following, idleAfter, fun rest => ?_⟩
      rw [joined_cons, List.append_assoc, first, later, Drained.after_after]
      obtain ⟨encoding, _ | command⟩ := frame <;> rfl

/-- At a residue the machine waits. -/
theorem Residue.drain {residue rest : Bytes}
    (isResidue : Residue cap residue args rest) (idle : Idle cap parser) :
    ∃ following, machine.drain (parser.extend residue) = ⟨[], following, none⟩ ∧
      Keeps cap args rest following := by
  cases isResidue with
  | line noLf =>
      refine ⟨_, machine.drain_wait ?_, idle.cap_eq, idle.args_eq, ?_⟩
      · rw [idle.round_eq, roundLine, extend, idle.unread_eq, List.nil_append,
          takeLine_eq_none_iff.mpr noLf]
      · rw [extend, idle.unread_eq, List.nil_append]
  | head opened noLf =>
      obtain ⟨count, inside, isInside, more, reads⟩ := opened.drain idle
      refine ⟨_, (reads _).trans (machine.drain_wait ?_), isInside.cap_eq,
        isInside.args_eq, ?_⟩
      · rw [isInside.round_eq, roundBulkHead,
          if_neg (isInside.unfinished more _), extend, isInside.unread_eq,
          List.nil_append, takeLine_eq_none_iff.mpr noLf]
      · rw [extend, isInside.unread_eq, List.nil_append]
  | @body _ _ _ _ _ length opened isLine isLength fits short =>
      obtain ⟨count, inside, isInside, more, reads⟩ := opened.drain idle
      have takesLine := isInside.length_line more isLine isLength fits rest
      let body := { inside with bulkLen := length, state := .bulkBody }
      have waits : machine.round (body.extend rest) = .wait := by
        rw [machine_round, RespParser.round]
        simp only [body, extend, roundBulkBody, isInside.unread_eq,
          List.nil_append, if_pos short]
      refine ⟨body.extend rest, ?_, isInside.cap_eq, isInside.args_eq, ?_⟩
      · rw [reads, machine.drain_next takesLine, Drained.after_nil,
          machine.drain_wait waits]
      · change inside.unread ++ rest = rest
        rw [isInside.unread_eq, List.nil_append]

/-- At a violation it fails. -/
theorem Malformed.drain {bytes message : Bytes}
    (malformed : Malformed cap bytes message) (idle : Idle cap parser) :
    ∃ following, machine.drain (parser.extend bytes) =
      ⟨[], following, some message⟩ := by
  cases malformed with
  | @count line digits more isLine bad =>
      have fails : machine.round (parser.extend (line ++ more)) =
          .fail (parser.extend more) multibulkError := by
        rw [idle.round_eq, roundLine, idle.taken isLine more]
        simp only
        cases reads : parseI64 digits with
        | none => simp [extend, idle.unread_eq]
        | some parsed =>
            have tooMany := bad _ (decimal_of_parse reads)
            have positive : 0 < kMaxArgs := by decide
            simp only
            rw [if_neg (by omega), if_pos]
            · simp [extend, idle.unread_eq]
            · rw [extend, idle.cap_eq]
              exact tooMany
      exact ⟨_, machine.drain_fail fails⟩
  | @head _ line text more _ opened isLine bad =>
      obtain ⟨count, inside, isInside, isMore, reads⟩ := opened.drain idle
      have fails : machine.round (inside.extend (line ++ more)) =
          .fail (inside.extend more) expectedDollarError := by
        rw [isInside.round_eq, roundBulkHead,
          if_neg (isInside.unfinished isMore _), isInside.taken isLine]
        simp only
        split
        · exact absurd rfl bad
        · simp [extend, isInside.unread_eq]
      exact ⟨_, (reads _).trans (machine.drain_fail fails)⟩
  | @length _ line digits more _ opened isLine bad =>
      obtain ⟨count, inside, isInside, isMore, reads⟩ := opened.drain idle
      have fails : machine.round (inside.extend (line ++ more)) =
          .fail (inside.extend more) bulkLengthError := by
        rw [isInside.round_eq, roundBulkHead,
          if_neg (isInside.unfinished isMore _), isInside.taken isLine]
        simp only
        cases readsLength : parseI64 digits with
        | none => simp [extend, isInside.unread_eq]
        | some parsed =>
            simp only
            rw [if_pos]
            · simp [extend, isInside.unread_eq]
            · rw [extend, isInside.cap_eq]
              exact bad _ (decimal_of_parse readsLength)
      exact ⟨_, (reads _).trans (machine.drain_fail fails)⟩
  | @terminator _ _ _ rest _ length opened isLine isLength fits enough bad =>
      obtain ⟨count, inside, isInside, isMore, reads⟩ := opened.drain idle
      have takesLine := isInside.length_line isMore isLine isLength fits rest
      let body := { inside with bulkLen := length, state := .bulkBody }
      have fails : machine.round (body.extend rest) =
          .fail (body.extend rest) unterminatedError := by
        rw [machine_round, RespParser.round]
        simp only [body, extend, roundBulkBody, isInside.unread_eq,
          List.nil_append]
        rw [if_neg (by omega), if_pos bad]
      refine ⟨body.extend rest, ?_⟩
      rw [reads, machine.drain_next takesLine, Drained.after_nil,
        machine.drain_fail fails]

end Machine

/-! ## Every byte string -/

section Analysis

variable {cap : Nat}

/-- Where no further frame is complete, either bytes are missing or the grammar
is violated. -/
def Ends (cap : Nat) (rest : Bytes) : Prop :=
  (∃ args unconsumed, Residue cap rest args unconsumed) ∨
    ∃ message, Malformed cap rest message

/-- After an incomplete array there is one more argument, or the end. -/
theorem Opened.analysis {start : Bytes} {args : List Bytes}
    (opened : Opened cap start args) (rest : Bytes) :
    (∃ encoding payload further, Group cap encoding payload ∧
        rest = encoding ++ further) ∨
      Ends cap (start ++ rest) := by
  cases taken : takeLine rest with
  | none =>
      have noLf := takeLine_eq_none_iff.mp taken
      exact .inr (.inl ⟨_, _, .head opened noLf⟩)
  | some pair =>
      obtain ⟨text, further⟩ := pair
      obtain ⟨line, isLine, rfl⟩ := isLine_of_takeLine taken
      by_cases isLength : text.head? = some 36
      · obtain ⟨digits, rfl⟩ : ∃ digits, text = 36 :: digits :=
          List.head?_eq_some_iff.mp isLength
        cases reads : parseI64 digits with
        | none =>
            refine .inr (.inr ⟨_, .length opened isLine ?_⟩)
            intro length decimal
            obtain ⟨parsed, readsAgain, _⟩ := decimal.parse
            rw [reads] at readsAgain
            cases readsAgain
        | some parsed =>
            have decimal := decimal_of_parse reads
            by_cases refused : parsed.toInt < 0 ∨ (cap : Int) < parsed.toInt + 2
            · refine .inr (.inr ⟨_, .length opened isLine ?_⟩)
              intro length other
              rwa [← decimal.unique other]
            · obtain ⟨length, isNat⟩ : ∃ length : Nat, parsed.toInt = length :=
                ⟨parsed.toInt.toNat, by omega⟩
              rw [isNat] at decimal refused
              have fits : length + 2 ≤ cap := by omega
              by_cases short : further.length < length + 2
              · exact .inr (.inl ⟨_, _, .body opened isLine decimal fits short⟩)
              · by_cases terminated : (further.drop length).take 2 = crlf
                · have whole : further = further.take length ++
                      (crlf ++ further.drop (length + 2)) := by
                    rw [← terminated, ← List.drop_drop, List.take_append_drop,
                      List.take_append_drop]
                  have size : (further.take length).length = length := by
                    rw [List.length_take]
                    omega
                  refine .inl ⟨line ++ further.take length ++ crlf,
                    further.take length, further.drop (length + 2),
                    .mk isLine (size.symm ▸ decimal) (size.symm ▸ fits), ?_⟩
                  simp only [List.append_assoc, ← whole]
                · exact .inr (.inr ⟨_, .terminator opened isLine decimal fits
                    (Nat.not_lt.mp short) terminated⟩)
      · exact .inr (.inr ⟨_, .head opened isLine isLength⟩)

/-- After the line that opens an array there are all its arguments, or the
end. -/
theorem Announces.analysis {line digits : Bytes} {count : Nat}
    (isLine : IsLine line (42 :: digits))
    (announces : Announces cap digits count) {groups : List (Bytes × Bytes)}
    (good : AllEncode (Group cap) groups) (room : groups.length ≤ count)
    (rest : Bytes) :
    (∃ all further, AllEncode (Group cap) all ∧ all.length = count ∧
        joined groups ++ rest = joined all ++ further) ∨
      Ends cap (line ++ (joined groups ++ rest)) := by
  -- Induction on the number of arguments still owed.
  induction owed : count - groups.length generalizing groups rest with
  | zero => exact .inl ⟨groups, rest, good, by omega, rfl⟩
  | succ owed induction =>
      have opened := Opened.mk isLine announces good (by omega)
      rcases opened.analysis rest with
        ⟨encoding, payload, further, isGroup, rfl⟩ | ends
      · have longer : AllEncode (Group cap) (groups ++ [(encoding, payload)]) :=
          AllEncode.append.mpr ⟨good, by simpa [AllEncode] using isGroup⟩
        have size : (groups ++ [(encoding, payload)]).length =
            groups.length + 1 := by simp
        have split := induction longer (by omega) further (by omega)
        simpa [List.append_assoc] using split
      · rw [List.append_assoc] at ends
        exact .inr ends

/-- Any bytes start with a frame or end. -/
theorem frame_or_ends (cap : Nat) (bytes : Bytes) :
    (∃ encoding command further, Frame cap encoding command ∧
        bytes = encoding ++ further) ∨ Ends cap bytes := by
  cases taken : takeLine bytes with
  | none =>
      exact .inr (.inl ⟨_, _, .line (takeLine_eq_none_iff.mp taken)⟩)
  | some pair =>
      obtain ⟨text, further⟩ := pair
      obtain ⟨line, isLine, rfl⟩ := isLine_of_takeLine taken
      have single : ∀ command, FrameAfter cap text [] command →
          ∃ encoding command further', Frame cap encoding command ∧
            line ++ further = encoding ++ further' := by
        intro command after
        exact ⟨line ++ [], command, further, .mk isLine after, by simp⟩
      cases text with
      | nil => exact .inl (single _ .blank)
      | cons letter text =>
          by_cases isArray : letter = 42
          · subst isArray
            cases reads : parseI64 text with
            | none =>
                refine .inr (.inr ⟨_, .count isLine ?_⟩)
                intro count decimal
                obtain ⟨parsed, readsAgain, _⟩ := decimal.parse
                rw [reads] at readsAgain
                cases readsAgain
            | some parsed =>
                have decimal := decimal_of_parse reads
                by_cases low : parsed.toInt ≤ 0
                · exact .inl (single _ (.empty decimal low))
                · by_cases refused : kMaxArgs < parsed.toInt ∨
                      (cap : Int) < parsed.toInt
                  · refine .inr (.inr ⟨_, .count isLine ?_⟩)
                    intro count other
                    rwa [← decimal.unique other]
                  · obtain ⟨count, isNat⟩ : ∃ count : Nat,
                        parsed.toInt = count := ⟨parsed.toInt.toNat, by omega⟩
                    rw [isNat] at decimal low refused
                    have announces : Announces cap text count :=
                      ⟨decimal, by omega, by omega, by omega⟩
                    have nothing : AllEncode (Group cap) [] := by simp [AllEncode]
                    rcases announces.analysis isLine nothing (Nat.zero_le _)
                      further with ⟨all, rest, good, rfl, same⟩ | ends
                    · refine .inl ⟨line ++ joined all, _, rest,
                        .mk isLine (.array announces good), ?_⟩
                      rw [List.append_assoc, ← same]
                      rfl
                    · exact .inr ends
          · exact .inl (single _ (.inline isArray))

theorem Frame.ne_nil {encoding : Bytes} {command : Option Command}
    (frame : Frame cap encoding command) : encoding ≠ [] := by
  obtain ⟨⟨_⟩, _⟩ := frame
  simp

/-- Any bytes split into frames and an end. -/
theorem frames_and_end (cap : Nat) (bytes : Bytes) :
    ∃ frames rest, AllEncode (Frame cap) frames ∧
      bytes = joined frames ++ rest ∧ Ends cap rest := by
  induction size : bytes.length using Nat.strongRecOn generalizing bytes with
  | _ size induction =>
      rcases frame_or_ends cap bytes with
        ⟨encoding, command, further, isFrame, rfl⟩ | ends
      · have positive := List.length_pos_of_ne_nil isFrame.ne_nil
        rw [List.length_append] at size
        obtain ⟨frames, rest, good, rfl, ends⟩ :=
          induction further.length (by omega) further rfl
        refine ⟨(encoding, command) :: frames, rest,
          AllEncode.cons.mpr ⟨isFrame, good⟩, ?_, ends⟩
        rw [joined_cons, List.append_assoc]
      · exact ⟨[], bytes, by simp [AllEncode], rfl, ends⟩

/-- More bytes do not mend a violation. -/
theorem Malformed.append {bytes message : Bytes}
    (malformed : Malformed cap bytes message) (more : Bytes) :
    Malformed cap (bytes ++ more) message := by
  cases malformed with
  | count isLine bad =>
      rw [List.append_assoc]
      exact .count isLine bad
  | head opened isLine bad =>
      rw [List.append_assoc, List.append_assoc]
      exact .head opened isLine bad
  | length opened isLine bad =>
      rw [List.append_assoc, List.append_assoc]
      exact .length opened isLine bad
  | terminator opened isLine isLength fits enough bad =>
      rw [List.append_assoc, List.append_assoc]
      refine .terminator opened isLine isLength fits ?_ ?_
      · rw [List.length_append]
        omega
      · rwa [List.drop_append_of_le_length (by omega),
          List.take_append_of_le_length (by rw [List.length_drop]; omega)]

/-- What can be extended to a frame, and is not one, is a residue. -/
theorem residue_of_extends {start more : Bytes} {command : Option Command}
    (frame : Frame cap (start ++ more) command) (proper : more ≠ []) :
    ∃ args unconsumed, Residue cap start args unconsumed := by
  rcases frame_or_ends cap start with
    ⟨encoding, other, further, isFrame, rfl⟩ | residue | ⟨message, malformed⟩
  · have same : encoding ++ further ++ more ++ [] =
        encoding ++ (further ++ more) := by simp
    obtain ⟨whole, _⟩ := Frame.prefixUnique frame isFrame same
    have empty : further ++ more = [] := by
      rw [List.append_assoc] at whole
      exact List.append_cancel_left (whole.trans (List.append_nil _).symm)
    exact absurd (List.append_eq_nil_iff.mp empty).2 proper
  · exact residue
  · exact absurd (List.prefix_refl _) ((malformed.append more).stuck _ _ frame)

end Analysis

/-! ## What the parser accepts -/

/-- The bytes are complete frames and a residue whose unconsumed end is within
the cap. -/
structure Split (cap : Nat) (bytes : Bytes)
    (frames : List (Bytes × Option Command)) (residue unconsumed : Bytes) :
    Prop where
  good : AllEncode (Frame cap) frames
  bytes_eq : bytes = joined frames ++ residue
  isResidue : ∃ args, Residue cap residue args unconsumed
  fits : unconsumed.length ≤ cap

section Acceptance

variable {cap : Nat} {bytes : Bytes}

theorem Split.drain {frames : List (Bytes × Option Command)}
    {residue unconsumed : Bytes}
    (split : Split cap bytes frames residue unconsumed) :
    ∃ following args, machine.drain ((fresh cap).extend bytes) =
        ⟨frames.filterMap Prod.snd, following, none⟩ ∧
      Residue cap residue args unconsumed ∧
      Keeps cap args unconsumed following := by
  obtain ⟨args, isResidue⟩ := split.isResidue
  obtain ⟨between, idle, reads⟩ := (fresh_idle cap).frames split.good
  obtain ⟨following, waits, keeps⟩ := isResidue.drain idle
  refine ⟨following, args, ?_, isResidue, keeps⟩
  rw [split.bytes_eq, reads, waits, Drained.after, List.append_nil]

theorem Split.feed {frames : List (Bytes × Option Command)}
    {residue unconsumed : Bytes}
    (split : Split cap bytes frames residue unconsumed) :
    ((fresh cap).feed bytes).1 = ⟨.ok, frames.filterMap Prod.snd, []⟩ := by
  obtain ⟨following, args, drained, _, keeps⟩ := split.drain
  have fits := split.fits
  rw [RespParser.feed, drained]
  dsimp only
  rw [if_neg]
  rw [keeps.unread_eq, keeps.cap_eq]
  omega

theorem split_of_feed_ok (accepted : ((fresh cap).feed bytes).1.status = .ok) :
    ∃ frames residue unconsumed,
      Split cap bytes frames residue unconsumed := by
  obtain ⟨clean, small⟩ := (feed_status_ok_iff _ _).mp accepted
  obtain ⟨frames, rest, good, rfl, ends⟩ := frames_and_end cap bytes
  obtain ⟨between, idle, reads⟩ := (fresh_idle cap).frames good
  rw [reads] at clean small
  rcases ends with ⟨args, unconsumed, isResidue⟩ | ⟨message, malformed⟩
  · obtain ⟨following, waits, keeps⟩ := isResidue.drain idle
    rw [waits] at small
    refine ⟨frames, rest, unconsumed, good, rfl, ⟨args, isResidue⟩, ?_⟩
    rw [← keeps.unread_eq, ← keeps.cap_eq]
    exact small
  · obtain ⟨following, fails⟩ := malformed.drain idle
    rw [fails] at clean
    cases clean

theorem Split.unique {first second : List (Bytes × Option Command)}
    {firstResidue secondResidue firstRest secondRest : Bytes}
    (left : Split cap bytes first firstResidue firstRest)
    (right : Split cap bytes second secondResidue secondRest) :
    first = second ∧ firstResidue = secondResidue ∧ firstRest = secondRest := by
  obtain ⟨_, _, leftDrain, leftIs, leftKeeps⟩ := left.drain
  obtain ⟨_, _, rightDrain, rightIs, rightKeeps⟩ := right.drain
  obtain ⟨rfl, rfl⟩ := Frame.prefixUnique.split_unique left.good right.good
    leftIs.stuck rightIs.stuck (left.bytes_eq.symm.trans right.bytes_eq)
  rw [leftDrain] at rightDrain
  cases rightDrain
  exact ⟨rfl, rfl, leftKeeps.unread_eq.symm.trans rightKeeps.unread_eq⟩

/-- The complete frames of a prefix are the first frames of the whole. -/
theorem Split.frames_of_prefix {part : Bytes}
    {first all : List (Bytes × Option Command)}
    {partResidue partRest residue unconsumed : Bytes}
    (ofPart : Split cap part first partResidue partRest)
    (isPrefix : part <+: bytes)
    (ofAll : Split cap bytes all residue unconsumed) :
    ∃ more, all = first ++ more := by
  obtain ⟨missing, whole⟩ := isPrefix
  obtain ⟨args, isResidue⟩ := ofAll.isResidue
  have same : joined first ++ (partResidue ++ missing) =
      joined all ++ residue := by
    rw [← List.append_assoc, ← ofPart.bytes_eq, whole, ofAll.bytes_eq]
  obtain ⟨more, isAll, -⟩ := Frame.prefixUnique.extends_of_stuck ofPart.good
    ofAll.good isResidue.stuck same
  exact ⟨more, isAll⟩

/-- A fresh parser accepts exactly the byte strings that split into complete
frames and a residue, in one way only, and returns the commands of the frames.
What can be extended to a frame is a residue. -/
theorem feed_accepts_grammar (cap : Nat) (bytes : Bytes) :
    (((fresh cap).feed bytes).1.status = .ok ↔
      ∃ frames residue unconsumed,
        Split cap bytes frames residue unconsumed) ∧
    (∀ frames residue unconsumed, Split cap bytes frames residue unconsumed →
      ((fresh cap).feed bytes).1.commands = frames.filterMap Prod.snd ∧
      ∀ otherFrames otherResidue otherRest,
        Split cap bytes otherFrames otherResidue otherRest →
        otherFrames = frames ∧ otherResidue = residue ∧
          otherRest = unconsumed) ∧
    ∀ residue more command, Frame cap (residue ++ more) command → more ≠ [] →
      ∃ args unconsumed, Residue cap residue args unconsumed := by
  refine ⟨⟨split_of_feed_ok, ?_⟩, ?_, ?_⟩
  · rintro ⟨frames, residue, unconsumed, split⟩
    rw [split.feed]
  · intro frames residue unconsumed split
    refine ⟨by rw [split.feed], ?_⟩
    intro otherFrames otherResidue otherRest other
    exact other.unique split
  · intro residue more command frame proper
    exact residue_of_extends frame proper

theorem not_decimal_of_letter {letter : UInt8} (notDigit : isDigit letter = false)
    (notMinus : letter ≠ 45) (rest : Bytes) (number : Int) :
    ¬ Decimal (letter :: rest) number := by
  intro decimal
  cases decimal with
  | plain _ allDigits =>
      rw [allDigits letter List.mem_cons_self] at notDigit
      cases notDigit
  | minus => exact notMinus rfl

/-- The first two bytes of a line are those of its text, unless the line is
shorter than that. -/
theorem IsLine.text_head {line text rest more : Bytes} {first second : UInt8}
    (isLine : IsLine line text)
    (same : line ++ rest = first :: second :: more) (notLf : first ≠ lf)
    (notEnd : second ≠ lf ∧ second ≠ cr) :
    ∃ tail, text = first :: second :: tail := by
  obtain ⟨noLf⟩ := isLine
  rename_i raw
  match raw with
  | [] => exact absurd (List.cons.inj same).1.symm notLf
  | [_] =>
      exact absurd (List.cons.inj (List.cons.inj same).2).1.symm notEnd.1
  | [_, _] =>
      cases same
      refine ⟨[], if_neg ?_⟩
      exact fun isCr => notEnd.2 (Option.some.inj isCr)
  | _ :: _ :: third :: tail =>
      cases same
      unfold stripCr
      split
      · exact ⟨_, rfl⟩
      · exact ⟨_, rfl⟩

/-- A line that has begun with `*x` is accepted as long as it has no end,
although no frame begins that way. -/
theorem accepts_unextendable_line :
    ((fresh 64).feed (ascii "*x")).1.status = .ok ∧
      ¬ ∃ frames residue, AllEncode (Frame 64) frames ∧
        ascii "*x" = joined frames ++ residue ∧
        ∃ more command, more ≠ [] ∧ Frame 64 (residue ++ more) command := by
  refine ⟨by decide, ?_⟩
  rintro ⟨frames, residue, good, same, more, command, _, frame⟩
  have stuck : Stuck (Frame 64) (ascii "*x") := (Residue.line (by decide)).stuck
  cases frames with
  | cons first frames =>
      rw [joined_cons, List.append_assoc] at same
      exact stuck _ _ (AllEncode.cons.mp good).1 ⟨_, same.symm⟩
  | nil =>
      obtain rfl : ascii "*x" = residue := same
      generalize isStart : ascii "*x" ++ more = bytes at frame
      obtain ⟨isLine, after⟩ := frame
      obtain ⟨tail, rfl⟩ := isLine.text_head isStart.symm (by decide) (by decide)
      have notDecimal := not_decimal_of_letter (by decide : isDigit 120 = false)
        (by decide) tail
      cases after with
      | empty isCount => exact notDecimal _ isCount
      | array announces => exact notDecimal _ announces.isCount
      | inline notArray => exact notArray rfl

end Acceptance

end HermitDb.Protocol
