import HermitDb.Protocol.Serving

/-!
# What the parser may keep

The limits are checked per header, per argument and on the bytes left over by a
call.  No check sees the arguments already collected, and none sees a line that
arrives complete.  So the parser stays within its limits exactly if what no
check sees does.
-/

namespace HermitDb.Protocol

open Library RespParser

/-- The bytes of all arguments. -/
def payload (args : List Bytes) : Nat :=
  (args.map List.length).sum

/-- The bytes held for an incomplete frame. -/
def RespParser.retained (parser : RespParser) : Nat :=
  parser.unread.length + payload parser.args

/-- The limits on what the parser holds and on what it has returned. -/
structure WithinLimits (cap : Nat) (parser : RespParser)
    (commands : List Command) : Prop where
  retained : parser.retained ≤ cap
  commands : ∀ command ∈ commands,
    (command.length : Int) ≤ kMaxArgs ∧ payload command ≤ cap

section Limits

variable (cap : Nat) (frames : List (Bytes × Option Command))
  (args : List Bytes) (unconsumed : Bytes)

/-- What the checks see to: the bytes that are not yet a line or an argument, the
number of arguments of an array, complete or not, and each one of them. -/
structure Checked : Prop where
  unread : unconsumed.length ≤ cap
  pending : (args.length : Int) < kMaxArgs ∧ args.length ≤ cap ∧
    ∀ arg ∈ args, arg.length + 2 ≤ cap
  arrays : ∀ encoding command, (encoding, some command) ∈ frames →
    encoding.head? = some 42 → (command.length : Int) ≤ kMaxArgs ∧
      command.length ≤ cap ∧ ∀ arg ∈ command, arg.length + 2 ≤ cap

/-- What no check sees: the arguments of an incomplete array together with the
bytes after them, the arguments of a complete one together, and the words of a
complete line. -/
structure UncheckedWithin : Prop where
  pending : unconsumed.length + payload args ≤ cap
  arrays : ∀ encoding command, (encoding, some command) ∈ frames →
    encoding.head? = some 42 → payload command ≤ cap
  lines : ∀ encoding command, (encoding, some command) ∈ frames →
    encoding.head? ≠ some 42 →
      (command.length : Int) ≤ kMaxArgs ∧ payload command ≤ cap

end Limits

/-! ## What the grammar bounds -/

theorem IsLine.head_eq {line text : Bytes} {letter : UInt8}
    (isLine : IsLine line (letter :: text)) : line.head? = some letter := by
  generalize isText : letter :: text = whole at isLine
  obtain ⟨noLf⟩ := isLine
  rename_i raw
  unfold stripCr at isText
  split at isText
  · match raw with
    | [] | [_] => cases isText
    | first :: second :: raw => rw [(List.cons.inj isText).1]; rfl
  · rw [← isText]
    rfl

section Grammar

variable {cap : Nat} {args : List Bytes}

theorem groups_fit {groups : List (Bytes × Bytes)}
    (good : AllEncode (Group cap) groups) :
    ∀ arg ∈ groups.map Prod.snd, arg.length + 2 ≤ cap := by
  intro arg member
  obtain ⟨⟨encoding, decoded⟩, inGroups, rfl⟩ := List.mem_map.mp member
  have isGroup : Group cap encoding decoded := good _ inGroups
  cases isGroup with
  | mk isLine isLength fits => exact fits

theorem Opened.checked {start : Bytes} (opened : Opened cap start args) :
    (args.length : Int) < kMaxArgs ∧ args.length ≤ cap ∧
      ∀ arg ∈ args, arg.length + 2 ≤ cap := by
  cases opened with
  | mk isLine announces good more =>
      have notMany := announces.notMany
      have fits := announces.fits
      rw [List.length_map]
      exact ⟨by omega, by omega, groups_fit good⟩

theorem Residue.checked {residue unconsumed : Bytes}
    (isResidue : Residue cap residue args unconsumed) :
    (args.length : Int) < kMaxArgs ∧ args.length ≤ cap ∧
      ∀ arg ∈ args, arg.length + 2 ≤ cap := by
  cases isResidue with
  | line => exact ⟨by decide, Nat.zero_le cap, List.forall_mem_nil _⟩
  | head opened => exact opened.checked
  | body opened => exact opened.checked

/-- Only an array starts with an asterisk. -/
theorem Frame.array_checked {encoding : Bytes} {command : Command}
    (frame : Frame cap encoding (some command))
    (starred : encoding.head? = some 42) :
    (command.length : Int) ≤ kMaxArgs ∧ command.length ≤ cap ∧
      ∀ arg ∈ command, arg.length + 2 ≤ cap := by
  generalize isCommand : some command = decoded at frame
  obtain ⟨isLine, after⟩ := frame
  cases after with
  | blank => cases isCommand
  | empty => cases isCommand
  | array announces good =>
      cases isCommand
      rw [List.length_map]
      exact ⟨announces.notMany, announces.fits, groups_fit good⟩
  | inline notArray =>
      rw [List.append_nil, isLine.head_eq] at starred
      exact absurd (Option.some.inj starred) notArray

end Grammar

/-! ## What the parser keeps and returns -/

/-- After any calls that have all succeeded, the bytes so far are complete frames
and an incomplete one, the parser holds what is left of that one and has returned
the commands of the others.  The checks have seen to part of the limits, for
every stream and every chunking; the limits hold exactly if what no check sees is
within them too. -/
theorem frames_within_limits (cap : Nat) (chunks : List Bytes)
    (accepted : ∀ result ∈ ((fresh cap).feedAll chunks).1,
      result.status = .ok) :
    let final := ((fresh cap).feedAll chunks).2
    let commands := commandsOf ((fresh cap).feedAll chunks).1
    ∃ frames residue args unconsumed,
      AllEncode (Frame cap) frames ∧
      chunks.flatten = joined frames ++ residue ∧
      Residue cap residue args unconsumed ∧
      final.args = args ∧ final.unread = unconsumed ∧
      commands = frames.filterMap Prod.snd ∧
      Checked cap frames args unconsumed ∧
      (WithinLimits cap final commands ↔
        UncheckedWithin cap frames args unconsumed) := by
  intro final commands
  have whole := accepts_of_feedAll_ok (fresh_settled cap) accepted _
    List.prefix_rfl
  obtain ⟨frames, residue, unconsumed, split⟩ := split_of_feed_ok whole
  obtain ⟨following, args, drained, isResidue, keeps⟩ := split.drain
  have fed := (feeds_of_feedAll_ok accepted).drain_eq (round_fresh cap)
  rw [machine_extend, drained] at fed
  obtain ⟨isCommands, isFinal, -⟩ := Drained.mk.inj fed
  have sameArgs : final.args = args := by
    rw [← keeps.args_eq, isFinal]
  have sameUnread : final.unread = unconsumed := by
    rw [← keeps.unread_eq, isFinal]
  have arrays : ∀ encoding command, (encoding, some command) ∈ frames →
      encoding.head? = some 42 → (command.length : Int) ≤ kMaxArgs ∧
        command.length ≤ cap ∧ ∀ arg ∈ command, arg.length + 2 ≤ cap :=
    fun _ _ member => (split.good _ member).array_checked
  refine ⟨frames, residue, args, unconsumed, split.good, split.bytes_eq,
    isResidue, sameArgs, sameUnread, isCommands.symm,
    ⟨split.fits, isResidue.checked, arrays⟩, ?_⟩
  have returned : ∀ command, command ∈ commands ↔
      ∃ encoding, (encoding, some command) ∈ frames := by
    intro command
    rw [show commands = frames.filterMap Prod.snd from isCommands.symm]
    simp
  have held : final.retained = unconsumed.length + payload args := by
    rw [retained, sameArgs, sameUnread]
  constructor
  · intro within
    refine ⟨held ▸ within.retained, ?_, ?_⟩
    · intro encoding command member _
      exact (within.commands command ((returned command).mpr ⟨_, member⟩)).2
    · intro encoding command member _
      exact within.commands command ((returned command).mpr ⟨_, member⟩)
  · intro within
    refine ⟨held ▸ within.pending, ?_⟩
    intro command member
    obtain ⟨encoding, inFrames⟩ := (returned command).mp member
    by_cases starred : encoding.head? = some 42
    · exact ⟨(arrays encoding command inFrames starred).1,
        within.arrays encoding command inFrames starred⟩
    · exact within.lines encoding command inFrames starred

private theorem longFrame_commands :
    commandsOf ((fresh 16).feedAll
      [ascii "*1\r\n$10\r\nabcde", ascii "fghij\r\n"]).1 =
      [[ascii "abcdefghij"]] := by
  decide

/-- A frame of 21 bytes under a cap of 16, with one argument of 10 bytes: it is
accepted, and nothing that no check sees is beyond the limits. -/
theorem frames_within_limits_of_array :
    let fed := (fresh 16).feedAll
      [ascii "*1\r\n$10\r\nabcde", ascii "fghij\r\n"]
    ∃ frames args unconsumed, frames.filterMap Prod.snd = [[ascii "abcdefghij"]] ∧
      Checked 16 frames args unconsumed ∧
      UncheckedWithin 16 frames args unconsumed ∧
      WithinLimits 16 fed.2 (commandsOf fed.1) := by
  intro fed
  obtain ⟨frames, _, args, unconsumed, _, _, _, sameArgs, sameUnread, isCommands,
    checked, limits⟩ := frames_within_limits 16
      [ascii "*1\r\n$10\r\nabcde", ascii "fghij\r\n"] (by decide)
  rw [longFrame_commands] at isCommands
  have isArgs : args = [] := sameArgs.symm.trans (by decide)
  have isUnread : unconsumed = [] := sameUnread.symm.trans (by decide)
  have returned : ∀ encoding command, (encoding, some command) ∈ frames →
      command = [ascii "abcdefghij"] := by
    intro encoding command member
    have listed : command ∈ frames.filterMap Prod.snd :=
      List.mem_filterMap.mpr ⟨_, member, rfl⟩
    rw [← isCommands] at listed
    exact List.mem_singleton.mp listed
  have within : UncheckedWithin 16 frames args unconsumed := by
    refine ⟨?_, ?_, ?_⟩
    · rw [isArgs, isUnread]
      decide
    · intro encoding command member _
      rw [returned encoding command member]
      decide
    · intro encoding command member _
      rw [returned encoding command member]
      decide
  exact ⟨frames, args, unconsumed, isCommands.symm, checked, within,
    limits.mpr within⟩

/-- With a cap of 16 bytes: three of four arguments add up to 24 bytes, and a
line that arrives complete has 24 bytes of arguments.  A line may have any
number of arguments. -/
theorem limits_exceeded :
    (((fresh 16).feedAll [ascii "*4\r\n$8\r\nabcdefgh\r\n",
        ascii "$8\r\nabcdefgh\r\n", ascii "$8\r\nabcdefgh\r\n"]).1.map
          ParseResult.status = [.ok, .ok, .ok] ∧
      ((fresh 16).feedAll [ascii "*4\r\n$8\r\nabcdefgh\r\n",
        ascii "$8\r\nabcdefgh\r\n",
        ascii "$8\r\nabcdefgh\r\n"]).2.retained = 24) ∧
    (∃ command, ((fresh 16).feed
        (ascii "SET k abcdefghijklmnopqrst\r\n")).1 = ⟨.ok, [command], []⟩ ∧
      payload command = 24) ∧
    ∃ command, ((fresh 16).feed (inlineText (ascii "a")
        (List.replicate (2 ^ 20) (ascii "a")) ++ crlf)).1 =
          ⟨.ok, [command], []⟩ ∧ kMaxArgs < command.length := by
  refine ⟨⟨by decide, by decide⟩, ⟨_, rfl, by decide⟩, ?_⟩
  have plain : PlainWord (ascii "a") :=
    plainWord_of_all (by decide) (by decide)
  refine ⟨_, feed_inlineText 16 ?_ (by decide), ?_⟩
  · intro any member
    rcases List.mem_cons.mp member with rfl | repeated
    · exact plain
    · rwa [List.eq_of_mem_replicate repeated]
  · rw [List.length_cons, List.length_replicate]
    decide

end HermitDb.Protocol
