import HermitDb.Protocol.Serving

/-!
# No more commands than bytes

A frame may be long in coming, and then one byte completes it.  It never
completes two: a byte ends one line or one payload, and what it leaves is
nothing.  So a call returns no more commands than it was given bytes, whatever
was buffered before.
-/

namespace HermitDb.Protocol.RespParser

open Library

/-- One if the argv is finished and has not been returned yet. -/
def owed (parser : RespParser) : Nat :=
  if parser.state = .bulkHead ∧ parser.args.length = parser.pendingArgc then 1
  else 0

theorem owed_of_state {parser : RespParser} (elsewhere : parser.state ≠ .bulkHead) :
    parser.owed = 0 :=
  if_neg fun finished => elsewhere finished.1

theorem owed_le (parser : RespParser) : parser.owed ≤ 1 := by
  unfold owed
  split <;> simp

variable {parser following : RespParser} {output : List Command}

/-! ## One round -/

theorem roundLine_owed (line : parser.state = .line)
    (moves : parser.roundLine = .next following output) :
    output.length + following.owed ≤ 1 := by
  unfold roundLine at moves
  cases taken : takeLine parser.unread with
  | none => simp [taken] at moves
  | some pair =>
      obtain ⟨text, rest⟩ := pair
      simp only [taken] at moves
      split at moves
      · cases moves
        rw [List.length_nil, Nat.zero_add]
        exact owed_le _
      · split at moves
        · cases moves
        · split_ifs at moves
          all_goals
            cases moves
            rw [List.length_nil, Nat.zero_add]
            exact owed_le _
      · cases moves
        rw [owed_of_state (by simp [line])]
        split <;> simp

theorem roundBulkHead_owed
    (moves : parser.roundBulkHead = .next following output) :
    output.length + following.owed ≤ 1 := by
  unfold roundBulkHead at moves
  split at moves
  · cases moves
    rw [owed_of_state (by simp)]
    simp
  · cases taken : takeLine parser.unread with
    | none => simp [taken] at moves
    | some pair =>
        simp only [taken] at moves
        split at moves
        · split at moves
          · cases moves
          · split_ifs at moves
            cases moves
            rw [List.length_nil, Nat.zero_add]
            exact owed_le _
        · cases moves

theorem roundBulkBody_owed
    (moves : parser.roundBulkBody = .next following output) :
    output.length + following.owed ≤ 1 := by
  unfold roundBulkBody at moves
  split_ifs at moves
  cases moves
  rw [List.length_nil, Nat.zero_add]
  exact owed_le _

/-- A round returns a command or leaves one to be returned, not both. -/
theorem round_owed (moves : parser.round = .next following output) :
    output.length + following.owed ≤ 1 := by
  unfold round at moves
  cases state : parser.state with
  | line => exact roundLine_owed state (by simpa [state] using moves)
  | bulkHead => exact roundBulkHead_owed (by simpa [state] using moves)
  | bulkBody => exact roundBulkBody_owed (by simpa [state] using moves)

/-! ## One byte -/

/-- A parser that has consumed everything returns what it owes. -/
theorem length_drain_of_consumed (consumed : parser.unread = []) :
    (machine.drain parser).output.length ≤ parser.owed := by
  have noLine : takeLine parser.unread = none := by
    rw [consumed]
    rfl
  cases state : parser.state with
  | line =>
      have waits : machine.round parser = .wait := by
        simp only [machine_round, round, state, roundLine, noLine]
      rw [machine.drain_wait waits]
      exact Nat.zero_le _
  | bulkBody =>
      have waits : machine.round parser = .wait := by
        simp only [machine_round, round, state, roundBulkBody, consumed]
        exact if_pos (by simp)
      rw [machine.drain_wait waits]
      exact Nat.zero_le _
  | bulkHead =>
      by_cases finished : parser.args.length = parser.pendingArgc
      · have moves : machine.round parser =
            .next { parser with args := [], state := .line } [parser.args] := by
          simp only [machine_round, round, state, roundBulkHead]
          exact if_pos finished
        have waits : machine.round { parser with args := [], state := .line } =
            .wait := by
          simp only [machine_round, round, roundLine, noLine]
        rw [machine.drain_next moves, machine.drain_wait waits, owed,
          if_pos ⟨state, finished⟩]
        simp
      · have waits : machine.round parser = .wait := by
          simp only [machine_round, round, state, roundBulkHead, noLine]
          exact if_neg finished
        rw [machine.drain_wait waits]
        exact Nat.zero_le _

theorem takeLine_completed {unread line rest : Bytes} {letter : UInt8}
    (waits : takeLine unread = none)
    (taken : takeLine (unread ++ [letter]) = some (line, rest)) : rest = [] := by
  have noLf := takeLine_eq_none_iff.mp waits
  by_cases isLf : letter = lf
  · rw [isLf, takeLine_append_lf noLf] at taken
    cases taken
    rfl
  · have still : takeLine (unread ++ [letter]) = none := by
      rw [takeLine_eq_none_iff]
      simp [noLf, Ne.symm isLf]
    rw [still] at taken
    cases taken

theorem takeLine_of_waiting (waits : parser.round = .wait)
    (inBody : parser.state ≠ .bulkBody) : takeLine parser.unread = none := by
  by_contra complete
  obtain ⟨⟨line, rest⟩, taken⟩ := Option.ne_none_iff_exists'.mp complete
  cases state : parser.state with
  | line =>
      simp only [round, state, roundLine, taken] at waits
      split at waits
      · cases waits
      · split at waits
        · cases waits
        · split_ifs at waits
      · cases waits
  | bulkHead =>
      simp only [round, state, roundBulkHead, taken] at waits
      split_ifs at waits
      split at waits
      · split at waits
        · cases waits
        · split_ifs at waits
      · cases waits
  | bulkBody => exact inBody state

/-- The byte a waiting parser moves on with is its last. -/
theorem consumed_of_round {letter : UInt8} (waits : parser.round = .wait)
    (moves : (parser.extend [letter]).round = .next following output) :
    following.unread = [] := by
  cases state : parser.state with
  | line =>
      have noLine := takeLine_of_waiting waits (by simp [state])
      simp only [round, extend, state, roundLine] at moves
      split at moves
      · cases moves
      · rename_i line rest taken
        have last := takeLine_completed noLine taken
        split at moves
        · cases moves
          exact last
        · split at moves
          · cases moves
          · split_ifs at moves
            all_goals
              cases moves
              exact last
        · cases moves
          exact last
  | bulkHead =>
      have noLine := takeLine_of_waiting waits (by simp [state])
      simp only [round, extend, state, roundBulkHead] at waits moves
      split_ifs at waits moves with finished
      split at moves
      · cases moves
      · rename_i line rest taken
        have last := takeLine_completed noLine taken
        split at moves
        · split at moves
          · cases moves
          · split_ifs at moves
            cases moves
            exact last
        · cases moves
  | bulkBody =>
      simp only [round, extend, state, roundBulkBody] at waits moves
      split_ifs at waits moves with short
      cases moves
      apply List.drop_eq_nil_of_le
      rw [List.length_append, List.length_singleton]
      omega

/-- A byte completes one command at most. -/
theorem length_drain_byte (parser : RespParser) (letter : UInt8)
    (waits : machine.round parser = .wait) :
    (machine.drain (machine.extend parser [letter])).output.length ≤ 1 := by
  cases decision : machine.round (machine.extend parser [letter]) with
  | wait =>
      rw [machine.drain_wait decision]
      exact Nat.zero_le _
  | fail stopped error =>
      rw [machine.drain_fail decision]
      exact Nat.zero_le _
  | next following output =>
      have rest := length_drain_of_consumed (consumed_of_round waits decision)
      have both := round_owed decision
      rw [machine.drain_next decision, Drained.after_output, List.length_append]
      omega

/-! ## One call -/

/-- A call returns no more commands than it is given bytes. -/
theorem length_feed_commands (waits : machine.round parser = .wait)
    (bytes : Bytes) :
    (parser.feed bytes).1.commands.length ≤ bytes.length := by
  by_cases succeeds : (parser.feed bytes).1.status = .ok
  · have drained := drain_of_feed_ok succeeds
    have few := machine.length_output_le length_drain_byte waits
      (show (machine.drain (machine.extend parser bytes)).error = none by
        rw [drained])
    rw [drained] at few
    exact few
  · rw [feed_failed succeeds]
    exact Nat.zero_le _

theorem round_of_feed {bytes : Bytes}
    (succeeds : (parser.feed bytes).1.status = .ok) :
    machine.round (parser.feed bytes).2 = .wait := by
  have drained := drain_of_feed_ok succeeds
  have stopped := machine.round_drain_state
    (show (machine.drain (machine.extend parser bytes)).error = none by
      rw [drained])
  rwa [drained] at stopped

end HermitDb.Protocol.RespParser
