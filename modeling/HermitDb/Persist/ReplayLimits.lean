import HermitDb.Persist.TornTail

/-!
# What replay accepts

The parser that reads the log back has limits of its own.  A record is read
back exactly if it is within them; a record outside them is a protocol error.
-/

namespace HermitDb.Persist

open Protocol Library
open Protocol.RespParser (machine feedAll commandsOf)

/-- Fed the encoding of the record, a fresh replay parser succeeds and returns
exactly that one command. -/
def Accepted (record : Command) : Prop :=
  let result := ((RespParser.fresh kReplayFrameCap).feed (encode record)).1
  result.status = .ok ∧ result.commands = [record]

/-- A record outside the limits violates the grammar, whatever comes after
it. -/
theorem malformed_encode {record : Command} (nonempty : record ≠ [])
    (large : ¬ Admissible kReplayFrameCap record) (rest : Bytes) :
    ∃ message, Malformed kReplayFrameCap (encode record ++ rest) message := by
  rw [encode_eq, List.append_assoc]
  by_cases few : record.length ≤ 2 ^ 20
  · -- The first argument that is too long stops the parser.
    cases found : record.find? (kReplayFrameCap < ·.length + 2) with
    | none =>
        rw [List.find?_eq_none] at found
        refine absurd ⟨nonempty, few, fun arg member => ?_⟩ large
        simpa using found arg member
    | some arg =>
        obtain ⟨isLong, done, todo, split, allShort⟩ :=
          List.find?_eq_some_iff_append.mp found
        have short : ∀ arg ∈ done, arg.length + 2 ≤ kReplayFrameCap :=
          fun other member => by simpa using allShort other member
        have more : (argGroups done).length < record.length := by
          simp [argGroups, split]
        have opened := Opened.mk (header_isLine (by decide) _)
          (announces_length kReplayFrameCap_low nonempty few)
          (argGroups_encode kReplayFrameCap_high short) more
        have bad : ∀ length : Int,
            Decimal (unsignedToString arg.length) length →
              length < 0 ∨ (kReplayFrameCap : Int) < length + 2 := by
          intro length decimal
          obtain ⟨_, rfl⟩ := decimal_unsignedToString_iff.mp decimal
          have long := of_decide_eq_true isLong
          omega
        have malformed := @Malformed.length _ _ _ _
          (arg ++ crlf ++ todo.flatMap encodeArg ++ rest) _ opened
          (header_isLine (by decide) arg.length) bad
        have isRecord : record.flatMap encodeArg =
            done.flatMap encodeArg ++ (header 36 arg.length ++
              (arg ++ crlf ++ todo.flatMap encodeArg)) := by
          rw [split, List.flatMap_append, List.flatMap_cons, encodeArg_eq]
          simp only [List.append_assoc]
        rw [joined_argGroups] at malformed
        refine ⟨RespParser.bulkLengthError, ?_⟩
        rw [isRecord]
        simpa only [List.append_assoc] using malformed
  · refine ⟨_, .count (header_isLine (by decide) _) ?_⟩
    intro count decimal
    obtain ⟨_, rfl⟩ := decimal_unsignedToString_iff.mp decimal
    rw [kMaxArgs]
    omega

/-- The parser reads a record back exactly if it is within the limits. -/
theorem accepted_iff {record : Command} (nonempty : record ≠ []) :
    Accepted record ↔ Admissible kReplayFrameCap record := by
  constructor
  · intro accepted
    by_contra large
    obtain ⟨message, malformed⟩ := malformed_encode nonempty large []
    obtain ⟨following, fails⟩ := malformed.drain (fresh_idle kReplayFrameCap)
    have clean := ((RespParser.feed_status_ok_iff _ _).mp accepted.1).1
    rw [← List.append_nil (encode record), fails] at clean
    cases clean
  · intro admissible
    have single : ∀ command ∈ [record], Admissible kReplayFrameCap command :=
      List.forall_mem_singleton.mpr admissible
    have whole : encodeAll [record] = encode record := List.append_nil _
    rw [Accepted, ← whole, feed_cut kReplayFrameCap_low kReplayFrameCap_high
      single (List.prefix_refl _)]
    exact ⟨rfl, wholeItems_all (Nat.le_refl _)⟩

/-! ## Replay of a whole log -/

/-- A call that fails is damage. -/
theorem scan_corrupt {parser : RespParser} {reads : List ReadOutcome}
    {chunks : List Bytes} (delivers : Delivers reads chunks)
    (fails : ¬ ∀ result ∈ (parser.feedAll chunks).1, result.status = .ok) :
    (scan parser reads).stop = .corrupt := by
  induction delivers generalizing parser with
  | nil => exact absurd (by simp [feedAll]) fails
  | interrupted delivers induction => exact induction fails
  | @data chunk reads chunks present delivers induction =>
      have nonempty : chunk.isEmpty = false := by simpa using present
      simp only [feedAll, List.mem_cons, forall_eq_or_imp] at fails
      simp only [scan, nonempty, Bool.false_eq_true, if_false]
      by_cases first : (parser.feed chunk).1.status = .ok
      · rw [if_neg (not_not.mpr first)]
        apply induction
        intro rest
        exact fails ⟨first, rest⟩
      · rw [if_pos first]

/-- A log with a record outside the limits behind good ones is refused, however
it is read. -/
theorem replay_corrupt {good : List Command} {bad : Command} {rest : Bytes}
    (admissible : ∀ command ∈ good, Admissible kReplayFrameCap command)
    (nonempty : bad ≠ []) (large : ¬ Admissible kReplayFrameCap bad)
    {reads : List ReadOutcome} {chunks : List Bytes}
    (delivers : Delivers reads chunks)
    (whole : chunks.flatten = encodeAll good ++ (encode bad ++ rest)) :
    (replay (.present (encodeAll good ++ (encode bad ++ rest))) reads
      true).status = .corrupt := by
  have fails : ¬ ∀ result ∈
      ((RespParser.fresh kReplayFrameCap).feedAll chunks).1,
      result.status = .ok := by
    intro succeeds
    have drained := (RespParser.feeds_of_feedAll_ok succeeds).drain_eq
      (RespParser.round_fresh kReplayFrameCap)
    obtain ⟨between, idle, reads⟩ := (fresh_idle kReplayFrameCap).frames
      (recordFrames_encode kReplayFrameCap_low kReplayFrameCap_high admissible)
    obtain ⟨message, malformed⟩ := malformed_encode nonempty large rest
    obtain ⟨following, fails⟩ := malformed.drain idle
    rw [RespParser.machine_extend, whole, ← joined_recordFrames, reads, fails]
      at drained
    cases congrArg Drained.error drained
  simp only [replay, scan_corrupt delivers fails]

end HermitDb.Persist
