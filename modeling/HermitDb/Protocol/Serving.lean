import HermitDb.Protocol.Acceptance

/-!
# Serving a stream up to its framing error

A connection feeds what it receives chunk by chunk and stops at the first
error.  The call that fails returns none of the commands it has decoded, so
what has been returned by then depends on where the stream was cut: it is what
a fresh parser returns for the chunks before the failing one.
-/

namespace HermitDb.Protocol

open Library RespParser

namespace RespParser

/-- Feed chunk after chunk until a call fails: the commands returned, and the
error if there was one. -/
def serve : RespParser → List Bytes → List Command × Option Bytes
  | _, [] => ([], none)
  | parser, chunk :: chunks =>
      let (result, following) := parser.feed chunk
      match result.status with
      | .protocolError => (result.commands, some result.error)
      | .ok =>
          let (commands, error) := serve following chunks
          (result.commands ++ commands, error)

theorem serve_of_ok {parser : RespParser} {chunk : Bytes}
    (succeeds : (parser.feed chunk).1.status = .ok) (chunks : List Bytes) :
    parser.serve (chunk :: chunks) =
      ((parser.feed chunk).1.commands ++ ((parser.feed chunk).2.serve chunks).1,
        ((parser.feed chunk).2.serve chunks).2) := by
  simp only [serve, succeeds]

theorem feed_failed {parser : RespParser} {bytes : Bytes}
    (fails : (parser.feed bytes).1.status ≠ .ok) :
    (parser.feed bytes).1 = fail (parser.feed bytes).1.error := by
  unfold feed at fails ⊢
  dsimp only at fails ⊢
  split
  · rfl
  · rename_i clean
    split
    · rfl
    · rename_i small
      rw [clean] at fails
      simp [small] at fails

/-- The failing call drops what it has decoded. -/
theorem serve_of_failed {parser : RespParser} {chunk : Bytes}
    (fails : (parser.feed chunk).1.status ≠ .ok) (chunks : List Bytes) :
    parser.serve (chunk :: chunks) =
      ([], some (parser.feed chunk).1.error) := by
  have failed := feed_failed fails
  rw [serve]
  generalize parser.feed chunk = outcome at failed
  obtain ⟨result, following⟩ := outcome
  dsimp only at failed ⊢
  rw [failed]
  rfl

/-- The parser of a connection whose calls have all succeeded so far. -/
def Settled (parser : RespParser) : Prop :=
  parser.feed [] = (⟨.ok, [], []⟩, parser)

theorem settled_of_waiting {parser : RespParser}
    (waits : machine.round parser = .wait)
    (small : parser.unread.length ≤ parser.maxFrameBytes) : parser.Settled := by
  have stays : machine.drain (parser.extend []) = ⟨[], parser, none⟩ := by
    rw [← machine_extend, machine.extend_nil]
    exact machine.drain_wait waits
  rw [Settled, feed, stays]
  dsimp only
  rw [if_neg (Nat.not_lt.mpr small)]

theorem fresh_settled (cap : Nat) : (fresh cap).Settled :=
  settled_of_waiting (round_fresh cap) (Nat.zero_le cap)

section Resume

variable {parser : RespParser} {bytes : Bytes}

/-- After a successful call the next one goes on as if both chunks had come
at once, except that it returns only what is new. -/
theorem drain_feed (succeeds : (parser.feed bytes).1.status = .ok)
    (more : Bytes) :
    machine.drain (parser.extend (bytes ++ more)) =
      (machine.drain ((parser.feed bytes).2.extend more)).after
        (parser.feed bytes).1.commands := by
  have drained := drain_of_feed_ok succeeds
  have clean : (machine.drain (machine.extend parser bytes)).error = none := by
    rw [drained]
  have resumed := machine.drain_extend more clean
  rw [machine.extend_extend, drained] at resumed
  exact resumed

theorem feed_resumes (succeeds : (parser.feed bytes).1.status = .ok)
    (more : Bytes) :
    ((parser.feed bytes).2.feed more).2 = (parser.feed (bytes ++ more)).2 ∧
      (((parser.feed bytes).2.feed more).1.status = .ok ↔
        (parser.feed (bytes ++ more)).1.status = .ok) := by
  have resumed := drain_feed succeeds more
  constructor
  · rw [feed_retained _ more, feed_retained parser (bytes ++ more), resumed,
      Drained.after_state]
  · rw [feed_status_ok_iff, feed_status_ok_iff, resumed, Drained.after_state,
      Drained.after_error]

theorem feed_resumes_commands (succeeds : (parser.feed bytes).1.status = .ok)
    {more : Bytes} (again : (parser.feed (bytes ++ more)).1.status = .ok) :
    (parser.feed (bytes ++ more)).1.commands =
      (parser.feed bytes).1.commands ++
        ((parser.feed bytes).2.feed more).1.commands := by
  have later := ((feed_resumes succeeds more).2).mpr again
  have resumed := drain_feed succeeds more
  have first := drain_of_feed_ok again
  have second := drain_of_feed_ok later
  rw [machine_extend] at first second
  rw [first, second] at resumed
  exact congrArg Drained.output resumed

theorem settled_of_feed_ok (succeeds : (parser.feed bytes).1.status = .ok) :
    (parser.feed bytes).2.Settled := by
  obtain ⟨clean, small⟩ := (feed_status_ok_iff parser bytes).mp succeeds
  have waits := machine.round_drain_state clean
  rw [← feed_retained] at small waits
  exact settled_of_waiting waits small

end Resume

/-- The chunks are accepted call by call. -/
def Accepts (parser : RespParser) (chunks : List Bytes) : Prop :=
  ∀ first, first <+: chunks → (parser.feed first.flatten).1.status = .ok

theorem Accepts.start {parser : RespParser} {first chunks : List Bytes}
    (accepts : parser.Accepts chunks) (isStart : first <+: chunks) :
    parser.Accepts first :=
  fun other shorter => accepts other (shorter.trans isStart)

theorem accepts_nil {parser : RespParser} (settled : parser.Settled) :
    parser.Accepts [] := by
  intro first isStart
  rw [List.prefix_nil.mp isStart, List.flatten_nil, settled]

theorem accepts_cons {parser : RespParser} (settled : parser.Settled)
    {chunk : Bytes} (succeeds : (parser.feed chunk).1.status = .ok)
    {chunks : List Bytes} :
    parser.Accepts (chunk :: chunks) ↔
      (parser.feed chunk).2.Accepts chunks := by
  constructor
  · intro accepts first isStart
    rw [(feed_resumes succeeds first.flatten).2]
    exact accepts (chunk :: first)
      ((List.prefix_append_right_inj [chunk]).mpr isStart)
  · intro accepts first isStart
    cases first with
    | nil => rw [List.flatten_nil, settled]
    | cons other first =>
        obtain ⟨rfl, shorter⟩ := List.cons_prefix_cons.mp isStart
        rw [List.flatten_cons, ← (feed_resumes succeeds first.flatten).2]
        exact accepts first shorter

theorem Accepts.feedAll_ok {parser : RespParser} {chunks : List Bytes}
    (accepts : parser.Accepts chunks) (settled : parser.Settled) :
    ∀ result ∈ (parser.feedAll chunks).1, result.status = .ok := by
  induction chunks generalizing parser with
  | nil => nofun
  | cons chunk chunks induction =>
      have succeeds : (parser.feed chunk).1.status = .ok := by
        have first := accepts [chunk] (List.prefix_append [chunk] chunks)
        rwa [List.flatten_singleton] at first
      have rest := induction ((accepts_cons settled succeeds).mp accepts)
        (settled_of_feed_ok succeeds)
      simp only [feedAll, List.forall_mem_cons]
      exact ⟨succeeds, rest⟩

theorem accepts_of_feedAll_ok {parser : RespParser} {chunks : List Bytes}
    (settled : parser.Settled)
    (succeeds : ∀ result ∈ (parser.feedAll chunks).1, result.status = .ok) :
    parser.Accepts chunks := by
  induction chunks generalizing parser with
  | nil => exact accepts_nil settled
  | cons chunk chunks induction =>
      simp only [feedAll, List.forall_mem_cons] at succeeds
      rw [accepts_cons settled succeeds.1]
      exact induction (settled_of_feed_ok succeeds.1) succeeds.2

/-- Serving returns what is accepted before the first call that fails. -/
theorem serve_cut {parser : RespParser} (settled : parser.Settled)
    {chunks : List Bytes} (refused : ¬ parser.Accepts chunks) :
    ∃ earlier failing later, chunks = earlier ++ failing :: later ∧
      parser.Accepts earlier ∧ ¬ parser.Accepts (earlier ++ [failing]) ∧
      (parser.serve chunks).1 = (parser.feed earlier.flatten).1.commands ∧
      (parser.serve chunks).2.isSome = true := by
  induction chunks generalizing parser with
  | nil => exact absurd (accepts_nil settled) refused
  | cons chunk chunks induction =>
      by_cases succeeds : (parser.feed chunk).1.status = .ok
      · rw [accepts_cons settled succeeds] at refused
        obtain ⟨earlier, failing, later, rfl, accepts, stops, served, failed⟩ :=
          induction (settled_of_feed_ok succeeds) refused
        have longer := (accepts_cons settled succeeds).mpr accepts
        refine ⟨chunk :: earlier, failing, later, rfl, longer, ?_, ?_, ?_⟩
        · exact mt (accepts_cons settled succeeds).mp stops
        · have whole := longer _ List.prefix_rfl
          rw [List.flatten_cons] at whole ⊢
          rw [serve_of_ok succeeds, served,
            feed_resumes_commands succeeds whole]
        · rw [serve_of_ok succeeds]
          exact failed
      · refine ⟨[], chunk, chunks, rfl, accepts_nil settled, ?_, ?_, ?_⟩
        · intro accepts
          have first := accepts [chunk] List.prefix_rfl
          rw [List.flatten_singleton] at first
          exact succeeds first
        · rw [serve_of_failed succeeds, List.flatten_nil, settled]
        · rw [serve_of_failed succeeds]
          rfl

/-- What comes after the failing call is not looked at. -/
theorem serve_append_of_failed {parser : RespParser} {chunks : List Bytes}
    (failed : (parser.serve chunks).2.isSome = true) (more : List Bytes) :
    parser.serve (chunks ++ more) = parser.serve chunks := by
  induction chunks generalizing parser with
  | nil => cases failed
  | cons chunk chunks induction =>
      rw [List.cons_append]
      by_cases succeeds : (parser.feed chunk).1.status = .ok
      · rw [serve_of_ok succeeds] at failed ⊢
        rw [serve_of_ok succeeds, induction failed]
      · rw [serve_of_failed succeeds, serve_of_failed succeeds]

theorem serve_append_of_ok {parser : RespParser} {chunks : List Bytes}
    (clean : (parser.serve chunks).2 = none) (more : List Bytes) :
    parser.serve (chunks ++ more) =
      ((parser.serve chunks).1 ++ ((parser.feedAll chunks).2.serve more).1,
        ((parser.feedAll chunks).2.serve more).2) := by
  induction chunks generalizing parser with
  | nil => rfl
  | cons chunk chunks induction =>
      by_cases succeeds : (parser.feed chunk).1.status = .ok
      · rw [serve_of_ok succeeds] at clean
        rw [List.cons_append, serve_of_ok succeeds, serve_of_ok succeeds,
          induction clean]
        simp only [feedAll, List.append_assoc]
      · rw [serve_of_failed succeeds] at clean
        cases clean

theorem feedAll_append (parser : RespParser) (first second : List Bytes) :
    (parser.feedAll (first ++ second)).2 =
      ((parser.feedAll first).2.feedAll second).2 := by
  induction first generalizing parser with
  | nil => rfl
  | cons chunk first induction => exact induction (parser.feed chunk).2

end RespParser

/-! ## Commands lost with an error -/

/-- Bytes no stream may go on with: they violate the grammar, or they are an
incomplete frame that the cap does not allow to buffer. -/
inductive Offends (cap : Nat) (bytes : Bytes) : Prop where
  | malformed {message : Bytes} (malformed : Malformed cap bytes message)
  | oversized {args : List Bytes} {unconsumed : Bytes}
      (isResidue : Residue cap bytes args unconsumed)
      (big : cap < unconsumed.length)

/-- The bytes split into complete frames and a residue within the cap. -/
def Acceptable (cap : Nat) (bytes : Bytes) : Prop :=
  ∃ frames residue unconsumed, Split cap bytes frames residue unconsumed

/-- Some call ends after the last frame with a command, and the bytes of each
call up to it leave an acceptable stream. -/
def CutAfterCommands (cap : Nat) (frames : List (Bytes × Option Command))
    (chunks : List Bytes) : Prop :=
  ∃ earlier, earlier <+: chunks ∧
    (∀ first, first <+: earlier → Acceptable cap first.flatten) ∧
    ∃ early late, frames = early ++ late ∧
      joined early <+: earlier.flatten ∧ ∀ frame ∈ late, frame.2 = none

section Lost

variable {cap : Nat} {frames : List (Bytes × Option Command)} {bad : Bytes}

theorem acceptable_iff (cap : Nat) (bytes : Bytes) :
    Acceptable cap bytes ↔ ((fresh cap).feed bytes).1.status = .ok := by
  constructor
  · rintro ⟨frames, residue, unconsumed, split⟩
    rw [split.feed]
  · exact split_of_feed_ok

theorem accepts_iff (cap : Nat) (chunks : List Bytes) :
    (fresh cap).Accepts chunks ↔
      ∀ first, first <+: chunks → Acceptable cap first.flatten := by
  simp only [Accepts, acceptable_iff]

theorem Offends.stuck (offends : Offends cap bad) : Stuck (Frame cap) bad := by
  cases offends with
  | malformed malformed => exact malformed.stuck
  | oversized isResidue => exact isResidue.stuck

theorem Offends.unacceptable (offends : Offends cap bad)
    (good : AllEncode (Frame cap) frames) :
    ¬ Acceptable cap (joined frames ++ bad) := by
  rw [acceptable_iff, feed_status_ok_iff]
  rintro ⟨clean, small⟩
  obtain ⟨between, idle, reads⟩ := (fresh_idle cap).frames good
  rw [reads] at clean small
  cases offends with
  | malformed malformed =>
      obtain ⟨following, fails⟩ := malformed.drain idle
      rw [fails] at clean
      cases clean
  | oversized isResidue big =>
      obtain ⟨following, waits, keeps⟩ := isResidue.drain idle
      rw [waits] at small
      dsimp only [Drained.after_state] at small
      rw [keeps.unread_eq, keeps.cap_eq] at small
      omega

/-- The error is reported, and the commands before it have been returned
exactly if a call ended between them and the offence. -/
theorem serve_offence {chunks : List Bytes} (good : AllEncode (Frame cap) frames)
    (offends : Offends cap bad) (cut : chunks.flatten = joined frames ++ bad) :
    ((fresh cap).serve chunks).2.isSome = true ∧
      (((fresh cap).serve chunks).1 = frames.filterMap Prod.snd ↔
        CutAfterCommands cap frames chunks) := by
  have refused : ¬ (fresh cap).Accepts chunks := by
    intro accepts
    have whole := accepts _ List.prefix_rfl
    rw [cut, ← acceptable_iff] at whole
    exact offends.unacceptable good whole
  obtain ⟨earlier, failing, later, rfl, accepts, stops, served, failed⟩ :=
    serve_cut (fresh_settled cap) refused
  refine ⟨failed, ?_⟩
  obtain ⟨returned, residue, unconsumed, split⟩ :=
    (acceptable_iff cap earlier.flatten).mpr (accepts _ List.prefix_rfl)
  obtain ⟨_, isResidue⟩ := split.isResidue
  -- The frames returned are the first ones of the stream.
  obtain ⟨lost, rfl, -⟩ := Frame.prefixUnique.extends_of_stuck split.good good
    offends.stuck (by
      rw [← cut, List.flatten_append, split.bytes_eq, List.append_assoc])
  rw [served, split.feed, List.filterMap_append, List.self_eq_append_right]
  have nothingLost : lost.filterMap Prod.snd = [] ↔
      ∀ frame ∈ lost, frame.2 = none := List.filterMap_eq_nil_iff
  rw [nothingLost]
  constructor
  · intro silent
    refine ⟨earlier, List.prefix_append _ _, (accepts_iff cap earlier).mp accepts,
      returned, lost, rfl, ?_, silent⟩
    rw [split.bytes_eq]
    exact List.prefix_append _ _
  · rintro ⟨other, isStart, acceptable, early, late, isSplit, within, silent⟩
    -- The cut lies before the failing chunk.
    have before : other <+: earlier := by
      rcases List.prefix_or_prefix_of_prefix isStart
        (show earlier ++ [failing] <+: earlier ++ failing :: later from
          ⟨later, by simp⟩) with shorter | longer
      · rcases List.prefix_concat_iff.mp shorter with rfl | proper
        · exact absurd ((accepts_iff cap _).mpr acceptable) stops
        · exact proper
      · exact absurd (((accepts_iff cap _).mpr acceptable).start longer) stops
    obtain ⟨rest, isWithin⟩ := within.trans before.flatten
    rw [split.bytes_eq] at isWithin
    have earlyGood : AllEncode (Frame cap) early :=
      (AllEncode.append.mp (isSplit ▸ good)).1
    obtain ⟨more, rfl, -⟩ := Frame.prefixUnique.extends_of_stuck earlyGood
      split.good isResidue.stuck isWithin
    rw [List.append_assoc] at isSplit
    have isLate := List.append_cancel_left isSplit
    intro frame member
    exact silent frame (isLate ▸ List.mem_append_right more member)

end Lost

/-- `PING` on a line of its own. -/
def pingFrames : List (Bytes × Option Command) :=
  [(ascii "PING\r\n", some [ascii "PING"])]

theorem pingFrames_good (cap : Nat) : AllEncode (Frame cap) pingFrames := by
  have isLine : IsLine (ascii "PING\r\n") (ascii "PING") :=
    IsLine.mk (show lf ∉ ascii "PING\r" by decide)
  have after : FrameAfter cap (ascii "PING") [] (some [ascii "PING"]) :=
    .inline (show (80 : UInt8) ≠ 42 by decide)
  rw [pingFrames, AllEncode.cons]
  exact ⟨.mk isLine after, nofun⟩

end HermitDb.Protocol
