import HermitDb.Protocol.RespParser

/-!
# Chunk independence of the parser

TCP gives no message boundaries.  As long as every call succeeds, the commands
the parser returns and the state it ends in depend on the bytes received and
not on how they were cut into chunks.
-/

namespace HermitDb.Protocol.RespParser

open Library

/-- Feed chunks one after another: the result of every call and the parser
after the last one. -/
def feedAll : RespParser → List Bytes → List ParseResult × RespParser
  | parser, [] => ([], parser)
  | parser, chunk :: chunks =>
      let (result, following) := parser.feed chunk
      let (results, final) := feedAll following chunks
      (result :: results, final)

/-- The commands of every call, in order. -/
def commandsOf (results : List ParseResult) : List Command :=
  results.flatMap ParseResult.commands

/-- Success or failure, the parser is left where the loop stopped. -/
theorem feed_retained (parser : RespParser) (bytes : Bytes) :
    (parser.feed bytes).2 = (machine.drain (parser.extend bytes)).state := by
  unfold feed
  dsimp only
  split
  · rfl
  · split <;> rfl

/-- A call succeeds exactly when its loop stops for want of bytes with an
incomplete frame within the cap. -/
theorem feed_status_ok_iff (parser : RespParser) (bytes : Bytes) :
    (parser.feed bytes).1.status = .ok ↔
      (machine.drain (parser.extend bytes)).error = none ∧
        (machine.drain (parser.extend bytes)).state.unread.length ≤
          (machine.drain (parser.extend bytes)).state.maxFrameBytes := by
  unfold feed
  cases found : (machine.drain (parser.extend bytes)).error with
  | some message => simp [found, fail]
  | none =>
      simp only [found, true_and]
      split
      · rename_i big
        simp only [fail, reduceCtorEq, false_iff]
        omega
      · rename_i small
        simp only [true_iff]
        omega

/-- A successful call is the drain of the parser with the chunk appended. -/
theorem drain_of_feed_ok {parser : RespParser} {bytes : Bytes}
    (succeeds : (parser.feed bytes).1.status = .ok) :
    machine.drain (machine.extend parser bytes) =
      ⟨(parser.feed bytes).1.commands, (parser.feed bytes).2, none⟩ := by
  have clean := ((feed_status_ok_iff parser bytes).mp succeeds).1
  unfold feed at succeeds ⊢
  change machine.drain (parser.extend bytes) = _
  cases drained : machine.drain (parser.extend bytes) with
  | mk output state error =>
      rw [drained] at clean
      cases clean
      simp only [drained] at succeeds ⊢
      split at succeeds
      · cases succeeds
      · rename_i small
        rw [if_neg small]

theorem feeds_of_feedAll_ok {parser : RespParser} {chunks : List Bytes}
    (succeeds : ∀ result ∈ (parser.feedAll chunks).1, result.status = .ok) :
    machine.Feeds parser chunks (commandsOf (parser.feedAll chunks).1)
      (parser.feedAll chunks).2 := by
  induction chunks generalizing parser with
  | nil => exact .nil parser
  | cons chunk chunks induction =>
      simp only [feedAll, List.mem_cons, forall_eq_or_imp] at succeeds
      have tail := induction succeeds.2
      exact .cons (drain_of_feed_ok succeeds.1) tail

/-- If the parser stops within its cap after every prefix of the input, no cut
of the input makes a call fail. -/
theorem feedAll_ok_of_prefixes {parser : RespParser} {chunks : List Bytes}
    (starves : ∀ part, part <+: chunks.flatten →
      (machine.drain (parser.extend part)).error = none ∧
        (machine.drain (parser.extend part)).state.unread.length ≤
          (machine.drain (parser.extend part)).state.maxFrameBytes) :
    ∀ result ∈ (parser.feedAll chunks).1, result.status = .ok := by
  induction chunks generalizing parser with
  | nil => simp [feedAll]
  | cons chunk chunks induction =>
      have first := starves chunk (by simp)
      simp only [feedAll, List.mem_cons, forall_eq_or_imp]
      refine ⟨(feed_status_ok_iff parser chunk).mpr first, induction ?_⟩
      intro part isPrefix
      have longer := starves (chunk ++ part) (by
        rw [List.flatten_cons]
        exact (List.prefix_append_right_inj chunk).mpr isPrefix)
      have resumed := @Consumer.drain_extend _ _ _ _ machine
        (parser.extend chunk) part first.1
      have joined : (parser.extend chunk).extend part =
          parser.extend (chunk ++ part) := machine.extend_extend parser chunk part
      rw [machine_extend, machine_extend, ← feed_retained, joined] at resumed
      rwa [resumed] at longer

theorem round_fresh (maxFrameBytes : Nat) :
    machine.round (fresh maxFrameBytes) = .wait := rfl

/-- Two ways of cutting the same bytes, both accepted call by call, return the
same commands and leave the same parser: unread bytes, state, pending argument
count, bulk length and collected arguments. -/
theorem feedAll_chunk_independent (maxFrameBytes : Nat) (bytes : Bytes)
    (left right : List Bytes)
    (leftCut : left.flatten = bytes) (rightCut : right.flatten = bytes)
    (leftOk : ∀ result ∈ ((fresh maxFrameBytes).feedAll left).1,
      result.status = .ok)
    (rightOk : ∀ result ∈ ((fresh maxFrameBytes).feedAll right).1,
      result.status = .ok) :
    commandsOf ((fresh maxFrameBytes).feedAll left).1 =
        commandsOf ((fresh maxFrameBytes).feedAll right).1 ∧
      ((fresh maxFrameBytes).feedAll left).2 =
        ((fresh maxFrameBytes).feedAll right).2 :=
  Consumer.Feeds.unique (round_fresh maxFrameBytes)
    (leftCut.trans rightCut.symm)
    (feeds_of_feedAll_ok leftOk) (feeds_of_feedAll_ok rightOk)

/-- A pipelined pair, received whole and received with cuts inside a length,
between CR and LF and inside a payload that contains a line break. -/
theorem feedAll_chunk_independent_pipeline :
    let whole := [ascii "*2\r\n$3\r\nGET\r\n$4\r\na\r\nb\r\nPING\r\n*1\r\n$9"]
    let cut := [ascii "*2\r", [], ascii "\n$3\r\nGET\r\n$", ascii "4\r\na\r",
      ascii "\nb\r\nPI", ascii "NG\r\n*1\r\n", ascii "$9"]
    commandsOf ((fresh 64).feedAll whole).1 =
        commandsOf ((fresh 64).feedAll cut).1 ∧
      ((fresh 64).feedAll whole).2 = ((fresh 64).feedAll cut).2 :=
  feedAll_chunk_independent 64 _ _ _ rfl (by decide) (by decide) (by decide)

end HermitDb.Protocol.RespParser
