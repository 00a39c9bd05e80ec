import HermitDb.Net.ProtocolErrors
import HermitDb.Protocol.Serving

/-!
# Commands lost with a framing error

Up to its first error reply a connection executes what serving the received
chunks returns.  Whether the commands in front of a framing error are among
them is decided by the segmentation of the stream alone.
-/

namespace HermitDb.Net

open Library Protocol RespParser Util

/-! ## What a connection executes -/

/-- The acts before the first error reply. -/
def untilRefused (acts : List Act) : List Act :=
  acts.takeWhile fun act =>
    match act with
    | .refused _ => false
    | _ => true

/-- The chunks received, in order. -/
def fedChunks (acts : List Act) : List Bytes :=
  acts.filterMap fun act =>
    match act with
    | .fed chunk => some chunk
    | _ => none

/-- The commands executed, in order. -/
def handledCommands (acts : List Act) : List Command :=
  acts.filterMap fun act =>
    match act with
    | .handled cmd => some cmd
    | _ => none

@[simp] theorem fedChunks_append (first second : List Act) :
    fedChunks (first ++ second) = fedChunks first ++ fedChunks second :=
  List.filterMap_append

@[simp] theorem handledCommands_append (first second : List Act) :
    handledCommands (first ++ second) =
      handledCommands first ++ handledCommands second :=
  List.filterMap_append

theorem untilRefused_append {first : List Act} (unrefused : ¬ Refused first)
    (second : List Act) :
    untilRefused (first ++ second) = first ++ untilRefused second := by
  apply List.takeWhile_append_of_pos
  intro act member
  cases act with
  | refused reply => exact absurd ⟨reply, member⟩ unrefused
  | _ => rfl

theorem untilRefused_of_unrefused {acts : List Act}
    (unrefused : ¬ Refused acts) : untilRefused acts = acts := by
  have whole := untilRefused_append unrefused []
  rw [List.append_nil] at whole
  exact whole.trans (List.append_nil acts)

theorem untilRefused_append_of_refused {first : List Act}
    (refused : Refused first) (second : List Act) :
    untilRefused (first ++ second) = untilRefused first := by
  obtain ⟨reply, member⟩ := refused
  induction first with
  | nil => cases member
  | cons act first induction =>
      rcases List.mem_cons.mp member with rfl | inRest
      · rfl
      · have rest := induction inRest
        unfold untilRefused at rest ⊢
        rw [List.cons_append, List.takeWhile_cons, List.takeWhile_cons, rest]

theorem silent_takes_nothing {acts : List Act}
    (silent : ∀ act ∈ acts, act.Silent) :
    fedChunks acts = [] ∧ handledCommands acts = [] := by
  rw [fedChunks, handledCommands, List.filterMap_eq_nil_iff,
    List.filterMap_eq_nil_iff, ← forall₂_and]
  intro act member
  have isSilent := silent act member
  cases act with
  | sent | closed => exact ⟨rfl, rfl⟩
  | opened | fed | handled | queued | refused => cases isSilent

/-- Up to an error the acts execute what the parser returns for the chunks they
receive; without one they leave the parser that has consumed them. -/
structure Parses (parser : RespParser) (acts : List Act)
    (following : RespParser) : Prop where
  handled : handledCommands (untilRefused acts) =
    (parser.serve (fedChunks (untilRefused acts))).1
  refused : Refused acts →
    (parser.serve (fedChunks (untilRefused acts))).2.isSome = true
  unrefused : ¬ Refused acts → (parser.serve (fedChunks acts)).2 = none ∧
    following = (parser.feedAll (fedChunks acts)).2

namespace Parses

variable {parser middle following : RespParser} {acts first second : List Act}

theorem append (before : Parses parser first middle)
    (after : Parses middle second following) :
    Parses parser (first ++ second) following := by
  by_cases failed : Refused first
  · have same := untilRefused_append_of_refused failed second
    refine ⟨?_, fun _ => ?_, fun unrefused => ?_⟩
    · rw [same]
      exact before.handled
    · rw [same]
      exact before.refused failed
    · exact absurd ((refused_append first second).mpr (.inl failed)) unrefused
  · obtain ⟨clean, rfl⟩ := before.unrefused failed
    have started := before.handled
    rw [untilRefused_of_unrefused failed] at started
    have goesOn := serve_append_of_ok clean
    refine ⟨?_, ?_, ?_⟩
    · rw [untilRefused_append failed, handledCommands_append,
        fedChunks_append, goesOn, started, after.handled]
    · rw [untilRefused_append failed, fedChunks_append, goesOn, refused_append,
        or_iff_right failed]
      exact after.refused
    · rw [refused_append, or_iff_right failed, fedChunks_append, goesOn,
        feedAll_append]
      exact after.unrefused

/-- Acts that neither receive nor execute anything. -/
theorem silent (parser : RespParser) (silent : ∀ act ∈ acts, act.Silent) :
    Parses parser acts parser := by
  have unrefused := not_refused_of_silent silent
  obtain ⟨noChunks, noCommands⟩ := silent_takes_nothing silent
  refine ⟨?_, fun refused => absurd refused unrefused, fun _ => ?_⟩
  · rw [untilRefused_of_unrefused unrefused, noCommands, noChunks]
    rfl
  · rw [noChunks]
    exact ⟨rfl, rfl⟩

end Parses

variable {App : Type} {handler : Handler App}

theorem handleAll_acts (handler : Handler App) (cmds : List Command)
    (conn : Connection) (app : App) (stop : Bool) :
    handledCommands (handleAll handler cmds conn app stop).acts = cmds ∧
      fedChunks (handleAll handler cmds conn app stop).acts = [] ∧
      (handleAll handler cmds conn app stop).conn.parser = conn.parser := by
  induction cmds generalizing conn app stop with
  | nil => exact ⟨rfl, rfl, rfl⟩
  | cons cmd cmds induction =>
      obtain ⟨commands, chunks, sameParser⟩ := induction
        (conn.queueReply (handler.execute app cmd).1)
        (handler.execute app cmd).2
        (stop || handler.shutdownRequested (handler.execute app cmd).2)
      exact ⟨congrArg (cmd :: ·) commands, chunks, sameParser⟩

/-- One chunk and what it makes the connection execute. -/
theorem follows_taken {parser following : RespParser} {chunk : Bytes}
    {result : ParseResult} (fed : parser.feed chunk = (result, following))
    (good : result.status = .ok) (conn : Connection) (app : App) (stop : Bool) :
    Parses parser
      (.fed chunk :: (handleAll handler result.commands conn app stop).acts)
      following := by
  obtain ⟨commands, chunks, -⟩ :=
    handleAll_acts handler result.commands conn app stop
  obtain ⟨unrefused, -⟩ :=
    handleAll_unrefused handler result.commands conn app stop
  generalize (handleAll handler result.commands conn app stop).acts = acts
    at commands chunks unrefused
  have succeeds : (parser.feed chunk).1.status = .ok := by
    rw [fed]
    exact good
  have noRefusal : ¬ Refused (.fed chunk :: acts) := by
    simpa [Refused] using unrefused
  have oneChunk : fedChunks (.fed chunk :: acts) = [chunk] :=
    congrArg (chunk :: ·) chunks
  have served : parser.serve [chunk] = (result.commands, none) := by
    rw [serve_of_ok succeeds, fed]
    exact Prod.ext (List.append_nil _) rfl
  refine ⟨?_, fun refused => absurd refused noRefusal, fun _ => ?_⟩
  · rw [untilRefused_of_unrefused noRefusal, oneChunk, served]
    exact commands
  · rw [oneChunk, served]
    simp only [feedAll, fed, and_self]

theorem follows_refused {parser : RespParser} {chunk : Bytes}
    (bad : (parser.feed chunk).1.status ≠ .ok) (reply : Bytes)
    (following : RespParser) :
    Parses parser [.fed chunk, .refused reply] following := by
  have oneChunk : fedChunks (untilRefused [.fed chunk, .refused reply]) =
      [chunk] := rfl
  refine ⟨?_, fun _ => ?_, fun unrefused => ?_⟩
  · rw [oneChunk, serve_of_failed bad]
    rfl
  · rw [oneChunk, serve_of_failed bad]
    rfl
  · exact absurd ⟨reply, by simp⟩ unrefused

theorem Pulls.parses {conn : Connection} {app : App} {stop : Bool}
    {reading : Reading App} (pulls : Pulls handler conn app stop reading) :
    Parses conn.parser reading.acts reading.conn.parser := by
  induction pulls with
  | rests => exact .silent _ nofun
  | refuses fed bad =>
      refine follows_refused ?_ _ _
      rw [fed]
      exact bad
  | @takes conn app stop chunk result parser handled later fed good isHandled
      rest induction =>
      subst isHandled
      rw [(handleAll_acts handler result.commands _ app stop).2.2] at induction
      exact (follows_taken fed good _ app stop).append induction

theorem Reads.parses {kernel : Kernel} {conn following : Connection}
    {acts : List Act} (reads : Reads handler kernel conn acts following) :
    Parses conn.parser acts following.parser := by
  cases reads with
  | idle => exact .silent _ nofun
  | read => exact (readLoop_pulls handler _ _ _ _ _).parses

/-- The history of a session serves what was received on it, and the parser of
an open connection is where that has left it. -/
def Served (cap : Nat) (session : Session) : Prop :=
  ∃ parser, Parses (fresh cap) session.history parser ∧
    ∀ conn, session.conn = some conn → conn.parser = parser

theorem moves_served {cfg : Config} {kernel : Kernel} {before after : Session}
    (moves : Moves handler cfg kernel before after)
    (served : Served cfg.maxFrameBytes before) :
    Served cfg.maxFrameBytes after := by
  obtain ⟨parser, parses, isParser⟩ := served
  cases moves with
  | exited => exact ⟨parser, parses, by rintro _ ⟨⟩⟩
  | opened =>
      refine ⟨fresh cfg.maxFrameBytes, .silent _ (List.forall_mem_nil _), ?_⟩
      rintro conn ⟨⟩
      rfl
  | closed isOpen reads =>
      obtain rfl := isParser _ isOpen
      refine ⟨_, (parses.append reads.parses).append (.silent _ ?_), ?_⟩
      · simp [Act.Silent]
      · rintro _ ⟨⟩
  | @flushed _ following _ _ _ _ isOpen reads admits flushed =>
      obtain rfl := isParser _ isOpen
      have read := parses.append reads.parses
      cases flushed with
      | closed =>
          refine ⟨_, read.append (.silent _ (by simp [Act.Silent])), ?_⟩
          rintro _ ⟨⟩
      | kept unmarked bounded =>
          refine ⟨following.parser, ?_, ?_⟩
          · rw [Session.arm_history]
            exact read.append (.silent _ (by simp [Act.Silent]))
          · intro final isFinal
            rw [Session.arm_conn] at isFinal
            cases isFinal
            rfl

/-- Whatever the kernel does. -/
def anyKernel : Kernel where
  reads := fun _ _ => True
  flushes := fun _ => True

theorem run_served (handler : Handler App) (cfg : Config) (app : App)
    (events : List Event) (fd : Fd) :
    Served cfg.maxFrameBytes
      ((Reactor.run handler cfg ⟨EventLoop.fresh, app⟩ events).loop.session
        fd) := by
  have within : EachFold (Reactor.step handler cfg)
      (fun reactor event => event.Within anyKernel reactor.loop)
      ⟨EventLoop.fresh, app⟩ events := by
    apply EachFold.of_forall
    intro event _ reactor
    cases event with
    | ready =>
        exact ⟨True.intro, True.intro, fun _ _ _ _ _ _ => True.intro⟩
    | _ => exact True.intro
  exact run_sessions (Served cfg.maxFrameBytes)
    ⟨_, .silent _ nofun, nofun⟩ (fun _ _ => moves_served) app events within fd

/-! ## The commands before an error -/

/-- A stream of complete frames and an offence is answered with an error.  The
commands of the frames have been returned by then exactly if a call ended
between them and the offence; and a connection that receives the stream in
these chunks has executed them in exactly that case. -/
theorem commands_before_error_iff {cap : Nat}
    {frames : List (Bytes × Option Command)} {bad : Bytes} {chunks : List Bytes}
    (good : AllEncode (Frame cap) frames) (offends : Offends cap bad)
    (cut : chunks.flatten = joined frames ++ bad) :
    ((fresh cap).serve chunks).2.isSome = true ∧
    (((fresh cap).serve chunks).1 = frames.filterMap Prod.snd ↔
      CutAfterCommands cap frames chunks) ∧
    ∀ (App : Type) (handler : Handler App) (cfg : Config) (app : App)
      (events : List Event) (fd : Fd), cfg.maxFrameBytes = cap →
      let acts := history fd
        (Reactor.run handler cfg ⟨EventLoop.fresh, app⟩ events).loop.trace
      Refused acts → fedChunks (untilRefused acts) <+: chunks →
      (handledCommands (untilRefused acts) = frames.filterMap Prod.snd ↔
        CutAfterCommands cap frames chunks) := by
  obtain ⟨failed, returned⟩ := serve_offence good offends cut
  refine ⟨failed, returned, ?_⟩
  rintro App handler cfg app events fd rfl acts refused ⟨later, rfl⟩
  obtain ⟨_, parses, _⟩ := run_served handler cfg app events fd
  change Parses _ acts _ at parses
  rw [← returned, serve_append_of_failed (parses.refused refused) later,
    parses.handled]

theorem offends_star_x (cap : Nat) : Offends cap (ascii "*x\r\n") := by
  have isLine : IsLine (ascii "*x\r\n") (42 :: ascii "x") :=
    IsLine.mk (show lf ∉ ascii "*x\r" by decide)
  have noNumber : ∀ count, ¬ Decimal (ascii "x") count :=
    not_decimal_of_letter (by decide) (by decide) []
  have violates : Malformed cap (ascii "*x\r\n" ++ []) multibulkError :=
    .count isLine fun count isCount => absurd isCount (noNumber count)
  exact .malformed violates

theorem commands_before_error_iff_two_segments :
    ((fresh 64).serve [ascii "PING\r\n", ascii "*x\r\n"]).1 =
      [[ascii "PING"]] := by
  have decided := (commands_before_error_iff (pingFrames_good 64)
    (offends_star_x 64)
    (show [ascii "PING\r\n", ascii "*x\r\n"].flatten = _ from rfl)).2.1
  refine decided.mpr ⟨[ascii "PING\r\n"], ⟨_, rfl⟩, ?_, pingFrames, [], rfl,
    List.prefix_rfl, nofun⟩
  intro first isStart
  rw [acceptable_iff]
  cases first with
  | nil => decide
  | cons chunk first =>
      obtain ⟨rfl, shorter⟩ := List.cons_prefix_cons.mp isStart
      rw [List.prefix_nil.mp shorter]
      decide

/-- A client whose command and framing error arrive in one segment. -/
def oneSegment : List Event :=
  [.listener [.client 5 true],
    .ready 5 ⟨false, true, false⟩ [.data (ascii "PING\r\n*x\r\n")]
      ⟨[], true⟩ ⟨[], true⟩]

/-- In one segment with the error the command is neither returned nor executed;
in a segment of its own it is returned. -/
theorem command_lost_in_one_segment :
    AllEncode (Frame 64) pingFrames ∧ Offends 64 (ascii "*x\r\n") ∧
      (fresh 64).serve [ascii "PING\r\n*x\r\n"] =
        ([], some multibulkError) ∧
      (fresh 64).serve [ascii "PING\r\n", ascii "*x\r\n"] =
        ([[ascii "PING"]], some multibulkError) ∧
      handledCommands (history 5 (Reactor.run ponging Config.initial
        ⟨EventLoop.fresh, ()⟩ oneSegment).loop.trace) = [] := by
  refine ⟨pingFrames_good 64, offends_star_x 64, by decide, by decide, ?_⟩
  rfl

end HermitDb.Net
