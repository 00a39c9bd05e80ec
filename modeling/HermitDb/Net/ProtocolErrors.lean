import HermitDb.Net.Session
import HermitDb.Net.Streams

/-!
# After a protocol error

A connection with a framing error is marked, and closed once the error reply
has been sent.  The mark is not looked at when the connection becomes readable
again: if the reply cannot be sent at once, bytes that arrive in the meantime
are parsed and executed.  As long as none arrive, nothing but sending happens
on the connection until it is closed.
-/

namespace HermitDb.Net

open Library Protocol Util

/-- Nothing is read, executed or queued. -/
def Act.Silent : Act → Prop
  | .sent _ => True
  | .closed => True
  | _ => False

/-- Only silent acts come after an error reply. -/
def Quiet (acts : List Act) : Prop :=
  acts.Pairwise fun earlier later =>
    (∃ reply, earlier = .refused reply) → later.Silent

/-- The `recv` loop finds bytes. -/
def delivers : List RecvOutcome → Bool
  | .interrupted :: rest => delivers rest
  | .data (_ :: _) :: _ => true
  | _ => false

/-- No bytes arrive on a marked connection. -/
def sparing : Kernel where
  reads := fun conn recvs => conn.closeAfterFlush = true → delivers recvs = false
  flushes := fun _ => True

/-- There was an error reply. -/
def Refused (acts : List Act) : Prop :=
  ∃ reply, .refused reply ∈ acts

theorem refused_append (first second : List Act) :
    Refused (first ++ second) ↔ Refused first ∨ Refused second := by
  simp [Refused, exists_or]

theorem Quiet.of_unrefused {acts : List Act} (unrefused : ¬ Refused acts) :
    Quiet acts := by
  apply List.pairwise_of_forall_mem_list
  rintro _ member _ _ ⟨reply, rfl⟩
  exact absurd ⟨reply, member⟩ unrefused

theorem Quiet.append {first second : List Act} (quiet : Quiet first)
    (laterQuiet : Quiet second)
    (silent : Refused first → ∀ act ∈ second, act.Silent) :
    Quiet (first ++ second) := by
  apply List.pairwise_append.mpr
  refine ⟨quiet, laterQuiet, ?_⟩
  rintro _ earlier later member ⟨reply, rfl⟩
  exact silent ⟨reply, earlier⟩ later member

theorem Quiet.append_silent {first second : List Act} (quiet : Quiet first)
    (silent : ∀ act ∈ second, act.Silent) : Quiet (first ++ second) := by
  apply quiet.append
  · apply List.pairwise_of_forall_mem_list
    intro _ _ later member _
    exact silent later member
  · exact fun _ => silent

theorem not_refused_of_silent {acts : List Act}
    (silent : ∀ act ∈ acts, act.Silent) : ¬ Refused acts := by
  rintro ⟨reply, member⟩
  exact silent _ member

variable {App : Type} {handler : Handler App}

theorem readLoop_of_spared (handler : Handler App) {recvs : List RecvOutcome}
    (spared : delivers recvs = false) (readThisEvent : Nat) (conn : Connection)
    (app : App) (stop : Bool) :
    (readLoop handler recvs readThisEvent conn app stop).acts = [] ∧
      (readLoop handler recvs readThisEvent conn app stop).conn = conn := by
  induction recvs with
  | nil => exact ⟨rfl, rfl⟩
  | cons outcome recvs induction =>
      rcases outcome with (_ | _) | _ | _ | _
      · exact ⟨rfl, rfl⟩
      · cases spared
      · exact induction spared
      · exact ⟨rfl, rfl⟩
      · exact ⟨rfl, rfl⟩

theorem handleAll_unrefused (handler : Handler App) (cmds : List Command)
    (conn : Connection) (app : App) (stop : Bool) :
    ¬ Refused (handleAll handler cmds conn app stop).acts ∧
      (handleAll handler cmds conn app stop).conn.closeAfterFlush =
        conn.closeAfterFlush := by
  induction cmds generalizing conn app stop with
  | nil => exact ⟨by simp [handleAll, Refused], rfl⟩
  | cons cmd cmds induction =>
      obtain ⟨unrefused, sameMark⟩ := induction
        (conn.queueReply (handler.execute app cmd).1)
        (handler.execute app cmd).2
        (stop || handler.shutdownRequested (handler.execute app cmd).2)
      refine ⟨?_, sameMark⟩
      simpa [handleAll, Refused] using unrefused

/-- Reading an unmarked connection ends with the first error, and the mark says
whether there was one. -/
theorem Pulls.refusal {conn : Connection} {app : App} {stop : Bool}
    {reading : Reading App} (pulls : Pulls handler conn app stop reading)
    (unmarked : conn.closeAfterFlush = false) :
    Quiet reading.acts ∧
      (reading.conn.closeAfterFlush = true ↔ Refused reading.acts) := by
  induction pulls with
  | rests => exact ⟨.nil, by simp [unmarked, Refused]⟩
  | refuses =>
      refine ⟨?_, iff_of_true rfl ⟨_, List.mem_cons_of_mem _ List.mem_cons_self⟩⟩
      simp [Quiet]
  | @takes conn app stop chunk result parser handled later fed good isHandled
      rest induction =>
      obtain ⟨unrefused, sameMark⟩ := handleAll_unrefused handler result.commands
        { conn with parser := parser } app stop
      rw [← isHandled] at unrefused sameMark
      obtain ⟨quiet, marked⟩ := induction (sameMark.trans unmarked)
      have noRefusal : ¬ Refused (.fed chunk :: handled.acts) := by
        simpa [Refused] using unrefused
      constructor
      · exact (Quiet.of_unrefused noRefusal).append quiet
          fun refused => absurd refused noRefusal
      · rw [marked, refused_append]
        exact (or_iff_right noRefusal).symm

/-- The acts so far are quiet, and the mark of an open connection says whether
there was an error. -/
structure Hushed (session : Session) : Prop where
  quiet : Quiet session.history
  marked : ∀ conn, session.conn = some conn →
    (conn.closeAfterFlush = true ↔ Refused session.history)

theorem Reads.hushed {session : Session} {conn following : Connection}
    {acts : List Act} (hushed : Hushed session)
    (isOpen : session.conn = some conn)
    (reads : Reads handler sparing conn acts following) :
    Quiet (session.history ++ acts) ∧
      (following.closeAfterFlush = true ↔ Refused (session.history ++ acts)) := by
  have marked := hushed.marked conn isOpen
  have idle : acts = [] → following = conn →
      Quiet (session.history ++ acts) ∧
        (following.closeAfterFlush = true ↔
          Refused (session.history ++ acts)) := by
    rintro rfl rfl
    rw [List.append_nil]
    exact ⟨hushed.quiet, marked⟩
  cases reads with
  | idle => exact idle rfl rfl
  | @read recvs app stop admits =>
      by_cases isMarked : conn.closeAfterFlush = true
      · obtain ⟨noActs, sameConn⟩ := readLoop_of_spared handler
          (admits isMarked) 0 conn app stop
        exact idle noActs sameConn
      · have unrefused := mt marked.mpr isMarked
        obtain ⟨quiet, nowMarked⟩ := (readLoop_pulls handler recvs 0 conn app
          stop).refusal (Bool.eq_false_of_not_eq_true isMarked)
        refine ⟨hushed.quiet.append quiet fun refused =>
          absurd refused unrefused, ?_⟩
        rw [nowMarked, refused_append]
        exact (or_iff_right unrefused).symm

theorem moves_hushed {cfg : Config} {before after : Session}
    (moves : Moves handler cfg sparing before after) (hushed : Hushed before) :
    Hushed after := by
  cases moves with
  | exited => exact ⟨hushed.quiet, nofun⟩
  | opened =>
      refine ⟨.nil, ?_⟩
      rintro conn ⟨⟩
      simp [Refused, Connection.fresh]
  | closed isOpen reads =>
      obtain ⟨quiet, _⟩ := reads.hushed hushed isOpen
      exact ⟨quiet.append_silent (by simp [Act.Silent]), nofun⟩
  | flushed isOpen reads admits flushed =>
      obtain ⟨quiet, marked⟩ := reads.hushed hushed isOpen
      cases flushed with
      | closed => exact ⟨quiet.append_silent (by simp [Act.Silent]), nofun⟩
      | kept unmarked bounded =>
          have silent : ∀ bytes, ∀ act ∈ [Act.sent bytes], act.Silent := by
            simp [Act.Silent]
          constructor
          · rw [Session.arm_history]
            exact quiet.append_silent (silent _)
          · intro final isFinal
            rw [Session.arm_conn] at isFinal
            cases isFinal
            rw [Session.arm_history, refused_append]
            exact marked.trans
              (or_iff_left (not_refused_of_silent (silent _))).symm

/-- In a run in which no bytes arrive on a connection that waits to be closed,
nothing but sending and closing comes after an error reply. -/
theorem quiet_after_refusal (handler : Handler App) (cfg : Config) (app : App)
    (events : List Event)
    (spared : EachFold (Reactor.step handler cfg)
      (fun reactor event => event.Within sparing reactor.loop)
      ⟨EventLoop.fresh, app⟩ events) (fd : Fd) :
    Quiet (history fd
      (Reactor.run handler cfg ⟨EventLoop.fresh, app⟩ events).loop.trace) := by
  have start : Hushed (.gone []) := ⟨.nil, nofun⟩
  exact (run_sessions Hushed start (fun _ _ => moves_hushed) app events spared
    fd).quiet

/-- A client with a framing error whose error reply the kernel does not take at
first, and what the next `recv` finds. -/
def slowReader (later : RecvOutcome) : List Event :=
  [.listener [.client 5 true],
    .ready 5 ⟨false, true, false⟩ [.data (ascii "*x\r\n")] ⟨[], true⟩
      ⟨[], true⟩,
    .ready 5 ⟨false, true, true⟩ [later] ⟨[], true⟩ ⟨[.accepted 47], true⟩]

theorem quiet_after_refusal_slow_reader :
    Quiet (history 5 (Reactor.run ponging Config.initial ⟨EventLoop.fresh, ()⟩
      (slowReader .wouldBlock)).loop.trace) := by
  apply quiet_after_refusal
  refine ⟨True.intro, ⟨True.intro, True.intro, ?_⟩,
    ⟨True.intro, True.intro, fun _ _ _ _ _ _ _ => rfl⟩, True.intro⟩
  rintro conn _ _ isOpen _ _ marked
  cases isOpen
  cases marked

private theorem slowReader_history :
    history 5 (Reactor.run ponging Config.initial ⟨EventLoop.fresh, ()⟩
      (slowReader (.data (ascii "PING\r\n")))).loop.trace =
        [.fed (ascii "*x\r\n"),
          .refused (protocolErrorReply RespParser.multibulkError), .sent [],
          .fed (ascii "PING\r\n"), .handled [ascii "PING"],
          .queued (Resp.simple (ascii "PONG")), .sent [],
          .sent (protocolErrorReply RespParser.multibulkError)] := by
  rfl

/-- The same client sends a command before the error reply has gone out: it is
parsed, executed and answered. -/
theorem executed_after_refusal :
    let acts := history 5 (Reactor.run ponging Config.initial
      ⟨EventLoop.fresh, ()⟩
      (slowReader (.data (ascii "PING\r\n")))).loop.trace
    ¬ Quiet acts ∧
      acts.filter (fun act => act = .handled [ascii "PING"]) =
        [.handled [ascii "PING"]] := by
  intro acts
  have shape : acts = _ := slowReader_history
  constructor
  · intro quiet
    rw [shape] at quiet
    have later := (List.pairwise_cons.mp (List.pairwise_cons.mp quiet).2).1
      (.fed (ascii "PING\r\n")) (by simp)
    exact later ⟨_, rfl⟩
  · rw [shape]
    decide

end HermitDb.Net
