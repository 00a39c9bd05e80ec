import HermitDb.Net.Session

/-!
# Reply streams

Replies are queued while earlier ones wait for a slow reader, and `flush` is
reached from the readable and from the writable side of one event.  What the
kernel has taken and what still waits is at all times what was queued, and the
descriptor is armed for output exactly while something waits.
-/

namespace HermitDb.Net

open Library Protocol Util

/-- The replies queued, in order. -/
def queuedBytes (acts : List Act) : Bytes :=
  acts.flatMap fun act =>
    match act with
    | .queued reply | .refused reply => reply
    | _ => []

/-- The bytes the kernel took, in order. -/
def sentBytes (acts : List Act) : Bytes :=
  acts.flatMap fun act =>
    match act with
    | .sent bytes => bytes
    | _ => []

@[simp] theorem queuedBytes_append (first second : List Act) :
    queuedBytes (first ++ second) = queuedBytes first ++ queuedBytes second :=
  List.flatMap_append

@[simp] theorem sentBytes_append (first second : List Act) :
    sentBytes (first ++ second) = sentBytes first ++ sentBytes second :=
  List.flatMap_append

@[simp] theorem sentBytes_sent (bytes : Bytes) :
    sentBytes [.sent bytes] = bytes :=
  List.append_nil bytes

@[simp] theorem queuedBytes_sent (bytes : Bytes) :
    queuedBytes [.sent bytes] = [] := rfl

theorem sendLoop_split (sends : List SendOutcome) (outbuf : Bytes) :
    (sendLoop sends outbuf).accepted ++ (sendLoop sends outbuf).left =
      outbuf := by
  fun_induction sendLoop sends outbuf with
  | case1 | case2 | case3 | case6 | case7 => rfl
  | case4 count rest left nonempty later induction =>
      change (left.take (count + 1) ++ later.accepted) ++ later.left = left
      rw [List.append_assoc, induction, List.take_append_drop]
  | case5 rest left nonempty induction => exact induction

variable {App : Type} {handler : Handler App}

theorem handleAll_stream (handler : Handler App) (cmds : List Command)
    (conn : Connection) (app : App) (stop : Bool) :
    (handleAll handler cmds conn app stop).conn.outbuf =
        conn.outbuf ++
          queuedBytes (handleAll handler cmds conn app stop).acts ∧
      sentBytes (handleAll handler cmds conn app stop).acts = [] := by
  induction cmds generalizing conn app stop with
  | nil => exact ⟨(List.append_nil _).symm, rfl⟩
  | cons cmd cmds induction =>
      obtain ⟨queued, unsent⟩ := induction
        (conn.queueReply (handler.execute app cmd).1)
        (handler.execute app cmd).2
        (stop || handler.shutdownRequested (handler.execute app cmd).2)
      refine ⟨queued.trans ?_, unsent⟩
      exact List.append_assoc _ _ _

/-- Reading queues what it answers at the end of the buffer and sends
nothing. -/
theorem Pulls.stream {conn : Connection} {app : App} {stop : Bool}
    {reading : Reading App} (pulls : Pulls handler conn app stop reading) :
    reading.conn.outbuf = conn.outbuf ++ queuedBytes reading.acts ∧
      sentBytes reading.acts = [] := by
  induction pulls with
  | rests => exact ⟨(List.append_nil _).symm, rfl⟩
  | refuses => exact ⟨congrArg _ (List.append_nil _).symm, rfl⟩
  | @takes conn app stop chunk result parser handled later fed good isHandled
      rest induction =>
      obtain ⟨queued, unsent⟩ := induction
      obtain ⟨firstQueued, firstUnsent⟩ := handleAll_stream handler
        result.commands { conn with parser := parser } app stop
      rw [← isHandled] at firstQueued firstUnsent
      constructor
      · rw [queued, firstQueued, List.append_assoc, ← queuedBytes_append]
        rfl
      · change sentBytes (handled.acts ++ later.acts) = []
        rw [sentBytes_append, firstUnsent, unsent]
        rfl

theorem Reads.stream {kernel : Kernel} {conn following : Connection}
    {acts : List Act} (reads : Reads handler kernel conn acts following) :
    following.outbuf = conn.outbuf ++ queuedBytes acts ∧
      sentBytes acts = [] := by
  cases reads with
  | idle => exact ⟨(List.append_nil _).symm, rfl⟩
  | read => exact (readLoop_pulls handler _ _ _ _ _).stream

/-- The stream of an open connection: nothing lost, doubled or out of order, and
a bounded backlog. -/
structure Flows (session : Session) (conn : Connection) : Prop where
  stream : sentBytes session.history ++ conn.outbuf =
    queuedBytes session.history
  bounded : conn.outbuf.length ≤ kMaxOutbufBytes

/-- The stream of the connection, if one is open. -/
def Session.Flowing (session : Session) : Prop :=
  ∀ conn, session.conn = some conn → Flows session conn

/-- Output is watched for exactly while there is a backlog. -/
structure Armed (session : Session) (conn : Connection) : Prop where
  armed : session.registered =
    some (if conn.outbuf = [] then .input else .inputOutput)
  cached : session.interest = session.registered

theorem moves_flowing {cfg : Config} {kernel : Kernel} {before after : Session}
    (moves : Moves handler cfg kernel before after) (flowing : before.Flowing) :
    after.Flowing := by
  cases moves with
  | exited => nofun
  | closed => nofun
  | opened =>
      rintro conn ⟨⟩
      exact ⟨rfl, Nat.zero_le _⟩
  | @flushed conn following acts outcome alive _ isOpen reads admits flushed =>
      cases flushed with
      | closed => nofun
      | kept unmarked bounded =>
          intro final isFinal
          rw [Session.arm_conn] at isFinal
          cases isFinal
          obtain ⟨queued, unsent⟩ := reads.stream
          have split := sendLoop_split outcome.sends following.outbuf
          generalize sendLoop outcome.sends following.outbuf = sent at *
          refine ⟨?_, bounded⟩
          rw [Session.arm_history]
          calc sentBytes (before.history ++ acts ++ [.sent sent.accepted]) ++
                sent.left
              = sentBytes before.history ++ (sent.accepted ++ sent.left) := by
                simp [unsent]
            _ = sentBytes before.history ++ conn.outbuf ++ queuedBytes acts := by
                rw [split, queued, List.append_assoc]
            _ = queuedBytes (before.history ++ acts ++
                  [.sent sent.accepted]) := by
                rw [(flowing conn isOpen).stream]
                simp

/-- Every change of interest goes through. -/
def allModify : Kernel where
  reads := fun _ _ => True
  flushes := fun outcome => outcome.modifies = true

theorem Session.arm_armed {session : Session}
    (cached : session.interest = session.registered) (events : Interest) :
    (session.arm true events).registered = some events ∧
      (session.arm true events).interest = some events := by
  unfold Session.arm
  split
  · rename_i armed
    exact ⟨cached ▸ armed, armed⟩
  · exact ⟨rfl, rfl⟩

theorem moves_armed {cfg : Config} {before after : Session}
    (moves : Moves handler cfg allModify before after)
    (isArmed : ∀ conn, before.conn = some conn → Armed before conn) :
    ∀ conn, after.conn = some conn → Armed after conn := by
  cases moves with
  | exited => nofun
  | closed => nofun
  | opened =>
      rintro conn ⟨⟩
      exact ⟨rfl, rfl⟩
  | @flushed conn following acts outcome alive _ isOpen reads admits flushed =>
      cases flushed with
      | closed => nofun
      | kept unmarked bounded =>
          intro final isFinal
          rw [Session.arm_conn] at isFinal
          cases isFinal
          rw [admits]
          constructor
          · apply (Session.arm_armed ?_ _).1
            exact (isArmed conn isOpen).cached
          · rw [(Session.arm_armed ?_ _).1, (Session.arm_armed ?_ _).2]
            all_goals exact (isArmed conn isOpen).cached

/-- Every change of interest the event asks for goes through. -/
def Event.Arms : Event → Prop
  | .ready _ _ _ afterRead onWritable =>
      afterRead.modifies = true ∧ onWritable.modifies = true
  | _ => True

/-- After every run, whatever was received, sent and answered. -/
theorem replies_flow (handler : Handler App) (cfg : Config) (app : App)
    (events : List Event) (arms : ∀ event ∈ events, event.Arms) :
    let loop := (Reactor.run handler cfg ⟨EventLoop.fresh, app⟩ events).loop
    ∀ fd conn, loop.conns.lookup fd = some conn →
      sentBytes (history fd loop.trace) ++ conn.outbuf =
          queuedBytes (history fd loop.trace) ∧
        conn.outbuf.length ≤ kMaxOutbufBytes ∧
        loop.registered fd =
          some (if conn.outbuf = [] then .input else .inputOutput) := by
  intro loop fd conn isOpen
  have within : EachFold (Reactor.step handler cfg)
      (fun reactor event => event.Within allModify reactor.loop)
      ⟨EventLoop.fresh, app⟩ events := by
    apply EachFold.of_forall
    intro event member reactor
    have isArmed := arms event member
    cases event with
    | ready => exact ⟨isArmed.1, isArmed.2, fun _ _ _ _ _ _ => True.intro⟩
    | wait | listener | tick => exact True.intro
  have flow := run_sessions Session.Flowing nofun (fun _ _ => moves_flowing) app
    events within fd conn isOpen
  have isArmed := run_sessions
    (fun session => ∀ conn, session.conn = some conn → Armed session conn)
    nofun (fun _ _ => moves_armed) app events within fd conn isOpen
  exact ⟨flow.stream, flow.bounded, isArmed.armed⟩

/-- A handler that answers everything alike. -/
def ponging : Handler Unit where
  execute := fun _ _ => (Resp.simple (ascii "PONG"), ())
  shutdownRequested := fun _ => false
  tick := fun _ => ((), false)

def shortWrite : List Event :=
  [.listener [.client 5 true],
    .ready 5 ⟨false, true, false⟩ [.data (ascii "PING\r\n")]
      ⟨[.accepted 3], true⟩ ⟨[], true⟩]

private theorem shortWrite_left :
    ((Reactor.run ponging Config.initial ⟨EventLoop.fresh, ()⟩
      shortWrite).loop.conns.lookup 5).map Connection.outbuf =
        some (ascii "NG\r\n") := by
  rfl

/-- One reply of which the kernel takes three bytes. -/
theorem replies_flow_short_write :
    let loop := (Reactor.run ponging Config.initial ⟨EventLoop.fresh, ()⟩
      shortWrite).loop
    sentBytes (history 5 loop.trace) ++ ascii "NG\r\n" =
        queuedBytes (history 5 loop.trace) ∧
      loop.registered 5 = some .inputOutput := by
  intro loop
  obtain ⟨conn, isOpen, left⟩ := Option.map_eq_some_iff.mp shortWrite_left
  have arms : ∀ event ∈ shortWrite, event.Arms := by
    simp [shortWrite, Event.Arms]
  obtain ⟨stream, _, armed⟩ := replies_flow ponging Config.initial () shortWrite
    arms 5 conn isOpen
  rw [left] at stream armed
  exact ⟨stream, armed⟩

end HermitDb.Net
