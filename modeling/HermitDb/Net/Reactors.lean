import HermitDb.Library.Task
import HermitDb.Net.LostCommands

/-!
# Reactor threads

With several reactor threads, reading, parsing and sending run in parallel, and
only the handler takes the keyspace lock, once for each command.  A thread is
therefore a task: what it shares with the others it reaches through calls, and
between two calls it works on its own connections.  One thread alone does what
`Reactor.run` does.

All stop flags are set under the lock, each loop reads only its own, and nobody
clears one, so a single flag stands for all of them.
-/

namespace HermitDb.Net

open Library Protocol Util

/-- What a reactor thread does outside its own connections. -/
inductive Call where
  /-- The handler, on behalf of a connection. -/
  | execute (fd : Fd) (cmd : Command)
  /-- The periodic callbacks. -/
  | tick
  /-- A look at `stop_requested_`. -/
  | stopRequested

@[reducible] def Call.Answer : Call → Type
  | .execute _ _ => Bytes
  | .tick => Unit
  | .stopRequested => Bool

/-- What the threads share. -/
structure Shared (App : Type) where
  app : App
  stop : Bool

variable {App : Type}

def Shared.perform (handler : Handler App) (shared : Shared App) :
    (request : Call) → request.Answer × Shared App
  | .execute _ cmd =>
      let (reply, app) := handler.execute shared.app cmd
      (reply, ⟨app, shared.stop || handler.shutdownRequested app⟩)
  | .tick =>
      let (app, stop) := handler.tick shared.app
      ((), ⟨app, shared.stop || stop⟩)
  | .stopRequested => (shared.stop, shared)

/-! ## The thread -/

/-- The commands of one chunk, each with a call of the handler. -/
def handleTask (fd : Fd) : List Command → Connection → List Act →
    Task Call Call.Answer (Connection × List Act)
  | [], conn, acts => .done (conn, acts)
  | cmd :: cmds, conn, acts =>
      .call (.execute fd cmd) fun reply =>
        handleTask fd cmds (conn.queueReply reply)
          (acts ++ [.handled cmd, .queued reply])

/-- What the `recv` loop leaves. -/
structure Read where
  conn : Connection
  acts : List Act
  alive : Bool

def readTask (fd : Fd) : List RecvOutcome → Nat → Connection → List Act →
    Task Call Call.Answer Read
  | [], _, conn, acts => .done ⟨conn, acts, true⟩
  | .wouldBlock :: _, _, conn, acts => .done ⟨conn, acts, true⟩
  | .interrupted :: rest, readThisEvent, conn, acts =>
      readTask fd rest readThisEvent conn acts
  | .failed :: _, _, conn, acts => .done ⟨conn, acts, false⟩
  | .data [] :: _, _, conn, acts => .done ⟨conn, acts, false⟩
  | .data (letter :: letters) :: rest, readThisEvent, conn, acts =>
      let chunk := letter :: letters
      let (result, parser) := conn.parser.feed chunk
      let conn := { conn with parser := parser }
      if result.status ≠ .ok then
        let reply := protocolErrorReply result.error
        .done ⟨(conn.queueReply reply).markCloseAfterFlush,
          acts ++ [.fed chunk, .refused reply], true⟩
      else
        (handleTask fd result.commands conn (acts ++ [.fed chunk])).bind
          fun handled => .call .stopRequested fun stop =>
            bif stop then .done ⟨handled.1, handled.2, true⟩
            else if chunk.length < kReadChunk ∨
                kMaxReadPerEvent ≤ readThisEvent + chunk.length then
              .done ⟨handled.1, handled.2, true⟩
            else
              readTask fd rest (readThisEvent + chunk.length) handled.1 handled.2

namespace EventLoop

def handleReadableTask (loop : EventLoop) (recvs : List RecvOutcome)
    (outcome : FlushOutcome) (fd : Fd) (conn : Connection) :
    Task Call Call.Answer (Bool × EventLoop) :=
  (readTask fd recvs 0 conn []).bind fun read =>
    let loop := loop.note fd read.acts
    .done (if read.alive then loop.flush outcome fd read.conn
      else (false, loop.closeConnection fd))

def dispatchTask (loop : EventLoop) (fd : Fd) (bits : Ready)
    (recvs : List RecvOutcome) (afterRead onWritable : FlushOutcome) :
    Task Call Call.Answer EventLoop :=
  if fd ∈ loop.closedThisBatch then .done loop
  else
    match loop.conns.lookup fd with
    | none => .done loop
    | some conn =>
        if bits.hangup then .done (loop.closeConnection fd)
        else
          (if bits.input then loop.handleReadableTask recvs afterRead fd conn
          else .done (true, loop)).bind fun read =>
            .done (if read.1 && bits.output then
              match read.2.conns.lookup fd with
              | none => read.2
              | some conn => (read.2.flush onWritable fd conn).2
            else read.2)

/-- The loop is left and all its connections are destroyed. -/
def leave (loop : EventLoop) : EventLoop :=
  { loop with
    conns := ∅
    interest := fun _ => none
    registered := fun _ => none
    stopped := true }

/-- One event.  Only the first loop was given the periodic callbacks. -/
def eventTask (cfg : Config) (ticks : Bool) (loop : EventLoop) (event : Event) :
    Task Call Call.Answer EventLoop :=
  if loop.stopped then .done loop
  else
    match event with
    | .wait => .call .stopRequested fun stop =>
        .done (bif stop then loop.leave else { loop with closedThisBatch := [] })
    | .listener accepts => .done (loop.acceptNewClients cfg accepts)
    | .ready fd bits recvs afterRead onWritable =>
        loop.dispatchTask fd bits recvs afterRead onWritable
    | .tick => if ticks then .call .tick fun _ => .done loop else .done loop

def loopTask (cfg : Config) (ticks : Bool) :
    EventLoop → List Event → Task Call Call.Answer EventLoop
  | loop, [] => .done loop
  | loop, event :: events =>
      (loop.eventTask cfg ticks event).bind fun next =>
        loopTask cfg ticks next events

end EventLoop

/-! ## A thread alone -/

section Alone

variable (handler : Handler App)

theorem handleTask_run (fd : Fd) (cmds : List Command) (conn : Connection)
    (acts : List Act) (app : App) (stop : Bool) :
    (handleTask fd cmds conn acts).run (Shared.perform handler) ⟨app, stop⟩ =
      (((handleAll handler cmds conn app stop).conn,
        acts ++ (handleAll handler cmds conn app stop).acts),
        ⟨(handleAll handler cmds conn app stop).app,
          (handleAll handler cmds conn app stop).stop⟩) := by
  induction cmds generalizing conn acts app stop with
  | nil => simp [handleTask, handleAll, Task.run]
  | cons cmd cmds induction =>
      have rest := induction (conn.queueReply (handler.execute app cmd).1)
        (acts ++ [.handled cmd, .queued (handler.execute app cmd).1])
        (handler.execute app cmd).2
        (stop || handler.shutdownRequested (handler.execute app cmd).2)
      rw [List.append_assoc] at rest
      exact rest

theorem handleAll_alive (cmds : List Command) (conn : Connection) (app : App)
    (stop : Bool) : (handleAll handler cmds conn app stop).alive = true := by
  induction cmds generalizing conn app stop with
  | nil => rfl
  | cons cmd cmds induction => exact induction _ _ _

theorem readTask_run (fd : Fd) (recvs : List RecvOutcome) (readThisEvent : Nat)
    (conn : Connection) (acts : List Act) (app : App) (stop : Bool) :
    (readTask fd recvs readThisEvent conn acts).run (Shared.perform handler)
        ⟨app, stop⟩ =
      (⟨(readLoop handler recvs readThisEvent conn app stop).conn,
        acts ++ (readLoop handler recvs readThisEvent conn app stop).acts,
        (readLoop handler recvs readThisEvent conn app stop).alive⟩,
        ⟨(readLoop handler recvs readThisEvent conn app stop).app,
          (readLoop handler recvs readThisEvent conn app stop).stop⟩) := by
  induction recvs generalizing readThisEvent conn acts app stop with
  | nil => simp [readTask, readLoop, Task.run]
  | cons outcome recvs induction =>
      match outcome with
      | .wouldBlock | .failed | .data [] => simp [readTask, readLoop, Task.run]
      | .interrupted => exact induction readThisEvent conn acts app stop
      | .data (letter :: letters) =>
          simp only [readTask, readLoop]
          generalize conn.parser.feed (letter :: letters) = fed
          by_cases bad : fed.1.status ≠ .ok
          · simp only [if_pos bad]
            rfl
          · simp only [if_neg bad, Task.run_bind, handleTask_run]
            have alive := handleAll_alive handler fed.1.commands
              { conn with parser := fed.2 } app stop
            generalize handleAll handler fed.1.commands _ app stop = handled
              at alive
            simp only [Task.run, Shared.perform]
            cases stopped : handled.stop with
            | true => simp [alive, Task.run]
            | false =>
                by_cases last : (letter :: letters).length < kReadChunk ∨
                    kMaxReadPerEvent ≤
                      readThisEvent + (letter :: letters).length
                · simp only [cond_false, Bool.false_eq_true, false_or,
                    if_pos last, Task.run, alive]
                  simp
                · simp only [cond_false, Bool.false_eq_true, false_or,
                    if_neg last, induction]
                  simp

namespace EventLoop

/-- The loop with its flag as given.  Nothing else depends on the flag. -/
def flagged (loop : EventLoop) (stop : Bool) : EventLoop :=
  { loop with stopRequested := stop }

variable (loop : EventLoop) (stop : Bool)

theorem modifyFd_flagged (succeeds : Bool) (fd : Fd) (events : Interest) :
    (loop.flagged stop).modifyFd succeeds fd events =
      (loop.modifyFd succeeds fd events).flagged stop := by
  unfold modifyFd
  change (if loop.interest fd = some events then _ else _) = _
  split
  · rfl
  · split <;> rfl

theorem flush_flagged (outcome : FlushOutcome) (fd : Fd) (conn : Connection) :
    (loop.flagged stop).flush outcome fd conn =
      ((loop.flush outcome fd conn).1,
        (loop.flush outcome fd conn).2.flagged stop) := by
  have modified : ∀ (acts : List Act) (conn : Connection) (events : Interest),
      (((loop.flagged stop).note fd acts).put fd conn).modifyFd
          outcome.modifies fd events =
        (((loop.note fd acts).put fd conn).modifyFd outcome.modifies fd
          events).flagged stop :=
    fun acts conn events =>
      modifyFd_flagged ((loop.note fd acts).put fd conn) stop _ _ _
  unfold flush
  dsimp only
  split
  · rfl
  · split
    · split
      · rfl
      · rw [modified]
    · split
      · rfl
      · rw [modified]

theorem registerFd_flagged (succeeds : Bool) (fd : Fd) :
    (loop.flagged stop).registerFd succeeds fd =
      (loop.registerFd succeeds fd).map fun next => next.flagged stop := by
  unfold registerFd
  change (if succeeds && (loop.registered fd).isNone then _ else _) = _
  split <;> rfl

theorem acceptNewClients_flagged (cfg : Config) (accepts : List AcceptOutcome) :
    (loop.flagged stop).acceptNewClients cfg accepts =
      (loop.acceptNewClients cfg accepts).flagged stop := by
  induction accepts generalizing loop with
  | nil => rfl
  | cons outcome accepts induction =>
      cases outcome with
      | failed => rfl
      | client fd registers =>
          unfold acceptNewClients
          change (if cfg.maxClients ≤ loop.conns.keys.card then _ else _) = _
          split
          · exact induction { loop with
              turnedAway := loop.turnedAway ++ [(fd, kFull)] }
          · rw [registerFd_flagged]
            cases loop.registerFd registers fd with
            | none => exact induction loop
            | some next =>
                exact induction ((next.put fd
                  (.fresh cfg.maxFrameBytes)).note fd [.opened])

/-- A thread alone handles a readable connection as the reactor does. -/
theorem handleReadableTask_run (app : App) (recvs : List RecvOutcome)
    (outcome : FlushOutcome) (fd : Fd) (conn : Connection) :
    Reactor.handleReadable handler ⟨loop.flagged stop, app⟩ recvs outcome fd
        conn =
      let result := (loop.handleReadableTask recvs outcome fd conn).run
        (Shared.perform handler) ⟨app, stop⟩
      (result.1.1, ⟨result.1.2.flagged result.2.stop, result.2.app⟩) := by
  have flag : (loop.flagged stop).stopRequested = stop := rfl
  have noted : ∀ (acts : List Act) (next : Bool),
      { (loop.flagged stop).note fd acts with stopRequested := next } =
        (loop.note fd acts).flagged next := fun _ _ => rfl
  unfold Reactor.handleReadable handleReadableTask
  simp only [Task.run_bind, readTask_run, Task.run, List.nil_append, flag,
    noted, flush_flagged]
  split <;> rfl

theorem dispatchTask_run (app : App) (fd : Fd) (bits : Ready)
    (recvs : List RecvOutcome) (afterRead onWritable : FlushOutcome) :
    Reactor.dispatch handler ⟨loop.flagged stop, app⟩ fd bits recvs afterRead
        onWritable =
      let result := (loop.dispatchTask fd bits recvs afterRead onWritable).run
        (Shared.perform handler) ⟨app, stop⟩
      ⟨result.1.flagged result.2.stop, result.2.app⟩ := by
  have conns : ∀ (other : EventLoop) (flag : Bool),
      (other.flagged flag).conns = other.conns := fun _ _ => rfl
  have readable : ∀ conn : Connection,
      (if bits.input then
        Reactor.handleReadable handler ⟨loop.flagged stop, app⟩ recvs afterRead
          fd conn
      else (true, ⟨loop.flagged stop, app⟩)) =
        let result := (if bits.input then
            loop.handleReadableTask recvs afterRead fd conn
          else Task.done (true, loop)).run (Shared.perform handler) ⟨app, stop⟩
        (result.1.1, ⟨result.1.2.flagged result.2.stop, result.2.app⟩) := by
    intro conn
    split
    · exact handleReadableTask_run handler loop stop app recvs afterRead fd conn
    · rfl
  unfold Reactor.dispatch dispatchTask
  change (if fd ∈ loop.closedThisBatch then _ else
    match loop.conns.lookup fd with | none => _ | some conn => _) = _
  split
  · rfl
  · cases loop.conns.lookup fd with
    | none => rfl
    | some conn =>
        dsimp only
        split
        · rfl
        · rw [readable, Task.run_bind]
          generalize (if bits.input then
              loop.handleReadableTask recvs afterRead fd conn
            else Task.done (true, loop)).run (Shared.perform handler)
              ⟨app, stop⟩ = result
          simp only [Task.run, conns, flush_flagged]
          split
          · cases result.1.2.conns.lookup fd <;> rfl
          · rfl

/-- A thread alone handles an event as the reactor does. -/
theorem eventTask_run (cfg : Config) (app : App) (event : Event) :
    Reactor.step handler cfg ⟨loop.flagged stop, app⟩ event =
      let result := (loop.eventTask cfg true event).run
        (Shared.perform handler) ⟨app, stop⟩
      ⟨result.1.flagged result.2.stop, result.2.app⟩ := by
  unfold Reactor.step eventTask
  change (if loop.stopped then _ else _) = _
  split
  · rfl
  · cases event with
    | wait =>
        cases stop with
        | true => rfl
        | false => rfl
    | listener accepts =>
        exact congrArg (fun next => (⟨next, app⟩ : Reactor App))
          (acceptNewClients_flagged loop stop cfg accepts)
    | ready fd bits recvs afterRead onWritable =>
        exact dispatchTask_run handler loop stop app fd bits recvs afterRead
          onWritable
    | tick => rfl

/-- A thread alone does what the reactor does. -/
theorem loopTask_run (cfg : Config) (app : App) (events : List Event) :
    Reactor.run handler cfg ⟨loop.flagged stop, app⟩ events =
      let result := (loopTask cfg true loop events).run
        (Shared.perform handler) ⟨app, stop⟩
      ⟨result.1.flagged result.2.stop, result.2.app⟩ := by
  induction events generalizing loop stop app with
  | nil => rfl
  | cons event events induction =>
      rw [Reactor.run, List.foldl_cons, eventTask_run, loopTask, Task.run_bind]
      exact induction _ _ _

end EventLoop

end Alone

end HermitDb.Net
