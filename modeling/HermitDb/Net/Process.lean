import HermitDb.Core.Reachable
import HermitDb.Net.Linearization
import Mathlib.Data.List.ReduceOption

/-!
# The dispatcher behind the reactors

The handler of every reactor executes the command on the one dispatcher and
asks all loops to stop once a shutdown is requested.  The periodic callback runs
an expiry cycle and an fsync tick, and stops the loops once persistence has
failed.  Whatever the schedule of the threads, what they do to the keyspace is
one run of the server, and each client gets its replies from that run.
-/

namespace HermitDb.Net

open Library Persist Protocol Util
open Core (World Walk Server misconf step_total step_wf)

/-- What the handler meets beside its commands: the clock and the file system,
and for each of its calls the order in which tables are walked and the picks of
the expiry cycle. -/
structure Surroundings where
  world : World
  walks : Nat → Walk
  samplers : Nat → Server.Sampler

/-- The state behind the handler: a server whose tables agree, so that no
command faults, and how many events it has taken. -/
structure Process where
  server : Server
  taken : Nat
  wf : server.memory.Wf

/-- The budget of an expiry cycle in microseconds. -/
def kCycleBudgetUs : Int64 :=
  1000

namespace Process

def advance (world : World) (process : Process) (event : Core.Event) :
    Option Bytes × Process :=
  match stepped : process.server.step world event with
  | .ok (output, next) =>
      (output, ⟨next, process.taken + 1, step_wf process.wf stepped⟩)
  | .error _ => False.elim (by
      obtain ⟨_, _, succeeds, _⟩ := step_total world process.wf event
      rw [stepped] at succeeds
      cases succeeds)

theorem step_advance (world : World) (process : Process) (event : Core.Event) :
    process.server.step world event =
      .ok ((process.advance world event).1,
        (process.advance world event).2.server) := by
  unfold advance
  split
  · rename_i stepped
    exact stepped
  · rename_i stepped
    obtain ⟨_, _, succeeds, _⟩ := step_total world process.wf event
    rw [stepped] at succeeds
    cases succeeds

/-- What the loops are given as their handler and their periodic callback. -/
def handler (around : Surroundings) : Handler Process where
  execute := fun process cmd =>
    let (output, next) := process.advance around.world
      (.command (around.walks process.taken) cmd)
    (output.getD [], next)
  shutdownRequested := fun process => process.server.dispatcher.shutdown
  tick := fun process =>
    let cycled := (process.advance around.world
      (.activeCycle (around.samplers process.taken) kCycleBudgetUs)).2
    let synced := (cycled.advance around.world .tickFsync).2
    (synced, synced.server.dispatcher.persistenceFailed)

end Process

/-! ## One run of the server -/

/-- The command of an event, if it is one. -/
def commandOf : Core.Event → Option Command
  | .command _ cmd => some cmd
  | _ => none

/-- The command an exchange executed, and the reply. -/
def execution : Exchange Call Call.Answer → Option (Command × Bytes)
  | ⟨.execute _ cmd, reply⟩ => some (cmd, reply)
  | _ => none

/-- What the server is asked to do, without the orders and picks it meets. -/
inductive Work where
  | command (cmd : Command)
  | activeCycle (budgetUs : Int64)
  | tickFsync

def Work.asCommand : Work → Option Command
  | .command cmd => some cmd
  | _ => none

def workOf : Core.Event → Work
  | .command _ cmd => .command cmd
  | .activeCycle _ budgetUs => .activeCycle budgetUs
  | .tickFsync => .tickFsync

/-- What the dispatcher does for an exchange. -/
def workFor : Exchange Call Call.Answer → List Work
  | ⟨.execute _ cmd, _⟩ => [.command cmd]
  | ⟨.tick, _⟩ => [.activeCycle kCycleBudgetUs, .tickFsync]
  | ⟨.stopRequested, _⟩ => []

/-- The events of the run are the executions and what the periodic callbacks do,
in the order of the exchanges, and the replies are those of the exchanges. -/
structure RunsAs (world : World) (start : Server)
    (exchanges : List (Exchange Call Call.Answer)) (final : Server)
    (events : List Core.Event) (outputs : List (Option Bytes)) : Prop where
  ran : start.run world events = .ok (outputs, final)
  work : events.map workOf = exchanges.flatMap workFor
  replies : outputs.reduceOption =
    (exchanges.filterMap execution).map Prod.snd

section RunsAs

variable {world : World} {start middle cycled final : Server}
  {exchanges : List (Exchange Call Call.Answer)} {events : List Core.Event}
  {outputs : List (Option Bytes)}

theorem commands_of_work
    (work : events.map workOf = exchanges.flatMap workFor) :
    events.filterMap commandOf =
      (exchanges.filterMap execution).map Prod.fst := by
  have ofEvent : Work.asCommand ∘ workOf = commandOf := by
    funext event
    cases event <;> rfl
  have ofExchange : ∀ exchange, (workFor exchange).filterMap Work.asCommand =
      ((execution exchange).map Prod.fst).toList := by
    rintro ⟨request, answer⟩
    cases request <;> rfl
  rw [← ofEvent, ← List.filterMap_map, work]
  clear work
  induction exchanges with
  | nil => rfl
  | cons exchange exchanges induction =>
      rw [List.flatMap_cons, List.filterMap_append, induction, ofExchange,
        List.filterMap_cons]
      cases execution exchange <;> rfl

theorem RunsAs.commands
    (runs : RunsAs world start exchanges final events outputs) :
    events.filterMap commandOf = (exchanges.filterMap execution).map Prod.fst :=
  commands_of_work runs.work

theorem RunsAs.execute (runs : RunsAs world start exchanges middle events outputs)
    {walk : Walk} {cmd : Command} {output : Option Bytes}
    (stepped : middle.step world (.command walk cmd) = .ok (output, final))
    (fd : Fd) :
    RunsAs world start
      (exchanges ++ [⟨.execute fd cmd, output.getD []⟩]) final
      (events ++ [.command walk cmd]) (outputs ++ [output]) := by
  obtain ⟨reply, rfl, _⟩ := Server.executed_of_step stepped
  refine ⟨runAll_concat runs.ran stepped, ?_, ?_⟩
  · simp [runs.work, workOf, workFor]
  · rw [List.reduceOption_append, runs.replies]
    simp [execution]

/-- The periodic callback: an expiry cycle and an fsync tick. -/
theorem RunsAs.tick (runs : RunsAs world start exchanges middle events outputs)
    {sampler : Server.Sampler} {first second : Option Bytes}
    (cycles : middle.step world (.activeCycle sampler kCycleBudgetUs) =
      .ok (first, cycled))
    (syncs : cycled.step world .tickFsync = .ok (second, final))
    (answer : Call.Answer .tick) :
    RunsAs world start (exchanges ++ [⟨.tick, answer⟩]) final
      (events ++ [.activeCycle sampler kCycleBudgetUs] ++ [.tickFsync])
      (outputs ++ [first] ++ [second]) := by
  refine ⟨runAll_concat (runAll_concat runs.ran cycles) syncs, ?_, ?_⟩
  · simp [runs.work, workOf, workFor]
  · cases cycles
    cases syncs
    simp [List.reduceOption_append, runs.replies, execution]

theorem RunsAs.stopRequested
    (runs : RunsAs world start exchanges final events outputs)
    (answer : Call.Answer .stopRequested) :
    RunsAs world start (exchanges ++ [⟨.stopRequested, answer⟩]) final events
      outputs := by
  refine ⟨runs.ran, ?_, ?_⟩
  · simp [runs.work, workFor]
  · simp [runs.replies, execution]

end RunsAs

theorem performs_runsAs (around : Surroundings) {process : Process} {stop : Bool}
    {exchanges : List (Exchange Call Call.Answer)} {shared : Shared Process}
    (performs : Performs (Shared.perform (Process.handler around))
      ⟨process, stop⟩ exchanges shared) :
    ∃ events outputs, RunsAs around.world process.server exchanges
      shared.app.server events outputs := by
  induction performs with
  | nil => exact ⟨[], [], rfl, rfl, rfl⟩
  | @concat middle exchanges before request induction =>
      obtain ⟨events, outputs, runs⟩ := induction
      cases request with
      | execute fd cmd =>
          have stepped := middle.app.step_advance around.world
            (.command (around.walks middle.app.taken) cmd)
          exact ⟨_, _, runs.execute stepped fd⟩
      | tick =>
          have cycled := middle.app.step_advance around.world
            (.activeCycle (around.samplers middle.app.taken) kCycleBudgetUs)
          have synced := Process.step_advance around.world
            (middle.app.advance around.world (.activeCycle
              (around.samplers middle.app.taken) kCycleBudgetUs)).2 .tickFsync
          exact ⟨_, _, runs.tick cycled synced _⟩
      | stopRequested => exact ⟨_, _, runs.stopRequested _⟩

theorem Event.flushes_anyKernel (event : Event) : event.Flushes anyKernel := by
  cases event with
  | ready => exact ⟨trivial, trivial⟩
  | wait | listener | tick => trivial

/-- However the reactor threads are scheduled, the commands they have executed,
in the order of the lock, are one run of the server that gives every command the
reply its client got, and the trace of every thread that has handled its events
records exactly its own part of that order. -/
theorem reactors_linearizable (around : Surroundings) (cfg : Config)
    (process : Process) (scripts : List (List Event)) (schedule : List Nat) :
    let threads := runReactors (Process.handler around) cfg process scripts
      schedule
    (∃ events outputs, RunsAs around.world process.server
      (threads.history.map Prod.snd) threads.object.app.server events outputs) ∧
    ∀ position loop, threads.tasks[position]? = some (.done loop) →
      Records loop.trace (exchangesOf position threads.history) := by
  intro threads
  constructor
  · exact performs_runsAs around (runReactors_sequential _ cfg process scripts
      schedule)
  · intro position loop finished
    have handles := runReactors_handles (Process.handler around) cfg process
      (fun _ _ => trivial) (fun _ _ event _ => event.flushes_anyKernel) schedule
      finished
    obtain ⟨entries, trace, records⟩ := handles.trace
    rw [trace]
    exact records

/-! ## What the clients get -/

/-- Along moves, what every move keeps is kept. -/
theorem Handles.invariant {cfg : Config} {kernel : Kernel} {loop : EventLoop}
    {exchanges : List (Exchange Call Call.Answer)}
    (handles : Handles cfg kernel EventLoop.fresh exchanges loop)
    {Invariant : Session → Prop} (initial : Invariant (.gone []))
    (preserved : ∀ before after, Moves scripted cfg kernel before after →
      Invariant before → Invariant after) (fd : Fd) :
    Invariant (loop.session fd) := by
  have moves := handles.moves fd
  generalize loop.session fd = after at moves
  induction moves with
  | refl => exact initial
  | tail _ move induction => exact preserved _ _ move induction

/-- The reply stream of a connection that has met no protocol error, whatever
the other connections and threads do.  Its latest executions are the commands
in the bytes it has sent, in their order, and the bytes it got and those that
still wait for it are the replies to them. -/
theorem clients_get_their_replies (around : Surroundings) (cfg : Config)
    (process : Process) (scripts : List (List Event)) (schedule : List Nat) :
    let threads := runReactors (Process.handler around) cfg process scripts
      schedule
    ∀ position loop, threads.tasks[position]? = some (.done loop) →
      ∀ fd conn, loop.conns.lookup fd = some conn →
        ¬ Refused (history fd loop.trace) →
        ∃ earlier mine,
          (exchangesOf position threads.history).filterMap (executedFor fd) =
            earlier ++ mine ∧
          mine.map Prod.fst = ((RespParser.fresh cfg.maxFrameBytes).serve
            (fedChunks (history fd loop.trace))).1 ∧
          (mine.map Prod.snd).flatten =
            sentBytes (history fd loop.trace) ++ conn.outbuf := by
  intro threads position loop finished fd conn isOpen unrefused
  have handles := runReactors_handles (Process.handler around) cfg process
    (fun _ _ => trivial) (fun _ _ event _ => event.flushes_anyKernel) schedule
    finished
  obtain ⟨entries, trace, records⟩ := handles.trace
  have sameTrace : loop.trace = entries := trace
  rw [← sameTrace] at records
  obtain ⟨earlier, mine, split, holds⟩ := records.session fd
  have flowing : (loop.session fd).Flowing := handles.invariant
    (fun conn isConn => by cases isConn) (fun _ _ => moves_flowing) fd
  obtain ⟨parser, parses, _⟩ : Served cfg.maxFrameBytes (loop.session fd) :=
    handles.invariant ⟨_, .silent _ (List.forall_mem_nil _), by rintro _ ⟨⟩⟩
      (fun _ _ => moves_served) fd
  have handled := parses.handled
  change handledCommands (untilRefused (history fd loop.trace)) = _ at handled
  rw [untilRefused_of_unrefused unrefused] at handled
  refine ⟨earlier, mine, split, ?_, ?_⟩
  · rw [← holds.commands, handled]
    exact congrArg (fun acts => (RespParser.serve _ (fedChunks acts)).1)
      (untilRefused_of_unrefused unrefused)
  · rw [← holds.replies, ← queuedBytes_of_unrefused unrefused]
    exact (flowing conn isOpen).stream.symm

/-- Two reactors with a client each. -/
def twoClients : List (List Event) :=
  [[.listener [.client 5 true],
      .ready 5 ⟨false, true, false⟩ [.data (ascii "GET a\r\n")]
        ⟨[.accepted 3], true⟩ ⟨[], true⟩],
    [.listener [.client 6 true],
      .ready 6 ⟨false, true, false⟩ [.data (ascii "SET a 1\r\n")]
        ⟨[.accepted 64], true⟩ ⟨[], true⟩]]

set_option maxRecDepth 4000 in
private theorem twoClients_first (around : Surroundings) :
    ∃ loop conn,
      (runReactors (Process.handler around) Config.initial
        ⟨Server.fresh none, 0, Core.Memory.fresh_wf⟩ twoClients
        [1, 0, 0, 1]).tasks[0]? = some (.done loop) ∧
      loop.conns.lookup 5 = some conn ∧
      history 5 loop.trace =
        [.fed (ascii "GET a\r\n"), .handled [ascii "GET", ascii "a"],
        .queued (ascii "$1\r\n1\r\n"), .sent (ascii "$1\r")] ∧
      conn.outbuf = ascii "\n1\r\n" :=
  ⟨_, _, rfl, rfl, rfl, rfl⟩

/-- The first client reads what the second one has written in the meantime, and
has three bytes of the reply so far. -/
theorem clients_get_their_replies_twoClients :
    let around : Surroundings :=
      ⟨.frozen 0, fun _ => .arbitrary, fun _ => ⟨fun _ => 0, fun _ => 0⟩⟩
    let threads := runReactors (Process.handler around) Config.initial
      ⟨Server.fresh none, 0, Core.Memory.fresh_wf⟩ twoClients [1, 0, 0, 1]
    ∃ (loop : EventLoop) (conn : Connection) (earlier mine : _),
      threads.tasks[0]? = some (.done loop) ∧
      (exchangesOf 0 threads.history).filterMap (executedFor 5) =
        earlier ++ mine ∧
      mine.map Prod.fst = ((RespParser.fresh Config.initial.maxFrameBytes).serve
        (fedChunks (history 5 loop.trace))).1 ∧
      (mine.map Prod.snd).flatten =
        sentBytes (history 5 loop.trace) ++ conn.outbuf ∧
      sentBytes (history 5 loop.trace) = ascii "$1\r" := by
  intro around threads
  obtain ⟨loop, conn, finished, isOpen, acts, _⟩ := twoClients_first around
  have unrefused : ¬ Refused (history 5 loop.trace) := by
    rw [acts]
    simp [Refused]
  obtain ⟨earlier, mine, split, commands, stream⟩ := clients_get_their_replies
    around Config.initial _ _ _ 0 loop finished 5 conn isOpen unrefused
  refine ⟨loop, conn, earlier, mine, finished, split, commands, stream, ?_⟩
  rw [acts]
  rfl

end HermitDb.Net
