import HermitDb.Core.ActiveExpiry
import HermitDb.Core.Logs
import HermitDb.Library.Machine
import HermitDb.Persist.Append

/-!
# Runs of the server

A run is a list of events: client commands, background expiry cycles and fsync
ticks, one at a time under the keyspace lock.  While the disk works, an event
does what `Advance` says to the memory and appends the records it owes.
-/

namespace HermitDb.Core

open Library Persist Protocol

inductive Event where
  | command (walk : Walk) (cmd : Command)
  | activeCycle (sampler : Server.Sampler) (budgetUs : Int64)
  | tickFsync

namespace Server

/-- One event, with the reply if it was a command. -/
def step (world : World) (server : Server) (event : Event) :
    Except Fault (Option Bytes × Server) :=
  match event with
  | .command walk cmd =>
      match server.execute world walk cmd with
      | .error fault => .error fault
      | .ok (reply, server) => .ok (some reply, server)
  | .activeCycle sampler budgetUs =>
      .ok (none, (server.activeCycle world sampler budgetUs).2)
  | .tickFsync => .ok (none, server.tickFsync world)

def run (world : World) (server : Server) (events : List Event) :
    Except Fault (List (Option Bytes) × Server) :=
  runAll (step world) server events

/-- Recovery: the records are executed in order, before the log is attached. -/
def recover (world : World) (walk : Walk) (server : Server)
    (records : List Command) : Except Fault (List Bytes × Server) :=
  runAll (execute world walk) server records

theorem executed_of_step {world : World} {server next : Server} {walk : Walk}
    {cmd : Command} {output : Option Bytes}
    (stepped : server.step world (.command walk cmd) = .ok (output, next)) :
    ∃ reply, output = some reply ∧
      server.execute world walk cmd = .ok (reply, next) := by
  rw [step] at stepped
  cases executed : server.execute world walk cmd with
  | error fault =>
      rw [executed] at stepped
      cases stepped
  | ok outcome =>
      rw [executed] at stepped
      cases stepped
      exact ⟨_, rfl, rfl⟩

end Server

namespace CommandDispatcher

/-- The dispatcher's side of an fsync tick. -/
def tick (world : World) (dispatcher : CommandDispatcher) (now : Int64) :
    CommandDispatcher :=
  match dispatcher.wal with
  | none => dispatcher
  | some wal =>
      let (status, wal) := wal.tickFsync world.disk now
      if status ≠ .ok then
        reportPersistenceFailure { dispatcher with wal := some wal }
      else { dispatcher with wal := some wal }

/-- The dispatcher's side of an event that owes these records. -/
def log (world : World) (dispatcher : CommandDispatcher) (reading : Nat)
    (records : List Command) : Event → CommandDispatcher
  | .command _ cmd => (dispatcher.noteShutdown cmd).putAll world records
  | .activeCycle _ _ => dispatcher.putAll world records
  | .tickFsync => dispatcher.tick world (world.wallMs reading)

end CommandDispatcher

/-! ## Appending while the disk works -/

theorem World.ideal_flawless (wallMs : Nat → Int64) :
    (World.ideal wallMs).disk.Flawless :=
  Disk.ideal_flawless

/-- The log is attached and holds exactly these records. -/
structure CommandDispatcher.Holds (dispatcher : CommandDispatcher)
    (records : List Command) : Prop where
  healthy : dispatcher.persistenceFailed = false
  attached : ∃ wal, dispatcher.wal = some wal ∧ wal.isOpen = true ∧
    wal.records = records ∧ wal.file = encodeAll records

namespace CommandDispatcher

theorem fresh_holds (policy : FsyncPolicy) :
    (fresh (some (Wal.fresh policy))).Holds [] :=
  ⟨rfl, _, rfl, rfl, rfl, rfl⟩

variable {world : World} {dispatcher : CommandDispatcher}
  {records : List Command}

/-- What a guarded append can do while persistence works. -/
theorem put_cases (world : World) {wal : Wal}
    (healthy : dispatcher.persistenceFailed = false)
    (attached : dispatcher.wal = some wal) (isOpen : wal.isOpen = true)
    (record : Command) :
    ∃ next, (dispatcher.put world record = { dispatcher with wal := some next } ∧
        wal.Appended record next) ∨
      (dispatcher.put world record =
          reportPersistenceFailure { dispatcher with wal := some next } ∧
        wal.AppendFailed record next ∧ ¬ world.disk.Flawless) := by
  refine ⟨(wal.append world.disk record).2, ?_⟩
  obtain ⟨ok, appended⟩ | ⟨notOk, failed, flawed⟩ :=
    Wal.append_cases world.disk isOpen record
  · refine .inl ⟨?_, appended⟩
    simp [CommandDispatcher.put, attached, healthy, ok]
  · refine .inr ⟨?_, failed, flawed⟩
    simp [CommandDispatcher.put, attached, healthy, notOk]

/-- What an fsync tick can do. -/
theorem tick_cases (world : World) {wal : Wal}
    (attached : dispatcher.wal = some wal) (now : Int64) :
    ∃ next, wal.Ticked next ∧
      ((dispatcher.tick world now = { dispatcher with wal := some next } ∧
          next.errors = wal.errors) ∨
        (dispatcher.tick world now =
            reportPersistenceFailure { dispatcher with wal := some next } ∧
          next.errors = wal.errors + 1 ∧ ¬ world.disk.Flawless)) := by
  refine ⟨(wal.tickFsync world.disk now).2, ?_⟩
  obtain ⟨ok, errors, ticked⟩ | ⟨notOk, errors, ticked, flawed⟩ :=
    Wal.tickFsync_cases world.disk wal now
  · refine ⟨ticked, .inl ⟨?_, errors⟩⟩
    simp [CommandDispatcher.tick, attached, ok]
  · refine ⟨ticked, .inr ⟨?_, errors, flawed⟩⟩
    simp [CommandDispatcher.tick, attached, notOk]

theorem Holds.put (holds : dispatcher.Holds records)
    (flawless : world.disk.Flawless) (record : Command) :
    (dispatcher.put world record).Holds (records ++ [record]) := by
  obtain ⟨healthy, wal, attached, isOpen, sameRecords, sameFile⟩ := holds
  obtain ⟨next, ⟨result, appended⟩ | ⟨_, _, flawed⟩⟩ :=
    put_cases world healthy attached isOpen record
  · rw [result]
    refine ⟨healthy, _, rfl, appended.isOpen, ?_, ?_⟩
    · rw [appended.records, sameRecords]
    · rw [appended.file, sameFile]
      simp [encodeAll]
  · exact absurd flawless flawed

theorem Holds.putAll (holds : dispatcher.Holds records)
    (flawless : world.disk.Flawless) (more : List Command) :
    (dispatcher.putAll world more).Holds (records ++ more) := by
  induction more generalizing dispatcher records with
  | nil => simpa using holds
  | cons record more induction =>
      have next := induction (holds.put flawless record)
      rw [List.append_assoc] at next
      exact next

theorem Holds.noteShutdown (holds : dispatcher.Holds records) (cmd : Command) :
    (dispatcher.noteShutdown cmd).Holds records :=
  ⟨by simpa using holds.healthy, by simpa using holds.attached⟩

theorem Holds.tick (holds : dispatcher.Holds records)
    (flawless : world.disk.Flawless) (now : Int64) :
    (dispatcher.tick world now).Holds records := by
  obtain ⟨healthy, wal, attached, isOpen, sameRecords, sameFile⟩ := holds
  obtain ⟨next, ticked, ⟨result, _⟩ | ⟨_, _, flawed⟩⟩ :=
    tick_cases world attached now
  · rw [result]
    refine ⟨healthy, _, rfl, ticked.isOpen.trans isOpen, ?_, ?_⟩
    · simp [ticked.records, sameRecords]
    · simp [ticked.file, sameFile]
  · exact absurd flawless flawed

theorem Holds.log (holds : dispatcher.Holds records)
    (flawless : world.disk.Flawless) (reading : Nat) {more : List Command}
    {event : Event} (silent : event = .tickFsync → more = []) :
    (dispatcher.log world reading more event).Holds (records ++ more) := by
  cases event with
  | command walk cmd => exact (holds.noteShutdown cmd).putAll flawless more
  | activeCycle sampler budgetUs => exact holds.putAll flawless more
  | tickFsync =>
      rw [silent rfl, List.append_nil]
      exact holds.tick flawless _

end CommandDispatcher

/-! ## One event -/

/-- What an event did to the memory: `evicted` were due and went first, and
`own` are the records of what happened then. -/
structure Advance (world : World) (before after : Memory)
    (evicted : List Bytes) (own : List Command) : Prop where
  wf : after.Wf
  nodup : evicted.Nodup
  clock_le : before.clockReads ≤ after.clockReads
  due : ∀ key ∈ evicted, ∃ item deadline, before.view key = some item ∧
    item.deadline = some deadline ∧ ∃ i, before.clockReads ≤ i ∧
      i < after.clockReads ∧ deadline ≤ world.ms i
  logs : ∃ now action,
    Logs now (before.view.without evicted) action after.view own

theorem Advance.view_of_silent {world : World} {before after : Memory}
    {evicted : List Bytes} (advance : Advance world before after evicted []) :
    after.view = before.view.without evicted := by
  obtain ⟨now, action, logs⟩ := advance.logs
  exact logs.eq_of_nil

/-- The memory side of an event.  A command is an outcome of its action; the
other events only evict. -/
inductive Happens (world : World) (before : Memory) :
    Event → Option Reply → Memory → List Bytes → List Command → Prop where
  | command {walk : Walk} {cmd : Command} {reply : Reply} {after : Memory}
      {evicted : List Bytes}
      (outcome : Outcome world before (Action.ofCommand wrap64 cmd) reply after
        evicted) :
      Happens world before (.command walk cmd) (some reply) after evicted
        (commandRecords after.expiry cmd reply.encode)
  | activeCycle {sampler : Server.Sampler} {budgetUs : Int64} {after : Memory}
      {evicted : List Bytes}
      (advance : Advance world before after evicted []) :
      Happens world before (.activeCycle sampler budgetUs) none after evicted []
  | tickFsync {after : Memory} (advance : Advance world before after [] []) :
      Happens world before .tickFsync none after [] []

theorem Happens.advance {world : World} {before after : Memory} {event : Event}
    {reply : Option Reply} {evicted : List Bytes} {own : List Command}
    (happens : Happens world before event reply after evicted own) :
    Advance world before after evicted own := by
  cases happens with
  | command outcome =>
      exact ⟨outcome.wf, outcome.nodup, outcome.clock_le, outcome.due, _, _,
        outcome.logs⟩
  | activeCycle advance => exact advance
  | tickFsync advance => exact advance

/-- Every event succeeds.  What it does to the memory and which records it owes
does not depend on the file system. -/
theorem step_happens (world : World) {memory : Memory} (wf : memory.Wf)
    (event : Event) :
    ∃ reply after evicted own,
      Happens world memory event reply after evicted own ∧
      ∀ (disk : Disk) (dispatcher : CommandDispatcher) (wal : Wal),
        dispatcher.persistenceFailed = false → dispatcher.wal = some wal →
        let logged := dispatcher.log (world.onDisk disk) memory.clockReads
          (evicted.map delRecord ++ own) event
        Server.step (world.onDisk disk) ⟨memory, dispatcher⟩ event =
          .ok (reply.map fun given =>
            if logged.persistenceFailed then misconf else given.encode,
              ⟨after, logged⟩) := by
  cases event with
  | command walk cmd =>
      obtain ⟨reply, after, evicted, outcome, result⟩ :=
        execute_eq world walk wf cmd
      refine ⟨some reply, after, evicted, _, .command outcome, ?_⟩
      intro disk dispatcher wal healthy _
      rw [Server.step, result disk dispatcher healthy]
      rfl
  | activeCycle sampler budgetUs =>
      obtain ⟨stats, after, evicted, afterWf, nodup, clockLe, view, due,
        result⟩ := activeCycle_purged world sampler budgetUs wf
      refine ⟨none, after, evicted, [],
        .activeCycle ⟨afterWf, nodup, clockLe, ?_, ?_⟩, ?_⟩
      · intro key gone
        obtain ⟨item, deadline, present, hasDeadline, read, reached⟩ :=
          due key gone
        exact ⟨item, deadline, present, hasDeadline, memory.clockReads,
          Nat.le_refl _, read, reached⟩
      · rw [view]
        exact ⟨0, .answer .ok, .nothing⟩
      · intro disk dispatcher wal _ _
        rw [Server.step, result, List.append_nil]
        rfl
  | tickFsync =>
      refine ⟨none, { memory with clockReads := memory.clockReads + 1 }, [], [],
        .tickFsync ⟨⟨wf.tracked, wf.nonempty⟩, List.nodup_nil, Nat.le_succ _,
          by simp, ?_⟩, ?_⟩
      · rw [TimedMap.without_nil]
        exact ⟨0, .answer .ok, .nothing⟩
      · intro disk dispatcher wal healthy attached
        simp only [Server.step, Server.tickFsync, attached, healthy,
          Memory.readClock, CommandDispatcher.log, CommandDispatcher.tick]
        rfl

theorem Happens.silent {world : World} {before after : Memory} {event : Event}
    {reply : Option Reply} {evicted : List Bytes} {own : List Command}
    (happens : Happens world before event reply after evicted own)
    (isTick : event = .tickFsync) : evicted.map delRecord ++ own = [] := by
  cases happens with
  | command | activeCycle => cases isTick
  | tickFsync => rfl

/-- The records that a run owes, event by event: a `DEL` for each key evicted on
the way, then the records of the event itself. -/
inductive Owes (world : World) (initial : Memory) :
    List Event → List (Option Bytes) → Memory → List Command → Prop where
  | nil : Owes world initial [] [] initial []
  | concat {events : List Event} {outputs : List (Option Bytes)}
      {before after : Memory} {owed own : List Command} {event : Event}
      {reply : Option Reply} {evicted : List Bytes}
      (earlier : Owes world initial events outputs before owed)
      (happens : Happens world before event reply after evicted own) :
      Owes world initial (events ++ [event])
        (outputs ++ [reply.map Reply.encode]) after
        (owed ++ (evicted.map delRecord ++ own))

/-- The records of the last command come last. -/
theorem Owes.last {world : World} {initial memory : Memory}
    {events : List Event} {walk : Walk} {cmd : Command}
    {outputs : List (Option Bytes)} {owed : List Command}
    (owes : Owes world initial (events ++ [.command walk cmd]) outputs memory
      owed) :
    ∃ replies reply earlier, outputs = replies ++ [some reply] ∧
      owed = earlier ++ commandRecords memory.expiry cmd reply := by
  generalize isAll : events ++ [.command walk cmd] = all at owes
  cases owes with
  | nil => simp at isAll
  | @concat _ outputs _ _ before _ _ _ evicted earlier happens =>
      obtain ⟨_, isEvent⟩ := List.append_inj' isAll rfl
      cases isEvent
      cases happens with
      | @command _ _ reply _ _ outcome =>
          exact ⟨outputs, reply.encode, before ++ evicted.map delRecord, rfl,
            (List.append_assoc _ _ _).symm⟩

/-- While the disk works, an event appends its evictions and its own records. -/
theorem step_holds {world : World} (flawless : world.disk.Flawless)
    {memory : Memory} (wf : memory.Wf) (event : Event)
    {dispatcher : CommandDispatcher} {records : List Command}
    (holds : dispatcher.Holds records) :
    ∃ reply after evicted own logged,
      Happens world memory event reply after evicted own ∧
      Server.step world ⟨memory, dispatcher⟩ event =
        .ok (reply.map Reply.encode, ⟨after, logged⟩) ∧
      logged.Holds (records ++ (evicted.map delRecord ++ own)) := by
  obtain ⟨reply, after, evicted, own, happens, result⟩ :=
    step_happens world wf event
  obtain ⟨wal, attached, _⟩ := holds.attached
  have logged := holds.log flawless memory.clockReads happens.silent
  have stepped := result world.disk dispatcher wal holds.healthy attached
  refine ⟨reply, after, evicted, own, _, happens, ?_, logged⟩
  simpa [World.onDisk, logged.healthy] using stepped

/-! ## Whole runs -/

/-- The log is attached and intact, and the invariant relates the memory to the
records in it. -/
def Server.Keeps (Invariant : Memory → List Command → Prop) (server : Server) :
    Prop :=
  server.memory.Wf ∧ ∃ records, server.dispatcher.Holds records ∧
    Invariant server.memory records

theorem Server.fresh_keeps {Invariant : Memory → List Command → Prop}
    (initial : Invariant Memory.fresh []) (policy : FsyncPolicy) :
    (Server.fresh (some (Wal.fresh policy))).Keeps Invariant :=
  ⟨Memory.fresh_wf, [], CommandDispatcher.fresh_holds policy, initial⟩

/-- A fact about the memory and the records so far that an event keeps is kept
by the step of the server. -/
theorem Server.Keeps.step {world : World} (flawless : world.disk.Flawless)
    {Invariant : Memory → List Command → Prop} {server : Server}
    (keeps : server.Keeps Invariant) {event : Event}
    (preserved : ∀ records reply after evicted own,
      Invariant server.memory records →
      Happens world server.memory event reply after evicted own →
      Invariant after (records ++ (evicted.map delRecord ++ own))) :
    ∃ output next, server.step world event = .ok (output, next) ∧
      next.Keeps Invariant := by
  obtain ⟨memory, dispatcher⟩ := server
  obtain ⟨wf, records, holds, kept⟩ := keeps
  obtain ⟨reply, after, evicted, own, logged, happens, stepped, holdsAfter⟩ :=
    step_holds flawless wf event holds
  exact ⟨_, _, stepped, happens.advance.wf, _, holdsAfter,
    preserved records reply after evicted own kept happens⟩

/-- What every event keeps holds throughout every run, and no run faults. -/
theorem run_invariant {world : World} (flawless : world.disk.Flawless)
    {allowed : Memory → Event → Prop}
    {Invariant : Memory → List Command → Prop}
    (preserved : ∀ memory records event reply after evicted own,
      memory.Wf → Invariant memory records → allowed memory event →
      Happens world memory event reply after evicted own →
      Invariant after (records ++ (evicted.map delRecord ++ own)))
    (initial : Invariant Memory.fresh []) (policy : FsyncPolicy)
    (events : List Event)
    (each : EachStep (Server.step world)
      (fun server event => allowed server.memory event)
      (Server.fresh (some (Wal.fresh policy))) events) :
    ∃ replies live records,
      Server.run world (Server.fresh (some (Wal.fresh policy))) events =
        .ok (replies, live) ∧
      live.memory.Wf ∧ live.dispatcher.Holds records ∧
      Invariant live.memory records := by
  have stepKept : ∀ (server : Server) (event : Event),
      server.Keeps Invariant → allowed server.memory event →
      ∃ output next, server.step world event = .ok (output, next) ∧
        next.Keeps Invariant := by
    intro server event keeps isAllowed
    apply keeps.step flawless
    intro records reply after evicted own kept happens
    exact preserved _ _ _ _ _ _ _ keeps.1 kept isAllowed happens
  obtain ⟨replies, live, ran, wf, records, holds, kept⟩ :=
    runAll_invariant stepKept (Server.fresh_keeps initial policy) each
  exact ⟨replies, live, records, ran, wf, holds, kept⟩

end HermitDb.Core
