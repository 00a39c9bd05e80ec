import HermitDb.Core.Progress
import HermitDb.Net.Process

/-!
# Acknowledgements and stopping, with several reactors

Every reply passes through the dispatcher before it is queued for a socket, and
the dispatcher has logged by then what the command owes.  Once the log has
failed, no thread gives any client another answer than the error, the log is
left alone, and the stop flag is up for all loops.
-/

namespace HermitDb.Net

open Library Persist Protocol Util
open Core (World Walk Server Owes commandRecords misconf execute_of_failed
  step_of_failed step_proceeds execute_healthy run_accounts)

/-- A process with an empty store. -/
def Process.fresh (wal : Option Wal) : Process :=
  ⟨Server.fresh wal, 0, Core.Memory.fresh_wf⟩

/-! ## The stop flag -/

/-- The loops are asked to stop exactly if the dispatcher has been told to shut
down, as it is when persistence fails. -/
structure Shared.Alert (shared : Shared Process) : Prop where
  stop : shared.stop = shared.app.server.dispatcher.shutdown
  failed : shared.app.server.dispatcher.persistenceFailed = true →
    shared.app.server.dispatcher.shutdown = true

theorem noteShutdown_shutdown (dispatcher : Core.CommandDispatcher)
    (cmd : Command) (requested : dispatcher.shutdown = true) :
    (dispatcher.noteShutdown cmd).shutdown = true := by
  unfold Core.CommandDispatcher.noteShutdown
  split
  · exact requested
  · split
    · rfl
    · exact requested

section Alert

variable (around : Surroundings) {process : Process}

/-- No command takes a request to stop back, and none fails without one. -/
theorem execute_alert (cmd : Command)
    (failed : process.server.dispatcher.persistenceFailed = true →
      process.server.dispatcher.shutdown = true) :
    let next := ((Process.handler around).execute process cmd).2
    (process.server.dispatcher.shutdown = true →
        next.server.dispatcher.shutdown = true) ∧
      (next.server.dispatcher.persistenceFailed = true →
        next.server.dispatcher.shutdown = true) := by
  intro next
  have stepped := process.step_advance around.world
    (.command (around.walks process.taken) cmd)
  change _ = Except.ok (_, next.server) at stepped
  obtain proceeds | ⟨_, other, isCommand, proceeds⟩ :=
    step_proceeds process.wf stepped
  · rw [proceeds.shutdown]
    revert failed
    cases process.server.dispatcher.shutdown <;>
      cases process.server.dispatcher.persistenceFailed <;> simp
  · cases isCommand
    have noted := noteShutdown_shutdown process.server.dispatcher cmd
    rw [proceeds.shutdown, Core.CommandDispatcher.noteShutdown_persistenceFailed]
    cases isFailed : process.server.dispatcher.persistenceFailed with
    | false => simp +contextual [noted]
    | true => simp [noted (failed isFailed)]

/-- An event that is not a command asks for a stop exactly if it fails. -/
theorem advance_alert {event : Core.Event} (notCommand : commandOf event = none)
    (failed : process.server.dispatcher.persistenceFailed = true →
      process.server.dispatcher.shutdown = true) :
    let next := (process.advance around.world event).2
    next.server.dispatcher.shutdown = (process.server.dispatcher.shutdown ||
      next.server.dispatcher.persistenceFailed) ∧
    (process.server.dispatcher.persistenceFailed = true →
      next.server.dispatcher.persistenceFailed = true) := by
  intro next
  have stepped := process.step_advance around.world event
  obtain proceeds | ⟨_, _, rfl, _⟩ := step_proceeds process.wf stepped
  · change process.server.dispatcher.Proceeds next.server.dispatcher at proceeds
    refine ⟨?_, proceeds.failed⟩
    rw [proceeds.shutdown]
    revert failed
    cases process.server.dispatcher.shutdown <;>
      cases process.server.dispatcher.persistenceFailed <;> simp
  · cases notCommand

theorem tick_alert
    (failed : process.server.dispatcher.persistenceFailed = true →
      process.server.dispatcher.shutdown = true) :
    let next := ((Process.handler around).tick process).1
    next.server.dispatcher.shutdown = (process.server.dispatcher.shutdown ||
      next.server.dispatcher.persistenceFailed) := by
  intro next
  let cycled := (process.advance around.world
    (.activeCycle (around.samplers process.taken) kCycleBudgetUs)).2
  obtain ⟨first, kept⟩ : _ ∧ _ := advance_alert around
    (show commandOf (.activeCycle (around.samplers process.taken)
      kCycleBudgetUs) = none from rfl) failed
  change cycled.server.dispatcher.shutdown = (_ ||
    cycled.server.dispatcher.persistenceFailed) at first
  have cycledFailed : cycled.server.dispatcher.persistenceFailed = true →
      cycled.server.dispatcher.shutdown = true := by
    intro isFailed
    rw [first, isFailed, Bool.or_true]
  obtain ⟨second, stays⟩ : _ ∧ _ := advance_alert around
    (show commandOf .tickFsync = none from rfl) cycledFailed
  change next.server.dispatcher.shutdown = (_ ||
    next.server.dispatcher.persistenceFailed) at second
  change _ → next.server.dispatcher.persistenceFailed = true at stays
  rw [second, first]
  revert stays
  cases cycled.server.dispatcher.persistenceFailed <;>
    cases process.server.dispatcher.shutdown <;> simp

theorem Shared.Alert.perform {shared : Shared Process} (alert : shared.Alert)
    (request : Call) :
    (shared.perform (Process.handler around) request).2.Alert := by
  obtain ⟨process, stop⟩ := shared
  obtain ⟨isStop, failed⟩ := alert
  dsimp only at isStop failed
  cases request with
  | execute fd cmd =>
      obtain ⟨kept, together⟩ := execute_alert around cmd failed
      refine ⟨?_, together⟩
      change (stop || ((Process.handler around).execute process
        cmd).2.server.dispatcher.shutdown) = _
      rw [isStop]
      revert kept
      cases process.server.dispatcher.shutdown
      · intro _
        exact Bool.false_or _
      · intro kept
        rw [Bool.true_or]
        exact (kept rfl).symm
  | tick =>
      have shutdown := tick_alert around failed
      constructor
      · change (stop || ((Process.handler around).tick
          process).1.server.dispatcher.persistenceFailed) = _
        rw [isStop]
        exact shutdown.symm
      · intro isFailed
        change ((Process.handler around).tick
          process).1.server.dispatcher.persistenceFailed = true at isFailed
        dsimp only at shutdown
        rw [isFailed, Bool.or_true] at shutdown
        exact shutdown
  | stopRequested => exact ⟨isStop, failed⟩

end Alert

/-! ## After a failure -/

section Failed

variable (around : Surroundings) {process : Process}

theorem advance_of_failed
    (failed : process.server.dispatcher.persistenceFailed = true)
    (event : Core.Event) :
    (process.advance around.world event).2.server.dispatcher =
      process.server.dispatcher := by
  obtain ⟨output, next, stepped, _, same⟩ :=
    step_of_failed around.world process.wf failed event
  rw [process.step_advance] at stepped
  cases stepped
  exact same

theorem execute_of_failed_handler
    (failed : process.server.dispatcher.persistenceFailed = true)
    (cmd : Command) :
    ((Process.handler around).execute process cmd).1 = misconf := by
  have stepped := process.step_advance around.world
    (.command (around.walks process.taken) cmd)
  rw [Server.step, execute_of_failed around.world _ failed] at stepped
  have output := congrArg Prod.fst (Except.ok.inj stepped)
  exact (congrArg (Option.getD · []) output).symm

theorem tick_of_failed
    (failed : process.server.dispatcher.persistenceFailed = true) :
    ((Process.handler around).tick process).1.server.dispatcher =
      process.server.dispatcher := by
  have cycled := advance_of_failed around failed
    (.activeCycle (around.samplers process.taken) kCycleBudgetUs)
  rw [← cycled]
  apply advance_of_failed
  rw [cycled]
  exact failed

/-- Refused, or a look at the raised flag, or nothing a client sees. -/
def Refuses (exchange : Exchange Call Call.Answer) : Prop :=
  (∀ cmd reply, execution exchange = some (cmd, reply) → reply = misconf) ∧
    ∀ stop, exchange = ⟨.stopRequested, stop⟩ → stop = true

/-- From then on the dispatcher, its log included, does not change. -/
theorem performs_of_failed {shared final : Shared Process}
    {exchanges : List (Exchange Call Call.Answer)}
    (failed : shared.app.server.dispatcher.persistenceFailed = true)
    (stop : shared.stop = true)
    (performs : Performs (Shared.perform (Process.handler around)) shared
      exchanges final) :
    final.app.server.dispatcher = shared.app.server.dispatcher ∧
      final.stop = true ∧ ∀ exchange ∈ exchanges, Refuses exchange := by
  induction performs with
  | nil => exact ⟨rfl, stop, List.forall_mem_nil _⟩
  | @concat middle exchanges before request induction =>
      obtain ⟨same, stopped, refuses⟩ := induction
      have middleFailed : middle.app.server.dispatcher.persistenceFailed =
          true := by
        rw [same]
        exact failed
      rw [List.forall_mem_append, List.forall_mem_singleton]
      cases request with
      | execute fd cmd =>
          refine ⟨?_, ?_, refuses, ?_, nofun⟩
          · exact (advance_of_failed around middleFailed _).trans same
          · exact Bool.or_eq_true_iff.mpr (.inl stopped)
          · rintro _ _ ⟨⟩
            exact execute_of_failed_handler around middleFailed cmd
      | tick =>
          refine ⟨?_, ?_, refuses, nofun, nofun⟩
          · exact (tick_of_failed around middleFailed).trans same
          · exact Bool.or_eq_true_iff.mpr (.inl stopped)
      | stopRequested =>
          refine ⟨same, stopped, refuses, nofun, ?_⟩
          rintro _ ⟨⟩
          exact stopped

end Failed

/-- Fail-stop across threads.  The stop flag is up exactly if the dispatcher is
to shut down.  Once persistence has failed it is up for good: whatever the
threads do then, the dispatcher with its log stays as it is, every command is
answered with the error, and every loop that looks finds the flag.  The flag that
is raised when the first loop dies of a fatal error is not modelled. -/
theorem failure_stops_every_reactor (around : Surroundings) (cfg : Config)
    {process : Process}
    (running : process.server.dispatcher.shutdown = false)
    (healthy : process.server.dispatcher.persistenceFailed = false)
    (scripts : List (List Event)) (schedule : List Nat) :
    let threads := runReactors (Process.handler around) cfg process scripts
      schedule
    threads.object.stop = threads.object.app.server.dispatcher.shutdown ∧
    (threads.object.app.server.dispatcher.persistenceFailed = true →
      ∀ later,
        let after := threads.run (Shared.perform (Process.handler around)) later
        after.object.stop = true ∧
        after.object.app.server.dispatcher =
          threads.object.app.server.dispatcher ∧
        ∃ more, after.history = threads.history ++ more ∧
          ∀ entry ∈ more, Refuses entry.2) := by
  intro threads
  have initial : Shared.Alert ⟨process, false⟩ := by
    refine ⟨running.symm, ?_⟩
    intro failed
    rw [healthy] at failed
    cases failed
  have alert : threads.object.Alert :=
    (runReactors_sequential (Process.handler around) cfg process scripts
      schedule).invariant (fun _ request alert => alert.perform around request)
      initial
  refine ⟨alert.stop, ?_⟩
  intro failed later after
  obtain ⟨more, grown, performs, _⟩ := Threads.run_continues
    (Shared.perform (Process.handler around)) threads later
  have stopped := alert.stop.trans (alert.failed failed)
  obtain ⟨same, stays, refuses⟩ :=
    performs_of_failed around failed stopped performs
  refine ⟨stays, same, more, grown, ?_⟩
  intro entry member
  exact refuses entry.2 (List.mem_map_of_mem member)

/-- No append succeeds. -/
def failingDisk (walk : Walk) : Surroundings where
  world := (World.frozen 0).onDisk ⟨fun _ => [.failed], fun _ => true⟩
  walks := fun _ => walk
  samplers := fun _ => ⟨fun _ => 0, fun _ => 0⟩

set_option maxRecDepth 4000 in
private theorem twoClients_failed (walk : Walk) :
    (runReactors (Process.handler (failingDisk walk)) Config.initial
      (Process.fresh (some (Wal.fresh .always))) twoClients
      [1]).object.app.server.dispatcher.persistenceFailed = true := by
  rfl

/-- The `SET` of the second client fails, and the first one is refused. -/
theorem failure_stops_every_reactor_twoClients :
    let handler := Process.handler (failingDisk .arbitrary)
    let threads := runReactors handler Config.initial
      (Process.fresh (some (Wal.fresh .always))) twoClients [1]
    let after := threads.run (Shared.perform handler) [0, 0, 1]
    after.object.stop = true ∧
      ∃ more, after.history = threads.history ++ more ∧
        ∀ entry ∈ more, Refuses entry.2 := by
  intro handler threads after
  obtain ⟨stopped, _, more, grown, refuses⟩ :=
    (failure_stops_every_reactor (failingDisk .arbitrary) Config.initial rfl rfl
      twoClients [1]).2 (twoClients_failed .arbitrary) [0, 0, 1]
  exact ⟨stopped, more, grown, refuses⟩

/-! ## Acknowledgements -/

section Acknowledged

variable (around : Surroundings)

/-- The log of a later state has grown from that of an earlier one. -/
theorem performs_grows {shared final : Shared Process}
    {exchanges : List (Exchange Call Call.Answer)}
    (performs : Performs (Shared.perform (Process.handler around)) shared
      exchanges final) :
    ∀ wal, shared.app.server.dispatcher.wal = some wal →
      ∃ later, final.app.server.dispatcher.wal = some later ∧
        wal.Grows later := by
  have advanced : ∀ (process : Process) (event : Core.Event) (wal : Wal),
      process.server.dispatcher.wal = some wal → ∃ later,
        (process.advance around.world event).2.server.dispatcher.wal =
          some later ∧ wal.Grows later := by
    intro process event wal attached
    obtain proceeds | ⟨_, cmd, _, proceeds⟩ :=
      step_proceeds process.wf (process.step_advance around.world event)
    · exact proceeds.log wal attached
    · exact proceeds.log wal (by simpa using attached)
  intro wal attached
  induction performs with
  | nil => exact ⟨wal, attached, .refl wal⟩
  | @concat middle exchanges before request induction =>
      obtain ⟨later, laterAttached, grows⟩ := induction
      cases request with
      | execute fd cmd =>
          obtain ⟨next, nextAttached, growsMore⟩ :=
            advanced middle.app _ later laterAttached
          exact ⟨next, nextAttached, grows.trans growsMore⟩
      | tick =>
          obtain ⟨cycled, cycledAttached, growsCycle⟩ := advanced middle.app
            (.activeCycle (around.samplers middle.app.taken) kCycleBudgetUs)
            later laterAttached
          obtain ⟨synced, syncedAttached, growsSync⟩ :=
            advanced _ .tickFsync cycled cycledAttached
          exact ⟨synced, syncedAttached, (grows.trans growsCycle).trans growsSync⟩
      | stopRequested => exact ⟨later, laterAttached, grows⟩

/-- A command that was not refused leaves persistence working. -/
theorem handler_healthy {process : Process} {cmd : Command}
    (answered : ((Process.handler around).execute process cmd).1 ≠ misconf) :
    ((Process.handler around).execute process
      cmd).2.server.dispatcher.persistenceFailed = false := by
  have stepped := process.step_advance around.world
    (.command (around.walks process.taken) cmd)
  obtain ⟨reply, isReply, executed⟩ := Server.executed_of_step stepped
  apply execute_healthy process.wf executed
  rintro rfl
  exact answered (congrArg (Option.getD · []) isReply)

theorem performs_healthy {shared final : Shared Process}
    {exchanges : List (Exchange Call Call.Answer)} {fd : Fd} {cmd : Command}
    {reply : Bytes}
    (performs : Performs (Shared.perform (Process.handler around)) shared
      (exchanges ++ [⟨.execute fd cmd, reply⟩]) final)
    (answered : reply ≠ misconf) :
    final.app.server.dispatcher.persistenceFailed = false := by
  obtain ⟨middle, _, isReply, rfl⟩ := performs.last
  apply handler_healthy
  rw [show ((Process.handler around).execute middle.app cmd).1 = reply from
    isReply.symm]
  exact answered

end Acknowledged

/-- Acknowledged means logged, with several reactors.  When any thread has got
any reply but the error for a client, the records owed by everything up to then,
command by command and tick by tick in the order of the lock, are in the log;
they are there at every later moment, and synced if every append is. -/
theorem acknowledged_before_queued (around : Surroundings) (cfg : Config)
    (policy : FsyncPolicy) (scripts : List (List Event)) (schedule : List Nat)
    {before after : List (Nat × Exchange Call Call.Answer)} {position : Nat}
    {fd : Fd} {cmd : Command} {reply : Bytes}
    (replied : (runReactors (Process.handler around) cfg
      (Process.fresh (some (Wal.fresh policy))) scripts schedule).history =
        before ++ (position, ⟨.execute fd cmd, reply⟩) :: after)
    (answered : reply ≠ misconf) :
    ∃ events outputs memory owed wal,
      events.map workOf =
        (before.map Prod.snd).flatMap workFor ++ [.command cmd] ∧
      outputs.reduceOption =
        ((before.map Prod.snd).filterMap execution).map Prod.snd ++ [reply] ∧
      Owes around.world Core.Memory.fresh events outputs memory owed ∧
      (runReactors (Process.handler around) cfg
        (Process.fresh (some (Wal.fresh policy))) scripts
        schedule).object.app.server.dispatcher.wal = some wal ∧
      owed <+: wal.records ∧ encodeAll owed <+: wal.file ∧
      (policy = .always → (encodeAll owed).length ≤ wal.synced) := by
  have performs := runReactors_sequential (Process.handler around) cfg
    (Process.fresh (some (Wal.fresh policy))) scripts schedule
  rw [replied, ← List.singleton_append, ← List.append_assoc, List.map_append]
    at performs
  obtain ⟨middle, atReply, since⟩ := performs.split
  rw [List.map_append] at atReply
  obtain ⟨events, outputs, runs⟩ := performs_runsAs around atReply
  have healthy := performs_healthy around atReply answered
  obtain ⟨_, _, ran, accounts⟩ := run_accounts around.world policy events
  have both := ran.symm.trans runs.ran
  cases both
  obtain ⟨owed, wal, owes, attached, sameRecords, sameFile, synced⟩ :=
    accounts.acknowledges healthy
  obtain ⟨later, laterAttached, grows⟩ := performs_grows around since wal attached
  refine ⟨events, outputs, _, owed, later, ?_, ?_, owes, laterAttached, ?_, ?_,
    ?_⟩
  · rw [runs.work, List.flatMap_append]
    rfl
  · rw [runs.replies, List.filterMap_append, List.map_append]
    rfl
  · rw [← sameRecords]
    exact grows.records
  · rw [← sameFile]
    exact grows.file
  · intro always
    rw [← sameFile]
    have whole := synced always
    have kept := (grows.synced (Nat.le_of_eq whole)).1
    rwa [whole] at kept

/-- Nothing fails and no time passes. -/
def idleSurroundings (walk : Walk) : Surroundings where
  world := .frozen 0
  walks := fun _ => walk
  samplers := fun _ => ⟨fun _ => 0, fun _ => 0⟩

set_option maxRecDepth 4000 in
private theorem twoClients_history (walk : Walk) :
    (runReactors (Process.handler (idleSurroundings walk)) Config.initial
      (Process.fresh (some (Wal.fresh .always))) twoClients
      [1, 0, 0, 1]).history =
      [] ++ (1, ⟨.execute 6 [ascii "SET", ascii "a", ascii "1"],
        Resp.simple (ascii "OK")⟩) ::
      [(0, ⟨.execute 5 [ascii "GET", ascii "a"], ascii "$1\r\n1\r\n"⟩),
        (0, ⟨.stopRequested, false⟩), (1, ⟨.stopRequested, false⟩)] := by
  rfl

set_option maxRecDepth 4000 in
private theorem twoClients_records (walk : Walk) :
    (runReactors (Process.handler (idleSurroundings walk)) Config.initial
      (Process.fresh (some (Wal.fresh .always))) twoClients
      [1, 0, 0, 1]).object.app.server.dispatcher.wal.map Wal.records =
      some [[ascii "SET", ascii "a", ascii "1"]] := by
  rfl

/-- The `OK` that the second client got: it owes one record. -/
theorem acknowledged_before_queued_twoClients :
    ∃ events outputs memory wal,
      events.map workOf = [.command [ascii "SET", ascii "a", ascii "1"]] ∧
      outputs.reduceOption = [Resp.simple (ascii "OK")] ∧
      Owes (.frozen 0) Core.Memory.fresh events outputs memory
        [[ascii "SET", ascii "a", ascii "1"]] ∧
      (runReactors (Process.handler (idleSurroundings .arbitrary))
        Config.initial (Process.fresh (some (Wal.fresh .always))) twoClients
        [1, 0, 0, 1]).object.app.server.dispatcher.wal = some wal ∧
      encode [ascii "SET", ascii "a", ascii "1"] <+: wal.file ∧
      (encode [ascii "SET", ascii "a", ascii "1"]).length ≤ wal.synced := by
  obtain ⟨events, outputs, memory, owed, wal, work, replies, owes, attached,
    records, file, synced⟩ := acknowledged_before_queued
      (idleSurroundings .arbitrary) Config.initial .always twoClients
      [1, 0, 0, 1] (twoClients_history .arbitrary) (by decide)
  have isOwed : owed = [[ascii "SET", ascii "a", ascii "1"]] := by
    obtain ⟨event, rfl, isCommand⟩ := List.map_eq_singleton_iff.mp work
    obtain ⟨walk, rfl⟩ : ∃ walk, event =
        .command walk [ascii "SET", ascii "a", ascii "1"] := by
      cases event with
      | command walk cmd =>
          cases isCommand
          exact ⟨walk, rfl⟩
      | activeCycle | tickFsync => cases isCommand
    rw [← List.nil_append [_]] at owes
    obtain ⟨given, answer, earlier, rfl, isOwed⟩ := owes.last
    obtain ⟨more, own⟩ : ∃ more, commandRecords memory.expiry
        [ascii "SET", ascii "a", ascii "1"] (Resp.simple (ascii "OK")) =
          [ascii "SET", ascii "a", ascii "1"] :: more := ⟨_, rfl⟩
    have isOk : answer = Resp.simple (ascii "OK") := by
      rw [List.reduceOption_append, List.map_nil, List.filterMap_nil] at replies
      obtain ⟨_, last⟩ := List.append_inj' replies rfl
      exact List.head_eq_of_cons_eq last
    have logged := twoClients_records .arbitrary
    rw [attached, Option.map_some, Option.some.injEq] at logged
    -- The log holds one record, so nothing else is owed.
    rw [logged, isOwed, isOk, own] at records
    have short := records.length_le
    rw [List.length_append, List.length_cons, List.length_singleton] at short
    obtain rfl := List.eq_nil_of_length_eq_zero (show earlier.length = 0 by omega)
    obtain rfl := List.eq_nil_of_length_eq_zero (show more.length = 0 by omega)
    rw [isOwed, isOk, own, List.nil_append]
  subst isOwed
  rw [encodeAll, List.flatMap_singleton] at file synced
  exact ⟨events, outputs, memory, wal, work, replies, owes, attached, file,
    synced rfl⟩

end HermitDb.Net
