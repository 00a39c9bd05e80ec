import HermitDb.Core.Refinement

/-!
# Execution

`execute` is the handler's outcome followed by one guarded append per record:
the evictions first, the command's own records after them.
-/

namespace HermitDb.Core

open Library Persist Protocol

/-- The records a command owes once its handler has replied. -/
def commandRecords (expiry : ExpiryManager) (cmd : Command) (reply : Bytes) :
    List Command :=
  match cmd with
  | [] => []
  | name :: _ =>
      match table.lookup (upper name) with
      | none => []
      | some verb => mutationRecords expiry verb cmd reply

namespace CommandDispatcher

/-- `SHUTDOWN` raises the flag the event loop polls. -/
def noteShutdown (dispatcher : CommandDispatcher) (cmd : Command) :
    CommandDispatcher :=
  match cmd with
  | [] => dispatcher
  | name :: _ =>
      if upper name = ascii "SHUTDOWN" then { dispatcher with shutdown := true }
      else dispatcher

@[simp] theorem noteShutdown_wal (dispatcher : CommandDispatcher)
    (cmd : Command) : (dispatcher.noteShutdown cmd).wal = dispatcher.wal := by
  unfold noteShutdown
  split
  · rfl
  · split <;> rfl

@[simp] theorem noteShutdown_persistenceFailed (dispatcher : CommandDispatcher)
    (cmd : Command) : (dispatcher.noteShutdown cmd).persistenceFailed =
      dispatcher.persistenceFailed := by
  unfold noteShutdown
  split
  · rfl
  · split <;> rfl

theorem putAll_of_inert {world : World} {dispatcher : CommandDispatcher}
    (inert : ∀ record, dispatcher.put world record = dispatcher)
    (records : List Command) : dispatcher.putAll world records = dispatcher := by
  induction records with
  | nil => rfl
  | cons record records induction =>
      rw [putAll, List.foldl_cons, inert]
      exact induction

/-- After a failure nothing is appended any more. -/
theorem putAll_of_failed (world : World) {dispatcher : CommandDispatcher}
    (failed : dispatcher.persistenceFailed = true) (records : List Command) :
    dispatcher.putAll world records = dispatcher := by
  refine putAll_of_inert (fun record => ?_) records
  unfold put
  split
  · rfl
  · rw [if_pos failed]

/-- Without a log nothing is appended. -/
theorem putAll_of_detached (world : World) {dispatcher : CommandDispatcher}
    (detached : dispatcher.wal = none) (records : List Command) :
    dispatcher.putAll world records = dispatcher := by
  refine putAll_of_inert (fun record => ?_) records
  unfold put
  rw [detached]

end CommandDispatcher

/-- The guard around `log_mutation` changes nothing: the appends behind it are
guarded themselves. -/
theorem guarded_logMutation (world : World) (memory : Memory)
    (dispatcher : CommandDispatcher) (verb : Verb) (cmd : Command)
    (reply : Bytes) :
    (if dispatcher.wal.isSome && !dispatcher.persistenceFailed then
        Server.logMutation world ⟨memory, dispatcher⟩ verb cmd reply
      else ⟨memory, dispatcher⟩) =
      ⟨memory, dispatcher.putAll world
        (mutationRecords memory.expiry verb cmd reply)⟩ := by
  split
  · rfl
  · rename_i unguarded
    have kept : dispatcher.putAll world
        (mutationRecords memory.expiry verb cmd reply) = dispatcher := by
      cases attached : dispatcher.wal with
      | none => exact CommandDispatcher.putAll_of_detached world attached _
      | some wal =>
          refine CommandDispatcher.putAll_of_failed world ?_ _
          simpa [attached] using unguarded
    rw [kept]

/-- `SHUTDOWN` is handled before the table is read. -/
theorem table_lookup_shutdown : table.lookup (ascii "SHUTDOWN") = none := by
  decide

/-- Everything one `execute` does, as long as persistence has not failed.  The
reply, the memory and the records owed do not depend on the file system. -/
theorem execute_eq (world : World) (walk : Walk) {memory : Memory}
    (wf : memory.Wf) (cmd : Command) :
    ∃ reply after evicted,
      Outcome world memory (Action.ofCommand wrap64 cmd) reply after evicted ∧
      ∀ (disk : Disk) (dispatcher : CommandDispatcher),
        dispatcher.persistenceFailed = false →
        let logged := (dispatcher.noteShutdown cmd).putAll (world.onDisk disk)
          (evicted.map delRecord ++
            commandRecords after.expiry cmd reply.encode)
        Server.execute (world.onDisk disk) walk ⟨memory, dispatcher⟩ cmd =
          .ok (if logged.persistenceFailed then misconf else reply.encode,
            ⟨after, logged⟩) := by
  cases cmd with
  | nil =>
      refine ⟨_, memory, [], Outcome.answer wf (.error emptyCommandText), ?_⟩
      intro disk dispatcher healthy
      simp [Server.execute, healthy, commandRecords,
        CommandDispatcher.noteShutdown, Reply.encode]
  | cons name args =>
      by_cases isShutdown : upper name = ascii "SHUTDOWN"
      · refine ⟨.ok, memory, [], ?_, ?_⟩
        · rw [Action.ofCommand, if_pos isShutdown]
          exact Outcome.answer wf .ok
        · intro disk dispatcher healthy
          simp [Server.execute, healthy, commandRecords, table_lookup_shutdown,
            CommandDispatcher.noteShutdown, isShutdown]
      · cases listed : table.lookup (upper name) with
        | none =>
            refine ⟨.error (unknownCommandText name), memory, [], ?_, ?_⟩
            · rw [Action.ofCommand, if_neg isShutdown, listed]
              exact Outcome.answer wf _
            · intro disk dispatcher healthy
              simp [Server.execute, healthy, commandRecords, listed, isShutdown,
                CommandDispatcher.noteShutdown, Reply.encode]
        | some verb =>
            obtain ⟨reply, after, evicted, outcome, result⟩ :=
              verb.handler_refines walk wf (name :: args)
            refine ⟨reply, after, evicted, ?_, ?_⟩
            · rw [Action.ofCommand, if_neg isShutdown, listed]
              exact outcome
            · intro disk dispatcher healthy
              simp only [Server.execute, healthy, Bool.false_eq_true, if_false,
                isShutdown, listed, result, guarded_logMutation,
                ← CommandDispatcher.putAll_append, commandRecords,
                CommandDispatcher.noteShutdown]
              split <;> rfl

end HermitDb.Core
