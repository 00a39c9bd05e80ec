import HermitDb.Core.Reachable
import HermitDb.Persist.Continuation

/-!
# What only goes one way

Whatever an event does and whatever fails, the file of the log only gets longer,
what is synced of it stays synced, a request to shut down is never taken back,
and persistence that has failed does not come back.  It fails together with a
request to shut down.
-/

namespace HermitDb.Persist

open Protocol

/-- A log later in its life. -/
structure Wal.Grows (before after : Wal) : Prop where
  file : before.file <+: after.file
  records : before.records <+: after.records
  synced : before.synced ≤ before.file.length →
    before.synced ≤ after.synced ∧ after.synced ≤ after.file.length

namespace Wal

theorem Grows.refl (wal : Wal) : wal.Grows wal :=
  ⟨List.prefix_refl _, List.prefix_refl _, fun bounded =>
    ⟨Nat.le_refl _, bounded⟩⟩

theorem Grows.trans {first second third : Wal} (earlier : first.Grows second)
    (later : second.Grows third) : first.Grows third := by
  refine ⟨earlier.file.trans later.file, earlier.records.trans later.records, ?_⟩
  intro bounded
  obtain ⟨firstLe, secondBounded⟩ := earlier.synced bounded
  obtain ⟨secondLe, thirdBounded⟩ := later.synced secondBounded
  exact ⟨Nat.le_trans firstLe secondLe, thirdBounded⟩

theorem append_grows (disk : Disk) (wal : Wal) (command : Command) :
    wal.Grows (wal.append disk command).2 := by
  have synced := append_synced disk wal command
  have grown : wal.file <+: (wal.append disk command).2.file ∧
      wal.records <+: (wal.append disk command).2.records := by
    cases isOpen : wal.isOpen with
    | false =>
        simp only [append, isOpen, Bool.not_false, if_true]
        exact ⟨List.prefix_refl _, List.prefix_refl _⟩
    | true =>
        obtain ⟨_, appended⟩ | ⟨_, failed, _⟩ := append_cases disk isOpen command
        · rw [appended.file, appended.records]
          exact ⟨List.prefix_append _ _, List.prefix_append _ _⟩
        · obtain ⟨written, logged⟩ | ⟨part, _, written, logged⟩ := failed.written
          · rw [written, logged]
            exact ⟨List.prefix_append _ _, List.prefix_append _ _⟩
          · rw [written, logged]
            exact ⟨List.prefix_append _ _, List.prefix_refl _⟩
  refine ⟨grown.1, grown.2, ?_⟩
  intro bounded
  have longer := grown.1.length_le
  omega

theorem Ticked.grows {wal after : Wal} (ticked : wal.Ticked after) :
    wal.Grows after := by
  refine ⟨?_, ?_, ?_⟩
  · rw [ticked.file]
  · rw [ticked.records]
  · rw [ticked.file]
    intro bounded
    rcases ticked.synced with same | all <;> omega

end Wal

end HermitDb.Persist

namespace HermitDb.Core

open Library Persist Protocol

/-- A dispatcher later in its life, when no command has asked for a shutdown in
between. -/
structure CommandDispatcher.Proceeds (before after : CommandDispatcher) :
    Prop where
  failed : before.persistenceFailed = true → after.persistenceFailed = true
  shutdown : after.shutdown = (before.shutdown ||
    (!before.persistenceFailed && after.persistenceFailed))
  log : ∀ wal, before.wal = some wal →
    ∃ later, after.wal = some later ∧ wal.Grows later

namespace CommandDispatcher

theorem Proceeds.refl (dispatcher : CommandDispatcher) :
    dispatcher.Proceeds dispatcher := by
  refine ⟨id, ?_, fun wal attached => ⟨wal, attached, .refl wal⟩⟩
  rw [Bool.not_and_self, Bool.or_false]

theorem Proceeds.trans {first second third : CommandDispatcher}
    (earlier : first.Proceeds second) (later : second.Proceeds third) :
    first.Proceeds third := by
  refine ⟨fun failed => later.failed (earlier.failed failed), ?_, ?_⟩
  · rw [later.shutdown, earlier.shutdown]
    have firstSecond := earlier.failed
    have secondThird := later.failed
    revert firstSecond secondThird
    cases first.persistenceFailed <;> cases second.persistenceFailed <;>
      cases third.persistenceFailed <;> simp
  · intro wal attached
    obtain ⟨middle, middleAttached, grows⟩ := earlier.log wal attached
    obtain ⟨final, finalAttached, growsMore⟩ := later.log middle middleAttached
    exact ⟨final, finalAttached, grows.trans growsMore⟩

/-- The log is another one, and its failure, if it is one, is reported. -/
theorem proceeds_report {dispatcher : CommandDispatcher} {wal next : Wal}
    (attached : dispatcher.wal = some wal)
    (healthy : dispatcher.persistenceFailed = false) (grows : wal.Grows next) :
    dispatcher.Proceeds { dispatcher with wal := some next } ∧
      dispatcher.Proceeds
        (reportPersistenceFailure { dispatcher with wal := some next }) := by
  have log : ∀ other, dispatcher.wal = some other →
      ∃ later, some next = some later ∧ other.Grows later := by
    intro other isOther
    rw [attached] at isOther
    cases isOther
    exact ⟨next, rfl, grows⟩
  refine ⟨⟨id, ?_, log⟩, ⟨fun _ => rfl, ?_, log⟩⟩
  · rw [Bool.not_and_self, Bool.or_false]
  · simp [reportPersistenceFailure, healthy]

theorem put_proceeds (world : World) (dispatcher : CommandDispatcher)
    (record : Command) : dispatcher.Proceeds (dispatcher.put world record) := by
  unfold put
  split
  · exact .refl _
  · rename_i wal attached
    split
    · exact .refl _
    · rename_i notFailed
      have reported := proceeds_report attached (Bool.eq_false_of_not_eq_true
        notFailed) (Wal.append_grows world.disk wal record)
      dsimp only
      split
      · exact reported.2
      · exact reported.1

theorem putAll_proceeds (world : World) (dispatcher : CommandDispatcher)
    (records : List Command) :
    dispatcher.Proceeds (dispatcher.putAll world records) := by
  induction records generalizing dispatcher with
  | nil => exact .refl _
  | cons record records induction =>
      exact (put_proceeds world dispatcher record).trans (induction _)

theorem tick_proceeds (world : World) {dispatcher : CommandDispatcher} {wal : Wal}
    (attached : dispatcher.wal = some wal)
    (healthy : dispatcher.persistenceFailed = false) (now : Int64) :
    dispatcher.Proceeds (dispatcher.tick world now) := by
  obtain ⟨next, ticked, ⟨result, _⟩ | ⟨result, _⟩⟩ :=
    tick_cases world attached now
  · rw [result]
    exact (proceeds_report attached healthy ticked.grows).1
  · rw [result]
    exact (proceeds_report attached healthy ticked.grows).2

end CommandDispatcher

/-! ## What the log was given -/

/-- The log has been given these records.  Once persistence has failed, the last
of them may be missing. -/
def CommandDispatcher.Given (records : List Command)
    (dispatcher : CommandDispatcher) : Prop :=
  ∃ wal, dispatcher.wal = some wal ∧ wal.records <+: records ∧
    (dispatcher.persistenceFailed = false →
      wal.isOpen = true ∧ wal.records = records)

namespace CommandDispatcher

variable {dispatcher : CommandDispatcher} {records : List Command}

theorem Given.put (given : dispatcher.Given records) (world : World)
    (record : Command) :
    (dispatcher.put world record).Given (records ++ [record]) := by
  obtain ⟨wal, attached, leading, whole⟩ := given
  cases failed : dispatcher.persistenceFailed with
  | true =>
      have unchanged := putAll_of_failed world failed [record]
      rw [putAll, List.foldl_cons, List.foldl_nil] at unchanged
      rw [unchanged]
      refine ⟨wal, attached, leading.trans (List.prefix_append _ _), ?_⟩
      intro healthy
      rw [failed] at healthy
      cases healthy
  | false =>
      obtain ⟨isOpen, rfl⟩ := whole failed
      obtain ⟨next, ⟨result, appended⟩ | ⟨result, appendFailed, _⟩⟩ :=
        put_cases world failed attached isOpen record
      · rw [result]
        refine ⟨next, rfl, ?_, fun _ => ⟨appended.isOpen, appended.records⟩⟩
        rw [appended.records]
      · rw [result]
        refine ⟨next, rfl, ?_, fun healthy => by cases healthy⟩
        obtain ⟨_, logged⟩ | ⟨_, _, _, logged⟩ := appendFailed.written
        · rw [logged]
        · rw [logged]
          exact List.prefix_append _ _

theorem Given.putAll (given : dispatcher.Given records) (world : World)
    (more : List Command) :
    (dispatcher.putAll world more).Given (records ++ more) := by
  induction more generalizing dispatcher records with
  | nil =>
      rw [List.append_nil]
      exact given
  | cons record more induction =>
      have next := induction (given.put world record)
      rw [List.append_assoc] at next
      exact next

theorem Given.tick (given : dispatcher.Given records) (world : World)
    (now : Int64) : (dispatcher.tick world now).Given records := by
  obtain ⟨wal, attached, leading, whole⟩ := given
  obtain ⟨next, ticked, ⟨result, _⟩ | ⟨result, _⟩⟩ :=
    tick_cases world attached now
  · rw [result]
    refine ⟨next, rfl, ?_, fun healthy => ?_⟩
    · rw [ticked.records]
      exact leading
    · obtain ⟨isOpen, same⟩ := whole healthy
      exact ⟨ticked.isOpen.trans isOpen, ticked.records.trans same⟩
  · rw [result]
    refine ⟨next, rfl, ?_, fun healthy => by cases healthy⟩
    rw [ticked.records]
    exact leading

theorem Given.log (given : dispatcher.Given records) (world : World)
    (reading : Nat) {more : List Command} {event : Event}
    (silent : event = .tickFsync → more = []) :
    (dispatcher.log world reading more event).Given (records ++ more) := by
  cases event with
  | command walk cmd =>
      have noted : (dispatcher.noteShutdown cmd).Given records := by
        simpa [CommandDispatcher.Given] using given
      exact noted.putAll world more
  | activeCycle sampler budgetUs => exact given.putAll world more
  | tickFsync =>
      rw [silent rfl, List.append_nil]
      exact given.tick world _

end CommandDispatcher

/-! ## Events -/

/-- Every event, from every state. -/
theorem step_proceeds {world : World} {server next : Server} {event : Event}
    {output : Option Bytes} (wf : server.memory.Wf)
    (stepped : server.step world event = .ok (output, next)) :
    server.dispatcher.Proceeds next.dispatcher ∨
      ∃ walk cmd, event = .command walk cmd ∧
        (server.dispatcher.noteShutdown cmd).Proceeds next.dispatcher := by
  obtain ⟨memory, dispatcher⟩ := server
  cases event with
  | command walk cmd =>
      cases failed : dispatcher.persistenceFailed with
      | true =>
          rw [Server.step, execute_of_failed world walk failed cmd] at stepped
          cases stepped
          exact .inl (.refl _)
      | false =>
          obtain ⟨reply, after, evicted, _, result⟩ :=
            execute_eq world walk wf cmd
          have executed := result world.disk dispatcher failed
          change Server.execute world walk ⟨memory, dispatcher⟩ cmd = _
            at executed
          rw [Server.step, executed] at stepped
          cases stepped
          exact .inr ⟨walk, cmd, rfl, CommandDispatcher.putAll_proceeds _ _ _⟩
  | activeCycle sampler budgetUs =>
      obtain ⟨stats, after, evicted, _, _, _, _, _, result⟩ :=
        activeCycle_purged world sampler budgetUs wf
      have cycled : Server.activeCycle world sampler budgetUs
          ⟨memory, dispatcher⟩ = _ := result world.disk dispatcher
      rw [Server.step, cycled] at stepped
      cases stepped
      exact .inl (CommandDispatcher.putAll_proceeds _ _ _)
  | tickFsync =>
      cases stepped
      refine .inl ?_
      cases attached : dispatcher.wal with
      | none =>
          simp only [Server.tickFsync, attached]
          exact .refl _
      | some wal =>
          cases failed : dispatcher.persistenceFailed with
          | true =>
              simp only [Server.tickFsync, attached, failed, if_true]
              exact .refl _
          | false =>
              have ticked := CommandDispatcher.tick_proceeds world attached
                failed (world.wallMs memory.clockReads)
              simp only [CommandDispatcher.tick, attached, failed] at ticked
              simp only [Server.tickFsync, attached, failed, Bool.false_eq_true,
                if_false, Memory.readClock]
              exact ticked

end HermitDb.Core
