import HermitDb.Core.LogReplay

/-!
# Acknowledged means logged

The file system may fail at any call.  As long as it has not, the log holds the
records that the run owes, event by event, and nothing else.  After the first
failure the latch is set, and from then on every command is refused and the file
stays as it is, cut off somewhere in the records owed so far.
-/

namespace HermitDb.Core

open Library Persist Protocol

/-! ## The log under any disk -/

/-- No call has failed, and the log holds exactly these records, in full. -/
structure CommandDispatcher.Intact (dispatcher : CommandDispatcher)
    (policy : FsyncPolicy) (records : List Command) : Prop where
  healthy : dispatcher.persistenceFailed = false
  attached : ∃ wal, dispatcher.wal = some wal ∧ wal.isOpen = true ∧
    wal.policy = policy ∧ wal.errors = 0 ∧ wal.records = records ∧
    wal.file = encodeAll records ∧
    (policy = .always → wal.synced = wal.file.length)

/-- A call has failed.  The file is cut off somewhere in these records. -/
structure CommandDispatcher.Broken (dispatcher : CommandDispatcher)
    (records : List Command) : Prop where
  failed : dispatcher.persistenceFailed = true
  attached : ∃ wal, dispatcher.wal = some wal ∧ wal.errors ≠ 0 ∧
    wal.records <+: records ∧ wal.file <+: encodeAll records

namespace CommandDispatcher

theorem fresh_intact (policy : FsyncPolicy) :
    (fresh (some (Wal.fresh policy))).Intact policy [] :=
  ⟨rfl, _, rfl, rfl, rfl, rfl, rfl, rfl, fun _ => rfl⟩

variable {dispatcher : CommandDispatcher} {policy : FsyncPolicy}
  {records : List Command} (world : World)

theorem Broken.extend (broken : dispatcher.Broken records)
    (more : List Command) : dispatcher.Broken (records ++ more) := by
  obtain ⟨failed, wal, attached, errors, recordsCut, fileCut⟩ := broken
  refine ⟨failed, wal, attached, errors, ?_, ?_⟩
  · exact recordsCut.trans (List.prefix_append records more)
  · rw [encodeAll_append]
    exact fileCut.trans (List.prefix_append _ _)

theorem Intact.put (intact : dispatcher.Intact policy records)
    (record : Command) :
    (dispatcher.put world record).Intact policy (records ++ [record]) ∨
      (dispatcher.put world record).Broken (records ++ [record]) := by
  obtain ⟨healthy, wal, attached, isOpen, samePolicy, noErrors, sameRecords,
    sameFile, synced⟩ := intact
  have wholeFile : wal.file ++ encode record = encodeAll (records ++ [record]) := by
    rw [sameFile]
    simp [encodeAll]
  obtain ⟨next, ⟨result, appended⟩ | ⟨result, failed, _⟩⟩ :=
    put_cases world healthy attached isOpen record
  · rw [result]
    refine .inl ⟨healthy, _, rfl, appended.isOpen, ?_, ?_, ?_, ?_, ?_⟩
    · rw [appended.policy, samePolicy]
    · rw [appended.errors, noErrors]
    · rw [appended.records, sameRecords]
    · rw [appended.file, wholeFile]
    · intro always
      exact appended.synced (samePolicy.trans always)
  · rw [result]
    refine .inr ⟨rfl, _, rfl, ?_, ?_, ?_⟩
    · rw [failed.errors]
      exact Nat.succ_ne_zero _
    · obtain ⟨_, logged⟩ | ⟨_, _, _, logged⟩ := failed.written
      · rw [logged, sameRecords]
      · rw [logged, sameRecords]
        exact List.prefix_append records [record]
    · obtain ⟨written, _⟩ | ⟨part, torn, written, _⟩ := failed.written
      · rw [written, wholeFile]
      · obtain ⟨missing, _, whole⟩ := torn
        rw [written, ← wholeFile, ← whole, ← List.append_assoc]
        exact List.prefix_append _ _

theorem Intact.putAll (intact : dispatcher.Intact policy records)
    (more : List Command) :
    (dispatcher.putAll world more).Intact policy (records ++ more) ∨
      (dispatcher.putAll world more).Broken (records ++ more) := by
  induction more generalizing dispatcher records with
  | nil =>
      rw [List.append_nil]
      exact .inl intact
  | cons record more induction =>
      rw [← List.singleton_append, putAll_append]
      rw [← List.append_assoc]
      obtain next | broken := intact.put world record
      · exact induction next
      · -- The latch is set; the remaining appends do not happen.
        have stopped := putAll_of_failed world broken.failed more
        refine .inr ?_
        change ((dispatcher.put world record).putAll world more).Broken _
        rw [stopped]
        exact broken.extend more

theorem Intact.noteShutdown (intact : dispatcher.Intact policy records)
    (cmd : Command) : (dispatcher.noteShutdown cmd).Intact policy records :=
  ⟨by simpa using intact.healthy, by simpa using intact.attached⟩

theorem Intact.tick (intact : dispatcher.Intact policy records) (now : Int64) :
    (dispatcher.tick world now).Intact policy records ∨
      (dispatcher.tick world now).Broken records := by
  obtain ⟨healthy, wal, attached, isOpen, samePolicy, noErrors, sameRecords,
    sameFile, synced⟩ := intact
  obtain ⟨next, ticked, ⟨result, errors⟩ | ⟨result, errors, _⟩⟩ :=
    tick_cases world attached now
  · rw [result]
    refine .inl ⟨healthy, _, rfl, ticked.isOpen.trans isOpen, ?_, ?_, ?_, ?_, ?_⟩
    · rw [ticked.policy, samePolicy]
    · rw [errors, noErrors]
    · rw [ticked.records, sameRecords]
    · rw [ticked.file, sameFile]
    · intro always
      rw [ticked.file]
      obtain unchanged | synchronised := ticked.synced
      · rw [unchanged]
        exact synced always
      · exact synchronised
  · rw [result]
    refine .inr ⟨rfl, _, rfl, ?_, ?_, ?_⟩
    · rw [errors]
      exact Nat.succ_ne_zero _
    · rw [ticked.records, sameRecords]
    · rw [ticked.file, sameFile]

theorem Intact.log (intact : dispatcher.Intact policy records) (reading : Nat)
    {more : List Command} {event : Event}
    (silent : event = .tickFsync → more = []) :
    (dispatcher.log world reading more event).Intact policy (records ++ more) ∨
      (dispatcher.log world reading more event).Broken (records ++ more) := by
  cases event with
  | command walk cmd => exact (intact.noteShutdown cmd).putAll world more
  | activeCycle sampler budgetUs => exact intact.putAll world more
  | tickFsync =>
      rw [silent rfl, List.append_nil]
      exact intact.tick world _

end CommandDispatcher

/-! ## After a failure -/

theorem execute_of_failed (world : World) (walk : Walk) {server : Server}
    (failed : server.dispatcher.persistenceFailed = true) (cmd : Command) :
    server.execute world walk cmd = .ok (misconf, server) := by
  unfold Server.execute
  exact if_pos failed

/-- No event reaches the log once the latch is set. -/
theorem step_of_failed (world : World) {server : Server}
    (wf : server.memory.Wf)
    (failed : server.dispatcher.persistenceFailed = true) (event : Event) :
    ∃ output next, server.step world event = .ok (output, next) ∧
      next.memory.Wf ∧ next.dispatcher = server.dispatcher := by
  obtain ⟨memory, dispatcher⟩ := server
  cases event with
  | command walk cmd =>
      refine ⟨some misconf, ⟨memory, dispatcher⟩, ?_, wf, rfl⟩
      rw [Server.step, execute_of_failed world walk failed cmd]
  | activeCycle sampler budgetUs =>
      obtain ⟨stats, after, evicted, afterWf, _, _, _, _, result⟩ :=
        activeCycle_purged world sampler budgetUs wf
      have cycled := result world.disk dispatcher
      rw [CommandDispatcher.putAll_of_failed _ failed] at cycled
      refine ⟨none, ⟨after, dispatcher⟩, ?_, afterWf, rfl⟩
      exact congrArg (fun outcome => Except.ok (none, outcome.2)) cycled
  | tickFsync =>
      have unchanged : Server.tickFsync world ⟨memory, dispatcher⟩ =
          ⟨memory, dispatcher⟩ := by
        unfold Server.tickFsync
        split
        · rfl
        · exact if_pos failed
      refine ⟨none, ⟨memory, dispatcher⟩, ?_, wf, rfl⟩
      rw [Server.step, unchanged]

theorem run_of_failed (world : World) {server : Server}
    (wf : server.memory.Wf)
    (failed : server.dispatcher.persistenceFailed = true)
    (events : List Event) :
    ∃ replies final, server.run world events = .ok (replies, final) ∧
      final.dispatcher = server.dispatcher := by
  have kept : ∀ (state : Server) (event : Event),
      (state.memory.Wf ∧ state.dispatcher = server.dispatcher) → True →
      ∃ output next, state.step world event = .ok (output, next) ∧
        next.memory.Wf ∧ next.dispatcher = server.dispatcher := by
    rintro state event ⟨stateWf, same⟩ _
    obtain ⟨output, next, stepped, nextWf, unchanged⟩ :=
      step_of_failed world stateWf (by rw [same]; exact failed) event
    exact ⟨output, next, stepped, nextWf, unchanged.trans same⟩
  obtain ⟨replies, final, ran, _, same⟩ :=
    runAll_invariant kept ⟨wf, rfl⟩ (eachStep_true server events)
  exact ⟨replies, final, ran, same⟩

/-! ## Whole runs -/

/-- Nothing has failed, the clients got these replies, and the log holds what the
events owe; or the latch is set, and the file is cut off in what some first
events owe. -/
def Server.Accounts (world : World) (policy : FsyncPolicy) (events : List Event)
    (replies : List (Option Bytes)) (server : Server) : Prop :=
  server.memory.Wf ∧
    ((∃ owed, Owes world Memory.fresh events replies server.memory owed ∧
        server.dispatcher.Intact policy owed) ∨
      ∃ first rest outputs memory owed, events = first ++ rest ∧
        Owes world Memory.fresh first outputs memory owed ∧
        server.dispatcher.Broken owed)

/-- A command that finds the latch set, or sets it, is answered with the
error. -/
def MisconfIfFailed (output : Option Bytes) (event : Event) (next : Server) :
    Prop :=
  ∀ walk cmd, event = .command walk cmd →
    next.dispatcher.persistenceFailed = true → output = some misconf

section Accounts

variable {world : World} {policy : FsyncPolicy} {events : List Event}
  {replies : List (Option Bytes)} {server : Server}

theorem Server.Accounts.step (accounts : server.Accounts world policy events replies)
    (event : Event) :
    ∃ output next, server.step world event = .ok (output, next) ∧
      next.Accounts world policy (events ++ [event]) (replies ++ [output]) ∧
      MisconfIfFailed output event next := by
  obtain ⟨memory, dispatcher⟩ := server
  obtain ⟨wf, ⟨owed, owes, intact⟩ |
    ⟨first, rest, outputs, atFailure, owed, split, owes, broken⟩⟩ := accounts
  · obtain ⟨reply, after, evicted, own, happens, result⟩ :=
      step_happens world wf event
    obtain ⟨wal, attached, _⟩ := intact.attached
    have stepped := result world.disk dispatcher wal intact.healthy attached
    have owesMore := owes.concat happens
    refine ⟨_, _, stepped, ⟨happens.advance.wf, ?_⟩, ?_⟩
    · obtain next | broken := intact.log (world.onDisk world.disk)
        memory.clockReads happens.silent
      · refine .inl ⟨_, ?_, next⟩
        simpa [next.healthy] using owesMore
      · exact .inr ⟨_, [], _, after, _, (List.append_nil _).symm, owesMore,
          broken⟩
    · rintro walk cmd rfl failed
      cases happens
      exact congrArg some (if_pos failed)
  · obtain ⟨output, next, stepped, nextWf, same⟩ :=
      step_of_failed world wf broken.failed event
    refine ⟨output, next, stepped, ⟨nextWf, .inr ⟨first, rest ++ [event],
      outputs, atFailure, owed, ?_, owes, ?_⟩⟩, ?_⟩
    · rw [split, List.append_assoc]
    · rw [same]
      exact broken
    · rintro walk cmd rfl _
      rw [Server.step, execute_of_failed world walk broken.failed cmd] at stepped
      cases stepped
      rfl

theorem run_accounts (world : World) (policy : FsyncPolicy)
    (events : List Event) :
    ∃ replies server,
      Server.run world (Server.fresh (some (Wal.fresh policy))) events =
        .ok (replies, server) ∧ server.Accounts world policy events replies := by
  induction events using List.reverseRecOn with
  | nil =>
      exact ⟨[], _, rfl, Memory.fresh_wf, .inl ⟨[], .nil,
        CommandDispatcher.fresh_intact policy⟩⟩
  | append_singleton events event induction =>
      obtain ⟨replies, server, ran, accounts⟩ := induction
      obtain ⟨output, next, stepped, nextAccounts, _⟩ := accounts.step event
      exact ⟨replies ++ [output], next, runAll_concat ran stepped, nextAccounts⟩

/-- As long as persistence works, the log is the records owed, in full, and
synced if the policy is to sync always. -/
theorem Server.Accounts.acknowledges
    (accounts : server.Accounts world policy events replies)
    (healthy : server.dispatcher.persistenceFailed = false) :
    ∃ owed wal, Owes world Memory.fresh events replies server.memory owed ∧
      server.dispatcher.wal = some wal ∧ wal.records = owed ∧
      wal.file = encodeAll owed ∧
      (policy = .always → wal.synced = wal.file.length) := by
  obtain ⟨_, ⟨owed, owes, intact⟩ | ⟨_, _, _, _, _, _, _, broken⟩⟩ := accounts
  · obtain ⟨wal, attached, _, _, _, sameRecords, sameFile, synced⟩ :=
      intact.attached
    exact ⟨owed, wal, owes, attached, sameRecords, sameFile, synced⟩
  · rw [broken.failed] at healthy
    cases healthy

/-- The log is attached, its file is cut off somewhere in what first events owe,
and it has counted an error exactly if the latch is set. -/
theorem Server.Accounts.attached
    (accounts : server.Accounts world policy events replies) :
    ∃ wal, server.dispatcher.wal = some wal ∧
      (∃ first rest outputs memory owed, events = first ++ rest ∧
        Owes world Memory.fresh first outputs memory owed ∧
        wal.file <+: encodeAll owed) ∧
      (server.dispatcher.persistenceFailed = false → wal.errors = 0) ∧
      (wal.errors ≠ 0 → server.dispatcher.persistenceFailed = true) := by
  obtain ⟨_, ⟨owed, owes, intact⟩ |
    ⟨first, rest, outputs, memory, owed, split, owes, broken⟩⟩ := accounts
  · obtain ⟨wal, attached, _, _, noErrors, _, sameFile, _⟩ := intact.attached
    refine ⟨wal, attached, ⟨events, [], replies, server.memory, owed,
      (List.append_nil _).symm, owes, ?_⟩, fun _ => noErrors, ?_⟩
    · rw [sameFile]
    · intro errors
      exact absurd noErrors errors
  · obtain ⟨wal, attached, _, _, shape⟩ := broken.attached
    refine ⟨wal, attached, ⟨first, rest, outputs, memory, owed, split, owes,
      shape⟩, ?_, fun _ => broken.failed⟩
    intro healthy
    rw [broken.failed] at healthy
    cases healthy

end Accounts

/-- Acknowledged means logged, and failure is fail-stop.  A reply other than the
error finds the log equal to the records owed by all events so far.  Once an
append or a sync has failed, the file stays as it is and every command is
refused.  What a crash leaves of the file is whole records, those owed first,
and at most one torn one. -/
theorem acknowledged_or_stopped (world : World) (policy : FsyncPolicy)
    (events : List Event) :
    ∃ replies server wal,
      Server.run world (Server.fresh (some (Wal.fresh policy))) events =
        .ok (replies, server) ∧ server.dispatcher.wal = some wal ∧
      (∀ walk cmd, ∃ reply next nextWal,
        server.execute world walk cmd = .ok (reply, next) ∧
        next.dispatcher.wal = some nextWal ∧
        (reply ≠ misconf → ∃ owed,
          Owes world Memory.fresh (events ++ [.command walk cmd])
            (replies ++ [some reply]) next.memory owed ∧
          nextWal.records = owed ∧ nextWal.file = encodeAll owed ∧
          (policy = .always → nextWal.synced = nextWal.file.length)) ∧
        (nextWal.errors ≠ wal.errors → reply = misconf)) ∧
      (wal.errors ≠ 0 → ∀ later, ∃ more final,
        server.run world later = .ok (more, final) ∧
        final.dispatcher.wal = some wal ∧
        ∀ walk cmd, final.execute world walk cmd = .ok (misconf, final)) ∧
      ∃ first rest outputs memory owed, events = first ++ rest ∧
        Owes world Memory.fresh first outputs memory owed ∧
        ∀ part, part <+: wal.file → ∃ whole tail, whole <+: owed ∧
          part = encodeAll whole ++ tail ∧
          (tail = [] ∨ ∃ next, Torn tail (encode next)) := by
  obtain ⟨replies, server, ran, accounts⟩ := run_accounts world policy events
  obtain ⟨wal, attached, ⟨first, rest, outputs, memory, owed, split, owes,
    shape⟩, noErrors, failed⟩ := accounts.attached
  refine ⟨replies, server, wal, ran, attached, ?_, ?_,
    first, rest, outputs, memory, owed, split, owes, ?_⟩
  · intro walk cmd
    obtain ⟨output, next, stepped, nextAccounts, refused⟩ :=
      accounts.step (.command walk cmd)
    obtain ⟨nextWal, nextAttached, _, nextNoErrors, _⟩ := nextAccounts.attached
    obtain ⟨reply, rfl, executed⟩ := Server.executed_of_step stepped
    refine ⟨reply, next, nextWal, executed, nextAttached, ?_, ?_⟩
    · intro accepted
      have healthy : next.dispatcher.persistenceFailed = false := by
        apply Bool.eq_false_iff.mpr
        intro isFailed
        exact accepted (Option.some.inj (refused walk cmd rfl isFailed))
      obtain ⟨nextOwed, _, nextOwes, isWal, records, file, synced⟩ :=
        nextAccounts.acknowledges healthy
      rw [nextAttached] at isWal
      cases isWal
      exact ⟨nextOwed, nextOwes, records, file, synced⟩
    · intro more
      cases isFailed : next.dispatcher.persistenceFailed with
      | true => exact Option.some.inj (refused walk cmd rfl isFailed)
      | false =>
          have nextZero := nextNoErrors isFailed
          have already : wal.errors ≠ 0 := by omega
          rw [execute_of_failed world walk (failed already) cmd] at executed
          cases executed
          rfl
  · intro errors later
    obtain ⟨more, final, finalRan, same⟩ :=
      run_of_failed world accounts.1 (failed errors) later
    refine ⟨more, final, finalRan, by rw [same, attached], ?_⟩
    intro walk cmd
    exact execute_of_failed world walk (by rw [same]; exact failed errors) cmd
  · intro part cut
    obtain ⟨tail, cutAt, tailShape⟩ := prefix_flatMap (cut.trans shape)
    refine ⟨_, tail, prefix_wholeItems _ _ _, cutAt, ?_⟩
    rcases tailShape with empty | ⟨next, _, _, torn⟩
    · exact .inl empty
    · exact .inr ⟨next, torn⟩

/-- The first reading of the clock is 0, all later ones 1000; writes are short
and interrupted. -/
def lateWorld : World :=
  (World.ideal fun reading => if reading = 0 then 0 else 1000).onDisk
    ⟨fun _ => [.wrote 3, .interrupted], fun _ => true⟩

def setExpiring : Command :=
  [ascii "SET", ascii "k", ascii "v", ascii "px", ascii "100"]

set_option maxRecDepth 4000 in
private theorem run_of_late_get (walk : Walk) :
    (Server.run lateWorld (Server.fresh (some (Wal.fresh .always)))
      ([.command walk setExpiring] ++
        [.command walk [ascii "GET", ascii "k"]])).map
        (fun result => (result.1, result.2.dispatcher.wal.map Wal.records)) =
      .ok ([some (Resp.simple (ascii "OK"))] ++ [some Resp.nullBulk],
        some [[ascii "SET", ascii "k", ascii "v"],
          [ascii "PEXPIREAT", ascii "k", ascii "100"],
          [ascii "DEL", ascii "k"]]) := by
  rfl

/-- A key is set with a deadline and read after it: the reply to the read finds
the two records of the first command in the log, and a `DEL` for the key that the
second one evicted. -/
theorem acknowledged_or_stopped_of_late_get :
    let get := [ascii "GET", ascii "k"]
    let owed := [[ascii "SET", ascii "k", ascii "v"],
      [ascii "PEXPIREAT", ascii "k", ascii "100"], [ascii "DEL", ascii "k"]]
    ∃ server next wal,
      Server.run lateWorld (Server.fresh (some (Wal.fresh .always)))
        [.command .arbitrary setExpiring] =
          .ok ([some (Resp.simple (ascii "OK"))], server) ∧
      server.execute lateWorld .arbitrary get = .ok (Resp.nullBulk, next) ∧
      Owes lateWorld Memory.fresh
        [.command .arbitrary setExpiring, .command .arbitrary get]
        [some (Resp.simple (ascii "OK")), some Resp.nullBulk] next.memory owed ∧
      next.dispatcher.wal = some wal ∧ wal.file = encodeAll owed ∧
      wal.synced = wal.file.length := by
  intro get owed
  obtain ⟨replies, server, _, ran, _, acknowledged, _⟩ :=
    acknowledged_or_stopped lateWorld .always [.command .arbitrary setExpiring]
  obtain ⟨reply, next, wal, executed, attached, accepted, _⟩ :=
    acknowledged .arbitrary get
  have stepped : server.step lateWorld (.command .arbitrary get) =
      .ok (some reply, next) := by
    rw [Server.step, executed]
  have evaluated := run_of_late_get .arbitrary
  rw [Server.run, runAll_concat ran stepped] at evaluated
  obtain ⟨outputs, records⟩ := Prod.mk.inj (Except.ok.inj evaluated)
  obtain ⟨isOk, isNull⟩ := List.append_inj' outputs rfl
  cases isOk
  cases isNull
  obtain ⟨_, owes, isOwed, file, synced⟩ := accepted (by decide)
  have sameRecords : wal.records = owed := by
    rw [attached] at records
    exact Option.some.inj records
  rw [← isOwed, sameRecords] at owes file
  exact ⟨server, next, wal, ran, executed, owes, attached, file, synced rfl⟩

set_option maxRecDepth 4000 in
-- The second append is cut short after three bytes.
example :
    (Server.run
      ((World.frozen 0).onDisk
        ⟨fun call => if call = 1 then [.wrote 3, .failed] else [], fun _ => true⟩)
      (Server.fresh (some (Wal.fresh .always)))
      [.command .arbitrary [ascii "SET", ascii "a", ascii "1"],
      .command .arbitrary [ascii "SET", ascii "b", ascii "2"],
      .command .arbitrary [ascii "GET", ascii "a"]]).map
        (fun result => (result.1, result.2.dispatcher.wal.map Wal.file)) =
      .ok ([some (Resp.simple (ascii "OK")), some misconf, some misconf],
        some (encode [ascii "SET", ascii "a", ascii "1"] ++ ascii "*3\r")) := by
  rfl

end HermitDb.Core
