import HermitDb.Core.Boot
import HermitDb.Core.Reachable

/-!
# Durability from life to life

The process is started again and again on one data directory.  Its lives end in
order, by a kill, or by a crash that leaves any prefix of the log behind what
was synced; in between, start-ups may fail at any of their calls.  No record
that was ever synced is lost, and each start-up continues with leading records
of the life before it.
-/

namespace HermitDb.Core

open Library Persist Protocol Util

/-! ## A server that continues a log -/

/-- The log is attached and continues these records; while nothing has failed
it is clean. -/
def CommandDispatcher.Extends (policy : FsyncPolicy) (base : List Command)
    (floor : Nat) (dispatcher : CommandDispatcher) : Prop :=
  ∃ wal, dispatcher.wal = some wal ∧ wal.policy = policy ∧
    wal.Continues base floor ∧
    (dispatcher.persistenceFailed = false → wal.Clean base)

namespace CommandDispatcher

variable {dispatcher : CommandDispatcher} {policy : FsyncPolicy}
  {base : List Command} {floor : Nat}

theorem append_policy (disk : Disk) {wal : Wal} (isOpen : wal.isOpen = true)
    (command : Command) :
    (wal.append disk command).2.policy = wal.policy := by
  obtain ⟨_, appended⟩ | ⟨_, failed, _⟩ := Wal.append_cases disk isOpen command
  · exact appended.policy
  · exact failed.policy

theorem Extends.attached (extension : dispatcher.Extends policy base floor) :
    ∃ wal, dispatcher.wal = some wal := by
  obtain ⟨wal, attached, _⟩ := extension
  exact ⟨wal, attached⟩

theorem Extends.put (extension : dispatcher.Extends policy base floor)
    (world : World) {record : Command}
    (admissible : Admissible kReplayFrameCap record) :
    (dispatcher.put world record).Extends policy base floor := by
  obtain ⟨wal, attached, samePolicy, continues, clean⟩ := extension
  cases failed : dispatcher.persistenceFailed with
  | true =>
      have unchanged := putAll_of_failed world failed [record]
      rw [putAll, List.foldl_cons, List.foldl_nil] at unchanged
      rw [unchanged]
      exact ⟨wal, attached, samePolicy, continues, clean⟩
  | false =>
      obtain ⟨nextContinues, nextClean⟩ :=
        @Wal.Continues.append world.disk _ _ _ continues (clean failed) _
          admissible
      have nextPolicy := (append_policy world.disk (clean failed).isOpen
        record).trans samePolicy
      unfold CommandDispatcher.put
      simp only [attached, failed, Bool.false_eq_true, if_false]
      split
      · refine ⟨_, rfl, nextPolicy, nextContinues, ?_⟩
        intro healthy
        cases healthy
      · rename_i ok
        exact ⟨_, rfl, nextPolicy, nextContinues,
          fun _ => nextClean (not_not.mp ok)⟩

theorem Extends.putAll (extension : dispatcher.Extends policy base floor)
    (world : World) {records : List Command}
    (admissible : ∀ record ∈ records, Admissible kReplayFrameCap record) :
    (dispatcher.putAll world records).Extends policy base floor := by
  induction records generalizing dispatcher with
  | nil => exact extension
  | cons record records induction =>
      obtain ⟨first, rest⟩ := List.forall_mem_cons.mp admissible
      exact induction (extension.put world first) rest

theorem Extends.tick (extension : dispatcher.Extends policy base floor)
    (world : World) (now : Int64) :
    (dispatcher.tick world now).Extends policy base floor := by
  obtain ⟨wal, attached, samePolicy, continues, clean⟩ := extension
  obtain ⟨next, ticked, ⟨result, _⟩ | ⟨result, _⟩⟩ :=
    tick_cases world attached now
  · rw [result]
    exact ⟨next, rfl, ticked.policy.trans samePolicy, continues.ticked ticked,
      fun healthy => (clean healthy).ticked ticked⟩
  · rw [result]
    exact ⟨next, rfl, ticked.policy.trans samePolicy, continues.ticked ticked,
      nofun⟩

theorem Extends.log (extension : dispatcher.Extends policy base floor)
    (world : World) (reading : Nat) {records : List Command}
    (admissible : ∀ record ∈ records, Admissible kReplayFrameCap record)
    (event : Event) :
    (dispatcher.log world reading records event).Extends policy base floor := by
  cases event with
  | command walk cmd =>
      have noted : (dispatcher.noteShutdown cmd).Extends policy base floor := by
        simpa [CommandDispatcher.Extends] using extension
      exact noted.putAll world admissible
  | activeCycle sampler budgetUs => exact extension.putAll world admissible
  | tickFsync => exact extension.tick world _

end CommandDispatcher

/-- Between two events of a life that started from these records. -/
structure Server.Serves (policy : FsyncPolicy) (base : List Command)
    (floor : Nat) (server : Server) : Prop where
  wf : server.memory.Wf
  extended : server.dispatcher.Extends policy base floor
  keysFit : server.dispatcher.persistenceFailed = false →
    KeysFit server.memory.view

namespace Server

variable {policy : FsyncPolicy} {base : List Command} {floor : Nat}
  {server : Server} {world : World}

theorem Serves.step (serves : server.Serves policy base floor) {event : Event}
    (within : server.LogsWithin world event) :
    ∃ output next, server.step world event = .ok (output, next) ∧
      next.Serves policy base floor := by
  obtain ⟨memory, dispatcher⟩ := server
  obtain ⟨wf, extended, keysFit⟩ := serves
  cases failed : dispatcher.persistenceFailed with
  | true =>
      obtain ⟨output, next, stepped, nextWf, same⟩ :=
        step_of_failed world wf failed event
      refine ⟨output, next, stepped, nextWf, ?_, ?_⟩
      · rw [same]
        exact extended
      · intro healthy
        rw [same, failed] at healthy
        cases healthy
  | false =>
      obtain ⟨reply, after, evicted, own, happens, result⟩ :=
        step_happens world wf event
      obtain ⟨wal, attached⟩ := extended.attached
      have stepped := result world.disk dispatcher wal failed attached
      have fits := keysFit failed
      have loggable := within failed
      have admissible : ∀ record ∈ evicted.map delRecord ++ own,
          Admissible kReplayFrameCap record := by
        rw [List.forall_mem_append]
        exact ⟨happens.advance.evicted_admissible fits,
          (happens.loggable_iff fits).mp loggable⟩
      exact ⟨_, _, stepped, happens.advance.wf,
        extended.log _ memory.clockReads admissible event,
        fun _ => happens.keysFit fits loggable⟩

theorem Serves.run (serves : server.Serves policy base floor)
    {events : List Event}
    (each : EachStep (Server.step world) (Server.LogsWithin world) server
      events) :
    ∃ replies final, server.run world events = .ok (replies, final) ∧
      final.Serves policy base floor :=
  runAll_invariant (fun _ _ served within => served.step within) serves each

theorem records_of_attached {wal : Wal}
    (attached : server.dispatcher.wal = some wal) :
    server.records = wal.records := by
  rw [Server.records, attached]

/-- Every moment of a life can be taken for its start. -/
theorem Serves.rebase (serves : server.Serves policy base floor) {wal : Wal}
    (attached : server.dispatcher.wal = some wal) :
    server.Serves policy wal.records wal.synced := by
  obtain ⟨wf, ⟨other, otherAttached, samePolicy, continues, clean⟩, keysFit⟩ :=
    serves
  rw [attached] at otherAttached
  cases otherAttached
  refine ⟨wf, ⟨wal, attached, samePolicy, ?_, fun healthy => ?_⟩, keysFit⟩
  · exact ⟨List.prefix_refl _, continues.holding, Nat.le_refl _, continues.high⟩
  · exact ⟨(clean healthy).isOpen, (clean healthy).file, fun _ => .inr rfl⟩

/-- Where every append is synced the log is synced as a whole, unless it is as
the start-up found it. -/
theorem Serves.synced (serves : server.Serves policy base floor)
    (always : policy = .always)
    (healthy : server.dispatcher.persistenceFailed = false)
    (added : server.records ≠ base) {wal : Wal}
    (attached : server.dispatcher.wal = some wal) :
    (encodeAll wal.records).length ≤ wal.synced := by
  obtain ⟨other, otherAttached, samePolicy, _, clean⟩ := serves.extended
  rw [attached] at otherAttached
  cases otherAttached
  obtain whole | same := (clean healthy).synced (samePolicy.trans always)
  · rw [whole, (clean healthy).file]
  · exact absurd ((records_of_attached attached).trans same) added

/-- Up to an answer that is not the refusal nothing has failed. -/
theorem Serves.answered (serves : server.Serves policy base floor)
    {first rest : List Event} {walk : Walk} {cmd : Command}
    (each : EachStep (Server.step world) (Server.LogsWithin world) server
      (first ++ .command walk cmd :: rest))
    {outputs : List (Option Bytes)} {reply : Bytes} {next : Server}
    (ran : server.run world (first ++ [.command walk cmd]) =
      .ok (outputs ++ [some reply], next)) (accepted : reply ≠ misconf) :
    next.Serves policy base floor ∧
      next.dispatcher.persistenceFailed = false ∧
      EachStep (Server.step world) (Server.LogsWithin world) next rest := by
  obtain ⟨firstEach, since⟩ := each.append
  obtain ⟨earlier, middle, before, middleServes⟩ := serves.run firstEach
  obtain ⟨within, restEach⟩ := since earlier middle before
  obtain ⟨output, after, stepped, afterServes⟩ := middleServes.step within
  have same := ran.symm.trans (runAll_concat before stepped)
  simp only [Except.ok.injEq, Prod.mk.injEq] at same
  obtain ⟨sameOutputs, rfl⟩ := same
  have isReply := List.head_eq_of_cons_eq (List.append_inj' sameOutputs rfl).2
  obtain ⟨bytes, rfl, executed⟩ := executed_of_step stepped
  cases isReply
  exact ⟨afterServes, execute_healthy middleServes.wf executed accepted,
    restEach _ _ stepped⟩

/-! ## The end of a life -/

/-- What the end leaves of the log of this server: a file from which replay
gets the survivors. -/
structure LeavesBehind (server : Server) (ending : Ending) (remains : Remains)
    (survivors : List Command) : Prop where
  holding : Holding remains.file survivors
  leading : survivors <+: remains.records
  orderly : ending.orderly = true → survivors = remains.records
  durable : wholeItems encode remains.records remains.synced <+: survivors
  grown : server.records <+: remains.records
  synced : ∀ wal, server.dispatcher.wal = some wal → wal.synced ≤ remains.synced
  within : remains.synced ≤ remains.file.length

/-- The log object is gone, and its file is as it was. -/
theorem leavesBehind_ofWal {wal left : Wal} {ending : Ending}
    (attached : server.dispatcher.wal = some wal)
    (continues : left.Continues wal.records wal.synced) :
    server.LeavesBehind ending (.ofWal left) left.records := by
  refine ⟨continues.holding, List.prefix_refl _, fun _ => rfl,
    prefix_wholeItems _ _ _, ?_, ?_, continues.high⟩
  · rw [records_of_attached attached]
    exact continues.base
  · intro other otherAttached
    rw [attached] at otherAttached
    cases otherAttached
    exact continues.low

theorem Serves.remains (serves : server.Serves policy base floor)
    {ending : Ending}
    (each : EachStep (Server.step world) (Server.LogsWithin world) server
      ending.events) :
    ∃ remains survivors, server.remains world ending = .ok remains ∧
      server.LeavesBehind ending remains survivors := by
  obtain ⟨wal, attached⟩ := serves.extended.attached
  have now := serves.rebase attached
  obtain ⟨same, sameAttached, _, continues, _⟩ := now.extended
  rw [attached] at sameAttached
  cases sameAttached
  cases ending with
  | exited =>
      refine ⟨_, _, ?_, leavesBehind_ofWal attached (continues.close world.disk)⟩
      simp only [Server.remains, attached, Option.elim]
  | killed =>
      refine ⟨_, _, ?_, leavesBehind_ofWal attached continues⟩
      simp only [Server.remains, attached, Option.elim]
  | crashed event kept =>
      obtain ⟨output, next, stepped, nextServes⟩ := now.step each.1
      obtain ⟨nextWal, nextAttached, _, nextContinues, _⟩ := nextServes.extended
      obtain ⟨survivors, holding, leading, durable⟩ :=
        nextContinues.holding.take (max wal.synced kept)
      have within : wal.synced ≤
          (nextWal.file.take (max wal.synced kept)).length := by
        have low := nextContinues.low
        have high := nextContinues.high
        rw [List.length_take]
        omega
      refine ⟨⟨nextWal.file.take (max wal.synced kept), wal.synced,
        nextWal.records⟩, survivors, ?_, holding, leading, nofun,
        durable _ within, ?_, ?_, within⟩
      · simp only [Server.remains, stepped, attached, nextAttached, Option.elim]
      · rw [records_of_attached attached]
        exact nextContinues.base
      · intro other otherAttached
        rw [attached] at otherAttached
        cases otherAttached
        exact Nat.le_refl _

/-- What was synced before the end is durable. -/
theorem LeavesBehind.durable_of_serves {ending : Ending} {remains : Remains}
    {survivors : List Command}
    (left : server.LeavesBehind ending remains survivors)
    (serves : server.Serves policy base floor)
    (synced : (encodeAll base).length ≤ floor) :
    base <+: wholeItems encode remains.records remains.synced := by
  obtain ⟨wal, attached, _, continues, _⟩ := serves.extended
  have grown := left.grown
  rw [records_of_attached attached] at grown
  apply prefix_wholeItems_of_fits (continues.base.trans grown)
  calc (encodeAll base).length
      ≤ floor := synced
    _ ≤ wal.synced := continues.low
    _ ≤ remains.synced := left.synced wal attached

end Server

/-! ## Start-up -/

/-- A command that fits a record can be logged. -/
theorem loggable_of_admissible {cmd : Command}
    (admissible : Admissible kReplayFrameCap cmd) (world : World)
    (memory : Memory) : Loggable world memory cmd := by
  refine ⟨?_, fun _ _ _ _ _ => admissible, fun _ _ _ => admissible⟩
  intro key value choice reads _
  obtain ⟨name, args, verb, rfl, listed, reads⟩ := ofCommand_listed reads nofun
  have spelled := Verb.action_spelled verb (name :: args)
  rw [reads] at spelled
  obtain ⟨rfl, _, _, ⟨⟩⟩ := spelled
  exact ⟨admissible.args key (by simp), admissible.args value (by simp)⟩

/-- Commands that fit a record leave none outside the limits. -/
theorem eachStep_of_admissible (world : World) {events : List Event}
    (admissible : ∀ walk cmd, .command walk cmd ∈ events →
      Admissible kReplayFrameCap cmd) (server : Server) :
    EachStep (Server.step world) (Server.LogsWithin world) server events := by
  induction events generalizing server with
  | nil => trivial
  | cons event events induction =>
      refine ⟨fun _ => ?_, fun _ next _ => induction ?_ next⟩
      · cases event with
        | command walk cmd =>
            exact loggable_of_admissible
              (admissible walk cmd List.mem_cons_self) world server.memory
        | activeCycle | tickFsync => trivial
      · intro walk cmd member
        exact admissible walk cmd (List.mem_cons_of_mem _ member)

/-- A server in recovery whose keys all fit a record. -/
structure Server.Replays (server : Server) : Prop where
  wf : server.memory.Wf
  keysFit : KeysFit server.memory.view
  detached : server.dispatcher.wal = none
  healthy : server.dispatcher.persistenceFailed = false

theorem Server.Replays.execute {server : Server} (replays : server.Replays)
    (world : World) (walk : Walk) {record : Command}
    (admissible : Admissible kReplayFrameCap record) :
    ∃ reply next, server.execute world walk record = .ok (reply, next) ∧
      next.Replays := by
  obtain ⟨memory, dispatcher⟩ := server
  obtain ⟨wf, keysFit, detached, healthy⟩ := replays
  obtain ⟨reply, after, evicted, outcome, result⟩ :=
    execute_eq world walk wf record
  have executed := result world.disk dispatcher healthy
  rw [CommandDispatcher.putAll_of_detached _ (by simpa using detached)]
    at executed
  exact ⟨_, _, executed, outcome.wf,
    outcome.keysFit keysFit (loggable_of_admissible admissible world memory),
    by simpa using detached, by simpa using healthy⟩

theorem Server.Replays.recover {server : Server} (replays : server.Replays)
    (world : World) (walk : Walk) {records : List Command}
    (admissible : ∀ record ∈ records, Admissible kReplayFrameCap record) :
    ∃ replies next, server.recover world walk records = .ok (replies, next) ∧
      next.Replays := by
  induction records generalizing server with
  | nil => exact ⟨[], server, rfl, replays⟩
  | cons record records induction =>
      obtain ⟨first, rest⟩ := List.forall_mem_cons.mp admissible
      obtain ⟨reply, middle, executed, middleReplays⟩ :=
        replays.execute world walk first
      obtain ⟨replies, next, recovered, nextReplays⟩ :=
        induction middleReplays rest
      refine ⟨reply :: replies, next, ?_, nextReplays⟩
      rw [Server.recover] at recovered ⊢
      rw [runAll_cons executed, recovered]

/-- Recovery is over, and the log is opened behind the records. -/
theorem Server.Replays.setWal {server : Server} (replays : server.Replays)
    (policy : FsyncPolicy) {records : List Command} {synced : Nat}
    (admissible : ∀ record ∈ records, Admissible kReplayFrameCap record)
    (within : synced ≤ (encodeAll records).length) :
    (server.setWal (Wal.opened policy (encodeAll records) synced
      records)).Serves policy records synced :=
  ⟨replays.wf, ⟨_, rfl, rfl, Wal.opened_continues policy admissible within,
    fun _ => Wal.opened_clean policy synced⟩, fun _ => replays.keysFit⟩

/-- No command read from a log makes recovery fault. -/
theorem recover_total (world : World) (walk : Walk) {server : Server}
    (wf : server.memory.Wf) (records : List Command) :
    ∃ replies next, server.recover world walk records = .ok (replies, next) := by
  obtain ⟨replies, next, recovered, _⟩ := runAll_invariant
    (fun (state : Server) (record : Command) (stateWf : state.memory.Wf)
      (_ : True) => execute_total world walk stateWf record)
    wf (eachStep_true server records)
  exact ⟨replies, next, recovered⟩

/-- Every call of the start-up succeeds. -/
structure BootCalls.Succeed (calls : BootCalls) : Prop where
  creates : calls.creates = true
  finds : calls.finds = true
  reads : .failed ∉ calls.reads
  truncates : calls.truncates = true
  opens : calls.opens = true

/-- The reads deliver the file up to its end, or one of them fails. -/
def ReadsFrom (file : Bytes) (reads : List ReadOutcome) : Prop :=
  (∃ chunks, Delivers reads chunks ∧ chunks.flatten = file) ∨
    ∃ good chunks rest, Delivers good chunks ∧ reads = good ++ .failed :: rest

/-- A directory in which start-up finds these records. -/
structure DataDir.Keeps (snapshot : LogFile) (records : List Command)
    (dir : DataDir) : Prop where
  snapshot : dir.snapshot = snapshot
  readable : dir.log ≠ .unreadable
  holding : Holding dir.log.bytes records
  synced : dir.synced ≤ dir.log.bytes.length

/-- Those of the records that are wholly synced. -/
def DataDir.durable (dir : DataDir) (records : List Command) : List Command :=
  wholeItems encode records dir.synced

namespace DataDir

variable {dir : DataDir} {snapshot : LogFile} {records : List Command}

theorem fresh_keeps (snapshot : LogFile) :
    (fresh snapshot).Keeps snapshot [] :=
  ⟨rfl, nofun, Holding.whole (List.forall_mem_nil _), Nat.le_refl _⟩

/-- The directory once replay has cut the log back. -/
theorem Keeps.setLog (keeps : dir.Keeps snapshot records) {file : LogFile}
    (readable : file ≠ .unreadable) (bytes : file.bytes = encodeAll records) :
    (dir.setLog file).Keeps snapshot records ∧
      (dir.setLog file).durable records = dir.durable records := by
  refine ⟨⟨keeps.snapshot, readable, ?_, Nat.min_le_right _ _⟩, ?_⟩
  · change Holding file.bytes records
    rw [bytes]
    exact Holding.whole keeps.holding.admissible
  · change wholeItems encode records (min dir.synced file.bytes.length) = _
    rw [bytes]
    exact wholeItems_min encode records dir.synced

theorem Keeps.setLog_self (keeps : dir.Keeps snapshot records) :
    dir.setLog dir.log = dir := by
  obtain ⟨snapshot, log, synced⟩ := dir
  exact congrArg (DataDir.mk snapshot log) (Nat.min_eq_left keeps.synced)

/-- Replay finds the records and leaves just them, or it reports an error and
leaves the file alone. -/
theorem Keeps.replay (keeps : dir.Keeps snapshot records)
    {reads : List ReadOutcome} (readsFrom : ReadsFrom dir.log.bytes reads)
    (truncates : Bool) :
    let found := Persist.replay dir.log reads truncates
    (found.status = .ok ∧ found.delivered = records ∧
        found.file ≠ .unreadable ∧ found.file.bytes = encodeAll records) ∨
      (found.status ≠ .ok ∧ found.file = dir.log ∧
        (truncates = false ∨ .failed ∈ reads)) := by
  obtain ⟨_, readable, holding, _⟩ := keeps
  cases log : dir.log with
  | missing =>
      rw [log] at holding
      obtain ⟨written, _, _, rfl⟩ := holding
      have nothing : wholeItems encode written 0 = [] := by
        have length := length_wholeItems_le encode written 0
        cases whole : wholeItems encode written 0 with
        | nil => rfl
        | cons record rest =>
            rw [whole] at length
            simp [encode, ascii, crlf] at length
      refine .inl ⟨rfl, nothing.symm, by simp [Persist.replay], ?_⟩
      change [] = encodeAll (wholeItems encode written 0)
      rw [nothing]
      rfl
  | unreadable => exact absurd log readable
  | present file =>
      rw [log] at holding readsFrom
      obtain ⟨chunks, delivers, whole⟩ | ⟨good, chunks, rest, delivers, rfl⟩ :=
        readsFrom
      · obtain replayed | ⟨fails, delivered, replayed⟩ :=
          holding.replay_cases delivers whole truncates
        · intro found
          rw [show found = _ from replayed]
          exact .inl ⟨rfl, rfl, by simp, rfl⟩
        · intro found
          rw [show found = _ from replayed]
          exact .inr ⟨by simp, rfl, .inl fails⟩
      · obtain ⟨notOk, sameFile⟩ := replay_of_failed file delivers truncates
        exact .inr ⟨notOk, sameFile, .inr (by simp)⟩

end DataDir

/-- The snapshot, if there is one, is accepted; it has no list without elements
in the place of a value, and no key that is too long for a record. -/
def Baseline (order : ByteOrder) (cfg : Config) (snapshot : LogFile) : Prop :=
  ∃ tables, startTables order cfg.snapshotPath snapshot = .ok tables ∧
    (Server.booted tables).memory.Wf ∧
    KeysFit (Server.booted tables).memory.view

section Start

variable {order : ByteOrder} {cfg : Config} {policy : FsyncPolicy}
  {snapshot : LogFile} {records : List Command} {dir : DataDir}

/-- A start-up with the records it finds, or a failed one.  Neither loses
anything. -/
theorem boot_cases (persistent : cfg.persistence = some policy)
    (baseline : Baseline order cfg snapshot) (world : World) (walk : Walk)
    {calls : BootCalls} (keeps : dir.Keeps snapshot records)
    (readsFrom : ReadsFrom dir.log.bytes calls.reads) :
    ∃ outcome next, boot order cfg world walk calls dir = .ok (outcome, next) ∧
      next.Keeps snapshot records ∧
      next.durable records = dir.durable records ∧
      ((¬ calls.Succeed ∧ ∃ error, outcome = .error error) ∨
        ∃ booted, outcome = .ok booted ∧ booted.records = records ∧
          booted.Serves policy records next.synced) := by
  obtain ⟨tables, loaded, wf, keysFit⟩ := baseline
  have replays : (Server.booted tables).Replays := ⟨wf, keysFit, rfl, rfl⟩
  simp only [boot, persistent, keeps.snapshot, loaded]
  cases creates : calls.creates with
  | false =>
      refine ⟨_, dir, rfl, keeps, rfl, .inl ⟨?_, _, rfl⟩⟩
      intro succeed
      rw [succeed.creates] at creates
      cases creates
  | true =>
      cases finds : calls.finds with
      | false =>
          obtain ⟨replies, next, recovered⟩ := recover_total world walk wf []
          refine ⟨.error .replay, dir, ?_, keeps, rfl, .inl ⟨?_, _, rfl⟩⟩
          · simp only [Bool.not_true, Bool.false_eq_true, if_false,
              Persist.replay, recovered]
            rfl
          · intro succeed
            rw [succeed.finds] at finds
            cases finds
      | true =>
          simp only [Bool.not_true, Bool.false_eq_true, if_false, if_true]
          have replayed := keeps.replay readsFrom calls.truncates
          revert replayed
          generalize Persist.replay dir.log calls.reads calls.truncates = found
          rintro (⟨ok, delivered, readable, bytes⟩ | ⟨notOk, same, because⟩)
          · obtain ⟨cutKeeps, cutDurable⟩ := keeps.setLog readable bytes
            obtain ⟨replies, server, recovered, serverReplays⟩ :=
              replays.recover world walk keeps.holding.admissible
            rw [delivered, recovered, ok]
            simp only [reduceCtorEq, if_false, ne_eq, not_true]
            cases opens : calls.opens with
            | false =>
                refine ⟨_, _, rfl, cutKeeps, cutDurable, .inl ⟨?_, _, rfl⟩⟩
                intro succeed
                rw [succeed.opens] at opens
                cases opens
            | true =>
                have present : LogFile.present (dir.setLog found.file).log.bytes ≠
                    .unreadable := by simp
                obtain ⟨openKeeps, openDurable⟩ :=
                  cutKeeps.setLog present bytes
                have sameSynced : (dir.setLog found.file).synced =
                    ((dir.setLog found.file).setLog
                      (.present (dir.setLog found.file).log.bytes)).synced :=
                  (Nat.min_eq_left cutKeeps.synced).symm
                have within := cutKeeps.synced
                change _ ≤ found.file.bytes.length at within
                refine ⟨_, _, rfl, openKeeps, openDurable.trans cutDurable,
                  .inr ⟨_, rfl, rfl, ?_⟩⟩
                rw [← sameSynced]
                change (server.setWal (Wal.opened policy found.file.bytes _
                  records)).Serves policy records _
                rw [bytes] at within ⊢
                exact serverReplays.setWal policy keeps.holding.admissible within
          · obtain ⟨replies, server, recovered⟩ :=
              recover_total world walk wf found.delivered
            rw [recovered, same, keeps.setLog_self]
            have failed : ¬ calls.Succeed := by
              intro succeed
              rcases because with notCut | unread
              · rw [succeed.truncates] at notCut
                cases notCut
              · exact succeed.reads unread
            simp only
            split
            · exact ⟨_, dir, rfl, keeps, rfl, .inl ⟨failed, _, rfl⟩⟩
            · exact ⟨_, dir, rfl, keeps, rfl, .inl ⟨failed, _, rfl⟩⟩

end Start

/-! ## One life -/

/-- The reads are of the log, and no event leaves a record outside the
limits. -/
structure Life.Sound (order : ByteOrder) (cfg : Config) (dir : DataDir)
    (life : Life) : Prop where
  reads : ReadsFrom dir.log.bytes life.calls.reads
  loggable : ∀ booted after,
    boot order cfg life.recovery life.walk life.calls dir =
      .ok (.ok booted, after) →
    EachStep (Server.step life.world) (Server.LogsWithin life.world) booted
      (life.events ++ life.ending.events)

/-- The records of a life only get more.  If every append is synced and nothing
has failed, those of all finished events are durable as soon as there is one
that this life has added. -/
structure Chapter.Sound (policy : FsyncPolicy) (chapter : Chapter) : Prop where
  continues : chapter.replayed <+: chapter.final.records
  grown : chapter.final.records <+: chapter.logged
  synced : policy = .always →
    chapter.final.dispatcher.persistenceFailed = false →
    chapter.final.records ≠ chapter.replayed →
    chapter.final.records <+: chapter.durable

/-- The server as it was when a command of this life had been answered, and not
with the refusal. -/
def Life.Acknowledged (life : Life) (booted server : Server) : Prop :=
  ∃ first walk cmd rest outputs reply,
    life.events = first ++ .command walk cmd :: rest ∧
    booted.run life.world (first ++ [.command walk cmd]) =
      .ok (outputs ++ [some reply], server) ∧
    reply ≠ misconf

/-- Whatever fails afterwards, what was logged up to an answer is durable as
soon as there is a record that this life has added. -/
def Life.Durable (life : Life) (chapter : Chapter) : Prop :=
  ∀ server, life.Acknowledged chapter.booted server →
    server.records ≠ chapter.replayed → server.records <+: chapter.durable

section OneLife

variable {order : ByteOrder} {cfg : Config} {policy : FsyncPolicy}
  {snapshot : LogFile} {records : List Command} {floor : Nat} {dir : DataDir}
  {life : Life}

/-- The log is synced when an answer is given, and only gets longer. -/
theorem durable_of_acknowledged {booted final : Server}
    {replies : List (Option Bytes)} {remains : Remains}
    {survivors : List Command}
    (serves : booted.Serves .always booted.records floor)
    (each : EachStep (Server.step life.world) (Server.LogsWithin life.world)
      booted life.events)
    (ran : booted.run life.world life.events = .ok (replies, final))
    (left : final.LeavesBehind life.ending remains survivors) :
    life.Durable ⟨booted, final, life.ending, remains⟩ := by
  rintro server ⟨first, walk, cmd, rest, outputs, reply, isEvents, answered,
    accepted⟩ added
  rw [isEvents] at each ran
  obtain ⟨atAnswer, healthy, restEach⟩ :=
    serves.answered each answered accepted
  obtain ⟨wal, attached⟩ := atAnswer.extended.attached
  have synced := atAnswer.synced rfl healthy added attached
  -- From here on the records up to the answer are what the life continues.
  obtain ⟨more, other, since, otherServes⟩ :=
    (atAnswer.rebase attached).run restEach
  have isFinal : other = final := by
    rw [← List.singleton_append, ← List.append_assoc, Server.run,
      runAll_append answered, show runAll _ server rest = _ from since] at ran
    simp only [Except.ok.injEq, Prod.mk.injEq] at ran
    exact ran.2
  rw [isFinal] at otherServes
  rw [Server.records_of_attached attached]
  exact left.durable_of_serves otherServes synced

/-- A life goes on from the records its start-up finds, and leaves a directory
with leading records of its own, the durable ones among them. -/
theorem live_cases (persistent : cfg.persistence = some policy)
    (baseline : Baseline order cfg snapshot)
    (keeps : dir.Keeps snapshot records) (sound : life.Sound order cfg dir) :
    ∃ outcome next, live order cfg dir life = .ok (outcome, next) ∧
      ((¬ life.calls.Succeed ∧ (∃ error, outcome = .error error) ∧
          next.Keeps snapshot records ∧
          next.durable records = dir.durable records) ∨
        ∃ chapter survivors, outcome = .ok chapter ∧
          (chapter.Sound policy ∧ (policy = .always → life.Durable chapter)) ∧
          chapter.replayed = records ∧
          dir.durable records <+: chapter.durable ∧
          next.Keeps snapshot survivors ∧
          next.durable survivors = chapter.durable ∧
          survivors <+: chapter.logged ∧
          (chapter.ending.orderly = true → survivors = chapter.logged)) := by
  obtain ⟨outcome, after, booting, afterKeeps, sameDurable, started⟩ :=
    boot_cases persistent baseline life.recovery life.walk keeps sound.reads
  obtain ⟨failed, error, rfl⟩ | ⟨booted, rfl, replayed, serves⟩ := started
  · refine ⟨_, after, by rw [live, booting], .inl ?_⟩
    exact ⟨failed, ⟨error, rfl⟩, afterKeeps, sameDurable⟩
  · obtain ⟨eventsEach, endingEach⟩ :=
      (sound.loggable booted after booting).append
    obtain ⟨replies, final, ran, finalServes⟩ := serves.run eventsEach
    obtain ⟨remains, survivors, ended, left⟩ :=
      finalServes.remains (endingEach _ _ ran)
    obtain ⟨wal, attached, _, continues, _⟩ := finalServes.extended
    have finalRecords := Server.records_of_attached attached
    have synced := left.synced wal attached
    have grown : records <+: remains.records := by
      apply continues.base.trans
      rw [← finalRecords]
      exact left.grown
    have lived : live order cfg dir life =
        .ok (.ok ⟨booted, final, life.ending, remains⟩,
          { after with
            log := .present remains.file
            synced := remains.synced }) := by
      simp only [live, booting, ran, ended, persistent, reduceCtorEq, if_false]
    refine ⟨_, _, lived, .inr ⟨_, survivors, rfl, ?_, replayed, ?_, ?_, ?_,
      left.leading, left.orderly⟩⟩
    · refine ⟨⟨?_, left.grown, ?_⟩, ?_⟩
      · change booted.records <+: final.records
        rw [replayed, finalRecords]
        exact continues.base
      · intro always healthy added
        change final.records ≠ booted.records at added
        rw [replayed] at added
        have whole := finalServes.synced always healthy added attached
        have kept :=
          left.durable_of_serves (finalServes.rebase attached) whole
        rw [← finalRecords] at kept
        exact kept
      · rintro rfl
        rw [← replayed] at serves
        exact durable_of_acknowledged serves eventsEach ran left
    · rw [← sameDurable]
      apply prefix_wholeItems_of_fits ((prefix_wholeItems _ _ _).trans grown)
      exact Nat.le_trans (length_wholeItems_le _ _ _)
        (Nat.le_trans continues.low synced)
    · exact ⟨afterKeeps.snapshot, by simp, left.holding, left.within⟩
    · exact wholeItems_of_prefix left.leading left.durable

end OneLife

/-! ## All lives -/

/-- A life and the next one that gets past its start-up. -/
structure Chapter.Precedes (earlier later : Chapter) : Prop where
  replayed : later.replayed <+: earlier.logged
  orderly : earlier.ending.orderly = true → later.replayed = earlier.logged

/-- What becomes of the records of a life in a later one. -/
structure Chapter.Outlives (policy : FsyncPolicy) (earlier later : Chapter) :
    Prop where
  durable : earlier.durable <+: later.replayed
  still : earlier.durable <+: later.durable
  acknowledged : policy = .always →
    earlier.final.dispatcher.persistenceFailed = false →
    earlier.final.records ≠ earlier.replayed →
    earlier.final.records <+: later.replayed

/-- What the last life, if there was one, has to do with what the directory
holds now. -/
def LeftBy (snapshot : LogFile) (last : Option Chapter) (dir : DataDir) : Prop :=
  ∃ records, dir.Keeps snapshot records ∧ ∀ chapter ∈ last,
    records <+: chapter.logged ∧
    (chapter.ending.orderly = true → records = chapter.logged) ∧
    dir.durable records = chapter.durable

/-- A start-up whose calls all succeed succeeds; a life that got past its
start-up is sound, and if every append is synced, so is what its answers rest
on. -/
def Life.Yields (policy : FsyncPolicy) (life : Life)
    (outcome : Except BootError Chapter) : Prop :=
  (life.calls.Succeed → ∃ chapter, outcome = .ok chapter) ∧
    ∀ chapter, outcome = .ok chapter →
      chapter.Sound policy ∧ (policy = .always → life.Durable chapter)

theorem LeftBy.live {order : ByteOrder} {cfg : Config} {policy : FsyncPolicy}
    {snapshot : LogFile} {last : Option Chapter} {dir : DataDir} {life : Life}
    (persistent : cfg.persistence = some policy)
    (baseline : Baseline order cfg snapshot)
    (left : LeftBy snapshot last dir) (sound : life.Sound order cfg dir) :
    ∃ outcome next, Core.live order cfg dir life = .ok (outcome, next) ∧
      life.Yields policy outcome ∧
      (∀ later ∈ outcome.toOption, ∀ earlier ∈ last,
        earlier.Precedes later ∧ earlier.durable <+: later.replayed ∧
          earlier.durable <+: later.durable) ∧
      LeftBy snapshot (outcome.toOption.or last) next := by
  obtain ⟨records, keeps, fromLast⟩ := left
  obtain ⟨outcome, next, lived,
    ⟨failed, ⟨error, rfl⟩, nextKeeps, sameDurable⟩ |
    ⟨chapter, survivors, rfl, chapterSound, replayed, longer, nextKeeps,
      durable, leading, orderly⟩⟩ :=
    live_cases persistent baseline keeps sound
  · refine ⟨_, next, lived, ⟨fun succeed => absurd succeed failed, ?_⟩, ?_,
      records, nextKeeps, ?_⟩
    · rintro chapter ⟨⟩
    · rintro later ⟨⟩
    · intro earlier isLast
      rw [sameDurable]
      exact fromLast earlier isLast
  · refine ⟨_, next, lived, ⟨fun _ => ⟨chapter, rfl⟩, ?_⟩, ?_, survivors,
      nextKeeps, ?_⟩
    · rintro other ⟨⟩
      exact chapterSound
    · rintro other ⟨⟩ earlier isLast
      obtain ⟨recordsLogged, recordsOrderly, recordsDurable⟩ :=
        fromLast earlier isLast
      rw [← recordsDurable, replayed]
      refine ⟨⟨?_, ?_⟩, prefix_wholeItems _ _ _, longer⟩
      · rw [replayed]
        exact recordsLogged
      · rw [replayed]
        exact recordsOrderly
    · rintro other ⟨⟩
      exact ⟨leading, orderly, durable⟩

theorem sound_of_yields {policy : FsyncPolicy} {lives : List Life}
    {outcomes : List (Except BootError Chapter)}
    (yields : List.Forall₂ (Life.Yields policy) lives outcomes) :
    ∀ chapter ∈ outcomes.filterMap Except.toOption, chapter.Sound policy := by
  induction yields with
  | nil => exact List.forall_mem_nil _
  | @cons life outcome lives outcomes first rest induction =>
      cases outcome with
      | error error => exact induction
      | ok chapter =>
          exact List.forall_mem_cons.mpr ⟨(first.2 chapter rfl).1, induction⟩

/-- Along a chain of lives nothing durable gets lost. -/
theorem pairwise_durable {chapters : List Chapter}
    (chain : chapters.IsChain fun earlier later =>
      earlier.durable <+: later.replayed ∧ earlier.durable <+: later.durable) :
    chapters.Pairwise fun earlier later =>
      earlier.durable <+: later.replayed ∧
        earlier.durable <+: later.durable := by
  have transitive : IsTrans Chapter fun earlier later =>
      earlier.durable <+: later.replayed ∧
        earlier.durable <+: later.durable := by
    constructor
    intro first second third firstSecond secondThird
    exact ⟨firstSecond.2.trans secondThird.1, firstSecond.2.trans secondThird.2⟩
  exact chain.pairwise

/-- Durability across restarts.  Whatever calls fail and wherever a life ends,
each life continues with leading records of the one before it, with all of them
unless that one crashed; and records that are synced, those of the answered
commands among them if every append is synced, are there in all later lives. -/
theorem synced_records_survive (order : ByteOrder) {cfg : Config}
    {policy : FsyncPolicy} {snapshot : LogFile} {lives : List Life}
    (persistent : cfg.persistence = some policy)
    (baseline : Baseline order cfg snapshot)
    (each : EachStep (live order cfg) (fun dir life => life.Sound order cfg dir)
      (DataDir.fresh snapshot) lives) :
    ∃ outcomes dir,
      runAll (live order cfg) (DataDir.fresh snapshot) lives =
        .ok (outcomes, dir) ∧
      List.Forall₂ (Life.Yields policy) lives outcomes ∧
      (outcomes.filterMap Except.toOption).IsChain Chapter.Precedes ∧
      (outcomes.filterMap Except.toOption).Pairwise
        (Chapter.Outlives policy) := by
  have initial : LeftBy snapshot none (DataDir.fresh snapshot) := by
    refine ⟨[], DataDir.fresh_keeps snapshot, ?_⟩
    rintro chapter ⟨⟩
  obtain ⟨outcomes, dir, ran, yields, chain⟩ :=
    runAll_chain (fun _ _ _ left sound => left.live persistent baseline sound)
      initial each
  refine ⟨outcomes, dir, ran, yields, ?_, ?_⟩
  · exact chain.imp fun _ _ linked => linked.1
  · have sound := sound_of_yields yields
    have durable := pairwise_durable (chain.imp fun _ _ linked => linked.2)
    refine durable.imp_of_mem ?_
    intro earlier later isEarlier _ kept
    refine ⟨kept.1, kept.2, ?_⟩
    intro always healthy added
    exact ((sound earlier isEarlier).synced always healthy added).trans kept.1

/-- Nothing fails at start-up. -/
def BootCalls.working (reads : List ReadOutcome) : BootCalls :=
  ⟨true, true, reads, true, true⟩

/-- A `SET`, and a crash three bytes into the record of the `DEL` after it. -/
def Life.crashing (walk : Walk) : Life :=
  { recovery := .frozen 0
    walk := walk
    calls := .working []
    world := .frozen 0
    events := [.command walk [ascii "SET", ascii "k", ascii "v"]]
    ending := .crashed (.command walk [ascii "DEL", ascii "k"]) 30 }

set_option maxRecDepth 4000 in
private theorem log_of_crashing (walk : Walk) :
    (live .little
      { Config.initial with walEnabled := true, fsync := some .always }
      (DataDir.fresh .missing) (.crashing walk)).map
        (fun result => result.2.log) =
      .ok (.present (encode [ascii "SET", ascii "k", ascii "v"] ++
        ascii "*2\r")) := by
  rfl

/-- The start after the crash drops the torn record. -/
theorem synced_records_survive_crashing :
    let cfg : Config :=
      { Config.initial with walEnabled := true, fsync := some .always }
    let left := encode [ascii "SET", ascii "k", ascii "v"] ++ ascii "*2\r"
    let restarted : Life :=
      ⟨.frozen 0, .arbitrary, .working [.data left], .frozen 0, [], .killed⟩
    let lives := [.crashing .arbitrary, restarted]
    (∀ life ∈ lives, life.calls.Succeed) ∧ ∃ outcomes dir,
      runAll (live .little cfg) (DataDir.fresh .missing) lives =
        .ok (outcomes, dir) ∧
      List.Forall₂ (Life.Yields .always) lives outcomes ∧
      (outcomes.filterMap Except.toOption).IsChain Chapter.Precedes ∧
      (outcomes.filterMap Except.toOption).Pairwise
        (Chapter.Outlives .always) := by
  intro cfg left restarted lives
  have fits : ∀ walk cmd, Event.command walk cmd ∈
      (Life.crashing .arbitrary).events ++
        (Life.crashing .arbitrary).ending.events →
      Admissible kReplayFrameCap cmd := by
    simp only [Life.crashing, Ending.events, List.cons_append, List.nil_append,
      List.mem_cons, Event.command.injEq, List.not_mem_nil, or_false]
    rintro walk cmd (⟨_, rfl⟩ | ⟨_, rfl⟩)
    · exact ⟨by decide, by decide, by decide⟩
    · exact ⟨by decide, by decide, by decide⟩
  refine ⟨?_, synced_records_survive .little rfl ?_ ⟨?_, ?_⟩⟩
  · simp only [lives, List.forall_mem_cons]
    exact ⟨⟨rfl, rfl, by decide, rfl, rfl⟩, ⟨rfl, rfl, by decide, rfl, rfl⟩,
      List.forall_mem_nil _⟩
  · refine ⟨.empty, rfl, Memory.fresh_wf, ?_⟩
    intro key present
    exact absurd rfl present
  · refine ⟨.inl ⟨[], .nil, rfl⟩, ?_⟩
    intro booted after _
    exact eachStep_of_admissible (.frozen 0) fits booted
  · intro outcome next lived
    have observed := log_of_crashing .arbitrary
    rw [lived] at observed
    refine ⟨⟨.inl ⟨[left], .data (by decide) .nil, ?_⟩, ?_⟩,
      fun _ _ _ => trivial⟩
    · rw [show next.log = _ from Except.ok.inj observed]
      rfl
    · intro booted after _
      trivial

end HermitDb.Core
