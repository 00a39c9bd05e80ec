import HermitDb.Core.RecordLimits

/-!
# Crashing between records

A crash leaves a byte prefix of the log.  Recovery from it reaches a state the
live server went through, unless the cut falls between the two records of a
`SET` with a deadline.
-/

namespace HermitDb.Core

open Library Persist Protocol

/-! ## The states of a run -/

/-- The records `log_mutation` owes for the event, given the state it left and
the reply. -/
def Event.own (next : Server) (output : Option Bytes) : Event → List Command
  | .command _ cmd =>
      match output with
      | some reply => commandRecords next.memory.expiry cmd reply
      | none => []
  | _ => []

/-- A keyspace the server goes through, where a step is one executed command or
one eviction.  The evict hook logs each key as it goes, before `log_mutation`
runs, so the log of a disk that never fails tells which keys went first. -/
inductive Stage (world : World) : Server → List Event → Keyspace → Prop where
  | reached (server : Server) (events : List Event) :
      Stage world server events server.memory.view
  | evicted {server next : Server} {event : Event} {output : Option Bytes}
      {gone : List Bytes}
      (stepped : server.step (world.onDisk .ideal) event = .ok (output, next))
      (logged : next.records =
        server.records ++ (gone.map delRecord ++ event.own next output))
      (count : Nat) (events : List Event) :
      Stage world server (event :: events)
        (server.memory.view.without (gone.take count))
  | later {server next : Server} {event : Event} {output : Option Bytes}
      {events : List Event} {keyspace : Keyspace}
      (stepped : server.step world event = .ok (output, next))
      (rest : Stage world next events keyspace) :
      Stage world server (event :: events) keyspace

/-- A `SET` with a deadline takes effect and changes more than the deadline. -/
def Event.Splits (world : World) (memory : Memory) : Event → Prop
  | .command _ cmd => ∃ key value choice,
      Action.ofCommand wrap64 cmd = .onKey key (.set value choice) ∧
      choice.expireMs.isSome = true ∧
      (KeyOp.set value choice).Granted (memory.held world key) ∧
      memory.held world key ≠ some ⟨.string value, none⟩
  | _ => False

/-- Unless the latch is set, the event is recovered whole or not at all. -/
def Server.LogsWhole (world : World) (server : Server) (event : Event) : Prop :=
  server.LogsWithin world event ∧
    (server.dispatcher.persistenceFailed = false →
      ¬ event.Splits world server.memory)

theorem Stage.extend {world : World} {server : Server} {events : List Event}
    {keyspace : Keyspace} (stage : Stage world server events keyspace)
    (more : List Event) : Stage world server (events ++ more) keyspace := by
  induction stage with
  | reached server events => exact .reached server (events ++ more)
  | evicted stepped logged count events =>
      exact .evicted stepped logged count (events ++ more)
  | later stepped rest induction => exact .later stepped induction

/-- One event: the state before it, less some evicted keys, or the state after
it. -/
theorem Stage.of_single {world : World} {server : Server} {event : Event}
    {keyspace : Keyspace} (stage : Stage world server [event] keyspace) :
    (∃ gone, keyspace = server.memory.view.without gone) ∨
      ∃ output next, server.step world event = .ok (output, next) ∧
        keyspace = next.memory.view := by
  cases stage with
  | reached => exact .inl ⟨[], (TimedMap.without_nil _).symm⟩
  | evicted stepped logged count => exact .inl ⟨_, rfl⟩
  | later stepped rest =>
      cases rest
      exact .inr ⟨_, _, stepped, rfl⟩

/-! ## Prefixes of what an event logs -/

theorem prefix_append_cases {Item : Type} {part first second : List Item}
    (cut : part <+: first ++ second) :
    part <+: first ∨ ∃ rest, rest <+: second ∧ part = first ++ rest := by
  rcases List.prefix_or_prefix_of_prefix cut (List.prefix_append first second)
    with short | ⟨rest, rfl⟩
  · exact .inl short
  · exact .inr ⟨rest, (List.prefix_append_right_inj first).mp cut, rfl⟩

section Step

variable {world : World} {before after : Memory} {event : Event}
  {reply : Option Reply} {evicted : List Bytes} {own records : List Command}

/-- Cut anywhere, the records of a change stand for nothing or for all of it,
unless they set a value and then its deadline. -/
theorem Logs.cut {now : Int} {keyspace changed : Keyspace} {action : Action}
    (logs : Logs now keyspace action changed own) {part : List Command}
    (isCut : part <+: own) :
    part = [] ∨ part = own ∨ ∃ key value choice,
      action = .onKey key (.set value choice) ∧
      choice.expireMs.isSome = true ∧ part = [setRecord key value] := by
  have single : ∀ record : Command, part <+: [record] →
      part = [] ∨ part = [record] := by
    intro record short
    rcases List.prefix_cons_iff.mp short with empty | ⟨rest, whole, shorter⟩
    · exact .inl empty
    · rw [List.prefix_nil.mp shorter] at whole
      exact .inr whole
  cases logs with
  | nothing => exact .inl (List.prefix_nil.mp isCut)
  | setExpiring key value atMs asked =>
      obtain ⟨choice, isSet, expiring⟩ := asked
      rcases List.prefix_cons_iff.mp isCut with empty | ⟨rest, rfl, shorter⟩
      · exact .inl empty
      · rcases List.prefix_cons_iff.mp shorter with rfl | ⟨tail, rfl, none⟩
        · exact .inr (.inr ⟨key, value, choice, isSet, expiring, rfl⟩)
        · rw [List.prefix_nil.mp none]
          exact .inr (.inl rfl)
  | set | arm | remove | disarm | verbatim =>
      rcases single _ isCut with empty | whole
      · exact .inl empty
      · exact .inr (.inl whole)

/-- In the cut that splits a `SET`, the key already had the value. -/
theorem Outcome.cut {cmd : Command} {reply : Reply} {walk : Walk}
    (outcome : Outcome world before (Action.ofCommand wrap64 cmd) reply after
      evicted)
    (whole : ¬ (Event.command walk cmd).Splits world before)
    {part : List Command}
    (isCut : part <+: commandRecords after.expiry cmd reply.encode)
    (reproduced : Reproduced (before.view.without evicted) records) :
    Reproduced (before.view.without evicted) (records ++ part) ∨
      part = commandRecords after.expiry cmd reply.encode := by
  rcases outcome.logs.cut isCut with rfl | complete |
    ⟨key, value, choice, reads, expiring, rfl⟩
  · rw [List.append_nil]
    exact .inl reproduced
  · exact .inr complete
  · rw [reads] at outcome
    obtain ⟨granted, _⟩ | ⟨_, nothing⟩ := outcome.set_records reads
    · have already : before.held world key = some ⟨.string value, none⟩ := by
        by_contra changes
        exact whole ⟨key, value, choice, reads, expiring, granted, changes⟩
      have logs : Logs 0 (before.view.without evicted)
          (.onKey key (.set value choice))
          (Function.update (before.view.without evicted) key
            (some ⟨.string value, none⟩)) [setRecord key value] :=
        .set key value ⟨choice, rfl⟩
      rw [← already, ← outcome.held_eq, Function.update_eq_self] at logs
      exact .inl (reproduced.change logs)
    · rw [nothing] at isCut
      cases List.prefix_nil.mp isCut

theorem Happens.cut
    (happens : Happens world before event reply after evicted own)
    (whole : ¬ event.Splits world before)
    (reproduced : Reproduced before.view records) {part : List Command}
    (isCut : part <+: evicted.map delRecord ++ own) :
    (∃ count, Reproduced (before.view.without (evicted.take count))
        (records ++ part)) ∨ part = evicted.map delRecord ++ own := by
  rcases prefix_append_cases isCut with short | ⟨rest, restCut, rfl⟩
  · obtain ⟨count, rfl⟩ : ∃ count, part = (evicted.take count).map delRecord := by
      refine ⟨part.length, ?_⟩
      rw [List.map_take]
      exact List.prefix_iff_eq_take.mp short
    exact .inl ⟨count, reproduced.evictions (evicted.take count)⟩
  · cases happens with
    | command outcome =>
        rcases outcome.cut whole restCut (reproduced.evictions evicted) with
          again | rfl
        · refine .inl ⟨evicted.length, ?_⟩
          rw [List.take_length, ← List.append_assoc]
          exact again
        · exact .inr rfl
    | activeCycle | tickFsync =>
        rw [List.prefix_nil.mp restCut]
        exact .inr rfl

theorem Happens.own_eq
    (happens : Happens world before event reply after evicted own)
    (dispatcher : CommandDispatcher) :
    event.own ⟨after, dispatcher⟩ (reply.map Reply.encode) = own := by
  cases happens with
  | command outcome => rfl
  | activeCycle | tickFsync => rfl

/-- What is left after some of the evictions is a state of the run. -/
theorem Happens.stage {dispatcher logged : CommandDispatcher}
    (happens : Happens world before event reply after evicted own)
    (holds : dispatcher.Holds records)
    (stepped : Server.step (world.onDisk .ideal) ⟨before, dispatcher⟩ event =
      .ok (reply.map Reply.encode, ⟨after, logged⟩))
    (holdsAfter : logged.Holds (records ++ (evicted.map delRecord ++ own)))
    (count : Nat) :
    Stage world ⟨before, dispatcher⟩ [event]
      (before.view.without (evicted.take count)) := by
  refine .evicted stepped ?_ count []
  rw [happens.own_eq, holdsAfter.records_eq, holds.records_eq]

end Step

/-! ## Whole runs -/

/-- The log consists of records that can be read back, every prefix of it stands
for one of the `seen` keyspaces, and as long as nothing has failed the whole of
it stands for the current one. -/
structure Server.CrashSafe (policy : FsyncPolicy) (seen : Keyspace → Prop)
    (server : Server) (records : List Command) : Prop where
  wf : server.memory.Wf
  admissible : ∀ record ∈ records, Admissible kReplayFrameCap record
  cuts : ∀ part, part <+: records → ∃ keyspace, seen keyspace ∧
    Reproduced keyspace part
  logged : (server.dispatcher.Intact policy records ∧
      KeysFit server.memory.view ∧ Reproduced server.memory.view records) ∨
    server.dispatcher.Broken records

variable {world : World} {policy : FsyncPolicy} {seen : Keyspace → Prop}
  {server : Server} {records : List Command}

theorem Server.CrashSafe.mono {more : Keyspace → Prop}
    (safe : server.CrashSafe policy seen records)
    (wider : ∀ keyspace, seen keyspace → more keyspace) :
    server.CrashSafe policy more records := by
  refine ⟨safe.wf, safe.admissible, ?_, safe.logged⟩
  intro part cut
  obtain ⟨keyspace, isSeen, reproduced⟩ := safe.cuts part cut
  exact ⟨keyspace, wider keyspace isSeen, reproduced⟩

theorem Server.CrashSafe.step (safe : server.CrashSafe policy seen records)
    {event : Event} (whole : server.LogsWhole world event) :
    ∃ output next more, server.step world event = .ok (output, next) ∧
      next.CrashSafe policy
        (fun keyspace => seen keyspace ∨ Stage world server [event] keyspace)
        more := by
  obtain ⟨memory, dispatcher⟩ := server
  obtain ⟨wf, admissible, cuts, ⟨intact, keysFit, reproduced⟩ | broken⟩ := safe
  · have loggable := whole.1 intact.healthy
    have unsplit := whole.2 intact.healthy
    obtain ⟨reply, after, evicted, own, happens, result⟩ :=
      step_happens world wf event
    obtain ⟨wal, attached, isOpen, _, _, sameRecords, sameFile, _⟩ :=
      intact.attached
    have stepped := result world.disk dispatcher wal intact.healthy attached
    have holds : dispatcher.Holds records :=
      ⟨intact.healthy, wal, attached, isOpen, sameRecords, sameFile⟩
    have flawless : (world.onDisk .ideal).disk.Flawless := Disk.ideal_flawless
    have holdsAfter := holds.log flawless memory.clockReads happens.silent
    have idealStepped := result .ideal dispatcher wal intact.healthy attached
    refine ⟨_, _, records ++ (evicted.map delRecord ++ own), stepped,
      happens.advance.wf, ?_, ?_, ?_⟩
    · rw [List.forall_mem_append, List.forall_mem_append]
      exact ⟨admissible, happens.advance.evicted_admissible keysFit,
        (happens.loggable_iff keysFit).mp loggable⟩
    · intro part cut
      rcases prefix_append_cases cut with short | ⟨rest, restCut, rfl⟩
      · obtain ⟨keyspace, isSeen, same⟩ := cuts part short
        exact ⟨keyspace, .inl isSeen, same⟩
      · rcases happens.cut unsplit reproduced restCut with ⟨count, same⟩ | rfl
        · refine ⟨_, .inr (happens.stage holds ?_ holdsAfter count), same⟩
          simpa [holdsAfter.healthy] using idealStepped
        · exact ⟨after.view, .inr (.later stepped (.reached _ [])),
            happens.advance.reproduced reproduced⟩
    · obtain next | broken := intact.log (world.onDisk world.disk)
        memory.clockReads happens.silent
      · exact .inl ⟨next, happens.keysFit keysFit loggable,
          happens.advance.reproduced reproduced⟩
      · exact .inr broken
  · obtain ⟨output, next, stepped, nextWf, same⟩ :=
      step_of_failed world wf broken.failed event
    refine ⟨output, next, records, stepped, nextWf, admissible, ?_, .inr ?_⟩
    · intro part cut
      obtain ⟨keyspace, isSeen, reproduced⟩ := cuts part cut
      exact ⟨keyspace, .inl isSeen, reproduced⟩
    · rw [same]
      exact broken

theorem run_crashSafe {events : List Event}
    (safe : server.CrashSafe policy seen records)
    (each : EachStep (Server.step world) (Server.LogsWhole world) server events) :
    ∃ replies live more, server.run world events = .ok (replies, live) ∧
      live.CrashSafe policy
        (fun keyspace => seen keyspace ∨ Stage world server events keyspace)
        more := by
  induction events generalizing server seen records with
  | nil => exact ⟨[], server, records, rfl, safe.mono fun _ => .inl⟩
  | cons event events induction =>
      obtain ⟨output, next, logged, stepped, nextSafe⟩ := safe.step each.1
      obtain ⟨replies, live, more, ran, liveSafe⟩ :=
        induction nextSafe (each.2 output next stepped)
      refine ⟨output :: replies, live, more, ?_, liveSafe.mono ?_⟩
      · rw [Server.run] at ran
        rw [Server.run, runAll_cons stepped, ran]
      · rintro keyspace ((isSeen | first) | rest)
        · exact .inl isSeen
        · exact .inr (first.extend events)
        · exact .inr (.later stepped rest)

/-- Whatever byte prefix of the file a crash leaves and however it is read,
replay succeeds, and recovery with a clock earlier than the deadlines it finds
reaches one of these keyspaces. -/
def RecoversTo (states : Keyspace → Prop) (file : Bytes) : Prop :=
  ∀ part, part <+: file → ∃ survivors keyspace,
    (∀ reads chunks, Delivers reads chunks → chunks.flatten = part →
      replay (.present part) reads true =
        ⟨.ok, survivors, .present (encodeAll survivors)⟩) ∧
    states keyspace ∧
    ∀ (recovery : World) (walk : Walk),
      recovery.EarlierThanLogged survivors → ∃ answers recovered,
        (Server.fresh none).recover recovery walk survivors =
          .ok (answers, recovered) ∧
        recovered.memory.view = keyspace

/-- A crash at any byte of the log is recovered to a state the server went
through, as long as every event is logged whole.  The file system may fail at
any call. -/
theorem crash_recovers_stage (world : World) (policy : FsyncPolicy)
    (events : List Event)
    (each : EachStep (Server.step world) (Server.LogsWhole world)
      (Server.fresh (some (Wal.fresh policy))) events) :
    ∃ replies live wal,
      Server.run world (Server.fresh (some (Wal.fresh policy))) events =
        .ok (replies, live) ∧
      live.dispatcher.wal = some wal ∧
      RecoversTo
        (Stage world (Server.fresh (some (Wal.fresh policy))) events)
        wal.file := by
  let start := Server.fresh (some (Wal.fresh policy))
  have initial : start.CrashSafe policy (Stage world start []) [] := by
    refine ⟨Memory.fresh_wf, nofun, ?_,
      .inl ⟨CommandDispatcher.fresh_intact policy, ?_, reproduced_fresh⟩⟩
    · intro part cut
      rw [List.prefix_nil.mp cut]
      exact ⟨_, .reached start [], reproduced_fresh⟩
    · intro key present
      exact absurd rfl present
  obtain ⟨replies, live, records, ran, safe⟩ := run_crashSafe initial each
  obtain ⟨wal, attached, fileCut⟩ : ∃ wal, live.dispatcher.wal = some wal ∧
      wal.file <+: encodeAll records := by
    rcases safe.logged with ⟨intact, _⟩ | broken
    · obtain ⟨wal, attached, _, _, _, _, sameFile, _⟩ := intact.attached
      exact ⟨wal, attached, by rw [sameFile]⟩
    · obtain ⟨wal, attached, _, _, fileCut⟩ := broken.attached
      exact ⟨wal, attached, fileCut⟩
  refine ⟨replies, live, wal, ran, attached, ?_⟩
  intro part cut
  obtain ⟨keyspace, stage, reproduced⟩ := safe.cuts _
    (prefix_wholeItems encode records part.length)
  refine ⟨wholeItems encode records part.length, keyspace, ?_, ?_, ?_⟩
  · intro reads chunks delivers whole
    exact replay_cut safe.admissible (cut.trans fileCut) delivers whole
  · rcases stage with first | later
    · exact first.extend events
    · exact later
  · intro recovery walk earlier
    obtain ⟨_, answers, recovered, recoverRan, reached⟩ :=
      reproduced recovery walk earlier
    exact ⟨answers, recovered, recoverRan, reached.view_eq⟩

/-- A counter, with the crash anywhere in the log. -/
theorem crash_recovers_stage_counter :
    let world := World.ideal fun _ => 1000
    let start := Server.fresh (some (Wal.fresh .no))
    let events : List Event := [.command .arbitrary [ascii "INCR", ascii "k"]]
    ∃ replies live wal, Server.run world start events = .ok (replies, live) ∧
      live.dispatcher.wal = some wal ∧
      RecoversTo (Stage world start events) wal.file := by
  intro world start events
  have reads : Action.ofCommand wrap64 [ascii "INCR", ascii "k"] =
      .onKey (ascii "k") (.incrBy 1) := rfl
  apply crash_recovers_stage world .no events
  refine ⟨⟨fun _ => ⟨?_, ?_, ?_⟩, fun _ => ?_⟩, fun _ _ _ => trivial⟩
  · rw [reads]
    rintro _ _ _ ⟨⟩
  · rw [reads]
    rintro _ _ ⟨⟩ _ _
    exact ⟨by decide, by decide, by decide⟩
  · rw [reads]
    nofun
  · rintro ⟨key, value, choice, isSet, _⟩
    rw [reads] at isSet
    cases isSet

set_option maxRecDepth 4000 in
private theorem run_of_split_set :
    (Server.run (World.ideal fun _ => 1000)
      (Server.fresh (some (Wal.fresh .always)))
      [.command .arbitrary
        [ascii "SET", ascii "k", ascii "v", ascii "px", ascii "100"]]).map
        (fun result => (result.2.dispatcher.wal.map Wal.file,
          result.2.memory.view (ascii "k"))) =
      .ok (some (encode [ascii "SET", ascii "k", ascii "v"] ++
          encode [ascii "PEXPIREAT", ascii "k", ascii "1100"]),
        some ⟨.string (ascii "v"), some 1100⟩) := by
  rfl

set_option maxRecDepth 4000 in
private theorem recovery_of_split_set :
    ((Server.fresh none).recover (World.ideal fun _ => 0) .arbitrary
      [[ascii "SET", ascii "k", ascii "v"]]).map
        (fun result => result.2.memory.view (ascii "k")) =
      .ok (some ⟨.string (ascii "v"), none⟩) := by
  rfl

/-- `SET k v PX 100` at 1000, with the crash right after its first record: the
key comes back without its deadline, a state the server never was in. -/
theorem split_set_recovered_in_half :
    let world := World.ideal fun _ => 1000
    let start := Server.fresh (some (Wal.fresh .always))
    let events : List Event := [.command .arbitrary
      [ascii "SET", ascii "k", ascii "v", ascii "px", ascii "100"]]
    ∃ replies live wal, Server.run world start events = .ok (replies, live) ∧
      live.dispatcher.wal = some wal ∧
      ¬ RecoversTo (Stage world start events) wal.file := by
  intro world start events
  let set : Command := [ascii "SET", ascii "k", ascii "v"]
  obtain ⟨⟨replies, live⟩, ran, shown⟩ := exists_of_map_eq_ok run_of_split_set
  obtain ⟨fileShown, liveView⟩ := Prod.mk.inj shown
  obtain ⟨wal, attached, file⟩ := Option.map_eq_some_iff.mp fileShown
  refine ⟨replies, live, wal, ran, attached, ?_⟩
  intro recovers
  obtain ⟨survivors, keyspace, replayed, stage, recovery⟩ :=
    recovers (encode set) (by rw [file]; exact List.prefix_append _ _)
  have survives : survivors = [set] := by
    have found := replayed [.data (encode set)] [encode set]
      (.data (by decide) .nil) (List.append_nil _)
    have actual : replay (.present (encode set)) [.data (encode set)] true =
        ⟨.ok, [set], .present (encodeAll [set])⟩ := by
      decide
    rw [actual] at found
    cases found
    rfl
  subst survives
  have recoveredView : keyspace (ascii "k") = some ⟨.string (ascii "v"), none⟩ := by
    have earlier : (World.ideal fun _ => 0).EarlierThanLogged [set] := by
      intro key text deadline logged
      have differs : ascii "PEXPIREAT" ≠ ascii "SET" := by decide
      exact absurd (List.cons.inj (List.mem_singleton.mp logged)).1 differs
    obtain ⟨answers, recovered, recoveryRan, same⟩ :=
      recovery _ .arbitrary earlier
    obtain ⟨_, again, view⟩ := exists_of_map_eq_ok recovery_of_split_set
    rw [recoveryRan] at again
    cases again
    rw [← same]
    exact view
  rcases stage.of_single with ⟨gone, rfl⟩ | ⟨output, next, stepped, rfl⟩
  · have missing : start.memory.view.without gone (ascii "k") = none := by
      simp [start, Server.fresh, TimedMap.without]
    rw [missing] at recoveredView
    cases recoveredView
  · have ranAgain : start.run world events = _ := runAll_cons stepped []
    rw [ran] at ranAgain
    cases ranAgain
    rw [liveView] at recoveredView
    cases recoveredView

end HermitDb.Core
