import HermitDb.Core.Run

/-!
# The log captures every mutation

Recovery executes the logged records on an empty store.  If its clock has not
reached any deadline in the log, nothing expires on the way, every record does
again what it stands for, and recovery ends in the state of the live server.
-/

namespace HermitDb.Core

open Library Persist Protocol

/-! ## What a record asks for -/

theorem ofCommand_setRecord (wrap : Int → Int) (key value : Bytes) :
    Action.ofCommand wrap (setRecord key value) =
      .onKey key (.set value ⟨false, false, none⟩) := rfl

theorem ofCommand_delRecord (wrap : Int → Int) (key : Bytes) :
    Action.ofCommand wrap (delRecord key) = .del [key] := rfl

theorem ofCommand_persistRecord (wrap : Int → Int) (key : Bytes) :
    Action.ofCommand wrap (persistRecord key) = .onKey key .persist := rfl

theorem ofCommand_pexpireatRecord (wrap : Int → Int) (key : Bytes)
    (atMs : Int64) :
    Action.ofCommand wrap (pexpireatRecord key atMs) =
      .onKey key (.pexpireat atMs.toInt) := by
  have reads : Action.ofCommand wrap (pexpireatRecord key atMs) =
      numberAction "pexpireat" (pexpireatRecord key atMs) .pexpireat := rfl
  rw [reads]
  simp only [numberAction, pexpireatRecord, parseI64_i64ToString]

/-! ## Executing records -/

/-- A server in recovery that has reached this keyspace. -/
structure Server.Recovers (server : Server) (keyspace : Keyspace) : Prop where
  wf : server.memory.Wf
  view_eq : server.memory.view = keyspace
  detached : server.dispatcher.wal = none
  healthy : server.dispatcher.persistenceFailed = false

theorem Server.fresh_recovers :
    (Server.fresh none).Recovers fun _ => none :=
  ⟨Memory.fresh_wf, rfl, rfl, rfl⟩

/-- No reading of the clock reaches any deadline of the keyspace. -/
def World.Precedes (world : World) (keyspace : Keyspace) : Prop :=
  ∀ key item deadline, keyspace key = some item →
    item.deadline = some deadline → ∀ i, world.ms i < deadline

/-- A record executed before any deadline evicts nothing. -/
theorem Server.Recovers.execute {world : World} {server : Server}
    {keyspace : Keyspace} (recovers : server.Recovers keyspace)
    (early : world.Precedes keyspace) (walk : Walk) (record : Command) :
    ∃ reply next reading, server.execute world walk record =
        .ok (reply, next) ∧
      next.Recovers ((Action.ofCommand wrap64 record).after wrap64
        (world.ms reading) keyspace) := by
  obtain ⟨memory, dispatcher⟩ := server
  obtain ⟨wf, viewed, detached, healthy⟩ := recovers
  simp only at wf viewed detached healthy
  obtain ⟨reply, after, evicted, outcome, result⟩ :=
    execute_eq world walk wf record
  have nothing : evicted = [] := by
    refine List.eq_nil_iff_forall_not_mem.mpr fun key gone => ?_
    obtain ⟨item, deadline, present, hasDeadline, i, _, _, reached⟩ :=
      outcome.due key gone
    rw [viewed] at present
    have ahead := early key item deadline present hasDeadline i
    omega
  subst evicted
  have stepped := result world.disk dispatcher healthy
  rw [CommandDispatcher.putAll_of_detached _ (by simpa using detached)]
    at stepped
  refine ⟨_, _, after.clockReads - 1, stepped, outcome.wf, ?_,
    by simpa using detached, by simpa using healthy⟩
  have view := outcome.view_eq _ fun _ => rfl
  rw [TimedMap.without_nil, viewed] at view
  exact view

theorem recover_one {world : World} {server : Server} {keyspace : Keyspace}
    (recovers : server.Recovers keyspace) (early : world.Precedes keyspace)
    (walk : Walk) (record : Command) :
    ∃ replies next reading, server.recover world walk [record] =
        .ok (replies, next) ∧
      next.Recovers ((Action.ofCommand wrap64 record).after wrap64
        (world.ms reading) keyspace) := by
  obtain ⟨reply, next, reading, executed, reached⟩ :=
    recovers.execute early walk record
  refine ⟨[reply], next, reading, ?_, reached⟩
  rw [Server.recover, runAll_cons executed]
  rfl

theorem recover_then {world : World} {walk : Walk} {server middle final : Server}
    {first second : List Command} {replies more : List Bytes}
    (ran : server.recover world walk first = .ok (replies, middle))
    (continued : middle.recover world walk second = .ok (more, final)) :
    server.recover world walk (first ++ second) =
      .ok (replies ++ more, final) := by
  rw [Server.recover, runAll_append ran]
  rw [Server.recover] at continued
  rw [continued]

theorem World.Precedes.without {world : World} {keyspace : Keyspace}
    (early : world.Precedes keyspace) (keys : List Bytes) :
    world.Precedes (keyspace.without keys) := by
  intro key item deadline present
  by_cases removed : key ∈ keys
  · rw [TimedMap.without_of_mem removed] at present
    cases present
  · rw [TimedMap.without_of_not_mem removed] at present
    exact early key item deadline present

theorem World.Precedes.update {world : World} {keyspace : Keyspace}
    (early : world.Precedes keyspace) (key : Bytes) {result : Option Item}
    (ahead : ∀ item deadline, result = some item →
      item.deadline = some deadline → ∀ i, world.ms i < deadline) :
    world.Precedes (Function.update keyspace key result) := by
  intro other item deadline present
  by_cases same : other = key
  · subst other
    rw [Function.update_self] at present
    exact ahead item deadline present
  · rw [Function.update_of_ne same] at present
    exact early other item deadline present

/-- Replaying evictions removes the keys. -/
theorem recover_evictions {world : World} {keyspace : Keyspace}
    (early : world.Precedes keyspace) (walk : Walk) (evicted : List Bytes)
    {server : Server} (recovers : server.Recovers keyspace) :
    ∃ replies next, server.recover world walk (evicted.map delRecord) =
        .ok (replies, next) ∧
      next.Recovers (keyspace.without evicted) := by
  induction evicted generalizing server keyspace with
  | nil => exact ⟨[], server, rfl, by simpa using recovers⟩
  | cons key evicted induction =>
      obtain ⟨replies, middle, _, first, reached⟩ :=
        recover_one recovers early walk (delRecord key)
      rw [ofCommand_delRecord, Action.after] at reached
      obtain ⟨more, next, rest, final⟩ := induction (early.without [key]) reached
      refine ⟨replies ++ more, next, recover_then first rest, ?_⟩
      rwa [TimedMap.without_cons]

/-- The clock of the recovering server is earlier than every deadline in the
log. -/
def World.EarlierThanLogged (world : World) (records : List Command) : Prop :=
  ∀ key text deadline, [ascii "PEXPIREAT", key, text] ∈ records →
    parseI64 text = some deadline → ∀ i, world.wallMs i < deadline

theorem World.EarlierThanLogged.pexpireat {world : World}
    {records : List Command} (earlier : world.EarlierThanLogged records)
    {key : Bytes} {atMs : Int64} (logged : pexpireatRecord key atMs ∈ records)
    (i : Nat) : world.ms i < atMs.toInt :=
  Int64.lt_iff_toInt_lt.mp
    (earlier key _ atMs logged (parseI64_i64ToString atMs) i)

theorem World.EarlierThanLogged.mono {world : World}
    {some all : List Command} (earlier : world.EarlierThanLogged all)
    (subset : ∀ record ∈ some, record ∈ all) :
    world.EarlierThanLogged some :=
  fun key text deadline logged =>
    earlier key text deadline (subset _ logged)

/-! ## A change and its replay -/

/-- The records of a change do it again. -/
theorem Logs.recover {world : World} {before after : Keyspace} {now : Int}
    {action : Action} {own : List Command}
    (logs : Logs now before action after own)
    (early : world.Precedes before) (earlier : world.EarlierThanLogged own)
    (walk : Walk) {server : Server} (recovers : server.Recovers before) :
    world.Precedes after ∧ ∃ replies next,
      server.recover world walk own = .ok (replies, next) ∧
        next.Recovers after := by
  cases logs with
  | nothing => exact ⟨early, [], server, rfl, recovers⟩
  | set key value _ =>
      obtain ⟨replies, next, _, ran, reached⟩ :=
        recover_one recovers early walk (setRecord key value)
      rw [ofCommand_setRecord] at reached
      refine ⟨early.update key ?_, replies, next, ran, reached⟩
      rintro item deadline ⟨⟩ ⟨⟩
  | setExpiring key value atMs _ =>
      have ahead := earlier.pexpireat
        (List.mem_cons_of_mem _ (List.mem_singleton_self _))
      obtain ⟨replies, middle, _, first, reached⟩ :=
        recover_one recovers early walk (setRecord key value)
      rw [ofCommand_setRecord] at reached
      have earlyMiddle : world.Precedes (Function.update before key
          (some ⟨.string value, none⟩)) := by
        refine early.update key ?_
        rintro item deadline ⟨⟩ ⟨⟩
      obtain ⟨more, next, reading, second, final⟩ :=
        recover_one reached earlyMiddle walk (pexpireatRecord key atMs)
      refine ⟨early.update key ?_, replies ++ more, next,
        recover_then first second, ?_⟩
      · rintro item deadline ⟨⟩ ⟨⟩ i
        exact ahead i
      · have notReached : ¬ atMs.toInt ≤ world.ms reading := by
          have := ahead reading
          omega
        rw [ofCommand_pexpireatRecord] at final
        simpa [Action.after, KeyOp.run, notReached] using final
  | arm key item atMs present _ =>
      have ahead := earlier.pexpireat (List.mem_singleton_self _)
      obtain ⟨replies, next, reading, ran, reached⟩ :=
        recover_one recovers early walk (pexpireatRecord key atMs)
      refine ⟨early.update key ?_, replies, next, ran, ?_⟩
      · rintro item deadline ⟨⟩ ⟨⟩ i
        exact ahead i
      · have notReached : ¬ atMs.toInt ≤ world.ms reading := by
          have := ahead reading
          omega
        rw [ofCommand_pexpireatRecord] at reached
        simpa [Action.after, KeyOp.run, present, notReached] using reached
  | remove key _ =>
      obtain ⟨replies, next, _, ran, reached⟩ :=
        recover_one recovers early walk (delRecord key)
      rw [ofCommand_delRecord, Action.after, TimedMap.without_singleton]
        at reached
      refine ⟨early.update key ?_, replies, next, ran, reached⟩
      rintro item deadline ⟨⟩
  | disarm key value deadline present _ =>
      obtain ⟨replies, next, _, ran, reached⟩ :=
        recover_one recovers early walk (persistRecord key)
      rw [ofCommand_persistRecord] at reached
      refine ⟨early.update key ?_, replies, next, ran, ?_⟩
      · rintro item deadline ⟨⟩ ⟨⟩
      · simpa [Action.after, KeyOp.run, present] using reached
  | verbatim cmd kind reads _ _ =>
      obtain ⟨replies, next, reading, ran, reached⟩ :=
        recover_one recovers early walk cmd
      rw [reads, kind.after_eq wrap64 _ now] at reached
      refine ⟨?_, replies, next, ran, reached⟩
      intro key item deadline present hasDeadline i
      obtain ⟨old, wasPresent, hadDeadline⟩ := kind.deadline present hasDeadline
      exact early key old deadline wasPresent hadDeadline i

/-- What recovery from these records reaches, whatever its clock, as long as it
is earlier than the deadlines among them. -/
def Reproduced (keyspace : Keyspace) (records : List Command) : Prop :=
  ∀ world walk, world.EarlierThanLogged records →
    world.Precedes keyspace ∧ ∃ replies server,
      (Server.fresh none).recover world walk records = .ok (replies, server) ∧
        server.Recovers keyspace

theorem reproduced_fresh : Reproduced Memory.fresh.view [] := by
  intro world walk _
  refine ⟨?_, [], Server.fresh none, rfl, Server.fresh_recovers⟩
  intro key item deadline present
  cases present

theorem Reproduced.evictions {keyspace : Keyspace} {records : List Command}
    (reproduced : Reproduced keyspace records) (evicted : List Bytes) :
    Reproduced (keyspace.without evicted)
      (records ++ evicted.map delRecord) := by
  intro recovery walk earlier
  obtain ⟨early, replies, middle, ran, reached⟩ := reproduced recovery walk
    (earlier.mono fun record member => List.mem_append_left _ member)
  obtain ⟨more, final, ranEvictions, reachedEvictions⟩ :=
    recover_evictions early walk evicted reached
  exact ⟨early.without evicted, _, final, recover_then ran ranEvictions,
    reachedEvictions⟩

theorem Reproduced.change {before after : Keyspace} {now : Int}
    {action : Action} {records own : List Command}
    (reproduced : Reproduced before records)
    (logs : Logs now before action after own) :
    Reproduced after (records ++ own) := by
  intro recovery walk earlier
  obtain ⟨early, replies, middle, ran, reached⟩ := reproduced recovery walk
    (earlier.mono fun record member => List.mem_append_left _ member)
  obtain ⟨earlyAfter, more, final, ranOwn, reachedOwn⟩ := logs.recover early
    (earlier.mono fun record member => List.mem_append_right _ member)
    walk reached
  exact ⟨earlyAfter, _, final, recover_then ran ranOwn, reachedOwn⟩

theorem Advance.reproduced {world : World} {before after : Memory}
    {evicted : List Bytes} {own records : List Command}
    (advance : Advance world before after evicted own)
    (reproduced : Reproduced before.view records) :
    Reproduced after.view (records ++ (evicted.map delRecord ++ own)) := by
  obtain ⟨now, action, logs⟩ := advance.logs
  rw [← List.append_assoc]
  exact (reproduced.evictions evicted).change logs

/-- The records in the attached log, oldest first. -/
def Server.records (server : Server) : List Command :=
  match server.dispatcher.wal with
  | some wal => wal.records
  | none => []

theorem CommandDispatcher.Holds.records_eq {server : Server}
    {records : List Command} (holds : server.dispatcher.Holds records) :
    server.records = records := by
  obtain ⟨_, wal, attached, _, same, _⟩ := holds
  rw [Server.records, attached]
  exact same

/-- The log captures every mutation.  After any events, whatever the clock
readings, recovery from the records logged so far reproduces both tables, as
long as its clock is earlier than every deadline in the log. -/
theorem recover_reproduces_live (world : World)
    (flawless : world.disk.Flawless) (policy : FsyncPolicy)
    (events : List Event) :
    ∃ replies live,
      Server.run world (Server.fresh (some (Wal.fresh policy))) events =
        .ok (replies, live) ∧
      ∀ (recovery : World) (walk : Walk),
        recovery.EarlierThanLogged live.records →
        ∃ answers recovered,
          (Server.fresh none).recover recovery walk live.records =
            .ok (answers, recovered) ∧
          recovered.memory.db = live.memory.db ∧
          ∀ key, recovered.memory.expiry.expiryAt key =
            live.memory.expiry.expiryAt key := by
  have kept : ∀ (memory : Memory) (records : List Command) (event : Event)
      (reply : Option Reply) (after : Memory) (evicted : List Bytes)
      (own : List Command), memory.Wf → Reproduced memory.view records → True →
      Happens world memory event reply after evicted own →
      Reproduced after.view (records ++ (evicted.map delRecord ++ own)) :=
    fun _ _ _ _ _ _ _ _ reproduced _ happens =>
      happens.advance.reproduced reproduced
  obtain ⟨replies, live, records, ran, wf, holds, reproduced⟩ :=
    run_invariant flawless kept reproduced_fresh policy events
      (eachStep_true _ events)
  refine ⟨replies, live, ran, ?_⟩
  intro recovery walk earlier
  rw [holds.records_eq] at earlier ⊢
  obtain ⟨_, answers, recovered, recoverRan, reached⟩ :=
    reproduced recovery walk earlier
  exact ⟨answers, recovered, recoverRan,
    Memory.eq_of_view_eq reached.wf wf reached.view_eq⟩

set_option maxRecDepth 4000 in
private theorem records_of_eviction :
    (Server.run (World.ideal fun i => if i < 2 then 1000 else 5000)
      (Server.fresh (some (Wal.fresh .always)))
      [.command .arbitrary
        [ascii "SET", ascii "k", ascii "v", ascii "px", ascii "100"],
      .command .arbitrary [ascii "RPUSH", ascii "l", ascii "a", ascii "b"],
      .command .arbitrary [ascii "GET", ascii "k"],
      .command .arbitrary [ascii "GET", ascii "k"]]).map
        (fun result => result.2.records) =
      .ok
        [[ascii "SET", ascii "k", ascii "v"],
        [ascii "PEXPIREAT", ascii "k", ascii "1100"],
        [ascii "RPUSH", ascii "l", ascii "a", ascii "b"],
        [ascii "DEL", ascii "k"]] := by
  rfl

/-- A key set with a lifetime, evicted by a later read, and a list. -/
theorem recover_reproduces_live_eviction :
    let world := World.ideal fun i => if i < 2 then 1000 else 5000
    let events : List Event :=
      [.command .arbitrary
        [ascii "SET", ascii "k", ascii "v", ascii "px", ascii "100"],
      .command .arbitrary [ascii "RPUSH", ascii "l", ascii "a", ascii "b"],
      .command .arbitrary [ascii "GET", ascii "k"],
      .command .arbitrary [ascii "GET", ascii "k"]]
    let logged : List Command :=
      [[ascii "SET", ascii "k", ascii "v"],
      [ascii "PEXPIREAT", ascii "k", ascii "1100"],
      [ascii "RPUSH", ascii "l", ascii "a", ascii "b"],
      [ascii "DEL", ascii "k"]]
    ∃ replies live answers recovered,
      Server.run world (Server.fresh (some (Wal.fresh .always))) events =
        .ok (replies, live) ∧ live.records = logged ∧
      (Server.fresh none).recover (World.ideal fun _ => 0) .arbitrary logged =
        .ok (answers, recovered) ∧
      recovered.memory.db = live.memory.db ∧
      ∀ key, recovered.memory.expiry.expiryAt key =
        live.memory.expiry.expiryAt key := by
  intro world events logged
  obtain ⟨replies, live, ran, reproduces⟩ := recover_reproduces_live world
    (World.ideal_flawless _) .always events
  have recordsEq : (Server.run world (Server.fresh (some (Wal.fresh .always)))
      events).map (fun result => result.2.records) = .ok logged :=
    records_of_eviction
  rw [ran] at recordsEq
  have sameRecords : live.records = logged := Except.ok.inj recordsEq
  rw [sameRecords] at reproduces
  have earlier : (World.ideal fun _ => 0).EarlierThanLogged logged := by
    intro key text deadline member parsed i
    simp only [logged, List.mem_cons, List.not_mem_nil, or_false,
      List.cons.injEq] at member
    rcases member with other | ⟨_, _, isText, _⟩ | other | other
    · exact absurd other.1 (by decide)
    · subst text
      have isDeadline : parseI64 (ascii "1100") = some 1100 := by decide
      rw [isDeadline] at parsed
      cases parsed
      change (0 : Int64) < 1100
      decide
    · exact absurd other.1 (by decide)
    · exact absurd other.1 (by decide)
  obtain ⟨answers, recovered, recoverRan, same⟩ :=
    reproduces (World.ideal fun _ => 0) .arbitrary earlier
  exact ⟨replies, live, answers, recovered, ran, sameRecords, recoverRan, same⟩

end HermitDb.Core
