import HermitDb.Core.LogReplay

/-!
# Recovery at a later time

A live run reads the clock as it goes; recovery reads one time, later than all
of them.  A record is then executed on a store from which every key whose
logged deadline has passed is already gone.  The records that build on such a
key are the ones that replay differently, and this file shows that they are the
only ones.
-/

namespace HermitDb.Core

open Library Persist Protocol

/-! ## What does not survive a later replay -/

/-- The operation builds on what a key with this deadline holds: it changes the
value and keeps the deadline, or it moves the deadline past the old one. -/
def KeyOp.BuildsOn (now : Int) (op : KeyOp) (value : Value) (deadline : Int) :
    Prop :=
  match op with
  | .incrBy delta => ∃ text cur, value = .string text ∧
      parseI64 text = some cur ∧ -2 ^ 63 ≤ cur.toInt + delta ∧
      cur.toInt + delta < 2 ^ 63
  | .push _ _ => ∃ items, value = .list items
  | .persist => True
  | .expire n unitToMs =>
      0 < n ∧ max deadline now < wrap64 (now + wrap64 (n * unitToMs))
  | .pexpireat atMs => max deadline now < atMs
  | _ => False

/-- The event is a command that builds on a key whose deadline is in force.
The touch takes one reading, and a new deadline is counted from the next. -/
def Event.BuildsOn (world : World) (memory : Memory) : Event → Prop
  | .command _ cmd => ∃ key op value deadline,
      Action.ofCommand wrap64 cmd = .onKey key op ∧
      memory.view key = some ⟨value, some deadline⟩ ∧
      world.ms memory.clockReads < deadline ∧
      op.BuildsOn (world.ms (memory.clockReads + 1)) value deadline
  | _ => False

/-- Only an operation that takes a reading of its own depends on it. -/
theorem KeyOp.BuildsOn.of_reading {now other : Int} {op : KeyOp}
    {value : Value} {deadline : Int}
    (builds : op.BuildsOn now value deadline)
    (same : op.readings (some ⟨value, some deadline⟩) = 1 → now = other) :
    op.BuildsOn other value deadline := by
  cases op with
  | expire n unitToMs =>
      have positive : ¬ n ≤ 0 := Int.not_le.mpr builds.1
      rw [← same (if_neg positive)]
      exact builds
  | pexpireat atMs =>
      rw [← same rfl]
      exact builds
  | _ => exact builds

/-! ## Replay on a clock that stands still -/

section Frozen

variable {later : Int64} {before after : Keyspace} {server : Server}

theorem World.frozen_precedes (later : Int64) (keyspace : Keyspace) :
    (World.frozen later).Precedes (keyspace.sweep later.toInt) := by
  intro key item deadline present hasDeadline i
  obtain ⟨_, isLive⟩ := TimedMap.sweep_eq_some.mp present
  obtain ⟨value, held⟩ := item
  cases hasDeadline
  exact of_decide_eq_true isLive

theorem recover_frozen {keyspace : Keyspace}
    (recovers : server.Recovers (keyspace.sweep later.toInt)) (walk : Walk)
    (record : Command) :
    ∃ replies next,
      server.recover (World.frozen later) walk [record] = .ok (replies, next) ∧
      next.Recovers ((Action.ofCommand wrap64 record).after wrap64 later.toInt
        (keyspace.sweep later.toInt)) := by
  obtain ⟨replies, next, _, ran, reached⟩ :=
    recover_one recovers (World.frozen_precedes later keyspace) walk record
  exact ⟨replies, next, ran, reached⟩

/-- Executing `PEXPIREAT` at a given time, on a key that is there. -/
theorem pexpireat_run_live (now atMs : Int) (item : Item) :
    ((KeyOp.pexpireat atMs).run wrap64 now (some item)).2 =
      (some ⟨item.value, some atMs⟩ : Option Item).filter (Timed.live now) := by
  by_cases past : atMs ≤ now
  · simp [KeyOp.run, past, Option.filter, Timed.live_some]
  · have ahead : now < atMs := Int.not_le.mp past
    simp [KeyOp.run, past, Option.filter, Timed.live_some, ahead]

/-- What is left of a list keeps its deadline. -/
theorem pop_deadline {left : Bool} {now : Int} {held result : Item}
    (isResult : ((KeyOp.pop left).run wrap64 now (some held)).2 = some result) :
    result.deadline = held.deadline := by
  rcases held with ⟨text | items, deadline⟩
  · cases isResult
    rfl
  · simp only [KeyOp.run] at isResult
    split at isResult
    · cases isResult
      rfl
    · simp only at isResult
      split at isResult
      · cases isResult
      · cases isResult
        rfl

/-- A verbatim record either finds what the live server found or, the key being
gone, has no effect. -/
theorem Verbatim.run_filter {key : Bytes} {op : KeyOp} {now : Int}
    {item : Option Item} (later : Int) (verbatim : Verbatim (.onKey key op))
    (granted : ∀ message, (op.run wrap64 now item).1 ≠ .error message)
    (lasting : ∀ value deadline, item = some ⟨value, some deadline⟩ →
      ¬ op.BuildsOn now value deadline) :
    (op.run wrap64 now (item.filter (Timed.live later))).2 =
      (op.run wrap64 now item).2.filter (Timed.live later) := by
  have resultLive : (∀ held, item = some held → held.live later = true) →
      (op.run wrap64 now item).2.filter (Timed.live later) =
        (op.run wrap64 now item).2 := by
    intro allLive
    cases isResult : (op.run wrap64 now item).2 with
    | none => rfl
    | some result =>
        have isLive : result.live later = true := by
          obtain ⟨value, deadline⟩ := result
          cases deadline with
          | none => rfl
          | some deadline =>
              obtain ⟨old, held, same⟩ := verbatim.run_deadline isResult rfl
              have oldLive := allLive old held
              obtain ⟨oldValue, oldDeadline⟩ := old
              cases same
              exact oldLive
        simp [Option.filter, isLive]
  cases item with
  | none =>
      rw [resultLive (by simp)]
      rfl
  | some held =>
      cases isLive : held.live later with
      | true =>
          rw [resultLive fun other same => by cases same; exact isLive]
          simp [Option.filter, isLive]
      | false =>
          obtain ⟨value, deadline⟩ := held
          obtain ⟨past, rfl, reached⟩ := Timed.live_eq_false_iff.mp isLive
          have builds := lasting value past rfl
          cases verbatim with
          | incrBy key delta =>
              exfalso
              cases value with
              | list items => exact granted _ rfl
              | string text =>
                  simp only [KeyOp.run] at granted
                  cases parsed : parseI64 text with
                  | none =>
                      rw [parsed] at granted
                      exact granted _ rfl
                  | some cur =>
                      rw [parsed] at granted
                      simp only [increment] at granted
                      split at granted
                      · exact granted _ rfl
                      · exact builds ⟨text, cur, rfl, parsed, by omega, by omega⟩
          | push key left values =>
              exfalso
              cases value with
              | string text => exact granted _ rfl
              | list items => exact builds ⟨items, rfl⟩
          | pop key left =>
              have gone : (some ⟨value, some past⟩ : Option Item).filter
                  (Timed.live later) = none := by
                simp [Option.filter, isLive]
              rw [gone]
              cases isResult : ((KeyOp.pop left).run wrap64 now
                  (some ⟨value, some past⟩)).2 with
              | none => rfl
              | some result =>
                  obtain ⟨newValue, newDeadline⟩ := result
                  cases pop_deadline isResult
                  have dead : Timed.live later (⟨newValue, some past⟩ : Item) =
                    false := isLive
                  simp [Option.filter, dead, KeyOp.run]

theorem Verbatim.after_sweep {action : Action} {now later : Int}
    (verbatim : Verbatim action)
    (granted : ∀ key op, action = .onKey key op → ∀ message,
      (op.run wrap64 now (before key)).1 ≠ .error message)
    (lasting : ∀ key op value deadline, action = .onKey key op →
      before key = some ⟨value, some deadline⟩ →
      ¬ op.BuildsOn now value deadline) :
    action.after wrap64 now (before.sweep later) =
      (action.after wrap64 now before).sweep later := by
  cases action with
  | onKey key op =>
      have atKey := verbatim.run_filter later (granted key op rfl)
        fun value deadline => lasting key op value deadline rfl
      simp only [Action.after, TimedMap.sweep_update]
      rw [TimedMap.sweep_apply, atKey]
  | del targets => exact (TimedMap.sweep_without_comm later before targets).symm
  | flushall => rfl
  | answer | «exists» | keys | dbsize => cases verbatim

/-- The records of a change do it again at a later time, unless the change
builds on a key with a deadline. -/
theorem Logs.recover_frozen {now : Int} {action : Action} {own : List Command}
    (logs : Logs now before action after own)
    (lasting : ∀ key op value deadline, action = .onKey key op →
      before key = some ⟨value, some deadline⟩ →
      now ≤ later.toInt ∧ ¬ op.BuildsOn now value deadline)
    (walk : Walk) (recovers : server.Recovers (before.sweep later.toInt)) :
    ∃ replies next,
      server.recover (World.frozen later) walk own = .ok (replies, next) ∧
      next.Recovers (after.sweep later.toInt) := by
  cases logs with
  | nothing => exact ⟨[], server, rfl, recovers⟩
  | set key value _ =>
      obtain ⟨replies, next, ran, reached⟩ :=
        Core.recover_frozen recovers walk (setRecord key value)
      refine ⟨replies, next, ran, ?_⟩
      rw [TimedMap.sweep_update]
      exact reached
  | setExpiring key value atMs _ =>
      obtain ⟨replies, middle, first, reached⟩ :=
        Core.recover_frozen recovers walk (setRecord key value)
      have stored : middle.Recovers (TimedMap.sweep later.toInt
          (Function.update before key (some ⟨.string value, none⟩))) := by
        rw [TimedMap.sweep_update]
        exact reached
      obtain ⟨more, next, second, final⟩ :=
        Core.recover_frozen stored walk (pexpireatRecord key atMs)
      refine ⟨replies ++ more, next, recover_then first second, ?_⟩
      rw [ofCommand_pexpireatRecord, TimedMap.sweep_update] at final
      rw [TimedMap.sweep_update, ← pexpireat_run_live later.toInt atMs.toInt
        ⟨.string value, none⟩]
      simpa [Action.after, Option.filter, Timed.live_none] using final
  | arm key item atMs present asked =>
      obtain ⟨replies, next, ran, reached⟩ :=
        Core.recover_frozen recovers walk (pexpireatRecord key atMs)
      refine ⟨replies, next, ran, ?_⟩
      rw [ofCommand_pexpireatRecord, Action.after] at reached
      rw [TimedMap.sweep_update]
      cases isLive : item.live later.toInt with
      | true =>
          have swept : before.sweep later.toInt key = some item :=
            TimedMap.sweep_eq_some.mpr ⟨present, isLive⟩
          rw [swept, pexpireat_run_live] at reached
          exact reached
      | false =>
          -- The old deadline has passed, and the new one is no later.
          obtain ⟨value, deadline⟩ := item
          obtain ⟨past, rfl, reachedPast⟩ := Timed.live_eq_false_iff.mp isLive
          obtain ⟨op, isOp, arms⟩ := asked
          obtain ⟨readLater, notBuilding⟩ := lasting key op value past isOp present
          have passed : atMs.toInt ≤ later.toInt := by
            cases op with
            | expire n unitToMs =>
                obtain ⟨positive, isDeadline⟩ := arms
                have notLater : ¬ max past now < atMs.toInt := by
                  rw [isDeadline]
                  exact fun ahead => notBuilding ⟨positive, ahead⟩
                omega
            | pexpireat deadline =>
                obtain ⟨_, isDeadline⟩ := arms
                have notLater : ¬ max past now < atMs.toInt := by
                  rw [isDeadline]
                  exact notBuilding
                omega
            | get | set | incrBy | type | ttl | persist | push | pop | llen
            | lrange => cases arms
          have swept : before.sweep later.toInt key = none := by
            rw [TimedMap.sweep_apply, present]
            simp [Option.filter, isLive]
          have dropped : (some ⟨value, some atMs.toInt⟩ : Option Item).filter
              (Timed.live later.toInt) = none := by
            simp [Option.filter, Timed.live_some, passed]
          rw [swept] at reached
          rw [dropped]
          exact reached
  | remove key _ =>
      obtain ⟨replies, next, ran, reached⟩ :=
        Core.recover_frozen recovers walk (delRecord key)
      refine ⟨replies, next, ran, ?_⟩
      rw [ofCommand_delRecord, Action.after, TimedMap.without_singleton]
        at reached
      rw [TimedMap.sweep_update]
      exact reached
  | disarm key value deadline present asked =>
      exact absurd trivial (lasting key _ value deadline asked present).2
  | verbatim cmd kind reads granted _ =>
      obtain ⟨replies, next, ran, reached⟩ :=
        Core.recover_frozen recovers walk cmd
      refine ⟨replies, next, ran, ?_⟩
      rw [reads, kind.after_eq wrap64 _ now, kind.after_sweep granted
        fun key op value deadline isOp present =>
          (lasting key op value deadline isOp present).2] at reached
      exact reached

end Frozen

/-! ## One event -/

/-- A key whose deadline is in force is not evicted, and the touch takes one
reading. -/
theorem Outcome.in_force {world : World} {before after : Memory} {key : Bytes}
    {op : KeyOp} {reply : Reply} {evicted : List Bytes} {value : Value}
    {deadline : Int}
    (outcome : Outcome world before (.onKey key op) reply after evicted)
    (present : before.view key = some ⟨value, some deadline⟩)
    (ahead : world.ms before.clockReads < deadline) :
    evicted = [] ∧ after.clockReads = before.clockReads + 1 +
      op.readings (some ⟨value, some deadline⟩) := by
  have notDue : isDue (world.ms before.clockReads) (before.view key) = false := by
    rw [present]
    simp [isDue, Timed.live_some, ahead]
  have spared : evicted = [] := by
    rw [outcome.evicted_onKey key op rfl, notDue]
    rfl
  have clock := outcome.clock_onKey key op rfl
  rw [spared, TimedMap.without_nil, present] at clock
  exact ⟨spared, clock⟩

/-- A key that is there after the touch was there before it, and its deadline
was in force. -/
theorem Outcome.held {world : World} {before after : Memory} {key : Bytes}
    {op : KeyOp} {reply : Reply} {evicted : List Bytes} {value : Value}
    {deadline : Int}
    (outcome : Outcome world before (.onKey key op) reply after evicted)
    (kept : before.view.without evicted key = some ⟨value, some deadline⟩) :
    before.view key = some ⟨value, some deadline⟩ ∧
      world.ms before.clockReads < deadline := by
  rw [outcome.evicted_onKey key op rfl] at kept
  cases due : isDue (world.ms before.clockReads) (before.view key) with
  | true =>
      rw [due, if_pos rfl, TimedMap.without_of_mem (List.mem_singleton_self key)]
        at kept
      cases kept
  | false =>
      rw [due, if_neg Bool.false_ne_true, TimedMap.without_nil] at kept
      refine ⟨kept, ?_⟩
      rw [kept] at due
      simpa [isDue, Timed.live_some] using due

/-- Recovery from the records, at any time from the last reading on, reaches
what is then left of the keyspace. -/
def Replayed (world : World) (memory : Memory) (records : List Command) : Prop :=
  ∀ (later : Int64) (walk : Walk),
    (∀ i, i < memory.clockReads → world.wallMs i ≤ later) →
    ∃ answers recovered,
      (Server.fresh none).recover (World.frozen later) walk records =
        .ok (answers, recovered) ∧
      recovered.Recovers (memory.view.sweep later.toInt)

theorem replayed_fresh (world : World) : Replayed world Memory.fresh [] :=
  fun _ _ _ => ⟨[], Server.fresh none, rfl, Server.fresh_recovers⟩

theorem Happens.replayed {world : World} {before after : Memory} {event : Event}
    {reply : Option Reply} {evicted : List Bytes} {own records : List Command}
    (happens : Happens world before event reply after evicted own)
    (plain : ¬ event.BuildsOn world before)
    (replayed : Replayed world before records) :
    Replayed world after (records ++ (evicted.map delRecord ++ own)) := by
  intro later walk taken
  have clockLe := happens.advance.clock_le
  obtain ⟨answers, middle, ran, reached⟩ := replayed later walk
    fun i read => taken i (by omega)
  obtain ⟨gone, afterEvictions, ranEvictions, reachedEvictions⟩ :=
    recover_evictions (World.frozen_precedes later before.view) walk evicted
      reached
  rw [← TimedMap.sweep_without_comm] at reachedEvictions
  have ownRecovers : ∃ replies next,
      afterEvictions.recover (World.frozen later) walk own =
        .ok (replies, next) ∧
      next.Recovers (after.view.sweep later.toInt) := by
    cases happens with
    | command outcome =>
        apply outcome.logs.recover_frozen ?_ walk reachedEvictions
        intro key op value deadline isOp kept
        rw [isOp] at outcome
        obtain ⟨present, ahead⟩ := outcome.held kept
        obtain ⟨_, clock⟩ := outcome.in_force present ahead
        refine ⟨Int64.le_iff_toInt_le.mp (taken _ (by omega)), ?_⟩
        intro builds
        refine plain ⟨key, op, value, deadline, isOp, present, ahead, ?_⟩
        apply builds.of_reading
        intro one
        rw [clock, one]
        rfl
    | activeCycle advance =>
        rw [advance.view_of_silent]
        exact ⟨[], afterEvictions, rfl, reachedEvictions⟩
    | tickFsync advance =>
        rw [advance.view_of_silent]
        exact ⟨[], afterEvictions, rfl, reachedEvictions⟩
  obtain ⟨more, final, ranOwn, reachedOwn⟩ := ownRecovers
  exact ⟨_, final, recover_then ran (recover_then ranEvictions ranOwn),
    reachedOwn⟩

/-! ## What such a command logs -/

/-- What a counter or a push on a key with a deadline does to it, and what the
same command does once the key is gone. -/
theorem KeyOp.BuildsOn.counted {now : Int} {op : KeyOp} {value : Value}
    {deadline : Int} (builds : op.BuildsOn now value deadline) (later : Int)
    (counts : op.counts = true)
    (small : ∀ delta, op = .incrBy delta → -2 ^ 63 ≤ delta ∧ delta < 2 ^ 63) :
    (∃ number changed, op.run wrap64 now (some ⟨value, some deadline⟩) =
      (.integer number, some ⟨changed, some deadline⟩)) ∧
    ∃ created, (op.run wrap64 later none).2 = some ⟨created, none⟩ := by
  cases op with
  | incrBy delta =>
      obtain ⟨text, cur, rfl, parsed, low, high⟩ := builds
      obtain ⟨deltaLow, deltaHigh⟩ := small delta rfl
      have inRange : ¬ (cur.toInt + delta < -2 ^ 63 ∨
          2 ^ 63 ≤ cur.toInt + delta) := by omega
      have deltaInRange : ¬ (delta < -2 ^ 63 ∨ 2 ^ 63 ≤ delta) := by omega
      refine ⟨⟨cur.toInt + delta, .string (intToString (cur.toInt + delta)),
        ?_⟩, .string (intToString delta), ?_⟩
      · simp only [KeyOp.run, parsed]
        exact if_neg inRange
      · exact congrArg Prod.snd (if_neg deltaInRange)
  | push left values =>
      obtain ⟨items, rfl⟩ := builds
      exact ⟨⟨_, _, rfl⟩, _, rfl⟩
  | get | set | type | expire | pexpireat | ttl | persist | pop | llen
  | lrange => cases counts

section Records

variable {now : Int} {before after : Keyspace} {key : Bytes} {value : Value}
  {deadline : Int} {own : List Command}

theorem Logs.persist_records
    (logs : Logs now before (.onKey key .persist) after own)
    (present : before key = some ⟨value, some deadline⟩)
    (disarmed : after key = some ⟨value, none⟩) :
    own = [persistRecord key] := by
  cases logs with
  | nothing =>
      rw [present] at disarmed
      cases disarmed
  | set _ _ asked => obtain ⟨_, ⟨⟩⟩ := asked
  | setExpiring _ _ _ asked => obtain ⟨_, ⟨⟩, _⟩ := asked
  | arm _ _ _ _ asked =>
      obtain ⟨_, ⟨⟩, arms⟩ := asked
      cases arms
  | remove other _ =>
      by_cases same : key = other
      · rw [same, Function.update_self] at disarmed
        cases disarmed
      · rw [Function.update_of_ne same, present] at disarmed
        cases disarmed
  | disarm _ _ _ _ asked =>
      cases asked
      rfl
  | verbatim _ kind => cases kind

theorem Logs.arm_records {op : KeyOp} {later : Int}
    (logs : Logs now before (.onKey key op) after own)
    (present : before key = some ⟨value, some deadline⟩)
    (armed : after key = some ⟨value, some later⟩)
    (arms : op.Arms now later) (moved : deadline ≠ later) :
    ∃ atMs : Int64, own = [pexpireatRecord key atMs] := by
  cases logs with
  | nothing =>
      rw [present] at armed
      cases armed
      exact absurd rfl moved
  | set _ _ asked =>
      obtain ⟨_, ⟨⟩⟩ := asked
      cases arms
  | setExpiring _ _ _ asked =>
      obtain ⟨_, ⟨⟩, _⟩ := asked
      cases arms
  | arm _ _ atMs _ asked =>
      obtain ⟨_, ⟨⟩, _⟩ := asked
      exact ⟨atMs, rfl⟩
  | remove other _ =>
      by_cases same : key = other
      · rw [same, Function.update_self] at armed
        cases armed
      · rw [Function.update_of_ne same, present] at armed
        cases armed
        exact absurd rfl moved
  | disarm _ _ _ _ asked =>
      cases asked
      cases arms
  | verbatim _ kind => cases kind <;> cases arms

/-- Executed at a later time, the record leaves the key in another state than
the live server does. -/
def Parts (later : Int) (before after : Keyspace) (key : Bytes)
    (record : Command) : Prop :=
  ((Action.ofCommand wrap64 record).after wrap64 later (before.sweep later)
      key).filter (Timed.live later) ≠ after.sweep later key

variable {later : Int} {op : KeyOp}

/-- Once its deadline has passed, the key is gone before the record comes. -/
theorem sweep_passed (present : before key = some ⟨value, some deadline⟩)
    (passed : deadline ≤ later) : before.sweep later key = none := by
  rw [TimedMap.sweep_apply, present]
  simp [Option.filter, Timed.live_some, passed]

theorem parts_of_persist
    (logs : Logs now before (.onKey key .persist) after own)
    (present : before key = some ⟨value, some deadline⟩)
    (passed : deadline ≤ later)
    (view : after = (Action.onKey key .persist).after wrap64 now before) :
    ∃ record, own = [record] ∧ Parts later before after key record := by
  have disarmed : after key = some ⟨value, none⟩ := by
    rw [view, Action.after, Function.update_self, present]
    rfl
  refine ⟨persistRecord key, logs.persist_records present disarmed, ?_⟩
  unfold Parts
  rw [ofCommand_persistRecord, Action.after, Function.update_self,
    sweep_passed present passed, TimedMap.sweep_apply, disarmed]
  simp [KeyOp.run, Option.filter, Timed.live_none]

theorem parts_of_rearm {moved : Int}
    (logs : Logs now before (.onKey key op) after own)
    (present : before key = some ⟨value, some deadline⟩)
    (passed : deadline ≤ later)
    (view : after = (Action.onKey key op).after wrap64 now before)
    (ran : op.run wrap64 now (some ⟨value, some deadline⟩) =
      (.integer 1, some ⟨value, some moved⟩))
    (arms : op.Arms now moved) (beyond : later < moved) :
    ∃ record, own = [record] ∧ Parts later before after key record := by
  have armed : after key = some ⟨value, some moved⟩ := by
    rw [view, Action.after, Function.update_self, present, ran]
  obtain ⟨atMs, isRecord⟩ := logs.arm_records present armed arms (by omega)
  refine ⟨pexpireatRecord key atMs, isRecord, ?_⟩
  unfold Parts
  rw [ofCommand_pexpireatRecord, Action.after, Function.update_self,
    sweep_passed present passed, TimedMap.sweep_apply, armed]
  simp [KeyOp.run, Option.filter, Timed.live_some, beyond]

theorem parts_of_count {plain : PlainChar} {cmd : Command} {reply : Reply}
    (reads : Action.ofCommand wrap64 cmd = .onKey key op)
    (counts : op.counts = true) (builds : op.BuildsOn now value deadline)
    (present : before key = some ⟨value, some deadline⟩)
    (passed : deadline ≤ later)
    (view : after = (Action.onKey key op).after wrap64 now before)
    (answers : (Action.onKey key op).Answers plain wrap64 now before reply)
    (expiry : ExpiryManager) :
    ∃ record, commandRecords expiry cmd reply.encode = [record] ∧
      Parts later before after key record := by
  obtain ⟨name, args, verb, _, _, verbReads⟩ := ofCommand_listed reads nofun
  obtain ⟨⟨number, changed, ran⟩, created, createdRan⟩ :=
    builds.counted later counts (Verb.action_counts verbReads counts).2
  rw [Action.Answers, present, ran] at answers
  rw [Action.after, present, ran] at view
  refine ⟨cmd, ?_, ?_⟩
  · rw [answers]
    exact commandRecords_counts reads counts expiry number
  · unfold Parts
    rw [reads, Action.after, Function.update_self, sweep_passed present passed,
      createdRan, view, TimedMap.sweep_apply, Function.update_self]
    simp [Option.filter, Timed.live_some, Timed.live_none]

end Records

theorem Memory.deadline_of_view {memory : Memory} {key : Bytes} {value : Value}
    {deadline : Int}
    (present : memory.view key = some ⟨value, some deadline⟩) :
    ∃ atMs : Int64, atMs.toInt = deadline := by
  have tracked := Memory.Wf.expiryAt_of_view present
  obtain ⟨atMs, _, same⟩ := Option.map_eq_some_iff.mp tracked
  exact ⟨atMs, same⟩

/-- A time at which recovery may start, with the deadline behind it. -/
theorem exists_recovery_time {world : World} (ordered : world.Ordered)
    (reads : Nat) (atMs : Int64) :
    ∃ later : Int64, (∀ i, i < reads → world.wallMs i ≤ later) ∧
      later.toInt = max atMs.toInt (world.ms (reads - 1)) := by
  have taken : ∀ later : Int64, world.ms (reads - 1) ≤ later.toInt →
      ∀ i, i < reads → world.wallMs i ≤ later := by
    intro later lastLe i read
    have notLast := ordered i (reads - 1) (by omega)
    rw [Int64.le_iff_toInt_le] at notLast ⊢
    exact le_trans notLast lastLe
  by_cases behind : atMs.toInt ≤ world.ms (reads - 1)
  · exact ⟨world.wallMs (reads - 1), taken _ (le_refl _),
      (max_eq_right behind).symm⟩
  · have ahead : world.ms (reads - 1) ≤ atMs.toInt := by omega
    exact ⟨atMs, taken _ ahead, (max_eq_left ahead).symm⟩

/-- A command that builds on a deadline in force is replayed differently by a
recovery that starts after that deadline. -/
theorem Outcome.diverges {world : World} (ordered : world.Ordered)
    {before after : Memory} {cmd : Command} {reply : Reply}
    {evicted : List Bytes} {walk : Walk}
    (outcome : Outcome world before (Action.ofCommand wrap64 cmd) reply after
      evicted)
    (builds : (Event.command walk cmd).BuildsOn world before) :
    evicted = [] ∧ ∃ (later : Int64) (key : Bytes) (record : Command),
      (∀ i, i < after.clockReads → world.wallMs i ≤ later) ∧
      commandRecords after.expiry cmd reply.encode = [record] ∧
      Parts later.toInt before.view after.view key record := by
  obtain ⟨key, op, value, deadline, reads, present, ahead, buildsNext⟩ := builds
  have logs := outcome.logs
  rw [reads] at outcome logs
  obtain ⟨rfl, clock⟩ := outcome.in_force present ahead
  have ends : world.EndsAt before.clockReads after.clockReads
      (world.ms (after.clockReads - 1)) := fun _ => rfl
  have view := outcome.view_eq _ ends
  have answers := outcome.answers _ ends nofun
  rw [TimedMap.without_nil] at view answers logs
  obtain ⟨atMs, rfl⟩ := Memory.deadline_of_view present
  obtain ⟨later, taken, isLater⟩ :=
    exists_recovery_time ordered after.clockReads atMs
  have passed : atMs.toInt ≤ later.toInt := by
    rw [isLater]
    exact le_max_left _ _
  have builds : op.BuildsOn (world.ms (after.clockReads - 1)) value
      atMs.toInt := by
    apply buildsNext.of_reading
    intro one
    rw [clock, one]
    rfl
  refine ⟨rfl, later, key, ?_⟩
  suffices parts : ∃ record,
      commandRecords after.expiry cmd reply.encode = [record] ∧
        Parts later.toInt before.view after.view key record by
    obtain ⟨record, isRecord, differs⟩ := parts
    exact ⟨record, taken, isRecord, differs⟩
  cases op with
  | incrBy | push =>
      exact parts_of_count reads rfl builds present passed view answers _
  | persist => exact parts_of_persist logs present passed view
  | expire n unitToMs =>
      obtain ⟨positive, beyond⟩ := builds
      exact parts_of_rearm logs present passed view
        (if_neg (Int.not_le.mpr positive)) ⟨positive, rfl⟩
        (isLater.trans_lt beyond)
  | pexpireat moved =>
      have notReached : world.ms (after.clockReads - 1) < moved :=
        lt_of_le_of_lt (le_max_right _ _) builds
      exact parts_of_rearm logs present passed view
        (if_neg (Int.not_le.mpr notReached)) ⟨notReached, rfl⟩
        (isLater.trans_lt builds)
  | get | set | type | ttl | pop | llen | lrange => cases builds

/-! ## Whole runs -/

/-- Recovery is not re-decided by its clock: at any time from the last reading
on, it finds what the live server would still have then. -/
def Server.RecoversLater (world : World) (live : Server) : Prop :=
  ∀ (later : Int64) (walk : Walk),
    (∀ i, i < live.memory.clockReads → world.wallMs i ≤ later) →
    ∃ answers recovered,
      (Server.fresh none).recover (World.frozen later) walk live.records =
        .ok (answers, recovered) ∧
      recovered.memory.view.sweep later.toInt =
        live.memory.view.sweep later.toInt

theorem Server.Keeps.recoversLater {world : World} {live : Server}
    (keeps : live.Keeps (Replayed world)) : live.RecoversLater world := by
  obtain ⟨_, records, holds, replayed⟩ := keeps
  intro later walk taken
  obtain ⟨answers, recovered, ran, reached⟩ := replayed later walk taken
  rw [holds.records_eq]
  refine ⟨answers, recovered, ran, ?_⟩
  rw [reached.view_eq, TimedMap.sweep_sweep (le_refl _)]

theorem Server.Keeps.not_recoversLater {world : World}
    (flawless : world.disk.Flawless) (ordered : world.Ordered) {live : Server}
    (keeps : live.Keeps (Replayed world)) {event : Event}
    (builds : event.BuildsOn world live.memory) :
    ∃ output next, live.step world event = .ok (output, next) ∧
      ¬ next.RecoversLater world := by
  obtain ⟨memory, dispatcher⟩ := live
  obtain ⟨wf, records, holds, replayed⟩ := keeps
  obtain ⟨reply, after, evicted, own, logged, happens, stepped, holdsAfter⟩ :=
    step_holds flawless wf event holds
  refine ⟨_, _, stepped, ?_⟩
  intro recoversLater
  have clockLe := happens.advance.clock_le
  cases happens with
  | command outcome =>
      obtain ⟨rfl, later, key, record, taken, isRecord, parts⟩ :=
        outcome.diverges ordered builds
      obtain ⟨answers, middle, ran, reached⟩ := replayed later .arbitrary
        fun i read => taken i (by omega)
      obtain ⟨more, final, ranOwn, reachedOwn⟩ :=
        recover_frozen reached .arbitrary record
      have whole := recover_then ran ranOwn
      obtain ⟨_, recovered, wholeRan, same⟩ :=
        recoversLater later .arbitrary taken
      rw [holdsAfter.records_eq, isRecord] at wholeRan
      rw [List.map_nil, List.nil_append, whole] at wholeRan
      cases wholeRan
      rw [reachedOwn.view_eq] at same
      exact parts (congrFun same key)
  | activeCycle | tickFsync => cases builds

/-- Every state of a run recovers at any later time exactly if no command of
the run builds on a key whose deadline is in force. -/
theorem recoversLater_iff (world : World) (flawless : world.disk.Flawless)
    (ordered : world.Ordered) (policy : FsyncPolicy) (events : List Event) :
    (∀ first, first <+: events → ∃ replies live,
        Server.run world (Server.fresh (some (Wal.fresh policy))) first =
          .ok (replies, live) ∧ live.RecoversLater world) ↔
      EachStep (Server.step world)
        (fun server event => ¬ event.BuildsOn world server.memory)
        (Server.fresh (some (Wal.fresh policy))) events := by
  symm
  apply eachStep_iff_prefixes (fun _ keeps => Server.Keeps.recoversLater keeps)
  · intro server event keeps plain
    apply keeps.step flawless
    intro records reply after evicted own replayed happens
    exact happens.replayed plain replayed
  · intro server event keeps builds
    exact keeps.not_recoversLater flawless ordered (not_not.mp builds)
  · exact Server.fresh_keeps (replayed_fresh world) policy

/-- A key set with a lifetime and read. -/
theorem recoversLater_iff_read :
    let world := World.ideal fun _ => 1000
    let events : List Event :=
      [.command .arbitrary
        [ascii "SET", ascii "k", ascii "v", ascii "px", ascii "100"],
      .command .arbitrary [ascii "GET", ascii "k"]]
    ∀ first, first <+: events → ∃ replies live,
      Server.run world (Server.fresh (some (Wal.fresh .always))) first =
        .ok (replies, live) ∧ live.RecoversLater world := by
  intro world events
  have ordered : world.Ordered := fun _ _ _ => Int64.le_refl _
  apply (recoversLater_iff world (World.ideal_flawless _) ordered .always
    events).mpr
  refine ⟨?_, fun _ _ _ => ⟨?_, fun _ _ _ => trivial⟩⟩
  · rintro ⟨key, op, value, deadline, _, present, _⟩
    cases present
  · rintro ⟨key, op, value, deadline, ⟨⟩, _, _, builds⟩
    cases builds

set_option maxRecDepth 4000 in
private theorem run_of_persist :
    (Server.run (World.ideal fun _ => 1000)
      (Server.fresh (some (Wal.fresh .always)))
      [.command .arbitrary
        [ascii "SET", ascii "k", ascii "v", ascii "px", ascii "100"],
      .command .arbitrary [ascii "PERSIST", ascii "k"]]).map
        (fun result => (result.2.records, result.2.memory.view (ascii "k"))) =
      .ok
        ([[ascii "SET", ascii "k", ascii "v"],
          [ascii "PEXPIREAT", ascii "k", ascii "1100"],
          [ascii "PERSIST", ascii "k"]],
        some ⟨.string (ascii "v"), none⟩) := by
  rfl

set_option maxRecDepth 4000 in
private theorem recovery_of_persist :
    ((Server.fresh none).recover (World.frozen 2000) .arbitrary
      [[ascii "SET", ascii "k", ascii "v"],
      [ascii "PEXPIREAT", ascii "k", ascii "1100"],
      [ascii "PERSIST", ascii "k"]]).map
        (fun result => result.2.memory.view (ascii "k")) = .ok none := by
  rfl

/-- `SET k v PX 100` and `PERSIST k` at 1000, recovered at 2000: the live server
has the key for good and the recovered one has lost it. -/
theorem persist_lost_by_recovery :
    let world := World.ideal fun _ => 1000
    ∃ replies live answers recovered,
      Server.run world (Server.fresh (some (Wal.fresh .always)))
        [.command .arbitrary
          [ascii "SET", ascii "k", ascii "v", ascii "px", ascii "100"],
        .command .arbitrary [ascii "PERSIST", ascii "k"]] =
        .ok (replies, live) ∧
      (∀ i, i < live.memory.clockReads → world.wallMs i ≤ 2000) ∧
      (Server.fresh none).recover (World.frozen 2000) .arbitrary live.records =
        .ok (answers, recovered) ∧
      live.memory.view.sweep 2000 (ascii "k") =
        some ⟨.string (ascii "v"), none⟩ ∧
      recovered.memory.view.sweep 2000 (ascii "k") = none := by
  intro world
  obtain ⟨⟨replies, live⟩, ran, ends⟩ := exists_of_map_eq_ok run_of_persist
  obtain ⟨⟨answers, recovered⟩, recovery, lost⟩ :=
    exists_of_map_eq_ok recovery_of_persist
  simp only [Prod.mk.injEq] at ends
  obtain ⟨records, held⟩ := ends
  refine ⟨replies, live, answers, recovered, ran, ?_, ?_, ?_, ?_⟩
  · intro i _
    change (1000 : Int64) ≤ 2000
    decide
  · rw [records]
    exact recovery
  · rw [TimedMap.sweep_apply, held]
    rfl
  · rw [TimedMap.sweep_apply, lost]
    rfl

end HermitDb.Core
