import HermitDb.Net.Durability
import HermitDb.Net.Ticks

/-!
# What a crash costs under `everysec`

Records are appended at any time, by any thread; the log is synced by the
periodic callback of the first loop, at most once a second, until persistence
has failed.  As long as it has not, whatever had been appended a second and one
interval before is synced behind every batch of that loop, if the wall clock
runs along with the steady one.
-/

namespace HermitDb.Persist

open Protocol

/-- A log that may have been appended to, but has not been synced. -/
structure Wal.Buffers (before after : Wal) : Prop where
  isOpen : after.isOpen = before.isOpen
  policy : after.policy = before.policy
  synced : after.synced = before.synced
  lastFsyncMs : after.lastFsyncMs = before.lastFsyncMs
  file : before.file <+: after.file
  dirty : after = before ∨ after.dirty = true

namespace Wal

theorem Buffers.refl (wal : Wal) : wal.Buffers wal :=
  ⟨rfl, rfl, rfl, rfl, List.prefix_refl _, .inl rfl⟩

theorem Buffers.trans {first second third : Wal} (earlier : first.Buffers second)
    (later : second.Buffers third) : first.Buffers third := by
  refine ⟨later.isOpen.trans earlier.isOpen, later.policy.trans earlier.policy,
    later.synced.trans earlier.synced,
    later.lastFsyncMs.trans earlier.lastFsyncMs,
    earlier.file.trans later.file, ?_⟩
  rcases later.dirty with rfl | dirty
  · exact earlier.dirty
  · exact .inr dirty

theorem Appended.buffers {wal after : Wal} {command : Command}
    (appended : wal.Appended command after) (isOpen : wal.isOpen = true)
    (policy : wal.policy = .everySec) : wal.Buffers after := by
  obtain ⟨synced, dirty⟩ := appended.buffered (by rw [policy]; decide)
  refine ⟨appended.isOpen.trans isOpen.symm, appended.policy, synced,
    appended.lastFsyncMs, ?_, .inr dirty⟩
  rw [appended.file]
  exact List.prefix_append _ _

end Wal

end HermitDb.Persist

namespace HermitDb.Core

open Library Persist Protocol

section Buffers

variable {world : World} {wal : Wal} (isOpen : wal.isOpen = true)
  (policy : wal.policy = .everySec)

include isOpen policy

theorem CommandDispatcher.putAll_buffers {dispatcher : CommandDispatcher}
    (attached : dispatcher.wal = some wal) {records : List Command}
    (healthy : (dispatcher.putAll world records).persistenceFailed = false) :
    ∃ next, (dispatcher.putAll world records).wal = some next ∧
      wal.Buffers next := by
  induction records generalizing dispatcher wal with
  | nil => exact ⟨wal, attached, .refl wal⟩
  | cons record records induction =>
      have before : dispatcher.persistenceFailed = false := by
        apply Bool.eq_false_iff.mpr
        intro failed
        rw [putAll_of_failed world failed, failed] at healthy
        cases healthy
      change ((dispatcher.put world record).putAll world
        records).persistenceFailed = false at healthy
      obtain ⟨next, ⟨result, appended⟩ | ⟨result, _, _⟩⟩ :=
        put_cases world before attached isOpen record
      · rw [result] at healthy
        obtain ⟨later, laterAttached, buffers⟩ := induction appended.isOpen
          (appended.policy.trans policy) rfl healthy
        refine ⟨later, ?_, (appended.buffers isOpen policy).trans buffers⟩
        rw [← laterAttached, ← result]
        rfl
      · rw [putAll_of_failed world (by rw [result]; rfl), result] at healthy
        cases healthy

variable {server next : Server} {output : Option Bytes}

/-- While persistence works, only the fsync tick syncs. -/
theorem step_buffers (wf : server.memory.Wf) {event : Event}
    (notTick : event ≠ .tickFsync)
    (stepped : server.step world event = .ok (output, next))
    (attached : server.dispatcher.wal = some wal)
    (before : server.dispatcher.persistenceFailed = false)
    (healthy : next.dispatcher.persistenceFailed = false) :
    ∃ later, next.dispatcher.wal = some later ∧ wal.Buffers later := by
  obtain ⟨reply, after, evicted, own, _, result⟩ := step_happens world wf event
  have again := result world.disk server.dispatcher wal before attached
  dsimp only at again
  rw [show world.onDisk world.disk = world from rfl, stepped] at again
  cases again
  cases event with
  | command walk cmd =>
      refine CommandDispatcher.putAll_buffers isOpen policy ?_ healthy
      simpa using attached
  | activeCycle sampler budgetUs =>
      exact CommandDispatcher.putAll_buffers isOpen policy attached healthy
  | tickFsync => exact absurd rfl notTick

theorem step_tickFsync
    (stepped : server.step world .tickFsync = .ok (output, next))
    (attached : server.dispatcher.wal = some wal)
    (before : server.dispatcher.persistenceFailed = false)
    (healthy : next.dispatcher.persistenceFailed = false) :
    let now := world.wallMs server.memory.clockReads
    ∃ later, next.dispatcher.wal = some later ∧
      ((later = wal ∧ (wal.dirty = false ∨ now - wal.lastFsyncMs < 1000)) ∨
        ∃ calls, later = { wal with
          fsyncCalls := calls
          dirty := false
          synced := wal.file.length
          lastFsyncMs := now }) := by
  intro now
  have ticked : next = ⟨(server.memory.readClock world).2,
      if (wal.tickFsync world.disk now).1 ≠ .ok then
        CommandDispatcher.reportPersistenceFailure { server.dispatcher with
          wal := some (wal.tickFsync world.disk now).2 }
      else { server.dispatcher with
        wal := some (wal.tickFsync world.disk now).2 }⟩ := by
    cases stepped
    simp only [Server.tickFsync, attached, before]
    rfl
  have ok : (wal.tickFsync world.disk now).1 = .ok := by
    by_contra failed
    rw [ticked, if_pos failed] at healthy
    cases healthy
  rw [ticked, if_neg (not_not.mpr ok)]
  exact ⟨_, rfl, Wal.tickFsync_everySec isOpen policy ok⟩

end Buffers

end HermitDb.Core

namespace HermitDb.Net

open Library Persist Protocol
open Core (World Walk Server)

/-- How long the log file is, and how much of it is synced. -/
def Process.logLength (process : Process) : Nat :=
  (process.server.dispatcher.wal.map fun wal => wal.file.length).getD 0

def Process.syncedLength (process : Process) : Nat :=
  (process.server.dispatcher.wal.map Wal.synced).getD 0

/-- The expiry cycle that the periodic callback begins with. -/
def Process.cycled (around : Surroundings) (process : Process) : Process :=
  (process.advance around.world
    (.activeCycle (around.samplers process.taken) kCycleBudgetUs)).2

/-- The callback of the first loop and the process behind all loops.  `written`
is when each call that wrote to the log began, and how long the file was after
it; no function reads it. -/
structure Maintenance where
  tick : Tick
  process : Process
  written : List (Int × Nat)
  clockMs : Int

inductive Moment where
  /-- A thread executes a command. -/
  | execute (nowMs : Int) (cmd : Command)
  /-- The first loop looks for due callbacks.  If one is, other threads may
  execute commands before it has the lock, at `beganMs`; it then reads the wall
  clock for `tick_fsync` at `syncMs`. -/
  | ticks (afterMs : Int) (meanwhile : List (Int × Command))
      (beganMs syncMs : Int)

namespace Maintenance

def start (startMs intervalMs : Int) (process : Process) : Maintenance :=
  ⟨Tick.start startMs intervalMs, process, [], startMs⟩

/-- A call to the process, begun at this time, has left it like this. -/
def call (state : Maintenance) (beganMs : Int) (next : Process) : Maintenance :=
  { state with
    process := next
    written :=
      if next.logLength = state.process.logLength then state.written
      else state.written ++ [(beganMs, next.logLength)]
    clockMs := beganMs }

section Step

variable (around : Surroundings)

def execute (state : Maintenance) (request : Int × Command) : Maintenance :=
  state.call request.1
    ((Process.handler around).execute state.process request.2).2

def step (state : Maintenance) : Moment → Maintenance
  | .execute nowMs cmd => state.execute around (nowMs, cmd)
  | .ticks afterMs meanwhile beganMs syncMs =>
      if state.tick.nextDueMs ≤ afterMs then
        let state := meanwhile.foldl (execute around) state
        let state := state.call beganMs
          ((Process.handler around).tick state.process).1
        { state with
          tick := state.tick.runIfDue afterMs
          clockMs := syncMs }
      else { state with clockMs := afterMs }

end Step

/-- All that was written by calls begun by this time is synced. -/
def SyncedUpTo (timeMs : Int) (state : Maintenance) : Prop :=
  ∀ entry ∈ state.written, entry.1 ≤ timeMs →
    entry.2 ≤ state.process.syncedLength

/-! ## Clocks -/

/-- These calls are made one after the other from `fromMs` to `untilMs`. -/
def InOrder (fromMs : Int) : List (Int × Command) → Int → Prop
  | [], untilMs => fromMs ≤ untilMs
  | (nowMs, _) :: requests, untilMs =>
      fromMs ≤ nowMs ∧ InOrder nowMs requests untilMs

/-- The steady clock goes on, and what the callback reads of the wall clock is
ahead of it by the same amount at all times, and past the first second of its
era. -/
def Timely (around : Surroundings) (offsetMs : Int) (state : Maintenance) :
    Moment → Prop
  | .execute nowMs _ => state.clockMs ≤ nowMs
  | .ticks afterMs meanwhile beganMs syncMs =>
      let found := (meanwhile.foldl (execute around) state).process
      let wallMs := around.world.wallMs
        (found.cycled around).server.memory.clockReads
      state.clockMs ≤ afterMs ∧ InOrder afterMs meanwhile beganMs ∧
        beganMs ≤ syncMs ∧ wallMs.toInt = syncMs + offsetMs ∧
        1000 ≤ wallMs.toInt

/-! ## The invariant -/

/-- What was written and is not synced was written after the last sync, and the
callback is due within a second and an interval from then. -/
structure Exposed (intervalMs offsetMs : Int) (state : Maintenance) (wal : Wal) :
    Prop where
  isOpen : wal.isOpen = true
  policy : wal.policy = .everySec
  within : ∀ entry ∈ state.written, entry.2 ≤ wal.file.length
  dirty : ∀ entry ∈ state.written, wal.synced < entry.2 → wal.dirty = true
  lastSync : wal.lastFsyncMs = 0 ∨ (1000 ≤ wal.lastFsyncMs.toInt ∧
    wal.lastFsyncMs.toInt ≤ state.clockMs + offsetMs)
  sinceSync : ∀ entry ∈ state.written, wal.synced < entry.2 →
    wal.lastFsyncMs = 0 ∨ wal.lastFsyncMs.toInt ≤ entry.1 + offsetMs
  soon : ∀ entry ∈ state.written, wal.synced < entry.2 →
    state.tick.nextDueMs < entry.1 + 1000 + intervalMs

/-- The callback is due within an interval, and while persistence works the log
is attached and exposed no longer than that. -/
structure Bounded (intervalMs offsetMs : Int) (state : Maintenance) : Prop where
  interval : state.tick.intervalMs = intervalMs
  due : state.tick.nextDueMs ≤ state.clockMs + intervalMs
  log : state.process.server.dispatcher.persistenceFailed = false →
    ∃ wal, state.process.server.dispatcher.wal = some wal ∧
      state.Exposed intervalMs offsetMs wal

theorem start_bounded {process : Process} {wal : Wal}
    (attached : process.server.dispatcher.wal = some wal)
    (isOpen : wal.isOpen = true) (policy : wal.policy = .everySec)
    (unsynced : wal.lastFsyncMs = 0) (startMs intervalMs offsetMs : Int) :
    (start startMs intervalMs process).Bounded intervalMs offsetMs := by
  refine ⟨rfl, Int.le_refl _, fun _ => ⟨wal, attached, isOpen, policy, ?_, ?_,
    .inl unsynced, ?_, ?_⟩⟩
  all_goals exact List.forall_mem_nil _

section Invariant

variable {around : Surroundings} {intervalMs offsetMs : Int}
  {state : Maintenance} {wal later : Wal}

/-- The new entry, if there is one, comes after everything else. -/
theorem Exposed.call (exposed : state.Exposed intervalMs offsetMs wal)
    (due : state.tick.nextDueMs ≤ state.clockMs + intervalMs)
    (attached : state.process.server.dispatcher.wal = some wal) {next : Process}
    (nextAttached : next.server.dispatcher.wal = some later)
    (buffers : wal.Buffers later) {beganMs : Int}
    (inOrder : state.clockMs ≤ beganMs) :
    (state.call beganMs next).Exposed intervalMs offsetMs later := by
  have longer := buffers.file.length_le
  have nextLength : next.logLength = later.file.length := by
    simp [Process.logLength, nextAttached]
  have length : state.process.logLength = wal.file.length := by
    simp [Process.logLength, attached]
  have entries : ∀ entry ∈ (state.call beganMs next).written,
      (entry ∈ state.written) ∨
        (entry = (beganMs, later.file.length) ∧ later.dirty = true) := by
    intro entry member
    change entry ∈ (if next.logLength = state.process.logLength then
      state.written else state.written ++ [(beganMs, next.logLength)]) at member
    split at member
    · exact .inl member
    · rename_i grown
      rw [nextLength, length] at grown
      rcases List.mem_append.mp member with old | new
      · exact .inl old
      · refine .inr ⟨?_, ?_⟩
        · rw [List.mem_singleton.mp new, nextLength]
        · rcases buffers.dirty with rfl | dirty
          · exact absurd rfl grown
          · exact dirty
  refine ⟨buffers.isOpen.trans exposed.isOpen,
    buffers.policy.trans exposed.policy, ?_, ?_, ?_, ?_, ?_⟩
  · intro entry member
    rcases entries entry member with old | ⟨rfl, _⟩
    · exact Nat.le_trans (exposed.within entry old) longer
    · exact Nat.le_refl _
  · intro entry member beyond
    rcases entries entry member with old | ⟨_, dirty⟩
    · rw [buffers.synced] at beyond
      rcases buffers.dirty with rfl | dirty
      · exact exposed.dirty entry old beyond
      · exact dirty
    · exact dirty
  · rw [buffers.lastFsyncMs]
    change _ ∨ _ ∧ _ ≤ beganMs + offsetMs
    rcases exposed.lastSync with never | ⟨era, past⟩
    · exact .inl never
    · exact .inr ⟨era, by omega⟩
  · intro entry member beyond
    rw [buffers.synced] at beyond
    rw [buffers.lastFsyncMs]
    rcases entries entry member with old | ⟨rfl, _⟩
    · exact exposed.sinceSync entry old beyond
    · rcases exposed.lastSync with never | ⟨_, past⟩
      · exact .inl never
      · refine .inr ?_
        dsimp only
        omega
  · intro entry member beyond
    rw [buffers.synced] at beyond
    change state.tick.nextDueMs < entry.1 + 1000 + intervalMs
    rcases entries entry member with old | ⟨rfl, _⟩
    · exact exposed.soon entry old beyond
    · dsimp only
      omega

/-- With both readings in range their difference is the difference. -/
theorem elapsed_lt_iff {now last : Int64} (nowRange : 0 ≤ now.toInt)
    (lastRange : 0 ≤ last.toInt) :
    now - last < 1000 ↔ now.toInt - last.toInt < 1000 := by
  have nowHigh := now.toInt_lt
  have lastHigh := last.toInt_lt
  rw [Int64.lt_iff_toInt_lt, Int64.toInt_sub,
    Int.bmod_eq_of_le (by omega) (by omega)]
  rfl

/-- The tick syncs, or nothing is unsynced, or the last sync was less than a
second ago. -/
theorem Exposed.tickFsync (exposed : state.Exposed intervalMs offsetMs wal)
    {now : Int64}
    (ticked : (later = wal ∧ (wal.dirty = false ∨ now - wal.lastFsyncMs < 1000)) ∨
      ∃ calls, later = { wal with
        fsyncCalls := calls
        dirty := false
        synced := wal.file.length
        lastFsyncMs := now })
    {afterMs syncMs : Int} (after : afterMs ≤ syncMs)
    (passed : state.clockMs ≤ syncMs) (wall : now.toInt = syncMs + offsetMs)
    (era : 1000 ≤ now.toInt) {next : Maintenance}
    (written : next.written = state.written) (clock : next.clockMs = syncMs)
    (nextDue : next.tick.nextDueMs = afterMs + intervalMs) :
    next.Exposed intervalMs offsetMs later := by
  rcases ticked with ⟨rfl, idle⟩ | ⟨calls, rfl⟩
  · refine ⟨exposed.isOpen, exposed.policy, ?_, ?_, ?_, ?_, ?_⟩
    · rw [written]
      exact exposed.within
    · rw [written]
      exact exposed.dirty
    · rw [clock]
      rcases exposed.lastSync with never | ⟨lastEra, past⟩
      · exact .inl never
      · exact .inr ⟨lastEra, by omega⟩
    · rw [written]
      exact exposed.sinceSync
    · intro entry member beyond
      rw [written] at member
      rw [nextDue]
      have early : now - later.lastFsyncMs < 1000 := by
        rcases idle with clean | early
        · rw [exposed.dirty entry member beyond] at clean
          cases clean
        · exact early
      rcases exposed.lastSync with never | ⟨lastEra, _⟩
      · rw [never, elapsed_lt_iff (by omega) (by decide)] at early
        simp at early
        omega
      · rw [elapsed_lt_iff (by omega) (by omega)] at early
        rcases exposed.sinceSync entry member beyond with never | since
        · rw [never] at lastEra
          exact absurd lastEra (by decide)
        · omega
  · have nothing : ∀ entry ∈ next.written, ¬ wal.file.length < entry.2 := by
      intro entry member
      rw [written] at member
      exact Nat.not_lt.mpr (exposed.within entry member)
    refine ⟨exposed.isOpen, exposed.policy, ?_, ?_, ?_, ?_, ?_⟩
    · rw [written]
      exact exposed.within
    · intro entry member beyond
      exact absurd beyond (nothing entry member)
    · rw [clock]
      exact .inr ⟨era, Int.le_of_eq wall⟩
    · intro entry member beyond
      exact absurd beyond (nothing entry member)
    · intro entry member beyond
      exact absurd beyond (nothing entry member)

/-- Persistence that works has worked before. -/
theorem healthy_of_advance {process : Process} {world : World}
    {event : Core.Event}
    (healthy : (process.advance world
      event).2.server.dispatcher.persistenceFailed = false) :
    process.server.dispatcher.persistenceFailed = false := by
  apply Bool.eq_false_iff.mpr
  intro failed
  have stays : (process.advance world
      event).2.server.dispatcher.persistenceFailed = true := by
    obtain proceeds | ⟨_, _, _, proceeds⟩ :=
      Core.step_proceeds process.wf (process.step_advance world event)
    · exact proceeds.failed failed
    · exact proceeds.failed (by simpa using failed)
  rw [healthy] at stays
  cases stays

/-- A call that only appends. -/
theorem Bounded.advance (bounded : state.Bounded intervalMs offsetMs)
    (around : Surroundings) {event : Core.Event} (notTick : event ≠ .tickFsync)
    {beganMs : Int} (inOrder : state.clockMs ≤ beganMs) :
    (state.call beganMs (state.process.advance around.world event).2).Bounded
      intervalMs offsetMs := by
  refine ⟨bounded.interval, ?_, ?_⟩
  · have due := bounded.due
    change state.tick.nextDueMs ≤ beganMs + intervalMs
    omega
  · intro healthy
    have before := healthy_of_advance healthy
    obtain ⟨wal, attached, exposed⟩ := bounded.log before
    obtain ⟨later, nextAttached, buffers⟩ := Core.step_buffers exposed.isOpen
      exposed.policy state.process.wf notTick
      (state.process.step_advance around.world event) attached before healthy
    exact ⟨later, nextAttached,
      exposed.call bounded.due attached nextAttached buffers inOrder⟩

theorem Bounded.execute (bounded : state.Bounded intervalMs offsetMs)
    (around : Surroundings) {request : Int × Command}
    (inOrder : state.clockMs ≤ request.1) :
    (state.execute around request).Bounded intervalMs offsetMs := by
  have notTick : Core.Event.command (around.walks state.process.taken)
      request.2 ≠ .tickFsync := by
    intro isTick
    cases isTick
  exact bounded.advance around notTick inOrder

theorem Bounded.executeAll (bounded : state.Bounded intervalMs offsetMs)
    (around : Surroundings) {requests : List (Int × Command)} {untilMs : Int}
    (inOrder : InOrder state.clockMs requests untilMs) :
    (requests.foldl (Maintenance.execute around) state).Bounded intervalMs
        offsetMs ∧
      (requests.foldl (Maintenance.execute around) state).clockMs ≤ untilMs ∧
      (requests.foldl (Maintenance.execute around) state).tick = state.tick := by
  induction requests generalizing state with
  | nil => exact ⟨bounded, inOrder, rfl⟩
  | cons request requests induction =>
      exact induction (bounded.execute around inOrder.1) inOrder.2

theorem InOrder.le {fromMs untilMs : Int} {requests : List (Int × Command)}
    (inOrder : InOrder fromMs requests untilMs) : fromMs ≤ untilMs := by
  induction requests generalizing fromMs with
  | nil => exact inOrder
  | cons request requests induction =>
      exact Int.le_trans inOrder.1 (induction inOrder.2)

theorem InOrder.weaken {earlierMs fromMs untilMs : Int}
    {requests : List (Int × Command)} (inOrder : InOrder fromMs requests untilMs)
    (earlier : earlierMs ≤ fromMs) : InOrder earlierMs requests untilMs := by
  cases requests with
  | nil => exact Int.le_trans earlier inOrder
  | cons request requests => exact ⟨Int.le_trans earlier inOrder.1, inOrder.2⟩

/-- The callback is run. -/
theorem Bounded.ticks (bounded : state.Bounded intervalMs offsetMs)
    {afterMs beganMs syncMs : Int} {meanwhile : List (Int × Command)}
    (timely : Timely around offsetMs state
      (.ticks afterMs meanwhile beganMs syncMs))
    (isDue : state.tick.nextDueMs ≤ afterMs) :
    (state.step around (.ticks afterMs meanwhile beganMs syncMs)).Bounded
        intervalMs offsetMs ∧
      (state.step around
        (.ticks afterMs meanwhile beganMs syncMs)).tick.nextDueMs =
          afterMs + intervalMs := by
  obtain ⟨passed, inOrder, beforeSync, wall, era⟩ := timely
  obtain ⟨called, calledClock, sameTick⟩ :=
    bounded.executeAll around (inOrder.weaken passed)
  unfold Maintenance.step
  dsimp only
  rw [if_pos isDue]
  generalize meanwhile.foldl (Maintenance.execute around) state = found
    at called calledClock sameTick wall era
  have interval := called.interval
  have nextDue : (found.tick.runIfDue afterMs).nextDueMs =
      afterMs + intervalMs := by
    rw [sameTick, Tick.runIfDue, if_pos isDue, ← bounded.interval]
  have afterBegan := inOrder.le
  have notTick : Core.Event.activeCycle (around.samplers found.process.taken)
      kCycleBudgetUs ≠ .tickFsync := by
    intro isTick
    cases isTick
  have cycledBounded := called.advance around notTick calledClock
  refine ⟨⟨?_, ?_, ?_⟩, nextDue⟩
  · change (found.tick.runIfDue afterMs).intervalMs = intervalMs
    unfold Tick.runIfDue
    split
    · exact interval
    · exact interval
  · change (found.tick.runIfDue afterMs).nextDueMs ≤ syncMs + intervalMs
    omega
  · intro healthy
    have before := healthy_of_advance healthy
    obtain ⟨wal, attached, exposed⟩ := cycledBounded.log before
    obtain ⟨later, nextAttached, ticked⟩ := Core.step_tickFsync exposed.isOpen
      exposed.policy (Process.step_advance around.world
        (found.process.cycled around) .tickFsync) attached before healthy
    have sameLength : ((found.process.cycled around).advance around.world
        .tickFsync).2.logLength = (found.process.cycled around).logLength := by
      have sameFile : later.file = wal.file := by
        rcases ticked with ⟨rfl, _⟩ | ⟨_, rfl⟩ <;> rfl
      simp only [Process.logLength, nextAttached, Option.map_some, sameFile]
      exact (congrArg (fun log => (Option.map (fun wal : Wal =>
        wal.file.length) log).getD 0) attached).symm
    refine ⟨later, nextAttached, exposed.tickFsync ticked ?_ beforeSync wall era ?_
      rfl nextDue⟩
    · omega
    · change (if _ = _ then _ else _) = (if _ = _ then _ else _)
      rw [show ((Process.handler around).tick found.process).1.logLength =
        (found.process.cycled around).logLength from sameLength]
      rfl

theorem Bounded.step (bounded : state.Bounded intervalMs offsetMs)
    {moment : Moment} (timely : Timely around offsetMs state moment) :
    (state.step around moment).Bounded intervalMs offsetMs := by
  cases moment with
  | execute nowMs cmd => exact bounded.execute around timely
  | ticks afterMs meanwhile beganMs syncMs =>
      by_cases isDue : state.tick.nextDueMs ≤ afterMs
      · exact (bounded.ticks timely isDue).1
      · have passed := timely.1
        have due := bounded.due
        unfold Maintenance.step
        dsimp only
        rw [if_neg isDue]
        refine ⟨bounded.interval, ?_, ?_⟩
        · change state.tick.nextDueMs ≤ afterMs + intervalMs
          omega
        · intro healthy
          obtain ⟨wal, attached, exposed⟩ := bounded.log healthy
          refine ⟨wal, attached, exposed.isOpen, exposed.policy, exposed.within,
            exposed.dirty, ?_, exposed.sinceSync, exposed.soon⟩
          rcases exposed.lastSync with never | ⟨era, past⟩
          · exact .inl never
          · refine .inr ⟨era, ?_⟩
            dsimp only
            omega

end Invariant

/-- The bound on what is lost.  Whenever the first loop has looked for due
callbacks and persistence has not failed, all that was written by calls begun a
second and one interval before is synced, however long the batches take, however
often the loop is interrupted and whatever the other threads do. -/
theorem everysec_exposure (around : Surroundings) {process : Process} {wal : Wal}
    (attached : process.server.dispatcher.wal = some wal)
    (isOpen : wal.isOpen = true) (policy : wal.policy = .everySec)
    (unsynced : wal.lastFsyncMs = 0)
    {startMs intervalMs offsetMs afterMs beganMs syncMs : Int}
    (interval : 0 ≤ intervalMs) {moments : List Moment}
    {meanwhile : List (Int × Command)}
    (timely : EachFold (step around) (Timely around offsetMs)
      (start startMs intervalMs process)
      (moments ++ [Moment.ticks afterMs meanwhile beganMs syncMs]))
    (healthy : ((moments ++ [Moment.ticks afterMs meanwhile beganMs
      syncMs]).foldl (step around) (start startMs intervalMs
        process)).process.server.dispatcher.persistenceFailed = false) :
    ((moments ++ [Moment.ticks afterMs meanwhile beganMs syncMs]).foldl
      (step around) (start startMs intervalMs process)).SyncedUpTo
        (afterMs - (1000 + intervalMs)) := by
  obtain ⟨before, last⟩ := timely.append
  have bounded : (moments.foldl (step around)
      (start startMs intervalMs process)).Bounded intervalMs offsetMs :=
    before.invariant (fun _ _ bounded timely => bounded.step timely)
      (start_bounded attached isOpen policy unsynced startMs intervalMs offsetMs)
  rw [List.foldl_append, List.foldl_cons, List.foldl_nil] at healthy ⊢
  generalize moments.foldl (step around) (start startMs intervalMs process) =
    state at bounded last healthy ⊢
  have nextBounded := bounded.step last.1
  obtain ⟨finalWal, finalAttached, exposed⟩ := nextBounded.log healthy
  have notDue : afterMs < (state.step around
      (.ticks afterMs meanwhile beganMs syncMs)).tick.nextDueMs ∨
      afterMs + intervalMs = (state.step around
        (.ticks afterMs meanwhile beganMs syncMs)).tick.nextDueMs := by
    by_cases isDue : state.tick.nextDueMs ≤ afterMs
    · exact .inr (bounded.ticks last.1 isDue).2.symm
    · refine .inl ?_
      unfold Maintenance.step
      dsimp only
      rw [if_neg isDue]
      exact Int.not_le.mp isDue
  intro entry member old
  have length : (state.step around (.ticks afterMs meanwhile beganMs
      syncMs)).process.syncedLength = finalWal.synced := by
    simp [Process.syncedLength, finalAttached]
  rw [length]
  by_contra beyond
  have soon := exposed.soon entry member (Nat.not_le.mp beyond)
  omega

/-- A wall clock five seconds ahead, as read by the callbacks at 100, 1080 and
1210. -/
def aheadSurroundings (walk : Walk) : Surroundings where
  world := .ideal fun reading =>
    if reading = 0 then 5100 else if reading = 1 then 6080 else 6210
  walks := fun _ => walk
  samplers := fun _ => ⟨fun _ => 0, fun _ => 0⟩

/-- A record is appended right after a sync; the callback within a second of it
leaves the record, the one after that syncs it. -/
def lateRecord : List Moment :=
  [.execute 50 [ascii "SET", ascii "k", ascii "1"], .ticks 100 [] 100 100,
    .execute 110 [ascii "SET", ascii "k", ascii "2"], .ticks 1080 [] 1080 1080]

set_option maxRecDepth 4000 in
theorem everysec_exposure_late_record :
    let state := (lateRecord ++ [Moment.ticks 1210 [] 1210 1210]).foldl
      (step (aheadSurroundings .arbitrary))
      (start 0 100 (Process.fresh (some (Wal.fresh .everySec))))
    state.written = [(50, 27), (110, 54)] ∧
      state.SyncedUpTo (1210 - (1000 + 100)) := by
  intro state
  have timely : EachFold (step (aheadSurroundings .arbitrary))
      (Timely (aheadSurroundings .arbitrary) 5000)
      (start 0 100 (Process.fresh (some (Wal.fresh .everySec))))
      (lateRecord ++ [Moment.ticks 1210 [] 1210 1210]) :=
    ⟨show (0 : Int) ≤ 50 by decide,
      ⟨show (50 : Int) ≤ 100 by decide, show (100 : Int) ≤ 100 by decide,
        show (100 : Int) ≤ 100 by decide, rfl, by decide⟩,
      show (100 : Int) ≤ 110 by decide,
      ⟨show (110 : Int) ≤ 1080 by decide, show (1080 : Int) ≤ 1080 by decide,
        show (1080 : Int) ≤ 1080 by decide, rfl, by decide⟩,
      ⟨show (1080 : Int) ≤ 1210 by decide, show (1210 : Int) ≤ 1210 by decide,
        show (1210 : Int) ≤ 1210 by decide, rfl, by decide⟩, trivial⟩
  have interval : (0 : Int) ≤ 100 := by decide
  exact ⟨rfl, everysec_exposure _ rfl rfl rfl rfl interval timely rfl⟩

end Maintenance

end HermitDb.Net
