import HermitDb.Library.Machine
import Mathlib.Data.List.Chain

/-!
# Periodic callbacks

The loop sleeps no longer than until the next callback is due, runs the due ones
behind every batch, and counts the next interval from the moment it looked at
the clock.  The callback of the first loop drives `tick_fsync`, so this decides
how much a crash can cost under `everysec`.

All times are readings of the steady clock, which does not step; only the one
handed to the log is of the wall clock.
-/

namespace HermitDb.Net

open Library

def kMaxLoopTimeoutMs : Int :=
  100

/-- A periodic callback.  `fired` is when it was run; no function reads it. -/
structure Tick where
  intervalMs : Int
  nextDueMs : Int
  fired : List Int

namespace Tick

def start (startMs intervalMs : Int) : Tick :=
  ⟨intervalMs, startMs + intervalMs, []⟩

/-- The body of the loop of `run_due_ticks`. -/
def runIfDue (nowMs : Int) (tick : Tick) : Tick :=
  if tick.nextDueMs ≤ nowMs then
    { tick with
      nextDueMs := nowMs + tick.intervalMs
      fired := tick.fired ++ [nowMs] }
  else tick

end Tick

/-- When the loop has something to do next, events apart. -/
def nextDue (nowMs : Int) (ticks : List Tick) : Int :=
  ticks.foldl (fun due tick => min due tick.nextDueMs)
    (nowMs + kMaxLoopTimeoutMs)

def runDueTicks (nowMs : Int) (ticks : List Tick) : Int × List Tick :=
  let ticks := ticks.map (Tick.runIfDue nowMs)
  (nextDue nowMs ticks, ticks)

/-- How long `epoll_wait` may sleep: `next_due - now`, clamped. -/
def timeout (nowMs : Int) (ticks : List Tick) : Int :=
  max 0 (min (nextDue nowMs ticks - nowMs) kMaxLoopTimeoutMs)

/-- One pass through the loop: the clock before `epoll_wait` and behind the
batch.  A pass that a signal interrupts starts over. -/
structure Pass where
  nowMs : Int
  interrupted : Bool
  afterMs : Int

/-- The callbacks and the latest reading of the clock. -/
structure Timers where
  ticks : List Tick
  clockMs : Int

namespace Timers

def start (startMs : Int) (intervals : List Int) : Timers :=
  ⟨intervals.map (Tick.start startMs), startMs⟩

def pass (timers : Timers) (pass : Pass) : Timers :=
  if pass.interrupted then { timers with clockMs := pass.nowMs }
  else ⟨(runDueTicks pass.afterMs timers.ticks).2, pass.afterMs⟩

end Timers

/-! ## Sleeping -/

theorem foldl_min_le (ticks : List Tick) (first : Int) :
    ticks.foldl (fun due tick => min due tick.nextDueMs) first ≤ first ∧
      ∀ tick ∈ ticks,
        ticks.foldl (fun due tick => min due tick.nextDueMs) first ≤
          tick.nextDueMs := by
  induction ticks generalizing first with
  | nil => exact ⟨Int.le_refl _, List.forall_mem_nil _⟩
  | cons tick ticks induction =>
      obtain ⟨low, each⟩ := induction (min first tick.nextDueMs)
      refine ⟨Int.le_trans low (Int.min_le_left _ _), ?_⟩
      rw [List.forall_mem_cons]
      exact ⟨Int.le_trans low (Int.min_le_right _ _), each⟩

/-- The loop does not sleep past a callback that is due, and never long. -/
theorem timeout_bounds (nowMs : Int) (ticks : List Tick) :
    0 ≤ timeout nowMs ticks ∧ timeout nowMs ticks ≤ kMaxLoopTimeoutMs ∧
      ∀ tick ∈ ticks,
        nowMs + timeout nowMs ticks ≤ max nowMs tick.nextDueMs := by
  refine ⟨Int.le_max_left _ _, ?_, ?_⟩
  · exact Int.max_le.mpr ⟨by decide, Int.min_le_right _ _⟩
  · intro tick member
    have due := (foldl_min_le ticks (nowMs + kMaxLoopTimeoutMs)).2 tick member
    change nextDue nowMs ticks ≤ tick.nextDueMs at due
    unfold timeout
    omega

/-! ## One callback -/

namespace Tick

/-- When the callback last ran, or the loop was started. -/
def lastMs (startMs : Int) (tick : Tick) : Int :=
  tick.fired.getLast?.getD startMs

/-- Since the start the callback has run at times that are related like this,
given its interval. -/
structure Keeps (within : Int → Int → Int → Prop) (startMs : Int) (tick : Tick) :
    Prop where
  chain : (startMs :: tick.fired).IsChain (within tick.intervalMs)
  due : tick.nextDueMs = tick.lastMs startMs + tick.intervalMs
  positive : 0 < tick.intervalMs

theorem start_keeps (within : Int → Int → Int → Prop) (startMs : Int)
    {intervalMs : Int} (positive : 0 < intervalMs) :
    (start startMs intervalMs).Keeps within startMs :=
  ⟨.singleton startMs, rfl, positive⟩

theorem Keeps.runIfDue {within : Int → Int → Int → Prop} {startMs nowMs : Int}
    {tick : Tick} (keeps : tick.Keeps within startMs)
    (spaced : tick.nextDueMs ≤ nowMs →
      within tick.intervalMs (tick.lastMs startMs) nowMs) :
    (tick.runIfDue nowMs).Keeps within startMs := by
  unfold Tick.runIfDue
  split
  · rename_i isDue
    refine ⟨?_, ?_, keeps.positive⟩
    · change (startMs :: tick.fired ++ [nowMs]).IsChain _
      rw [List.isChain_append]
      refine ⟨keeps.chain, .singleton nowMs, ?_⟩
      intro last isLast now isNow
      cases isNow
      rw [List.getLast?_cons] at isLast
      cases isLast
      exact spaced isDue
    · simp [lastMs]
  · exact keeps

/-- Nothing is overdue after a look. -/
theorem lt_nextDueMs {nowMs : Int} {tick : Tick}
    (positive : 0 < tick.intervalMs) :
    nowMs < (tick.runIfDue nowMs).nextDueMs := by
  unfold Tick.runIfDue
  split
  · change nowMs < nowMs + tick.intervalMs
    omega
  · rename_i notDue
    omega

end Tick

/-! ## Whole runs -/

/-- The pass begins at most `idle` after the last reading of the clock, and its
batch is done at most `busy` after the sleep should have ended. -/
structure Pass.Prompt (idle busy : Int) (timers : Timers) (pass : Pass) :
    Prop where
  uninterrupted : pass.interrupted = false
  ordered : timers.clockMs ≤ pass.nowMs
  idle : pass.nowMs ≤ timers.clockMs + idle
  busy : pass.afterMs ≤ pass.nowMs + timeout pass.nowMs timers.ticks + busy

/-- Every callback keeps to these times. -/
def Timers.Keep (within : Int → Int → Int → Prop) (startMs : Int)
    (timers : Timers) : Prop :=
  ∀ tick ∈ timers.ticks, tick.Keeps within startMs

theorem Timers.start_keep (within : Int → Int → Int → Prop) (startMs : Int)
    {intervals : List Int}
    (positive : ∀ intervalMs ∈ intervals, 0 < intervalMs) :
    (Timers.start startMs intervals).Keep within startMs := by
  unfold Timers.Keep Timers.start
  rw [List.forall_mem_map]
  intro intervalMs member
  exact Tick.start_keeps within startMs (positive intervalMs member)

theorem Timers.Keep.pass {within : Int → Int → Int → Prop} {startMs : Int}
    {timers : Timers} (keep : timers.Keep within startMs) {pass : Pass}
    (spaced : ∀ tick ∈ timers.ticks, tick.Keeps within startMs →
      tick.nextDueMs ≤ pass.afterMs →
      within tick.intervalMs (tick.lastMs startMs) pass.afterMs) :
    (timers.pass pass).Keep within startMs := by
  unfold Timers.pass
  split
  · exact keep
  · unfold Timers.Keep
    simp only [runDueTicks, List.forall_mem_map]
    intro tick member
    exact (keep tick member).runIfDue (spaced tick member (keep tick member))

/-- After a pass that is not interrupted no callback is overdue. -/
theorem Timers.Keep.lt_nextDueMs {within : Int → Int → Int → Prop}
    {startMs : Int} {timers : Timers} (keep : timers.Keep within startMs)
    {pass : Pass} (uninterrupted : pass.interrupted = false) :
    (timers.pass pass).clockMs = pass.afterMs ∧
      ∀ tick ∈ (timers.pass pass).ticks, pass.afterMs < tick.nextDueMs := by
  simp only [Timers.pass, uninterrupted, Bool.false_eq_true, if_false,
    runDueTicks, List.forall_mem_map, true_and]
  intro tick member
  exact Tick.lt_nextDueMs (keep tick member).positive

/-- A callback that was not overdue is not late after a prompt pass. -/
theorem Pass.Prompt.not_late {idle busy startMs : Int} {timers : Timers}
    {pass : Pass} (prompt : pass.Prompt idle busy timers)
    {within : Int → Int → Int → Prop} {tick : Tick}
    (member : tick ∈ timers.ticks) (keeps : tick.Keeps within startMs)
    (ahead : timers.clockMs < tick.nextDueMs) :
    pass.afterMs ≤ tick.lastMs startMs + tick.intervalMs + idle + busy := by
  have slept := (timeout_bounds pass.nowMs timers.ticks).2.2 tick member
  have due := keeps.due
  have ordered := prompt.ordered
  have begun := prompt.idle
  have done := prompt.busy
  omega

/-- Callbacks run at least their interval apart, whatever the loop meets.  After
a pass that is not interrupted none is overdue.  If all passes are prompt, they
are late by no more than that. -/
theorem ticks_on_time (startMs : Int) {intervals : List Int}
    (positive : ∀ intervalMs ∈ intervals, 0 < intervalMs) (passes : List Pass) :
    let timers := passes.foldl Timers.pass (Timers.start startMs intervals)
    (∀ tick ∈ timers.ticks, (startMs :: tick.fired).IsChain
      fun earlier later => earlier + tick.intervalMs ≤ later) ∧
    (∀ pass, pass.interrupted = false →
      ∀ tick ∈ (timers.pass pass).ticks, pass.afterMs < tick.nextDueMs) ∧
    ∀ idle busy, EachFold Timers.pass (fun timers pass =>
        pass.Prompt idle busy timers) (Timers.start startMs intervals) passes →
      ∀ tick ∈ timers.ticks, (startMs :: tick.fired).IsChain
        fun earlier later => later ≤ earlier + tick.intervalMs + idle + busy := by
  intro timers
  let apart : Int → Int → Int → Prop :=
    fun intervalMs earlier later => earlier + intervalMs ≤ later
  have spaced : timers.Keep apart startMs := by
    have always : EachFold Timers.pass (fun _ _ => True)
        (Timers.start startMs intervals) passes :=
      .of_forall (fun _ _ _ => trivial) _
    refine always.invariant ?_ (Timers.start_keep apart startMs positive)
    intro timers pass keep _
    apply keep.pass
    intro tick _ keeps isDue
    rw [keeps.due] at isDue
    exact isDue
  refine ⟨fun tick member => (spaced tick member).chain,
    fun pass uninterrupted => (spaced.lt_nextDueMs uninterrupted).2, ?_⟩
  intro idle busy prompt
  let late : Int → Int → Int → Prop := fun intervalMs earlier later =>
    later ≤ earlier + intervalMs + idle + busy
  have kept : timers.Keep late startMs ∧
      ∀ tick ∈ timers.ticks, timers.clockMs < tick.nextDueMs := by
    refine @EachFold.invariant _ _ _ _ (fun timers =>
      timers.Keep late startMs ∧
        ∀ tick ∈ timers.ticks, timers.clockMs < tick.nextDueMs) ?_ _ _ ?_ prompt
    · rintro timers pass ⟨keep, ahead⟩ isPrompt
      obtain ⟨clock, notDue⟩ := keep.lt_nextDueMs isPrompt.uninterrupted
      refine ⟨keep.pass ?_, ?_⟩
      · intro tick member keeps _
        exact isPrompt.not_late member keeps (ahead tick member)
      · rw [clock]
        exact notDue
    · refine ⟨Timers.start_keep late startMs positive, ?_⟩
      unfold Timers.start
      rw [List.forall_mem_map]
      intro intervalMs member
      have isPositive := positive intervalMs member
      change startMs < startMs + intervalMs
      omega
  exact fun tick member => (kept.1 tick member).chain

/-- One callback every 100 ms, and three passes.  The second one is busy for
90 ms, so that the callback runs 40 ms late. -/
theorem ticks_on_time_busy :
    let passes : List Pass :=
      [⟨0, false, 50⟩, ⟨50, false, 140⟩, ⟨140, false, 240⟩]
    let timers := passes.foldl Timers.pass (Timers.start 0 [100])
    timers.ticks.map Tick.fired = [[140, 240]] ∧
      ∀ tick ∈ timers.ticks, (0 :: tick.fired).IsChain fun earlier later =>
        later ≤ earlier + tick.intervalMs + 0 + 40 := by
  intro passes timers
  have prompt : EachFold Timers.pass (fun timers pass =>
      pass.Prompt 0 40 timers) (Timers.start 0 [100]) passes :=
    ⟨⟨rfl, by decide, by decide, by decide⟩,
      ⟨rfl, by decide, by decide, by decide⟩,
      ⟨rfl, by decide, by decide, by decide⟩, trivial⟩
  refine ⟨by decide, ?_⟩
  exact (ticks_on_time 0 (by decide) passes).2.2 0 40 prompt

end HermitDb.Net
