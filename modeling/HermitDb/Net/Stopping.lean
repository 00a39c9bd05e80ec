import HermitDb.Net.Durability

/-!
# The end of a batch

Any thread may raise the stop flag, and the others are then in the middle of
their batches.  Each of them handles at most one more chunk for every entry its
batch has left and leaves the loop at the next wait, however busy its clients
are and whatever the others do in the meantime.
-/

namespace HermitDb.Net

open Library Protocol Util

/-- A look at the flag finds it up. -/
def SeesStop : Exchange Call Call.Answer → Prop
  | ⟨.stopRequested, stop⟩ => stop = true
  | _ => True

/-- The calls that are not for a command: a look at the flag, after every chunk
and before every wait, and the periodic callbacks. -/
def Call.passes : Call → Bool
  | .execute _ _ => false
  | .tick => true
  | .stopRequested => true

/-- How many events there are before the next wait. -/
def untilWait : List Event → Nat
  | [] => 0
  | .wait :: _ => 0
  | _ :: events => untilWait events + 1

/-- There are never more events than this before a wait. -/
def Batched (entries : Nat) : List Event → Prop
  | [] => True
  | event :: events => untilWait (event :: events) ≤ entries ∧
      Batched entries events

/-! ## One event -/

section Look

variable {Result : Type} {resume : Bool → Task Call Call.Answer Result}
  {budget : Nat}

theorem spends_of_look
    (stopped : (resume true).Spends SeesStop Call.passes budget) :
    (Task.call .stopRequested resume).Spends SeesStop Call.passes
      (budget + 1) := by
  refine ⟨Nat.le_add_left 1 budget, ?_⟩
  intro stop isUp
  rw [show stop = true from isUp]
  exact stopped

theorem quits_of_look
    (stopped : (resume true).Spends SeesStop Call.passes budget)
    (either : ∀ stop,
      (resume stop).Quits SeesStop Call.passes (budget + 1)) :
    (Task.call .stopRequested resume).Quits SeesStop Call.passes
      (budget + 1) :=
  ⟨spends_of_look stopped, either⟩

end Look

theorem handleTask_quits (fd : Fd) (cmds : List Command) (conn : Connection)
    (acts : List Act) :
    (handleTask fd cmds conn acts).Quits SeesStop Call.passes 0 := by
  induction cmds generalizing conn acts with
  | nil => trivial
  | cons cmd cmds induction =>
      have rest := fun reply : Bytes => induction (conn.queueReply reply)
        (acts ++ [.handled cmd, .queued reply])
      exact ⟨⟨Nat.le_refl 0, fun reply _ => (rest reply).spends⟩, rest⟩

/-- A chunk is the last one if the flag is up after it. -/
theorem readTask_quits (fd : Fd) (recvs : List RecvOutcome) (readThisEvent : Nat)
    (conn : Connection) (acts : List Act) :
    (readTask fd recvs readThisEvent conn acts).Quits SeesStop Call.passes 1 := by
  induction recvs generalizing readThisEvent conn acts with
  | nil => trivial
  | cons outcome recvs induction =>
      cases outcome with
      | wouldBlock | failed => trivial
      | interrupted => exact induction readThisEvent conn acts
      | data chunk =>
          cases chunk with
          | nil => trivial
          | cons letter letters =>
              unfold readTask
              dsimp only
              split
              · trivial
              · refine (handleTask_quits fd _ _ _).bind (fun handled => ?_)
                  (Nat.le_refl (0 + 1)) (fun handled => ?_)
                · exact spends_of_look trivial
                refine quits_of_look trivial ?_
                intro stop
                cases stop with
                | true => trivial
                | false =>
                    dsimp only [cond_false]
                    split
                    · trivial
                    · exact induction _ _ _

namespace EventLoop

theorem dispatchTask_quits (loop : EventLoop) (fd : Fd) (bits : Ready)
    (recvs : List RecvOutcome) (afterRead onWritable : FlushOutcome) :
    (loop.dispatchTask fd bits recvs afterRead onWritable).Quits SeesStop
      Call.passes 1 := by
  have readable : ∀ conn,
      (loop.handleReadableTask recvs afterRead fd conn).Quits SeesStop
        Call.passes 1 :=
    fun conn => (readTask_quits fd recvs 0 conn []).bind_done _
  unfold dispatchTask
  split
  · trivial
  · split
    · trivial
    · split
      · trivial
      · apply Task.Quits.bind_done
        split
        · exact readable _
        · trivial

theorem eventTask_quits (cfg : Config) (ticks : Bool) (loop : EventLoop)
    (event : Event) :
    (loop.eventTask cfg ticks event).Quits SeesStop Call.passes 1 := by
  unfold eventTask
  split
  · trivial
  · cases event with
    | wait => exact quits_of_look trivial fun _ => trivial
    | listener accepts => trivial
    | ready fd bits recvs afterRead onWritable =>
        exact loop.dispatchTask_quits fd bits recvs afterRead onWritable
    | tick =>
        dsimp only
        split
        · exact ⟨⟨Nat.le_refl 1, fun _ _ => trivial⟩, fun _ => trivial⟩
        · trivial

/-! ## The rest of a batch -/

theorem loopTask_stopped (cfg : Config) (ticks : Bool) {loop : EventLoop}
    (stopped : loop.stopped = true) (events : List Event) :
    loopTask cfg ticks loop events = .done loop := by
  induction events with
  | nil => rfl
  | cons event events induction =>
      rw [loopTask]
      unfold eventTask
      rw [if_pos stopped]
      exact induction

theorem loopTask_wait (cfg : Config) (ticks : Bool) {loop : EventLoop}
    (running : loop.stopped = false) (events : List Event) :
    loopTask cfg ticks loop (.wait :: events) =
      .call .stopRequested fun stop => loopTask cfg ticks
        (bif stop then loop.leave else { loop with closedThisBatch := [] })
        events := by
  rw [loopTask, eventTask, running]
  rfl

theorem untilWait_cons {event : Event} (notWait : event ≠ .wait)
    (events : List Event) :
    untilWait (event :: events) = untilWait events + 1 := by
  cases event with
  | wait => exact absurd rfl notWait
  | listener | ready | tick => rfl

/-- Once the flag is up the loop is left at the next wait. -/
theorem loopTask_spends (cfg : Config) (ticks : Bool) (loop : EventLoop)
    (events : List Event) :
    (loopTask cfg ticks loop events).Spends SeesStop Call.passes
      (untilWait events + 1) := by
  induction events generalizing loop with
  | nil => trivial
  | cons event events induction =>
      cases stopped : loop.stopped with
      | true =>
          rw [loopTask_stopped cfg ticks stopped]
          trivial
      | false =>
          by_cases isWait : event = .wait
          · subst isWait
            rw [loopTask_wait cfg ticks stopped]
            apply spends_of_look
            rw [cond_true, loopTask_stopped cfg ticks rfl]
            trivial
          · rw [untilWait_cons isWait, Nat.add_comm _ 1]
            apply (loop.eventTask_quits cfg ticks event).spends.bind
            intro next
            exact induction next

theorem loopTask_quits (cfg : Config) (ticks : Bool) {entries : Nat}
    {events : List Event} (batched : Batched entries events) (loop : EventLoop) :
    (loopTask cfg ticks loop events).Quits SeesStop Call.passes
      (entries + 1) := by
  induction events generalizing loop with
  | nil => trivial
  | cons event events induction =>
      obtain ⟨small, rest⟩ := batched
      cases stopped : loop.stopped with
      | true =>
          rw [loopTask_stopped cfg ticks stopped]
          trivial
      | false =>
          by_cases isWait : event = .wait
          · subst isWait
            rw [loopTask_wait cfg ticks stopped]
            refine quits_of_look ?_ fun stop => induction rest _
            rw [cond_true, loopTask_stopped cfg ticks rfl]
            trivial
          · rw [untilWait_cons isWait] at small
            refine (loop.eventTask_quits cfg ticks event).bind
              (fun next => loopTask_spends cfg ticks next events) ?_
              (fun next => induction rest next)
            omega

end EventLoop

/-! ## All threads -/

variable {App : Type}

/-- The flag is never taken down. -/
theorem performs_stopped {handler : Handler App} {shared final : Shared App}
    {exchanges : List (Exchange Call Call.Answer)}
    (performs : Performs (Shared.perform handler) shared exchanges final)
    (stopped : shared.stop = true) :
    final.stop = true ∧ ∀ exchange ∈ exchanges, SeesStop exchange := by
  induction performs with
  | nil => exact ⟨stopped, List.forall_mem_nil _⟩
  | @concat middle exchanges before request induction =>
      obtain ⟨isUp, sees⟩ := induction
      rw [List.forall_mem_append, List.forall_mem_singleton]
      cases request with
      | execute fd cmd =>
          refine ⟨?_, sees, trivial⟩
          simp [Shared.perform, isUp]
      | tick =>
          refine ⟨?_, sees, trivial⟩
          simp [Shared.perform, isUp]
      | stopRequested => exact ⟨isUp, sees, isUp⟩

/-- Prompt shutdown.  Once any thread has raised the stop flag it stays up, and
whatever the schedule and however long the clients' input, each thread looks at
it and runs callbacks no more often than its batches have entries, and once more
for the wait at which it leaves. -/
theorem stop_ends_batches (handler : Handler App) (cfg : Config) (app : App)
    {scripts : List (List Event)} {entries : Nat}
    (batched : ∀ events ∈ scripts, Batched entries events)
    (schedule later : List Nat)
    (stopped : (runReactors handler cfg app scripts schedule).object.stop =
      true) :
    let before := runReactors handler cfg app scripts schedule
    let after := runReactors handler cfg app scripts (schedule ++ later)
    after.object.stop = true ∧
    ∃ more, after.history = before.history ++ more ∧
      (∀ entry ∈ more, SeesStop entry.2) ∧
      ∀ position < scripts.length,
        (exchangesOf position more).countP
          (fun exchange => exchange.request.passes) ≤ entries + 1 := by
  intro before after
  obtain ⟨more, grown, performs, follows⟩ :=
    Threads.run_continues (Shared.perform handler) before later
  have isAfter : before.run (Shared.perform handler) later = after :=
    (List.foldl_append ..).symm
  rw [isAfter] at grown performs follows
  obtain ⟨isUp, sees⟩ := performs_stopped performs stopped
  have seesAll : ∀ entry ∈ more, SeesStop entry.2 := by
    intro entry member
    exact sees entry.2 (List.mem_map_of_mem member)
  refine ⟨isUp, more, grown, seesAll, ?_⟩
  intro position inside
  have threads : after.tasks.length = scripts.length := by
    rw [← isAfter, Threads.run_length]
    change (Threads.run _ (Threads.start _ (reactorTasks cfg scripts))
      schedule).tasks.length = scripts.length
    rw [Threads.run_length]
    exact List.length_mapIdx
  obtain ⟨task, isTask⟩ : ∃ task, after.tasks[position]? = some task :=
    ⟨_, List.getElem?_eq_getElem (threads ▸ inside)⟩
  obtain ⟨middle, isMiddle, reaches⟩ := follows position task isTask
  obtain ⟨events, isScript, began⟩ := runReactors_follows handler cfg app isMiddle
  have quits := (EventLoop.loopTask_quits cfg (position == 0)
    (batched events isScript) EventLoop.fresh).reaches began
  apply quits.spends.countP_le reaches
  intro exchange member
  exact seesAll _ (mem_of_mem_exchangesOf member)

/-- One client shuts the server down, and another keeps sending. -/
def shutdownClients : List (List Event) :=
  let busy := Event.ready 6 ⟨false, true, false⟩ [.data (ascii "GET a\r\n")]
    ⟨[.accepted 64], true⟩ ⟨[], true⟩
  [[.listener [.client 5 true],
      .ready 5 ⟨false, true, false⟩ [.data (ascii "SHUTDOWN\r\n")]
        ⟨[.accepted 64], true⟩ ⟨[], true⟩],
    [.listener [.client 6 true], busy, .wait, busy, .wait, busy]]

set_option maxRecDepth 4000 in
private theorem shutdownClients_stopped (walk : Core.Walk) :
    (runReactors (Process.handler (idleSurroundings walk)) Config.initial
      (Process.fresh none) shutdownClients [0]).object.stop = true := by
  rfl

/-- The other client is served once more. -/
theorem stop_ends_batches_shutdown :
    let after := fun schedule => runReactors
      (Process.handler (idleSurroundings .arbitrary)) Config.initial
      (Process.fresh none) shutdownClients schedule
    (after [0]).object.stop = true ∧
    ∃ more, (after [0, 1, 1, 0, 1, 1]).history = (after [0]).history ++ more ∧
      ∀ position < 2, (exchangesOf position more).countP
        (fun exchange => exchange.request.passes) ≤ 3 := by
  intro after
  have batched : ∀ events ∈ shutdownClients, Batched 2 events := by
    simp [shutdownClients, Batched, untilWait]
  have stopped := shutdownClients_stopped .arbitrary
  obtain ⟨_, more, grown, _, bounded⟩ := stop_ends_batches
    (Process.handler (idleSurroundings .arbitrary)) Config.initial
    (Process.fresh none) batched [0] [1, 1, 0, 1, 1] stopped
  exact ⟨stopped, more, grown, bounded⟩

end HermitDb.Net
