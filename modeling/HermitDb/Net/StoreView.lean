import HermitDb.Core.RunningClock
import HermitDb.Net.Durability

/-!
# The store behind the reactors

The order of the lock is a run of the server, and the server stands for the
abstract store.  So the threads together are that store: each command is
answered as the store answers it at the moment it is executed.
-/

namespace HermitDb.Net

open Library Persist Protocol Util
open Core (World Walk Server Keyspace StoreStep Stands)

namespace Process

/-- What a call asks of the dispatcher is done while the clock stands still, and
the store has an answer to it. -/
def Calm (around : Surroundings) (process : Process) : Call → Prop
  | .execute _ cmd => process.server.Calm around.world
      (.command (around.walks process.taken) cmd)
  | .tick =>
      let cycle := .activeCycle (around.samplers process.taken) kCycleBudgetUs
      process.server.Calm around.world cycle ∧
        (process.advance around.world cycle).2.server.Calm around.world .tickFsync
  | .stopRequested => True

/-- Every one of these calls is calm when it is made. -/
def CalmThroughout (around : Surroundings) (process : Process) (stop : Bool)
    (exchanges : List (Exchange Call Call.Answer)) : Prop :=
  ∀ earlier exchange later, exchanges = earlier ++ exchange :: later →
    ∀ shared, Performs (Shared.perform (handler around)) ⟨process, stop⟩ earlier
      shared → shared.app.Calm around exchange.request

theorem CalmThroughout.initial {around : Surroundings} {process : Process}
    {stop : Bool} {exchanges more : List (Exchange Call Call.Answer)}
    (calm : process.CalmThroughout around stop (exchanges ++ more)) :
    process.CalmThroughout around stop exchanges := by
  intro earlier exchange later isAll
  apply calm earlier exchange (later ++ more)
  rw [isAll, List.append_assoc, List.cons_append]

end Process

/-! ## One exchange after the other -/

/-- The store has taken these events at the moments they began, has given these
answers, and is in step with the server. -/
structure InStep (world : World) (start final : Server)
    (timed : List (Int64 × Core.Event)) (outputs : List (Option Bytes))
    (store : Keyspace) : Prop where
  traces : Traces (StoreStep world.plainChar) start.memory.view timed outputs
    store
  ordered : timed.Pairwise fun earlier later => earlier.1 ≤ later.1
  past : ∀ taken ∈ timed, taken.1 ≤ final.moment world
  stands : Stands (final.moment world).toInt final store

section InStep

variable {world : World} {start middle final : Server}
  {timed : List (Int64 × Core.Event)} {outputs : List (Option Bytes)}
  {store : Keyspace}

theorem InStep.event (inStep : InStep world start middle timed outputs store)
    (forward : world.Ordered) {event : Core.Event}
    (calm : middle.Calm world event) {output : Option Bytes}
    (stepped : middle.step world event = .ok (output, final)) :
    ∃ following, InStep world start final
      (timed ++ [(middle.moment world, event)]) (outputs ++ [output])
      following := by
  obtain ⟨_, _, following, steppedAgain, taken, stood, clockLe⟩ :=
    inStep.stands.step_calm (Int.le_refl _) calm
  rw [stepped] at steppedAgain
  cases steppedAgain
  have later : middle.moment world ≤ final.moment world := forward _ _ clockLe
  refine ⟨following, inStep.traces.concat taken, ?_, ?_, ?_⟩
  · apply List.pairwise_append.mpr
    refine ⟨inStep.ordered, List.pairwise_singleton _ _, ?_⟩
    intro earlier isEarlier last isLast
    rw [List.mem_singleton.mp isLast]
    exact inStep.past earlier isEarlier
  · rw [List.forall_mem_append, List.forall_mem_singleton]
    refine ⟨fun earlier isEarlier => ?_, later⟩
    exact Int64.le_trans (inStep.past earlier isEarlier) later
  · exact stood.later (Int64.le_iff_toInt_le.mp later)

end InStep

end HermitDb.Net
