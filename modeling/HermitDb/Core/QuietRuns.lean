import HermitDb.Core.Progress
import HermitDb.Core.Interleaving

/-!
# Commands that change nothing

`log_mutation` owes the log nothing for an error reply, "an error reply means
nothing changed", and has no branch for commands that only read.  That is right
only if such commands really leave the keyspace alone.  Over a whole run of them
nothing happens to it but that due keys are evicted, and of these the log is
told.
-/

namespace HermitDb.Core

open Library Persist Protocol

/-- The command is none of those `log_mutation` has a branch for. -/
def onlyReads : Command → Bool
  | [] => true
  | name :: _ =>
      match table.lookup (upper name) with
      | none => true
      | some verb => !verb.mutates

/-- An error reply, or a reply to a command that only reads. -/
def Event.Unlogged : Event × Option Bytes → Prop
  | (.command _ cmd, some reply) =>
      reply.head? = (ascii "-").head? ∨ onlyReads cmd = true
  | _ => True

/-- Nothing is owed for it. -/
theorem commandRecords_of_unlogged {cmd : Command} {reply : Bytes}
    (quiet : reply.head? = (ascii "-").head? ∨ onlyReads cmd = true)
    (expiry : ExpiryManager) : commandRecords expiry cmd reply = [] := by
  cases cmd with
  | nil => rfl
  | cons name args =>
      simp only [commandRecords]
      split
      · rfl
      · rename_i verb listed
        rcases quiet with isError | reads
        · exact if_pos (.inr isError)
        · simp only [onlyReads, listed, Bool.not_eq_true'] at reads
          exact mutationRecords_of_looks reads expiry _ reply

/-- From `before` to `after` nothing has happened to the keyspace but these
evictions, each of a key that was due, and the log was given nothing else. -/
structure Server.OnlyExpired (world : World) (before after : Server)
    (records : List Command) (evicted : List Bytes) : Prop where
  wf : after.memory.Wf
  clock_le : before.memory.clockReads ≤ after.memory.clockReads
  view_eq : after.memory.view = before.memory.view.without evicted
  due : ∀ key ∈ evicted, ∃ item deadline,
    before.memory.view key = some item ∧ item.deadline = some deadline ∧
    ∃ i, before.memory.clockReads ≤ i ∧ i < after.memory.clockReads ∧
      deadline ≤ world.ms i
  given : after.dispatcher.Given (records ++ evicted.map delRecord)

namespace Server

variable {world : World}

theorem OnlyExpired.trans {first second third : Server}
    {records : List Command} {earlier later : List Bytes}
    (before : first.OnlyExpired world second records earlier)
    (after : second.OnlyExpired world third
      (records ++ earlier.map delRecord) later) :
    first.OnlyExpired world third records (earlier ++ later) where
  wf := after.wf
  clock_le := Nat.le_trans before.clock_le after.clock_le
  view_eq := by
    rw [after.view_eq, before.view_eq, TimedMap.without_append]
  due := by
    intro key gone
    rcases List.mem_append.mp gone with inEarlier | inLater
    · obtain ⟨item, deadline, present, hasDeadline, i, low, high, reached⟩ :=
        before.due key inEarlier
      exact ⟨item, deadline, present, hasDeadline, i, low,
        Nat.lt_of_lt_of_le high after.clock_le, reached⟩
    · obtain ⟨item, deadline, present, hasDeadline, i, low, high, reached⟩ :=
        after.due key inLater
      refine ⟨item, deadline, ?_, hasDeadline, i,
        Nat.le_trans before.clock_le low, high, reached⟩
      rw [before.view_eq] at present
      by_cases removed : key ∈ earlier
      · rw [TimedMap.without_of_mem removed] at present
        cases present
      · rwa [TimedMap.without_of_not_mem removed] at present
  given := by
    rw [List.map_append, ← List.append_assoc]
    exact after.given

/-- One event. -/
theorem step_onlyExpired {server next : Server} {records : List Command}
    (wf : server.memory.Wf) (given : server.dispatcher.Given records)
    (healthy : server.dispatcher.persistenceFailed = false) {event : Event}
    {output : Option Bytes}
    (stepped : server.step world event = .ok (output, next))
    (nextHealthy : next.dispatcher.persistenceFailed = false)
    (quiet : Event.Unlogged (event, output)) :
    ∃ evicted, server.OnlyExpired world next records evicted := by
  obtain ⟨memory, dispatcher⟩ := server
  obtain ⟨reply, after, evicted, own, happens, result⟩ :=
    step_happens world wf event
  have logged := given.log world memory.clockReads happens.silent
  obtain ⟨wal, attached, _⟩ := given
  have same : Server.step world ⟨memory, dispatcher⟩ event = _ :=
    result world.disk dispatcher wal healthy attached
  rw [stepped] at same
  obtain ⟨isOutput, isNext⟩ := Prod.mk.inj (Except.ok.inj same)
  subst isNext
  have nothingOwn : own = [] := by
    cases happens with
    | command outcome =>
        rw [isOutput] at quiet
        simp only [Option.map_some, Event.Unlogged] at quiet nextHealthy
        rw [nextHealthy] at quiet
        exact commandRecords_of_unlogged quiet _
    | activeCycle | tickFsync => rfl
  subst nothingOwn
  refine ⟨evicted, happens.advance.wf, happens.advance.clock_le,
    happens.advance.view_of_silent, happens.advance.due, ?_⟩
  rw [List.append_nil] at logged ⊢
  exact logged

/-- If all is quiet so far and persistence works, nothing but expiry has
happened since `start`. -/
def StaysQuiet (world : World) (start : Server) (records : List Command)
    (history : List (Event × Option Bytes)) (server : Server) : Prop :=
  server.memory.Wf ∧ (server.dispatcher.persistenceFailed = false →
    (∀ entry ∈ history, Event.Unlogged entry) →
    ∃ evicted, start.OnlyExpired world server records evicted)

theorem StaysQuiet.step {start server next : Server} {records : List Command}
    {history : List (Event × Option Bytes)}
    (stays : StaysQuiet world start records history server) {event : Event}
    {output : Option Bytes}
    (stepped : server.step world event = .ok (output, next)) :
    StaysQuiet world start records (history ++ [(event, output)]) next := by
  obtain ⟨wf, expired⟩ := stays
  refine ⟨step_wf wf stepped, ?_⟩
  intro nextHealthy allQuiet
  obtain ⟨earlierQuiet, lastQuiet⟩ := List.forall_mem_append.mp allQuiet
  have healthy := healthy_of_step wf stepped nextHealthy
  obtain ⟨evicted, earlier⟩ := expired healthy earlierQuiet
  obtain ⟨more, later⟩ := step_onlyExpired wf earlier.given healthy stepped
    nextHealthy (List.forall_mem_singleton.mp lastQuiet)
  exact ⟨evicted ++ more, earlier.trans later⟩

end Server

end HermitDb.Core
