import HermitDb.Core.FailStop

/-!
# Reachable states

A server starts empty, takes events one at a time under the keyspace lock, and
is given its log once recovery has executed the old one.  Clock readings, file
system outcomes and random picks may be different ones at every step.  In every
state reached this way the value table and the TTL table agree, and no command
runs into a fault.
-/

namespace HermitDb.Core

open Library Persist Protocol

/-- The state after `set_wal`. -/
def Server.setWal (server : Server) (wal : Wal) : Server :=
  { server with dispatcher := { server.dispatcher with wal := some wal } }

inductive Server.Reachable : Server → Prop where
  | fresh (wal : Option Wal) : Reachable (Server.fresh wal)
  | step {server next : Server} {output : Option Bytes} (world : World)
      (event : Event) (reachable : Reachable server)
      (stepped : server.step world event = .ok (output, next)) :
      Reachable next
  | setWal {server : Server} (wal : Wal) (reachable : Reachable server) :
      Reachable (server.setWal wal)

/-- A command succeeds whether or not there is a log and whatever becomes of
the records. -/
theorem execute_total (world : World) (walk : Walk) {server : Server}
    (wf : server.memory.Wf) (cmd : Command) :
    ∃ reply next, server.execute world walk cmd = .ok (reply, next) ∧
      next.memory.Wf := by
  cases failed : server.dispatcher.persistenceFailed with
  | true =>
      exact ⟨misconf, server, execute_of_failed world walk failed cmd, wf⟩
  | false =>
      obtain ⟨reply, after, evicted, outcome, result⟩ :=
        execute_eq world walk wf cmd
      exact ⟨_, _, result world.disk server.dispatcher failed, outcome.wf⟩

/-- A command either finds persistence failed and is refused, or is handled; its
reply is held back if persistence has failed by then. -/
theorem execute_cases {world : World} {walk : Walk} {server next : Server}
    (wf : server.memory.Wf) {cmd : Command} {bytes : Bytes}
    (executed : server.execute world walk cmd = .ok (bytes, next)) :
    (next.dispatcher.persistenceFailed = true ∧ bytes = misconf) ∨
      ∃ reply evicted,
        Outcome world server.memory (Action.ofCommand wrap64 cmd) reply
          next.memory evicted ∧
        bytes = if next.dispatcher.persistenceFailed then misconf
          else reply.encode := by
  cases failed : server.dispatcher.persistenceFailed with
  | true =>
      rw [execute_of_failed world walk failed cmd] at executed
      cases executed
      exact .inl ⟨failed, rfl⟩
  | false =>
      obtain ⟨reply, after, evicted, outcome, result⟩ :=
        execute_eq world walk wf cmd
      have same := (result world.disk server.dispatcher failed).symm.trans
        executed
      cases same
      exact .inr ⟨reply, evicted, outcome, rfl⟩

/-- A command that is not refused was answered with persistence working. -/
theorem execute_healthy {world : World} {walk : Walk} {server next : Server}
    (wf : server.memory.Wf) {cmd : Command} {bytes : Bytes}
    (executed : server.execute world walk cmd = .ok (bytes, next))
    (answered : bytes ≠ misconf) :
    next.dispatcher.persistenceFailed = false := by
  obtain ⟨_, refused⟩ | ⟨reply, evicted, _, sent⟩ := execute_cases wf executed
  · exact absurd refused answered
  · by_contra broken
    rw [if_pos (Bool.eq_true_of_not_eq_false broken)] at sent
    exact answered sent

/-- A command after which persistence still works was answered by its handler,
and did to the memory what its action asks. -/
theorem execute_outcome {world : World} {walk : Walk} {server next : Server}
    (wf : server.memory.Wf) {cmd : Command} {bytes : Bytes}
    (executed : server.execute world walk cmd = .ok (bytes, next))
    (healthy : next.dispatcher.persistenceFailed = false) :
    ∃ reply evicted, bytes = reply.encode ∧
      Outcome world server.memory (Action.ofCommand wrap64 cmd) reply
        next.memory evicted := by
  obtain ⟨failed, _⟩ | ⟨reply, evicted, outcome, sent⟩ :=
    execute_cases wf executed
  · rw [failed] at healthy
    cases healthy
  · rw [if_neg (Bool.eq_false_iff.mp healthy)] at sent
    exact ⟨reply, evicted, sent, outcome⟩

theorem step_total (world : World) {server : Server} (wf : server.memory.Wf)
    (event : Event) :
    ∃ output next, server.step world event = .ok (output, next) ∧
      next.memory.Wf := by
  cases event with
  | command walk cmd =>
      obtain ⟨reply, next, executed, nextWf⟩ := execute_total world walk wf cmd
      refine ⟨some reply, next, ?_, nextWf⟩
      rw [Server.step, executed]
  | activeCycle sampler budgetUs =>
      obtain ⟨stats, after, evicted, afterWf, _, _, _, _, result⟩ :=
        activeCycle_purged world sampler budgetUs wf
      have cycled : (server.activeCycle world sampler budgetUs).2.memory =
          after :=
        congrArg (fun outcome => outcome.2.memory)
          (result world.disk server.dispatcher)
      exact ⟨none, (server.activeCycle world sampler budgetUs).2, rfl,
        cycled ▸ afterWf⟩
  | tickFsync =>
      refine ⟨none, server.tickFsync world, rfl, ?_⟩
      unfold Server.tickFsync
      split
      · exact wf
      · split
        · exact wf
        · exact ⟨wf.tracked, wf.nonempty⟩

theorem step_wf {world : World} {server next : Server} {event : Event}
    {output : Option Bytes} (wf : server.memory.Wf)
    (stepped : server.step world event = .ok (output, next)) :
    next.memory.Wf := by
  obtain ⟨_, _, same, nextWf⟩ := step_total world wf event
  rw [stepped] at same
  cases same
  exact nextWf

theorem Server.Reachable.wf {server : Server} (reachable : server.Reachable) :
    server.memory.Wf := by
  induction reachable with
  | fresh wal => exact Memory.fresh_wf
  | step world event _ stepped induction => exact step_wf induction stepped
  | setWal wal _ induction => exact induction

theorem Server.Reachable.run {world : World} {server final : Server}
    {events : List Event} {outputs : List (Option Bytes)}
    (reachable : server.Reachable)
    (ran : server.run world events = .ok (outputs, final)) :
    final.Reachable := by
  induction events generalizing server outputs with
  | nil =>
      cases ran
      exact reachable
  | cons event events induction =>
      obtain ⟨output, next, stepped, _⟩ := step_total world reachable.wf event
      rw [Server.run, runAll_cons stepped] at ran
      split at ran
      · cases ran
      · rename_i restRan
        cases ran
        exact induction (.step world event reachable stepped) restRan

/-- In every reachable state no list is empty, every tracked key is stored, and
whatever the next command is, none of its `Db` operations meets the other type,
an empty list or an index out of range. -/
theorem reachable_keyspace_sound {server : Server}
    (reachable : server.Reachable) :
    (∀ key, server.memory.db.find key ≠ some (.list [])) ∧
      (∀ slot ∈ server.memory.expiry.table.slots,
        server.memory.db.find slot.key ≠ none) ∧
      (∀ key, server.memory.expiry.expiryAt key ≠ none →
        server.memory.db.find key ≠ none) ∧
      ∀ world walk cmd, ∃ reply next,
        server.execute world walk cmd = .ok (reply, next) := by
  have wf := reachable.wf
  refine ⟨wf.nonempty, ?_, ?_, ?_⟩
  · intro slot member missing
    obtain ⟨position, found⟩ := List.mem_iff_getElem?.mp member
    have tracked := server.memory.expiry.expiryAt_of_slot found
    rw [wf.tracked slot.key missing] at tracked
    cases tracked
  · intro key tracked missing
    exact tracked (wf.tracked key missing)
  · intro world walk cmd
    obtain ⟨reply, next, executed, _⟩ := execute_total world walk wf cmd
    exact ⟨reply, next, executed⟩

set_option maxRecDepth 4000 in
private theorem run_of_drained_list :
    (Server.run (World.frozen 0) (Server.fresh none)
      [.command .arbitrary [ascii "RPUSH", ascii "k", ascii "a"],
      .command .arbitrary [ascii "LPOP", ascii "k"]]).map
        (fun result => result.2.memory.db.find (ascii "k")) = .ok none := by
  rfl

/-- A list pushed and popped empty again, with `LLEN` as the next command. -/
theorem reachable_keyspace_sound_drained :
    ∃ server : Server, server.Reachable ∧
      server.memory.db.find (ascii "k") = none ∧
      ∀ world walk, ∃ reply next,
        server.execute world walk [ascii "LLEN", ascii "k"] =
          .ok (reply, next) := by
  obtain ⟨⟨outputs, server⟩, ran, gone⟩ :=
    exists_of_map_eq_ok run_of_drained_list
  have reachable := (Server.Reachable.fresh none).run ran
  exact ⟨server, reachable, gone, fun world walk =>
    (reachable_keyspace_sound reachable).2.2.2 world walk _⟩

end HermitDb.Core
