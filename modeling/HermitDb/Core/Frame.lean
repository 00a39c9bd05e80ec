import HermitDb.Core.Reachable
import HermitDb.Core.StoreRefinement
import HermitDb.Library.Locality

/-!
# Keys a command does not name

At one moment, a command on named keys is a step local to them: whatever it
evicts, stores or removes carries one of its names, and its reply depends on
nothing else.  Commands with different names therefore commute.
-/

namespace HermitDb.Core

open Library Persist Protocol

/-! ## Names -/

/-- The command takes keys as arguments. -/
def Verb.isKeyed : Verb → Bool
  | .ping | .echo | .flushall | .dbsize | .keys | .config | .command => false
  | _ => true

/-- The keys a command names, whether or not its other arguments are in
order. -/
def namedKeys (cmd : Command) : List Bytes :=
  match cmd with
  | name :: key :: rest =>
      match table.lookup (upper name) with
      | some .del | some .exists => key :: rest
      | some verb => if verb.isKeyed then [key] else []
      | none => []
  | _ => []

def IsKeyed (cmd : Command) : Prop :=
  ∃ name args verb, cmd = name :: args ∧
    table.lookup (upper name) = some verb ∧ verb.isKeyed = true

namespace Action

/-- The keys the action is given by name. -/
def targets : Action → List Bytes
  | onKey key _ => [key]
  | del targets => targets
  | .exists targets => targets
  | _ => []

/-- The action is about its targets and nothing else. -/
def Keyed : Action → Prop
  | keys _ | dbsize | flushall => False
  | _ => True

theorem Keyed.touches_iff {action : Action} (keyed : action.Keyed)
    (plain : PlainChar) (key : Bytes) :
    action.Touches plain key ↔ key ∈ action.targets := by
  cases action with
  | onKey target op => exact List.mem_singleton.symm
  | answer => simp [Touches, targets]
  | del | «exists» => exact Iff.rfl
  | keys | dbsize | flushall => exact keyed.elim

end Action

theorem Verb.action_named {name : Bytes} {verb : Verb}
    (listed : table.lookup (upper name) = some verb) (args : List Bytes) :
    ∀ key ∈ (verb.action wrap64 (name :: args)).targets,
      key ∈ namedKeys (name :: args) := by
  intro key isTarget
  cases args with
  | nil => cases verb <;> cases isTarget
  | cons first rest =>
      rw [namedKeys, listed]
      cases verb
      all_goals
        simp only [Verb.action, keyAction, keysAction, numberAction, pushAction]
          at isTarget
        repeat' split at isTarget
      all_goals simp_all [Action.targets, Verb.isKeyed]

theorem ofCommand_named (cmd : Command) :
    ∀ key ∈ (Action.ofCommand wrap64 cmd).targets, key ∈ namedKeys cmd := by
  intro key isTarget
  cases cmd with
  | nil => cases isTarget
  | cons name args =>
      cases listed : table.lookup (upper name) with
      | some verb =>
          rw [ofCommand_of_lookup wrap64 listed] at isTarget
          exact Verb.action_named listed args key isTarget
      | none =>
          rw [Action.ofCommand, listed] at isTarget
          split at isTarget <;> cases isTarget

theorem IsKeyed.action_keyed {cmd : Command} (keyed : IsKeyed cmd) :
    (Action.ofCommand wrap64 cmd).Keyed := by
  obtain ⟨name, args, verb, rfl, listed, keyed⟩ := keyed
  rw [ofCommand_of_lookup wrap64 listed]
  cases verb
  all_goals
    simp only [Verb.action, keyAction, keysAction, numberAction, pushAction]
    repeat' split
  all_goals first | exact True.intro | cases keyed

/-! ## Local actions -/

section Local

variable {action : Action} {now : Int}

/-- The keyspace once the targets have been touched. -/
def Action.purge (now : Int) (action : Action) (keyspace : Keyspace) :
    Keyspace :=
  keyspace.without (action.targets.filter fun key => isDue now (keyspace key))

/-- The keyspace after the touches and the action. -/
def Action.lazily (now : Int) (action : Action) (keyspace : Keyspace) :
    Keyspace :=
  action.after wrap64 now (action.purge now keyspace)

theorem Action.purge_local (now : Int) (action : Action) :
    LocalTo (· ∈ action.targets) (action.purge now) where
  frame keyspace key outside :=
    TimedMap.without_of_not_mem fun due => outside (List.mem_filter.mp due).1
  congr left right same key inside := by
    simp only [Action.purge, TimedMap.without, List.mem_filter, inside,
      same key inside]

theorem Action.Keyed.after_local (keyed : action.Keyed) (now : Int) :
    LocalTo (· ∈ action.targets) (action.after wrap64 now) := by
  cases action with
  | onKey target op =>
      constructor
      · intro keyspace key outside
        exact Function.update_of_ne (fun same => outside (by simp [same, targets])) _ _
      · intro left right same key inside
        obtain rfl := List.mem_singleton.mp inside
        simp only [after, Function.update_self, same key inside]
  | del removed =>
      constructor
      · intro keyspace key outside
        exact TimedMap.without_of_not_mem outside
      · intro left right same key inside
        have gone : ∀ keyspace : Keyspace,
            (del removed).after wrap64 now keyspace key = none :=
          fun _ => TimedMap.without_of_mem inside
        rw [gone, gone]
  | answer | «exists» => exact LocalTo.id _
  | keys | dbsize | flushall => exact keyed.elim

theorem Action.Keyed.lazily_local (keyed : action.Keyed) (now : Int) :
    LocalTo (· ∈ action.targets) (action.lazily now) :=
  (keyed.after_local now).comp (action.purge_local now)

/-- Keyspaces that agree on the targets get the same reply. -/
theorem Action.Keyed.answers_unique (keyed : action.Keyed)
    {plain otherPlain : PlainChar} {left right : Keyspace}
    {reply other : Reply}
    (same : ∀ key ∈ action.targets, left key = right key)
    (answers : action.Answers plain wrap64 now left reply)
    (otherAnswers : action.Answers otherPlain wrap64 now right other) :
    reply = other := by
  cases action with
  | answer fixed => exact answers.trans otherAnswers.symm
  | onKey key op =>
      rw [Answers, same key (List.mem_singleton_self key)] at answers
      exact answers.trans otherAnswers.symm
  | del targets =>
      rw [answers, otherAnswers]
      congr 2
      apply List.countP_congr
      intro key member
      rw [same key (List.mem_dedup.mp member)]
  | «exists» targets =>
      rw [answers, otherAnswers]
      congr 2
      apply List.countP_congr
      intro key member
      rw [same key member]
  | keys | dbsize | flushall => exact keyed.elim

end Local

/-! ## Commands at one moment -/

section Moment

variable {before after : Memory} {action : Action} {reply : Reply}
  {evicted : List Bytes}

theorem isDue_iff {now : Int} {item : Option Item} :
    isDue now item = true ↔ ∃ held deadline, item = some held ∧
      held.deadline = some deadline ∧ deadline ≤ now := by
  cases item with
  | none => simp [isDue]
  | some held => simp [isDue, Timed.live_eq_false_iff]

/-- A command on named keys evicts those of them that are due. -/
theorem Outcome.purged {world : World} {now : Int} (keyed : action.Keyed)
    (clock : ∀ reading, world.ms reading = now)
    (outcome : Outcome world before action reply after evicted) :
    before.view.without evicted = action.purge now before.view := by
  apply TimedMap.without_congr
  intro key
  rw [List.mem_filter, ← keyed.touches_iff world.plainChar, isDue_iff]
  constructor
  · intro gone
    obtain ⟨item, deadline, present, hasDeadline, i, _, _, reached⟩ :=
      outcome.due key gone
    exact ⟨outcome.evicted_touched key gone, item, deadline, present,
      hasDeadline, clock i ▸ reached⟩
  · rintro ⟨touched, item, deadline, present, hasDeadline, reached⟩
    by_contra kept
    obtain ⟨i, _, _, early⟩ :=
      outcome.spared key item deadline touched kept present hasDeadline
    rw [clock i] at early
    omega

/-- `cmd` is executed at `now` and leaves persistence working.  The file system,
the target and the order of tables are left open. -/
def Server.Runs (now : Int64) (server : Server) (cmd : Command) (reply : Bytes)
    (next : Server) : Prop :=
  ∃ world walk,
    server.execute (World.stopped world now) walk cmd = .ok (reply, next) ∧
    next.dispatcher.persistenceFailed = false

theorem Server.Runs.acts {now : Int64} {server next : Server} {cmd : Command}
    {bytes : Bytes} (wf : server.memory.Wf) (keyed : IsKeyed cmd)
    (runs : server.Runs now cmd bytes next) :
    next.memory.Wf ∧
      next.memory.view = (Action.ofCommand wrap64 cmd).lazily now.toInt
        server.memory.view ∧
      ∃ reply plain, bytes = reply.encode ∧
        (Action.ofCommand wrap64 cmd).Answers plain wrap64 now.toInt
          ((Action.ofCommand wrap64 cmd).purge now.toInt server.memory.view)
          reply := by
  obtain ⟨world, walk, executed, healthy⟩ := runs
  obtain ⟨reply, evicted, rfl, outcome⟩ := execute_outcome wf executed healthy
  have clock : ∀ reading, (world.stopped now).ms reading = now.toInt :=
    fun _ => rfl
  have purged := outcome.purged keyed.action_keyed clock
  have answers := outcome.answers now.toInt (fun _ => rfl) fun _ _ _ _ _ => rfl
  refine ⟨outcome.wf, ?_, reply, _, rfl, purged ▸ answers⟩
  rw [Action.lazily, ← purged]
  exact outcome.view_eq now.toInt fun _ => rfl

end Moment

/-! ## Commuting commands -/

section Commuting

variable {now : Int64} {server next : Server} {cmd : Command} {bytes : Bytes}

/-- A command leaves the keys it does not name as they are. -/
theorem Server.Runs.frame (wf : server.memory.Wf) (keyed : IsKeyed cmd)
    (runs : server.Runs now cmd bytes next) {key : Bytes}
    (unnamed : key ∉ namedKeys cmd) :
    next.memory.db.find key = server.memory.db.find key ∧
      next.memory.expiry.expiryAt key = server.memory.expiry.expiryAt key := by
  obtain ⟨nextWf, view, _⟩ := runs.acts wf keyed
  apply Memory.entry_eq_of_view_eq nextWf wf
  rw [view]
  apply (keyed.action_keyed.lazily_local now.toInt).frame
  exact fun isTarget => unnamed (ofCommand_named cmd key isTarget)

/-- The reply of a command does not depend on the keys it does not name. -/
theorem Server.Runs.reply_eq {other final : Server} {reply : Bytes}
    (wf : server.memory.Wf) (otherWf : other.memory.Wf) (keyed : IsKeyed cmd)
    (runs : server.Runs now cmd bytes next)
    (otherRuns : other.Runs now cmd reply final)
    (same : ∀ key ∈ namedKeys cmd,
      server.memory.view key = other.memory.view key) : bytes = reply := by
  obtain ⟨_, _, first, _, rfl, answers⟩ := runs.acts wf keyed
  obtain ⟨_, _, second, _, rfl, otherAnswers⟩ := otherRuns.acts otherWf keyed
  congr 1
  refine keyed.action_keyed.answers_unique ?_ answers otherAnswers
  apply ((Action.ofCommand wrap64 cmd).purge_local now.toInt).congr
  exact fun key isTarget => same key (ofCommand_named cmd key isTarget)

/-- Two commands that name different keys, executed at one moment in either
order, give the same replies and leave the same values and deadlines.  Neither
touches a key it does not name. -/
theorem disjoint_commands_commute (reachable : server.Reachable)
    {first second : Command} (firstKeyed : IsKeyed first)
    (secondKeyed : IsKeyed second)
    (disjoint : (namedKeys first).Disjoint (namedKeys second))
    {afterFirst afterSecond firstSecond secondFirst : Server}
    {firstReply firstReply' secondReply secondReply' : Bytes}
    (runsFirst : server.Runs now first firstReply afterFirst)
    (thenSecond : afterFirst.Runs now second secondReply firstSecond)
    (runsSecond : server.Runs now second secondReply' afterSecond)
    (thenFirst : afterSecond.Runs now first firstReply' secondFirst) :
    firstReply = firstReply' ∧ secondReply = secondReply' ∧
      firstSecond.memory.db = secondFirst.memory.db ∧
      (∀ key, firstSecond.memory.expiry.expiryAt key =
        secondFirst.memory.expiry.expiryAt key) ∧
      (∀ key, key ∉ namedKeys first →
        afterFirst.memory.db.find key = server.memory.db.find key ∧
        afterFirst.memory.expiry.expiryAt key =
          server.memory.expiry.expiryAt key) ∧
      ∀ key, key ∉ namedKeys second →
        afterSecond.memory.db.find key = server.memory.db.find key ∧
        afterSecond.memory.expiry.expiryAt key =
          server.memory.expiry.expiryAt key := by
  have wf := reachable.wf
  obtain ⟨wfFirst, viewFirst, _⟩ := runsFirst.acts wf firstKeyed
  obtain ⟨wfSecond, viewSecond, _⟩ := runsSecond.acts wf secondKeyed
  obtain ⟨wfLeft, viewLeft, _⟩ := thenSecond.acts wfFirst secondKeyed
  obtain ⟨wfRight, viewRight, _⟩ := thenFirst.acts wfSecond firstKeyed
  have firstLocal := firstKeyed.action_keyed.lazily_local now.toInt
  have secondLocal := secondKeyed.action_keyed.lazily_local now.toInt
  have apart : ∀ key, key ∈ namedKeys first → key ∉ namedKeys second :=
    fun key inFirst inSecond => disjoint inFirst inSecond
  have sameView : firstSecond.memory.view = secondFirst.memory.view := by
    rw [viewLeft, viewRight, viewFirst, viewSecond]
    apply firstLocal.comm secondLocal
    intro key inFirst inSecond
    exact apart key (ofCommand_named first key inFirst)
      (ofCommand_named second key inSecond)
  obtain ⟨sameDb, sameExpiry⟩ := Memory.eq_of_view_eq wfLeft wfRight sameView
  refine ⟨?_, ?_, sameDb, sameExpiry, fun key => runsFirst.frame wf firstKeyed,
    fun key => runsSecond.frame wf secondKeyed⟩
  · refine runsFirst.reply_eq wf wfSecond firstKeyed thenFirst ?_
    intro key named
    rw [viewSecond]
    refine (secondLocal.frame _ key fun isTarget => ?_).symm
    exact apart key named (ofCommand_named second key isTarget)
  · refine thenSecond.reply_eq wfFirst wf secondKeyed runsSecond ?_
    intro key named
    rw [viewFirst]
    refine firstLocal.frame _ key fun isTarget => ?_
    exact apart key (ofCommand_named first key isTarget) named

/-- Without a log every command runs. -/
theorem Server.exists_runs (now : Int64) (cmd : Command)
    (reachable : server.Reachable) (detached : server.dispatcher.wal = none)
    (healthy : server.dispatcher.persistenceFailed = false) :
    ∃ reply next, server.Runs now cmd reply next ∧ next.Reachable ∧
      next.dispatcher.wal = none ∧
      next.dispatcher.persistenceFailed = false := by
  obtain ⟨reply, after, evicted, outcome, result⟩ :=
    execute_eq (World.frozen now) .arbitrary reachable.wf cmd
  have executed := result (World.frozen now).disk server.dispatcher healthy
  simp only [CommandDispatcher.putAll_of_detached _
    ((CommandDispatcher.noteShutdown_wal _ cmd).trans detached),
    CommandDispatcher.noteShutdown_persistenceFailed, healthy,
    Bool.false_eq_true, if_false] at executed
  refine ⟨_, _, ⟨World.frozen now, _, executed, ?_⟩, ?_, ?_, ?_⟩
  · simpa using healthy
  · apply Server.Reachable.step ((World.frozen now).onDisk (World.frozen now).disk)
      (.command .arbitrary cmd) reachable
    rw [Server.step, executed]
  · simpa using detached
  · simpa using healthy

/-- A counter and a list, in both orders. -/
theorem disjoint_commands_commute_incr_rpush :
    ∃ left right : Server, ∃ counted pushed : Bytes,
      (∃ between, (Server.fresh none).Runs 1000 [ascii "INCR", ascii "a"] counted
          between ∧
        between.Runs 1000 [ascii "RPUSH", ascii "b", ascii "x"] pushed left) ∧
      (∃ between, (Server.fresh none).Runs 1000
          [ascii "RPUSH", ascii "b", ascii "x"] pushed between ∧
        between.Runs 1000 [ascii "INCR", ascii "a"] counted right) ∧
      left.memory.db = right.memory.db := by
  obtain ⟨counted, afterIncr, runsIncr, reachIncr, detachIncr, healIncr⟩ :=
    Server.exists_runs 1000 [ascii "INCR", ascii "a"] (.fresh none) rfl rfl
  obtain ⟨pushed, left, thenPush, _⟩ := Server.exists_runs 1000
    [ascii "RPUSH", ascii "b", ascii "x"] reachIncr detachIncr healIncr
  obtain ⟨pushed', afterPush, runsPush, reachPush, detachPush, healPush⟩ :=
    Server.exists_runs 1000 [ascii "RPUSH", ascii "b", ascii "x"] (.fresh none)
      rfl rfl
  obtain ⟨counted', right, thenIncr, _⟩ := Server.exists_runs 1000
    [ascii "INCR", ascii "a"] reachPush detachPush healPush
  have disjoint : (namedKeys [ascii "INCR", ascii "a"]).Disjoint
      (namedKeys [ascii "RPUSH", ascii "b", ascii "x"]) := by
    change [ascii "a"].Disjoint [ascii "b"]
    simp [ascii]
  obtain ⟨rfl, rfl, same, _⟩ := disjoint_commands_commute (.fresh none)
    ⟨_, _, .incr, rfl, rfl, rfl⟩ ⟨_, _, .rpush, rfl, rfl, rfl⟩ disjoint
    runsIncr thenPush runsPush thenIncr
  exact ⟨left, right, counted, pushed, ⟨afterIncr, runsIncr, thenPush⟩,
    ⟨afterPush, runsPush, thenIncr⟩, same⟩

end Commuting

end HermitDb.Core
