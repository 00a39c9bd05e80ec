import HermitDb.Core.RunningClock
import HermitDb.Core.Logs

/-!
# Part of a store

A run of the store is seen by a client that looks at some of its keys only.  If
the others do not write to these, the run of the client's own commands alone
gives it the same answers.  `KEYS` counts as a look at every key that matches,
so a client may list its own.
-/

namespace HermitDb.Core

open Library Protocol

namespace Action

/-- The answer depends on none but these keys. -/
structure Minds (plain : PlainChar) (mine : Bytes → Prop) (action : Action) :
    Prop where
  touched : ∀ key, action.Touches plain key → mine key
  notDbsize : action ≠ .dbsize

/-- These keys are left as they are. -/
def Spares (mine : Bytes → Prop) (action : Action) : Prop :=
  ∀ now keyspace key, mine key → action.after id now keyspace key = keyspace key

variable {plain : PlainChar} {mine : Bytes → Prop} {action : Action}
  {left right : Keyspace} {now : Int}

theorem Minds.answers (minds : action.Minds plain mine)
    (same : ∀ key, mine key → left key = right key) {reply : Reply}
    (answers : action.Answers plain id now left reply) :
    action.Answers plain id now right reply := by
  apply answers.congr minds.notDbsize
  intro key touches
  exact same key (minds.touched key touches)

theorem Minds.after (minds : action.Minds plain mine)
    (same : ∀ key, mine key → left key = right key) {key : Bytes}
    (isMine : mine key) :
    action.after id now left key = action.after id now right key := by
  cases action with
  | onKey target op =>
      rw [Action.after, Action.after, same target (minds.touched target rfl)]
      by_cases isTarget : key = target
      · rw [isTarget, Function.update_self, Function.update_self]
      · rw [Function.update_of_ne isTarget, Function.update_of_ne isTarget]
        exact same key isMine
  | del targets =>
      rw [Action.after, Action.after]
      by_cases removed : key ∈ targets
      · rw [TimedMap.without_of_mem removed, TimedMap.without_of_mem removed]
      · rw [TimedMap.without_of_not_mem removed,
          TimedMap.without_of_not_mem removed]
        exact same key isMine
  | flushall => rfl
  | answer | «exists» | keys | dbsize => exact same key isMine

end Action

/-- Who only looks spares everything. -/
theorem Looks.spares {action : Action} (looks : Looks action)
    (mine : Bytes → Prop) : action.Spares mine := by
  intro now keyspace key _
  rw [looks.after_eq]

/-! ## Two stores -/

/-- The two hold the same at these keys, apart from what had expired by then. -/
def Beside (mine : Bytes → Prop) (now : Int) (left right : Keyspace) : Prop :=
  ∀ key, mine key → left.sweep now key = right.sweep now key

section Beside

variable {plain : PlainChar} {mine : Bytes → Prop}
  {whole part following : Keyspace}

theorem Beside.later {now later : Int} (beside : Beside mine now whole part)
    (ordered : now ≤ later) : Beside mine later whole part := by
  intro key isMine
  rw [← TimedMap.sweep_sweep ordered whole, ← TimedMap.sweep_sweep ordered part,
    TimedMap.sweep_apply, beside key isMine, ← TimedMap.sweep_apply]

variable {now : Int64} {walk : Walk} {cmd : Command} {output : Option Bytes}

theorem StoreStep.replied
    (stepped : StoreStep plain whole (now, .command walk cmd) output following) :
    ∃ reply, output = some reply := by
  cases stepped with
  | command answers => exact ⟨_, rfl⟩

/-- A command of ours does the same to both. -/
theorem StoreStep.own
    (stepped : StoreStep plain whole (now, .command walk cmd) output following)
    (minds : (Action.ofCommand id cmd).Minds plain mine)
    (beside : Beside mine now.toInt whole part) :
    ∃ next, StoreStep plain part (now, .command walk cmd) output next ∧
      Beside mine now.toInt following next := by
  cases stepped with
  | command answers =>
      refine ⟨_, .command (minds.answers beside answers), ?_⟩
      intro key isMine
      rw [TimedMap.sweep_apply, TimedMap.sweep_apply,
        minds.after beside isMine]

/-- One of another's leaves the part we see alone. -/
theorem StoreStep.other
    (stepped : StoreStep plain whole (now, .command walk cmd) output following)
    (spares : (Action.ofCommand id cmd).Spares mine)
    (beside : Beside mine now.toInt whole part) :
    Beside mine now.toInt following part := by
  cases stepped with
  | command answers =>
      intro key isMine
      rw [TimedMap.sweep_apply, spares _ _ key isMine, ← TimedMap.sweep_apply,
        TimedMap.sweep_sweep (Int.le_refl _)]
      exact beside key isMine

end Beside

end HermitDb.Core
