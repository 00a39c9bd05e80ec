import HermitDb.Core.TtlStore

/-!
# Reading the server's memory as a keyspace

`Memory.view` joins the two tables of the server into one keyspace.  An
`Outcome` says what a handler may do to it: evict keys whose deadline a reading
of the clock had reached, and then act as the abstract store does.
-/

namespace HermitDb.Core

open Library Persist Protocol

namespace Memory

def view (memory : Memory) : Keyspace :=
  fun key => (memory.db.find key).map fun value =>
    ⟨value, (memory.expiry.expiryAt key).map Int64.toInt⟩

/-- What every handler relies on: only stored keys have a deadline, and no list
is empty. -/
structure Wf (memory : Memory) : Prop where
  tracked : ∀ key, memory.db.find key = none →
    memory.expiry.expiryAt key = none
  nonempty : ∀ key, memory.db.find key ≠ some (.list [])

theorem fresh_wf : fresh.Wf where
  tracked _ _ := rfl
  nonempty key := by simp [fresh]

@[simp] theorem fresh_view : fresh.view = fun _ => none := rfl

@[simp] theorem view_reads (memory : Memory) (reads : Nat) :
    (Memory.mk memory.db memory.expiry reads).view = memory.view := rfl

theorem view_none {memory : Memory} {key : Bytes}
    (absent : memory.db.find key = none) : memory.view key = none := by
  simp [view, absent]

theorem view_some {memory : Memory} {key : Bytes} {value : Value}
    (present : memory.db.find key = some value) :
    memory.view key =
      some ⟨value, (memory.expiry.expiryAt key).map Int64.toInt⟩ := by
  simp [view, present]

theorem view_isSome (memory : Memory) (key : Bytes) :
    (memory.view key).isSome = (memory.db.find key).isSome := by
  simp [view]

theorem view_eq_none_iff {memory : Memory} {key : Bytes} :
    memory.view key = none ↔ memory.db.find key = none := by
  simp [view]

/-- Under the invariant the view of a key determines both of its entries. -/
theorem entry_eq_of_view_eq {left right : Memory} (leftWf : left.Wf)
    (rightWf : right.Wf) {key : Bytes} (same : left.view key = right.view key) :
    left.db.find key = right.db.find key ∧
      left.expiry.expiryAt key = right.expiry.expiryAt key := by
  cases inLeft : left.db.find key with
  | none =>
      rw [view_none inLeft] at same
      have inRight := view_eq_none_iff.mp same.symm
      exact ⟨inRight.symm,
        (leftWf.tracked key inLeft).trans (rightWf.tracked key inRight).symm⟩
  | some value =>
      cases inRight : right.db.find key with
      | none =>
          rw [view_none inRight] at same
          rw [view_eq_none_iff.mp same] at inLeft
          cases inLeft
      | some other =>
          rw [view_some inLeft, view_some inRight] at same
          simp only [Option.some.injEq, Timed.mk.injEq] at same
          obtain ⟨rfl, deadlines⟩ := same
          refine ⟨rfl, ?_⟩
          exact Option.map_injective (fun _ _ => Int64.toInt_inj.mp) deadlines

theorem eq_of_view_eq {left right : Memory} (leftWf : left.Wf)
    (rightWf : right.Wf) (same : left.view = right.view) :
    left.db = right.db ∧
      ∀ key, left.expiry.expiryAt key = right.expiry.expiryAt key := by
  have entries := fun key =>
    entry_eq_of_view_eq leftWf rightWf (congrFun same key)
  exact ⟨Db.ext fun key => (entries key).1, fun key => (entries key).2⟩

end Memory

/-! ## Clock readings -/

namespace World

def ms (world : World) (reading : Nat) : Int :=
  (world.wallMs reading).toInt

/-- Of the readings from `start` to `stop`, the last one, if any, was `now`. -/
def EndsAt (world : World) (start stop : Nat) (now : Int) : Prop :=
  start < stop → world.ms (stop - 1) = now

/-- All readings from `start` to `stop` were `now`. -/
def Steady (world : World) (start stop : Nat) (now : Int) : Prop :=
  ∀ i, start ≤ i → i < stop → world.ms i = now

/-- The clock never goes backwards. -/
def Ordered (world : World) : Prop :=
  ∀ i j, i ≤ j → world.wallMs i ≤ world.wallMs j

theorem EndsAt.of_later {world : World} {start middle stop : Nat} {now : Int}
    (ordered : start ≤ middle) (ends : world.EndsAt start stop now) :
    world.EndsAt middle stop now :=
  fun some => ends (by omega)

end World

/-! ## Lazy expiration -/

/-- A touch reads the clock only if the key has a deadline. -/
def touchReadings (item : Option Item) : Nat :=
  if (item.bind Timed.deadline).isSome then 1 else 0

/-- The key is there, with a deadline that `now` has reached. -/
def isDue (now : Int) (item : Option Item) : Bool :=
  item.any fun held => !held.live now

/-- The `DEL` loop comes to a key that is still there after its touch. -/
def deletes (world : World) : Nat → Keyspace → List Bytes → Bool
  | _, _, [] => false
  | reading, view, key :: keys =>
      if isDue (world.ms reading) (view key) then
        deletes world (reading + 1) (view.without [key]) keys
      else (view key).isSome || deletes world reading view keys

/-- What a touch does to the memory: nothing to a key without a deadline, one
reading of the clock otherwise, and the eviction of the key if it is due. -/
structure Touched (world : World) (before : Memory) (key : Bytes)
    (expired : Bool) (after : Memory) : Prop where
  wf : after.Wf
  clock_eq : after.clockReads =
    before.clockReads + touchReadings (before.view key)
  expired_eq : expired = isDue (world.ms before.clockReads) (before.view key)
  view_eq : after.view = before.view.without (if expired then [key] else [])
  due : expired = true → ∃ item deadline, before.view key = some item ∧
    item.deadline = some deadline ∧ before.clockReads < after.clockReads ∧
    deadline ≤ world.ms before.clockReads
  spared : expired = false → ∀ item deadline, before.view key = some item →
    item.deadline = some deadline → before.clockReads < after.clockReads ∧
    world.ms before.clockReads < deadline

namespace CommandDispatcher

@[simp] theorem putAll_nil (world : World) (dispatcher : CommandDispatcher) :
    dispatcher.putAll world [] = dispatcher := rfl

theorem putAll_append (world : World) (dispatcher : CommandDispatcher)
    (first second : List Command) :
    dispatcher.putAll world (first ++ second) =
      (dispatcher.putAll world first).putAll world second :=
  List.foldl_append

end CommandDispatcher

theorem Memory.evict_wf {memory : Memory} (wf : memory.Wf) (key : Bytes)
    (reads : Nat) :
    Memory.Wf ⟨memory.db.erase key, memory.expiry.untrack key, reads⟩ where
  tracked other absent := by
    simp only [Db.find_erase] at absent
    rw [ExpiryManager.expiryAt_untrack]
    split at absent
    · rename_i same
      rw [if_pos same]
    · rename_i different
      rw [if_neg different]
      exact wf.tracked other absent
  nonempty other := by
    simp only [Db.find_erase]
    split
    · simp
    · exact wf.nonempty other

theorem Memory.evict_view (memory : Memory) (key : Bytes) (reads : Nat) :
    (Memory.mk (memory.db.erase key) (memory.expiry.untrack key) reads).view =
      memory.view.without [key] := by
  funext other
  by_cases same : other = key
  · subst other
    simp [Memory.view, Db.find_erase, TimedMap.without]
  · simp [Memory.view, Db.find_erase, ExpiryManager.expiryAt_untrack,
      TimedMap.without, same]

/-- Lazy expiration works on the memory alone; the log only learns which key
went. -/
theorem checkAndExpire_touched (world : World) {memory : Memory}
    (wf : memory.Wf) (key : Bytes) :
    ∃ expired after, Touched world memory key expired after ∧
      ∀ disk dispatcher,
        Server.checkAndExpire (world.onDisk disk) ⟨memory, dispatcher⟩ key =
          (expired, ⟨after, dispatcher.putAll (world.onDisk disk)
            (if expired then [delRecord key] else [])⟩) := by
  cases armed : memory.expiry.expiryAt key with
  | none =>
      have untimed : memory.view key = none ∨
          ∃ value, memory.view key = some ⟨value, none⟩ := by
        cases stored : memory.db.find key with
        | none => exact .inl (Memory.view_none stored)
        | some value =>
            rw [Memory.view_some stored, armed]
            exact .inr ⟨value, rfl⟩
      refine ⟨false, memory, ⟨wf, ?_, ?_, by simp, by simp, ?_⟩, ?_⟩
      · obtain absent | ⟨value, viewed⟩ := untimed
        · rw [absent]
          rfl
        · rw [viewed]
          rfl
      · obtain absent | ⟨value, viewed⟩ := untimed
        · rw [absent]
          rfl
        · rw [viewed]
          rfl
      · intro _ item deadline present hasDeadline
        obtain absent | ⟨value, viewed⟩ := untimed
        · rw [absent] at present
          cases present
        · rw [viewed] at present
          cases present
          cases hasDeadline
      · intro disk dispatcher
        simp [Server.checkAndExpire, armed]
  | some atMs =>
      obtain ⟨value, stored⟩ : ∃ value, memory.db.find key = some value := by
        cases stored : memory.db.find key with
        | none =>
            rw [wf.tracked key stored] at armed
            cases armed
        | some value => exact ⟨value, rfl⟩
      have viewed : memory.view key = some ⟨value, some atMs.toInt⟩ := by
        rw [Memory.view_some stored, armed]
        rfl
      have reads : touchReadings (memory.view key) = 1 := by
        rw [viewed]
        rfl
      by_cases early : world.wallMs memory.clockReads < atMs
      · refine ⟨false, { memory with clockReads := memory.clockReads + 1 },
          ⟨⟨wf.tracked, wf.nonempty⟩, by rw [reads], ?_, by simp,
            by simp, ?_⟩, ?_⟩
        · have before : world.ms memory.clockReads < atMs.toInt :=
            Int64.lt_iff_toInt_lt.mp early
          rw [viewed]
          simp [isDue, Timed.live_some, before]
        · intro _ item deadline present hasDeadline
          rw [viewed] at present
          cases present
          cases hasDeadline
          exact ⟨Nat.lt_succ_self _, Int64.lt_iff_toInt_lt.mp early⟩
        · intro disk dispatcher
          simp [Server.checkAndExpire, armed, Memory.readClock, early]
      · have reached : atMs.toInt ≤ world.ms memory.clockReads := by
          rw [Int64.lt_iff_toInt_lt] at early
          exact Int.not_lt.mp early
        refine ⟨true, ⟨memory.db.erase key, memory.expiry.untrack key,
          memory.clockReads + 1⟩,
          ⟨Memory.evict_wf wf key _, by rw [reads], ?_,
            by simpa using Memory.evict_view memory key _, ?_, by simp⟩, ?_⟩
        · rw [viewed]
          simp [isDue, Timed.live_some, reached]
        · intro _
          exact ⟨_, _, viewed, rfl, Nat.lt_succ_self _, reached⟩
        · intro disk dispatcher
          simp [Server.checkAndExpire, armed, Memory.readClock, early,
            Server.evict, Server.evictHook, Server.untrack, Db.del,
            CommandDispatcher.putAll]

theorem Touched.clock_le {world : World} {before after : Memory} {key : Bytes}
    {expired : Bool} (touched : Touched world before key expired after) :
    before.clockReads ≤ after.clockReads := by
  rw [touched.clock_eq]
  exact Nat.le_add_right _ _

/-- A key the touch removed was due at a reading before `reads`. -/
theorem Touched.due_of_mem {world : World} {before after : Memory}
    {key other : Bytes} {expired : Bool}
    (touched : Touched world before key expired after) {reads : Nat}
    (later : after.clockReads ≤ reads)
    (removed : other ∈ if expired then [key] else []) :
    ∃ item deadline, before.view other = some item ∧
      item.deadline = some deadline ∧ ∃ i, before.clockReads ≤ i ∧
        i < reads ∧ deadline ≤ world.ms i := by
  cases expired with
  | false => simp at removed
  | true =>
      simp only [if_true, List.mem_singleton] at removed
      subst other
      obtain ⟨item, deadline, present, hasDeadline, read, reached⟩ :=
        touched.due rfl
      exact ⟨item, deadline, present, hasDeadline, before.clockReads,
        Nat.le_refl _, by omega, reached⟩

/-- A key the touch left alone was not due at a reading before `reads`. -/
theorem Touched.spared_of_not_mem {world : World} {before after : Memory}
    {key : Bytes} {expired : Bool}
    (touched : Touched world before key expired after) {reads : Nat}
    (later : after.clockReads ≤ reads)
    (kept : key ∉ if expired then [key] else []) {item : Item}
    {deadline : Int} (present : before.view key = some item)
    (hasDeadline : item.deadline = some deadline) :
    ∃ i, before.clockReads ≤ i ∧ i < reads ∧ world.ms i < deadline := by
  cases expired with
  | true => simp at kept
  | false =>
      obtain ⟨read, early⟩ :=
        touched.spared rfl item deadline present hasDeadline
      exact ⟨before.clockReads, Nat.le_refl _, by omega, early⟩

theorem touch_touched (world : World) {memory : Memory} (wf : memory.Wf)
    (key : Bytes) :
    ∃ expired after, Touched world memory key expired after ∧
      ∀ disk dispatcher,
        Server.touch (world.onDisk disk) ⟨memory, dispatcher⟩ key =
          ⟨after, dispatcher.putAll (world.onDisk disk)
            (if expired then [delRecord key] else [])⟩ := by
  obtain ⟨expired, after, touched, result⟩ :=
    checkAndExpire_touched world wf key
  refine ⟨expired, after, touched, ?_⟩
  intro disk dispatcher
  rw [Server.touch, result]

/-! ## Outcomes of handlers -/

/-- How often an operation on one key reads the clock after its touch. -/
def KeyOp.readings (op : KeyOp) (item : Option Item) : Nat :=
  match op, item with
  | .set _ choice, item =>
      if (choice.nx && item.isSome) || (choice.xx && !item.isSome) then 0
      else if choice.expireMs.isSome then 1
      else 0
  | .expire n _, some _ => if n ≤ 0 then 0 else 1
  | .pexpireat _, some _ => 1
  | .ttl _, some ⟨_, some _⟩ => 1
  | _, _ => 0

/-- A handler took the memory from `before` to `after`, evicting `evicted` on
the way, and otherwise did what `action` asks.  With clock readings that differ
within one command `EXISTS` may count a repeated key differently each time, so
its reply is only fixed when they agree. -/
structure Outcome (world : World) (before : Memory) (action : Action)
    (reply : Reply) (after : Memory) (evicted : List Bytes) : Prop where
  wf : after.Wf
  nodup : evicted.Nodup
  clock_le : before.clockReads ≤ after.clockReads
  due : ∀ key ∈ evicted, ∃ item deadline, before.view key = some item ∧
    item.deadline = some deadline ∧ ∃ i, before.clockReads ≤ i ∧
      i < after.clockReads ∧ deadline ≤ world.ms i
  evicted_touched : ∀ key ∈ evicted, action.Touches world.plainChar key
  spared : ∀ key item deadline, action.Touches world.plainChar key →
    key ∉ evicted → before.view key = some item →
    item.deadline = some deadline →
    ∃ i, before.clockReads ≤ i ∧ i < after.clockReads ∧ world.ms i < deadline
  view_eq : ∀ now, world.EndsAt before.clockReads after.clockReads now →
    after.view = action.after wrap64 now (before.view.without evicted)
  answers : ∀ now, world.EndsAt before.clockReads after.clockReads now →
    (∀ targets, action = .exists targets →
      world.Steady before.clockReads after.clockReads now) →
    action.Answers world.plainChar wrap64 now (before.view.without evicted)
      reply
  exists_integer : ∀ targets, action = .exists targets →
    ∃ count : Nat, reply = .integer count
  evicted_onKey : ∀ key op, action = .onKey key op → evicted =
    if isDue (world.ms before.clockReads) (before.view key) then [key] else []
  clock_onKey : ∀ key op, action = .onKey key op → after.clockReads =
    before.clockReads + touchReadings (before.view key) +
      op.readings (before.view.without evicted key)
  found_del : ∀ targets, action = .del targets →
    (targets.any fun key => (before.view.without evicted key).isSome) =
      deletes world before.clockReads before.view targets

/-- Whatever the file system and the dispatcher's state, the handler behaves as
`action`. -/
def Refines (world : World) (before : Memory) (action : Action)
    (handler : Disk → CommandDispatcher → Handled) : Prop :=
  ∃ reply after evicted, Outcome world before action reply after evicted ∧
    ∀ disk dispatcher, handler disk dispatcher =
      .ok (reply.encode, ⟨after,
        dispatcher.putAll (world.onDisk disk) (evicted.map delRecord)⟩)

/-- A fixed reply leaves the memory alone. -/
theorem Outcome.answer {world : World} {memory : Memory} (wf : memory.Wf)
    (reply : Reply) : Outcome world memory (.answer reply) reply memory [] where
  wf := wf
  nodup := List.nodup_nil
  clock_le := Nat.le_refl _
  due := by simp
  evicted_touched := by simp
  spared key item deadline touches := by cases touches
  view_eq now _ := by simp [Action.after]
  answers now _ _ := rfl
  exists_integer targets isExists := by cases isExists
  evicted_onKey key op isOnKey := by cases isOnKey
  clock_onKey key op isOnKey := by cases isOnKey
  found_del targets isDel := by cases isDel

theorem Refines.answer {world : World} {memory : Memory} (wf : memory.Wf)
    (reply : Reply) :
    Refines world memory (.answer reply)
      fun _ dispatcher => .ok (reply.encode, ⟨memory, dispatcher⟩) :=
  ⟨reply, memory, [], Outcome.answer wf reply, fun _ _ => rfl⟩

/-! ## Handlers of one key -/

/-- The part of a single-key handler after the touch. -/
structure Effect (world : World) (before : Memory) (key : Bytes) (op : KeyOp)
    (reply : Reply) (after : Memory) : Prop where
  wf : after.Wf
  clock_eq : after.clockReads =
    before.clockReads + op.readings (before.view key)
  run_eq : ∀ now, world.EndsAt before.clockReads after.clockReads now →
    op.run wrap64 now (before.view key) = (reply, after.view key)
  frame : ∀ other, other ≠ key → after.view other = before.view other

theorem Effect.outcome {world : World} {before middle after : Memory}
    {key : Bytes} {op : KeyOp} {reply : Reply} {expired : Bool}
    (touched : Touched world before key expired middle)
    (effect : Effect world middle key op reply after) :
    Outcome world before (.onKey key op) reply after
      (if expired then [key] else []) := by
  have startLe := touched.clock_le
  have middleLe : middle.clockReads ≤ after.clockReads := by
    rw [effect.clock_eq]
    exact Nat.le_add_right _ _
  refine ⟨effect.wf, ?_, by omega, ?_, ?_, ?_, ?_, ?_, ?_, ?_, ?_, nofun⟩
  · cases expired with
    | false => exact List.nodup_nil
    | true => exact List.nodup_singleton key
  · intro other evicted
    exact touched.due_of_mem middleLe evicted
  · intro other evicted
    cases expired with
    | false => simp at evicted
    | true => exact List.mem_singleton.mp evicted
  · intro other item deadline touches kept present hasDeadline
    cases touches
    exact touched.spared_of_not_mem middleLe kept present hasDeadline
  · intro now ends
    have ran := effect.run_eq now (ends.of_later startLe)
    rw [touched.view_eq] at ran
    funext other
    by_cases same : other = key
    · subst other
      rw [Action.after, Function.update_self, ran]
    · rw [Action.after, Function.update_of_ne same, effect.frame other same,
        touched.view_eq]
  · intro now ends _
    have ran := effect.run_eq now (ends.of_later startLe)
    rw [touched.view_eq] at ran
    rw [Action.Answers, ran]
  · intro targets isExists
    cases isExists
  · intro other otherOp isOnKey
    cases isOnKey
    rw [← touched.expired_eq]
  · intro other otherOp isOnKey
    cases isOnKey
    rw [effect.clock_eq, touched.clock_eq, touched.view_eq]

/-- A handler refines `op` if it does so from the memory its touch leaves. -/
theorem Refines.of_touch {world : World} {memory : Memory} (wf : memory.Wf)
    {key : Bytes} {op : KeyOp} {handler : Disk → CommandDispatcher → Handled}
    (performs : ∀ middle : Memory, middle.Wf → ∃ reply after,
      Effect world middle key op reply after ∧ ∀ disk dispatcher logged,
        Server.touch (world.onDisk disk) ⟨memory, dispatcher⟩ key =
          ⟨middle, logged⟩ →
        handler disk dispatcher = .ok (reply.encode, ⟨after, logged⟩)) :
    Refines world memory (.onKey key op) handler := by
  obtain ⟨expired, middle, touched, result⟩ := touch_touched world wf key
  obtain ⟨reply, after, effect, ran⟩ := performs middle touched.wf
  refine ⟨reply, after, _, effect.outcome touched, ?_⟩
  intro disk dispatcher
  rw [ran disk dispatcher _ (result disk dispatcher)]
  cases expired <;> rfl

end HermitDb.Core
