import HermitDb.Core.Run

/-!
# The store under a running clock

The store drops every key whose deadline has been reached before it looks at a
command, and computes with unbounded integers.  The server only evicts what it
touches or samples, so it may hold keys the store has dropped.  An event whose
own clock readings agree happens at one moment, the reading it begins with, and
is a step of the store at that moment, as long as its deadline arithmetic stays
within 64 bits and it is not `DBSIZE`.
-/

namespace HermitDb.Core

open Library Persist Protocol

/-! ## Exact arithmetic -/

def InInt64 (number : Int) : Prop :=
  -2 ^ 63 ≤ number ∧ number < 2 ^ 63

theorem wrap64_of_inInt64 {number : Int} (fits : InInt64 number) :
    wrap64 number = number := by
  apply Int.bmod_eq_of_le
  · have low := fits.1
    omega
  · have high := fits.2
    omega

/-- The deadline arithmetic the action does at this moment stays within 64
bits. -/
def Action.Exact (now : Int) (keyspace : Keyspace) : Action → Prop
  | .onKey key (.set _ choice) => ∀ ms, choice.expireMs = some ms →
      InInt64 ms ∧
        (((choice.nx && (keyspace key).isSome) ||
          (choice.xx && !(keyspace key).isSome)) = false → InInt64 (now + ms))
  | .onKey key (.expire n unitToMs) => keyspace key ≠ none → 0 < n →
      InInt64 (n * unitToMs) ∧ InInt64 (now + n * unitToMs)
  | .onKey key (.ttl inSeconds) => ∀ value deadline,
      keyspace key = some ⟨value, some deadline⟩ →
      InInt64 (deadline - now) ∧
        (inSeconds = true → InInt64 (max 0 (deadline - now) + 500))
  | _ => True

/-- The options as 64-bit arithmetic reads them. -/
def SetChoice.wrapped (choice : SetChoice) : SetChoice :=
  { choice with expireMs := choice.expireMs.map wrap64 }

theorem wrap64_toInt (number : Int64) : wrap64 number.toInt = number.toInt := by
  apply wrap64_of_inInt64
  have low := Int64.minValue_le_toInt number
  rw [Int64.toInt_minValue] at low
  exact ⟨low, Int64.toInt_lt number⟩

theorem readSetChoice_wrapped (args : List Bytes) (choice : SetChoice) :
    readSetChoice wrap64 args choice.wrapped =
      (readSetChoice id args choice).map SetChoice.wrapped := by
  have unset : ∀ choice : SetChoice,
      choice.wrapped.expireMs = none ↔ choice.expireMs = none := by
    intro choice
    simp [SetChoice.wrapped]
  fun_induction readSetChoice id args choice with
  | case1 choice => rfl
  | case2 arg rest choice opt isNx induction =>
      rw [← induction, readSetChoice.eq_def]
      exact if_pos isNx
  | case3 arg rest choice opt notNx isXx induction =>
      rw [← induction, readSetChoice.eq_def]
      exact (if_neg notNx).trans (if_pos isXx)
  | case4 arg choice opt notNx notXx isExpire =>
      rw [readSetChoice.eq_def]
      exact (if_neg notNx).trans ((if_neg notXx).trans
        (if_pos ⟨isExpire.1, (unset _).mpr isExpire.2⟩))
  | case5 arg choice opt notNx notXx isExpire number rest notNumber =>
      rw [readSetChoice.eq_def]
      refine (if_neg notNx).trans ((if_neg notXx).trans
        ((if_pos ⟨isExpire.1, (unset _).mpr isExpire.2⟩).trans ?_))
      simp only [notNumber]
      rfl
  | case6 arg choice opt notNx notXx isExpire number rest n isNumber low =>
      rw [readSetChoice.eq_def]
      refine (if_neg notNx).trans ((if_neg notXx).trans
        ((if_pos ⟨isExpire.1, (unset _).mpr isExpire.2⟩).trans ?_))
      simp only [isNumber]
      exact if_pos low
  | case7 arg choice opt notNx notXx isExpire number rest n isNumber high
      induction =>
      rw [← induction, readSetChoice.eq_def]
      refine (if_neg notNx).trans ((if_neg notXx).trans
        ((if_pos ⟨isExpire.1, (unset _).mpr isExpire.2⟩).trans ?_))
      simp only [isNumber]
      refine (if_neg high).trans ?_
      congr 1
      simp only [SetChoice.wrapped, Option.map_some, id]
      split
      · rfl
      · rw [wrap64_toInt]
  | case8 arg rest choice opt notNx notXx notExpire =>
      rw [readSetChoice.eq_def]
      refine (if_neg notNx).trans ((if_neg notXx).trans (if_neg ?_))
      rw [unset]
      exact notExpire

theorem Verb.action_exact {verb : Verb} {cmd : Command} {now : Int}
    {keyspace : Keyspace} (exact : (verb.action id cmd).Exact now keyspace) :
    verb.action wrap64 cmd = verb.action id cmd := by
  cases verb with
  | set =>
      match cmd with
      | [] => rfl
      | [_] => rfl
      | [_, _] => rfl
      | _ :: key :: value :: args =>
          have wrapped := readSetChoice_wrapped args ⟨false, false, none⟩
          change readSetChoice wrap64 args ⟨false, false, none⟩ = _ at wrapped
          simp only [Verb.action, wrapped] at exact ⊢
          cases chosen : readSetChoice id args ⟨false, false, none⟩ with
          | error refusal => rfl
          | ok choice =>
              rw [chosen] at exact
              have unchanged : choice.wrapped = choice := by
                obtain ⟨nx, xx, expireMs⟩ := choice
                cases expireMs with
                | none => rfl
                | some ms =>
                    have fits := (exact ms rfl).1
                    simp [SetChoice.wrapped, wrap64_of_inInt64 fits]
              simp only [Except.map, unchanged]
  | _ => rfl

/-- With exact arithmetic both readings of a command agree. -/
theorem Action.Exact.ofCommand {cmd : Command} {now : Int} {keyspace : Keyspace}
    (exact : (Action.ofCommand id cmd).Exact now keyspace) :
    Action.ofCommand wrap64 cmd = Action.ofCommand id cmd := by
  cases cmd with
  | nil => rfl
  | cons name args =>
      by_cases isShutdown : upper name = ascii "SHUTDOWN"
      · simp only [Action.ofCommand, isShutdown, if_true]
      · cases listed : table.lookup (upper name) with
        | none => simp only [Action.ofCommand, isShutdown, listed]
        | some verb =>
            simp only [Action.ofCommand, isShutdown, listed, if_false] at exact ⊢
            exact Verb.action_exact exact

theorem KeyOp.run_exact {op : KeyOp} {now : Int} {key : Bytes}
    {keyspace : Keyspace}
    (exact : (Action.onKey key op).Exact now keyspace) :
    op.run wrap64 now (keyspace key) = op.run id now (keyspace key) := by
  cases op with
  | set value choice =>
      simp only [KeyOp.run]
      split
      · rfl
      · rename_i accepted
        cases expires : choice.expireMs with
        | none => rfl
        | some ms =>
            have fits := (exact ms expires).2 (Bool.eq_false_of_not_eq_true accepted)
            simp only [Option.map_some, wrap64_of_inInt64 fits, id]
  | expire n unitToMs =>
      cases held : keyspace key with
      | none => rfl
      | some item =>
          simp only [KeyOp.run]
          split
          · rfl
          · rename_i positive
            obtain ⟨product, sum⟩ := exact (by simp [held]) (Int.not_le.mp positive)
            simp only [wrap64_of_inInt64 product, wrap64_of_inInt64 sum, id]
  | ttl inSeconds =>
      rcases held : keyspace key with _ | ⟨value, _ | deadline⟩
      · rfl
      · rfl
      · obtain ⟨difference, rounded⟩ := exact value deadline held
        simp only [KeyOp.run, wrap64_of_inInt64 difference, id]
        cases inSeconds with
        | false => rfl
        | true => simp only [if_true, wrap64_of_inInt64 (rounded rfl)]
  | get | incrBy | type | pexpireat | persist | push | pop | llen | lrange =>
      cases keyspace key with
      | none => rfl
      | some item => rcases item with ⟨_ | _, _ | _⟩ <;> rfl

theorem Action.Exact.after_eq {action : Action} {now : Int}
    {keyspace : Keyspace} (exact : action.Exact now keyspace) :
    action.after wrap64 now keyspace = action.after id now keyspace := by
  cases action with
  | onKey key op => rw [Action.after, KeyOp.run_exact exact, Action.after]
  | answer | del | «exists» | keys | dbsize | flushall => rfl

theorem Action.Exact.answers {action : Action} {plain : PlainChar} {now : Int}
    {keyspace : Keyspace} {reply : Reply} (exact : action.Exact now keyspace)
    (answers : action.Answers plain wrap64 now keyspace reply) :
    action.Answers plain id now keyspace reply := by
  cases action with
  | onKey key op =>
      rw [Action.Answers, KeyOp.run_exact exact] at answers
      exact answers
  | answer | del | «exists» | keys | dbsize | flushall => exact answers

/-! ## Keys that have expired unnoticed -/

/-- The two keyspaces show an action the same keys and differ only in keys that
have expired. -/
structure Agree (plain : PlainChar) (now : Int) (action : Action)
    (left right : Keyspace) : Prop where
  touched : ∀ key, action.Touches plain key → left key = right key
  swept : left.sweep now = right.sweep now

theorem Agree.after {plain : PlainChar} {now : Int} {action : Action}
    {left right : Keyspace} (agree : Agree plain now action left right)
    (wrap : Int → Int) :
    (action.after wrap now left).sweep now =
      (action.after wrap now right).sweep now := by
  cases action with
  | onKey key op =>
      rw [Action.after, Action.after, TimedMap.sweep_update,
        TimedMap.sweep_update, agree.swept, agree.touched key rfl]
  | del targets =>
      rw [Action.after, Action.after, TimedMap.sweep_without_comm,
        TimedMap.sweep_without_comm, agree.swept]
  | flushall => rfl
  | answer | «exists» | keys | dbsize => exact agree.swept

/-! ## Deadlines lie ahead -/

/-- The deadlines the action gives are later than the time it runs at. -/
def Action.Forward : Action → Prop
  | .onKey _ (.set _ choice) => ∀ ms, choice.expireMs = some ms → 0 < ms
  | .onKey _ (.expire _ unitToMs) => 0 < unitToMs
  | _ => True

theorem readSetChoice_forward {args : List Bytes} {start choice : SetChoice}
    (positive : ∀ ms, start.expireMs = some ms → 0 < ms)
    (read : readSetChoice id args start = .ok choice) :
    ∀ ms, choice.expireMs = some ms → 0 < ms := by
  fun_induction readSetChoice id args start with
  | case1 start =>
      cases read
      exact positive
  | case2 _ _ _ _ _ induction => exact induction positive read
  | case3 _ _ _ _ _ _ induction => exact induction positive read
  | case7 _ _ _ _ _ _ _ _ n _ high induction =>
      refine induction ?_ read
      rintro ms ⟨⟩
      split
      · simp only [id]
        omega
      · exact Int.not_le.mp high
  | case4 | case5 | case6 | case8 => cases read

theorem Verb.action_forward (verb : Verb) (cmd : Command) :
    (verb.action id cmd).Forward := by
  cases verb with
  | set =>
      simp only [Verb.action]
      split
      · split
        · trivial
        · rename_i read
          exact readSetChoice_forward (by rintro ms ⟨⟩) read
      · trivial
  | expire | pexpire =>
      simp only [Verb.action, numberAction]
      split
      · split
        · trivial
        · simp [Action.Forward]
      · trivial
  | _ =>
      simp only [Verb.action, keyAction, keysAction, numberAction, pushAction]
      repeat' split
      all_goals trivial

theorem ofCommand_forward (cmd : Command) :
    (Action.ofCommand id cmd).Forward := by
  unfold Action.ofCommand
  split
  · trivial
  · split
    · trivial
    · split
      · trivial
      · exact Verb.action_forward _ _

/-- What a live item turns into is live. -/
theorem KeyOp.run_live {op : KeyOp} {key : Bytes} {now : Int}
    {before : Option Item} (forward : (Action.onKey key op).Forward)
    (live : ∀ item, before = some item → item.live now = true) {item : Item}
    (result : (op.run id now before).2 = some item) : item.live now = true := by
  have ahead : (∀ deadline, item.deadline = some deadline → now < deadline) →
      item.live now = true := by
    intro later
    rcases held : item with ⟨value, _ | deadline⟩
    · rfl
    · rw [held] at later
      rw [Timed.live_some]
      exact decide_eq_true (later deadline rfl)
  -- A deadline that was there before is ahead because the key was live.
  have kept : Verbatim (.onKey key op) → item.live now = true := by
    intro verbatim
    apply ahead
    intro deadline hasDeadline
    obtain ⟨old, held, same⟩ := verbatim.run_deadline result hasDeadline
    have isLive := live old held
    obtain ⟨value, _⟩ := old
    cases same
    exact of_decide_eq_true isLive
  cases op with
  | incrBy delta => exact kept (.incrBy key delta)
  | push left values => exact kept (.push key left values)
  | pop left => exact kept (.pop key left)
  | set value choice =>
      simp only [KeyOp.run] at result
      split at result
      · exact live item result
      · cases result
        apply ahead
        intro deadline hasDeadline
        obtain ⟨ms, expires, rfl⟩ := Option.map_eq_some_iff.mp hasDeadline
        have positive := forward ms expires
        simp only [id]
        omega
  | expire n unitToMs =>
      cases before with
      | none => cases result
      | some old =>
          simp only [KeyOp.run] at result
          split at result
          · cases result
          · rename_i positive
            cases result
            apply ahead
            rintro deadline ⟨⟩
            have product : 0 < n * unitToMs :=
              Int.mul_pos (Int.not_le.mp positive) forward
            simp only [id]
            omega
  | pexpireat atMs =>
      cases before with
      | none => cases result
      | some old =>
          simp only [KeyOp.run] at result
          split at result
          · cases result
          · rename_i future
            cases result
            apply ahead
            rintro deadline ⟨⟩
            exact Int.not_le.mp future
  | persist =>
      rcases before with _ | ⟨value, _ | deadline⟩
      · cases result
      · exact live item result
      · cases result
        rfl
  | get | type | ttl | llen | lrange =>
      rw [KeyOp.run_of_looks rfl] at result
      exact live item result

theorem Action.Forward.after_swept {action : Action} (forward : action.Forward)
    {now : Int} {keyspace : Keyspace} (swept : keyspace.sweep now = keyspace) :
    (action.after id now keyspace).sweep now = action.after id now keyspace := by
  have live : ∀ key item, keyspace key = some item → item.live now = true := by
    intro key item present
    rw [← swept] at present
    exact (TimedMap.sweep_eq_some.mp present).2
  cases action with
  | onKey key op =>
      apply TimedMap.sweep_eq_self
      intro other item present
      by_cases same : other = key
      · subst other
        rw [Action.after, Function.update_self] at present
        exact KeyOp.run_live forward (live key) present
      · rw [Action.after, Function.update_of_ne same] at present
        exact live other item present
  | del targets => rw [Action.after, TimedMap.sweep_without_comm, swept]
  | flushall => rfl
  | answer | «exists» | keys | dbsize => exact swept

/-! ## One event -/

/-- One event on the store.  A command finds no key whose deadline has been
reached; the other events do nothing. -/
inductive StoreStep (plain : PlainChar) (store : Keyspace) :
    Int64 × Event → Option Bytes → Keyspace → Prop where
  | command {now : Int64} {walk : Walk} {cmd : Command} {reply : Reply}
      (answers : (Action.ofCommand id cmd).Answers plain id now.toInt
        (store.sweep now.toInt) reply) :
      StoreStep plain store (now, .command walk cmd) (some reply.encode)
        ((Action.ofCommand id cmd).after id now.toInt (store.sweep now.toInt))
  | activeCycle {now : Int64} {sampler : Server.Sampler} {budgetUs : Int64} :
      StoreStep plain store (now, .activeCycle sampler budgetUs) none store
  | tickFsync {now : Int64} : StoreStep plain store (now, .tickFsync) none store

/-- No key of the store holds an empty list. -/
def Proper (store : Keyspace) : Prop :=
  ∀ key item, store key = some item → item.value ≠ .list []

/-- The server holds what the store holds, apart from keys whose deadline had
been reached by `now`. -/
structure Stands (now : Int) (server : Server) (store : Keyspace) : Prop where
  wf : server.memory.Wf
  healthy : server.dispatcher.persistenceFailed = false
  swept : server.memory.view.sweep now = store.sweep now
  proper : Proper store

theorem Stands.later {now later : Int} {server : Server} {store : Keyspace}
    (stands : Stands now server store) (ordered : now ≤ later) :
    Stands later server store where
  wf := stands.wf
  healthy := stands.healthy
  swept := by
    rw [← TimedMap.sweep_sweep ordered, stands.swept,
      TimedMap.sweep_sweep ordered]
  proper := stands.proper

/-- A command leaves no expired key in the store. -/
theorem StoreStep.swept {plain : PlainChar} {store following : Keyspace}
    {now : Int64} {walk : Walk} {cmd : Command} {output : Option Bytes}
    (stepped : StoreStep plain store (now, .command walk cmd) output following) :
    following.sweep now.toInt = following := by
  cases stepped with
  | command answers =>
      apply (ofCommand_forward cmd).after_swept
      exact TimedMap.sweep_sweep (le_refl _) store

theorem Memory.Wf.proper {memory : Memory} (wf : memory.Wf) :
    Proper memory.view := by
  intro key item present empty
  obtain ⟨value, found, rfl⟩ := Option.map_eq_some_iff.mp present
  cases empty
  exact wf.nonempty key found

theorem Proper.sweep {store : Keyspace} (proper : Proper store) (now : Int) :
    Proper (store.sweep now) := by
  intro key item present
  exact proper key item (TimedMap.sweep_eq_some.mp present).1

namespace Server

/-- The moment of the next event. -/
def moment (world : World) (server : Server) : Int64 :=
  world.wallMs server.memory.clockReads

/-- The clock does not move on while the event is handled, and the event is
one the store has an answer for: it is not `DBSIZE`, its deadline arithmetic is
exact, and it leaves persistence working. -/
structure Calm (world : World) (server : Server) (event : Event) : Prop where
  steady : ∀ output next, server.step world event = .ok (output, next) →
    world.Steady server.memory.clockReads next.memory.clockReads
      (server.moment world).toInt
  healthy : ∀ output next, server.step world event = .ok (output, next) →
    next.dispatcher.persistenceFailed = false
  notDbsize : ∀ walk cmd, event = .command walk cmd →
    Action.ofCommand id cmd ≠ .dbsize
  exact : ∀ walk cmd, event = .command walk cmd →
    (Action.ofCommand id cmd).Exact (server.moment world).toInt
      (server.memory.view.sweep (server.moment world).toInt)

end Server

section Step

variable {world : World}

/-- What the command evicted had expired, and what it touched and left had
not. -/
theorem Outcome.agree_of_steady {before after : Memory} {action : Action}
    {reply : Reply} {evicted : List Bytes} {now : Int}
    (outcome : Outcome world before action reply after evicted)
    (steady : world.Steady before.clockReads after.clockReads now) :
    Agree world.plainChar now action (before.view.without evicted)
      (before.view.sweep now) := by
  have expired : ∀ key ∈ evicted, ∀ item, before.view key = some item →
      item.live now = false := by
    intro key gone item present
    obtain ⟨held, deadline, isHeld, hasDeadline, i, low, high, reached⟩ :=
      outcome.due key gone
    rw [present] at isHeld
    cases isHeld
    rw [steady i low high] at reached
    exact Timed.live_eq_false_iff.mpr ⟨deadline, hasDeadline, reached⟩
  constructor
  · intro key touches
    rw [TimedMap.sweep_apply]
    cases present : before.view key with
    | none =>
        by_cases gone : key ∈ evicted
        · rw [TimedMap.without_of_mem gone]
          rfl
        · rw [TimedMap.without_of_not_mem gone, present]
          rfl
    | some item =>
        by_cases gone : key ∈ evicted
        · rw [TimedMap.without_of_mem gone]
          simp [Option.filter, expired key gone item present]
        · have isLive : item.live now = true := by
            by_contra dead
            obtain ⟨deadline, hasDeadline, reached⟩ :=
              Timed.live_eq_false_iff.mp (Bool.eq_false_of_not_eq_true dead)
            obtain ⟨i, low, high, early⟩ :=
              outcome.spared key item deadline touches gone present hasDeadline
            rw [steady i low high] at early
            omega
          rw [TimedMap.without_of_not_mem gone, present]
          simp [Option.filter, isLive]
  · rw [TimedMap.sweep_without expired, TimedMap.sweep_sweep (le_refl _)]

theorem Stands.command_calm {server : Server} {store : Keyspace} {last : Int}
    (stands : Stands last server store)
    (ordered : last ≤ (server.moment world).toInt) {walk : Walk} {cmd : Command}
    (calm : server.Calm world (.command walk cmd)) :
    ∃ output next following,
      server.step world (.command walk cmd) = .ok (output, next) ∧
      StoreStep world.plainChar store (server.moment world, .command walk cmd)
        output following ∧
      Stands (server.moment world).toInt next following ∧
      server.memory.clockReads ≤ next.memory.clockReads := by
  obtain ⟨memory, dispatcher⟩ := server
  obtain ⟨reply, after, evicted, outcome, result⟩ :=
    execute_eq world walk stands.wf cmd
  have executed : Server.execute world walk ⟨memory, dispatcher⟩ cmd = _ :=
    result world.disk dispatcher stands.healthy
  generalize (dispatcher.noteShutdown cmd).putAll _ _ = logged at executed
  have stepped : Server.step world ⟨memory, dispatcher⟩ (.command walk cmd) =
      .ok (some (if logged.persistenceFailed then misconf else reply.encode),
        ⟨after, logged⟩) := by
    rw [Server.step, executed]
  have healthy : logged.persistenceFailed = false := calm.healthy _ _ stepped
  rw [healthy] at stepped
  have steady : world.Steady memory.clockReads after.clockReads
      (Server.moment world ⟨memory, dispatcher⟩).toInt := calm.steady _ _ stepped
  have exact := calm.exact walk cmd rfl
  have agree := outcome.agree_of_steady steady
  generalize Server.moment world ⟨memory, dispatcher⟩ = now
    at ordered steady exact agree
  have ends : world.EndsAt memory.clockReads after.clockReads now.toInt := by
    intro some
    exact steady _ (by omega) (by omega)
  have view := outcome.view_eq now.toInt ends
  have answers := outcome.answers now.toInt ends fun _ _ => steady
  rw [exact.ofCommand] at agree view answers
  have sameStore : memory.view.sweep now.toInt = store.sweep now.toInt :=
    (stands.later ordered).swept
  have taken : StoreStep world.plainChar store (now, .command walk cmd)
      (some reply.encode)
      ((Action.ofCommand id cmd).after id now.toInt (store.sweep now.toInt)) := by
    apply StoreStep.command
    rw [← sameStore]
    exact exact.answers
      (answers.congr (calm.notDbsize walk cmd rfl) agree.touched)
  have swept : after.view.sweep now.toInt =
      ((Action.ofCommand id cmd).after id now.toInt
        (store.sweep now.toInt)).sweep now.toInt := by
    rw [view, agree.after wrap64, exact.after_eq, sameStore]
  refine ⟨_, _, _, stepped, taken, ⟨outcome.wf, healthy, swept, ?_⟩,
    outcome.clock_le⟩
  rw [← taken.swept, ← swept]
  exact outcome.wf.proper.sweep now.toInt

theorem Stands.activeCycle_calm {server : Server} {store : Keyspace} {last : Int}
    (stands : Stands last server store)
    (ordered : last ≤ (server.moment world).toInt) {sampler : Server.Sampler}
    {budgetUs : Int64} (calm : server.Calm world (.activeCycle sampler budgetUs)) :
    ∃ next, server.step world (.activeCycle sampler budgetUs) =
        .ok (none, next) ∧
      Stands (server.moment world).toInt next store ∧
      server.memory.clockReads ≤ next.memory.clockReads := by
  obtain ⟨memory, dispatcher⟩ := server
  obtain ⟨stats, after, evicted, wf, _, clockLe, view, due, result⟩ :=
    activeCycle_purged world sampler budgetUs stands.wf
  have cycled : Server.activeCycle world sampler budgetUs ⟨memory, dispatcher⟩ =
      _ := result world.disk dispatcher
  have stepped : Server.step world ⟨memory, dispatcher⟩
      (.activeCycle sampler budgetUs) = .ok (none, ⟨after,
        dispatcher.putAll world (evicted.map delRecord)⟩) := by
    rw [Server.step, cycled]
    rfl
  have expired : ∀ key ∈ evicted, ∀ item, memory.view key = some item →
      item.live (Server.moment world ⟨memory, dispatcher⟩).toInt = false := by
    intro key gone item present
    obtain ⟨held, deadline, isHeld, hasDeadline, _, reached⟩ := due key gone
    rw [present] at isHeld
    cases isHeld
    exact Timed.live_eq_false_iff.mpr ⟨deadline, hasDeadline, reached⟩
  refine ⟨_, stepped, ⟨wf, calm.healthy _ _ stepped, ?_, stands.proper⟩, clockLe⟩
  rw [view, TimedMap.sweep_without expired]
  exact (stands.later ordered).swept

theorem Stands.tickFsync_calm {server : Server} {store : Keyspace} {last : Int}
    (stands : Stands last server store)
    (ordered : last ≤ (server.moment world).toInt)
    (calm : server.Calm world .tickFsync) :
    ∃ next, server.step world .tickFsync = .ok (none, next) ∧
      Stands (server.moment world).toInt next store ∧
      server.memory.clockReads ≤ next.memory.clockReads := by
  have untouched : (server.tickFsync world).memory.Wf ∧
      (server.tickFsync world).memory.view = server.memory.view ∧
      server.memory.clockReads ≤ (server.tickFsync world).memory.clockReads := by
    unfold Server.tickFsync
    split
    · exact ⟨stands.wf, rfl, Nat.le_refl _⟩
    · split
      · exact ⟨stands.wf, rfl, Nat.le_refl _⟩
      · exact ⟨⟨stands.wf.tracked, stands.wf.nonempty⟩, rfl, Nat.le_succ _⟩
  obtain ⟨wf, view, clockLe⟩ := untouched
  refine ⟨_, rfl, ⟨wf, calm.healthy _ _ rfl, ?_, stands.proper⟩, clockLe⟩
  rw [view]
  exact (stands.later ordered).swept

/-- A calm event is a step of the store at its moment. -/
theorem Stands.step_calm {server : Server} {store : Keyspace} {last : Int}
    (stands : Stands last server store)
    (ordered : last ≤ (server.moment world).toInt) {event : Event}
    (calm : server.Calm world event) :
    ∃ output next following, server.step world event = .ok (output, next) ∧
      StoreStep world.plainChar store (server.moment world, event) output
        following ∧
      Stands (server.moment world).toInt next following ∧
      server.memory.clockReads ≤ next.memory.clockReads := by
  cases event with
  | command walk cmd => exact stands.command_calm ordered calm
  | activeCycle sampler budgetUs =>
      obtain ⟨next, stepped, stood⟩ := stands.activeCycle_calm ordered calm
      exact ⟨none, next, store, stepped, .activeCycle, stood⟩
  | tickFsync =>
      obtain ⟨next, stepped, stood⟩ := stands.tickFsync_calm ordered calm
      exact ⟨none, next, store, stepped, .tickFsync, stood⟩

end Step

end HermitDb.Core
