import HermitDb.Core.Frame

/-!
# Many clients on one key

Reactors execute their clients' commands one at a time under the keyspace lock,
so whatever the clients do, the server sees one list of events.  A key without a
TTL is changed by the commands that name it and by `FLUSHALL`; what the other
events of the list are, and in which order they come, makes no difference to
it.  Counters lose no update, and lists no element, under any interleaving.
-/

namespace HermitDb.Core

open Library Persist Protocol

/-! ## One key -/

/-- The event neither names the key nor is `FLUSHALL`. -/
def Event.Bypasses (key : Bytes) : Event → Prop
  | .command _ cmd => key ∉ namedKeys cmd ∧
      ∀ name args, cmd = name :: args →
        table.lookup (upper name) ≠ some .flushall
  | _ => True

/-- What an event does to what a key without a TTL holds. -/
structure StepAt (key : Bytes) (item : Option Item) (event : Event)
    (output : Option Bytes) (following : Option Item) : Prop where
  bypasses : event.Bypasses key → following = item
  answers : ∀ walk cmd reply, event = .command walk cmd →
    Action.ofCommand wrap64 cmd = .answer reply →
    output = some reply.encode ∧ following = item
  acts : ∀ walk cmd op, event = .command walk cmd →
    Action.ofCommand wrap64 cmd = .onKey key op →
    ∃ now, output = some (op.run wrap64 now item).1.encode ∧
      following = (op.run wrap64 now item).2

section Step

variable {world : World} {server next : Server} {key : Bytes} {event : Event}
  {output : Option Bytes}

/-- What happens between the commands leaves the key alone. -/
theorem StepAt.kept {item : Option Item}
    (between : ∀ walk cmd, event ≠ .command walk cmd) :
    StepAt key item event output item := by
  refine ⟨fun _ => rfl, ?_, ?_⟩
  · intro walk cmd _ isCommand
    exact absurd isCommand (between walk cmd)
  · intro walk cmd _ isCommand
    exact absurd isCommand (between walk cmd)

/-- An action that does not name the key leaves it alone. -/
theorem Action.after_apart {action : Action} {key : Bytes}
    (unnamed : key ∉ action.targets) (notFlushall : action ≠ .flushall)
    (now : Int) (keyspace : Keyspace) :
    action.after wrap64 now keyspace key = keyspace key := by
  cases action with
  | onKey target op =>
      exact Function.update_of_ne (fun same => unnamed (by simp [same, targets])) _ _
  | del removed => exact TimedMap.without_of_not_mem unnamed
  | flushall => exact absurd rfl notFlushall
  | answer | «exists» | keys | dbsize => rfl

theorem ofCommand_ne_flushall {cmd : Command}
    (other : ∀ name args, cmd = name :: args →
      table.lookup (upper name) ≠ some .flushall) :
    Action.ofCommand wrap64 cmd ≠ .flushall := by
  intro flushes
  obtain ⟨name, args, verb, rfl, listed, reads⟩ := ofCommand_listed flushes nofun
  have isFlushall : verb = .flushall := by
    cases verb with
    | flushall => rfl
    | _ =>
        exfalso
        simp only [Verb.action, keyAction, keysAction, numberAction, pushAction]
          at reads
        repeat' split at reads
        all_goals cases reads
  exact other name args rfl (isFlushall ▸ listed)

theorem command_at_key (wf : server.memory.Wf)
    (untimed : ∀ item, server.memory.view key = some item →
      item.deadline = none) {walk : Walk} {cmd : Command} {bytes : Bytes}
    (executed : server.execute world walk cmd = .ok (bytes, next))
    (healthy : next.dispatcher.persistenceFailed = false) :
    StepAt key (server.memory.view key) (.command walk cmd) (some bytes)
      (next.memory.view key) := by
  obtain ⟨reply, evicted, rfl, outcome⟩ := execute_outcome wf executed healthy
  have kept : server.memory.view.without evicted key =
      server.memory.view key := by
    apply TimedMap.without_of_not_mem
    intro gone
    obtain ⟨item, deadline, present, hasDeadline, _⟩ := outcome.due key gone
    rw [untimed item present] at hasDeadline
    cases hasDeadline
  have view := congrFun (outcome.view_eq _ fun _ => rfl) key
  have answers := fun notExists => outcome.answers _ (fun _ => rfl) notExists
  constructor
  · rintro ⟨unnamed, other⟩
    rw [view, Action.after_apart (fun isTarget => unnamed
      (ofCommand_named cmd key isTarget)) (ofCommand_ne_flushall other), kept]
  · rintro _ _ fixed ⟨⟩ reads
    rw [reads] at view answers
    have isReply := answers (by rintro _ ⟨⟩)
    exact ⟨congrArg (some ∘ Reply.encode) isReply, view.trans kept⟩
  · rintro _ _ op ⟨⟩ reads
    rw [reads] at view answers
    rw [Action.after, Function.update_self, kept] at view
    rw [Action.Answers, kept] at answers
    have isReply := answers (by rintro _ ⟨⟩)
    exact ⟨_, congrArg (some ∘ Reply.encode) isReply, view⟩

/-- Persistence does not come back. -/
theorem Server.healthy_of_step (wf : server.memory.Wf)
    (stepped : server.step world event = .ok (output, next))
    (healthy : next.dispatcher.persistenceFailed = false) :
    server.dispatcher.persistenceFailed = false := by
  by_contra failed
  obtain ⟨_, _, again, _, same⟩ := step_of_failed world wf
    (Bool.eq_true_of_not_eq_false failed) event
  rw [stepped] at again
  cases again
  rw [same] at healthy
  exact failed healthy

theorem step_at_key (wf : server.memory.Wf)
    (untimed : ∀ item, server.memory.view key = some item →
      item.deadline = none)
    (stepped : server.step world event = .ok (output, next))
    (healthy : next.dispatcher.persistenceFailed = false) :
    StepAt key (server.memory.view key) event output (next.memory.view key) := by
  cases event with
  | command walk cmd =>
      obtain ⟨reply, rfl, executed⟩ := Server.executed_of_step stepped
      exact command_at_key wf untimed executed healthy
  | activeCycle sampler budgetUs =>
      obtain ⟨stats, after, evicted, _, _, _, view, due, result⟩ :=
        activeCycle_purged world sampler budgetUs wf
      have cycled := result world.disk server.dispatcher
      cases stepped
      have memory : (server.activeCycle world sampler budgetUs).2.memory =
          after := congrArg (fun outcome => outcome.2.memory) cycled
      have unchanged : after.view key = server.memory.view key := by
        rw [view]
        apply TimedMap.without_of_not_mem
        intro gone
        obtain ⟨item, deadline, present, hasDeadline, _⟩ := due key gone
        rw [untimed item present] at hasDeadline
        cases hasDeadline
      rw [memory, unchanged]
      exact .kept (by rintro _ _ ⟨⟩)
  | tickFsync =>
      cases stepped
      have unchanged : (server.tickFsync world).memory.view =
          server.memory.view := by
        unfold Server.tickFsync
        split
        · rfl
        · split <;> rfl
      rw [unchanged]
      exact .kept (by rintro _ _ ⟨⟩)

/-- A fact about one key and the events so far that keeps the key without a TTL
holds after every run in which persistence works. -/
theorem run_at_key {allowed : Event → Prop}
    (Holds : List (Event × Option Bytes) → Option Item → Prop)
    (untimed : ∀ history item, Holds history (some item) →
      item.deadline = none)
    (preserved : ∀ history item event output following, Holds history item →
      allowed event → StepAt key item event output following →
      Holds (history ++ [(event, output)]) following)
    {events : List Event} {outputs : List (Option Bytes)} {final : Server}
    (reachable : server.Reachable) (initial : Holds [] (server.memory.view key))
    (each : ∀ event ∈ events, allowed event)
    (ran : server.run world events = .ok (outputs, final))
    (healthy : final.dispatcher.persistenceFailed = false) :
    Holds (events.zip outputs) (final.memory.view key) := by
  have kept : ∀ history (state : Server) event output following,
      (state.Reachable ∧ (state.dispatcher.persistenceFailed = false →
        Holds history (state.memory.view key))) → allowed event →
      state.step world event = .ok (output, following) →
      following.Reachable ∧ (following.dispatcher.persistenceFailed = false →
        Holds (history ++ [(event, output)]) (following.memory.view key)) := by
    rintro history state event output following ⟨reached, holds⟩ isAllowed stepped
    refine ⟨.step world event reached stepped, fun stillHealthy => ?_⟩
    have held := holds (Server.healthy_of_step reached.wf stepped stillHealthy)
    refine preserved history _ event output _ held isAllowed ?_
    refine step_at_key reached.wf ?_ stepped stillHealthy
    intro item present
    exact untimed history item (present ▸ held)
  exact (runAll_history kept ⟨reachable, fun _ => initial⟩ each ran).2 healthy

end Step

/-! ## Counters -/

/-- `INCR`, `DECR` or `INCRBY` on the key, with whatever arguments. -/
def countsOn (key : Bytes) (cmd : Command) : Bool :=
  match cmd with
  | name :: target :: _ =>
      target = key && match table.lookup (upper name) with
        | some .incr | some .decr | some .incrby => true
        | _ => false
  | _ => false

/-- The increment a counter command asks for, if its arguments are in order. -/
def counterDelta (cmd : Command) : Option Int :=
  match cmd with
  | [] => none
  | name :: args =>
      match table.lookup (upper name), args with
      | some .incr, [_] => some 1
      | some .decr, [_] => some (-1)
      | some .incrby, [_, number] => (parseI64 number).map Int64.toInt
      | _, _ => none

def Event.Counts (key : Bytes) : Event → Prop
  | .command _ cmd => countsOn key cmd = true
  | _ => False

/-- What an event adds to the counter: the increment of a counter command with
an integer reply. -/
def acknowledged (key : Bytes) : Event × Option Bytes → Int
  | (.command _ cmd, some reply) =>
      if countsOn key cmd ∧ reply.head? = (ascii ":").head? then
        (counterDelta cmd).getD 0
      else 0
  | _ => 0

def total (key : Bytes) (history : List (Event × Option Bytes)) : Int :=
  (history.map (acknowledged key)).sum

/-- The key has no TTL and counts `value`; an absent key counts zero. -/
inductive CounterHolds : Option Item → Int → Prop where
  | absent : CounterHolds none 0
  | stored {text : Bytes} {number : Int64}
      (isNumber : parseI64 text = some number) :
      CounterHolds (some ⟨.string text, none⟩) number.toInt

section Counters

variable {key : Bytes} {cmd : Command} {item following : Option Item}
  {value : Int}

theorem CounterHolds.untimed {item : Item}
    (holds : CounterHolds (some item) value) : item.deadline = none := by
  cases holds
  rfl

theorem CounterHolds.inInt64 (holds : CounterHolds item value) :
    InInt64 value := by
  cases holds with
  | absent => exact ⟨by decide, by decide⟩
  | @stored _ number _ =>
      have low := Int64.minValue_le_toInt number
      rw [Int64.toInt_minValue] at low
      exact ⟨low, Int64.toInt_lt number⟩

/-- A sum within range is stored as a text that reads back as itself. -/
theorem CounterHolds.of_sum {sum : Int} (fits : InInt64 sum) :
    CounterHolds (some ⟨.string (intToString sum), none⟩) sum := by
  have exact : (Int64.ofInt sum).toInt = sum :=
    Int64.toInt_ofInt_of_le fits.1 fits.2
  have reads := parseI64_i64ToString (Int64.ofInt sum)
  rw [i64ToString, exact] at reads
  have holds := CounterHolds.stored reads
  rwa [exact] at holds

/-- An increment is exact, or refused without a trace. -/
theorem CounterHolds.incrBy (holds : CounterHolds item value)
    (delta now : Int) :
    (∃ after, (KeyOp.incrBy delta).run wrap64 now item =
        (.integer (value + delta), after) ∧
        CounterHolds after (value + delta)) ∨
      ∃ message, (KeyOp.incrBy delta).run wrap64 now item =
        (.error message, item) := by
  have ran : (KeyOp.incrBy delta).run wrap64 now item =
      increment item none (value + delta) := by
    cases holds with
    | absent => rw [Int.zero_add]; rfl
    | stored isNumber => simp only [KeyOp.run, isNumber]
  rw [ran, increment]
  split
  · exact .inr ⟨_, rfl⟩
  · rename_i inside
    exact .inl ⟨_, rfl, .of_sum ⟨by omega, by omega⟩⟩

theorem countsOn_verb (counts : countsOn key cmd = true) :
    ∃ name args verb, cmd = name :: key :: args ∧
      table.lookup (upper name) = some verb ∧
      (verb = .incr ∨ verb = .decr ∨ verb = .incrby) := by
  match cmd with
  | [] | [_] => cases counts
  | name :: target :: args =>
      rw [countsOn, Bool.and_eq_true, decide_eq_true_eq] at counts
      obtain ⟨rfl, isCounter⟩ := counts
      split at isCounter
      · rename_i listed
        exact ⟨name, args, .incr, rfl, listed, .inl rfl⟩
      · rename_i listed
        exact ⟨name, args, .decr, rfl, listed, .inr (.inl rfl)⟩
      · rename_i listed
        exact ⟨name, args, .incrby, rfl, listed, .inr (.inr rfl)⟩
      · cases isCounter

theorem countsOn_named (counts : countsOn key cmd = true) :
    key ∈ namedKeys cmd := by
  obtain ⟨name, args, verb, rfl, listed, isCounter⟩ := countsOn_verb counts
  rw [namedKeys, listed]
  rcases isCounter with rfl | rfl | rfl <;> exact List.mem_singleton_self key

/-- A counter command either asks for its increment or is answered with an
error. -/
theorem counter_reads (counts : countsOn key cmd = true) :
    (∃ delta, counterDelta cmd = some delta ∧
        Action.ofCommand wrap64 cmd = .onKey key (.incrBy delta)) ∨
      ∃ message, Action.ofCommand wrap64 cmd = .answer (.error message) := by
  obtain ⟨name, args, verb, rfl, listed, isCounter⟩ := countsOn_verb counts
  rw [ofCommand_of_lookup wrap64 listed]
  rcases isCounter with rfl | rfl | rfl
  · cases args with
    | nil => exact .inl ⟨1, by simp only [counterDelta, listed], rfl⟩
    | cons => exact .inr ⟨_, rfl⟩
  · cases args with
    | nil => exact .inl ⟨-1, by simp only [counterDelta, listed], rfl⟩
    | cons => exact .inr ⟨_, rfl⟩
  · match args with
    | [] | _ :: _ :: _ => exact .inr ⟨_, rfl⟩
    | [number] =>
        simp only [Verb.action, numberAction, counterDelta, listed]
        cases parseI64 number with
        | none => exact .inr ⟨_, rfl⟩
        | some n => exact .inl ⟨n.toInt, rfl, rfl⟩

theorem StepAt.counts (holds : CounterHolds item value)
    (isCounter : countsOn key cmd = true) {walk : Walk} {output : Option Bytes}
    (stepAt : StepAt key item (.command walk cmd) output following) :
    (∃ delta, counterDelta cmd = some delta ∧
        output = some (Resp.integer (value + delta)) ∧
        CounterHolds following (value + delta)) ∨
      ∃ message, output = some (Resp.error message) ∧ following = item := by
  rcases counter_reads isCounter with ⟨delta, isDelta, reads⟩ | ⟨message, reads⟩
  · obtain ⟨now, replied, left⟩ := stepAt.acts walk cmd _ rfl reads
    rcases holds.incrBy delta now with ⟨after, ran, counted⟩ | ⟨message, ran⟩
    · rw [ran] at replied left
      exact .inl ⟨delta, isDelta, replied, left ▸ counted⟩
    · rw [ran] at replied left
      exact .inr ⟨message, replied, left⟩
  · exact .inr ⟨message, stepAt.answers walk cmd _ rfl reads⟩

theorem total_concat (history : List (Event × Option Bytes)) (event : Event)
    (output : Option Bytes) :
    total key (history ++ [(event, output)]) =
      total key history + acknowledged key (event, output) := by
  simp [total]

/-- One event of an interleaving keeps the count. -/
theorem StepAt.total {initial : Int} {history : List (Event × Option Bytes)}
    {event : Event} {output : Option Bytes}
    (holds : CounterHolds item (initial + total key history))
    (allowed : event.Counts key ∨ event.Bypasses key)
    (stepAt : StepAt key item event output following) :
    CounterHolds following
      (initial + HermitDb.Core.total key (history ++ [(event, output)])) := by
  rw [total_concat]
  rcases allowed with counts | bypasses
  · cases event with
    | command walk cmd =>
        rcases stepAt.counts holds counts with
          ⟨delta, isDelta, rfl, counted⟩ | ⟨message, rfl, rfl⟩
        · have added : acknowledged key (.command walk cmd,
              some (Resp.integer (initial + HermitDb.Core.total key history +
                delta))) = delta := by
            rw [acknowledged, isDelta]
            exact if_pos ⟨counts, rfl⟩
          rwa [added, ← Int.add_assoc]
        · have nothing : acknowledged key (.command walk cmd,
              some (Resp.error message)) = 0 := by
            refine if_neg fun both => ?_
            exact absurd (Option.some.inj both.2) (by decide)
          rwa [nothing, Int.add_zero]
    | activeCycle | tickFsync => exact counts.elim
  · have nothing : acknowledged key (event, output) = 0 := by
      cases event with
      | command walk cmd =>
          cases output with
          | none => rfl
          | some reply =>
              refine if_neg fun both => ?_
              exact bypasses.1 (countsOn_named both.1)
      | activeCycle | tickFsync => rfl
    rwa [stepAt.bypasses bypasses, nothing, Int.add_zero]

/-- Whatever clients and background cycles do meanwhile, a counter holds its
initial value and all acknowledged increments.  The next counter command is
answered with the new sum, or with an error and no change. -/
theorem counter_keeps_every_update {world : World} {server middle : Server}
    (reachable : server.Reachable) {initial : Int}
    (starts : CounterHolds (server.memory.view key) initial)
    {events : List Event} {outputs : List (Option Bytes)}
    (each : ∀ event ∈ events, event.Counts key ∨ event.Bypasses key)
    (ran : server.run world events = .ok (outputs, middle))
    (healthy : middle.dispatcher.persistenceFailed = false) :
    let value := initial + total key (events.zip outputs)
    CounterHolds (middle.memory.view key) value ∧ InInt64 value ∧
      ∀ walk cmd output next, countsOn key cmd = true →
        middle.step world (.command walk cmd) = .ok (output, next) →
        next.dispatcher.persistenceFailed = false →
        (∃ delta, counterDelta cmd = some delta ∧
          output = some (Resp.integer (value + delta)) ∧
          CounterHolds (next.memory.view key) (value + delta)) ∨
        ∃ message, output = some (Resp.error message) ∧
          next.memory.view key = middle.memory.view key := by
  intro value
  have holds : CounterHolds (middle.memory.view key) value := by
    refine run_at_key
      (fun history item => CounterHolds item (initial + total key history))
      (fun _ _ => CounterHolds.untimed) ?_ reachable ?_ each ran healthy
    · intro history item event output following holds allowed stepAt
      exact stepAt.total holds allowed
    · simpa [total] using starts
  refine ⟨holds, holds.inInt64, ?_⟩
  intro walk cmd output next counts stepped stillHealthy
  have stepAt := step_at_key (reachable.run ran).wf
    (fun item present => (present ▸ holds).untimed) stepped stillHealthy
  exact stepAt.counts holds counts

/-- A counter at the upper rail, with a write to another key in between. -/
def counterRace (walk : Walk) : List Event :=
  [.command walk [ascii "INCRBY", ascii "k", ascii "9223372036854775807"],
    .command walk [ascii "SET", ascii "other", ascii "x"],
    .command walk [ascii "INCR", ascii "k"],
    .tickFsync,
    .command walk [ascii "DECR", ascii "k"]]

set_option maxRecDepth 4000 in
private theorem run_of_counterRace :
    (Server.run (World.frozen 0) (Server.fresh none) (counterRace .arbitrary)).map
      (fun result => (total (ascii "k") ((counterRace .arbitrary).zip result.1),
        result.2.dispatcher.persistenceFailed)) =
      .ok (2 ^ 63 - 2, false) := by
  rfl

/-- The increment beyond the rail is refused and the decrement counts. -/
theorem counter_keeps_every_update_race :
    ∃ outputs final,
      Server.run (World.frozen 0) (Server.fresh none) (counterRace .arbitrary) =
        .ok (outputs, final) ∧
      CounterHolds (final.memory.view (ascii "k")) (2 ^ 63 - 2) := by
  obtain ⟨⟨outputs, final⟩, ran, shown⟩ :=
    exists_of_map_eq_ok run_of_counterRace
  obtain ⟨sum, healthy⟩ := Prod.mk.inj shown
  have each : ∀ event ∈ counterRace .arbitrary,
      event.Counts (ascii "k") ∨ event.Bypasses (ascii "k") := by
    have apart : (ascii "k") ∉
        namedKeys [ascii "SET", ascii "other", ascii "x"] := by decide
    have notFlushall : ∀ name args,
        [ascii "SET", ascii "other", ascii "x"] = name :: args →
        table.lookup (upper name) ≠ some .flushall := by
      rintro name args ⟨⟩
      decide
    intro event member
    simp only [counterRace, List.mem_cons, List.not_mem_nil, or_false] at member
    rcases member with rfl | rfl | rfl | rfl | rfl
    · exact .inl rfl
    · exact .inr ⟨apart, notFlushall⟩
    · exact .inl rfl
    · exact .inr True.intro
    · exact .inl rfl
  have counted := (counter_keeps_every_update (.fresh none) .absent each ran
    healthy).1
  rw [sum, Int.zero_add] at counted
  exact ⟨outputs, final, ran, counted⟩

end Counters

/-! ## Lists -/

def pushVerb (left : Bool) : Verb :=
  if left then .lpush else .rpush

def popVerb (left : Bool) : Verb :=
  if left then .lpop else .rpop

/-- The values the command pushes on the key at one end; none if it is another
command. -/
def pushedOn (left : Bool) (key : Bytes) (cmd : Command) : List Bytes :=
  match cmd with
  | name :: target :: values =>
      if table.lookup (upper name) = some (pushVerb left) ∧ target = key then
        values
      else []
  | _ => []

/-- The command pops the key at one end. -/
def popsOn (left : Bool) (key : Bytes) (cmd : Command) : Bool :=
  match cmd with
  | [name, target] =>
      table.lookup (upper name) = some (popVerb left) ∧ target = key
  | _ => false

namespace Event

def pushed (left : Bool) (key : Bytes) : Event → List Bytes
  | .command _ cmd => pushedOn left key cmd
  | _ => []

def pops (left : Bool) (key : Bytes) : Event → Bool
  | .command _ cmd => popsOn left key cmd
  | _ => false

end Event

/-- The list as seen from one end. -/
def fromEnd (left : Bool) (items : List Bytes) : List Bytes :=
  if left then items else items.reverse

/-- The replies to pops that found a value, in order. -/
def popReplies (left : Bool) (key : Bytes)
    (history : List (Event × Option Bytes)) : List (Option Bytes) :=
  (history.filter fun entry =>
    entry.1.pops left key && entry.2 ≠ some Resp.nullBulk).map Prod.snd

/-- A stack that takes what is pushed, value by value, and gives up its top. -/
def stackAfter (left : Bool) (key : Bytes) (events : List Event) :
    List Bytes :=
  events.foldl (fun stack event =>
    if event.pops left key then stack.tail
    else (event.pushed left key).reverse ++ stack) []

/-- What was popped and what is left account for everything pushed: as a queue
if the ends differ, as a stack if they are the same. -/
structure Accounted (pushLeft popLeft : Bool) (key : Bytes)
    (history : List (Event × Option Bytes)) (contents popped : List Bytes) :
    Prop where
  replies : popReplies popLeft key history =
    popped.map fun value => some (Resp.bulk value)
  queue : popLeft = !pushLeft → popped ++ fromEnd popLeft contents =
    history.flatMap fun entry => entry.1.pushed pushLeft key
  stack : popLeft = pushLeft → fromEnd popLeft contents =
    stackAfter popLeft key (history.map Prod.fst)

/-- The key has no TTL and holds the list; an absent key holds the empty one. -/
inductive ListHolds : Option Item → List Bytes → Prop where
  | drained : ListHolds none []
  | holding {items : List Bytes} (nonempty : items ≠ []) :
      ListHolds (some ⟨.list items, none⟩) items

section Lists

variable {key : Bytes} {cmd : Command} {item following : Option Item}
  {contents : List Bytes} {left : Bool}

theorem fromEnd_fromEnd (left : Bool) (items : List Bytes) :
    fromEnd left (fromEnd left items) = items := by
  cases left
  · exact List.reverse_reverse items
  · rfl

theorem fromEnd_eq_nil {items : List Bytes} :
    fromEnd left items = [] ↔ items = [] := by
  cases left
  · exact List.reverse_eq_nil_iff
  · exact Iff.rfl

theorem fromEnd_pushed_same (left : Bool) (items values : List Bytes) :
    fromEnd left (pushed left items values) =
      values.reverse ++ fromEnd left items := by
  cases left
  · exact List.reverse_append
  · rfl

theorem fromEnd_pushed_other (left : Bool) (items values : List Bytes) :
    fromEnd (!left) (pushed left items values) =
      fromEnd (!left) items ++ values := by
  cases left
  · rfl
  · simp [fromEnd, pushed]

theorem taken_eq (left : Bool) (items : List Bytes) :
    taken left items =
      match fromEnd left items with
      | [] => none
      | value :: rest => some (value, fromEnd left rest) := by
  cases left with
  | true => cases items <;> rfl
  | false =>
      induction items using List.reverseRecOn with
      | nil => rfl
      | append_singleton items value _ =>
          simp [taken, Db.takeBack, fromEnd]

theorem ListHolds.untimed {item : Item}
    (holds : ListHolds (some item) contents) : item.deadline = none := by
  cases holds
  rfl

theorem ListHolds.push (holds : ListHolds item contents) {values : List Bytes}
    (some : values ≠ []) (left : Bool) (now : Int) :
    ∃ after, (KeyOp.push left values).run wrap64 now item =
        (.integer (pushed left contents values).length, after) ∧
      ListHolds after (pushed left contents values) := by
  have nonempty : pushed left contents values ≠ [] := by
    cases left <;> simp [pushed, some]
  cases holds with
  | drained => exact ⟨_, rfl, .holding nonempty⟩
  | holding => exact ⟨_, rfl, .holding nonempty⟩

theorem ListHolds.pop (holds : ListHolds item contents) (left : Bool)
    (now : Int) :
    (contents = [] ∧
        (KeyOp.pop left).run wrap64 now item = (.nullBulk, item)) ∨
      ∃ value rest after, fromEnd left contents = value :: rest ∧
        (KeyOp.pop left).run wrap64 now item = (.bulk value, after) ∧
        ListHolds after (fromEnd left rest) := by
  cases holds with
  | drained => exact .inl ⟨rfl, rfl⟩
  | holding nonempty =>
      cases seen : fromEnd left contents with
      | nil => exact absurd (fromEnd_eq_nil.mp seen) nonempty
      | cons value rest =>
          refine .inr ⟨value, rest, if (fromEnd left rest).isEmpty then none
            else some ⟨.list (fromEnd left rest), none⟩, rfl, ?_, ?_⟩
          · simp only [KeyOp.run, taken_eq, seen]
          · cases remaining : fromEnd left rest with
            | nil => exact .drained
            | cons => exact .holding (List.cons_ne_nil _ _)

theorem pushedOn_listed (pushes : pushedOn left key cmd ≠ []) :
    ∃ name value values, cmd = name :: key :: value :: values ∧
      table.lookup (upper name) = some (pushVerb left) ∧
      pushedOn left key cmd = value :: values := by
  match cmd with
  | [] | [_] => exact absurd rfl pushes
  | name :: target :: values =>
      rw [pushedOn] at pushes ⊢
      split at pushes
      · rename_i isPush
        obtain ⟨listed, rfl⟩ := isPush
        cases values with
        | nil => exact absurd rfl pushes
        | cons value values =>
            exact ⟨name, value, values, rfl, listed, if_pos ⟨listed, rfl⟩⟩
      · exact absurd rfl pushes

theorem pushedOn_reads (pushes : pushedOn left key cmd ≠ []) :
    Action.ofCommand wrap64 cmd =
        .onKey key (.push left (pushedOn left key cmd)) ∧
      key ∈ namedKeys cmd ∧ popsOn left key cmd = false ∧
      popsOn (!left) key cmd = false := by
  obtain ⟨name, value, values, rfl, listed, same⟩ := pushedOn_listed pushes
  rw [same, ofCommand_of_lookup wrap64 listed, namedKeys, listed]
  cases left
  all_goals exact ⟨rfl, List.mem_singleton_self key, rfl, rfl⟩

theorem popsOn_reads (pops : popsOn left key cmd = true) :
    Action.ofCommand wrap64 cmd = .onKey key (.pop left) ∧
      key ∈ namedKeys cmd := by
  match cmd with
  | [] | [_] | _ :: _ :: _ :: _ => cases pops
  | [name, target] =>
      obtain ⟨listed, rfl⟩ := of_decide_eq_true pops
      rw [ofCommand_of_lookup wrap64 listed, namedKeys, listed]
      cases left
      all_goals exact ⟨rfl, List.mem_singleton_self target⟩

theorem StepAt.pushes (holds : ListHolds item contents)
    (pushes : pushedOn left key cmd ≠ []) {walk : Walk} {output : Option Bytes}
    (stepAt : StepAt key item (.command walk cmd) output following) :
    output = some (Resp.integer
        (pushed left contents (pushedOn left key cmd)).length) ∧
      ListHolds following (pushed left contents (pushedOn left key cmd)) := by
  obtain ⟨now, replied, left⟩ :=
    stepAt.acts walk cmd _ rfl (pushedOn_reads pushes).1
  obtain ⟨after, ran, holdsAfter⟩ := holds.push pushes _ now
  rw [ran] at replied left
  exact ⟨replied, left ▸ holdsAfter⟩

theorem StepAt.pops (holds : ListHolds item contents)
    (pops : popsOn left key cmd = true) {walk : Walk} {output : Option Bytes}
    (stepAt : StepAt key item (.command walk cmd) output following) :
    (contents = [] ∧ output = some Resp.nullBulk ∧ following = item) ∨
      ∃ value rest, fromEnd left contents = value :: rest ∧
        output = some (Resp.bulk value) ∧
        ListHolds following (fromEnd left rest) := by
  obtain ⟨now, replied, becomes⟩ :=
    stepAt.acts walk cmd _ rfl (popsOn_reads pops).1
  rcases holds.pop left now with
    ⟨empty, ran⟩ | ⟨value, rest, after, seen, ran, holdsAfter⟩
  · rw [ran] at replied becomes
    exact .inl ⟨empty, replied, becomes⟩
  · rw [ran] at replied becomes
    exact .inr ⟨value, rest, seen, replied, becomes ▸ holdsAfter⟩

section Accounts

variable {pushLeft popLeft : Bool} {history : List (Event × Option Bytes)}
  {popped : List Bytes} {event : Event} {output : Option Bytes}

theorem popReplies_concat :
    popReplies popLeft key (history ++ [(event, output)]) =
      popReplies popLeft key history ++
        if event.pops popLeft key && output ≠ some Resp.nullBulk then [output]
        else [] := by
  rw [popReplies, List.filter_append, List.map_append, popReplies,
    List.filter_singleton]
  congr 1
  dsimp only
  generalize (event.pops popLeft key && decide (output ≠ some Resp.nullBulk)) =
    kept
  cases kept <;> rfl

theorem stackAfter_concat (events : List Event) :
    stackAfter popLeft key (events ++ [event]) =
      if event.pops popLeft key then (stackAfter popLeft key events).tail
      else (event.pushed popLeft key).reverse ++
        stackAfter popLeft key events := by
  rw [stackAfter, List.foldl_append]
  rfl

theorem Accounted.push (accounted : Accounted pushLeft popLeft key history
      contents popped)
    (notPop : event.pops popLeft key = false) (output : Option Bytes) :
    Accounted pushLeft popLeft key (history ++ [(event, output)])
      (pushed pushLeft contents (event.pushed pushLeft key)) popped where
  replies := by
    rw [popReplies_concat, accounted.replies, notPop]
    simp
  queue opposite := by
    subst opposite
    rw [fromEnd_pushed_other, ← List.append_assoc, accounted.queue rfl]
    simp
  stack same := by
    subst same
    rw [fromEnd_pushed_same, accounted.stack rfl, List.map_append,
      List.map_singleton, stackAfter_concat, notPop]
    rfl

theorem Accounted.null (accounted : Accounted pushLeft popLeft key history
      [] popped) (isPop : event.pops popLeft key = true)
    (notPush : event.pushed pushLeft key = []) :
    Accounted pushLeft popLeft key
      (history ++ [(event, some Resp.nullBulk)]) [] popped where
  replies := by
    rw [popReplies_concat, accounted.replies]
    simp
  queue opposite := by
    rw [accounted.queue opposite]
    simp [notPush]
  stack same := by
    rw [List.map_append, List.map_singleton, stackAfter_concat, isPop, if_pos rfl,
      ← accounted.stack same, fromEnd_eq_nil.mpr rfl]
    rfl

theorem Accounted.pop (accounted : Accounted pushLeft popLeft key history
      contents popped) (isPop : event.pops popLeft key = true)
    (notPush : event.pushed pushLeft key = []) {value : Bytes}
    {rest : List Bytes} (seen : fromEnd popLeft contents = value :: rest) :
    Accounted pushLeft popLeft key
      (history ++ [(event, some (Resp.bulk value))]) (fromEnd popLeft rest)
      (popped ++ [value]) where
  replies := by
    have notNull : (some (Resp.bulk value) ≠ some Resp.nullBulk) := by
      intro isNull
      exact bulk_ne_nullBulk value (Option.some.inj isNull)
    rw [popReplies_concat, accounted.replies, isPop]
    simp [notNull]
  queue opposite := by
    have before := accounted.queue opposite
    rw [seen] at before
    rw [fromEnd_fromEnd, List.append_assoc, List.singleton_append, before]
    simp [notPush]
  stack same := by
    rw [List.map_append, List.map_singleton, stackAfter_concat, isPop, if_pos rfl,
      ← accounted.stack same, seen, fromEnd_fromEnd]
    rfl

/-- One event of an interleaving keeps the account. -/
theorem StepAt.accounted (holds : ListHolds item contents)
    (accounted : Accounted pushLeft popLeft key history contents popped)
    (allowed : event.pushed pushLeft key ≠ [] ∨
      event.pops popLeft key = true ∨ event.Bypasses key)
    (stepAt : StepAt key item event output following) :
    ∃ contents popped, ListHolds following contents ∧
      Accounted pushLeft popLeft key (history ++ [(event, output)]) contents
        popped := by
  rcases allowed with pushes | pops | bypasses
  · cases event with
    | command walk cmd =>
        obtain ⟨_, _, notSame, notOther⟩ := pushedOn_reads pushes
        have notPop : (Event.command walk cmd).pops popLeft key = false := by
          cases pushLeft <;> cases popLeft <;> assumption
        exact ⟨_, popped, (stepAt.pushes holds pushes).2,
          accounted.push notPop output⟩
    | activeCycle | tickFsync => exact absurd rfl pushes
  · cases event with
    | command walk cmd =>
        have notPush : pushedOn pushLeft key cmd = [] := by
          match cmd with
          | [] | [_] => rfl
          | _ :: _ :: _ :: _ => cases pops
          | [_, _] => exact ite_self _
        rcases stepAt.pops holds pops with
          ⟨rfl, rfl, rfl⟩ | ⟨value, rest, seen, rfl, holdsAfter⟩
        · exact ⟨[], popped, holds, accounted.null pops notPush⟩
        · exact ⟨_, _, holdsAfter, accounted.pop pops notPush seen⟩
    | activeCycle | tickFsync => cases pops
  · have notPop : event.pops popLeft key = false := by
      cases event with
      | command walk cmd =>
          apply Bool.eq_false_of_not_eq_true
          exact fun pops => bypasses.1 (popsOn_reads pops).2
      | activeCycle | tickFsync => rfl
    have notPush : event.pushed pushLeft key = [] := by
      cases event with
      | command walk cmd =>
          by_contra pushes
          exact bypasses.1 (pushedOn_reads pushes).2.1
      | activeCycle | tickFsync => rfl
    have kept := accounted.push notPop output
    have unchanged : pushed pushLeft contents [] = contents := by
      cases pushLeft <;> simp [pushed]
    rw [notPush, unchanged] at kept
    exact ⟨contents, popped, stepAt.bypasses bypasses ▸ holds, kept⟩

/-- Producers push at one end and consumers pop at one end, whatever else
happens to other keys.  What was popped, followed by what is left, is what was
pushed, in order; with both at the same end the list is a stack.  A pop answers
null exactly if nothing is left, and a push with the length. -/
theorem lists_keep_every_element (pushLeft popLeft : Bool) {world : World}
    {server middle : Server} (reachable : server.Reachable)
    (absent : server.memory.db.find key = none) {events : List Event}
    {outputs : List (Option Bytes)}
    (each : ∀ event ∈ events, event.pushed pushLeft key ≠ [] ∨
      event.pops popLeft key = true ∨ event.Bypasses key)
    (ran : server.run world events = .ok (outputs, middle))
    (healthy : middle.dispatcher.persistenceFailed = false) :
    ∃ contents popped, ListHolds (middle.memory.view key) contents ∧
      Accounted pushLeft popLeft key (events.zip outputs) contents popped ∧
      ∀ walk cmd output next,
        middle.step world (.command walk cmd) = .ok (output, next) →
        next.dispatcher.persistenceFailed = false →
        (popsOn popLeft key cmd = true →
          (output = some Resp.nullBulk ↔ contents = []) ∧
          ∀ value rest, fromEnd popLeft contents = value :: rest →
            output = some (Resp.bulk value)) ∧
        (pushedOn pushLeft key cmd ≠ [] → ∃ longer,
          ListHolds (next.memory.view key) longer ∧
          output = some (Resp.integer longer.length)) := by
  have initial : ListHolds (server.memory.view key) [] ∧
      Accounted pushLeft popLeft key [] [] [] := by
    rw [Memory.view_none absent]
    exact ⟨.drained, rfl, fun _ => fromEnd_eq_nil.mpr rfl,
      fun _ => fromEnd_eq_nil.mpr rfl⟩
  obtain ⟨contents, popped, holds, accounted⟩ := run_at_key
    (fun history item => ∃ contents popped, ListHolds item contents ∧
      Accounted pushLeft popLeft key history contents popped)
    (by
      rintro history item ⟨contents, popped, holds, _⟩
      exact holds.untimed)
    (by
      rintro history item event output following ⟨contents, popped, holds,
        accounted⟩ allowed stepAt
      exact stepAt.accounted holds accounted allowed)
    reachable ⟨[], [], initial⟩ each ran healthy
  refine ⟨contents, popped, holds, accounted, ?_⟩
  intro walk cmd output next stepped stillHealthy
  have stepAt := step_at_key (reachable.run ran).wf
    (fun item present => (present ▸ holds).untimed) stepped stillHealthy
  constructor
  · intro pops
    rcases stepAt.pops holds pops with
      ⟨rfl, isNull, _⟩ | ⟨value, rest, seen, isBulk, _⟩
    · refine ⟨⟨fun _ => rfl, fun _ => isNull⟩, ?_⟩
      intro value rest seen
      rw [fromEnd_eq_nil.mpr rfl] at seen
      cases seen
    · refine ⟨⟨?_, ?_⟩, ?_⟩
      · intro isNull
        rw [isBulk] at isNull
        exact absurd (Option.some.inj isNull) (bulk_ne_nullBulk value)
      · rintro rfl
        rw [fromEnd_eq_nil.mpr rfl] at seen
        cases seen
      · intro other others seenOther
        rw [seen] at seenOther
        cases seenOther
        exact isBulk
  · intro pushes
    obtain ⟨replied, holdsAfter⟩ := stepAt.pushes holds pushes
    exact ⟨_, holdsAfter, replied⟩

/-- Two producers and a consumer that drains the list in between. -/
def listRace (walk : Walk) : List Event :=
  [.command walk [ascii "RPUSH", ascii "k", ascii "a"],
    .command walk [ascii "LPOP", ascii "k"],
    .command walk [ascii "LPOP", ascii "k"],
    .command walk [ascii "RPUSH", ascii "k", ascii "b", ascii "c"],
    .command walk [ascii "LPOP", ascii "k"]]

set_option maxRecDepth 4000 in
private theorem run_of_listRace :
    (Server.run (World.frozen 0) (Server.fresh none) (listRace .arbitrary)).map
      (fun result => (result.1, result.2.dispatcher.persistenceFailed)) =
      .ok ([some (Resp.integer 1), some (Resp.bulk (ascii "a")),
        some Resp.nullBulk, some (Resp.integer 2),
        some (Resp.bulk (ascii "b"))], false) := by
  rfl

/-- One element is left of the three, and the other two came in order. -/
theorem lists_keep_every_element_race :
    ∃ outputs final contents popped,
      Server.run (World.frozen 0) (Server.fresh none) (listRace .arbitrary) =
        .ok (outputs, final) ∧
      ListHolds (final.memory.view (ascii "k")) contents ∧
      popped.map (fun value => some (Resp.bulk value)) =
        [some (Resp.bulk (ascii "a")), some (Resp.bulk (ascii "b"))] ∧
      popped ++ contents = [ascii "a", ascii "b", ascii "c"] := by
  obtain ⟨⟨outputs, final⟩, ran, shown⟩ := exists_of_map_eq_ok run_of_listRace
  obtain ⟨rfl, healthy⟩ := Prod.mk.inj shown
  have each : ∀ event ∈ listRace .arbitrary, event.pushed false (ascii "k") ≠ [] ∨
      event.pops true (ascii "k") = true ∨ event.Bypasses (ascii "k") := by
    intro event member
    simp only [listRace, List.mem_cons, List.not_mem_nil, or_false] at member
    rcases member with rfl | rfl | rfl | rfl | rfl
    · exact .inl (by decide)
    · exact .inr (.inl rfl)
    · exact .inr (.inl rfl)
    · exact .inl (by decide)
    · exact .inr (.inl rfl)
  obtain ⟨contents, popped, holds, accounted, _⟩ :=
    lists_keep_every_element false true (.fresh none) rfl each ran healthy
  exact ⟨_, final, contents, popped, ran, holds, accounted.replies.symm,
    accounted.queue rfl⟩

end Accounts

end Lists

end HermitDb.Core
