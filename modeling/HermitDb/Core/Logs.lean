import HermitDb.Core.Execute

/-!
# What a command leaves in the log

What to log is decided from the text of the reply, apart from the handler that
made the change.  `Logs` lists every pair of a change to the keyspace and the
records that stand for it, and each branch of `log_mutation` is shown to agree
with the handler it follows.
-/

namespace HermitDb.Core

open Library Persist Protocol

/-! ## The records that stand for a change -/

/-- The actions that are logged as they were sent. -/
inductive Verbatim : Action → Prop where
  | incrBy (key : Bytes) (delta : Int) : Verbatim (.onKey key (.incrBy delta))
  | push (key : Bytes) (left : Bool) (values : List Bytes) :
      Verbatim (.onKey key (.push left values))
  | pop (key : Bytes) (left : Bool) : Verbatim (.onKey key (.pop left))
  | del (targets : List Bytes) : Verbatim (.del targets)
  | flushall : Verbatim .flushall

/-- Such an action does the same at any time. -/
theorem Verbatim.after_eq {action : Action} (verbatim : Verbatim action)
    (wrap : Int → Int) (now other : Int) (keyspace : Keyspace) :
    action.after wrap now keyspace = action.after wrap other keyspace := by
  cases verbatim with
  | incrBy key delta =>
      simp only [Action.after]
      congr 2
      cases keyspace key with
      | none => rfl
      | some item => rcases item with ⟨_ | _, _⟩ <;> rfl
  | push key left values =>
      simp only [Action.after]
      congr 2
      cases keyspace key with
      | none => rfl
      | some item => rcases item with ⟨_ | _, _⟩ <;> rfl
  | pop key left =>
      simp only [Action.after]
      congr 2
      cases keyspace key with
      | none => rfl
      | some item => rcases item with ⟨_ | _, _⟩ <;> rfl
  | del targets => rfl
  | flushall => rfl

theorem Verbatim.asks {action : Action} (verbatim : Verbatim action) :
    ∀ reply, action ≠ .answer reply := by
  rintro reply rfl
  cases verbatim

theorem increment_deadline {held : Option Item} {deadline : Option Int}
    (tracked : ∀ item, held = some item → item.deadline = deadline) (sum : Int)
    {item : Item} (result : (increment held deadline sum).2 = some item) :
    item.deadline = deadline := by
  unfold increment at result
  split at result
  · exact tracked item result
  · cases result
    rfl

/-- A verbatim operation on one key arms no deadline: a deadline after it was
there before it. -/
theorem Verbatim.run_deadline {key : Bytes} {op : KeyOp}
    (verbatim : Verbatim (.onKey key op)) {wrap : Int → Int} {now : Int}
    {before : Option Item} {item : Item} {deadline : Int}
    (result : (op.run wrap now before).2 = some item)
    (hasDeadline : item.deadline = some deadline) :
    ∃ old, before = some old ∧ old.deadline = some deadline := by
  cases verbatim with
  | incrBy key delta =>
      cases before with
      | none =>
          have := increment_deadline (by simp) delta result
          rw [this] at hasDeadline
          cases hasDeadline
      | some old =>
          refine ⟨old, rfl, ?_⟩
          rcases old with ⟨text | items, oldDeadline⟩
          · simp only [KeyOp.run] at result
            split at result
            · cases result
              exact hasDeadline
            · have same := increment_deadline (by simp) _ result
              rw [same] at hasDeadline
              exact hasDeadline
          · cases result
            exact hasDeadline
  | push key left values =>
      cases before with
      | none =>
          cases result
          cases hasDeadline
      | some old =>
          refine ⟨old, rfl, ?_⟩
          rcases old with ⟨text | items, oldDeadline⟩
          · cases result
            exact hasDeadline
          · cases result
            exact hasDeadline
  | pop key left =>
      cases before with
      | none => cases result
      | some old =>
          refine ⟨old, rfl, ?_⟩
          rcases old with ⟨text | items, oldDeadline⟩
          · cases result
            exact hasDeadline
          · simp only [KeyOp.run] at result
            split at result
            · cases result
              exact hasDeadline
            · simp only at result
              split at result
              · cases result
              · cases result
                exact hasDeadline

theorem Verbatim.deadline {action : Action} (verbatim : Verbatim action)
    {wrap : Int → Int} {now : Int} {keyspace : Keyspace} {key : Bytes}
    {item : Item} {deadline : Int}
    (present : action.after wrap now keyspace key = some item)
    (hasDeadline : item.deadline = some deadline) :
    ∃ old, keyspace key = some old ∧ old.deadline = some deadline := by
  cases action with
  | onKey target op =>
      by_cases same : key = target
      · subst key
        rw [Action.after, Function.update_self] at present
        exact verbatim.run_deadline present hasDeadline
      · rw [Action.after, Function.update_of_ne same] at present
        exact ⟨item, present, hasDeadline⟩
  | del targets =>
      by_cases removed : key ∈ targets
      · rw [Action.after, TimedMap.without_of_mem removed] at present
        cases present
      · rw [Action.after, TimedMap.without_of_not_mem removed] at present
        exact ⟨item, present, hasDeadline⟩
  | flushall => cases present
  | answer | «exists» | keys | dbsize => cases verbatim

/-- The operation gives the key this deadline. -/
def KeyOp.Arms (now : Int) (op : KeyOp) (atMs : Int) : Prop :=
  match op with
  | .expire n unitToMs => 0 < n ∧ atMs = wrap64 (now + wrap64 (n * unitToMs))
  | .pexpireat deadline => now < deadline ∧ atMs = deadline
  | _ => False

/-- What an action changed in the keyspace, and the records that stand for the
change. -/
inductive Logs (now : Int) (before : Keyspace) (action : Action) :
    Keyspace → List Command → Prop where
  | nothing : Logs now before action before []
  | set (key value : Bytes)
      (asked : ∃ choice, action = .onKey key (.set value choice)) :
      Logs now before action
        (Function.update before key (some ⟨.string value, none⟩))
        [setRecord key value]
  | setExpiring (key value : Bytes) (atMs : Int64)
      (asked : ∃ choice, action = .onKey key (.set value choice) ∧
        choice.expireMs.isSome = true) :
      Logs now before action
        (Function.update before key (some ⟨.string value, some atMs.toInt⟩))
        [setRecord key value, pexpireatRecord key atMs]
  | arm (key : Bytes) (item : Item) (atMs : Int64)
      (present : before key = some item)
      (asked : ∃ op, action = .onKey key op ∧ op.Arms now atMs.toInt) :
      Logs now before action
        (Function.update before key (some ⟨item.value, some atMs.toInt⟩))
        [pexpireatRecord key atMs]
  | remove (key : Bytes) (present : before key ≠ none) :
      Logs now before action (Function.update before key none) [delRecord key]
  | disarm (key : Bytes) (value : Value) (deadline : Int)
      (present : before key = some ⟨value, some deadline⟩)
      (asked : action = .onKey key .persist) :
      Logs now before action (Function.update before key (some ⟨value, none⟩))
        [persistRecord key]
  | verbatim (cmd : Command) (kind : Verbatim action)
      (reads : Action.ofCommand wrap64 cmd = action)
      (granted : ∀ key op, action = .onKey key op → ∀ message,
        (op.run wrap64 now (before key)).1 ≠ .error message)
      (found : ∀ key op, action = .onKey key op →
        (op.run wrap64 now (before key)).1 ≠ .nullBulk) :
      Logs now before action (action.after wrap64 now before) [cmd]

/-- A change that leaves no record is none. -/
theorem Logs.eq_of_nil {now : Int} {before after : Keyspace} {action : Action}
    (logs : Logs now before action after []) : after = before := by
  cases logs with
  | nothing => rfl

section Inversion

variable {plain : PlainChar} {before : Keyspace} {after : Memory} {now : Int}
  {cmd : Command}
  {reply : Reply} {key : Bytes}

theorem mutationRecords_error (expiry : ExpiryManager) (verb : Verb)
    (cmd : Command) (message : Bytes) :
    mutationRecords expiry verb cmd (Reply.error message).encode = [] :=
  if_pos (.inr rfl)

theorem Memory.Wf.expiryAt_of_view {memory : Memory} {item : Item}
    (viewed : memory.view key = some item) :
    (memory.expiry.expiryAt key).map Int64.toInt = item.deadline := by
  cases stored : memory.db.find key with
  | none =>
      rw [Memory.view_none stored] at viewed
      cases viewed
  | some value =>
      rw [Memory.view_some stored] at viewed
      cases viewed
      rfl

theorem Memory.Wf.untracked_of_view {memory : Memory} (wf : memory.Wf)
    (viewed : memory.view key = none) : memory.expiry.expiryAt key = none :=
  wf.tracked key (Memory.view_eq_none_iff.mp viewed)

/-- A command that was only answered logs nothing. -/
theorem logs_answer {verb : Verb} {message : Bytes} {action : Action}
    (isError : reply = .error message) (view : after.view = before) :
    Logs now before action after.view
      (mutationRecords after.expiry verb cmd reply.encode) := by
  rw [isError, mutationRecords_error, view]
  exact .nothing

/-- A refused option list is answered with an error. -/
theorem readSetChoice_error {wrap : Int → Int} {args : List Bytes}
    {choice : SetChoice} {refusal : Reply}
    (refused : readSetChoice wrap args choice = .error refusal) :
    ∃ message, refusal = .error message := by
  fun_induction readSetChoice wrap args choice with
  | case1 => cases refused
  | case2 _ _ _ _ _ induction => exact induction refused
  | case3 _ _ _ _ _ _ induction => exact induction refused
  | case7 _ _ _ _ _ _ _ _ _ _ _ induction => exact induction refused
  | case4 | case5 | case6 | case8 =>
      cases refused
      exact ⟨_, rfl⟩

/-- Only `EXISTS` counts keys as they are touched. -/
theorem Verb.action_ne_exists {verb : Verb} (notExists : verb ≠ .exists)
    (wrap : Int → Int) (cmd : Command) (targets : List Bytes) :
    verb.action wrap cmd ≠ .exists targets := by
  cases verb with
  | «exists» => exact absurd rfl notExists
  | _ =>
      simp only [Verb.action, keyAction, keysAction, numberAction, pushAction]
      repeat' split
      all_goals simp

/-- The record of the deadline a key has been given, or what is logged if it
has none. -/
def deadlineRecords (key : Bytes) (otherwise : List Command) :
    Option Int64 → List Command
  | some atMs => [pexpireatRecord key atMs]
  | none => otherwise

theorem logs_set {value : Bytes} {choice : SetChoice} {name : Bytes}
    {args : List Bytes}
    (view : after.view =
      (Action.onKey key (.set value choice)).after wrap64 now before)
    (answers : (Action.onKey key (.set value choice)).Answers plain wrap64 now
      before reply) :
    Logs now before (.onKey key (.set value choice)) after.view
      (mutationRecords after.expiry .set (name :: key :: value :: args)
        reply.encode) := by
  simp only [Action.after, Action.Answers, KeyOp.run] at view answers
  split at answers
  · rename_i declined
    rw [if_pos declined, Function.update_eq_self] at view
    subst reply
    rw [view]
    exact .nothing
  · rename_i accepted
    rw [if_neg accepted] at view
    subst reply
    have viewed : after.view key = some ⟨.string value,
        choice.expireMs.map fun ms => wrap64 (now + ms)⟩ := by
      rw [view, Function.update_self]
    have tracked : (after.expiry.expiryAt key).map Int64.toInt =
        choice.expireMs.map fun ms => wrap64 (now + ms) :=
      Memory.Wf.expiryAt_of_view viewed
    have records : mutationRecords after.expiry .set
        (name :: key :: value :: args) Reply.ok.encode =
        setRecord key value ::
          deadlineRecords key [] (after.expiry.expiryAt key) := rfl
    rw [view, records]
    cases armed : after.expiry.expiryAt key with
    | none =>
        rw [armed] at tracked
        rw [← tracked]
        exact .set key value ⟨choice, rfl⟩
    | some atMs =>
        rw [armed] at tracked
        rw [← tracked]
        refine .setExpiring key value atMs ⟨choice, rfl, ?_⟩
        have isSome := congrArg Option.isSome tracked
        rw [Option.isSome_map, Option.isSome_map] at isSome
        exact isSome.symm

/-- The three commands that arm a deadline or delete outright. -/
theorem logs_deadline {verb : Verb} {name number : Bytes} {op : KeyOp}
    (isDeadline : verb = .expire ∨ verb = .pexpire ∨ verb = .pexpireat)
    (effect : ∀ item : Option Item,
      (item = none ∧ op.run wrap64 now item = (.integer 0, none)) ∨
      (item ≠ none ∧ op.run wrap64 now item = (.integer 1, none)) ∨
      ∃ held deadline, item = some held ∧ op.Arms now deadline ∧
        op.run wrap64 now item =
          (.integer 1, some ⟨held.value, some deadline⟩))
    (wf : after.Wf)
    (view : after.view = (Action.onKey key op).after wrap64 now before)
    (answers : (Action.onKey key op).Answers plain wrap64 now before reply) :
    Logs now before (.onKey key op) after.view (mutationRecords after.expiry
      verb [name, key, number] reply.encode) := by
  have records : mutationRecords after.expiry verb [name, key, number]
      (Reply.integer 1).encode =
        deadlineRecords key [delRecord key] (after.expiry.expiryAt key) := by
    rcases isDeadline with rfl | rfl | rfl <;> rfl
  have noRecords : mutationRecords after.expiry verb [name, key, number]
      (Reply.integer 0).encode = [] := by
    rcases isDeadline with rfl | rfl | rfl <;> rfl
  simp only [Action.after, Action.Answers] at view answers
  obtain ⟨absent, ran⟩ | ⟨present, ran⟩ |
    ⟨held, deadline, present, arms, ran⟩ := effect (before key)
  · rw [ran] at view answers
    simp only at view answers
    rw [← absent, Function.update_eq_self] at view
    rw [answers, noRecords, view]
    exact .nothing
  · rw [ran] at view answers
    have gone : after.view key = none := by rw [view, Function.update_self]
    simp only at answers
    rw [answers, records, wf.untracked_of_view gone, view]
    exact .remove key present
  · rw [ran] at view answers
    have viewed : after.view key = some ⟨held.value, some deadline⟩ := by
      rw [view, Function.update_self]
    have armed := Memory.Wf.expiryAt_of_view viewed
    rw [Option.map_eq_some_iff] at armed
    obtain ⟨atMs, tracked, same⟩ := armed
    simp only at answers
    rw [answers, records, tracked, view, ← same]
    rw [← same] at arms
    exact .arm key held atMs present ⟨op, rfl, arms⟩

theorem expire_effect (n unitToMs now : Int) (item : Option Item) :
    (item = none ∧
        (KeyOp.expire n unitToMs).run wrap64 now item = (.integer 0, none)) ∨
      (item ≠ none ∧
        (KeyOp.expire n unitToMs).run wrap64 now item = (.integer 1, none)) ∨
      ∃ held deadline, item = some held ∧
        (KeyOp.expire n unitToMs).Arms now deadline ∧
        (KeyOp.expire n unitToMs).run wrap64 now item =
          (.integer 1, some ⟨held.value, some deadline⟩) := by
  cases item with
  | none => exact .inl ⟨rfl, rfl⟩
  | some held =>
      by_cases low : n ≤ 0
      · exact .inr (.inl ⟨by simp, by simp [KeyOp.run, low]⟩)
      · exact .inr (.inr ⟨held, _, rfl, ⟨Int.not_le.mp low, rfl⟩,
          by simp [KeyOp.run, low]⟩)

theorem pexpireat_effect (atMs now : Int) (item : Option Item) :
    (item = none ∧
        (KeyOp.pexpireat atMs).run wrap64 now item = (.integer 0, none)) ∨
      (item ≠ none ∧
        (KeyOp.pexpireat atMs).run wrap64 now item = (.integer 1, none)) ∨
      ∃ held deadline, item = some held ∧
        (KeyOp.pexpireat atMs).Arms now deadline ∧
        (KeyOp.pexpireat atMs).run wrap64 now item =
          (.integer 1, some ⟨held.value, some deadline⟩) := by
  cases item with
  | none => exact .inl ⟨rfl, rfl⟩
  | some held =>
      by_cases past : atMs ≤ now
      · exact .inr (.inl ⟨by simp, by simp [KeyOp.run, past]⟩)
      · exact .inr (.inr ⟨held, _, rfl, ⟨Int.not_le.mp past, rfl⟩,
          by simp [KeyOp.run, past]⟩)

theorem logs_persist {name : Bytes}
    (view : after.view = (Action.onKey key .persist).after wrap64 now before)
    (answers : (Action.onKey key .persist).Answers plain wrap64 now before reply) :
    Logs now before (.onKey key .persist) after.view (mutationRecords
      after.expiry .persist [name, key] reply.encode) := by
  simp only [Action.after, Action.Answers] at view answers
  have unlogged : KeyOp.persist.run wrap64 now (before key) =
      (.integer 0, before key) →
      Logs now before (.onKey key .persist) after.view (mutationRecords
        after.expiry .persist [name, key] reply.encode) := by
    intro idle
    rw [idle] at view answers
    rw [Function.update_eq_self] at view
    rw [answers, view]
    exact .nothing
  cases held : before key with
  | none =>
      refine unlogged ?_
      rw [held, KeyOp.run]
  | some item =>
      obtain ⟨value, deadline⟩ := item
      cases deadline with
      | none =>
          refine unlogged ?_
          rw [held, KeyOp.run]
      | some deadline =>
          rw [held] at view answers
          simp only [KeyOp.run] at view answers
          rw [answers, view]
          exact .disarm key value deadline held rfl

/-- Counters and pushes: an integer reply is logged, an error left everything
as it was. -/
theorem logs_counted {verb : Verb} {op : KeyOp}
    (isCounted : verb = .incr ∨ verb = .decr ∨ verb = .incrby ∨
      verb = .lpush ∨ verb = .rpush)
    (kind : Verbatim (.onKey key op))
    (reads : Action.ofCommand wrap64 cmd = .onKey key op)
    (effect : ∀ item : Option Item,
      (∃ message, op.run wrap64 now item = (.error message, item)) ∨
      ∃ number result, op.run wrap64 now item = (.integer number, result))
    (view : after.view = (Action.onKey key op).after wrap64 now before)
    (answers : (Action.onKey key op).Answers plain wrap64 now before reply) :
    Logs now before (.onKey key op) after.view
      (mutationRecords after.expiry verb cmd reply.encode) := by
  obtain ⟨message, ran⟩ | ⟨number, result, ran⟩ := effect (before key)
  · simp only [Action.after, Action.Answers, ran] at view answers
    rw [Function.update_eq_self] at view
    exact logs_answer answers view
  · have records : mutationRecords after.expiry verb cmd
        (Reply.integer number).encode = [cmd] := by
      rcases isCounted with rfl | rfl | rfl | rfl | rfl <;> rfl
    simp only [Action.Answers, ran] at answers
    rw [answers, records, view]
    refine .verbatim cmd kind reads ?_ ?_
    · rintro other otherOp ⟨⟩ message isError
      rw [ran] at isError
      cases isError
    · rintro other otherOp ⟨⟩ isNull
      rw [ran] at isNull
      cases isNull

theorem incrBy_effect (delta now : Int) (item : Option Item) :
    (∃ message, (KeyOp.incrBy delta).run wrap64 now item =
        (.error message, item)) ∨
      ∃ number result, (KeyOp.incrBy delta).run wrap64 now item =
        (.integer number, result) := by
  have increments : ∀ (held : Option Item) deadline sum,
      (∃ message, increment held deadline sum = (.error message, held)) ∨
        ∃ number result, increment held deadline sum =
          (.integer number, result) := by
    intro held deadline sum
    unfold increment
    split
    · exact .inl ⟨_, rfl⟩
    · exact .inr ⟨_, _, rfl⟩
  cases item with
  | none => exact increments none none delta
  | some item =>
      rcases item with ⟨text | items, deadline⟩
      · simp only [KeyOp.run]
        cases parseI64 text with
        | none => exact .inl ⟨_, rfl⟩
        | some cur => exact increments _ _ _
      · exact .inl ⟨_, rfl⟩

theorem push_effect (left : Bool) (values : List Bytes) (now : Int)
    (item : Option Item) :
    (∃ message, (KeyOp.push left values).run wrap64 now item =
        (.error message, item)) ∨
      ∃ number result, (KeyOp.push left values).run wrap64 now item =
        (.integer number, result) := by
  cases item with
  | none => exact .inr ⟨_, _, rfl⟩
  | some item =>
      rcases item with ⟨text | items, deadline⟩
      · exact .inl ⟨_, rfl⟩
      · exact .inr ⟨_, _, rfl⟩

/-- No payload makes a bulk reply look like a null one. -/
theorem bulk_ne_nullBulk (payload : Bytes) :
    Resp.bulk payload ≠ ascii "$-1\r\n" := by
  intro same
  cases shape : unsignedToString payload.length with
  | nil => exact unsignedToString_ne_nil _ shape
  | cons letter rest =>
      have second : (Resp.bulk payload)[1]? = some letter := by
        rw [Resp.bulk, shape]
        rfl
      rw [same] at second
      have isMinus : 45 = letter := Option.some.inj second
      have digit := unsignedToString_head shape
      rw [← isMinus] at digit
      exact absurd digit (by decide)

theorem logs_pop {verb : Verb} {left : Bool}
    (isPop : verb = .lpop ∨ verb = .rpop)
    (reads : Action.ofCommand wrap64 cmd = .onKey key (.pop left))
    (view : after.view = (Action.onKey key (.pop left)).after wrap64 now before)
    (answers : (Action.onKey key (.pop left)).Answers plain wrap64 now before
      reply) :
    Logs now before (.onKey key (.pop left)) after.view
      (mutationRecords after.expiry verb cmd reply.encode) := by
  have nullRecords : mutationRecords after.expiry verb cmd
      Reply.nullBulk.encode = [] := by
    rcases isPop with rfl | rfl <;> rfl
  have bulkRecords : ∀ payload, mutationRecords after.expiry verb cmd
      (Reply.bulk payload).encode = [cmd] := by
    intro payload
    have notNull := bulk_ne_nullBulk payload
    have notError : ¬ ((Reply.bulk payload).encode = [] ∨
        (Reply.bulk payload).encode.head? = (ascii "-").head?) := by
      rintro (isEmpty | isError)
      · cases isEmpty
      · cases isError
    rcases isPop with rfl | rfl
    all_goals exact (if_neg notError).trans (if_pos notNull)
  simp only [Action.after, Action.Answers] at view answers
  cases held : before key with
  | none =>
      rw [held] at view answers
      simp only [KeyOp.run] at view answers
      rw [← held, Function.update_eq_self] at view
      rw [answers, nullRecords, view]
      exact .nothing
  | some item =>
      rcases item with ⟨text | items, deadline⟩
      · rw [held] at view answers
        simp only [KeyOp.run] at view answers
        rw [← held, Function.update_eq_self] at view
        exact logs_answer answers view
      · cases took : taken left items with
        | none =>
            rw [held] at view answers
            simp only [KeyOp.run, took] at view answers
            rw [← held, Function.update_eq_self] at view
            rw [answers, nullRecords, view]
            exact .nothing
        | some pair =>
            have kind := Verbatim.pop key left
            rw [held] at answers
            simp only [KeyOp.run, took] at answers
            have whole : after.view =
                (Action.onKey key (.pop left)).after wrap64 now before := view
            rw [answers, bulkRecords, whole]
            refine .verbatim cmd kind reads ?_ ?_
            · rintro other op ⟨⟩ message isError
              rw [held] at isError
              simp only [KeyOp.run, took] at isError
              cases isError
            · rintro other op ⟨⟩ isNull
              rw [held] at isNull
              simp only [KeyOp.run, took] at isNull
              cases isNull

theorem integer_ne_zero {count : Nat} (positive : count ≠ 0) :
    Resp.integer count ≠ ascii ":0\r\n" := by
  intro same
  have text : intToString (count : Int) = unsignedToString count := by
    simp [intToString]
  have digits : unsignedToString count ++ crlf = unsignedToString 0 ++ crlf := by
    rw [Resp.integer, text] at same
    exact List.cons_injective same
  have printed : unsignedToString count = unsignedToString 0 :=
    List.append_cancel_right digits
  have parsed := parseDigits_unsignedToString count
  rw [printed, parseDigits_unsignedToString] at parsed
  exact positive (Option.some.inj parsed).symm

theorem mutationRecords_del (expiry : ExpiryManager) (cmd : Command)
    (count : Nat) :
    mutationRecords expiry .del cmd (Reply.integer count).encode =
      if count = 0 then [] else [cmd] := by
  split
  · rename_i isZero
    rw [isZero]
    rfl
  · rename_i positive
    have notError : ¬ ((Reply.integer count).encode = [] ∨
        (Reply.integer count).encode.head? = (ascii "-").head?) := by
      rintro (isEmpty | isError)
      · cases isEmpty
      · cases isError
    exact (if_neg notError).trans (if_pos (integer_ne_zero positive))

theorem logs_del {targets : List Bytes}
    (reads : Action.ofCommand wrap64 cmd = .del targets)
    (view : after.view = (Action.del targets).after wrap64 now before)
    (answers : (Action.del targets).Answers plain wrap64 now before reply) :
    Logs now before (.del targets) after.view
      (mutationRecords after.expiry .del cmd reply.encode) := by
  simp only [Action.Answers] at answers
  rw [answers, mutationRecords_del]
  split
  · rename_i missed
    have untouched : before.without targets = before := by
      funext key
      by_cases target : key ∈ targets
      · have absent : before key = none := by
          simpa using List.countP_eq_zero.mp missed key
            (List.mem_dedup.mpr target)
        rw [TimedMap.without_of_mem target, absent]
      · exact TimedMap.without_of_not_mem target
    rw [view, Action.after, untouched]
    exact .nothing
  · rw [view]
    refine .verbatim cmd (.del targets) reads ?_ ?_
    · rintro _ _ ⟨⟩
    · rintro _ _ ⟨⟩

/-- Operations that only look. -/
def KeyOp.looks : KeyOp → Bool
  | .get | .type | .ttl _ | .llen | .lrange _ _ => true
  | _ => false

theorem KeyOp.run_of_looks {op : KeyOp} (looks : op.looks = true)
    (wrap : Int → Int) (now : Int) (item : Option Item) :
    (op.run wrap now item).2 = item := by
  cases op with
  | get | type | ttl | llen | lrange =>
      cases item with
      | none => rfl
      | some item => rcases item with ⟨_ | _, _ | _⟩ <;> rfl
  | set | incrBy | expire | pexpireat | persist | push | pop => cases looks

/-- The actions of the commands that never change anything. -/
inductive Looks : Action → Prop where
  | answer (reply : Reply) : Looks (.answer reply)
  | onKey (key : Bytes) {op : KeyOp} (looks : op.looks = true) :
      Looks (.onKey key op)
  | exists (targets : List Bytes) : Looks (.exists targets)
  | keys (pattern : Bytes) : Looks (.keys pattern)
  | dbsize : Looks .dbsize

theorem Looks.after_eq {action : Action} (looks : Looks action)
    (wrap : Int → Int) (now : Int) (keyspace : Keyspace) :
    action.after wrap now keyspace = keyspace := by
  cases looks with
  | onKey key looks =>
      rw [Action.after, KeyOp.run_of_looks looks, Function.update_eq_self]
  | answer | «exists» | keys | dbsize => rfl

theorem keyAction_looks (nameLower : String) (cmd : Command) {op : KeyOp}
    (looks : op.looks = true) : Looks (keyAction nameLower cmd op) := by
  unfold keyAction
  split
  · exact .onKey _ looks
  · exact .answer _

/-- The commands `log_mutation` has a branch for. -/
def Verb.mutates : Verb → Bool
  | .set | .expire | .pexpire | .pexpireat | .persist | .del | .incr | .decr
  | .incrby | .lpush | .rpush | .lpop | .rpop | .flushall => true
  | _ => false

theorem Verb.action_looks {verb : Verb} (looks : verb.mutates = false)
    (wrap : Int → Int) (cmd : Command) : Looks (verb.action wrap cmd) := by
  cases verb with
  | ping | echo | dbsize | keys =>
      simp only [Verb.action]
      split <;> constructor
  | get | ttl | pttl | type | llen => exact keyAction_looks _ cmd rfl
  | «exists» =>
      simp only [Verb.action, keysAction]
      split <;> constructor
  | config | command => exact .answer _
  | lrange =>
      simp only [Verb.action]
      split
      · split
        · exact .onKey _ rfl
        · exact .answer _
      · exact .answer _
  | set | expire | pexpire | pexpireat | persist | del | incr | decr | incrby
  | lpush | rpush | lpop | rpop | flushall => cases looks

theorem mutationRecords_of_looks {verb : Verb} (looks : verb.mutates = false)
    (expiry : ExpiryManager) (cmd : Command) (reply : Bytes) :
    mutationRecords expiry verb cmd reply = [] := by
  unfold mutationRecords
  split
  · rfl
  · cases verb <;> first | rfl | cases looks

theorem logs_numberAction {verb : Verb} {nameLower : String} {op : Int → KeyOp}
    (view : after.view =
      (numberAction nameLower cmd op).after wrap64 now before)
    (answers : (numberAction nameLower cmd op).Answers plain wrap64 now before
      reply)
    (onKey : ∀ name key number n, cmd = [name, key, number] →
      parseI64 number = some n →
      numberAction nameLower cmd op = .onKey key (op n.toInt) →
      after.view = (Action.onKey key (op n.toInt)).after wrap64 now before →
      (Action.onKey key (op n.toInt)).Answers plain wrap64 now before reply →
      Logs now before (.onKey key (op n.toInt)) after.view
        (mutationRecords after.expiry verb cmd reply.encode)) :
    Logs now before (numberAction nameLower cmd op) after.view
      (mutationRecords after.expiry verb cmd reply.encode) :=
  match cmd with
  | [] => logs_answer answers view
  | [_] => logs_answer answers view
  | [_, _] => logs_answer answers view
  | _ :: _ :: _ :: _ :: _ => logs_answer answers view
  | [name, key, number] => by
      cases parsed : parseI64 number with
      | none =>
          simp only [numberAction, parsed] at view answers
          exact logs_answer answers view
      | some n =>
          have reads : numberAction nameLower [name, key, number] op =
              .onKey key (op n.toInt) := by
            simp only [numberAction, parsed]
          rw [reads] at view answers ⊢
          exact onKey name key number n rfl parsed reads view answers

theorem logs_keyAction {verb : Verb} {nameLower : String} {op : KeyOp}
    (view : after.view = (keyAction nameLower cmd op).after wrap64 now before)
    (answers : (keyAction nameLower cmd op).Answers plain wrap64 now before reply)
    (onKey : ∀ name key, cmd = [name, key] →
      keyAction nameLower cmd op = .onKey key op →
      after.view = (Action.onKey key op).after wrap64 now before →
      (Action.onKey key op).Answers plain wrap64 now before reply →
      Logs now before (.onKey key op) after.view
        (mutationRecords after.expiry verb cmd reply.encode)) :
    Logs now before (keyAction nameLower cmd op) after.view
      (mutationRecords after.expiry verb cmd reply.encode) :=
  match cmd with
  | [] => logs_answer answers view
  | [_] => logs_answer answers view
  | _ :: _ :: _ :: _ => logs_answer answers view
  | [name, key] => onKey name key rfl rfl view answers

theorem logs_setAction
    (view : after.view = (Verb.set.action wrap64 cmd).after wrap64 now before)
    (answers : (Verb.set.action wrap64 cmd).Answers plain wrap64 now before reply) :
    Logs now before (Verb.set.action wrap64 cmd) after.view
      (mutationRecords after.expiry .set cmd reply.encode) :=
  match cmd with
  | [] => logs_answer answers view
  | [_] => logs_answer answers view
  | [_, _] => logs_answer answers view
  | name :: key :: value :: args => by
      simp only [Verb.action] at view answers ⊢
      cases chosen : readSetChoice wrap64 args ⟨false, false, none⟩ with
      | ok choice =>
          rw [chosen] at view answers
          exact logs_set view answers
      | error refusal =>
          rw [chosen] at view answers
          obtain ⟨message, isError⟩ := readSetChoice_error chosen
          rw [isError] at answers
          exact logs_answer answers view

theorem logs_delAction {nameLower : String}
    (reads : Action.ofCommand wrap64 cmd = keysAction nameLower cmd .del)
    (view : after.view = (keysAction nameLower cmd .del).after wrap64 now before)
    (answers : (keysAction nameLower cmd .del).Answers plain wrap64 now before
      reply) :
    Logs now before (keysAction nameLower cmd .del) after.view
      (mutationRecords after.expiry .del cmd reply.encode) :=
  match cmd with
  | [] => logs_answer answers view
  | [_] => logs_answer answers view
  | _ :: _ :: _ => logs_del reads view answers

theorem logs_pushAction {verb : Verb} {nameLower : String} {left : Bool}
    (isPush : verb = .lpush ∨ verb = .rpush)
    (reads : Action.ofCommand wrap64 cmd = pushAction nameLower cmd left)
    (view : after.view =
      (pushAction nameLower cmd left).after wrap64 now before)
    (answers : (pushAction nameLower cmd left).Answers plain wrap64 now before
      reply) :
    Logs now before (pushAction nameLower cmd left) after.view
      (mutationRecords after.expiry verb cmd reply.encode) :=
  match cmd with
  | [] => logs_answer answers view
  | [_] => logs_answer answers view
  | [_, _] => logs_answer answers view
  | _ :: key :: value :: values =>
      logs_counted (.inr (.inr (.inr isPush))) (.push key left (value :: values))
        reads (push_effect _ _ _) view answers

theorem logs_flushall {name : Bytes}
    (reads : Action.ofCommand wrap64 [name] = .flushall)
    (view : after.view = Action.flushall.after wrap64 now before)
    (answers : Action.flushall.Answers plain wrap64 now before reply) :
    Logs now before .flushall after.view
      (mutationRecords after.expiry .flushall [name] reply.encode) := by
  simp only [Action.Answers] at answers
  rw [answers, view]
  refine .verbatim [name] .flushall reads ?_ ?_
  · rintro _ _ ⟨⟩
  · rintro _ _ ⟨⟩

/-- Every branch of `log_mutation` agrees with the handler it follows. -/
theorem mutationRecords_logs {verb : Verb} (wf : after.Wf)
    (reads : Action.ofCommand wrap64 cmd = verb.action wrap64 cmd)
    (view : after.view = (verb.action wrap64 cmd).after wrap64 now before)
    (answers : verb ≠ .exists →
      (verb.action wrap64 cmd).Answers plain wrap64 now before reply) :
    Logs now before (verb.action wrap64 cmd) after.view
      (mutationRecords after.expiry verb cmd reply.encode) := by
  cases looks : verb.mutates with
  | false =>
      rw [mutationRecords_of_looks looks, view,
        (Verb.action_looks looks wrap64 cmd).after_eq]
      exact .nothing
  | true =>
      have answered := answers (by rintro rfl; cases looks)
      cases verb with
      | set => exact logs_setAction view answered
      | expire =>
          simp only [Verb.action] at view answered
          refine logs_numberAction view answered ?_
          rintro name key number n rfl _ _ view answered
          exact logs_deadline (.inl rfl) (expire_effect _ _ _) wf view answered
      | pexpire =>
          simp only [Verb.action] at view answered
          refine logs_numberAction view answered ?_
          rintro name key number n rfl _ _ view answered
          exact logs_deadline (.inr (.inl rfl)) (expire_effect _ _ _) wf view
            answered
      | pexpireat =>
          refine logs_numberAction view answered ?_
          rintro name key number n rfl _ _ view answered
          exact logs_deadline (.inr (.inr rfl)) (pexpireat_effect _ _) wf view
            answered
      | persist =>
          refine logs_keyAction view answered ?_
          rintro name key rfl _ view answered
          exact logs_persist view answered
      | del => exact logs_delAction reads view answered
      | incr =>
          refine logs_keyAction view answered ?_
          intro name key _ onKey view answered
          exact logs_counted (.inl rfl) (.incrBy key 1) (reads.trans onKey)
            (incrBy_effect _ _) view answered
      | decr =>
          refine logs_keyAction view answered ?_
          intro name key _ onKey view answered
          exact logs_counted (.inr (.inl rfl)) (.incrBy key (-1))
            (reads.trans onKey) (incrBy_effect _ _) view answered
      | incrby =>
          refine logs_numberAction view answered ?_
          intro name key number n _ _ onKey view answered
          exact logs_counted (.inr (.inr (.inl rfl))) (.incrBy key n.toInt)
            (reads.trans onKey) (incrBy_effect _ _) view answered
      | lpush => exact logs_pushAction (.inl rfl) reads view answered
      | rpush => exact logs_pushAction (.inr rfl) reads view answered
      | lpop =>
          refine logs_keyAction view answered ?_
          intro name key _ onKey view answered
          exact logs_pop (.inl rfl) (reads.trans onKey) view answered
      | rpop =>
          refine logs_keyAction view answered ?_
          intro name key _ onKey view answered
          exact logs_pop (.inr rfl) (reads.trans onKey) view answered
      | flushall =>
          rcases cmd with _ | ⟨name, _ | ⟨_, _⟩⟩
          · exact logs_answer answered view
          · exact logs_flushall reads view answered
          · exact logs_answer answered view
      | ping | echo | get | ttl | pttl | type | «exists» | dbsize | keys | config
      | command | lrange | llen => cases looks

end Inversion

/-- Whatever a command did to the keyspace, apart from evictions, is what its
records say. -/
theorem Outcome.logs {world : World} {memory after : Memory} {cmd : Command}
    {reply : Reply} {evicted : List Bytes}
    (outcome : Outcome world memory (Action.ofCommand wrap64 cmd) reply after
      evicted) :
    Logs (world.ms (after.clockReads - 1)) (memory.view.without evicted)
      (Action.ofCommand wrap64 cmd) after.view
      (commandRecords after.expiry cmd reply.encode) := by
  have view := outcome.view_eq _ fun _ => rfl
  have answers := outcome.answers _ fun _ => rfl
  have unlogged : Looks (Action.ofCommand wrap64 cmd) →
      commandRecords after.expiry cmd reply.encode = [] →
      Logs (world.ms (after.clockReads - 1)) (memory.view.without evicted)
        (Action.ofCommand wrap64 cmd) after.view
        (commandRecords after.expiry cmd reply.encode) := by
    intro looks none
    rw [none, view, looks.after_eq]
    exact .nothing
  cases cmd with
  | nil => exact unlogged (.answer _) rfl
  | cons name args =>
      by_cases isShutdown : upper name = ascii "SHUTDOWN"
      · refine unlogged ?_
          (by simp [commandRecords, isShutdown, table_lookup_shutdown])
        rw [Action.ofCommand, if_pos isShutdown]
        exact .answer _
      · cases listed : table.lookup (upper name) with
        | none =>
            refine unlogged ?_ (by simp [commandRecords, listed])
            rw [Action.ofCommand, if_neg isShutdown, listed]
            exact .answer _
        | some verb =>
            have reads : Action.ofCommand wrap64 (name :: args) =
                verb.action wrap64 (name :: args) := by
              rw [Action.ofCommand, if_neg isShutdown, listed]
            rw [reads] at view answers
            rw [reads]
            simp only [commandRecords, listed]
            apply mutationRecords_logs outcome.wf reads view
            intro notExists
            refine answers ?_
            intro targets isExists
            exact absurd isExists (Verb.action_ne_exists notExists _ _ _)

/-! ## The command behind an action -/

/-- Only a command of the table asks for more than a fixed answer. -/
theorem ofCommand_listed {cmd : Command} {action : Action}
    (reads : Action.ofCommand wrap64 cmd = action)
    (asks : ∀ reply, action ≠ .answer reply) :
    ∃ name args verb, cmd = name :: args ∧
      table.lookup (upper name) = some verb ∧
      verb.action wrap64 cmd = action := by
  cases cmd with
  | nil => exact absurd reads.symm (asks _)
  | cons name args =>
      rw [Action.ofCommand] at reads
      split at reads
      · exact absurd reads.symm (asks _)
      · split at reads
        · exact absurd reads.symm (asks _)
        · rename_i verb listed
          exact ⟨name, args, verb, rfl, listed, reads⟩

theorem ofCommand_of_lookup (wrap : Int → Int) {name : Bytes} {verb : Verb}
    (listed : table.lookup (upper name) = some verb) (args : List Bytes) :
    Action.ofCommand wrap (name :: args) = verb.action wrap (name :: args) := by
  have notShutdown : upper name ≠ ascii "SHUTDOWN" := by
    intro isShutdown
    rw [isShutdown, table_lookup_shutdown] at listed
    cases listed
  rw [Action.ofCommand, if_neg notShutdown, listed]

/-- Where the arguments of an action stand in the command. -/
def Action.Spelled (verb : Verb) (cmd : Command) : Action → Prop
  | .onKey key (.set value _) =>
      verb = .set ∧ ∃ name args, cmd = name :: key :: value :: args
  | .onKey key (.pop _) => ∃ name, cmd = [name, key]
  | .onKey key _ => ∃ name args, cmd = name :: key :: args
  | .del _ => verb = .del
  | .flushall => ∃ name, cmd = [name]
  | _ => True

theorem Verb.action_spelled (verb : Verb) (cmd : Command) :
    (verb.action wrap64 cmd).Spelled verb cmd := by
  cases verb
  all_goals
    simp only [Verb.action, keyAction, keysAction, numberAction, pushAction]
    repeat' split
  all_goals simp [Action.Spelled]

/-- Counters and pushes reply with the number they leave. -/
def KeyOp.counts : KeyOp → Bool
  | .incrBy _ | .push _ _ => true
  | _ => false

theorem Verb.action_counts {verb : Verb} {cmd : Command} {key : Bytes}
    {op : KeyOp} (reads : verb.action wrap64 cmd = .onKey key op)
    (counts : op.counts = true) :
    (verb = .incr ∨ verb = .decr ∨ verb = .incrby ∨ verb = .lpush ∨
        verb = .rpush) ∧
      ∀ delta, op = .incrBy delta → -2 ^ 63 ≤ delta ∧ delta < 2 ^ 63 := by
  cases verb with
  | incr | decr =>
      simp only [Verb.action, keyAction] at reads
      split at reads
      · cases reads
        simp
      · cases reads
  | incrby =>
      simp only [Verb.action, numberAction] at reads
      split at reads
      · split at reads
        · cases reads
        · rename_i n _
          cases reads
          refine ⟨by simp, ?_⟩
          rintro delta ⟨⟩
          have low := Int64.minValue_le_toInt n
          rw [Int64.toInt_minValue] at low
          exact ⟨low, Int64.toInt_lt n⟩
      · cases reads
  | lpush | rpush =>
      simp only [Verb.action, pushAction] at reads
      split at reads
      · cases reads
        simp
      · cases reads
  | _ =>
      exfalso
      simp only [Verb.action, keyAction, keysAction, numberAction] at reads
      repeat' split at reads
      all_goals cases reads
      all_goals cases counts

theorem commandRecords_counts {cmd : Command} {key : Bytes} {op : KeyOp}
    (reads : Action.ofCommand wrap64 cmd = .onKey key op)
    (counts : op.counts = true) (expiry : ExpiryManager) (number : Int) :
    commandRecords expiry cmd (Reply.integer number).encode = [cmd] := by
  obtain ⟨name, args, verb, rfl, listed, reads⟩ := ofCommand_listed reads nofun
  obtain ⟨isCounted, _⟩ := Verb.action_counts reads counts
  simp only [commandRecords, listed]
  rcases isCounted with rfl | rfl | rfl | rfl | rfl <;> rfl

end HermitDb.Core
