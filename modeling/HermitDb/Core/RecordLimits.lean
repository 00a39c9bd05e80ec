import HermitDb.Core.FailStop
import HermitDb.Persist.ReplayLimits
import HermitDb.Util.Config

/-!
# What recovery can read back

A command may be larger than the parser that reads the log back allows: a
network parser can have a higher cap, and an inline command has no limit on its
arguments.  The log stays readable exactly as long as no such command leaves a
record.
-/

namespace HermitDb.Core

open Library Persist Protocol Util

/-! ## The condition -/

/-- The text can be an argument of a record. -/
def WithinCap (text : Bytes) : Prop :=
  text.length + 2 ≤ kReplayFrameCap

/-- What a touch of the key leaves of it. -/
def Memory.held (world : World) (memory : Memory) (key : Bytes) : Option Item :=
  if isDue (world.ms memory.clockReads) (memory.view key) then none
  else memory.view key

/-- The number a counter starts from.  A key that is not there counts as 0. -/
def counter : Option Item → Option Int
  | none => some 0
  | some ⟨.string text, _⟩ => (parseI64 text).map Int64.toInt
  | some ⟨.list _, _⟩ => none

/-- A `SET` is not held back by `NX` or `XX`, a counter holds a number and stays
in range, and a push finds a list or nothing. -/
def KeyOp.Granted (op : KeyOp) (item : Option Item) : Prop :=
  match op with
  | .set _ choice =>
      ((choice.nx && item.isSome) || (choice.xx && !item.isSome)) = false
  | .incrBy delta => ∃ number, counter item = some number ∧
      -2 ^ 63 ≤ number + delta ∧ number + delta < 2 ^ 63
  | .push _ _ => ∀ text deadline, item ≠ some ⟨.string text, deadline⟩
  | _ => True

/-- A command that changes something is within the limits of the log.  Only key
and value of a `SET` are logged; counters, pushes and deletions are logged as
they were sent. -/
structure Loggable (world : World) (memory : Memory) (cmd : Command) : Prop where
  set : ∀ key value choice,
    Action.ofCommand wrap64 cmd = .onKey key (.set value choice) →
    (KeyOp.set value choice).Granted (memory.held world key) →
    WithinCap key ∧ WithinCap value
  count : ∀ key op, Action.ofCommand wrap64 cmd = .onKey key op →
    op.counts = true → op.Granted (memory.held world key) →
    Admissible kReplayFrameCap cmd
  del : ∀ targets, Action.ofCommand wrap64 cmd = .del targets →
    deletes world memory.clockReads memory.view targets = true →
    Admissible kReplayFrameCap cmd

def Event.Loggable (world : World) (memory : Memory) : Event → Prop
  | .command _ cmd => Core.Loggable world memory cmd
  | _ => True

/-- Every stored key can be an argument of a record. -/
def KeysFit (keyspace : Keyspace) : Prop :=
  ∀ key, keyspace key ≠ none → WithinCap key

theorem KeysFit.without {keyspace : Keyspace} (keysFit : KeysFit keyspace)
    (removed : List Bytes) : KeysFit (keyspace.without removed) := by
  intro key present
  apply keysFit
  intro absent
  apply present
  by_cases gone : key ∈ removed
  · exact TimedMap.without_of_mem gone
  · rw [TimedMap.without_of_not_mem gone, absent]

/-! ## Records within the limits -/

theorem withinCap_of_short {text : Bytes} (short : text.length ≤ 20) :
    WithinCap text := by
  have low := kReplayFrameCap_low
  unfold WithinCap
  omega

theorem listed_length {name : Bytes} {verb : Verb}
    (listed : table.lookup (upper name) = some verb) : name.length ≤ 20 := by
  have short : ∀ entry ∈ table, entry.1.length ≤ 20 := by decide
  obtain ⟨before, after, shape, _⟩ := List.lookup_eq_some_iff.mp listed
  have bound := short (upper name, verb) (by rw [shape]; simp)
  simpa [upper] using bound

theorem admissible_of_withinCap {record : Command} (nonempty : record ≠ [])
    (few : record.length ≤ 3) (fits : ∀ arg ∈ record, WithinCap arg) :
    Admissible kReplayFrameCap record :=
  ⟨nonempty, few.trans (by decide), fits⟩

theorem delRecord_admissible {key : Bytes} (fits : WithinCap key) :
    Admissible kReplayFrameCap (delRecord key) := by
  apply admissible_of_withinCap (by simp [delRecord]) (by simp [delRecord])
  simp only [delRecord, List.forall_mem_cons]
  exact ⟨withinCap_of_short (by decide), fits, nofun⟩

theorem persistRecord_admissible {key : Bytes} (fits : WithinCap key) :
    Admissible kReplayFrameCap (persistRecord key) := by
  apply admissible_of_withinCap (by simp [persistRecord])
    (by simp [persistRecord])
  simp only [persistRecord, List.forall_mem_cons]
  exact ⟨withinCap_of_short (by decide), fits, nofun⟩

theorem pexpireatRecord_admissible {key : Bytes} (fits : WithinCap key)
    (atMs : Int64) : Admissible kReplayFrameCap (pexpireatRecord key atMs) := by
  apply admissible_of_withinCap (by simp [pexpireatRecord])
    (by simp [pexpireatRecord])
  simp only [pexpireatRecord, List.forall_mem_cons]
  exact ⟨withinCap_of_short (by decide), fits,
    withinCap_of_short (i64ToString_length atMs), List.forall_mem_nil _⟩

theorem setRecord_admissible_iff {key value : Bytes} :
    Admissible kReplayFrameCap (setRecord key value) ↔
      WithinCap key ∧ WithinCap value := by
  constructor
  · intro admissible
    exact ⟨admissible.args key (by simp [setRecord]),
      admissible.args value (by simp [setRecord])⟩
  · rintro ⟨keyFits, valueFits⟩
    apply admissible_of_withinCap (by simp [setRecord]) (by simp [setRecord])
    simp only [setRecord, List.forall_mem_cons]
    exact ⟨withinCap_of_short (by decide), keyFits, valueFits, nofun⟩

/-! ## What a command logs -/

section Command

variable {world : World} {before after : Memory} {cmd : Command} {reply : Reply}
  {evicted : List Bytes} {now : Int} {key : Bytes} {op : KeyOp}
  {item : Option Item}

theorem Outcome.held_eq
    (outcome : Outcome world before (.onKey key op) reply after evicted) :
    before.view.without evicted key = before.held world key := by
  rw [outcome.evicted_onKey key op rfl, Memory.held]
  split
  · exact TimedMap.without_of_mem (List.mem_singleton_self key)
  · rw [TimedMap.without_nil]

theorem increment_reply (held : Option Item) (deadline : Option Int) (sum : Int) :
    (-2 ^ 63 ≤ sum ∧ sum < 2 ^ 63 ∧
        (increment held deadline sum).1 = .integer sum) ∨
      (¬ (-2 ^ 63 ≤ sum ∧ sum < 2 ^ 63) ∧
        ∃ message, (increment held deadline sum).1 = .error message) := by
  unfold increment
  split
  · refine .inr ⟨by omega, _, rfl⟩
  · refine .inl ⟨by omega, by omega, rfl⟩

/-- Counters and pushes answer with a number if they are granted and with an
error otherwise. -/
theorem counts_reply (counts : op.counts = true) (now : Int)
    (item : Option Item) :
    (op.Granted item ∧ ∃ number, (op.run wrap64 now item).1 = .integer number) ∨
      (¬ op.Granted item ∧
        ∃ message, (op.run wrap64 now item).1 = .error message) := by
  cases op with
  | incrBy delta =>
      -- With a number to start from, the range decides.
      have decided : ∀ number held deadline, counter item = some number →
          (KeyOp.incrBy delta).run wrap64 now item =
            increment held deadline (number + delta) →
          ((KeyOp.incrBy delta).Granted item ∧ ∃ number,
              ((KeyOp.incrBy delta).run wrap64 now item).1 = .integer number) ∨
            (¬ (KeyOp.incrBy delta).Granted item ∧ ∃ message,
              ((KeyOp.incrBy delta).run wrap64 now item).1 = .error message) := by
        intro number held deadline starts ran
        rw [ran]
        obtain ⟨low, high, isInteger⟩ | ⟨outside, isError⟩ :=
          increment_reply held deadline (number + delta)
        · exact .inl ⟨⟨number, starts, low, high⟩, _, isInteger⟩
        · refine .inr ⟨?_, isError⟩
          rintro ⟨other, otherStarts, inside⟩
          rw [starts] at otherStarts
          cases otherStarts
          exact outside inside
      have refused : counter item = none →
          ¬ (KeyOp.incrBy delta).Granted item := by
        rintro noNumber ⟨number, starts, _⟩
        rw [noNumber] at starts
        cases starts
      cases item with
      | none => exact decided 0 none none rfl (by simp [KeyOp.run])
      | some held =>
          rcases held with ⟨text | items, deadline⟩
          · cases parsed : parseI64 text with
            | none =>
                refine .inr ⟨refused (by simp [counter, parsed]), ?_⟩
                simp only [KeyOp.run, parsed]
                exact ⟨_, rfl⟩
            | some cur =>
                apply decided cur.toInt (some ⟨.string text, deadline⟩) deadline
                · simp [counter, parsed]
                · simp only [KeyOp.run, parsed]
          · exact .inr ⟨refused rfl, _, rfl⟩
  | push left values =>
      cases item with
      | none => exact .inl ⟨by rintro _ _ ⟨⟩, _, rfl⟩
      | some held =>
          rcases held with ⟨text | items, deadline⟩
          · exact .inr ⟨fun free => free text deadline rfl, _, rfl⟩
          · exact .inl ⟨by rintro _ _ ⟨⟩, _, rfl⟩
  | get | set | type | expire | pexpireat | ttl | persist | pop | llen | lrange =>
      cases counts

theorem commandRecords_error (expiry : ExpiryManager) (cmd : Command)
    (message : Bytes) :
    commandRecords expiry cmd (Reply.error message).encode = [] := by
  unfold commandRecords
  split
  · rfl
  · split
    · rfl
    · exact mutationRecords_error expiry _ _ message

/-- The records of a `SET`: none if it was held back, key and value and
possibly a deadline otherwise. -/
theorem commandRecords_set {value : Bytes} {choice : SetChoice}
    (reads : Action.ofCommand wrap64 cmd = .onKey key (.set value choice))
    (expiry : ExpiryManager) :
    commandRecords expiry cmd Reply.nullBulk.encode = [] ∧
      commandRecords expiry cmd Reply.ok.encode = setRecord key value ::
        match expiry.expiryAt key with
        | some atMs => [pexpireatRecord key atMs]
        | none => [] := by
  obtain ⟨name, args, verb, rfl, listed, reads⟩ := ofCommand_listed reads nofun
  have spelled := Verb.action_spelled verb (name :: args)
  rw [reads] at spelled
  obtain ⟨rfl, _, _, ⟨⟩⟩ := spelled
  simp only [commandRecords, listed]
  exact ⟨rfl, rfl⟩

theorem commandRecords_del {targets : List Bytes}
    (reads : Action.ofCommand wrap64 cmd = .del targets)
    (expiry : ExpiryManager) (count : Nat) :
    commandRecords expiry cmd (Reply.integer count).encode =
      if count = 0 then [] else [cmd] := by
  obtain ⟨name, args, verb, rfl, listed, reads⟩ := ofCommand_listed reads nofun
  have spelled := Verb.action_spelled verb (name :: args)
  rw [reads] at spelled
  cases spelled
  simp only [commandRecords, listed]
  exact mutationRecords_del expiry _ count

/-- The records of all other changes name a stored key and nothing else that
could be long. -/
theorem Logs.admissible {keyspace changed : Keyspace} {action : Action}
    {own : List Command} (logs : Logs now keyspace action changed own)
    (keysFit : KeysFit keyspace)
    (notSet : ∀ key value choice, action ≠ .onKey key (.set value choice))
    (notCount : ∀ key op, action = .onKey key op → op.counts = false)
    (notDel : ∀ targets, action ≠ .del targets) :
    ∀ record ∈ own, Admissible kReplayFrameCap record := by
  cases logs with
  | nothing => nofun
  | set key value asked =>
      obtain ⟨choice, isSet⟩ := asked
      exact absurd isSet (notSet _ _ _)
  | setExpiring key value atMs asked =>
      obtain ⟨choice, isSet, _⟩ := asked
      exact absurd isSet (notSet _ _ _)
  | arm key item atMs present _ =>
      rw [List.forall_mem_singleton]
      apply pexpireatRecord_admissible
      exact keysFit key (by simp [present])
  | remove key present =>
      rw [List.forall_mem_singleton]
      exact delRecord_admissible (keysFit key present)
  | disarm key value deadline present _ =>
      rw [List.forall_mem_singleton]
      apply persistRecord_admissible
      exact keysFit key (by simp [present])
  | verbatim cmd kind reads _ found =>
      rw [List.forall_mem_singleton]
      obtain ⟨name, args, verb, rfl, listed, reads⟩ :=
        ofCommand_listed reads kind.asks
      have spelled := Verb.action_spelled verb (name :: args)
      rw [reads] at spelled
      have nameFits := withinCap_of_short (listed_length listed)
      cases kind with
      | incrBy key delta => cases notCount _ _ rfl
      | push key left values => cases notCount _ _ rfl
      | del targets => exact absurd rfl (notDel targets)
      | flushall =>
          obtain ⟨_, ⟨⟩⟩ := spelled
          apply admissible_of_withinCap (by simp) (by simp)
          rw [List.forall_mem_singleton]
          exact nameFits
      | pop key left =>
          obtain ⟨_, ⟨⟩⟩ := spelled
          have keyFits : WithinCap key := by
            apply keysFit
            intro absent
            apply found key (.pop left) rfl
            rw [absent]
            rfl
          apply admissible_of_withinCap (by simp) (by simp)
          simp only [List.forall_mem_cons]
          exact ⟨nameFits, keyFits, nofun⟩

theorem Outcome.set_records {value : Bytes} {choice : SetChoice}
    (reads : Action.ofCommand wrap64 cmd = .onKey key (.set value choice))
    (outcome : Outcome world before (.onKey key (.set value choice)) reply after
      evicted) :
    ((KeyOp.set value choice).Granted (before.held world key) ∧
        commandRecords after.expiry cmd reply.encode = setRecord key value ::
          match after.expiry.expiryAt key with
          | some atMs => [pexpireatRecord key atMs]
          | none => []) ∨
      (¬ (KeyOp.set value choice).Granted (before.held world key) ∧
        commandRecords after.expiry cmd reply.encode = []) := by
  obtain ⟨heldBack, taken⟩ := commandRecords_set reads after.expiry
  have answers := outcome.answers _ (fun _ => rfl) nofun
  simp only [Action.Answers, outcome.held_eq, KeyOp.run] at answers
  by_cases granted : (KeyOp.set value choice).Granted (before.held world key)
  · rw [if_neg (Bool.not_eq_true _ ▸ granted)] at answers
    rw [answers]
    exact .inl ⟨granted, taken⟩
  · rw [if_pos (Bool.not_eq_false _ ▸ granted)] at answers
    rw [answers]
    exact .inr ⟨granted, heldBack⟩

theorem loggable_set_iff {value : Bytes} {choice : SetChoice}
    (reads : Action.ofCommand wrap64 cmd = .onKey key (.set value choice))
    (outcome : Outcome world before (.onKey key (.set value choice)) reply after
      evicted) :
    Loggable world before cmd ↔
      ∀ record ∈ commandRecords after.expiry cmd reply.encode,
        Admissible kReplayFrameCap record := by
  have onlySet : ((KeyOp.set value choice).Granted (before.held world key) →
      WithinCap key ∧ WithinCap value) → Loggable world before cmd := by
    intro fits
    refine ⟨?_, ?_, ?_⟩
    · rw [reads]
      rintro _ _ _ ⟨⟩ granted
      exact fits granted
    · rw [reads]
      rintro _ _ ⟨⟩ counts
      cases counts
    · rw [reads]
      nofun
  obtain ⟨granted, records⟩ | ⟨refused, records⟩ := outcome.set_records reads
  · rw [records, List.forall_mem_cons, setRecord_admissible_iff]
    constructor
    · intro loggable
      have fits := loggable.set key value choice reads granted
      refine ⟨fits, ?_⟩
      split
      · rw [List.forall_mem_singleton]
        exact pexpireatRecord_admissible fits.1 _
      · nofun
    · intro admissible
      exact onlySet fun _ => admissible.1
  · rw [records]
    exact ⟨fun _ => nofun, fun _ => onlySet fun granted => absurd granted refused⟩

theorem loggable_counts_iff
    (reads : Action.ofCommand wrap64 cmd = .onKey key op)
    (counts : op.counts = true)
    (outcome : Outcome world before (.onKey key op) reply after evicted) :
    Loggable world before cmd ↔
      ∀ record ∈ commandRecords after.expiry cmd reply.encode,
        Admissible kReplayFrameCap record := by
  have answers := outcome.answers _ (fun _ => rfl) (by rintro _ ⟨⟩)
  simp only [Action.Answers, outcome.held_eq] at answers
  have onlyCount : (op.Granted (before.held world key) →
      Admissible kReplayFrameCap cmd) → Loggable world before cmd := by
    intro fits
    refine ⟨?_, ?_, ?_⟩
    · rw [reads]
      rintro _ _ _ ⟨⟩
      cases counts
    · rw [reads]
      rintro _ _ ⟨⟩ _ granted
      exact fits granted
    · rw [reads]
      rintro _ ⟨⟩
  obtain ⟨granted, number, isInteger⟩ | ⟨refused, message, isError⟩ :=
    counts_reply counts (world.ms (after.clockReads - 1))
      (before.held world key)
  · rw [isInteger] at answers
    rw [answers, commandRecords_counts reads counts, List.forall_mem_singleton]
    constructor
    · intro loggable
      exact loggable.count key op reads counts granted
    · intro admissible
      exact onlyCount fun _ => admissible
  · rw [isError] at answers
    rw [answers, commandRecords_error]
    refine ⟨fun _ => List.forall_mem_nil _, fun _ => onlyCount ?_⟩
    exact fun granted => absurd granted refused

/-- A `DEL` is logged exactly if it comes to a key that is still there. -/
theorem Outcome.del_records {targets : List Bytes}
    (reads : Action.ofCommand wrap64 cmd = .del targets)
    (outcome : Outcome world before (.del targets) reply after evicted) :
    commandRecords after.expiry cmd reply.encode =
      if deletes world before.clockReads before.view targets then [cmd]
      else [] := by
  have answers := outcome.answers _ (fun _ => rfl) nofun
  simp only [Action.Answers] at answers
  rw [answers, commandRecords_del reads, ← outcome.found_del targets rfl]
  by_cases missed : targets.dedup.countP
      (fun key => (before.view.without evicted key).isSome) = 0
  · have nothing : ¬ (targets.any fun key =>
        (before.view.without evicted key).isSome) = true := by
      rw [List.any_eq_true]
      rintro ⟨key, target, present⟩
      exact List.countP_eq_zero.mp missed key (List.mem_dedup.mpr target) present
    rw [if_pos missed, if_neg nothing]
  · have something : (targets.any fun key =>
        (before.view.without evicted key).isSome) = true := by
      obtain ⟨key, target, present⟩ :=
        List.countP_pos_iff.mp (Nat.pos_of_ne_zero missed)
      rw [List.any_eq_true]
      exact ⟨key, List.mem_dedup.mp target, present⟩
    rw [if_neg missed, if_pos something]

theorem loggable_del_iff {targets : List Bytes}
    (reads : Action.ofCommand wrap64 cmd = .del targets)
    (outcome : Outcome world before (.del targets) reply after evicted) :
    Loggable world before cmd ↔
      ∀ record ∈ commandRecords after.expiry cmd reply.encode,
        Admissible kReplayFrameCap record := by
  have onlyDel : (deletes world before.clockReads before.view targets = true →
      Admissible kReplayFrameCap cmd) → Loggable world before cmd := by
    intro fits
    refine ⟨?_, ?_, ?_⟩
    · rw [reads]
      nofun
    · rw [reads]
      nofun
    · rw [reads]
      rintro _ ⟨⟩ deleted
      exact fits deleted
  rw [outcome.del_records reads]
  split
  · rename_i deleted
    rw [List.forall_mem_singleton]
    constructor
    · intro loggable
      exact loggable.del targets reads deleted
    · intro admissible
      exact onlyDel fun _ => admissible
  · rename_i missed
    exact ⟨fun _ => nofun, fun _ => onlyDel fun deleted => absurd deleted missed⟩

/-- Given that the stored keys fit, a command is loggable exactly if all its
records are within the limits. -/
theorem Outcome.loggable_iff
    (outcome : Outcome world before (Action.ofCommand wrap64 cmd) reply after
      evicted) (keysFit : KeysFit before.view) :
    Loggable world before cmd ↔
      ∀ record ∈ commandRecords after.expiry cmd reply.encode,
        Admissible kReplayFrameCap record := by
  -- What is neither `SET` nor counted nor `DEL` has nothing to fulfil.
  have unlimited : (∀ key value choice,
        Action.ofCommand wrap64 cmd ≠ .onKey key (.set value choice)) →
      (∀ key op, Action.ofCommand wrap64 cmd = .onKey key op →
        op.counts = false) →
      (∀ targets, Action.ofCommand wrap64 cmd ≠ .del targets) →
      (Loggable world before cmd ↔
        ∀ record ∈ commandRecords after.expiry cmd reply.encode,
          Admissible kReplayFrameCap record) := by
    intro notSet notCount notDel
    have admissible := outcome.logs.admissible (keysFit.without evicted) notSet
      notCount notDel
    refine ⟨fun _ => admissible, fun _ => ⟨?_, ?_, ?_⟩⟩
    · intro key value choice isSet
      exact absurd isSet (notSet _ _ _)
    · intro key op reads counts
      rw [notCount key op reads] at counts
      cases counts
    · intro targets isDel
      exact absurd isDel (notDel targets)
  cases reads : Action.ofCommand wrap64 cmd with
  | onKey key op =>
      cases counts : op.counts with
      | true =>
          rw [reads] at outcome
          exact loggable_counts_iff reads counts outcome
      | false =>
          cases op with
          | set value choice =>
              rw [reads] at outcome
              exact loggable_set_iff reads outcome
          | get | incrBy | type | expire | pexpireat | ttl | persist | push | pop
          | llen | lrange =>
              apply unlimited
              · rw [reads]
                nofun
              · rw [reads]
                rintro _ _ ⟨⟩
                exact counts
              · rw [reads]
                nofun
  | del targets =>
      rw [reads] at outcome
      exact loggable_del_iff reads outcome
  | answer | «exists» | keys | dbsize | flushall =>
      apply unlimited
      all_goals
        rw [reads]
        nofun

/-- Only a `SET`, a counter or a push creates a key. -/
theorem KeyOp.granted_of_created
    (created : (op.run wrap64 now none).2 ≠ none) :
    op.Granted none ∧
      ((∃ value choice, op = .set value choice) ∨ op.counts = true) := by
  cases op with
  | set value choice =>
      refine ⟨?_, .inl ⟨value, choice, rfl⟩⟩
      by_contra refused
      simp only [KeyOp.Granted, Bool.not_eq_false] at refused
      rw [KeyOp.run, if_pos refused] at created
      exact created rfl
  | incrBy delta =>
      obtain ⟨granted, _⟩ | ⟨_, message, isError⟩ :=
        counts_reply (show (KeyOp.incrBy delta).counts = true from rfl) now none
      · exact ⟨granted, .inr rfl⟩
      · obtain ⟨_, ran⟩ | ⟨_, _, ran⟩ := incrBy_effect delta now none
        · rw [ran] at created
          exact absurd rfl created
        · rw [ran] at isError
          cases isError
  | push left values => exact ⟨by rintro _ _ ⟨⟩, .inr rfl⟩
  | get | type | expire | pexpireat | ttl | persist | pop | llen | lrange =>
      exact absurd rfl created

theorem Outcome.keysFit
    (outcome : Outcome world before (Action.ofCommand wrap64 cmd) reply after
      evicted) (keysFit : KeysFit before.view)
    (loggable : Loggable world before cmd) : KeysFit after.view := by
  have keptFit := keysFit.without evicted
  have view := outcome.view_eq _ fun _ => rfl
  cases reads : Action.ofCommand wrap64 cmd with
  | onKey key op =>
      rw [reads] at outcome view
      have keyFits : after.view key ≠ none → WithinCap key := by
        intro present
        by_cases absent : before.view.without evicted key = none
        · -- The command has created the key, so it was logged.
          rw [view, Action.after, Function.update_self, absent] at present
          obtain ⟨granted, created⟩ := KeyOp.granted_of_created present
          rw [← absent, outcome.held_eq] at granted
          rcases created with ⟨value, choice, rfl⟩ | counts
          · exact (loggable.set key value choice reads granted).1
          · have admissible := loggable.count key op reads counts granted
            obtain ⟨name, args, verb, rfl, _, action⟩ :=
              ofCommand_listed reads (by rintro _ ⟨⟩)
            have spelled := Verb.action_spelled verb (name :: args)
            rw [action] at spelled
            cases op with
            | incrBy | push =>
                obtain ⟨_, _, ⟨⟩⟩ := spelled
                exact admissible.args key (by simp)
            | get | set | type | expire | pexpireat | ttl | persist | pop | llen
            | lrange => cases counts
        · exact keptFit key absent
      intro other present
      by_cases same : other = key
      · rw [same] at present ⊢
        exact keyFits present
      · apply keptFit
        rwa [view, Action.after, Function.update_of_ne same] at present
  | del targets =>
      rw [view, reads]
      exact keptFit.without targets
  | flushall =>
      rw [view, reads]
      intro key present
      exact absurd rfl present
  | answer | «exists» | keys | dbsize =>
      rw [view, reads]
      exact keptFit

theorem Logs.nonempty {keyspace changed : Keyspace} {action : Action}
    {own : List Command} (logs : Logs now keyspace action changed own) :
    ∀ record ∈ own, record ≠ [] := by
  cases logs with
  | nothing => exact List.forall_mem_nil _
  | set | setExpiring | arm | remove | disarm =>
      simp [setRecord, pexpireatRecord, delRecord, persistRecord]
  | verbatim cmd kind reads =>
      rw [List.forall_mem_singleton]
      obtain ⟨name, args, _, rfl, _⟩ :=
        ofCommand_listed reads kind.asks
      exact List.cons_ne_nil name args

end Command

/-! ## Whole runs -/

section Run

variable {world : World} {before after : Memory} {event : Event}
  {reply : Option Reply} {evicted : List Bytes} {own : List Command}

theorem Happens.loggable_iff
    (happens : Happens world before event reply after evicted own)
    (keysFit : KeysFit before.view) :
    event.Loggable world before ↔
      ∀ record ∈ own, Admissible kReplayFrameCap record := by
  cases happens with
  | command outcome => exact outcome.loggable_iff keysFit
  | activeCycle | tickFsync => exact ⟨fun _ => nofun, fun _ => trivial⟩

theorem Happens.keysFit
    (happens : Happens world before event reply after evicted own)
    (keysFit : KeysFit before.view) (loggable : event.Loggable world before) :
    KeysFit after.view := by
  cases happens with
  | command outcome => exact outcome.keysFit keysFit loggable
  | activeCycle advance | tickFsync advance =>
      rw [advance.view_of_silent]
      exact keysFit.without _

/-- An evicted key was stored, so its record fits. -/
theorem Advance.evicted_admissible
    (advance : Advance world before after evicted own)
    (keysFit : KeysFit before.view) :
    ∀ record ∈ evicted.map delRecord, Admissible kReplayFrameCap record := by
  rw [List.forall_mem_map]
  intro key gone
  obtain ⟨item, _, present, _⟩ := advance.due key gone
  apply delRecord_admissible
  exact keysFit key (by simp [present])

/-- All records are within the limits, the last one may be torn, and as long as
nothing has failed the stored keys fit. -/
def Server.Legible (policy : FsyncPolicy) (server : Server) : Prop :=
  server.memory.Wf ∧ ∃ records,
    (∀ record ∈ records, Admissible kReplayFrameCap record) ∧
    ((server.dispatcher.Intact policy records ∧ KeysFit server.memory.view) ∨
      server.dispatcher.Broken records)

/-- Recovery can read the log: every record in it is accepted on its own, and
replay of the file succeeds however it is read. -/
def Server.ReadsBack (server : Server) : Prop :=
  ∃ wal, server.dispatcher.wal = some wal ∧
    (∀ record ∈ wal.records, Accepted record) ∧
    ∀ reads chunks, Delivers reads chunks → chunks.flatten = wal.file →
      (replay (.present wal.file) reads true).status = .ok

/-- Unless the latch is set, the event leaves no record outside the limits. -/
def Server.LogsWithin (world : World) (server : Server) (event : Event) : Prop :=
  server.dispatcher.persistenceFailed = false →
    event.Loggable world server.memory

variable {policy : FsyncPolicy} {server : Server}

theorem Server.Legible.readsBack (legible : server.Legible policy) :
    server.ReadsBack := by
  obtain ⟨_, records, admissible, logged⟩ := legible
  obtain ⟨wal, attached, recordsCut, fileCut⟩ : ∃ wal,
      server.dispatcher.wal = some wal ∧ wal.records <+: records ∧
        wal.file <+: encodeAll records := by
    rcases logged with ⟨intact, _⟩ | broken
    · obtain ⟨wal, attached, _, _, _, sameRecords, sameFile, _⟩ :=
        intact.attached
      exact ⟨wal, attached, by rw [sameRecords], by rw [sameFile]⟩
    · obtain ⟨wal, attached, _, recordsCut, fileCut⟩ := broken.attached
      exact ⟨wal, attached, recordsCut, fileCut⟩
  refine ⟨wal, attached, ?_, ?_⟩
  · intro record member
    have fits := admissible record (recordsCut.subset member)
    exact (accepted_iff fits.nonempty).mpr fits
  · intro reads chunks delivers whole
    rw [replay_cut admissible fileCut delivers whole]

theorem Server.Legible.step (legible : server.Legible policy)
    (within : server.LogsWithin world event) :
    ∃ output next, server.step world event = .ok (output, next) ∧
      next.Legible policy := by
  obtain ⟨memory, dispatcher⟩ := server
  obtain ⟨wf, records, admissible, ⟨intact, keysFit⟩ | broken⟩ := legible
  · obtain ⟨reply, after, evicted, own, happens, result⟩ :=
      step_happens world wf event
    obtain ⟨wal, attached, _⟩ := intact.attached
    have stepped := result world.disk dispatcher wal intact.healthy attached
    have loggable := within intact.healthy
    have allAdmissible : ∀ record ∈ records ++ (evicted.map delRecord ++ own),
        Admissible kReplayFrameCap record := by
      rw [List.forall_mem_append, List.forall_mem_append]
      exact ⟨admissible, happens.advance.evicted_admissible keysFit,
        (happens.loggable_iff keysFit).mp loggable⟩
    refine ⟨_, _, stepped, happens.advance.wf, _, allAdmissible, ?_⟩
    obtain next | broken := intact.log (world.onDisk world.disk)
      memory.clockReads happens.silent
    · exact .inl ⟨next, happens.keysFit keysFit loggable⟩
    · exact .inr broken
  · obtain ⟨output, next, stepped, nextWf, same⟩ :=
      step_of_failed world wf broken.failed event
    refine ⟨output, next, stepped, nextWf, records, admissible, .inr ?_⟩
    rw [same]
    exact broken

/-- While the disk works, an event outside the condition leaves a record that
is not read back. -/
theorem Server.Legible.not_readsBack (flawless : world.disk.Flawless)
    (legible : server.Legible policy)
    (outside : ¬ server.LogsWithin world event) :
    ∃ output next, server.step world event = .ok (output, next) ∧
      ¬ next.ReadsBack := by
  obtain ⟨memory, dispatcher⟩ := server
  unfold Server.LogsWithin at outside
  push Not at outside
  obtain ⟨healthy, outside⟩ := outside
  obtain ⟨wf, records, _, ⟨intact, keysFit⟩ | broken⟩ := legible
  · obtain ⟨wal, attached, isOpen, _, _, sameRecords, sameFile, _⟩ :=
      intact.attached
    obtain ⟨reply, after, evicted, own, logged, happens, stepped, holds⟩ :=
      step_holds flawless wf event
        ⟨healthy, wal, attached, isOpen, sameRecords, sameFile⟩
    refine ⟨_, _, stepped, ?_⟩
    rintro ⟨nextWal, nextAttached, accepted, _⟩
    apply outside
    rw [happens.loggable_iff keysFit]
    intro record member
    obtain ⟨_, _, logs⟩ := happens.advance.logs
    rw [← accepted_iff (logs.nonempty record member)]
    obtain ⟨_, otherAttached, _, nextRecords, _⟩ := holds.attached
    rw [nextAttached] at otherAttached
    cases otherAttached
    apply accepted
    rw [nextRecords]
    simp [member]
  · rw [broken.failed] at healthy
    cases healthy

/-- The log can be read back throughout a run if every event is loggable,
whatever the file system does.  If the file system never fails, it can be read
back throughout only then. -/
theorem readsBack_iff_loggable (world : World) (policy : FsyncPolicy)
    (events : List Event) :
    let start := Server.fresh (some (Wal.fresh policy))
    let throughout := ∀ first, first <+: events → ∃ replies live,
      Server.run world start first = .ok (replies, live) ∧ live.ReadsBack
    (EachStep (Server.step world) (Server.LogsWithin world) start events →
      throughout) ∧
    (world.disk.Flawless → throughout →
      EachStep (Server.step world) (Server.LogsWithin world) start events) := by
  intro start throughout
  have initial : start.Legible policy := by
    refine ⟨Memory.fresh_wf, [], nofun,
      .inl ⟨CommandDispatcher.fresh_intact policy, ?_⟩⟩
    intro key present
    exact absurd rfl present
  constructor
  · intro each
    exact each.prefixes (fun _ legible => Server.Legible.readsBack legible)
      (fun _ _ legible within => legible.step within) initial
  · intro flawless holds
    exact eachStep_of_prefixes (fun _ _ legible within => legible.step within)
      (fun _ _ legible outside => legible.not_readsBack flawless outside)
      initial holds

/-- A short `SET` is loggable, so the log of this run can be read back. -/
theorem readsBack_iff_loggable_set :
    let events : List Event :=
      [.command .arbitrary [ascii "SET", ascii "k", ascii "v"]]
    ∀ first, first <+: events → ∃ replies live,
      Server.run (World.ideal fun _ => 0) (Server.fresh (some (Wal.fresh .no)))
        first = .ok (replies, live) ∧ live.ReadsBack := by
  intro events
  have reads : Action.ofCommand wrap64 [ascii "SET", ascii "k", ascii "v"] =
      .onKey (ascii "k") (.set (ascii "v") ⟨false, false, none⟩) := rfl
  apply (readsBack_iff_loggable (World.ideal fun _ => 0) .no events).1
  refine ⟨fun _ => ⟨?_, ?_, ?_⟩, fun _ _ _ => trivial⟩
  · rw [reads]
    rintro _ _ _ ⟨⟩ _
    exact ⟨withinCap_of_short (by decide), withinCap_of_short (by decide)⟩
  · rw [reads]
    rintro _ _ ⟨⟩ ⟨⟩
  · rw [reads]
    nofun

/-- One `SET` and a `DEL` of the key, repeated any number of times, leave the
two commands in the log. -/
private theorem records_of_repeated_del (rest : List Bytes) :
    let set : Command := [ascii "SET", ascii "a", ascii "1"]
    let del : Command := ascii "DEL" :: ascii "a" :: rest
    ∃ replies live,
      Server.run (World.ideal fun _ => 0)
        (Server.fresh (some (Wal.fresh .always)))
        [.command .arbitrary set, .command .arbitrary del] =
        .ok (replies, live) ∧ live.records = [set, del] := by
  intro set del
  have flawless := World.ideal_flawless fun _ => 0
  obtain ⟨_, middle, evicted, _, logged, ⟨setOutcome⟩, setStepped, setHolds⟩ :=
    step_holds flawless Memory.fresh_wf (.command .arbitrary set)
      (CommandDispatcher.fresh_holds .always)
  have setReads : Action.ofCommand wrap64 set =
      .onKey (ascii "a") (.set (ascii "1") ⟨false, false, none⟩) := rfl
  rw [setReads] at setOutcome
  have setEvicted : evicted = [] := setOutcome.evicted_onKey _ _ rfl
  subst setEvicted
  have setReply := setOutcome.answers _ (fun _ => rfl) nofun
  have view : middle.view = Function.update (fun _ => none) (ascii "a")
      (some ⟨.string (ascii "1"), none⟩) := by
    rw [setOutcome.view_eq _ fun _ => rfl, Action.after, TimedMap.without_nil]
    rfl
  have untracked : middle.expiry.expiryAt (ascii "a") = none := by
    have tracked := Memory.Wf.expiryAt_of_view
      (show middle.view (ascii "a") = some ⟨.string (ascii "1"), none⟩ by
        rw [view, Function.update_self])
    exact Option.map_eq_none_iff.mp tracked
  rw [show _ = Reply.ok from setReply, (commandRecords_set setReads _).2,
    untracked] at setHolds
  obtain ⟨_, after, gone, _, final, ⟨delOutcome⟩, delStepped, delHolds⟩ :=
    step_holds flawless setOutcome.wf (.command .arbitrary del) setHolds
  have delReads : Action.ofCommand wrap64 del = .del (ascii "a" :: rest) := rfl
  rw [delReads] at delOutcome
  have delEvicted : gone = [] := by
    apply List.eq_nil_iff_forall_not_mem.mpr
    intro key isGone
    obtain ⟨item, deadline, present, hasDeadline, _⟩ := delOutcome.due key isGone
    rw [view, Function.update_apply] at present
    split at present
    · cases present
      cases hasDeadline
    · cases present
  subst delEvicted
  have deleted : deletes (World.ideal fun _ => 0) middle.clockReads middle.view
      (ascii "a" :: rest) = true := by
    rw [deletes, view, Function.update_self]
    rfl
  rw [delOutcome.del_records delReads, deleted, if_pos rfl] at delHolds
  have setRan : Server.run (World.ideal fun _ => 0)
      (Server.fresh (some (Wal.fresh .always))) [.command .arbitrary set] = _ :=
    runAll_cons setStepped []
  exact ⟨_, _, runAll_concat setRan delStepped, delHolds.records_eq⟩

/-- Within the default cap, a client may send a `DEL` with more arguments than
replay accepts.  Once it has deleted a key, the log is refused at the next
start. -/
theorem repeated_del_not_read_back :
    let set : Command := [ascii "SET", ascii "a", ascii "1"]
    let keys := List.replicate (2 ^ 20) (ascii "a")
    let del : Command := ascii "DEL" :: keys
    ∃ config replies live,
      parseArgs [ascii "--wal", ascii "--fsync=always"] Config.initial =
        .ok config ∧
      ((RespParser.fresh config.maxFrameBytes).feed
        (ascii "SET a 1\r\n")).1 = ⟨.ok, [set], []⟩ ∧
      ((RespParser.fresh config.maxFrameBytes).feed
        (RespParser.inlineText (ascii "DEL") keys ++ crlf)).1 =
        ⟨.ok, [del], []⟩ ∧
      Server.run (World.ideal fun _ => 0)
        (Server.fresh (some (Wal.fresh .always)))
        [.command .arbitrary set, .command .arbitrary del] =
        .ok (replies, live) ∧
      live.records = [set, del] ∧ ¬ Accepted del ∧
      ∀ reads chunks, Delivers reads chunks →
        chunks.flatten = encodeAll live.records →
        (replay (.present (encodeAll live.records)) reads true).status =
          .corrupt := by
  intro set keys del
  have setFits : Admissible kReplayFrameCap set :=
    ⟨by decide, by decide, by decide⟩
  have delLarge : ¬ Admissible kReplayFrameCap del := by
    intro admissible
    have count := admissible.count
    rw [List.length_cons, List.length_replicate] at count
    omega
  have delNonempty : del ≠ [] := List.cons_ne_nil _ _
  have plain : ∀ any ∈ ascii "DEL" :: keys, RespParser.PlainWord any := by
    rw [List.forall_mem_cons]
    refine ⟨RespParser.plainWord_of_all (by decide) (by decide), ?_⟩
    intro key member
    rw [List.eq_of_mem_replicate member]
    exact RespParser.plainWord_of_all (by decide) (by decide)
  obtain ⟨replies, live, ran, records⟩ :=
    records_of_repeated_del (List.replicate (2 ^ 20 - 1) (ascii "a"))
  have unfolded : ascii "a" :: List.replicate (2 ^ 20 - 1) (ascii "a") = keys :=
    List.replicate_succ.symm
  rw [unfolded] at ran records
  refine ⟨{ Config.initial with walEnabled := true, fsync := some .always },
    replies, live, by decide, by decide,
    RespParser.feed_inlineText _ plain (by decide), ran, records, ?_, ?_⟩
  · rw [accepted_iff delNonempty]
    exact delLarge
  · intro reads chunks delivers whole
    have shape : encodeAll live.records = encodeAll [set] ++ (encode del ++ []) := by
      rw [records]
      exact encodeAll_append [set] [del]
    rw [shape] at whole ⊢
    apply replay_corrupt _ delNonempty delLarge delivers whole
    rw [List.forall_mem_singleton]
    exact setFits

end Run

end HermitDb.Core
