import HermitDb.Core.View

/-!
# Handlers of a single key

After its touch, each of these handlers does to the memory what its `KeyOp`
does to what the key holds.
-/

namespace HermitDb.Core

open Library Persist Protocol

variable {world : World} {memory : Memory} {key : Bytes} {op : KeyOp}

/-! ## Building effects -/

/-- A body that only looks. -/
theorem Effect.read (wf : memory.Wf) {reply : Reply}
    (silent : op.readings (memory.view key) = 0)
    (ran : ∀ now, op.run wrap64 now (memory.view key) =
      (reply, memory.view key)) :
    Effect world memory key op reply memory where
  wf := wf
  clock_eq := by rw [silent]; rfl
  run_eq now _ := ran now
  frame _ _ := rfl

/-- The same where it is known what the key holds. -/
theorem Effect.read_view (wf : memory.Wf) {item : Option (Timed Value)}
    {reply : Reply} (viewed : memory.view key = item)
    (silent : op.readings item = 0)
    (ran : ∀ now, op.run wrap64 now item = (reply, item)) :
    Effect world memory key op reply memory := by
  subst viewed
  exact Effect.read wf silent ran

/-- A body that changes the tables at the key only. -/
theorem Effect.write {before after : Memory} {reply : Reply} (wf : before.Wf)
    (clock_eq : after.clockReads =
      before.clockReads + op.readings (before.view key))
    (frameDb : ∀ other, other ≠ key →
      after.db.find other = before.db.find other)
    (frameExpiry : ∀ other, other ≠ key →
      after.expiry.expiryAt other = before.expiry.expiryAt other)
    (tracked : after.db.find key = none → after.expiry.expiryAt key = none)
    (nonempty : after.db.find key ≠ some (.list []))
    (ran : ∀ now, world.EndsAt before.clockReads after.clockReads now →
      op.run wrap64 now (before.view key) = (reply, after.view key)) :
    Effect world before key op reply after where
  wf := by
    constructor
    · intro other absent
      by_cases same : other = key
      · subst other
        exact tracked absent
      · rw [frameExpiry other same]
        rw [frameDb other same] at absent
        exact wf.tracked other absent
    · intro other
      by_cases same : other = key
      · subst other
        exact nonempty
      · rw [frameDb other same]
        exact wf.nonempty other
  clock_eq := clock_eq
  run_eq := ran
  frame other different := by
    simp [Memory.view, frameDb other different, frameExpiry other different]

/-- The keyspace alone changes, at the key, and the deadline stays. -/
theorem Effect.put (wf : memory.Wf) {reply : Reply} (value : Value)
    (nonempty : value ≠ .list [])
    (silent : op.readings (memory.view key) = 0)
    (ran : ∀ now, op.run wrap64 now (memory.view key) = (reply,
      some ⟨value, (memory.expiry.expiryAt key).map Int64.toInt⟩)) :
    Effect world memory key op reply
      { memory with db := memory.db.put key value } := by
  refine Effect.write wf (by rw [silent]; rfl) ?_ (fun _ _ => rfl) ?_ ?_ ?_
  · intro other different
    simp [Db.find_put, different]
  · simp [Db.find_put]
  · simpa [Db.find_put] using nonempty
  · intro now _
    have stored : (memory.db.put key value).find key = some value := by
      simp [Db.find_put]
    rw [ran now, Memory.view_some stored]

/-- The key goes, together with its deadline. -/
theorem Effect.remove (wf : memory.Wf) {reply : Reply} (reads : Nat)
    (clock : op.readings (memory.view key) = reads)
    (ran : ∀ now, world.EndsAt memory.clockReads (memory.clockReads + reads) now →
      op.run wrap64 now (memory.view key) = (reply, none)) :
    Effect world memory key op reply
      ⟨memory.db.erase key, memory.expiry.persist key,
        memory.clockReads + reads⟩ := by
  refine Effect.write wf (by rw [clock]) ?_ ?_ ?_ ?_ ?_
  · intro other different
    simp [Db.find_erase, different]
  · intro other different
    simp [ExpiryManager.expiryAt_persist, different]
  · simp [ExpiryManager.expiryAt_persist]
  · simp [Db.find_erase]
  · intro now ends
    rw [ran now ends, Memory.view_none (by simp [Db.find_erase])]

/-- A stored key is given a deadline, at the cost of one clock reading. -/
theorem Effect.arm (wf : memory.Wf) {reply : Reply} {value : Value}
    (stored : memory.db.find key = some value) (atMs : Int64)
    (clock : op.readings (memory.view key) = 1)
    (ran : op.run wrap64 (world.ms memory.clockReads) (memory.view key) =
      (reply, some ⟨value, some atMs.toInt⟩)) :
    Effect world memory key op reply
      ⟨memory.db, memory.expiry.setExpiry key atMs, memory.clockReads + 1⟩ := by
  refine Effect.write wf (by rw [clock]) (fun _ _ => rfl) ?_ ?_ ?_ ?_
  · intro other different
    simp [ExpiryManager.expiryAt_setExpiry, different]
  · simp [stored]
  · exact wf.nonempty key
  · intro now ends
    have reading : world.ms memory.clockReads = now := ends (Nat.lt_succ_self _)
    rw [← reading, ran]
    simp [Memory.view, stored, ExpiryManager.expiryAt_setExpiry]

theorem Memory.Wf.view_cases (wf : memory.Wf) (key : Bytes) :
    (memory.db.find key = none ∧ memory.expiry.expiryAt key = none ∧
        memory.view key = none) ∨
      ∃ value, memory.db.find key = some value ∧ memory.view key =
        some ⟨value, (memory.expiry.expiryAt key).map Int64.toInt⟩ := by
  cases stored : memory.db.find key with
  | none => exact .inl ⟨rfl, wf.tracked key stored, Memory.view_none stored⟩
  | some value => exact .inr ⟨value, rfl, Memory.view_some stored⟩

/-- A handler that only looks at the key. -/
theorem Refines.of_look (wf : memory.Wf) {handler : Disk → CommandDispatcher → Handled}
    (silent : ∀ item, op.readings item = 0)
    (looks : ∀ middle : Memory, middle.Wf → ∃ reply : Reply,
      (∀ now, op.run wrap64 now (middle.view key) =
        (reply, middle.view key)) ∧ ∀ disk dispatcher logged,
        Server.touch (world.onDisk disk) ⟨memory, dispatcher⟩ key =
          ⟨middle, logged⟩ →
        handler disk dispatcher = .ok (reply.encode, ⟨middle, logged⟩)) :
    Refines world memory (.onKey key op) handler := by
  refine Refines.of_touch wf ?_
  intro middle middleWf
  obtain ⟨reply, ran, result⟩ := looks middle middleWf
  exact ⟨reply, middle, Effect.read middleWf (silent _) ran, result⟩

/-- A handler that has a fixed answer for a key that is not stored. -/
theorem Refines.of_stored (wf : memory.Wf)
    {handler : Disk → CommandDispatcher → Handled} {missing : Reply}
    (silent : op.readings none = 0)
    (ran : ∀ now, op.run wrap64 now none = (missing, none))
    (absent : ∀ middle : Memory, middle.db.find key = none →
      ∀ disk dispatcher logged,
        Server.touch (world.onDisk disk) ⟨memory, dispatcher⟩ key =
          ⟨middle, logged⟩ →
        handler disk dispatcher = .ok (missing.encode, ⟨middle, logged⟩))
    (performs : ∀ (middle : Memory) value, middle.Wf →
      middle.db.find key = some value → middle.view key =
        some ⟨value, (middle.expiry.expiryAt key).map Int64.toInt⟩ →
      ∃ reply after, Effect world middle key op reply after ∧
        ∀ disk dispatcher logged,
          Server.touch (world.onDisk disk) ⟨memory, dispatcher⟩ key =
            ⟨middle, logged⟩ →
          handler disk dispatcher = .ok (reply.encode, ⟨after, logged⟩)) :
    Refines world memory (.onKey key op) handler := by
  refine Refines.of_touch wf ?_
  intro middle middleWf
  obtain ⟨stored, _, viewed⟩ | ⟨value, stored, viewed⟩ :=
    middleWf.view_cases key
  · exact ⟨missing, middle, Effect.read_view middleWf viewed silent ran,
      absent middle stored⟩
  · exact performs middle value middleWf stored viewed

section Unfolding

variable (dispatcher : CommandDispatcher)

@[simp] theorem withDb_mk (db : Db) :
    Server.withDb ⟨memory, dispatcher⟩ db =
      ⟨{ memory with db := db }, dispatcher⟩ := rfl

@[simp] theorem withExpiry_mk (expiry : ExpiryManager) :
    Server.withExpiry ⟨memory, dispatcher⟩ expiry =
      ⟨{ memory with expiry := expiry }, dispatcher⟩ := rfl

@[simp] theorem nowMs_mk :
    Server.nowMs world ⟨memory, dispatcher⟩ =
      (world.wallMs memory.clockReads,
        ⟨{ memory with clockReads := memory.clockReads + 1 }, dispatcher⟩) := rfl

@[simp] theorem encode_ok : Reply.ok.encode = Resp.simple (ascii "OK") := rfl

@[simp] theorem encode_wrongType : Reply.wrongType.encode = wrongtype := rfl

@[simp] theorem encode_notAnInteger :
    Reply.notAnInteger.encode = notAnInteger := rfl

@[simp] theorem encode_integer (number : Int) :
    (Reply.integer number).encode = Resp.integer number := rfl

@[simp] theorem encode_bulk (payload : Bytes) :
    (Reply.bulk payload).encode = Resp.bulk payload := rfl

@[simp] theorem encode_nullBulk : Reply.nullBulk.encode = Resp.nullBulk := rfl

@[simp] theorem encode_simple (text : Bytes) :
    (Reply.simple text).encode = Resp.simple text := rfl

@[simp] theorem encode_bulks (items : List Bytes) :
    (Reply.bulks items).encode = Resp.array (items.map Resp.bulk) := rfl

end Unfolding

/-! ## Strings -/

theorem cmdGet_refines (wf : memory.Wf) (cmd : Command) :
    Refines world memory (keyAction "get" cmd .get)
      fun disk dispatcher => cmdGet (world.onDisk disk) ⟨memory, dispatcher⟩ cmd :=
  match cmd with
  | [] => Refines.answer wf _
  | [_] => Refines.answer wf _
  | _ :: _ :: _ :: _ => Refines.answer wf _
  | [_, key] => by
      refine Refines.of_look wf (fun _ => rfl) ?_
      intro middle middleWf
      obtain ⟨stored, _, viewed⟩ | ⟨value, stored, viewed⟩ :=
        middleWf.view_cases key
      · refine ⟨.nullBulk, fun now => by rw [viewed]; rfl, ?_⟩
        intro disk dispatcher logged touched
        simp [cmdGet, touched, Db.type, Db.get, stored]
      · cases value with
        | string text =>
            refine ⟨.bulk text, fun now => by rw [viewed]; rfl, ?_⟩
            intro disk dispatcher logged touched
            simp [cmdGet, touched, Db.type, Db.get, stored]
        | list items =>
            refine ⟨.wrongType, fun now => by rw [viewed]; rfl, ?_⟩
            intro disk dispatcher logged touched
            simp [cmdGet, touched, Db.type, stored]

/-- The abstract reading of the options the handler collected. -/
def SetOptions.choice (options : SetOptions) : SetChoice :=
  ⟨options.nx, options.xx, options.expireMs.map Int64.toInt⟩

/-- The two readings of the options agree. -/
def OptionsAgree :
    Except Bytes SetOptions → Except Reply SetChoice → Prop
  | .ok options, .ok choice => choice = options.choice
  | .error bytes, .error reply => bytes = reply.encode
  | _, _ => False

theorem setOptions_agree (args : List Bytes) (options : SetOptions) :
    OptionsAgree (setOptions args options)
      (readSetChoice wrap64 args options.choice) := by
  fun_induction setOptions args options with
  | case1 options => rfl
  | case2 arg rest options opt isNx induction =>
      have step : readSetChoice wrap64 (arg :: rest) options.choice =
          readSetChoice wrap64 rest
            (SetOptions.choice { options with nx := true }) := by
        rw [readSetChoice.eq_def]
        exact if_pos isNx
      rw [step]
      exact induction
  | case3 arg rest options opt notNx isXx induction =>
      have step : readSetChoice wrap64 (arg :: rest) options.choice =
          readSetChoice wrap64 rest
            (SetOptions.choice { options with xx := true }) := by
        rw [readSetChoice.eq_def]
        exact (if_neg notNx).trans (if_pos isXx)
      rw [step]
      exact induction
  | case4 arg options opt notNx notXx isExpire =>
      have unset : options.choice.expireMs = none := by
        simp [SetOptions.choice, isExpire.2]
      have step : readSetChoice wrap64 [arg] options.choice =
          .error (.error syntaxErrorText) := by
        rw [readSetChoice.eq_def]
        exact (if_neg notNx).trans ((if_neg notXx).trans
          (if_pos ⟨isExpire.1, unset⟩))
      rw [step]
      rfl
  | case5 arg options opt notNx notXx isExpire number rest notNumber =>
      have unset : options.choice.expireMs = none := by
        simp [SetOptions.choice, isExpire.2]
      have step : readSetChoice wrap64 (arg :: number :: rest) options.choice =
          .error .notAnInteger := by
        rw [readSetChoice.eq_def]
        refine (if_neg notNx).trans ((if_neg notXx).trans
          ((if_pos ⟨isExpire.1, unset⟩).trans ?_))
        simp only [notNumber]
      rw [step]
      rfl
  | case6 arg options opt notNx notXx isExpire number rest n isNumber low =>
      have unset : options.choice.expireMs = none := by
        simp [SetOptions.choice, isExpire.2]
      have step : readSetChoice wrap64 (arg :: number :: rest) options.choice =
          .error (.error invalidExpireText) := by
        rw [readSetChoice.eq_def]
        refine (if_neg notNx).trans ((if_neg notXx).trans
          ((if_pos ⟨isExpire.1, unset⟩).trans ?_))
        simp only [isNumber]
        exact if_pos (Int64.le_iff_toInt_le.mp low)
      rw [step]
      rfl
  | case7 arg options opt notNx notXx isExpire number rest n isNumber high
      induction =>
      have unset : options.choice.expireMs = none := by
        simp [SetOptions.choice, isExpire.2]
      have step : readSetChoice wrap64 (arg :: number :: rest) options.choice =
          readSetChoice wrap64 rest (SetOptions.choice { options with
            expireMs := some (if opt = ascii "EX" then n * 1000 else n) }) := by
        rw [readSetChoice.eq_def]
        refine (if_neg notNx).trans ((if_neg notXx).trans
          ((if_pos ⟨isExpire.1, unset⟩).trans ?_))
        simp only [isNumber]
        refine (if_neg fun low => high (Int64.le_iff_toInt_le.mpr low)).trans ?_
        congr 1
        simp only [SetOptions.choice, Option.map_some]
        split
        · rw [Int64.toInt_mul]
          rfl
        · rfl
      rw [step]
      exact induction
  | case8 arg rest options opt notNx notXx notExpire =>
      have step : readSetChoice wrap64 (arg :: rest) options.choice =
          .error (.error syntaxErrorText) := by
        rw [readSetChoice.eq_def]
        refine (if_neg notNx).trans ((if_neg notXx).trans (if_neg ?_))
        simpa [SetOptions.choice] using notExpire
      rw [step]
      rfl

theorem set_refines (wf : memory.Wf) (key value : Bytes)
    (options : SetOptions) :
    Refines world memory (.onKey key (.set value options.choice))
      fun disk dispatcher =>
        let server := Server.touch (world.onDisk disk) ⟨memory, dispatcher⟩ key
        let present := server.memory.db.existsKey key
        if (options.nx && present) || (options.xx && !present) then
          .ok (Resp.nullBulk, server)
        else
          let server := server.withDb (server.memory.db.set key value)
          match options.expireMs with
          | some expireMs =>
              let (now, server) := server.nowMs world
              .ok (Resp.simple (ascii "OK"), server.withExpiry
                (server.memory.expiry.setExpiry key (now + expireMs)))
          | none =>
              .ok (Resp.simple (ascii "OK"), server.withExpiry
                (server.memory.expiry.persist key)) := by
  refine Refines.of_touch wf ?_
  intro middle middleWf
  have present : (middle.view key).isSome = middle.db.existsKey key :=
    middle.view_isSome key
  by_cases declined : ((options.nx && middle.db.existsKey key) ||
      (options.xx && !middle.db.existsKey key)) = true
  · refine ⟨.nullBulk, middle, Effect.read middleWf ?_ ?_, ?_⟩
    · simp only [KeyOp.readings, SetOptions.choice, present, declined, if_true]
    · intro now
      simp only [KeyOp.run, SetOptions.choice, present, declined, if_true]
    · intro disk dispatcher logged touched
      simp only [touched, declined, if_true]
      rfl
  · have accepted : ∀ now, (KeyOp.set value options.choice).run wrap64 now
        (middle.view key) = (.ok, some ⟨.string value,
          options.choice.expireMs.map fun ms => wrap64 (now + ms)⟩) := by
      intro now
      simp only [KeyOp.run, SetOptions.choice, present]
      rw [if_neg declined]
    have reads : (KeyOp.set value options.choice).readings (middle.view key) =
        if options.expireMs.isSome then 1 else 0 := by
      simp only [KeyOp.readings, SetOptions.choice, present, Option.isSome_map]
      rw [if_neg declined]
    have stored : (middle.db.set key value).find key = some (.string value) := by
      simp [Db.set, Db.find_put]
    have frameDb : ∀ other, other ≠ key →
        (middle.db.set key value).find other = middle.db.find other := by
      intro other different
      simp [Db.set, Db.find_put, different]
    cases expires : options.expireMs with
    | some expireMs =>
        let atMs := world.wallMs middle.clockReads + expireMs
        refine ⟨.ok, ⟨middle.db.set key value, middle.expiry.setExpiry key atMs,
          middle.clockReads + 1⟩, ?_, ?_⟩
        · refine Effect.write middleWf (by rw [reads, expires]; rfl) frameDb ?_
            (by simp [stored]) (by simp [stored]) ?_
          · intro other different
            simp [ExpiryManager.expiryAt_setExpiry, different]
          · intro now ends
            have reading : world.ms middle.clockReads = now :=
              ends (Nat.lt_succ_self _)
            rw [accepted, Memory.view_some stored, ← reading]
            simp [SetOptions.choice, expires, ExpiryManager.expiryAt_setExpiry,
              atMs, Int64.toInt_add, wrap64, World.ms]
        · intro disk dispatcher logged touched
          simp only [touched, declined]
          rfl
    | none =>
        refine ⟨.ok, ⟨middle.db.set key value, middle.expiry.persist key,
          middle.clockReads⟩, ?_, ?_⟩
        · refine Effect.write middleWf (by rw [reads, expires]; rfl) frameDb ?_
            (by simp [stored]) (by simp [stored]) ?_
          · intro other different
            simp [ExpiryManager.expiryAt_persist, different]
          · intro now _
            rw [accepted, Memory.view_some stored]
            simp [SetOptions.choice, expires, ExpiryManager.expiryAt_persist]
        · intro disk dispatcher logged touched
          simp only [touched, declined]
          rfl

theorem cmdSet_refines (wf : memory.Wf) (cmd : Command) :
    Refines world memory (Verb.set.action wrap64 cmd)
      fun disk dispatcher => cmdSet (world.onDisk disk) ⟨memory, dispatcher⟩ cmd :=
  match cmd with
  | [] => Refines.answer wf _
  | [_] => Refines.answer wf _
  | [_, _] => Refines.answer wf _
  | name :: key :: value :: args => by
      have agree := setOptions_agree args ⟨false, false, none⟩
      cases chosen : readSetChoice wrap64 args ⟨false, false, none⟩ with
      | error reply =>
          cases collected : setOptions args ⟨false, false, none⟩ with
          | ok options => simp_all [OptionsAgree, SetOptions.choice]
          | error bytes =>
              have same : bytes = reply.encode := by
                simpa [OptionsAgree, SetOptions.choice, collected, chosen]
                  using agree
              simp only [Verb.action, chosen, cmdSet, collected, same]
              exact Refines.answer wf reply
      | ok choice =>
          cases collected : setOptions args ⟨false, false, none⟩ with
          | error bytes => simp_all [OptionsAgree, SetOptions.choice]
          | ok options =>
              have same : choice = options.choice := by
                simpa [OptionsAgree, SetOptions.choice, collected, chosen]
                  using agree
              subst choice
              simp only [Verb.action, chosen, cmdSet, collected]
              exact set_refines wf key value options

/-! ## Counters -/

/-- The increment of a key that reads as `cur`. -/
theorem incrBy_of_cur (world : World) {middle : Memory} (wf : middle.Wf)
    (cur delta : Int64)
    (ran : ∀ now, (KeyOp.incrBy delta.toInt).run wrap64 now (middle.view key) =
      increment (middle.view key)
        ((middle.expiry.expiryAt key).map Int64.toInt)
        (cur.toInt + delta.toInt)) :
    ∃ reply after,
      Effect world middle key (.incrBy delta.toInt) reply after ∧
        ∀ logged, (if cur.toInt + delta.toInt < -2 ^ 63 ∨
            2 ^ 63 ≤ cur.toInt + delta.toInt then
          Except.ok (notAnInteger, Server.mk middle logged)
        else
          .ok (Resp.integer (Int64.ofInt (cur.toInt + delta.toInt)).toInt,
            (Server.mk middle logged).withDb (middle.db.set key
              (i64ToString (Int64.ofInt (cur.toInt + delta.toInt)))))) =
          (.ok (reply.encode, ⟨after, logged⟩) : Handled) := by
  by_cases overflow : cur.toInt + delta.toInt < -2 ^ 63 ∨
      2 ^ 63 ≤ cur.toInt + delta.toInt
  · refine ⟨.notAnInteger, middle, Effect.read wf rfl ?_, ?_⟩
    · intro now
      rw [ran now, increment, if_pos overflow]
    · intro logged
      rw [if_pos overflow]
      rfl
  · have exact_sum : (Int64.ofInt (cur.toInt + delta.toInt)).toInt =
        cur.toInt + delta.toInt :=
      Int64.toInt_ofInt_of_le (by omega) (by omega)
    refine ⟨.integer (cur.toInt + delta.toInt), _,
      Effect.put wf (.string (intToString (cur.toInt + delta.toInt)))
        (by simp) rfl ?_, ?_⟩
    · intro now
      rw [ran now, increment, if_neg overflow]
    · intro logged
      rw [if_neg overflow, i64ToString, exact_sum]
      rfl

theorem incrBy_refines (wf : memory.Wf) (key : Bytes) (delta : Int64) :
    Refines world memory (.onKey key (.incrBy delta.toInt))
      fun disk dispatcher =>
        incrBy (world.onDisk disk) ⟨memory, dispatcher⟩ key delta := by
  refine Refines.of_touch wf ?_
  intro middle middleWf
  obtain ⟨stored, untracked, viewed⟩ | ⟨value, stored, viewed⟩ :=
    middleWf.view_cases key
  · obtain ⟨reply, after, effect, result⟩ :=
      incrBy_of_cur world middleWf 0 delta (by
        intro now
        rw [viewed, untracked]
        simp [KeyOp.run])
    refine ⟨reply, after, effect, ?_⟩
    intro disk dispatcher logged touched
    rw [← result logged]
    simp [incrBy, touched, Db.type, Db.get, stored]
  · cases value with
    | list items =>
        refine ⟨.wrongType, middle,
          Effect.read_view middleWf viewed rfl fun _ => rfl, ?_⟩
        intro disk dispatcher logged touched
        simp [incrBy, touched, Db.type, stored]
    | string text =>
        cases parsed : parseI64 text with
        | none =>
            refine ⟨.notAnInteger, middle, Effect.read middleWf rfl ?_, ?_⟩
            · intro now
              rw [viewed]
              simp [KeyOp.run, parsed]
            · intro disk dispatcher logged touched
              simp [incrBy, touched, Db.type, Db.get, stored, parsed]
        | some cur =>
            obtain ⟨reply, after, effect, result⟩ :=
              incrBy_of_cur world middleWf cur delta (by
                intro now
                rw [viewed]
                simp [KeyOp.run, parsed])
            refine ⟨reply, after, effect, ?_⟩
            intro disk dispatcher logged touched
            rw [← result logged]
            simp [incrBy, touched, Db.type, Db.get, stored, parsed]

theorem cmdIncr_refines (wf : memory.Wf) (cmd : Command) :
    Refines world memory (keyAction "incr" cmd (.incrBy 1))
      fun disk dispatcher => cmdIncr (world.onDisk disk) ⟨memory, dispatcher⟩ cmd :=
  match cmd with
  | [] => Refines.answer wf _
  | [_] => Refines.answer wf _
  | _ :: _ :: _ :: _ => Refines.answer wf _
  | [_, key] => incrBy_refines wf key 1

theorem cmdDecr_refines (wf : memory.Wf) (cmd : Command) :
    Refines world memory (keyAction "decr" cmd (.incrBy (-1)))
      fun disk dispatcher => cmdDecr (world.onDisk disk) ⟨memory, dispatcher⟩ cmd :=
  match cmd with
  | [] => Refines.answer wf _
  | [_] => Refines.answer wf _
  | _ :: _ :: _ :: _ => Refines.answer wf _
  | [_, key] => incrBy_refines wf key (-1)

theorem cmdIncrby_refines (wf : memory.Wf) (cmd : Command) :
    Refines world memory (numberAction "incrby" cmd .incrBy)
      fun disk dispatcher => cmdIncrby (world.onDisk disk) ⟨memory, dispatcher⟩ cmd :=
  match cmd with
  | [] => Refines.answer wf _
  | [_] => Refines.answer wf _
  | [_, _] => Refines.answer wf _
  | _ :: _ :: _ :: _ :: _ => Refines.answer wf _
  | [_, key, number] => by
      simp only [numberAction, cmdIncrby]
      cases parseI64 number with
      | none => exact Refines.answer wf .notAnInteger
      | some delta => exact incrBy_refines wf key delta

theorem cmdType_refines (wf : memory.Wf) (cmd : Command) :
    Refines world memory (keyAction "type" cmd .type)
      fun disk dispatcher => cmdType (world.onDisk disk) ⟨memory, dispatcher⟩ cmd :=
  match cmd with
  | [] => Refines.answer wf _
  | [_] => Refines.answer wf _
  | _ :: _ :: _ :: _ => Refines.answer wf _
  | [_, key] => by
      refine Refines.of_look wf (fun _ => rfl) ?_
      intro middle middleWf
      obtain ⟨stored, _, viewed⟩ | ⟨value, stored, viewed⟩ :=
        middleWf.view_cases key
      · refine ⟨.simple (ascii "none"), fun now => by rw [viewed]; rfl, ?_⟩
        intro disk dispatcher logged touched
        simp [cmdType, touched, Db.type, stored]
      · cases value with
        | string text =>
            refine ⟨.simple (ascii "string"), fun now => by rw [viewed]; rfl, ?_⟩
            intro disk dispatcher logged touched
            simp [cmdType, touched, Db.type, stored]
        | list items =>
            refine ⟨.simple (ascii "list"), fun now => by rw [viewed]; rfl, ?_⟩
            intro disk dispatcher logged touched
            simp [cmdType, touched, Db.type, stored]

/-! ## TTL family -/

theorem expireGeneric_refines (nameLower : String) (unitToMs : Int64)
    (wf : memory.Wf) (cmd : Command) :
    Refines world memory
      (numberAction nameLower cmd fun n => .expire n unitToMs.toInt)
      fun disk dispatcher =>
        expireGeneric (world.onDisk disk) nameLower unitToMs ⟨memory, dispatcher⟩ cmd :=
  match cmd with
  | [] => Refines.answer wf _
  | [_] => Refines.answer wf _
  | [_, _] => Refines.answer wf _
  | _ :: _ :: _ :: _ :: _ => Refines.answer wf _
  | [_, key, number] => by
      simp only [numberAction, expireGeneric]
      cases parseI64 number with
      | none => exact Refines.answer wf .notAnInteger
      | some n =>
          refine Refines.of_stored wf rfl (fun _ => rfl) ?_ ?_
          · intro middle stored disk dispatcher logged touched
            simp [touched, Db.existsKey, stored]
          · intro middle value middleWf stored viewed
            by_cases low : n ≤ 0
            · have lowInt : n.toInt ≤ 0 := Int64.le_iff_toInt_le.mp low
              refine ⟨.integer 1, _, Effect.remove middleWf 0 ?_ ?_, ?_⟩
              · rw [viewed]
                exact if_pos lowInt
              · intro now _
                rw [viewed]
                simp [KeyOp.run, lowInt]
              · intro disk dispatcher logged touched
                simp [touched, Db.existsKey, stored, low, Db.del]
            · have highInt : ¬ n.toInt ≤ 0 := fun lowInt =>
                low (Int64.le_iff_toInt_le.mpr lowInt)
              refine ⟨.integer 1, _, Effect.arm middleWf stored
                (world.wallMs middle.clockReads + n * unitToMs) ?_ ?_, ?_⟩
              · rw [viewed]
                exact if_neg highInt
              · rw [viewed]
                simp only [KeyOp.run]
                rw [if_neg highInt, Int64.toInt_add, Int64.toInt_mul]
                rfl
              · intro disk dispatcher logged touched
                simp [touched, Db.existsKey, stored, low]

theorem cmdPexpireat_refines (wf : memory.Wf) (cmd : Command) :
    Refines world memory (numberAction "pexpireat" cmd .pexpireat)
      fun disk dispatcher => cmdPexpireat (world.onDisk disk) ⟨memory, dispatcher⟩ cmd :=
  match cmd with
  | [] => Refines.answer wf _
  | [_] => Refines.answer wf _
  | [_, _] => Refines.answer wf _
  | _ :: _ :: _ :: _ :: _ => Refines.answer wf _
  | [_, key, number] => by
      simp only [numberAction, cmdPexpireat]
      cases parseI64 number with
      | none => exact Refines.answer wf .notAnInteger
      | some atMs =>
          refine Refines.of_stored wf rfl (fun _ => rfl) ?_ ?_
          · intro middle stored disk dispatcher logged touched
            simp [touched, Db.existsKey, stored]
          · intro middle value middleWf stored viewed
            by_cases past : atMs ≤ world.wallMs middle.clockReads
            · refine ⟨.integer 1, _,
                Effect.remove middleWf 1 (by rw [viewed]; rfl) ?_, ?_⟩
              · intro now ends
                have reading : world.ms middle.clockReads = now :=
                  ends (Nat.lt_succ_self _)
                have reached : atMs.toInt ≤ now := by
                  rw [← reading]
                  exact Int64.le_iff_toInt_le.mp past
                rw [viewed]
                simp [KeyOp.run, reached]
              · intro disk dispatcher logged touched
                simp [touched, Db.existsKey, stored, past, Db.del]
            · refine ⟨.integer 1, _,
                Effect.arm middleWf stored atMs (by rw [viewed]; rfl) ?_, ?_⟩
              · rw [viewed]
                simp only [KeyOp.run]
                exact if_neg fun reached =>
                  past (Int64.le_iff_toInt_le.mpr reached)
              · intro disk dispatcher logged touched
                simp [touched, Db.existsKey, stored, past]

/-- The countdown a TTL query shows, computed in 64 bits. -/
theorem toInt_shown (inSeconds : Bool) (atMs now : Int64) :
    (let remainingMs := if atMs - now < 0 then 0 else atMs - now
      if inSeconds then (remainingMs + 500) / 1000 else remainingMs).toInt =
    (let remaining := max 0 (wrap64 (atMs.toInt - now.toInt))
      if inSeconds then (wrap64 (remaining + 500)).tdiv 1000
      else remaining) := by
  have clamped : (if atMs - now < 0 then 0 else atMs - now).toInt =
      max 0 (wrap64 (atMs.toInt - now.toInt)) := by
    have difference : (atMs - now).toInt = wrap64 (atMs.toInt - now.toInt) :=
      Int64.toInt_sub atMs now
    by_cases negative : atMs - now < 0
    · have negativeInt : (atMs - now).toInt < 0 :=
        Int64.lt_iff_toInt_lt.mp negative
      rw [if_pos negative, Int64.toInt_zero]
      omega
    · have positive : ¬ (atMs - now).toInt < 0 := fun negativeInt =>
        negative (Int64.lt_iff_toInt_lt.mpr negativeInt)
      rw [if_neg negative]
      omega
  cases inSeconds with
  | false => exact clamped
  | true =>
      have rounded := Int64.toInt_div_of_ne_right
        ((if atMs - now < 0 then 0 else atMs - now) + 500) 1000 (by decide)
      rw [Int64.toInt_add, clamped] at rounded
      exact rounded

theorem ttlGeneric_refines (nameLower : String) (inSeconds : Bool)
    (wf : memory.Wf) (cmd : Command) :
    Refines world memory (keyAction nameLower cmd (.ttl inSeconds))
      fun disk dispatcher =>
        ttlGeneric (world.onDisk disk) nameLower inSeconds ⟨memory, dispatcher⟩ cmd :=
  match cmd with
  | [] => Refines.answer wf _
  | [_] => Refines.answer wf _
  | _ :: _ :: _ :: _ => Refines.answer wf _
  | [_, key] => by
      refine Refines.of_stored wf rfl (fun _ => rfl) ?_ ?_
      · intro middle stored disk dispatcher logged touched
        simp [ttlGeneric, touched, Db.existsKey, stored]
      · intro middle value middleWf stored viewed
        cases armed : middle.expiry.expiryAt key with
        | none =>
            rw [armed] at viewed
            refine ⟨.integer (-1), middle,
              Effect.read_view middleWf viewed rfl fun _ => rfl, ?_⟩
            intro disk dispatcher logged touched
            simp [ttlGeneric, touched, Db.existsKey, stored, armed]
        | some atMs =>
            rw [armed] at viewed
            let now := world.wallMs middle.clockReads
            let remaining := max 0 (wrap64 (atMs.toInt - now.toInt))
            refine ⟨.integer (if inSeconds then
                (wrap64 (remaining + 500)).tdiv 1000 else remaining),
              { middle with clockReads := middle.clockReads + 1 }, ?_, ?_⟩
            · refine Effect.write middleWf (by rw [viewed]; rfl)
                (fun _ _ => rfl) (fun _ _ => rfl) (middleWf.tracked key)
                (middleWf.nonempty key) ?_
              intro reading ends
              have read : world.ms middle.clockReads = reading :=
                ends (Nat.lt_succ_self _)
              change _ = (_, middle.view key)
              rw [viewed, ← read]
              rfl
            · intro disk dispatcher logged touched
              rw [encode_integer, ← toInt_shown]
              simp [ttlGeneric, touched, Db.existsKey, stored, armed, now]

theorem cmdPersist_refines (wf : memory.Wf) (cmd : Command) :
    Refines world memory (keyAction "persist" cmd .persist)
      fun disk dispatcher => cmdPersist (world.onDisk disk) ⟨memory, dispatcher⟩ cmd :=
  match cmd with
  | [] => Refines.answer wf _
  | [_] => Refines.answer wf _
  | _ :: _ :: _ :: _ => Refines.answer wf _
  | [_, key] => by
      refine Refines.of_stored wf rfl (fun _ => rfl) ?_ ?_
      · intro middle stored disk dispatcher logged touched
        simp [cmdPersist, touched, Db.existsKey, stored]
      · intro middle value middleWf stored viewed
        cases armed : middle.expiry.expiryAt key with
        | none =>
            rw [armed] at viewed
            refine ⟨.integer 0, middle,
              Effect.read_view middleWf viewed rfl fun _ => rfl, ?_⟩
            intro disk dispatcher logged touched
            simp [cmdPersist, touched, Db.existsKey, stored, armed]
        | some atMs =>
            rw [armed] at viewed
            refine ⟨.integer 1,
              { middle with expiry := middle.expiry.persist key }, ?_, ?_⟩
            · refine Effect.write middleWf rfl (fun _ _ => rfl) ?_
                (by simp [stored]) (middleWf.nonempty key) ?_
              · intro other different
                simp [ExpiryManager.expiryAt_persist, different]
              · intro now _
                rw [viewed]
                simp [KeyOp.run, Memory.view, stored,
                  ExpiryManager.expiryAt_persist]
            · intro disk dispatcher logged touched
              simp [cmdPersist, touched, Db.existsKey, stored, armed]

end HermitDb.Core
