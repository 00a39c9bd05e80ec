import HermitDb.Core.Commands

/-!
# The options of `SET`

The option loop is order-sensitive: flags gate later branches, and an expiry
option takes the argument after it.  On option groups that are well formed
each, what it collects is a matter of which groups occur, so the command means
the same in whatever order they stand.
-/

namespace HermitDb.Core

open Protocol

/-- One option with its argument. -/
inductive OptionGroup where
  | nx
  | xx
  | ex (seconds : Int64)
  | px (millis : Int64)
  deriving DecidableEq

/-- The words of a group, in any letter case. -/
inductive OptionGroup.Spelled : OptionGroup → List Bytes → Prop where
  | nx {word : Bytes} (isNx : upper word = ascii "NX") : Spelled .nx [word]
  | xx {word : Bytes} (isXx : upper word = ascii "XX") : Spelled .xx [word]
  | ex {word number : Bytes} {seconds : Int64} (isEx : upper word = ascii "EX")
      (isNumber : parseI64 number = some seconds) :
      Spelled (.ex seconds) [word, number]
  | px {word number : Bytes} {millis : Int64} (isPx : upper word = ascii "PX")
      (isNumber : parseI64 number = some millis) :
      Spelled (.px millis) [word, number]

/-- The words of a list of groups. -/
inductive Spelling : List OptionGroup → List Bytes → Prop where
  | nil : Spelling [] []
  | cons {group : OptionGroup} {groups : List OptionGroup}
      {words args : List Bytes} (first : group.Spelled words)
      (rest : Spelling groups args) : Spelling (group :: groups) (words ++ args)

/-- The lifetime a group asks for. -/
def OptionGroup.lifetime : OptionGroup → Option Int
  | .ex seconds => some (seconds.toInt * 1000)
  | .px millis => some millis.toInt
  | _ => none

/-- The same lifetime as the loop computes it. -/
def OptionGroup.expireMs : OptionGroup → Option Int64
  | .ex seconds => some (seconds * 1000)
  | .px millis => some millis
  | _ => none

/-- The lifetimes among the groups, as the loop computes them. -/
def expiries (groups : List OptionGroup) : List Int64 :=
  groups.filterMap OptionGroup.expireMs

@[simp] theorem expiries_nil : expiries [] = [] := rfl

@[simp] theorem expiries_nx (groups : List OptionGroup) :
    expiries (.nx :: groups) = expiries groups := rfl

@[simp] theorem expiries_xx (groups : List OptionGroup) :
    expiries (.xx :: groups) = expiries groups := rfl

@[simp] theorem expiries_ex (seconds : Int64) (groups : List OptionGroup) :
    expiries (.ex seconds :: groups) = seconds * 1000 :: expiries groups := rfl

@[simp] theorem expiries_px (millis : Int64) (groups : List OptionGroup) :
    expiries (.px millis :: groups) = millis :: expiries groups := rfl

/-- A positive lifetime whose deadline, counted from `now`, fits. -/
def OptionGroup.Valid (now : Int64) (group : OptionGroup) : Prop :=
  ∀ lifetime, group.lifetime = some lifetime →
    0 < lifetime ∧ lifetime < 2 ^ 63 ∧ now.toInt + lifetime < 2 ^ 63

/-- With what has been collected already, the groups exclude each other. -/
def Conflict (options : SetOptions) (groups : List OptionGroup) : Prop :=
  ((options.nx = true ∨ .nx ∈ groups) ∧ (options.xx = true ∨ .xx ∈ groups)) ∨
    1 < options.expireMs.toList.length + (expiries groups).length

/-- What has been collected and what the groups add. -/
def SetOptions.merge (options : SetOptions) (groups : List OptionGroup) :
    SetOptions :=
  { nx := options.nx || decide (.nx ∈ groups)
    xx := options.xx || decide (.xx ∈ groups)
    expireMs := options.expireMs.or (expiries groups).head? }

/-- One group through the loop. -/
def OptionGroup.step (options : SetOptions) : OptionGroup → Option SetOptions
  | .nx => if options.xx then none else some { options with nx := true }
  | .xx => if options.nx then none else some { options with xx := true }
  | .ex seconds =>
      if options.expireMs.isSome then none
      else some { options with expireMs := some (seconds * 1000) }
  | .px millis =>
      if options.expireMs.isSome then none
      else some { options with expireMs := some millis }

/-- The loop takes a group in one go, whatever follows. -/
theorem setOptions_group {now : Int64} {group : OptionGroup}
    {words : List Bytes} (spelled : group.Spelled words)
    (valid : group.Valid now) (args : List Bytes) (options : SetOptions) :
    setOptions (words ++ args) options =
      match group.step options with
      | none => .error (Resp.error syntaxErrorText)
      | some collected => setOptions args collected := by
  cases spelled with
  | nx isNx =>
      rw [List.singleton_append, setOptions.eq_def]
      cases xx : options.xx <;> simp [isNx, xx, OptionGroup.step, ascii]
  | xx isXx =>
      rw [List.singleton_append, setOptions.eq_def]
      cases nx : options.nx <;> simp [isXx, nx, OptionGroup.step, ascii]
  | ex isEx isNumber =>
      rename_i word number seconds
      have positive : ¬ seconds ≤ 0 := by
        have lifetime := (valid _ rfl).1
        rw [Int64.le_iff_toInt_le, Int64.toInt_zero]
        omega
      rw [List.cons_append, setOptions.eq_def]
      cases set : options.expireMs with
      | none => simp [isEx, set, OptionGroup.step, ascii, isNumber, positive]
      | some expireMs => simp [isEx, set, OptionGroup.step, ascii]
  | px isPx isNumber =>
      rename_i word number millis
      have positive : ¬ millis ≤ 0 := by
        have lifetime := (valid _ rfl).1
        rw [Int64.le_iff_toInt_le, Int64.toInt_zero]
        omega
      rw [List.cons_append, setOptions.eq_def]
      cases set : options.expireMs with
      | none => simp [isPx, set, OptionGroup.step, ascii, isNumber, positive]
      | some expireMs => simp [isPx, set, OptionGroup.step, ascii]

theorem conflict_of_step_none {options : SetOptions} {group : OptionGroup}
    (refused : group.step options = none) (groups : List OptionGroup) :
    Conflict options (group :: groups) := by
  cases group with
  | nx =>
      have xx : options.xx = true := by
        simpa [OptionGroup.step] using refused
      exact .inl ⟨.inr List.mem_cons_self, .inl xx⟩
  | xx =>
      have nx : options.nx = true := by
        simpa [OptionGroup.step] using refused
      exact .inl ⟨.inl nx, .inr List.mem_cons_self⟩
  | ex seconds =>
      cases set : options.expireMs with
      | none => simp [OptionGroup.step, set] at refused
      | some expireMs =>
          right
          simp [set]
  | px millis =>
      cases set : options.expireMs with
      | none => simp [OptionGroup.step, set] at refused
      | some expireMs =>
          right
          simp [set]

/-- Taking a group over from the list changes nothing for the whole. -/
theorem step_collects {options collected : SetOptions} {group : OptionGroup}
    (taken : group.step options = some collected)
    (coherent : ¬ (options.nx = true ∧ options.xx = true))
    (groups : List OptionGroup) :
    ¬ (collected.nx = true ∧ collected.xx = true) ∧
      (Conflict collected groups ↔ Conflict options (group :: groups)) ∧
      collected.merge groups = options.merge (group :: groups) := by
  cases group with
  | nx =>
      cases xx : options.xx with
      | true => simp [OptionGroup.step, xx] at taken
      | false =>
          simp only [OptionGroup.step, xx, Bool.false_eq_true, if_false,
            Option.some.injEq] at taken
          subst collected
          refine ⟨by simp, by simp [Conflict, xx], ?_⟩
          simp [SetOptions.merge, xx]
  | xx =>
      cases nx : options.nx with
      | true => simp [OptionGroup.step, nx] at taken
      | false =>
          simp only [OptionGroup.step, nx, Bool.false_eq_true, if_false,
            Option.some.injEq] at taken
          subst collected
          refine ⟨by simp, by simp [Conflict, nx], ?_⟩
          simp [SetOptions.merge, nx]
  | ex _ | px _ =>
      cases set : options.expireMs with
      | some expireMs => simp [OptionGroup.step, set] at taken
      | none =>
          simp only [OptionGroup.step, set, Option.isSome_none,
            Bool.false_eq_true, if_false, Option.some.injEq] at taken
          subst collected
          refine ⟨coherent, ?_, ?_⟩
          · simp [Conflict, set, Nat.add_comm]
          · simp [SetOptions.merge, set]

/-- The loop fails if groups exclude each other, and otherwise collects what
occurs. -/
theorem setOptions_spelling {now : Int64} {groups : List OptionGroup}
    {args : List Bytes} (spelling : Spelling groups args)
    (valid : ∀ group ∈ groups, group.Valid now) {options : SetOptions}
    (coherent : ¬ (options.nx = true ∧ options.xx = true)) :
    (Conflict options groups →
      setOptions args options = .error (Resp.error syntaxErrorText)) ∧
    (¬ Conflict options groups →
      setOptions args options = .ok (options.merge groups)) := by
  induction spelling generalizing options with
  | nil =>
      constructor
      · rintro (both | many)
        · exact absurd (by simpa using both) coherent
        · cases set : options.expireMs <;> simp [set] at many
      · intro _
        simp [setOptions, SetOptions.merge]
  | cons first rest induction =>
      rename_i group groups words args
      obtain ⟨groupValid, restValid⟩ := List.forall_mem_cons.mp valid
      have step := setOptions_group first groupValid args options
      cases taken : group.step options with
      | none =>
          rw [taken] at step
          exact ⟨fun _ => step,
            fun free => absurd (conflict_of_step_none taken groups) free⟩
      | some collected =>
          rw [taken] at step
          obtain ⟨stillCoherent, conflict, merged⟩ :=
            step_collects taken coherent groups
          obtain ⟨fails, collects⟩ := induction restValid stillCoherent
          constructor
          · intro both
            exact step.trans (fails (conflict.mpr both))
          · intro free
            rw [← merged]
            exact step.trans (collects fun both => free (conflict.mp both))

/-! ## Order -/

theorem conflict_iff_of_perm {left right : List OptionGroup}
    (permutation : left.Perm right) (options : SetOptions) :
    Conflict options left ↔ Conflict options right := by
  have lengths : (expiries left).length = (expiries right).length :=
    (permutation.filterMap _).length_eq
  simp only [Conflict, permutation.mem_iff, lengths]

/-- Without a conflict there is at most one lifetime, which then is the one in
either order. -/
theorem merge_eq_of_perm {left right : List OptionGroup}
    (permutation : left.Perm right) {options : SetOptions}
    (free : ¬ Conflict options left) :
    options.merge left = options.merge right := by
  have lifetimes : (expiries left).Perm (expiries right) :=
    permutation.filterMap _
  have few : (expiries left).length ≤ 1 := by
    have := not_or.mp free
    omega
  have same : expiries left = expiries right := by
    cases found : expiries left with
    | nil =>
        rw [found] at lifetimes
        exact (List.nil_perm.mp lifetimes).symm
    | cons lifetime others =>
        rw [found] at few lifetimes
        obtain rfl : others = [] :=
          List.length_eq_zero_iff.mp (by simpa using few)
        exact List.singleton_perm.mp lifetimes
  simp only [SetOptions.merge, permutation.mem_iff, same]

/-! ## Lazy expiry of the key -/

/-- The deadline has passed at the next reading of the clock. -/
def Memory.expired (world : World) (memory : Memory) (key : Bytes) : Bool :=
  match memory.expiry.expiryAt key with
  | none => false
  | some atMs => atMs ≤ world.wallMs memory.clockReads

/-- The value of a key that has not expired. -/
def Memory.live (world : World) (memory : Memory) (key : Bytes) :
    Option Value :=
  if memory.expired world key then none else memory.db.find key

/-- Lazy expiry removes the key from both tables, or touches neither. -/
theorem touch_tables (world : World) (server : Server) (key : Bytes) :
    ((server.touch world key).memory.db, (server.touch world key).memory.expiry) =
      if server.memory.expired world key then
        (server.memory.db.erase key, server.memory.expiry.untrack key)
      else (server.memory.db, server.memory.expiry) := by
  cases armed : server.memory.expiry.expiryAt key with
  | none =>
      simp only [Server.touch, Server.checkAndExpire, Memory.expired, armed]
      rfl
  | some atMs =>
      by_cases early : world.wallMs server.memory.clockReads < atMs
      · have kept : server.touch world key =
            { server with memory := (server.memory.readClock world).2 } := by
          simp only [Server.touch, Server.checkAndExpire, armed]
          exact congrArg Prod.snd (if_pos early)
        have alive : server.memory.expired world key = false := by
          simp only [Memory.expired, armed]
          exact decide_eq_false (Int64.not_le.mpr early)
        rw [kept, alive]
        rfl
      · have evicted : server.touch world key = Server.evict world
            { server with memory := (server.memory.readClock world).2 } key := by
          simp only [Server.touch, Server.checkAndExpire, armed]
          exact congrArg Prod.snd (if_neg early)
        have dead : server.memory.expired world key = true := by
          simp only [Memory.expired, armed]
          exact decide_eq_true (Int64.not_lt.mp early)
        rw [evicted, dead]
        rfl

theorem touch_lookups (world : World) (server : Server) (key other : Bytes) :
    ((server.touch world key).memory.db.find other,
        (server.touch world key).memory.expiry.expiryAt other) =
      if other = key ∧ server.memory.expired world key then (none, none)
      else (server.memory.db.find other,
        server.memory.expiry.expiryAt other) := by
  have tables := touch_tables world server key
  cases expired : server.memory.expired world key with
  | true =>
      rw [expired, if_pos rfl, Prod.mk.injEq] at tables
      rw [tables.1, tables.2, Db.find_erase, ExpiryManager.expiryAt_untrack]
      by_cases same : other = key
      · simp [same]
      · simp [same]
  | false =>
      rw [expired, if_neg Bool.false_ne_true, Prod.mk.injEq] at tables
      rw [tables.1, tables.2, if_neg fun both => Bool.false_ne_true both.2]

theorem touch_existsKey (world : World) (server : Server) (key : Bytes) :
    (server.touch world key).memory.db.existsKey key =
      (server.memory.live world key).isSome := by
  have tables := congrArg Prod.fst (touch_tables world server key)
  dsimp only at tables
  rw [tables, Memory.live, Db.existsKey]
  cases server.memory.expired world key with
  | true => simp [Db.find_erase]
  | false => rfl

/-! ## The command -/

/-- Both flags, or more than one expiry. -/
def Exclusive (groups : List OptionGroup) : Prop :=
  (.nx ∈ groups ∧ .xx ∈ groups) ∨
    1 < (groups.filterMap OptionGroup.lifetime).length

/-- A flag forbids writing to the key as it is. -/
def Declined (live : Option Value) (groups : List OptionGroup) : Prop :=
  (.nx ∈ groups ∧ live ≠ none) ∨ (.xx ∈ groups ∧ live = none)

theorem length_lifetimes (groups : List OptionGroup) :
    (groups.filterMap OptionGroup.lifetime).length =
      (expiries groups).length := by
  induction groups with
  | nil => rfl
  | cons group groups induction =>
      cases group with
      | nx => exact induction
      | xx => exact induction
      | ex seconds => exact congrArg (· + 1) induction
      | px millis => exact congrArg (· + 1) induction

theorem conflict_iff_exclusive (groups : List OptionGroup) :
    Conflict ⟨false, false, none⟩ groups ↔ Exclusive groups := by
  simp [Conflict, Exclusive, length_lifetimes]

/-- The sum of the clock and a valid lifetime does not wrap. -/
theorem toInt_deadline {now expireMs : Int64} {lifetime : Int}
    (computed : expireMs.toInt = lifetime) (positive : 0 < lifetime)
    (fits : now.toInt + lifetime < 2 ^ 63) :
    (now + expireMs).toInt = now.toInt + lifetime := by
  have low := now.le_toInt
  rw [Int64.toInt_add, computed]
  exact Int.bmod_eq_of_le (by omega) (by omega)

/-- A valid lifetime is what the loop computes, and so is its deadline. -/
theorem toInt_deadlines {now : Int64} {groups : List OptionGroup}
    (valid : ∀ group ∈ groups, group.Valid now) :
    (expiries groups).head?.map (fun ms => (now + ms).toInt) =
      (groups.filterMap OptionGroup.lifetime).head?.map (now.toInt + ·) := by
  induction groups with
  | nil => rfl
  | cons group groups induction =>
      obtain ⟨groupValid, restValid⟩ := List.forall_mem_cons.mp valid
      cases group with
      | nx => exact induction restValid
      | xx => exact induction restValid
      | ex seconds =>
          obtain ⟨positive, small, fits⟩ := groupValid _ rfl
          have product : (seconds * 1000).toInt = seconds.toInt * 1000 := by
            have low : -2 ^ 63 ≤ seconds.toInt * 1000 := by omega
            rw [Int64.toInt_mul]
            exact Int.bmod_eq_of_le (by simpa using low) (by simpa using small)
          exact congrArg some (toInt_deadline product positive fits)
      | px millis =>
          obtain ⟨positive, _, fits⟩ := groupValid _ rfl
          exact congrArg some (toInt_deadline rfl positive fits)

/-- The loop ends the same way for the groups in another order. -/
theorem setOptions_perm {now : Int64} {left right : List OptionGroup}
    {leftArgs rightArgs : List Bytes} (permutation : left.Perm right)
    (leftSpelling : Spelling left leftArgs)
    (rightSpelling : Spelling right rightArgs)
    (valid : ∀ group ∈ left, group.Valid now) :
    setOptions rightArgs ⟨false, false, none⟩ =
      setOptions leftArgs ⟨false, false, none⟩ := by
  have coherent : ¬ (false = true ∧ false = true) := by decide
  have rightValid : ∀ group ∈ right, group.Valid now :=
    fun group member => valid group (permutation.mem_iff.mpr member)
  obtain ⟨leftFails, leftCollects⟩ :=
    setOptions_spelling leftSpelling valid
      (show ¬ ((SetOptions.mk false false none).nx = true ∧ _) from coherent)
  obtain ⟨rightFails, rightCollects⟩ :=
    setOptions_spelling rightSpelling rightValid
      (show ¬ ((SetOptions.mk false false none).nx = true ∧ _) from coherent)
  have same := conflict_iff_of_perm permutation ⟨false, false, none⟩
  by_cases conflict : Conflict ⟨false, false, none⟩ left
  · rw [leftFails conflict, rightFails (same.mp conflict)]
  · rw [leftCollects conflict, rightCollects fun other => conflict (same.mpr other),
      merge_eq_of_perm permutation conflict]

theorem cmdSet_congr {left right : List Bytes}
    (same : setOptions right ⟨false, false, none⟩ =
      setOptions left ⟨false, false, none⟩) (world : World) (server : Server)
    (name key value : Bytes) :
    cmdSet world server (name :: key :: value :: right) =
      cmdSet world server (name :: key :: value :: left) := by
  simp only [cmdSet, same]

theorem cmdSet_declined {args : List Bytes} {options : SetOptions}
    (collected : setOptions args ⟨false, false, none⟩ = .ok options)
    {world : World} {server : Server} {key : Bytes}
    (declined : ((options.nx && (server.memory.live world key).isSome) ||
      (options.xx && !(server.memory.live world key).isSome)) = true)
    (name value : Bytes) :
    cmdSet world server (name :: key :: value :: args) =
      .ok (Resp.nullBulk, server.touch world key) := by
  rw [← touch_existsKey] at declined
  simp only [cmdSet, collected]
  exact if_pos declined

theorem cmdSet_stored {args : List Bytes} {options : SetOptions}
    (collected : setOptions args ⟨false, false, none⟩ = .ok options)
    {world : World} {server : Server} {key : Bytes}
    (allowed : ¬ ((options.nx && (server.memory.live world key).isSome) ||
      (options.xx && !(server.memory.live world key).isSome)) = true)
    (name value : Bytes) :
    ∃ after, cmdSet world server (name :: key :: value :: args) =
        .ok (Resp.simple (ascii "OK"), after) ∧
      (∀ other, after.memory.db.find other =
        if other = key then some (.string value)
        else (server.touch world key).memory.db.find other) ∧
      ∀ other, after.memory.expiry.expiryAt other =
        if other = key then options.expireMs.map
          (world.wallMs (server.touch world key).memory.clockReads + ·)
        else (server.touch world key).memory.expiry.expiryAt other := by
  rw [← touch_existsKey] at allowed
  cases lifetime : options.expireMs with
  | none =>
      have executed : cmdSet world server (name :: key :: value :: args) =
          .ok (Resp.simple (ascii "OK"), ((server.touch world key).withDb
            ((server.touch world key).memory.db.set key value)).withExpiry
            ((server.touch world key).memory.expiry.persist key)) := by
        simp only [cmdSet, collected, lifetime]
        exact if_neg allowed
      exact ⟨_, executed, fun other => Db.find_put _ _ _ _,
        ExpiryManager.expiryAt_persist _ _⟩
  | some expireMs =>
      have executed : cmdSet world server (name :: key :: value :: args) =
          .ok (Resp.simple (ascii "OK"), (((server.touch world key).withDb
            ((server.touch world key).memory.db.set key value)).nowMs
              world).2.withExpiry
            ((server.touch world key).memory.expiry.setExpiry key
              (world.wallMs (server.touch world key).memory.clockReads +
                expireMs))) := by
        simp only [cmdSet, collected, lifetime]
        exact if_neg allowed
      exact ⟨_, executed, fun other => Db.find_put _ _ _ _,
        fun other => ExpiryManager.expiryAt_setExpiry _ _ _ _⟩

theorem declined_iff {live : Option Value} {groups : List OptionGroup} :
    ((decide (.nx ∈ groups) && live.isSome) ||
      (decide (.xx ∈ groups) && !live.isSome)) = true ↔
      Declined live groups := by
  cases live <;> simp [Declined]

/-- The reply and the effect of `SET` with any list of option groups, and that
they are the same for the groups in any other order. -/
theorem set_options_order {world : World} {server : Server}
    {name key value : Bytes} {groups : List OptionGroup} {args : List Bytes}
    (spelling : Spelling groups args)
    (valid : ∀ group ∈ groups, group.Valid
      (world.wallMs (server.touch world key).memory.clockReads)) :
    (∀ other, ((server.touch world key).memory.db.find other,
        (server.touch world key).memory.expiry.expiryAt other) =
      if other = key ∧ server.memory.expired world key then (none, none)
      else (server.memory.db.find other,
        server.memory.expiry.expiryAt other)) ∧
    ∃ reply after,
      cmdSet world server (name :: key :: value :: args) = .ok (reply, after) ∧
      (reply = Resp.error syntaxErrorText ↔ Exclusive groups) ∧
      (Exclusive groups → after = server) ∧
      (reply = Resp.nullBulk ↔ ¬ Exclusive groups ∧
        Declined (server.memory.live world key) groups) ∧
      (¬ Exclusive groups → Declined (server.memory.live world key) groups →
        after = server.touch world key) ∧
      (¬ Exclusive groups → ¬ Declined (server.memory.live world key) groups →
        reply = Resp.simple (ascii "OK") ∧
        (∀ other, after.memory.db.find other =
          if other = key then some (.string value)
          else (server.touch world key).memory.db.find other) ∧
        ∀ other, (after.memory.expiry.expiryAt other).map Int64.toInt =
          if other = key then
            (groups.filterMap OptionGroup.lifetime).head?.map
              ((world.wallMs
                (server.touch world key).memory.clockReads).toInt + ·)
          else ((server.touch world key).memory.expiry.expiryAt other).map
            Int64.toInt) ∧
      ∀ groups' args', groups.Perm groups' → Spelling groups' args' →
        cmdSet world server (name :: key :: value :: args') =
          .ok (reply, after) := by
  refine ⟨touch_lookups world server key, ?_⟩
  have reordered : ∀ reply after,
      cmdSet world server (name :: key :: value :: args) = .ok (reply, after) →
      ∀ groups' args', groups.Perm groups' → Spelling groups' args' →
        cmdSet world server (name :: key :: value :: args') =
          .ok (reply, after) := by
    intro reply after executed groups' args' permutation otherSpelling
    rw [← executed]
    exact cmdSet_congr
      (setOptions_perm permutation spelling otherSpelling valid) _ _ _ _ _
  obtain ⟨fails, collects⟩ := setOptions_spelling spelling valid
    (show ¬ ((SetOptions.mk false false none).nx = true ∧ _) by decide)
  rw [conflict_iff_exclusive] at fails collects
  by_cases exclusive : Exclusive groups
  · have executed : cmdSet world server (name :: key :: value :: args) =
        .ok (Resp.error syntaxErrorText, server) := by
      simp only [cmdSet, fails exclusive]
    refine ⟨_, _, executed, iff_of_true rfl exclusive, fun _ => rfl, ?_, ?_, ?_,
      reordered _ _ executed⟩
    · exact iff_of_false (by decide) fun both => both.1 exclusive
    · exact fun free => absurd exclusive free
    · exact fun free => absurd exclusive free
  · have collected := collects exclusive
    by_cases declined : Declined (server.memory.live world key) groups
    · have executed :=
        cmdSet_declined collected (declined_iff.mpr declined) name value
      refine ⟨_, _, executed, iff_of_false (by decide) exclusive,
        fun both => absurd both exclusive, ?_, fun _ _ => rfl, ?_,
        reordered _ _ executed⟩
      · exact iff_of_true rfl ⟨exclusive, declined⟩
      · exact fun _ allowed => absurd declined allowed
    · obtain ⟨after, executed, stored, deadlines⟩ := cmdSet_stored collected
        (fun holds => declined (declined_iff.mp holds)) name value
      refine ⟨_, after, executed, iff_of_false (by decide) exclusive,
        fun both => absurd both exclusive, ?_, ?_, ?_, reordered _ _ executed⟩
      · exact iff_of_false (by decide) fun both => declined both.2
      · exact fun _ holds => absurd holds declined
      · refine fun _ _ => ⟨rfl, stored, ?_⟩
        intro other
        rw [deadlines, ← toInt_deadlines valid]
        split
        · exact Option.map_map _ _ _
        · rfl

/-- `SET k v ex 5 NX` on an empty store is carried out: the value is stored
with a deadline five seconds on. -/
theorem set_options_order_of_fresh :
    ∃ reply after,
      cmdSet (.frozen 0) (Server.fresh none)
        [ascii "SET", ascii "k", ascii "v", ascii "ex", ascii "5", ascii "NX"] =
        .ok (reply, after) ∧
      reply = Resp.simple (ascii "OK") ∧
      after.memory.db.find (ascii "k") = some (.string (ascii "v")) ∧
      (after.memory.expiry.expiryAt (ascii "k")).map Int64.toInt = some 5000 ∧
      cmdSet (.frozen 0) (Server.fresh none)
        [ascii "SET", ascii "k", ascii "v", ascii "nx", ascii "EX", ascii "5"] =
        .ok (reply, after) := by
  have spelling : Spelling [.ex 5, .nx] [ascii "ex", ascii "5", ascii "NX"] :=
    .cons (.ex rfl rfl) (.cons (.nx rfl) .nil)
  have valid : ∀ group ∈ [OptionGroup.ex 5, .nx], group.Valid 0 := by
    intro group member lifetime asks
    simp only [List.mem_cons, List.not_mem_nil, or_false] at member
    rcases member with rfl | rfl
    · cases asks
      decide
    · cases asks
  obtain ⟨_, reply, after, executed, _, _, _, _, stored, reordered⟩ :=
    @set_options_order (.frozen 0) (Server.fresh none) (ascii "SET") (ascii "k")
      (ascii "v") _ _ spelling valid
  have sound : ¬ Exclusive [.ex 5, .nx] := by
    rintro (⟨_, both⟩ | many)
    · simp at both
    · exact absurd many (by decide)
  have allowed : ¬ Declined none [.ex 5, .nx] := by
    rintro (⟨_, present⟩ | ⟨required, _⟩)
    · exact present rfl
    · simp at required
  obtain ⟨ok, values, deadlines⟩ := stored sound allowed
  refine ⟨reply, after, executed, ok, ?_, ?_, ?_⟩
  · rw [values, if_pos rfl]
  · rw [deadlines, if_pos rfl]
    rfl
  · exact reordered [.nx, .ex 5] _ (List.Perm.swap _ _ _)
      (.cons (.nx rfl) (.cons (.ex rfl rfl) .nil))

end HermitDb.Core
