import HermitDb.Core.ListHandlers

/-!
# Every handler refines the store

The handlers that loop over keys touch and act key by key.  What they evict is
removed before the action as far as the store is concerned, because no key is
looked at before its own touch.
-/

namespace HermitDb.Core

open Library Persist Protocol

variable {world : World} {memory : Memory}

/-! ## Touching key after key -/

/-- Every key of `scope` was touched between `before` and `after`; those in
`evicted` were due. -/
structure Swept (world : World) (before : Memory) (scope : List Bytes)
    (after : Memory) (evicted : List Bytes) : Prop where
  wf : after.Wf
  nodup : evicted.Nodup
  clock_le : before.clockReads ≤ after.clockReads
  subset : ∀ key ∈ evicted, key ∈ scope
  due : ∀ key ∈ evicted, ∃ item deadline, before.view key = some item ∧
    item.deadline = some deadline ∧ ∃ i, before.clockReads ≤ i ∧
      i < after.clockReads ∧ deadline ≤ world.ms i
  spared : ∀ key item deadline, key ∈ scope → key ∉ evicted →
    before.view key = some item → item.deadline = some deadline →
    ∃ i, before.clockReads ≤ i ∧ i < after.clockReads ∧ world.ms i < deadline

theorem Swept.nil (wf : memory.Wf) : Swept world memory [] memory [] where
  wf := wf
  nodup := List.nodup_nil
  clock_le := Nat.le_refl _
  subset := by simp
  due := by simp
  spared := by simp

/-- The keys removed by one touch. -/
abbrev ifExpired (expired : Bool) (key : Bytes) : List Bytes :=
  if expired then [key] else []

/-- One touch, a step that may remove the key, and the rest of the loop. -/
theorem Swept.cons {before middle next after : Memory} {key : Bytes}
    {keys evicted : List Bytes} {expired : Bool}
    (touched : Touched world before key expired middle)
    (sameClock : next.clockReads = middle.clockReads)
    (sameElsewhere : ∀ other, other ≠ key → next.view other = middle.view other)
    (onlyRemoves : ∀ item, next.view key = some item →
      middle.view key = some item)
    (rest : Swept world next keys after evicted) :
    Swept world before (key :: keys) after (ifExpired expired key ++ evicted) := by
  have startLe := touched.clock_le
  have restLe := rest.clock_le
  have viewed := touched.view_eq
  have narrow : ∀ other item, next.view other = some item →
      before.view other = some item := by
    intro other item present
    have inMiddle : middle.view other = some item := by
      by_cases same : other = key
      · subst other
        exact onlyRemoves item present
      · rwa [← sameElsewhere other same]
    rw [viewed] at inMiddle
    by_cases removed : other ∈ ifExpired expired key
    · rw [TimedMap.without_of_mem removed] at inMiddle
      cases inMiddle
    · rwa [TimedMap.without_of_not_mem removed] at inMiddle
  refine ⟨rest.wf, ?_, by omega, ?_, ?_, ?_⟩
  · cases expired with
    | false => exact rest.nodup
    | true =>
        -- A key that has gone is not there to be evicted again.
        refine List.nodup_cons.mpr ⟨?_, rest.nodup⟩
        intro again
        obtain ⟨item, _, present, _⟩ := rest.due key again
        have gone := onlyRemoves item present
        rw [viewed, if_pos rfl,
          TimedMap.without_of_mem (List.mem_singleton_self key)] at gone
        cases gone
  · intro other gone
    rcases List.mem_append.mp gone with first | later
    · cases expired <;> simp_all
    · exact List.mem_cons_of_mem key (rest.subset other later)
  · intro other gone
    rcases List.mem_append.mp gone with first | later
    · exact touched.due_of_mem (by omega) first
    · obtain ⟨item, deadline, present, hasDeadline, i, low, high, reached⟩ :=
        rest.due other later
      exact ⟨item, deadline, narrow other item present, hasDeadline, i,
        by omega, high, reached⟩
  · intro other item deadline inScope kept present hasDeadline
    rw [List.mem_append, not_or] at kept
    by_cases same : other = key
    · subst other
      exact touched.spared_of_not_mem (by omega) kept.1 present hasDeadline
    · have inRest : other ∈ keys := (List.mem_cons.mp inScope).resolve_left same
      have still : next.view other = some item := by
        rw [sameElsewhere other same, viewed,
          TimedMap.without_of_not_mem kept.1, present]
      obtain ⟨i, low, high, early⟩ :=
        rest.spared other item deadline inRest kept.2 still hasDeadline
      exact ⟨i, by omega, high, early⟩

theorem putAll_evicted (dispatcher : CommandDispatcher) (expired : Bool)
    (key : Bytes) (evicted : List Bytes) :
    (dispatcher.putAll world (if expired then [delRecord key] else [])).putAll
        world (evicted.map delRecord) =
      dispatcher.putAll world
        ((ifExpired expired key ++ evicted).map delRecord) := by
  rw [List.map_append, CommandDispatcher.putAll_append]
  cases expired <;> rfl

/-! ## Deleting -/

/-- A key counts once, whether or not it is repeated later. -/
theorem countP_dedup_cons (key : Bytes) (keys : List Bytes)
    (present : Bytes → Bool) :
    (key :: keys).dedup.countP present =
      (if present key then 1 else 0) +
        keys.dedup.countP fun other => present other && decide (other ≠ key) := by
  have unique := List.nodup_dedup keys
  by_cases repeated : key ∈ keys
  · rw [List.dedup_cons_of_mem repeated]
    have inDedup : key ∈ keys.dedup := List.mem_dedup.mpr repeated
    rw [(List.perm_cons_erase inDedup).countP_eq, List.countP_cons,
      unique.erase_eq_filter, List.countP_filter, Nat.add_comm]
    simp [bne, decide_not, beq_eq_decide]
  · rw [List.dedup_cons_of_notMem repeated, List.countP_cons, Nat.add_comm]
    congr 1
    refine List.countP_congr ?_
    intro other inside
    have different : other ≠ key := by
      rintro rfl
      exact repeated (List.mem_dedup.mp inside)
    simp [different]

/-- One round of the `DEL` loop after its touch. -/
theorem delLoop_step (key : Bytes) (keys : List Bytes) {middle : Memory}
    (wf : middle.Wf) :
    ∃ next : Memory, next.Wf ∧ next.clockReads = middle.clockReads ∧
      next.view = middle.view.without [key] ∧
      ∀ world n before logged,
        Server.touch world before key = ⟨middle, logged⟩ →
        delLoop world (key :: keys) n before =
          delLoop world keys
            (n + if (middle.view key).isSome then 1 else 0) ⟨next, logged⟩ := by
  cases stored : middle.db.find key with
  | some value =>
      refine ⟨⟨middle.db.erase key, middle.expiry.untrack key,
        middle.clockReads⟩, Memory.evict_wf wf key _, rfl,
        Memory.evict_view middle key _, ?_⟩
      intro world n before logged touched
      simp [delLoop, touched, Db.del, stored, Memory.view_some stored,
        ExpiryManager.persist]
  | none =>
      refine ⟨middle, wf, rfl, ?_, ?_⟩
      · rw [TimedMap.without_singleton, ← Memory.view_none stored,
          Function.update_eq_self]
      · intro world n before logged touched
        simp [delLoop, touched, Db.del, stored, Memory.view_none stored,
          Db.erase_of_absent stored]

theorem delLoop_swept (world : World) (keys : List Bytes) {memory : Memory}
    (wf : memory.Wf) :
    ∃ after evicted, Swept world memory keys after evicted ∧
      after.view = (memory.view.without evicted).without keys ∧
      (keys.any fun key => (memory.view.without evicted key).isSome) =
        deletes world memory.clockReads memory.view keys ∧
      ∀ disk n dispatcher,
        delLoop (world.onDisk disk) keys n ⟨memory, dispatcher⟩ =
        (n + keys.dedup.countP fun key =>
            (memory.view.without evicted key).isSome,
          ⟨after,
            dispatcher.putAll (world.onDisk disk) (evicted.map delRecord)⟩) := by
  induction keys generalizing memory with
  | nil => exact ⟨memory, [], Swept.nil wf, by simp, rfl, by simp [delLoop]⟩
  | cons key keys induction =>
      obtain ⟨expired, middle, touched, touchEq⟩ := touch_touched world wf key
      obtain ⟨next, nextWf, sameClock, nextView, loopEq⟩ :=
        delLoop_step key keys touched.wf
      obtain ⟨after, evicted, swept, afterView, found, result⟩ :=
        induction nextWf
      have goneNext : next.view key = none := by
        rw [nextView]
        exact TimedMap.without_of_mem (List.mem_singleton_self key)
      have elsewhere : ∀ other, other ≠ key →
          next.view other = middle.view other := by
        intro other different
        rw [nextView]
        exact TimedMap.without_of_not_mem (by simpa using different)
      -- The key is already gone when the rest of the loop runs.
      have notLater : key ∉ evicted := by
        intro later
        obtain ⟨item, _, present, _⟩ := swept.due key later
        rw [goneNext] at present
        cases present
      have atKey : memory.view.without (ifExpired expired key ++ evicted) key =
          middle.view key := by
        rw [TimedMap.without_append, ← touched.view_eq,
          TimedMap.without_of_not_mem notLater]
      refine ⟨after, ifExpired expired key ++ evicted,
        Swept.cons touched sameClock elsewhere ?_ swept, ?_, ?_, ?_⟩
      · intro item present
        rw [goneNext] at present
        cases present
      · rw [afterView, nextView, touched.view_eq]
        simp only [← TimedMap.without_append]
        refine TimedMap.without_congr _ ?_
        intro other
        simp only [List.mem_append, List.mem_cons]
        tauto
      · rw [List.any_cons, atKey, deletes, ← touched.expired_eq]
        cases expired with
        | true =>
            obtain ⟨item, deadline, present, hasDeadline, _⟩ := touched.due rfl
            have reading : next.clockReads = memory.clockReads + 1 := by
              rw [sameClock, touched.clock_eq, present]
              simp [touchReadings, hasDeadline]
            have gone : middle.view key = none := by
              rw [touched.view_eq]
              exact TimedMap.without_of_mem (List.mem_singleton_self key)
            have view : next.view = memory.view.without [key] := by
              rw [nextView, touched.view_eq, if_pos rfl,
                TimedMap.without_singleton _ key, TimedMap.without_singleton,
                Function.update_idem]
            rw [gone, if_pos rfl, ← view, ← reading, ← found, ifExpired,
              if_pos rfl, TimedMap.without_append, ← view]
            rfl
        | false =>
            have unchanged : middle.view = memory.view := by
              rw [touched.view_eq]
              exact TimedMap.without_nil _
            rw [if_neg Bool.false_ne_true, unchanged]
            cases present : memory.view key with
            | some item => rfl
            | none =>
                have view : next.view = memory.view := by
                  rw [nextView, unchanged, TimedMap.without_singleton, ← present,
                    Function.update_eq_self]
                have reading : next.clockReads = memory.clockReads := by
                  rw [sameClock, touched.clock_eq, present]
                  rfl
                rw [← reading, ← view, ← found]
                rfl
      · intro disk n dispatcher
        rw [loopEq _ n _ _ (touchEq disk dispatcher), result, putAll_evicted,
          countP_dedup_cons, Nat.add_assoc]
        have atOther : ∀ other, (next.view.without evicted other).isSome =
            ((memory.view.without (ifExpired expired key ++ evicted) other).isSome
              && decide (other ≠ key)) := by
          intro other
          rw [TimedMap.without_append, ← touched.view_eq, nextView]
          by_cases same : other = key
          · subst other
            simp [TimedMap.without]
          · simp [TimedMap.without, same]
        simp only [atKey, atOther]

theorem cmdDel_refines (wf : memory.Wf) (cmd : Command) :
    Refines world memory (keysAction "del" cmd .del)
      fun disk dispatcher => cmdDel (world.onDisk disk) ⟨memory, dispatcher⟩ cmd :=
  match cmd with
  | [] => Refines.answer wf _
  | [_] => Refines.answer wf _
  | _ :: key :: keys => by
      obtain ⟨after, evicted, swept, afterView, found, result⟩ :=
        delLoop_swept world (key :: keys) wf
      let count := (key :: keys).dedup.countP fun key =>
        (memory.view.without evicted key).isSome
      refine ⟨.integer count, after, evicted, ⟨swept.wf, swept.nodup,
        swept.clock_le, swept.due, swept.subset, swept.spared, ?_, ?_, ?_, nofun,
        nofun, ?_⟩, ?_⟩
      · intro now _
        exact afterView
      · intro now _ _
        rfl
      · intro targets isExists
        cases isExists
      · rintro targets ⟨⟩
        exact found
      · intro disk dispatcher
        simp only [cmdDel, result, Nat.zero_add]
        rfl

/-! ## Counting and listing -/

theorem existsLoop_swept (world : World) (keys : List Bytes) {memory : Memory}
    (wf : memory.Wf) :
    ∃ after evicted count, Swept world memory keys after evicted ∧
      after.view = memory.view.without evicted ∧
      (∀ now, world.Steady memory.clockReads after.clockReads now →
        count = keys.countP fun key =>
          (memory.view.without evicted key).isSome) ∧
      ∀ disk n dispatcher, existsLoop (world.onDisk disk) keys n ⟨memory, dispatcher⟩ =
        (n + count,
          ⟨after,
            dispatcher.putAll (world.onDisk disk) (evicted.map delRecord)⟩) := by
  induction keys generalizing memory with
  | nil => exact ⟨memory, [], 0, Swept.nil wf, by simp, by simp, by simp [existsLoop]⟩
  | cons key keys induction =>
      obtain ⟨expired, middle, touched, touchEq⟩ := touch_touched world wf key
      obtain ⟨after, evicted, count, swept, afterView, counted, result⟩ :=
        induction touched.wf
      refine ⟨after, ifExpired expired key ++ evicted,
        (if (middle.view key).isSome then 1 else 0) + count,
        Swept.cons touched rfl (fun _ _ => rfl) (fun _ => id) swept, ?_, ?_, ?_⟩
      · rw [afterView, touched.view_eq, TimedMap.without_append]
      · intro now steady
        have startLe := touched.clock_le
        have restLe := swept.clock_le
        -- With one reading throughout, what the first touch spared stays.
        have notLater : key ∉ evicted := by
          intro later
          obtain ⟨item, deadline, present, hasDeadline, i, low, high, reached⟩ :=
            swept.due key later
          have readLater := steady i (by omega) high
          cases expired with
          | true =>
              rw [touched.view_eq, TimedMap.without_of_mem (by simp)] at present
              cases present
          | false =>
              have unchanged : middle.view = memory.view := by
                rw [touched.view_eq]
                simp
              rw [unchanged] at present
              obtain ⟨read, early⟩ :=
                touched.spared rfl item deadline present hasDeadline
              have readFirst := steady memory.clockReads (Nat.le_refl _) (by omega)
              omega
        have sameCount := counted now fun i low high =>
          steady i (by omega) high
        have atKey : memory.view.without (ifExpired expired key ++ evicted) key =
            middle.view key := by
          rw [TimedMap.without_append, ← touched.view_eq,
            TimedMap.without_of_not_mem notLater]
        rw [sameCount, List.countP_cons, atKey, Nat.add_comm]
        simp only [TimedMap.without_append, ← touched.view_eq]
      · intro disk n dispatcher
        rw [existsLoop, touchEq disk dispatcher]
        simp only [← putAll_evicted, Db.existsKey, ← Memory.view_isSome]
        cases present : (middle.view key).isSome with
        | true => simp [result, Nat.add_assoc]
        | false => simp [result]

theorem cmdExists_refines (wf : memory.Wf) (cmd : Command) :
    Refines world memory (keysAction "exists" cmd .exists)
      fun disk dispatcher => cmdExists (world.onDisk disk) ⟨memory, dispatcher⟩ cmd :=
  match cmd with
  | [] => Refines.answer wf _
  | [_] => Refines.answer wf _
  | _ :: key :: keys => by
      obtain ⟨after, evicted, count, swept, afterView, counted, result⟩ :=
        existsLoop_swept world (key :: keys) wf
      refine ⟨.integer count, after, evicted, ⟨swept.wf, swept.nodup,
        swept.clock_le, swept.due, swept.subset, swept.spared, ?_, ?_, ?_, nofun,
        nofun, nofun⟩, ?_⟩
      · intro now _
        exact afterView
      · intro now _ steady
        exact congrArg (fun count : Nat => Reply.integer count)
          (counted now (steady _ rfl))
      · intro targets _
        exact ⟨count, rfl⟩
      · intro disk dispatcher
        simp only [cmdExists, result, Nat.zero_add]
        rfl

theorem keysLoop_swept (world : World) {keys : List Bytes}
    (distinct : keys.Nodup) {memory : Memory} (wf : memory.Wf) :
    ∃ after evicted found, Swept world memory keys after evicted ∧
      after.view = memory.view.without evicted ∧ found.Nodup ∧
      (∀ key, key ∈ found ↔ key ∈ keys ∧ key ∉ evicted) ∧
      ∀ disk dispatcher, keysLoop (world.onDisk disk) keys ⟨memory, dispatcher⟩ =
        (found, ⟨after,
            dispatcher.putAll (world.onDisk disk) (evicted.map delRecord)⟩) := by
  induction keys generalizing memory with
  | nil =>
      exact ⟨memory, [], [], Swept.nil wf, by simp, by simp, by simp,
        by simp [keysLoop]⟩
  | cons key keys induction =>
      obtain ⟨notLater, distinctRest⟩ := List.nodup_cons.mp distinct
      obtain ⟨expired, middle, touched, touchEq⟩ :=
        checkAndExpire_touched world wf key
      obtain ⟨after, evicted, found, swept, afterView, foundDistinct, foundIff,
        result⟩ := induction distinctRest touched.wf
      have notFound : key ∉ found := fun inFound =>
        notLater ((foundIff key).mp inFound).1
      have notEvicted : key ∉ evicted := fun later =>
        notLater (swept.subset key later)
      refine ⟨after, ifExpired expired key ++ evicted,
        if expired then found else key :: found,
        Swept.cons touched rfl (fun _ _ => rfl) (fun _ => id) swept,
        ?_, ?_, ?_, ?_⟩
      · rw [afterView, touched.view_eq, TimedMap.without_append]
      · cases expired with
        | true => exact foundDistinct
        | false => exact List.nodup_cons.mpr ⟨notFound, foundDistinct⟩
      · intro other
        by_cases same : other = key
        · subst other
          cases expired <;> simp [notFound, notEvicted]
        · cases expired <;> simp [foundIff, same]
      · intro disk dispatcher
        rw [keysLoop, touchEq disk dispatcher]
        simp only [result, putAll_evicted]

theorem cmdKeys_refines (walk : Walk) (wf : memory.Wf) (cmd : Command) :
    Refines world memory (Verb.keys.action wrap64 cmd)
      fun disk dispatcher => cmdKeys (world.onDisk disk) walk ⟨memory, dispatcher⟩ cmd :=
  match cmd with
  | [] => Refines.answer wf _
  | [_] => Refines.answer wf _
  | _ :: _ :: _ :: _ => Refines.answer wf _
  | [_, pattern] => by
      obtain ⟨after, evicted, found, swept, afterView, foundDistinct, foundIff,
        result⟩ := keysLoop_swept world
          (memory.db.nodup_keysMatchingGlob world.plainChar walk pattern) wf
      have listed : ∀ key,
          key ∈ memory.db.keysMatchingGlob world.plainChar walk pattern ↔
          memory.view key ≠ none ∧
            globMatch world.plainChar pattern key = true := by
        intro key
        rw [Db.mem_keysMatchingGlob, Ne, Ne, Memory.view_eq_none_iff]
      refine ⟨.bulks found, after, evicted, ⟨swept.wf, swept.nodup,
        swept.clock_le, swept.due, ?_, ?_, ?_, ?_, ?_, nofun, nofun, nofun⟩, ?_⟩
      · intro key gone
        exact ((listed key).mp (swept.subset key gone)).2
      · intro key item deadline touches kept present
        have inScope := (listed key).mpr ⟨by simp [present], touches⟩
        exact swept.spared key item deadline inScope kept present
      · intro now _
        exact afterView
      · intro now _ _
        refine ⟨found, foundDistinct, ?_, rfl⟩
        intro key
        rw [foundIff, listed]
        by_cases gone : key ∈ evicted
        · simp [gone, TimedMap.without_of_mem gone]
        · simp [gone, TimedMap.without_of_not_mem gone]
      · intro targets isExists
        cases isExists
      · intro disk dispatcher
        simp only [cmdKeys, World.onDisk_plainChar, result]
        rfl

theorem cmdDbsize_refines (wf : memory.Wf) (cmd : Command) :
    Refines world memory (Verb.dbsize.action wrap64 cmd)
      fun _ dispatcher => cmdDbsize ⟨memory, dispatcher⟩ cmd :=
  match cmd with
  | [] => Refines.answer wf _
  | _ :: _ :: _ => Refines.answer wf _
  | [_] => by
      refine ⟨.integer memory.db.size, memory, [],
        ⟨wf, List.nodup_nil, Nat.le_refl _, by simp, by simp, ?_, ?_, ?_, ?_,
          nofun, nofun, nofun⟩, ?_⟩
      · intro key item deadline touches
        cases touches
      · intro now _
        simp [Verb.action, Action.after]
      · intro now _ _
        refine ⟨memory.db.map.keys, ?_, rfl⟩
        intro key
        rw [Db.mem_keys_iff, TimedMap.without_nil, Ne, Ne,
          Memory.view_eq_none_iff]
      · intro targets isExists
        cases isExists
      · intro disk dispatcher
        rfl

/-! ## Flushing -/

theorem expiryAt_foldl_persist (keys : List Bytes) (expiry : ExpiryManager)
    (other : Bytes) :
    (keys.foldl ExpiryManager.persist expiry).expiryAt other =
      if other ∈ keys then none else expiry.expiryAt other :=
  lookup_foldl_remove ExpiryManager.expiryAt ExpiryManager.expiryAt_persist
    expiry keys other

theorem cmdFlushall_refines (walk : Walk) (wf : memory.Wf) (cmd : Command) :
    Refines world memory (Verb.flushall.action wrap64 cmd)
      fun disk dispatcher =>
        cmdFlushall (world.onDisk disk) walk ⟨memory, dispatcher⟩ cmd :=
  match cmd with
  | [] => Refines.answer wf _
  | _ :: _ :: _ => Refines.answer wf _
  | [_] => by
      let keys := memory.db.keysMatchingGlob world.plainChar walk (ascii "*")
      let after : Memory := ⟨Db.empty,
        keys.foldl ExpiryManager.persist memory.expiry, memory.clockReads⟩
      have untracked : ∀ key, after.expiry.expiryAt key = none := by
        intro key
        change (keys.foldl ExpiryManager.persist memory.expiry).expiryAt key = none
        rw [expiryAt_foldl_persist]
        split
        · rfl
        · rename_i notListed
          refine wf.tracked key (by_contra fun stored => notListed ?_)
          exact Db.mem_keysMatchingGlob.mpr ⟨stored, globMatch_star _ key⟩
      have afterWf : after.Wf := ⟨fun key _ => untracked key, fun key => by
        simp [after]⟩
      refine ⟨.ok, after, [],
        ⟨afterWf, List.nodup_nil, Nat.le_refl _, by simp, by simp, ?_, ?_, ?_,
          ?_, nofun, nofun, nofun⟩, ?_⟩
      · intro key item deadline touches
        cases touches
      · intro now _
        rfl
      · intro now _ _
        rfl
      · intro targets isExists
        cases isExists
      · intro disk dispatcher
        rfl

/-! ## Dispatch -/

theorem cmdPing_refines (wf : memory.Wf) (cmd : Command) :
    Refines world memory (Verb.ping.action wrap64 cmd)
      fun _ dispatcher => cmdPing ⟨memory, dispatcher⟩ cmd :=
  match cmd with
  | [] => Refines.answer wf _
  | [_] => Refines.answer wf (.simple (ascii "PONG"))
  | [_, text] => Refines.answer wf (.bulk text)
  | _ :: _ :: _ :: _ => Refines.answer wf _

theorem cmdEcho_refines (wf : memory.Wf) (cmd : Command) :
    Refines world memory (Verb.echo.action wrap64 cmd)
      fun _ dispatcher => cmdEcho ⟨memory, dispatcher⟩ cmd :=
  match cmd with
  | [] => Refines.answer wf _
  | [_] => Refines.answer wf _
  | [_, text] => Refines.answer wf (.bulk text)
  | _ :: _ :: _ :: _ => Refines.answer wf _

theorem cmdConfig_eq (server : Server) (cmd : Command) :
    cmdConfig server cmd = .ok ((configReply cmd).encode, server) :=
  match cmd with
  | [] => rfl
  | [_] => rfl
  | _ :: sub :: args => by
      simp only [cmdConfig, configReply]
      by_cases isGet : upper sub = ascii "GET"
      · simp only [isGet, if_true]
        rcases args with _ | ⟨name, _ | ⟨_, _⟩⟩
        · rfl
        · simp only
          cases kKnown.lookup (lower name) <;> rfl
        · rfl
      · simp only [isGet, if_false]
        rfl

theorem Verb.handler_refines (verb : Verb) (walk : Walk) (wf : memory.Wf)
    (cmd : Command) :
    Refines world memory (verb.action wrap64 cmd)
      fun disk dispatcher =>
        verb.handler (world.onDisk disk) walk ⟨memory, dispatcher⟩ cmd := by
  cases verb with
  | ping => exact cmdPing_refines wf cmd
  | echo => exact cmdEcho_refines wf cmd
  | set => exact cmdSet_refines wf cmd
  | get => exact cmdGet_refines wf cmd
  | del => exact cmdDel_refines wf cmd
  | «exists» => exact cmdExists_refines wf cmd
  | expire => exact expireGeneric_refines "expire" 1000 wf cmd
  | pexpire => exact expireGeneric_refines "pexpire" 1 wf cmd
  | ttl => exact ttlGeneric_refines "ttl" true wf cmd
  | pexpireat => exact cmdPexpireat_refines wf cmd
  | pttl => exact ttlGeneric_refines "pttl" false wf cmd
  | persist => exact cmdPersist_refines wf cmd
  | incr => exact cmdIncr_refines wf cmd
  | decr => exact cmdDecr_refines wf cmd
  | incrby => exact cmdIncrby_refines wf cmd
  | type => exact cmdType_refines wf cmd
  | flushall => exact cmdFlushall_refines walk wf cmd
  | dbsize => exact cmdDbsize_refines wf cmd
  | keys => exact cmdKeys_refines walk wf cmd
  | config =>
      simp only [Verb.handler, Verb.action, cmdConfig_eq]
      exact Refines.answer wf (configReply cmd)
  | command => exact Refines.answer wf (.bulks [])
  | lpush => exact pushGeneric_refines "lpush" true wf cmd
  | rpush => exact pushGeneric_refines "rpush" false wf cmd
  | lpop => exact popGeneric_refines "lpop" true wf cmd
  | rpop => exact popGeneric_refines "rpop" false wf cmd
  | lrange => exact cmdLrange_refines wf cmd
  | llen => exact cmdLlen_refines wf cmd

end HermitDb.Core
