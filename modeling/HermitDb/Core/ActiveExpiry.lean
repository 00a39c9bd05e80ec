import HermitDb.Core.View

/-!
# What an active expiry cycle does

Sampling moves slots around while it runs, but every key it takes out was due
at the cycle's one reading of the clock, and nothing else changes.
-/

namespace HermitDb.Core

open Library Persist Protocol

/-- The keys in `evicted`, all due at `now`, were removed. -/
structure Purged (now : Int) (before after : Memory) (evicted : List Bytes) :
    Prop where
  wf : after.Wf
  nodup : evicted.Nodup
  clockReads : after.clockReads = before.clockReads
  view_eq : after.view = before.view.without evicted
  due : ∀ key ∈ evicted, ∃ item deadline, before.view key = some item ∧
    item.deadline = some deadline ∧ deadline ≤ now

theorem Purged.refl {memory : Memory} (wf : memory.Wf) (now : Int) :
    Purged now memory memory [] :=
  ⟨wf, List.nodup_nil, rfl, by simp, by simp⟩

theorem Purged.trans {now : Int} {before middle after : Memory}
    {first second : List Bytes} (earlier : Purged now before middle first)
    (later : Purged now middle after second) :
    Purged now before after (first ++ second) := by
  have stillThere : ∀ key ∈ second, key ∉ first ∧ ∃ item deadline,
      before.view key = some item ∧ item.deadline = some deadline ∧
        deadline ≤ now := by
    intro key inSecond
    obtain ⟨item, deadline, present, hasDeadline, reached⟩ :=
      later.due key inSecond
    rw [earlier.view_eq] at present
    by_cases removed : key ∈ first
    · rw [TimedMap.without_of_mem removed] at present
      cases present
    · rw [TimedMap.without_of_not_mem removed] at present
      exact ⟨removed, item, deadline, present, hasDeadline, reached⟩
  refine ⟨later.wf, ?_, later.clockReads.trans earlier.clockReads, ?_, ?_⟩
  · refine List.nodup_append.mpr ⟨earlier.nodup, later.nodup, ?_⟩
    rintro key inFirst _ inSecond rfl
    exact (stillThere key inSecond).1 inFirst
  · rw [later.view_eq, earlier.view_eq, TimedMap.without_append]
  · intro key gone
    rcases List.mem_append.mp gone with inFirst | inSecond
    · exact earlier.due key inFirst
    · exact (stillThere key inSecond).2

/-- Evicting the key of a slot whose deadline has been reached. -/
theorem Purged.slot {memory : Memory} (wf : memory.Wf) {now : Int64}
    {position : Nat} {slot : Slot}
    (found : memory.expiry.table.slots[position]? = some slot)
    (reached : ¬ now < slot.atMs) :
    Purged now.toInt memory ⟨memory.db.erase slot.key,
      memory.expiry.untrack slot.key, memory.clockReads⟩ [slot.key] where
  wf := Memory.evict_wf wf slot.key _
  nodup := List.nodup_singleton _
  clockReads := rfl
  view_eq := Memory.evict_view memory slot.key _
  due := by
    intro key gone
    rw [List.mem_singleton] at gone
    subst key
    have armed := memory.expiry.expiryAt_of_slot found
    cases stored : memory.db.find slot.key with
    | none =>
        rw [wf.tracked slot.key stored] at armed
        cases armed
    | some value =>
        refine ⟨_, slot.atMs.toInt, Memory.view_some stored, ?_, ?_⟩
        · simp [armed]
        · rw [Int64.lt_iff_toInt_lt] at reached
          exact Int.not_lt.mp reached

theorem sampleSlots_purged (world : World) (draws : Nat → Nat) (now : Int64)
    (left draw : Nat) {memory : Memory} (wf : memory.Wf) :
    ∃ sampled after evicted, Purged now.toInt memory after evicted ∧
      ∀ disk dispatcher, Server.sampleSlots (world.onDisk disk) draws now left draw
          ⟨memory, dispatcher⟩ =
        ⟨sampled, evicted.length,
          ⟨after,
          dispatcher.putAll (world.onDisk disk) (evicted.map delRecord)⟩⟩ := by
  induction left generalizing draw memory with
  | zero => exact ⟨0, memory, [], Purged.refl wf _, fun _ _ => rfl⟩
  | succ left induction =>
      cases found : memory.expiry.table.slots[
          draws draw % memory.expiry.table.slots.length]? with
      | none =>
          refine ⟨0, memory, [], Purged.refl wf _, ?_⟩
          intro disk dispatcher
          simp [Server.sampleSlots, Server.slotCount, found]
      | some slot =>
          by_cases early : now < slot.atMs
          · obtain ⟨sampled, after, evicted, purged, result⟩ :=
              induction (draw + 1) wf
            refine ⟨sampled + 1, after, evicted, purged, ?_⟩
            intro disk dispatcher
            simp [Server.sampleSlots, Server.slotCount, found, early, result]
          · have first := Purged.slot wf found early
            obtain ⟨sampled, after, evicted, purged, result⟩ :=
              induction (draw + 1) first.wf
            refine ⟨sampled + 1, after, slot.key :: evicted,
              first.trans purged, ?_⟩
            intro disk dispatcher
            have evictEq :
                Server.evict (world.onDisk disk) ⟨memory, dispatcher⟩ slot.key =
                ⟨⟨memory.db.erase slot.key, memory.expiry.untrack slot.key,
                  memory.clockReads⟩,
                  dispatcher.put (world.onDisk disk) (delRecord slot.key)⟩ := rfl
            simp [Server.sampleSlots, Server.slotCount, found, early, evictEq,
              result, CommandDispatcher.putAll]

theorem activeRounds_purged (world : World) (sampler : Server.Sampler)
    (now deadline : Int64) (draw round : Nat) {memory : Memory}
    (wf : memory.Wf) :
    ∃ stats after evicted, Purged now.toInt memory after evicted ∧
      stats.expired = evicted.length ∧
      ∀ disk dispatcher, Server.activeRounds (world.onDisk disk) sampler now
          deadline draw round ⟨memory, dispatcher⟩ =
        (stats, ⟨after,
          dispatcher.putAll (world.onDisk disk) (evicted.map delRecord)⟩) := by
  induction size : memory.expiry.table.slots.length using Nat.strongRecOn
    generalizing draw round memory with
  | ind size induction =>
      obtain ⟨sampled, middle, evicted, purged, sampleEq⟩ :=
        sampleSlots_purged world sampler.draws now
          (min Server.kSamplePerRound memory.expiry.table.slots.length) draw wf
      -- The round shortens the vector by the number of keys it took out.
      have shorter : middle.expiry.table.slots.length + evicted.length =
          memory.expiry.table.slots.length := by
        have counted := Server.slotCount_sampleSlots
          (world.onDisk world.disk) sampler.draws now
          (min Server.kSamplePerRound memory.expiry.table.slots.length) draw
          ⟨memory, CommandDispatcher.fresh none⟩
        rw [sampleEq] at counted
        exact counted
      by_cases more : sampled ≠ 0 ∧ ¬ 4 * evicted.length ≤ sampled ∧
          sampler.microsNow (round + 1) < deadline ∧
          middle.expiry.table.slots.length ≠ 0
      · obtain ⟨someSampled, manyExpired, timeLeft, slotsLeft⟩ := more
        obtain ⟨stats, after, later, purgedLater, counted, restEq⟩ :=
          induction middle.expiry.table.slots.length (by omega)
            (draw + sampled) (round + 1) purged.wf rfl
        refine ⟨⟨sampled + stats.sampled, evicted.length + stats.expired,
          1 + stats.rounds⟩, after, evicted ++ later, purged.trans purgedLater,
          by simp [counted], ?_⟩
        intro disk dispatcher
        rw [Server.activeRounds]
        simp only [Server.slotCount, sampleEq, someSampled, manyExpired,
          timeLeft, slotsLeft, ne_eq, not_false_eq_true, and_self, if_true,
          if_false, restEq, List.map_append, CommandDispatcher.putAll_append]
      · refine ⟨⟨sampled, evicted.length, 1⟩, middle, evicted, purged, rfl, ?_⟩
        intro disk dispatcher
        rw [Server.activeRounds]
        simp only [Server.slotCount, sampleEq]
        split
        · rfl
        · rename_i someSampled
          split
          · rfl
          · rename_i manyExpired
            exact if_neg fun goOn => more ⟨someSampled, manyExpired, goOn⟩

/-- A whole cycle: at most one reading of the clock, and every evicted key was
due at it. -/
theorem activeCycle_purged (world : World) (sampler : Server.Sampler)
    (budgetUs : Int64) {memory : Memory} (wf : memory.Wf) :
    ∃ stats after evicted, after.Wf ∧ evicted.Nodup ∧
      memory.clockReads ≤ after.clockReads ∧
      after.view = memory.view.without evicted ∧
      (∀ key ∈ evicted, ∃ item deadline, memory.view key = some item ∧
        item.deadline = some deadline ∧ memory.clockReads < after.clockReads ∧
        deadline ≤ world.ms memory.clockReads) ∧
      ∀ disk dispatcher, Server.activeCycle (world.onDisk disk) sampler budgetUs
          ⟨memory, dispatcher⟩ =
        (stats, ⟨after,
          dispatcher.putAll (world.onDisk disk) (evicted.map delRecord)⟩) := by
  by_cases empty : memory.expiry.table.slots.length = 0
  · refine ⟨⟨0, 0, 0⟩, memory, [], wf, List.nodup_nil, Nat.le_refl _, by simp,
      by simp, ?_⟩
    intro disk dispatcher
    simp [Server.activeCycle, Server.slotCount, empty]
  · have readWf : Memory.Wf { memory with clockReads := memory.clockReads + 1 } :=
      ⟨wf.tracked, wf.nonempty⟩
    obtain ⟨stats, after, evicted, purged, _, result⟩ :=
      activeRounds_purged world sampler (world.wallMs memory.clockReads)
        (sampler.microsNow 0 + budgetUs) 0 0 readWf
    have reads : after.clockReads = memory.clockReads + 1 := purged.clockReads
    refine ⟨stats, after, evicted, purged.wf, purged.nodup, by omega,
      purged.view_eq, ?_, ?_⟩
    · intro key gone
      obtain ⟨item, deadline, present, hasDeadline, reached⟩ :=
        purged.due key gone
      exact ⟨item, deadline, present, hasDeadline, by omega, reached⟩
    · intro disk dispatcher
      simp [Server.activeCycle, Server.slotCount, empty, Memory.readClock, result]

end HermitDb.Core
