import HermitDb.Core.Run

/-!
# Soundness of the active expiry cycle

Nothing is assumed of the two tables here, of the picks or of the clocks.  A
cycle evicts some keys one after another, all of them due at its one reading of
the wall clock, and does nothing else; since a round is repeated only after it
removed something, there are no more rounds than deadlines, and one.
-/

namespace HermitDb.Core

open Persist Protocol

namespace Server

/-- Evictions one after another: each key is untracked and then given to the
hook. -/
def evictAll (world : World) (server : Server) (keys : List Bytes) : Server :=
  keys.foldl (evict world) server

theorem expiryAt_evict (world : World) (server : Server) (key other : Bytes) :
    (server.evict world key).memory.expiry.expiryAt other =
      if other = key then none else server.memory.expiry.expiryAt other :=
  ExpiryManager.expiryAt_untrack _ _ _

theorem expiryAt_evictAll (world : World) (server : Server) (keys : List Bytes)
    (key : Bytes) :
    (server.evictAll world keys).memory.expiry.expiryAt key =
      if key ∈ keys then none else server.memory.expiry.expiryAt key :=
  Library.lookup_foldl_remove (·.memory.expiry.expiryAt)
    (expiryAt_evict world) server keys key

theorem find_evict (world : World) (server : Server) (key other : Bytes) :
    (server.evict world key).memory.db.find other =
      if other = key then none else server.memory.db.find other :=
  Db.find_erase _ _ _

theorem find_evictAll (world : World) (server : Server) (keys : List Bytes)
    (key : Bytes) :
    (server.evictAll world keys).memory.db.find key =
      if key ∈ keys then none else server.memory.db.find key :=
  Library.lookup_foldl_remove (·.memory.db.find) (find_evict world) server keys
    key

/-- The hook puts one record in the log for each key, in their order. -/
theorem dispatcher_evictAll (world : World) (server : Server)
    (keys : List Bytes) :
    (server.evictAll world keys).dispatcher =
      server.dispatcher.putAll world (keys.map delRecord) := by
  induction keys generalizing server with
  | nil => rfl
  | cons key keys induction => exact induction (server.evict world key)

/-- The keys were evicted in this order; each had a deadline that was due at
`now`, and none was evicted twice. -/
structure Reaped (world : World) (now : Int64) (before after : Server)
    (keys : List Bytes) : Prop where
  evicted : after = before.evictAll world keys
  nodup : keys.Nodup
  due : ∀ key ∈ keys, ∃ atMs,
    before.memory.expiry.expiryAt key = some atMs ∧ atMs ≤ now

namespace Reaped

variable {world : World} {now : Int64}

theorem refl (world : World) (now : Int64) (server : Server) :
    Reaped world now server server [] :=
  ⟨rfl, List.nodup_nil, List.forall_mem_nil _⟩

theorem trans {before middle after : Server} {first second : List Bytes}
    (earlier : Reaped world now before middle first)
    (later : Reaped world now middle after second) :
    Reaped world now before after (first ++ second) := by
  have kept : ∀ key ∈ second, ∃ atMs, key ∉ first ∧
      before.memory.expiry.expiryAt key = some atMs ∧ atMs ≤ now := by
    intro key member
    obtain ⟨atMs, armed, reached⟩ := later.due key member
    rw [earlier.evicted, expiryAt_evictAll] at armed
    split at armed
    · cases armed
    · rename_i fresh
      exact ⟨atMs, fresh, armed, reached⟩
  refine ⟨?_, ?_, ?_⟩
  · rw [later.evicted, earlier.evicted, evictAll, evictAll, evictAll,
      List.foldl_append]
  · refine List.nodup_append.mpr ⟨earlier.nodup, later.nodup, ?_⟩
    rintro key inFirst other inSecond rfl
    obtain ⟨_, fresh, _⟩ := kept key inSecond
    exact fresh inFirst
  · intro key member
    rcases List.mem_append.mp member with inFirst | inSecond
    · exact earlier.due key inFirst
    · obtain ⟨atMs, _, armed, reached⟩ := kept key inSecond
      exact ⟨atMs, armed, reached⟩

/-- One slot found due. -/
theorem slot {server : Server} {position : Nat} {slot : Slot}
    (found : server.memory.expiry.table.slots[position]? = some slot)
    (reached : ¬ now < slot.atMs) :
    Reaped world now server (server.evict world slot.key) [slot.key] := by
  refine ⟨rfl, List.nodup_singleton _, ?_⟩
  intro key member
  rw [List.mem_singleton.mp member]
  exact ⟨slot.atMs, server.memory.expiry.expiryAt_of_slot found,
    Int64.not_lt.mp reached⟩

end Reaped

theorem sampleSlots_reaped (world : World) (draws : Nat → Nat) (now : Int64)
    (left draw : Nat) (server : Server) :
    ∃ keys, Reaped world now server
        (sampleSlots world draws now left draw server).server keys ∧
      (sampleSlots world draws now left draw server).expired =
        keys.length := by
  induction left generalizing draw server with
  | zero => exact ⟨[], .refl world now server, rfl⟩
  | succ left induction =>
      unfold sampleSlots
      cases found : server.memory.expiry.table.slots[
          draws draw % server.slotCount]? with
      | none => exact ⟨[], .refl world now server, rfl⟩
      | some slot =>
          by_cases early : now < slot.atMs
          · simp only [if_pos early]
            exact induction (draw + 1) server
          · obtain ⟨keys, reaped, counted⟩ :=
              induction (draw + 1) (server.evict world slot.key)
            simp only [if_neg early]
            exact ⟨slot.key :: keys, (Reaped.slot found early).trans reaped,
              congrArg (· + 1) counted⟩

/-- The rounds of a cycle, whatever the two clocks say. -/
theorem activeRounds_reaped (world : World) (sampler : Sampler)
    (now deadline : Int64) (draw round : Nat) (server : Server) :
    ∃ keys, Reaped world now server
        (activeRounds world sampler now deadline draw round server).2 keys ∧
      (activeRounds world sampler now deadline draw round server).1.expired =
        keys.length ∧
      (activeRounds world sampler now deadline draw round server).1.rounds ≤
        server.slotCount + 1 := by
  induction size : server.slotCount using Nat.strongRecOn
    generalizing draw round server with
  | ind size induction =>
      obtain ⟨keys, reaped, counted⟩ := sampleSlots_reaped world sampler.draws
        now (min kSamplePerRound server.slotCount) draw server
      have shorter := slotCount_sampleSlots world sampler.draws now
        (min kSamplePerRound server.slotCount) draw server
      rw [activeRounds]
      dsimp only
      generalize sampleSlots world sampler.draws now
        (min kSamplePerRound server.slotCount) draw server = sample
        at reaped counted shorter ⊢
      by_cases more : sample.sampled ≠ 0 ∧
          ¬ 4 * sample.expired ≤ sample.sampled ∧
          sampler.microsNow (round + 1) < deadline ∧
          sample.server.slotCount ≠ 0
      · obtain ⟨someSampled, manyExpired, goesOn⟩ := more
        -- A round is repeated only if it removed something.
        obtain ⟨later, reapedLater, countedLater, fewRounds⟩ :=
          induction sample.server.slotCount (by omega)
            (draw + sample.sampled) (round + 1) sample.server rfl
        rw [if_neg someSampled, if_neg manyExpired, if_pos goesOn]
        refine ⟨keys ++ later, reaped.trans reapedLater, ?_, ?_⟩
        · rw [List.length_append, counted, countedLater]
        · dsimp only
          omega
      · refine ⟨keys, ?_⟩
        split
        · exact ⟨reaped, counted, Nat.le_add_left _ _⟩
        · rename_i someSampled
          split
          · exact ⟨reaped, counted, Nat.le_add_left _ _⟩
          · rename_i manyExpired
            rw [if_neg fun goesOn => more ⟨someSampled, manyExpired, goesOn⟩]
            exact ⟨reaped, counted, Nat.le_add_left _ _⟩

/-- The server of a cycle after its reading of the clock, if it takes one. -/
def afterReading (world : World) (server : Server) : Server :=
  if server.slotCount = 0 then server
  else { server with memory := (server.memory.readClock world).2 }

/-- A whole cycle. -/
theorem activeCycle_reaped (world : World) (sampler : Sampler)
    (budgetUs : Int64) (server : Server) :
    ∃ keys, Reaped world (world.wallMs server.memory.clockReads)
        (server.afterReading world)
        (server.activeCycle world sampler budgetUs).2 keys ∧
      (server.activeCycle world sampler budgetUs).1.expired = keys.length ∧
      (server.activeCycle world sampler budgetUs).1.rounds ≤
        server.slotCount + 1 := by
  by_cases empty : server.slotCount = 0
  · have idle : server.activeCycle world sampler budgetUs =
        (⟨0, 0, 0⟩, server) := if_pos empty
    rw [idle, afterReading, if_pos empty]
    exact ⟨[], .refl world _ server, rfl, Nat.zero_le _⟩
  · have cycled : server.activeCycle world sampler budgetUs =
        activeRounds world sampler (world.wallMs server.memory.clockReads)
          (sampler.microsNow 0 + budgetUs) 0 0
          { server with memory := (server.memory.readClock world).2 } :=
      if_neg empty
    rw [cycled, afterReading, if_neg empty]
    exact activeRounds_reaped world sampler
      (world.wallMs server.memory.clockReads)
      (sampler.microsNow 0 + budgetUs) 0 0
      { server with memory := (server.memory.readClock world).2 }

/-- Reading the clock changes neither table nor the log. -/
theorem afterReading_unchanged (world : World) (server : Server) :
    (server.afterReading world).memory.db = server.memory.db ∧
      (server.afterReading world).memory.expiry = server.memory.expiry ∧
      (server.afterReading world).dispatcher = server.dispatcher := by
  unfold afterReading
  split <;> exact ⟨rfl, rfl, rfl⟩

/-- A cycle makes at most one round more than there are deadlines.  It evicts
keys that are due at its reading of the clock, each exactly once: it untracks
the key and calls the hook, and does nothing else to the server.  It reports
how many they were.  They are gone from both tables, all other keys stay as
they are, and as long as the disk works the log has one `DEL` more for each. -/
theorem activeCycle_sound (world : World) (sampler : Sampler)
    (budgetUs : Int64) (server : Server) :
    (server.activeCycle world sampler budgetUs).1.rounds ≤
        server.slotCount + 1 ∧
      ∃ keys : List Bytes, keys.Nodup ∧
        (∀ key ∈ keys, ∃ atMs,
          server.memory.expiry.expiryAt key = some atMs ∧
            atMs ≤ world.wallMs server.memory.clockReads) ∧
        (server.activeCycle world sampler budgetUs).2 =
          keys.foldl
            (fun server key => evictHook world (server.untrack key) key)
            (server.afterReading world) ∧
        (server.activeCycle world sampler budgetUs).1.expired = keys.length ∧
        (∀ key, (server.activeCycle world sampler
            budgetUs).2.memory.expiry.expiryAt key =
          if key ∈ keys then none else server.memory.expiry.expiryAt key) ∧
        (∀ key, (server.activeCycle world sampler
            budgetUs).2.memory.db.find key =
          if key ∈ keys then none else server.memory.db.find key) ∧
        ∀ records, server.dispatcher.Holds records → world.disk.Flawless →
          (server.activeCycle world sampler budgetUs).2.dispatcher.Holds
            (records ++ keys.map fun key => [ascii "DEL", key]) := by
  obtain ⟨keys, reaped, counted, fewRounds⟩ :=
    activeCycle_reaped world sampler budgetUs server
  obtain ⟨sameDb, sameExpiry, sameDispatcher⟩ :=
    server.afterReading_unchanged world
  refine ⟨fewRounds, keys, reaped.nodup, ?_, reaped.evicted, counted, ?_, ?_,
    ?_⟩
  · intro key member
    obtain ⟨atMs, armed, reached⟩ := reaped.due key member
    rw [sameExpiry] at armed
    exact ⟨atMs, armed, reached⟩
  · intro key
    rw [reaped.evicted, expiryAt_evictAll, sameExpiry]
  · intro key
    rw [reaped.evicted, find_evictAll, sameDb]
  · intro records holds flawless
    rw [reaped.evicted, dispatcher_evictAll, sameDispatcher]
    exact holds.putAll flawless _

end Server

end HermitDb.Core
