import HermitDb.Core.CycleSoundness

/-!
# What an active expiry cycle achieves

A round is repeated only if more than a quarter of its sample had expired, so
all rounds but the last one pay for themselves.  A cycle that has time left
stops only when there is nothing left to sample or too little was found; if
everything has expired it takes everything out.
-/

namespace HermitDb.Core

open Protocol

namespace Server

/-- Every deadline has been reached. -/
def AllDue (now : Int64) (server : Server) : Prop :=
  ∀ key atMs, server.memory.expiry.expiryAt key = some atMs → atMs ≤ now

theorem AllDue.evict {now : Int64} {server : Server} (due : server.AllDue now)
    (world : World) (key : Bytes) : (server.evict world key).AllDue now := by
  intro other atMs armed
  rw [expiryAt_evict] at armed
  split at armed
  · cases armed
  · exact due other atMs armed

/-! ## One round -/

/-- One round from these slots, with as many picks. -/
structure Sampled (now : Int64) (server : Server) (picks : Nat)
    (sample : Sample) : Prop where
  sampled : sample.sampled = picks
  expired : sample.expired ≤ picks
  left : sample.server.slotCount + sample.expired = server.slotCount
  allDue : server.AllDue now →
    sample.expired = picks ∧ sample.server.AllDue now

theorem sampleSlots_sampled (world : World) (draws : Nat → Nat) (now : Int64)
    {picks : Nat} (draw : Nat) {server : Server}
    (enough : picks ≤ server.slotCount) :
    Sampled now server picks (sampleSlots world draws now picks draw server) := by
  induction picks generalizing draw server with
  | zero => exact ⟨rfl, Nat.le_refl 0, rfl, fun due => ⟨rfl, due⟩⟩
  | succ picks induction =>
      have inRange : draws draw % server.slotCount < server.slotCount :=
        Nat.mod_lt _ (by omega)
      obtain ⟨slot, found⟩ : ∃ slot, server.memory.expiry.table.slots[
          draws draw % server.slotCount]? = some slot :=
        ⟨_, List.getElem?_eq_getElem inRange⟩
      have armed := server.memory.expiry.expiryAt_of_slot found
      unfold sampleSlots
      rw [found]
      dsimp only
      split
      · rename_i early
        have rest := induction (draw + 1) (Nat.le_of_succ_le enough)
        refine ⟨congrArg (· + 1) rest.sampled, Nat.le_succ_of_le rest.expired,
          rest.left, ?_⟩
        intro due
        exact absurd early (Int64.not_lt.mpr (due _ _ armed))
      · have shorter :
            (server.evict world slot.key).slotCount + 1 = server.slotCount :=
          server.memory.expiry.length_untrack armed
        have rest := @induction (draw + 1) (server.evict world slot.key)
          (by omega)
        refine ⟨congrArg (· + 1) rest.sampled,
          Nat.succ_le_succ rest.expired, ?_, ?_⟩
        · have left := rest.left
          dsimp only
          omega
        · intro due
          obtain ⟨all, stillDue⟩ := rest.allDue (due.evict world slot.key)
          exact ⟨congrArg (· + 1) all, stillDue⟩

/-- A whole round of a cycle, from the `draw`-th pick on. -/
def fullRound (world : World) (draws : Nat → Nat) (now : Int64) (draw : Nat)
    (server : Server) : Sample :=
  sampleSlots world draws now (min kSamplePerRound server.slotCount) draw server

theorem fullRound_sampled (world : World) (draws : Nat → Nat) (now : Int64)
    (draw : Nat) (server : Server) :
    Sampled now server (min kSamplePerRound server.slotCount)
      (fullRound world draws now draw server) :=
  sampleSlots_sampled world draws now draw (Nat.min_le_right _ _)

/-! ## All rounds -/

/-- Rounds that pay for themselves, and a last one: it began with `before` and
took its picks from `lastDraw` on, after the keys of the other rounds had gone. -/
structure Achieved (world : World) (sampler : Sampler) (now deadline : Int64)
    (draw round : Nat) (start : Server) (stats : ActiveCycleStats)
    (final before : Server) (lastDraw : Nat) (last : Sample) : Prop where
  isLast : last = fullRound world sampler.draws now lastDraw before
  final_eq : final = last.server
  reaped : ∃ keys, Reaped world now start before keys ∧
    stats.expired = keys.length + last.expired
  drawn : draw + stats.sampled = lastDraw + last.sampled
  /-- The rounds before the last one. -/
  paid : stats.sampled + 4 * last.expired ≤ 4 * stats.expired + last.sampled
  ended : final.slotCount = 0 ∨
    deadline ≤ sampler.microsNow (round + stats.rounds) ∨
    4 * last.expired ≤ last.sampled
  left : final.slotCount + stats.expired = start.slotCount
  allDue : start.AllDue now → last.expired = last.sampled

theorem activeRounds_achieved (world : World) (sampler : Sampler)
    (now deadline : Int64) (draw round : Nat) (server : Server) :
    ∃ before lastDraw last, Achieved world sampler now deadline draw round server
      (activeRounds world sampler now deadline draw round server).1
      (activeRounds world sampler now deadline draw round server).2
      before lastDraw last := by
  induction size : server.slotCount using Nat.strongRecOn
    generalizing draw round server with
  | ind size induction =>
      have picked := fullRound_sampled world sampler.draws now draw server
      obtain ⟨keys, reaped, counted⟩ := sampleSlots_reaped world sampler.draws
        now (min kSamplePerRound server.slotCount) draw server
      rw [activeRounds]
      dsimp only
      have isLast : sampleSlots world sampler.draws now
          (min kSamplePerRound server.slotCount) draw server =
          fullRound world sampler.draws now draw server := rfl
      rw [isLast] at reaped counted ⊢
      clear isLast
      generalize isRound : fullRound world sampler.draws now draw server = sample
        at picked reaped counted ⊢
      obtain ⟨isSampled, someExpired, left, allDue⟩ := picked
      by_cases more : sample.sampled ≠ 0 ∧
          ¬ 4 * sample.expired ≤ sample.sampled ∧
          sampler.microsNow (round + 1) < deadline ∧
          sample.server.slotCount ≠ 0
      · obtain ⟨someSampled, manyExpired, goesOn⟩ := more
        obtain ⟨before, lastDraw, last, rest⟩ :=
          induction sample.server.slotCount (by omega)
            (draw + sample.sampled) (round + 1) sample.server rfl
        obtain ⟨later, reapedLater, countedLater⟩ := rest.reaped
        rw [if_neg someSampled, if_neg manyExpired, if_pos goesOn]
        refine ⟨before, lastDraw, last, rest.isLast, rest.final_eq,
          ⟨keys ++ later, reaped.trans reapedLater, ?_⟩, ?_, ?_, ?_, ?_, ?_⟩
        · rw [List.length_append, Nat.add_assoc, ← countedLater, ← counted]
        · rw [← rest.drawn, Nat.add_assoc]
        · have paid := rest.paid
          dsimp only
          omega
        · have ended := rest.ended
          rw [Nat.add_assoc] at ended
          exact ended
        · have restLeft := rest.left
          dsimp only
          omega
        · intro due
          exact rest.allDue (allDue due).2
      · have ended : sample.server.slotCount = 0 ∨
            deadline ≤ sampler.microsNow (round + 1) ∨
            4 * sample.expired ≤ sample.sampled := by
          by_cases none : sample.sampled = 0
          · have empty : server.slotCount = 0 := by
              rw [isSampled] at none
              unfold kSamplePerRound at none
              omega
            exact .inl (by omega)
          · by_cases few : 4 * sample.expired ≤ sample.sampled
            · exact .inr (.inr few)
            · by_cases empty : sample.server.slotCount = 0
              · exact .inl empty
              · refine .inr (.inl (Int64.not_lt.mp fun timeLeft => ?_))
                exact more ⟨none, few, timeLeft, empty⟩
        have single : Achieved world sampler now deadline draw round server
            ⟨sample.sampled, sample.expired, 1⟩ sample.server server draw
            sample :=
          ⟨isRound.symm, rfl, ⟨[], .refl world now server, (Nat.zero_add _).symm⟩,
            rfl, Nat.le_of_eq (Nat.add_comm _ _), ended, left,
            fun due => (allDue due).1.trans isSampled.symm⟩
        refine ⟨server, draw, sample, ?_⟩
        split
        · exact single
        · rename_i someSampled
          split
          · exact single
          · rename_i manyExpired
            rw [if_neg fun goesOn => more ⟨someSampled, manyExpired, goesOn⟩]
            exact single

/-- Background expiry gets somewhere.  Whatever is picked and however the clocks
run, a cycle looks at no more slots than four for each key it evicts and one
round more.  If it stops with deadlines left before its budget is used up, then
at most a quarter of its last round had expired: the round that began when all
keys but its own had gone, made the last picks of the cycle and was a full one.
If every deadline has been reached and the budget lasts, every one of them is
evicted. -/
theorem activeCycle_productive (world : World) (sampler : Sampler)
    (budgetUs : Int64) (server : Server) :
    let now := world.wallMs server.memory.clockReads
    let stats := (server.activeCycle world sampler budgetUs).1
    let final := (server.activeCycle world sampler budgetUs).2
    let inTime := sampler.microsNow stats.rounds < sampler.microsNow 0 + budgetUs
    stats.sampled ≤ 4 * stats.expired + kSamplePerRound ∧
    (inTime → final.slotCount ≠ 0 → ∃ before draw keys,
      let last := sampleSlots world sampler.draws now
        (min kSamplePerRound before.slotCount) draw before
      Reaped world now (server.afterReading world) before keys ∧
      stats.expired = keys.length + last.expired ∧
      stats.sampled = draw + last.sampled ∧ final = last.server ∧
      last.sampled = min kSamplePerRound before.slotCount ∧
      4 * last.expired ≤ last.sampled) ∧
    (inTime → server.AllDue now →
      final.slotCount = 0 ∧ stats.expired = server.slotCount) := by
  intro now stats final inTime
  by_cases empty : server.slotCount = 0
  · have idle : server.activeCycle world sampler budgetUs =
        (⟨0, 0, 0⟩, server) := if_pos empty
    have isStats : stats = ⟨0, 0, 0⟩ := congrArg Prod.fst idle
    have isFinal : final = server := congrArg Prod.snd idle
    rw [isStats, isFinal]
    exact ⟨Nat.zero_le _, fun _ slotsLeft => absurd empty slotsLeft,
      fun _ _ => ⟨empty, empty.symm⟩⟩
  · have reading : server.afterReading world =
        { server with memory := (server.memory.readClock world).2 } :=
      if_neg empty
    have cycled : server.activeCycle world sampler budgetUs =
        activeRounds world sampler now (sampler.microsNow 0 + budgetUs) 0 0
          (server.afterReading world) := by
      rw [reading]
      exact if_neg empty
    obtain ⟨before, draw, last, achieved⟩ := activeRounds_achieved world sampler
      now (sampler.microsNow 0 + budgetUs) 0 0 (server.afterReading world)
    rw [← cycled] at achieved
    change Achieved world sampler now (sampler.microsNow 0 + budgetUs) 0 0
      (server.afterReading world) stats final before draw last at achieved
    have full := fullRound_sampled world sampler.draws now draw before
    rw [← achieved.isLast] at full
    have ended : inTime → final.slotCount = 0 ∨
        4 * last.expired ≤ last.sampled := by
      intro timeLeft
      have reasons := achieved.ended
      rw [Nat.zero_add] at reasons
      rcases reasons with done | late | few
      · exact .inl done
      · exact absurd timeLeft (Int64.not_lt.mpr late)
      · exact .inr few
    obtain ⟨keys, reaped, counted⟩ := achieved.reaped
    refine ⟨?_, ?_, ?_⟩
    · have paid := achieved.paid
      have short := full.sampled
      omega
    · intro timeLeft slotsLeft
      have few := (ended timeLeft).resolve_left slotsLeft
      have isLast := achieved.isLast
      have isFinal := achieved.final_eq
      have drawn := achieved.drawn
      have sampled := full.sampled
      rw [Nat.zero_add] at drawn
      subst isLast
      exact ⟨before, draw, keys, reaped, counted, drawn, isFinal, sampled, few⟩
    · intro timeLeft due
      have startDue : (server.afterReading world).AllDue now := by
        rw [reading]
        exact due
      have sameCount : (server.afterReading world).slotCount =
          server.slotCount := by
        rw [reading]
        rfl
      have all := achieved.allDue startDue
      have left := achieved.left
      have done : final.slotCount = 0 := by
        rcases ended timeLeft with done | few
        · exact done
        · -- Then the last round found nothing, for want of slots.
          have sampled := full.sampled
          have rest := full.left
          rw [achieved.final_eq]
          unfold kSamplePerRound at sampled
          omega
      exact ⟨done, by omega⟩

end Server

end HermitDb.Core
