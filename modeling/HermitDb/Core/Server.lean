import HermitDb.Core.Db
import HermitDb.Core.Expiry
import HermitDb.Persist.Wal

/-!
# The server around the keyspace

The keyspace, the TTL table and the log, wired together by the evict hook as at
start-up.  Everything outside the process is an oracle: a `World` fixes every
reading of the wall clock and every outcome of the file system, and a `Sampler`
the random picks and the steady clock of one background expiry cycle.
-/

namespace HermitDb.Core

open Persist Protocol

/-- The n-th reading of the wall clock, the file system, and the target. -/
structure World where
  wallMs : Nat → Int64
  disk : Disk
  plainChar : PlainChar

/-- The same clock over another file system. -/
def World.onDisk (world : World) (disk : Disk) : World :=
  { world with disk := disk }

@[simp] theorem World.onDisk_wallMs (world : World) (disk : Disk) :
    (world.onDisk disk).wallMs = world.wallMs := rfl

@[simp] theorem World.onDisk_plainChar (world : World) (disk : Disk) :
    (world.onDisk disk).plainChar = world.plainChar := rfl

/-- The same surroundings, at one moment. -/
def World.stopped (world : World) (now : Int64) : World :=
  { world with wallMs := fun _ => now }

/-- A world whose disk takes everything at once. -/
def World.ideal (wallMs : Nat → Int64) : World :=
  ⟨wallMs, .ideal, .signed⟩

def World.frozen (now : Int64) : World :=
  World.ideal fun _ => now

/-- The state the handlers work on, with the number of clock readings taken. -/
structure Memory where
  db : Db
  expiry : ExpiryManager
  clockReads : Nat

/-- The dispatcher's own fields.  `wal` is unset until recovery has finished;
the evict hook and the dispatcher are given the log at the same moment. -/
structure CommandDispatcher where
  wal : Option Wal
  shutdown : Bool
  persistenceFailed : Bool

structure Server where
  memory : Memory
  dispatcher : CommandDispatcher

namespace Memory

def fresh : Memory :=
  ⟨Db.empty, ExpiryManager.empty, 0⟩

/-- One call of `clock.wall_ms()`. -/
def readClock (world : World) (memory : Memory) : Int64 × Memory :=
  (world.wallMs memory.clockReads,
    { memory with clockReads := memory.clockReads + 1 })

end Memory

namespace CommandDispatcher

def fresh (wal : Option Wal) : CommandDispatcher :=
  ⟨wal, false, false⟩

def reportPersistenceFailure (dispatcher : CommandDispatcher) :
    CommandDispatcher :=
  { dispatcher with persistenceFailed := true, shutdown := true }

/-- The guarded append that `log_mutation` and the evict hook share. -/
def put (world : World) (dispatcher : CommandDispatcher) (record : Command) :
    CommandDispatcher :=
  match dispatcher.wal with
  | none => dispatcher
  | some wal =>
      if dispatcher.persistenceFailed then dispatcher
      else
        let (status, wal) := wal.append world.disk record
        if status ≠ .ok then
          reportPersistenceFailure { dispatcher with wal := some wal }
        else { dispatcher with wal := some wal }

def putAll (world : World) (dispatcher : CommandDispatcher)
    (records : List Command) : CommandDispatcher :=
  records.foldl (put world) dispatcher

end CommandDispatcher

/-- The record an eviction leaves in the log. -/
def delRecord (key : Bytes) : Command :=
  [ascii "DEL", key]

namespace Server

def fresh (wal : Option Wal) : Server :=
  ⟨Memory.fresh, CommandDispatcher.fresh wal⟩

def evictHook (world : World) (server : Server) (key : Bytes) : Server :=
  { memory := { server.memory with db := (server.memory.db.del key).2 }
    dispatcher := server.dispatcher.put world (delRecord key) }

def untrack (server : Server) (key : Bytes) : Server :=
  { server with memory := { server.memory with
      expiry := server.memory.expiry.untrack key } }

/-- Untrack before evicting, so that the hook never sees a half-dead key. -/
def evict (world : World) (server : Server) (key : Bytes) : Server :=
  evictHook world (server.untrack key) key

/-- Lazy expiration.  A key without a deadline costs no clock reading. -/
def checkAndExpire (world : World) (server : Server) (key : Bytes) :
    Bool × Server :=
  match server.memory.expiry.expiryAt key with
  | none => (false, server)
  | some atMs =>
      let (now, memory) := server.memory.readClock world
      if now < atMs then (false, { server with memory := memory })
      else (true, evict world { server with memory := memory } key)

def touch (world : World) (server : Server) (key : Bytes) : Server :=
  (server.checkAndExpire world key).2

/-! ## Active expiration -/

/-- The random picks and the microsecond clock of one cycle. -/
structure Sampler where
  draws : Nat → Nat
  microsNow : Nat → Int64

structure ActiveCycleStats where
  sampled : Nat
  expired : Nat
  rounds : Nat
  deriving DecidableEq

def kSamplePerRound : Nat :=
  20

def slotCount (server : Server) : Nat :=
  server.memory.expiry.table.slots.length

/-- How many slots one round looked at and how many of them had expired. -/
structure Sample where
  sampled : Nat
  expired : Nat
  server : Server

/-- The sampling loop of one round, from the `draw`-th pick on. -/
def sampleSlots (world : World) (draws : Nat → Nat) (now : Int64) :
    Nat → Nat → Server → Sample
  | 0, _, server => ⟨0, 0, server⟩
  | left + 1, draw, server =>
      -- An empty vector has no slot at any position and ends the loop.
      match server.memory.expiry.table.slots[draws draw % server.slotCount]? with
      | none => ⟨0, 0, server⟩
      | some slot =>
          if now < slot.atMs then
            let rest := sampleSlots world draws now left (draw + 1) server
            { rest with sampled := rest.sampled + 1 }
          else
            let rest := sampleSlots world draws now left (draw + 1)
              (server.evict world slot.key)
            { rest with sampled := rest.sampled + 1, expired := rest.expired + 1 }

/-- Every slot found expired is gone after the round. -/
theorem slotCount_sampleSlots (world : World) (draws : Nat → Nat) (now : Int64)
    (left draw : Nat) (server : Server) :
    (sampleSlots world draws now left draw server).server.slotCount +
        (sampleSlots world draws now left draw server).expired =
      server.slotCount := by
  induction left generalizing draw server with
  | zero => rfl
  | succ left induction =>
      unfold sampleSlots
      cases found : server.memory.expiry.table.slots[
          draws draw % server.slotCount]? with
      | none => rfl
      | some slot =>
          simp only
          split
          · exact induction (draw + 1) server
          · have shorter :
                (server.evict world slot.key).slotCount + 1 = server.slotCount :=
              server.memory.expiry.length_untrack
                (server.memory.expiry.expiryAt_of_slot found)
            have rest := induction (draw + 1) (server.evict world slot.key)
            simp only
            omega

/-- Rounds of sampling for as long as more than a quarter of the sample had
expired, time is left and slots are left. -/
def activeRounds (world : World) (sampler : Sampler) (now deadline : Int64)
    (draw round : Nat) (server : Server) : ActiveCycleStats × Server :=
  let roundsTarget := min kSamplePerRound server.slotCount
  let sample := sampleSlots world sampler.draws now roundsTarget draw server
  let stats : ActiveCycleStats := ⟨sample.sampled, sample.expired, 1⟩
  if sample.sampled = 0 then (stats, sample.server)
  else if 4 * sample.expired ≤ sample.sampled then (stats, sample.server)
  else if sampler.microsNow (round + 1) < deadline ∧
      sample.server.slotCount ≠ 0 then
    let rest := activeRounds world sampler now deadline
      (draw + sample.sampled) (round + 1) sample.server
    (⟨stats.sampled + rest.1.sampled, stats.expired + rest.1.expired,
      stats.rounds + rest.1.rounds⟩, rest.2)
  else (stats, sample.server)
  termination_by server.slotCount
  decreasing_by
    have shorter : sample.server.slotCount + sample.expired = server.slotCount :=
      slotCount_sampleSlots world sampler.draws now roundsTarget draw server
    change sample.server.slotCount < server.slotCount
    omega

def activeCycle (world : World) (sampler : Sampler) (budgetUs : Int64)
    (server : Server) : ActiveCycleStats × Server :=
  if server.slotCount = 0 then (⟨0, 0, 0⟩, server)
  else
    let deadline := sampler.microsNow 0 + budgetUs
    let (now, memory) := server.memory.readClock world
    activeRounds world sampler now deadline 0 0 { server with memory := memory }

/-- The second half of the background tick. -/
def tickFsync (world : World) (server : Server) : Server :=
  match server.dispatcher.wal with
  | none => server
  | some wal =>
      if server.dispatcher.persistenceFailed then server
      else
        let (now, memory) := server.memory.readClock world
        let (status, wal) := wal.tickFsync world.disk now
        let dispatcher := { server.dispatcher with wal := some wal }
        { memory := memory
          dispatcher :=
            if status ≠ .ok then dispatcher.reportPersistenceFailure
            else dispatcher }

end Server

end HermitDb.Core
