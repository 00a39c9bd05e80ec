import HermitDb.Core.CycleSoundness
import HermitDb.Library.Machine

/-!
# The TTL table as a finite map

Whatever calls the expiry manager receives, whatever the clocks say and the
sampler picks, its two containers stay mutually inverse, and it holds the
deadlines of a plain finite map: arming a deadline inserts it, and dropping it
or evicting its key deletes it.
-/

namespace HermitDb.Core

open Library

/-! ## What coherence says of the containers -/

namespace SlotTable

/-- The index holds exactly the keys of the slots, no two slots have the same
key, and every slot is indexed by its position. -/
structure MutuallyInverse (table : SlotTable) : Prop where
  indexed : ∀ key, key ∈ table.index ↔ ∃ slot ∈ table.slots, slot.key = key
  distinct : (table.slots.map Slot.key).Nodup
  position : ∀ (i : Nat) slot, table.slots[i]? = some slot →
    table.index.lookup slot.key = some i

theorem Coherent.mutuallyInverse {table : SlotTable}
    (coherent : table.Coherent) : table.MutuallyInverse := by
  refine ⟨?_, ?_, coherent.index_of_slot⟩
  · intro key
    rw [Finmap.mem_iff]
    constructor
    · rintro ⟨i, indexed⟩
      obtain ⟨atMs, held⟩ := coherent.slot_of_index key i indexed
      exact ⟨⟨key, atMs⟩, List.mem_of_getElem? held, rfl⟩
    · rintro ⟨slot, member, rfl⟩
      obtain ⟨i, held⟩ := List.mem_iff_getElem?.mp member
      exact ⟨i, coherent.index_of_slot i slot held⟩
  · rw [List.nodup_iff_getElem?_ne_getElem?]
    intro i j before inside same
    rw [List.length_map] at inside
    rw [List.getElem?_map, List.getElem?_map,
      List.getElem?_eq_getElem inside,
      List.getElem?_eq_getElem (before.trans inside)] at same
    have first := coherent.index_of_slot i _
      (List.getElem?_eq_getElem (before.trans inside))
    have second := coherent.index_of_slot j _ (List.getElem?_eq_getElem inside)
    rw [Option.some.inj same, second] at first
    exact absurd (Option.some.inj first) (Nat.ne_of_gt before)

end SlotTable

/-! ## Calls and evictions -/

/-- A call of the expiry manager that may change it. -/
inductive ExpiryCall where
  | setExpiry (key : Bytes) (atMs : Int64)
  | persist (key : Bytes)
  | checkAndExpire (key : Bytes)
  | activeCycle (sampler : Server.Sampler) (budgetUs : Int64)

namespace Server

def call (world : World) (server : Server) : ExpiryCall → Server
  | .setExpiry key atMs =>
      { server with memory := { server.memory with
          expiry := server.memory.expiry.setExpiry key atMs } }
  | .persist key =>
      { server with memory := { server.memory with
          expiry := server.memory.expiry.persist key } }
  | .checkAndExpire key => (server.checkAndExpire world key).2
  | .activeCycle sampler budgetUs =>
      (server.activeCycle world sampler budgetUs).2

/-- The call evicts these keys, in this order. -/
def Evicts (world : World) (server : Server) : ExpiryCall → List Bytes → Prop
  | .setExpiry _ _, keys => keys = []
  | .persist _, keys => keys = []
  | .checkAndExpire key, keys =>
      keys = if (server.checkAndExpire world key).1 then [key] else []
  | .activeCycle sampler budgetUs, keys =>
      Reaped world (world.wallMs server.memory.clockReads)
          (server.afterReading world)
          (server.activeCycle world sampler budgetUs).2 keys ∧
        (server.activeCycle world sampler budgetUs).1.expired = keys.length

/-- One call, together with the keys it evicts. -/
def CallStep (world : World) (server : Server) (call : ExpiryCall)
    (evicted : List Bytes) (next : Server) : Prop :=
  next = server.call world call ∧ server.Evicts world call evicted

theorem exists_callStep (world : World) (server : Server)
    (call : ExpiryCall) :
    ∃ evicted, CallStep world server call evicted
      (server.call world call) := by
  cases call with
  | setExpiry key atMs => exact ⟨[], rfl, rfl⟩
  | persist key => exact ⟨[], rfl, rfl⟩
  | checkAndExpire key => exact ⟨_, rfl, rfl⟩
  | activeCycle sampler budgetUs =>
      obtain ⟨keys, reaped, counted, _⟩ :=
        activeCycle_reaped world sampler budgetUs server
      exact ⟨keys, rfl, reaped, counted⟩

end Server

/-! ## The finite map -/

abbrev DeadlineMap : Type :=
  Finmap fun _ : Bytes => Int64

namespace DeadlineMap

/-- What a call asks for.  The two calls that expire keys ask for nothing. -/
def request (deadlines : DeadlineMap) : ExpiryCall → DeadlineMap
  | .setExpiry key atMs => deadlines.insert key atMs
  | .persist key => deadlines.erase key
  | .checkAndExpire _ => deadlines
  | .activeCycle _ _ => deadlines

def delete (deadlines : DeadlineMap) (keys : List Bytes) : DeadlineMap :=
  keys.foldl (fun deadlines key => deadlines.erase key) deadlines

/-- A call and its evictions. -/
def interpret (deadlines : DeadlineMap) (entry : ExpiryCall × List Bytes) :
    DeadlineMap :=
  (deadlines.request entry.1).delete entry.2

theorem lookup_delete (deadlines : DeadlineMap) (keys : List Bytes)
    (key : Bytes) :
    (deadlines.delete keys).lookup key =
      if key ∈ keys then none else deadlines.lookup key :=
  lookup_foldl_remove (fun deadlines key => deadlines.lookup key)
    lookup_erase_eq deadlines keys key

end DeadlineMap

/-! ## The table holds the map -/

namespace Server

/-- `expiry_at` is lookup in the map. -/
def Holds (server : Server) (deadlines : DeadlineMap) : Prop :=
  ∀ key, server.memory.expiry.expiryAt key = deadlines.lookup key

theorem expiryAt_checkAndExpire (world : World) (server : Server)
    (key other : Bytes) :
    (server.checkAndExpire world key).2.memory.expiry.expiryAt other =
      if other ∈ (if (server.checkAndExpire world key).1 then [key] else [])
      then none else server.memory.expiry.expiryAt other := by
  unfold checkAndExpire
  cases server.memory.expiry.expiryAt key with
  | none => rfl
  | some atMs =>
      by_cases early : (server.memory.readClock world).1 < atMs
      · simp only [if_pos early]
        rfl
      · simp only [if_neg early, expiryAt_evict, if_true, List.mem_singleton]
        rfl

/-- One call does to the table what it and its evictions do to the map. -/
theorem CallStep.holds {world : World} {server next : Server}
    {call : ExpiryCall} {evicted : List Bytes} {deadlines : DeadlineMap}
    (step : CallStep world server call evicted next)
    (held : server.Holds deadlines) :
    next.Holds (deadlines.interpret (call, evicted)) := by
  obtain ⟨rfl, evicts⟩ := step
  intro key
  rw [DeadlineMap.interpret, DeadlineMap.lookup_delete]
  cases call with
  | setExpiry armed atMs =>
      cases evicts
      rw [if_neg List.not_mem_nil, DeadlineMap.request,
        lookup_insert_eq, ← held key]
      exact ExpiryManager.expiryAt_setExpiry _ armed key atMs
  | persist dropped =>
      cases evicts
      rw [if_neg List.not_mem_nil, DeadlineMap.request,
        lookup_erase_eq, ← held key]
      exact ExpiryManager.expiryAt_persist _ dropped key
  | checkAndExpire checked =>
      cases evicts
      rw [DeadlineMap.request, ← held key]
      exact expiryAt_checkAndExpire world server checked key
  | activeCycle sampler budgetUs =>
      obtain ⟨reaped, _⟩ := evicts
      rw [DeadlineMap.request, ← held key, call, reaped.evicted,
        expiryAt_evictAll, (server.afterReading_unchanged world).2.1]

/-- After any calls, starting from an empty table, slots and index are mutually
inverse.  The calls evicted some keys, and `expiry_at` is lookup in the finite
map that the calls and these evictions lead to. -/
theorem expiry_finiteMap (world : World) (db : Db) (clockReads : Nat)
    (dispatcher : CommandDispatcher) (calls : List ExpiryCall) :
    let start : Server := ⟨⟨db, .empty, clockReads⟩, dispatcher⟩
    let final := calls.foldl (call world) start
    final.memory.expiry.table.MutuallyInverse ∧
      (∃ evictions, Traces (CallStep world) start calls evictions final) ∧
      ∀ evictions, Traces (CallStep world) start calls evictions final →
        ∀ key, final.memory.expiry.expiryAt key =
          ((calls.zip evictions).foldl DeadlineMap.interpret ∅).lookup key := by
  intro start final
  have empty : start.Holds ∅ := fun _ => rfl
  refine ⟨final.memory.expiry.coherent.mutuallyInverse, ?_, ?_⟩
  · exact exists_traces (exists_callStep world) start calls
  · intro evictions traces
    exact traces.simulates CallStep.holds empty

end Server

end HermitDb.Core
