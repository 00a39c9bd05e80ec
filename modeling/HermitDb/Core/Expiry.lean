import HermitDb.Bytes
import HermitDb.Library.FiniteMap

/-!
# The TTL table

Deadlines live in a dense vector of slots, so that a random index is a random
key, with a key-to-slot index beside it.  Removal moves the last slot into the
hole.  The two stay mutually inverse; `ExpiryManager` carries that fact, and
under it the table is a finite map from keys to deadlines.
-/

namespace HermitDb.Core

structure Slot where
  key : Bytes
  atMs : Int64
  deriving DecidableEq

/-- The two containers of the expiry manager. -/
structure SlotTable where
  slots : List Slot
  index : Finmap fun _ : Bytes => Nat

namespace SlotTable

def empty : SlotTable :=
  ⟨[], ∅⟩

/-- Drop a key's bookkeeping by swapping its slot with the last one.  Returns
false if it had none. -/
def untrack (table : SlotTable) (key : Bytes) : Bool × SlotTable :=
  match table.index.lookup key with
  | none => (false, table)
  | some slot =>
      let last := table.slots.length - 1
      let swapped : SlotTable :=
        if slot ≠ last then
          match table.slots[last]? with
          | some moved =>
              { slots := table.slots.set slot moved
                index := table.index.insert moved.key slot }
          | none => table
        else table
      (true,
        { slots := swapped.slots.dropLast
          index := swapped.index.erase key })

/-- Arm a deadline, or re-arm it in place. -/
def setExpiry (table : SlotTable) (key : Bytes) (atMs : Int64) : SlotTable :=
  match table.index.lookup key with
  | some slot =>
      { table with
        slots := table.slots.modify slot fun held => { held with atMs := atMs } }
  | none =>
      { slots := table.slots ++ [⟨key, atMs⟩]
        index := table.index.insert key table.slots.length }

def persist (table : SlotTable) (key : Bytes) : SlotTable :=
  (table.untrack key).2

def expiryAt (table : SlotTable) (key : Bytes) : Option Int64 :=
  match table.index.lookup key with
  | none => none
  | some slot => table.slots[slot]?.map Slot.atMs

/-- Slots and index are mutually inverse. -/
structure Coherent (table : SlotTable) : Prop where
  slot_of_index : ∀ key slot, table.index.lookup key = some slot →
    ∃ atMs, table.slots[slot]? = some ⟨key, atMs⟩
  index_of_slot : ∀ (slot : Nat) held, table.slots[slot]? = some held →
    table.index.lookup held.key = some slot

theorem empty_coherent : empty.Coherent := by
  constructor
  · intro key slot found
    simp [empty] at found
  · intro slot held found
    simp [empty] at found

/-- Two keys do not share a slot. -/
theorem Coherent.slot_ne {table : SlotTable} (coherent : table.Coherent)
    {key other : Bytes} {slot position : Nat}
    (found : table.index.lookup key = some slot)
    (lookup : table.index.lookup other = some position)
    (different : other ≠ key) : position ≠ slot := by
  rintro rfl
  obtain ⟨atMs, held⟩ := coherent.slot_of_index _ _ found
  obtain ⟨otherAt, otherHeld⟩ := coherent.slot_of_index _ _ lookup
  rw [held] at otherHeld
  cases otherHeld
  exact different rfl

/-- What removal leaves of a tracked key's table.  `moved` is the last slot; it
takes the place of the removed one, which may be the last slot itself. -/
structure Removal (table : SlotTable) (key : Bytes) (slot : Nat) (moved : Slot) :
    Prop where
  inRange : slot < table.slots.length
  last : table.slots[table.slots.length - 1]? = some moved
  tracked : (table.untrack key).1 = true
  slots : ∀ i : Nat, (table.untrack key).2.slots[i]? =
    if i < table.slots.length - 1 then
      if i = slot then some moved else table.slots[i]?
    else none
  index : ∀ other, (table.untrack key).2.index.lookup other =
    if other = key then none
    else if other = moved.key then some slot
    else table.index.lookup other

theorem untrack_removal {table : SlotTable} (coherent : table.Coherent)
    {key : Bytes} {slot : Nat} (found : table.index.lookup key = some slot) :
    ∃ moved, Removal table key slot moved := by
  obtain ⟨atMs, held⟩ := coherent.slot_of_index key slot found
  have inRange : slot < table.slots.length :=
    (List.getElem?_eq_some_iff.mp held).1
  obtain ⟨moved, isLast⟩ : ∃ moved,
      table.slots[table.slots.length - 1]? = some moved :=
    ⟨_, List.getElem?_eq_getElem (by omega)⟩
  refine ⟨moved, inRange, isLast, by simp [untrack, found], ?_, ?_⟩
  · intro i
    by_cases same : slot = table.slots.length - 1
    · simp only [untrack, found, same, ne_eq, not_true, if_false,
        List.getElem?_dropLast]
      split
      · rw [if_neg (by omega)]
      · rfl
    · simp only [untrack, found, isLast, same, ne_eq, not_false_eq_true, if_true,
        List.getElem?_dropLast, List.length_set, List.getElem?_set, inRange]
      simp only [eq_comm]
  · intro other
    by_cases same : slot = table.slots.length - 1
    · have movedKey : moved.key = key := by
        rw [← same, held] at isLast
        rw [← Option.some.inj isLast]
      simp only [untrack, found, same, ne_eq, not_true, if_false,
        Library.lookup_erase_eq, movedKey]
      split <;> rfl
    · simp only [untrack, found, isLast, same, ne_eq, not_false_eq_true, if_true,
        Library.lookup_erase_eq, Library.lookup_insert_eq]

theorem untrack_coherent {table : SlotTable} (coherent : table.Coherent)
    (key : Bytes) : (table.untrack key).2.Coherent := by
  cases found : table.index.lookup key with
  | none => simpa [untrack, found] using coherent
  | some slot =>
      obtain ⟨moved, removal⟩ := untrack_removal coherent found
      have movedIndex := coherent.index_of_slot _ _ removal.last
      constructor
      · intro other position lookup
        rw [removal.index] at lookup
        split at lookup
        · cases lookup
        · rename_i notKey
          split at lookup
          · rename_i isMoved
            cases lookup
            refine ⟨moved.atMs, ?_⟩
            have notLast := coherent.slot_ne found movedIndex (isMoved ▸ notKey)
            have := removal.inRange
            rw [removal.slots, if_pos (by omega), if_pos rfl, isMoved]
          · rename_i notMoved
            obtain ⟨otherAt, otherHeld⟩ := coherent.slot_of_index _ _ lookup
            refine ⟨otherAt, ?_⟩
            have bound := (List.getElem?_eq_some_iff.mp otherHeld).1
            have notLast := coherent.slot_ne movedIndex lookup notMoved
            have notSlot := coherent.slot_ne found lookup notKey
            rw [removal.slots, if_pos (by omega), if_neg notSlot, otherHeld]
      · intro position other otherHeld
        rw [removal.slots] at otherHeld
        rw [removal.index]
        split at otherHeld
        · rename_i beforeLast
          split at otherHeld
          · rename_i isSlot
            cases otherHeld
            have notKey : moved.key ≠ key := by
              intro same
              rw [same, found] at movedIndex
              cases movedIndex
              omega
            rw [if_neg notKey, if_pos rfl, isSlot]
          · rename_i notSlot
            have otherIndex := coherent.index_of_slot _ _ otherHeld
            have notKey : other.key ≠ key := by
              intro same
              rw [same, found] at otherIndex
              cases otherIndex
              exact notSlot rfl
            have notMoved : other.key ≠ moved.key := by
              intro same
              rw [same, movedIndex] at otherIndex
              cases otherIndex
              omega
            rw [if_neg notKey, if_neg notMoved, otherIndex]
        · cases otherHeld

theorem setExpiry_coherent {table : SlotTable} (coherent : table.Coherent)
    (key : Bytes) (atMs : Int64) : (table.setExpiry key atMs).Coherent := by
  unfold setExpiry
  cases found : table.index.lookup key with
  | some slot =>
      constructor
      · intro other position lookup
        obtain ⟨otherAt, held⟩ := coherent.slot_of_index other position lookup
        simp only [List.getElem?_modify, held, Option.map_eq_map,
          Option.map_some]
        split
        · exact ⟨atMs, rfl⟩
        · exact ⟨otherAt, rfl⟩
      · intro position other held
        simp only [List.getElem?_modify, Option.map_eq_map,
          Option.map_eq_some_iff] at held
        obtain ⟨before, beforeHeld, rfl⟩ := held
        have beforeIndex := coherent.index_of_slot position before beforeHeld
        by_cases same : slot = position
        · rw [if_pos same]
          exact beforeIndex
        · rw [if_neg same]
          exact beforeIndex
  | none =>
      constructor
      · intro other position lookup
        simp only at lookup ⊢
        by_cases same : other = key
        · subst other
          rw [Finmap.lookup_insert] at lookup
          cases lookup
          exact ⟨atMs, by simp⟩
        · rw [Finmap.lookup_insert_of_ne _ same] at lookup
          obtain ⟨otherAt, held⟩ := coherent.slot_of_index other position lookup
          have bound := (List.getElem?_eq_some_iff.mp held).1
          exact ⟨otherAt, by rw [List.getElem?_append_left bound]; exact held⟩
      · intro position other held
        simp only at held ⊢
        by_cases old : position < table.slots.length
        · rw [List.getElem?_append_left old] at held
          have otherIndex := coherent.index_of_slot position other held
          have different : other.key ≠ key := by
            intro same
            rw [same, found] at otherIndex
            cases otherIndex
          rw [Finmap.lookup_insert_of_ne _ different, otherIndex]
        · rw [List.getElem?_append_right (by omega)] at held
          have isNew : position = table.slots.length := by
            have := (List.getElem?_eq_some_iff.mp held).1
            simp only [List.length_cons, List.length_nil] at this
            omega
          subst position
          simp only [Nat.sub_self, List.getElem?_cons_zero,
            Option.some.injEq] at held
          subst other
          exact Finmap.lookup_insert _

/-! ## The table as a finite map -/

theorem expiryAt_untrack {table : SlotTable} (coherent : table.Coherent)
    (key other : Bytes) :
    (table.untrack key).2.expiryAt other =
      if other = key then none else table.expiryAt other := by
  cases found : table.index.lookup key with
  | none =>
      have unchanged : (table.untrack key).2 = table := by simp [untrack, found]
      rw [unchanged]
      split
      · rename_i same
        subst other
        simp [expiryAt, found]
      · rfl
  | some slot =>
      obtain ⟨moved, removal⟩ := untrack_removal coherent found
      have movedIndex := coherent.index_of_slot _ _ removal.last
      have := removal.inRange
      unfold expiryAt
      rw [removal.index]
      by_cases isKey : other = key
      · rw [if_pos isKey, if_pos isKey]
      · rw [if_neg isKey, if_neg isKey]
        by_cases isMoved : other = moved.key
        · have notLast := coherent.slot_ne found movedIndex (isMoved ▸ isKey)
          rw [if_pos isMoved, isMoved, movedIndex]
          simp only
          rw [removal.slots, if_pos (by omega), if_pos rfl, removal.last]
        · rw [if_neg isMoved]
          cases lookup : table.index.lookup other with
          | none => rfl
          | some position =>
              obtain ⟨otherAt, otherHeld⟩ := coherent.slot_of_index _ _ lookup
              have bound := (List.getElem?_eq_some_iff.mp otherHeld).1
              have notLast := coherent.slot_ne movedIndex lookup isMoved
              have notSlot := coherent.slot_ne found lookup isKey
              simp only [removal.slots]
              rw [if_pos (by omega), if_neg notSlot]

theorem expiryAt_setExpiry {table : SlotTable} (coherent : table.Coherent)
    (key other : Bytes) (atMs : Int64) :
    (table.setExpiry key atMs).expiryAt other =
      if other = key then some atMs else table.expiryAt other := by
  unfold setExpiry
  cases found : table.index.lookup key with
  | some slot =>
      obtain ⟨oldAt, held⟩ := coherent.slot_of_index key slot found
      unfold expiryAt
      simp only [List.getElem?_modify, Option.map_eq_map]
      by_cases same : other = key
      · subst other
        simp [found, held]
      · rw [if_neg same]
        cases lookup : table.index.lookup other with
        | none => rfl
        | some position =>
            obtain ⟨otherAt, otherHeld⟩ := coherent.slot_of_index _ _ lookup
            have apart := (coherent.slot_ne found lookup same).symm
            simp [otherHeld, apart]
  | none =>
      unfold expiryAt
      simp only
      by_cases same : other = key
      · subst other
        rw [Finmap.lookup_insert]
        simp
      · rw [Finmap.lookup_insert_of_ne _ same, if_neg same]
        cases lookup : table.index.lookup other with
        | none => rfl
        | some position =>
            obtain ⟨otherAt, otherHeld⟩ := coherent.slot_of_index _ _ lookup
            have bound := (List.getElem?_eq_some_iff.mp otherHeld).1
            simp only [List.getElem?_append_left bound]

end SlotTable

/-- The expiry manager's state: a coherent table. -/
structure ExpiryManager where
  table : SlotTable
  coherent : table.Coherent

namespace ExpiryManager

def empty : ExpiryManager :=
  ⟨SlotTable.empty, SlotTable.empty_coherent⟩

def untrack (expiry : ExpiryManager) (key : Bytes) : ExpiryManager :=
  ⟨(expiry.table.untrack key).2, SlotTable.untrack_coherent expiry.coherent key⟩

def setExpiry (expiry : ExpiryManager) (key : Bytes) (atMs : Int64) :
    ExpiryManager :=
  ⟨expiry.table.setExpiry key atMs,
    SlotTable.setExpiry_coherent expiry.coherent key atMs⟩

def persist (expiry : ExpiryManager) (key : Bytes) : ExpiryManager :=
  expiry.untrack key

def expiryAt (expiry : ExpiryManager) (key : Bytes) : Option Int64 :=
  expiry.table.expiryAt key

@[simp] theorem expiryAt_empty (key : Bytes) : empty.expiryAt key = none := rfl

theorem expiryAt_untrack (expiry : ExpiryManager) (key other : Bytes) :
    (expiry.untrack key).expiryAt other =
      if other = key then none else expiry.expiryAt other :=
  SlotTable.expiryAt_untrack expiry.coherent key other

theorem expiryAt_persist (expiry : ExpiryManager) (key other : Bytes) :
    (expiry.persist key).expiryAt other =
      if other = key then none else expiry.expiryAt other :=
  expiryAt_untrack expiry key other

theorem expiryAt_setExpiry (expiry : ExpiryManager) (key other : Bytes)
    (atMs : Int64) :
    (expiry.setExpiry key atMs).expiryAt other =
      if other = key then some atMs else expiry.expiryAt other :=
  SlotTable.expiryAt_setExpiry expiry.coherent key other atMs

/-- Every slot holds the deadline its key looks up. -/
theorem expiryAt_of_slot (expiry : ExpiryManager) {position : Nat} {held : Slot}
    (found : expiry.table.slots[position]? = some held) :
    expiry.expiryAt held.key = some held.atMs := by
  have index := expiry.coherent.index_of_slot position held found
  simp [expiryAt, SlotTable.expiryAt, index, found]

/-- Removing a tracked key shortens the slot vector by one. -/
theorem length_untrack (expiry : ExpiryManager) {key : Bytes} {atMs : Int64}
    (tracked : expiry.expiryAt key = some atMs) :
    (expiry.untrack key).table.slots.length + 1 =
      expiry.table.slots.length := by
  unfold expiryAt SlotTable.expiryAt at tracked
  cases found : expiry.table.index.lookup key with
  | none => simp [found] at tracked
  | some slot =>
      obtain ⟨moved, removal⟩ :=
        SlotTable.untrack_removal expiry.coherent found
      have inRange := removal.inRange
      have slots := removal.slots
      change (expiry.table.untrack key).2.slots.length + 1 = _
      have upper : ¬ (expiry.table.slots.length - 1) <
          (expiry.table.untrack key).2.slots.length := by
        intro long
        have absent := slots (expiry.table.slots.length - 1)
        rw [if_neg (Nat.lt_irrefl _), List.getElem?_eq_getElem long] at absent
        cases absent
      have lower : ¬ (expiry.table.untrack key).2.slots.length <
          expiry.table.slots.length - 1 := by
        intro short
        have present := slots (expiry.table.untrack key).2.slots.length
        rw [if_pos short, List.getElem?_eq_none (Nat.le_refl _)] at present
        split at present
        · cases present
        · exact absurd present.symm
            (by rw [List.getElem?_eq_getElem (by omega)]; simp)
      omega

end ExpiryManager

end HermitDb.Core
