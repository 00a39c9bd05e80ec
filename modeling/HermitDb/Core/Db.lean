import HermitDb.Core.Glob
import HermitDb.Library.FiniteMap

/-!
# The keyspace

A finite map from keys to strings and lists.  The list operations trust their
caller to have checked the type; a call on the other type, or a pop from an
empty list, is a `Fault`: an uncaught exception or undefined behaviour in the
source.
-/

namespace HermitDb.Core

inductive Value where
  | string (text : Bytes)
  | list (items : List Bytes)
  deriving DecidableEq

inductive DbType where
  | none
  | string
  | list
  deriving DecidableEq

/-- The ways a `Db` operation ends the process. -/
inductive Fault where
  | badVariantAccess
  | emptyDeque
  | outOfRange
  deriving DecidableEq

/-- One iteration order of the hash map: any enumeration of its keys. -/
structure Walk where
  order : Finset Bytes → List Bytes
  order_keys : ∀ keys, (order keys : Multiset Bytes) = keys.val

theorem Walk.mem_order (walk : Walk) {keys : Finset Bytes} {key : Bytes} :
    key ∈ walk.order keys ↔ key ∈ keys := by
  rw [← Multiset.mem_coe, walk.order_keys, Finset.mem_val]

theorem Walk.nodup_order (walk : Walk) (keys : Finset Bytes) :
    (walk.order keys).Nodup := by
  rw [← Multiset.coe_nodup, walk.order_keys]
  exact keys.nodup

/-- Some iteration order. -/
noncomputable def Walk.arbitrary : Walk :=
  ⟨Finset.toList, Finset.coe_toList⟩

structure Db where
  map : Finmap fun _ : Bytes => Value

namespace Db

def empty : Db :=
  ⟨∅⟩

def find (db : Db) (key : Bytes) : Option Value :=
  db.map.lookup key

def get (db : Db) (key : Bytes) : Option Bytes :=
  match db.find key with
  | some (.string text) => some text
  | _ => none

def put (db : Db) (key : Bytes) (value : Value) : Db :=
  ⟨db.map.insert key value⟩

/-- Overwrites whatever the key held. -/
def set (db : Db) (key text : Bytes) : Db :=
  db.put key (.string text)

def erase (db : Db) (key : Bytes) : Db :=
  ⟨db.map.erase key⟩

def del (db : Db) (key : Bytes) : Bool × Db :=
  ((db.find key).isSome, db.erase key)

def existsKey (db : Db) (key : Bytes) : Bool :=
  (db.find key).isSome

def type (db : Db) (key : Bytes) : DbType :=
  match db.find key with
  | none => .none
  | some (.string _) => .string
  | some (.list _) => .list

def size (db : Db) : Nat :=
  db.map.keys.card

def clear (_ : Db) : Db :=
  empty

def keysMatchingGlob (db : Db) (plain : PlainChar) (walk : Walk)
    (pattern : Bytes) : List Bytes :=
  (walk.order db.map.keys).filter (globMatch plain pattern)

/-! ## Snapshot access -/

/-- What iterating over the map yields. -/
def entries (db : Db) (walk : Walk) : List (Bytes × Value) :=
  (walk.order db.map.keys).filterMap fun key =>
    (db.find key).map fun value => (key, value)

/-- Overwrites, and checks neither the value nor its type. -/
def restoreEntry (db : Db) (key : Bytes) (value : Value) : Db :=
  db.put key value

/-! ## Lists -/

/-- `std::get<std::deque>` on the entry, where a missing entry stands for the
empty list it is created with. -/
def deque (db : Db) (key : Bytes) : Except Fault (List Bytes) :=
  match db.find key with
  | none => .ok []
  | some (.list items) => .ok items
  | some (.string _) => .error .badVariantAccess

/-- Common body of the two pushes. -/
def push (db : Db) (key : Bytes) (place : List Bytes → List Bytes) :
    Except Fault (Nat × Db) :=
  match db.deque key with
  | .ok items => .ok ((place items).length, db.put key (.list (place items)))
  | .error fault => .error fault

def lpush (db : Db) (key value : Bytes) : Except Fault (Nat × Db) :=
  db.push key fun items => value :: items

def rpush (db : Db) (key value : Bytes) : Except Fault (Nat × Db) :=
  db.push key fun items => items ++ [value]

/-- Common body of the two pops.  Popping the last element deletes the key. -/
def pop (db : Db) (key : Bytes)
    (take : List Bytes → Option (Bytes × List Bytes)) :
    Except Fault (Option Bytes × Db) :=
  match db.find key with
  | none => .ok (none, db)
  | some (.string _) => .error .badVariantAccess
  | some (.list items) =>
      match take items with
      | none => .error .emptyDeque
      | some (value, rest) =>
          .ok (some value,
            if rest.isEmpty then db.erase key else db.put key (.list rest))

def takeFront (items : List Bytes) : Option (Bytes × List Bytes) :=
  match items with
  | [] => none
  | value :: rest => some (value, rest)

def takeBack (items : List Bytes) : Option (Bytes × List Bytes) :=
  match items.getLast? with
  | none => none
  | some value => some (value, items.dropLast)

def lpop (db : Db) (key : Bytes) : Except Fault (Option Bytes × Db) :=
  db.pop key takeFront

def rpop (db : Db) (key : Bytes) : Except Fault (Option Bytes × Db) :=
  db.pop key takeBack

def llen (db : Db) (key : Bytes) : Except Fault Nat :=
  match db.deque key with
  | .ok items => .ok items.length
  | .error fault => .error fault

/-- The element loop of `lrange`: `count` reads from `start` on. -/
def slice (items : List Bytes) (start count : Nat) :
    Except Fault (List Bytes) :=
  (List.range count).mapM fun offset =>
    match items[start + offset]? with
    | some item => .ok item
    | none => .error .outOfRange

/-- Negative bounds count from the tail, the stop is inclusive, and both are
clamped to the list. -/
def lrange (db : Db) (key : Bytes) (start stop : Int) :
    Except Fault (List Bytes) :=
  match db.find key with
  | none => .ok []
  | some (.string _) => .error .badVariantAccess
  | some (.list items) =>
      let n : Int := items.length
      let start := if start < 0 then start + n else start
      let stop := if stop < 0 then stop + n else stop
      let start := if start < 0 then 0 else start
      let stop := if n ≤ stop then n - 1 else stop
      if stop < start ∨ n ≤ start then .ok []
      else slice items start.toNat (stop - start + 1).toNat

/-! ## Lookups after updates -/

@[simp] theorem find_empty (key : Bytes) : empty.find key = none := rfl

theorem find_put (db : Db) (key other : Bytes) (value : Value) :
    (db.put key value).find other =
      if other = key then some value else db.find other :=
  Library.lookup_insert_eq db.map key other value

theorem find_erase (db : Db) (key other : Bytes) :
    (db.erase key).find other = if other = key then none else db.find other :=
  Library.lookup_erase_eq db.map key other

theorem mem_keys_iff {db : Db} {key : Bytes} :
    key ∈ db.map.keys ↔ db.find key ≠ none := by
  rw [Finmap.mem_keys, Finmap.mem_iff]
  exact Option.ne_none_iff_exists'.symm

@[ext] theorem ext {left right : Db}
    (same : ∀ key, left.find key = right.find key) : left = right := by
  cases left
  cases right
  congr
  exact Finmap.ext_lookup same

theorem put_put (db : Db) (key : Bytes) (first second : Value) :
    (db.put key first).put key second = db.put key second := by
  ext other
  simp only [find_put]
  split <;> rfl

theorem erase_of_absent {db : Db} {key : Bytes}
    (absent : db.find key = none) : db.erase key = db := by
  ext other
  rw [find_erase]
  split
  · rename_i same
    rw [same, absent]
  · rfl

theorem mem_entries {db : Db} {walk : Walk} {key : Bytes} {value : Value} :
    (key, value) ∈ db.entries walk ↔ db.find key = some value := by
  simp only [entries, List.mem_filterMap, Option.map_eq_some_iff,
    Prod.mk.injEq, walk.mem_order, mem_keys_iff]
  constructor
  · rintro ⟨_, _, _, found, rfl, rfl⟩
    exact found
  · intro found
    exact ⟨key, by rw [found]; exact Option.some_ne_none value, value, found,
      rfl, rfl⟩

theorem keys_entries (db : Db) (walk : Walk) :
    (db.entries walk).map Prod.fst = walk.order db.map.keys := by
  have stored : ∀ key ∈ walk.order db.map.keys, db.find key ≠ none := by
    intro key member
    rwa [walk.mem_order, mem_keys_iff] at member
  rw [entries]
  generalize walk.order db.map.keys = keys at stored ⊢
  induction keys with
  | nil => rfl
  | cons key keys induction =>
      obtain ⟨headStored, tailStored⟩ := List.forall_mem_cons.mp stored
      obtain ⟨value, found⟩ := Option.ne_none_iff_exists'.mp headStored
      simp only [List.filterMap_cons, found, Option.map_some, List.map_cons,
        induction tailStored]

theorem length_entries (db : Db) (walk : Walk) :
    (db.entries walk).length = db.size := by
  rw [← List.length_map, keys_entries, size, Finset.card_def,
    ← walk.order_keys, Multiset.coe_card]

theorem mem_keysMatchingGlob {db : Db} {plain : PlainChar} {walk : Walk}
    {pattern key : Bytes} :
    key ∈ db.keysMatchingGlob plain walk pattern ↔
      db.find key ≠ none ∧ globMatch plain pattern key = true := by
  rw [keysMatchingGlob, List.mem_filter, walk.mem_order, mem_keys_iff]

theorem nodup_keysMatchingGlob (db : Db) (plain : PlainChar) (walk : Walk)
    (pattern : Bytes) : (db.keysMatchingGlob plain walk pattern).Nodup :=
  (walk.nodup_order _).filter _

end Db

end HermitDb.Core
