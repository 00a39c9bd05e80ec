import Mathlib.Data.Finmap

/-!
# Lookup after an update

What a key looks up after insertions and removals elsewhere and at the key
itself.  The last rule holds for anything that is read like a map.
-/

namespace HermitDb.Library

variable {Key Value : Type} [DecidableEq Key]

theorem lookup_insert_eq (map : Finmap fun _ : Key => Value) (key other : Key)
    (value : Value) :
    (map.insert key value).lookup other =
      if other = key then some value else map.lookup other := by
  split
  · rename_i same
    rw [same, Finmap.lookup_insert]
  · rename_i different
    exact Finmap.lookup_insert_of_ne map different

theorem lookup_erase_eq (map : Finmap fun _ : Key => Value) (key other : Key) :
    (map.erase key).lookup other =
      if other = key then none else map.lookup other := by
  split
  · rename_i same
    rw [same, Finmap.lookup_erase]
  · rename_i different
    exact Finmap.lookup_erase_ne different

/-- Removing keys one after another removes exactly these. -/
theorem lookup_foldl_remove {Map : Type} (lookup : Map → Key → Option Value)
    {remove : Map → Key → Map}
    (removed : ∀ map key other, lookup (remove map key) other =
      if other = key then none else lookup map other)
    (map : Map) (keys : List Key) (key : Key)
    [listed : Decidable (key ∈ keys)] :
    lookup (keys.foldl remove map) key =
      if key ∈ keys then none else lookup map key := by
  induction keys generalizing map listed with
  | nil => rw [List.foldl_nil, if_neg List.not_mem_nil]
  | cons head keys induction =>
      rw [List.foldl_cons, induction, removed]
      by_cases isHead : key = head
      · simp [isHead]
      · simp [isHead]

end HermitDb.Library
