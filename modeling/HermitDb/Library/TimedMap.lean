import Mathlib.Data.List.Basic
import Mathlib.Logic.Function.Basic
import Mathlib.Data.Option.Basic

/-!
# Maps whose entries may have a deadline

A timed map sends a key to a value with an optional deadline.  An entry is live
strictly before its deadline.  `sweep now` drops what is no longer live, and
`without` removes a list of keys.
-/

namespace HermitDb.Library

/-- A value with an optional deadline. -/
structure Timed (α : Type*) where
  value : α
  deadline : Option Int
  deriving DecidableEq

namespace Timed

variable {α : Type*}

def live (now : Int) (item : Timed α) : Bool :=
  match item.deadline with
  | none => true
  | some deadline => now < deadline

theorem live_none (now : Int) (value : α) : live now ⟨value, none⟩ = true := rfl

theorem live_some (now deadline : Int) (value : α) :
    live now ⟨value, some deadline⟩ = decide (now < deadline) := rfl

theorem live_of_le {now later : Int} (ordered : now ≤ later) {item : Timed α}
    (isLive : item.live later = true) : item.live now = true := by
  obtain ⟨value, deadline⟩ := item
  cases deadline with
  | none => rfl
  | some deadline =>
      simp only [live_some, decide_eq_true_eq] at isLive ⊢
      omega

theorem live_eq_false_iff {now : Int} {item : Timed α} :
    item.live now = false ↔
      ∃ deadline, item.deadline = some deadline ∧ deadline ≤ now := by
  obtain ⟨value, deadline⟩ := item
  cases deadline with
  | none => simp [live_none]
  | some deadline => simp [live_some]

end Timed

abbrev TimedMap (κ α : Type*) := κ → Option (Timed α)

namespace TimedMap

variable {κ α : Type*}

/-- Drop every entry whose deadline has been reached. -/
def sweep (now : Int) (map : TimedMap κ α) : TimedMap κ α :=
  fun key => (map key).filter (Timed.live now)

theorem sweep_apply (now : Int) (map : TimedMap κ α) (key : κ) :
    sweep now map key = (map key).filter (Timed.live now) := rfl

theorem sweep_eq_some {now : Int} {map : TimedMap κ α} {key : κ}
    {item : Timed α} :
    sweep now map key = some item ↔
      map key = some item ∧ item.live now = true := by
  rw [sweep_apply, Option.filter_eq_some_iff]

/-- Sweeping earlier makes no difference to a later sweep. -/
theorem sweep_sweep {now later : Int} (ordered : now ≤ later)
    (map : TimedMap κ α) : sweep later (sweep now map) = sweep later map := by
  funext key
  ext item
  simp only [sweep_eq_some]
  constructor
  · rintro ⟨⟨present, _⟩, isLive⟩
    exact ⟨present, isLive⟩
  · rintro ⟨present, isLive⟩
    exact ⟨⟨present, Timed.live_of_le ordered isLive⟩, isLive⟩

theorem sweep_eq_self {now : Int} {map : TimedMap κ α}
    (allLive : ∀ key item, map key = some item → item.live now = true) :
    sweep now map = map := by
  funext key
  ext item
  simp only [sweep_eq_some]
  constructor
  · exact And.left
  · intro present
    exact ⟨present, allLive key item present⟩

section Keys

variable [DecidableEq κ]

theorem sweep_update (now : Int) (map : TimedMap κ α) (key : κ)
    (item : Option (Timed α)) :
    sweep now (Function.update map key item) =
      Function.update (sweep now map) key (item.filter (Timed.live now)) := by
  funext other
  by_cases same : other = key
  · subst other
    simp [sweep_apply]
  · simp [sweep_apply, same]

/-- Remove a list of keys. -/
def without (map : TimedMap κ α) (keys : List κ) : TimedMap κ α :=
  fun key => if key ∈ keys then none else map key

theorem without_of_mem {map : TimedMap κ α} {keys : List κ} {key : κ}
    (removed : key ∈ keys) : map.without keys key = none :=
  if_pos removed

theorem without_of_not_mem {map : TimedMap κ α} {keys : List κ} {key : κ}
    (kept : key ∉ keys) : map.without keys key = map key :=
  if_neg kept

theorem without_congr (map : TimedMap κ α) {first second : List κ}
    (same : ∀ key, key ∈ first ↔ key ∈ second) :
    map.without first = map.without second := by
  funext key
  by_cases removed : key ∈ first
  · rw [without_of_mem removed, without_of_mem ((same key).mp removed)]
  · rw [without_of_not_mem removed,
      without_of_not_mem fun inSecond => removed ((same key).mpr inSecond)]

@[simp] theorem without_nil (map : TimedMap κ α) : map.without [] = map := by
  funext key
  simp [without]

theorem without_append (map : TimedMap κ α) (first second : List κ) :
    map.without (first ++ second) = (map.without first).without second := by
  funext key
  by_cases inFirst : key ∈ first <;> by_cases inSecond : key ∈ second <;>
    simp [without, inFirst, inSecond]

theorem without_cons (map : TimedMap κ α) (key : κ) (keys : List κ) :
    map.without (key :: keys) = (map.without [key]).without keys :=
  without_append map [key] keys

theorem without_singleton (map : TimedMap κ α) (key : κ) :
    map.without [key] = Function.update map key none := by
  funext other
  by_cases same : other = key
  · subst other
    simp [without]
  · simp [without, same]

theorem sweep_without_comm (now : Int) (map : TimedMap κ α) (keys : List κ) :
    sweep now (map.without keys) = (sweep now map).without keys := by
  funext key
  by_cases removed : key ∈ keys
  · rw [sweep_apply, without_of_mem removed, without_of_mem removed]
    rfl
  · rw [sweep_apply, without_of_not_mem removed, without_of_not_mem removed,
      sweep_apply]

/-- Keys that are no longer live can be removed unseen. -/
theorem sweep_without {now : Int} {map : TimedMap κ α} {keys : List κ}
    (due : ∀ key ∈ keys, ∀ item, map key = some item → item.live now = false) :
    sweep now (map.without keys) = sweep now map := by
  funext key
  by_cases removed : key ∈ keys
  · rw [sweep_apply, without_of_mem removed, sweep_apply]
    cases present : map key with
    | none => rfl
    | some item => simp [Option.filter, due key removed item present]
  · rw [sweep_apply, without_of_not_mem removed, sweep_apply]

end Keys

end TimedMap

end HermitDb.Library
