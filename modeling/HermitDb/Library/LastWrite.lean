import Mathlib.Data.List.Induction
import Mathlib.Tactic.Common

/-!
# The last write to each cell

Updates that write to different cells commute, and one that writes to the same
cell as an earlier one makes it void.  What a list of updates comes to is then
decided by the last one for each cell, whatever the order of the others.
-/

namespace HermitDb.Library

variable {State Update Cell : Type}

structure Overwrites (write : State → Update → State) (cell : Update → Cell) :
    Prop where
  same : ∀ state first second, cell first = cell second →
    write (write state first) second = write state second
  apart : ∀ state first second, cell first ≠ cell second →
    write (write state first) second = write (write state second) first

variable [DecidableEq Cell]

/-- The last of the updates that writes to the cell. -/
def lastWrite (cell : Update → Cell) (place : Cell) (updates : List Update) :
    Option Update :=
  (updates.filter fun update => cell update = place).getLast?

/-- The updates that write elsewhere. -/
def elsewhere (cell : Update → Cell) (place : Cell) (updates : List Update) :
    List Update :=
  updates.filter fun update => cell update ≠ place

section LastWrite

variable {cell : Update → Cell} {place other : Cell} {updates : List Update}
  {update : Update}

theorem lastWrite_concat_self (writes : cell update = place) :
    lastWrite cell place (updates ++ [update]) = some update := by
  simp [lastWrite, writes]

theorem lastWrite_concat_apart (writes : cell update ≠ place) :
    lastWrite cell place (updates ++ [update]) =
      lastWrite cell place updates := by
  simp [lastWrite, writes]

theorem elsewhere_concat_self (writes : cell update = place) :
    elsewhere cell place (updates ++ [update]) =
      elsewhere cell place updates := by
  simp [elsewhere, writes]

theorem elsewhere_concat_apart (writes : cell update ≠ place) :
    elsewhere cell place (updates ++ [update]) =
      elsewhere cell place updates ++ [update] := by
  simp [elsewhere, writes]

theorem lastWrite_elsewhere_self :
    lastWrite cell place (elsewhere cell place updates) = none := by
  simp [lastWrite, elsewhere]

theorem lastWrite_elsewhere_apart (different : other ≠ place) :
    lastWrite cell other (elsewhere cell place updates) =
      lastWrite cell other updates := by
  unfold lastWrite elsewhere
  rw [List.filter_filter]
  congr 2
  funext update
  by_cases writes : cell update = other
  · simp [writes, different]
  · simp [writes]

theorem eq_nil_of_lastWrite (none : ∀ place, lastWrite cell place updates = none) :
    updates = [] := by
  induction updates using List.reverseRecOn with
  | nil => rfl
  | append_singleton updates update _ =>
      have last : lastWrite cell (cell update) (updates ++ [update]) =
          some update := lastWrite_concat_self rfl
      rw [none] at last
      cases last

/-- Updates of different cells are each the last of their own. -/
theorem lastWrite_of_perm {left right : List Update} (perm : left.Perm right)
    (cells : (right.map cell).Nodup) (place : Cell) :
    lastWrite cell place left = lastWrite cell place right := by
  have filtered := perm.filter fun update => cell update = place
  have atPlace : ∀ update ∈ right.filter fun update => cell update = place,
      cell update = place := by
    intro update member
    exact of_decide_eq_true (List.mem_filter.mp member).2
  have distinct : ((right.filter fun update => cell update = place).map
      cell).Nodup :=
    cells.sublist (List.filter_sublist.map cell)
  unfold lastWrite
  generalize right.filter _ = writes at filtered atPlace distinct
  obtain _ | ⟨first, _ | ⟨second, rest⟩⟩ := writes
  · rw [filtered.eq_nil]
  · rw [filtered.eq_singleton]
  · have same : cell first = cell second := by
      rw [atPlace first (by simp), atPlace second (by simp)]
    simp [same] at distinct

end LastWrite

namespace Overwrites

variable {write : State → Update → State} {cell : Update → Cell}
  {update : Update}

/-- A write makes the earlier ones to its cell void. -/
theorem write_foldl (overwrites : Overwrites write cell) (state : State)
    (updates : List Update) (update : Update) :
    write (updates.foldl write state) update =
      write ((elsewhere cell (cell update) updates).foldl write state)
        update := by
  induction updates using List.reverseRecOn with
  | nil => rfl
  | append_singleton updates earlier induction =>
      rw [List.foldl_append, List.foldl_cons, List.foldl_nil]
      by_cases writes : cell earlier = cell update
      · rw [overwrites.same _ _ _ writes, elsewhere_concat_self writes]
        exact induction
      · rw [overwrites.apart _ _ _ writes, induction,
          overwrites.apart _ _ _ (Ne.symm writes),
          elsewhere_concat_apart writes, List.foldl_append]
        rfl

/-- The last write to a cell may as well come last of all. -/
theorem foldl_of_lastWrite (overwrites : Overwrites write cell) (state : State)
    {updates : List Update}
    (last : lastWrite cell (cell update) updates = some update) :
    updates.foldl write state =
      write ((elsewhere cell (cell update) updates).foldl write state)
        update := by
  induction updates using List.reverseRecOn with
  | nil => cases last
  | append_singleton updates later induction =>
      rw [List.foldl_append, List.foldl_cons, List.foldl_nil]
      by_cases writes : cell later = cell update
      · rw [lastWrite_concat_self writes] at last
        cases last
        rw [elsewhere_concat_self writes]
        exact overwrites.write_foldl state updates update
      · rw [lastWrite_concat_apart writes] at last
        rw [induction last, overwrites.apart _ _ _ (Ne.symm writes),
          elsewhere_concat_apart writes, List.foldl_append]
        rfl

/-- Only the last write to each cell counts. -/
theorem foldl_congr (overwrites : Overwrites write cell) (state : State)
    {left right : List Update}
    (same : ∀ place, lastWrite cell place left = lastWrite cell place right) :
    left.foldl write state = right.foldl write state := by
  -- Both sides lose the cell of the last update on the left.
  induction size : left.length using Nat.strongRecOn
    generalizing left right with
  | _ length induction =>
      cases left using List.reverseRecOn with
      | nil =>
          have nothing : right = [] :=
            eq_nil_of_lastWrite fun place => (same place).symm
          rw [nothing]
      | append_singleton updates update =>
          have last : lastWrite cell (cell update) (updates ++ [update]) =
              some update := lastWrite_concat_self rfl
          have lastRight := last
          rw [same] at lastRight
          rw [overwrites.foldl_of_lastWrite state last,
            overwrites.foldl_of_lastWrite state lastRight,
            elsewhere_concat_self rfl]
          congr 1
          apply induction _ ?_ ?_ rfl
          · have shorter : (elsewhere cell (cell update) updates).length ≤
                updates.length := List.length_filter_le _ _
            rw [← size, List.length_append, List.length_singleton]
            omega
          · intro place
            by_cases isCell : place = cell update
            · rw [isCell, lastWrite_elsewhere_self, lastWrite_elsewhere_self]
            · rw [lastWrite_elsewhere_apart isCell,
                lastWrite_elsewhere_apart isCell, ← same,
                lastWrite_concat_apart (Ne.symm isCell)]

end Overwrites

end HermitDb.Library
