import Mathlib.Data.List.Basic

/-!
# Encodings recognised at the start of an input

A relation between encodings and items is prefix unique if no two encodings
can start the same input.  An input then splits in one way only into encodings
and a rest that starts with none.
-/

namespace HermitDb.Library

variable {Symbol Item : Type}

def PrefixUnique (Encodes : List Symbol → Item → Prop) : Prop :=
  ∀ ⦃left right more rest leftItem rightItem⦄, Encodes left leftItem →
    Encodes right rightItem → left ++ more = right ++ rest →
    left = right ∧ leftItem = rightItem

/-- No encoding starts the input. -/
def Stuck (Encodes : List Symbol → Item → Prop) (input : List Symbol) : Prop :=
  ∀ encoding item, Encodes encoding item → ¬ encoding <+: input

/-- Encodings one after another. -/
def joined (items : List (List Symbol × Item)) : List Symbol :=
  (items.map Prod.fst).flatten

@[simp] theorem joined_nil : joined ([] : List (List Symbol × Item)) = [] := rfl

@[simp] theorem joined_cons (item : List Symbol × Item)
    (items : List (List Symbol × Item)) :
    joined (item :: items) = item.1 ++ joined items := rfl

@[simp] theorem joined_append (first second : List (List Symbol × Item)) :
    joined (first ++ second) = joined first ++ joined second := by
  simp [joined]

/-- Every item comes with one of its encodings. -/
def AllEncode (Encodes : List Symbol → Item → Prop)
    (items : List (List Symbol × Item)) : Prop :=
  ∀ item ∈ items, Encodes item.1 item.2

theorem AllEncode.cons {Encodes : List Symbol → Item → Prop}
    {item : List Symbol × Item} {items : List (List Symbol × Item)} :
    AllEncode Encodes (item :: items) ↔
      Encodes item.1 item.2 ∧ AllEncode Encodes items :=
  List.forall_mem_cons

theorem AllEncode.append {Encodes : List Symbol → Item → Prop}
    {first second : List (List Symbol × Item)} :
    AllEncode Encodes (first ++ second) ↔
      AllEncode Encodes first ∧ AllEncode Encodes second :=
  List.forall_mem_append

namespace PrefixUnique

variable {Encodes : List Symbol → Item → Prop}
  {left right : List (List Symbol × Item)} {more rest : List Symbol}

theorem pair (unique : PrefixUnique Encodes) {first second : List Symbol × Item}
    (firstEncodes : Encodes first.1 first.2)
    (secondEncodes : Encodes second.1 second.2)
    (same : first.1 ++ more = second.1 ++ rest) :
    first = second ∧ more = rest := by
  obtain ⟨sameEncoding, sameItem⟩ := unique firstEncodes secondEncodes same
  refine ⟨Prod.ext sameEncoding sameItem, ?_⟩
  rw [sameEncoding] at same
  exact List.append_cancel_left same

theorem of_length (unique : PrefixUnique Encodes)
    (leftGood : AllEncode Encodes left) (rightGood : AllEncode Encodes right)
    (sameLength : left.length = right.length)
    (same : joined left ++ more = joined right ++ rest) :
    left = right ∧ more = rest := by
  induction left generalizing right with
  | nil =>
      obtain rfl := List.length_eq_zero_iff.mp sameLength.symm
      exact ⟨rfl, same⟩
  | cons first left induction =>
      cases right with
      | nil => cases sameLength
      | cons second right =>
          rw [AllEncode.cons] at leftGood rightGood
          simp only [joined_cons, List.append_assoc] at same
          obtain ⟨rfl, sameRest⟩ := unique.pair leftGood.1 rightGood.1 same
          obtain ⟨rfl, rfl⟩ := induction leftGood.2 rightGood.2
            (Nat.succ.inj sameLength) sameRest
          exact ⟨rfl, rfl⟩

/-- If no encoding starts the rest, any other split stops earlier. -/
theorem extends_of_stuck (unique : PrefixUnique Encodes)
    (leftGood : AllEncode Encodes left) (rightGood : AllEncode Encodes right)
    (stuck : Stuck Encodes rest)
    (same : joined left ++ more = joined right ++ rest) :
    ∃ tail, right = left ++ tail ∧ more = joined tail ++ rest := by
  induction left generalizing right with
  | nil => exact ⟨right, rfl, same⟩
  | cons first left induction =>
      rw [AllEncode.cons] at leftGood
      simp only [joined_cons, List.append_assoc] at same
      cases right with
      | nil =>
          refine absurd ?_ (stuck first.1 first.2 leftGood.1)
          exact ⟨_, same⟩
      | cons second right =>
          rw [AllEncode.cons] at rightGood
          simp only [joined_cons, List.append_assoc] at same
          obtain ⟨rfl, sameRest⟩ := unique.pair leftGood.1 rightGood.1 same
          obtain ⟨tail, rfl, isMore⟩ :=
            induction leftGood.2 rightGood.2 sameRest
          exact ⟨tail, rfl, isMore⟩

theorem split_unique (unique : PrefixUnique Encodes)
    (leftGood : AllEncode Encodes left) (rightGood : AllEncode Encodes right)
    (leftStuck : Stuck Encodes more) (rightStuck : Stuck Encodes rest)
    (same : joined left ++ more = joined right ++ rest) :
    left = right ∧ more = rest := by
  obtain ⟨tail, rfl, isMore⟩ :=
    unique.extends_of_stuck leftGood rightGood rightStuck same
  obtain ⟨other, isLeft, _⟩ :=
    unique.extends_of_stuck rightGood leftGood leftStuck same.symm
  rw [List.append_assoc] at isLeft
  obtain ⟨rfl, -⟩ := List.append_eq_nil_iff.mp (List.self_eq_append_right.mp isLeft)
  exact ⟨(List.append_nil left).symm, isMore⟩

end PrefixUnique

end HermitDb.Library
