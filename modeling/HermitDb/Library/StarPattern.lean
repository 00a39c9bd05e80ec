import Mathlib.Data.List.Basic
import Mathlib.Tactic.Common

/-!
# Patterns with stars

A pattern is a sequence of stars and units: a star takes any letters, a unit
one letter that it accepts.  A matcher that goes through pattern and text once
and remembers no more than the last star is complete.  If the text has been
matched up to the next star, what an earlier star might have taken instead does
not matter, since the next star can take the difference.
-/

namespace HermitDb.Library

inductive Piece (Unit : Type) where
  | star
  | unit (unit : Unit)

variable {Unit Letter : Type} {accepts : Unit → Letter → Bool}

/-- The text can be divided among the pieces. -/
inductive Matches (accepts : Unit → Letter → Bool) :
    List (Piece Unit) → List Letter → Prop where
  | nil : Matches accepts [] []
  | star {pieces : List (Piece Unit)} {rest : List Letter}
      (taken : List Letter) (follows : Matches accepts pieces rest) :
      Matches accepts (.star :: pieces) (taken ++ rest)
  | unit {unit : Unit} {letter : Letter} {pieces : List (Piece Unit)}
      {rest : List Letter} (accepted : accepts unit letter = true)
      (follows : Matches accepts pieces rest) :
      Matches accepts (.unit unit :: pieces) (letter :: rest)

namespace Matches

theorem star_iff {pieces : List (Piece Unit)} {text : List Letter} :
    Matches accepts (.star :: pieces) text ↔
      ∃ rest, rest <:+ text ∧ Matches accepts pieces rest := by
  constructor
  · intro matched
    cases matched with
    | star taken follows => exact ⟨_, ⟨taken, rfl⟩, follows⟩
  · rintro ⟨rest, ⟨taken, rfl⟩, follows⟩
    exact .star taken follows

theorem unit_iff {unit : Unit} {letter : Letter} {pieces : List (Piece Unit)}
    {rest : List Letter} :
    Matches accepts (.unit unit :: pieces) (letter :: rest) ↔
      accepts unit letter = true ∧ Matches accepts pieces rest := by
  constructor
  · intro matched
    cases matched with
    | unit accepted follows => exact ⟨accepted, follows⟩
  · rintro ⟨accepted, follows⟩
    exact .unit accepted follows

/-- A star takes nothing, or one letter and then more. -/
theorem star_cons_iff {pieces : List (Piece Unit)} {letter : Letter}
    {rest : List Letter} :
    Matches accepts (.star :: pieces) (letter :: rest) ↔
      Matches accepts pieces (letter :: rest) ∨
        Matches accepts (.star :: pieces) rest := by
  simp only [star_iff, List.suffix_cons_iff]
  constructor
  · rintro ⟨tail, rfl | later, follows⟩
    · exact .inl follows
    · exact .inr ⟨tail, later, follows⟩
  · rintro (follows | ⟨tail, later, follows⟩)
    · exact ⟨_, .inl rfl, follows⟩
    · exact ⟨tail, .inr later, follows⟩

/-- Nothing is left for the pieces but stars. -/
theorem nil_iff {pieces : List (Piece Unit)} :
    Matches accepts pieces ([] : List Letter) ↔
      ∀ piece ∈ pieces, piece = .star := by
  induction pieces with
  | nil => exact ⟨fun _ => List.forall_mem_nil _, fun _ => .nil⟩
  | cons piece pieces induction =>
      rw [List.forall_mem_cons, ← induction]
      cases piece with
      | star =>
          rw [star_iff]
          constructor
          · rintro ⟨rest, suffix, follows⟩
            rw [List.suffix_nil.mp suffix] at follows
            exact ⟨rfl, follows⟩
          · rintro ⟨_, follows⟩
            exact ⟨[], List.suffix_rfl, follows⟩
      | unit unit =>
          constructor
          · intro matched
            cases matched
          · rintro ⟨impossible, _⟩
            cases impossible

end Matches

/-- Units have taken the text from the first position to the second. -/
inductive Along (accepts : Unit → Letter → Bool) (pieces : List (Piece Unit))
    (text : List Letter) : List (Piece Unit) → List Letter → Prop where
  | here : Along accepts pieces text pieces text
  | unit {later : List (Piece Unit)} {rest : List Letter} {unit : Unit}
      {letter : Letter} (accepted : accepts unit letter = true)
      (along : Along accepts pieces text (.unit unit :: later) (letter :: rest)) :
      Along accepts pieces text later rest

namespace Along

variable {pieces later : List (Piece Unit)} {text rest : List Letter}

/-- As many units as letters have been passed. -/
theorem split (along : Along accepts pieces text later rest) :
    ∃ (units : List Unit) (taken : List Letter),
      pieces = units.map Piece.unit ++ later ∧
      text = taken ++ rest ∧ units.length = taken.length := by
  induction along with
  | here => exact ⟨[], [], rfl, rfl, rfl⟩
  | unit accepted _ induction =>
      rename_i unit letter _
      obtain ⟨units, taken, isPieces, isText, same⟩ := induction
      refine ⟨units ++ [unit], taken ++ [letter], ?_, ?_, ?_⟩
      · rw [isPieces, List.map_append, List.append_assoc]
        rfl
      · rw [isText, List.append_assoc]
        rfl
      · simp only [List.length_append, same, List.length_singleton]

end Along

/-- Matching units takes a letter each. -/
theorem Matches.drop_units {units : List Unit} {later : List (Piece Unit)}
    {text : List Letter}
    (matched : Matches accepts (units.map Piece.unit ++ later) text) :
    units.length ≤ text.length ∧
      Matches accepts later (text.drop units.length) := by
  induction units generalizing text with
  | nil => exact ⟨Nat.zero_le _, matched⟩
  | cons unit units induction =>
      rw [List.map_cons, List.cons_append] at matched
      cases matched with
      | unit accepted follows =>
          obtain ⟨short, dropped⟩ := induction follows
          exact ⟨Nat.succ_le_succ short, dropped⟩

/-- Another choice for the star before the first position is still to be
tried: it leaves the pieces there a proper tail of the text. -/
def Retry (accepts : Unit → Letter → Bool) (pieces : List (Piece Unit))
    (text : List Letter) : Prop :=
  ∃ letter tail, text = letter :: tail ∧
    Matches accepts (.star :: pieces) tail

namespace Along

variable {pieces later : List (Piece Unit)} {text rest : List Letter}

/-- A match from a later start leaves a tail of what is left here. -/
theorem suffix_of_retry (along : Along accepts pieces text later rest)
    (retry : Retry accepts pieces text) :
    ∃ tail, rest ≠ [] ∧ tail <:+ rest ∧ Matches accepts later tail := by
  obtain ⟨units, taken, rfl, rfl, same⟩ := along.split
  obtain ⟨letter, tail, isText, matched⟩ := retry
  obtain ⟨start, ⟨skipped, rfl⟩, fromStart⟩ := Matches.star_iff.mp matched
  obtain ⟨short, dropped⟩ := fromStart.drop_units
  have lengths := congrArg List.length isText
  simp only [List.length_append, List.length_cons] at lengths
  refine ⟨_, ?_, ?_, dropped⟩
  · rintro rfl
    simp only [List.length_nil] at lengths
    omega
  · have startSuffix : start <:+ taken ++ rest := by
      rw [isText]
      exact (List.suffix_append _ _).trans (List.suffix_cons _ _)
    refine List.suffix_of_suffix_length_le
      ((List.drop_suffix _ _).trans startSuffix) (List.suffix_append _ _) ?_
    rw [List.length_drop]
    omega

/-- At a star, the alternatives of the star before it are of no use. -/
theorem star_iff (along : Along accepts pieces text (.star :: later) rest) :
    (Matches accepts (.star :: later) rest ∨ Retry accepts pieces text) ↔
      Matches accepts (.star :: later) rest := by
  refine ⟨?_, .inl⟩
  rintro (matched | retry)
  · exact matched
  · obtain ⟨tail, _, suffix, matched⟩ := along.suffix_of_retry retry
    obtain ⟨last, lastSuffix, follows⟩ := Matches.star_iff.mp matched
    exact Matches.star_iff.mpr ⟨last, lastSuffix.trans suffix, follows⟩

/-- At the end of the text there is no alternative left. -/
theorem not_retry (along : Along accepts pieces text later []) :
    ¬ Retry accepts pieces text := by
  intro retry
  obtain ⟨_, present, _, _⟩ := along.suffix_of_retry retry
  exact present rfl

end Along

/-- A star's choices: nothing, or a retry. -/
theorem Matches.star_iff_retry {pieces : List (Piece Unit)}
    {text : List Letter} :
    Matches accepts (.star :: pieces) text ↔
      Matches accepts pieces text ∨ Retry accepts pieces text := by
  cases text with
  | nil =>
      rw [star_iff]
      constructor
      · rintro ⟨rest, suffix, follows⟩
        rw [List.suffix_nil.mp suffix] at follows
        exact .inl follows
      · rintro (follows | ⟨_, _, impossible, _⟩)
        · exact ⟨[], List.suffix_rfl, follows⟩
        · cases impossible
  | cons letter rest =>
      rw [star_cons_iff]
      apply or_congr_right
      constructor
      · intro matched
        exact ⟨letter, rest, rfl, matched⟩
      · rintro ⟨_, _, same, matched⟩
        cases same
        exact matched

end HermitDb.Library
