import Mathlib.Data.List.Basic
import Mathlib.Tactic.Common

/-!
# Torn prefixes of encoded sequences

A sequence of items is written as the concatenation of their encodings.  A
prefix of that text consists of the encodings of the items wholly inside it
and at most one torn encoding.
-/

namespace HermitDb.Library

variable {Item Symbol : Type}

/-- `part` is a proper prefix of `whole`. -/
def Torn (part whole : List Symbol) : Prop :=
  ∃ missing, missing ≠ [] ∧ part ++ missing = whole

theorem Torn.length_lt {part whole : List Symbol} (torn : Torn part whole) :
    part.length < whole.length := by
  obtain ⟨missing, present, rfl⟩ := torn
  have := List.length_pos_of_ne_nil present
  rw [List.length_append]
  omega

theorem torn_nil {whole : List Symbol} (present : whole ≠ []) :
    Torn [] whole :=
  ⟨whole, present, rfl⟩

/-- The items whose encodings lie wholly within the first `budget` symbols. -/
def wholeItems (encode : Item → List Symbol) : List Item → Nat → List Item
  | [], _ => []
  | item :: items, budget =>
      if (encode item).length ≤ budget then
        item :: wholeItems encode items (budget - (encode item).length)
      else []

variable {encode : Item → List Symbol}

theorem prefix_wholeItems (encode : Item → List Symbol) (items : List Item)
    (budget : Nat) : wholeItems encode items budget <+: items := by
  induction items generalizing budget with
  | nil => exact List.nil_prefix
  | cons item items induction =>
      unfold wholeItems
      split
      · exact (List.prefix_cons_inj item).mpr (induction _)
      · exact List.nil_prefix

/-- A prefix of the encoded sequence is its whole items and a tail that is
empty or torn out of the next encoding. -/
theorem prefix_flatMap {items : List Item} {part : List Symbol}
    (cut : part <+: items.flatMap encode) :
    ∃ tail, part = (wholeItems encode items part.length).flatMap encode ++ tail ∧
      (tail = [] ∨ ∃ next rest,
        items = wholeItems encode items part.length ++ next :: rest ∧
          Torn tail (encode next)) := by
  induction items generalizing part with
  | nil =>
      have empty : part = [] := by simpa using cut
      exact ⟨[], by simp [empty, wholeItems], .inl rfl⟩
  | cons item items induction =>
      rw [List.flatMap_cons] at cut
      by_cases fits : (encode item).length ≤ part.length
      · obtain ⟨more, rfl⟩ : encode item <+: part :=
          List.prefix_of_prefix_length_le (List.prefix_append _ _) cut fits
        have moreCut : more <+: items.flatMap encode :=
          (List.prefix_append_right_inj _).mp cut
        obtain ⟨tail, moreShape, tailShape⟩ := induction moreCut
        have whole : wholeItems encode (item :: items)
            (encode item ++ more).length =
              item :: wholeItems encode items more.length := by
          rw [wholeItems, if_pos fits]
          simp
        rw [whole]
        refine ⟨tail, ?_, ?_⟩
        · rw [List.flatMap_cons, List.append_assoc, ← moreShape]
        · rcases tailShape with empty | ⟨next, rest, split, torn⟩
          · exact .inl empty
          · exact .inr ⟨next, rest, by rw [List.cons_append, ← split], torn⟩
      · have whole : wholeItems encode (item :: items) part.length = [] := by
          rw [wholeItems, if_neg fits]
        rw [whole]
        have partPrefix : part <+: encode item :=
          List.prefix_of_prefix_length_le cut (List.prefix_append _ _)
            (by omega)
        obtain ⟨missing, shape⟩ := partPrefix
        refine ⟨part, by simp, .inr ⟨item, items, rfl, missing, ?_, shape⟩⟩
        rintro rfl
        rw [List.append_nil] at shape
        exact fits (Nat.le_of_eq (congrArg List.length shape.symm))

/-- The complete sequence contains every item. -/
theorem wholeItems_all {items : List Item} {budget : Nat}
    (enough : (items.flatMap encode).length ≤ budget) :
    wholeItems encode items budget = items := by
  induction items generalizing budget with
  | nil => rfl
  | cons item items induction =>
      rw [List.flatMap_cons, List.length_append] at enough
      rw [wholeItems, if_pos (by omega), induction (by omega)]

/-- The whole items fit. -/
theorem length_wholeItems_le (encode : Item → List Symbol) (items : List Item)
    (budget : Nat) :
    ((wholeItems encode items budget).flatMap encode).length ≤ budget := by
  induction items generalizing budget with
  | nil => exact Nat.zero_le budget
  | cons item items induction =>
      unfold wholeItems
      split
      · have rest := induction (budget - (encode item).length)
        rw [List.flatMap_cons, List.length_append]
        omega
      · exact Nat.zero_le budget

/-- Leading items that fit are among the whole ones. -/
theorem prefix_wholeItems_of_fits {first items : List Item} {budget : Nat}
    (leading : first <+: items)
    (fits : (first.flatMap encode).length ≤ budget) :
    first <+: wholeItems encode items budget := by
  induction first generalizing items budget with
  | nil => exact List.nil_prefix
  | cons item first induction =>
      obtain ⟨more, rfl⟩ := leading
      rw [List.flatMap_cons, List.length_append] at fits
      rw [List.cons_append, wholeItems, if_pos (by omega)]
      apply (List.prefix_cons_inj item).mpr
      exact induction (List.prefix_append first more) (by omega)

theorem wholeItems_mono (encode : Item → List Symbol) (items : List Item)
    {few many : Nat} (le : few ≤ many) :
    wholeItems encode items few <+: wholeItems encode items many :=
  prefix_wholeItems_of_fits (prefix_wholeItems encode items few)
    (Nat.le_trans (length_wholeItems_le encode items few) le)

/-- Items past the whole ones do not matter. -/
theorem wholeItems_of_prefix {first items : List Item} {budget : Nat}
    (leading : first <+: items)
    (enough : wholeItems encode items budget <+: first) :
    wholeItems encode first budget = wholeItems encode items budget := by
  have more : wholeItems encode items budget <+: wholeItems encode first budget :=
    prefix_wholeItems_of_fits enough (length_wholeItems_le encode items budget)
  have fewer : wholeItems encode first budget <+: wholeItems encode items budget :=
    prefix_wholeItems_of_fits
      ((prefix_wholeItems encode first budget).trans leading)
      (length_wholeItems_le encode first budget)
  exact fewer.eq_of_length_le more.length_le

/-- Space behind the items does not matter. -/
theorem wholeItems_min (encode : Item → List Symbol) (items : List Item)
    (budget : Nat) :
    wholeItems encode items (min budget (items.flatMap encode).length) =
      wholeItems encode items budget := by
  by_cases enough : (items.flatMap encode).length ≤ budget
  · rw [Nat.min_eq_right enough, wholeItems_all (Nat.le_refl _),
      wholeItems_all enough]
  · rw [Nat.min_eq_left (by omega)]

/-- Of a torn item nothing counts. -/
theorem wholeItems_torn {items : List Item} {next : Item} {tail : List Symbol}
    (torn : Torn tail (encode next)) :
    wholeItems encode (items ++ [next])
      (items.flatMap encode ++ tail).length = items := by
  induction items with
  | nil =>
      have short := torn.length_lt
      rw [List.nil_append, wholeItems, if_neg (by simpa using short)]
  | cons item items induction =>
      have room : (encode item).length ≤
          ((item :: items).flatMap encode ++ tail).length := by
        simp only [List.flatMap_cons, List.length_append]
        omega
      have rest : ((item :: items).flatMap encode ++ tail).length -
          (encode item).length = (items.flatMap encode ++ tail).length := by
        simp only [List.flatMap_cons, List.length_append]
        omega
      rw [List.cons_append, wholeItems, if_pos room, rest, induction]

/-- Where a text is made of blocks that end in a separator, what a prefix of it
has after its last separator is within one block. -/
theorem length_le_of_separator_free {separator : Symbol}
    {blocks : List (List Symbol)} {bound : Nat}
    (short : ∀ block ∈ blocks, block.length ≤ bound) {start rest : List Symbol}
    (isPrefix : start ++ rest <+: blocks.flatMap (· ++ [separator]))
    (free : separator ∉ rest) : rest.length ≤ bound := by
  induction blocks generalizing start with
  | nil =>
      have empty := (List.append_eq_nil_iff.mp (List.prefix_nil.mp isPrefix)).2
      rw [empty]
      exact Nat.zero_le _
  | cons block blocks induction =>
      obtain ⟨first, others⟩ := List.forall_mem_cons.mp short
      obtain ⟨missing, whole⟩ := isPrefix
      rw [List.flatMap_cons, List.append_assoc] at whole
      rcases List.append_eq_append_iff.mp whole with
        ⟨left, isBlock, after⟩ | ⟨tail, rfl, after⟩
      · -- The prefix without its end lies in this block.
        rcases List.eq_nil_or_concat left with rfl | ⟨left, last, rfl⟩
        · exact @induction others [] ⟨missing, after⟩
        · rw [List.concat_eq_append, ← List.append_assoc] at isBlock
          obtain ⟨rfl, isLast⟩ := List.append_inj' isBlock rfl
          cases isLast
          rw [List.concat_eq_append, List.append_assoc,
            List.singleton_append] at after
          rw [List.length_append] at first
          rcases List.append_eq_append_iff.mp after with
            ⟨gap, rfl, _⟩ | ⟨gap, rfl, separated⟩
          · rw [List.length_append] at first
            omega
          · cases gap with
            | nil =>
                rw [List.append_nil]
                omega
            | cons symbol gap =>
                rw [← List.head_eq_of_cons_eq separated] at free
                exact absurd (by simp) free
      · exact induction others ⟨missing, by rw [after, List.append_assoc]⟩

end HermitDb.Library
