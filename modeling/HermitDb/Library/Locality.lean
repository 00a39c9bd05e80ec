import Mathlib.Logic.Function.Basic

/-!
# Steps on part of a map

A step is local to a scope of keys if it leaves the entries outside alone and
does not look at them.  Steps with disjoint scopes commute.
-/

namespace HermitDb.Library

variable {κ β : Type*} {scope : κ → Prop} {step : (κ → β) → κ → β}

structure LocalTo (scope : κ → Prop) (step : (κ → β) → κ → β) : Prop where
  frame : ∀ map key, ¬ scope key → step map key = map key
  congr : ∀ left right : κ → β, (∀ key, scope key → left key = right key) →
    ∀ key, scope key → step left key = step right key

namespace LocalTo

theorem id (scope : κ → Prop) : LocalTo scope (fun map : κ → β => map) where
  frame _ _ _ := rfl
  congr _ _ same := same

theorem comp {after : (κ → β) → κ → β} (second : LocalTo scope after)
    (first : LocalTo scope step) :
    LocalTo scope fun map => after (step map) where
  frame map key outside := by
    rw [second.frame _ key outside, first.frame _ key outside]
  congr left right same :=
    second.congr _ _ (first.congr left right same)

theorem comm {other : κ → Prop} {step' : (κ → β) → κ → β}
    (first : LocalTo scope step) (second : LocalTo other step')
    (disjoint : ∀ key, scope key → ¬ other key) (map : κ → β) :
    step' (step map) = step (step' map) := by
  funext key
  by_cases inFirst : scope key
  · rw [second.frame _ key (disjoint key inFirst)]
    refine first.congr map (step' map) ?_ key inFirst
    intro near inScope
    exact (second.frame map near (disjoint near inScope)).symm
  · rw [first.frame _ key inFirst]
    by_cases inSecond : other key
    · refine second.congr (step map) map ?_ key inSecond
      intro near inOther
      exact first.frame map near fun inScope => disjoint near inScope inOther
    · rw [second.frame _ key inSecond, second.frame _ key inSecond,
        first.frame _ key inFirst]

end LocalTo

end HermitDb.Library
