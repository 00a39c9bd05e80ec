import Mathlib.Data.List.Basic
import Mathlib.Tactic.Common

/-!
# Runs of a machine that may fault

A step consumes an event and either faults or produces an output and the next
state.  A run folds it over a list of events; the rules below turn what one
step preserves into what every run preserves.
-/

namespace HermitDb.Library

variable {State Event Output Failure : Type}

/-- Consume the events in order and collect the outputs. -/
def runAll (step : State → Event → Except Failure (Output × State)) :
    State → List Event → Except Failure (List Output × State)
  | state, [] => .ok ([], state)
  | state, event :: events =>
      match step state event with
      | .error failure => .error failure
      | .ok (output, next) =>
          match runAll step next events with
          | .error failure => .error failure
          | .ok (outputs, final) => .ok (output :: outputs, final)

/-- Every event meets `allowed` in the state it finds. -/
def EachStep (step : State → Event → Except Failure (Output × State))
    (allowed : State → Event → Prop) : State → List Event → Prop
  | _, [] => True
  | state, event :: events =>
      allowed state event ∧ ∀ output next,
        step state event = .ok (output, next) →
          EachStep step allowed next events

/-- A run of a machine whose step is a relation. -/
inductive Traces (step : State → Event → Output → State → Prop) :
    State → List Event → List Output → State → Prop where
  | nil (state : State) : Traces step state [] [] state
  | cons {state next final : State} {event : Event} {output : Output}
      {events : List Event} {outputs : List Output}
      (first : step state event output next)
      (rest : Traces step next events outputs final) :
      Traces step state (event :: events) (output :: outputs) final

theorem Traces.last {step : State → Event → Output → State → Prop}
    {state final : State} {first : List Event} {event : Event}
    {outputs : List Output}
    (traces : Traces step state (first ++ [event]) outputs final) :
    ∃ before output, step before event output final := by
  induction first generalizing state outputs with
  | nil =>
      cases traces with
      | cons taken rest =>
          cases rest
          exact ⟨_, _, taken⟩
  | cons _ first induction =>
      cases traces with
      | cons _ rest => exact induction rest

theorem Traces.concat {step : State → Event → Output → State → Prop}
    {state middle final : State} {events : List Event} {outputs : List Output}
    (traces : Traces step state events outputs middle) {event : Event}
    {output : Output} (taken : step middle event output final) :
    Traces step state (events ++ [event]) (outputs ++ [output]) final := by
  induction traces with
  | nil state => exact .cons taken (.nil final)
  | cons first rest induction => exact .cons first (induction taken)

/-- A step that can always be taken gives every list of events a run. -/
theorem exists_traces {step : State → Event → Output → State → Prop}
    {advance : State → Event → State}
    (taken : ∀ state event, ∃ output,
      step state event output (advance state event))
    (state : State) (events : List Event) :
    ∃ outputs, Traces step state events outputs
      (events.foldl advance state) := by
  induction events generalizing state with
  | nil => exact ⟨[], .nil state⟩
  | cons event events induction =>
      obtain ⟨output, first⟩ := taken state event
      obtain ⟨outputs, rest⟩ := induction (advance state event)
      exact ⟨output :: outputs, .cons first rest⟩

/-- Forward simulation: what one step does to the abstract state, a run does
event by event. -/
theorem Traces.simulates {step : State → Event → Output → State → Prop}
    {Abstract : Type} {related : State → Abstract → Prop}
    {interpret : Abstract → Event × Output → Abstract}
    (simulated : ∀ {state event output next abstract},
      step state event output next → related state abstract →
        related next (interpret abstract (event, output)))
    {state final : State} {events : List Event} {outputs : List Output}
    (traces : Traces step state events outputs final) {abstract : Abstract}
    (initial : related state abstract) :
    related final ((events.zip outputs).foldl interpret abstract) := by
  induction traces generalizing abstract with
  | nil state => exact initial
  | cons first rest induction => exact induction (simulated first initial)

variable {step : State → Event → Except Failure (Output × State)}

theorem runAll_cons {state next : State} {event : Event} {output : Output}
    (stepped : step state event = .ok (output, next)) (events : List Event) :
    runAll step state (event :: events) =
      match runAll step next events with
      | .error failure => .error failure
      | .ok (outputs, final) => .ok (output :: outputs, final) := by
  simp only [runAll, stepped]

theorem runAll_append {state middle : State} {first second : List Event}
    {outputs : List Output}
    (ran : runAll step state first = .ok (outputs, middle)) :
    runAll step state (first ++ second) =
      match runAll step middle second with
      | .error failure => .error failure
      | .ok (more, final) => .ok (outputs ++ more, final) := by
  induction first generalizing state outputs with
  | nil =>
      simp only [runAll, Except.ok.injEq, Prod.mk.injEq] at ran
      obtain ⟨rfl, rfl⟩ := ran
      rw [List.nil_append]
      cases runAll step state second <;> rfl
  | cons event first induction =>
      rw [runAll.eq_def] at ran
      simp only at ran
      split at ran
      · cases ran
      · rename_i output next stepped
        split at ran
        · cases ran
        · rename_i rest final restRan
          simp only [Except.ok.injEq, Prod.mk.injEq] at ran
          obtain ⟨rfl, rfl⟩ := ran
          rw [List.cons_append, runAll_cons stepped, induction restRan]
          cases runAll step final second <;> rfl

theorem runAll_concat {state middle next : State} {first : List Event}
    {event : Event} {outputs : List Output} {output : Output}
    (ran : runAll step state first = .ok (outputs, middle))
    (stepped : step middle event = .ok (output, next)) :
    runAll step state (first ++ [event]) = .ok (outputs ++ [output], next) := by
  rw [runAll_append ran, runAll_cons stepped]
  rfl

theorem exists_of_map_eq_ok {Result Shown : Type} {observe : Result → Shown}
    {outcome : Except Failure Result} {shown : Shown}
    (mapped : outcome.map observe = .ok shown) :
    ∃ result, outcome = .ok result ∧ observe result = shown := by
  cases outcome with
  | error failure => cases mapped
  | ok result => exact ⟨result, rfl, Except.ok.inj mapped⟩

/-- What every step keeps, given all that happened before it, holds at the end
of the run. -/
theorem runAll_history {allowed : Event → Prop}
    {Invariant : List (Event × Output) → State → Prop}
    (preserved : ∀ history state event output next, Invariant history state →
      allowed event → step state event = .ok (output, next) →
      Invariant (history ++ [(event, output)]) next)
    {state final : State} {events : List Event} {outputs : List Output}
    {history : List (Event × Output)} (initial : Invariant history state)
    (each : ∀ event ∈ events, allowed event)
    (ran : runAll step state events = .ok (outputs, final)) :
    Invariant (history ++ events.zip outputs) final := by
  induction events generalizing state history outputs with
  | nil =>
      cases ran
      rwa [List.zip_nil_left, List.append_nil]
  | cons event events induction =>
      obtain ⟨isAllowed, restAllowed⟩ := List.forall_mem_cons.mp each
      cases stepped : step state event with
      | error failure =>
          rw [runAll, stepped] at ran
          cases ran
      | ok result =>
          obtain ⟨output, next⟩ := result
          rw [runAll_cons stepped] at ran
          split at ran
          · cases ran
          · rename_i restRan
            cases ran
            have kept := preserved history state event output next initial
              isAllowed stepped
            have rest := induction kept restAllowed restRan
            rwa [List.append_assoc] at rest

/-- A step that keeps the invariant never faults, and neither does a run. -/
theorem runAll_invariant {allowed : State → Event → Prop}
    {Invariant : State → Prop}
    (preserved : ∀ state event, Invariant state → allowed state event →
      ∃ output next, step state event = .ok (output, next) ∧ Invariant next)
    {state : State} {events : List Event} (initial : Invariant state)
    (each : EachStep step allowed state events) :
    ∃ outputs final, runAll step state events = .ok (outputs, final) ∧
      Invariant final := by
  induction events generalizing state with
  | nil => exact ⟨[], state, rfl, initial⟩
  | cons event events induction =>
      obtain ⟨output, next, stepped, kept⟩ :=
        preserved state event initial each.1
      obtain ⟨outputs, final, ran, keptFinal⟩ :=
        induction kept (each.2 output next stepped)
      exact ⟨output :: outputs, final, by rw [runAll_cons stepped, ran],
        keptFinal⟩

/-- In a run that meets `allowed` throughout, what the invariant implies holds
after every prefix. -/
theorem EachStep.prefixes {allowed : State → Event → Prop}
    {Invariant Property : State → Prop}
    (holds : ∀ state, Invariant state → Property state)
    (preserved : ∀ state event, Invariant state → allowed state event →
      ∃ output next, step state event = .ok (output, next) ∧ Invariant next)
    {state : State} {events : List Event} (initial : Invariant state)
    (each : EachStep step allowed state events) :
    ∀ first, first <+: events → ∃ outputs final,
      runAll step state first = .ok (outputs, final) ∧ Property final := by
  induction events generalizing state with
  | nil =>
      intro first isPrefix
      rw [List.prefix_nil.mp isPrefix]
      exact ⟨[], state, rfl, holds state initial⟩
  | cons event events induction =>
      intro first isPrefix
      obtain ⟨output, next, stepped, kept⟩ :=
        preserved state event initial each.1
      rcases List.prefix_cons_iff.mp isPrefix with rfl | ⟨rest, rfl, shorter⟩
      · exact ⟨[], state, rfl, holds state initial⟩
      · obtain ⟨outputs, final, ran, property⟩ :=
          induction kept (each.2 output next stepped) rest shorter
        exact ⟨output :: outputs, final, by rw [runAll_cons stepped, ran],
          property⟩

/-- When a step outside `allowed` always breaks the property and one inside
keeps the invariant, a run whose prefixes all have the property meets `allowed`
throughout. -/
theorem eachStep_of_prefixes {allowed : State → Event → Prop}
    {Invariant Property : State → Prop}
    (preserved : ∀ state event, Invariant state → allowed state event →
      ∃ output next, step state event = .ok (output, next) ∧ Invariant next)
    (broken : ∀ state event, Invariant state → ¬ allowed state event →
      ∃ output next, step state event = .ok (output, next) ∧ ¬ Property next)
    {state : State} {events : List Event} (initial : Invariant state)
    (prefixes : ∀ first, first <+: events → ∃ outputs final,
      runAll step state first = .ok (outputs, final) ∧ Property final) :
    EachStep step allowed state events := by
  induction events generalizing state with
  | nil => trivial
  | cons event events induction =>
      have atFirst : ∀ output next, step state event = .ok (output, next) →
          Property next := by
        intro output next stepped
        obtain ⟨outputs, final, ran, property⟩ :=
          prefixes [event] (List.prefix_append [event] events)
        rw [runAll_cons stepped] at ran
        cases ran
        exact property
      by_cases isAllowed : allowed state event
      · refine ⟨isAllowed, ?_⟩
        intro output next stepped
        obtain ⟨_, _, same, kept⟩ := preserved state event initial isAllowed
        rw [stepped] at same
        cases same
        apply induction kept
        intro first shorter
        obtain ⟨outputs, final, ran, property⟩ :=
          prefixes (event :: first) (List.cons_prefix_cons.mpr ⟨rfl, shorter⟩)
        rw [runAll_cons stepped] at ran
        split at ran
        · cases ran
        · rename_i rest
          cases ran
          exact ⟨_, _, rest, property⟩
      · obtain ⟨output, next, stepped, fails⟩ :=
          broken state event initial isAllowed
        exact absurd (atFirst output next stepped) fails

/-- Both directions together. -/
theorem eachStep_iff_prefixes {allowed : State → Event → Prop}
    {Invariant Property : State → Prop}
    (holds : ∀ state, Invariant state → Property state)
    (preserved : ∀ state event, Invariant state → allowed state event →
      ∃ output next, step state event = .ok (output, next) ∧ Invariant next)
    (broken : ∀ state event, Invariant state → ¬ allowed state event →
      ∃ output next, step state event = .ok (output, next) ∧ ¬ Property next)
    {state : State} (initial : Invariant state) (events : List Event) :
    EachStep step allowed state events ↔ ∀ first, first <+: events →
      ∃ outputs final, runAll step state first = .ok (outputs, final) ∧
        Property final :=
  ⟨fun each => each.prefixes holds preserved initial,
    fun prefixes => eachStep_of_prefixes preserved broken initial prefixes⟩

theorem EachStep.append {allowed : State → Event → Prop} {state : State}
    {first second : List Event}
    (each : EachStep step allowed state (first ++ second)) :
    EachStep step allowed state first ∧ ∀ outputs middle,
      runAll step state first = .ok (outputs, middle) →
        EachStep step allowed middle second := by
  induction first generalizing state with
  | nil =>
      refine ⟨trivial, ?_⟩
      intro outputs middle ran
      cases ran
      exact each
  | cons event first induction =>
      refine ⟨⟨each.1, fun output next stepped =>
        (induction (each.2 output next stepped)).1⟩, ?_⟩
      intro outputs middle ran
      cases stepped : step state event with
      | error failure =>
          rw [runAll, stepped] at ran
          cases ran
      | ok result =>
          obtain ⟨output, next⟩ := result
          rw [runAll_cons stepped] at ran
          split at ran
          · cases ran
          · rename_i restRan
            cases ran
            exact (induction (each.2 output next stepped)).2 _ _ restRan

/-- When every step can be taken from where the last one has left off, a run
links what each output shows to what the next one shows. -/
theorem runAll_chain {Shown : Type} {shows : Output → Option Shown}
    {allowed : State → Event → Prop} {Left : Option Shown → State → Prop}
    {fits : Event → Output → Prop} {linked : Shown → Shown → Prop}
    (preserved : ∀ last state event, Left last state → allowed state event →
      ∃ output next, step state event = .ok (output, next) ∧
        fits event output ∧
        (∀ here ∈ shows output, ∀ earlier ∈ last, linked earlier here) ∧
        Left ((shows output).or last) next)
    {last : Option Shown} {state : State} {events : List Event}
    (initial : Left last state) (each : EachStep step allowed state events) :
    ∃ outputs final, runAll step state events = .ok (outputs, final) ∧
      List.Forall₂ fits events outputs ∧
      (last.toList ++ outputs.filterMap shows).IsChain linked := by
  induction events generalizing last state with
  | nil =>
      refine ⟨[], state, rfl, .nil, ?_⟩
      cases last with
      | none => exact .nil
      | some earlier => exact .singleton earlier
  | cons event events induction =>
      obtain ⟨output, next, stepped, fit, link, left⟩ :=
        preserved last state event initial each.1
      obtain ⟨outputs, final, ran, fitting, chain⟩ :=
        induction left (each.2 output next stepped)
      refine ⟨output :: outputs, final, by rw [runAll_cons stepped, ran],
        .cons fit fitting, ?_⟩
      cases here : shows output with
      | none =>
          rw [here, Option.none_or] at chain
          rwa [List.filterMap_cons_none here]
      | some shown =>
          rw [here, Option.some_or] at chain
          rw [List.filterMap_cons_some here]
          cases last with
          | none => exact chain
          | some earlier => exact .cons_cons (link shown here earlier rfl) chain

/-! ## Machines that cannot fault -/

/-- Every event meets `allowed` in the state it finds. -/
def EachFold (move : State → Event → State) (allowed : State → Event → Prop) :
    State → List Event → Prop
  | _, [] => True
  | state, event :: events =>
      allowed state event ∧ EachFold move allowed (move state event) events

theorem EachFold.invariant {move : State → Event → State}
    {allowed : State → Event → Prop} {Invariant : State → Prop}
    (preserved : ∀ state event, Invariant state → allowed state event →
      Invariant (move state event))
    {state : State} {events : List Event} (initial : Invariant state)
    (each : EachFold move allowed state events) :
    Invariant (events.foldl move state) := by
  induction events generalizing state with
  | nil => exact initial
  | cons event events induction =>
      exact induction (preserved state event initial each.1) each.2

theorem EachFold.append {move : State → Event → State}
    {allowed : State → Event → Prop} {state : State} {first second : List Event}
    (each : EachFold move allowed state (first ++ second)) :
    EachFold move allowed state first ∧
      EachFold move allowed (first.foldl move state) second := by
  induction first generalizing state with
  | nil => exact ⟨trivial, each⟩
  | cons event first induction =>
      obtain ⟨start, rest⟩ := induction each.2
      exact ⟨⟨each.1, start⟩, rest⟩

theorem EachFold.of_forall {move : State → Event → State}
    {allowed : State → Event → Prop} {events : List Event}
    (always : ∀ event ∈ events, ∀ state, allowed state event) (state : State) :
    EachFold move allowed state events := by
  induction events generalizing state with
  | nil => trivial
  | cons event events induction =>
      obtain ⟨first, rest⟩ := List.forall_mem_cons.mp always
      exact ⟨first state, induction rest (move state event)⟩

theorem eachStep_true (state : State) (events : List Event) :
    EachStep step (fun _ _ => True) state events := by
  induction events generalizing state with
  | nil => trivial
  | cons event events induction =>
      exact ⟨trivial, fun _ next _ => induction next⟩

end HermitDb.Library
