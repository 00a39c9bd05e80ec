import Mathlib.Data.List.Basic
import Mathlib.Data.List.Induction

/-!
# Resumable consumers of a growing buffer

A consumer works in rounds on a state that holds its unread input.  A round
waits for more input, moves on and may produce output, or fails.  Appending
input to the state must not change what a round that moved on or failed has
already decided.  Under that law the way the input is cut into pieces is
invisible: feeding the pieces one after another gives the output and the final
state of feeding their concatenation at once.
-/

namespace HermitDb.Library

variable {Symbol State Output Error : Type}

/-- What one round decides. -/
inductive Round (State Output Error : Type) where
  | wait
  | next (following : State) (output : List Output)
  | fail (stopped : State) (error : Error)

/-- Change the state a round ends in. -/
def Round.map (change : State → State) :
    Round State Output Error → Round State Output Error
  | .wait => .wait
  | .next following output => .next (change following) output
  | .fail stopped error => .fail (change stopped) error

/-- What running rounds until the consumer stops leaves behind. -/
structure Drained (State Output Error : Type) where
  output : List Output
  state : State
  error : Option Error

structure Consumer (Symbol State Output Error : Type) where
  round : State → Round State Output Error
  extend : State → List Symbol → State
  size : State → Nat
  size_lt : ∀ {state following output},
    round state = .next following output → size following < size state
  extend_nil : ∀ state, extend state [] = state
  extend_extend : ∀ state first second,
    extend (extend state first) second = extend state (first ++ second)
  round_extend : ∀ state more, round state ≠ .wait →
    round (extend state more) = (round state).map (extend · more)

/-- Put earlier output in front of a drained result. -/
def Drained.after (output : List Output)
    (drained : Drained State Output Error) : Drained State Output Error :=
  { drained with output := output ++ drained.output }

@[simp] theorem Drained.after_state (output : List Output)
    (drained : Drained State Output Error) :
    (drained.after output).state = drained.state := rfl

@[simp] theorem Drained.after_error (output : List Output)
    (drained : Drained State Output Error) :
    (drained.after output).error = drained.error := rfl

@[simp] theorem Drained.after_output (output : List Output)
    (drained : Drained State Output Error) :
    (drained.after output).output = output ++ drained.output := rfl

@[simp] theorem Drained.after_nil (drained : Drained State Output Error) :
    drained.after [] = drained := rfl

theorem Drained.after_after (first second : List Output)
    (drained : Drained State Output Error) :
    (drained.after second).after first = drained.after (first ++ second) := by
  simp [Drained.after, List.append_assoc]

namespace Consumer

variable (consumer : Consumer Symbol State Output Error)

theorem next_extend {state following : State} {output : List Output}
    (more : List Symbol) (moves : consumer.round state = .next following output) :
    consumer.round (consumer.extend state more) =
      .next (consumer.extend following more) output := by
  rw [consumer.round_extend state more (by simp [moves]), moves]
  rfl

def drainWithFuel : Nat → State → Drained State Output Error
  | 0, state => ⟨[], state, none⟩
  | fuel + 1, state =>
      match consumer.round state with
      | .wait => ⟨[], state, none⟩
      | .next following output => (drainWithFuel fuel following).after output
      | .fail stopped error => ⟨[], stopped, some error⟩

/-- Run rounds until the consumer waits or fails.  Each round that moves on
shrinks the size, so the size itself is enough fuel. -/
def drain (state : State) : Drained State Output Error :=
  consumer.drainWithFuel (consumer.size state + 1) state

theorem drainWithFuel_eq_drain {fuel : Nat} {state : State}
    (enough : consumer.size state < fuel) :
    consumer.drainWithFuel fuel state = consumer.drain state := by
  suffices agree : ∀ left right state, consumer.size state < left →
      consumer.size state < right →
      consumer.drainWithFuel left state = consumer.drainWithFuel right state from
    agree _ _ state enough (Nat.lt_succ_self _)
  intro left
  induction left with
  | zero =>
      intro right state below
      exact absurd below (Nat.not_lt_zero _)
  | succ left induction =>
      intro right state belowLeft belowRight
      cases right with
      | zero => exact absurd belowRight (Nat.not_lt_zero _)
      | succ right =>
          simp only [drainWithFuel]
          cases decision : consumer.round state with
          | wait => rfl
          | fail stopped error => rfl
          | next following output =>
              have smaller := consumer.size_lt decision
              simp only [induction right following (by omega) (by omega)]

theorem drain_wait {state : State} (waits : consumer.round state = .wait) :
    consumer.drain state = ⟨[], state, none⟩ := by
  simp [drain, drainWithFuel, waits]

theorem drain_fail {state stopped : State} {error : Error}
    (fails : consumer.round state = .fail stopped error) :
    consumer.drain state = ⟨[], stopped, some error⟩ := by
  simp [drain, drainWithFuel, fails]

theorem drain_next {state following : State} {output : List Output}
    (moves : consumer.round state = .next following output) :
    consumer.drain state = (consumer.drain following).after output := by
  have smaller := consumer.size_lt moves
  conv => lhs; rw [drain, drainWithFuel, moves]
  simp only [drainWithFuel_eq_drain consumer smaller]

/-- Induction along the rounds of a drain. -/
theorem drain_induction {motive : State → Prop}
    (wait : ∀ state, consumer.round state = .wait → motive state)
    (fail : ∀ state stopped error,
      consumer.round state = .fail stopped error → motive state)
    (next : ∀ state following output,
      consumer.round state = .next following output →
        motive following → motive state)
    (state : State) : motive state := by
  induction bound : consumer.size state using Nat.strongRecOn
    generalizing state with
  | _ size induction =>
      cases decision : consumer.round state with
      | wait => exact wait state decision
      | fail stopped error => exact fail state stopped error decision
      | next following output =>
          have smaller := consumer.size_lt decision
          exact next state following output decision
            (induction _ (bound ▸ smaller) following rfl)

/-- A drain that does not fail stops in a waiting state. -/
theorem round_drain_state {state : State}
    (clean : (consumer.drain state).error = none) :
    consumer.round (consumer.drain state).state = .wait := by
  induction state using consumer.drain_induction with
  | wait state waits => rw [drain_wait consumer waits]; exact waits
  | fail state stopped error fails =>
      rw [drain_fail consumer fails] at clean
      cases clean
  | next state following output moves induction =>
      rw [drain_next consumer moves] at clean ⊢
      exact induction clean

/-- Draining resumes: more input after a drain that waits gives what draining
everything at once gives. -/
theorem drain_extend {state : State} (more : List Symbol)
    (clean : (consumer.drain state).error = none) :
    consumer.drain (consumer.extend state more) =
      (consumer.drain (consumer.extend (consumer.drain state).state more)).after
        (consumer.drain state).output := by
  induction state using consumer.drain_induction with
  | wait state waits => rw [drain_wait consumer waits, Drained.after_nil]
  | fail state stopped error fails =>
      rw [drain_fail consumer fails] at clean
      cases clean
  | next state following output moves induction =>
      rw [drain_next consumer moves] at clean ⊢
      rw [drain_next consumer (consumer.next_extend more moves),
        induction clean, Drained.after_after]
      rfl

/-- Every piece, fed in turn, leaves the consumer waiting. -/
inductive Feeds : State → List (List Symbol) → List Output → State → Prop where
  | nil (state : State) : Feeds state [] [] state
  | cons {state middle final : State} {piece : List Symbol}
      {pieces : List (List Symbol)} {output rest : List Output} :
      consumer.drain (consumer.extend state piece) = ⟨output, middle, none⟩ →
      Feeds middle pieces rest final →
      Feeds state (piece :: pieces) (output ++ rest) final

namespace Feeds

variable {consumer}

/-- Feeding pieces is draining their concatenation. -/
theorem drain_eq {state final : State} {pieces : List (List Symbol)}
    {output : List Output} (idle : consumer.round state = .wait)
    (feeds : consumer.Feeds state pieces output final) :
    consumer.drain (consumer.extend state pieces.flatten) =
      ⟨output, final, none⟩ := by
  induction feeds with
  | nil state =>
      rw [List.flatten_nil, consumer.extend_nil, drain_wait consumer idle]
  | @cons state middle final piece pieces output rest drained feeds induction =>
      have clean : (consumer.drain (consumer.extend state piece)).error = none := by
        rw [drained]
      have middleWaits : consumer.round middle = .wait := by
        have := round_drain_state consumer clean
        rwa [drained] at this
      rw [List.flatten_cons, ← consumer.extend_extend,
        drain_extend consumer pieces.flatten clean, drained]
      simp only [induction middleWaits]
      rfl

/-- The cut into pieces is invisible. -/
theorem unique {state leftFinal rightFinal : State}
    {left right : List (List Symbol)} {leftOutput rightOutput : List Output}
    (idle : consumer.round state = .wait)
    (sameInput : left.flatten = right.flatten)
    (leftFeeds : consumer.Feeds state left leftOutput leftFinal)
    (rightFeeds : consumer.Feeds state right rightOutput rightFinal) :
    leftOutput = rightOutput ∧ leftFinal = rightFinal := by
  have leftDrain := leftFeeds.drain_eq idle
  have rightDrain := rightFeeds.drain_eq idle
  rw [sameInput, rightDrain] at leftDrain
  cases leftDrain
  exact ⟨rfl, rfl⟩

end Feeds

/-! ## How much is produced -/

/-- Input that is fine up to its end is fine up to any point before. -/
theorem error_of_extend {state : State} {more : List Symbol}
    (clean : (consumer.drain (consumer.extend state more)).error = none) :
    (consumer.drain state).error = none := by
  induction state using consumer.drain_induction with
  | wait state waits => rw [drain_wait consumer waits]
  | fail state stopped error fails =>
      have failsToo : consumer.round (consumer.extend state more) =
          .fail (consumer.extend stopped more) error := by
        rw [consumer.round_extend state more (by simp [fails]), fails]
        rfl
      rw [drain_fail consumer failsToo] at clean
      cases clean
  | next state following output moves induction =>
      rw [drain_next consumer (consumer.next_extend more moves)] at clean
      rw [drain_next consumer moves]
      exact induction clean

/-- If a symbol completes at most one output, there are no more outputs than
symbols. -/
theorem length_output_le
    (completes : ∀ state symbol, consumer.round state = .wait →
      (consumer.drain (consumer.extend state [symbol])).output.length ≤ 1)
    {state : State} (idle : consumer.round state = .wait) {symbols : List Symbol}
    (clean : (consumer.drain (consumer.extend state symbols)).error = none) :
    (consumer.drain (consumer.extend state symbols)).output.length ≤
      symbols.length := by
  induction symbols using List.reverseRecOn with
  | nil =>
      rw [consumer.extend_nil, drain_wait consumer idle]
      exact Nat.le_refl _
  | append_singleton symbols symbol induction =>
      rw [← consumer.extend_extend] at clean ⊢
      have cleanBefore := consumer.error_of_extend clean
      have before := induction cleanBefore
      have last := completes _ symbol (consumer.round_drain_state cleanBefore)
      rw [consumer.drain_extend [symbol] cleanBefore, Drained.after_output,
        List.length_append, List.length_append, List.length_singleton]
      omega

end Consumer

end HermitDb.Library
