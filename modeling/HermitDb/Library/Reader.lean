import Mathlib.Data.List.Basic
import Mathlib.Tactic.Common

/-!
# Readers that may give up

A reader takes an item off a state or gives up; either way it leaves a state
behind.  `Recognizes` says that what it takes off the unread input is exactly
an encoding of the item.  `Keeps` is an invariant of the state and `Spends` a
bound on how far a measure of it may grow, both whatever the outcome.  Each is
proved of a reader from its parts.
-/

namespace HermitDb.Library

abbrev Reader (State : Type) := OptionT (StateM State)

namespace Reader

variable {State Symbol Item First Second : Type}

/-- The item, if the reader did not give up, and the state it leaves. -/
def outcome (reader : Reader State Item) (state : State) :
    Option Item × State :=
  StateT.run (OptionT.run reader) state

/-- A reader from its outcomes. -/
def ofOutcome (step : State → Option Item × State) : Reader State Item :=
  OptionT.mk step

/-- Change the state without taking anything. -/
def modify (change : State → State) : Reader State Unit :=
  ofOutcome fun state => (some (), change state)

/-- The same reader a number of times. -/
def times (reader : Reader State Item) : Nat → Reader State (List Item)
  | 0 => pure []
  | count + 1 => do
      let item ← reader
      let items ← times reader count
      return item :: items

@[simp] theorem outcome_ofOutcome (step : State → Option Item × State)
    (state : State) : outcome (ofOutcome step) state = step state := rfl

@[simp] theorem outcome_pure (item : Item) (state : State) :
    outcome (pure item : Reader State Item) state = (some item, state) := rfl

@[simp] theorem outcome_failure (state : State) :
    outcome (failure : Reader State Item) state = (none, state) := rfl

/-- What becomes of an outcome when another reader follows. -/
def follow (second : First → Reader State Second) :
    Option First × State → Option Second × State
  | (some item, next) => outcome (second item) next
  | (none, next) => (none, next)

theorem outcome_bind (first : Reader State First)
    (second : First → Reader State Second) (state : State) :
    outcome (first >>= second) state = follow second (outcome first state) := by
  unfold outcome
  rw [OptionT.run_bind, Option.elimM, StateT.run_bind]
  cases (StateT.run (OptionT.run first) state) with
  | mk item next => cases item <;> rfl

theorem bind_taken {first : Reader State First}
    {second : First → Reader State Second} {state next : State}
    {item : Second} :
    outcome (first >>= second) state = (some item, next) ↔
      ∃ head middle, outcome first state = (some head, middle) ∧
        outcome (second head) middle = (some item, next) := by
  rw [outcome_bind]
  obtain ⟨head, middle⟩ := outcome first state
  cases head with
  | none => simp [follow]
  | some head => simp [follow]

theorem bind_gaveUp {first : Reader State First}
    {second : First → Reader State Second} {state next : State} :
    outcome (first >>= second) state = (none, next) ↔
      outcome first state = (none, next) ∨
        ∃ head middle, outcome first state = (some head, middle) ∧
          outcome (second head) middle = (none, next) := by
  rw [outcome_bind]
  obtain ⟨head, middle⟩ := outcome first state
  cases head with
  | none => simp [follow]
  | some head => simp [follow]

/-! ## Recognition -/

section Recognition

variable {unread : State → List Symbol}

/-- The reader takes an item exactly when an encoding of the item comes next,
and then leaves what follows it. -/
def Recognizes (unread : State → List Symbol) (reader : Reader State Item)
    (encode : Item → List Symbol) (Valid : Item → Prop) : Prop :=
  ∀ state item rest,
    (∃ next, outcome reader state = (some item, next) ∧ unread next = rest) ↔
      Valid item ∧ unread state = encode item ++ rest

theorem Recognizes.congr {reader : Reader State Item}
    {encode encode' : Item → List Symbol} {Valid Valid' : Item → Prop}
    (reads : Recognizes unread reader encode Valid)
    (valid : ∀ item, Valid item ↔ Valid' item)
    (encoded : ∀ item, Valid' item → encode item = encode' item) :
    Recognizes unread reader encode' Valid' := by
  intro state item rest
  rw [reads state item rest, valid item]
  constructor
  · rintro ⟨isValid, starts⟩
    exact ⟨isValid, by rw [starts, encoded item isValid]⟩
  · rintro ⟨isValid, starts⟩
    exact ⟨isValid, by rw [starts, encoded item isValid]⟩

theorem Recognizes.pure (item : Item) :
    Recognizes unread (Pure.pure item) (fun _ => []) (· = item) := by
  intro state other rest
  simp only [outcome_pure, Prod.mk.injEq, Option.some.injEq, List.nil_append]
  constructor
  · rintro ⟨next, ⟨rfl, rfl⟩, rest⟩
    exact ⟨rfl, rest⟩
  · rintro ⟨rfl, starts⟩
    exact ⟨state, ⟨rfl, rfl⟩, starts⟩

theorem Recognizes.guarded (Allowed : Prop) [Decidable Allowed] :
    Recognizes unread (guard Allowed) (fun _ => []) (fun _ => Allowed) := by
  intro state item rest
  by_cases allowed : Allowed
  · simp [guard, allowed]
  · simp [guard, allowed]

/-- A change of the state that leaves the unread input alone takes nothing. -/
theorem Recognizes.modify {change : State → State}
    (silent : ∀ state, unread (change state) = unread state) :
    Recognizes unread (modify change) (fun _ => []) (fun _ => True) := by
  intro state item rest
  constructor
  · rintro ⟨next, taken, starts⟩
    cases taken
    exact ⟨trivial, by rw [← silent state, starts, List.nil_append]⟩
  · rintro ⟨_, starts⟩
    exact ⟨change state, rfl, by rw [silent, starts, List.nil_append]⟩

/-- Readers in sequence.  `pick` is the part of the whole item that the first
one took. -/
theorem Recognizes.bind {first : Reader State First}
    {second : First → Reader State Second}
    {encodeFirst : First → List Symbol} {ValidFirst : First → Prop}
    {encodeSecond : Second → List Symbol}
    {ValidSecond : First → Second → Prop} {encode : Second → List Symbol}
    {Valid : Second → Prop} (pick : Second → First)
    (firstReads : Recognizes unread first encodeFirst ValidFirst)
    (secondReads : ∀ head, ValidFirst head →
      Recognizes unread (second head) encodeSecond (ValidSecond head))
    (valid : ∀ head item, Valid item ∧ pick item = head ↔
      ValidFirst head ∧ ValidSecond head item)
    (encoded : ∀ item, Valid item →
      encode item = encodeFirst (pick item) ++ encodeSecond item) :
    Recognizes unread (first >>= second) encode Valid := by
  intro state item rest
  simp only [bind_taken]
  constructor
  · rintro ⟨next, ⟨head, middle, firstTaken, secondTaken⟩, left⟩
    obtain ⟨headValid, starts⟩ :=
      (firstReads state head _).mp ⟨middle, firstTaken, rfl⟩
    obtain ⟨itemValid, follows⟩ :=
      (secondReads head headValid middle item rest).mp
        ⟨next, secondTaken, left⟩
    obtain ⟨isValid, rfl⟩ := (valid head item).mpr ⟨headValid, itemValid⟩
    refine ⟨isValid, ?_⟩
    rw [starts, follows, encoded item isValid, List.append_assoc]
  · rintro ⟨isValid, starts⟩
    obtain ⟨headValid, itemValid⟩ :=
      (valid (pick item) item).mp ⟨isValid, rfl⟩
    rw [encoded item isValid, List.append_assoc] at starts
    obtain ⟨middle, firstTaken, follows⟩ :=
      (firstReads state (pick item) _).mpr ⟨headValid, starts⟩
    obtain ⟨next, secondTaken, left⟩ :=
      (secondReads _ headValid middle item rest).mpr ⟨itemValid, follows⟩
    exact ⟨next, ⟨pick item, middle, firstTaken, secondTaken⟩, left⟩

/-- A reader whose item is converted; `back` recovers what was read. -/
theorem Recognizes.map {reader : Reader State First}
    {encode : First → List Symbol} {ValidFirst : First → Prop}
    {Valid : Second → Prop} (reads : Recognizes unread reader encode ValidFirst)
    (convert : First → Second) (back : Second → First)
    (valid : ∀ head item, Valid item ∧ back item = head ↔
      ValidFirst head ∧ item = convert head) :
    Recognizes unread (reader >>= fun head => Pure.pure (convert head))
      (fun item => encode (back item)) Valid :=
  reads.bind back (fun head _ => Recognizes.pure (convert head)) valid
    fun _ _ => (List.append_nil _).symm

/-- A first reader that only permits the second one. -/
theorem Recognizes.andThen {first : Reader State Unit}
    {second : Reader State Item} {Allowed : Prop}
    {encode : Item → List Symbol} {Valid : Item → Prop}
    (firstReads : Recognizes unread first (fun _ => []) (fun _ => Allowed))
    (secondReads : Recognizes unread second encode Valid) :
    Recognizes unread (first >>= fun _ => second) encode
      (fun item => Allowed ∧ Valid item) := by
  refine firstReads.bind (fun _ => ()) (fun _ _ => secondReads) ?_ ?_
  · intro head item
    exact and_iff_left rfl
  · intro item _
    rfl

theorem Recognizes.times {reader : Reader State Item}
    {encode : Item → List Symbol} {Valid : Item → Prop}
    (reads : Recognizes unread reader encode Valid) (count : Nat) :
    Recognizes unread (times reader count) (List.flatMap encode)
      (fun items => items.length = count ∧ ∀ item ∈ items, Valid item) := by
  induction count with
  | zero =>
      refine (Recognizes.pure []).congr ?_ ?_
      · intro items
        constructor
        · rintro rfl
          exact ⟨rfl, List.forall_mem_nil _⟩
        · rintro ⟨empty, _⟩
          exact List.length_eq_zero_iff.mp empty
      · rintro items ⟨empty, _⟩
        rw [List.length_eq_zero_iff.mp empty, List.flatMap_nil]
  | succ count induction =>
      intro state items rest
      simp only [Reader.times, bind_taken, outcome_pure, Prod.mk.injEq,
        Option.some.injEq]
      constructor
      · rintro ⟨next, ⟨head, middle, headTaken, tail, after, tailTaken, rfl,
          rfl⟩, left⟩
        obtain ⟨headValid, starts⟩ :=
          (reads state head _).mp ⟨middle, headTaken, rfl⟩
        obtain ⟨⟨length, tailValid⟩, follows⟩ :=
          (induction middle tail rest).mp ⟨after, tailTaken, left⟩
        refine ⟨⟨congrArg (· + 1) length,
          List.forall_mem_cons.mpr ⟨headValid, tailValid⟩⟩, ?_⟩
        rw [starts, follows, List.flatMap_cons, List.append_assoc]
      · rintro ⟨⟨length, allValid⟩, starts⟩
        cases items with
        | nil => cases length
        | cons head tail =>
            obtain ⟨headValid, tailValid⟩ := List.forall_mem_cons.mp allValid
            rw [List.flatMap_cons, List.append_assoc] at starts
            obtain ⟨middle, headTaken, follows⟩ :=
              (reads state head _).mpr ⟨headValid, starts⟩
            obtain ⟨next, tailTaken, left⟩ :=
              (induction middle tail rest).mpr
                ⟨⟨Nat.succ.inj length, tailValid⟩, follows⟩
            exact ⟨next, ⟨head, middle, headTaken, tail, next, tailTaken, rfl,
              rfl⟩, left⟩

end Recognition

/-! ## Invariants and measures of the state -/

/-- The reader leaves a good state in a good state, also when it gives up. -/
def Keeps (Good : State → Prop) (reader : Reader State Item) : Prop :=
  ∀ state, Good state → Good (outcome reader state).2

namespace Keeps

variable {Good : State → Prop}

theorem pure (item : Item) : Keeps Good (Pure.pure item) :=
  fun _ good => good

theorem bind {first : Reader State First} {second : First → Reader State Second}
    (firstKeeps : Keeps Good first)
    (secondKeeps : ∀ head, Keeps Good (second head)) :
    Keeps Good (first >>= second) := by
  intro state good
  have middleGood := firstKeeps state good
  rw [outcome_bind]
  generalize outcome first state = result at middleGood ⊢
  obtain ⟨head, middle⟩ := result
  cases head with
  | none => exact middleGood
  | some head => exact secondKeeps head middle middleGood

/-- What follows a check may rely on it. -/
theorem guard_bind {Allowed : Prop} [Decidable Allowed]
    {second : Reader State Second} (secondKeeps : Allowed → Keeps Good second) :
    Keeps Good (guard Allowed >>= fun _ => second) := by
  intro state good
  by_cases allowed : Allowed
  · simpa [guard, allowed] using secondKeeps allowed state good
  · simpa [guard, allowed, outcome_bind, follow] using good

theorem times {reader : Reader State Item} (keeps : Keeps Good reader)
    (count : Nat) : Keeps Good (times reader count) := by
  induction count with
  | zero => exact pure []
  | succ count induction =>
      exact keeps.bind fun head => induction.bind fun tail => pure _

end Keeps

/-- An item costs at least `gain` of the measure; giving up may add `loss` to
it. -/
structure Spends (measure : State → Nat) (reader : Reader State Item)
    (gain loss : Nat) : Prop where
  taken : ∀ {state item next}, outcome reader state = (some item, next) →
    measure next + gain ≤ measure state
  gaveUp : ∀ {state next}, outcome reader state = (none, next) →
    measure next ≤ measure state + loss

namespace Spends

variable {measure : State → Nat} {gain loss : Nat}

theorem mono {reader : Reader State Item} {gain' loss' : Nat}
    (spends : Spends measure reader gain loss) (gained : gain' ≤ gain)
    (lost : loss ≤ loss') : Spends measure reader gain' loss' := by
  constructor
  · intro state item next taken
    have := spends.taken taken
    omega
  · intro state next gaveUp
    have := spends.gaveUp gaveUp
    omega

theorem pure (item : Item) : Spends measure (Pure.pure item) 0 0 := by
  constructor
  · intro state other next taken
    cases taken
    exact Nat.le_refl _
  · intro state next gaveUp
    cases gaveUp

theorem guarded (Allowed : Prop) [Decidable Allowed] :
    Spends measure (guard Allowed) 0 0 := by
  constructor
  · intro state item next taken
    by_cases allowed : Allowed
    · simp [guard, allowed] at taken
      rw [taken]
      exact Nat.le_refl _
    · simp [guard, allowed] at taken
  · intro state next gaveUp
    by_cases allowed : Allowed
    · simp [guard, allowed] at gaveUp
    · simp [guard, allowed] at gaveUp
      rw [gaveUp]
      exact Nat.le_refl _

/-- A change of the state that costs something up front. -/
theorem modify_bind {change : State → State} {second : Reader State Second}
    {cost secondGain secondLoss : Nat}
    (costs : ∀ state, measure (change state) ≤ measure state + cost)
    (secondSpends : Spends measure second secondGain secondLoss)
    (gained : gain + cost ≤ secondGain) (lost : secondLoss + cost ≤ loss) :
    Spends measure (modify change >>= fun _ => second) gain loss := by
  have changed (state : State) :
      outcome (modify change >>= fun _ => second) state =
        outcome second (change state) := outcome_bind _ _ _
  constructor
  · intro state item next taken
    rw [changed] at taken
    have := secondSpends.taken taken
    have := costs state
    omega
  · intro state next gaveUp
    rw [changed] at gaveUp
    have := secondSpends.gaveUp gaveUp
    have := costs state
    omega

/-- What the first reader spent covers what the second may lose. -/
theorem bind {first : Reader State First} {second : First → Reader State Second}
    {firstGain secondGain firstLoss secondLoss : Nat}
    (firstSpends : Spends measure first firstGain firstLoss)
    (secondSpends : ∀ head, Spends measure (second head) secondGain secondLoss)
    (gained : gain ≤ firstGain + secondGain) (firstLost : firstLoss ≤ loss)
    (secondLost : secondLoss ≤ loss + firstGain) :
    Spends measure (first >>= second) gain loss := by
  constructor
  · intro state item next taken
    obtain ⟨head, middle, firstTaken, secondTaken⟩ := bind_taken.mp taken
    have := firstSpends.taken firstTaken
    have := (secondSpends head).taken secondTaken
    omega
  · intro state next gaveUp
    rcases bind_gaveUp.mp gaveUp with
      early | ⟨head, middle, firstTaken, late⟩
    · have := firstSpends.gaveUp early
      omega
    · have := firstSpends.taken firstTaken
      have := (secondSpends head).gaveUp late
      omega

theorem times {reader : Reader State Item} (spends : Spends measure reader 0 loss)
    (count : Nat) : Spends measure (times reader count) 0 loss := by
  induction count with
  | zero => exact (pure []).mono (Nat.le_refl _) (Nat.zero_le _)
  | succ count induction =>
      have rest (head : Item) : Spends measure (do
          let tail ← Reader.times reader count
          Pure.pure (head :: tail)) 0 loss :=
        induction.bind (fun tail => pure _) (Nat.zero_le _) (Nat.le_refl _)
          (Nat.zero_le _)
      exact spends.bind rest (Nat.zero_le _) (Nat.le_refl _) (Nat.le_refl _)

end Spends

end Reader

end HermitDb.Library
