import Mathlib.Data.List.Induction
import Mathlib.Tactic.Common

/-!
# Threads that share an object

A task is done with a result, or it makes a call and goes on with the answer.
Threads run tasks against one shared object, which takes one call at a time in
any order.  However they are scheduled, the object has answered the calls of one
sequential history, and every thread has followed its own task through its own
part of that history.
-/

namespace HermitDb.Library

inductive Task (Call : Type) (Answer : Call → Type) (Result : Type) where
  | done (result : Result)
  | call (request : Call) (resume : Answer request → Task Call Answer Result)

/-- A call and the answer it got. -/
structure Exchange (Call : Type) (Answer : Call → Type) where
  request : Call
  answer : Answer request

variable {Object Call Result Next : Type} {Answer : Call → Type}

namespace Task

def bind : Task Call Answer Result → (Result → Task Call Answer Next) →
    Task Call Answer Next
  | .done result, next => next result
  | .call request resume, next =>
      .call request fun answer => (resume answer).bind next

/-- The task on its own against the object. -/
def run (perform : Object → (request : Call) → Answer request × Object) :
    Task Call Answer Result → Object → Result × Object
  | .done result, object => (result, object)
  | .call request resume, object =>
      (resume (perform object request).1).run perform (perform object request).2

theorem run_bind (perform : Object → (request : Call) → Answer request × Object)
    (task : Task Call Answer Result) (next : Result → Task Call Answer Next)
    (object : Object) :
    (task.bind next).run perform object =
      (next (task.run perform object).1).run perform
        (task.run perform object).2 := by
  induction task generalizing object with
  | done result => rfl
  | call request resume induction => exact induction _ _

/-- After these exchanges the first task has become the second. -/
inductive Reaches : Task Call Answer Result → List (Exchange Call Answer) →
    Task Call Answer Result → Prop where
  | refl (task : Task Call Answer Result) : Reaches task [] task
  | call {request : Call} {resume : Answer request → Task Call Answer Result}
      {answer : Answer request} {exchanges : List (Exchange Call Answer)}
      {final : Task Call Answer Result}
      (rest : Reaches (resume answer) exchanges final) :
      Reaches (.call request resume) (⟨request, answer⟩ :: exchanges) final

theorem Reaches.concat {task : Task Call Answer Result} {request : Call}
    {resume : Answer request → Task Call Answer Result}
    {exchanges : List (Exchange Call Answer)}
    (reaches : Reaches task exchanges (.call request resume))
    (answer : Answer request) :
    Reaches task (exchanges ++ [⟨request, answer⟩]) (resume answer) := by
  generalize isCall : Task.call request resume = middle at reaches
  induction reaches with
  | refl task =>
      subst isCall
      exact .call (.refl _)
  | call rest induction => exact .call (induction isCall)

/-! ## What a finished task guarantees -/

/-- Whatever it is answered, the task finishes only with exchanges and a result
of this kind. -/
def Ensures (task : Task Call Answer Result)
    (post : List (Exchange Call Answer) → Result → Prop) : Prop :=
  ∀ exchanges result, Reaches task exchanges (.done result) →
    post exchanges result

variable {post : List (Exchange Call Answer) → Result → Prop}

theorem Ensures.done {result : Result} (holds : post [] result) :
    Ensures (.done result) post := by
  intro exchanges final reaches
  cases reaches
  exact holds

theorem Ensures.call {request : Call}
    {resume : Answer request → Task Call Answer Result}
    (resumed : ∀ answer, Ensures (resume answer)
      fun exchanges => post (⟨request, answer⟩ :: exchanges)) :
    Ensures (.call request resume) post := by
  intro exchanges final reaches
  cases reaches with
  | call rest => exact resumed _ _ _ rest

theorem Ensures.bind {first : Task Call Answer Result}
    {next : Result → Task Call Answer Next}
    {middle : List (Exchange Call Answer) → Result → Prop}
    {final : List (Exchange Call Answer) → Next → Prop}
    (before : Ensures first middle)
    (after : ∀ exchanges result, middle exchanges result →
      Ensures (next result) fun more => final (exchanges ++ more)) :
    Ensures (first.bind next) final := by
  induction first generalizing middle final with
  | done result =>
      have nothing := after [] result (before [] result (.refl _))
      exact nothing
  | call request resume induction =>
      apply Ensures.call
      intro answer
      refine @induction answer
        (fun exchanges => middle (⟨request, answer⟩ :: exchanges))
        (fun exchanges => final (⟨request, answer⟩ :: exchanges)) ?_ ?_
      · intro exchanges result reaches
        exact before _ _ (.call reaches)
      · intro exchanges result holds
        exact after _ _ holds

theorem Ensures.weaken {task : Task Call Answer Result}
    {weaker : List (Exchange Call Answer) → Result → Prop}
    (ensures : Ensures task post)
    (implies : ∀ exchanges result, post exchanges result →
      weaker exchanges result) : Ensures task weaker := by
  intro exchanges result reaches
  exact implies _ _ (ensures _ _ reaches)

/-! ## How many calls a task makes -/

section Spends

variable (allowed : Exchange Call Answer → Prop) (counted : Call → Bool)

/-- As long as its exchanges are allowed, the task makes no more counted calls
than this. -/
def Spends : Task Call Answer Result → Nat → Prop
  | .done _, _ => True
  | .call request resume, budget =>
      (counted request).toNat ≤ budget ∧
        ∀ answer, allowed ⟨request, answer⟩ →
          (resume answer).Spends (budget - (counted request).toNat)

/-- From wherever it has got to, with any exchanges before, the task makes no
more counted calls than this once its exchanges are allowed. -/
def Quits : Task Call Answer Result → Nat → Prop
  | .done _, _ => True
  | .call request resume, budget =>
      (Task.call request resume).Spends allowed counted budget ∧
        ∀ answer, (resume answer).Quits budget

variable {allowed counted} {budget more : Nat} {task : Task Call Answer Result}

theorem Spends.mono (spends : task.Spends allowed counted budget)
    (enough : budget ≤ more) : task.Spends allowed counted more := by
  induction task generalizing budget more with
  | done result => trivial
  | call request resume induction =>
      obtain ⟨affords, resumed⟩ := spends
      refine ⟨Nat.le_trans affords enough, fun answer isAllowed => ?_⟩
      exact induction answer (resumed answer isAllowed)
        (Nat.sub_le_sub_right enough _)

theorem Spends.bind {next : Result → Task Call Answer Next}
    (first : task.Spends allowed counted budget)
    (second : ∀ result, (next result).Spends allowed counted more) :
    (task.bind next).Spends allowed counted (budget + more) := by
  induction task generalizing budget with
  | done result => exact (second result).mono (Nat.le_add_left more budget)
  | call request resume induction =>
      obtain ⟨affords, resumed⟩ := first
      refine ⟨Nat.le_add_right_of_le affords, ?_⟩
      intro answer isAllowed
      rw [Nat.sub_add_comm affords]
      exact induction answer (resumed answer isAllowed)

theorem Spends.countP_le {exchanges : List (Exchange Call Answer)}
    {final : Task Call Answer Result}
    (spends : task.Spends allowed counted budget)
    (reaches : task.Reaches exchanges final)
    (all : ∀ exchange ∈ exchanges, allowed exchange) :
    exchanges.countP (fun exchange => counted exchange.request) ≤ budget := by
  induction reaches generalizing budget with
  | refl => exact Nat.zero_le budget
  | @call request resume answer exchanges final rest induction =>
      obtain ⟨affords, resumed⟩ := spends
      obtain ⟨first, others⟩ := List.forall_mem_cons.mp all
      have counts := induction (resumed answer first) others
      rw [List.countP_cons]
      cases isCounted : counted request with
      | false =>
          rw [isCounted] at counts
          exact counts
      | true =>
          rw [isCounted] at counts affords
          have positive : 1 ≤ budget := affords
          exact Nat.add_le_of_le_sub positive counts

theorem Quits.spends (quits : task.Quits allowed counted budget) :
    task.Spends allowed counted budget := by
  cases task with
  | done result => trivial
  | call request resume => exact quits.1

theorem Quits.bind {next : Result → Task Call Answer Next} {total : Nat}
    (first : task.Quits allowed counted budget)
    (second : ∀ result, (next result).Spends allowed counted more)
    (enough : budget + more ≤ total)
    (later : ∀ result, (next result).Quits allowed counted total) :
    (task.bind next).Quits allowed counted total := by
  induction task with
  | done result => exact later result
  | call request resume induction =>
      refine ⟨(first.1.bind second).mono enough, fun answer => ?_⟩
      exact induction answer (first.2 answer)

theorem Quits.bind_done (quits : task.Quits allowed counted budget)
    (finish : Result → Next) :
    (task.bind fun result => .done (finish result)).Quits allowed counted
      budget :=
  quits.bind (fun _ => trivial) (Nat.le_refl (budget + 0)) fun _ => trivial

theorem Quits.reaches {exchanges : List (Exchange Call Answer)}
    {final : Task Call Answer Result}
    (quits : task.Quits allowed counted budget)
    (reaches : task.Reaches exchanges final) :
    final.Quits allowed counted budget := by
  induction reaches with
  | refl => exact quits
  | call rest induction => exact induction (quits.2 _)

end Spends

end Task

/-! ## The shared object -/

/-- The object answers these requests one after another with these answers. -/
inductive Performs
    (perform : Object → (request : Call) → Answer request × Object) :
    Object → List (Exchange Call Answer) → Object → Prop where
  | nil (object : Object) : Performs perform object [] object
  | concat {object middle : Object} {exchanges : List (Exchange Call Answer)}
      (before : Performs perform object exchanges middle) (request : Call) :
      Performs perform object
        (exchanges ++ [⟨request, (perform middle request).1⟩])
        (perform middle request).2

section Performs

variable {perform : Object → (request : Call) → Answer request × Object}
  {object final : Object}

theorem Performs.last {exchanges : List (Exchange Call Answer)}
    {exchange : Exchange Call Answer}
    (performs : Performs perform object (exchanges ++ [exchange]) final) :
    ∃ middle, Performs perform object exchanges middle ∧
      exchange.answer = (perform middle exchange.request).1 ∧
      final = (perform middle exchange.request).2 := by
  generalize isAll : exchanges ++ [exchange] = all at performs
  cases performs with
  | nil => exact absurd isAll (by simp)
  | concat before request =>
      obtain ⟨rfl, isLast⟩ := List.append_inj' isAll rfl
      cases isLast
      exact ⟨_, before, rfl, rfl⟩

theorem Performs.unique {exchanges : List (Exchange Call Answer)} {other : Object}
    (performs : Performs perform object exchanges final)
    (again : Performs perform object exchanges other) : final = other := by
  induction performs generalizing other with
  | nil =>
      generalize isAll : [] = all at again
      cases again with
      | nil => rfl
      | concat => exact absurd isAll (by simp)
  | concat before request induction =>
      obtain ⟨middle, earlier, _, rfl⟩ := again.last
      rw [induction earlier]

theorem Performs.split {first second : List (Exchange Call Answer)}
    (performs : Performs perform object (first ++ second) final) :
    ∃ middle, Performs perform object first middle ∧
      Performs perform middle second final := by
  induction second using List.reverseRecOn generalizing final with
  | nil =>
      rw [List.append_nil] at performs
      exact ⟨final, performs, .nil final⟩
  | append_singleton second exchange induction =>
      rw [← List.append_assoc] at performs
      obtain ⟨before, earlier, answered, rfl⟩ := performs.last
      obtain ⟨middle, atFirst, between⟩ := induction earlier
      have last := between.concat exchange.request
      rw [← answered] at last
      exact ⟨middle, atFirst, last⟩

/-- What one call keeps is kept. -/
theorem Performs.invariant {Invariant : Object → Prop}
    (preserved : ∀ object request, Invariant object →
      Invariant (perform object request).2)
    {exchanges : List (Exchange Call Answer)} (initial : Invariant object)
    (performs : Performs perform object exchanges final) : Invariant final := by
  induction performs with
  | nil => exact initial
  | concat before request induction => exact preserved _ request induction

end Performs

/-- Threads under way, with the exchanges so far and who made them. -/
structure Threads (Object Call : Type) (Answer : Call → Type)
    (Result : Type) where
  object : Object
  tasks : List (Task Call Answer Result)
  history : List (Nat × Exchange Call Answer)

/-- One thread's part of a history. -/
def exchangesOf (position : Nat)
    (history : List (Nat × Exchange Call Answer)) :
    List (Exchange Call Answer) :=
  history.filterMap fun entry =>
    if entry.1 = position then some entry.2 else none

theorem exchangesOf_concat_self (position : Nat)
    (history : List (Nat × Exchange Call Answer))
    (exchange : Exchange Call Answer) :
    exchangesOf position (history ++ [(position, exchange)]) =
      exchangesOf position history ++ [exchange] := by
  simp [exchangesOf]

theorem exchangesOf_concat_other {position other : Nat}
    (different : other ≠ position)
    (history : List (Nat × Exchange Call Answer))
    (exchange : Exchange Call Answer) :
    exchangesOf position (history ++ [(other, exchange)]) =
      exchangesOf position history := by
  simp [exchangesOf, different]

theorem mem_of_mem_exchangesOf {position : Nat}
    {history : List (Nat × Exchange Call Answer)}
    {exchange : Exchange Call Answer}
    (member : exchange ∈ exchangesOf position history) :
    (position, exchange) ∈ history := by
  obtain ⟨⟨other, entry⟩, isEntry, kept⟩ := List.mem_filterMap.mp member
  split at kept
  · rename_i same
    cases kept
    rw [← same]
    exact isEntry
  · cases kept

namespace Threads

variable (perform : Object → (request : Call) → Answer request × Object)

def start (object : Object) (tasks : List (Task Call Answer Result)) :
    Threads Object Call Answer Result :=
  ⟨object, tasks, []⟩

/-- One thread makes its next call.  A thread that is done, or that does not
exist, has none. -/
def turn (threads : Threads Object Call Answer Result) (position : Nat) :
    Threads Object Call Answer Result :=
  match threads.tasks[position]? with
  | some (.call request resume) =>
      let (answer, object) := perform threads.object request
      ⟨object, threads.tasks.set position (resume answer),
        threads.history ++ [(position, ⟨request, answer⟩)]⟩
  | _ => threads

def run (threads : Threads Object Call Answer Result) (schedule : List Nat) :
    Threads Object Call Answer Result :=
  schedule.foldl (turn perform) threads

/-- The history is one the object has answered in order, and every thread has
followed its own task through its own part of it. -/
structure Explained (object : Object) (tasks : List (Task Call Answer Result))
    (threads : Threads Object Call Answer Result) : Prop where
  sequential : Performs perform object (threads.history.map Prod.snd)
    threads.object
  follows : ∀ position task, threads.tasks[position]? = some task →
    ∃ first : Task Call Answer Result, tasks[position]? = some first ∧
      first.Reaches (exchangesOf position threads.history) task

theorem start_explained (object : Object)
    (tasks : List (Task Call Answer Result)) :
    (start object tasks).Explained perform object tasks where
  sequential := .nil object
  follows := fun _ task isTask => ⟨task, isTask, .refl task⟩

variable {perform} in
theorem Explained.turn {object : Object}
    {tasks : List (Task Call Answer Result)}
    {threads : Threads Object Call Answer Result}
    (explained : threads.Explained perform object tasks) (position : Nat) :
    (threads.turn perform position).Explained perform object tasks := by
  unfold Threads.turn
  split
  · rename_i request resume isCall
    constructor
    · have performed := explained.sequential.concat request
      rw [List.map_append]
      exact performed
    · intro other task isTask
      dsimp only at isTask ⊢
      by_cases same : position = other
      · subst other
        have inside : position < threads.tasks.length :=
          (List.getElem?_eq_some_iff.mp isCall).1
        rw [List.getElem?_set_self inside] at isTask
        cases isTask
        obtain ⟨first, isFirst, reaches⟩ := explained.follows position _ isCall
        rw [exchangesOf_concat_self]
        exact ⟨first, isFirst, reaches.concat _⟩
      · rw [List.getElem?_set_ne same] at isTask
        rw [exchangesOf_concat_other same]
        exact explained.follows other task isTask
  · exact explained

/-- Under every schedule. -/
theorem run_explained (object : Object)
    (tasks : List (Task Call Answer Result)) (schedule : List Nat) :
    ((start object tasks).run perform schedule).Explained perform object
      tasks := by
  induction schedule using List.reverseRecOn with
  | nil => exact start_explained perform object tasks
  | append_singleton schedule position induction =>
      rw [Threads.run, List.foldl_append]
      exact induction.turn position

theorem run_length (threads : Threads Object Call Answer Result)
    (schedule : List Nat) :
    (threads.run perform schedule).tasks.length = threads.tasks.length := by
  induction schedule generalizing threads with
  | nil => rfl
  | cons position schedule induction =>
      change ((threads.turn perform position).run perform
        schedule).tasks.length = threads.tasks.length
      rw [induction]
      unfold Threads.turn
      split
      · exact List.length_set
      · rfl

/-- From any point on, the threads go on as if they began there. -/
theorem run_from (threads : Threads Object Call Answer Result)
    (schedule : List Nat) :
    threads.run perform schedule =
      { (start threads.object threads.tasks).run perform schedule with
        history := threads.history ++
          ((start threads.object threads.tasks).run perform
            schedule).history } := by
  induction schedule using List.reverseRecOn with
  | nil => simp [Threads.run, start]
  | append_singleton schedule position induction =>
      have goesOn : ∀ threads : Threads Object Call Answer Result,
          threads.run perform (schedule ++ [position]) =
            (threads.run perform schedule).turn perform position := by
        intro threads
        rw [Threads.run, List.foldl_append]
        rfl
      rw [goesOn, goesOn, induction]
      unfold Threads.turn
      dsimp only
      split
      · simp
      · rfl

/-- What is added to the history from any point on. -/
theorem run_continues (threads : Threads Object Call Answer Result)
    (schedule : List Nat) :
    ∃ more, (threads.run perform schedule).history = threads.history ++ more ∧
      Performs perform threads.object (more.map Prod.snd)
        (threads.run perform schedule).object ∧
      ∀ position task,
        (threads.run perform schedule).tasks[position]? = some task →
        ∃ first : Task Call Answer Result,
          threads.tasks[position]? = some first ∧
          first.Reaches (exchangesOf position more) task := by
  obtain ⟨sequential, follows⟩ :=
    run_explained perform threads.object threads.tasks schedule
  rw [run_from]
  exact ⟨_, rfl, sequential, follows⟩

end Threads

end HermitDb.Library
