import HermitDb.Core.RunningClock

/-!
# The server refines the store

A run in which the clock stands still during each event: every event is a step
of the store at its moment, so that no client can tell the server from the
store.
-/

namespace HermitDb.Core

open Library Persist Protocol

/-! ## One event -/

namespace Server

/-- One event at one moment: the clock reads `now` throughout. -/
def stepAt (world : World) (server : Server) (timed : Int64 × Event) :
    Except Fault (Option Bytes × Server) :=
  server.step (world.stopped timed.1) timed.2

/-- The event is not `DBSIZE`, its deadline arithmetic is exact, and it leaves
persistence working. -/
structure Plain (world : World) (server : Server) (timed : Int64 × Event) :
    Prop where
  healthy : ∀ output next, server.stepAt world timed = .ok (output, next) →
    next.dispatcher.persistenceFailed = false
  notDbsize : ∀ walk cmd, timed.2 = .command walk cmd →
    Action.ofCommand id cmd ≠ .dbsize
  exact : ∀ walk cmd, timed.2 = .command walk cmd →
    (Action.ofCommand id cmd).Exact timed.1.toInt
      (server.memory.view.sweep timed.1.toInt)

end Server

theorem World.frozen_ms (now : Int64) (reading : Nat) :
    (World.frozen now).ms reading = now.toInt := rfl

section Step

variable {world : World} {now : Int64}

theorem Server.Plain.calm {server : Server} {event : Event}
    (plain : server.Plain world (now, event)) :
    server.Calm (world.stopped now) event where
  steady _ _ _ _ _ _ := rfl
  healthy := plain.healthy
  notDbsize := plain.notDbsize
  exact := plain.exact

theorem step_stands {server : Server} {store : Keyspace} {last : Int}
    {timed : Int64 × Event} (stands : Stands last server store)
    (ordered : last ≤ timed.1.toInt) (plain : server.Plain world timed) :
    ∃ output next following, server.stepAt world timed = .ok (output, next) ∧
      StoreStep world.plainChar store timed output following ∧
      Stands timed.1.toInt next following := by
  have atMoment : last ≤
      (server.moment (world.stopped timed.1)).toInt := ordered
  obtain ⟨output, next, following, stepped, taken, stood, _⟩ :=
    stands.step_calm atMoment plain.calm
  exact ⟨output, next, following, stepped, taken, stood⟩

end Step

/-! ## Whole runs -/

theorem run_stands {world : World} {server : Server} {store : Keyspace}
    {last : Int} {events : List (Int64 × Event)}
    (stands : Stands last server store)
    (later : ∀ timed ∈ events, last ≤ timed.1.toInt)
    (ordered : events.Pairwise fun earlier later => earlier.1 ≤ later.1)
    (plain : EachStep (Server.stepAt world) (Server.Plain world) server events) :
    ∃ outputs final stored,
      runAll (Server.stepAt world) server events = .ok (outputs, final) ∧
      Traces (StoreStep world.plainChar) store events outputs stored ∧
      ∀ now, last ≤ now → (∀ timed ∈ events, timed.1.toInt ≤ now) →
        Stands now final stored := by
  induction events generalizing server store last with
  | nil =>
      exact ⟨[], server, store, rfl, .nil store, fun _ reached _ =>
        stands.later reached⟩
  | cons timed events induction =>
      obtain ⟨isFirst, restOrdered⟩ := List.pairwise_cons.mp ordered
      obtain ⟨output, next, following, stepped, taken, stood⟩ :=
        step_stands stands (later timed List.mem_cons_self) plain.1
      have restLater : ∀ other ∈ events, timed.1.toInt ≤ other.1.toInt :=
        fun other member => Int64.le_iff_toInt_le.mp (isFirst other member)
      obtain ⟨outputs, final, stored, ran, traced, stoodFinal⟩ :=
        induction stood restLater restOrdered (plain.2 output next stepped)
      refine ⟨output :: outputs, final, stored, ?_, .cons taken traced, ?_⟩
      · rw [runAll_cons stepped, ran]
      · intro now _ latest
        obtain ⟨reached, restReached⟩ := List.forall_mem_cons.mp latest
        exact stoodFinal now reached restReached

theorem Server.fresh_stands (wal : Option Wal) (now : Int) :
    Stands now (Server.fresh wal) fun _ => none where
  wf := Memory.fresh_wf
  healthy := rfl
  swept := rfl
  proper := nofun

/-- Every run answers each command as the store does.  At any later time the
server holds what the store holds, once expired keys are dropped; right after a
command the store has none. -/
theorem server_refines_store (world : World) (wal : Option Wal)
    (events : List (Int64 × Event))
    (ordered : events.Pairwise fun earlier later => earlier.1 ≤ later.1)
    (plain : EachStep (Server.stepAt world) (Server.Plain world)
      (Server.fresh wal) events) :
    ∃ outputs final store,
      runAll (Server.stepAt world) (Server.fresh wal) events =
        .ok (outputs, final) ∧
      Traces (StoreStep world.plainChar) (fun _ => none) events outputs store ∧
      Proper store ∧ final.memory.Wf ∧
      (∀ now : Int64, (∀ timed ∈ events, timed.1 ≤ now) →
        final.memory.view.sweep now.toInt = store.sweep now.toInt) ∧
      ∀ first now walk cmd, events = first ++ [(now, .command walk cmd)] →
        final.memory.view.sweep now.toInt = store := by
  obtain ⟨outputs, final, store, ran, traced, stands⟩ :=
    run_stands (Server.fresh_stands wal Int64.minValue.toInt)
      (fun timed _ => Int64.minValue_le_toInt timed.1) ordered plain
  have standsAt : ∀ now : Int64, (∀ timed ∈ events, timed.1 ≤ now) →
      Stands now.toInt final store := by
    intro now latest
    apply stands now.toInt (Int64.minValue_le_toInt now)
    intro timed member
    exact Int64.le_iff_toInt_le.mp (latest timed member)
  have stood := standsAt Int64.maxValue fun timed _ => Int64.le_maxValue timed.1
  refine ⟨outputs, final, store, ran, traced, stood.proper, stood.wf,
    fun now latest => (standsAt now latest).swept, ?_⟩
  rintro first now walk cmd rfl
  obtain ⟨before, output, taken⟩ := traced.last
  rw [← taken.swept]
  apply (standsAt now ?_).swept
  intro timed member
  rcases List.mem_append.mp member with earlier | isLast
  · exact (List.pairwise_append.mp ordered).2.2 timed earlier _
      (List.mem_singleton.mpr rfl)
  · rw [List.mem_singleton.mp isLast]
    exact Int64.le_refl now

set_option maxRecDepth 4000 in
private theorem run_of_set :
    (Server.stepAt (.frozen 0) (Server.fresh none)
      (1000, .command .arbitrary
        [ascii "SET", ascii "k", ascii "v", ascii "px", ascii "100"])).map
        (fun result => result.2.dispatcher.persistenceFailed) = .ok false := by
  rfl

set_option maxRecDepth 4000 in
private theorem run_of_expired_get :
    (runAll (Server.stepAt (.frozen 0)) (Server.fresh none)
      [(1000, .command .arbitrary
        [ascii "SET", ascii "k", ascii "v", ascii "px", ascii "100"]),
      (2000, .command .arbitrary [ascii "GET", ascii "k"])]).map
        (fun result => (result.1, result.2.dispatcher.persistenceFailed)) =
      .ok ([some Reply.ok.encode, some Reply.nullBulk.encode], false) := by
  rfl

/-- A key set with a deadline at 1100 and read at 2000. -/
theorem server_refines_store_expired_get :
    let events : List (Int64 × Event) :=
      [(1000, .command .arbitrary
        [ascii "SET", ascii "k", ascii "v", ascii "px", ascii "100"]),
      (2000, .command .arbitrary [ascii "GET", ascii "k"])]
    let replies := [some Reply.ok.encode, some Reply.nullBulk.encode]
    ∃ final store,
      runAll (Server.stepAt (.frozen 0)) (Server.fresh none) events =
        .ok (replies, final) ∧
      Traces (StoreStep .signed) (fun _ => none) events replies store ∧
      final.memory.view.sweep 2000 = store := by
  intro events replies
  have reads : Action.ofCommand id
      [ascii "SET", ascii "k", ascii "v", ascii "px", ascii "100"] =
        .onKey (ascii "k") (.set (ascii "v") ⟨false, false, some 100⟩) := rfl
  have plain : EachStep (Server.stepAt (.frozen 0))
      (Server.Plain (.frozen 0)) (Server.fresh none) events := by
    refine ⟨⟨?_, ?_, ?_⟩, fun output next stepped =>
      ⟨⟨?_, ?_, ?_⟩, fun _ _ _ => trivial⟩⟩
    · intro output next stepped
      obtain ⟨_, again, shown⟩ := exists_of_map_eq_ok run_of_set
      rw [stepped] at again
      cases again
      exact shown
    · rintro walk cmd ⟨⟩
      rw [reads]
      nofun
    · rintro walk cmd ⟨⟩
      rw [reads]
      rintro ms ⟨⟩
      exact ⟨⟨by decide, by decide⟩, fun _ => ⟨by decide, by decide⟩⟩
    · intro more final steppedAgain
      obtain ⟨_, again, shown⟩ := exists_of_map_eq_ok run_of_expired_get
      rw [runAll_cons stepped, runAll_cons steppedAgain] at again
      cases again
      exact (Prod.mk.inj shown).2
    · rintro walk cmd ⟨⟩
      nofun
    · rintro walk cmd ⟨⟩
      trivial
  obtain ⟨outputs, final, store, ran, traced, _, _, _, last⟩ :=
    server_refines_store (.frozen 0) none events (by decide) plain
  obtain ⟨_, again, shown⟩ := exists_of_map_eq_ok run_of_expired_get
  rw [ran] at again
  cases again
  obtain ⟨rfl, _⟩ := Prod.mk.inj shown
  exact ⟨final, store, ran, traced, last [_] 2000 .arbitrary _ rfl⟩

end HermitDb.Core
