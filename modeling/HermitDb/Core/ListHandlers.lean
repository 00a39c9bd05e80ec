import HermitDb.Core.KeyHandlers

/-!
# Handlers of lists

Pushes loop over their values and pops may remove the key; both come down to
one change of what the key holds.
-/

namespace HermitDb.Core

open Library Persist Protocol

variable {world : World} {memory : Memory} {key : Bytes}

/-! ## Pushing -/

theorem pushed_cons (left : Bool) (items : List Bytes) (value : Bytes)
    (values : List Bytes) :
    pushed left items (value :: values) =
      pushed left (pushed left items [value]) values := by
  cases left <;> simp [pushed]

theorem pushed_ne_nil (left : Bool) (items : List Bytes) (value : Bytes)
    (values : List Bytes) : pushed left items (value :: values) ≠ [] := by
  cases left <;> simp [pushed]

theorem push_one (left : Bool) {db : Db} {items : List Bytes}
    (holds : db.deque key = .ok items) (value : Bytes) :
    (if left then db.lpush key value else db.rpush key value) =
      .ok ((pushed left items [value]).length,
        db.put key (.list (pushed left items [value]))) := by
  cases left <;> simp [Db.lpush, Db.rpush, Db.push, holds, pushed]

/-- One round of the loop puts one more value in place; the whole loop puts
all of them. -/
theorem pushLoop_eq (left : Bool) {db : Db} {items : List Bytes}
    (holds : db.deque key = .ok items) (value : Bytes) (values : List Bytes)
    (len : Nat) :
    pushLoop left key (value :: values) len db =
      .ok ((pushed left items (value :: values)).length,
        db.put key (.list (pushed left items (value :: values)))) := by
  induction values generalizing value len db items with
  | nil => simp [pushLoop, push_one left holds]
  | cons next values induction =>
      have holdsNext : (db.put key (.list (pushed left items [value]))).deque key =
          .ok (pushed left items [value]) := by
        simp [Db.deque, Db.find_put]
      rw [pushLoop, push_one left holds]
      simp only
      rw [induction holdsNext, Db.put_put, ← pushed_cons]

theorem pushGeneric_refines (nameLower : String) (left : Bool)
    (wf : memory.Wf) (cmd : Command) :
    Refines world memory (pushAction nameLower cmd left)
      fun disk dispatcher =>
        pushGeneric (world.onDisk disk) nameLower left ⟨memory, dispatcher⟩ cmd :=
  match cmd with
  | [] => Refines.answer wf _
  | [_] => Refines.answer wf _
  | [_, _] => Refines.answer wf _
  | _ :: key :: value :: values => by
      refine Refines.of_touch wf ?_
      intro middle middleWf
      obtain ⟨stored, untracked, viewed⟩ | ⟨held, stored, viewed⟩ :=
        middleWf.view_cases key
      · refine ⟨.integer (pushed left [] (value :: values)).length, _,
          Effect.put middleWf (.list (pushed left [] (value :: values)))
          (by simpa using pushed_ne_nil left [] value values) rfl ?_, ?_⟩
        · intro now
          rw [viewed, untracked]
          rfl
        · intro disk dispatcher logged touched
          have holds : middle.db.deque key = .ok [] := by
            simp [Db.deque, stored]
          simp [pushGeneric, touched, Db.type, stored, pushLoop_eq left holds]
      · cases held with
        | string text =>
            refine ⟨.wrongType, middle,
              Effect.read_view middleWf viewed rfl fun _ => rfl, ?_⟩
            intro disk dispatcher logged touched
            simp [pushGeneric, touched, Db.type, stored]
        | list items =>
            refine ⟨.integer (pushed left items (value :: values)).length, _,
              Effect.put middleWf (.list (pushed left items (value :: values)))
              (by simpa using pushed_ne_nil left items value values) rfl ?_, ?_⟩
            · intro now
              rw [viewed]
              rfl
            · intro disk dispatcher logged touched
              have holds : middle.db.deque key = .ok items := by
                simp [Db.deque, stored]
              simp [pushGeneric, touched, Db.type, stored,
                pushLoop_eq left holds]

/-! ## Popping -/

theorem taken_of_ne_nil (left : Bool) {items : List Bytes}
    (nonempty : items ≠ []) :
    ∃ value rest, taken left items = some (value, rest) := by
  cases left with
  | true =>
      cases items with
      | nil => exact absurd rfl nonempty
      | cons value rest => exact ⟨value, rest, rfl⟩
  | false =>
      refine ⟨items.getLast nonempty, items.dropLast, ?_⟩
      simp [taken, Db.takeBack, List.getLast?_eq_some_getLast nonempty]

theorem pop_list (left : Bool) {db : Db} {items rest : List Bytes}
    {value : Bytes} (stored : db.find key = some (.list items))
    (took : taken left items = some (value, rest)) :
    (if left then db.lpop key else db.rpop key) =
      .ok (some value,
        if rest.isEmpty then db.erase key else db.put key (.list rest)) := by
  cases left <;> simp_all [Db.lpop, Db.rpop, Db.pop, taken]

theorem popGeneric_refines (nameLower : String) (left : Bool)
    (wf : memory.Wf) (cmd : Command) :
    Refines world memory (keyAction nameLower cmd (.pop left))
      fun disk dispatcher =>
        popGeneric (world.onDisk disk) nameLower left ⟨memory, dispatcher⟩ cmd :=
  match cmd with
  | [] => Refines.answer wf _
  | [_] => Refines.answer wf _
  | _ :: _ :: _ :: _ => Refines.answer wf _
  | [_, key] => by
      refine Refines.of_stored wf rfl (fun _ => rfl) ?_ ?_
      · intro middle stored disk dispatcher logged touched
        cases left <;>
          simp [popGeneric, touched, Db.type, Db.lpop, Db.rpop, Db.pop, stored]
      · intro middle held middleWf stored viewed
        cases held with
        | string text =>
            refine ⟨.wrongType, middle,
              Effect.read_view middleWf viewed rfl fun _ => rfl, ?_⟩
            intro disk dispatcher logged touched
            simp [popGeneric, touched, Db.type, stored]
        | list items =>
            have nonempty : items ≠ [] := by
              rintro rfl
              exact middleWf.nonempty key stored
            obtain ⟨value, rest, took⟩ := taken_of_ne_nil left nonempty
            cases rest with
            | nil =>
                refine ⟨.bulk value, _, Effect.remove middleWf 0 rfl ?_, ?_⟩
                · intro now _
                  rw [viewed]
                  simp [KeyOp.run, took]
                · intro disk dispatcher logged touched
                  simp [popGeneric, touched, Db.type, stored,
                    pop_list left stored took, Db.existsKey, Db.find_erase]
            | cons next rest =>
                refine ⟨.bulk value, _, Effect.put middleWf
                  (.list (next :: rest)) (by simp) rfl ?_, ?_⟩
                · intro now
                  rw [viewed]
                  simp [KeyOp.run, took]
                · intro disk dispatcher logged touched
                  simp [popGeneric, touched, Db.type, stored,
                    pop_list left stored took, Db.existsKey, Db.find_put]

/-! ## Reading -/

theorem cmdLlen_refines (wf : memory.Wf) (cmd : Command) :
    Refines world memory (keyAction "llen" cmd .llen)
      fun disk dispatcher => cmdLlen (world.onDisk disk) ⟨memory, dispatcher⟩ cmd :=
  match cmd with
  | [] => Refines.answer wf _
  | [_] => Refines.answer wf _
  | _ :: _ :: _ :: _ => Refines.answer wf _
  | [_, key] => by
      refine Refines.of_look wf (fun _ => rfl) ?_
      intro middle middleWf
      obtain ⟨stored, _, viewed⟩ | ⟨held, stored, viewed⟩ :=
        middleWf.view_cases key
      · refine ⟨.integer 0, fun now => by rw [viewed]; rfl, ?_⟩
        intro disk dispatcher logged touched
        simp [cmdLlen, touched, Db.type, Db.llen, Db.deque, stored]
      · cases held with
        | string text =>
            refine ⟨.wrongType, fun now => by rw [viewed]; rfl, ?_⟩
            intro disk dispatcher logged touched
            simp [cmdLlen, touched, Db.type, stored]
        | list items =>
            refine ⟨.integer items.length, fun now => by rw [viewed]; rfl, ?_⟩
            intro disk dispatcher logged touched
            simp [cmdLlen, touched, Db.type, Db.llen, Db.deque, stored]

/-- The reads of the slicing loop are all in range. -/
theorem slice_eq (items : List Bytes) (start count : Nat)
    (inRange : start + count ≤ items.length) :
    Db.slice items start count = .ok ((items.drop start).take count) := by
  induction count with
  | zero => rfl
  | succ count induction =>
      have shorter := induction (by omega)
      have held : items[start + count]? = some items[start + count] :=
        List.getElem?_eq_getElem (by omega)
      unfold Db.slice at shorter ⊢
      rw [List.range_succ, List.mapM_append, shorter, List.take_add_one]
      simp [held]
      rfl

/-- Selecting by index is dropping and taking. -/
theorem select_eq (items : List Bytes) (offset low high : Nat) :
    ((items.zipIdx offset).filter
        fun entry => low ≤ entry.2 ∧ entry.2 < high).map Prod.fst =
      (items.take (high - offset)).drop (low - offset) := by
  induction items generalizing offset with
  | nil => simp
  | cons item items induction =>
      have rest := induction (offset + 1)
      rw [List.zipIdx_cons, List.filter_cons]
      by_cases below : offset < high
      · obtain ⟨count, more⟩ : ∃ count, high - offset = count + 1 :=
          ⟨high - offset - 1, by omega⟩
        have next : high - (offset + 1) = count := by omega
        rw [next] at rest
        rw [more, List.take_succ_cons]
        by_cases above : low ≤ offset
        · have start : low - offset = 0 := by omega
          have startNext : low - (offset + 1) = 0 := by omega
          rw [startNext] at rest
          simpa [above, below, start] using rest
        · obtain ⟨skip, skipped⟩ : ∃ skip, low - offset = skip + 1 :=
            ⟨low - offset - 1, by omega⟩
          have skipNext : low - (offset + 1) = skip := by omega
          rw [skipNext] at rest
          simpa [above, skipped] using rest
      · have none : high - offset = 0 := by omega
        have noneNext : high - (offset + 1) = 0 := by omega
        rw [noneNext] at rest
        simpa [below, none] using rest

theorem sublist_eq (items : List Bytes) (start stop : Int) :
    sublist items start stop =
      (items.take ((if stop < 0 then stop + items.length else stop) + 1).toNat).drop
        (if start < 0 then start + items.length else start).toNat := by
  simp only [sublist]
  generalize (if start < 0 then start + items.length else start) = first
  generalize (if stop < 0 then stop + items.length else stop) = last
  have selected := select_eq items 0 first.toNat (last + 1).toNat
  rw [Nat.sub_zero, Nat.sub_zero] at selected
  rw [← selected]
  congr 1
  refine List.filter_congr ?_
  intro entry _
  rw [decide_eq_decide]
  omega

/-- The bounds are clamped on one side each; one guard covers what that leaves
open. -/
theorem clamped_eq (items : List Bytes) {first last low high : Int}
    (isLow : low = max first 0) (isHigh : high = min last (items.length - 1)) :
    (if high < low ∨ (items.length : Int) ≤ low then []
      else (items.drop low.toNat).take (high - low + 1).toNat) =
      (items.take (last + 1).toNat).drop first.toNat := by
  split
  · rename_i empty
    rw [List.drop_eq_nil_of_le]
    rw [List.length_take]
    omega
  · rename_i inside
    have sameStart : low.toNat = first.toNat := by omega
    rw [sameStart, List.drop_take, List.take_eq_take_iff, List.length_drop]
    omega

theorem lrange_eq {db : Db} {items : List Bytes}
    (stored : db.find key = some (.list items)) (start stop : Int) :
    db.lrange key start stop = .ok (sublist items start stop) := by
  rw [sublist_eq]
  simp only [Db.lrange, stored]
  generalize (if start < 0 then start + (items.length : Int) else start) = first
  generalize (if stop < 0 then stop + (items.length : Int) else stop) = last
  have clampedFirst : (if first < 0 then 0 else first) = max first 0 := by omega
  have clampedLast : (if (items.length : Int) ≤ last then
      (items.length : Int) - 1 else last) = min last (items.length - 1) := by
    omega
  rw [clampedFirst, clampedLast, ← clamped_eq items rfl rfl]
  split
  · rfl
  · rename_i inside
    exact slice_eq _ _ _ (by omega)

theorem cmdLrange_refines (wf : memory.Wf) (cmd : Command) :
    Refines world memory (Verb.lrange.action wrap64 cmd)
      fun disk dispatcher => cmdLrange (world.onDisk disk) ⟨memory, dispatcher⟩ cmd :=
  match cmd with
  | [] => Refines.answer wf _
  | [_] => Refines.answer wf _
  | [_, _] => Refines.answer wf _
  | [_, _, _] => Refines.answer wf _
  | _ :: _ :: _ :: _ :: _ :: _ => Refines.answer wf _
  | [_, key, first, last] => by
      simp only [Verb.action, cmdLrange]
      cases parseI64 first with
      | none => exact Refines.answer wf .notAnInteger
      | some start =>
          cases parseI64 last with
          | none => exact Refines.answer wf .notAnInteger
          | some stop =>
              refine Refines.of_look wf (fun _ => rfl) ?_
              intro middle middleWf
              obtain ⟨stored, _, viewed⟩ | ⟨held, stored, viewed⟩ :=
                middleWf.view_cases key
              · refine ⟨.bulks [], fun now => by rw [viewed]; rfl, ?_⟩
                intro disk dispatcher logged touched
                simp [touched, Db.type, Db.lrange, stored]
              · cases held with
                | string text =>
                    refine ⟨.wrongType, fun now => by rw [viewed]; rfl, ?_⟩
                    intro disk dispatcher logged touched
                    simp [touched, Db.type, stored]
                | list items =>
                    refine ⟨.bulks (sublist items start.toInt stop.toInt),
                      fun now => by rw [viewed]; rfl, ?_⟩
                    intro disk dispatcher logged touched
                    simp [touched, Db.type, stored, lrange_eq stored]

end HermitDb.Core
