import HermitDb.Core.ListHandlers

/-!
# Slicing in 64-bit arithmetic

`Db.lrange` computes with unbounded integers.  Here the same function is spelled
out with the `int64_t` values of the source: a sum that does not fit, a negative
size to reserve and an access outside the list are faults, since the source
checks for none of them.  No pair of bounds leads to a fault, and the two
agree.
-/

namespace HermitDb.Core

/-- What `lrange` could run into on the machine. -/
inductive RangeFault where
  | signedOverflow
  | negativeSize
  | db (fault : Fault)
  deriving DecidableEq

/-- The result of an `int64_t` operation. -/
def int64 (number : Int) : Except RangeFault Int64 :=
  if -2 ^ 63 ≤ number ∧ number < 2 ^ 63 then .ok (Int64.ofInt number)
  else .error .signedOverflow

theorem int64_of_fits {number : Int} (low : -2 ^ 63 ≤ number)
    (high : number < 2 ^ 63) :
    ∃ word, int64 number = .ok word ∧ word.toInt = number :=
  ⟨Int64.ofInt number, if_pos ⟨low, high⟩, Int64.toInt_ofInt_of_le low high⟩

theorem toInt_of_int64 {number : Int} {word : Int64}
    (made : int64 number = .ok word) : word.toInt = number := by
  unfold int64 at made
  split at made
  · rename_i fits
    cases made
    exact Int64.toInt_ofInt_of_le fits.1 fits.2
  · cases made

/-! ## The source's `lrange` -/

/-- `list[static_cast<std::size_t>(i)]`. -/
def elementAt (items : List Bytes) (i : Int64) : Except RangeFault Bytes :=
  match items[i.toUInt64.toNat]? with
  | some item => .ok item
  | none => .error (.db .outOfRange)

/-- The loop from `i` through `stop`. -/
def elementsFrom (items : List Bytes) (stop i : Int64) :
    Except RangeFault (List Bytes) :=
  if i ≤ stop then
    match elementAt items i with
    | .error fault => .error fault
    | .ok item =>
        match _next : int64 (i.toInt + 1) with
        | .error fault => .error fault
        | .ok following =>
            (elementsFrom items stop following).map (item :: ·)
  else .ok []
  termination_by (stop.toInt + 1 - i.toInt).toNat
  decreasing_by
    rename_i inside
    have later := toInt_of_int64 _next
    have bound := Int64.le_iff_toInt_le.mp inside
    omega

/-- `out.reserve(static_cast<std::size_t>(size))`. -/
def reserve (size : Int64) : Except RangeFault Unit :=
  if size < 0 then .error .negativeSize else .ok ()

/-- The part of `lrange` after its bounds are in order. -/
def collect (items : List Bytes) (start stop : Int64) :
    Except RangeFault (List Bytes) := do
  let span ← int64 (stop.toInt - start.toInt)
  let size ← int64 (span.toInt + 1)
  reserve size
  elementsFrom items stop start

/-- A negative bound counts from the tail. -/
def fromTail (n bound : Int64) : Except RangeFault Int64 :=
  if bound < 0 then int64 (bound.toInt + n.toInt) else .ok bound

/-- A stop past the end is the last index. -/
def throughLast (n stop : Int64) : Except RangeFault Int64 :=
  if n ≤ stop then int64 (n.toInt - 1) else .ok stop

/-- The body of `lrange`, once the list is found. -/
def rangeOf (items : List Bytes) (start stop : Int64) :
    Except RangeFault (List Bytes) := do
  let n := Int64.ofNat items.length
  let start ← fromTail n start
  let stop ← fromTail n stop
  let start := if start < 0 then 0 else start
  let stop ← throughLast n stop
  if stop < start ∨ n ≤ start then .ok [] else collect items start stop

/-- `lrange` as the source computes it. -/
def Db.lrange64 (db : Db) (key : Bytes) (start stop : Int64) :
    Except RangeFault (List Bytes) :=
  match db.find key with
  | none => .ok []
  | some (.string _) => .error (.db .badVariantAccess)
  | some (.list items) => rangeOf items start stop

/-! ## No step faults -/

section Steps

variable {items : List Bytes}

theorem elementAt_of_inside {i : Int64} (low : 0 ≤ i.toInt)
    (inside : i.toInt.toNat < items.length) :
    elementAt items i = .ok items[i.toInt.toNat] := by
  have position : i.toUInt64.toNat = i.toInt.toNat :=
    Int64.toNat_toUInt64_of_le (Int64.le_iff_toInt_le.mpr low)
  rw [elementAt, position, List.getElem?_eq_getElem inside]

/-- The loop collects the elements through `stop`; `count` is how many are
left. -/
theorem elementsFrom_eq {stop : Int64} (short : items.length < 2 ^ 63)
    (inside : stop.toInt < items.length) (count : Nat) {i : Int64}
    (low : 0 ≤ i.toInt) (left : (stop.toInt + 1 - i.toInt).toNat = count) :
    elementsFrom items stop i =
      .ok ((items.drop i.toInt.toNat).take count) := by
  induction count generalizing i with
  | zero =>
      have done : ¬ i ≤ stop := by
        rw [Int64.le_iff_toInt_le]
        omega
      rw [elementsFrom, if_neg done, List.take_zero]
  | succ count induction =>
      have more : i ≤ stop := by
        rw [Int64.le_iff_toInt_le]
        omega
      have bound : i.toInt.toNat < items.length := by omega
      obtain ⟨following, made, isNext⟩ :=
        @int64_of_fits (i.toInt + 1) (by omega) (by omega)
      have rest := @induction following (by omega) (by omega)
      have position : following.toInt.toNat = i.toInt.toNat + 1 := by omega
      rw [elementsFrom, if_pos more, elementAt_of_inside low bound]
      dsimp only
      -- the recursive call stands under the equation of its index
      split
      · rename_i failed
        cases made.symm.trans failed
      · rename_i word same
        cases made.symm.trans same
        rw [rest, position, List.drop_eq_getElem_cons bound,
          List.take_succ_cons]
        rfl

/-- The first two additions: neither overflows, whatever the bound. -/
theorem fromTail_fits (short : items.length < 2 ^ 63) (bound : Int64) :
    ∃ word, fromTail (Int64.ofNat items.length) bound = .ok word ∧
      word.toInt =
        if bound.toInt < 0 then bound.toInt + items.length
        else bound.toInt := by
  have length := Int64.toInt_ofNat_of_lt short
  have low := Int64.minValue_le_toInt bound
  rw [Int64.toInt_minValue] at low
  by_cases negative : bound.toInt < 0
  · obtain ⟨word, made, isSum⟩ :=
      @int64_of_fits (bound.toInt + items.length) (by omega) (by omega)
    refine ⟨word, ?_, ?_⟩
    · rw [fromTail, if_pos (Int64.lt_iff_toInt_lt.mpr negative), length, made]
    · rw [isSum, if_pos negative]
  · refine ⟨bound, ?_, ?_⟩
    · rw [fromTail, if_neg fun less => negative (Int64.lt_iff_toInt_lt.mp less)]
    · rw [if_neg negative]

/-- Nor does the subtraction. -/
theorem throughLast_fits (short : items.length < 2 ^ 63) (stop : Int64) :
    ∃ word, throughLast (Int64.ofNat items.length) stop = .ok word ∧
      word.toInt = min stop.toInt (items.length - 1) := by
  have length := Int64.toInt_ofNat_of_lt short
  by_cases beyond : (items.length : Int) ≤ stop.toInt
  · obtain ⟨word, made, isLast⟩ :=
      @int64_of_fits ((items.length : Int) - 1) (by omega) (by omega)
    refine ⟨word, ?_, by omega⟩
    simp only [throughLast, Int64.le_iff_toInt_le, length, if_pos beyond, made]
  · refine ⟨stop, ?_, by omega⟩
    simp only [throughLast, Int64.le_iff_toInt_le, length, if_neg beyond]

theorem toInt_clampStart (start : Int64) :
    (if start < 0 then 0 else start).toInt = max start.toInt 0 := by
  by_cases negative : start < 0
  · have below : start.toInt < 0 := Int64.lt_iff_toInt_lt.mp negative
    rw [if_pos negative, Int64.toInt_zero]
    omega
  · have above : ¬ start.toInt < 0 := fun below =>
      negative (Int64.lt_iff_toInt_lt.mpr below)
    rw [if_neg negative]
    omega

/-- What is reserved is a size, and the loop stays inside the list. -/
theorem collect_eq (short : items.length < 2 ^ 63) {start stop : Int64}
    (low : 0 ≤ start.toInt) (ordered : start.toInt ≤ stop.toInt)
    (inside : stop.toInt < items.length) :
    collect items start stop =
      .ok ((items.drop start.toInt.toNat).take
        (stop.toInt - start.toInt + 1).toNat) := by
  obtain ⟨span, spanMade, isSpan⟩ :=
    @int64_of_fits (stop.toInt - start.toInt) (by omega) (by omega)
  obtain ⟨size, sizeMade, isSize⟩ :=
    @int64_of_fits (span.toInt + 1) (by omega) (by omega)
  have natural : ¬ size < 0 := by
    rw [Int64.lt_iff_toInt_lt, Int64.toInt_zero]
    omega
  simp only [collect, spanMade, sizeMade, reserve, if_neg natural, bind,
    Except.bind]
  exact elementsFrom_eq short inside _ low (by omega)

/-- The body returns the elements between the bounds. -/
theorem rangeOf_eq (short : items.length < 2 ^ 63) (start stop : Int64) :
    rangeOf items start stop =
      .ok (sublist items start.toInt stop.toInt) := by
  have length := Int64.toInt_ofNat_of_lt short
  obtain ⟨first, firstMade, isFirst⟩ := fromTail_fits short start
  obtain ⟨last, lastMade, isLast⟩ := fromTail_fits short stop
  obtain ⟨high, highMade, isHigh⟩ := throughLast_fits short last
  have isLow := toInt_clampStart first
  rw [sublist_eq]
  simp only [← isFirst, ← isLast, ← clamped_eq items isLow isHigh]
  simp only [rangeOf, firstMade, lastMade, highMade, bind, Except.bind]
  generalize (if first < 0 then 0 else first) = low at isLow ⊢
  simp only [Int64.lt_iff_toInt_lt, Int64.le_iff_toInt_le, length]
  split
  · rfl
  · rename_i inside
    exact collect_eq short (by omega) (by omega) (by omega)

end Steps

/-! ## The slice -/

/-- The index a bound stands for in a list of `n` elements. -/
def boundIndex (n : Nat) (bound : Int64) : Int :=
  if 0 ≤ bound.toInt then bound.toInt else bound.toInt + n

/-- The elements whose index lies between the two bounds, in order. -/
def inBounds (items : List Bytes) (start stop : Int64) : List Bytes :=
  (items.zipIdx.filter fun entry =>
    max 0 (boundIndex items.length start) ≤ entry.2 ∧
      entry.2 ≤ min ((items.length : Int) - 1)
        (boundIndex items.length stop)).map
    Prod.fst

theorem sublist_eq_inBounds (items : List Bytes) (start stop : Int64) :
    sublist items start.toInt stop.toInt = inBounds items start stop := by
  rw [sublist, inBounds]
  congr 1
  refine List.filter_congr ?_
  intro entry member
  have inside : entry.2 < items.length := List.snd_lt_of_mem_zipIdx member
  rw [decide_eq_decide]
  unfold boundIndex
  omega

/-- The 64-bit function refines the one over the integers. -/
theorem lrange64_eq_lrange (db : Db) (key : Bytes)
    (short : ∀ items, db.find key = some (.list items) →
      items.length < 2 ^ 63) (start stop : Int64) :
    db.lrange64 key start stop =
      (db.lrange key start.toInt stop.toInt).mapError .db := by
  cases stored : db.find key with
  | none => simp only [Db.lrange64, Db.lrange, stored, Except.mapError]
  | some value =>
      cases value with
      | string text =>
          simp only [Db.lrange64, Db.lrange, stored, Except.mapError]
      | list items =>
          rw [lrange_eq stored]
          simp only [Db.lrange64, stored, Except.mapError]
          exact rangeOf_eq (short items stored) start stop

/-- Every pair of bounds selects exactly the elements between them.  The result
is not a fault, so no sum overflowed, no size was negative and no access was
outside the list. -/
theorem lrange_exact {db : Db} {key : Bytes} {items : List Bytes}
    (stored : db.find key = some (.list items))
    (short : items.length < 2 ^ 63) (start stop : Int64) :
    db.lrange64 key start stop = .ok (inBounds items start stop) ∧
      db.lrange key start.toInt stop.toInt =
        .ok (inBounds items start stop) := by
  have unbounded : db.lrange key start.toInt stop.toInt =
      .ok (inBounds items start stop) := by
    rw [lrange_eq stored, sublist_eq_inBounds]
  refine ⟨?_, unbounded⟩
  rw [lrange64_eq_lrange, unbounded]
  · rfl
  · intro found isFound
    cases stored.symm.trans isFound
    exact short

/-- The widest bounds select the whole list, and `-2` to `-1` its last two
elements. -/
theorem lrange_exact_three :
    let items := [ascii "a", ascii "b", ascii "c"]
    let db := Db.empty.put (ascii "l") (.list items)
    db.lrange64 (ascii "l") Int64.minValue Int64.maxValue = .ok items ∧
      db.lrange64 (ascii "l") (-2) (-1) = .ok [ascii "b", ascii "c"] := by
  intro items db
  have stored : db.find (ascii "l") = some (.list items) := by decide
  have short : items.length < 2 ^ 63 := by decide
  have whole : inBounds items Int64.minValue Int64.maxValue = items := by decide
  have lastTwo : inBounds items (-2) (-1) = [ascii "b", ascii "c"] := by decide
  rw [(lrange_exact stored short Int64.minValue Int64.maxValue).1,
    (lrange_exact stored short (-2) (-1)).1, whole, lastTwo]
  exact ⟨rfl, rfl⟩

end HermitDb.Core
