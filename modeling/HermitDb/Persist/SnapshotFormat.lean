import HermitDb.Persist.Snapshot

/-!
# What the snapshot loader reads

Each reader of the loader takes exactly what the matching writer puts, for
values whose lengths fit the length fields.  A file is therefore accepted
exactly if it starts with the magic bytes, a count and that many entries, and
the entries decide what is stored.
-/

namespace HermitDb.Persist

open HermitDb.Core Library FileStream

variable {order : ByteOrder}

/-! ## Fields -/

theorem read_recognizes (count : Nat) :
    Reader.Recognizes unread (FileStream.read count) id (·.length = count) := by
  intro stream bytes rest
  simp only [FileStream.read, Reader.outcome_ofOutcome, id_eq]
  constructor
  · rintro ⟨next, taken, left⟩
    split at taken
    · rename_i enough
      cases taken
      refine ⟨List.length_take_of_le enough, ?_⟩
      rw [← left, List.take_append_drop]
    · cases taken
  · rintro ⟨rfl, starts⟩
    rw [starts, if_pos (by simp)]
    exact ⟨_, by rw [List.take_left], List.drop_left⟩

theorem fixedWidth_recognizes (order : ByteOrder) (width : Nat) :
    Reader.Recognizes unread
      (do let bytes ← FileStream.read width; return order.decode bytes)
      (order.encode width) (· < 256 ^ width) := by
  refine (read_recognizes width).map order.decode (order.encode width) ?_
  intro bytes number
  constructor
  · rintro ⟨bound, rfl⟩
    exact ⟨order.length_encode _ _, (order.decode_encode _ _ bound).symm⟩
  · rintro ⟨rfl, rfl⟩
    exact ⟨order.decode_lt _, order.encode_decode _⟩

theorem getU8_recognizes :
    Reader.Recognizes unread getU8 putU8 (· < 256) := by
  refine (read_recognizes 1).map _ putU8 ?_
  intro bytes number
  constructor
  · rintro ⟨bound, rfl⟩
    exact ⟨rfl, (Nat.mod_eq_of_lt bound).symm⟩
  · rintro ⟨single, rfl⟩
    obtain ⟨byte, rfl⟩ := List.length_eq_one_iff.mp single
    exact ⟨byte.toNat_lt, by simp [putU8]⟩

theorem getU32_recognizes (order : ByteOrder) :
    Reader.Recognizes unread (getU32 order) (putU32 order) (· < 2 ^ 32) := by
  refine (fixedWidth_recognizes order 4).congr (fun _ => by norm_num) ?_
  intro number bound
  rw [putU32, Nat.mod_eq_of_lt bound]

theorem getU64_recognizes (order : ByteOrder) :
    Reader.Recognizes unread (getU64 order) (putU64 order) (· < 2 ^ 64) := by
  refine (fixedWidth_recognizes order 8).congr (fun _ => by norm_num) ?_
  intro number bound
  rw [putU64, Nat.mod_eq_of_lt bound]

theorem getI64_recognizes (order : ByteOrder) :
    Reader.Recognizes unread (getI64 order) (putI64 order) (fun _ => True) := by
  refine ((read_recognizes 8).map _ (putI64 order) ?_).congr
    (fun _ => Iff.rfl) fun _ _ => rfl
  intro bytes number
  constructor
  · rintro ⟨_, rfl⟩
    refine ⟨order.length_encode _ _, ?_⟩
    rw [putI64, order.decode_encode _ _ number.toUInt64.toNat_lt,
      UInt64.ofNat_toNat, Int64.toInt64_toUInt64]
  · rintro ⟨length, rfl⟩
    refine ⟨trivial, ?_⟩
    have bound := order.decode_lt bytes
    rw [length] at bound
    rw [putI64, UInt64.toUInt64_toInt64,
      UInt64.toNat_ofNat_of_lt' (by simpa using bound), ← length,
      order.encode_decode]

theorem resize_recognizes (size : Nat) :
    Reader.Recognizes unread (resize size) (fun _ => []) (fun _ => True) :=
  .modify fun _ => rfl

theorem getBytes_recognizes (order : ByteOrder) (remaining : Nat) :
    Reader.Recognizes unread (getBytes order remaining) (putBytes order)
      (fun text => text.length < 2 ^ 32 ∧ text.length ≤ remaining) := by
  have body (len : Nat) := (Reader.Recognizes.guarded (len ≤ remaining)).andThen
    ((resize_recognizes len).andThen (read_recognizes len))
  refine (getU32_recognizes order).bind List.length (fun len _ => body len) ?_ ?_
  · intro len text
    constructor
    · rintro ⟨⟨fits, bound⟩, rfl⟩
      exact ⟨fits, bound, trivial, rfl⟩
    · rintro ⟨fits, bound, _, rfl⟩
      exact ⟨⟨fits, bound⟩, rfl⟩
  · intro text _
    rfl

/-- The check against the bytes left never decides: a text that is there is
not longer than what was left. -/
theorem getText_recognizes (order : ByteOrder) :
    Reader.Recognizes unread (getText order) (putBytes order)
      (·.length < 2 ^ 32) := by
  intro stream text rest
  have called : (getText order).outcome stream =
      (getBytes order stream.unread.length).outcome stream := by
    rw [getText, Reader.outcome_bind]
    rfl
  rw [called, getBytes_recognizes order _ stream text rest]
  constructor
  · rintro ⟨⟨fits, _⟩, starts⟩
    exact ⟨fits, starts⟩
  · rintro ⟨fits, starts⟩
    refine ⟨⟨fits, ?_⟩, starts⟩
    rw [starts, putBytes]
    simp only [List.length_append]
    omega

theorem getTag_recognizes :
    Reader.Recognizes unread getTag putU8 (· ≤ 1) := by
  have body (tag : Nat) : Reader.Recognizes unread
      (do guard (tag ≤ 1); return tag) (fun _ => [])
      (fun item => tag ≤ 1 ∧ item = tag) :=
    (Reader.Recognizes.guarded (tag ≤ 1)).andThen (.pure tag)
  refine getU8_recognizes.bind id (fun tag _ => body tag) ?_ ?_
  · intro tag item
    constructor
    · rintro ⟨bound, rfl⟩
      exact ⟨by simp only [id_eq]; omega, bound, rfl⟩
    · rintro ⟨_, bound, rfl⟩
      exact ⟨bound, rfl⟩
  · intro item _
    exact (List.append_nil _).symm

/-! ## Entries -/

/-- All lengths fit the 32-bit length fields. -/
def ValueFits : Value → Prop
  | .string text => text.length < 2 ^ 32
  | .list items => items.length < 2 ^ 32 ∧ ∀ item ∈ items, item.length < 2 ^ 32

structure SnapshotEntry.Fits (entry : SnapshotEntry) : Prop where
  key : entry.key.length < 2 ^ 32
  value : ValueFits entry.value

theorem typeTag_le (value : Value) : typeTag value ≤ 1 := by
  cases value with
  | string text => exact Nat.zero_le 1
  | list items => exact Nat.le_refl 1

theorem ttlTag_le (atMs : Option Int64) : ttlTag atMs ≤ 1 := by
  cases atMs with
  | none => exact Nat.zero_le 1
  | some atMs => exact Nat.le_refl 1

def textOf : Value → Bytes
  | .string text => text
  | .list _ => []

def itemsOf : Value → List Bytes
  | .string _ => []
  | .list items => items

theorem getDeadline_recognizes (order : ByteOrder) {hasTtl : Nat}
    (bound : hasTtl ≤ 1) :
    Reader.Recognizes unread (getDeadline order hasTtl) (putDeadline order)
      (ttlTag · = hasTtl) := by
  rcases Nat.le_one_iff_eq_zero_or_eq_one.mp bound with rfl | rfl
  · refine (Reader.Recognizes.pure none).congr ?_ ?_
    · intro atMs
      cases atMs <;> simp [ttlTag]
    · intro atMs absent
      cases atMs with
      | none => rfl
      | some atMs => cases absent
  · have armed : Reader.Recognizes unread
        (do let atMs ← getI64 order; return some atMs)
        (fun atMs => putI64 order (atMs.getD 0)) (ttlTag · = 1) := by
      refine (getI64_recognizes order).map some (·.getD 0) ?_
      intro number atMs
      cases atMs <;> simp [ttlTag]
    refine armed.congr (fun _ => Iff.rfl) ?_
    intro atMs present
    cases atMs with
    | none => cases present
    | some atMs => rfl

theorem getElement_recognizes (order : ByteOrder) :
    Reader.Recognizes unread (getElement order) (putBytes order)
      (·.length < 2 ^ 32) := by
  have counted : Reader.Recognizes unread beginRound (fun _ => [])
      (fun _ => True) := .modify fun _ => rfl
  exact (counted.andThen (getText_recognizes order)).congr
    (fun _ => iff_of_eq (true_and _)) fun _ _ => rfl

theorem getString_recognizes (order : ByteOrder) :
    Reader.Recognizes unread (getValue order 0) (putValue order)
      (fun value => typeTag value = 0 ∧ ValueFits value) := by
  have string : Reader.Recognizes unread
      (do let text ← getText order; return Value.string text)
      (fun value => putBytes order (textOf value))
      (fun value => typeTag value = 0 ∧ ValueFits value) := by
    refine (getText_recognizes order).map Value.string textOf ?_
    intro text value
    constructor
    · rintro ⟨⟨isString, fits⟩, rfl⟩
      cases value with
      | string text => exact ⟨fits, rfl⟩
      | list items => cases isString
    · rintro ⟨fits, rfl⟩
      exact ⟨⟨rfl, fits⟩, rfl⟩
  refine string.congr (fun _ => Iff.rfl) ?_
  intro value isString
  cases value with
  | string text => rfl
  | list items => cases isString.1

theorem getList_recognizes (order : ByteOrder) :
    Reader.Recognizes unread (getValue order 1) (putValue order)
      (fun value => typeTag value = 1 ∧ ValueFits value) := by
  have list (count : Nat) : Reader.Recognizes unread
      (do let items ← Reader.times (getElement order) count
          return Value.list items)
      (fun value => (itemsOf value).flatMap (putBytes order))
      (fun value => typeTag value = 1 ∧ (itemsOf value).length = count ∧
        ∀ item ∈ itemsOf value, item.length < 2 ^ 32) := by
    refine ((getElement_recognizes order).times count).map Value.list itemsOf ?_
    intro items value
    constructor
    · rintro ⟨⟨isList, length, fit⟩, rfl⟩
      cases value with
      | string text => cases isList
      | list items => exact ⟨⟨length, fit⟩, rfl⟩
    · rintro ⟨⟨length, fit⟩, rfl⟩
      exact ⟨⟨rfl, length, fit⟩, rfl⟩
  refine (getU32_recognizes order).bind (fun value => (itemsOf value).length)
    (fun count _ => list count) ?_ ?_
  · intro count value
    constructor
    · rintro ⟨⟨isList, fits⟩, rfl⟩
      cases value with
      | string text => cases isList
      | list items => exact ⟨fits.1, rfl, rfl, fits.2⟩
    · rintro ⟨bound, isList, rfl, fit⟩
      cases value with
      | string text => cases isList
      | list items => exact ⟨⟨rfl, bound, fit⟩, rfl⟩
  · intro value isList
    cases value with
    | string text => cases isList.1
    | list items => rfl

theorem getValue_recognizes (order : ByteOrder) {type : Nat}
    (bound : type ≤ 1) :
    Reader.Recognizes unread (getValue order type) (putValue order)
      (fun value => typeTag value = type ∧ ValueFits value) := by
  rcases Nat.le_one_iff_eq_zero_or_eq_one.mp bound with rfl | rfl
  · exact getString_recognizes order
  · exact getList_recognizes order

/-- The fields from the value on, when the others have been read. -/
theorem getEntry_value_recognizes (order : ByteOrder) {type : Nat}
    (bound : type ≤ 1) (key : Bytes) (atMs : Option Int64) :
    Reader.Recognizes unread
      (do let value ← getValue order type
          return SnapshotEntry.mk key atMs value)
      (fun entry => putValue order entry.value)
      (fun entry => entry.key = key ∧ entry.atMs = atMs ∧
        typeTag entry.value = type ∧ ValueFits entry.value) := by
  refine (getValue_recognizes order bound).map (SnapshotEntry.mk key atMs)
    SnapshotEntry.value ?_
  intro value entry
  constructor
  · rintro ⟨⟨rfl, rfl, isType, fits⟩, rfl⟩
    exact ⟨⟨isType, fits⟩, rfl⟩
  · rintro ⟨⟨isType, fits⟩, rfl⟩
    exact ⟨⟨rfl, rfl, isType, fits⟩, rfl⟩

/-- The fields from the deadline on, under a flag. -/
theorem getEntry_deadline_recognizes (order : ByteOrder) {type hasTtl : Nat}
    (bound : type ≤ 1) (flagBound : hasTtl ≤ 1) (key : Bytes) :
    Reader.Recognizes unread
      (do let atMs ← getDeadline order hasTtl
          let value ← getValue order type
          return SnapshotEntry.mk key atMs value)
      (fun entry => putDeadline order entry.atMs ++ putValue order entry.value)
      (fun entry => entry.key = key ∧ ttlTag entry.atMs = hasTtl ∧
        typeTag entry.value = type ∧ ValueFits entry.value) := by
  refine (getDeadline_recognizes order flagBound).bind SnapshotEntry.atMs
    (fun atMs _ => getEntry_value_recognizes order bound key atMs) ?_
    (fun _ _ => rfl)
  intro atMs entry
  constructor
  · rintro ⟨⟨isKey, isFlag, isType, fits⟩, rfl⟩
    exact ⟨isFlag, isKey, rfl, isType, fits⟩
  · rintro ⟨isFlag, isKey, rfl, isType, fits⟩
    exact ⟨⟨isKey, isFlag, isType, fits⟩, rfl⟩

/-- The fields after the key. -/
theorem getEntry_flag_recognizes (order : ByteOrder) {type : Nat}
    (bound : type ≤ 1) (key : Bytes) :
    Reader.Recognizes unread
      (do let hasTtl ← getTag
          let atMs ← getDeadline order hasTtl
          let value ← getValue order type
          return SnapshotEntry.mk key atMs value)
      (fun entry => putU8 (ttlTag entry.atMs) ++
        (putDeadline order entry.atMs ++ putValue order entry.value))
      (fun entry => entry.key = key ∧ typeTag entry.value = type ∧
        ValueFits entry.value) := by
  refine getTag_recognizes.bind (fun entry => ttlTag entry.atMs)
    (fun hasTtl flagBound =>
      getEntry_deadline_recognizes order bound flagBound key) ?_
    (fun _ _ => rfl)
  intro hasTtl entry
  constructor
  · rintro ⟨⟨isKey, isType, fits⟩, rfl⟩
    exact ⟨ttlTag_le _, isKey, rfl, isType, fits⟩
  · rintro ⟨_, isKey, rfl, isType, fits⟩
    exact ⟨⟨isKey, isType, fits⟩, rfl⟩

/-- The fields after the type tag. -/
theorem getEntry_key_recognizes (order : ByteOrder) {type : Nat}
    (bound : type ≤ 1) :
    Reader.Recognizes unread
      (do let key ← getText order
          let hasTtl ← getTag
          let atMs ← getDeadline order hasTtl
          let value ← getValue order type
          return SnapshotEntry.mk key atMs value)
      (fun entry => putBytes order entry.key ++ (putU8 (ttlTag entry.atMs) ++
        (putDeadline order entry.atMs ++ putValue order entry.value)))
      (fun entry => entry.Fits ∧ typeTag entry.value = type) := by
  refine (getText_recognizes order).bind SnapshotEntry.key
    (fun key _ => getEntry_flag_recognizes order bound key) ?_ (fun _ _ => rfl)
  intro key entry
  constructor
  · rintro ⟨⟨fits, isType⟩, rfl⟩
    exact ⟨fits.key, rfl, isType, fits.value⟩
  · rintro ⟨keyFits, rfl, isType, fits⟩
    exact ⟨⟨⟨keyFits, fits⟩, isType⟩, rfl⟩

theorem getEntry_recognizes (order : ByteOrder) :
    Reader.Recognizes unread (getEntry order) (putEntry order)
      SnapshotEntry.Fits := by
  refine getTag_recognizes.bind (fun entry => typeTag entry.value)
    (fun type bound => getEntry_key_recognizes order bound) ?_ ?_
  · intro type entry
    constructor
    · rintro ⟨fits, rfl⟩
      exact ⟨typeTag_le _, fits, rfl⟩
    · rintro ⟨_, fits, rfl⟩
      exact ⟨fits, rfl⟩
  · intro entry _
    simp only [putEntry, List.append_assoc]

/-! ## Files -/

theorem entryRound_recognizes (order : ByteOrder) :
    Reader.Recognizes unread (do beginRound; getEntry order) (putEntry order)
      SnapshotEntry.Fits := by
  have counted : Reader.Recognizes unread beginRound (fun _ => [])
      (fun _ => True) := .modify fun _ => rfl
  exact (counted.andThen (getEntry_recognizes order)).congr
    (fun _ => iff_of_eq (true_and _)) fun _ _ => rfl

/-- The entries in a stream are stored one after another. -/
theorem loadEntries_of_entries (order : ByteOrder) {entries : List SnapshotEntry}
    (fit : ∀ entry ∈ entries, entry.Fits) (index : Nat) (tables : Tables)
    {stream : FileStream} {rest : Bytes}
    (starts : stream.unread = entries.flatMap (putEntry order) ++ rest) :
    ∃ final, loadEntries order index entries.length tables stream =
        ⟨none, entries.foldl Tables.restore tables, final⟩ ∧
      final.unread = rest := by
  induction entries generalizing index tables stream with
  | nil => exact ⟨stream, rfl, starts⟩
  | cons entry entries induction =>
      obtain ⟨entryFits, entriesFit⟩ := List.forall_mem_cons.mp fit
      rw [List.flatMap_cons, List.append_assoc] at starts
      obtain ⟨next, taken, follows⟩ :=
        (entryRound_recognizes order stream entry _).mpr ⟨entryFits, starts⟩
      rw [List.length_cons, loadEntries, taken]
      exact induction entriesFit (index + 1) (tables.restore entry) follows

/-- What the loop stored is what stands at the start of the stream; it gives up
at the first place where no entry stands. -/
theorem loadEntries_cases (order : ByteOrder) (index left : Nat)
    (tables : Tables) (stream : FileStream) :
    ∃ (entries : List SnapshotEntry) (rest : Bytes),
      (∀ entry ∈ entries, entry.Fits) ∧
      stream.unread = entries.flatMap (putEntry order) ++ rest ∧
      (loadEntries order index left tables stream).tables =
        entries.foldl Tables.restore tables ∧
      ((loadEntries order index left tables stream).error = none ∧
          entries.length = left ∨
        (loadEntries order index left tables stream).error =
            some (corruptEntry (index + entries.length)) ∧
          entries.length < left ∧
          ∀ entry : SnapshotEntry, entry.Fits →
            ¬ putEntry order entry <+: rest) := by
  induction left generalizing index tables stream with
  | zero =>
      exact ⟨[], stream.unread, List.forall_mem_nil _, rfl, rfl,
        .inl ⟨rfl, rfl⟩⟩
  | succ left induction =>
      rw [loadEntries]
      cases taken : (do beginRound; getEntry order).outcome stream with
      | mk item next =>
          cases item with
          | none =>
              refine ⟨[], stream.unread, List.forall_mem_nil _, rfl, rfl,
                .inr ⟨rfl, Nat.succ_pos left, ?_⟩⟩
              rintro entry fits ⟨rest, starts⟩
              obtain ⟨other, otherTaken, _⟩ :=
                (entryRound_recognizes order stream entry rest).mpr
                  ⟨fits, starts.symm⟩
              rw [taken] at otherTaken
              cases otherTaken
          | some entry =>
              obtain ⟨fits, starts⟩ :=
                (entryRound_recognizes order stream entry _).mp
                  ⟨next, taken, rfl⟩
              obtain ⟨entries, rest, fit, follows, stored, ending⟩ :=
                induction (index + 1) (tables.restore entry) next
              refine ⟨entry :: entries, rest,
                List.forall_mem_cons.mpr ⟨fits, fit⟩, ?_, stored, ?_⟩
              · rw [starts, follows, List.flatMap_cons, List.append_assoc]
              · rcases ending with ⟨accepted, length⟩ | ⟨rejected, short, stuck⟩
                · exact .inl ⟨accepted, congrArg (· + 1) length⟩
                · refine .inr ⟨?_, Nat.succ_lt_succ short, stuck⟩
                  rw [rejected, List.length_cons]
                  congr 2
                  omega

/-- A file with these entries and something after the last of them. -/
structure Snapshot (order : ByteOrder) (bytes : Bytes)
    (entries : List SnapshotEntry) (surplus : Bytes) : Prop where
  count : entries.length < 2 ^ 64
  fit : ∀ entry ∈ entries, entry.Fits
  layout : bytes = kMagic ++ (putU64 order entries.length ++
    (entries.flatMap (putEntry order) ++ surplus))

/-- The loader accepts a snapshot, stores its entries in order and does not
look at what follows. -/
theorem Snapshot.load {bytes surplus : Bytes} {entries : List SnapshotEntry}
    (snapshot : Snapshot order bytes entries surplus) (tables : Tables)
    (path : Bytes) :
    ∃ final, loadSnapshot order tables path (some bytes) =
        ⟨none, entries.foldl Tables.restore tables, final⟩ ∧
      final.unread = surplus := by
  obtain ⟨afterMagic, magicRead, magicRest⟩ :=
    (read_recognizes 4 ⟨bytes, [], 0⟩ kMagic _).mpr ⟨rfl, snapshot.layout⟩
  obtain ⟨afterCount, countRead, countRest⟩ :=
    (getU64_recognizes order afterMagic entries.length _).mpr
      ⟨snapshot.count, magicRest⟩
  obtain ⟨final, loaded, left⟩ :=
    loadEntries_of_entries order snapshot.fit 0 tables countRest
  refine ⟨final, ?_, left⟩
  simp only [loadSnapshot, magicRead, countRead, loaded, ne_eq, not_true,
    if_false]

/-- Only snapshots are accepted. -/
theorem snapshot_of_accepted {tables : Tables} {path bytes : Bytes}
    (accepted :
      (loadSnapshot order tables path (some bytes)).error = none) :
    ∃ entries surplus, Snapshot order bytes entries surplus := by
  simp only [loadSnapshot] at accepted
  split at accepted
  · cases accepted
  · rename_i magic afterMagic magicRead
    obtain ⟨_, starts⟩ :=
      (read_recognizes 4 ⟨bytes, [], 0⟩ magic _).mp ⟨_, magicRead, rfl⟩
    split at accepted
    · cases accepted
    · rename_i isMagic
      obtain rfl := Decidable.of_not_not isMagic
      split at accepted
      · cases accepted
      · rename_i count afterCount countRead
        obtain ⟨bound, follows⟩ :=
          (getU64_recognizes order _ count _).mp ⟨_, countRead, rfl⟩
        obtain ⟨entries, rest, fit, stored, _, ending⟩ :=
          loadEntries_cases order 0 count tables afterCount
        rcases ending with ⟨_, rfl⟩ | ⟨rejected, _⟩
        · refine ⟨entries, rest, bound, fit, ?_⟩
          rw [← stored, ← follows]
          exact starts
        · rw [rejected] at accepted
          cases accepted

end HermitDb.Persist
