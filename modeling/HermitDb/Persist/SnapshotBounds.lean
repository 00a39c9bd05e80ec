import HermitDb.Persist.SnapshotRoundTrip
import Mathlib.Algebra.Order.BigOperators.Group.Finset

/-!
# What a hostile snapshot can cost

Counts and lengths come straight from the file, but an iteration that goes
through takes bytes off the file, a string is resized to no more than what the
file still holds, and what is stored was read.  Whatever the fields say, the
file's own size bounds the loader's loops, its allocations and the store.
-/

namespace HermitDb.Persist

open HermitDb.Core Library FileStream

/-! ## Iterations -/

/-- Iterations begun and bytes to come.  An iteration adds one and takes off
more, unless it is the last. -/
def toil (stream : FileStream) : Nat :=
  stream.rounds + stream.unread.length

theorem read_spends (count : Nat) :
    Reader.Spends toil (FileStream.read count) count 0 := by
  constructor
  · intro stream bytes next taken
    simp only [FileStream.read, Reader.outcome_ofOutcome] at taken
    split at taken
    · cases taken
      simp only [toil, List.length_drop]
      omega
    · cases taken
  · intro stream next gaveUp
    simp only [FileStream.read, Reader.outcome_ofOutcome] at gaveUp
    split at gaveUp
    · cases gaveUp
    · cases gaveUp
      simp only [toil, List.length_nil]
      omega

theorem fixedWidth_spends {Item : Type} (width : Nat) (convert : Bytes → Item) :
    Reader.Spends toil
      (do let bytes ← FileStream.read width; return convert bytes) width 0 :=
  (read_spends width).bind (fun _ => .pure _) (Nat.le_refl _) (Nat.le_refl _)
    (Nat.zero_le _)

theorem resize_spends (size : Nat) : Reader.Spends toil (resize size) 0 0 := by
  constructor
  · intro stream item next taken
    cases taken
    exact Nat.le_refl _
  · intro stream next gaveUp
    cases gaveUp

theorem bytesLeft_spends : Reader.Spends toil bytesLeft 0 0 := by
  constructor
  · intro stream item next taken
    cases taken
    exact Nat.le_refl _
  · intro stream next gaveUp
    cases gaveUp

theorem getBytes_spends (order : ByteOrder) (remaining : Nat) :
    Reader.Spends toil (getBytes order remaining) 4 0 := by
  have filled (len : Nat) : Reader.Spends toil
      (do resize len; FileStream.read len) 0 0 :=
    (resize_spends len).bind (fun _ => read_spends len) (Nat.zero_le _)
      (Nat.le_refl _) (Nat.le_refl _)
  have checked (len : Nat) : Reader.Spends toil
      (do guard (len ≤ remaining); resize len; FileStream.read len) 0 0 :=
    (Reader.Spends.guarded _).bind (fun _ => filled len) (Nat.le_refl _)
      (Nat.le_refl _) (Nat.le_refl _)
  exact (fixedWidth_spends 4 order.decode).bind checked (Nat.le_refl _)
    (Nat.le_refl _) (Nat.zero_le _)

theorem getText_spends (order : ByteOrder) :
    Reader.Spends toil (getText order) 4 0 :=
  bytesLeft_spends.bind (getBytes_spends order) (Nat.le_refl _) (Nat.le_refl _)
    (Nat.le_refl _)

theorem getTag_spends : Reader.Spends toil getTag 1 0 := by
  have checked (tag : Nat) : Reader.Spends toil
      (do guard (tag ≤ 1); return tag) 0 0 :=
    (Reader.Spends.guarded _).bind (fun _ => .pure tag) (Nat.le_refl _)
      (Nat.le_refl _) (Nat.le_refl _)
  exact (fixedWidth_spends 1 _).bind checked (Nat.le_refl _) (Nat.le_refl _)
    (Nat.zero_le _)

theorem getDeadline_spends (order : ByteOrder) (hasTtl : Nat) :
    Reader.Spends toil (getDeadline order hasTtl) 0 0 := by
  unfold getDeadline
  split
  · exact .pure none
  · exact (fixedWidth_spends 8 _).bind (fun _ => .pure _) (Nat.zero_le _)
      (Nat.le_refl _) (Nat.zero_le _)

theorem round_costs (stream : FileStream) :
    toil { stream with rounds := stream.rounds + 1 } ≤ toil stream + 1 := by
  simp only [toil]
  omega

theorem getElement_spends (order : ByteOrder) :
    Reader.Spends toil (getElement order) 0 1 :=
  .modify_bind round_costs (getText_spends order) (by decide) (Nat.le_refl _)

/-- Should the last element fail, the list length before it has paid. -/
theorem getValue_spends (order : ByteOrder) (type : Nat) :
    Reader.Spends toil (getValue order type) 0 0 := by
  unfold getValue
  split
  · exact (getText_spends order).bind (fun _ => .pure _) (Nat.zero_le _)
      (Nat.le_refl _) (Nat.zero_le _)
  · have elements (count : Nat) : Reader.Spends toil
        (do let items ← Reader.times (getElement order) count
            return Value.list items) 0 1 :=
      ((getElement_spends order).times count).bind (fun _ => .pure _)
        (Nat.le_refl _) (Nat.le_refl _) (Nat.zero_le _)
    exact (fixedWidth_spends 4 order.decode).bind elements (Nat.zero_le _)
      (Nat.le_refl _) (by decide)

theorem getEntry_spends (order : ByteOrder) :
    Reader.Spends toil (getEntry order) 1 0 := by
  have value (type : Nat) (key : Bytes) (atMs : Option Int64) :
      Reader.Spends toil
        (do let value ← getValue order type
            return SnapshotEntry.mk key atMs value) 0 0 :=
    (getValue_spends order type).bind (fun _ => .pure _) (Nat.le_refl _)
      (Nat.le_refl _) (Nat.le_refl _)
  have deadline (type : Nat) (key : Bytes) (hasTtl : Nat) :
      Reader.Spends toil
        (do let atMs ← getDeadline order hasTtl
            let value ← getValue order type
            return SnapshotEntry.mk key atMs value) 0 0 :=
    (getDeadline_spends order hasTtl).bind (value type key) (Nat.le_refl _)
      (Nat.le_refl _) (Nat.le_refl _)
  have flag (type : Nat) (key : Bytes) :
      Reader.Spends toil
        (do let hasTtl ← getTag
            let atMs ← getDeadline order hasTtl
            let value ← getValue order type
            return SnapshotEntry.mk key atMs value) 0 0 :=
    getTag_spends.bind (deadline type key) (Nat.zero_le _) (Nat.le_refl _)
      (Nat.zero_le _)
  have key (type : Nat) :
      Reader.Spends toil
        (do let key ← getText order
            let hasTtl ← getTag
            let atMs ← getDeadline order hasTtl
            let value ← getValue order type
            return SnapshotEntry.mk key atMs value) 0 0 :=
    (getText_spends order).bind (flag type) (Nat.zero_le _) (Nat.le_refl _)
      (Nat.zero_le _)
  exact getTag_spends.bind key (Nat.le_refl _) (Nat.le_refl _) (Nat.zero_le _)

theorem entryRound_spends (order : ByteOrder) :
    Reader.Spends toil (do beginRound; getEntry order) 0 1 :=
  .modify_bind round_costs (getEntry_spends order) (Nat.le_refl _)
    (Nat.le_refl _)

theorem loadEntries_toil (order : ByteOrder) (index left : Nat)
    (tables : Tables) (stream : FileStream) :
    toil (loadEntries order index left tables stream).stream ≤
      toil stream + 1 := by
  induction left generalizing index tables stream with
  | zero => exact Nat.le_succ _
  | succ left induction =>
      rw [loadEntries]
      cases outcome : (do beginRound; getEntry order).outcome stream with
      | mk item next =>
          cases item with
          | none => exact (entryRound_spends order).gaveUp outcome
          | some entry =>
              have spent := (entryRound_spends order).taken outcome
              have rest := induction (index + 1) (tables.restore entry) next
              exact rest.trans (Nat.succ_le_succ spent)

/-! ## Allocations -/

/-- The stream and all strings resized so far are within the limit. -/
def Within (limit : Nat) (stream : FileStream) : Prop :=
  stream.unread.length ≤ limit ∧ ∀ size ∈ stream.resizes, size ≤ limit

variable {limit : Nat}

theorem read_keeps (count : Nat) :
    Reader.Keeps (Within limit) (FileStream.read count) := by
  rintro stream ⟨short, bounded⟩
  simp only [FileStream.read, Reader.outcome_ofOutcome]
  split
  · refine ⟨?_, bounded⟩
    simp only [List.length_drop]
    omega
  · exact ⟨Nat.zero_le _, bounded⟩

theorem fixedWidth_keeps {Item : Type} (width : Nat) (convert : Bytes → Item) :
    Reader.Keeps (Within limit)
      (do let bytes ← FileStream.read width; return convert bytes) :=
  (read_keeps width).bind fun _ => .pure _

theorem resize_keeps {size : Nat} (small : size ≤ limit) :
    Reader.Keeps (Within limit) (resize size) :=
  fun _ within => ⟨within.1, List.forall_mem_cons.mpr ⟨small, within.2⟩⟩

/-- The check is against the bytes left, and these are within the limit. -/
theorem getText_keeps (order : ByteOrder) :
    Reader.Keeps (Within limit) (getText order) := by
  intro stream within
  have checked : Reader.Keeps (Within limit)
      (getBytes order stream.unread.length) := by
    refine (fixedWidth_keeps 4 order.decode).bind fun len => ?_
    refine .guard_bind fun small => ?_
    exact (resize_keeps (small.trans within.1)).bind fun _ => read_keeps len
  rw [getText, Reader.outcome_bind]
  exact checked stream within

theorem beginRound_keeps : Reader.Keeps (Within limit) beginRound :=
  fun _ within => within

theorem getTag_keeps : Reader.Keeps (Within limit) getTag :=
  (fixedWidth_keeps 1 _).bind fun _ => .guard_bind fun _ => .pure _

theorem getDeadline_keeps (order : ByteOrder) (hasTtl : Nat) :
    Reader.Keeps (Within limit) (getDeadline order hasTtl) := by
  unfold getDeadline
  split
  · exact .pure none
  · exact (fixedWidth_keeps 8 _).bind fun _ => .pure _

theorem getValue_keeps (order : ByteOrder) (type : Nat) :
    Reader.Keeps (Within limit) (getValue order type) := by
  have element : Reader.Keeps (Within limit) (getElement order) :=
    beginRound_keeps.bind fun _ => getText_keeps order
  unfold getValue
  split
  · exact (getText_keeps order).bind fun _ => .pure _
  · exact (fixedWidth_keeps 4 order.decode).bind fun count =>
      (element.times count).bind fun _ => .pure _

theorem entryRound_keeps (order : ByteOrder) :
    Reader.Keeps (Within limit) (do beginRound; getEntry order) :=
  beginRound_keeps.bind fun _ => getTag_keeps.bind fun type =>
    (getText_keeps order).bind fun _ => getTag_keeps.bind fun hasTtl =>
    (getDeadline_keeps order hasTtl).bind fun _ =>
    (getValue_keeps order type).bind fun _ => .pure _

theorem loadEntries_within (order : ByteOrder) (index left : Nat)
    (tables : Tables) {stream : FileStream} (within : Within limit stream) :
    Within limit (loadEntries order index left tables stream).stream := by
  induction left generalizing index tables stream with
  | zero => exact within
  | succ left induction =>
      have kept := entryRound_keeps order stream within
      rw [loadEntries]
      generalize (do beginRound; getEntry order).outcome stream = result at kept ⊢
      obtain ⟨item, next⟩ := result
      cases item with
      | none => exact kept
      | some entry => exact induction _ _ kept

/-! ## Contents -/

/-- The bytes of a string, or of the elements of a list. -/
def valueBytes : Value → Nat
  | .string text => text.length
  | .list items => (items.map List.length).sum

def entryBytes (entry : SnapshotEntry) : Nat :=
  entry.key.length + valueBytes entry.value

/-- The bytes of all keys, strings and list elements. -/
def storedBytes (db : Db) : Nat :=
  ∑ key ∈ db.map.keys, (key.length + ((db.find key).map valueBytes).getD 0)

theorem length_flatMap_putBytes (order : ByteOrder) (items : List Bytes) :
    (items.map List.length).sum ≤ (items.flatMap (putBytes order)).length := by
  induction items with
  | nil => exact Nat.le_refl 0
  | cons item items induction =>
      rw [List.map_cons, List.sum_cons, List.flatMap_cons, List.length_append,
        putBytes, List.length_append]
      omega

theorem entryBytes_le (order : ByteOrder) (entry : SnapshotEntry) :
    entryBytes entry ≤ (putEntry order entry).length := by
  have value : valueBytes entry.value ≤ (putValue order entry.value).length := by
    cases entry.value with
    | string text =>
        rw [valueBytes, putValue, putBytes, List.length_append]
        exact Nat.le_add_left _ _
    | list items =>
        rw [valueBytes, putValue, List.length_append]
        exact (length_flatMap_putBytes order items).trans (Nat.le_add_left _ _)
  simp only [entryBytes, putEntry, putBytes, List.length_append]
  omega

theorem sum_entryBytes_le (order : ByteOrder) (entries : List SnapshotEntry) :
    (entries.map entryBytes).sum ≤
      (entries.flatMap (putEntry order)).length := by
  induction entries with
  | nil => exact Nat.le_refl 0
  | cons entry entries induction =>
      have := entryBytes_le order entry
      rw [List.map_cons, List.sum_cons, List.flatMap_cons, List.length_append]
      omega

/-- A new value for a key replaces the old one. -/
theorem storedBytes_put (db : Db) (key : Bytes) (value : Value) :
    storedBytes (db.put key value) ≤
      storedBytes db + (key.length + valueBytes value) := by
  have keys : (db.put key value).map.keys = insert key db.map.keys := by
    ext other
    rw [Db.mem_keys_iff, Finset.mem_insert, Db.mem_keys_iff, Db.find_put]
    by_cases same : other = key
    · simp [same]
    · simp [same]
  rw [storedBytes, keys,
    ← Finset.add_sum_erase _ _ (Finset.mem_insert_self key db.map.keys),
    Finset.erase_insert_eq_erase, Db.find_put, if_pos rfl, Nat.add_comm]
  apply Nat.add_le_add_right
  calc ∑ other ∈ db.map.keys.erase key, (other.length +
          (((db.put key value).find other).map valueBytes).getD 0)
      = ∑ other ∈ db.map.keys.erase key, (other.length +
          ((db.find other).map valueBytes).getD 0) := by
        apply Finset.sum_congr rfl
        intro other member
        rw [Db.find_put, if_neg (Finset.ne_of_mem_erase member)]
    _ ≤ storedBytes db :=
        Finset.sum_le_sum_of_subset (Finset.erase_subset _ _)

theorem storedBytes_restoreAll (entries : List SnapshotEntry)
    (tables : Tables) :
    storedBytes (entries.foldl Tables.restore tables).db ≤
      storedBytes tables.db + (entries.map entryBytes).sum := by
  induction entries generalizing tables with
  | nil => exact Nat.le_refl _
  | cons entry entries induction =>
      have first : storedBytes (tables.restore entry).db ≤
          storedBytes tables.db + entryBytes entry :=
        storedBytes_put tables.db entry.key entry.value
      have rest := induction (tables.restore entry)
      rw [List.foldl_cons, List.map_cons, List.sum_cons]
      omega

/-- A file is refused over its header, or the entry loop starts behind the
twelve bytes of the header. -/
theorem loadSnapshot_cases (order : ByteOrder) (tables : Tables)
    (path bytes : Bytes) :
    ((loadSnapshot order tables path (some bytes)).tables = tables ∧
      (loadSnapshot order tables path (some bytes)).stream.rounds = 0 ∧
      (loadSnapshot order tables path (some bytes)).stream.resizes = []) ∨
    ∃ count stream, stream.unread.length + 12 = bytes.length ∧
      stream.rounds = 0 ∧ stream.resizes = [] ∧
      loadSnapshot order tables path (some bytes) =
        loadEntries order 0 count tables stream := by
  by_cases enough : 4 ≤ bytes.length
  · have magicRead : (FileStream.read 4).outcome ⟨bytes, [], 0⟩ =
        (some (bytes.take 4), ⟨bytes.drop 4, [], 0⟩) := if_pos enough
    by_cases isMagic : bytes.take 4 = kMagic
    · by_cases counted : 8 ≤ (bytes.drop 4).length
      · have countRead : (getU64 order).outcome ⟨bytes.drop 4, [], 0⟩ =
            (some (order.decode ((bytes.drop 4).take 8)),
              ⟨(bytes.drop 4).drop 8, [], 0⟩) := by
          rw [getU64, Reader.outcome_bind, FileStream.read,
            Reader.outcome_ofOutcome, if_pos counted]
          rfl
        refine .inr ⟨order.decode ((bytes.drop 4).take 8),
          ⟨(bytes.drop 4).drop 8, [], 0⟩, ?_, rfl, rfl, ?_⟩
        · simp only [List.length_drop] at counted ⊢
          omega
        · simp only [loadSnapshot, magicRead, isMagic, countRead, ne_eq,
            not_true, if_false]
      · have countRead : (getU64 order).outcome ⟨bytes.drop 4, [], 0⟩ =
            (none, ⟨[], [], 0⟩) := by
          rw [getU64, Reader.outcome_bind, FileStream.read,
            Reader.outcome_ofOutcome, if_neg counted]
          rfl
        left
        simp only [loadSnapshot, magicRead, isMagic, countRead, ne_eq, not_true,
          if_false, and_self]
    · left
      simp only [loadSnapshot, magicRead, isMagic, ne_eq, not_false_eq_true,
        if_true, and_self]
  · have noMagic : (FileStream.read 4).outcome ⟨bytes, [], 0⟩ =
        (none, ⟨[], [], 0⟩) := if_neg enough
    left
    simp only [loadSnapshot, noMagic, and_self]

/-- Whatever the fields of a file say, the iterations of the loader, each string
it resizes, and all it places in the store, kept or overwritten, stay within
the size of the file. -/
theorem hostile_snapshot_bounded (order : ByteOrder) (path bytes : Bytes) :
    (loadSnapshot order .empty path (some bytes)).stream.rounds ≤
        bytes.length ∧
      (∀ size ∈ (loadSnapshot order .empty path (some bytes)).stream.resizes,
        size ≤ bytes.length) ∧
      storedBytes (loadSnapshot order .empty path (some bytes)).tables.db ≤
        bytes.length ∧
      ∃ placed : List SnapshotEntry,
        (loadSnapshot order .empty path (some bytes)).tables =
          placed.foldl Tables.restore .empty ∧
        (placed.map entryBytes).sum ≤ bytes.length := by
  rcases loadSnapshot_cases order .empty path bytes with
    ⟨untouched, noRounds, noResizes⟩ | ⟨count, stream, size, fresh, none, loop⟩
  · rw [untouched, noRounds, noResizes]
    exact ⟨Nat.zero_le _, List.forall_mem_nil _, Nat.zero_le _, [], rfl,
      Nat.zero_le _⟩
  · rw [loop]
    have toiled := loadEntries_toil order 0 count .empty stream
    have within : Within bytes.length stream :=
      ⟨by omega, by rw [none]; exact List.forall_mem_nil _⟩
    obtain ⟨placed, rest, _, starts, stored, _⟩ :=
      loadEntries_cases order 0 count .empty stream
    have contents := sum_entryBytes_le order placed
    have total := storedBytes_restoreAll placed .empty
    have nothing : storedBytes Tables.empty.db = 0 := rfl
    rw [starts, List.length_append] at size
    refine ⟨?_, (loadEntries_within order 0 count .empty within).2, ?_, placed,
      stored, by omega⟩
    · simp only [toil, starts, List.length_append] at toiled
      omega
    · rw [stored]
      omega

end HermitDb.Persist
