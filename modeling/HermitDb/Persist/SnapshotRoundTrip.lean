import HermitDb.Persist.SnapshotFormat

/-!
# Saving and loading

A saved file is a snapshot of the entries of the map, so loading it gives back
the map and the deadlines of its keys, and no proper beginning of it is
accepted.  The other way round, a file is what saving the loaded tables would
write only if nothing follows the last entry and no key stands in it twice:
the loader checks neither.
-/

namespace HermitDb.Persist

open HermitDb.Core Library FileStream

variable {order : ByteOrder}

/-! ## The tables after a load -/

/-- The last entry for a key. -/
def latest (entries : List SnapshotEntry) (key : Bytes) :
    Option SnapshotEntry :=
  entries.reverse.find? (·.key = key)

theorem latest_append (entries : List SnapshotEntry) (entry : SnapshotEntry)
    (key : Bytes) :
    latest (entries ++ [entry]) key =
      if entry.key = key then some entry else latest entries key := by
  simp only [latest, List.reverse_append, List.reverse_singleton,
    List.singleton_append, List.find?_cons]
  by_cases same : entry.key = key
  · simp [same]
  · simp [same]

theorem latest_eq_none_iff {entries : List SnapshotEntry} {key : Bytes} :
    latest entries key = none ↔ key ∉ entries.map SnapshotEntry.key := by
  simp [latest]

/-- Without repeated keys an entry is the last one for its key. -/
theorem latest_eq_some_iff {entries : List SnapshotEntry}
    (nodup : (entries.map SnapshotEntry.key).Nodup) {key : Bytes}
    {entry : SnapshotEntry} :
    latest entries key = some entry ↔ entry ∈ entries ∧ entry.key = key := by
  constructor
  · intro found
    have isKey := List.find?_some found
    have member := List.mem_of_find?_eq_some found
    exact ⟨List.mem_reverse.mp member, of_decide_eq_true isKey⟩
  · rintro ⟨member, rfl⟩
    cases found : latest entries entry.key with
    | none =>
        exact absurd (List.mem_map_of_mem member) (latest_eq_none_iff.mp found)
    | some other =>
        have isKey := List.find?_some found
        have otherMember := List.mem_of_find?_eq_some found
        rw [List.inj_on_of_nodup_map nodup (List.mem_reverse.mp otherMember)
          member (of_decide_eq_true isKey)]

theorem find_restoreAll (entries : List SnapshotEntry) (tables : Tables)
    (key : Bytes) :
    (entries.foldl Tables.restore tables).db.find key =
      ((latest entries key).map SnapshotEntry.value).or
        (tables.db.find key) := by
  induction entries using List.reverseRecOn with
  | nil => rfl
  | append_singleton entries entry induction =>
      rw [List.foldl_append, List.foldl_cons, List.foldl_nil, latest_append,
        Tables.restore, Db.restoreEntry, Db.find_put]
      by_cases same : entry.key = key
      · simp [same]
      · simp [same, Ne.symm same, induction]

/-- Where a key stands once, its entry decides the deadline. -/
theorem expiryAt_restoreAll {entries : List SnapshotEntry}
    (nodup : (entries.map SnapshotEntry.key).Nodup) (tables : Tables)
    (key : Bytes) :
    (entries.foldl Tables.restore tables).expiry.expiryAt key =
      ((latest entries key).bind SnapshotEntry.atMs).or
        (tables.expiry.expiryAt key) := by
  induction entries using List.reverseRecOn with
  | nil => rfl
  | append_singleton entries entry induction =>
      rw [List.map_append, List.map_singleton] at nodup
      have fresh : entry.key ∉ entries.map SnapshotEntry.key := by
        intro member
        exact List.disjoint_of_nodup_append nodup member
          (List.mem_singleton_self _)
      have before := induction nodup.of_append_left
      rw [List.foldl_append, List.foldl_cons, List.foldl_nil, latest_append]
      by_cases same : entry.key = key
      · subst key
        rw [latest_eq_none_iff.mpr fresh] at before
        cases armed : entry.atMs with
        | none => simpa [Tables.restore, armed] using before
        | some atMs =>
            simp [Tables.restore, armed, ExpiryManager.expiryAt_setExpiry]
      · rw [if_neg same, ← before, Tables.restore]
        cases entry.atMs with
        | none => rfl
        | some atMs =>
            simp [ExpiryManager.expiryAt_setExpiry, Ne.symm same]

/-! ## Saved files -/

/-- Every length fits its field.  The number of keys is a `size_t`. -/
structure Storable (db : Db) : Prop where
  size : db.size < 2 ^ 64
  keys : ∀ key, db.find key ≠ none → key.length < 2 ^ 32
  values : ∀ key value, db.find key = some value → ValueFits value

theorem keys_snapshotEntries (walk : Walk) (db : Db) (expiry : ExpiryManager) :
    (snapshotEntries walk db expiry).map SnapshotEntry.key =
      walk.order db.map.keys := by
  rw [snapshotEntries, List.map_map, ← db.keys_entries walk]
  rfl

theorem nodup_keys_snapshotEntries (walk : Walk) (db : Db)
    (expiry : ExpiryManager) :
    ((snapshotEntries walk db expiry).map SnapshotEntry.key).Nodup := by
  rw [keys_snapshotEntries]
  exact walk.nodup_order _

theorem mem_snapshotEntries {walk : Walk} {db : Db} {expiry : ExpiryManager}
    {entry : SnapshotEntry} :
    entry ∈ snapshotEntries walk db expiry ↔
      db.find entry.key = some entry.value ∧
        entry.atMs = expiry.expiryAt entry.key := by
  rw [snapshotEntries, List.mem_map]
  constructor
  · rintro ⟨⟨key, value⟩, member, rfl⟩
    exact ⟨Db.mem_entries.mp member, rfl⟩
  · rintro ⟨found, armed⟩
    refine ⟨(entry.key, entry.value), Db.mem_entries.mpr found, ?_⟩
    rw [← armed]

theorem latest_snapshotEntries (walk : Walk) (db : Db) (expiry : ExpiryManager)
    (key : Bytes) :
    latest (snapshotEntries walk db expiry) key =
      (db.find key).map fun value => ⟨key, expiry.expiryAt key, value⟩ := by
  have nodup := nodup_keys_snapshotEntries walk db expiry
  cases found : db.find key with
  | none =>
      rw [Option.map_none, latest_eq_none_iff, keys_snapshotEntries,
        walk.mem_order, Db.mem_keys_iff]
      exact not_not.mpr found
  | some value =>
      rw [Option.map_some, latest_eq_some_iff nodup]
      exact ⟨mem_snapshotEntries.mpr ⟨found, rfl⟩, rfl⟩

theorem snapshot_of_saved {walk : Walk} {db : Db} {expiry : ExpiryManager}
    (storable : Storable db) {path file : Bytes} {device : Device}
    (saved : saveSnapshot order walk db expiry path device = .ok file) :
    Snapshot order file (snapshotEntries walk db expiry) [] := by
  have length : (snapshotEntries walk db expiry).length = db.size := by
    rw [snapshotEntries, List.length_map, Db.length_entries]
  constructor
  · rw [length]
    exact storable.size
  · intro entry member
    obtain ⟨found, _⟩ := mem_snapshotEntries.mp member
    exact ⟨storable.keys _ (by rw [found]; exact Option.some_ne_none _),
      storable.values _ _ found⟩
  · rw [saveSnapshot] at saved
    split at saved
    · cases saved
    · split at saved
      · cases saved
      · cases saved
        rw [length, List.append_nil, List.append_assoc]

/-- On a device that works, saving succeeds, and loading the file gives back
the map, and the deadlines of the keys in the map. -/
theorem load_undoes_save {db : Db} (storable : Storable db) (walk : Walk)
    (expiry : ExpiryManager) (path : Bytes) :
    ∃ file, saveSnapshot order walk db expiry path ⟨true, true⟩ = .ok file ∧
      (loadSnapshot order .empty path (some file)).error = none ∧
      (loadSnapshot order .empty path (some file)).tables.db = db ∧
      ∀ key, (loadSnapshot order .empty path (some file)).tables.expiry.expiryAt
        key = if db.existsKey key then expiry.expiryAt key else none := by
  obtain ⟨file, saved⟩ : ∃ file,
      saveSnapshot order walk db expiry path ⟨true, true⟩ = .ok file :=
    ⟨_, rfl⟩
  refine ⟨file, saved, ?_⟩
  obtain ⟨final, loaded, _⟩ :=
    (snapshot_of_saved storable saved).load .empty path
  have nodup := nodup_keys_snapshotEntries walk db expiry
  rw [loaded]
  refine ⟨rfl, ?_, ?_⟩
  · apply Db.ext
    intro key
    rw [find_restoreAll, latest_snapshotEntries]
    cases db.find key <;> rfl
  · intro key
    rw [expiryAt_restoreAll nodup, latest_snapshotEntries, Db.existsKey]
    cases db.find key with
    | none => rfl
    | some value => simp [Tables.empty]

/-- A string and a list, with empty byte strings in both. -/
def sampleDb : Db :=
  (Db.empty.put (ascii "k") (.string [])).put (ascii "l") (.list [ascii "a", []])

theorem sampleDb_storable : Storable sampleDb := by
  have find (key : Bytes) : sampleDb.find key =
      if key = ascii "l" then some (.list [ascii "a", []])
      else if key = ascii "k" then some (.string []) else none := by
    rw [sampleDb, Db.find_put, Db.find_put]
    rfl
  constructor
  · decide
  · intro key stored
    rw [find] at stored
    split at stored
    · rename_i isList
      rw [isList]
      decide
    · split at stored
      · rename_i isString
        rw [isString]
        decide
      · exact absurd rfl stored
  · intro key value found
    rw [find] at found
    split at found
    · cases found
      refine ⟨by decide, ?_⟩
      intro item member
      simp only [List.mem_cons, List.not_mem_nil, or_false] at member
      rcases member with rfl | rfl
      · decide
      · decide
    · split at found
      · cases found
        show 0 < 2 ^ 32
        decide
      · cases found

theorem load_undoes_save_of_sample :
    ∃ file, saveSnapshot .little .arbitrary sampleDb
        (ExpiryManager.empty.setExpiry (ascii "k") 5) (ascii "dump")
        ⟨true, true⟩ = .ok file ∧
      (loadSnapshot .little .empty (ascii "dump") (some file)).tables.db =
        sampleDb := by
  obtain ⟨file, saved, -, same, -⟩ := @load_undoes_save .little sampleDb
    sampleDb_storable .arbitrary (ExpiryManager.empty.setExpiry (ascii "k") 5)
    (ascii "dump")
  exact ⟨file, saved, same⟩

/-- No proper beginning of a saved file is accepted. -/
theorem truncated_snapshot_rejected {walk : Walk} {db : Db}
    {expiry : ExpiryManager} (storable : Storable db) {path file : Bytes}
    {device : Device}
    (saved : saveSnapshot order walk db expiry path device = .ok file)
    {part : Bytes} (isPart : part <+: file) (proper : part ≠ file)
    (tables : Tables) (loadPath : Bytes) :
    (loadSnapshot order tables loadPath (some part)).error ≠ none := by
  intro accepted
  obtain ⟨missing, rfl⟩ := isPart
  obtain ⟨entries, surplus, snapshot⟩ := snapshot_of_accepted accepted
  -- What is accepted in the part is accepted in the whole file, which would
  -- then have the missing bytes left over.
  have whole : Snapshot order (part ++ missing) entries (surplus ++ missing) := by
    refine ⟨snapshot.count, snapshot.fit, ?_⟩
    rw [snapshot.layout]
    simp only [List.append_assoc]
  obtain ⟨final, loaded, left⟩ := whole.load tables loadPath
  obtain ⟨savedFinal, savedLoaded, savedLeft⟩ :=
    (snapshot_of_saved storable saved).load tables loadPath
  have sameFinal : final = savedFinal :=
    congrArg Loaded.stream (loaded.symm.trans savedLoaded)
  rw [sameFinal, savedLeft] at left
  have nothing := (List.append_eq_nil_iff.mp left.symm).2
  exact proper (by rw [nothing, List.append_nil])

theorem truncated_snapshot_rejected_of_sample :
    ∃ file, saveSnapshot .little .arbitrary sampleDb .empty (ascii "dump")
        ⟨true, true⟩ = .ok file ∧
      (loadSnapshot .little .empty (ascii "dump")
        (some file.dropLast)).error ≠ none := by
  have saved : saveSnapshot .little .arbitrary sampleDb .empty (ascii "dump")
      ⟨true, true⟩ = .ok _ := rfl
  refine ⟨_, saved, truncated_snapshot_rejected sampleDb_storable saved
    (List.dropLast_prefix _) ?_ .empty (ascii "dump")⟩
  intro same
  have shorter := congrArg List.length same
  rw [List.length_dropLast] at shorter
  simp [kMagic, ascii] at shorter

/-! ## Files of any origin -/

/-- An iteration order that lists the given keys in their order. -/
noncomputable def listingWalk (keys : List Bytes) (nodup : keys.Nodup) :
    Walk where
  order target := if target = keys.toFinset then keys else target.toList
  order_keys target := by
    split
    · rename_i same
      rw [same, List.toFinset_val, nodup.dedup]
    · exact Finset.coe_toList target

theorem entries_listing {entries : List SnapshotEntry} {db : Db}
    (nodup : (entries.map SnapshotEntry.key).Nodup)
    (stored : ∀ key, db.find key =
      (latest entries key).map SnapshotEntry.value) :
    db.entries (listingWalk _ nodup) =
      entries.map fun entry => (entry.key, entry.value) := by
  have keys : db.map.keys = (entries.map SnapshotEntry.key).toFinset := by
    ext key
    rw [Db.mem_keys_iff, stored, List.mem_toFinset, ne_eq,
      Option.map_eq_none_iff, latest_eq_none_iff, not_not]
  rw [Db.entries, listingWalk]
  simp only [keys, if_true, List.filterMap_map]
  rw [← List.filterMap_eq_map]
  apply List.filterMap_congr
  intro entry member
  have found := (latest_eq_some_iff nodup).mpr ⟨member, rfl⟩
  simp [stored, found]

theorem snapshotEntries_listing {entries : List SnapshotEntry}
    (nodup : (entries.map SnapshotEntry.key).Nodup) :
    snapshotEntries (listingWalk _ nodup)
      (entries.foldl Tables.restore .empty).db
      (entries.foldl Tables.restore .empty).expiry = entries := by
  have stored : ∀ key, (entries.foldl Tables.restore .empty).db.find key =
      (latest entries key).map SnapshotEntry.value := by
    intro key
    rw [find_restoreAll]
    exact Option.or_none
  have restored : ∀ entry ∈ entries, SnapshotEntry.mk entry.key
      ((entries.foldl Tables.restore .empty).expiry.expiryAt entry.key)
      entry.value = entry := by
    intro entry member
    rw [expiryAt_restoreAll nodup,
      (latest_eq_some_iff nodup).mpr ⟨member, rfl⟩]
    have armed : entry.atMs.or (Tables.empty.expiry.expiryAt entry.key) =
        entry.atMs := Option.or_none
    rw [Option.bind_some, armed]
  rw [snapshotEntries, entries_listing nodup stored, List.map_map]
  conv_rhs => rw [← List.map_id entries]
  exact List.map_congr_left restored

theorem Snapshot.storable {bytes surplus : Bytes}
    {entries : List SnapshotEntry}
    (snapshot : Snapshot order bytes entries surplus) :
    Storable (entries.foldl Tables.restore .empty).db := by
  have origin : ∀ key value,
      (entries.foldl Tables.restore .empty).db.find key = some value →
      ∃ entry ∈ entries, entry.key = key ∧ entry.value = value := by
    intro key value found
    rw [find_restoreAll] at found
    obtain ⟨entry, isLatest, isValue⟩ :=
      Option.map_eq_some_iff.mp (Option.or_none.symm.trans found)
    have isKey := List.find?_some isLatest
    exact ⟨entry, List.mem_reverse.mp (List.mem_of_find?_eq_some isLatest),
      of_decide_eq_true isKey, isValue⟩
  constructor
  · have few : (entries.foldl Tables.restore .empty).db.map.keys ⊆
        (entries.map SnapshotEntry.key).toFinset := by
      intro key member
      obtain ⟨value, found⟩ :=
        Option.ne_none_iff_exists'.mp (Db.mem_keys_iff.mp member)
      obtain ⟨entry, present, rfl, _⟩ := origin key value found
      exact List.mem_toFinset.mpr (List.mem_map_of_mem present)
    calc (entries.foldl Tables.restore .empty).db.size
        ≤ (entries.map SnapshotEntry.key).toFinset.card :=
          Finset.card_le_card few
      _ ≤ (entries.map SnapshotEntry.key).length := List.toFinset_card_le _
      _ = entries.length := List.length_map _
      _ < 2 ^ 64 := snapshot.count
  · intro key stored
    obtain ⟨value, found⟩ := Option.ne_none_iff_exists'.mp stored
    obtain ⟨entry, present, rfl, _⟩ := origin key value found
    exact (snapshot.fit entry present).key
  · intro key value found
    obtain ⟨entry, present, _, rfl⟩ := origin key value found
    exact (snapshot.fit entry present).value

/-- Saving what was loaded from a file gives the file again, in one of the
orders the map may be walked in, exactly if its last entry ends it and no key
stands in it twice. -/
theorem resave_iff {path bytes : Bytes}
    (accepted : (loadSnapshot order .empty path (some bytes)).error = none) :
    (∃ walk, saveSnapshot order walk
        (loadSnapshot order .empty path (some bytes)).tables.db
        (loadSnapshot order .empty path (some bytes)).tables.expiry path
        ⟨true, true⟩ = .ok bytes) ↔
      ∃ entries, Snapshot order bytes entries [] ∧
        (entries.map SnapshotEntry.key).Nodup := by
  constructor
  · rintro ⟨walk, saved⟩
    obtain ⟨entries, surplus, snapshot⟩ := snapshot_of_accepted accepted
    obtain ⟨final, loaded, _⟩ := snapshot.load .empty path
    rw [loaded] at saved
    exact ⟨_, snapshot_of_saved snapshot.storable saved,
      nodup_keys_snapshotEntries walk _ _⟩
  · rintro ⟨entries, snapshot, nodup⟩
    obtain ⟨final, loaded, _⟩ := snapshot.load .empty path
    refine ⟨listingWalk _ nodup, ?_⟩
    have same := snapshotEntries_listing nodup
    have size : (entries.foldl Tables.restore .empty).db.size =
        entries.length := by
      rw [← Db.length_entries _ (listingWalk _ nodup), ← List.length_map,
        ← snapshotEntries, same]
    rw [loaded, saveSnapshot, if_neg (by decide), if_neg (by decide), same,
      size, snapshot.layout, List.append_nil, List.append_assoc]

/-- One entry that never expires, and nothing behind it. -/
def oneKeyFile : Bytes :=
  kMagic ++ putU64 .little 1 ++
    putEntry .little ⟨ascii "k", none, .string (ascii "a")⟩

set_option maxRecDepth 4000 in
theorem resave_iff_of_oneKeyFile :
    ∃ walk, saveSnapshot .little walk
        (loadSnapshot .little .empty (ascii "dump") (some oneKeyFile)).tables.db
        (loadSnapshot .little .empty (ascii "dump")
          (some oneKeyFile)).tables.expiry (ascii "dump") ⟨true, true⟩ =
      .ok oneKeyFile := by
  refine (resave_iff rfl).mpr
    ⟨[⟨ascii "k", none, .string (ascii "a")⟩], ⟨?_, ?_, ?_⟩, by decide⟩
  · decide
  · intro entry member
    cases List.mem_singleton.mp member
    exact ⟨by decide, show (ascii "a").length < 2 ^ 32 by decide⟩
  · rfl

/-- Nothing can have been written that leaves bytes over. -/
theorem not_saved_of_surplus {path bytes : Bytes}
    (accepted : (loadSnapshot order .empty path (some bytes)).error = none)
    (surplus : (loadSnapshot order .empty path (some bytes)).stream.unread ≠ [])
    {walk : Walk} :
    saveSnapshot order walk
      (loadSnapshot order .empty path (some bytes)).tables.db
      (loadSnapshot order .empty path (some bytes)).tables.expiry path
      ⟨true, true⟩ ≠ .ok bytes := by
  intro saved
  obtain ⟨entries, rest, snapshot⟩ := snapshot_of_accepted accepted
  obtain ⟨final, loaded, _⟩ := snapshot.load .empty path
  rw [loaded] at saved
  obtain ⟨savedFinal, savedLoaded, nothing⟩ :=
    (snapshot_of_saved snapshot.storable saved).load .empty path
  exact surplus (by rw [savedLoaded, nothing])

/-- No entries, and a byte behind them. -/
def surplusFile : Bytes :=
  kMagic ++ putU64 .little 0 ++ [7]

/-- Two entries for one key. -/
def repeatedKeyFile : Bytes :=
  kMagic ++ putU64 .little 2 ++
    putEntry .little ⟨ascii "k", none, .string (ascii "a")⟩ ++
    putEntry .little ⟨ascii "k", none, .string (ascii "b")⟩

set_option maxRecDepth 4000 in
theorem resave_differs :
    (loadSnapshot .little .empty (ascii "dump") (some surplusFile)).error = none ∧
      (¬ ∃ walk, saveSnapshot .little walk
        (loadSnapshot .little .empty (ascii "dump") (some surplusFile)).tables.db
        (loadSnapshot .little .empty (ascii "dump")
          (some surplusFile)).tables.expiry (ascii "dump") ⟨true, true⟩ =
        .ok surplusFile) ∧
      (loadSnapshot .little .empty (ascii "dump")
        (some repeatedKeyFile)).error = none ∧
      (loadSnapshot .little .empty (ascii "dump")
        (some repeatedKeyFile)).tables.db.size = 1 := by
  refine ⟨rfl, ?_, rfl, rfl⟩
  rintro ⟨walk, saved⟩
  have accepted : (loadSnapshot .little .empty (ascii "dump")
    (some surplusFile)).error = none := rfl
  refine not_saved_of_surplus accepted ?_ saved
  decide

end HermitDb.Persist
