import HermitDb.Core.Reachable
import HermitDb.Persist.SnapshotRoundTrip

/-!
# Starting from a snapshot

The pops trust that no stored list is empty.  The handlers keep that up, but
the snapshot loader stores what the file says, a list of no elements included.
A start from an accepted file is safe, at once and for all that follows, if and
only if no key is left with such a list.
-/

namespace HermitDb.Core

open Library Persist Protocol

variable {order : ByteOrder}

/-- The process once the snapshot is loaded, before the log is replayed. -/
def Server.booted (tables : Tables) : Server :=
  ⟨⟨tables.db, tables.expiry, 0⟩, CommandDispatcher.fresh none⟩

/-- The states a server gets to from a given one. -/
inductive Server.Follows (start : Server) : Server → Prop where
  | refl : Follows start start
  | step {server next : Server} {output : Option Bytes} (world : World)
      (event : Event) (follows : Follows start server)
      (stepped : server.step world event = .ok (output, next)) :
      Follows start next
  | setWal {server : Server} (wal : Wal) (follows : Follows start server) :
      Follows start (server.setWal wal)

theorem Server.Follows.wf {start server : Server}
    (follows : start.Follows server) (startWf : start.memory.Wf) :
    server.memory.Wf := by
  induction follows with
  | refl => exact startWf
  | step world event _ stepped induction => exact step_wf induction stepped
  | setWal wal _ induction => exact induction

/-- Only stored keys get a deadline. -/
theorem tracked_restoreAll (entries : List SnapshotEntry) (key : Bytes)
    (absent : (entries.foldl Tables.restore .empty).db.find key = none) :
    (entries.foldl Tables.restore .empty).expiry.expiryAt key = none := by
  induction entries using List.reverseRecOn with
  | nil => rfl
  | append_singleton entries entry induction =>
      rw [List.foldl_append, List.foldl_cons, List.foldl_nil, Tables.restore]
        at absent ⊢
      rw [Db.restoreEntry, Db.find_put] at absent
      split at absent
      · cases absent
      · rename_i different
        have before := induction absent
        cases entry.atMs with
        | none => exact before
        | some atMs =>
            rw [ExpiryManager.expiryAt_setExpiry, if_neg different]
            exact before

theorem booted_wf {entries : List SnapshotEntry}
    (nonempty : ∀ key entry, latest entries key = some entry →
      entry.value ≠ .list []) :
    (Server.booted (entries.foldl Tables.restore .empty)).memory.Wf := by
  refine ⟨tracked_restoreAll entries, ?_⟩
  intro key found
  change (entries.foldl Tables.restore .empty).db.find key = _ at found
  rw [find_restoreAll] at found
  obtain ⟨entry, isLatest, isEmpty⟩ :=
    Option.map_eq_some_iff.mp (Option.or_none.symm.trans found)
  exact nonempty key entry isLatest isEmpty

/-- After a start from an accepted file, no list is ever empty and no command
ever faults, provided that for each key the file's last entry for it is not a
list of no elements; otherwise the start itself breaks this. -/
theorem booted_safe_iff {path bytes : Bytes}
    (accepted : (loadSnapshot order .empty path (some bytes)).error = none) :
    (∀ server, (Server.booted
        (loadSnapshot order .empty path (some bytes)).tables).Follows server →
      (∀ key, server.memory.db.find key ≠ some (.list [])) ∧
        ∀ world walk cmd, ∃ reply next,
          server.execute world walk cmd = .ok (reply, next)) ↔
      ∃ entries surplus, Snapshot order bytes entries surplus ∧
        ∀ key entry, latest entries key = some entry →
          entry.value ≠ .list [] := by
  constructor
  · intro safe
    obtain ⟨entries, surplus, snapshot⟩ := snapshot_of_accepted accepted
    obtain ⟨final, loaded, _⟩ := snapshot.load .empty path
    refine ⟨entries, surplus, snapshot, ?_⟩
    intro key entry isLatest isEmpty
    refine (safe _ .refl).1 key ?_
    rw [loaded]
    change (entries.foldl Tables.restore .empty).db.find key = _
    rw [find_restoreAll, isLatest, Option.map_some, isEmpty, Option.some_or]
  · rintro ⟨entries, surplus, snapshot, nonempty⟩ server follows
    obtain ⟨final, loaded, _⟩ := snapshot.load .empty path
    rw [loaded] at follows
    have wf := follows.wf (booted_wf nonempty)
    refine ⟨wf.nonempty, ?_⟩
    intro world walk cmd
    obtain ⟨reply, next, executed, _⟩ := execute_total world walk wf cmd
    exact ⟨reply, next, executed⟩

/-- One key with a list of these elements. -/
def oneListFile (items : List Bytes) : Bytes :=
  kMagic ++ putU64 .little 1 ++ putEntry .little ⟨ascii "k", none, .list items⟩

/-- With an element in the list the file is accepted and safe. -/
theorem booted_safe_iff_of_listFile :
    (loadSnapshot .little .empty (ascii "dump")
      (some (oneListFile [ascii "v"]))).error = none ∧
    ∀ server, (Server.booted (loadSnapshot .little .empty (ascii "dump")
        (some (oneListFile [ascii "v"]))).tables).Follows server →
      (∀ key, server.memory.db.find key ≠ some (.list [])) ∧
        ∀ world walk cmd, ∃ reply next,
          server.execute world walk cmd = .ok (reply, next) := by
  have isSnapshot : Snapshot .little (oneListFile [ascii "v"])
      [⟨ascii "k", none, .list [ascii "v"]⟩] [] :=
    ⟨by decide, List.forall_mem_singleton.mpr
      ⟨by decide, by decide, List.forall_mem_singleton.mpr (by decide)⟩, rfl⟩
  have nonempty : ∀ key entry,
      latest [⟨ascii "k", none, .list [ascii "v"]⟩] key = some entry →
      entry.value ≠ .list [] := by
    intro key entry isLatest
    have member := List.mem_of_find?_eq_some isLatest
    rw [List.mem_reverse, List.mem_singleton] at member
    rw [member]
    decide
  exact ⟨rfl, (booted_safe_iff rfl).mpr ⟨_, _, isSnapshot, nonempty⟩⟩

/-- One key with a list of no elements. -/
def emptyListFile : Bytes :=
  oneListFile []

set_option maxRecDepth 4000 in
/-- The file is accepted, and the first pop on its key takes the front of an
empty deque. -/
theorem emptyListFile_faults :
    (loadSnapshot .little .empty (ascii "dump")
        (some emptyListFile)).error = none ∧
      (Server.booted (loadSnapshot .little .empty (ascii "dump")
        (some emptyListFile)).tables).execute (.frozen 0) .arbitrary
        [ascii "LPOP", ascii "k"] = .error .emptyDeque :=
  ⟨rfl, rfl⟩

end HermitDb.Core
