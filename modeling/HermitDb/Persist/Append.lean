import HermitDb.Library.Torn
import HermitDb.Persist.Wal

/-!
# Appending to the log

An append that succeeds puts one whole record at the end of the file.  One that
fails leaves either the whole record, with its sync missing, or a torn one.
-/

namespace HermitDb.Persist

open Library Protocol

/-- Either everything was written, or a call failed and the text is torn. -/
theorem writeAll_cases (outcomes : List WriteOutcome) (data : Bytes) :
    writeAll outcomes data = (data, true) ∨
      ∃ part, writeAll outcomes data = (part, false) ∧ Torn part data ∧
        .failed ∈ outcomes := by
  induction outcomes generalizing data with
  | nil =>
      cases data with
      | nil => exact .inl rfl
      | cons byte data => exact .inl rfl
  | cons outcome outcomes induction =>
      cases data with
      | nil => exact .inl rfl
      | cons byte data =>
          cases outcome with
          | interrupted =>
              obtain complete | ⟨part, incomplete, torn, failed⟩ :=
                induction (byte :: data)
              · exact .inl complete
              · exact .inr ⟨part, incomplete, torn,
                  List.mem_cons_of_mem _ failed⟩
          | failed =>
              exact .inr ⟨[], rfl, torn_nil (by simp), List.mem_cons_self⟩
          | wrote count =>
              have split := List.take_append_drop count (byte :: data)
              obtain complete | ⟨part, incomplete, torn, failed⟩ :=
                induction ((byte :: data).drop count)
              · refine .inl ?_
                simp only [writeAll, complete, split]
              · refine .inr ⟨(byte :: data).take count ++ part, ?_, ?_,
                  List.mem_cons_of_mem _ failed⟩
                · simp only [writeAll, incomplete]
                · obtain ⟨missing, present, rest⟩ := torn
                  exact ⟨missing, present, by
                    rw [List.append_assoc, rest, split]⟩

/-- Every call succeeds, short writes and interruptions apart. -/
structure Disk.Flawless (disk : Disk) : Prop where
  writes : ∀ call, .failed ∉ disk.writes call
  fsync : ∀ call, disk.fsync call = true

theorem Disk.ideal_flawless : Disk.ideal.Flawless :=
  ⟨fun _ => List.not_mem_nil, fun _ => rfl⟩

namespace Wal

/-- The log after an append that succeeded. -/
structure Appended (wal : Wal) (command : Command) (after : Wal) : Prop where
  isOpen : after.isOpen = true
  policy : after.policy = wal.policy
  file : after.file = wal.file ++ encode command
  records : after.records = wal.records ++ [command]
  errors : after.errors = wal.errors
  lastFsyncMs : after.lastFsyncMs = wal.lastFsyncMs
  synced : wal.policy = .always → after.synced = after.file.length
  buffered : wal.policy ≠ .always → after.synced = wal.synced ∧
    after.dirty = true

/-- The log after an append that failed. -/
structure AppendFailed (wal : Wal) (command : Command) (after : Wal) :
    Prop where
  isOpen : after.isOpen = true
  policy : after.policy = wal.policy
  errors : after.errors = wal.errors + 1
  written : (after.file = wal.file ++ encode command ∧
      after.records = wal.records ++ [command]) ∨
    ∃ part, Torn part (encode command) ∧ after.file = wal.file ++ part ∧
      after.records = wal.records

theorem append_cases (disk : Disk) {wal : Wal} (isOpen : wal.isOpen = true)
    (command : Command) :
    ((wal.append disk command).1 = .ok ∧
        wal.Appended command (wal.append disk command).2) ∨
      ((wal.append disk command).1 = .ioError ∧
        wal.AppendFailed command (wal.append disk command).2 ∧
        ¬ disk.Flawless) := by
  obtain complete | ⟨part, incomplete, torn, failed⟩ :=
    writeAll_cases (disk.writes wal.appendCalls) (encode command)
  · let logged := { wal with
      file := wal.file ++ encode command
      appendCalls := wal.appendCalls + 1
      dirty := true
      records := wal.records ++ [command] }
    by_cases always : wal.policy = .always
    · by_cases syncs : disk.fsync wal.fsyncCalls = true
      · have result : wal.append disk command = (.ok, { logged with
            fsyncCalls := wal.fsyncCalls + 1
            dirty := false
            synced := (wal.file ++ encode command).length }) := by
          simp [append, isOpen, complete, always, fsyncNow, syncs, logged]
        rw [result]
        exact .inl ⟨rfl, ⟨isOpen, rfl, rfl, rfl, rfl, rfl, fun _ => rfl,
          fun other => absurd always other⟩⟩
      · have result : wal.append disk command = (.ioError, { logged with
            fsyncCalls := wal.fsyncCalls + 1
            errors := wal.errors + 1 }) := by
          simp [append, isOpen, complete, always, fsyncNow, syncs, ioError,
            logged]
        rw [result]
        exact .inr ⟨rfl, ⟨isOpen, rfl, rfl, .inl ⟨rfl, rfl⟩⟩,
          fun flawless => syncs (flawless.fsync _)⟩
    · have result : wal.append disk command = (.ok, logged) := by
        simp [append, isOpen, complete, always, logged]
      rw [result]
      exact .inl ⟨rfl, ⟨isOpen, rfl, rfl, rfl, rfl, rfl,
        fun isAlways => absurd isAlways always, fun _ => ⟨rfl, rfl⟩⟩⟩
  · have result : wal.append disk command = (.ioError, { wal with
        file := wal.file ++ part
        appendCalls := wal.appendCalls + 1
        errors := wal.errors + 1 }) := by
      simp [append, isOpen, incomplete, ioError]
    rw [result]
    exact .inr ⟨rfl, ⟨isOpen, rfl, rfl, .inr ⟨part, torn, rfl, rfl⟩⟩,
      fun flawless => flawless.writes _ failed⟩

/-- A tick writes nothing; it may sync, and may fail to. -/
structure Ticked (wal after : Wal) : Prop where
  isOpen : after.isOpen = wal.isOpen
  policy : after.policy = wal.policy
  file : after.file = wal.file
  records : after.records = wal.records
  synced : after.synced = wal.synced ∨ after.synced = wal.file.length

theorem tickFsync_cases (disk : Disk) (wal : Wal) (nowMs : Int64) :
    ((wal.tickFsync disk nowMs).1 = .ok ∧
        (wal.tickFsync disk nowMs).2.errors = wal.errors ∧
        wal.Ticked (wal.tickFsync disk nowMs).2) ∨
      ((wal.tickFsync disk nowMs).1 = .ioError ∧
        (wal.tickFsync disk nowMs).2.errors = wal.errors + 1 ∧
        wal.Ticked (wal.tickFsync disk nowMs).2 ∧ ¬ disk.Flawless) := by
  have unchanged : wal.Ticked wal := ⟨rfl, rfl, rfl, rfl, .inl rfl⟩
  by_cases other : wal.policy ≠ .everySec
  · have result : wal.tickFsync disk nowMs = (.ok, wal) := by
      simp [tickFsync, other]
    rw [result]
    exact .inl ⟨rfl, rfl, unchanged⟩
  by_cases idle : (!wal.dirty || !wal.isOpen) = true
  · have result : wal.tickFsync disk nowMs = (.ok, wal) := by
      simp only [tickFsync, other, idle, if_true, if_false]
    rw [result]
    exact .inl ⟨rfl, rfl, unchanged⟩
  by_cases early : nowMs - wal.lastFsyncMs < 1000
  · have result : wal.tickFsync disk nowMs = (.ok, wal) := by
      simp only [tickFsync, other, idle, early, if_true, if_false]
      rfl
    rw [result]
    exact .inl ⟨rfl, rfl, unchanged⟩
  have active : wal.dirty = true ∧ wal.isOpen = true := by simpa using idle
  by_cases syncs : disk.fsync wal.fsyncCalls = true
  · have result : wal.tickFsync disk nowMs = (.ok, { wal with
        fsyncCalls := wal.fsyncCalls + 1
        dirty := false
        synced := wal.file.length
        lastFsyncMs := nowMs }) := by
      simp [tickFsync, other, active, early, fsyncNow, syncs]
    rw [result]
    exact .inl ⟨rfl, rfl, ⟨rfl, rfl, rfl, rfl, .inr rfl⟩⟩
  · have result : wal.tickFsync disk nowMs = (.ioError, { wal with
        fsyncCalls := wal.fsyncCalls + 1
        errors := wal.errors + 1 }) := by
      simp [tickFsync, other, active, early, fsyncNow, syncs, ioError]
    rw [result]
    exact .inr ⟨rfl, rfl, ⟨rfl, rfl, rfl, rfl, .inl rfl⟩,
      fun flawless => syncs (flawless.fsync _)⟩

/-- A tick that succeeds under `everysec` leaves the log as it is, because there
is nothing to sync or a sync was less than a second ago, or syncs all of it. -/
theorem tickFsync_everySec {disk : Disk} {wal : Wal} (isOpen : wal.isOpen = true)
    (policy : wal.policy = .everySec) {nowMs : Int64}
    (ok : (wal.tickFsync disk nowMs).1 = .ok) :
    ((wal.tickFsync disk nowMs).2 = wal ∧
        (wal.dirty = false ∨ nowMs - wal.lastFsyncMs < 1000)) ∨
      ∃ calls, (wal.tickFsync disk nowMs).2 = { wal with
        fsyncCalls := calls
        dirty := false
        synced := wal.file.length
        lastFsyncMs := nowMs } := by
  cases isDirty : wal.dirty with
  | false => exact .inl ⟨by simp [tickFsync, policy, isDirty], .inl rfl⟩
  | true =>
      by_cases early : nowMs - wal.lastFsyncMs < 1000
      · refine .inl ⟨?_, .inr early⟩
        simp [tickFsync, policy, isDirty, isOpen, early]
      · by_cases syncs : disk.fsync wal.fsyncCalls = true
        · refine .inr ⟨wal.fsyncCalls + 1, ?_⟩
          simp [tickFsync, policy, isDirty, isOpen, early, fsyncNow, syncs]
        · simp [tickFsync, policy, isDirty, isOpen, early, fsyncNow, syncs,
            ioError] at ok

end Wal

end HermitDb.Persist
