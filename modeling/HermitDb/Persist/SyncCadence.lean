import HermitDb.Persist.Append

/-!
# Syncing once a second

Under `everysec` a tick syncs a dirty log once the wall clock shows a second
since the last sync.  The interval that matters is that of the steady clock,
which no one hands to the log.  A run therefore carries both readings: the wall
clock's, which the code sees, and the steady clock's, which only dates a tick.
-/

namespace HermitDb.Persist

open Library Protocol

/-- What the two clocks show at one moment.  The wall clock may be stepped. -/
structure ClockReading where
  wallMs : Int64
  steadyMs : Int
  deriving DecidableEq

/-- One call on the log. -/
inductive LogEvent where
  | append (command : Command)
  | tick (now : ClockReading)

/-- The log in a run, when it was last synced, and where each record whose
append succeeded ends in the file. -/
structure SyncRun where
  wal : Wal
  lastSync : Option ClockReading
  recordEnds : List Nat

namespace SyncRun

/-- The log just opened over whatever the file holds. -/
def opened (file : Bytes) : SyncRun :=
  ⟨{ Wal.fresh .everySec with file := file }, none, []⟩

def step (disk : Disk) (run : SyncRun) : LogEvent → SyncRun
  | .append command =>
      let (status, wal) := run.wal.append disk command
      { run with
        wal := wal
        recordEnds :=
          if status = .ok then run.recordEnds ++ [wal.file.length]
          else run.recordEnds }
  | .tick now =>
      let (status, wal) := run.wal.tickFsync disk now.wallMs
      { run with
        wal := wal
        lastSync :=
          if status = .ok ∧ wal.fsyncCalls ≠ run.wal.fsyncCalls then some now
          else run.lastSync }

def after (disk : Disk) (file : Bytes) (events : List LogEvent) : SyncRun :=
  events.foldl (step disk) (opened file)

/-- Some appended record is not wholly covered by a sync. -/
def Unsynced (run : SyncRun) : Prop :=
  ∃ recordEnd ∈ run.recordEnds, run.wal.synced < recordEnd

/-- A second of steady time has passed since the last sync. -/
def Due (run : SyncRun) (now : ClockReading) : Prop :=
  ∃ last ∈ run.lastSync, last.steadyMs + 1000 ≤ now.steadyMs

/-- The wall clock shows that second as well. -/
def ShownByWall (run : SyncRun) (now : ClockReading) : Prop :=
  ∀ last ∈ run.lastSync, 1000 ≤ now.wallMs - last.wallMs

/-! ## What one call does -/

/-- What every run of the open log keeps: the dirty flag says whether a record
is unsynced, and the log remembers the wall reading of its last sync. -/
structure Tracked (run : SyncRun) : Prop where
  policy : run.wal.policy = .everySec
  isOpen : run.wal.isOpen = true
  synced : run.wal.synced ≤ run.wal.file.length
  ends : ∀ recordEnd ∈ run.recordEnds, recordEnd ≤ run.wal.file.length
  dirty : run.wal.dirty = true ↔ run.Unsynced
  reading : ∀ last ∈ run.lastSync, run.wal.lastFsyncMs = last.wallMs

theorem tracked_opened (file : Bytes) : (opened file).Tracked where
  policy := rfl
  isOpen := rfl
  synced := Nat.zero_le _
  ends := by simp [opened]
  dirty := by simp [opened, Unsynced, Wal.fresh]
  reading := by simp [opened]

theorem encode_length_pos (command : Command) : 0 < (encode command).length := by
  simp [encode, ascii]

theorem Tracked.append {disk : Disk} {run : SyncRun} (tracked : run.Tracked)
    (command : Command) : (run.step disk (.append command)).Tracked := by
  obtain complete | ⟨part, incomplete, -, -⟩ :=
    writeAll_cases (disk.writes run.wal.appendCalls) (encode command)
  · have result : run.step disk (.append command) =
        { run with
          wal := { run.wal with
            file := run.wal.file ++ encode command
            appendCalls := run.wal.appendCalls + 1
            dirty := true
            records := run.wal.records ++ [command] }
          recordEnds := run.recordEnds ++
            [(run.wal.file ++ encode command).length] } := by
      simp [step, Wal.append, tracked.isOpen, complete, tracked.policy]
    have grown := encode_length_pos command
    have covered := tracked.synced
    rw [result]
    refine ⟨tracked.policy, tracked.isOpen, ?_, ?_, ?_, tracked.reading⟩
    · simp only [List.length_append]
      omega
    · intro recordEnd member
      rcases List.mem_append.mp member with earlier | last
      · have bound := tracked.ends recordEnd earlier
        simp only [List.length_append]
        omega
      · exact Nat.le_of_eq (List.mem_singleton.mp last)
    · refine iff_of_true rfl ⟨_, List.mem_append_right _
        (List.mem_singleton.mpr rfl), ?_⟩
      simp only [List.length_append]
      omega
  · have result : run.step disk (.append command) =
        { run with
          wal := { run.wal with
            file := run.wal.file ++ part
            appendCalls := run.wal.appendCalls + 1
            errors := run.wal.errors + 1 } } := by
      simp [step, Wal.append, tracked.isOpen, incomplete, Wal.ioError]
    rw [result]
    refine ⟨tracked.policy, tracked.isOpen, ?_, ?_, tracked.dirty,
      tracked.reading⟩
    · exact tracked.synced.trans (by simp)
    · exact fun recordEnd member =>
        (tracked.ends recordEnd member).trans (by simp)

/-- A tick succeeds.  It does nothing, or it syncs the whole file; it does
nothing while every record is synced or the wall clock shows less than a
second. -/
theorem Tracked.tick_cases {disk : Disk}
    (syncs : ∀ call, disk.fsync call = true) {run : SyncRun}
    (tracked : run.Tracked) (now : ClockReading) :
    ((run.wal.tickFsync disk now.wallMs).1 = .ok ∧
        (¬ run.Unsynced ∨ now.wallMs - run.wal.lastFsyncMs < 1000) ∧
        run.step disk (.tick now) = run) ∨
      ((run.wal.tickFsync disk now.wallMs).1 = .ok ∧
        run.Unsynced ∧ ¬ now.wallMs - run.wal.lastFsyncMs < 1000 ∧
        run.step disk (.tick now) =
          { run with
            wal := { run.wal with
              fsyncCalls := run.wal.fsyncCalls + 1
              dirty := false
              synced := run.wal.file.length
              lastFsyncMs := now.wallMs }
            lastSync := some now }) := by
  by_cases dirty : run.wal.dirty = true
  · by_cases early : now.wallMs - run.wal.lastFsyncMs < 1000
    · have result : run.wal.tickFsync disk now.wallMs = (.ok, run.wal) := by
        simp [Wal.tickFsync, early]
      refine .inl ⟨congrArg Prod.fst result, .inr early, ?_⟩
      simp [step, result]
    · have result : run.wal.tickFsync disk now.wallMs = (.ok, { run.wal with
          fsyncCalls := run.wal.fsyncCalls + 1
          dirty := false
          synced := run.wal.file.length
          lastFsyncMs := now.wallMs }) := by
        simp [Wal.tickFsync, tracked.policy, tracked.isOpen, dirty, early,
          Wal.fsyncNow, syncs]
      refine .inr ⟨congrArg Prod.fst result, tracked.dirty.mp dirty, early, ?_⟩
      simp [step, result]
  · have result : run.wal.tickFsync disk now.wallMs = (.ok, run.wal) := by
      simp [Wal.tickFsync, dirty]
    refine .inl ⟨congrArg Prod.fst result,
      .inl fun unsynced => dirty (tracked.dirty.mpr unsynced), ?_⟩
    simp [step, result]

theorem Tracked.tick {disk : Disk} (syncs : ∀ call, disk.fsync call = true)
    {run : SyncRun} (tracked : run.Tracked) (now : ClockReading) :
    (run.step disk (.tick now)).Tracked := by
  obtain ⟨-, -, idle⟩ | ⟨-, -, -, synced⟩ := tracked.tick_cases syncs now
  · rwa [idle]
  · rw [synced]
    refine ⟨tracked.policy, tracked.isOpen, Nat.le_refl _, tracked.ends, ?_, ?_⟩
    · refine iff_of_false Bool.false_ne_true ?_
      rintro ⟨recordEnd, member, beyond⟩
      exact absurd (tracked.ends recordEnd member) (Nat.not_le.mpr beyond)
    · rintro last ⟨rfl⟩
      rfl

/-! ## Whole runs -/

theorem tracked_after {disk : Disk} (syncs : ∀ call, disk.fsync call = true)
    (file : Bytes) (events : List LogEvent) :
    (after disk file events).Tracked := by
  have kept : ∀ run : SyncRun, run.Tracked →
      (events.foldl (step disk) run).Tracked := by
    induction events with
    | nil => exact fun run tracked => tracked
    | cons event events induction =>
        intro run tracked
        refine induction _ ?_
        cases event with
        | append command => exact tracked.append command
        | tick now => exact tracked.tick syncs now
  exact kept _ (tracked_opened file)

/-- With a second of steady time gone, a tick leaves a record unsynced exactly
if there was one and the wall clock does not show the second. -/
theorem Tracked.unsynced_tick_iff {disk : Disk}
    (syncs : ∀ call, disk.fsync call = true) {run : SyncRun}
    (tracked : run.Tracked) {now : ClockReading} (due : run.Due now) :
    (run.step disk (.tick now)).Unsynced ↔
      run.Unsynced ∧ ¬ run.ShownByWall now := by
  obtain ⟨last, synced, -⟩ := due
  have shown : run.ShownByWall now ↔
      ¬ now.wallMs - run.wal.lastFsyncMs < 1000 := by
    rw [tracked.reading last synced, Int64.not_lt]
    refine ⟨fun shows => shows last synced, ?_⟩
    rintro elapsed other otherSynced
    cases Option.mem_unique synced otherSynced
    exact elapsed
  obtain ⟨-, idle, unchanged⟩ | ⟨-, -, late, changed⟩ :=
    tracked.tick_cases syncs now
  · rw [unchanged, shown, not_not]
    refine ⟨fun unsynced => ⟨unsynced, ?_⟩, fun both => both.1⟩
    exact idle.resolve_left (not_not.mpr unsynced)
  · refine iff_of_false ?_ fun both => both.2 (shown.mpr late)
    rw [changed]
    rintro ⟨recordEnd, member, beyond⟩
    exact absurd (tracked.ends recordEnd member) (Nat.not_le.mpr beyond)

theorem Tracked.status_tick {disk : Disk}
    (syncs : ∀ call, disk.fsync call = true) {run : SyncRun}
    (tracked : run.Tracked) (now : ClockReading) :
    (run.wal.tickFsync disk now.wallMs).1 = .ok := by
  obtain ⟨ok, -⟩ | ⟨ok, -⟩ := tracked.tick_cases syncs now
  · exact ok
  · exact ok

/-- In a run under `everysec` with a disk that syncs, the ticks that return
`kOk` a second of steady time or more after the last sync leave no record
unsynced exactly if the wall clock shows a second since that sync at each such
tick that finds an unsynced record. -/
theorem everysec_synced_iff {disk : Disk}
    (syncs : ∀ call, disk.fsync call = true) (file : Bytes)
    (events : List LogEvent) :
    (∀ before now later, events = before ++ .tick now :: later →
        (after disk file before).Due now →
        ((after disk file before).wal.tickFsync disk now.wallMs).1 = .ok →
        ¬ (after disk file (before ++ [.tick now])).Unsynced) ↔
      ∀ before now later, events = before ++ .tick now :: later →
        (after disk file before).Due now →
        (after disk file before).Unsynced →
        (after disk file before).ShownByWall now := by
  have unfolded : ∀ before now, after disk file (before ++ [.tick now]) =
      (after disk file before).step disk (.tick now) := by
    intro before now
    exact List.foldl_append
  have perTick : ∀ before now, (after disk file before).Due now →
      ((after disk file (before ++ [.tick now])).Unsynced ↔
        (after disk file before).Unsynced ∧
          ¬ (after disk file before).ShownByWall now) := by
    intro before now due
    rw [unfolded]
    exact (tracked_after syncs file before).unsynced_tick_iff syncs due
  constructor
  · intro covered before now later split due unsynced
    by_contra hidden
    exact covered before now later split due
      ((tracked_after syncs file before).status_tick syncs now)
      ((perTick before now due).mpr ⟨unsynced, hidden⟩)
  · intro shown before now later split due _ unsynced
    obtain ⟨earlier, hidden⟩ := (perTick before now due).mp unsynced
    exact hidden (shown before now later split due earlier)

/-- A disk that takes every write whole and syncs every time. -/
def steadyDisk : Disk :=
  ⟨fun _ => [], fun _ => true⟩

/-- Two records with a sync between them. -/
def twoRecords : List LogEvent :=
  [.append [ascii "SET", ascii "k", ascii "1"], .tick ⟨10000, 0⟩,
    .append [ascii "SET", ascii "k", ascii "2"]]

/-- Both clocks have moved on by a second at the second tick. -/
theorem everysec_synced_iff_of_second :
    ¬ (after steadyDisk [] (twoRecords ++ [.tick ⟨11000, 1000⟩])).Unsynced := by
  refine (everysec_synced_iff (fun _ => rfl) []
    (twoRecords ++ [.tick ⟨11000, 1000⟩])).mpr ?_ twoRecords ⟨11000, 1000⟩ []
    rfl ⟨⟨10000, 0⟩, rfl, by decide⟩ rfl
  intro before now later split
  -- The ticks stand behind one and behind three calls.
  rcases before with _ | ⟨first, _ | ⟨second, _ | ⟨third, _ | ⟨fourth, more⟩⟩⟩⟩
  · simp [twoRecords] at split
  · simp only [twoRecords, List.cons_append, List.nil_append, List.cons.injEq,
      LogEvent.tick.injEq] at split
    obtain ⟨rfl, rfl, -⟩ := split
    rintro ⟨last, synced, -⟩
    cases synced
  · simp [twoRecords] at split
  · simp only [twoRecords, List.cons_append, List.nil_append, List.cons.injEq,
      LogEvent.tick.injEq] at split
    obtain ⟨rfl, rfl, rfl, rfl, -⟩ := split
    rintro - - last ⟨rfl⟩
    decide
  · simp [twoRecords] at split

/-- The wall clock was set back by seven seconds between the two syncs: the
tick two seconds after the first returns `kOk` and leaves the second record
unsynced. -/
theorem step_back_leaves_unsynced :
    (after steadyDisk [] twoRecords).Due ⟨5000, 2000⟩ ∧
      ((after steadyDisk [] twoRecords).wal.tickFsync steadyDisk 5000).1 =
        .ok ∧
      (after steadyDisk [] (twoRecords ++ [.tick ⟨5000, 2000⟩])).Unsynced :=
  ⟨⟨⟨10000, 0⟩, rfl, by decide⟩, rfl, ⟨54, by decide, by decide⟩⟩

end SyncRun

end HermitDb.Persist
