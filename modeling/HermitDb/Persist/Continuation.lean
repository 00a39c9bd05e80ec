import HermitDb.Persist.Append
import HermitDb.Persist.TornTail

/-!
# Appending behind an old log

A log is opened behind the records that replay has found in its file.  From
then on the file holds those records and the ones appended since, and what is
known to be synced only grows.
-/

namespace HermitDb.Persist

open Library Protocol

/-! ## Files that replay can read -/

/-- The file starts with these records, and what comes after them is torn.
Everything that was to be written can be read back. -/
def Holding (file : Bytes) (records : List Command) : Prop :=
  ∃ written, (∀ record ∈ written, Admissible kReplayFrameCap record) ∧
    file <+: encodeAll written ∧
    wholeItems encode written file.length = records

namespace Holding

variable {file : Bytes} {records : List Command}

theorem whole (admissible : ∀ record ∈ records,
    Admissible kReplayFrameCap record) : Holding (encodeAll records) records :=
  ⟨records, admissible, List.prefix_refl _, wholeItems_all (Nat.le_refl _)⟩

theorem torn {next : Command} {tail : Bytes}
    (admissible : ∀ record ∈ records ++ [next],
      Admissible kReplayFrameCap record)
    (torn : Torn tail (encode next)) :
    Holding (encodeAll records ++ tail) records := by
  refine ⟨records ++ [next], admissible, ?_, wholeItems_torn torn⟩
  obtain ⟨missing, _, rest⟩ := torn
  refine ⟨missing, ?_⟩
  rw [List.append_assoc, rest, encodeAll_append]
  simp [encodeAll]

theorem admissible (holding : Holding file records) :
    ∀ record ∈ records, Admissible kReplayFrameCap record := by
  obtain ⟨written, admissible, _, rfl⟩ := holding
  intro record member
  exact admissible record ((prefix_wholeItems _ _ _).subset member)

/-- What a prefix of the file holds: leading records, and all of those that lie
within it. -/
theorem take (holding : Holding file records) (kept : Nat) :
    ∃ survivors, Holding (file.take kept) survivors ∧ survivors <+: records ∧
      ∀ synced ≤ (file.take kept).length,
        wholeItems encode records synced <+: survivors := by
  obtain ⟨written, admissible, cut, rfl⟩ := holding
  have shorter : (file.take kept).length ≤ file.length :=
    (List.take_prefix kept file).length_le
  refine ⟨wholeItems encode written (file.take kept).length,
    ⟨written, admissible, (List.take_prefix kept file).trans cut, rfl⟩,
    wholeItems_mono encode written shorter, ?_⟩
  intro synced within
  have leading := prefix_wholeItems encode
    (wholeItems encode written file.length) synced
  apply prefix_wholeItems_of_fits (leading.trans (prefix_wholeItems _ _ _))
  exact Nat.le_trans (length_wholeItems_le _ _ _) within

/-- Replay finds the records and cuts the file back to them, unless the
truncation fails. -/
theorem replay_cases (holding : Holding file records)
    {reads : List ReadOutcome} {chunks : List Bytes}
    (delivers : Delivers reads chunks) (wholeFile : chunks.flatten = file)
    (truncates : Bool) :
    replay (.present file) reads truncates =
        ⟨.ok, records, .present (encodeAll records)⟩ ∨
      (truncates = false ∧ ∃ delivered,
        replay (.present file) reads truncates =
          ⟨.ioError, delivered, .present file⟩) := by
  obtain ⟨written, admissible, cut, rfl⟩ := holding
  have replayed := replay_cut admissible cut delivers wholeFile
  cases truncates with
  | true => exact .inl replayed
  | false =>
      have scanned := scan_cut admissible cut delivers wholeFile
      simp only [replay, scanned] at replayed ⊢
      split
      · exact .inr ⟨trivial, _, rfl⟩
      · rename_i complete
        rw [if_neg complete] at replayed
        exact .inl replayed

end Holding

/-- A read that fails ends the scan before the end of the file. -/
theorem scan_of_failed (parser : RespParser) {good : List ReadOutcome}
    {chunks : List Bytes} (delivers : Delivers good chunks)
    (rest : List ReadOutcome) :
    (scan parser (good ++ .failed :: rest)).stop ≠ .endOfFile := by
  induction delivers generalizing parser with
  | nil =>
      intro ended
      cases ended
  | interrupted _ induction => exact induction parser
  | data present _ induction =>
      rw [List.cons_append, scan, if_neg (by simpa using present)]
      simp only
      split
      · intro ended
        cases ended
      · exact induction _

/-- Then replay leaves the file alone and reports an error. -/
theorem replay_of_failed (file : Bytes) {good rest : List ReadOutcome}
    {chunks : List Bytes} (delivers : Delivers good chunks) (truncates : Bool) :
    let found := replay (.present file) (good ++ .failed :: rest) truncates
    found.status ≠ .ok ∧ found.file = .present file := by
  have stopped := scan_of_failed (RespParser.fresh kReplayFrameCap) delivers rest
  simp only [replay]
  split
  · exact ⟨by simp, rfl⟩
  · exact ⟨by simp, rfl⟩
  · rename_i ended
    exact absurd ended stopped

/-! ## The log object -/

namespace Wal

/-- A log opened for appending to a file that holds these records. -/
def opened (policy : FsyncPolicy) (file : Bytes) (synced : Nat)
    (records : List Command) : Wal :=
  { policy := policy
    isOpen := true
    lastFsyncMs := 0
    dirty := false
    file := file
    synced := synced
    appendCalls := 0
    fsyncCalls := 0
    records := records
    errors := 0 }

/-- The destructor: what is dirty is synced, and nobody hears of a failure. -/
def close (disk : Disk) (wal : Wal) : Wal :=
  if !wal.isOpen then wal
  else
    { wal with
      isOpen := false
      synced :=
        if wal.dirty && disk.fsync wal.fsyncCalls then wal.file.length
        else wal.synced }

/-- The log goes on from `base`, and no fewer than `floor` bytes of its file
are synced. -/
structure Continues (base : List Command) (floor : Nat) (wal : Wal) : Prop where
  base : base <+: wal.records
  holding : Holding wal.file wal.records
  low : floor ≤ wal.synced
  high : wal.synced ≤ wal.file.length

/-- Nothing has failed: the file has nothing torn in it, and if every append is
synced, the last one was. -/
structure Clean (base : List Command) (wal : Wal) : Prop where
  isOpen : wal.isOpen = true
  file : wal.file = encodeAll wal.records
  synced : wal.policy = .always →
    wal.synced = wal.file.length ∨ wal.records = base

variable {disk : Disk} {base : List Command} {floor : Nat} {wal after : Wal}

theorem opened_continues (policy : FsyncPolicy) {synced : Nat}
    (admissible : ∀ record ∈ base, Admissible kReplayFrameCap record)
    (within : synced ≤ (encodeAll base).length) :
    (opened policy (encodeAll base) synced base).Continues base synced :=
  ⟨List.prefix_refl _, Holding.whole admissible, Nat.le_refl _, within⟩

theorem opened_clean (policy : FsyncPolicy) (synced : Nat) :
    (opened policy (encodeAll base) synced base).Clean base :=
  ⟨rfl, rfl, fun _ => .inr rfl⟩

/-- An append syncs the whole file or nothing more than before. -/
theorem append_synced (disk : Disk) (wal : Wal) (command : Command) :
    (wal.append disk command).2.synced = wal.synced ∨
      (wal.append disk command).2.synced =
        (wal.append disk command).2.file.length := by
  unfold append
  split
  · exact .inl rfl
  · simp only
    split
    · exact .inl rfl
    · split
      · unfold fsyncNow
        split
        · exact .inl rfl
        · simp only
          split
          · exact .inr rfl
          · exact .inl rfl
      · exact .inl rfl

theorem Continues.append (continues : wal.Continues base floor)
    (clean : wal.Clean base) {command : Command}
    (admissible : Admissible kReplayFrameCap command) :
    (wal.append disk command).2.Continues base floor ∧
      ((wal.append disk command).1 = .ok →
        (wal.append disk command).2.Clean base) := by
  have allAdmissible : ∀ record ∈ wal.records ++ [command],
      Admissible kReplayFrameCap record := by
    rw [List.forall_mem_append, List.forall_mem_singleton]
    exact ⟨continues.holding.admissible, admissible⟩
  have wholeFile : wal.file ++ encode command =
      encodeAll (wal.records ++ [command]) := by
    rw [clean.file]
    simp [encodeAll]
  have synced := append_synced disk wal command
  have longer : base <+: wal.records ++ [command] :=
    continues.base.trans (List.prefix_append _ _)
  -- The sync point is the old one or the end of the file.
  have bounds : wal.file.length ≤ (wal.append disk command).2.file.length →
      floor ≤ (wal.append disk command).2.synced ∧
        (wal.append disk command).2.synced ≤
          (wal.append disk command).2.file.length := by
    intro grown
    have low := continues.low
    have high := continues.high
    omega
  obtain ⟨_, appended⟩ | ⟨notOk, failed, _⟩ :=
    append_cases disk clean.isOpen command
  · have grown : wal.file.length ≤
        (wal.append disk command).2.file.length := by
      rw [appended.file, List.length_append]
      omega
    have bounded := bounds grown
    refine ⟨⟨?_, ?_, bounded.1, bounded.2⟩, fun _ =>
      ⟨appended.isOpen, ?_, ?_⟩⟩
    · rw [appended.records]
      exact longer
    · rw [appended.file, appended.records, wholeFile]
      exact Holding.whole allAdmissible
    · rw [appended.file, appended.records, wholeFile]
    · intro always
      rw [appended.policy] at always
      exact .inl (appended.synced always)
  · refine ⟨?_, fun ok => ?_⟩
    · obtain ⟨written, logged⟩ | ⟨part, torn, written, logged⟩ := failed.written
      · have bounded := bounds (by rw [written, List.length_append]; omega)
        refine ⟨?_, ?_, bounded.1, bounded.2⟩
        · rw [logged]
          exact longer
        · rw [written, logged, wholeFile]
          exact Holding.whole allAdmissible
      · have bounded := bounds (by rw [written, List.length_append]; omega)
        refine ⟨?_, ?_, bounded.1, bounded.2⟩
        · rw [logged]
          exact continues.base
        · rw [written, logged, clean.file]
          exact Holding.torn allAdmissible torn
    · rw [notOk] at ok
      cases ok

theorem Continues.ticked (continues : wal.Continues base floor)
    (ticked : wal.Ticked after) : after.Continues base floor := by
  obtain ⟨leading, holding, low, high⟩ := continues
  refine ⟨?_, ?_, ?_, ?_⟩
  · rwa [ticked.records]
  · rwa [ticked.file, ticked.records]
  · rcases ticked.synced with same | all <;> omega
  · rw [ticked.file]
    rcases ticked.synced with same | all <;> omega

theorem Clean.ticked (clean : wal.Clean base) (ticked : wal.Ticked after) :
    after.Clean base := by
  refine ⟨ticked.isOpen.trans clean.isOpen, ?_, ?_⟩
  · rw [ticked.file, ticked.records]
    exact clean.file
  · rw [ticked.policy, ticked.file, ticked.records]
    intro always
    rcases ticked.synced with same | all
    · rw [same]
      exact clean.synced always
    · exact .inl all

theorem Continues.close (continues : wal.Continues base floor) (disk : Disk) :
    (wal.close disk).Continues base floor := by
  obtain ⟨leading, holding, low, high⟩ := continues
  unfold Wal.close
  split
  · exact ⟨leading, holding, low, high⟩
  · split
    · exact ⟨leading, holding, Nat.le_trans low high, Nat.le_refl _⟩
    · exact ⟨leading, holding, low, high⟩

@[simp] theorem close_records (disk : Disk) (wal : Wal) :
    (wal.close disk).records = wal.records := by
  unfold Wal.close
  split <;> rfl

end Wal

end HermitDb.Persist
