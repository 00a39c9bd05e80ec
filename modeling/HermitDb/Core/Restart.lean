import HermitDb.Core.Lives
import HermitDb.Core.Progress

/-!
# The log is the state

A record that `log_mutation` or the evict hook writes asks for the same change
at every time before the deadline in it.  So the keyspace of a server whose
persistence works is the one its records make of the snapshot it was first
started from, through any number of restarts, as long as no start-up comes after
a deadline it reads.  A restart is then invisible to the clients.
-/

namespace HermitDb.Core

open Library Persist Protocol Util

/-! ## Records -/

/-- A record with no relative time in it. -/
inductive Timeless : Command → Prop where
  | set (key value : Bytes) : Timeless (setRecord key value)
  | pexpireat (key : Bytes) (atMs : Int64) : Timeless (pexpireatRecord key atMs)
  | del (key : Bytes) : Timeless (delRecord key)
  | persist (key : Bytes) : Timeless (persistRecord key)
  | verbatim {record : Command}
      (kind : Verbatim (Action.ofCommand wrap64 record)) : Timeless record

/-- A moment no deadline lies before. -/
def beforeAll : Int :=
  Int64.minValue.toInt - 1

theorem beforeAll_lt (number : Int64) : beforeAll < number.toInt := by
  have least := Int64.minValue_le_toInt number
  unfold beforeAll
  omega

/-- What a record makes of a keyspace while no deadline has been reached. -/
def redo (keyspace : Keyspace) (record : Command) : Keyspace :=
  (Action.ofCommand wrap64 record).after wrap64 beforeAll keyspace

def redoAll (keyspace : Keyspace) (records : List Command) : Keyspace :=
  records.foldl redo keyspace

theorem redoAll_append (keyspace : Keyspace) (first second : List Command) :
    redoAll keyspace (first ++ second) =
      redoAll (redoAll keyspace first) second :=
  List.foldl_append

theorem redoAll_singleton (keyspace : Keyspace) (record : Command) :
    redoAll keyspace [record] = redo keyspace record := rfl

theorem redo_setRecord (keyspace : Keyspace) (key value : Bytes) :
    redo keyspace (setRecord key value) =
      Function.update keyspace key (some ⟨.string value, none⟩) := by
  rw [redo, ofCommand_setRecord]
  rfl

theorem redo_delRecord (keyspace : Keyspace) (key : Bytes) :
    redo keyspace (delRecord key) = keyspace.without [key] := by
  rw [redo, ofCommand_delRecord]
  rfl

theorem redo_pexpireatRecord (keyspace : Keyspace) (key : Bytes)
    (atMs : Int64) :
    redo keyspace (pexpireatRecord key atMs) =
      Function.update keyspace key ((keyspace key).map fun item =>
        ⟨item.value, some atMs.toInt⟩) := by
  have ahead : ¬ atMs.toInt ≤ beforeAll := Int.not_le.mpr (beforeAll_lt atMs)
  rw [redo, ofCommand_pexpireatRecord, Action.after]
  cases keyspace key with
  | none => rfl
  | some item => simp [KeyOp.run, ahead]

theorem redo_persistRecord (keyspace : Keyspace) (key : Bytes) :
    redo keyspace (persistRecord key) =
      Function.update keyspace key ((keyspace key).map fun item =>
        ⟨item.value, none⟩) := by
  rw [redo, ofCommand_persistRecord, Action.after]
  cases keyspace key with
  | none => rfl
  | some item =>
      obtain ⟨value, deadline⟩ := item
      cases deadline <;> rfl

section Timeless

variable {world : World} {keyspace : Keyspace} {record : Command}

/-- Before the deadline in it a record does what it does before them all. -/
theorem Timeless.after_eq (timeless : Timeless record)
    (earlier : world.EarlierThanLogged [record]) (keyspace : Keyspace)
    (reading : Nat) :
    (Action.ofCommand wrap64 record).after wrap64 (world.ms reading) keyspace =
      redo keyspace record := by
  cases timeless with
  | set key value =>
      rw [redo_setRecord, ofCommand_setRecord]
      rfl
  | pexpireat key atMs =>
      have ahead : ¬ atMs.toInt ≤ world.ms reading := by
        apply Int.not_le.mpr
        exact earlier.pexpireat (List.mem_singleton_self _) reading
      rw [redo_pexpireatRecord, ofCommand_pexpireatRecord, Action.after]
      cases keyspace key with
      | none => rfl
      | some item => simp [KeyOp.run, ahead]
  | del key =>
      rw [redo_delRecord, ofCommand_delRecord]
      rfl
  | persist key =>
      rw [redo, ofCommand_persistRecord]
      simp only [Action.after]
      congr 2
      cases keyspace key with
      | none => rfl
      | some item =>
          obtain ⟨value, deadline⟩ := item
          cases deadline <;> rfl
  | verbatim kind => exact kind.after_eq wrap64 _ _ keyspace

/-- The deadlines of the keyspace stay ahead of the clock. -/
theorem Timeless.precedes (timeless : Timeless record)
    (earlier : world.EarlierThanLogged [record])
    (early : world.Precedes keyspace) : world.Precedes (redo keyspace record) := by
  cases timeless with
  | set key value =>
      rw [redo_setRecord]
      apply early.update key
      rintro item deadline ⟨⟩ ⟨⟩
  | pexpireat key atMs =>
      rw [redo_pexpireatRecord]
      apply early.update key
      intro item deadline held hasDeadline i
      obtain ⟨old, _, rfl⟩ := Option.map_eq_some_iff.mp held
      cases hasDeadline
      exact earlier.pexpireat (List.mem_singleton_self _) i
  | del key =>
      rw [redo_delRecord]
      exact early.without [key]
  | persist key =>
      rw [redo_persistRecord]
      apply early.update key
      intro item deadline held hasDeadline
      obtain ⟨old, _, rfl⟩ := Option.map_eq_some_iff.mp held
      cases hasDeadline
  | verbatim kind =>
      intro key item deadline present hasDeadline
      obtain ⟨old, wasPresent, hadDeadline⟩ := kind.deadline present hasDeadline
      exact early key old deadline wasPresent hadDeadline

/-- Recovery from any such records, wherever the log breaks off. -/
theorem Server.Recovers.redoAll {server : Server} {records : List Command}
    (recovers : server.Recovers keyspace) (early : world.Precedes keyspace)
    (timeless : ∀ record ∈ records, Timeless record)
    (earlier : world.EarlierThanLogged records) (walk : Walk) :
    ∃ replies next, server.recover world walk records = .ok (replies, next) ∧
      next.Recovers (redoAll keyspace records) := by
  induction records generalizing server keyspace with
  | nil => exact ⟨[], server, rfl, recovers⟩
  | cons record records induction =>
      obtain ⟨first, rest⟩ := List.forall_mem_cons.mp timeless
      have firstEarlier : world.EarlierThanLogged [record] := by
        apply earlier.mono
        intro other isRecord
        rw [List.mem_singleton.mp isRecord]
        exact List.mem_cons_self
      obtain ⟨reply, middle, reading, executed, reached⟩ :=
        recovers.execute early walk record
      rw [first.after_eq firstEarlier] at reached
      obtain ⟨replies, next, recovered, final⟩ := induction reached
        (first.precedes firstEarlier early) rest
        (earlier.mono fun _ member => List.mem_cons_of_mem _ member)
      refine ⟨reply :: replies, next, ?_, final⟩
      rw [Server.recover] at recovered ⊢
      rw [runAll_cons executed, recovered]

end Timeless

/-! ## Events -/

/-- The records of a change do it again. -/
theorem Logs.redoAll_eq {now : Int} {before after : Keyspace} {action : Action}
    {own : List Command} (logs : Logs now before action after own) :
    after = redoAll before own ∧ ∀ record ∈ own, Timeless record := by
  cases logs with
  | nothing => exact ⟨rfl, List.forall_mem_nil _⟩
  | set key value =>
      rw [List.forall_mem_singleton]
      exact ⟨(redo_setRecord before key value).symm, .set key value⟩
  | setExpiring key value atMs =>
      rw [List.forall_mem_cons, List.forall_mem_singleton]
      refine ⟨?_, .set key value, .pexpireat key atMs⟩
      change _ = redo (redo before (setRecord key value)) _
      rw [redo_setRecord, redo_pexpireatRecord, Function.update_self,
        Function.update_idem]
      rfl
  | arm key item atMs present =>
      rw [List.forall_mem_singleton]
      refine ⟨?_, .pexpireat key atMs⟩
      rw [redoAll_singleton, redo_pexpireatRecord, present]
      rfl
  | remove key =>
      rw [List.forall_mem_singleton]
      refine ⟨?_, .del key⟩
      rw [redoAll_singleton, redo_delRecord, TimedMap.without_singleton]
  | disarm key value deadline present =>
      rw [List.forall_mem_singleton]
      refine ⟨?_, .persist key⟩
      rw [redoAll_singleton, redo_persistRecord, present]
      rfl
  | verbatim cmd kind reads =>
      subst reads
      rw [List.forall_mem_singleton]
      exact ⟨kind.after_eq wrap64 _ _ before, .verbatim kind⟩

theorem redoAll_evictions (keyspace : Keyspace) (evicted : List Bytes) :
    redoAll keyspace (evicted.map delRecord) = keyspace.without evicted := by
  induction evicted generalizing keyspace with
  | nil => exact (TimedMap.without_nil keyspace).symm
  | cons key evicted induction =>
      rw [TimedMap.without_cons, ← redo_delRecord]
      exact induction (redo keyspace (delRecord key))

theorem Advance.redoAll_eq {world : World} {before after : Memory}
    {evicted : List Bytes} {own : List Command}
    (advance : Advance world before after evicted own) :
    after.view = redoAll before.view (evicted.map delRecord ++ own) ∧
      ∀ record ∈ evicted.map delRecord ++ own, Timeless record := by
  obtain ⟨now, action, logs⟩ := advance.logs
  obtain ⟨same, timeless⟩ := logs.redoAll_eq
  rw [redoAll_append, redoAll_evictions, List.forall_mem_append,
    List.forall_mem_map]
  exact ⟨same, fun key _ => .del key, timeless⟩

/-! ## Runs -/

/-- The records the log was given make the keyspace of the server out of this
one, as long as persistence works. -/
structure Server.Mirrors (base : Keyspace) (server : Server) : Prop where
  wf : server.memory.Wf
  mirrored : ∃ records, server.dispatcher.Given records ∧
    (∀ record ∈ records, Timeless record) ∧
    (server.dispatcher.persistenceFailed = false →
      server.memory.view = redoAll base records)

namespace Server

variable {base : Keyspace} {server : Server}

theorem Mirrors.step (mirrors : server.Mirrors base) (world : World)
    (event : Event) :
    ∃ output next, server.step world event = .ok (output, next) ∧
      next.Mirrors base := by
  obtain ⟨memory, dispatcher⟩ := server
  obtain ⟨wf, records, given, timeless, same⟩ := mirrors
  cases failed : dispatcher.persistenceFailed with
  | true =>
      obtain ⟨output, next, stepped, nextWf, unchanged⟩ :=
        step_of_failed world wf failed event
      refine ⟨output, next, stepped, nextWf, records, ?_, timeless, ?_⟩
      · rw [unchanged]
        exact given
      · intro healthy
        rw [unchanged, failed] at healthy
        cases healthy
  | false =>
      obtain ⟨reply, after, evicted, own, happens, result⟩ :=
        step_happens world wf event
      have logged := given.log world memory.clockReads happens.silent
      obtain ⟨wal, attached, _⟩ := given
      have stepped := result world.disk dispatcher wal failed attached
      obtain ⟨redone, ownTimeless⟩ := happens.advance.redoAll_eq
      refine ⟨_, _, stepped, happens.advance.wf, _, logged, ?_, ?_⟩
      · rw [List.forall_mem_append]
        exact ⟨timeless, ownTimeless⟩
      · intro _
        rw [redoAll_append, ← same failed]
        exact redone

theorem Mirrors.run (mirrors : server.Mirrors base) (world : World)
    (events : List Event) :
    ∃ replies final, server.run world events = .ok (replies, final) ∧
      final.Mirrors base :=
  runAll_invariant (fun _ event mirrored _ => mirrored.step world event) mirrors
    (eachStep_true _ events)

theorem Mirrors.timeless (mirrors : server.Mirrors base) :
    ∀ record ∈ server.records, Timeless record := by
  obtain ⟨records, ⟨wal, attached, leading, _⟩, timeless, _⟩ := mirrors.mirrored
  rw [records_of_attached attached]
  exact fun record member => timeless record (leading.subset member)

theorem Mirrors.view_eq (mirrors : server.Mirrors base)
    (healthy : server.dispatcher.persistenceFailed = false) :
    server.memory.view = redoAll base server.records := by
  obtain ⟨records, ⟨wal, attached, _, whole⟩, _, same⟩ := mirrors.mirrored
  rw [records_of_attached attached, (whole healthy).2]
  exact same healthy

/-- Whatever the end is, the log holds nothing but such records. -/
theorem Mirrors.remains (mirrors : server.Mirrors base) {world : World}
    {ending : Ending} {remains : Remains}
    (ended : server.remains world ending = .ok remains) :
    (∀ record ∈ remains.records, Timeless record) ∧
      (ending.orderly = true → remains.records = server.records) := by
  have timeless := mirrors.timeless
  obtain ⟨_, ⟨wal, attached, _⟩, _⟩ := mirrors.mirrored
  have sameRecords := records_of_attached attached
  cases ending with
  | exited =>
      simp only [Server.remains, attached, Option.elim] at ended
      cases ended
      change (∀ record ∈ (wal.close world.disk).records, _) ∧
        (_ → (wal.close world.disk).records = _)
      rw [Wal.close_records, ← sameRecords]
      exact ⟨timeless, fun _ => rfl⟩
  | killed =>
      simp only [Server.remains, attached, Option.elim] at ended
      cases ended
      change (∀ record ∈ wal.records, _) ∧ (_ → wal.records = _)
      rw [← sameRecords]
      exact ⟨timeless, fun _ => rfl⟩
  | crashed event kept =>
      obtain ⟨output, next, stepped, nextMirrors⟩ := mirrors.step world event
      have nextTimeless := nextMirrors.timeless
      obtain ⟨_, ⟨nextWal, nextAttached, _⟩, _⟩ := nextMirrors.mirrored
      rw [records_of_attached nextAttached] at nextTimeless
      simp only [Server.remains, stepped, attached, nextAttached, Option.elim]
        at ended
      cases ended
      exact ⟨nextTimeless, fun orderly => by cases orderly⟩

end Server

/-! ## Lives -/

section Lives

variable {order : ByteOrder} {cfg : Config} {policy : FsyncPolicy}
  {snapshot : LogFile} {tables : Tables} {dir next : DataDir} {life : Life}

/-- A start-up that succeeds has replayed what the log is then opened behind. -/
theorem boot_recovers (persistent : cfg.persistence = some policy)
    (loaded : startTables order cfg.snapshotPath dir.snapshot = .ok tables)
    {world : World} {walk : Walk} {calls : BootCalls} {booted : Server}
    (booting : boot order cfg world walk calls dir = .ok (.ok booted, next)) :
    ∃ replies server wal,
      (Server.booted tables).recover world walk booted.records =
        .ok (replies, server) ∧
      booted = server.setWal wal ∧ wal.isOpen = true := by
  simp only [boot, persistent, loaded] at booting
  generalize replay (if calls.finds then dir.log else .unreadable) calls.reads
    calls.truncates = found at booting
  generalize (if calls.finds then dir.setLog found.file else dir) = after
    at booting
  split at booting
  · cases booting
  · split at booting
    · cases booting
    · rename_i replies server recovered
      split at booting
      · cases booting
      · split at booting
        · cases booting
        · split at booting
          · cases booting
          · cases booting
            exact ⟨replies, server, _, recovered, rfl, rfl⟩

/-- The parts of a life that got past its start-up. -/
theorem live_parts {chapter : Chapter}
    (lived : live order cfg dir life = .ok (.ok chapter, next)) :
    ∃ after replies,
      boot order cfg life.recovery life.walk life.calls dir =
        .ok (.ok chapter.booted, after) ∧
      chapter.booted.run life.world life.events =
        .ok (replies, chapter.final) ∧
      chapter.final.remains life.world chapter.ending = .ok chapter.remains := by
  unfold live at lived
  split at lived
  · cases lived
  · cases lived
  · rename_i booted after booting
    split at lived
    · cases lived
    · rename_i replies final ran
      split at lived
      · cases lived
      · rename_i remains ended
        cases lived
        exact ⟨after, replies, booting, ran, ended⟩

/-- The start-up comes before every deadline in the snapshot and in the log. -/
def Life.Early (order : ByteOrder) (cfg : Config) (base : Keyspace)
    (dir : DataDir) (life : Life) : Prop :=
  life.recovery.Precedes base ∧ ∀ booted after,
    boot order cfg life.recovery life.walk life.calls dir =
      .ok (.ok booted, after) →
    life.recovery.EarlierThanLogged booted.records

/-- The server has what its records make of the snapshot, at the start and, if
persistence has not failed, at the end. -/
structure Chapter.Mirrors (base : Keyspace) (chapter : Chapter) : Prop where
  booted : chapter.booted.Mirrors base
  final : chapter.final.Mirrors base
  recovered : chapter.booted.memory.view = redoAll base chapter.replayed

theorem live_mirrors (persistent : cfg.persistence = some policy)
    (loaded : startTables order cfg.snapshotPath dir.snapshot = .ok tables)
    (wf : (Server.booted tables).memory.Wf) {chapter : Chapter}
    (lived : live order cfg dir life = .ok (.ok chapter, next))
    (early : life.Early order cfg (Server.booted tables).memory.view dir)
    (timeless : ∀ record ∈ chapter.replayed, Timeless record) :
    chapter.Mirrors (Server.booted tables).memory.view ∧
      (∀ record ∈ chapter.logged, Timeless record) ∧
      (chapter.ending.orderly = true →
        chapter.logged = chapter.final.records) := by
  obtain ⟨after, replies, booting, ran, ended⟩ := live_parts lived
  obtain ⟨answers, server, wal, recovered, isBooted, isOpen⟩ :=
    boot_recovers persistent loaded booting
  have recovers : (Server.booted tables).Recovers
      (Server.booted tables).memory.view := ⟨wf, rfl, rfl, rfl⟩
  obtain ⟨_, reached, again, reaches⟩ := recovers.redoAll early.1 timeless
    (early.2 _ _ booting) life.walk
  have sameServer : server = reached := by
    have both := recovered.symm.trans again
    cases both
    rfl
  subst sameServer
  have sameRecords : chapter.replayed = wal.records := by
    rw [Chapter.replayed, isBooted]
    rfl
  have view : chapter.booted.memory.view =
      redoAll (Server.booted tables).memory.view chapter.replayed := by
    rw [isBooted]
    exact reaches.view_eq
  have bootedMirrors : chapter.booted.Mirrors
      (Server.booted tables).memory.view := by
    refine ⟨?_, chapter.replayed, ⟨wal, ?_, ?_, fun _ => ⟨isOpen, ?_⟩⟩, timeless,
      fun _ => view⟩
    · rw [isBooted]
      exact reaches.wf
    · rw [isBooted]
      rfl
    · rw [sameRecords]
    · exact sameRecords.symm
  obtain ⟨_, final, ranAgain, finalMirrors⟩ :=
    bootedMirrors.run life.world life.events
  have sameFinal : chapter.final = final := by
    have both := ran.symm.trans ranAgain
    cases both
    rfl
  rw [← sameFinal] at finalMirrors
  exact ⟨⟨bootedMirrors, finalMirrors, view⟩, finalMirrors.remains ended⟩

/-- What the directory holds and what the last life, if there was one, has to do
with it. -/
def MirroredBy (snapshot : LogFile) (base : Keyspace) (last : Option Chapter)
    (dir : DataDir) : Prop :=
  ∃ records, dir.Keeps snapshot records ∧
    (∀ record ∈ records, Timeless record) ∧
    ∀ chapter ∈ last, chapter.Mirrors base ∧
      (chapter.ending.orderly = true → records = chapter.final.records)

/-- Two lives in a row with an orderly end between them. -/
def Chapter.Resumes (earlier later : Chapter) : Prop :=
  earlier.ending.orderly = true →
    earlier.final.dispatcher.persistenceFailed = false →
    later.booted.memory.db = earlier.final.memory.db ∧
      ∀ key, later.booted.memory.expiry.expiryAt key =
        earlier.final.memory.expiry.expiryAt key

/-- A life that got past its start-up mirrors its log. -/
def Life.Reflects (base : Keyspace) (_ : Life)
    (outcome : Except BootError Chapter) : Prop :=
  ∀ chapter, outcome = .ok chapter → chapter.Mirrors base

theorem MirroredBy.live {last : Option Chapter}
    (persistent : cfg.persistence = some policy)
    (loaded : startTables order cfg.snapshotPath snapshot = .ok tables)
    (wf : (Server.booted tables).memory.Wf)
    (keysFit : KeysFit (Server.booted tables).memory.view)
    (mirrored : MirroredBy snapshot (Server.booted tables).memory.view last dir)
    (sound : life.Sound order cfg dir)
    (early : life.Early order cfg (Server.booted tables).memory.view dir) :
    ∃ outcome next, Core.live order cfg dir life = .ok (outcome, next) ∧
      life.Reflects (Server.booted tables).memory.view outcome ∧
      (∀ later ∈ outcome.toOption, ∀ earlier ∈ last, earlier.Resumes later) ∧
      MirroredBy snapshot (Server.booted tables).memory.view
        (outcome.toOption.or last) next := by
  obtain ⟨records, keeps, timeless, fromLast⟩ := mirrored
  obtain ⟨outcome, next, lived,
    ⟨failed, ⟨error, rfl⟩, nextKeeps, _⟩ |
    ⟨chapter, survivors, rfl, _, replayed, _, nextKeeps, _, leading, orderly⟩⟩ :=
    live_cases persistent ⟨tables, loaded, wf, keysFit⟩ keeps sound
  · refine ⟨_, next, lived, ?_, ?_, records, nextKeeps, timeless, fromLast⟩
    · rintro chapter ⟨⟩
    · rintro later ⟨⟩
  · have dirLoaded : startTables order cfg.snapshotPath dir.snapshot =
        .ok tables := by
      rw [keeps.snapshot]
      exact loaded
    rw [← replayed] at timeless
    obtain ⟨mirrors, loggedTimeless, loggedAll⟩ :=
      live_mirrors persistent dirLoaded wf lived early timeless
    refine ⟨_, next, lived, ?_, ?_, survivors, nextKeeps, ?_, ?_⟩
    · rintro other ⟨⟩
      exact mirrors
    · rintro other ⟨⟩ earlier isLast isOrderly healthy
      obtain ⟨earlierMirrors, wasLogged⟩ := fromLast earlier isLast
      apply Memory.eq_of_view_eq mirrors.booted.wf earlierMirrors.final.wf
      rw [mirrors.recovered, earlierMirrors.final.view_eq healthy, replayed,
        wasLogged isOrderly]
    · exact fun record member => loggedTimeless record (leading.subset member)
    · rintro other ⟨⟩
      refine ⟨mirrors, fun isOrderly => ?_⟩
      rw [orderly isOrderly, loggedAll isOrderly]

end Lives

/-- Restarts are invisible.  If no start-up comes after a deadline it reads, the
keyspace of every life is the one its log makes of the snapshot, and a life that
follows an orderly end starts with exactly the keys, values and deadlines the
last one ended with. -/
theorem restart_resumes_keyspace (order : ByteOrder) {cfg : Config}
    {policy : FsyncPolicy} {snapshot : LogFile} {tables : Tables}
    {lives : List Life} (persistent : cfg.persistence = some policy)
    (loaded : startTables order cfg.snapshotPath snapshot = .ok tables)
    (wf : (Server.booted tables).memory.Wf)
    (keysFit : KeysFit (Server.booted tables).memory.view)
    (each : EachStep (live order cfg)
      (fun dir life => life.Sound order cfg dir ∧
        life.Early order cfg (Server.booted tables).memory.view dir)
      (DataDir.fresh snapshot) lives) :
    ∃ outcomes dir,
      runAll (live order cfg) (DataDir.fresh snapshot) lives =
        .ok (outcomes, dir) ∧
      List.Forall₂ (Life.Reflects (Server.booted tables).memory.view) lives
        outcomes ∧
      (outcomes.filterMap Except.toOption).IsChain Chapter.Resumes := by
  have initial : MirroredBy snapshot (Server.booted tables).memory.view none
      (DataDir.fresh snapshot) := by
    refine ⟨[], DataDir.fresh_keeps snapshot, List.forall_mem_nil _, ?_⟩
    rintro chapter ⟨⟩
  exact runAll_chain (fun _ _ _ mirrored allowed =>
    mirrored.live persistent loaded wf keysFit allowed.1 allowed.2) initial each

/-- A key is set with a lifetime of 100 ms, and the process exits. -/
def Life.expiring (walk : Walk) : Life :=
  { recovery := .frozen 0
    walk := walk
    calls := .working []
    world := .frozen 0
    events := [.command walk
      [ascii "SET", ascii "k", ascii "v", ascii "px", ascii "100"]]
    ending := .exited }

/-- What that leaves. -/
def expiringLog : List Command :=
  [[ascii "SET", ascii "k", ascii "v"],
    [ascii "PEXPIREAT", ascii "k", ascii "100"]]

set_option maxRecDepth 4000 in
private theorem remains_of_expiring (walk : Walk) :
    (((Server.booted .empty).setWal (Wal.opened .no [] 0 [])).run (.frozen 0)
      (Life.expiring walk).events).map
        (fun result => result.2.remains (.frozen 0) .exited) =
      .ok (.ok ⟨encodeAll expiringLog, 62, expiringLog⟩) := by
  rfl

private theorem dir_of_expiring (walk : Walk) :
    (live .little { Config.initial with walEnabled := true, fsync := some .no }
      (DataDir.fresh .missing) (.expiring walk)).map Prod.snd =
      .ok ⟨.missing, .present (encodeAll expiringLog), 62⟩ := by
  have booting : boot .little
      { Config.initial with walEnabled := true, fsync := some .no }
      (Life.expiring walk).recovery (Life.expiring walk).walk
      (Life.expiring walk).calls (DataDir.fresh .missing) =
        .ok (.ok ((Server.booted .empty).setWal (Wal.opened .no [] 0 [])),
          ⟨.missing, .present [], 0⟩) := rfl
  obtain ⟨⟨replies, final⟩, ran, ended⟩ :=
    exists_of_map_eq_ok (remains_of_expiring walk)
  change Server.run (Life.expiring walk).world _ _ = _ at ran
  change final.remains (Life.expiring walk).world (Life.expiring walk).ending = _
    at ended
  simp only [live, booting, ran, ended]
  rfl

set_option maxRecDepth 4000 in
private theorem records_of_restarted (walk : Walk) :
    (boot .little { Config.initial with walEnabled := true, fsync := some .no }
      (.frozen 50) walk (.working [.data (encodeAll expiringLog)])
      ⟨.missing, .present (encodeAll expiringLog), 62⟩).map
        (fun result => result.1.toOption.map Server.records) =
      .ok (some expiringLog) := by
  rfl

/-- The process is started again after 50 ms. -/
theorem restart_resumes_keyspace_expiring :
    let cfg : Config :=
      { Config.initial with walEnabled := true, fsync := some .no }
    let restarted : Life :=
      ⟨.frozen 50, .arbitrary, .working [.data (encodeAll expiringLog)],
        .frozen 50, [], .exited⟩
    let lives := [.expiring .arbitrary, restarted]
    (∀ life ∈ lives, life.calls.Succeed) ∧ ∃ outcomes dir,
      runAll (live .little cfg) (DataDir.fresh .missing) lives =
        .ok (outcomes, dir) ∧
      List.Forall₂ (Life.Reflects fun _ => none) lives outcomes ∧
      (outcomes.filterMap Except.toOption).IsChain Chapter.Resumes := by
  intro cfg restarted lives
  have fits : ∀ walk cmd, Event.command walk cmd ∈
      (Life.expiring .arbitrary).events ++
        (Life.expiring .arbitrary).ending.events →
      Admissible kReplayFrameCap cmd := by
    simp only [Life.expiring, Ending.events, List.append_nil, List.mem_cons,
      Event.command.injEq, List.not_mem_nil, or_false]
    rintro walk cmd ⟨_, rfl⟩
    exact ⟨by decide, by decide, by decide⟩
  have early : ∀ world : World, world.Precedes fun _ => none := by
    intro world key item deadline present
    cases present
  have empty : KeysFit (Server.booted .empty).memory.view := by
    intro key present
    exact absurd rfl present
  refine ⟨?_, @restart_resumes_keyspace .little cfg .no .missing .empty lives rfl
    rfl Memory.fresh_wf empty
    ⟨⟨⟨.inl ⟨[], .nil, rfl⟩, ?_⟩, early _, ?_⟩, ?_⟩⟩
  · simp only [lives, List.forall_mem_cons]
    exact ⟨⟨rfl, rfl, by decide, rfl, rfl⟩, ⟨rfl, rfl, by decide, rfl, rfl⟩,
      List.forall_mem_nil _⟩
  · intro booted after _
    exact eachStep_of_admissible (.frozen 0) fits booted
  · intro booted after booting
    cases booting
    intro key text deadline logged
    cases logged
  · intro outcome next lived
    have left : next = ⟨.missing, .present (encodeAll expiringLog), 62⟩ := by
      have observed := dir_of_expiring .arbitrary
      rw [lived] at observed
      exact Except.ok.inj observed
    subst left
    refine ⟨⟨⟨.inl ⟨[encodeAll expiringLog], .data (by decide) .nil, ?_⟩, ?_⟩,
      early _, ?_⟩, fun _ _ _ => trivial⟩
    · exact List.append_nil _
    · intro booted after _
      trivial
    · intro booted after booting
      have observed := records_of_restarted .arbitrary
      rw [booting] at observed
      have isLog : booted.records = expiringLog :=
        Option.some.inj (Except.ok.inj observed)
      rw [isLog]
      intro key text deadline logged parsed i
      simp only [expiringLog, List.mem_cons, List.cons.injEq, List.not_mem_nil,
        or_false] at logged
      rcases logged with ⟨other, _⟩ | ⟨_, _, isText, _⟩
      · exact absurd other (by decide)
      · subst text
        have isDeadline : parseI64 (ascii "100") = some 100 := by decide
        rw [isDeadline] at parsed
        cases parsed
        change (50 : Int64) < 100
        decide

end HermitDb.Core
