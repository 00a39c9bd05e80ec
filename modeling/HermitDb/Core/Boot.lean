import HermitDb.Core.RecordLimits
import HermitDb.Core.SnapshotBoot
import HermitDb.Persist.Continuation

/-!
# Start-up and the end of a life

At start-up the snapshot, if there is one, is the baseline; the log is replayed
over it before it is opened for appending and attached.  Anything that goes
wrong on the way ends the process with the files as they are, a cut-off torn
tail apart.  What a life leaves behind is its files: after a clean exit the
destructor has synced the log, after a crash some prefix of it is left.
-/

namespace HermitDb.Persist

open Library Protocol

/-- The bytes appending starts behind. -/
def LogFile.bytes : LogFile → Bytes
  | .present bytes => bytes
  | _ => []

/-- The tables to start from: those of the snapshot if the file exists. -/
def startTables (order : ByteOrder) (path : Bytes) (snapshot : LogFile) :
    Except Bytes Tables :=
  match snapshot with
  | .missing => .ok .empty
  | .unreadable => accept (loadSnapshot order .empty path none)
  | .present bytes => accept (loadSnapshot order .empty path (some bytes))
where
  accept (loaded : Loaded) : Except Bytes Tables :=
    match loaded.error with
    | some error => .error error
    | none => .ok loaded.tables

end HermitDb.Persist

namespace HermitDb.Util

open HermitDb.Persist

/-- The policy of the log, if logging is enabled. -/
def Config.persistence (config : Config) : Option FsyncPolicy :=
  if config.walEnabled then config.fsync else none

def Config.snapshotPath (config : Config) : Bytes :=
  config.dataDir ++ ascii "/snapshot.hdb"

end HermitDb.Util

namespace HermitDb.Core

open Library Persist Protocol Util

/-! ## The data directory -/

/-- What the data directory holds.  The first `synced` bytes of the log are
known to have reached the disk. -/
structure DataDir where
  snapshot : LogFile
  log : LogFile
  synced : Nat

/-- A data directory before the first start.  A snapshot may have been put
there. -/
def DataDir.fresh (snapshot : LogFile) : DataDir :=
  ⟨snapshot, .missing, 0⟩

/-- The file the log is appended to, as replay has left it. -/
def DataDir.setLog (dir : DataDir) (file : LogFile) : DataDir :=
  { dir with log := file, synced := min dir.synced file.bytes.length }

/-- The outcomes of the calls of a start-up.  `finds` is false if the log cannot
be opened for reading although it may be there. -/
structure BootCalls where
  creates : Bool
  finds : Bool
  reads : List ReadOutcome
  truncates : Bool
  opens : Bool

inductive BootError where
  | dataDir
  | snapshot (error : Bytes)
  | corrupt
  | replay
  | append

/-! ## Start-up -/

/-- The start of the process up to the point where it listens. -/
def boot (order : ByteOrder) (cfg : Config) (world : World) (walk : Walk)
    (calls : BootCalls) (dir : DataDir) :
    Except Fault (Except BootError Server × DataDir) :=
  match cfg.persistence with
  | none => .ok (.ok (Server.fresh none), dir)
  | some policy =>
      if !calls.creates then .ok (.error .dataDir, dir)
      else
        match startTables order cfg.snapshotPath dir.snapshot with
        | .error error => .ok (.error (.snapshot error), dir)
        | .ok tables =>
            let log := if calls.finds then dir.log else .unreadable
            let found := replay log calls.reads calls.truncates
            match (Server.booted tables).recover world walk found.delivered with
            | .error fault => .error fault
            | .ok (_, server) =>
                let dir := if calls.finds then dir.setLog found.file else dir
                if found.status = .corrupt then .ok (.error .corrupt, dir)
                else if found.status ≠ .ok then .ok (.error .replay, dir)
                else if !calls.opens then .ok (.error .append, dir)
                else
                  let wal := Wal.opened policy dir.log.bytes dir.synced
                    found.delivered
                  .ok (.ok (server.setWal wal),
                    dir.setLog (.present dir.log.bytes))

/-! ## Lives -/

inductive Ending where
  /-- The loop has stopped and the log is destroyed in order. -/
  | exited
  /-- The process is gone; the files are as it has left them. -/
  | killed
  /-- The process or the machine dies while an event is handled.  Of the log
  some prefix is left, with everything that was synced before the event. -/
  | crashed (event : Event) (kept : Nat)

def Ending.orderly : Ending → Bool
  | .crashed _ _ => false
  | _ => true

/-- The event that was not finished. -/
def Ending.events : Ending → List Event
  | .crashed event _ => [event]
  | _ => []

/-- The log after the end, and the records it had been given by then. -/
structure Remains where
  file : Bytes
  synced : Nat
  records : List Command

def Remains.none : Remains :=
  ⟨[], 0, []⟩

def Remains.ofWal (wal : Wal) : Remains :=
  ⟨wal.file, wal.synced, wal.records⟩

/-- What the end of the process leaves of the log. -/
def Server.remains (world : World) (server : Server) :
    Ending → Except Fault Remains
  | .exited => .ok (server.dispatcher.wal.elim .none fun wal =>
      .ofWal (wal.close world.disk))
  | .killed => .ok (server.dispatcher.wal.elim .none .ofWal)
  | .crashed event kept =>
      match server.step world event with
      | .error fault => .error fault
      | .ok (_, next) => .ok (server.dispatcher.wal.elim .none fun wal =>
          next.dispatcher.wal.elim .none fun nextWal =>
            ⟨nextWal.file.take (max wal.synced kept), wal.synced,
              nextWal.records⟩)

/-- The calls and clock readings of a start-up, the events after it and the
end. -/
structure Life where
  recovery : World
  walk : Walk
  calls : BootCalls
  world : World
  events : List Event
  ending : Ending

/-- A life that got past its start-up: the server then and at the end, and what
is left of the log. -/
structure Chapter where
  booted : Server
  final : Server
  ending : Ending
  remains : Remains

/-- The records the start-up found. -/
def Chapter.replayed (chapter : Chapter) : List Command :=
  chapter.booted.records

/-- The records written in full by the end. -/
def Chapter.logged (chapter : Chapter) : List Command :=
  chapter.remains.records

/-- Those of them that are wholly synced. -/
def Chapter.durable (chapter : Chapter) : List Command :=
  wholeItems encode chapter.remains.records chapter.remains.synced

/-- One life of the process on a data directory. -/
def live (order : ByteOrder) (cfg : Config) (dir : DataDir) (life : Life) :
    Except Fault (Except BootError Chapter × DataDir) :=
  match boot order cfg life.recovery life.walk life.calls dir with
  | .error fault => .error fault
  | .ok (.error error, dir) => .ok (.error error, dir)
  | .ok (.ok booted, dir) =>
      match booted.run life.world life.events with
      | .error fault => .error fault
      | .ok (_, final) =>
          match final.remains life.world life.ending with
          | .error fault => .error fault
          | .ok remains =>
              let left := if cfg.persistence = none then dir
                else { dir with
                  log := .present remains.file
                  synced := remains.synced }
              .ok (.ok ⟨booted, final, life.ending, remains⟩, left)

end HermitDb.Core
