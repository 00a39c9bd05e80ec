import HermitDb.Protocol.RespParser

/-!
# Write-ahead log

The log is a bare RESP stream: one array frame per record, no checksum and no
length prefix.  The operating system is an oracle.  A `Disk` fixes the outcome
of every `write` and `fsync` call in advance, and a list of `ReadOutcome`s
fixes what recovery reads.
-/

namespace HermitDb.Persist

open Protocol

inductive FsyncPolicy where
  | always
  | everySec
  | no
  deriving DecidableEq

inductive WalStatus where
  | ok
  | ioError
  | corrupt
  deriving DecidableEq

/-- Cap of the parser that reads the log back: `512u << 20`. -/
def kReplayFrameCap : Nat :=
  512 * 2 ^ 20

/-- One argument in its on-disk form. -/
def encodeArg (arg : Bytes) : Bytes :=
  ascii "$" ++ unsignedToString arg.length ++ crlf ++ (arg ++ crlf)

/-- One command in its on-disk (and on-wire) array form. -/
def encode (command : Command) : Bytes :=
  ascii "*" ++ unsignedToString command.length ++ crlf ++
    command.flatMap encodeArg

def encodeAll (commands : List Command) : Bytes :=
  commands.flatMap encode

theorem encodeAll_append (first second : List Command) :
    encodeAll (first ++ second) = encodeAll first ++ encodeAll second := by
  simp [encodeAll]

/-! ## Appending -/

/-- What one `write` call does: it takes some of the bytes it is offered, is
interrupted, or fails. -/
inductive WriteOutcome where
  | wrote (count : Nat)
  | interrupted
  | failed
  deriving DecidableEq

/-- The loop over `write`: the bytes that reached the file and whether all of
them did.  A script that has run out stands for a call that takes everything
left. -/
def writeAll : List WriteOutcome → Bytes → Bytes × Bool
  | _, [] => ([], true)
  | [], data => (data, true)
  | .interrupted :: outcomes, data => writeAll outcomes data
  | .failed :: _, _ => ([], false)
  | .wrote count :: outcomes, data =>
      let (written, complete) := writeAll outcomes (data.drop count)
      (data.take count ++ written, complete)

/-- The outcomes of the `write` calls of the n-th append and of the n-th
`fsync`. -/
structure Disk where
  writes : Nat → List WriteOutcome
  fsync : Nat → Bool

/-- A disk that takes everything at once. -/
def Disk.ideal : Disk :=
  ⟨fun _ => [], fun _ => true⟩

/-- The log object, the file it appends to and its history.  `synced` is the
number of file bytes covered by the last successful `fsync`, `records` lists
the commands whose encoding was written in full, and `errors` counts the calls
that returned an I/O error. -/
structure Wal where
  policy : FsyncPolicy
  isOpen : Bool
  lastFsyncMs : Int64
  dirty : Bool
  file : Bytes
  synced : Nat
  appendCalls : Nat
  fsyncCalls : Nat
  records : List Command
  errors : Nat

namespace Wal

/-- A log opened for appending to an empty file. -/
def fresh (policy : FsyncPolicy) : Wal :=
  { policy := policy
    isOpen := true
    lastFsyncMs := 0
    dirty := false
    file := []
    synced := 0
    appendCalls := 0
    fsyncCalls := 0
    records := []
    errors := 0 }

def ioError (wal : Wal) : WalStatus × Wal :=
  (.ioError, { wal with errors := wal.errors + 1 })

def fsyncNow (disk : Disk) (wal : Wal) : WalStatus × Wal :=
  if !wal.isOpen then wal.ioError
  else
    let called := { wal with fsyncCalls := wal.fsyncCalls + 1 }
    if disk.fsync wal.fsyncCalls then
      (.ok, { called with dirty := false, synced := wal.file.length })
    else called.ioError

def append (disk : Disk) (wal : Wal) (command : Command) : WalStatus × Wal :=
  if !wal.isOpen then wal.ioError
  else
    let (written, complete) :=
      writeAll (disk.writes wal.appendCalls) (encode command)
    let called := { wal with
      file := wal.file ++ written
      appendCalls := wal.appendCalls + 1 }
    if !complete then called.ioError
    else
      let logged := { called with
        dirty := true
        records := called.records ++ [command] }
      if logged.policy = .always then logged.fsyncNow disk
      else (.ok, logged)

def tickFsync (disk : Disk) (wal : Wal) (nowMs : Int64) : WalStatus × Wal :=
  if wal.policy ≠ .everySec then (.ok, wal)
  else if !wal.dirty || !wal.isOpen then (.ok, wal)
  else if nowMs - wal.lastFsyncMs < 1000 then (.ok, wal)
  else
    match wal.fsyncNow disk with
    | (.ok, synced) => (.ok, { synced with lastFsyncMs := nowMs })
    | (status, wal) => (status, wal)

end Wal

/-! ## Replay -/

/-- What one `read` call returns. -/
inductive ReadOutcome where
  | data (chunk : Bytes)
  | interrupted
  | failed
  deriving DecidableEq

inductive ScanStop where
  | endOfFile
  | corrupt
  | readError
  deriving DecidableEq

/-- The accumulators of the replay loop: commands handed to the callback, the
bytes of their canonical encodings, and the bytes read. -/
structure Scan where
  delivered : List Command
  goodBytes : Nat
  totalBytes : Nat
  stop : ScanStop
  deriving DecidableEq

def scan : RespParser → List ReadOutcome → Scan
  | _, [] => ⟨[], 0, 0, .endOfFile⟩
  | parser, .interrupted :: reads => scan parser reads
  | _, .failed :: _ => ⟨[], 0, 0, .readError⟩
  | parser, .data chunk :: reads =>
      if chunk.isEmpty then ⟨[], 0, 0, .endOfFile⟩
      else
        let (result, following) := parser.feed chunk
        if result.status ≠ .ok then ⟨[], 0, chunk.length, .corrupt⟩
        else
          let rest := scan following reads
          { delivered := result.commands ++ rest.delivered
            goodBytes := (encodeAll result.commands).length + rest.goodBytes
            totalBytes := chunk.length + rest.totalBytes
            stop := rest.stop }

/-- What opening the log for reading finds. -/
inductive LogFile where
  | missing
  | unreadable
  | present (bytes : Bytes)
  deriving DecidableEq

/-- The verdict of replay, the commands handed to the callback and the file it
leaves behind. -/
structure Replay where
  status : WalStatus
  delivered : List Command
  file : LogFile
  deriving DecidableEq

/-- Stream the log through a parser.  A tail that does not parse completely is
cut off at the length of the canonical encodings seen so far. -/
def replay (file : LogFile) (reads : List ReadOutcome) (truncates : Bool) :
    Replay :=
  match file with
  | .missing => ⟨.ok, [], file⟩
  | .unreadable => ⟨.ioError, [], file⟩
  | .present bytes =>
      let found := scan (RespParser.fresh kReplayFrameCap) reads
      match found.stop with
      | .readError => ⟨.ioError, found.delivered, file⟩
      | .corrupt => ⟨.corrupt, found.delivered, file⟩
      | .endOfFile =>
          if found.goodBytes < found.totalBytes then
            if truncates then
              ⟨.ok, found.delivered, .present (bytes.take found.goodBytes)⟩
            else ⟨.ioError, found.delivered, file⟩
          else ⟨.ok, found.delivered, file⟩

end HermitDb.Persist
