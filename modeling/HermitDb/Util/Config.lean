import HermitDb.Library.Machine
import HermitDb.Persist.Wal

/-!
# Command line flags

`parse_args` reads `--key=value` flags into a configuration and refuses
anything it does not understand.  What it lets through is `Config.Valid`.
-/

namespace HermitDb.Util

open Library Persist

inductive Level where
  | debug
  | info
  | warn
  | error
  deriving DecidableEq

structure Config where
  port : Nat
  nthreads : Nat
  dataDir : Bytes
  walEnabled : Bool
  fsync : Option FsyncPolicy
  maxFrameBytes : Nat
  maxClients : Nat
  logLevel : Level
  deriving DecidableEq

/-- The defaults of the fields. -/
def Config.initial : Config :=
  { port := 6380
    nthreads := 1
    dataDir := ascii "./data"
    walEnabled := false
    fsync := none
    maxFrameBytes := 64 * 2 ^ 20
    maxClients := 10000
    logLevel := .info }

def kUsage : Bytes :=
  -- The three bytes are the dash of the first line.
  ascii "hermitdb " ++ [0xE2, 0x80, 0x94] ++
    ascii " RESP2-compatible in-memory KV store\n" ++
    ascii "\n" ++
    ascii "  --port=N            listen port (default 6380)\n" ++
    ascii "  --threads=N         worker threads; >1 requires CP5 (default 1)\n" ++
    ascii "  --data-dir=PATH     WAL + snapshot directory (default ./data)\n" ++
    ascii "  --wal               enable write-ahead logging (requires --fsync)\n" ++
    ascii "  --fsync=POLICY      always | everysec | no  (no default: DECISION-2)\n" ++
    ascii "  --max-frame-bytes=N reject RESP frames larger than N (default 64MiB)\n" ++
    ascii "  --max-clients=N     concurrent connection cap (default 10000)\n" ++
    ascii "  --log-level=LEVEL   debug | info | warn | error (default info)\n" ++
    ascii "  --help              this text\n"

/-- Split `--key=value`; a flag without `=` has the empty value. -/
def splitFlag (arg : Bytes) : Option (Bytes × Bytes) :=
  match arg with
  | 45 :: 45 :: flag =>
      some (flag.takeWhile (· != 61), (flag.dropWhile (· != 61)).drop 1)
  | _ => none

/-- `isspace` in the C locale. -/
def isCSpace (letter : UInt8) : Bool :=
  letter == 32 || (9 ≤ letter && letter ≤ 13)

/-- An optional sign, and whether it is a minus. -/
def splitSign (number : Bytes) : Bool × Bytes :=
  match number with
  | 45 :: digits => (true, digits)
  | 43 :: digits => (false, digits)
  | digits => (false, digits)

/-- `strtoull` over the text up to its first NUL, which it has to consume.
Blanks and a sign may come first, and a minus sign negates modulo 2^64. -/
def parseU64 (text : Bytes) : Option Nat :=
  if text.isEmpty then none
  else
    let (negative, digits) :=
      splitSign ((text.takeWhile (· != 0)).dropWhile isCSpace)
    match parseDigits digits with
    | none => none
    | some magnitude =>
        if 2 ^ 64 ≤ magnitude then none
        else some (if negative then (2 ^ 64 - magnitude) % 2 ^ 64 else magnitude)

/-- The check of the flags that take a number from 1 up to a limit. -/
def readNumber (value : Bytes) (limit : Nat) (message : String) :
    Except Bytes Nat :=
  match parseU64 value with
  | none => .error (ascii message)
  | some n => if n = 0 ∨ limit < n then .error (ascii message) else .ok n

/-- The cap of the network parsers.  There is no upper limit. -/
def readFrameBytes (value : Bytes) : Except Bytes Nat :=
  match parseU64 value with
  | none => .error (ascii "--max-frame-bytes must be >= 1024")
  | some n =>
      if n < 1024 then .error (ascii "--max-frame-bytes must be >= 1024")
      else .ok n

def readFsync (value : Bytes) : Except Bytes FsyncPolicy :=
  if value = ascii "always" then .ok .always
  else if value = ascii "everysec" then .ok .everySec
  else if value = ascii "no" then .ok .no
  else .error (ascii "--fsync must be always|everysec|no")

def readLevel (value : Bytes) : Except Bytes Level :=
  if value = ascii "debug" then .ok .debug
  else if value = ascii "info" then .ok .info
  else if value = ascii "warn" then .ok .warn
  else if value = ascii "error" then .ok .error
  else .error (ascii "--log-level must be debug|info|warn|error")

/-- One pass through the loop of `parse_args`. -/
def parseFlag (config : Config) (arg : Bytes) : Except Bytes Config :=
  match splitFlag arg with
  | none =>
      .error (ascii "unexpected argument '" ++ arg ++ ascii "'\n\n" ++ kUsage)
  | some (key, value) =>
      if key = ascii "help" then .error kUsage
      else if key = ascii "port" then
        (readNumber value 65535 "--port must be 1..65535").map
          fun n => { config with port := n }
      else if key = ascii "threads" then
        (readNumber value 256 "--threads must be 1..256").map
          fun n => { config with nthreads := n }
      else if key = ascii "data-dir" then
        if value.isEmpty then .error (ascii "--data-dir needs a path")
        else .ok { config with dataDir := value }
      else if key = ascii "wal" then .ok { config with walEnabled := true }
      else if key = ascii "fsync" then
        (readFsync value).map fun policy => { config with fsync := some policy }
      else if key = ascii "max-frame-bytes" then
        (readFrameBytes value).map fun n => { config with maxFrameBytes := n }
      else if key = ascii "max-clients" then
        (readNumber value 1000000 "--max-clients must be 1..1000000").map
          fun n => { config with maxClients := n }
      else if key = ascii "log-level" then
        (readLevel value).map fun level => { config with logLevel := level }
      else .error (ascii "unknown flag '--" ++ key ++ ascii "'\n\n" ++ kUsage)

/-- Read the flags in order, then refuse a log without an explicit policy. -/
def parseArgs (args : List Bytes) (config : Config) : Except Bytes Config :=
  match args.foldlM parseFlag config with
  | .error message => .error message
  | .ok config =>
      if config.walEnabled ∧ config.fsync = none then
        .error (ascii ("--wal requires an explicit " ++
          "--fsync=always|everysec|no (DECISION-2 is unresolved)"))
      else .ok config

/-! ## What is let through -/

/-- The ranges of the fields. -/
structure Config.InRange (config : Config) : Prop where
  port : 0 < config.port ∧ config.port ≤ 65535
  nthreads : 0 < config.nthreads ∧ config.nthreads ≤ 256
  dataDir : config.dataDir ≠ []
  maxFrameBytes : 1024 ≤ config.maxFrameBytes ∧ config.maxFrameBytes < 2 ^ 64
  maxClients : 0 < config.maxClients ∧ config.maxClients ≤ 1000000

structure Config.Valid (config : Config) : Prop extends config.InRange where
  fsync : config.walEnabled = true → config.fsync ≠ none

theorem Config.initial_inRange : Config.initial.InRange := by
  constructor <;> decide

theorem parseU64_lt {text : Bytes} {n : Nat} (parsed : parseU64 text = some n) :
    n < 2 ^ 64 := by
  unfold parseU64 at parsed
  split at parsed
  · cases parsed
  · simp only at parsed
    split at parsed
    · cases parsed
    · split at parsed
      · cases parsed
      · rename_i small
        cases parsed
        split
        · exact Nat.mod_lt _ (by decide)
        · exact Nat.not_le.mp small

theorem readNumber_ok {value : Bytes} {limit n : Nat} {message : String}
    (read : readNumber value limit message = .ok n) : 0 < n ∧ n ≤ limit := by
  unfold readNumber at read
  split at read
  · cases read
  · split at read
    · cases read
    · cases read
      omega

theorem readFrameBytes_ok {value : Bytes} {n : Nat}
    (read : readFrameBytes value = .ok n) : 1024 ≤ n ∧ n < 2 ^ 64 := by
  unfold readFrameBytes at read
  split at read
  · cases read
  · rename_i number
    split at read
    · cases read
    · rename_i enough
      cases read
      exact ⟨Nat.not_lt.mp enough, parseU64_lt number⟩

/-- A flag that is read keeps every field in its range. -/
theorem parseFlag_inRange {config next : Config} {arg : Bytes}
    (inRange : config.InRange) (parsed : parseFlag config arg = .ok next) :
    next.InRange := by
  obtain ⟨port, nthreads, dataDir, maxFrameBytes, maxClients⟩ := inRange
  unfold parseFlag at parsed
  cases isFlag : splitFlag arg with
  | none =>
      rw [isFlag] at parsed
      cases parsed
  | some flag =>
      obtain ⟨key, value⟩ := flag
      rw [isFlag] at parsed
      dsimp only at parsed
      by_cases isHelp : key = ascii "help"
      · rw [if_pos isHelp] at parsed
        cases parsed
      rw [if_neg isHelp] at parsed
      by_cases isPort : key = ascii "port"
      · rw [if_pos isPort] at parsed
        obtain ⟨n, read, rfl⟩ := exists_of_map_eq_ok parsed
        exact ⟨readNumber_ok read, nthreads, dataDir, maxFrameBytes, maxClients⟩
      rw [if_neg isPort] at parsed
      by_cases isThreads : key = ascii "threads"
      · rw [if_pos isThreads] at parsed
        obtain ⟨n, read, rfl⟩ := exists_of_map_eq_ok parsed
        exact ⟨port, readNumber_ok read, dataDir, maxFrameBytes, maxClients⟩
      rw [if_neg isThreads] at parsed
      by_cases isDataDir : key = ascii "data-dir"
      · rw [if_pos isDataDir] at parsed
        by_cases absent : value.isEmpty = true
        · rw [if_pos absent] at parsed
          cases parsed
        · rw [if_neg absent] at parsed
          cases parsed
          refine ⟨port, nthreads, ?_, maxFrameBytes, maxClients⟩
          simpa using absent
      rw [if_neg isDataDir] at parsed
      by_cases isWal : key = ascii "wal"
      · rw [if_pos isWal] at parsed
        cases parsed
        exact ⟨port, nthreads, dataDir, maxFrameBytes, maxClients⟩
      rw [if_neg isWal] at parsed
      by_cases isFsync : key = ascii "fsync"
      · rw [if_pos isFsync] at parsed
        obtain ⟨policy, _, rfl⟩ := exists_of_map_eq_ok parsed
        exact ⟨port, nthreads, dataDir, maxFrameBytes, maxClients⟩
      rw [if_neg isFsync] at parsed
      by_cases isFrameBytes : key = ascii "max-frame-bytes"
      · rw [if_pos isFrameBytes] at parsed
        obtain ⟨n, read, rfl⟩ := exists_of_map_eq_ok parsed
        exact ⟨port, nthreads, dataDir, readFrameBytes_ok read, maxClients⟩
      rw [if_neg isFrameBytes] at parsed
      by_cases isClients : key = ascii "max-clients"
      · rw [if_pos isClients] at parsed
        obtain ⟨n, read, rfl⟩ := exists_of_map_eq_ok parsed
        exact ⟨port, nthreads, dataDir, maxFrameBytes, readNumber_ok read⟩
      rw [if_neg isClients] at parsed
      by_cases isLevel : key = ascii "log-level"
      · rw [if_pos isLevel] at parsed
        obtain ⟨level, _, rfl⟩ := exists_of_map_eq_ok parsed
        exact ⟨port, nthreads, dataDir, maxFrameBytes, maxClients⟩
      rw [if_neg isLevel] at parsed
      cases parsed

theorem foldlM_parseFlag_inRange {args : List Bytes} {config final : Config}
    (inRange : config.InRange)
    (parsed : args.foldlM parseFlag config = .ok final) : final.InRange := by
  induction args generalizing config with
  | nil =>
      cases parsed
      exact inRange
  | cons arg args induction =>
      rw [List.foldlM_cons] at parsed
      cases first : parseFlag config arg with
      | error message =>
          rw [first] at parsed
          cases parsed
      | ok next =>
          rw [first] at parsed
          exact induction (parseFlag_inRange inRange first) parsed

/-- Whatever flags it is given, `parse_args` only returns configurations that
pass all its checks. -/
theorem parseArgs_valid {args : List Bytes} {config : Config}
    (parsed : parseArgs args Config.initial = .ok config) : config.Valid := by
  unfold parseArgs at parsed
  split at parsed
  · cases parsed
  · rename_i final folded
    split at parsed
    · cases parsed
    · rename_i explicit
      cases parsed
      refine ⟨foldlM_parseFlag_inRange Config.initial_inRange folded, ?_⟩
      intro enabled missing
      exact explicit ⟨enabled, missing⟩

/-- A cap far above what recovery can read back is let through. -/
example : parseArgs [ascii "--wal", ascii "--fsync=always",
    ascii "--max-frame-bytes=1073741824"] Config.initial =
    .ok { Config.initial with
      walEnabled := true
      fsync := some .always
      maxFrameBytes := 2 ^ 30 } := by
  rfl

end HermitDb.Util
