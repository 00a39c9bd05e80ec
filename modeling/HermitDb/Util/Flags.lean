import HermitDb.Library.LastWrite
import HermitDb.Util.Config

/-!
# Flags in any order

Every argument is read by itself and sets one field.  So only the last flag for
each field counts, and a configuration that passes the checks can be written
down as flags, in any order, that `parse_args` reads back.
-/

namespace HermitDb.Util

open Library Persist

/-! ## One argument -/

inductive Field where
  | port
  | nthreads
  | dataDir
  | walEnabled
  | fsync
  | maxFrameBytes
  | maxClients
  | logLevel
  deriving DecidableEq

/-- What an accepted argument says. -/
inductive Setting where
  | port (n : Nat)
  | nthreads (n : Nat)
  | dataDir (path : Bytes)
  | wal
  | fsync (policy : FsyncPolicy)
  | maxFrameBytes (n : Nat)
  | maxClients (n : Nat)
  | logLevel (level : Level)
  deriving DecidableEq

namespace Setting

def field : Setting → Field
  | .port _ => .port
  | .nthreads _ => .nthreads
  | .dataDir _ => .dataDir
  | .wal => .walEnabled
  | .fsync _ => .fsync
  | .maxFrameBytes _ => .maxFrameBytes
  | .maxClients _ => .maxClients
  | .logLevel _ => .logLevel

def apply (config : Config) : Setting → Config
  | .port n => { config with port := n }
  | .nthreads n => { config with nthreads := n }
  | .dataDir path => { config with dataDir := path }
  | .wal => { config with walEnabled := true }
  | .fsync policy => { config with fsync := some policy }
  | .maxFrameBytes n => { config with maxFrameBytes := n }
  | .maxClients n => { config with maxClients := n }
  | .logLevel level => { config with logLevel := level }

theorem apply_overwrites : Overwrites apply field where
  same := by
    intro config first second isSame
    cases first <;> cases second <;> first | rfl | cases isSame
  apart := by
    intro config first second different
    cases first <;> cases second <;> first | rfl | exact absurd rfl different

end Setting

/-- An argument without the configuration it is for. -/
def readFlag (arg : Bytes) : Except Bytes Setting :=
  match splitFlag arg with
  | none =>
      .error (ascii "unexpected argument '" ++ arg ++ ascii "'\n\n" ++ kUsage)
  | some (key, value) =>
      if key = ascii "help" then .error kUsage
      else if key = ascii "port" then
        (readNumber value 65535 "--port must be 1..65535").map .port
      else if key = ascii "threads" then
        (readNumber value 256 "--threads must be 1..256").map .nthreads
      else if key = ascii "data-dir" then
        if value.isEmpty then .error (ascii "--data-dir needs a path")
        else .ok (.dataDir value)
      else if key = ascii "wal" then .ok .wal
      else if key = ascii "fsync" then (readFsync value).map .fsync
      else if key = ascii "max-frame-bytes" then
        (readFrameBytes value).map .maxFrameBytes
      else if key = ascii "max-clients" then
        (readNumber value 1000000 "--max-clients must be 1..1000000").map
          .maxClients
      else if key = ascii "log-level" then (readLevel value).map .logLevel
      else .error (ascii "unknown flag '--" ++ key ++ ascii "'\n\n" ++ kUsage)

theorem parseFlag_eq (config : Config) (arg : Bytes) :
    parseFlag config arg = (readFlag arg).map (Setting.apply config) := by
  have both : ∀ {Value : Type} (outcome : Except Bytes Value)
      (setting : Value → Setting) (set : Value → Config),
      (∀ value, (setting value).apply config = set value) →
      outcome.map set = (outcome.map setting).map (Setting.apply config) := by
    intro Value outcome setting set applies
    cases outcome with
    | error message => rfl
    | ok value => exact congrArg Except.ok (applies value).symm
  unfold parseFlag readFlag
  cases splitFlag arg with
  | none => rfl
  | some flag =>
      simp only [apply_ite (Except.map (Setting.apply config))]
      repeat' apply if_congr Iff.rfl
      all_goals first | rfl | exact both _ _ _ fun _ => rfl

/-! ## All arguments -/

/-- What the arguments say, those left out that say nothing. -/
def settingsOf (args : List Bytes) : List Setting :=
  args.filterMap fun arg => (readFlag arg).toOption

theorem foldlM_of_readable {args : List Bytes}
    (readable : ∀ arg ∈ args, (readFlag arg).isOk = true) (config : Config) :
    args.foldlM parseFlag config =
      .ok ((settingsOf args).foldl Setting.apply config) := by
  induction args generalizing config with
  | nil => rfl
  | cons arg args induction =>
      obtain ⟨first, rest⟩ := List.forall_mem_cons.mp readable
      cases read : readFlag arg with
      | error message =>
          rw [read] at first
          cases first
      | ok setting =>
          rw [List.foldlM_cons, parseFlag_eq, read]
          have all : settingsOf (arg :: args) = setting :: settingsOf args := by
            simp [settingsOf, read, Except.toOption]
          rw [all]
          exact induction rest _

theorem readable_of_foldlM {args : List Bytes} {config final : Config}
    (parsed : args.foldlM parseFlag config = .ok final) :
    ∀ arg ∈ args, (readFlag arg).isOk = true := by
  induction args generalizing config with
  | nil => exact List.forall_mem_nil _
  | cons arg args induction =>
      rw [List.foldlM_cons, parseFlag_eq] at parsed
      cases read : readFlag arg with
      | error message =>
          rw [read] at parsed
          cases parsed
      | ok setting =>
          rw [read] at parsed
          refine List.forall_mem_cons.mpr ⟨?_, induction parsed⟩
          rw [read]
          rfl

theorem parseArgs_ok_iff {args : List Bytes} {config final : Config} :
    parseArgs args config = .ok final ↔
      (∀ arg ∈ args, (readFlag arg).isOk = true) ∧
      (settingsOf args).foldl Setting.apply config = final ∧
      ¬ (final.walEnabled = true ∧ final.fsync = none) := by
  constructor
  · intro parsed
    unfold parseArgs at parsed
    cases folded : args.foldlM parseFlag config with
    | error message =>
        rw [folded] at parsed
        cases parsed
    | ok reached =>
        have readable := readable_of_foldlM folded
        have same := (foldlM_of_readable readable config).symm.trans folded
        rw [folded] at parsed
        dsimp only at parsed
        split at parsed
        · cases parsed
        · rename_i explicit
          cases parsed
          exact ⟨readable, Except.ok.inj same, explicit⟩
  · rintro ⟨readable, rfl, explicit⟩
    rw [parseArgs, foldlM_of_readable readable config]
    exact if_neg explicit

/-- The last flag wins.  Arguments that can all be read may be moved, repeated
and left out freely, as long as the last one for each field stays the same. -/
theorem parseArgs_last_flag {args others : List Bytes} {config final : Config}
    (parsed : parseArgs args config = .ok final)
    (readable : ∀ arg ∈ others, (readFlag arg).isOk = true)
    (same : ∀ field, lastWrite Setting.field field (settingsOf others) =
      lastWrite Setting.field field (settingsOf args)) :
    parseArgs others config = .ok final := by
  obtain ⟨_, folded, explicit⟩ := parseArgs_ok_iff.mp parsed
  apply parseArgs_ok_iff.mpr
  refine ⟨readable, ?_, explicit⟩
  rw [Setting.apply_overwrites.foldl_congr config same]
  exact folded

/-- A port that is given twice. -/
theorem parseArgs_last_flag_port :
    parseArgs [ascii "--port=7000", ascii "--wal", ascii "--fsync=no",
      ascii "--port=7001"] Config.initial =
    .ok { Config.initial with
      port := 7001
      walEnabled := true
      fsync := some .no } := by
  have parsed : parseArgs [ascii "--fsync=no", ascii "--port=7001",
      ascii "--wal"] Config.initial =
      .ok { Config.initial with
        port := 7001
        walEnabled := true
        fsync := some .no } := by
    rfl
  have written : settingsOf [ascii "--port=7000", ascii "--wal",
      ascii "--fsync=no", ascii "--port=7001"] =
      [.port 7000, .wal, .fsync .no, .port 7001] := by
    rfl
  have said : settingsOf [ascii "--fsync=no", ascii "--port=7001",
      ascii "--wal"] = [.fsync .no, .port 7001, .wal] := by
    rfl
  apply parseArgs_last_flag parsed
  · decide
  · intro field
    rw [written, said]
    cases field <;> rfl

/-! ## Writing flags -/

def fsyncName : FsyncPolicy → Bytes
  | .always => ascii "always"
  | .everySec => ascii "everysec"
  | .no => ascii "no"

def Level.name : Level → Bytes
  | .debug => ascii "debug"
  | .info => ascii "info"
  | .warn => ascii "warn"
  | .error => ascii "error"

def Field.key : Field → Bytes
  | .port => ascii "port"
  | .nthreads => ascii "threads"
  | .dataDir => ascii "data-dir"
  | .walEnabled => ascii "wal"
  | .fsync => ascii "fsync"
  | .maxFrameBytes => ascii "max-frame-bytes"
  | .maxClients => ascii "max-clients"
  | .logLevel => ascii "log-level"

theorem Field.key_plain (field : Field) :
    ∀ letter ∈ field.key, (letter != 61) = true := by
  apply List.all_eq_true.mp
  cases field <;> rfl

namespace Setting

def value : Setting → Bytes
  | .port n | .nthreads n | .maxFrameBytes n | .maxClients n => unsignedToString n
  | .dataDir path => path
  | .wal => []
  | .fsync policy => fsyncName policy
  | .logLevel level => level.name

/-- The argument that says it. -/
def arg (setting : Setting) : Bytes :=
  ascii "--" ++ setting.field.key ++
    if setting.value = [] then [] else ascii "=" ++ setting.value

def InRange : Setting → Prop
  | .port n => 0 < n ∧ n ≤ 65535
  | .nthreads n => 0 < n ∧ n ≤ 256
  | .dataDir path => path ≠ []
  | .maxFrameBytes n => 1024 ≤ n ∧ n < 2 ^ 64
  | .maxClients n => 0 < n ∧ n ≤ 1000000
  | .wal | .fsync _ | .logLevel _ => True

end Setting

theorem Setting.splitFlag_arg (setting : Setting) :
    splitFlag setting.arg = some (setting.field.key, setting.value) := by
  have shape : setting.arg = 45 :: 45 :: (setting.field.key ++
      if setting.value = [] then [] else 61 :: setting.value) := by
    rfl
  rw [shape, splitFlag, List.takeWhile_append_of_pos setting.field.key_plain,
    List.dropWhile_append_of_pos setting.field.key_plain]
  by_cases isFlag : setting.value = []
  · simp [isFlag]
  · simp [isFlag]

section Digits

variable {letter : UInt8}

theorem ne_zero_of_isDigit (digit : isDigit letter = true) :
    (letter != 0) = true := by
  rw [isDigit_iff] at digit
  apply bne_iff_ne.mpr
  intro isZero
  rw [isZero] at digit
  exact absurd digit.1 (by decide)

theorem isCSpace_of_isDigit (digit : isDigit letter = true) :
    isCSpace letter = false := by
  rw [isDigit_iff] at digit
  simp only [isCSpace, Bool.or_eq_false_iff, beq_eq_false_iff_ne, ne_eq,
    Bool.and_eq_false_iff, decide_eq_false_iff_not, UInt8.le_iff_toNat_le,
    ← UInt8.toNat_inj, UInt8.reduceToNat]
  omega

theorem splitSign_of_isDigit (digit : isDigit letter = true) (rest : Bytes) :
    splitSign (letter :: rest) = (false, letter :: rest) := by
  rw [isDigit_iff] at digit
  unfold splitSign
  split
  · rename_i isMinus
    cases isMinus
    exact absurd digit.1 (by decide)
  · rename_i isPlus
    cases isPlus
    exact absurd digit.1 (by decide)
  · rfl

end Digits

theorem parseU64_unsignedToString {n : Nat} (small : n < 2 ^ 64) :
    parseU64 (unsignedToString n) = some n := by
  have digits := unsignedToString_digits n
  have whole : (unsignedToString n).takeWhile (· != 0) = unsignedToString n :=
    List.takeWhile_eq_self_iff.mpr fun letter member =>
      ne_zero_of_isDigit (digits letter member)
  have nonempty : (unsignedToString n).isEmpty = false := by
    simpa using unsignedToString_ne_nil n
  have unsigned : splitSign ((unsignedToString n).dropWhile isCSpace) =
      (false, unsignedToString n) := by
    cases shape : unsignedToString n with
    | nil => exact absurd shape (unsignedToString_ne_nil n)
    | cons letter rest =>
        have digit := unsignedToString_head shape
        rw [List.dropWhile_cons_of_neg
          (Bool.eq_false_iff.mp (isCSpace_of_isDigit digit)),
          splitSign_of_isDigit digit]
  simp only [parseU64, nonempty, whole, unsigned, parseDigits_unsignedToString,
    Bool.false_eq_true, if_false]
  exact if_neg (Nat.not_le.mpr small)

theorem readNumber_unsignedToString {n limit : Nat} (message : String)
    (positive : 0 < n) (within : n ≤ limit) (small : limit < 2 ^ 64) :
    readNumber (unsignedToString n) limit message = .ok n := by
  rw [readNumber, parseU64_unsignedToString (Nat.lt_of_le_of_lt within small)]
  apply if_neg
  omega

theorem readFsync_fsyncName (policy : FsyncPolicy) :
    readFsync (fsyncName policy) = .ok policy := by
  cases policy <;> rfl

theorem readLevel_name (level : Level) : readLevel level.name = .ok level := by
  cases level <;> rfl

/-- An argument says what it was written for. -/
theorem Setting.readFlag_arg {setting : Setting} (inRange : setting.InRange) :
    readFlag setting.arg = .ok setting := by
  rw [readFlag, setting.splitFlag_arg]
  cases setting with
  | port n | nthreads n | maxClients n =>
      dsimp only [value]
      rw [readNumber_unsignedToString _ inRange.1 inRange.2 (by decide)]
      rfl
  | dataDir path =>
      have present : path.isEmpty = false := List.isEmpty_eq_false_iff.mpr inRange
      dsimp only [value]
      rw [present]
      rfl
  | wal => rfl
  | fsync policy =>
      dsimp only [value]
      rw [readFsync_fsyncName]
      rfl
  | maxFrameBytes n =>
      dsimp only [value]
      rw [readFrameBytes, parseU64_unsignedToString inRange.2]
      dsimp only
      rw [if_neg (Nat.not_lt.mpr inRange.1)]
      rfl
  | logLevel level =>
      dsimp only [value]
      rw [readLevel_name]
      rfl

/-! ## Writing a configuration -/

namespace Config

/-- The fields that have a default are all set. -/
def settings (config : Config) : List Setting :=
  [.port config.port, .nthreads config.nthreads, .dataDir config.dataDir,
    .maxFrameBytes config.maxFrameBytes, .maxClients config.maxClients,
    .logLevel config.logLevel] ++
  (if config.walEnabled then [.wal] else []) ++
  config.fsync.toList.map .fsync

def flags (config : Config) : List Bytes :=
  config.settings.map Setting.arg

variable {config : Config}

theorem InRange.settings (inRange : config.InRange) :
    ∀ setting ∈ config.settings, setting.InRange := by
  intro setting member
  simp only [Config.settings, List.cons_append, List.nil_append, List.mem_cons,
    List.mem_append, List.mem_map] at member
  obtain rfl | rfl | rfl | rfl | rfl | rfl | isWal | ⟨policy, _, rfl⟩ := member
  · exact inRange.port
  · exact inRange.nthreads
  · exact inRange.dataDir
  · exact inRange.maxFrameBytes
  · exact inRange.maxClients
  · trivial
  · split at isWal
    · rw [List.mem_singleton.mp isWal]
      trivial
    · cases isWal
  · trivial

theorem settings_fields (config : Config) :
    (config.settings.map Setting.field).Nodup := by
  cases enabled : config.walEnabled <;> cases policy : config.fsync <;>
    simp [settings, enabled, policy, Setting.field]

theorem foldl_settings (config : Config) :
    config.settings.foldl Setting.apply Config.initial = config := by
  obtain ⟨port, nthreads, dataDir, walEnabled, fsync, maxFrameBytes, maxClients,
    logLevel⟩ := config
  cases walEnabled <;> cases fsync <;> rfl

end Config

theorem settingsOf_arg {settings : List Setting}
    (inRange : ∀ setting ∈ settings, setting.InRange) :
    settingsOf (settings.map Setting.arg) = settings := by
  induction settings with
  | nil => rfl
  | cons setting settings induction =>
      obtain ⟨first, rest⟩ := List.forall_mem_cons.mp inRange
      have others := induction rest
      unfold settingsOf at others ⊢
      rw [List.map_cons, List.filterMap_cons, Setting.readFlag_arg first]
      exact congrArg (setting :: ·) others

/-- The flags of a configuration, in any order, are read back as that
configuration exactly if it passes the checks. -/
theorem parseArgs_flags (config : Config) :
    config.Valid ↔ ∀ args, args.Perm config.flags →
      parseArgs args Config.initial = .ok config := by
  constructor
  · intro valid args perm
    have inRange := valid.toInRange.settings
    apply parseArgs_ok_iff.mpr
    refine ⟨?_, ?_, fun unsynced => valid.fsync unsynced.1 unsynced.2⟩
    · intro arg member
      obtain ⟨setting, isSetting, rfl⟩ :=
        List.mem_map.mp (perm.mem_iff.mp member)
      rw [Setting.readFlag_arg (inRange setting isSetting)]
      rfl
    · have settings : (settingsOf args).Perm config.settings := by
        have same := settingsOf_arg inRange
        rw [← same]
        exact perm.filterMap _
      rw [Setting.apply_overwrites.foldl_congr Config.initial
        (lastWrite_of_perm settings config.settings_fields)]
      exact config.foldl_settings
  · intro reads
    exact parseArgs_valid (reads config.flags (.refl _))

end HermitDb.Util
