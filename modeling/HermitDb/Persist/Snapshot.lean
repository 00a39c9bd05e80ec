import HermitDb.Core.Db
import HermitDb.Core.Expiry
import HermitDb.Library.ByteOrder
import HermitDb.Library.Reader

/-!
# Snapshots of the whole keyspace

The magic bytes, the number of entries, and the entries one after another: type
tag, key, deadline if any, value.  Integers have the byte order of the host,
every byte string its length in front.  The loader reads the same fields back
and stores each entry as soon as it is complete, so that a file rejected half
way leaves the entries before the fault in the store.
-/

namespace HermitDb.Persist

open HermitDb.Core Library

def kMagic : Bytes :=
  ascii "HDB1"

/-! ## Writing -/

section Writing

variable (order : ByteOrder)

def putU8 (number : Nat) : Bytes :=
  [UInt8.ofNat number]

def putU32 (number : Nat) : Bytes :=
  order.encode 4 (number % 2 ^ 32)

def putU64 (number : Nat) : Bytes :=
  order.encode 8 (number % 2 ^ 64)

def putI64 (number : Int64) : Bytes :=
  order.encode 8 number.toUInt64.toNat

def putBytes (text : Bytes) : Bytes :=
  putU32 order text.length ++ text

/-- A key with what the file says about it. -/
structure SnapshotEntry where
  key : Bytes
  atMs : Option Int64
  value : Value
  deriving DecidableEq

def typeTag : Value → Nat
  | .string _ => 0
  | .list _ => 1

def ttlTag : Option Int64 → Nat
  | none => 0
  | some _ => 1

def putDeadline : Option Int64 → Bytes
  | none => []
  | some atMs => putI64 order atMs

def putValue : Value → Bytes
  | .string text => putBytes order text
  | .list items => putU32 order items.length ++ items.flatMap (putBytes order)

def putEntry (entry : SnapshotEntry) : Bytes :=
  putU8 (typeTag entry.value) ++ putBytes order entry.key ++
    putU8 (ttlTag entry.atMs) ++ putDeadline order entry.atMs ++
    putValue order entry.value

/-- The entries of the map, each with the deadline the TTL table has for it. -/
def snapshotEntries (walk : Walk) (db : Db) (expiry : ExpiryManager) :
    List SnapshotEntry :=
  (db.entries walk).map fun entry =>
    ⟨entry.1, expiry.expiryAt entry.1, entry.2⟩

/-- How the output file fares: whether it opens, and whether all writes and the
flush succeed. -/
structure Device where
  opens : Bool
  writes : Bool

/-- The file written, or the error text. -/
def saveSnapshot (walk : Walk) (db : Db) (expiry : ExpiryManager)
    (path : Bytes) (device : Device) : Except Bytes Bytes :=
  if ¬ device.opens then
    .error (ascii "cannot open '" ++ path ++ ascii "' for writing")
  else if ¬ device.writes then
    .error (ascii "write failed for '" ++ path ++ ascii "'")
  else
    .ok (kMagic ++ putU64 order db.size ++
      (snapshotEntries walk db expiry).flatMap (putEntry order))

end Writing

/-! ## Reading -/

/-- The input file from the read position on, and a record of what the loader
has done: the sizes it resized strings to and the loop iterations it began. -/
structure FileStream where
  unread : Bytes
  resizes : List Nat
  rounds : Nat

namespace FileStream

/-- `f.read`: all of the bytes asked for, or failure at the end of the file. -/
def read (count : Nat) : Reader FileStream Bytes :=
  .ofOutcome fun stream =>
    if count ≤ stream.unread.length then
      (some (stream.unread.take count),
        { stream with unread := stream.unread.drop count })
    else (none, { stream with unread := [] })

def resize (size : Nat) : Reader FileStream Unit :=
  .modify fun stream => { stream with resizes := size :: stream.resizes }

/-- One more iteration of a loop over what the file announces. -/
def beginRound : Reader FileStream Unit :=
  .modify fun stream => { stream with rounds := stream.rounds + 1 }

/-- `total - f.tellg()`. -/
def bytesLeft : Reader FileStream Nat :=
  .ofOutcome fun stream => (some stream.unread.length, stream)

end FileStream

section Reading

open FileStream

variable (order : ByteOrder)

def getU8 : Reader FileStream Nat := do
  let bytes ← read 1
  return bytes.headD 0 |>.toNat

def getU32 : Reader FileStream Nat := do
  let bytes ← read 4
  return order.decode bytes

def getU64 : Reader FileStream Nat := do
  let bytes ← read 8
  return order.decode bytes

def getI64 : Reader FileStream Int64 := do
  let bytes ← read 8
  return (UInt64.ofNat (order.decode bytes)).toInt64

/-- The length is checked against what remained before the length field was
read, which is four bytes more than what the text can have. -/
def getBytes (remaining : Nat) : Reader FileStream Bytes := do
  let len ← getU32 order
  guard (len ≤ remaining)
  resize len
  read len

/-- `get_bytes(f, out, bytes_left(f, total))`. -/
def getText : Reader FileStream Bytes := do
  let remaining ← bytesLeft
  getBytes order remaining

/-- The type tag and the TTL flag: a byte that is 0 or 1. -/
def getTag : Reader FileStream Nat := do
  let tag ← getU8
  guard (tag ≤ 1)
  return tag

def getDeadline (hasTtl : Nat) : Reader FileStream (Option Int64) :=
  if hasTtl = 0 then return none
  else do
    let atMs ← getI64 order
    return some atMs

def getElement : Reader FileStream Bytes := do
  beginRound
  getText order

def getValue (type : Nat) : Reader FileStream Value :=
  if type = 0 then do
    let text ← getText order
    return .string text
  else do
    let count ← getU32 order
    let items ← Reader.times (getElement order) count
    return .list items

def getEntry : Reader FileStream SnapshotEntry := do
  let type ← getTag
  let key ← getText order
  let hasTtl ← getTag
  let atMs ← getDeadline order hasTtl
  let value ← getValue order type
  return ⟨key, atMs, value⟩

/-- The two tables the loader fills. -/
structure Tables where
  db : Db
  expiry : ExpiryManager

def Tables.empty : Tables :=
  ⟨Db.empty, ExpiryManager.empty⟩

/-- What one entry does to the tables.  An entry without a deadline leaves the
TTL table alone, also if the key has a deadline there. -/
def Tables.restore (tables : Tables) (entry : SnapshotEntry) : Tables :=
  { db := tables.db.restoreEntry entry.key entry.value
    expiry := match entry.atMs with
      | none => tables.expiry
      | some atMs => tables.expiry.setExpiry entry.key atMs }

/-- What `load_snapshot` leaves behind; no error means that it returned true. -/
structure Loaded where
  error : Option Bytes
  tables : Tables
  stream : FileStream

def corruptEntry (index : Nat) : Bytes :=
  ascii "corrupt snapshot entry " ++ unsignedToString index

/-- The loop over the entries, with `index` of them read and `left` to go. -/
def loadEntries (index : Nat) :
    (left : Nat) → Tables → FileStream → Loaded
  | 0, tables, stream => ⟨none, tables, stream⟩
  | left + 1, tables, stream =>
      match (do beginRound; getEntry order).outcome stream with
      | (none, stream) => ⟨some (corruptEntry index), tables, stream⟩
      | (some entry, stream) =>
          loadEntries (index + 1) left (tables.restore entry) stream

/-- `file` is absent if the path cannot be opened. -/
def loadSnapshot (tables : Tables) (path : Bytes) (file : Option Bytes) :
    Loaded :=
  match file with
  | none =>
      ⟨some (ascii "cannot open '" ++ path ++ ascii "'"), tables, ⟨[], [], 0⟩⟩
  | some bytes =>
      match (read 4).outcome ⟨bytes, [], 0⟩ with
      | (none, stream) =>
          ⟨some (ascii "bad snapshot magic in '" ++ path ++ ascii "'"), tables,
            stream⟩
      | (some magic, stream) =>
          if magic ≠ kMagic then
            ⟨some (ascii "bad snapshot magic in '" ++ path ++ ascii "'"), tables,
              stream⟩
          else
            match (getU64 order).outcome stream with
            | (none, stream) =>
                ⟨some (ascii "truncated snapshot header"), tables, stream⟩
            | (some count, stream) => loadEntries order 0 count tables stream

end Reading

end HermitDb.Persist
