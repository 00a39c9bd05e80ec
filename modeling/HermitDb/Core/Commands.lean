import HermitDb.Core.Server
import HermitDb.Protocol.RespWriter

/-!
# Command handlers and dispatch

Every handler validates its arguments, touches the keys it is about to use and
only then looks at the keyspace.  What reaches the log is decided afterwards,
from the text of the reply.
-/

namespace HermitDb.Core

open Persist Protocol

namespace Server

def withDb (server : Server) (db : Db) : Server :=
  { server with memory := { server.memory with db := db } }

def withExpiry (server : Server) (expiry : ExpiryManager) : Server :=
  { server with memory := { server.memory with expiry := expiry } }

/-- `now_ms(clock)` -/
def nowMs (world : World) (server : Server) : Int64 × Server :=
  let (now, memory) := server.memory.readClock world
  (now, { server with memory := memory })

end Server

/-! ## Fixed replies -/

def wrongArityText (nameLower : String) : Bytes :=
  ascii "ERR wrong number of arguments for '" ++ ascii nameLower ++
    ascii "' command"

def wrongArity (nameLower : String) : Bytes :=
  Resp.error (wrongArityText nameLower)

def wrongtypeText : Bytes :=
  ascii "WRONGTYPE Operation against a key holding the wrong kind of value"

def wrongtype : Bytes :=
  Resp.error wrongtypeText

def notAnIntegerText : Bytes :=
  ascii "ERR value is not an integer or out of range"

def notAnInteger : Bytes :=
  Resp.error notAnIntegerText

def invalidExpireText : Bytes :=
  ascii "ERR invalid expire time in 'set' command"

def syntaxErrorText : Bytes :=
  ascii "ERR syntax error"

def configSubcommandText : Bytes :=
  ascii "ERR CONFIG subcommand must be GET"

def emptyCommandText : Bytes :=
  ascii "ERR empty command"

def unknownCommandText (name : Bytes) : Bytes :=
  ascii "ERR unknown command '" ++ name ++ ascii "'"

def misconf : Bytes :=
  Resp.error (ascii "MISCONF persistence failed; restart required")

/-- What a handler returns: a reply and the server after it, or a `Fault`. -/
abbrev Handled := Except Fault (Bytes × Server)

/-! ## Strings -/

def cmdGet (world : World) (server : Server) (cmd : Command) : Handled :=
  match cmd with
  | [_, key] =>
      let server := server.touch world key
      if server.memory.db.type key = .list then .ok (wrongtype, server)
      else
        match server.memory.db.get key with
        | some text => .ok (Resp.bulk text, server)
        | none => .ok (Resp.nullBulk, server)
  | _ => .ok (wrongArity "get", server)

/-- The locals of the option loop of `SET`.  `expireMs` is unset until an `EX`
or `PX` has been seen. -/
structure SetOptions where
  nx : Bool
  xx : Bool
  expireMs : Option Int64
  deriving DecidableEq

/-- The option loop of `SET`.  The left side is the error reply. -/
def setOptions : List Bytes → SetOptions → Except Bytes SetOptions
  | [], options => .ok options
  | arg :: rest, options =>
      let opt := upper arg
      if opt = ascii "NX" ∧ options.xx = false then
        setOptions rest { options with nx := true }
      else if opt = ascii "XX" ∧ options.nx = false then
        setOptions rest { options with xx := true }
      else if (opt = ascii "EX" ∨ opt = ascii "PX") ∧ options.expireMs = none then
        match rest with
        | [] => .error (Resp.error syntaxErrorText)
        | number :: rest =>
            match parseI64 number with
            | none => .error notAnInteger
            | some n =>
                if n ≤ 0 then .error (Resp.error invalidExpireText)
                else setOptions rest { options with
                  expireMs := some (if opt = ascii "EX" then n * 1000 else n) }
      else .error (Resp.error syntaxErrorText)

def cmdSet (world : World) (server : Server) (cmd : Command) : Handled :=
  match cmd with
  | _ :: key :: value :: args =>
      match setOptions args ⟨false, false, none⟩ with
      | .error reply => .ok (reply, server)
      | .ok options =>
          let server := server.touch world key
          let present := server.memory.db.existsKey key
          if (options.nx && present) || (options.xx && !present) then
            .ok (Resp.nullBulk, server)
          else
            let server := server.withDb (server.memory.db.set key value)
            match options.expireMs with
            | some expireMs =>
                let (now, server) := server.nowMs world
                .ok (Resp.simple (ascii "OK"), server.withExpiry
                  (server.memory.expiry.setExpiry key (now + expireMs)))
            | none =>
                .ok (Resp.simple (ascii "OK"), server.withExpiry
                  (server.memory.expiry.persist key))
  | _ => .ok (wrongArity "set", server)

/-- Keeps the deadline of the key.  The overflow test is that of
`__builtin_add_overflow`. -/
def incrBy (world : World) (server : Server) (key : Bytes) (delta : Int64) :
    Handled :=
  let server := server.touch world key
  if server.memory.db.type key = .list then .ok (wrongtype, server)
  else
    match (match server.memory.db.get key with
      | some text => parseI64 text
      | none => some 0) with
    | none => .ok (notAnInteger, server)
    | some cur =>
        let sum := cur.toInt + delta.toInt
        if sum < -2 ^ 63 ∨ 2 ^ 63 ≤ sum then .ok (notAnInteger, server)
        else
          let next := Int64.ofInt sum
          .ok (Resp.integer next.toInt,
            server.withDb (server.memory.db.set key (i64ToString next)))

def cmdIncr (world : World) (server : Server) (cmd : Command) : Handled :=
  match cmd with
  | [_, key] => incrBy world server key 1
  | _ => .ok (wrongArity "incr", server)

def cmdDecr (world : World) (server : Server) (cmd : Command) : Handled :=
  match cmd with
  | [_, key] => incrBy world server key (-1)
  | _ => .ok (wrongArity "decr", server)

def cmdIncrby (world : World) (server : Server) (cmd : Command) : Handled :=
  match cmd with
  | [_, key, number] =>
      match parseI64 number with
      | none => .ok (notAnInteger, server)
      | some delta => incrBy world server key delta
  | _ => .ok (wrongArity "incrby", server)

/-! ## Generic keyspace -/

/-- A deleted key must not leave a deadline behind. -/
def delLoop (world : World) : List Bytes → Nat → Server → Nat × Server
  | [], n, server => (n, server)
  | key :: keys, n, server =>
      let server := server.touch world key
      let (deleted, db) := server.memory.db.del key
      if deleted then
        delLoop world keys (n + 1) ((server.withDb db).withExpiry
          (server.memory.expiry.persist key))
      else delLoop world keys n (server.withDb db)

def cmdDel (world : World) (server : Server) (cmd : Command) : Handled :=
  match cmd with
  | _ :: key :: keys =>
      let (n, server) := delLoop world (key :: keys) 0 server
      .ok (Resp.integer n, server)
  | _ => .ok (wrongArity "del", server)

def existsLoop (world : World) : List Bytes → Nat → Server → Nat × Server
  | [], n, server => (n, server)
  | key :: keys, n, server =>
      let server := server.touch world key
      if server.memory.db.existsKey key then existsLoop world keys (n + 1) server
      else existsLoop world keys n server

def cmdExists (world : World) (server : Server) (cmd : Command) : Handled :=
  match cmd with
  | _ :: key :: keys =>
      let (n, server) := existsLoop world (key :: keys) 0 server
      .ok (Resp.integer n, server)
  | _ => .ok (wrongArity "exists", server)

def cmdType (world : World) (server : Server) (cmd : Command) : Handled :=
  match cmd with
  | [_, key] =>
      let server := server.touch world key
      match server.memory.db.type key with
      | .none => .ok (Resp.simple (ascii "none"), server)
      | .string => .ok (Resp.simple (ascii "string"), server)
      | .list => .ok (Resp.simple (ascii "list"), server)
  | _ => .ok (wrongArity "type", server)

/-- The loop of `KEYS`: the keys that have not expired. -/
def keysLoop (world : World) : List Bytes → Server → List Bytes × Server
  | [], server => ([], server)
  | key :: keys, server =>
      let (expired, server) := server.checkAndExpire world key
      let (found, server) := keysLoop world keys server
      (if expired then found else key :: found, server)

def cmdKeys (world : World) (walk : Walk) (server : Server) (cmd : Command) :
    Handled :=
  match cmd with
  | [_, pattern] =>
      let (found, server) :=
        keysLoop world
          (server.memory.db.keysMatchingGlob world.plainChar walk pattern) server
      .ok (Resp.array (found.map Resp.bulk), server)
  | _ => .ok (wrongArity "keys", server)

def cmdDbsize (server : Server) (cmd : Command) : Handled :=
  match cmd with
  | [_] => .ok (Resp.integer server.memory.db.size, server)
  | _ => .ok (wrongArity "dbsize", server)

/-- The table has no way to be cleared; every key is disarmed instead. -/
def cmdFlushall (world : World) (walk : Walk) (server : Server)
    (cmd : Command) : Handled :=
  match cmd with
  | [_] =>
      let keys :=
        server.memory.db.keysMatchingGlob world.plainChar walk (ascii "*")
      let server := server.withExpiry
        (keys.foldl ExpiryManager.persist server.memory.expiry)
      .ok (Resp.simple (ascii "OK"), server.withDb server.memory.db.clear)
  | _ => .ok (wrongArity "flushall", server)

/-! ## TTL family -/

def expireGeneric (world : World) (nameLower : String) (unitToMs : Int64)
    (server : Server) (cmd : Command) : Handled :=
  match cmd with
  | [_, key, number] =>
      match parseI64 number with
      | none => .ok (notAnInteger, server)
      | some n =>
          let server := server.touch world key
          if !server.memory.db.existsKey key then .ok (Resp.integer 0, server)
          else if n ≤ 0 then
            let server := server.withDb (server.memory.db.del key).2
            .ok (Resp.integer 1,
              server.withExpiry (server.memory.expiry.persist key))
          else
            let (now, server) := server.nowMs world
            .ok (Resp.integer 1, server.withExpiry
              (server.memory.expiry.setExpiry key (now + n * unitToMs)))
  | _ => .ok (wrongArity nameLower, server)

def cmdExpire (world : World) (server : Server) (cmd : Command) : Handled :=
  expireGeneric world "expire" 1000 server cmd

def cmdPexpire (world : World) (server : Server) (cmd : Command) : Handled :=
  expireGeneric world "pexpire" 1 server cmd

/-- The absolute form, which is what the log carries. -/
def cmdPexpireat (world : World) (server : Server) (cmd : Command) : Handled :=
  match cmd with
  | [_, key, number] =>
      match parseI64 number with
      | none => .ok (notAnInteger, server)
      | some atMs =>
          let server := server.touch world key
          if !server.memory.db.existsKey key then .ok (Resp.integer 0, server)
          else
            let (now, server) := server.nowMs world
            if atMs ≤ now then
              let server := server.withDb (server.memory.db.del key).2
              .ok (Resp.integer 1,
                server.withExpiry (server.memory.expiry.persist key))
            else
              .ok (Resp.integer 1,
                server.withExpiry (server.memory.expiry.setExpiry key atMs))
  | _ => .ok (wrongArity "pexpireat", server)

def ttlGeneric (world : World) (nameLower : String) (inSeconds : Bool)
    (server : Server) (cmd : Command) : Handled :=
  match cmd with
  | [_, key] =>
      let server := server.touch world key
      if !server.memory.db.existsKey key then .ok (Resp.integer (-2), server)
      else
        match server.memory.expiry.expiryAt key with
        | none => .ok (Resp.integer (-1), server)
        | some atMs =>
            let (now, server) := server.nowMs world
            let remainingMs := atMs - now
            let remainingMs := if remainingMs < 0 then 0 else remainingMs
            let shown :=
              if inSeconds then (remainingMs + 500) / 1000 else remainingMs
            .ok (Resp.integer shown.toInt, server)
  | _ => .ok (wrongArity nameLower, server)

def cmdTtl (world : World) (server : Server) (cmd : Command) : Handled :=
  ttlGeneric world "ttl" true server cmd

def cmdPttl (world : World) (server : Server) (cmd : Command) : Handled :=
  ttlGeneric world "pttl" false server cmd

def cmdPersist (world : World) (server : Server) (cmd : Command) : Handled :=
  match cmd with
  | [_, key] =>
      let server := server.touch world key
      if !server.memory.db.existsKey key then .ok (Resp.integer 0, server)
      else if (server.memory.expiry.expiryAt key).isNone then
        .ok (Resp.integer 0, server)
      else
        .ok (Resp.integer 1,
          server.withExpiry (server.memory.expiry.persist key))
  | _ => .ok (wrongArity "persist", server)

/-! ## Lists -/

/-- One push per value; the length after the last one. -/
def pushLoop (left : Bool) (key : Bytes) :
    List Bytes → Nat → Db → Except Fault (Nat × Db)
  | [], len, db => .ok (len, db)
  | value :: values, _, db =>
      match (if left then db.lpush key value else db.rpush key value) with
      | .error fault => .error fault
      | .ok (len, db) => pushLoop left key values len db

def pushGeneric (world : World) (nameLower : String) (left : Bool)
    (server : Server) (cmd : Command) : Handled :=
  match cmd with
  | _ :: key :: value :: values =>
      let server := server.touch world key
      if server.memory.db.type key = .string then .ok (wrongtype, server)
      else
        match pushLoop left key (value :: values) 0 server.memory.db with
        | .error fault => .error fault
        | .ok (len, db) => .ok (Resp.integer len, server.withDb db)
  | _ => .ok (wrongArity nameLower, server)

def cmdLpush (world : World) (server : Server) (cmd : Command) : Handled :=
  pushGeneric world "lpush" true server cmd

def cmdRpush (world : World) (server : Server) (cmd : Command) : Handled :=
  pushGeneric world "rpush" false server cmd

/-- Popping the last element removed the key; its deadline goes with it. -/
def popGeneric (world : World) (nameLower : String) (left : Bool)
    (server : Server) (cmd : Command) : Handled :=
  match cmd with
  | [_, key] =>
      let server := server.touch world key
      let db := server.memory.db
      if db.type key = .string then .ok (wrongtype, server)
      else
        match (if left then db.lpop key else db.rpop key) with
        | .error fault => .error fault
        | .ok (none, db) => .ok (Resp.nullBulk, server.withDb db)
        | .ok (some value, db) =>
            let server := server.withDb db
            if !db.existsKey key then
              .ok (Resp.bulk value,
                server.withExpiry (server.memory.expiry.persist key))
            else .ok (Resp.bulk value, server)
  | _ => .ok (wrongArity nameLower, server)

def cmdLpop (world : World) (server : Server) (cmd : Command) : Handled :=
  popGeneric world "lpop" true server cmd

def cmdRpop (world : World) (server : Server) (cmd : Command) : Handled :=
  popGeneric world "rpop" false server cmd

def cmdLlen (world : World) (server : Server) (cmd : Command) : Handled :=
  match cmd with
  | [_, key] =>
      let server := server.touch world key
      if server.memory.db.type key = .string then .ok (wrongtype, server)
      else
        match server.memory.db.llen key with
        | .error fault => .error fault
        | .ok len => .ok (Resp.integer len, server)
  | _ => .ok (wrongArity "llen", server)

def cmdLrange (world : World) (server : Server) (cmd : Command) : Handled :=
  match cmd with
  | [_, key, first, last] =>
      match parseI64 first, parseI64 last with
      | some start, some stop =>
          let server := server.touch world key
          if server.memory.db.type key = .string then .ok (wrongtype, server)
          else
            match server.memory.db.lrange key start.toInt stop.toInt with
            | .error fault => .error fault
            | .ok values =>
                .ok (Resp.array (values.map Resp.bulk), server)
      | _, _ => .ok (notAnInteger, server)
  | _ => .ok (wrongArity "lrange", server)

/-! ## Server and connection -/

def cmdPing (server : Server) (cmd : Command) : Handled :=
  match cmd with
  | [_] => .ok (Resp.simple (ascii "PONG"), server)
  | [_, text] => .ok (Resp.bulk text, server)
  | _ => .ok (wrongArity "ping", server)

def cmdEcho (server : Server) (cmd : Command) : Handled :=
  match cmd with
  | [_, text] => .ok (Resp.bulk text, server)
  | _ => .ok (wrongArity "echo", server)

def cmdCommand (server : Server) (_ : Command) : Handled :=
  .ok (Resp.emptyArray, server)

/-- The settings `CONFIG GET` knows. -/
def kKnown : List (Bytes × Bytes) :=
  [(ascii "save", ascii ""), (ascii "appendonly", ascii "no"),
    (ascii "maxmemory", ascii "0")]

def cmdConfig (server : Server) (cmd : Command) : Handled :=
  match cmd with
  | _ :: sub :: args =>
      if upper sub = ascii "GET" then
        match args with
        | [name] =>
            match kKnown.lookup (lower name) with
            | none => .ok (Resp.emptyArray, server)
            | some value =>
                .ok (Resp.array [Resp.bulk (lower name), Resp.bulk value], server)
        | _ => .ok (wrongArity "config|get", server)
      else .ok (Resp.error configSubcommandText, server)
  | _ => .ok (Resp.error configSubcommandText, server)

/-! ## Dispatch -/

inductive Verb where
  | ping | echo | set | get | del | exists | expire | pexpire | ttl | pexpireat
  | pttl | persist | incr | decr | incrby | type | flushall | dbsize | keys
  | config | command | lpush | rpush | lpop | rpop | lrange | llen
  deriving DecidableEq

/-- The command table. -/
def table : List (Bytes × Verb) :=
  [(ascii "PING", .ping), (ascii "ECHO", .echo), (ascii "SET", .set),
    (ascii "GET", .get), (ascii "DEL", .del), (ascii "EXISTS", .exists),
    (ascii "EXPIRE", .expire), (ascii "PEXPIRE", .pexpire),
    (ascii "TTL", .ttl), (ascii "PEXPIREAT", .pexpireat),
    (ascii "PTTL", .pttl), (ascii "PERSIST", .persist),
    (ascii "INCR", .incr), (ascii "DECR", .decr), (ascii "INCRBY", .incrby),
    (ascii "TYPE", .type), (ascii "FLUSHALL", .flushall),
    (ascii "DBSIZE", .dbsize), (ascii "KEYS", .keys),
    (ascii "CONFIG", .config), (ascii "COMMAND", .command),
    (ascii "LPUSH", .lpush), (ascii "RPUSH", .rpush), (ascii "LPOP", .lpop),
    (ascii "RPOP", .rpop), (ascii "LRANGE", .lrange), (ascii "LLEN", .llen)]

def Verb.handler (verb : Verb) (world : World) (walk : Walk) (server : Server)
    (cmd : Command) : Handled :=
  match verb with
  | .ping => cmdPing server cmd
  | .echo => cmdEcho server cmd
  | .set => cmdSet world server cmd
  | .get => cmdGet world server cmd
  | .del => cmdDel world server cmd
  | .exists => cmdExists world server cmd
  | .expire => cmdExpire world server cmd
  | .pexpire => cmdPexpire world server cmd
  | .ttl => cmdTtl world server cmd
  | .pexpireat => cmdPexpireat world server cmd
  | .pttl => cmdPttl world server cmd
  | .persist => cmdPersist world server cmd
  | .incr => cmdIncr world server cmd
  | .decr => cmdDecr world server cmd
  | .incrby => cmdIncrby world server cmd
  | .type => cmdType world server cmd
  | .flushall => cmdFlushall world walk server cmd
  | .dbsize => cmdDbsize server cmd
  | .keys => cmdKeys world walk server cmd
  | .config => cmdConfig server cmd
  | .command => cmdCommand server cmd
  | .lpush => cmdLpush world server cmd
  | .rpush => cmdRpush world server cmd
  | .lpop => cmdLpop world server cmd
  | .rpop => cmdRpop world server cmd
  | .lrange => cmdLrange world server cmd
  | .llen => cmdLlen world server cmd

/-- `cmd[i]`.  Every use stands behind a reply that only a command of
sufficient length can get. -/
def arg (cmd : Command) (i : Nat) : Bytes :=
  cmd.getD i []

def setRecord (key value : Bytes) : Command :=
  [ascii "SET", key, value]

def pexpireatRecord (key : Bytes) (atMs : Int64) : Command :=
  [ascii "PEXPIREAT", key, i64ToString atMs]

def persistRecord (key : Bytes) : Command :=
  [ascii "PERSIST", key]

/-- The records `log_mutation` puts, in order.  `expiry` is the table as the
handler left it. -/
def mutationRecords (expiry : ExpiryManager) (verb : Verb) (cmd : Command)
    (reply : Bytes) : List Command :=
  -- An error reply means that nothing changed.
  if reply = [] ∨ reply.head? = (ascii "-").head? then []
  else
    match verb with
    | .set =>
        if reply ≠ ascii "+OK\r\n" then []
        else
          setRecord (arg cmd 1) (arg cmd 2) ::
            match expiry.expiryAt (arg cmd 1) with
            | some atMs => [pexpireatRecord (arg cmd 1) atMs]
            | none => []
    | .expire | .pexpire | .pexpireat =>
        if reply ≠ ascii ":1\r\n" then []
        else
          match expiry.expiryAt (arg cmd 1) with
          | some atMs => [pexpireatRecord (arg cmd 1) atMs]
          | none => [delRecord (arg cmd 1)]
    | .persist =>
        if reply = ascii ":1\r\n" then [persistRecord (arg cmd 1)] else []
    | .del => if reply ≠ ascii ":0\r\n" then [cmd] else []
    | .incr | .decr | .incrby | .lpush | .rpush =>
        if reply.head? = (ascii ":").head? then [cmd] else []
    | .lpop | .rpop => if reply ≠ ascii "$-1\r\n" then [cmd] else []
    | .flushall => if reply = ascii "+OK\r\n" then [cmd] else []
    | _ => []

namespace Server

def logMutation (world : World) (server : Server) (verb : Verb) (cmd : Command)
    (reply : Bytes) : Server :=
  let records := mutationRecords server.memory.expiry verb cmd reply
  { server with dispatcher := server.dispatcher.putAll world records }

def execute (world : World) (walk : Walk) (server : Server) (cmd : Command) :
    Handled :=
  if server.dispatcher.persistenceFailed then .ok (misconf, server)
  else
    match cmd with
    | [] => .ok (Resp.error emptyCommandText, server)
    | name :: _ =>
        if upper name = ascii "SHUTDOWN" then
          .ok (Resp.simple (ascii "OK"),
            { server with
              dispatcher := { server.dispatcher with shutdown := true } })
        else
          match table.lookup (upper name) with
          | none => .ok (Resp.error (unknownCommandText name), server)
          | some verb =>
              match verb.handler world walk server cmd with
              | .error fault => .error fault
              | .ok (reply, server) =>
                  let server :=
                    if server.dispatcher.wal.isSome &&
                        !server.dispatcher.persistenceFailed then
                      server.logMutation world verb cmd reply
                    else server
                  if server.dispatcher.persistenceFailed then
                    .ok (misconf, server)
                  else .ok (reply, server)

end Server

end HermitDb.Core
