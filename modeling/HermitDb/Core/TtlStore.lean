import HermitDb.Core.Commands
import HermitDb.Library.TimedMap

/-!
# The store the server stands for

A keyspace sends keys to values with optional deadlines.  A command is an
`Action` on it: most touch a single key and are a `KeyOp`, a function of the
clock and of what the key holds.  Neither lazy expiration nor the log is
visible here.

Deadline arithmetic goes through a parameter `wrap`: `wrap64` is what the
server's 64-bit integers compute, the identity is unbounded arithmetic.
-/

namespace HermitDb.Core

open Library Protocol

/-! ## Replies -/

/-- One RESP2 reply. -/
inductive Reply where
  | simple (text : Bytes)
  | error (message : Bytes)
  | integer (number : Int)
  | bulk (payload : Bytes)
  | nullBulk
  | bulks (items : List Bytes)
  deriving DecidableEq

namespace Reply

def encode : Reply → Bytes
  | simple text => Resp.simple text
  | error message => Resp.error message
  | integer number => Resp.integer number
  | bulk payload => Resp.bulk payload
  | nullBulk => Resp.nullBulk
  | bulks items => Resp.array (items.map Resp.bulk)

def ok : Reply :=
  simple (ascii "OK")

def wrongType : Reply :=
  error wrongtypeText

def notAnInteger : Reply :=
  error notAnIntegerText

def wrongArity (nameLower : String) : Reply :=
  error (wrongArityText nameLower)

end Reply

/-! ## Operations on one key -/

abbrev Item := Timed Value

abbrev Keyspace := TimedMap Bytes Value

def wrap64 (number : Int) : Int :=
  number.bmod (2 ^ 64)

/-- The options of `SET`. -/
structure SetChoice where
  nx : Bool
  xx : Bool
  expireMs : Option Int
  deriving DecidableEq

inductive KeyOp where
  | get
  | set (value : Bytes) (choice : SetChoice)
  | incrBy (delta : Int)
  | type
  | expire (n unitToMs : Int)
  | pexpireat (atMs : Int)
  | ttl (inSeconds : Bool)
  | persist
  | push (left : Bool) (values : List Bytes)
  | pop (left : Bool)
  | llen
  | lrange (start stop : Int)
  deriving DecidableEq

/-- The elements between two inclusive bounds, where a negative bound counts
from the tail. -/
def sublist (items : List Bytes) (start stop : Int) : List Bytes :=
  let first := if start < 0 then start + items.length else start
  let last := if stop < 0 then stop + items.length else stop
  (items.zipIdx.filter fun entry => first ≤ entry.2 ∧ entry.2 ≤ last).map
    Prod.fst

/-- The list after pushing the values one by one. -/
def pushed (left : Bool) (items values : List Bytes) : List Bytes :=
  if left then values.reverse ++ items else items ++ values

def taken (left : Bool) (items : List Bytes) : Option (Bytes × List Bytes) :=
  if left then Db.takeFront items else Db.takeBack items

def increment (item : Option Item) (deadline : Option Int) (sum : Int) :
    Reply × Option Item :=
  if sum < -2 ^ 63 ∨ 2 ^ 63 ≤ sum then (.notAnInteger, item)
  else (.integer sum, some ⟨.string (intToString sum), deadline⟩)

namespace KeyOp

/-- The reply and what the key holds afterwards. -/
def run (wrap : Int → Int) (now : Int) (op : KeyOp) (item : Option Item) :
    Reply × Option Item :=
  match op, item with
  | get, none => (.nullBulk, none)
  | get, some ⟨.string text, _⟩ => (.bulk text, item)
  | get, some ⟨.list _, _⟩ => (.wrongType, item)
  | set value choice, item =>
      if (choice.nx && item.isSome) || (choice.xx && !item.isSome) then
        (.nullBulk, item)
      else
        (.ok, some ⟨.string value,
          choice.expireMs.map fun ms => wrap (now + ms)⟩)
  | incrBy delta, none => increment none none delta
  | incrBy delta, some ⟨.string text, deadline⟩ =>
      match parseI64 text with
      | none => (.notAnInteger, item)
      | some cur => increment item deadline (cur.toInt + delta)
  | incrBy _, some ⟨.list _, _⟩ => (.wrongType, item)
  | type, none => (.simple (ascii "none"), none)
  | type, some ⟨.string _, _⟩ => (.simple (ascii "string"), item)
  | type, some ⟨.list _, _⟩ => (.simple (ascii "list"), item)
  | expire _ _, none => (.integer 0, none)
  | expire n unitToMs, some ⟨value, _⟩ =>
      if n ≤ 0 then (.integer 1, none)
      else (.integer 1, some ⟨value, some (wrap (now + wrap (n * unitToMs)))⟩)
  | pexpireat _, none => (.integer 0, none)
  | pexpireat atMs, some ⟨value, _⟩ =>
      if atMs ≤ now then (.integer 1, none)
      else (.integer 1, some ⟨value, some atMs⟩)
  | ttl _, none => (.integer (-2), none)
  | ttl _, some ⟨_, none⟩ => (.integer (-1), item)
  | ttl inSeconds, some ⟨_, some deadline⟩ =>
      let remaining := max 0 (wrap (deadline - now))
      (.integer (if inSeconds then (wrap (remaining + 500)).tdiv 1000
        else remaining), item)
  | persist, none => (.integer 0, none)
  | persist, some ⟨_, none⟩ => (.integer 0, item)
  | persist, some ⟨value, some _⟩ => (.integer 1, some ⟨value, none⟩)
  | push left values, none =>
      (.integer (pushed left [] values).length,
        some ⟨.list (pushed left [] values), none⟩)
  | push left values, some ⟨.list items, deadline⟩ =>
      (.integer (pushed left items values).length,
        some ⟨.list (pushed left items values), deadline⟩)
  | push _ _, some ⟨.string _, _⟩ => (.wrongType, item)
  | pop _, none => (.nullBulk, none)
  | pop left, some ⟨.list items, deadline⟩ =>
      match taken left items with
      | none => (.nullBulk, item)
      | some (value, rest) =>
          (.bulk value,
            if rest.isEmpty then none else some ⟨.list rest, deadline⟩)
  | pop _, some ⟨.string _, _⟩ => (.wrongType, item)
  | llen, none => (.integer 0, none)
  | llen, some ⟨.list items, _⟩ => (.integer items.length, item)
  | llen, some ⟨.string _, _⟩ => (.wrongType, item)
  | lrange _ _, none => (.bulks [], none)
  | lrange start stop, some ⟨.list items, _⟩ =>
      (.bulks (sublist items start stop), item)
  | lrange _ _, some ⟨.string _, _⟩ => (.wrongType, item)

end KeyOp

/-! ## Commands -/

inductive Action where
  | answer (reply : Reply)
  | onKey (key : Bytes) (op : KeyOp)
  | del (keys : List Bytes)
  | exists (keys : List Bytes)
  | keys (pattern : Bytes)
  | dbsize
  | flushall
  deriving DecidableEq

namespace Action

/-- The keys whose presence the action looks at. -/
def Touches (plain : PlainChar) : Action → Bytes → Prop
  | onKey key _, other => other = key
  | del targets, other => other ∈ targets
  | .exists targets, other => other ∈ targets
  | keys pattern, other => globMatch plain pattern other = true
  | _, _ => False

/-- The keyspace after the action. -/
def after (wrap : Int → Int) (now : Int) (action : Action)
    (keyspace : Keyspace) : Keyspace :=
  match action with
  | onKey key op =>
      Function.update keyspace key (op.run wrap now (keyspace key)).2
  | del targets => keyspace.without targets
  | flushall => fun _ => none
  | _ => keyspace

/-- The replies the action may give.  Only the order of `KEYS` is open. -/
def Answers (plain : PlainChar) (wrap : Int → Int) (now : Int) (action : Action)
    (keyspace : Keyspace) (reply : Reply) : Prop :=
  match action with
  | answer fixed => reply = fixed
  | onKey key op => reply = (op.run wrap now (keyspace key)).1
  | del targets =>
      reply = .integer (targets.dedup.countP fun key => (keyspace key).isSome)
  | .exists targets =>
      reply = .integer (targets.countP fun key => (keyspace key).isSome)
  | keys pattern =>
      ∃ found : List Bytes, found.Nodup ∧
        (∀ key, key ∈ found ↔
          keyspace key ≠ none ∧ globMatch plain pattern key = true) ∧
        reply = .bulks found
  | dbsize =>
      ∃ present : Finset Bytes, (∀ key, key ∈ present ↔ keyspace key ≠ none) ∧
        reply = .integer present.card
  | flushall => reply = .ok

/-- An answer that is no count of all keys depends on the touched ones only. -/
theorem Answers.congr {plain : PlainChar} {wrap : Int → Int} {now : Int}
    {action : Action} {left right : Keyspace} {reply : Reply}
    (answers : action.Answers plain wrap now left reply)
    (notDbsize : action ≠ .dbsize)
    (same : ∀ key, action.Touches plain key → left key = right key) :
    action.Answers plain wrap now right reply := by
  cases action with
  | onKey key op =>
      rw [Answers, same key rfl] at answers
      exact answers
  | del targets =>
      have counted : targets.dedup.countP (fun key => (left key).isSome) =
          targets.dedup.countP fun key => (right key).isSome := by
        apply List.countP_congr
        intro key member
        rw [same key (List.mem_dedup.mp member)]
      rw [Answers, counted] at answers
      exact answers
  | «exists» targets =>
      have counted : targets.countP (fun key => (left key).isSome) =
          targets.countP fun key => (right key).isSome := by
        apply List.countP_congr
        intro key member
        rw [same key member]
      rw [Answers, counted] at answers
      exact answers
  | keys pattern =>
      obtain ⟨found, distinct, listed, isReply⟩ := answers
      refine ⟨found, distinct, ?_, isReply⟩
      intro key
      apply (listed key).trans
      apply and_congr_left
      intro isMatch
      rw [same key isMatch]
  | answer | flushall => exact answers
  | dbsize => exact absurd rfl notDbsize

end Action

/-! ## Reading commands -/

/-- The options after the value of `SET`, or the error reply. -/
def readSetChoice (wrap : Int → Int) :
    List Bytes → SetChoice → Except Reply SetChoice
  | [], choice => .ok choice
  | arg :: rest, choice =>
      let opt := upper arg
      if opt = ascii "NX" ∧ choice.xx = false then
        readSetChoice wrap rest { choice with nx := true }
      else if opt = ascii "XX" ∧ choice.nx = false then
        readSetChoice wrap rest { choice with xx := true }
      else if (opt = ascii "EX" ∨ opt = ascii "PX") ∧ choice.expireMs = none then
        match rest with
        | [] => .error (.error syntaxErrorText)
        | number :: rest =>
            match parseI64 number with
            | none => .error .notAnInteger
            | some n =>
                if n.toInt ≤ 0 then .error (.error invalidExpireText)
                else readSetChoice wrap rest { choice with
                  expireMs := some (if opt = ascii "EX" then
                    wrap (n.toInt * 1000) else n.toInt) }
      else .error (.error syntaxErrorText)

/-- A command that takes a key and one integer. -/
def numberAction (nameLower : String) (cmd : Command) (op : Int → KeyOp) :
    Action :=
  match cmd with
  | [_, key, number] =>
      match parseI64 number with
      | none => .answer .notAnInteger
      | some n => .onKey key (op n.toInt)
  | _ => .answer (.wrongArity nameLower)

/-- A command that takes a key alone. -/
def keyAction (nameLower : String) (cmd : Command) (op : KeyOp) : Action :=
  match cmd with
  | [_, key] => .onKey key op
  | _ => .answer (.wrongArity nameLower)

def pushAction (nameLower : String) (cmd : Command) (left : Bool) : Action :=
  match cmd with
  | _ :: key :: value :: values => .onKey key (.push left (value :: values))
  | _ => .answer (.wrongArity nameLower)

/-- A command that takes at least one key. -/
def keysAction (nameLower : String) (cmd : Command)
    (onKeys : List Bytes → Action) : Action :=
  match cmd with
  | _ :: key :: keys => onKeys (key :: keys)
  | _ => .answer (.wrongArity nameLower)

def configReply (cmd : Command) : Reply :=
  match cmd with
  | _ :: sub :: args =>
      if upper sub = ascii "GET" then
        match args with
        | [name] =>
            match kKnown.lookup (lower name) with
            | none => .bulks []
            | some value => .bulks [lower name, value]
        | _ => .wrongArity "config|get"
      else .error configSubcommandText
  | _ => .error configSubcommandText

def Verb.action (wrap : Int → Int) (verb : Verb) (cmd : Command) : Action :=
  match verb with
  | .ping =>
      match cmd with
      | [_] => .answer (.simple (ascii "PONG"))
      | [_, text] => .answer (.bulk text)
      | _ => .answer (.wrongArity "ping")
  | .echo =>
      match cmd with
      | [_, text] => .answer (.bulk text)
      | _ => .answer (.wrongArity "echo")
  | .set =>
      match cmd with
      | _ :: key :: value :: args =>
          match readSetChoice wrap args ⟨false, false, none⟩ with
          | .error reply => .answer reply
          | .ok choice => .onKey key (.set value choice)
      | _ => .answer (.wrongArity "set")
  | .get => keyAction "get" cmd .get
  | .del => keysAction "del" cmd .del
  | .exists => keysAction "exists" cmd .exists
  | .expire => numberAction "expire" cmd fun n => .expire n 1000
  | .pexpire => numberAction "pexpire" cmd fun n => .expire n 1
  | .ttl => keyAction "ttl" cmd (.ttl true)
  | .pexpireat => numberAction "pexpireat" cmd .pexpireat
  | .pttl => keyAction "pttl" cmd (.ttl false)
  | .persist => keyAction "persist" cmd .persist
  | .incr => keyAction "incr" cmd (.incrBy 1)
  | .decr => keyAction "decr" cmd (.incrBy (-1))
  | .incrby => numberAction "incrby" cmd .incrBy
  | .type => keyAction "type" cmd .type
  | .flushall =>
      match cmd with
      | [_] => .flushall
      | _ => .answer (.wrongArity "flushall")
  | .dbsize =>
      match cmd with
      | [_] => .dbsize
      | _ => .answer (.wrongArity "dbsize")
  | .keys =>
      match cmd with
      | [_, pattern] => .keys pattern
      | _ => .answer (.wrongArity "keys")
  | .config => .answer (configReply cmd)
  | .command => .answer (.bulks [])
  | .lpush => pushAction "lpush" cmd true
  | .rpush => pushAction "rpush" cmd false
  | .lpop => keyAction "lpop" cmd (.pop true)
  | .rpop => keyAction "rpop" cmd (.pop false)
  | .lrange =>
      match cmd with
      | [_, key, first, last] =>
          match parseI64 first, parseI64 last with
          | some start, some stop =>
              .onKey key (.lrange start.toInt stop.toInt)
          | _, _ => .answer .notAnInteger
      | _ => .answer (.wrongArity "lrange")
  | .llen => keyAction "llen" cmd .llen

/-- What a command asks of the store. -/
def Action.ofCommand (wrap : Int → Int) (cmd : Command) : Action :=
  match cmd with
  | [] => .answer (.error emptyCommandText)
  | name :: _ =>
      if upper name = ascii "SHUTDOWN" then .answer .ok
      else
        match table.lookup (upper name) with
        | none => .answer (.error (unknownCommandText name))
        | some verb => verb.action wrap cmd

end HermitDb.Core
