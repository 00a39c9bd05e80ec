import HermitDb.Protocol.RespParser
import HermitDb.Protocol.RespWriter
import HermitDb.Util.Config
import Mathlib.Data.Finmap

/-!
# The reactor

One reactor owns a set of connections and handles one readiness event at a
time.  Everything the kernel decides is part of the event: which descriptors
are accepted, what each `recv` and `send` returns, whether `epoll_ctl`
succeeds.  The handler is a parameter, so that nothing here depends on what
other reactors do to the keyspace in the meantime.

Each reactor keeps a trace of what it did to each connection.  No function
reads it.
-/

namespace HermitDb.Net

open Protocol Util

abbrev Fd := Nat

structure Connection where
  parser : RespParser
  outbuf : Bytes
  closeAfterFlush : Bool

namespace Connection

def fresh (maxFrameBytes : Nat) : Connection :=
  ⟨RespParser.fresh maxFrameBytes, [], false⟩

def queueReply (conn : Connection) (bytes : Bytes) : Connection :=
  { conn with outbuf := conn.outbuf ++ bytes }

def markCloseAfterFlush (conn : Connection) : Connection :=
  { conn with closeAfterFlush := true }

end Connection

def kReadChunk : Nat :=
  64 * 1024

/-- After this much from one connection the loop turns to the others. -/
def kMaxReadPerEvent : Nat :=
  2 ^ 20

/-- A client that stops reading is dropped when this much waits for it. -/
def kMaxOutbufBytes : Nat :=
  256 * 2 ^ 20

/-- The reply to a client over the cap. -/
def kFull : Bytes :=
  Resp.error (ascii "ERR max number of clients reached")

/-! ## What the kernel answers -/

/-- The result of one `recv`.  No bytes is an orderly close by the peer. -/
inductive RecvOutcome where
  | data (chunk : Bytes)
  | interrupted
  | wouldBlock
  | failed

/-- The result of one `send`. -/
inductive SendOutcome where
  | accepted (count : Nat)
  | interrupted
  | wouldBlock
  | failed

inductive AcceptOutcome where
  /-- A client under this descriptor; `registers` is whether `epoll_ctl` takes
  it. -/
  | client (fd : Fd) (registers : Bool)
  | failed

/-- The events a descriptor is watched for. -/
inductive Interest where
  | input
  | inputOutput
  deriving DecidableEq

/-- What one `flush` meets: its `send` calls, and whether `epoll_ctl` takes a
change. -/
structure FlushOutcome where
  sends : List SendOutcome
  modifies : Bool

/-! ## One connection -/

inductive Act where
  | opened
  | fed (chunk : Bytes)
  | handled (cmd : Command)
  | queued (reply : Bytes)
  /-- The reply to a protocol error is queued. -/
  | refused (reply : Bytes)
  | sent (bytes : Bytes)
  | closed
  deriving DecidableEq

structure Handler (App : Type) where
  execute : App → Command → Bytes × App
  shutdownRequested : App → Bool
  /-- The periodic callbacks, and whether they stop the loop. -/
  tick : App → App × Bool

/-- What the `send` loop of `flush` leaves. -/
structure Sent where
  accepted : Bytes
  left : Bytes
  broken : Bool

/-- Send until the buffer is empty or the kernel takes no more.  A list that
ends stands for a full kernel buffer. -/
def sendLoop : List SendOutcome → Bytes → Sent
  | _, [] => ⟨[], [], false⟩
  | [], left => ⟨[], left, false⟩
  | .accepted 0 :: _, left => ⟨[], left, true⟩
  | .accepted (count + 1) :: rest, left =>
      let later := sendLoop rest (left.drop (count + 1))
      { later with accepted := left.take (count + 1) ++ later.accepted }
  | .interrupted :: rest, left => sendLoop rest left
  | .wouldBlock :: _, left => ⟨[], left, false⟩
  | .failed :: _, left => ⟨[], left, true⟩

/-- What the `recv` loop of `handle_readable` leaves. -/
structure Reading (App : Type) where
  conn : Connection
  app : App
  stop : Bool
  acts : List Act
  alive : Bool

variable {App : Type}

/-- Execute the commands of one chunk and queue their replies. -/
def handleAll (handler : Handler App) :
    List Command → Connection → App → Bool → Reading App
  | [], conn, app, stop => ⟨conn, app, stop, [], true⟩
  | cmd :: cmds, conn, app, stop =>
      let (reply, app) := handler.execute app cmd
      let later := handleAll handler cmds (conn.queueReply reply) app
        (stop || handler.shutdownRequested app)
      { later with acts := .handled cmd :: .queued reply :: later.acts }

def protocolErrorReply (error : Bytes) : Bytes :=
  Resp.error (if error = [] then ascii "ERR Protocol error" else error)

/-- Read until the socket is drained, the connection has had its share, or
there is nothing more to be done with it. -/
def readLoop (handler : Handler App) :
    List RecvOutcome → Nat → Connection → App → Bool → Reading App
  | [], _, conn, app, stop => ⟨conn, app, stop, [], true⟩
  | .wouldBlock :: _, _, conn, app, stop => ⟨conn, app, stop, [], true⟩
  | .interrupted :: rest, readThisEvent, conn, app, stop =>
      readLoop handler rest readThisEvent conn app stop
  | .failed :: _, _, conn, app, stop => ⟨conn, app, stop, [], false⟩
  | .data [] :: _, _, conn, app, stop => ⟨conn, app, stop, [], false⟩
  | .data (letter :: letters) :: rest, readThisEvent, conn, app, stop =>
      let chunk := letter :: letters
      let (result, parser) := conn.parser.feed chunk
      let conn := { conn with parser := parser }
      if result.status ≠ .ok then
        let reply := protocolErrorReply result.error
        ⟨(conn.queueReply reply).markCloseAfterFlush, app, stop,
          [.fed chunk, .refused reply], true⟩
      else
        let handled := handleAll handler result.commands conn app stop
        let acts := .fed chunk :: handled.acts
        if handled.stop ∨ chunk.length < kReadChunk ∨
            kMaxReadPerEvent ≤ readThisEvent + chunk.length then
          { handled with acts := acts }
        else
          let later := readLoop handler rest (readThisEvent + chunk.length)
            handled.conn handled.app handled.stop
          { later with acts := acts ++ later.acts }

/-! ## The loop -/

/-- The fields of the reactor.  `registered` is what epoll watches and
`interest` the loop's own note of it. -/
structure EventLoop where
  conns : Finmap fun _ : Fd => Connection
  interest : Fd → Option Interest
  registered : Fd → Option Interest
  closedThisBatch : List Fd
  stopRequested : Bool
  stopped : Bool
  turnedAway : List (Fd × Bytes)
  trace : List (Fd × Act)

namespace EventLoop

def fresh : EventLoop :=
  { conns := ∅
    interest := fun _ => none
    registered := fun _ => none
    closedThisBatch := []
    stopRequested := false
    stopped := false
    turnedAway := []
    trace := [] }

def note (loop : EventLoop) (fd : Fd) (acts : List Act) : EventLoop :=
  { loop with trace := loop.trace ++ acts.map fun act => (fd, act) }

def put (loop : EventLoop) (fd : Fd) (conn : Connection) : EventLoop :=
  { loop with conns := loop.conns.insert fd conn }

/-- `EPOLL_CTL_ADD`, which refuses a descriptor it already watches. -/
def registerFd (loop : EventLoop) (succeeds : Bool) (fd : Fd) :
    Option EventLoop :=
  if succeeds && (loop.registered fd).isNone then
    some { loop with
      interest := Function.update loop.interest fd (some .input)
      registered := Function.update loop.registered fd (some .input) }
  else none

/-- `EPOLL_CTL_MOD`, skipped if the descriptor is already armed that way. -/
def modifyFd (loop : EventLoop) (succeeds : Bool) (fd : Fd)
    (events : Interest) : EventLoop :=
  if loop.interest fd = some events then loop
  else if succeeds then
    { loop with
      interest := Function.update loop.interest fd (some events)
      registered := Function.update loop.registered fd (some events) }
  else loop

def closeConnection (loop : EventLoop) (fd : Fd) : EventLoop :=
  { loop with
    conns := loop.conns.erase fd
    interest := Function.update loop.interest fd none
    registered := Function.update loop.registered fd none
    closedThisBatch := loop.closedThisBatch ++ [fd]
    trace := loop.trace ++ [(fd, .closed)] }

/-- Drain the accept queue.  A client over the cap is told so and closed. -/
def acceptNewClients (cfg : Config) :
    List AcceptOutcome → EventLoop → EventLoop
  | [], loop => loop
  | .failed :: _, loop => loop
  | .client fd registers :: rest, loop =>
      if cfg.maxClients ≤ loop.conns.keys.card then
        acceptNewClients cfg rest
          { loop with turnedAway := loop.turnedAway ++ [(fd, kFull)] }
      else
        match loop.registerFd registers fd with
        | none => acceptNewClients cfg rest loop
        | some loop =>
            acceptNewClients cfg rest
              ((loop.put fd (.fresh cfg.maxFrameBytes)).note fd [.opened])

/-- Push out what the kernel will take.  `false` means that the connection is
gone. -/
def flush (loop : EventLoop) (outcome : FlushOutcome) (fd : Fd)
    (conn : Connection) : Bool × EventLoop :=
  let sent := sendLoop outcome.sends conn.outbuf
  let loop := loop.note fd [.sent sent.accepted]
  let conn := { conn with outbuf := sent.left }
  if sent.broken then (false, loop.closeConnection fd)
  else if conn.outbuf = [] then
    if conn.closeAfterFlush then (false, loop.closeConnection fd)
    else (true, (loop.put fd conn).modifyFd outcome.modifies fd .input)
  else if kMaxOutbufBytes < conn.outbuf.length then
    (false, loop.closeConnection fd)
  else (true, (loop.put fd conn).modifyFd outcome.modifies fd .inputOutput)

end EventLoop

/-- A reactor and the state its handler works on. -/
structure Reactor (App : Type) where
  loop : EventLoop
  app : App

/-- The event bits of one epoll entry; `hangup` is `EPOLLHUP` or `EPOLLERR`. -/
structure Ready where
  hangup : Bool
  input : Bool
  output : Bool

inductive Event where
  /-- The loop condition and the next `epoll_wait`. -/
  | wait
  | listener (accepts : List AcceptOutcome)
  | ready (fd : Fd) (bits : Ready) (recvs : List RecvOutcome)
      (afterRead onWritable : FlushOutcome)
  | tick

namespace Reactor

def handleReadable (handler : Handler App) (reactor : Reactor App)
    (recvs : List RecvOutcome) (outcome : FlushOutcome) (fd : Fd)
    (conn : Connection) : Bool × Reactor App :=
  let read := readLoop handler recvs 0 conn reactor.app
    reactor.loop.stopRequested
  let loop := { reactor.loop.note fd read.acts with stopRequested := read.stop }
  if read.alive then
    let (alive, loop) := loop.flush outcome fd read.conn
    (alive, ⟨loop, read.app⟩)
  else (false, ⟨loop.closeConnection fd, read.app⟩)

/-- One entry of a batch. -/
def dispatch (handler : Handler App) (reactor : Reactor App) (fd : Fd)
    (bits : Ready) (recvs : List RecvOutcome)
    (afterRead onWritable : FlushOutcome) : Reactor App :=
  -- The number may already belong to a connection accepted moments ago.
  if fd ∈ reactor.loop.closedThisBatch then reactor
  else
    match reactor.loop.conns.lookup fd with
    | none => reactor
    | some conn =>
        if bits.hangup then
          { reactor with loop := reactor.loop.closeConnection fd }
        else
          let (alive, reactor) :=
            if bits.input then reactor.handleReadable handler recvs afterRead fd conn
            else (true, reactor)
          if alive && bits.output then
            match reactor.loop.conns.lookup fd with
            | none => reactor
            | some conn =>
                { reactor with loop := (reactor.loop.flush onWritable fd conn).2 }
          else reactor

def step (handler : Handler App) (cfg : Config) (reactor : Reactor App)
    (event : Event) : Reactor App :=
  if reactor.loop.stopped then reactor
  else
    match event with
    | .wait =>
        if reactor.loop.stopRequested then
          -- Leaving the loop destroys every connection.
          { reactor with loop := { reactor.loop with
            conns := ∅
            interest := fun _ => none
            registered := fun _ => none
            stopped := true } }
        else { reactor with loop := { reactor.loop with closedThisBatch := [] } }
    | .listener accepts =>
        { reactor with loop := reactor.loop.acceptNewClients cfg accepts }
    | .ready fd bits recvs afterRead onWritable =>
        reactor.dispatch handler fd bits recvs afterRead onWritable
    | .tick =>
        let (app, stop) := handler.tick reactor.app
        ⟨{ reactor.loop with stopRequested := reactor.loop.stopRequested || stop },
          app⟩

def run (handler : Handler App) (cfg : Config) (reactor : Reactor App)
    (events : List Event) : Reactor App :=
  events.foldl (step handler cfg) reactor

end Reactor

end HermitDb.Net
