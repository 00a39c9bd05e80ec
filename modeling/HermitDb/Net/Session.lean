import HermitDb.Net.EventLoop
import HermitDb.Library.Machine
import Mathlib.Logic.Relation

/-!
# What a reactor does to one connection

A session is what the loop holds for one descriptor, with the acts since the
connection was opened.  `Moves` says everything an event can do to it; no event
touches any other session except through moves of its own.
-/

namespace HermitDb.Net

open Library Protocol Util

/-- The acts since the descriptor was last opened. -/
def history (fd : Fd) (trace : List (Fd × Act)) : List Act :=
  trace.foldl (fun acts entry =>
    if entry.1 ≠ fd then acts
    else if entry.2 = .opened then []
    else acts ++ [entry.2]) []

theorem history_append_other {fd other : Fd} (different : other ≠ fd)
    (trace : List (Fd × Act)) (acts : List Act) :
    history fd (trace ++ acts.map fun act => (other, act)) =
      history fd trace := by
  rw [history, List.foldl_append, ← history]
  induction acts with
  | nil => rfl
  | cons act acts induction =>
      rw [List.map_cons, List.foldl_cons, if_pos different]
      exact induction

theorem history_append_self {fd : Fd} {acts : List Act}
    (keeps : .opened ∉ acts) (trace : List (Fd × Act)) :
    history fd (trace ++ acts.map fun act => (fd, act)) =
      history fd trace ++ acts := by
  rw [history, List.foldl_append, ← history]
  generalize history fd trace = before
  induction acts generalizing before with
  | nil => exact (List.append_nil before).symm
  | cons act acts induction =>
      rw [List.mem_cons, not_or] at keeps
      rw [List.map_cons, List.foldl_cons, if_neg (not_not.mpr rfl),
        if_neg (Ne.symm keeps.1), induction keeps.2, List.append_assoc]
      rfl

theorem history_opened (fd : Fd) (trace : List (Fd × Act)) :
    history fd (trace ++ [(fd, .opened)]) = [] := by
  rw [history, List.foldl_append]
  simp

/-- What the loop and the kernel hold for one descriptor. -/
structure Session where
  conn : Option Connection
  interest : Option Interest
  registered : Option Interest
  history : List Act

def Session.gone (history : List Act) : Session :=
  ⟨none, none, none, history⟩

/-- Armed for these events, unless `epoll_ctl` refuses the change. -/
def Session.arm (session : Session) (succeeds : Bool) (events : Interest) :
    Session :=
  if session.interest = some events then session
  else if succeeds then
    { session with interest := some events, registered := some events }
  else session

@[simp] theorem Session.arm_conn (session : Session) (succeeds : Bool)
    (events : Interest) :
    (session.arm succeeds events).conn = session.conn := by
  unfold Session.arm
  split
  · rfl
  · split <;> rfl

@[simp] theorem Session.arm_history (session : Session) (succeeds : Bool)
    (events : Interest) :
    (session.arm succeeds events).history = session.history := by
  unfold Session.arm
  split
  · rfl
  · split <;> rfl

namespace EventLoop

def session (loop : EventLoop) (fd : Fd) : Session :=
  { conn := loop.conns.lookup fd
    interest := loop.interest fd
    registered := loop.registered fd
    history := history fd loop.trace }

variable (loop : EventLoop) {fd other : Fd}

theorem session_note_self {acts : List Act} (keeps : .opened ∉ acts) :
    (loop.note fd acts).session fd =
      { loop.session fd with history := (loop.session fd).history ++ acts } := by
  simp only [session, note, history_append_self keeps]

theorem session_note_other (different : other ≠ fd) (acts : List Act) :
    (loop.note other acts).session fd = loop.session fd := by
  simp only [session, note, history_append_other different]

theorem session_opened :
    (loop.note fd [.opened]).session fd =
      { loop.session fd with history := [] } := by
  simp only [session, note, List.map_cons, List.map_nil, history_opened]

theorem session_put_self (conn : Connection) :
    (loop.put fd conn).session fd = { loop.session fd with conn := some conn } := by
  simp [session, put]

theorem session_put_other (different : other ≠ fd) (conn : Connection) :
    (loop.put other conn).session fd = loop.session fd := by
  simp [session, put, Finmap.lookup_insert_of_ne _ (Ne.symm different)]

theorem session_registerFd {following : EventLoop} {succeeds : Bool}
    (registers : loop.registerFd succeeds other = some following) :
    loop.registered other = none ∧
      following.session other = { loop.session other with
        interest := some .input, registered := some .input } ∧
      ∀ fd, other ≠ fd → following.session fd = loop.session fd := by
  unfold registerFd at registers
  split at registers
  · rename_i free
    cases registers
    refine ⟨?_, ?_, ?_⟩
    · exact Option.isNone_iff_eq_none.mp (Bool.and_eq_true_iff.mp free).2
    · simp [session]
    · intro fd different
      simp [session, Function.update_of_ne (Ne.symm different)]
  · cases registers

theorem session_modifyFd_self (succeeds : Bool) (events : Interest) :
    (loop.modifyFd succeeds fd events).session fd =
      (loop.session fd).arm succeeds events := by
  by_cases armed : loop.interest fd = some events
  · simp [modifyFd, Session.arm, session, armed]
  · cases succeeds <;> simp [modifyFd, Session.arm, session, armed]

theorem session_modifyFd_other (different : other ≠ fd) (succeeds : Bool)
    (events : Interest) :
    (loop.modifyFd succeeds other events).session fd = loop.session fd := by
  unfold modifyFd
  split
  · rfl
  · split
    · simp [session, Function.update_of_ne (Ne.symm different)]
    · rfl

theorem session_closeConnection_self :
    (loop.closeConnection fd).session fd =
      .gone ((loop.session fd).history ++ [.closed]) := by
  have kept : history fd (loop.trace ++ [(fd, .closed)]) =
      history fd loop.trace ++ [.closed] :=
    history_append_self (show .opened ∉ [Act.closed] by decide) loop.trace
  simp [session, closeConnection, Session.gone, kept]

theorem session_closeConnection_other (different : other ≠ fd) :
    (loop.closeConnection other).session fd = loop.session fd := by
  have kept : history fd (loop.trace ++ [(other, .closed)]) =
      history fd loop.trace :=
    history_append_other different loop.trace [.closed]
  simp [session, closeConnection, kept, Function.update_of_ne (Ne.symm different),
    Finmap.lookup_erase_ne (Ne.symm different)]

end EventLoop

/-! ## Flushing -/

/-- What `flush` makes of a session whose connection has become `conn`, when
its `send` calls leave `sent`. -/
inductive Flushed (sent : Sent) (modifies : Bool) (conn : Connection)
    (session : Session) : Bool → Session → Prop where
  | closed : Flushed sent modifies conn session false
      (.gone (session.history ++ [.sent sent.accepted, .closed]))
  | kept (unmarked : sent.left = [] → conn.closeAfterFlush = false)
      (bounded : sent.left.length ≤ kMaxOutbufBytes) :
      Flushed sent modifies conn session true
        (Session.arm
          { session with
            conn := some { conn with outbuf := sent.left }
            history := session.history ++ [.sent sent.accepted] }
          modifies (if sent.left = [] then .input else .inputOutput))

theorem flush_flushed (loop : EventLoop) (outcome : FlushOutcome) (fd : Fd)
    (conn : Connection) :
    Flushed (sendLoop outcome.sends conn.outbuf) outcome.modifies conn
      (loop.session fd) (loop.flush outcome fd conn).1
      ((loop.flush outcome fd conn).2.session fd) := by
  unfold EventLoop.flush
  generalize sendLoop outcome.sends conn.outbuf = sent
  have closes : Flushed sent outcome.modifies conn (loop.session fd) false
      (((loop.note fd [.sent sent.accepted]).closeConnection fd).session fd) := by
    rw [EventLoop.session_closeConnection_self,
      EventLoop.session_note_self loop (by simp), List.append_assoc]
    exact .closed
  have keeps : (sent.left = [] → conn.closeAfterFlush = false) →
      sent.left.length ≤ kMaxOutbufBytes →
      Flushed sent outcome.modifies conn (loop.session fd) true
        ((((loop.note fd [.sent sent.accepted]).put fd
          { conn with outbuf := sent.left }).modifyFd outcome.modifies fd
            (if sent.left = [] then .input else .inputOutput)).session fd) := by
    intro unmarked bounded
    rw [EventLoop.session_modifyFd_self, EventLoop.session_put_self,
      EventLoop.session_note_self loop (by simp)]
    exact .kept unmarked bounded
  dsimp only
  by_cases broken : sent.broken = true
  · rw [if_pos broken]
    exact closes
  · rw [if_neg broken]
    by_cases empty : sent.left = []
    · rw [if_pos empty] at keeps ⊢
      by_cases marked : conn.closeAfterFlush = true
      · rw [if_pos marked]
        exact closes
      · rw [if_neg marked]
        apply keeps fun _ => Bool.eq_false_of_not_eq_true marked
        rw [empty]
        exact Nat.zero_le _
    · rw [if_neg empty] at keeps ⊢
      by_cases large : kMaxOutbufBytes < sent.left.length
      · rw [if_pos large]
        exact closes
      · rw [if_neg large]
        exact keeps (fun isEmpty => absurd isEmpty empty) (Nat.le_of_not_lt large)

theorem flush_other (loop : EventLoop) (outcome : FlushOutcome) {fd other : Fd}
    (different : other ≠ fd) (conn : Connection) :
    (loop.flush outcome other conn).2.session fd = loop.session fd := by
  unfold EventLoop.flush
  dsimp only
  repeat' split
  all_goals
    simp only [EventLoop.session_closeConnection_other _ different,
      EventLoop.session_modifyFd_other _ different,
      EventLoop.session_put_other _ different,
      EventLoop.session_note_other _ different]

/-! ## Reading -/

variable {App : Type}

/-- What the `recv` loop of `handle_readable` does, chunk by chunk. -/
inductive Pulls (handler : Handler App) :
    Connection → App → Bool → Reading App → Prop where
  | rests {conn : Connection} {app : App} {stop : Bool} (alive : Bool) :
      Pulls handler conn app stop ⟨conn, app, stop, [], alive⟩
  | refuses {conn : Connection} {app : App} {stop : Bool} {chunk : Bytes}
      {result : ParseResult} {parser : RespParser}
      (fed : conn.parser.feed chunk = (result, parser))
      (bad : result.status ≠ .ok) :
      Pulls handler conn app stop
        ⟨({ conn with parser := parser }.queueReply
          (protocolErrorReply result.error)).markCloseAfterFlush, app, stop,
          [.fed chunk, .refused (protocolErrorReply result.error)], true⟩
  | takes {conn : Connection} {app : App} {stop : Bool} {chunk : Bytes}
      {result : ParseResult} {parser : RespParser}
      {handled later : Reading App}
      (fed : conn.parser.feed chunk = (result, parser))
      (good : result.status = .ok)
      (isHandled : handled = handleAll handler result.commands
        { conn with parser := parser } app stop)
      (rest : Pulls handler handled.conn handled.app handled.stop later) :
      Pulls handler conn app stop
        { later with acts := .fed chunk :: handled.acts ++ later.acts }

theorem readLoop_pulls (handler : Handler App) (recvs : List RecvOutcome)
    (readThisEvent : Nat) (conn : Connection) (app : App) (stop : Bool) :
    Pulls handler conn app stop
      (readLoop handler recvs readThisEvent conn app stop) := by
  fun_induction readLoop handler recvs readThisEvent conn app stop with
  | case1 | case2 => exact .rests true
  | case4 | case5 => exact .rests false
  | case3 _ _ _ _ _ induction => exact induction
  | case6 =>
      rename_i fed _ bad _
      exact .refuses fed bad
  | case7 =>
      rename_i conn app stop chunk result parser fed _ good handled _ _
      have taken : Pulls handler conn app stop
          ⟨handled.conn, handled.app, handled.stop,
            .fed chunk :: handled.acts ++ [], handled.alive⟩ :=
        .takes fed (not_not.mp good) rfl (.rests handled.alive)
      rw [List.append_nil] at taken
      exact taken
  | case8 =>
      rename_i fed _ good handled _ _ _ induction
      exact .takes fed (not_not.mp good) rfl induction

/-- What a `recv` loop does: it neither opens nor closes, and sends nothing. -/
def Act.Receives : Act → Prop
  | .opened | .sent _ | .closed => False
  | .fed _ | .handled _ | .queued _ | .refused _ => True

theorem handleAll_receives (handler : Handler App) (cmds : List Command)
    (conn : Connection) (app : App) (stop : Bool) :
    ∀ act ∈ (handleAll handler cmds conn app stop).acts, act.Receives := by
  induction cmds generalizing conn app stop with
  | nil => exact List.forall_mem_nil _
  | cons cmd cmds induction =>
      simp only [handleAll, List.forall_mem_cons]
      exact ⟨trivial, trivial, induction _ _ _⟩

theorem Pulls.receives {handler : Handler App} {conn : Connection} {app : App}
    {stop : Bool} {reading : Reading App}
    (pulls : Pulls handler conn app stop reading) :
    ∀ act ∈ reading.acts, act.Receives := by
  induction pulls with
  | rests => exact List.forall_mem_nil _
  | refuses => simp [Act.Receives]
  | takes fed good isHandled rest induction =>
      subst isHandled
      simp only [List.forall_mem_cons, List.forall_mem_append]
      exact ⟨⟨trivial, handleAll_receives _ _ _ _ _⟩, induction⟩

/-! ## Moves -/

/-- Which outcomes of the kernel are considered: what a `recv` loop may find on
a connection, and what a `flush` may meet. -/
structure Kernel where
  reads : Connection → List RecvOutcome → Prop
  flushes : FlushOutcome → Prop

/-- The connection as its `recv` loop leaves it, or untouched. -/
inductive Reads (handler : Handler App) (kernel : Kernel) (conn : Connection) :
    List Act → Connection → Prop where
  | idle : Reads handler kernel conn [] conn
  | read {recvs : List RecvOutcome} {app : App} {stop : Bool}
      (admits : kernel.reads conn recvs) :
      Reads handler kernel conn (readLoop handler recvs 0 conn app stop).acts
        (readLoop handler recvs 0 conn app stop).conn

/-- Everything that can happen to a session. -/
inductive Moves (handler : Handler App) (cfg : Config) (kernel : Kernel)
    (session : Session) : Session → Prop where
  | exited : Moves handler cfg kernel session (.gone session.history)
  | opened (unwatched : session.registered = none) :
      Moves handler cfg kernel session
        ⟨some (.fresh cfg.maxFrameBytes), some .input, some .input, []⟩
  | closed {conn following : Connection} {acts : List Act}
      (isOpen : session.conn = some conn)
      (reads : Reads handler kernel conn acts following) :
      Moves handler cfg kernel session
        (.gone (session.history ++ acts ++ [.closed]))
  | flushed {conn following : Connection} {acts : List Act}
      {outcome : FlushOutcome} {alive : Bool} {next : Session}
      (isOpen : session.conn = some conn)
      (reads : Reads handler kernel conn acts following)
      (admits : kernel.flushes outcome)
      (flushed : Flushed (sendLoop outcome.sends following.outbuf)
        outcome.modifies following
        { session with history := session.history ++ acts } alive next) :
      Moves handler cfg kernel session next

/-- The outcomes the event carries are among those considered. -/
def Event.Within (kernel : Kernel) (loop : EventLoop) : Event → Prop
  | .ready fd bits recvs afterRead onWritable =>
      kernel.flushes afterRead ∧ kernel.flushes onWritable ∧
        ∀ conn, loop.stopped = false → fd ∉ loop.closedThisBatch →
          loop.conns.lookup fd = some conn → bits.hangup = false →
          bits.input = true → kernel.reads conn recvs
  | _ => True

section Steps

variable {handler : Handler App} {cfg : Config} {kernel : Kernel}

theorem open_moves {loop following : EventLoop} {succeeds : Bool} {other : Fd}
    (registers : loop.registerFd succeeds other = some following) (fd : Fd) :
    Relation.ReflTransGen (Moves handler cfg kernel) (loop.session fd)
      (((following.put other (.fresh cfg.maxFrameBytes)).note other
        [.opened]).session fd) := by
  obtain ⟨unwatched, atOther, elsewhere⟩ := loop.session_registerFd registers
  by_cases same : other = fd
  · subst other
    rw [EventLoop.session_opened, EventLoop.session_put_self, atOther]
    exact .single (.opened unwatched)
  · rw [EventLoop.session_note_other _ same,
      EventLoop.session_put_other _ same, elsewhere fd same]

theorem accept_moves (accepts : List AcceptOutcome) (loop : EventLoop)
    (fd : Fd) :
    Relation.ReflTransGen (Moves handler cfg kernel) (loop.session fd)
      ((loop.acceptNewClients cfg accepts).session fd) := by
  induction accepts generalizing loop with
  | nil => exact .refl
  | cons outcome accepts induction =>
      cases outcome with
      | failed => exact .refl
      | client other succeeds =>
          unfold EventLoop.acceptNewClients
          split
          · exact induction { loop with
              turnedAway := loop.turnedAway ++ [(other, kFull)] }
          · split
            · exact induction loop
            · rename_i following registers
              exact (open_moves registers fd).trans (induction _)

theorem flush_moves {loop : EventLoop} {fd : Fd} {conn : Connection}
    (isOpen : loop.conns.lookup fd = some conn) {outcome : FlushOutcome}
    (admits : kernel.flushes outcome) :
    Moves handler cfg kernel (loop.session fd)
      ((loop.flush outcome fd conn).2.session fd) := by
  have flushed := flush_flushed loop outcome fd conn
  apply Moves.flushed isOpen .idle admits
  rw [List.append_nil]
  exact flushed

theorem handleReadable_moves {reactor : Reactor App} {fd : Fd}
    {conn : Connection} (isOpen : reactor.loop.conns.lookup fd = some conn)
    {recvs : List RecvOutcome} (reads : kernel.reads conn recvs)
    {outcome : FlushOutcome} (admits : kernel.flushes outcome) :
    Moves handler cfg kernel (reactor.loop.session fd)
      ((reactor.handleReadable handler recvs outcome fd conn).2.loop.session
        fd) := by
  have keeps := (readLoop_pulls handler recvs 0 conn reactor.app
    reactor.loop.stopRequested).receives .opened
  have taken : Reads handler kernel conn
      (readLoop handler recvs 0 conn reactor.app
        reactor.loop.stopRequested).acts
      (readLoop handler recvs 0 conn reactor.app
        reactor.loop.stopRequested).conn := .read reads
  unfold Reactor.handleReadable
  generalize readLoop handler recvs 0 conn reactor.app
    reactor.loop.stopRequested = read at keeps taken
  have noted : EventLoop.session
      { reactor.loop.note fd read.acts with stopRequested := read.stop } fd =
        { reactor.loop.session fd with
          history := (reactor.loop.session fd).history ++ read.acts } :=
    reactor.loop.session_note_self keeps
  dsimp only
  split
  · have flushed := flush_flushed { reactor.loop.note fd read.acts with
      stopRequested := read.stop } outcome fd read.conn
    rw [noted] at flushed
    exact .flushed isOpen taken admits flushed
  · rw [EventLoop.session_closeConnection_self, noted]
    exact .closed isOpen taken

theorem handleReadable_other (reactor : Reactor App) {fd other : Fd}
    (different : other ≠ fd) (recvs : List RecvOutcome)
    (outcome : FlushOutcome) (conn : Connection) :
    (reactor.handleReadable handler recvs outcome other conn).2.loop.session fd =
      reactor.loop.session fd := by
  unfold Reactor.handleReadable
  dsimp only
  split
  · rw [flush_other _ _ different]
    exact reactor.loop.session_note_other different _
  · rw [EventLoop.session_closeConnection_other _ different]
    exact reactor.loop.session_note_other different _

/-- The second half of an entry, if the connection is still there. -/
theorem writable_moves (reactor : Reactor App) (other fd : Fd)
    {outcome : FlushOutcome} (admits : kernel.flushes outcome) (goOn : Bool) :
    Relation.ReflTransGen (Moves handler cfg kernel) (reactor.loop.session fd)
      ((if goOn then
        match reactor.loop.conns.lookup other with
        | none => reactor
        | some conn =>
            { reactor with loop := (reactor.loop.flush outcome other conn).2 }
      else reactor).loop.session fd) := by
  split
  · split
    · exact .refl
    · rename_i conn isOpen
      by_cases same : other = fd
      · subst other
        exact .single (flush_moves isOpen admits)
      · rw [flush_other _ _ same]
  · exact .refl

theorem dispatch_moves (reactor : Reactor App) {other : Fd} {bits : Ready}
    {recvs : List RecvOutcome} {afterRead onWritable : FlushOutcome}
    (within : (Event.ready other bits recvs afterRead onWritable).Within kernel
      reactor.loop) (running : reactor.loop.stopped = false) (fd : Fd) :
    Relation.ReflTransGen (Moves handler cfg kernel) (reactor.loop.session fd)
      ((reactor.dispatch handler other bits recvs afterRead
        onWritable).loop.session fd) := by
  obtain ⟨admitsRead, admitsWrite, reads⟩ := within
  unfold Reactor.dispatch
  split
  · exact .refl
  · rename_i current
    split
    · exact .refl
    · rename_i conn isOpen
      split
      · by_cases same : other = fd
        · subst other
          rw [EventLoop.session_closeConnection_self]
          have closed : Moves handler cfg kernel (reactor.loop.session fd) _ :=
            .closed isOpen .idle
          rw [List.append_nil] at closed
          exact .single closed
        · rw [EventLoop.session_closeConnection_other _ same]
      · rename_i noHangup
        have readable : Relation.ReflTransGen (Moves handler cfg kernel)
            (reactor.loop.session fd)
            ((if bits.input then
              reactor.handleReadable handler recvs afterRead other conn
            else (true, reactor)).2.loop.session fd) := by
          split
          · rename_i input
            by_cases same : other = fd
            · subst other
              exact .single (handleReadable_moves isOpen
                (reads conn running current isOpen
                  (Bool.eq_false_of_not_eq_true noHangup) input) admitsRead)
            · rw [handleReadable_other reactor same]
          · exact .refl
        exact readable.trans (writable_moves _ other fd admitsWrite _)

/-- An event changes every session by moves. -/
theorem step_moves (reactor : Reactor App) {event : Event}
    (within : event.Within kernel reactor.loop) (fd : Fd) :
    Relation.ReflTransGen (Moves handler cfg kernel) (reactor.loop.session fd)
      ((reactor.step handler cfg event).loop.session fd) := by
  unfold Reactor.step
  split
  · exact .refl
  · rename_i running
    cases event with
    | wait =>
        dsimp only
        split
        · exact .single .exited
        · exact .refl
    | listener accepts => exact accept_moves accepts reactor.loop fd
    | ready other bits recvs afterRead onWritable =>
        exact dispatch_moves reactor within
          (Bool.eq_false_of_not_eq_true running) fd
    | tick => exact .refl

/-- What holds of a session that was never opened and is kept by every move
holds of every session throughout every run. -/
theorem run_sessions (Invariant : Session → Prop)
    (initial : Invariant (.gone []))
    (preserved : ∀ before after, Moves handler cfg kernel before after →
      Invariant before → Invariant after)
    (app : App) (events : List Event)
    (within : EachFold (Reactor.step handler cfg)
      (fun reactor event => event.Within kernel reactor.loop)
      ⟨EventLoop.fresh, app⟩ events) (fd : Fd) :
    Invariant ((Reactor.run handler cfg ⟨EventLoop.fresh, app⟩ events).loop.session
      fd) := by
  have stepKept : ∀ (reactor : Reactor App) (event : Event),
      (∀ fd, Invariant (reactor.loop.session fd)) →
      event.Within kernel reactor.loop →
      ∀ fd, Invariant ((reactor.step handler cfg event).loop.session fd) := by
    intro reactor event kept isWithin fd
    have moves : Relation.ReflTransGen (Moves handler cfg kernel) _ _ :=
      step_moves reactor isWithin fd
    generalize (reactor.step handler cfg event).loop.session fd = after at moves
    induction moves with
    | refl => exact kept fd
    | tail _ move induction => exact preserved _ _ move induction
  have start : ∀ fd, Invariant (EventLoop.fresh.session fd) :=
    fun _ => initial
  exact within.invariant stepKept start fd

end Steps

end HermitDb.Net
