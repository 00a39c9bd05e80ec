import HermitDb.Net.LostCommands

/-!
# The entries of a batch

`epoll_wait` reports a batch of descriptors at once, and by the time an entry is
looked at its connection may have been closed and its number given to another
client.  The loop notes what it closes in a batch.  Together with epoll refusing
to watch a descriptor twice, this is enough: an entry is either ignored or meets
the connection it was reported for.
-/

namespace HermitDb.Net

open Library Protocol Util

/-! ## The loop's books -/

/-- What the loop holds for a descriptor is what epoll watches it for. -/
structure Session.Coherent (session : Session) : Prop where
  interest : session.interest = session.registered
  watched : session.conn.isSome = session.registered.isSome

section Coherent

variable {App : Type} {handler : Handler App} {cfg : Config} {kernel : Kernel}

theorem gone_coherent (history : List Act) :
    (Session.gone history).Coherent :=
  ⟨rfl, rfl⟩

theorem Session.Coherent.arm {session : Session} (coherent : session.Coherent)
    (isOpen : session.conn.isSome = true) (succeeds : Bool) (events : Interest) :
    (session.arm succeeds events).Coherent := by
  unfold Session.arm
  split
  · exact coherent
  · split
    · exact ⟨rfl, isOpen⟩
    · exact coherent

theorem moves_coherent {before after : Session}
    (moves : Moves handler cfg kernel before after)
    (coherent : before.Coherent) : after.Coherent := by
  cases moves with
  | exited => exact gone_coherent _
  | opened => exact ⟨rfl, rfl⟩
  | closed => exact gone_coherent _
  | flushed isOpen _ _ flushed =>
      cases flushed with
      | closed => exact gone_coherent _
      | kept =>
          apply Session.Coherent.arm _ rfl
          refine ⟨coherent.interest, ?_⟩
          rw [← coherent.watched, isOpen]
          rfl

/-- Of every descriptor. -/
def EventLoop.Coherent (loop : EventLoop) : Prop :=
  ∀ fd, (loop.session fd).Coherent

/-- What every move keeps of a session, an event keeps of all of them. -/
theorem step_sessions {Invariant : Session → Prop}
    (preserved : ∀ before after, Moves handler cfg anyKernel before after →
      Invariant before → Invariant after)
    {reactor : Reactor App} (kept : ∀ fd, Invariant (reactor.loop.session fd))
    (event : Event) (fd : Fd) :
    Invariant ((reactor.step handler cfg event).loop.session fd) := by
  have within : event.Within anyKernel reactor.loop := by
    cases event with
    | ready => exact ⟨trivial, trivial, fun _ _ _ _ _ _ => trivial⟩
    | wait | listener | tick => trivial
  have moves : Relation.ReflTransGen (Moves handler cfg anyKernel) _ _ :=
    step_moves reactor within fd
  generalize (reactor.step handler cfg event).loop.session fd = session at moves
  induction moves with
  | refl => exact kept fd
  | tail _ move induction => exact preserved _ _ move induction

end Coherent

/-! ## The acts of a flush -/

theorem EventLoop.modifyFd_trace (loop : EventLoop) (succeeds : Bool) (fd : Fd)
    (events : Interest) :
    (loop.modifyFd succeeds fd events).trace = loop.trace := by
  unfold EventLoop.modifyFd
  split
  · rfl
  · split <;> rfl

/-- A flush sends, and may close. -/
theorem flush_acts (loop : EventLoop) (outcome : FlushOutcome) (fd : Fd)
    (conn : Connection) :
    ∃ acts : List Act, (loop.flush outcome fd conn).2.trace =
        loop.trace ++ acts.map (fun act => (fd, act)) ∧
      ∀ act ∈ acts, act.Silent := by
  have dropped : ∀ accepted : Bytes, ∃ acts : List Act,
      ((loop.note fd [.sent accepted]).closeConnection fd).trace =
        loop.trace ++ acts.map (fun act => (fd, act)) ∧
      ∀ act ∈ acts, act.Silent := by
    intro accepted
    refine ⟨[.sent accepted, .closed], List.append_assoc _ _ _, ?_⟩
    simp [Act.Silent]
  have stored : ∀ (accepted : Bytes) (conn : Connection) (events : Interest),
      ∃ acts : List Act, (((loop.note fd [.sent accepted]).put fd conn).modifyFd
          outcome.modifies fd events).trace =
        loop.trace ++ acts.map (fun act => (fd, act)) ∧
      ∀ act ∈ acts, act.Silent := by
    intro accepted conn events
    refine ⟨[.sent accepted], EventLoop.modifyFd_trace _ _ _ _, ?_⟩
    simp [Act.Silent]
  unfold EventLoop.flush
  dsimp only
  split
  · exact dropped _
  · split
    · split
      · exact dropped _
      · exact stored _ _ _
    · split
      · exact dropped _
      · exact stored _ _ _

/-! ## Since the batch was fetched -/

namespace EventLoop

/-- The loop within a batch that was fetched when it was as `start`.  It has
noted what it has closed since, and a connection of then that it has not closed
is still there. -/
structure Within (start loop : EventLoop) (entries : List (Fd × Act)) :
    Prop where
  trace : loop.trace = start.trace ++ entries
  closed : ∀ fd, fd ∈ loop.closedThisBatch ↔ (fd, .closed) ∈ entries
  kept : ∀ fd, (start.conns.lookup fd).isSome = true →
    (fd, .closed) ∉ entries →
    (loop.conns.lookup fd).isSome = true ∧ (fd, .opened) ∉ entries

/-- The loop has got there by some acts. -/
def LeadsTo (start loop : EventLoop) : Prop :=
  ∃ entries, start.Within loop entries

theorem leadsTo_self {loop : EventLoop} (noted : loop.closedThisBatch = []) :
    loop.LeadsTo loop := by
  refine ⟨[], (List.append_nil _).symm, ?_, ?_⟩
  · intro fd
    rw [noted]
    simp
  · intro fd isOpen _
    exact ⟨isOpen, List.not_mem_nil⟩

variable {start loop next : EventLoop}

/-- The same connections and notes, and no more acts. -/
theorem LeadsTo.congr (leads : start.LeadsTo loop)
    (conns : next.conns = loop.conns)
    (closed : next.closedThisBatch = loop.closedThisBatch)
    (trace : next.trace = loop.trace) : start.LeadsTo next := by
  obtain ⟨entries, within⟩ := leads
  refine ⟨entries, ?_, ?_, ?_⟩
  · rw [trace]
    exact within.trace
  · rw [closed]
    exact within.closed
  · rw [conns]
    exact within.kept

theorem LeadsTo.note (leads : start.LeadsTo loop) {fd : Fd} {acts : List Act}
    (unopened : .opened ∉ acts) (unclosed : .closed ∉ acts) :
    start.LeadsTo (loop.note fd acts) := by
  obtain ⟨entries, within⟩ := leads
  have absent : ∀ act, act ∉ acts → ∀ other,
      (other, act) ∉ acts.map fun act => (fd, act) := by
    intro act isAbsent other member
    obtain ⟨_, isAct, same⟩ := List.mem_map.mp member
    cases same
    exact isAbsent isAct
  refine ⟨entries ++ acts.map fun act => (fd, act), ?_, ?_, ?_⟩
  · rw [EventLoop.note, within.trace, List.append_assoc]
  · intro other
    rw [List.mem_append, or_iff_left (absent .closed unclosed other)]
    exact within.closed other
  · intro other wasOpen notClosed
    rw [List.mem_append, not_or] at notClosed
    obtain ⟨isOpen, notOpened⟩ := within.kept other wasOpen notClosed.1
    refine ⟨isOpen, ?_⟩
    rw [List.mem_append, not_or]
    exact ⟨notOpened, absent .opened unopened other⟩

theorem LeadsTo.put (leads : start.LeadsTo loop) (fd : Fd)
    (conn : Connection) : start.LeadsTo (loop.put fd conn) := by
  obtain ⟨entries, within⟩ := leads
  refine ⟨entries, within.trace, within.closed, ?_⟩
  intro other wasOpen notClosed
  obtain ⟨isOpen, notOpened⟩ := within.kept other wasOpen notClosed
  refine ⟨?_, notOpened⟩
  by_cases same : other = fd
  · subst other
    rw [EventLoop.put, Finmap.lookup_insert]
    rfl
  · rw [EventLoop.put, Finmap.lookup_insert_of_ne _ same]
    exact isOpen

theorem LeadsTo.modifyFd (leads : start.LeadsTo loop) (succeeds : Bool)
    (fd : Fd) (events : Interest) :
    start.LeadsTo (loop.modifyFd succeeds fd events) := by
  unfold EventLoop.modifyFd
  split
  · exact leads
  · split
    · exact leads.congr rfl rfl rfl
    · exact leads

theorem LeadsTo.closeConnection (leads : start.LeadsTo loop) (fd : Fd) :
    start.LeadsTo (loop.closeConnection fd) := by
  obtain ⟨entries, within⟩ := leads
  refine ⟨entries ++ [(fd, .closed)], ?_, ?_, ?_⟩
  · rw [EventLoop.closeConnection, within.trace, List.append_assoc]
  · intro other
    rw [EventLoop.closeConnection, List.mem_append, List.mem_append,
      within.closed, List.mem_singleton, List.mem_singleton]
    simp
  · intro other wasOpen notClosed
    rw [List.mem_append, List.mem_singleton, not_or] at notClosed
    obtain ⟨isOpen, notOpened⟩ := within.kept other wasOpen notClosed.1
    have different : other ≠ fd := by
      rintro rfl
      exact notClosed.2 rfl
    refine ⟨?_, ?_⟩
    · rw [EventLoop.closeConnection, Finmap.lookup_erase_ne different]
      exact isOpen
    · rw [List.mem_append, not_or]
      exact ⟨notOpened, by simp⟩

/-- A client gets a number only if no connection has it. -/
theorem LeadsTo.opened (leads : start.LeadsTo loop) (coherent : loop.Coherent)
    {fd : Fd} {registers : Bool}
    (registered : loop.registerFd registers fd = some next) (conn : Connection) :
    start.LeadsTo ((next.put fd conn).note fd [.opened]) := by
  obtain ⟨unwatched, _, _⟩ := loop.session_registerFd registered
  have unopened : (loop.conns.lookup fd).isSome = false := by
    have watched := (coherent fd).watched
    change (loop.conns.lookup fd).isSome = (loop.registered fd).isSome at watched
    rw [watched, unwatched]
    rfl
  have same : next.conns = loop.conns ∧
      next.closedThisBatch = loop.closedThisBatch ∧ next.trace = loop.trace := by
    unfold EventLoop.registerFd at registered
    split at registered
    · cases registered
      exact ⟨rfl, rfl, rfl⟩
    · cases registered
  obtain ⟨entries, within⟩ := leads
  refine ⟨entries ++ [(fd, .opened)], ?_, ?_, ?_⟩
  · change next.trace ++ [(fd, .opened)] = _
    rw [same.2.2, within.trace, List.append_assoc]
  · intro other
    change other ∈ next.closedThisBatch ↔ _
    rw [same.2.1, within.closed, List.mem_append, or_iff_left (by simp)]
  · intro other wasOpen notClosed
    rw [List.mem_append, not_or] at notClosed
    obtain ⟨isOpen, notOpened⟩ := within.kept other wasOpen notClosed.1
    have different : other ≠ fd := by
      rintro rfl
      rw [unopened] at isOpen
      cases isOpen
    constructor
    · change ((next.conns.insert fd conn).lookup other).isSome = true
      rw [Finmap.lookup_insert_of_ne _ different, same.1]
      exact isOpen
    · rw [List.mem_append, List.mem_singleton, not_or]
      refine ⟨notOpened, ?_⟩
      rintro ⟨⟩
      exact different rfl

theorem Coherent.opened (coherent : loop.Coherent) {fd : Fd} {registers : Bool}
    (registered : loop.registerFd registers fd = some next) (conn : Connection) :
    ((next.put fd conn).note fd [.opened]).Coherent := by
  obtain ⟨_, atFd, elsewhere⟩ := loop.session_registerFd registered
  intro other
  by_cases same : fd = other
  · subst other
    rw [session_opened, session_put_self, atFd]
    exact ⟨rfl, rfl⟩
  · rw [session_note_other _ same, session_put_other _ same,
      elsewhere other same]
    exact coherent other

theorem LeadsTo.acceptNewClients {cfg : Config} (leads : start.LeadsTo loop)
    (coherent : loop.Coherent) (accepts : List AcceptOutcome) :
    start.LeadsTo (loop.acceptNewClients cfg accepts) := by
  induction accepts generalizing loop with
  | nil => exact leads
  | cons outcome accepts induction =>
      cases outcome with
      | failed => exact leads
      | client fd registers =>
          unfold EventLoop.acceptNewClients
          split
          · exact induction (leads.congr rfl rfl rfl) coherent
          · split
            · exact induction leads coherent
            · rename_i registered
              exact induction (leads.opened coherent registered _)
                (coherent.opened registered _)

theorem LeadsTo.flush (leads : start.LeadsTo loop) (outcome : FlushOutcome)
    (fd : Fd) (conn : Connection) :
    start.LeadsTo (loop.flush outcome fd conn).2 := by
  have noted : start.LeadsTo (loop.note fd
      [.sent (sendLoop outcome.sends conn.outbuf).accepted]) :=
    leads.note (by simp) (by simp)
  unfold EventLoop.flush
  dsimp only
  split
  · exact noted.closeConnection fd
  · split
    · split
      · exact noted.closeConnection fd
      · exact (noted.put fd _).modifyFd _ fd _
    · split
      · exact noted.closeConnection fd
      · exact (noted.put fd _).modifyFd _ fd _

end EventLoop

/-! ## Events -/

section Events

variable {App : Type} {handler : Handler App} {cfg : Config}
  {start : EventLoop} {reactor : Reactor App}

theorem handleReadable_leadsTo (leads : start.LeadsTo reactor.loop)
    (recvs : List RecvOutcome) (outcome : FlushOutcome) (fd : Fd)
    (conn : Connection) :
    start.LeadsTo (reactor.handleReadable handler recvs outcome fd conn).2.loop := by
  have pulls := readLoop_pulls handler recvs 0 conn reactor.app
    reactor.loop.stopRequested
  unfold Reactor.handleReadable
  generalize readLoop handler recvs 0 conn reactor.app
    reactor.loop.stopRequested = read at pulls
  have noted : start.LeadsTo
      { reactor.loop.note fd read.acts with stopRequested := read.stop } :=
    (leads.note (pulls.receives _) (pulls.receives _)).congr rfl rfl rfl
  dsimp only
  split
  · exact noted.flush outcome fd read.conn
  · exact noted.closeConnection fd

theorem dispatch_leadsTo (leads : start.LeadsTo reactor.loop) (fd : Fd)
    (bits : Ready) (recvs : List RecvOutcome)
    (afterRead onWritable : FlushOutcome) :
    start.LeadsTo (reactor.dispatch handler fd bits recvs afterRead
      onWritable).loop := by
  unfold Reactor.dispatch
  split
  · exact leads
  · split
    · exact leads
    · rename_i conn _
      split
      · exact leads.closeConnection fd
      · have readable : start.LeadsTo (if bits.input then
            reactor.handleReadable handler recvs afterRead fd conn
          else (true, reactor)).2.loop := by
          split
          · exact handleReadable_leadsTo leads recvs afterRead fd conn
          · exact leads
        generalize (if bits.input then
          reactor.handleReadable handler recvs afterRead fd conn
          else (true, reactor)) = read at readable
        dsimp only
        split
        · split
          · exact readable
          · exact readable.flush onWritable fd _
        · exact readable

/-- Every event of a batch. -/
theorem step_leadsTo (leads : start.LeadsTo reactor.loop)
    (coherent : reactor.loop.Coherent) {event : Event} (inBatch : event ≠ .wait) :
    start.LeadsTo (reactor.step handler cfg event).loop := by
  unfold Reactor.step
  split
  · exact leads
  · cases event with
    | wait => exact absurd rfl inBatch
    | listener accepts => exact leads.acceptNewClients coherent accepts
    | ready fd bits recvs afterRead onWritable =>
        exact dispatch_leadsTo leads fd bits recvs afterRead onWritable
    | tick => exact leads.congr rfl rfl rfl

theorem step_coherent (coherent : reactor.loop.Coherent) (event : Event) :
    (reactor.step handler cfg event).loop.Coherent :=
  step_sessions (fun _ _ => moves_coherent) coherent event

theorem run_coherent (coherent : reactor.loop.Coherent) (events : List Event) :
    (reactor.run handler cfg events).loop.Coherent := by
  induction events generalizing reactor with
  | nil => exact coherent
  | cons event events induction =>
      exact induction (step_coherent coherent event)

/-- The notes of the last batch are gone. -/
theorem closedThisBatch_of_wait
    (running : (reactor.step handler cfg .wait).loop.stopped = false) :
    (reactor.step handler cfg .wait).loop.closedThisBatch = [] := by
  unfold Reactor.step at running ⊢
  by_cases stopped : reactor.loop.stopped = true
  · rw [if_pos stopped, stopped] at running
    cases running
  · rw [if_neg stopped] at running ⊢
    by_cases stop : reactor.loop.stopRequested = true
    · simp only [if_pos stop] at running
      cases running
    · simp only [if_neg stop]

theorem run_leadsTo (leads : start.LeadsTo reactor.loop)
    (coherent : reactor.loop.Coherent) {batch : List Event}
    (inBatch : .wait ∉ batch) :
    start.LeadsTo (reactor.run handler cfg batch).loop := by
  induction batch generalizing reactor with
  | nil => exact leads
  | cons event batch induction =>
      rw [List.mem_cons, not_or] at inBatch
      exact induction (step_leadsTo leads coherent (Ne.symm inBatch.1))
        (step_coherent coherent event) inBatch.2

end Events

/-- Entries meet their connections.  Take any run up to an `epoll_wait`, and any
events of the batch it reports.  An entry for a descriptor that was watched then
is ignored if its connection has been closed in the batch; otherwise the
descriptor has not changed hands, and its connection is there.  This holds
whatever fails, and what the loop holds is what epoll watches. -/
theorem entries_meet_connections {App : Type} (handler : Handler App)
    (cfg : Config) (app : App) (before batch : List Event)
    (inBatch : .wait ∉ batch) :
    let start := Reactor.run handler cfg ⟨EventLoop.fresh, app⟩
      (before ++ [.wait])
    let reached := start.run handler cfg batch
    reached.loop.Coherent ∧
    (start.loop.stopped = false → ∃ entries,
      reached.loop.trace = start.loop.trace ++ entries ∧
      ∀ fd bits recvs afterRead onWritable,
        (start.loop.registered fd).isSome = true →
        ((fd, .closed) ∈ entries →
          reached.step handler cfg
            (.ready fd bits recvs afterRead onWritable) = reached) ∧
        ((fd, .closed) ∉ entries → (fd, .opened) ∉ entries ∧
          fd ∉ reached.loop.closedThisBatch ∧
          (reached.loop.conns.lookup fd).isSome = true)) := by
  intro start reached
  have fresh : EventLoop.fresh.Coherent := fun _ => gone_coherent _
  have coherent : start.loop.Coherent := run_coherent fresh _
  refine ⟨run_coherent coherent batch, ?_⟩
  intro running
  have isStart : start = (Reactor.run handler cfg ⟨EventLoop.fresh, app⟩
      before).step handler cfg .wait := List.foldl_append
  have noted : start.loop.closedThisBatch = [] := by
    rw [isStart] at running ⊢
    exact closedThisBatch_of_wait running
  obtain ⟨entries, within⟩ := run_leadsTo
    (EventLoop.leadsTo_self noted) coherent inBatch
  refine ⟨entries, within.trace, ?_⟩
  intro fd bits recvs afterRead onWritable watched
  constructor
  · intro closed
    have isNoted := (within.closed fd).mpr closed
    change Reactor.step handler cfg reached _ = _
    rw [Reactor.step]
    split
    · rfl
    · exact if_pos isNoted
  · intro notClosed
    have wasOpen : (start.loop.conns.lookup fd).isSome = true :=
      ((coherent fd).watched).trans watched
    obtain ⟨isOpen, notOpened⟩ := within.kept fd wasOpen notClosed
    exact ⟨notOpened, fun isNoted => notClosed ((within.closed fd).mp isNoted),
      isOpen⟩

/-- A handler that answers nothing. -/
def silentHandler : Handler Unit where
  execute := fun app _ => ([], app)
  shutdownRequested := fun _ => false
  tick := fun app => (app, false)

/-- The peer of 5 hangs up, and the next client gets the number.  What the batch
reports for 5 after that is not for this client. -/
theorem entries_meet_connections_reused :
    let hangup := Event.ready 5 ⟨true, false, false⟩ [] ⟨[], true⟩ ⟨[], true⟩
    let accept := Event.listener [.client 5 true]
    let reached := Reactor.run silentHandler Config.initial
      ⟨EventLoop.fresh, ()⟩ [accept, .wait, hangup, accept]
    (reached.loop.conns.lookup 5).isSome = true ∧
      ∀ bits recvs afterRead onWritable,
        reached.step silentHandler Config.initial
          (.ready 5 bits recvs afterRead onWritable) = reached := by
  intro hangup accept reached
  refine ⟨rfl, ?_⟩
  intro bits recvs afterRead onWritable
  have inBatch : Event.wait ∉ [hangup, accept] := by
    simp [hangup, accept]
  obtain ⟨entries, trace, meets⟩ := (entries_meet_connections silentHandler
    Config.initial () [accept] [hangup, accept] inBatch).2 rfl
  have isEntries : entries = [(5, .closed), (5, .opened)] :=
    (@List.append_cancel_left _ [(5, Act.opened)] _ _ trace).symm
  apply (meets 5 bits recvs afterRead onWritable rfl).1
  rw [isEntries]
  exact List.mem_cons_self

end HermitDb.Net
