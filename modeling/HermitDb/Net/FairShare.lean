import HermitDb.Net.Batches
import HermitDb.Net.ClientCap
import HermitDb.Protocol.CommandRate
import Mathlib.Algebra.Order.BigOperators.Group.Finset

/-!
# What one client can take

A loud client must not keep the loop from the others, and one that does not read
must not make the server buffer without end.  Both limits hold: an event takes
up to `kMaxReadPerEvent` bytes and a command for each of them at most, and what
waits for a client after an event is up to `kMaxOutbufBytes`.
-/

namespace HermitDb.Net

open Library Protocol RespParser Util

variable {App : Type} {handler : Handler App}

/-! ## Reading -/

/-- How much the acts have received. -/
def fedBytes (acts : List Act) : Nat :=
  (fedChunks acts).flatten.length

theorem fedBytes_append (first second : List Act) :
    fedBytes (first ++ second) = fedBytes first + fedBytes second := by
  rw [fedBytes, fedChunks_append, List.flatten_append, List.length_append]
  rfl

theorem fedBytes_fed (chunk : Bytes) (acts : List Act) :
    fedBytes (.fed chunk :: acts) = chunk.length + fedBytes acts := by
  have chunks : fedChunks (.fed chunk :: acts) = chunk :: fedChunks acts := rfl
  rw [fedBytes, chunks, List.flatten_cons, List.length_append]
  rfl

theorem fedBytes_handleAll (cmds : List Command) (conn : Connection) (app : App)
    (stop : Bool) :
    fedBytes (handleAll handler cmds conn app stop).acts = 0 := by
  rw [fedBytes, (handleAll_acts handler cmds conn app stop).2.1]
  rfl

/-- No `recv` returns more than it has room for. -/
def Fits (recvs : List RecvOutcome) : Prop :=
  ∀ chunk, .data chunk ∈ recvs → chunk.length ≤ kReadChunk

/-- The loop goes on after full chunks only, so that what it has read is a
multiple of a chunk and never exceeds the share. -/
theorem readLoop_share {recvs : List RecvOutcome} (fits : Fits recvs)
    {readThisEvent : Nat} (full : kReadChunk ∣ readThisEvent)
    (below : readThisEvent < kMaxReadPerEvent) (conn : Connection) (app : App)
    (stop : Bool) :
    readThisEvent +
      fedBytes (readLoop handler recvs readThisEvent conn app stop).acts ≤
        kMaxReadPerEvent := by
  have room : ∀ {readThisEvent : Nat} {chunk : Bytes},
      kReadChunk ∣ readThisEvent → readThisEvent < kMaxReadPerEvent →
      chunk.length ≤ kReadChunk →
      readThisEvent + chunk.length ≤ kMaxReadPerEvent := by
    intro readThisEvent chunk full below short
    unfold kReadChunk kMaxReadPerEvent at *
    omega
  fun_induction readLoop handler recvs readThisEvent conn app stop with
  | case1 | case2 | case4 | case5 => exact Nat.le_of_lt below
  | case3 rest readThisEvent conn app stop induction =>
      exact induction (fun chunk member => fits chunk (.tail _ member)) full below
  | case6 =>
      rename_i letter letters rest chunk _ _ _ _ _ _
      rw [fedBytes_fed]
      exact room full below (fits chunk (.head _))
  | case7 =>
      rename_i letter letters rest chunk result parser _ _ _ handled _ _
      rw [fedBytes_fed, fedBytes_handleAll]
      exact room full below (fits chunk (.head _))
  | case8 =>
      rename_i letter letters rest chunk result parser _ _ _ handled _ goesOn _
        induction
      have short := fits chunk (.head _)
      rw [List.cons_append, fedBytes_fed, fedBytes_append, fedBytes_handleAll,
        Nat.zero_add, ← Nat.add_assoc]
      simp only [not_or, Nat.not_lt, Nat.not_le] at goesOn
      apply induction (fun other member => fits other (.tail _ member)) _
        goesOn.2.2
      rw [Nat.le_antisymm short goesOn.2.1]
      exact Nat.dvd_add full (Nat.dvd_refl _)

/-- A connection that waits for input executes no more commands than it gets
bytes. -/
theorem Pulls.rate {conn : Connection} {app : App} {stop : Bool}
    {reading : Reading App} (pulls : Pulls handler conn app stop reading)
    (waits : machine.round conn.parser = .wait) :
    (handledCommands reading.acts).length ≤ fedBytes reading.acts := by
  induction pulls with
  | rests => exact Nat.le_refl _
  | refuses => exact Nat.zero_le _
  | @takes conn app stop chunk result parser handled later fed good isHandled
      rest induction =>
      subst isHandled
      obtain ⟨commands, chunks, sameParser⟩ := handleAll_acts handler
        result.commands { conn with parser := parser } app stop
      have succeeds : (conn.parser.feed chunk).1.status = .ok := by
        rw [fed]
        exact good
      have few : result.commands.length ≤ chunk.length := by
        have fewer := length_feed_commands waits chunk
        rwa [fed] at fewer
      have waitsAgain : machine.round parser = .wait := by
        have stopped := round_of_feed succeeds
        rwa [fed] at stopped
      rw [sameParser] at induction
      have others := induction waitsAgain
      have first : handledCommands (.fed chunk :: (handleAll handler
          result.commands { conn with parser := parser } app stop).acts) =
            result.commands := commands
      rw [handledCommands_append, List.length_append, first, List.cons_append,
        fedBytes_fed, fedBytes_append, fedBytes_handleAll]
      omega

/-! ## One event -/

theorem closed_silent : ∀ act ∈ [Act.closed], act.Silent :=
  List.forall_mem_singleton.mpr trivial

/-- What an entry of a batch reads, and then silent acts. -/
def Entry (handler : Handler App) (reactor : Reactor App) (fd : Fd)
    (recvs : List RecvOutcome) (next : Reactor App) : Prop :=
  ∃ read rest : List Act,
    next.loop.trace =
      reactor.loop.trace ++ (read ++ rest).map (fun act => (fd, act)) ∧
    (∀ act ∈ rest, act.Silent) ∧
    (read = [] ∨ ∃ conn, reactor.loop.conns.lookup fd = some conn ∧
      read = (readLoop handler recvs 0 conn reactor.app
        reactor.loop.stopRequested).acts)

section Entry

variable {reactor next : Reactor App} {fd : Fd} {recvs : List RecvOutcome}

theorem entry_self : Entry handler reactor fd recvs reactor :=
  ⟨[], [], (List.append_nil _).symm, List.forall_mem_nil _, .inl rfl⟩

theorem Entry.silent (entry : Entry handler reactor fd recvs next)
    {following : Reactor App} {acts : List Act}
    (grown : following.loop.trace =
      next.loop.trace ++ acts.map fun act => (fd, act))
    (silent : ∀ act ∈ acts, act.Silent) :
    Entry handler reactor fd recvs following := by
  obtain ⟨read, rest, trace, restSilent, isRead⟩ := entry
  refine ⟨read, rest ++ acts, ?_,
    List.forall_mem_append.mpr ⟨restSilent, silent⟩, isRead⟩
  rw [grown, trace, List.append_assoc, ← List.map_append, List.append_assoc]

theorem entry_handleReadable {conn : Connection}
    (isOpen : reactor.loop.conns.lookup fd = some conn)
    (recvs : List RecvOutcome) (outcome : FlushOutcome) :
    Entry handler reactor fd recvs
      (reactor.handleReadable handler recvs outcome fd conn).2 := by
  have noted : Entry handler reactor fd recvs
      { reactor with loop := reactor.loop.note fd (readLoop handler recvs 0 conn
          reactor.app reactor.loop.stopRequested).acts } :=
    ⟨_, [], by rw [List.append_nil]; rfl, List.forall_mem_nil _,
      .inr ⟨conn, isOpen, rfl⟩⟩
  unfold Reactor.handleReadable
  generalize readLoop handler recvs 0 conn reactor.app
    reactor.loop.stopRequested = read at noted
  dsimp only
  split
  · obtain ⟨acts, grown, silent⟩ := flush_acts
      { reactor.loop.note fd read.acts with stopRequested := read.stop } outcome
      fd read.conn
    exact noted.silent grown silent
  · exact noted.silent rfl closed_silent

theorem entry_dispatch (reactor : Reactor App) (fd : Fd) (bits : Ready)
    (recvs : List RecvOutcome) (afterRead onWritable : FlushOutcome) :
    Entry handler reactor fd recvs
      (reactor.dispatch handler fd bits recvs afterRead onWritable) := by
  unfold Reactor.dispatch
  split
  · exact entry_self
  · split
    · exact entry_self
    · rename_i conn isOpen
      split
      · exact entry_self.silent rfl closed_silent
      · have readable : Entry handler reactor fd recvs
            (if bits.input then
              reactor.handleReadable handler recvs afterRead fd conn
            else (true, reactor)).2 := by
          split
          · exact entry_handleReadable isOpen recvs afterRead
          · exact entry_self
        generalize (if bits.input then
            reactor.handleReadable handler recvs afterRead fd conn
          else (true, reactor)) = after at readable
        dsimp only
        split
        · split
          · exact readable
          · rename_i following _
            obtain ⟨acts, grown, silent⟩ :=
              flush_acts after.2.loop onWritable fd following
            exact readable.silent grown silent
        · exact readable

theorem dispatch_other (reactor : Reactor App) {fd other : Fd}
    (different : other ≠ fd) (bits : Ready) (recvs : List RecvOutcome)
    (afterRead onWritable : FlushOutcome) :
    (reactor.dispatch handler other bits recvs afterRead
      onWritable).loop.session fd = reactor.loop.session fd := by
  unfold Reactor.dispatch
  split
  · rfl
  · split
    · rfl
    · rename_i conn _
      split
      · exact reactor.loop.session_closeConnection_other different
      · have readable : (if bits.input then
            reactor.handleReadable handler recvs afterRead other conn
          else (true, reactor)).2.loop.session fd = reactor.loop.session fd := by
          split
          · exact handleReadable_other reactor different recvs afterRead conn
          · rfl
        generalize (if bits.input then
            reactor.handleReadable handler recvs afterRead other conn
          else (true, reactor)) = after at readable
        dsimp only
        split
        · split
          · exact readable
          · exact (flush_other _ _ different _).trans readable
        · exact readable

end Entry

theorem round_of_serve {parser : RespParser} {chunks : List Bytes}
    (waits : machine.round parser = .wait)
    (clean : (parser.serve chunks).2 = none) :
    machine.round (parser.feedAll chunks).2 = .wait := by
  induction chunks generalizing parser with
  | nil => exact waits
  | cons chunk chunks induction =>
      by_cases succeeds : (parser.feed chunk).1.status = .ok
      · rw [serve_of_ok succeeds] at clean
        exact induction (round_of_feed succeeds) clean
      · rw [serve_of_failed succeeds] at clean
        cases clean

/-- The parser of a connection that has met no protocol error waits for
input. -/
theorem waits_of_unrefused {cfg : Config} {app : App} {events : List Event}
    {fd : Fd} {conn : Connection}
    (isOpen : (Reactor.run handler cfg ⟨EventLoop.fresh, app⟩
      events).loop.conns.lookup fd = some conn)
    (unrefused : ¬ Refused (history fd (Reactor.run handler cfg
      ⟨EventLoop.fresh, app⟩ events).loop.trace)) :
    machine.round conn.parser = .wait := by
  obtain ⟨parser, parses, isParser⟩ := run_served handler cfg app events fd
  obtain ⟨clean, isFollowing⟩ := parses.unrefused unrefused
  rw [isParser conn isOpen, isFollowing]
  exact round_of_serve (round_fresh _) clean

/-- Fair shares.  After any run, an entry of a batch receives up to
`kMaxReadPerEvent` bytes, all of them for its own connection, and executes no
more commands than that unless the connection has met a protocol error before.
The other connections are as they were. -/
theorem entry_takes_share (handler : Handler App) (cfg : Config) (app : App)
    (events : List Event) (fd : Fd) (bits : Ready) {recvs : List RecvOutcome}
    (fits : Fits recvs) (afterRead onWritable : FlushOutcome) :
    let reactor := Reactor.run handler cfg ⟨EventLoop.fresh, app⟩ events
    let next := reactor.step handler cfg
      (.ready fd bits recvs afterRead onWritable)
    (∃ acts : List Act, next.loop.trace =
        reactor.loop.trace ++ acts.map (fun act => (fd, act)) ∧
      fedBytes acts ≤ kMaxReadPerEvent ∧
      (¬ Refused (history fd reactor.loop.trace) →
        (handledCommands acts).length ≤ fedBytes acts)) ∧
    ∀ other, other ≠ fd → next.loop.session other = reactor.loop.session other := by
  intro reactor next
  have entry : Entry handler reactor fd recvs next ∧ ∀ other, other ≠ fd →
      next.loop.session other = reactor.loop.session other := by
    change Entry handler reactor fd recvs (Reactor.step handler cfg reactor _) ∧
      ∀ other, other ≠ fd → (Reactor.step handler cfg reactor _).loop.session
        other = _
    unfold Reactor.step
    split
    · exact ⟨entry_self, fun _ _ => rfl⟩
    · exact ⟨entry_dispatch reactor fd bits recvs afterRead onWritable,
        fun other different => dispatch_other reactor (Ne.symm different) bits
          recvs afterRead onWritable⟩
  obtain ⟨⟨read, rest, trace, restSilent, isRead⟩, others⟩ := entry
  obtain ⟨noChunks, noCommands⟩ := silent_takes_nothing restSilent
  have noBytes : fedBytes rest = 0 := by
    rw [fedBytes, noChunks]
    rfl
  refine ⟨⟨read ++ rest, trace, ?_, ?_⟩, others⟩
  · rw [fedBytes_append, noBytes]
    rcases isRead with rfl | ⟨conn, _, rfl⟩
    · exact Nat.zero_le _
    · have share : 0 + fedBytes (readLoop handler recvs 0 conn reactor.app
          reactor.loop.stopRequested).acts ≤ kMaxReadPerEvent :=
        readLoop_share fits (Nat.dvd_zero _) (by decide) conn _ _
      rwa [Nat.zero_add] at share
  · intro unrefused
    rw [fedBytes_append, noBytes, handledCommands_append, noCommands,
      List.append_nil]
    rcases isRead with rfl | ⟨conn, isOpen, rfl⟩
    · exact Nat.zero_le _
    · apply (readLoop_pulls handler recvs 0 conn reactor.app
        reactor.loop.stopRequested).rate
      exact waits_of_unrefused isOpen unrefused

/-- A client sends a command. -/
theorem entry_takes_share_ping :
    let recvs := [RecvOutcome.data (ascii "PING\r\n"), .wouldBlock]
    let start := Reactor.run ponging Config.initial ⟨EventLoop.fresh, ()⟩
      [.listener [.client 5 true]]
    ∃ acts : List Act, (start.step ponging Config.initial
        (.ready 5 ⟨false, true, false⟩ recvs ⟨[], true⟩ ⟨[], true⟩)).loop.trace =
        start.loop.trace ++ acts.map (fun act => (5, act)) ∧
      fedBytes acts ≤ kMaxReadPerEvent ∧
      (handledCommands acts).length ≤ fedBytes acts := by
  intro recvs start
  have fits : Fits recvs := by
    intro chunk member
    simp only [recvs, List.mem_cons, RecvOutcome.data.injEq, reduceCtorEq,
      List.not_mem_nil, or_false] at member
    rw [member]
    decide
  obtain ⟨⟨acts, trace, share, rate⟩, _⟩ := entry_takes_share ponging
    Config.initial () [.listener [.client 5 true]] 5 ⟨false, true, false⟩ fits
    ⟨[], true⟩ ⟨[], true⟩
  refine ⟨acts, trace, share, rate ?_⟩
  rintro ⟨reply, member⟩
  exact List.not_mem_nil member

/-! ## Writing -/

/-- All that waits for the clients of the loop. -/
def EventLoop.unsent (loop : EventLoop) : Nat :=
  ∑ fd ∈ loop.conns.keys,
    (loop.conns.lookup fd).elim 0 fun conn => conn.outbuf.length

theorem EventLoop.unsent_le {loop : EventLoop} {count : Nat}
    (few : loop.conns.keys.card ≤ count)
    (bounded : ∀ fd conn, loop.conns.lookup fd = some conn →
      conn.outbuf.length ≤ kMaxOutbufBytes) :
    loop.unsent ≤ count * kMaxOutbufBytes := by
  have each : ∀ fd ∈ loop.conns.keys,
      ((loop.conns.lookup fd).elim 0 fun conn => conn.outbuf.length) ≤
        kMaxOutbufBytes := by
    intro fd _
    cases isOpen : loop.conns.lookup fd with
    | none => exact Nat.zero_le _
    | some conn => exact bounded fd conn isOpen
  calc loop.unsent
      ≤ loop.conns.keys.card • kMaxOutbufBytes :=
        Finset.sum_le_card_nsmul _ _ _ each
    _ ≤ count * kMaxOutbufBytes := by
        rw [nsmul_eq_mul, Nat.cast_id]
        exact Nat.mul_le_mul_right _ few

namespace ShardedServer

def unsent (server : ShardedServer App) : Nat :=
  (server.loops.map EventLoop.unsent).sum

/-- What a loop keeps whatever it meets, all loops keep. -/
theorem step_loops {cfg : Config} {Invariant : EventLoop → Prop}
    (stepped : ∀ loop app event, Invariant loop →
      Invariant (Reactor.step handler cfg ⟨loop, app⟩ event).loop)
    (flagged : ∀ loop, Invariant loop →
      Invariant { loop with stopRequested := true })
    {server : ShardedServer App}
    (kept : ∀ loop ∈ server.loops, Invariant loop) (located : Nat × Event) :
    ∀ loop ∈ (server.step handler cfg located).loops, Invariant loop := by
  unfold ShardedServer.step
  split
  · exact kept
  · exact kept
  · rename_i loop position event _ found
    have moved := stepped loop server.app event
      (kept loop (List.mem_of_getElem? found))
    generalize Reactor.step handler cfg ⟨loop, server.app⟩ event = reactor
      at moved
    have replaced : ∀ other ∈ server.loops.set position reactor.loop,
        Invariant other := by
      intro other member
      rcases List.mem_or_eq_of_mem_set member with old | new
      · exact kept other old
      · rw [new]
        exact moved
    dsimp only
    split
    · intro other member
      obtain ⟨before, old, rfl⟩ := List.mem_map.mp member
      exact flagged before (replaced before old)
    · exact replaced

/-- Slow readers.  In every run of any number of loops no more than
`kMaxOutbufBytes` wait for any client, and what waits for all of them is bounded
by the configuration alone. -/
theorem unsent_bounded (handler : Handler App) (cfg : Config) (app : App)
    (events : List (Nat × Event)) :
    let server := run handler cfg (start cfg app) events
    (∀ loop ∈ server.loops, ∀ fd conn, loop.conns.lookup fd = some conn →
      conn.outbuf.length ≤ kMaxOutbufBytes) ∧
    server.unsent ≤ cfg.nthreads * (cfg.maxClients * kMaxOutbufBytes) := by
  intro server
  have always : EachFold (step handler cfg) (fun _ _ => True)
      (start cfg app) events :=
    .of_forall (fun _ _ _ => True.intro) _
  have capped : server.Capped cfg :=
    always.invariant (fun _ event capped _ => capped.step handler event)
      (start_capped cfg app)
  have preserved : ∀ (server : ShardedServer App) (located : Nat × Event),
      (∀ loop ∈ server.loops, ∀ fd, (loop.session fd).Flowing) → True →
      ∀ loop ∈ (server.step handler cfg located).loops, ∀ fd,
        (loop.session fd).Flowing := by
    intro server located kept _
    refine step_loops ?_ (fun _ flowing => flowing) kept located
    intro loop app event flowing
    exact step_sessions (fun _ _ => moves_flowing) flowing event
  have started : ∀ loop ∈ (start cfg app).loops, ∀ fd,
      (loop.session fd).Flowing := by
    intro loop member
    rw [List.eq_of_mem_replicate member]
    rintro fd conn ⟨⟩
  have flowing := always.invariant preserved started
  have bounded : ∀ loop ∈ server.loops, ∀ fd conn,
      loop.conns.lookup fd = some conn →
      conn.outbuf.length ≤ kMaxOutbufBytes :=
    fun loop member fd conn isOpen => (flowing loop member fd conn isOpen).bounded
  refine ⟨bounded, ?_⟩
  have each : ∀ count ∈ server.loops.map EventLoop.unsent,
      count ≤ cfg.maxClients * kMaxOutbufBytes := by
    intro count member
    obtain ⟨loop, isLoop, rfl⟩ := List.mem_map.mp member
    exact EventLoop.unsent_le (capped.bounded loop isLoop) (bounded loop isLoop)
  have summed := List.sum_le_card_nsmul _ _ each
  rwa [List.length_map, capped.length_eq, nsmul_eq_mul, Nat.cast_id] at summed

end ShardedServer

end HermitDb.Net
