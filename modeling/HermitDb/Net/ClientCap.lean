import HermitDb.Net.Streams
import Mathlib.Algebra.Order.BigOperators.Group.List

/-!
# The client cap

Every reactor compares the cap with the number of its own connections, and all
of them accept from one listener.  With one reactor the cap bounds the clients
of the server; with more it bounds those of each reactor only.
-/

namespace HermitDb.Net

open Library Protocol Util

/-- The reactor threads over one listener and one keyspace. -/
structure ShardedServer (App : Type) where
  loops : List EventLoop
  app : App

namespace ShardedServer

variable {App : Type}

/-- One loop for each configured thread. -/
def start (cfg : Config) (app : App) : ShardedServer App :=
  ⟨List.replicate cfg.nthreads EventLoop.fresh, app⟩

def stopAll (loops : List EventLoop) : List EventLoop :=
  loops.map fun loop => { loop with stopRequested := true }

/-- One event on one loop.  The periodic callbacks run on the first loop only,
and a loop that stops stops all of them. -/
def step (handler : Handler App) (cfg : Config) (server : ShardedServer App)
    (located : Nat × Event) : ShardedServer App :=
  match server.loops[located.1]?, located with
  | none, _ => server
  | some _, (_ + 1, .tick) => server
  | some loop, (position, event) =>
      let reactor := Reactor.step handler cfg ⟨loop, server.app⟩ event
      let loops := server.loops.set position reactor.loop
      ⟨if reactor.loop.stopRequested then stopAll loops else loops, reactor.app⟩

def run (handler : Handler App) (cfg : Config) (server : ShardedServer App)
    (events : List (Nat × Event)) : ShardedServer App :=
  events.foldl (step handler cfg) server

/-- The client connections the server keeps open. -/
def clients (server : ShardedServer App) : Nat :=
  (server.loops.map fun loop => loop.conns.keys.card).sum

end ShardedServer

/-! ## One loop -/

section Loop

variable {App : Type} {handler : Handler App}

theorem EventLoop.keys_closeConnection (loop : EventLoop) (fd : Fd) :
    (loop.closeConnection fd).conns.keys ⊆ loop.conns.keys := by
  intro other
  simp [EventLoop.closeConnection, Finmap.mem_keys]

theorem EventLoop.keys_put (loop : EventLoop) (fd : Fd) (conn : Connection) :
    (loop.put fd conn).conns.keys = insert fd loop.conns.keys := by
  ext other
  simp [EventLoop.put, Finmap.mem_keys, Finmap.mem_insert]

theorem EventLoop.modifyFd_conns (loop : EventLoop) (succeeds : Bool) (fd : Fd)
    (events : Interest) :
    (loop.modifyFd succeeds fd events).conns = loop.conns := by
  unfold EventLoop.modifyFd
  split
  · rfl
  · split <;> rfl

theorem mem_keys_of_lookup {loop : EventLoop} {fd : Fd} {conn : Connection}
    (isOpen : loop.conns.lookup fd = some conn) : fd ∈ loop.conns.keys := by
  rw [Finmap.mem_keys, Finmap.mem_iff]
  exact ⟨conn, isOpen⟩

/-- Only accepting adds a connection. -/
theorem EventLoop.keys_flush (loop : EventLoop) (outcome : FlushOutcome)
    {fd : Fd} (isOpen : fd ∈ loop.conns.keys) (conn : Connection) :
    (loop.flush outcome fd conn).2.conns.keys ⊆ loop.conns.keys := by
  have stored : ∀ (acts : List Act) (conn : Connection) (succeeds : Bool)
      (events : Interest),
      (((loop.note fd acts).put fd conn).modifyFd succeeds fd
        events).conns.keys ⊆ loop.conns.keys := by
    intro acts conn succeeds events
    rw [modifyFd_conns, keys_put]
    exact Finset.insert_subset isOpen fun _ member => member
  unfold EventLoop.flush
  dsimp only
  split
  · exact keys_closeConnection _ fd
  · split
    · split
      · exact keys_closeConnection _ fd
      · exact stored _ _ _ _
    · split
      · exact keys_closeConnection _ fd
      · exact stored _ _ _ _

theorem keys_handleReadable (reactor : Reactor App)
    (recvs : List RecvOutcome) (outcome : FlushOutcome) {fd : Fd}
    (isOpen : fd ∈ reactor.loop.conns.keys) (conn : Connection) :
    (reactor.handleReadable handler recvs outcome fd conn).2.loop.conns.keys ⊆
      reactor.loop.conns.keys := by
  unfold Reactor.handleReadable
  generalize readLoop handler recvs 0 conn reactor.app
    reactor.loop.stopRequested = read
  have flushed := EventLoop.keys_flush { reactor.loop.note fd read.acts with
    stopRequested := read.stop } outcome isOpen read.conn
  dsimp only
  split
  · exact flushed
  · exact EventLoop.keys_closeConnection _ fd

theorem keys_dispatch (reactor : Reactor App) (fd : Fd) (bits : Ready)
    (recvs : List RecvOutcome) (afterRead onWritable : FlushOutcome) :
    (reactor.dispatch handler fd bits recvs afterRead
      onWritable).loop.conns.keys ⊆ reactor.loop.conns.keys := by
  unfold Reactor.dispatch
  split
  · exact fun _ member => member
  · split
    · exact fun _ member => member
    · rename_i conn isOpen
      split
      · exact EventLoop.keys_closeConnection _ fd
      · have readable : (if bits.input then
            reactor.handleReadable handler recvs afterRead fd conn
          else (true, reactor)).2.loop.conns.keys ⊆ reactor.loop.conns.keys := by
          split
          · exact keys_handleReadable reactor recvs afterRead
              (mem_keys_of_lookup isOpen) conn
          · exact fun _ member => member
        refine Finset.Subset.trans ?_ readable
        generalize (if bits.input then
            reactor.handleReadable handler recvs afterRead fd conn
          else (true, reactor)) = after
        dsimp only
        split
        · split
          · exact fun _ member => member
          · rename_i following stillOpen
            exact EventLoop.keys_flush _ onWritable
              (mem_keys_of_lookup stillOpen) following
        · exact fun _ member => member

theorem registerFd_conns {loop following : EventLoop} {succeeds : Bool}
    {fd : Fd} (registers : loop.registerFd succeeds fd = some following) :
    following.conns = loop.conns := by
  unfold EventLoop.registerFd at registers
  split at registers
  · cases registers
    rfl
  · cases registers

theorem card_accept {cfg : Config} (accepts : List AcceptOutcome)
    {loop : EventLoop} (bounded : loop.conns.keys.card ≤ cfg.maxClients) :
    (loop.acceptNewClients cfg accepts).conns.keys.card ≤ cfg.maxClients := by
  induction accepts generalizing loop with
  | nil => exact bounded
  | cons outcome accepts induction =>
      cases outcome with
      | failed => exact bounded
      | client fd succeeds =>
          unfold EventLoop.acceptNewClients
          split
          · exact induction bounded
          · rename_i room
            split
            · exact induction bounded
            · rename_i following registers
              apply induction
              have grown := Finset.card_insert_le fd loop.conns.keys
              change ((following.put fd _).conns.keys).card ≤ _
              rw [EventLoop.keys_put, registerFd_conns registers]
              omega

/-- One loop never keeps more connections than the cap. -/
theorem card_step {cfg : Config} {reactor : Reactor App}
    (bounded : reactor.loop.conns.keys.card ≤ cfg.maxClients) (event : Event) :
    (reactor.step handler cfg event).loop.conns.keys.card ≤ cfg.maxClients := by
  unfold Reactor.step
  split
  · exact bounded
  · cases event with
    | wait =>
        dsimp only
        split
        · exact Nat.zero_le _
        · exact bounded
    | listener accepts => exact card_accept accepts bounded
    | ready fd bits recvs afterRead onWritable =>
        exact (Finset.card_le_card (keys_dispatch reactor fd bits recvs
          afterRead onWritable)).trans bounded
    | tick => exact bounded

/-- A loop with room takes every client in the queue. -/
theorem accept_all {cfg : Config} {fds : List Fd} (distinct : fds.Nodup)
    {loop : EventLoop}
    (free : ∀ fd ∈ fds, loop.registered fd = none ∧ fd ∉ loop.conns.keys)
    (room : loop.conns.keys.card + fds.length ≤ cfg.maxClients) :
    (loop.acceptNewClients cfg
        (fds.map fun fd => .client fd true)).conns.keys.card =
      loop.conns.keys.card + fds.length := by
  induction fds generalizing loop with
  | nil => rfl
  | cons fd fds induction =>
      obtain ⟨⟨unwatched, unused⟩, restFree⟩ := List.forall_mem_cons.mp free
      obtain ⟨notLater, restDistinct⟩ := List.nodup_cons.mp distinct
      rw [List.length_cons] at room
      have registers : loop.registerFd true fd = some { loop with
          interest := Function.update loop.interest fd (some .input)
          registered := Function.update loop.registered fd (some .input) } := by
        simp [EventLoop.registerFd, unwatched]
      rw [List.map_cons, EventLoop.acceptNewClients, if_neg (by omega),
        registers]
      dsimp only
      generalize added : EventLoop.note (EventLoop.put _ fd _) fd _ = following
      have keys : following.conns.keys = insert fd loop.conns.keys := by
        rw [← added]
        exact EventLoop.keys_put _ fd _
      have card : following.conns.keys.card = loop.conns.keys.card + 1 := by
        rw [keys, Finset.card_insert_of_notMem unused]
      rw [induction restDistinct _ (by omega), card, List.length_cons]
      · omega
      · intro other member
        have different : other ≠ fd := by
          rintro rfl
          exact notLater member
        obtain ⟨unwatchedToo, unusedToo⟩ := restFree other member
        constructor
        · rw [← added]
          exact (Function.update_of_ne different _ _).trans unwatchedToo
        · rw [keys, Finset.mem_insert, not_or]
          exact ⟨different, unusedToo⟩

theorem accept_stopRequested {cfg : Config} (accepts : List AcceptOutcome)
    (loop : EventLoop) :
    (loop.acceptNewClients cfg accepts).stopRequested = loop.stopRequested := by
  induction accepts generalizing loop with
  | nil => rfl
  | cons outcome accepts induction =>
      cases outcome with
      | failed => rfl
      | client fd succeeds =>
          unfold EventLoop.acceptNewClients
          split
          · exact induction _
          · split
            · exact induction loop
            · rename_i following registers
              unfold EventLoop.registerFd at registers
              split at registers
              · cases registers
                exact induction _
              · cases registers

end Loop

/-! ## All loops -/

namespace ShardedServer

variable {App : Type} (handler : Handler App) (cfg : Config)

/-- As many loops as configured, each within the cap. -/
structure Capped (server : ShardedServer App) : Prop where
  length_eq : server.loops.length = cfg.nthreads
  bounded : ∀ loop ∈ server.loops, loop.conns.keys.card ≤ cfg.maxClients

theorem start_capped (app : App) : (start cfg app).Capped cfg where
  length_eq := List.length_replicate
  bounded := by
    intro loop member
    rw [List.eq_of_mem_replicate member]
    exact Nat.zero_le _

variable {cfg} in
theorem Capped.step {server : ShardedServer App} (capped : server.Capped cfg)
    (located : Nat × Event) : (server.step handler cfg located).Capped cfg := by
  unfold ShardedServer.step
  split
  · exact capped
  · exact capped
  · rename_i loop position event _ found
    have moved : (Reactor.step handler cfg ⟨loop, server.app⟩
        event).loop.conns.keys.card ≤ cfg.maxClients :=
      card_step (capped.bounded loop (List.mem_of_getElem? found)) event
    generalize Reactor.step handler cfg ⟨loop, server.app⟩ event = reactor at *
    have replaced : ∀ other ∈ server.loops.set position reactor.loop,
        other.conns.keys.card ≤ cfg.maxClients := by
      intro other member
      rcases List.mem_or_eq_of_mem_set member with old | new
      · exact capped.bounded other old
      · rw [new]
        exact moved
    constructor
    · dsimp only
      split
      · rw [stopAll, List.length_map, List.length_set, capped.length_eq]
      · rw [List.length_set, capped.length_eq]
    · dsimp only
      split
      · intro other member
        obtain ⟨before, old, rfl⟩ := List.mem_map.mp member
        exact replaced before old
      · exact replaced

/-- One client more than the cap, on two loops. -/
def overfill (maxClients : Nat) : List (Nat × Event) :=
  [(0, .listener ((List.range maxClients).map fun fd => .client fd true)),
    (1, .listener [.client maxClients true])]

theorem clients_overfill (app : App) {rest : Nat}
    (threads : cfg.nthreads = rest + 2) (positive : 0 < cfg.maxClients) :
    cfg.maxClients <
      (run handler cfg (start cfg app) (overfill cfg.maxClients)).clients := by
  have fills : ∀ fds : List Fd, fds.Nodup → fds.length ≤ cfg.maxClients →
      (EventLoop.fresh.acceptNewClients cfg
        (fds.map fun fd => .client fd true)).conns.keys.card = fds.length := by
    intro fds distinct room
    have filled := accept_all distinct
      (fun _ _ => ⟨rfl, Finset.notMem_empty _⟩)
      (show EventLoop.fresh.conns.keys.card + fds.length ≤ cfg.maxClients from
        (Nat.zero_add _).symm ▸ room)
    exact filled.trans (Nat.zero_add _)
  have first := fills (List.range cfg.maxClients) List.nodup_range (by simp)
  have second := fills [cfg.maxClients] (List.nodup_singleton _) positive
  have goesOn : ∀ accepts,
      (EventLoop.fresh.acceptNewClients cfg accepts).stopRequested = false :=
    fun accepts => accept_stopRequested accepts EventLoop.fresh
  rw [List.length_range] at first
  have final : (run handler cfg (start cfg app) (overfill cfg.maxClients)).loops =
      EventLoop.fresh.acceptNewClients cfg
        ((List.range cfg.maxClients).map fun fd => .client fd true) ::
      EventLoop.fresh.acceptNewClients cfg [.client cfg.maxClients true] ::
      List.replicate rest EventLoop.fresh := by
    simp [run, overfill, start, threads, List.replicate_succ, step,
      Reactor.step, goesOn, show EventLoop.fresh.stopped = false from rfl]
  rw [List.map_singleton] at second
  rw [clients, final, List.map_cons, List.map_cons, List.sum_cons,
    List.sum_cons, first, second, List.length_singleton]
  omega

/-- The cap bounds the clients of the server in every run exactly if there is
one reactor, or no client is let in at all. -/
theorem client_cap_iff (app : App) :
    (∀ events, (run handler cfg (start cfg app) events).clients ≤
      cfg.maxClients) ↔ cfg.nthreads ≤ 1 ∨ cfg.maxClients = 0 := by
  constructor
  · intro bounded
    by_contra several
    obtain ⟨many, admitting⟩ := not_or.mp several
    obtain ⟨rest, threads⟩ := Nat.exists_eq_add_of_le (Nat.lt_of_not_le many)
    have exceeded := clients_overfill handler cfg app
      (threads.trans (Nat.add_comm _ _)) (Nat.pos_of_ne_zero admitting)
    have under := bounded (overfill cfg.maxClients)
    omega
  · intro few events
    have always : EachFold (step handler cfg) (fun _ _ => True)
        (start cfg app) events :=
      .of_forall (fun _ _ _ => True.intro) _
    have capped : (run handler cfg (start cfg app) events).Capped cfg :=
      always.invariant (fun _ event capped _ => capped.step handler event)
        (start_capped cfg app)
    have total : (run handler cfg (start cfg app) events).clients ≤
        cfg.nthreads * cfg.maxClients := by
      have each : ∀ count ∈ (run handler cfg (start cfg app) events).loops.map
          (fun loop => loop.conns.keys.card), count ≤ cfg.maxClients := by
        intro count member
        obtain ⟨loop, isLoop, rfl⟩ := List.mem_map.mp member
        exact capped.bounded loop isLoop
      have summed := List.sum_le_card_nsmul _ cfg.maxClients each
      rw [List.length_map, capped.length_eq, nsmul_eq_mul, Nat.cast_id] at summed
      exact summed
    rcases few with single | closed
    · exact total.trans ((Nat.mul_le_mul_right _ single).trans_eq (Nat.one_mul _))
    · rw [closed, Nat.mul_zero] at total
      exact total.trans (Nat.zero_le _)

/-- Two threads and a cap of one, as the command line gives them, and one
client on each loop. -/
theorem two_clients_over_cap_of_one :
    ∃ cfg : Config,
      parseArgs [ascii "--threads=2", ascii "--max-clients=1"] Config.initial =
        .ok cfg ∧ cfg.maxClients = 1 ∧
      (run ponging cfg (start cfg ())
        [(0, .listener [.client 5 true]), (1, .listener [.client 6 true])]).clients =
          2 :=
  ⟨{ Config.initial with nthreads := 2, maxClients := 1 }, rfl, rfl, rfl⟩

end ShardedServer

end HermitDb.Net
