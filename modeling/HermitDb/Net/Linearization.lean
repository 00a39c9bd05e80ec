import HermitDb.Net.Batches
import HermitDb.Net.Reactors

/-!
# One order for all reactors

However the reactor threads are interleaved, the commands they execute have one
order, that of the keyspace lock, and the handler gives every command the reply
it gives when the commands are executed in that order by one thread.  Each
connection gets its own replies, in the order of its own commands.
-/

namespace HermitDb.Net

open Library Protocol Util

variable {App : Type}

/-! ## One thread among others

Whatever its calls are answered, a thread does to its connections what a
reactor does whose handler gives the same replies. -/

/-- A handler that gives these replies. -/
def scripted : Handler (List Bytes) where
  execute := fun replies _ => (replies.headD [], replies.tail)
  shutdownRequested := fun _ => false
  tick := fun replies => (replies, false)

/-- The entries of a trace record the executions among the exchanges: each
command is followed at once by the reply it got. -/
inductive Records : List (Fd × Act) → List (Exchange Call Call.Answer) →
    Prop where
  | nil : Records [] []
  | executed (fd : Fd) (cmd : Command) (reply : Bytes)
      {entries : List (Fd × Act)} {exchanges : List (Exchange Call Call.Answer)}
      (rest : Records entries exchanges) :
      Records ((fd, .handled cmd) :: (fd, .queued reply) :: entries)
        (⟨.execute fd cmd, reply⟩ :: exchanges)
  | acted (fd : Fd) (act : Act) {entries : List (Fd × Act)}
      {exchanges : List (Exchange Call Call.Answer)}
      (notHandled : ∀ cmd, act ≠ .handled cmd)
      (notQueued : ∀ reply, act ≠ .queued reply)
      (rest : Records entries exchanges) :
      Records ((fd, act) :: entries) exchanges
  | ticked {entries : List (Fd × Act)}
      {exchanges : List (Exchange Call Call.Answer)}
      (rest : Records entries exchanges) :
      Records entries (⟨.tick, ()⟩ :: exchanges)
  | polled (stop : Bool) {entries : List (Fd × Act)}
      {exchanges : List (Exchange Call Call.Answer)}
      (rest : Records entries exchanges) :
      Records entries (⟨.stopRequested, stop⟩ :: exchanges)

namespace Records

theorem append {first second : List (Fd × Act)}
    {before after : List (Exchange Call Call.Answer)}
    (records : Records first before) (later : Records second after) :
    Records (first ++ second) (before ++ after) := by
  induction records with
  | nil => exact later
  | executed fd cmd reply _ induction => exact .executed fd cmd reply induction
  | acted fd act notHandled notQueued _ induction =>
      exact .acted fd act notHandled notQueued induction
  | ticked _ induction => exact .ticked induction
  | polled stop _ induction => exact .polled stop induction

theorem silent (fd : Fd) {acts : List Act} (silent : ∀ act ∈ acts, act.Silent) :
    Records (acts.map fun act => (fd, act)) [] := by
  induction acts with
  | nil => exact .nil
  | cons act acts induction =>
      obtain ⟨first, rest⟩ := List.forall_mem_cons.mp silent
      apply Records.acted fd act _ _ (induction rest)
      · rintro cmd rfl
        exact first
      · rintro reply rfl
        exact first

theorem fed (fd : Fd) (chunk : Bytes) {entries : List (Fd × Act)}
    {exchanges : List (Exchange Call Call.Answer)}
    (rest : Records entries exchanges) :
    Records ((fd, .fed chunk) :: entries) exchanges :=
  .acted fd _ nofun nofun rest

theorem refused (fd : Fd) (reply : Bytes) : Records [(fd, .refused reply)] [] :=
  .acted fd _ nofun nofun .nil

theorem opened (fd : Fd) {entries : List (Fd × Act)}
    {exchanges : List (Exchange Call Call.Answer)}
    (rest : Records entries exchanges) :
    Records ((fd, .opened) :: entries) exchanges :=
  .acted fd _ nofun nofun rest

theorem closed (fd : Fd) : Records [(fd, .closed)] [] :=
  .acted fd _ nofun nofun .nil

end Records

/-! ## One connection's part of a history -/

/-- What an exchange executed for this connection, and the reply. -/
def executedFor (fd : Fd) : Exchange Call Call.Answer → Option (Command × Bytes)
  | ⟨.execute other cmd, reply⟩ => if other = fd then some (cmd, reply) else none
  | _ => none

def queuedReplies (acts : List Act) : List Bytes :=
  acts.filterMap fun act =>
    match act with
    | .queued reply => some reply
    | _ => none

theorem queuedBytes_of_unrefused {acts : List Act} (unrefused : ¬ Refused acts) :
    queuedBytes acts = (queuedReplies acts).flatten := by
  induction acts with
  | nil => rfl
  | cons act acts induction =>
      have rest : queuedBytes acts = (queuedReplies acts).flatten := by
        apply induction
        rintro ⟨reply, member⟩
        exact unrefused ⟨reply, List.mem_cons_of_mem _ member⟩
      cases act with
      | refused reply =>
          exact absurd ⟨reply, List.mem_cons_self⟩ unrefused
      | queued reply => exact congrArg (reply ++ ·) rest
      | opened | fed | handled | sent | closed => exact rest

/-- These acts hold exactly these executions. -/
structure HoldsExecutions (acts : List Act) (executions : List (Command × Bytes)) :
    Prop where
  commands : handledCommands acts = executions.map Prod.fst
  replies : queuedReplies acts = executions.map Prod.snd

theorem HoldsExecutions.append {first second : List Act}
    {before after : List (Command × Bytes)}
    (holds : HoldsExecutions first before)
    (later : HoldsExecutions second after) :
    HoldsExecutions (first ++ second) (before ++ after) := by
  constructor
  · rw [handledCommands_append, holds.commands, later.commands, List.map_append]
  · rw [queuedReplies, List.filterMap_append, List.map_append, ← holds.replies,
      ← later.replies]
    rfl

theorem HoldsExecutions.acted {acts : List Act}
    {executions : List (Command × Bytes)}
    (holds : HoldsExecutions acts executions) {act : Act}
    (notHandled : ∀ cmd, act ≠ .handled cmd)
    (notQueued : ∀ reply, act ≠ .queued reply) :
    HoldsExecutions (acts ++ [act]) executions := by
  have nothing : HoldsExecutions [act] [] := by
    cases act with
    | handled cmd => exact absurd rfl (notHandled cmd)
    | queued reply => exact absurd rfl (notQueued reply)
    | opened | fed | refused | sent | closed => exact ⟨rfl, rfl⟩
  have both := holds.append nothing
  rwa [List.append_nil] at both

/-- The executions recorded since the connection was last opened are the latest
ones made for its descriptor. -/
theorem Records.session {entries : List (Fd × Act)}
    {exchanges : List (Exchange Call Call.Answer)}
    (records : Records entries exchanges) (fd : Fd) :
    ∃ earlier mine, exchanges.filterMap (executedFor fd) = earlier ++ mine ∧
      HoldsExecutions (history fd entries) mine := by
  -- The fold of `history` may start with acts that hold executions already.
  have general : ∀ (acts : List Act) (held : List (Command × Bytes)),
      HoldsExecutions acts held → ∃ earlier mine,
        held ++ exchanges.filterMap (executedFor fd) = earlier ++ mine ∧
        HoldsExecutions (entries.foldl (fun acts entry =>
          if entry.1 ≠ fd then acts
          else if entry.2 = .opened then []
          else acts ++ [entry.2]) acts) mine := by
    induction records with
    | nil =>
        intro acts held holds
        exact ⟨[], held, by simp, holds⟩
    | executed other cmd reply rest induction =>
        intro acts held holds
        by_cases same : other = fd
        · obtain ⟨earlier, mine, split, final⟩ := induction
            (acts ++ [.handled cmd, .queued reply]) (held ++ [(cmd, reply)])
            (holds.append ⟨rfl, rfl⟩)
          refine ⟨earlier, mine, ?_, ?_⟩
          · simpa [executedFor, same] using split
          · simpa [same] using final
        · obtain ⟨earlier, mine, split, final⟩ := induction acts held holds
          refine ⟨earlier, mine, ?_, ?_⟩
          · simpa [executedFor, same] using split
          · simpa [same] using final
    | acted other act notHandled notQueued rest induction =>
        intro acts held holds
        by_cases same : other = fd
        · by_cases isOpened : act = .opened
          · obtain ⟨earlier, mine, split, final⟩ := induction [] [] ⟨rfl, rfl⟩
            refine ⟨held ++ earlier, mine, ?_, ?_⟩
            · rw [List.append_assoc, ← split, List.nil_append]
            · simpa [same, isOpened] using final
          · obtain ⟨earlier, mine, split, final⟩ := induction (acts ++ [act]) held
              (holds.acted notHandled notQueued)
            exact ⟨earlier, mine, split, by simpa [same, isOpened] using final⟩
        · obtain ⟨earlier, mine, split, final⟩ := induction acts held holds
          exact ⟨earlier, mine, split, by simpa [same] using final⟩
    | ticked rest induction => exact induction
    | polled stop rest induction => exact induction
  obtain ⟨earlier, mine, split, holds⟩ := general [] [] ⟨rfl, rfl⟩
  exact ⟨earlier, mine, split, holds⟩

open Task in
theorem handleTask_ensures (fd : Fd) (cmds : List Command) (conn : Connection)
    (acts : List Act) :
    Ensures (handleTask fd cmds conn acts) fun exchanges handled =>
      ∃ more replies, handled.2 = acts ++ more ∧
        Records (more.map fun act => (fd, act)) exchanges ∧
        ∀ rest, handleAll scripted cmds conn (replies ++ rest) false =
          ⟨handled.1, rest, false, more, true⟩ := by
  induction cmds generalizing conn acts with
  | nil =>
      apply Ensures.done
      exact ⟨[], [], (List.append_nil acts).symm, .nil, fun _ => rfl⟩
  | cons cmd cmds induction =>
      apply Ensures.call
      intro reply
      refine Ensures.weaken (induction (conn.queueReply reply)
        (acts ++ [.handled cmd, .queued reply])) ?_
      rintro exchanges ⟨after, all⟩ ⟨more, replies, isAll, records, handles⟩
      refine ⟨.handled cmd :: .queued reply :: more, reply :: replies, ?_, ?_, ?_⟩
      · rw [isAll, List.append_assoc]
        rfl
      · exact .executed fd cmd reply records
      · intro rest
        have handled := handles rest
        simp only [handleAll, scripted, List.cons_append, List.headD_cons,
          List.tail_cons, Bool.or_false] at handled ⊢
        rw [handled]

/-- The exchanges and the result of a `recv` loop are those of a reactor's loop
over some reads, with these replies. -/
def ReadsLike (fd : Fd) (readThisEvent : Nat) (conn : Connection)
    (acts : List Act) (exchanges : List (Exchange Call Call.Answer))
    (read : Read) : Prop :=
  ∃ more replies recvs, read.acts = acts ++ more ∧
    Records (more.map fun act => (fd, act)) exchanges ∧
    ∀ rest, readLoop scripted recvs readThisEvent conn (replies ++ rest) false =
      ⟨read.conn, rest, false, more, read.alive⟩

/-- A chunk whose commands are handled, and what is read after it. -/
theorem readLoop_data {letter : UInt8} {letters : Bytes} {conn after : Connection}
    {replies rest : List Bytes} {more : List Act}
    (good : (conn.parser.feed (letter :: letters)).1.status = .ok)
    (handles : handleAll scripted
      (conn.parser.feed (letter :: letters)).1.commands
      { conn with parser := (conn.parser.feed (letter :: letters)).2 } replies
      false = ⟨after, rest, false, more, true⟩)
    (recvs : List RecvOutcome) (readThisEvent : Nat) :
    readLoop scripted (.data (letter :: letters) :: recvs) readThisEvent conn
        replies false =
      if (letter :: letters).length < kReadChunk ∨
          kMaxReadPerEvent ≤ readThisEvent + (letter :: letters).length then
        ⟨after, rest, false, .fed (letter :: letters) :: more, true⟩
      else
        let later := readLoop scripted recvs
          (readThisEvent + (letter :: letters).length) after rest false
        { later with acts := .fed (letter :: letters) :: more ++ later.acts } := by
  simp only [readLoop, good, handles, ne_eq, not_true, if_false,
    Bool.false_eq_true, false_or]

open Task in
/-- A read that brings bytes, given that the rest of the reads are as a
reactor's. -/
theorem readTask_data (fd : Fd) {recvs : List RecvOutcome}
    (remaining : ∀ (readThisEvent : Nat) (conn : Connection) (acts : List Act),
      Ensures (readTask fd recvs readThisEvent conn acts)
        (ReadsLike fd readThisEvent conn acts))
    (readThisEvent : Nat) (conn : Connection) (acts : List Act) (letter : UInt8)
    (letters : Bytes) :
    Ensures (readTask fd (.data (letter :: letters) :: recvs) readThisEvent conn
      acts) (ReadsLike fd readThisEvent conn acts) := by
  unfold readTask
  dsimp only
  split
  · rename_i bad
    apply Ensures.done
    refine ⟨_, [], [.data (letter :: letters)], rfl,
      .fed fd _ (.refused fd _), ?_⟩
    intro rest
    simp only [readLoop, if_pos bad, List.nil_append]
  · rename_i good
    refine Ensures.bind (handleTask_ensures fd _ _ _) ?_
    rintro exchanges ⟨after, all⟩ ⟨more, replies, isAll, records, handles⟩
    have first : Records ((.fed (letter :: letters) :: more).map
        fun act => (fd, act)) exchanges :=
      .fed fd _ records
    rw [List.append_assoc] at isAll
    have whole : all = acts ++ .fed (letter :: letters) :: more := isAll
    have taken := fun rest => readLoop_data (not_not.mp good)
      (handles rest)
    have ends : ∀ stop : Bool, ReadsLike fd readThisEvent conn acts
        (exchanges ++ [⟨.stopRequested, stop⟩]) ⟨after, all, true⟩ := by
      intro stop
      refine ⟨_, replies, [.data (letter :: letters)], whole, ?_, ?_⟩
      · have both := first.append (.polled stop .nil)
        rwa [List.append_nil] at both
      · intro rest
        rw [taken]
        split
        · rfl
        · simp [readLoop]
    apply Ensures.call
    intro stop
    cases stop with
    | true =>
        apply Ensures.done
        exact ends true
    | false =>
        dsimp only [cond_false]
        split
        · apply Ensures.done
          exact ends false
        · rename_i goesOn
          refine Ensures.weaken (remaining _ after all) ?_
          rintro later read ⟨others, laterReplies, laterRecvs, isRead,
            laterRecords, reads⟩
          refine ⟨.fed (letter :: letters) :: more ++ others,
            replies ++ laterReplies,
            .data (letter :: letters) :: laterRecvs, ?_, ?_, ?_⟩
          · rw [isRead, whole, List.append_assoc]
          · rw [List.map_append]
            exact first.append (.polled false laterRecords)
          · intro rest
            rw [List.append_assoc, taken, if_neg goesOn, reads]

open Task in
/-- The `recv` loop of a thread is one of a reactor.  Its reads may be cut
short, if the thread has seen the flag set. -/
theorem readTask_ensures (fd : Fd) (recvs : List RecvOutcome)
    (readThisEvent : Nat) (conn : Connection) (acts : List Act) :
    Ensures (readTask fd recvs readThisEvent conn acts)
      (ReadsLike fd readThisEvent conn acts) := by
  induction recvs generalizing readThisEvent conn acts with
  | nil =>
      apply Ensures.done
      exact ⟨[], [], [], (List.append_nil acts).symm, .nil, fun _ => rfl⟩
  | cons outcome recvs induction =>
      cases outcome with
      | wouldBlock =>
          apply Ensures.done
          exact ⟨[], [], [], (List.append_nil acts).symm, .nil, fun _ => rfl⟩
      | failed =>
          apply Ensures.done
          exact ⟨[], [], [.failed], (List.append_nil acts).symm, .nil,
            fun _ => rfl⟩
      | interrupted => exact induction readThisEvent conn acts
      | data bytes =>
          cases bytes with
          | nil =>
              apply Ensures.done
              exact ⟨[], [], [.failed], (List.append_nil acts).symm, .nil,
                fun _ => rfl⟩
          | cons letter letters =>
              exact readTask_data fd induction readThisEvent conn acts letter
                letters

/-! ## Sessions and traces -/

/-- What a thread did to its loop: every session has moved as under a reactor,
and the trace has grown by the executed commands and their replies. -/
structure Handles (cfg : Config) (kernel : Kernel) (before : EventLoop)
    (exchanges : List (Exchange Call Call.Answer)) (after : EventLoop) :
    Prop where
  moves : ∀ fd, Relation.ReflTransGen (Moves scripted cfg kernel)
    (before.session fd) (after.session fd)
  trace : ∃ entries, after.trace = before.trace ++ entries ∧
    Records entries exchanges

namespace Handles

variable {cfg : Config} {kernel : Kernel}

theorem refl (loop : EventLoop) : Handles cfg kernel loop [] loop :=
  ⟨fun _ => .refl, [], (List.append_nil _).symm, .nil⟩

theorem trans {first second third : EventLoop}
    {before after : List (Exchange Call Call.Answer)}
    (earlier : Handles cfg kernel first before second)
    (later : Handles cfg kernel second after third) :
    Handles cfg kernel first (before ++ after) third := by
  obtain ⟨firstEntries, firstTrace, firstRecords⟩ := earlier.trace
  obtain ⟨secondEntries, secondTrace, secondRecords⟩ := later.trace
  refine ⟨fun fd => (earlier.moves fd).trans (later.moves fd),
    firstEntries ++ secondEntries, ?_, firstRecords.append secondRecords⟩
  rw [secondTrace, firstTrace, List.append_assoc]

end Handles

section Moves

variable {cfg : Config} {kernel : Kernel} {loop : EventLoop} {fd : Fd}
  {conn : Connection} {outcome : FlushOutcome}

theorem flush_trace (loop : EventLoop) (outcome : FlushOutcome) (fd : Fd)
    (conn : Connection) :
    ∃ entries, (loop.flush outcome fd conn).2.trace = loop.trace ++ entries ∧
      Records entries [] := by
  obtain ⟨acts, grown, silent⟩ := flush_acts loop outcome fd conn
  exact ⟨_, grown, .silent fd silent⟩

theorem flush_handles (isOpen : loop.conns.lookup fd = some conn)
    (admits : kernel.flushes outcome) :
    Handles cfg kernel loop [] (loop.flush outcome fd conn).2 := by
  refine ⟨?_, flush_trace loop outcome fd conn⟩
  intro other
  by_cases same : fd = other
  · subst other
    exact .single (flush_moves isOpen admits)
  · rw [flush_other loop outcome same]

theorem close_handles (isOpen : loop.conns.lookup fd = some conn) :
    Handles cfg kernel loop [] (loop.closeConnection fd) := by
  refine ⟨?_, [(fd, .closed)], rfl, .closed fd⟩
  intro other
  by_cases same : fd = other
  · subst other
    rw [EventLoop.session_closeConnection_self]
    have closed : Moves scripted cfg kernel (loop.session fd) _ :=
      .closed isOpen .idle
    rw [List.append_nil] at closed
    exact .single closed
  · rw [EventLoop.session_closeConnection_other _ same]

theorem accept_trace (accepts : List AcceptOutcome) (loop : EventLoop) :
    ∃ entries, (loop.acceptNewClients cfg accepts).trace =
      loop.trace ++ entries ∧ Records entries [] := by
  induction accepts generalizing loop with
  | nil => exact ⟨[], (List.append_nil _).symm, .nil⟩
  | cons outcome accepts induction =>
      cases outcome with
      | failed => exact ⟨[], (List.append_nil _).symm, .nil⟩
      | client fd registers =>
          unfold EventLoop.acceptNewClients
          split
          · exact induction _
          · split
            · exact induction loop
            · rename_i following registered
              have same : following.trace = loop.trace := by
                unfold EventLoop.registerFd at registered
                split at registered
                · cases registered
                  rfl
                · cases registered
              obtain ⟨entries, grown, records⟩ := induction
                ((following.put fd (.fresh cfg.maxFrameBytes)).note fd [.opened])
              refine ⟨(fd, .opened) :: entries, ?_, .opened fd records⟩
              rw [grown, ← same]
              exact List.append_assoc _ _ _

theorem accept_handles (accepts : List AcceptOutcome) (loop : EventLoop) :
    Handles cfg kernel loop [] (loop.acceptNewClients cfg accepts) :=
  ⟨fun fd => accept_moves accepts loop fd, accept_trace accepts loop⟩

/-- What `handle_readable` makes of its loop once the `recv` loop is over. -/
theorem readable_handles {exchanges : List (Exchange Call Call.Answer)}
    {read : Read} (anyReads : ∀ conn recvs, kernel.reads conn recvs)
    (isOpen : loop.conns.lookup fd = some conn)
    (admits : kernel.flushes outcome)
    (like : ReadsLike fd 0 conn [] exchanges read) :
    Handles cfg kernel loop exchanges
      (if read.alive then
        (loop.note fd read.acts).flush outcome fd read.conn
      else (false, (loop.note fd read.acts).closeConnection fd)).2 := by
  obtain ⟨more, replies, recvs, isRead, records, reads⟩ := like
  rw [List.nil_append] at isRead
  have looped := reads []
  have taken : Reads scripted kernel conn
      (readLoop scripted recvs 0 conn (replies ++ []) false).acts
      (readLoop scripted recvs 0 conn (replies ++ []) false).conn :=
    .read (anyReads conn recvs)
  have keeps := (readLoop_pulls scripted recvs 0 conn (replies ++ [])
    false).receives .opened
  rw [looped] at taken keeps
  rw [← isRead] at taken keeps records
  have noted : (loop.note fd read.acts).session fd =
      { loop.session fd with
        history := (loop.session fd).history ++ read.acts } :=
    loop.session_note_self keeps
  split
  · obtain ⟨entries, grown, silent⟩ :=
      flush_trace (loop.note fd read.acts) outcome fd read.conn
    refine ⟨?_, (read.acts.map fun act => (fd, act)) ++ entries, ?_, ?_⟩
    · intro other
      by_cases same : fd = other
      · subst other
        have flushed := flush_flushed (loop.note fd read.acts) outcome fd
          read.conn
        rw [noted] at flushed
        exact .single (.flushed isOpen taken admits flushed)
      · rw [flush_other _ _ same, EventLoop.session_note_other _ same]
    · rw [grown]
      exact List.append_assoc _ _ _
    · have both := records.append silent
      rwa [List.append_nil] at both
  · refine ⟨?_, (read.acts.map fun act => (fd, act)) ++ [(fd, .closed)], ?_, ?_⟩
    · intro other
      by_cases same : fd = other
      · subst other
        rw [EventLoop.session_closeConnection_self, noted]
        exact .single (.closed isOpen taken)
      · rw [EventLoop.session_closeConnection_other _ same,
          EventLoop.session_note_other _ same]
    · exact List.append_assoc _ _ _
    · have both := records.append (.closed fd)
      rwa [List.append_nil] at both

open Task in
theorem dispatchTask_ensures (anyReads : ∀ conn recvs, kernel.reads conn recvs)
    {afterRead onWritable : FlushOutcome} (admitsRead : kernel.flushes afterRead)
    (admitsWrite : kernel.flushes onWritable) (loop : EventLoop) (fd : Fd)
    (bits : Ready) (recvs : List RecvOutcome) :
    Ensures (loop.dispatchTask fd bits recvs afterRead onWritable)
      (Handles cfg kernel loop) := by
  unfold EventLoop.dispatchTask
  split
  · exact .done (.refl loop)
  · split
    · exact .done (.refl loop)
    · rename_i conn isOpen
      split
      · exact .done (close_handles isOpen)
      · have readable : Ensures
            (if bits.input then loop.handleReadableTask recvs afterRead fd conn
            else .done (true, loop))
            fun exchanges read => Handles cfg kernel loop exchanges read.2 := by
          split
          · refine Ensures.bind (readTask_ensures fd recvs 0 conn []) ?_
            intro exchanges read like
            apply Ensures.done
            rw [List.append_nil]
            exact readable_handles anyReads isOpen admitsRead like
          · exact .done (.refl loop)
        refine Ensures.bind readable ?_
        intro exchanges read handles
        apply Ensures.done
        refine handles.trans ?_
        split
        · split
          · exact .refl _
          · rename_i found
            exact flush_handles found admitsWrite
        · exact .refl _

/-- The flushes of the event are among those considered. -/
def Event.Flushes (kernel : Kernel) : Event → Prop
  | .ready _ _ _ afterRead onWritable =>
      kernel.flushes afterRead ∧ kernel.flushes onWritable
  | _ => True

open Task in
theorem eventTask_ensures (anyReads : ∀ conn recvs, kernel.reads conn recvs)
    (ticks : Bool) (loop : EventLoop) {event : Event}
    (flushes : event.Flushes kernel) :
    Ensures (loop.eventTask cfg ticks event) (Handles cfg kernel loop) := by
  unfold EventLoop.eventTask
  split
  · exact .done (.refl loop)
  · cases event with
    | wait =>
        apply Ensures.call
        intro stop
        apply Ensures.done
        cases stop with
        | true =>
            exact ⟨fun _ => .single .exited, [], (List.append_nil _).symm,
              .polled true .nil⟩
        | false =>
            exact ⟨fun _ => .refl, [], (List.append_nil _).symm,
              .polled false .nil⟩
    | listener accepts => exact .done (accept_handles accepts loop)
    | ready fd bits recvs afterRead onWritable =>
        exact dispatchTask_ensures anyReads flushes.1 flushes.2 loop fd bits
          recvs
    | tick =>
        dsimp only
        split
        · apply Ensures.call
          intro _
          apply Ensures.done
          exact ⟨fun _ => .refl, [], (List.append_nil _).symm, .ticked .nil⟩
        · exact .done (.refl loop)

open Task in
theorem loopTask_ensures (anyReads : ∀ conn recvs, kernel.reads conn recvs)
    (ticks : Bool) (loop : EventLoop) (events : List Event)
    (flushes : ∀ event ∈ events, event.Flushes kernel) :
    Ensures (EventLoop.loopTask cfg ticks loop events)
      (Handles cfg kernel loop) := by
  induction events generalizing loop with
  | nil => exact .done (.refl loop)
  | cons event events induction =>
      obtain ⟨first, rest⟩ := List.forall_mem_cons.mp flushes
      refine Ensures.bind (eventTask_ensures anyReads ticks loop first) ?_
      intro exchanges next handles
      refine Ensures.weaken (induction next rest) ?_
      intro later final laterHandles
      exact handles.trans laterHandles

end Moves

/-! ## All threads -/

/-- One thread for each list of events.  The first one runs the periodic
callbacks. -/
def reactorTasks (cfg : Config) (scripts : List (List Event)) :
    List (Task Call Call.Answer EventLoop) :=
  scripts.mapIdx fun position events =>
    EventLoop.loopTask cfg (position == 0) EventLoop.fresh events

/-- The threads after the calls of this schedule. -/
def runReactors (handler : Handler App) (cfg : Config) (app : App)
    (scripts : List (List Event)) (schedule : List Nat) :
    Threads (Shared App) Call Call.Answer EventLoop :=
  (Threads.start ⟨app, false⟩ (reactorTasks cfg scripts)).run
    (Shared.perform handler) schedule

theorem runReactors_sequential (handler : Handler App) (cfg : Config)
    (app : App) (scripts : List (List Event)) (schedule : List Nat) :
    Performs (Shared.perform handler) ⟨app, false⟩
      ((runReactors handler cfg app scripts schedule).history.map Prod.snd)
      (runReactors handler cfg app scripts schedule).object :=
  (Threads.run_explained _ _ _ schedule).sequential

/-- Every thread has followed the task of its events. -/
theorem runReactors_follows (handler : Handler App) (cfg : Config) (app : App)
    {scripts : List (List Event)} {schedule : List Nat} {position : Nat}
    {task : Task Call Call.Answer EventLoop}
    (isTask : (runReactors handler cfg app scripts schedule).tasks[position]? =
      some task) :
    ∃ events ∈ scripts, (EventLoop.loopTask cfg (position == 0) EventLoop.fresh
      events).Reaches (exchangesOf position
        (runReactors handler cfg app scripts schedule).history) task := by
  obtain ⟨first, isFirst, reaches⟩ := (Threads.run_explained
    (Shared.perform handler) ⟨app, false⟩ (reactorTasks cfg scripts)
    schedule).follows position task isTask
  rw [reactorTasks, List.getElem?_mapIdx] at isFirst
  obtain ⟨events, isScript, rfl⟩ := Option.map_eq_some_iff.mp isFirst
  exact ⟨events, List.mem_of_getElem? isScript, reaches⟩

/-- A thread that has handled its events has served its connections like a
reactor that got the replies of its own part of the history. -/
theorem runReactors_handles (handler : Handler App) (cfg : Config) (app : App)
    {kernel : Kernel} (anyReads : ∀ conn recvs, kernel.reads conn recvs)
    {scripts : List (List Event)}
    (flushes : ∀ events ∈ scripts, ∀ event ∈ events, event.Flushes kernel)
    (schedule : List Nat) {position : Nat} {loop : EventLoop}
    (finished : (runReactors handler cfg app scripts schedule).tasks[position]? =
      some (.done loop)) :
    Handles cfg kernel EventLoop.fresh
      (exchangesOf position
        (runReactors handler cfg app scripts schedule).history) loop := by
  obtain ⟨events, member, reaches⟩ := runReactors_follows handler cfg app finished
  exact loopTask_ensures anyReads _ _ events (flushes events member) _ _ reaches

end HermitDb.Net
