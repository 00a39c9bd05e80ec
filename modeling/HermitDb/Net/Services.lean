import HermitDb.Core.Lives
import HermitDb.Net.Durability

/-!
# The server from start to start

The process starts up, its reactor threads serve clients until it exits, is
killed or crashes, and it is started again on what is left.  Whatever the
schedules, each such service is a life of the sequential server with the same
start, the same end and the same files.  So what is known of lives holds of
services, and the replies the clients got can be followed through the restarts.
-/

namespace HermitDb.Net

open Library Persist Protocol Util
open Core (World Walk Server Life Chapter Ending Remains BootCalls BootError
  DataDir Baseline ReadsFrom boot live misconf)

/-- What a start of the process meets, and what its threads do until the end. -/
structure Service where
  recovery : World
  walk : Walk
  calls : BootCalls
  around : Surroundings
  scripts : List (List Event)
  schedule : List Nat
  ending : Ending

/-- A service that got past its start-up, and what passed between the threads
and the dispatcher. -/
structure Episode where
  chapter : Chapter
  around : Surroundings
  process : Process
  history : List (Nat × Exchange Call Call.Answer)

/-- One service on a data directory.  The reads are of the log that is there. -/
inductive Service.Runs (order : ByteOrder) (cfg : Config) (dir : DataDir)
    (service : Service) : Except BootError Episode → DataDir → Prop where
  | failed {error : BootError} {next : DataDir}
      (reads : ReadsFrom dir.log.bytes service.calls.reads)
      (booting : boot order cfg service.recovery service.walk service.calls dir =
        .ok (.error error, next)) :
      Runs order cfg dir service (.error error) next
  | ran {process : Process} {opened : DataDir} {remains : Remains}
      {threads : Threads (Shared Process) Call Call.Answer EventLoop}
      (reads : ReadsFrom dir.log.bytes service.calls.reads)
      (booting : boot order cfg service.recovery service.walk service.calls dir =
        .ok (.ok process.server, opened))
      (isThreads : runReactors (Process.handler service.around) cfg process
        service.scripts service.schedule = threads)
      (ended : threads.object.app.server.remains service.around.world
        service.ending = .ok remains) :
      Runs order cfg dir service
        (.ok ⟨⟨process.server, threads.object.app.server, service.ending, remains⟩,
          service.around, process, threads.history⟩)
        (if cfg.persistence = none then opened
          else { opened with
            log := .present remains.file
            synced := remains.synced })

/-! ## Services are lives -/

/-- The life with these events between the start and the end. -/
def Service.asLife (service : Service) (events : List Core.Event) : Life :=
  ⟨service.recovery, service.walk, service.calls, service.around.world, events,
    service.ending⟩

/-- The life has the start and the end of the service, and between them the
commands its threads executed, in the order of the lock and with the same
replies. -/
def Service.LivesAs (entry : Service × Except BootError Episode) (life : Life) :
    Prop :=
  ∃ events, life = entry.1.asLife events ∧ ∀ episode, entry.2 = .ok episode →
    ∃ outputs, RunsAs episode.around.world episode.chapter.booted
      (episode.history.map Prod.snd) episode.chapter.final events outputs

section Lives

variable {order : ByteOrder} {cfg : Config} {dir next : DataDir}
  {service : Service} {outcome : Except BootError Episode}

theorem Service.Runs.lives (runs : service.Runs order cfg dir outcome next) :
    ∃ life, live order cfg dir life = .ok (outcome.map Episode.chapter, next) ∧
      Service.LivesAs (service, outcome) life := by
  cases runs with
  | failed _ booting =>
      refine ⟨service.asLife [], ?_, [], rfl, ?_⟩
      · simp only [live, Service.asLife, booting]
        rfl
      · rintro episode ⟨⟩
  | @ran process opened remains threads _ booting isThreads ended =>
      subst isThreads
      obtain ⟨events, outputs, runsAs⟩ := performs_runsAs service.around
        (runReactors_sequential _ cfg process service.scripts service.schedule)
      refine ⟨service.asLife events, ?_, events, rfl, ?_⟩
      · simp only [live, Service.asLife, booting, runsAs.ran, ended]
        rfl
      · rintro episode ⟨⟩
        exact ⟨outputs, runsAs⟩

end Lives

/-- Services are lives.  Any sequence of services, with any schedules, is a
sequence of lives of the sequential server: start-ups fail or succeed alike, the
servers start and end alike, the data directory is left alike, and every command
was answered as the life answers it. -/
theorem services_are_lives (order : ByteOrder) (cfg : Config)
    {dir final : DataDir} {services : List Service}
    {outcomes : List (Except BootError Episode)}
    (served : Traces (fun dir service => service.Runs order cfg dir) dir services
      outcomes final) :
    ∃ lives, runAll (live order cfg) dir lives =
        .ok (outcomes.map (Except.map Episode.chapter), final) ∧
      List.Forall₂ Service.LivesAs (services.zip outcomes) lives := by
  induction served with
  | nil dir => exact ⟨[], rfl, .nil⟩
  | cons first rest induction =>
      obtain ⟨life, lived, livesAs⟩ := first.lives
      obtain ⟨lives, livedOn, others⟩ := induction
      refine ⟨life :: lives, ?_, .cons livesAs others⟩
      rw [runAll_cons lived, livedOn]
      rfl

/-- Every append is synced. -/
def alwaysSynced : Config :=
  { Config.initial with walEnabled := true, fsync := some .always }

/-- What a crash three bytes into the record of a `DEL` leaves of the log. -/
def tornLog : Bytes :=
  encode [ascii "SET", ascii "a", ascii "1"] ++ ascii "*2\r"

def tornRemains : Remains :=
  ⟨tornLog, 27, [[ascii "SET", ascii "a", ascii "1"],
    [ascii "DEL", ascii "a"]]⟩

def tornDir : DataDir :=
  { DataDir.fresh .missing with log := .present tornLog, synced := 27 }

/-- The two clients until that crash. -/
def Service.crashing (walk : Walk) : Service :=
  { recovery := .frozen 0
    walk := walk
    calls := .working []
    around := idleSurroundings walk
    scripts := twoClients
    schedule := [1, 0, 0, 1]
    ending := .crashed (.command walk [ascii "DEL", ascii "a"]) 30 }

def crashingThreads (walk : Walk) :
    Threads (Shared Process) Call Call.Answer EventLoop :=
  runReactors (Process.handler (idleSurroundings walk)) alwaysSynced
    (Process.fresh (some (Wal.fresh .always))) twoClients [1, 0, 0, 1]

def Episode.crashing (walk : Walk) : Episode :=
  { chapter :=
      { booted := Server.fresh (some (Wal.fresh .always))
        final := (crashingThreads walk).object.app.server
        ending := (Service.crashing walk).ending
        remains := tornRemains }
    around := idleSurroundings walk
    process := Process.fresh (some (Wal.fresh .always))
    history := (crashingThreads walk).history }

private theorem crashing_boots (walk : Walk) :
    boot .little alwaysSynced (.frozen 0) walk (.working [])
      (DataDir.fresh .missing) =
      .ok (.ok (Server.fresh (some (Wal.fresh .always))),
        { DataDir.fresh .missing with log := .present [] }) := by
  rfl

/-- The keyspace and the log when it crashes. -/
def crashingServer : Server :=
  { memory := ⟨Core.Db.empty.set (ascii "a") (ascii "1"),
      Core.ExpiryManager.empty, 0⟩
    dispatcher := .fresh (some
      { Wal.fresh .always with
        file := encode [ascii "SET", ascii "a", ascii "1"]
        synced := 27
        appendCalls := 1
        fsyncCalls := 1
        records := [[ascii "SET", ascii "a", ascii "1"]] }) }

set_option maxRecDepth 4000 in
private theorem crashingThreads_server (walk : Walk) :
    (crashingThreads walk).object.app.server = crashingServer := by
  rfl

private theorem crashing_remains (walk : Walk) :
    (crashingThreads walk).object.app.server.remains (.frozen 0)
      (Service.crashing walk).ending = .ok tornRemains := by
  rw [crashingThreads_server]
  rfl

theorem crashing_runs (walk : Walk) :
    (Service.crashing walk).Runs .little alwaysSynced (DataDir.fresh .missing)
      (.ok (.crashing walk)) tornDir := by
  have runs := @Service.Runs.ran .little alwaysSynced _ (Service.crashing walk)
    (Process.fresh (some (Wal.fresh .always))) _ _ (crashingThreads walk)
    (.inl ⟨[], .nil, rfl⟩) (crashing_boots walk) rfl (crashing_remains walk)
  exact runs

/-- A start-up that cannot make the data directory, and the service that
crashes. -/
theorem services_are_lives_crashing :
    let unmade := { Service.crashing .arbitrary with
      calls := { BootCalls.working [] with creates := false } }
    ∃ lives, runAll (live .little alwaysSynced) (DataDir.fresh .missing) lives =
        .ok ([.error .dataDir, .ok (Episode.crashing .arbitrary).chapter],
          tornDir) ∧
      List.Forall₂ Service.LivesAs
        [(unmade, .error .dataDir),
          (.crashing .arbitrary, .ok (.crashing .arbitrary))] lives := by
  intro unmade
  have failed : unmade.Runs .little alwaysSynced (DataDir.fresh .missing)
      (.error .dataDir) (DataDir.fresh .missing) :=
    .failed (.inl ⟨[], .nil, rfl⟩) rfl
  exact services_are_lives .little alwaysSynced
    (.cons failed (.cons (crashing_runs .arbitrary) (.nil _)))

/-! ## Answers that last -/

namespace Episode

/-- The server as it was when a client had been given an answer. -/
def Answered (episode : Episode) (server : Server) : Prop :=
  ∃ before position fd cmd reply after shared,
    episode.history = before ++ (position, ⟨.execute fd cmd, reply⟩) :: after ∧
    reply ≠ misconf ∧
    Performs (Shared.perform (Process.handler episode.around))
      ⟨episode.process, false⟩
      (before.map Prod.snd ++ [⟨.execute fd cmd, reply⟩]) shared ∧
    shared.app.server = server

/-- Every command fits a record. -/
structure Fits (episode : Episode) : Prop where
  executed : ∀ entry ∈ episode.history, ∀ cmd reply,
    execution entry.2 = some (cmd, reply) → Admissible kReplayFrameCap cmd
  ending : ∀ walk cmd, .command walk cmd ∈ episode.chapter.ending.events →
    Admissible kReplayFrameCap cmd

/-- What was logged up to an answer is synced at the end, if the answer had
anything logged since the start. -/
def Durable (episode : Episode) : Prop :=
  ∀ server, episode.Answered server →
    server.records ≠ episode.chapter.replayed →
    server.records <+: episode.chapter.durable

/-- What was logged up to an answer is there after a later start. -/
def Outlives (earlier later : Episode) : Prop :=
  ∀ server, earlier.Answered server →
    server.records ≠ earlier.chapter.replayed →
    server.records <+: later.chapter.replayed

end Episode

/-- The commands of a run are among those of the exchanges. -/
theorem RunsAs.admissible {world : World} {start final : Server}
    {exchanges : List (Exchange Call Call.Answer)} {events : List Core.Event}
    {outputs : List (Option Bytes)}
    (runs : RunsAs world start exchanges final events outputs)
    (executed : ∀ exchange ∈ exchanges, ∀ cmd reply,
      execution exchange = some (cmd, reply) → Admissible kReplayFrameCap cmd) :
    ∀ walk cmd, .command walk cmd ∈ events →
      Admissible kReplayFrameCap cmd := by
  intro walk cmd member
  have listed : cmd ∈ events.filterMap commandOf :=
    List.mem_filterMap.mpr ⟨_, member, rfl⟩
  rw [runs.commands] at listed
  obtain ⟨⟨_, reply⟩, isExecution, rfl⟩ := List.mem_map.mp listed
  obtain ⟨exchange, isExchange, executes⟩ := List.mem_filterMap.mp isExecution
  exact executed exchange isExchange _ reply executes

section Durable

variable {order : ByteOrder} {cfg : Config} {dir next : DataDir}
  {service : Service} {records : List Command} {floor : Nat}

/-- The threads take a server that continues a log to one that does. -/
theorem performs_serves {around : Surroundings} {process : Process} {stop : Bool}
    {policy : FsyncPolicy} {exchanges : List (Exchange Call Call.Answer)}
    {shared : Shared Process}
    (performs : Performs (Shared.perform (Process.handler around))
      ⟨process, stop⟩ exchanges shared)
    (serves : process.server.Serves policy records floor)
    (executed : ∀ exchange ∈ exchanges, ∀ cmd reply,
      execution exchange = some (cmd, reply) → Admissible kReplayFrameCap cmd) :
    shared.app.server.Serves policy records floor := by
  obtain ⟨events, outputs, runs⟩ := performs_runsAs around performs
  obtain ⟨_, final, ran, finalServes⟩ := serves.run
    (Core.eachStep_of_admissible around.world (runs.admissible executed)
      process.server)
  have both := ran.symm.trans runs.ran
  cases both
  exact finalServes

/-- The log is synced up to an answer when it is given, and stays so. -/
theorem durable_of_serves {episode : Episode} {shared : Shared Process}
    (serves : episode.process.server.Serves .always records floor)
    (sameRecords : episode.chapter.replayed = records)
    (performs : Performs (Shared.perform (Process.handler episode.around))
      ⟨episode.process, false⟩ (episode.history.map Prod.snd) shared)
    (isFinal : shared.app.server = episode.chapter.final)
    (ended : episode.chapter.final.remains episode.around.world
      episode.chapter.ending = .ok episode.chapter.remains)
    (fits : episode.Fits) : episode.Durable := by
  rintro _ ⟨before, position, fd, cmd, reply, after, middle, isHistory, answer,
    atReply, rfl⟩ added
  have executed : ∀ exchange ∈ episode.history.map Prod.snd, ∀ cmd reply,
      execution exchange = some (cmd, reply) →
        Admissible kReplayFrameCap cmd := by
    intro exchange member
    obtain ⟨entry, isEntry, rfl⟩ := List.mem_map.mp member
    exact fits.executed entry isEntry
  have isAll : episode.history.map Prod.snd =
      (before.map Prod.snd ++ [⟨.execute fd cmd, reply⟩]) ++
        after.map Prod.snd := by
    rw [isHistory, List.map_append, List.map_cons, List.append_assoc,
      List.singleton_append]
  rw [isAll] at performs executed
  have middleServes := performs_serves atReply serves fun exchange member =>
    executed exchange (List.mem_append_left _ member)
  obtain ⟨other, atOther, since⟩ := performs.split
  obtain rfl := atReply.unique atOther
  obtain ⟨wal, attached⟩ := middleServes.extended.attached
  rw [sameRecords] at added
  have synced := middleServes.synced rfl (performs_healthy _ atReply answer)
    added attached
  -- From here on the records up to the answer are what the service continues.
  have finalServes := performs_serves since (middleServes.rebase attached)
    fun exchange member => executed exchange (List.mem_append_right _ member)
  rw [isFinal] at finalServes
  obtain ⟨remains, survivors, endedAgain, left⟩ := finalServes.remains
    (Core.eachStep_of_admissible episode.around.world fits.ending
      episode.chapter.final)
  have sameRemains := ended.symm.trans endedAgain
  cases sameRemains
  rw [Server.records_of_attached attached]
  exact left.durable_of_serves finalServes synced

variable {snapshot : LogFile}

/-- A start-up that fails loses nothing. -/
theorem Service.Runs.keeps_of_error (persistent : cfg.persistence = some .always)
    (baseline : Baseline order cfg snapshot) (keeps : dir.Keeps snapshot records)
    {error : BootError} (runs : service.Runs order cfg dir (.error error) next) :
    next.Keeps snapshot records ∧
      next.durable records = dir.durable records := by
  cases runs with
  | failed reads booting =>
      obtain ⟨outcome, after, bootingAgain, afterKeeps, sameDurable, _⟩ :=
        Core.boot_cases persistent baseline service.recovery service.walk keeps
          reads
      have both := booting.symm.trans bootingAgain
      cases both
      exact ⟨afterKeeps, sameDurable⟩

theorem Service.Runs.durable (persistent : cfg.persistence = some .always)
    (baseline : Baseline order cfg snapshot) (keeps : dir.Keeps snapshot records)
    {episode : Episode} (runs : service.Runs order cfg dir (.ok episode) next)
    (fits : episode.Fits) : episode.Durable := by
  cases runs with
  | @ran process opened remains threads reads booting isThreads ended =>
      subst isThreads
      obtain ⟨outcome, after, bootingAgain, _, _, started⟩ :=
        Core.boot_cases persistent baseline service.recovery service.walk keeps
          reads
      have both := booting.symm.trans bootingAgain
      cases both
      obtain ⟨_, _, ⟨⟩⟩ | ⟨booted, isBooted, sameRecords, serves⟩ := started
      cases isBooted
      exact durable_of_serves serves sameRecords
        (runReactors_sequential _ cfg process service.scripts service.schedule)
        rfl ended fits

/-- As a life, a service goes on from the records it finds. -/
theorem Service.Runs.continues (persistent : cfg.persistence = some .always)
    (baseline : Baseline order cfg snapshot) (keeps : dir.Keeps snapshot records)
    {episode : Episode} (runs : service.Runs order cfg dir (.ok episode) next)
    (fits : episode.Fits) :
    ∃ survivors, episode.chapter.replayed = records ∧
      dir.durable records <+: episode.chapter.durable ∧
      next.Keeps snapshot survivors ∧
      next.durable survivors = episode.chapter.durable := by
  obtain ⟨_, lived, events, rfl, runsAs⟩ := runs.lives
  obtain ⟨outputs, ran⟩ := runsAs episode rfl
  have sound : (service.asLife events).Sound order cfg dir := by
    cases runs with
    | ran reads _ _ _ =>
        refine ⟨reads, fun booted _ _ =>
          Core.eachStep_of_admissible _ ?_ booted⟩
        intro walk cmd member
        obtain isEvent | isEnding := List.mem_append.mp member
        · apply ran.admissible _ walk cmd isEvent
          intro exchange isExchange
          obtain ⟨entry, isEntry, rfl⟩ := List.mem_map.mp isExchange
          exact fits.executed entry isEntry
        · exact fits.ending walk cmd isEnding
  obtain ⟨outcome, after, livedAgain, left⟩ :=
    Core.live_cases persistent baseline keeps sound
  have both := lived.symm.trans livedAgain
  cases both
  obtain ⟨_, ⟨_, ⟨⟩⟩, _⟩ | ⟨chapter, survivors, isChapter, _, replayed, longer,
    nextKeeps, same, _⟩ := left
  cases isChapter
  exact ⟨survivors, replayed, longer, nextKeeps, same⟩

/-- What is durable before some services is there at each of their starts. -/
theorem outlives_of_served (persistent : cfg.persistence = some .always)
    (baseline : Baseline order cfg snapshot) {services : List Service}
    {outcomes : List (Except BootError Episode)}
    (served : Traces (fun dir service => service.Runs order cfg dir) dir services
      outcomes next)
    (keeps : dir.Keeps snapshot records)
    (fits : ∀ episode ∈ outcomes.filterMap Except.toOption, episode.Fits) :
    (∀ episode ∈ outcomes.filterMap Except.toOption,
        dir.durable records <+: episode.chapter.replayed) ∧
      (outcomes.filterMap Except.toOption).Pairwise Episode.Outlives := by
  induction served generalizing records with
  | nil => exact ⟨List.forall_mem_nil _, .nil⟩
  | @cons dir after final service outcome services outcomes first rest induction =>
      cases outcome with
      | error error =>
          obtain ⟨afterKeeps, sameDurable⟩ :=
            first.keeps_of_error persistent baseline keeps
          rw [← sameDurable]
          exact induction afterKeeps fits
      | ok episode =>
          obtain ⟨episodeFits, restFits⟩ := List.forall_mem_cons.mp fits
          have durable := first.durable persistent baseline keeps episodeFits
          obtain ⟨survivors, replayed, longer, afterKeeps, left⟩ :=
            first.continues persistent baseline keeps episodeFits
          obtain ⟨kept, others⟩ := induction afterKeeps restFits
          rw [left] at kept
          constructor
          · refine List.forall_mem_cons.mpr ⟨?_, ?_⟩
            · rw [replayed]
              exact prefix_wholeItems _ _ _
            · intro later isLater
              exact longer.trans (kept later isLater)
          · refine List.pairwise_cons.mpr ⟨?_, others⟩
            intro later isLater server answered added
            exact (durable server answered added).trans (kept later isLater)

end Durable

/-- Answers last.  If every append is synced, then over any services with any
schedules and any ends, whatever had been logged when a client was answered is
replayed by every later start-up that succeeds. -/
theorem replies_survive_restarts (order : ByteOrder) {cfg : Config}
    {snapshot : LogFile} (persistent : cfg.persistence = some .always)
    (baseline : Baseline order cfg snapshot) {services : List Service}
    {outcomes : List (Except BootError Episode)} {final : DataDir}
    (served : Traces (fun dir service => service.Runs order cfg dir)
      (DataDir.fresh snapshot) services outcomes final)
    (fits : ∀ episode ∈ outcomes.filterMap Except.toOption, episode.Fits) :
    (outcomes.filterMap Except.toOption).Pairwise Episode.Outlives := by
  obtain ⟨_, outlives⟩ := outlives_of_served persistent baseline served
    (DataDir.fresh_keeps snapshot) fits
  exact outlives

theorem alwaysSynced_baseline : Baseline .little alwaysSynced .missing := by
  refine ⟨.empty, rfl, Core.Memory.fresh_wf, ?_⟩
  intro key present
  exact absurd rfl present

set_option maxRecDepth 4000 in
private theorem crashing_history (walk : Walk) :
    (Episode.crashing walk).history =
      [] ++ (1, ⟨.execute 6 [ascii "SET", ascii "a", ascii "1"],
        Resp.simple (ascii "OK")⟩) ::
      [(0, ⟨.execute 5 [ascii "GET", ascii "a"], ascii "$1\r\n1\r\n"⟩),
        (0, ⟨.stopRequested, false⟩), (1, ⟨.stopRequested, false⟩)] := by
  rfl

theorem crashing_answered (walk : Walk) :
    ∃ server, (Episode.crashing walk).Answered server ∧
      server.records = [[ascii "SET", ascii "a", ascii "1"]] := by
  have start : Performs (Shared.perform (Process.handler (idleSurroundings walk)))
      ⟨Process.fresh (some (Wal.fresh .always)), false⟩ [] _ := .nil _
  have performs := start.concat
    (.execute 6 [ascii "SET", ascii "a", ascii "1"])
  refine ⟨_, ⟨[], _, _, _, _, _, _, crashing_history walk, ?_, performs, rfl⟩,
    rfl⟩
  decide

theorem crashing_fits (walk : Walk) : (Episode.crashing walk).Fits := by
  constructor
  · intro entry member cmd reply executes
    rw [crashing_history] at member
    simp only [List.nil_append, List.mem_cons, List.not_mem_nil, or_false]
      at member
    obtain rfl | rfl | rfl | rfl := member
    · cases executes
      exact ⟨by decide, by decide, by decide⟩
    · cases executes
      exact ⟨by decide, by decide, by decide⟩
    · cases executes
    · cases executes
  · simp only [Episode.crashing, Service.crashing, Ending.events,
      List.mem_singleton, Core.Event.command.injEq]
    rintro other cmd ⟨_, rfl⟩
    exact ⟨by decide, by decide, by decide⟩

/-- The start on the torn log, and a kill. -/
def Service.restarted (walk : Walk) : Service :=
  { recovery := .frozen 0
    walk := walk
    calls := .working [.data tornLog]
    around := idleSurroundings walk
    scripts := []
    schedule := []
    ending := .killed }

theorem restarted_runs (walk : Walk) :
    ∃ episode final, (Service.restarted walk).Runs .little alwaysSynced tornDir
      (.ok episode) final ∧ episode.Fits := by
  obtain ⟨survivors, _, _, keeps, _⟩ := (crashing_runs walk).continues rfl
    alwaysSynced_baseline (DataDir.fresh_keeps _) (crashing_fits walk)
  have succeed : (BootCalls.working [.data tornLog]).Succeed :=
    ⟨rfl, rfl, by decide, rfl, rfl⟩
  have reads : ReadsFrom tornDir.log.bytes (Service.restarted walk).calls.reads :=
    .inl ⟨[tornLog], .data (by decide) .nil, rfl⟩
  obtain ⟨outcome, next, booting, _, _, ⟨failed, _⟩ | ⟨booted, rfl, _, serves⟩⟩ :=
    Core.boot_cases rfl alwaysSynced_baseline (.frozen 0) walk keeps reads
  · exact absurd succeed failed
  · have runs := @Service.Runs.ran .little alwaysSynced _ (.restarted walk)
      ⟨booted, 0, serves.wf⟩ _ _ _ reads booting rfl rfl
    refine ⟨_, _, runs, List.forall_mem_nil _, ?_⟩
    intro other cmd member
    cases member

/-- The `SET` was answered before the crash, and is there after it. -/
theorem replies_survive_restarts_crashing :
    ∃ (later : Episode) (final : DataDir), Traces
        (fun dir (service : Service) => service.Runs .little alwaysSynced dir)
        (DataDir.fresh .missing)
        [.crashing .arbitrary, .restarted .arbitrary]
        [.ok (.crashing .arbitrary), .ok later] final ∧
      [[ascii "SET", ascii "a", ascii "1"]] <+: later.chapter.replayed := by
  obtain ⟨later, final, restarted, laterFits⟩ := restarted_runs .arbitrary
  obtain ⟨server, answered, sameRecords⟩ := crashing_answered .arbitrary
  have served := Traces.cons (crashing_runs .arbitrary)
    (.cons restarted (.nil final))
  refine ⟨later, final, served, ?_⟩
  have outlives := replies_survive_restarts .little rfl alwaysSynced_baseline
    served (List.forall_mem_cons.mpr ⟨crashing_fits .arbitrary,
      List.forall_mem_cons.mpr ⟨laterFits, List.forall_mem_nil _⟩⟩)
  have first := (List.pairwise_cons.mp outlives).1 later
    (List.mem_singleton_self later) server answered
  rw [sameRecords] at first
  apply first
  decide

end HermitDb.Net
