import HermitDb.Persist.CanonicalFrames

/-!
# Torn-tail recovery

A crash leaves some byte prefix of the log.  Replay returns the records wholly
inside it and cuts the file back to exactly those, so that the next append
starts on a record boundary.
-/

namespace HermitDb.Persist

open Protocol Library
open Protocol.RespParser (feedAll commandsOf)

/-- The reads return these chunks, none of them empty, up to the end of the
file; interrupted calls in between are retried. -/
inductive Delivers : List ReadOutcome → List Bytes → Prop where
  | nil : Delivers [] []
  | interrupted {reads : List ReadOutcome} {chunks : List Bytes} :
      Delivers reads chunks → Delivers (.interrupted :: reads) chunks
  | data {chunk : Bytes} {reads : List ReadOutcome} {chunks : List Bytes} :
      chunk ≠ [] → Delivers reads chunks →
      Delivers (.data chunk :: reads) (chunk :: chunks)

theorem scan_of_feedAll_ok {parser : RespParser} {reads : List ReadOutcome}
    {chunks : List Bytes} (delivers : Delivers reads chunks)
    (succeeds : ∀ result ∈ (parser.feedAll chunks).1, result.status = .ok) :
    scan parser reads =
      { delivered := commandsOf (parser.feedAll chunks).1
        goodBytes := (encodeAll (commandsOf (parser.feedAll chunks).1)).length
        totalBytes := chunks.flatten.length
        stop := .endOfFile } := by
  induction delivers generalizing parser with
  | nil => rfl
  | interrupted delivers induction => exact induction succeeds
  | @data chunk reads chunks present delivers induction =>
      simp only [feedAll, List.mem_cons, forall_eq_or_imp] at succeeds
      have nonempty : chunk.isEmpty = false := by simpa using present
      simp only [scan, nonempty, Bool.false_eq_true, if_false, succeeds.1, ne_eq,
        not_true, induction succeeds.2, feedAll, commandsOf, List.flatMap_cons,
        encodeAll_append, List.length_append, List.flatten_cons]

theorem kReplayFrameCap_low : 2 ^ 20 ≤ kReplayFrameCap := by
  decide

theorem kReplayFrameCap_high : kReplayFrameCap < 2 ^ 63 := by
  decide

/-- The replay loop on any prefix of a log, in any chunks. -/
theorem scan_cut {commands : List Command}
    (admissible : ∀ command ∈ commands, Admissible kReplayFrameCap command)
    {file : Bytes} (cut : file <+: encodeAll commands)
    {reads : List ReadOutcome} {chunks : List Bytes}
    (delivers : Delivers reads chunks) (whole : chunks.flatten = file) :
    scan (RespParser.fresh kReplayFrameCap) reads =
      { delivered := wholeItems encode commands file.length
        goodBytes := (encodeAll (wholeItems encode commands file.length)).length
        totalBytes := file.length
        stop := .endOfFile } := by
  have feeds : ∀ part, part <+: encodeAll commands →
      ((RespParser.fresh kReplayFrameCap).feed part).1 =
        ⟨.ok, wholeItems encode commands part.length, []⟩ :=
    fun _ partCut =>
      feed_cut kReplayFrameCap_low kReplayFrameCap_high admissible partCut
  have succeeds : ∀ result ∈
      ((RespParser.fresh kReplayFrameCap).feedAll chunks).1,
      result.status = .ok := by
    apply RespParser.feedAll_ok_of_prefixes
    intro part isPrefix
    apply (RespParser.feed_status_ok_iff _ _).mp
    rw [feeds part ((whole ▸ isPrefix).trans cut)]
  have delivered : commandsOf
      ((RespParser.fresh kReplayFrameCap).feedAll chunks).1 =
        wholeItems encode commands file.length := by
    have drained := (RespParser.feeds_of_feedAll_ok succeeds).drain_eq
      (RespParser.round_fresh kReplayFrameCap)
    rw [whole, RespParser.drain_of_feed_ok (by rw [feeds file cut]),
      feeds file cut] at drained
    exact (congrArg Drained.output drained).symm
  rw [scan_of_feedAll_ok delivers succeeds, whole, delivered]

/-- Replay of any prefix of a log succeeds.  It delivers the records wholly
inside the prefix and cuts the file back to them. -/
theorem replay_cut {commands : List Command}
    (admissible : ∀ command ∈ commands, Admissible kReplayFrameCap command)
    {file : Bytes} (cut : file <+: encodeAll commands)
    {reads : List ReadOutcome} {chunks : List Bytes}
    (delivers : Delivers reads chunks) (whole : chunks.flatten = file) :
    let survivors := wholeItems encode commands file.length
    replay (.present file) reads true =
      ⟨.ok, survivors, .present (encodeAll survivors)⟩ := by
  intro survivors
  obtain ⟨tail, shape, -⟩ := prefix_flatMap cut
  change file = encodeAll survivors ++ tail at shape
  have scanned : scan (RespParser.fresh kReplayFrameCap) reads =
      ⟨survivors, (encodeAll survivors).length, file.length, .endOfFile⟩ :=
    scan_cut admissible cut delivers whole
  simp only [replay, scanned]
  have kept : file.take (encodeAll survivors).length = encodeAll survivors := by
    conv => lhs; rw [shape]
    exact List.take_left
  split
  · rw [if_pos trivial, kept]
  · rename_i complete
    have lengths := congrArg List.length shape
    rw [List.length_append] at lengths
    have noTail : tail = [] :=
      List.length_eq_zero_iff.mp (by omega)
    rw [noTail, List.append_nil] at shape
    rw [← shape]

/-- Torn-tail recovery is exact.  From any prefix of a log of admissible
records, read in any chunks, replay delivers the records wholly inside the
prefix and leaves exactly their encodings; further records appended after that
come back behind them. -/
theorem replay_torn_tail (commands : List Command)
    (admissible : ∀ command ∈ commands, Admissible kReplayFrameCap command)
    (file : Bytes) (cut : file <+: encodeAll commands)
    (reads : List ReadOutcome) (chunks : List Bytes)
    (delivers : Delivers reads chunks) (whole : chunks.flatten = file) :
    let survivors := wholeItems encode commands file.length
    replay (.present file) reads true =
        ⟨.ok, survivors, .present (encodeAll survivors)⟩ ∧
      ∀ more : List Command,
        (∀ command ∈ more, Admissible kReplayFrameCap command) →
        ∀ (nextReads : List ReadOutcome) (nextChunks : List Bytes),
          Delivers nextReads nextChunks →
          nextChunks.flatten = encodeAll survivors ++ encodeAll more →
          replay (.present (encodeAll survivors ++ encodeAll more))
              nextReads true =
            ⟨.ok, survivors ++ more,
              .present (encodeAll survivors ++ encodeAll more)⟩ := by
  intro survivors
  have survivorsAdmissible : ∀ command ∈ survivors,
      Admissible kReplayFrameCap command := fun command member =>
    admissible command ((prefix_wholeItems _ _ _).subset member)
  constructor
  · exact replay_cut admissible cut delivers whole
  · intro more moreAdmissible nextReads nextChunks nextDelivers nextWhole
    rw [← encodeAll_append] at nextWhole ⊢
    have bothAdmissible : ∀ command ∈ survivors ++ more,
        Admissible kReplayFrameCap command := by
      intro command member
      rcases List.mem_append.mp member with old | new
      · exact survivorsAdmissible command old
      · exact moreAdmissible command new
    have everything : wholeItems encode (survivors ++ more)
        (encodeAll (survivors ++ more)).length = survivors ++ more :=
      wholeItems_all (Nat.le_refl _)
    have replayed := replay_cut bothAdmissible (List.prefix_refl _)
      nextDelivers nextWhole
    rwa [everything] at replayed

/-- A log of two records, cut inside the second and read in three pieces with
an interrupted call. -/
theorem replay_torn_tail_second_record :
    let commands : List Command :=
      [[ascii "SET", ascii "k", ascii "v"], [ascii "DEL", ascii "k"]]
    let file := (encodeAll commands).take 40
    let chunks := [file.take 7, (file.drop 7).take 30, file.drop 37]
    let reads := [.data (file.take 7), .interrupted,
      .data ((file.drop 7).take 30), .data (file.drop 37)]
    let survivors := wholeItems encode commands file.length
    survivors = [[ascii "SET", ascii "k", ascii "v"]] ∧
      chunks.flatten = file ∧
      replay (.present file) reads true =
        ⟨.ok, survivors, .present (encodeAll survivors)⟩ := by
  intro commands file chunks reads survivors
  have admissible : ∀ command ∈ commands,
      Admissible kReplayFrameCap command := by
    intro command member
    simp only [commands, List.mem_cons, List.not_mem_nil, or_false] at member
    rcases member with rfl | rfl <;> exact ⟨by decide, by decide, by decide⟩
  have delivers : Delivers reads chunks :=
    .data (by decide) (.interrupted
      (.data (by decide) (.data (by decide) .nil)))
  refine ⟨by decide, by decide, ?_⟩
  exact (replay_torn_tail commands admissible file (List.take_prefix _ _) reads
    chunks delivers (by decide)).1

end HermitDb.Persist
