import HermitDb.Persist.TornTail
import HermitDb.Protocol.Serving

/-!
# Replaying what replay left behind

Replay cuts the file at the length of the canonical encodings of what it has
delivered.  The parser also takes other spellings, so the cut need not fall
where the last delivered frame ends.  The parser's cap aside, a second replay
delivers the same commands exactly if the spellings were, taken together, no
longer than the canonical ones.
-/

namespace HermitDb.Persist

open Protocol Library
open Protocol.RespParser (machine feedAll commandsOf)

/-! ## Replay of any file -/

/-- A replay loop that reaches the end of the file has had no parse error. -/
theorem feedAll_ok_of_scan {parser : RespParser} {reads : List ReadOutcome}
    {chunks : List Bytes} (delivers : Delivers reads chunks)
    (ended : (scan parser reads).stop = .endOfFile) :
    ∀ result ∈ (parser.feedAll chunks).1, result.status = .ok := by
  induction delivers generalizing parser with
  | nil => simp [feedAll]
  | interrupted _ induction => exact induction ended
  | @data chunk reads chunks present _ induction =>
      have nonempty : chunk.isEmpty = false := by simpa using present
      simp only [scan, nonempty, Bool.false_eq_true, if_false] at ended
      by_cases succeeds : (parser.feed chunk).1.status = .ok
      · rw [if_neg (not_not.mpr succeeds)] at ended
        simp only [feedAll, List.forall_mem_cons]
        exact ⟨succeeds, induction ended⟩
      · rw [if_pos succeeds] at ended
        cases ended

section Accepted

variable {bytes : Bytes} {reads : List ReadOutcome} {chunks : List Bytes}
  {frames : List (Bytes × Option Command)} {residue unconsumed : Bytes}

/-- The replay loop on a file accepted read by read. -/
theorem scan_of_split (delivers : Delivers reads chunks)
    (accepts : (RespParser.fresh kReplayFrameCap).Accepts chunks)
    (split : Split kReplayFrameCap chunks.flatten frames residue unconsumed) :
    scan (RespParser.fresh kReplayFrameCap) reads =
      { delivered := frames.filterMap Prod.snd
        goodBytes := (encodeAll (frames.filterMap Prod.snd)).length
        totalBytes := chunks.flatten.length
        stop := .endOfFile } := by
  have succeeds := accepts.feedAll_ok (RespParser.fresh_settled _)
  have drained := (RespParser.feeds_of_feedAll_ok succeeds).drain_eq
    (RespParser.round_fresh kReplayFrameCap)
  obtain ⟨following, args, isDrained, -, -⟩ := split.drain
  rw [RespParser.machine_extend, isDrained] at drained
  have returned : frames.filterMap Prod.snd =
      commandsOf ((RespParser.fresh kReplayFrameCap).feedAll chunks).1 :=
    congrArg Drained.output drained
  rw [scan_of_feedAll_ok delivers succeeds, ← returned]

/-- A replay that succeeds delivers the commands of the file's frames and
leaves the file cut at the length of their encodings. -/
theorem replay_of_ok (truncates : Bool) (delivers : Delivers reads chunks)
    (ok : (replay (.present chunks.flatten) reads truncates).status = .ok) :
    (RespParser.fresh kReplayFrameCap).Accepts chunks ∧
      ∃ frames residue unconsumed,
        Split kReplayFrameCap chunks.flatten frames residue unconsumed ∧
        replay (.present chunks.flatten) reads truncates =
          ⟨.ok, frames.filterMap Prod.snd, .present (chunks.flatten.take
            (encodeAll (frames.filterMap Prod.snd)).length)⟩ := by
  have ended : (scan (RespParser.fresh kReplayFrameCap) reads).stop =
      .endOfFile := by
    simp only [replay] at ok
    split at ok
    · cases ok
    · cases ok
    · assumption
  have accepts := RespParser.accepts_of_feedAll_ok
    (RespParser.fresh_settled _) (feedAll_ok_of_scan delivers ended)
  obtain ⟨frames, residue, unconsumed, split⟩ :=
    split_of_feed_ok (accepts _ List.prefix_rfl)
  refine ⟨accepts, frames, residue, unconsumed, split, ?_⟩
  have scanned := scan_of_split delivers accepts split
  simp only [replay, scanned] at ok ⊢
  split
  · rename_i torn
    cases truncates with
    | false =>
        rw [if_pos torn, if_neg Bool.false_ne_true] at ok
        cases ok
    | true => rfl
  · rename_i complete
    rw [List.take_of_length_le (Nat.le_of_not_lt complete)]

/-- Nothing is cut from a file no longer than the encodings of its commands. -/
theorem replay_of_short (truncates : Bool) (delivers : Delivers reads chunks)
    (accepts : (RespParser.fresh kReplayFrameCap).Accepts chunks)
    (split : Split kReplayFrameCap chunks.flatten frames residue unconsumed)
    (short : chunks.flatten.length ≤
      (encodeAll (frames.filterMap Prod.snd)).length) :
    replay (.present chunks.flatten) reads truncates =
      ⟨.ok, frames.filterMap Prod.snd, .present chunks.flatten⟩ := by
  simp only [replay, scan_of_split delivers accepts split]
  rw [if_neg (Nat.not_lt.mpr short)]

end Accepted

/-! ## The second replay -/

/-- The frames of the file through the last one with a command take no more
bytes than the canonical encodings of the commands, and no incomplete line or
argument in that many bytes of the file is beyond the parser's cap. -/
def Recoverable (bytes : Bytes) : Prop :=
  ∃ early late residue unconsumed,
    Split kReplayFrameCap bytes (early ++ late) residue unconsumed ∧
    (∀ frame ∈ late, frame.2 = none) ∧
    (joined early).length ≤
      (encodeAll (early.filterMap Prod.snd)).length ∧
    ∀ part,
      part <+: bytes.take (encodeAll (early.filterMap Prod.snd)).length →
      Acceptable kReplayFrameCap part

theorem filterMap_of_silent {early late : List (Bytes × Option Command)}
    (silent : ∀ frame ∈ late, frame.2 = none) :
    (early ++ late).filterMap Prod.snd = early.filterMap Prod.snd := by
  rw [List.filterMap_append, List.filterMap_eq_nil_iff.mpr silent,
    List.append_nil]

/-- One read for every byte.  A call of the parser then ends behind every byte,
so that all of them succeed only if every prefix is acceptable. -/
theorem delivers_bytewise (bytes : Bytes) :
    Delivers (bytes.map fun byte => .data [byte])
      (bytes.map fun byte => [byte]) := by
  induction bytes with
  | nil => exact .nil
  | cons byte bytes induction => exact .data (by simp) induction

theorem flatten_bytewise (bytes : Bytes) :
    (bytes.map fun byte => [byte]).flatten = bytes :=
  List.flatMap_singleton' bytes

/-- A file read byte by byte without an error has only acceptable prefixes. -/
theorem acceptable_of_bytewise {bytes part : Bytes}
    (accepts : (RespParser.fresh kReplayFrameCap).Accepts
      (bytes.map fun byte => [byte])) (isPrefix : part <+: bytes) :
    Acceptable kReplayFrameCap part := by
  have accepted := (accepts_iff _ _).mp accepts
    (part.map fun byte => [byte]) (isPrefix.map _)
  rwa [flatten_bytewise] at accepted

/-- The commands that come back from a prefix that still holds the frames
through the last one with a command. -/
theorem commands_of_prefix {cap : Nat} {part bytes : Bytes}
    {early late partFrames : List (Bytes × Option Command)}
    {partResidue partRest residue unconsumed : Bytes} (isPrefix : part <+: bytes)
    (split : Split cap bytes (early ++ late) residue unconsumed)
    (silent : ∀ frame ∈ late, frame.2 = none)
    (enough : joined early <+: part)
    (ofPart : Split cap part partFrames partResidue partRest) :
    partFrames.filterMap Prod.snd = early.filterMap Prod.snd := by
  obtain ⟨lost, isWhole⟩ := ofPart.frames_of_prefix isPrefix split
  obtain ⟨rest, isPart⟩ := enough
  obtain ⟨args, isResidue⟩ := ofPart.isResidue
  obtain ⟨kept, rfl, -⟩ := Frame.prefixUnique.extends_of_stuck
    (AllEncode.append.mp split.good).1 ofPart.good isResidue.stuck
    (isPart.trans ofPart.bytes_eq)
  rw [List.append_assoc] at isWhole
  have isLate := List.append_cancel_left isWhole
  apply filterMap_of_silent
  intro frame member
  exact silent frame (isLate ▸ List.mem_append_left lost member)

section Again

variable {bytes : Bytes} {frames : List (Bytes × Option Command)}
  {residue unconsumed : Bytes}

/-- The file that is left when the commands of the frames are delivered. -/
def leftBehind (bytes : Bytes) (frames : List (Bytes × Option Command)) :
    Bytes :=
  bytes.take (encodeAll (frames.filterMap Prod.snd)).length

theorem leftBehind_prefix (bytes : Bytes)
    (frames : List (Bytes × Option Command)) :
    leftBehind bytes frames <+: bytes :=
  List.take_prefix _ _

/-- Reading the file that is left byte by byte shows that it was
recoverable. -/
theorem recoverable_of_again
    (split : Split kReplayFrameCap bytes frames residue unconsumed)
    {left : Bytes} (isLeft : left = leftBehind bytes frames)
    (ok : (replay (.present left)
      (left.map fun byte => .data [byte]) true).status = .ok)
    (same : (replay (.present left)
        (left.map fun byte => .data [byte]) true).delivered =
      frames.filterMap Prod.snd) : Recoverable bytes := by
  have again := replay_of_ok true (delivers_bytewise left)
  rw [flatten_bytewise] at again
  obtain ⟨accepts, early, leftResidue, leftRest, ofLeft, result⟩ := again ok
  have isPrefix : left <+: bytes := isLeft ▸ leftBehind_prefix bytes frames
  obtain ⟨late, rfl⟩ := ofLeft.frames_of_prefix isPrefix split
  have silent : ∀ frame ∈ late, frame.2 = none := by
    rw [result, List.filterMap_append, List.self_eq_append_right] at same
    exact List.filterMap_eq_nil_iff.mp same
  rw [leftBehind, filterMap_of_silent silent] at isLeft
  refine ⟨early, late, residue, unconsumed, split, silent, ?_, ?_⟩
  · have inside := congrArg List.length ofLeft.bytes_eq
    have kept := congrArg List.length isLeft
    rw [List.length_append] at inside
    rw [List.length_take] at kept
    omega
  · rw [← isLeft]
    exact fun part inLeft => acceptable_of_bytewise accepts inLeft

/-- However what is left of a recoverable file is read, the same commands come
back and nothing more is cut. -/
theorem Recoverable.again (recoverable : Recoverable bytes)
    (split : Split kReplayFrameCap bytes frames residue unconsumed)
    {reads : List ReadOutcome} {chunks : List Bytes}
    (delivers : Delivers reads chunks)
    (isLeft : chunks.flatten = leftBehind bytes frames) (truncates : Bool) :
    replay (.present chunks.flatten) reads truncates =
      ⟨.ok, frames.filterMap Prod.snd, .present chunks.flatten⟩ := by
  obtain ⟨early, late, otherResidue, otherRest, other, silent, enough, capped⟩ :=
    recoverable
  obtain ⟨rfl, -⟩ := split.unique other
  rw [leftBehind, filterMap_of_silent silent] at isLeft
  rw [filterMap_of_silent silent]
  have isPrefix : chunks.flatten <+: bytes := isLeft ▸ List.take_prefix _ _
  have inside : joined early <+: chunks.flatten := by
    rw [isLeft]
    refine List.prefix_take_iff.mpr ⟨?_, enough⟩
    rw [split.bytes_eq, joined_append, List.append_assoc]
    exact List.prefix_append _ _
  rw [← isLeft] at capped
  have accepts : (RespParser.fresh kReplayFrameCap).Accepts chunks := by
    rw [accepts_iff]
    exact fun first isStart => capped _ isStart.flatten
  obtain ⟨nextFrames, nextResidue, nextRest, ofLeft⟩ :=
    capped _ List.prefix_rfl
  have same := commands_of_prefix isPrefix split silent inside ofLeft
  have short : chunks.flatten.length ≤
      (encodeAll (nextFrames.filterMap Prod.snd)).length := by
    rw [same, isLeft]
    exact List.length_take_le _ _
  rw [replay_of_short truncates delivers accepts ofLeft short, same]

end Again

/-- Every log of admissible records is recoverable, wherever it is torn. -/
theorem recoverable_of_cut {commands : List Command}
    (admissible : ∀ command ∈ commands, Admissible kReplayFrameCap command)
    {file : Bytes} (cut : file <+: encodeAll commands) : Recoverable file := by
  have first := replay_cut admissible cut (delivers_bytewise file)
    (flatten_bytewise file)
  generalize isSurvivors :
    wholeItems encode commands file.length = survivors at first
  have read := replay_of_ok true (delivers_bytewise file)
  rw [flatten_bytewise] at read
  obtain ⟨-, frames, residue, unconsumed, split, result⟩ := read (by rw [first])
  rw [first] at result
  have delivered : survivors = frames.filterMap Prod.snd :=
    congrArg Replay.delivered result
  have isLeft : encodeAll survivors = leftBehind file frames :=
    LogFile.present.inj (congrArg Replay.file result)
  have survivorsAdmissible : ∀ command ∈ survivors,
      Admissible kReplayFrameCap command := fun command member =>
    admissible command ((prefix_wholeItems _ _ _).subset (isSurvivors ▸ member))
  have second := replay_cut survivorsAdmissible List.prefix_rfl
    (delivers_bytewise (encodeAll survivors)) (flatten_bytewise _)
  have everything : wholeItems encode survivors (encodeAll survivors).length =
      survivors := wholeItems_all (Nat.le_refl _)
  rw [everything] at second
  refine recoverable_of_again split isLeft (by rw [second]) ?_
  rw [second]
  exact delivered

/-- Replay leaves a prefix of the file.  Replaying that again, in whatever
reads, succeeds and delivers the same commands exactly if the file is
recoverable. -/
theorem replay_again_iff {bytes : Bytes} {reads : List ReadOutcome}
    {chunks : List Bytes} (delivers : Delivers reads chunks)
    (whole : chunks.flatten = bytes) (truncates : Bool)
    (ok : (replay (.present bytes) reads truncates).status = .ok) :
    ∃ left,
      (replay (.present bytes) reads truncates).file = .present left ∧
      left <+: bytes ∧
      ((∀ nextReads nextChunks nextTruncates,
          Delivers nextReads nextChunks → nextChunks.flatten = left →
          (replay (.present left) nextReads nextTruncates).status = .ok ∧
            (replay (.present left) nextReads nextTruncates).delivered =
              (replay (.present bytes) reads truncates).delivered) ↔
        Recoverable bytes) := by
  subst whole
  obtain ⟨-, frames, residue, unconsumed, split, result⟩ :=
    replay_of_ok truncates delivers ok
  rw [result]
  refine ⟨leftBehind chunks.flatten frames, rfl, leftBehind_prefix _ _, ?_⟩
  constructor
  · intro again
    obtain ⟨nextOk, same⟩ := again _ _ true (delivers_bytewise _)
      (flatten_bytewise _)
    exact recoverable_of_again split rfl nextOk same
  · intro recoverable nextReads nextChunks nextTruncates nextDelivers isLeft
    have next := recoverable.again split nextDelivers isLeft nextTruncates
    rw [← isLeft, next]
    exact ⟨rfl, rfl⟩

/-- A log of one record and the start of another, read twice: the second time
in two pieces. -/
theorem replay_again_iff_of_torn :
    let file := ascii "*1\r\n$4\r\nPING\r\n*2\r\n"
    let left := ascii "*1\r\n$4\r\nPING\r\n"
    (replay (.present file) [.data file] true).file = .present left ∧
      (replay (.present left) [.data (left.take 6), .data (left.drop 6)]
        false).delivered = [[ascii "PING"]] := by
  intro file left
  have recoverable : Recoverable file := by
    refine @recoverable_of_cut [[ascii "PING"], [ascii "DEL", ascii "k"]]
      ?_ file ?_
    · intro command member
      simp only [List.mem_cons, List.not_mem_nil, or_false] at member
      rcases member with rfl | rfl <;> exact ⟨by decide, by decide, by decide⟩
    · decide
  have first : replay (.present file) [.data file] true =
      ⟨.ok, [[ascii "PING"]], .present left⟩ := by
    decide +kernel
  obtain ⟨other, isLeft, -, again⟩ := @replay_again_iff file [.data file] [file]
    (.data (by decide) .nil) List.flatten_singleton true (by rw [first])
  rw [first] at isLeft again ⊢
  obtain rfl : left = other := LogFile.present.inj isLeft
  have delivers : Delivers [.data (left.take 6), .data (left.drop 6)]
      [left.take 6, left.drop 6] :=
    .data (by decide) (.data (by decide) .nil)
  exact ⟨rfl, (again.mpr recoverable _ _ false delivers rfl).2⟩

/-- A blank line in front of `PING`. -/
def blankLineFile : Bytes :=
  ascii "\r\n*1\r\n$4\r\nPING\r\n"

/-- The blank line counts in the file but not in the encodings, so the cut
takes the end of the one record that was delivered: it does not come back. -/
theorem blankLine_cuts_record :
    (replay (.present blankLineFile) [.data blankLineFile] true).status = .ok ∧
      (replay (.present blankLineFile) [.data blankLineFile] true).delivered =
        [[ascii "PING"]] ∧
      (replay (.present blankLineFile) [.data blankLineFile] true).file =
        .present (blankLineFile.take 14) ∧
      replay (.present (blankLineFile.take 14))
          [.data (blankLineFile.take 14)] true =
        ⟨.ok, [], .present []⟩ := by
  refine ⟨rfl, rfl, rfl, rfl⟩

end HermitDb.Persist
