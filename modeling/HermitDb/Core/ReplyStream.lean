import HermitDb.Core.Reachable

/-!
# One command, one reply

A client reads the stream of replies with a RESP2 decoder.  Every reply of the
server is one complete value, except that the text for an unknown command
repeats the name as it was sent: a line break in it ends the reply early.
-/

namespace HermitDb.Core

open Library Persist Protocol

/-! ## Decoding replies -/

/-- The text up to the next CRLF.  Neither byte may occur alone. -/
def takeText : Bytes → Option (Bytes × Bytes)
  | [] => none
  | letter :: rest =>
      if letter = cr then
        if rest.head? = some lf then some ([], rest.tail) else none
      else if letter = lf then none
      else
        match takeText rest with
        | none => none
        | some (text, rest) => some (letter :: text, rest)

def parseInteger (text : Bytes) : Option Int :=
  match text with
  | 45 :: digits => (parseDigits digits).map fun magnitude : Nat => -magnitude
  | digits => (parseDigits digits).map Int.ofNat

/-- A bulk after its `$`, where `none` is the null bulk. -/
def takeBulk (bytes : Bytes) : Option (Option Bytes × Bytes) :=
  match takeText bytes with
  | none => none
  | some (digits, rest) =>
      if digits = ascii "-1" then some (none, rest)
      else
        match parseDigits digits with
        | none => none
        | some len =>
            if (rest.drop len).take 2 ≠ crlf then none
            else some (some (rest.take len), rest.drop (len + 2))

/-- The elements of an array, each a bulk that is not null. -/
def takeBulks : Nat → Bytes → Option (List Bytes × Bytes)
  | 0, bytes => some ([], bytes)
  | count + 1, 36 :: bytes =>
      match takeBulk bytes with
      | some (some payload, rest) =>
          match takeBulks count rest with
          | none => none
          | some (items, rest) => some (payload :: items, rest)
      | _ => none
  | _, _ => none

/-- Read one value and leave the bytes behind it. -/
def decodeReply (bytes : Bytes) : Option (Reply × Bytes) :=
  match bytes with
  | 43 :: bytes => (takeText bytes).map fun found => (.simple found.1, found.2)
  | 45 :: bytes => (takeText bytes).map fun found => (.error found.1, found.2)
  | 58 :: bytes =>
      match takeText bytes with
      | none => none
      | some (text, rest) =>
          (parseInteger text).map fun number => (.integer number, rest)
  | 36 :: bytes =>
      match takeBulk bytes with
      | none => none
      | some (none, rest) => some (.nullBulk, rest)
      | some (some payload, rest) => some (.bulk payload, rest)
  | 42 :: bytes =>
      match takeText bytes with
      | none => none
      | some (digits, rest) =>
          match parseDigits digits with
          | none => none
          | some count =>
              (takeBulks count rest).map fun found => (.bulks found.1, found.2)
  | _ => none

/-- The bytes are exactly one value. -/
def OneReply (bytes : Bytes) : Prop :=
  ∃ reply, decodeReply bytes = some (reply, [])

def decodeRepliesWithFuel : Nat → Bytes → Option (List Reply)
  | _, [] => some []
  | 0, _ => none
  | fuel + 1, bytes =>
      match decodeReply bytes with
      | none => none
      | some (reply, rest) =>
          (decodeRepliesWithFuel fuel rest).map fun replies => reply :: replies

/-- Read values until nothing is left.  Every value takes at least a byte. -/
def decodeReplies (bytes : Bytes) : Option (List Reply) :=
  decodeRepliesWithFuel bytes.length bytes

theorem takeText_append {text : Bytes} (noCr : cr ∉ text) (noLf : lf ∉ text)
    (rest : Bytes) : takeText (text ++ crlf ++ rest) = some (text, rest) := by
  induction text with
  | nil => rfl
  | cons letter text induction =>
      rw [List.mem_cons, not_or] at noCr noLf
      rw [List.cons_append, List.cons_append, takeText,
        if_neg (Ne.symm noCr.1), if_neg (Ne.symm noLf.1),
        induction noCr.2 noLf.2]

theorem takeText_shape {bytes text rest : Bytes}
    (taken : takeText bytes = some (text, rest)) :
    bytes = text ++ crlf ++ rest ∧ cr ∉ text ∧ lf ∉ text := by
  induction bytes generalizing text with
  | nil => cases taken
  | cons letter bytes induction =>
      rw [takeText.eq_def] at taken
      simp only at taken
      split at taken
      · rename_i isCr
        split at taken
        · rename_i isLf
          cases taken
          subst isCr
          obtain ⟨tail, rfl⟩ := List.head?_eq_some_iff.mp isLf
          exact ⟨rfl, List.not_mem_nil, List.not_mem_nil⟩
        · cases taken
      · rename_i notCr
        split at taken
        · cases taken
        · rename_i notLf
          split at taken
          · cases taken
          · rename_i found
            cases taken
            obtain ⟨shape, noCr, noLf⟩ := induction found
            refine ⟨by rw [shape]; rfl, ?_, ?_⟩
            · rw [List.mem_cons, not_or]
              exact ⟨Ne.symm notCr, noCr⟩
            · rw [List.mem_cons, not_or]
              exact ⟨Ne.symm notLf, noLf⟩

theorem not_mem_digits {letter : UInt8} (notDigit : isDigit letter = false)
    (number : Nat) : letter ∉ unsignedToString number := by
  intro member
  rw [unsignedToString_digits number letter member] at notDigit
  cases notDigit

theorem takeText_unsigned (number : Nat) (rest : Bytes) :
    takeText (unsignedToString number ++ crlf ++ rest) =
      some (unsignedToString number, rest) :=
  takeText_append (not_mem_digits rfl number) (not_mem_digits rfl number) rest

theorem takeText_integer (number : Int) (rest : Bytes) :
    takeText (intToString number ++ crlf ++ rest) =
      some (intToString number, rest) := by
  have absent : ∀ letter : UInt8, isDigit letter = false → letter ≠ 45 →
      letter ∉ intToString number := by
    intro letter notDigit notMinus
    unfold intToString
    split
    · rw [List.mem_cons, not_or]
      exact ⟨notMinus, not_mem_digits notDigit _⟩
    · exact not_mem_digits notDigit _
  exact takeText_append (absent cr rfl (by decide)) (absent lf rfl (by decide))
    rest

theorem parseInteger_intToString (number : Int) :
    parseInteger (intToString number) = some number := by
  unfold intToString
  split
  · rename_i negative
    simp only [parseInteger, parseDigits_unsignedToString, Option.map_some,
      Option.some.injEq]
    omega
  · rename_i nonnegative
    have digits := parseDigits_unsignedToString number.natAbs
    unfold parseInteger
    split
    · rename_i minus
      exact absurd (unsignedToString_head minus) (by decide)
    · rw [digits, Option.map_some, Option.some.injEq, Int.ofNat_eq_natCast]
      omega

theorem takeBulk_append (payload rest : Bytes) :
    takeBulk (unsignedToString payload.length ++ crlf ++
      (payload ++ crlf ++ rest)) = some (some payload, rest) := by
  have notNull : unsignedToString payload.length ≠ ascii "-1" := by
    intro isNull
    exact absurd (unsignedToString_head isNull) (by decide)
  have terminated : ((payload ++ crlf ++ rest).drop payload.length).take 2 =
      crlf := by
    rw [List.append_assoc, List.drop_left]
    rfl
  have behind : (payload ++ crlf ++ rest).drop (payload.length + 2) = rest := by
    rw [← List.drop_drop, List.append_assoc, List.drop_left]
    rfl
  have inside : (payload ++ crlf ++ rest).take payload.length = payload := by
    rw [List.append_assoc, List.take_left]
  simp only [takeBulk, takeText_unsigned, parseDigits_unsignedToString]
  rw [if_neg notNull, if_neg (not_not.mpr terminated), inside, behind]

theorem takeBulks_append (items : List Bytes) (rest : Bytes) :
    takeBulks items.length ((items.map Resp.bulk).flatten ++ rest) =
      some (items, rest) := by
  induction items with
  | nil => rfl
  | cons payload items induction =>
      have shape : ((payload :: items).map Resp.bulk).flatten ++ rest =
          36 :: (unsignedToString payload.length ++ crlf ++
            (payload ++ crlf ++ ((items.map Resp.bulk).flatten ++ rest))) := by
        simp [Resp.bulk, ascii]
      rw [shape, List.length_cons, takeBulks, takeBulk_append]
      simp only [induction]

/-- No line break in a reply that is a line. -/
def Reply.Clean : Reply → Prop
  | .simple text => cr ∉ text ∧ lf ∉ text
  | .error message => cr ∉ message ∧ lf ∉ message
  | _ => True

theorem decodeReply_encode {reply : Reply} (clean : reply.Clean)
    (rest : Bytes) : decodeReply (reply.encode ++ rest) = some (reply, rest) := by
  cases reply with
  | simple text =>
      have shape : (Reply.simple text).encode ++ rest =
          43 :: (text ++ crlf ++ rest) := by
        simp [Reply.encode, Resp.simple, ascii]
      rw [shape, decodeReply, takeText_append clean.1 clean.2, Option.map_some]
  | error message =>
      have shape : (Reply.error message).encode ++ rest =
          45 :: (message ++ crlf ++ rest) := by
        simp [Reply.encode, Resp.error, ascii]
      rw [shape, decodeReply, takeText_append clean.1 clean.2, Option.map_some]
  | integer number =>
      have shape : (Reply.integer number).encode ++ rest =
          58 :: (intToString number ++ crlf ++ rest) := by
        simp [Reply.encode, Resp.integer, ascii]
      simp only [shape, decodeReply, takeText_integer, parseInteger_intToString,
        Option.map_some]
  | bulk payload =>
      have shape : (Reply.bulk payload).encode ++ rest =
          36 :: (unsignedToString payload.length ++ crlf ++
            (payload ++ crlf ++ rest)) := by
        simp [Reply.encode, Resp.bulk, ascii]
      simp only [shape, decodeReply, takeBulk_append]
  | nullBulk => rfl
  | bulks items =>
      have shape : (Reply.bulks items).encode ++ rest =
          42 :: (unsignedToString items.length ++ crlf ++
            ((items.map Resp.bulk).flatten ++ rest)) := by
        simp [Reply.encode, Resp.array, ascii]
      simp only [shape, decodeReply, takeText_unsigned,
        parseDigits_unsignedToString, takeBulks_append, Option.map_some]

/-- A reply is one value exactly if it has no line break of its own. -/
theorem oneReply_encode_iff (reply : Reply) :
    OneReply reply.encode ↔ reply.Clean := by
  have ofClean : reply.Clean → OneReply reply.encode := by
    intro clean
    have decoded := decodeReply_encode clean []
    rw [List.append_nil] at decoded
    exact ⟨reply, decoded⟩
  -- Nothing is left over only if the first CRLF is the last.
  have whole : ∀ {text : Bytes} {found : Bytes × Bytes},
      takeText (text ++ crlf) = some found → found.2 = [] →
      cr ∉ text ∧ lf ∉ text := by
    intro text found taken noRest
    obtain ⟨shape, noCr, noLf⟩ := takeText_shape taken
    rw [noRest, List.append_nil] at shape
    rw [List.append_cancel_right shape]
    exact ⟨noCr, noLf⟩
  refine ⟨?_, ofClean⟩
  rintro ⟨value, decoded⟩
  cases reply with
  | simple text | error text =>
      obtain ⟨found, taken, split⟩ := Option.map_eq_some_iff.mp decoded
      exact whole taken (Prod.mk.inj split).2
  | integer | bulk | nullBulk | bulks => trivial

theorem Reply.encode_length_pos (reply : Reply) : 0 < reply.encode.length := by
  cases reply with
  | simple | error | integer | bulk | nullBulk | bulks =>
      exact Nat.succ_pos _

theorem length_le_encoded (replies : List Reply) :
    replies.length ≤ (replies.map Reply.encode).flatten.length := by
  induction replies with
  | nil => exact Nat.zero_le _
  | cons reply replies induction =>
      have positive := reply.encode_length_pos
      rw [List.map_cons, List.flatten_cons, List.length_append,
        List.length_cons]
      omega

theorem decodeRepliesWithFuel_encode {reply : Reply} (clean : reply.Clean)
    (fuel : Nat) (rest : Bytes) :
    decodeRepliesWithFuel (fuel + 1) (reply.encode ++ rest) =
      (decodeRepliesWithFuel fuel rest).map fun replies => reply :: replies := by
  have decoded := decodeReply_encode clean rest
  cases shape : reply.encode ++ rest with
  | nil =>
      rw [shape] at decoded
      cases decoded
  | cons letter bytes =>
      rw [shape] at decoded
      simp only [decodeRepliesWithFuel, decoded]

theorem decodeReplies_encode {replies : List Reply}
    (clean : ∀ reply ∈ replies, reply.Clean) :
    decodeReplies (replies.map Reply.encode).flatten = some replies := by
  have enough := length_le_encoded replies
  unfold decodeReplies
  generalize (replies.map Reply.encode).flatten.length = fuel at enough
  induction replies generalizing fuel with
  | nil => cases fuel <;> rfl
  | cons reply replies induction =>
      obtain ⟨isClean, restClean⟩ := List.forall_mem_cons.mp clean
      cases fuel with
      | zero => cases enough
      | succ fuel =>
          rw [List.map_cons, List.flatten_cons,
            decodeRepliesWithFuel_encode isClean,
            induction restClean fuel (Nat.le_of_succ_le_succ enough)]
          rfl

/-! ## The server's replies -/

/-- The reply, where the action fixes it outright, has no line break. -/
def Action.Clean : Action → Prop
  | .answer reply => reply.Clean
  | _ => True

theorem Reply.notAnInteger_clean : Reply.notAnInteger.Clean :=
  ⟨by decide, by decide⟩

theorem Reply.wrongType_clean : Reply.wrongType.Clean :=
  ⟨by decide, by decide⟩

theorem Reply.wrongArity_clean {nameLower : String}
    (noCr : cr ∉ ascii nameLower) (noLf : lf ∉ ascii nameLower) :
    (Reply.wrongArity nameLower).Clean := by
  have letters : ∀ letter, letter ∉ wrongArityText "" →
      letter ∉ ascii nameLower → letter ∉ wrongArityText nameLower := by
    intro letter around inside
    simp only [wrongArityText, List.mem_append, not_or] at around ⊢
    exact ⟨⟨around.1.1, inside⟩, around.2⟩
  exact ⟨letters cr (by decide) noCr, letters lf (by decide) noLf⟩

theorem readSetChoice_clean {wrap : Int → Int} {args : List Bytes}
    {start : SetChoice} {refusal : Reply}
    (refused : readSetChoice wrap args start = .error refusal) :
    refusal.Clean := by
  fun_induction readSetChoice wrap args start with
  | case1 => cases refused
  | case2 _ _ _ _ _ induction => exact induction refused
  | case3 _ _ _ _ _ _ induction => exact induction refused
  | case7 _ _ _ _ _ _ _ _ _ _ _ induction => exact induction refused
  | case5 =>
      cases refused
      exact Reply.notAnInteger_clean
  | case4 | case6 | case8 =>
      cases refused
      exact ⟨by decide, by decide⟩

section Readers

variable {nameLower : String}

theorem keyAction_clean (arity : (Reply.wrongArity nameLower).Clean)
    (cmd : Command) (op : KeyOp) : (keyAction nameLower cmd op).Clean := by
  unfold keyAction
  split
  · exact True.intro
  · exact arity

theorem keysAction_clean (arity : (Reply.wrongArity nameLower).Clean)
    (cmd : Command) {onKeys : List Bytes → Action}
    (clean : ∀ keys, (onKeys keys).Clean) :
    (keysAction nameLower cmd onKeys).Clean := by
  unfold keysAction
  split
  · exact clean _
  · exact arity

theorem numberAction_clean (arity : (Reply.wrongArity nameLower).Clean)
    (cmd : Command) (op : Int → KeyOp) :
    (numberAction nameLower cmd op).Clean := by
  unfold numberAction
  split
  · split
    · exact Reply.notAnInteger_clean
    · exact True.intro
  · exact arity

theorem pushAction_clean (arity : (Reply.wrongArity nameLower).Clean)
    (cmd : Command) (left : Bool) : (pushAction nameLower cmd left).Clean := by
  unfold pushAction
  split
  · exact True.intro
  · exact arity

end Readers

theorem configReply_clean (cmd : Command) : (configReply cmd).Clean := by
  have subcommand : (Reply.error configSubcommandText).Clean :=
    ⟨by decide, by decide⟩
  unfold configReply
  split
  · split
    · split
      · split <;> exact True.intro
      · exact Reply.wrongArity_clean (by decide) (by decide)
    · exact subcommand
  · exact subcommand

theorem Verb.action_clean (verb : Verb) (wrap : Int → Int) (cmd : Command) :
    (verb.action wrap cmd).Clean := by
  cases verb with
  | get | ttl | pttl | persist | incr | decr | type | lpop | rpop | llen =>
      apply keyAction_clean
      exact Reply.wrongArity_clean (by decide) (by decide)
  | expire | pexpire | pexpireat | incrby =>
      rw [Verb.action]
      apply numberAction_clean
      exact Reply.wrongArity_clean (by decide) (by decide)
  | del | «exists» =>
      apply keysAction_clean
      · exact Reply.wrongArity_clean (by decide) (by decide)
      · exact fun _ => True.intro
  | lpush | rpush =>
      apply pushAction_clean
      exact Reply.wrongArity_clean (by decide) (by decide)
  | config => exact configReply_clean cmd
  | command => exact True.intro
  | set =>
      simp only [Verb.action]
      split
      · split
        · rename_i refused
          exact readSetChoice_clean refused
        · exact True.intro
      · exact Reply.wrongArity_clean (by decide) (by decide)
  | lrange =>
      simp only [Verb.action]
      split
      · split
        · exact True.intro
        · exact Reply.notAnInteger_clean
      · exact Reply.wrongArity_clean (by decide) (by decide)
  | ping =>
      simp only [Verb.action]
      split
      · exact ⟨by decide, by decide⟩
      · exact True.intro
      · exact Reply.wrongArity_clean (by decide) (by decide)
  | echo | flushall | dbsize | keys =>
      simp only [Verb.action]
      split
      · exact True.intro
      · exact Reply.wrongArity_clean (by decide) (by decide)

theorem increment_clean (item : Option Item) (deadline : Option Int)
    (sum : Int) : (increment item deadline sum).1.Clean := by
  unfold increment
  split
  · exact Reply.notAnInteger_clean
  · exact True.intro

theorem KeyOp.run_clean (op : KeyOp) (wrap : Int → Int) (now : Int)
    (item : Option Item) : (op.run wrap now item).1.Clean := by
  cases op with
  | get | llen | lrange | push =>
      rcases item with _ | ⟨_ | _, deadline⟩
      all_goals first | exact True.intro | exact Reply.wrongType_clean
  | pop left =>
      rcases item with _ | ⟨_ | _, deadline⟩
      · exact True.intro
      · exact Reply.wrongType_clean
      · simp only [KeyOp.run]
        split <;> exact True.intro
  | ttl | persist => rcases item with _ | ⟨value, _ | _⟩ <;> exact True.intro
  | expire | pexpireat =>
      cases item with
      | none => exact True.intro
      | some held =>
          simp only [KeyOp.run]
          split <;> exact True.intro
  | type =>
      rcases item with _ | ⟨_ | _, deadline⟩ <;> exact ⟨by decide, by decide⟩
  | incrBy delta =>
      rcases item with _ | ⟨_ | _, deadline⟩
      · exact increment_clean _ _ _
      · simp only [KeyOp.run]
        split
        · exact Reply.notAnInteger_clean
        · exact increment_clean _ _ _
      · exact Reply.wrongType_clean
  | set value choice =>
      simp only [KeyOp.run]
      split
      · exact True.intro
      · exact ⟨by decide, by decide⟩

theorem Outcome.clean {world : World} {before after : Memory} {action : Action}
    {reply : Reply} {evicted : List Bytes}
    (outcome : Outcome world before action reply after evicted)
    (clean : action.Clean) : reply.Clean := by
  by_cases counts : ∃ targets, action = .exists targets
  · obtain ⟨targets, isExists⟩ := counts
    obtain ⟨count, rfl⟩ := outcome.exists_integer targets isExists
    exact True.intro
  · have answers := outcome.answers (world.ms (after.clockReads - 1))
      (fun _ => rfl) fun targets isExists => absurd ⟨targets, isExists⟩ counts
    cases action with
    | answer fixed =>
        rw [Action.Answers] at answers
        rw [answers]
        exact clean
    | onKey key op =>
        rw [Action.Answers] at answers
        rw [answers]
        exact op.run_clean _ _ _
    | del targets =>
        rw [Action.Answers] at answers
        rw [answers]
        exact True.intro
    | «exists» targets => exact absurd ⟨targets, rfl⟩ counts
    | keys pattern =>
        obtain ⟨found, _, _, rfl⟩ := answers
        exact True.intro
    | dbsize =>
        obtain ⟨present, _, rfl⟩ := answers
        exact True.intro
    | flushall =>
        rw [Action.Answers] at answers
        rw [answers]
        exact ⟨by decide, by decide⟩

/-- The dispatcher knows the name. -/
def Known (name : Bytes) : Prop :=
  upper name = ascii "SHUTDOWN" ∨ (table.lookup (upper name)).isSome = true

/-- Persistence has failed, or the name is known, or it has no line break. -/
def Server.AnswersOnce (server : Server) (cmd : Command) : Prop :=
  server.dispatcher.persistenceFailed = true ∨
    ∀ name args, cmd = name :: args → Known name ∨ (cr ∉ name ∧ lf ∉ name)

theorem ofCommand_known {name : Bytes} (known : Known name)
    (wrap : Int → Int) (args : List Bytes) :
    (Action.ofCommand wrap (name :: args)).Clean := by
  by_cases isShutdown : upper name = ascii "SHUTDOWN"
  · rw [Action.ofCommand, if_pos isShutdown]
    exact ⟨by decide, by decide⟩
  · rw [Action.ofCommand, if_neg isShutdown]
    obtain ⟨verb, listed⟩ :=
      Option.isSome_iff_exists.mp (known.resolve_left isShutdown)
    rw [listed]
    exact verb.action_clean wrap (name :: args)

theorem unknownCommand_clean_iff (name : Bytes) :
    (Reply.error (unknownCommandText name)).Clean ↔ cr ∉ name ∧ lf ∉ name := by
  have letters : ∀ letter, letter ∉ ascii "ERR unknown command '" →
      letter ∉ ascii "'" → (letter ∉ unknownCommandText name ↔
        letter ∉ name) := by
    intro letter before behind
    simp [unknownCommandText, before, behind]
  exact and_congr (letters cr (by decide) (by decide))
    (letters lf (by decide) (by decide))

/-- What `execute` returns is one reply, without a line break exactly if the
condition holds. -/
theorem execute_reply (world : World) (walk : Walk) {server : Server}
    (wf : server.memory.Wf) (cmd : Command) :
    ∃ (reply : Reply) (next : Server),
      server.execute world walk cmd = .ok (reply.encode, next) ∧
      next.memory.Wf ∧ (reply.Clean ↔ server.AnswersOnce cmd) := by
  let refusal : Reply :=
    .error (ascii "MISCONF persistence failed; restart required")
  have refusalClean : refusal.Clean := ⟨by decide, by decide⟩
  by_cases failed : server.dispatcher.persistenceFailed = true
  · exact ⟨refusal, server, execute_of_failed world walk failed cmd, wf,
      iff_of_true refusalClean (.inl failed)⟩
  · have healthy := Bool.eq_false_of_not_eq_true failed
    -- A command that is clean by itself can only be answered MISCONF instead.
    have ofClean : (Action.ofCommand wrap64 cmd).Clean →
        server.AnswersOnce cmd → ∃ (reply : Reply) (next : Server),
          server.execute world walk cmd = .ok (reply.encode, next) ∧
          next.memory.Wf ∧ (reply.Clean ↔ server.AnswersOnce cmd) := by
      intro clean once
      obtain ⟨reply, after, evicted, outcome, result⟩ :=
        execute_eq world walk wf cmd
      have executed := result world.disk server.dispatcher healthy
      dsimp only at executed
      split at executed
      · exact ⟨refusal, _, executed, outcome.wf, iff_of_true refusalClean once⟩
      · exact ⟨reply, _, executed, outcome.wf,
          iff_of_true (outcome.clean clean) once⟩
    cases cmd with
    | nil => exact ofClean ⟨by decide, by decide⟩ (.inr nofun)
    | cons name args =>
        by_cases known : Known name
        · apply ofClean (ofCommand_known known wrap64 args)
          right
          rintro _ _ ⟨⟩
          exact .inl known
        · obtain ⟨notShutdown, notListed⟩ := not_or.mp known
          have unlisted := Option.not_isSome_iff_eq_none.mp notListed
          refine ⟨.error (unknownCommandText name), server, ?_, wf, ?_⟩
          · simp [Server.execute, healthy, notShutdown, unlisted, Reply.encode]
          · rw [unknownCommand_clean_iff]
            constructor
            · intro clean
              right
              rintro _ _ ⟨⟩
              exact .inr clean
            · intro once
              exact (once.resolve_left failed name args rfl).resolve_left known

/-- A pipeline of commands that meet the condition, read back. -/
theorem pipeline_replies (world : World) (walk : Walk) {server : Server}
    (wf : server.memory.Wf) {cmds : List Command}
    (each : EachStep (Server.execute world walk) Server.AnswersOnce server cmds) :
    ∃ (replies : List Reply) (final : Server),
      runAll (Server.execute world walk) server cmds =
        .ok (replies.map Reply.encode, final) ∧
      replies.length = cmds.length ∧ ∀ reply ∈ replies, reply.Clean := by
  induction cmds generalizing server with
  | nil => exact ⟨[], server, rfl, rfl, by simp⟩
  | cons cmd cmds induction =>
      obtain ⟨reply, next, executed, nextWf, clean⟩ :=
        execute_reply world walk wf cmd
      obtain ⟨replies, final, ran, sameLength, restClean⟩ :=
        induction nextWf (each.2 _ _ executed)
      refine ⟨reply :: replies, final, ?_, ?_, ?_⟩
      · rw [runAll_cons executed, ran]
        rfl
      · rw [List.length_cons, List.length_cons, sameLength]
      · exact List.forall_mem_cons.mpr ⟨clean.mpr each.1, restClean⟩

/-- In every reachable state a command gets bytes that are one value exactly if
it meets the condition, and a pipeline that meets it throughout gets one value
for each command. -/
theorem one_reply_iff {server : Server} (reachable : server.Reachable)
    (world : World) (walk : Walk) :
    (∀ cmd, ∃ bytes next, server.execute world walk cmd = .ok (bytes, next) ∧
      (OneReply bytes ↔ server.AnswersOnce cmd)) ∧
    ∀ cmds, EachStep (Server.execute world walk) Server.AnswersOnce server cmds →
      ∃ outputs final replies,
        runAll (Server.execute world walk) server cmds = .ok (outputs, final) ∧
        decodeReplies outputs.flatten = some replies ∧
        replies.length = cmds.length := by
  constructor
  · intro cmd
    obtain ⟨reply, next, executed, _, clean⟩ :=
      execute_reply world walk reachable.wf cmd
    exact ⟨reply.encode, next, executed, (oneReply_encode_iff reply).trans clean⟩
  · intro cmds each
    obtain ⟨replies, final, ran, sameLength, clean⟩ :=
      pipeline_replies world walk reachable.wf each
    exact ⟨_, final, replies, ran, decodeReplies_encode clean, sameLength⟩

/-- `PING` and an echo of a line break on a fresh server. -/
theorem one_reply_iff_pipeline :
    ∃ outputs final replies,
      runAll (Server.execute (World.frozen 0) .arbitrary) (Server.fresh none)
        [[ascii "PING"], [ascii "ECHO", crlf]] = .ok (outputs, final) ∧
      decodeReplies outputs.flatten = some replies ∧ replies.length = 2 := by
  apply (one_reply_iff (.fresh none) (World.frozen 0) .arbitrary).2
  refine ⟨.inr ?_, fun _ _ _ => ⟨.inr ?_, fun _ _ _ => trivial⟩⟩
  · rintro _ _ ⟨⟩
    exact .inl (.inr (by decide))
  · rintro _ _ ⟨⟩
    exact .inl (.inr (by decide))

/-- An unknown name with a line break: one command, and the client reads two
replies. -/
theorem unknown_command_answered_twice :
    ∃ bytes next,
      Server.execute (World.frozen 0) .arbitrary (Server.fresh none)
        [ascii "a\r\n+b"] = .ok (bytes, next) ∧
      ¬ OneReply bytes ∧
      decodeReplies bytes =
        some [.error (ascii "ERR unknown command 'a"), .simple (ascii "b'")] := by
  refine ⟨Resp.error (unknownCommandText (ascii "a\r\n+b")), Server.fresh none,
    rfl, ?_, by decide⟩
  rintro ⟨reply, decoded⟩
  have actual : decodeReply (Resp.error (unknownCommandText (ascii "a\r\n+b"))) =
      some (.error (ascii "ERR unknown command 'a"), ascii "+b'\r\n") := by
    decide
  rw [actual] at decoded
  cases decoded

end HermitDb.Core
