import HermitDb.Core.Isolation
import HermitDb.Net.StoreView

/-!
# Clients that do not share keys

Clients of one server, on the same reactor or on different ones, see each other
through the keys they share and in no other way.  A client whose keys the others
do not write to is answered as if it had the store to itself.
-/

namespace HermitDb.Net

open Library Persist Protocol Util
open Core (World Walk Server Keyspace StoreStep Action Beside PlainChar)

/-- A command that was answered, and whether it is one of ours. -/
structure Answer where
  own : Bool
  cmd : Command
  reply : Bytes

/-- The commands of the run and what they were answered. -/
structure Transcript (answers : List Answer) (timed : List (Int64 × Core.Event))
    (outputs : List (Option Bytes)) : Prop where
  commands : (timed.map Prod.snd).filterMap commandOf = answers.map Answer.cmd
  replies : outputs.reduceOption = answers.map Answer.reply

namespace Transcript

variable {answers : List Answer} {timed : List (Int64 × Core.Event)}
  {outputs : List (Option Bytes)} {moment : Int64}

theorem silent {event : Core.Event} (noCommand : commandOf event = none)
    (answered : Transcript answers ((moment, event) :: timed) (none :: outputs)) :
    Transcript answers timed outputs := by
  obtain ⟨commands, replies⟩ := answered
  rw [List.map_cons, List.filterMap_cons_none noCommand] at commands
  rw [List.reduceOption_cons_of_none] at replies
  exact ⟨commands, replies⟩

theorem cons (walk : Walk) (answer : Answer)
    (answered : Transcript answers timed outputs) :
    Transcript (answer :: answers) ((moment, .command walk answer.cmd) :: timed)
      (some answer.reply :: outputs) where
  commands := congrArg (answer.cmd :: ·) answered.commands
  replies := by
    rw [List.reduceOption_cons_of_some, answered.replies, List.map_cons]

end Transcript

end HermitDb.Net
