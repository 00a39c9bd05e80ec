import HermitDb.Core.Reachable
import HermitDb.Core.StoreRefinement

/-!
# Deadlines near the end of time

A TTL is multiplied and added to the clock in 64 bits, and nothing checks the
result.  An acknowledged TTL is the one the client asked for exactly if the sum
fits.
-/

namespace HermitDb.Core

open Library Persist Protocol

/-! ## The commands -/

/-- The command gives `key` a TTL of `n` units of `unitToMs` milliseconds. -/
inductive GivesTtl (n : Int64) : Command → Bytes → Int → Prop where
  | setEx {name key value opt number : Bytes}
      (isSet : upper name = ascii "SET") (isEx : upper opt = ascii "EX")
      (isNumber : parseI64 number = some n) :
      GivesTtl n [name, key, value, opt, number] key 1000
  | setPx {name key value opt number : Bytes}
      (isSet : upper name = ascii "SET") (isPx : upper opt = ascii "PX")
      (isNumber : parseI64 number = some n) :
      GivesTtl n [name, key, value, opt, number] key 1
  | expire {name key number : Bytes} (isExpire : upper name = ascii "EXPIRE")
      (isNumber : parseI64 number = some n) :
      GivesTtl n [name, key, number] key 1000
  | pexpire {name key number : Bytes} (isPexpire : upper name = ascii "PEXPIRE")
      (isNumber : parseI64 number = some n) :
      GivesTtl n [name, key, number] key 1

/-- Success, as `SET` or as the other two report it. -/
def Succeeded (reply : Bytes) : Prop :=
  reply = ascii "+OK\r\n" ∨ reply = ascii ":1\r\n"

/-- At `now` the key is there. -/
def Server.Readable (server : Server) (now : Int64) (key : Bytes) : Prop :=
  ∀ disk walk, ∃ type after,
    server.execute ((World.frozen now).onDisk disk) walk [ascii "TYPE", key] =
      .ok (Resp.simple type, after) ∧ type ≠ ascii "none"

/-! ## 64-bit arithmetic -/

/-- The deadline as 64-bit arithmetic computes it. -/
def wrappedDeadline (now n unitToMs : Int) : Int :=
  wrap64 (now + wrap64 (n * unitToMs))

theorem wrap64_range (number : Int) : InInt64 (wrap64 number) := by
  constructor
  · have low := @Int.le_bmod number (2 ^ 64) (by decide)
    exact low
  · have high := @Int.bmod_lt number (2 ^ 64) (by decide)
    exact high

/-- The deadline is exact if and only if it fits. -/
theorem wrappedDeadline_eq_iff {now n unitToMs : Int} (nonneg : 0 ≤ now)
    (positive : 0 < n * unitToMs) :
    wrappedDeadline now n unitToMs = now + n * unitToMs ↔
      now + n * unitToMs < 2 ^ 63 := by
  constructor
  · intro exact
    have range := (wrap64_range (now + wrap64 (n * unitToMs))).2
    rw [← wrappedDeadline, exact] at range
    exact range
  · intro fits
    have product : InInt64 (n * unitToMs) := ⟨by omega, by omega⟩
    have sum : InInt64 (now + n * unitToMs) := ⟨by omega, by omega⟩
    rw [wrappedDeadline, wrap64_of_inInt64 product, wrap64_of_inInt64 sum]

/-! ## What the commands store -/

theorem GivesTtl.unit_pos {n : Int64} {cmd : Command} {key : Bytes}
    {unitToMs : Int} (gives : GivesTtl n cmd key unitToMs) : 0 < unitToMs := by
  cases gives <;> decide

theorem set_stores {value : Bytes} {ms now : Int} {item : Option Item} :
    (KeyOp.set value ⟨false, false, some ms⟩).run wrap64 now item =
      (.ok, some ⟨.string value, some (wrap64 (now + ms))⟩) := by
  simp [KeyOp.run]

theorem expire_stores {n unitToMs now : Int} (positive : 0 < n)
    {item : Option Item}
    (counted : ((KeyOp.expire n unitToMs).run wrap64 now item).1 ≠ .integer 0) :
    ∃ value, ((KeyOp.expire n unitToMs).run wrap64 now item).2 =
      some ⟨value, some (wrappedDeadline now n unitToMs)⟩ := by
  cases item with
  | none => exact absurd rfl counted
  | some held =>
      refine ⟨held.value, ?_⟩
      simp only [KeyOp.run, if_neg (Int.not_le.mpr positive), wrappedDeadline]

/-- Unless it answers zero, the command stores the wrapped deadline. -/
theorem GivesTtl.stores {n : Int64} {cmd : Command} {key : Bytes}
    {unitToMs : Int} (gives : GivesTtl n cmd key unitToMs)
    (positive : 0 < n.toInt) :
    ∃ op, Action.ofCommand wrap64 cmd = .onKey key op ∧ ∀ now item,
      (op.run wrap64 now item).1 ≠ .integer 0 →
      ∃ value, (op.run wrap64 now item).2 =
        some ⟨value, some (wrappedDeadline now n.toInt unitToMs)⟩ := by
  have notLow : ¬ n.toInt ≤ 0 := Int.not_le.mpr positive
  cases gives with
  | @setEx name _ value opt number isSet isEx isNumber =>
      have listed : table.lookup (upper name) = some .set := by rw [isSet]; rfl
      have read : readSetChoice wrap64 [opt, number] ⟨false, false, none⟩ =
          .ok ⟨false, false, some (wrap64 (n.toInt * 1000))⟩ := by
        simp [readSetChoice, isEx, isNumber, notLow, ascii]
      refine ⟨.set value ⟨false, false, some (wrap64 (n.toInt * 1000))⟩, ?_, ?_⟩
      · rw [ofCommand_of_lookup wrap64 listed]
        simp only [Verb.action, read]
      · intro now item _
        exact ⟨_, congrArg Prod.snd set_stores⟩
  | @setPx name _ value opt number isSet isPx isNumber =>
      have listed : table.lookup (upper name) = some .set := by rw [isSet]; rfl
      have read : readSetChoice wrap64 [opt, number] ⟨false, false, none⟩ =
          .ok ⟨false, false, some n.toInt⟩ := by
        simp [readSetChoice, isPx, isNumber, notLow, ascii]
      refine ⟨.set value ⟨false, false, some n.toInt⟩, ?_, ?_⟩
      · rw [ofCommand_of_lookup wrap64 listed]
        simp only [Verb.action, read]
      · intro now item _
        rw [wrappedDeadline, Int.mul_one, wrap64_toInt]
        exact ⟨_, congrArg Prod.snd set_stores⟩
  | @expire name _ number isExpire isNumber =>
      have listed : table.lookup (upper name) = some .expire := by
        rw [isExpire]
        rfl
      refine ⟨.expire n.toInt 1000, ?_, fun now item => expire_stores positive⟩
      rw [ofCommand_of_lookup wrap64 listed]
      simp only [Verb.action, numberAction, isNumber]
  | @pexpire name _ number isPexpire isNumber =>
      have listed : table.lookup (upper name) = some .pexpire := by
        rw [isPexpire]
        rfl
      refine ⟨.expire n.toInt 1, ?_, fun now item => expire_stores positive⟩
      rw [ofCommand_of_lookup wrap64 listed]
      simp only [Verb.action, numberAction, isNumber]

/-! ## Reading the key back -/

/-- A key that is not due answers `TYPE`. -/
theorem Server.readable_of_view {server : Server} (wf : server.memory.Wf)
    (healthy : server.dispatcher.persistenceFailed = false) {now : Int64}
    {key : Bytes} {item : Item} (present : server.memory.view key = some item)
    (live : item.live now.toInt = true) : server.Readable now key := by
  intro disk walk
  obtain ⟨memory, dispatcher⟩ := server
  change dispatcher.persistenceFailed = false at healthy
  obtain ⟨reply, after, evicted, outcome, result⟩ :=
    execute_eq (World.frozen now) walk wf [ascii "TYPE", key]
  have reads : Action.ofCommand wrap64 [ascii "TYPE", key] =
      .onKey key .type := rfl
  have kept : evicted = [] := by
    rw [outcome.evicted_onKey key .type reads, present, World.frozen_ms]
    simp [isDue, live]
  subst kept
  have answers := outcome.answers now.toInt (fun _ => rfl) fun _ _ _ _ _ => rfl
  rw [reads, Action.Answers, TimedMap.without_nil, present] at answers
  have unlogged : commandRecords after.expiry [ascii "TYPE", key]
      reply.encode = [] := by
    change mutationRecords after.expiry .type [ascii "TYPE", key] _ = []
    exact mutationRecords_of_looks rfl _ _ _
  have executed := result disk dispatcher healthy
  simp only [unlogged, List.map_nil, List.append_nil,
    CommandDispatcher.putAll_nil,
    CommandDispatcher.noteShutdown_persistenceFailed, healthy,
    Bool.false_eq_true, if_false] at executed
  rw [executed, answers]
  rcases item with ⟨_ | _, _⟩
  · exact ⟨ascii "string", _, rfl, by decide⟩
  · exact ⟨ascii "list", _, rfl, by decide⟩

/-! ## Acknowledged TTLs -/

theorem Succeeded.ne_misconf {bytes : Bytes} (succeeded : Succeeded bytes) :
    bytes ≠ misconf := by
  rcases succeeded with rfl | rfl <;> decide

theorem Succeeded.ne_zero {reply : Reply} (succeeded : Succeeded reply.encode) :
    reply ≠ .integer 0 := by
  rintro rfl
  rcases succeeded with isOk | isOne
  · exact absurd isOk (by decide)
  · exact absurd isOne (by decide)

/-- An acknowledged TTL stores the wrapped deadline. -/
theorem acknowledged_ttl_stored {server next : Server}
    (reachable : server.Reachable) {n : Int64} (positive : 0 < n.toInt)
    {cmd : Command} {key : Bytes} {unitToMs : Int}
    (gives : GivesTtl n cmd key unitToMs) {world : World} {walk : Walk}
    {bytes : Bytes}
    (executed : server.execute world walk cmd = .ok (bytes, next))
    (succeeded : Succeeded bytes) :
    next.memory.Wf ∧ next.dispatcher.persistenceFailed = false ∧
      ∃ value, next.memory.view key = some ⟨value, some (wrappedDeadline
        (world.ms (next.memory.clockReads - 1)) n.toInt unitToMs)⟩ := by
  have healthy := execute_healthy reachable.wf executed succeeded.ne_misconf
  obtain ⟨reply, evicted, rfl, outcome⟩ :=
    execute_outcome reachable.wf executed healthy
  obtain ⟨op, reads, stores⟩ := gives.stores positive
  have isSet : ∀ targets, Action.ofCommand wrap64 cmd ≠ .exists targets := by
    intro targets
    rw [reads]
    nofun
  have view := outcome.view_eq _ fun _ => rfl
  have answers := outcome.answers _ (fun _ => rfl) fun targets isExists =>
    absurd isExists (isSet targets)
  rw [reads] at view answers
  rw [Action.Answers] at answers
  obtain ⟨value, stored⟩ := stores _ _ (answers ▸ succeeded.ne_zero)
  refine ⟨outcome.wf, healthy, value, ?_⟩
  rw [view, Action.after, Function.update_self, stored]

/-- An acknowledged TTL is stored exactly, with the key still there, if and only
if the deadline fits into 64 bits.  `now` is the command's last reading of the
clock. -/
theorem acknowledged_ttl_exact_iff {server next : Server}
    (reachable : server.Reachable) {n : Int64} (positive : 0 < n.toInt)
    {cmd : Command} {key : Bytes} {unitToMs : Int}
    (gives : GivesTtl n cmd key unitToMs) {world : World} {walk : Walk}
    {bytes : Bytes}
    (executed : server.execute world walk cmd = .ok (bytes, next))
    (succeeded : Succeeded bytes) {now : Int64}
    (reading : world.wallMs (next.memory.clockReads - 1) = now)
    (nonneg : 0 ≤ now.toInt) :
    ((next.memory.expiry.expiryAt key).map Int64.toInt =
        some (now.toInt + n.toInt * unitToMs) ∧ next.Readable now key) ↔
      now.toInt + n.toInt * unitToMs < 2 ^ 63 := by
  obtain ⟨wf, healthy, value, stored⟩ :=
    acknowledged_ttl_stored reachable positive gives executed succeeded
  have isNow : world.ms (next.memory.clockReads - 1) = now.toInt :=
    congrArg Int64.toInt reading
  rw [isNow] at stored
  have product : 0 < n.toInt * unitToMs := Int.mul_pos positive gives.unit_pos
  have tracked : (next.memory.expiry.expiryAt key).map Int64.toInt =
      some (wrappedDeadline now.toInt n.toInt unitToMs) := by
    obtain ⟨held, _, same⟩ := Option.map_eq_some_iff.mp stored
    exact congrArg Timed.deadline same
  rw [tracked, Option.some.injEq]
  constructor
  · rintro ⟨exact, _⟩
    exact (wrappedDeadline_eq_iff nonneg product).mp exact
  · intro fits
    have exact := (wrappedDeadline_eq_iff nonneg product).mpr fits
    refine ⟨exact, Server.readable_of_view wf healthy stored ?_⟩
    rw [exact, Timed.live_some]
    exact decide_eq_true (by omega)

set_option maxRecDepth 4000 in
private theorem execute_of_set_ex :
    (Server.execute (World.frozen 1000) .arbitrary (Server.fresh none)
      [ascii "SET", ascii "k", ascii "v", ascii "EX", ascii "5"]).map
        Prod.fst = .ok (ascii "+OK\r\n") := by
  rfl

/-- Five seconds from the first second on. -/
theorem acknowledged_ttl_exact_iff_five_seconds :
    ∃ next, Server.execute (World.frozen 1000) .arbitrary (Server.fresh none)
        [ascii "SET", ascii "k", ascii "v", ascii "EX", ascii "5"] =
          .ok (ascii "+OK\r\n", next) ∧
      (next.memory.expiry.expiryAt (ascii "k")).map Int64.toInt = some 6000 ∧
      next.Readable 1000 (ascii "k") := by
  obtain ⟨⟨reply, next⟩, executed, rfl⟩ :=
    exists_of_map_eq_ok execute_of_set_ex
  have reading : (World.frozen 1000).wallMs (next.memory.clockReads - 1) =
      1000 := rfl
  have gives : GivesTtl 5
      [ascii "SET", ascii "k", ascii "v", ascii "EX", ascii "5"] (ascii "k")
      1000 := .setEx rfl rfl rfl
  exact ⟨next, executed, (acknowledged_ttl_exact_iff (.fresh none) (by decide)
    gives executed (.inl rfl) reading (by decide)).mpr (by decide)⟩

set_option maxRecDepth 4000 in
private theorem execute_of_set_px :
    (Server.execute (World.frozen 1000) .arbitrary (Server.fresh none)
      [ascii "SET", ascii "k", ascii "v", ascii "PX",
        ascii "9223372036854775807"]).map
        (fun result => (result.1,
          (result.2.memory.expiry.expiryAt (ascii "k")).map Int64.toInt,
          (result.2.execute (World.frozen 1000) .arbitrary
            [ascii "TYPE", ascii "k"]).map Prod.fst)) =
      .ok (ascii "+OK\r\n", some (1000 + (2 ^ 63 - 1) - 2 ^ 64),
        .ok (Resp.simple (ascii "none"))) := by
  rfl

/-- The largest TTL is acknowledged, stored as a moment long past, and the key
is gone at once. -/
theorem acknowledged_ttl_vanishes :
    ∃ next, Server.execute (World.frozen 1000) .arbitrary (Server.fresh none)
        [ascii "SET", ascii "k", ascii "v", ascii "PX",
          ascii "9223372036854775807"] = .ok (ascii "+OK\r\n", next) ∧
      (next.memory.expiry.expiryAt (ascii "k")).map Int64.toInt =
        some (1000 + (2 ^ 63 - 1) - 2 ^ 64) ∧
      ¬ next.Readable 1000 (ascii "k") := by
  obtain ⟨⟨reply, next⟩, executed, shown⟩ :=
    exists_of_map_eq_ok execute_of_set_px
  simp only [Prod.mk.injEq] at shown
  obtain ⟨rfl, deadline, read⟩ := shown
  refine ⟨next, executed, deadline, ?_⟩
  intro readable
  obtain ⟨type, after, typed, notNone⟩ := readable (World.frozen 1000).disk .arbitrary
  obtain ⟨⟨answer, _⟩, again, rfl⟩ := exists_of_map_eq_ok read
  have same : Resp.simple type = Resp.simple (ascii "none") := by
    have both := typed.symm.trans again
    simp only [Except.ok.injEq, Prod.mk.injEq] at both
    exact both.1
  simp only [Resp.simple, List.append_cancel_right_eq,
    List.append_cancel_left_eq] at same
  exact notNone same

end HermitDb.Core
