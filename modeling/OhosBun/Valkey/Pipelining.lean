/-
# `OhosBun.Valkey.Pipelining` — replies are matched to their commands

A ready connection that is sent regular commands: however sends, flushes and replies come
one after the other, the commands that were put in flight are the first of those that were
sent, their bytes are what the socket and the write buffer have, and the promises that are
settled are the first of them, each with its own reply (`replies_matched`).

That is so while fewer than 2^32 bytes wait; `sent_twice` is what becomes of a command that
is longer.
-/
import OhosBun.Lib.Run
import OhosBun.Valkey.Advance

namespace OhosBun.Valkey

open OhosBun.Lib OhosBun.Collections

/-! ## Runs -/

inductive Event (F64 : Type)
  | send (command : Command)
  | onAutoFlush
  | onWritable
  | response (value : RESPValue F64)

namespace Client
variable {F64 : Type} (env : Environment F64)

def step (c : Client F64) : Event F64 → Client F64
  | .send command => send env c command
  | .onAutoFlush => onAutoFlush env c
  | .onWritable => onWritable env c
  | .response value => handleResponse env c value

def run (c : Client F64) (events : List (Event F64)) : Client F64 := events.foldl (step env) c

/-- A connection that is ready and has not been used. -/
def ready (enableAutoPipelining enableOfflineQueue : Bool) : Client F64 where
  status := .connected
  flags := { enableAutoPipelining, enableOfflineQueue }

/-- Regular commands are sent, and replied to when they are in flight. -/
def Allowed (c : Client F64) : Event F64 → Prop
  | .send command => (command.metaFlags.check command).subscriptionRequest = false
  | .response value => (∀ kind data, value ≠ .push kind data) ∧ c.inFlight ≠ []
  | _ => True

/-- Fewer than 2^32 bytes wait, with those of a command that is sent. -/
def Fits (c : Client F64) : Event F64 → Prop
  | .send command => c.backlog + command.serialize.length < 2 ^ 32
  | _ => c.backlog < 2 ^ 32

/-- What has been sent and what was replied. -/
structure Traffic (F64 : Type) where
  commands : List Command := []
  replies : List (RESPValue F64) := []

def Traffic.note (t : Traffic F64) : Event F64 → Traffic F64
  | .send command => { t with commands := t.commands ++ [command] }
  | .response value => { t with replies := t.replies ++ [value] }
  | _ => t

def traffic (events : List (Event F64)) : Traffic F64 := events.foldl Traffic.note {}

/-- The promises of commands that were sent one after the other. -/
def promisesOf (commands : List Command) : List Promise :=
  commands.mapIdx fun id command => ⟨id, command⟩

theorem promisesOf_append (commands : List Command) (command : Command) :
    promisesOf (commands ++ [command]) = promisesOf commands ++ [⟨commands.length, command⟩] :=
  List.mapIdx_concat

variable {α β γ : Type} {l : List α} {r : List β} {command : Command} {value : RESPValue F64}
  {promise : Promise}

/-- What comes after the shorter list's end does not matter. -/
theorem zipWith_append_of_le (f : α → β → γ) (h : r.length ≤ l.length) (extra : List α) :
    List.zipWith f (l ++ extra) r = List.zipWith f l r := by
  induction l generalizing r with
  | nil =>
    obtain rfl := List.length_eq_zero_iff.mp (Nat.le_zero.mp h)
    rw [List.zipWith_nil_right, List.zipWith_nil_right]
  | cons a l ih =>
    cases r with
    | nil => rw [List.zipWith_nil_right, List.zipWith_nil_right]
    | cons b r =>
      rw [List.cons_append, List.zipWith_cons_cons, List.zipWith_cons_cons,
        ih (Nat.le_of_succ_le_succ h)]

theorem zipWith_concat (f : α → β → γ) (h : r.length < l.length) (b : β) :
    List.zipWith f l (r ++ [b]) = List.zipWith f l r ++ [f l[r.length] b] := by
  induction r generalizing l with
  | nil =>
    cases l with
    | nil => exact absurd h (Nat.not_lt_zero _)
    | cons a l => simp
  | cons b' r ih =>
    cases l with
    | nil => exact absurd h (Nat.not_lt_zero _)
    | cons a l =>
      rw [List.cons_append, List.zipWith_cons_cons, List.zipWith_cons_cons,
        ih (Nat.lt_of_succ_lt_succ h)]
      rfl

/-! ## The invariant -/

/-- What is in order on a connection. -/
structure Matched (c : Client F64) (t : Traffic F64) : Prop where
  connected : c.status = .connected
  flags : c.flags.isSelectingDbInternal = false ∧ c.flags.failed = false
  subscriber : c.subscriptionCtx.isSubscriber = false
  promises : c.promises = t.commands.length
  order : promisesOf t.commands = c.written ++ c.queue.map (·.promise)
  regular : ∀ promise ∈ promisesOf t.commands, promise.metaFlags.subscriptionRequest = false
  queue : ∀ entry ∈ c.queue, entry = Entry.create entry.promise.metaFlags entry.promise
  inFlight : c.inFlight = (c.written.drop t.replies.length).map Promise.toPair
  answered : t.replies.length ≤ c.written.length
  settled : c.settled = List.zipWith (fun promise value =>
    (promise, Client.regular promise.metaFlags value)) c.written t.replies
  bytes : c.socket.sent ++ c.writeBuffer.remaining = c.written.flatMap (·.command.serialize)
  serial : ∀ pair ∈ c.inFlight.tail, pair.metaFlags.supportsAutoPipelining

theorem Matched.init (auto offline : Bool) : Matched (ready auto offline : Client F64) {} where
  connected := rfl
  flags := ⟨rfl, rfl⟩
  subscriber := rfl
  promises := rfl
  order := rfl
  regular _ h := absurd h List.not_mem_nil
  queue _ h := absurd h List.not_mem_nil
  inFlight := rfl
  answered := Nat.le_refl 0
  settled := rfl
  bytes := rfl
  serial _ h := absurd h List.not_mem_nil

variable {env} {c c' : Client F64} {t : Traffic F64}

theorem Matched.advance (h : Matched c t) {moved : List Entry} (hmove : Advance c moved c')
    (hroom : c.backlog < 2 ^ 32) : Matched c' t where
  connected := hmove.status.trans h.connected
  flags := by rw [hmove.flags]; exact h.flags
  subscriber := by rw [hmove.subscriptionCtx]; exact h.subscriber
  promises := hmove.promises.trans h.promises
  order := by
    rw [h.order, hmove.queue, hmove.written, List.map_append, List.append_assoc]
  regular := h.regular
  queue entry hentry := h.queue entry (by
    rw [hmove.queue]
    exact List.mem_append_right _ hentry)
  inFlight := by
    have hmoved : moved.map Entry.toPair = (moved.map (·.promise)).map Promise.toPair := by
      rw [List.map_map]
      refine List.map_congr_left fun entry hentry => ?_
      have heq := h.queue entry (by
        rw [hmove.queue]
        exact List.mem_append_left _ hentry)
      rw [heq]
      rfl
    rw [hmove.inFlight, hmove.written, h.inFlight, List.drop_append_of_le_length h.answered,
      List.map_append, hmoved]
  answered := by
    rw [hmove.written, List.length_append]
    exact Nat.le_add_right_of_le h.answered
  settled := by
    rw [hmove.settled, h.settled, hmove.written, zipWith_append_of_le _ h.answered]
  bytes := by
    have hmoved : moved.flatMap (·.serializedData) =
        (moved.map (·.promise)).flatMap (·.command.serialize) := by
      rw [List.flatMap_map]
      refine List.flatMap_congr fun entry hentry => ?_
      have heq := h.queue entry (by
        rw [hmove.queue]
        exact List.mem_append_left _ hentry)
      rw [heq]
      rfl
    rw [hmove.bytes hroom, h.bytes, hmove.written, List.flatMap_append, hmoved]
  serial := hmove.serial h.serial

theorem Matched.accept (h : Matched c t)
    (hregular : (command.metaFlags.check command).subscriptionRequest = false) :
    Matched (c.accept ⟨c.promises, command⟩) { t with commands := t.commands ++ [command] } where
  connected := h.connected
  flags := h.flags
  subscriber := h.subscriber
  promises := by
    rw [List.length_append, ← h.promises]
    rfl
  order := by
    rw [promisesOf_append, h.order, ← h.promises, List.append_assoc]
    rw [Client.accept, List.map_append]
    rfl
  regular promise hpromise := by
    rw [promisesOf_append] at hpromise
    rcases List.mem_append.mp hpromise with hmem | hmem
    · exact h.regular promise hmem
    · rw [List.mem_singleton.mp hmem]
      exact hregular
  queue entry hentry := by
    rcases List.mem_append.mp hentry with hmem | hmem
    · exact h.queue entry hmem
    · rw [List.mem_singleton.mp hmem]
      rfl
  inFlight := h.inFlight
  answered := h.answered
  settled := h.settled
  bytes := h.bytes
  serial := h.serial

theorem backlog_accept (c : Client F64) (promise : Promise) :
    (c.accept promise).backlog = c.backlog + promise.command.serialize.length := by
  have hqueue : (c.accept promise).queue.flatMap (·.serializedData) =
      c.queue.flatMap (·.serializedData) ++ promise.command.serialize := by
    rw [Client.accept, List.flatMap_append, List.flatMap_singleton]
    rfl
  rw [backlog, hqueue, List.length_append, ← Nat.add_assoc]
  rfl

theorem Matched.sendRejection (h : Matched c t) : c.sendRejection = none := by
  rw [Client.sendRejection, h.flags.2, h.connected]
  rfl

theorem handlePair_of_regular (hsubscriber : c.subscriptionCtx.isSubscriber = false)
    (hpromise : promise.metaFlags.subscriptionRequest = false) :
    handlePair env c value (some promise.toPair) =
      c.settle promise (Client.regular promise.metaFlags value) := by
  unfold handlePair
  rw [hsubscriber, Option.any_some, Promise.toPair, hpromise]
  rfl

theorem Matched.response (h : Matched c t) (hvalue : ∀ kind data, value ≠ .push kind data)
    (hinFlight : c.inFlight ≠ []) :
    Matched (handleResponse env c value) { t with replies := t.replies ++ [value] } := by
  have hlt : t.replies.length < c.written.length := by
    refine Nat.lt_of_not_le fun hle => hinFlight ?_
    rw [h.inFlight, List.drop_eq_nil_of_le hle, List.map_nil]
  have hdrop := List.drop_eq_getElem_cons hlt
  generalize hpromise : c.written[t.replies.length] = promise at hdrop
  have hpairs := h.inFlight
  rw [hdrop, List.map_cons] at hpairs
  have hmem : promise ∈ promisesOf t.commands := by
    rw [h.order, ← hpromise]
    exact List.mem_append_left _ (List.getElem_mem hlt)
  have hconsume : c.shouldConsumePromisePair value = true := by
    cases value with
    | push kind data => exact absurd rfl (hvalue kind data)
    | _ => rfl
  have hresponse : handleResponse env c value =
      { c with
        inFlight := c.inFlight.tail
        settled := c.settled ++ [(promise, Client.regular promise.metaFlags value)] } := by
    rw [handleResponse, if_neg (not_not.mpr h.connected), h.flags.1, hconsume, hpairs]
    dsimp only [List.head?_cons, List.tail_cons]
    exact handlePair_of_regular h.subscriber (h.regular promise hmem)
  rw [hresponse]
  refine ⟨h.connected, h.flags, h.subscriber, h.promises, h.order, h.regular, h.queue, ?_, ?_, ?_,
    h.bytes, fun pair hpair => h.serial pair (List.mem_of_mem_tail hpair)⟩
  · rw [List.length_append]
    dsimp only
    rw [hpairs, List.tail_cons]
    rfl
  · rw [List.length_append]
    exact hlt
  · dsimp only
    rw [h.settled, zipWith_concat _ hlt, hpromise]

/-- One event keeps what is in order. -/
theorem Matched.step {event : Event F64} (h : Matched c t) (hallowed : Allowed c event)
    (hfits : Fits c event) : Matched (Client.step env c event) (t.note event) := by
  cases event with
  | send command =>
    obtain ⟨moved, hmove⟩ := advance_send env c command h.sendRejection
    refine (h.accept hallowed).advance hmove ?_
    rw [backlog_accept]
    exact hfits
  | onAutoFlush =>
    obtain ⟨moved, hmove⟩ := advance_onAutoFlush env c
    exact h.advance hmove hfits
  | onWritable =>
    obtain ⟨moved, hmove⟩ := advance_sendNextCommand env c
    exact h.advance hmove hfits
  | response value => exact h.response hallowed.1 hallowed.2

/-- What is in order in every state of a run. -/
theorem matched_run (env : Environment F64) (auto offline : Bool) (events : List (Event F64))
    (h : Along (Client.step env) (fun c event => Allowed c event ∧ Fits c event)
      (ready auto offline) events) :
    Matched (run env (ready auto offline) events) (traffic events) :=
  foldl_of_along (fun _ _ _ h hguard => h.step hguard.1 hguard.2) events (.init auto offline) h

/-- The commands that were sent are those that are answered, those that are in flight and
those that wait in the queue.  The bytes of the first two are what the socket and the write
buffer have, each reply settles the promise of its own command, and of the commands in flight
only the first may be one that is not pipelined. -/
theorem replies_matched (env : Environment F64) (auto offline : Bool) (events : List (Event F64))
    (h : Along (Client.step env) (fun c event => Allowed c event ∧ Fits c event)
      (ready auto offline) events) :
    let c := run env (ready auto offline) events
    let t := traffic events
    ∃ answered unanswered waiting : List Promise,
      promisesOf t.commands = answered ++ unanswered ++ waiting ∧
      c.socket.sent ++ c.writeBuffer.remaining =
        (answered ++ unanswered).flatMap (·.command.serialize) ∧
      answered.length = t.replies.length ∧
      c.settled = List.zipWith (fun promise value =>
        (promise, Client.regular promise.metaFlags value)) answered t.replies ∧
      c.inFlight = unanswered.map Promise.toPair ∧ c.queue.map (·.promise) = waiting ∧
      ∀ promise ∈ unanswered.tail, promise.metaFlags.supportsAutoPipelining := by
  have hmatched := matched_run env auto offline events h
  intro c t
  have htake : c.written.take t.replies.length ++ c.written.drop t.replies.length = c.written :=
    List.take_append_drop _ _
  have hlen : (c.written.take t.replies.length).length = t.replies.length :=
    List.length_take_of_le hmatched.answered
  refine ⟨c.written.take t.replies.length, c.written.drop t.replies.length, _, ?_, ?_, hlen, ?_,
    hmatched.inFlight, rfl, fun promise hpromise => ?_⟩
  · rw [htake]
    exact hmatched.order
  · rw [htake]
    exact hmatched.bytes
  · rw [← zipWith_append_of_le _ (Nat.le_of_eq hlen.symm), htake]
    exact hmatched.settled
  · have hserial := hmatched.serial promise.toPair
    rw [hmatched.inFlight, ← List.map_tail] at hserial
    exact hserial (List.mem_map_of_mem hpromise)

/-- `PING`, of which the socket takes five bytes at first, and its reply. -/
theorem replies_matched_ping :
    (run ⟨fun _ => 5, fun _ _ => true⟩ (ready true true : Client Unit)
      [.send ⟨ascii "PING", [], {}⟩, .onAutoFlush,
        .response (.simpleString (ascii "PONG"))]).settled =
      [(⟨0, ⟨ascii "PING", [], {}⟩⟩, .resolved (.simpleString (ascii "PONG")))] := by
  have hserialize : Command.serialize ⟨ascii "PING", [], {}⟩ = ascii "*1\r\n$4\r\nPING\r\n" := by
    decide
  have hsent : 0 + (Command.serialize ⟨ascii "PING", [], {}⟩ ++ []).length < 2 ^ 32 := by
    rw [hserialize]
    decide
  obtain ⟨answered, unanswered, waiting, hcommands, -, hlen, hsettled, -⟩ :=
    replies_matched (⟨fun _ => 5, fun _ _ => true⟩ : Environment Unit) true true
      [.send ⟨ascii "PING", [], {}⟩, .onAutoFlush, .response (.simpleString (ascii "PONG"))]
      ⟨⟨rfl, by rwa [List.append_nil] at hsent⟩, ⟨trivial, hsent⟩, ⟨⟨by simp, fun h => by
        change (flushData _ _).inFlight = [] at h
        rw [(advance_flushData _ _).inFlight] at h
        exact absurd h (List.cons_ne_nil _ _)⟩, by
          obtain ⟨moved, hmove⟩ := advance_onAutoFlush (⟨fun _ => 5, fun _ _ => true⟩ :
            Environment Unit) (send ⟨fun _ => 5, fun _ _ => true⟩ (ready true true)
              ⟨ascii "PING", [], {}⟩)
          exact hmove.backlog_le.trans_lt hsent⟩, trivial⟩
  rw [hsettled]
  match answered, hlen, hcommands with
  | [promise], _, hcommands =>
    have hpromise : [⟨0, ⟨ascii "PING", [], {}⟩⟩] = promise :: (unanswered ++ waiting) :=
      hcommands.trans (List.append_assoc _ _ _)
    rw [← (List.cons.inj hpromise).1]
    rfl

/-! ## A command that is too long -/

/-- So many bytes are sent and so many are gone from the write buffer, of many more. -/
structure Sending (c : Client F64) (sent gone : Nat) : Prop where
  opened : c.socket.closed = false
  writes : c.socket.writes ≠ 0
  sent : c.socket.sent.length = sent
  length : 2 ^ 34 ≤ c.writeBuffer.byteList.length
  head : c.writeBuffer.head = gone
  gone_lt : gone < 2 ^ 32

/-- The socket takes as much as it can, and the offset comes to its bound. -/
theorem Sending.onWritable {sent gone : Nat} (h : Sending c sent gone)
    (htakes : ∀ n ≠ 0, env.takes n = 2 ^ 31 - 1) :
    Sending (onWritable env c) (sent + (2 ^ 31 - 1))
        (OffsetByteList.saturatingAdd gone (2 ^ 31 - 1)) ∧
      (Client.onWritable env c).writeBuffer.byteList = c.writeBuffer.byteList := by
  have hlen := h.length
  have hgone := h.gone_lt
  have hremaining : c.writeBuffer.remaining.length = c.writeBuffer.byteList.length - gone := by
    rw [OffsetByteList.length_remaining, h.head]
  have hne : c.writeBuffer.remaining ≠ [] := by
    refine List.ne_nil_of_length_pos ?_
    omega
  have hwrite : c.socket.write env.takes c.writeBuffer.remaining = (2 ^ 31 - 1,
      { sent := c.socket.sent ++ c.writeBuffer.remaining.take (2 ^ 31 - 1)
        writes := c.socket.writes + 1 }) := by
    have hmin : min (2 ^ 31 - 1 : Int) (min ((c.writeBuffer.byteList.length - gone : Nat) : Int)
        (2 ^ 31 - 1)) = 2 ^ 31 - 1 := by omega
    rw [Socket.write, h.opened, htakes _ h.writes, hremaining, if_neg (by decide), hmin]
    rfl
  have hflush : Client.onWritable env c = { c with
      socket := {
        sent := c.socket.sent ++ c.writeBuffer.remaining.take (2 ^ 31 - 1)
        writes := c.socket.writes + 1 }
      writeBuffer := c.writeBuffer.consume (2 ^ 31 - 1) } := by
    rw [Client.onWritable, sendNextCommand, List.isEmpty_eq_false_iff.mpr hne, Bool.false_and,
      if_neg (by decide), flushData]
    dsimp only
    rw [if_neg hne, hwrite]
    rfl
  have hkeep : (c.writeBuffer.consume (2 ^ 31 - 1)).head =
        OffsetByteList.saturatingAdd c.writeBuffer.head (2 ^ 31 - 1) ∧
      (c.writeBuffer.consume (2 ^ 31 - 1)).byteList = c.writeBuffer.byteList := by
    refine OffsetByteList.consume_of_lt ?_
    rw [h.head, OffsetByteList.saturatingAdd]
    omega
  rw [h.head] at hkeep
  rw [hflush]
  refine ⟨⟨rfl, Nat.succ_ne_zero _, ?_, ?_, hkeep.1, ?_⟩, hkeep.2⟩
  · rw [List.length_append, h.sent, List.length_take, hremaining]
    omega
  · rw [hkeep.2]
    exact hlen
  · rw [OffsetByteList.saturatingAdd]
    omega

theorem flushData_of_zero (hopened : c.socket.closed = false)
    (htakes : env.takes c.socket.writes = 0) (hne : c.writeBuffer.remaining ≠ []) :
    flushData env c = { c with socket := { c.socket with writes := c.socket.writes + 1 } } := by
  have hwrite : c.socket.write env.takes c.writeBuffer.remaining =
      (0, { c.socket with writes := c.socket.writes + 1 }) := by
    have hmin : min (0 : Int) (min (c.writeBuffer.remaining.length : Int) (2 ^ 31 - 1)) = 0 := by
      omega
    rw [Socket.write, if_neg (by rw [hopened]; decide), htakes, hmin]
    dsimp only
    rw [Int.toNat_zero, List.take_zero, List.append_nil]
  rw [flushData]
  dsimp only
  rw [if_neg hne, hwrite]
  rfl

/-- Without auto pipelining a command is written at once if nothing waits. -/
theorem enqueue_direct (env : Environment F64) (c : Client F64) (hqueue : c.queue = [])
    (hinFlight : c.inFlight = []) (hready : c.connectionReady = true)
    (hsupports : promise.metaFlags.supportsAutoPipelining = true)
    (hauto : c.flags.enableAutoPipelining = false) : enqueue env c promise = flushData env
      { c with
        writeBuffer := c.writeBuffer.write promise.command.serialize
        inFlight := [promise.toPair]
        written := c.written ++ [promise] } := by
  rw [enqueue, hqueue, hinFlight, hready, hsupports, hauto]
  rfl

theorem send_manual (env : Environment F64) (c : Client F64) (command : Command)
    (h : c.sendRejection = none) (hauto : c.flags.enableAutoPipelining = false) :
    send env c command = enqueue env { c with promises := c.promises + 1 } ⟨c.promises, command⟩ := by
  have hrejection : Client.sendRejection { c with promises := c.promises + 1 } = none := h
  obtain ⟨moved, hmove⟩ :=
    advance_enqueue env { c with promises := c.promises + 1 } ⟨c.promises, command⟩
  rw [send]
  dsimp only
  rw [hrejection]
  dsimp only
  rw [hmove.flags, hauto, Bool.false_and, Bool.false_and, Bool.false_and, if_neg (by decide)]

/-- A command that is written at once, of which the socket takes nothing. -/
theorem Sending.send (htakes : env.takes 0 = 0)
    (hcommand : (command.metaFlags.check command).supportsAutoPipelining = true)
    (hlen : 2 ^ 34 ≤ command.serialize.length) :
    Sending (Client.send env (ready false true) command) 0 0 ∧
      (Client.send env (ready false true) command).writeBuffer.byteList = command.serialize := by
  have hmeta : (Promise.mk 0 command).metaFlags.supportsAutoPipelining = true := hcommand
  have hne : (OffsetByteList.write {} command.serialize).remaining ≠ [] := by
    rw [OffsetByteList.remaining_write]
    refine List.ne_nil_of_length_pos ?_
    rw [List.length_append]
    omega
  have hflush : flushData env
      { (ready false true : Client F64) with
        promises := 1
        writeBuffer := OffsetByteList.write {} command.serialize
        inFlight := [Promise.toPair ⟨0, command⟩]
        written := [⟨0, command⟩] } =
      { (ready false true : Client F64) with
        promises := 1
        writeBuffer := OffsetByteList.write {} command.serialize
        inFlight := [Promise.toPair ⟨0, command⟩]
        written := [⟨0, command⟩]
        socket := { writes := 1 } } :=
    flushData_of_zero rfl htakes hne
  have henqueue := enqueue_direct env { (ready false true : Client F64) with promises := 1 }
    rfl rfl rfl hmeta rfl
  have hsend : Client.send env (ready false true) command =
      { (ready false true : Client F64) with
        promises := 1
        writeBuffer := OffsetByteList.write {} command.serialize
        inFlight := [Promise.toPair ⟨0, command⟩]
        written := [⟨0, command⟩]
        socket := { writes := 1 } } :=
    (send_manual env (ready false true) command rfl rfl).trans (henqueue.trans hflush)
  rw [hsend]
  exact ⟨⟨rfl, Nat.one_ne_zero, rfl, hlen, rfl, by decide⟩, rfl⟩

/-- A command of 2^34 bytes, of which the socket takes none at first and then as much as it
can three times: by then some bytes have been sent that wait to be sent again. -/
theorem sent_twice : ¬ ∀ (env : Environment Unit) (auto offline : Bool) (events : List (Event Unit)),
    Along (Client.step env) Allowed (ready auto offline) events →
    ∃ n, (run env (ready auto offline) events).socket.sent ++
        (run env (ready auto offline) events).writeBuffer.remaining =
      ((traffic events).commands.take n).flatMap Command.serialize := by
  intro h
  obtain ⟨n, hn⟩ : ∃ n : Nat, 2 ^ 34 ≤ n := ⟨_, Nat.le_refl _⟩
  obtain ⟨command, hregular, hsupports, hlen⟩ : ∃ command : Command,
      (command.metaFlags.check command).subscriptionRequest = false ∧
      (command.metaFlags.check command).supportsAutoPipelining = true ∧
      2 ^ 34 ≤ command.serialize.length := by
    refine ⟨⟨ascii "PING", [List.replicate n 0], {}⟩, rfl, rfl, ?_⟩
    simp only [Command.serialize, List.flatMap_singleton, bulkString, List.length_append,
      List.length_replicate]
    omega
  obtain ⟨env, hzero, htakes⟩ : ∃ env : Environment Unit,
      env.takes 0 = 0 ∧ ∀ n ≠ 0, env.takes n = 2 ^ 31 - 1 :=
    ⟨⟨fun n => if n = 0 then 0 else 2 ^ 31 - 1, fun _ _ => true⟩, rfl, fun n hn => if_neg hn⟩
  obtain ⟨h₁, hlist₁⟩ := Sending.send hzero hsupports hlen
  obtain ⟨h₂, hlist₂⟩ := h₁.onWritable htakes
  obtain ⟨h₃, hlist₃⟩ := h₂.onWritable htakes
  obtain ⟨h₄, hlist₄⟩ := h₃.onWritable htakes
  obtain ⟨k, hsent⟩ := h env false true [.send command, .onWritable, .onWritable, .onWritable]
    ⟨hregular, trivial, trivial, trivial, trivial⟩
  have hrun : run env (ready false true) [.send command, .onWritable, .onWritable, .onWritable] =
      Client.onWritable env (Client.onWritable env (Client.onWritable env
        (Client.send env (ready false true) command))) := by
    simp only [run, List.foldl_cons, List.foldl_nil, Client.step]
  have hgone : OffsetByteList.saturatingAdd (OffsetByteList.saturatingAdd
      (OffsetByteList.saturatingAdd 0 (2 ^ 31 - 1)) (2 ^ 31 - 1)) (2 ^ 31 - 1) = 2 ^ 32 - 1 := by
    simp only [OffsetByteList.saturatingAdd]
    omega
  have hcount := congrArg List.length hsent
  rw [hrun, List.length_append, OffsetByteList.length_remaining, h₄.sent, h₄.head, hlist₄, hlist₃,
    hlist₂, hlist₁, hgone] at hcount
  have hle : (([command].take k).flatMap Command.serialize).length ≤ command.serialize.length := by
    cases k with
    | zero => exact Nat.zero_le _
    | succ k => simp
  have htraffic : (traffic ([.send command, .onWritable, .onWritable, .onWritable] :
      List (Event Unit))).commands = [command] := rfl
  rw [htraffic] at hcount
  omega

end Client

end OhosBun.Valkey
