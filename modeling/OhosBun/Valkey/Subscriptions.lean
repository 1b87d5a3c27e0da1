/-
# `OhosBun.Valkey.Subscriptions` — which promise a confirmation settles

The client and a server that answers the commands in the order they were written: a regular
command with a reply, a subscription command with a confirmation for each of its channels.
Only the first confirmation of a command is to take a promise.  The client knows the others
by what is at the head of the commands in flight, so they take the promise of the next
subscription command if it has been put in flight by then (`confirmed_next`).

Where that does not happen, no confirmation settles the promise of a later command
(`confirmed_own`): the answers that are owed first are for commands that are in flight, in
the same order.
-/
import OhosBun.Valkey.Pipelining

namespace OhosBun.Valkey

open OhosBun.Lib OhosBun.Collections

/-- The kind of a push that is about subscriptions. -/
def RESPValue.pushKind {F64 : Type} : RESPValue F64 → Option SubscriptionPushMessage
  | .push kind _ => SubscriptionPushMessage.fromBytes kind
  | _ => none

def RESPValue.isPush {F64 : Type} : RESPValue F64 → Bool
  | .push _ _ => true
  | _ => false

/-- A confirmation, whichever of the two. -/
def RESPValue.Confirms {F64 : Type} (value : RESPValue F64) : Prop :=
  value.pushKind = some .subscribe ∨ value.pushKind = some .unsubscribe

def RESPValue.IsMessage {F64 : Type} (value : RESPValue F64) : Prop :=
  value.pushKind = some .message ∨ value.pushKind = some .patternMessage

/-! ## The system -/

/-- What the server owes: to which command, and whether it is the first answer to it. -/
structure Answer where
  owner : Promise
  confirmation : Bool
  first : Bool
deriving DecidableEq

/-- The answers to a command. -/
def answersTo (promise : Promise) : List Answer :=
  if promise.metaFlags.subscriptionRequest then
    (List.range promise.command.args.length).map fun i => ⟨promise, true, i = 0⟩
  else [⟨promise, false, true⟩]

inductive Action (F64 : Type)
  | send (command : Command)
  | onAutoFlush
  | onWritable
  /-- Listeners are added or removed. -/
  | listeners (channels : Nat)
  /-- What the server owes next. -/
  | answer (value : RESPValue F64)
  | message (value : RESPValue F64)

/-- `confirmed` has the command that a confirmation was for and the promise that it settled. -/
structure System (F64 : Type) where
  client : Client F64
  owed : List Answer := []
  confirmed : List (Promise × Promise) := []

namespace System
variable {F64 : Type} (env : Environment F64)

/-- The client goes on, and the server owes answers to what it has written. -/
def advance (s : System F64) (client : Client F64) : System F64 :=
  { s with
    client
    owed := s.owed ++ (client.written.drop s.client.written.length).flatMap answersTo }

/-- The answer that is owed next comes in. -/
def receive (s : System F64) (value : RESPValue F64) : System F64 :=
  match s.owed with
  | [] => s
  | answer :: owed =>
    let client := s.client.handleResponse env value
    let settled := client.settled.drop s.client.settled.length
    advance
      { s with
        owed
        confirmed := s.confirmed ++
          if answer.confirmation then settled.map fun new => (answer.owner, new.1) else [] }
      client

def step (s : System F64) : Action F64 → System F64
  | .send command => s.advance (s.client.send env command)
  | .onAutoFlush => s.advance (s.client.onAutoFlush env)
  | .onWritable => s.advance (s.client.onWritable env)
  | .listeners channels => s.advance { s.client with channelsSubscribedTo := channels }
  | .answer value => s.receive env value
  | .message value => s.advance (s.client.handleResponse env value)

def run (s : System F64) (actions : List (Action F64)) : System F64 := actions.foldl (step env) s

def start (enableAutoPipelining enableOfflineQueue : Bool) : System F64 where
  client := Client.ready enableAutoPipelining enableOfflineQueue

/-- What the server sends: on an open connection what it owes, or a message. -/
def Allowed (s : System F64) : Action F64 → Prop
  | .answer value => s.client.socket.closed = false ∧ ∃ answer ∈ s.owed.head?,
      if answer.confirmation then value.Confirms else value.isPush = false
  | .message value => s.client.socket.closed = false ∧ value.IsMessage
  | _ => True

/-- A further confirmation of a command comes while no subscription command that was sent
after it is at the head of those in flight. -/
def Apart (s : System F64) : Action F64 → Prop
  | .answer _ => ∀ answer ∈ s.owed.head?, answer.confirmation = true → answer.first = false →
      ∀ pair ∈ s.client.inFlight.head?, pair.metaFlags.subscriptionRequest = true →
        ¬ answer.owner.id < pair.promise.id
  | _ => True

/-- No promise is settled by a confirmation of an earlier command. -/
def Own (s : System F64) : Prop := ∀ confirmed ∈ s.confirmed, ¬ confirmed.1.id < confirmed.2.id

end System

/-! ## What a response does to the client -/

namespace Client
variable {F64 : Type} (env : Environment F64)

/-- Commands move, and promises are settled. -/
structure Reaction (c : Client F64) (moved : List Entry) (new : List (Promise × Settlement F64))
    (c' : Client F64) : Prop where
  queue : c.queue = moved ++ c'.queue
  inFlight : c'.inFlight = c.inFlight ++ moved.map Entry.toPair
  written : c'.written = c.written ++ moved.map (·.promise)
  status : c'.status = c.status
  selecting : c'.flags.isSelectingDbInternal = c.flags.isSelectingDbInternal
  failed : c'.flags.failed = c.flags.failed
  promises : c'.promises = c.promises
  closed : c'.socket.closed = c.socket.closed
  settled : c'.settled = c.settled ++ new

namespace Reaction
variable {env} {c c' c'' : Client F64} {moved moved' : List Entry}
  {new new' : List (Promise × Settlement F64)}

theorem of_advance (h : Advance c moved c') : Reaction c moved [] c' where
  queue := h.queue
  inFlight := h.inFlight
  written := h.written
  status := h.status
  selecting := by rw [h.flags]
  failed := by rw [h.flags]
  promises := h.promises
  closed := h.closed
  settled := by rw [h.settled, List.append_nil]

theorem trans (h : Reaction c moved new c') (h' : Reaction c' moved' new' c'') :
    Reaction c (moved ++ moved') (new ++ new') c'' where
  queue := by rw [h.queue, h'.queue, List.append_assoc]
  inFlight := by rw [h'.inFlight, h.inFlight, List.map_append, List.append_assoc]
  written := by rw [h'.written, h.written, List.map_append, List.append_assoc]
  status := h'.status.trans h.status
  selecting := h'.selecting.trans h.selecting
  failed := h'.failed.trans h.failed
  promises := h'.promises.trans h.promises
  closed := h'.closed.trans h.closed
  settled := by rw [h'.settled, h.settled, List.append_assoc]

/-- Nothing moved. -/
theorem still (heq : c' = { c with
      flags := { c'.flags with
        isSelectingDbInternal := c.flags.isSelectingDbInternal
        failed := c.flags.failed }
      subscriptionCtx := c'.subscriptionCtx
      channelsSubscribedTo := c'.channelsSubscribedTo
      settled := c.settled ++ new }) : Reaction c [] new c' := by
  rw [heq]
  exact ⟨rfl, (List.append_nil _).symm, (List.append_nil _).symm, rfl, rfl, rfl, rfl, rfl, rfl⟩

theorem refl (c : Client F64) : Reaction c [] [] c :=
  still (by rw [List.append_nil])

theorem settlePair (c : Client F64) (pair : Option PromisePair) (settlement : Settlement F64) :
    Reaction c [] (pair.toList.map fun pair => (pair.promise, settlement))
      (c.settlePair pair settlement) := by
  cases pair with
  | none => exact refl c
  | some pair => exact still rfl

theorem addSubscription (c : Client F64) : Reaction c [] [] c.addSubscription :=
  still (by rw [List.append_nil]; rfl)

theorem removeSubscription (c : Client F64) : Reaction c [] [] c.removeSubscription := by
  refine still ?_
  rw [List.append_nil, Client.removeSubscription]
  split
  · rfl
  · rfl

end Reaction

section Responses
variable {value : RESPValue F64} (c : Client F64)

theorem reaction_onWritable : ∃ moved, Reaction c moved [] (onWritable env c) := by
  obtain ⟨moved, hmove⟩ := advance_sendNextCommand env c
  exact ⟨moved, .of_advance hmove⟩

/-- A confirmation settles the promise it is given. -/
theorem reaction_confirms (hvalue : value.Confirms) (pair : Option PromisePair) :
    ∃ moved settlement c', handleSubscribeResponse env c value pair = some c' ∧
      Reaction c moved (pair.toList.map fun pair => (pair.promise, settlement)) c' := by
  obtain ⟨kind, data, rfl, hkind⟩ : ∃ kind data, value = .push kind data ∧
      (SubscriptionPushMessage.fromBytes kind = some .subscribe ∨
        SubscriptionPushMessage.fromBytes kind = some .unsubscribe) := by
    cases value with
    | push kind data => exact ⟨kind, data, rfl, hvalue⟩
    | _ => exact absurd hvalue (by simp [RESPValue.Confirms, RESPValue.pushKind])
  rcases hkind with hkind | hkind
  · obtain ⟨moved, hmove⟩ := reaction_onWritable env c.addSubscription
    have hsettle := ((Reaction.addSubscription c).trans hmove).trans (.settlePair _ pair
      (if SubscriptionPushMessage.isReplyKind kind then .resolved (.push kind data)
        else .subscribed c.channelsSubscribedTo))
    refine ⟨_, _, _, ?_, hsettle⟩
    rw [handleSubscribeResponse, hkind]
  · obtain ⟨moved, hmove⟩ := reaction_onWritable env c
    have hsettle := (hmove.trans (.removeSubscription _)).trans (.settlePair _ pair
      (if SubscriptionPushMessage.isReplyKind kind then .resolved (.push kind data)
        else .unsubscribed))
    refine ⟨_, _, _, ?_, hsettle⟩
    rw [handleSubscribeResponse, hkind]

/-- A confirmation is handled with or without a promise. -/
theorem reaction_confirmation (hvalue : value.Confirms) (pair : Option PromisePair)
    (hpair : ∀ p ∈ pair, p.metaFlags.subscriptionRequest = true) :
    ∃ moved settlement, Reaction c moved
      (pair.toList.map fun pair => (pair.promise, settlement)) (handlePair env c value pair) := by
  obtain ⟨moved, settlement, c', hhandle, hreaction⟩ := reaction_confirms env c hvalue pair
  obtain ⟨kind, data, rfl, hkind⟩ : ∃ kind data, value = .push kind data ∧
      (SubscriptionPushMessage.fromBytes kind).isSome = true := by
    cases value with
    | push kind data =>
      refine ⟨kind, data, rfl, ?_⟩
      rcases hvalue with hkind | hkind
      · exact Option.isSome_of_mem hkind
      · exact Option.isSome_of_mem hkind
    | _ => exact absurd hvalue (by simp [RESPValue.Confirms, RESPValue.pushKind])
  unfold handlePair
  dsimp only
  split
  · rw [hhandle, Option.getD_some]
    exact ⟨moved, settlement, hreaction⟩
  next hneither =>
    cases pair with
    | none => exact ⟨[], settlement, .refl c⟩
    | some pair =>
      refine absurd ?_ hneither
      rw [Option.any_some, hpair pair rfl, Bool.or_true]

theorem reaction_message (hvalue : value.IsMessage) :
    ∃ moved, Reaction c moved [] (handlePair env c value none) := by
  cases value with
  | push kind data =>
    unfold handlePair
    dsimp only
    split
    · rcases hvalue with hkind | hkind
      · have hkind' : SubscriptionPushMessage.fromBytes kind = some .message := hkind
        rw [hkind', Option.isSome_some, if_pos rfl, handleSubscribeResponse, hkind',
          Option.getD_some, onValkeyMessage.eq_def]
        split
        · exact ⟨[], .refl c⟩
        · split
          · split
            · exact reaction_onWritable env c
            · exact ⟨[], .refl c⟩
          · exact ⟨[], .refl c⟩
      · have hkind' : SubscriptionPushMessage.fromBytes kind = some .patternMessage := hkind
        rw [hkind', Option.isSome_some, if_pos rfl, handleSubscribeResponse, hkind']
        exact ⟨[], .refl c⟩
    · exact ⟨[], .refl c⟩
  | _ => exact absurd hvalue (by simp [RESPValue.IsMessage, RESPValue.pushKind])

theorem reaction_handleRegular (pair : Option PromisePair) :
    ∃ new, Reaction c [] new (c.handleRegular value pair) := by
  cases pair with
  | none => exact ⟨[], .refl c⟩
  | some pair => exact ⟨_, .settlePair c (some pair) (regular pair.metaFlags value)⟩

theorem closed_fail (hfailed : c.flags.failed = false) (message : Bytes) (err : RedisError) :
    (c.fail message err).socket.closed = true := by
  rw [fail, hfailed]
  rfl

/-- A reply settles a promise, or the connection is closed. -/
theorem reaction_reply (hvalue : value.isPush = false) (hfailed : c.flags.failed = false)
    (pair : Option PromisePair) : (handlePair env c value pair).socket.closed = true ∨
      ∃ new, Reaction c [] new (handlePair env c value pair) := by
  unfold handlePair
  dsimp only
  split
  · cases value with
    | push kind data => exact absurd hvalue (by simp [RESPValue.isPush])
    | error err =>
      dsimp only
      split
      · exact .inl (closed_fail c hfailed _ _)
      · exact .inr (reaction_handleRegular c pair)
    | _ => exact .inr (reaction_handleRegular c pair)
  · exact .inr (reaction_handleRegular c pair)

end Responses

/-! ## The invariant -/

/-- The commands that the next answers are the first to. -/
def awaited (owed : List Answer) : List Promise := (owed.filter (·.first)).map (·.owner)

/-- What is in order on an open connection. -/
structure Orderly (c : Client F64) (owed : List Answer) : Prop where
  connected : c.status = .connected
  selecting : c.flags.isSelectingDbInternal = false
  failed : c.flags.failed = false
  order : (c.written ++ c.queue.map (·.promise)).Pairwise (·.id < ·.id)
  fresh : ∀ promise ∈ c.written ++ c.queue.map (·.promise), promise.id < c.promises
  queue : ∀ entry ∈ c.queue, entry = Entry.create entry.promise.metaFlags entry.promise
  inFlight : ∃ popped rest, c.written = popped ++ rest ∧ c.inFlight = rest.map Promise.toPair
  answers : ∃ given, c.written.flatMap answersTo = given ++ owed
  awaits : (awaited owed).Sublist (c.inFlight.map (·.promise))

theorem awaited_answersTo (promise : Promise) : (awaited (answersTo promise)).Sublist [promise] := by
  rw [answersTo]
  split
  · cases promise.command.args.length with
    | zero => exact List.nil_sublist _
    | succ n =>
      have hrest : awaited ((List.range n).map fun i => ⟨promise, true, i + 1 = 0⟩) = [] := by
        simp [awaited]
      rw [List.range_succ_eq_map, List.map_cons, List.map_map]
      exact List.Sublist.cons_cons _ (List.sublist_nil.mpr hrest)
  · exact List.Sublist.refl _

theorem awaited_append (owed owed' : List Answer) :
    awaited (owed ++ owed') = awaited owed ++ awaited owed' := by
  rw [awaited, List.filter_append, List.map_append]
  rfl

theorem awaited_flatMap (promises : List Promise) :
    (awaited (promises.flatMap answersTo)).Sublist promises := by
  induction promises with
  | nil => exact List.nil_sublist _
  | cons promise promises ih =>
    rw [List.flatMap_cons, awaited_append]
    exact (awaited_answersTo promise).append ih

/-- The first answer to a command comes after all answers to the ones before. -/
theorem pairwise_answersTo {promises : List Promise} (h : promises.Pairwise (·.id < ·.id)) :
    (promises.flatMap answersTo).Pairwise fun a b => b.first = true → a.owner.id < b.owner.id := by
  have howner : ∀ {promise : Promise}, ∀ answer ∈ answersTo promise, answer.owner = promise := by
    intro promise answer hanswer
    rw [answersTo] at hanswer
    split at hanswer
    · obtain ⟨i, -, rfl⟩ := List.mem_map.mp hanswer
      rfl
    · rw [List.mem_singleton.mp hanswer]
  refine List.pairwise_flatMap.mpr ⟨fun promise _ => ?_, h.imp fun hlt a ha b hb _ => ?_⟩
  · rw [answersTo]
    split
    · refine (List.pairwise_map.mpr ?_)
      refine List.pairwise_lt_range.imp fun hlt hfirst => ?_
      exact absurd (of_decide_eq_true hfirst) (Nat.ne_zero_of_lt hlt)
    · exact List.pairwise_singleton _ _
  · rw [howner a ha, howner b hb]
    exact hlt

namespace Orderly
variable {env} {c c' : Client F64} {owed : List Answer}

theorem init (auto offline : Bool) : Orderly (ready auto offline : Client F64) [] where
  connected := rfl
  selecting := rfl
  failed := rfl
  order := List.Pairwise.nil
  fresh _ h := absurd h List.not_mem_nil
  queue _ h := absurd h List.not_mem_nil
  inFlight := ⟨[], [], rfl, rfl⟩
  answers := ⟨[], rfl⟩
  awaits := List.nil_sublist _

/-- What is written is owed answers. -/
theorem advance {moved : List Entry} {new : List (Promise × Settlement F64)} (h : Orderly c owed)
    (hmove : Reaction c moved new c') :
    Orderly c' (owed ++ (c'.written.drop c.written.length).flatMap answersTo) := by
  have hall : c'.written ++ c'.queue.map (·.promise) = c.written ++ c.queue.map (·.promise) := by
    rw [hmove.written, hmove.queue, List.map_append, List.append_assoc]
  have hdrop : c'.written.drop c.written.length = moved.map (·.promise) := by
    rw [hmove.written, List.drop_left]
  have hpairs : moved.map Entry.toPair = (moved.map (·.promise)).map Promise.toPair := by
    rw [List.map_map]
    refine List.map_congr_left fun entry hentry => ?_
    have heq := h.queue entry (by
      rw [hmove.queue]
      exact List.mem_append_left _ hentry)
    rw [heq]
    rfl
  rw [hdrop]
  exact {
    connected := hmove.status.trans h.connected
    selecting := hmove.selecting.trans h.selecting
    failed := hmove.failed.trans h.failed
    order := by
      rw [hall]
      exact h.order
    fresh := by
      rw [hall, hmove.promises]
      exact h.fresh
    queue := fun entry hentry => h.queue entry (by
      rw [hmove.queue]
      exact List.mem_append_right _ hentry)
    inFlight := by
      obtain ⟨popped, rest, hwritten, hinFlight⟩ := h.inFlight
      refine ⟨popped, rest ++ moved.map (·.promise), ?_, ?_⟩
      · rw [hmove.written, hwritten, List.append_assoc]
      · rw [hmove.inFlight, hinFlight, hpairs, List.map_append]
    answers := by
      obtain ⟨given, hgiven⟩ := h.answers
      refine ⟨given, ?_⟩
      rw [hmove.written, List.flatMap_append, hgiven, List.append_assoc]
    awaits := by
      have hpromises : (moved.map Entry.toPair).map (·.promise) = moved.map (·.promise) := by
        rw [List.map_map]
        rfl
      rw [awaited_append, hmove.inFlight, List.map_append, hpromises]
      exact h.awaits.append (awaited_flatMap _) }

theorem accept (h : Orderly c owed) (command : Command) :
    Orderly (c.accept ⟨c.promises, command⟩) owed := by
  have hall : (c.accept ⟨c.promises, command⟩).written ++
      (c.accept ⟨c.promises, command⟩).queue.map (·.promise) =
      (c.written ++ c.queue.map (·.promise)) ++ [⟨c.promises, command⟩] := by
    rw [Client.accept, List.map_append, List.append_assoc]
    rfl
  refine ⟨h.connected, h.selecting, h.failed, ?_, ?_, ?_, h.inFlight, h.answers, h.awaits⟩
  · rw [hall]
    refine List.pairwise_append.mpr ⟨h.order, List.pairwise_singleton _ _, ?_⟩
    intro promise hpromise promise' hpromise'
    rw [List.mem_singleton.mp hpromise']
    exact h.fresh promise hpromise
  · rw [hall]
    intro promise hpromise
    rcases List.mem_append.mp hpromise with hmem | hmem
    · exact Nat.lt_succ_of_lt (h.fresh promise hmem)
    · rw [List.mem_singleton.mp hmem]
      exact Nat.lt_succ_self _
  · intro entry hentry
    rcases List.mem_append.mp hentry with hmem | hmem
    · exact h.queue entry hmem
    · rw [List.mem_singleton.mp hmem]
      rfl

variable {answer : Answer} {value : RESPValue F64}

/-- The answer that is owed first is given, with a promise or without one. -/
theorem answered (h : Orderly c (answer :: owed)) (n : Nat)
    (hawaits : (awaited owed).Sublist ((c.inFlight.drop n).map (·.promise))) :
    Orderly { c with inFlight := c.inFlight.drop n } owed := by
  refine ⟨h.connected, h.selecting, h.failed, h.order, h.fresh, h.queue, ?_, ?_, hawaits⟩
  · obtain ⟨popped, rest, hwritten, hinFlight⟩ := h.inFlight
    refine ⟨popped ++ rest.take n, rest.drop n, ?_, ?_⟩
    · rw [List.append_assoc, List.take_append_drop]
      exact hwritten
    · rw [List.map_drop, ← hinFlight]
  · obtain ⟨given, hgiven⟩ := h.answers
    refine ⟨given ++ [answer], ?_⟩
    rw [List.append_assoc]
    exact hgiven

theorem sorted (h : Orderly c owed) : (c.inFlight.map (·.promise)).Pairwise (·.id < ·.id) := by
  obtain ⟨popped, rest, hwritten, hinFlight⟩ := h.inFlight
  have hpromises : c.inFlight.map (·.promise) = rest := by
    rw [hinFlight, List.map_map]
    exact List.map_id _
  rw [hpromises]
  have horder := (List.pairwise_append.mp h.order).1
  rw [hwritten] at horder
  exact (List.pairwise_append.mp horder).2.1

theorem later (h : Orderly c (answer :: owed)) :
    ∀ promise ∈ awaited owed, answer.owner.id < promise.id := by
  obtain ⟨given, hgiven⟩ := h.answers
  have hpairwise := pairwise_answersTo (List.pairwise_append.mp h.order).1
  rw [hgiven] at hpairwise
  intro promise hpromise
  obtain ⟨other, hother, rfl⟩ := List.mem_map.mp hpromise
  obtain ⟨hmem, hfirst⟩ := List.mem_filter.mp hother
  exact (List.pairwise_cons.mp (List.pairwise_append.mp hpairwise).2.1).1 other hmem hfirst

/-- There is one answer to a regular command. -/
theorem first_of_reply (h : Orderly c (answer :: owed)) (hconfirmation : answer.confirmation = false) :
    answer.first = true := by
  obtain ⟨given, hgiven⟩ := h.answers
  have hmem : answer ∈ c.written.flatMap answersTo := by
    rw [hgiven]
    exact List.mem_append_right _ List.mem_cons_self
  obtain ⟨promise, -, hanswer⟩ := List.mem_flatMap.mp hmem
  rw [answersTo] at hanswer
  split at hanswer
  · obtain ⟨i, -, rfl⟩ := List.mem_map.mp hanswer
    exact absurd hconfirmation (by simp)
  · rw [List.mem_singleton.mp hanswer]

theorem sendRejection (h : Orderly c owed) : c.sendRejection = none := by
  rw [Client.sendRejection, h.failed, h.connected]
  rfl

theorem handleResponse (h : Orderly c owed) (value : RESPValue F64) :
    Client.handleResponse env c value = if c.shouldConsumePromisePair value then
      handlePair env { c with inFlight := c.inFlight.tail } value c.inFlight.head?
    else handlePair env c value none := by
  rw [Client.handleResponse, if_neg (not_not.mpr h.connected), h.selecting, if_neg (by decide)]

/-- A confirmation takes the promise at the head if that is of a subscription command. -/
theorem confirmation (env : Environment F64) (h : Orderly c owed) (hvalue : value.Confirms) :
    (∃ pair ∈ c.inFlight.head?, pair.metaFlags.subscriptionRequest = true ∧
      ∃ moved settlement, Reaction { c with inFlight := c.inFlight.drop 1 } moved
        [(pair.promise, settlement)] (Client.handleResponse env c value)) ∨
    ((∀ pair ∈ c.inFlight.head?, pair.metaFlags.subscriptionRequest = false) ∧
      ∃ moved, Reaction { c with inFlight := c.inFlight.drop 0 } moved []
        (Client.handleResponse env c value)) := by
  have hconsume : c.shouldConsumePromisePair value =
      c.inFlight.head?.any (·.metaFlags.subscriptionRequest) := by
    cases value with
    | push kind data =>
      rw [shouldConsumePromisePair]
      rcases hvalue with hkind | hkind
      · have hkind' : SubscriptionPushMessage.fromBytes kind = some .subscribe := hkind
        rw [hkind']
      · have hkind' : SubscriptionPushMessage.fromBytes kind = some .unsubscribe := hkind
        rw [hkind']
    | _ => exact absurd hvalue (by simp [RESPValue.Confirms, RESPValue.pushKind])
  rw [h.handleResponse, hconsume, List.drop_one, List.drop_zero]
  cases hhead : c.inFlight.head? with
  | none =>
    obtain ⟨moved, settlement, hreaction⟩ := reaction_confirmation env c hvalue none (by simp)
    exact .inr ⟨by simp, moved, hreaction⟩
  | some pair =>
    rw [Option.any_some]
    cases hrequest : pair.metaFlags.subscriptionRequest with
    | true =>
      obtain ⟨moved, settlement, hreaction⟩ := reaction_confirmation env
        { c with inFlight := c.inFlight.tail } hvalue (some pair) (by simpa using hrequest)
      exact .inl ⟨pair, rfl, hrequest, moved, settlement, hreaction⟩
    | false =>
      obtain ⟨moved, settlement, hreaction⟩ := reaction_confirmation env c hvalue none (by simp)
      exact .inr ⟨by simpa using hrequest, moved, hreaction⟩

/-- A reply takes the promise at the head. -/
theorem reply (env : Environment F64) (h : Orderly c owed) (hvalue : value.isPush = false) :
    (Client.handleResponse env c value).socket.closed = true ∨
      ∃ new, Reaction { c with inFlight := c.inFlight.drop 1 } [] new
        (Client.handleResponse env c value) := by
  have hconsume : c.shouldConsumePromisePair value = true := by
    cases value with
    | push kind data => exact absurd hvalue (by simp [RESPValue.isPush])
    | _ => rfl
  rw [h.handleResponse, hconsume, if_pos rfl, List.drop_one]
  exact reaction_reply env { c with inFlight := c.inFlight.tail } hvalue h.failed _

theorem message (env : Environment F64) (h : Orderly c owed) (hvalue : value.IsMessage) :
    ∃ moved, Reaction c moved [] (Client.handleResponse env c value) := by
  have hconsume : c.shouldConsumePromisePair value = false := by
    cases value with
    | push kind data =>
      rw [shouldConsumePromisePair]
      rcases hvalue with hkind | hkind
      · have hkind' : SubscriptionPushMessage.fromBytes kind = some .message := hkind
        rw [hkind']
      · have hkind' : SubscriptionPushMessage.fromBytes kind = some .patternMessage := hkind
        rw [hkind']
    | _ => exact absurd hvalue (by simp [RESPValue.IsMessage, RESPValue.pushKind])
  rw [h.handleResponse, hconsume, if_neg (by decide)]
  exact reaction_message env c hvalue

/-- An answer that takes a promise takes one that no later answer is the first to. -/
theorem awaits_drop (h : Orderly c (answer :: owed))
    (hown : answer.first = false → ∀ pair ∈ c.inFlight.head?,
      ¬ answer.owner.id < pair.promise.id) :
    (awaited owed).Sublist ((c.inFlight.drop 1).map (·.promise)) := by
  have hawaits := h.awaits
  rw [awaited] at hawaits
  cases hfirst : answer.first with
  | true =>
    rw [List.filter_cons_of_pos hfirst, List.map_cons] at hawaits
    rw [List.drop_one, List.map_tail]
    exact hawaits.tail
  | false =>
    rw [List.filter_cons_of_neg (by rw [hfirst]; decide)] at hawaits
    have hlater := h.later
    rw [awaited] at hlater ⊢
    cases hinFlight : c.inFlight with
    | nil =>
      rw [hinFlight] at hawaits
      exact hawaits
    | cons pair rest =>
      rw [hinFlight, List.map_cons] at hawaits
      have hhead := hown hfirst pair (by rw [hinFlight]; rfl)
      rcases List.sublist_cons_iff.mp hawaits with hrest | ⟨others, heq, -⟩
      · exact hrest
      · refine absurd (hlater pair.promise ?_) hhead
        rw [heq]
        exact List.mem_cons_self

theorem awaits_of_cons (h : Orderly c (answer :: owed)) :
    (awaited owed).Sublist ((c.inFlight.drop 0).map (·.promise)) := by
  have hrest : (awaited owed).Sublist (awaited (answer :: owed)) :=
    ((List.sublist_cons_self answer owed).filter _).map _
  exact hrest.trans h.awaits

/-- The first confirmation of a command does not take the promise of a later one. -/
theorem first_le (h : Orderly c (answer :: owed)) (hfirst : answer.first = true) :
    ∀ pair ∈ c.inFlight.head?, ¬ answer.owner.id < pair.promise.id := by
  have hmem : answer.owner ∈ c.inFlight.map (·.promise) := by
    refine h.awaits.subset ?_
    rw [awaited, List.filter_cons_of_pos hfirst, List.map_cons]
    exact List.mem_cons_self
  have hsorted := h.sorted
  intro pair hpair
  cases hinFlight : c.inFlight with
  | nil =>
    rw [hinFlight] at hpair
    exact absurd hpair (Option.not_mem_none _)
  | cons head rest =>
    rw [hinFlight] at hpair hmem hsorted
    obtain rfl : head = pair := Option.some.inj hpair
    rw [List.map_cons] at hmem hsorted
    rcases List.mem_cons.mp hmem with heq | hmem
    · rw [heq]
      exact Nat.lt_irrefl _
    · exact Nat.not_lt.mpr (Nat.le_of_lt ((List.pairwise_cons.mp hsorted).1 _ hmem))

end Orderly

end Client

/-! ## Runs -/

namespace System
variable {F64 : Type} {env : Environment F64} {s : System F64} {action : Action F64}

variable {s' : System F64} {answer : Answer} {owed : List Answer} {value : RESPValue F64}

theorem Own.of_append {more : List (Promise × Promise)} (h : Own s')
    (hmore : s'.confirmed = s.confirmed ++ more) : Own s := by
  intro confirmed hmem
  refine h confirmed ?_
  rw [hmore]
  exact List.mem_append_left _ hmem

theorem own_append (owner : Promise) (settled : List Promise)
    (hmore : s'.confirmed = s.confirmed ++ settled.map fun promise => (owner, promise)) :
    Own s' ↔ Own s ∧ ∀ promise ∈ settled, ¬ owner.id < promise.id := by
  refine ⟨fun h => ⟨h.of_append hmore, fun promise hpromise => h (owner, promise) ?_⟩, fun h => ?_⟩
  · rw [hmore]
    exact List.mem_append_right _ (List.mem_map_of_mem hpromise)
  · intro confirmed hmem
    rw [hmore] at hmem
    rcases List.mem_append.mp hmem with hmem | hmem
    · exact h.1 confirmed hmem
    · obtain ⟨promise, hpromise, rfl⟩ := List.mem_map.mp hmem
      exact h.2 promise hpromise

theorem confirmed_step (env : Environment F64) (s : System F64) (action : Action F64) :
    ∃ more, (step env s action).confirmed = s.confirmed ++ more := by
  cases action with
  | answer value =>
    change ∃ more, (receive env s value).confirmed = _
    unfold receive
    split
    · exact ⟨[], (List.append_nil _).symm⟩
    · exact ⟨_, rfl⟩
  | _ => exact ⟨[], (List.append_nil _).symm⟩

theorem Own.of_run (actions : List (Action F64)) (h : Own (run env s actions)) : Own s := by
  induction actions generalizing s with
  | nil => exact h
  | cons action actions ih =>
    obtain ⟨more, hmore⟩ := confirmed_step env s action
    exact (ih h).of_append hmore

/-- An open connection is in order. -/
def Kept (s : System F64) : Prop :=
  s.client.socket.closed = true ∨ Client.Orderly s.client s.owed

theorem Kept.orderly (h : Kept s) (hopen : s.client.socket.closed = false) :
    Client.Orderly s.client s.owed := by
  refine h.resolve_left ?_
  rw [hopen]
  decide

theorem Kept.advance {c : Client F64} {moved : List Entry} (h : Kept s)
    (hmove : Client.Advance s.client moved c) : Kept (s.advance c) := by
  rcases h with hclosed | horderly
  · exact .inl (hmove.closed.trans hclosed)
  · exact .inr (horderly.advance (.of_advance hmove))

theorem Kept.send (h : Kept s) (command : Command) :
    Kept (s.advance (s.client.send env command)) := by
  cases hrejection : s.client.sendRejection with
  | none =>
    obtain ⟨moved, hmove⟩ := Client.advance_send env s.client command hrejection
    have haccept : Kept { s with client := s.client.accept ⟨s.client.promises, command⟩ } :=
      h.imp_right fun horderly => horderly.accept command
    exact haccept.advance hmove
  | some message =>
    have hsend : s.client.send env command =
        Client.settle { s.client with promises := s.client.promises + 1 }
          ⟨s.client.promises, command⟩ (.refused message) := by
      have hrejection' : Client.sendRejection
          { s.client with promises := s.client.promises + 1 } = some message := hrejection
      rw [Client.send]
      dsimp only
      rw [hrejection']
    rw [hsend]
    refine h.imp_right fun horderly => ?_
    have hnone := horderly.sendRejection
    rw [hrejection] at hnone
    exact absurd hnone (by simp)

theorem receive_reply (value : RESPValue F64) (howed : s.owed = answer :: owed)
    (hconfirmation : answer.confirmation = false) :
    receive env s value = advance { s with owed } (s.client.handleResponse env value) := by
  unfold receive
  rw [howed]
  dsimp only
  rw [hconfirmation, if_neg (by decide), List.append_nil]

theorem receive_confirmation (value : RESPValue F64) (howed : s.owed = answer :: owed)
    (hconfirmation : answer.confirmation = true) {new : List (Promise × Settlement F64)}
    (hsettled : (s.client.handleResponse env value).settled = s.client.settled ++ new) :
    receive env s value = advance
      { s with
        owed
        confirmed := s.confirmed ++ (new.map (·.1)).map fun promise => (answer.owner, promise) }
      (s.client.handleResponse env value) := by
  have hdrop : (s.client.handleResponse env value).settled.drop s.client.settled.length = new := by
    rw [hsettled, List.drop_left]
  unfold receive
  rw [howed]
  dsimp only
  rw [hdrop, hconfirmation, if_pos rfl, List.map_map]
  rfl

/-- A reply keeps what is in order, and confirms nothing. -/
theorem reply_kept (env : Environment F64) (h : Client.Orderly s.client (answer :: owed))
    (howed : s.owed = answer :: owed) (hconfirmation : answer.confirmation = false)
    (hvalue : value.isPush = false) :
    (Own (receive env s value) ↔ Own s) ∧ Kept (receive env s value) := by
  rw [receive_reply value howed hconfirmation]
  refine ⟨Iff.rfl, ?_⟩
  rcases h.reply env hvalue with hclosed | ⟨new, hreaction⟩
  · exact .inl hclosed
  · refine .inr ((h.answered 1 (h.awaits_drop fun hfurther => ?_)).advance hreaction)
    rw [h.first_of_reply hconfirmation] at hfurther
    exact absurd hfurther (by decide)

/-- A confirmation keeps what is in order unless it takes the promise of a later command. -/
theorem confirmation_kept (h : Client.Orderly s.client (answer :: owed)) (howed : s.owed = answer :: owed)
    (hconfirmation : answer.confirmation = true) (hvalue : value.Confirms) :
    (Own (receive env s value) ↔ Own s ∧ Apart s (.answer value)) ∧
      (Apart s (.answer value) → Kept (receive env s value)) := by
  have hapart : Apart s (.answer value) ↔ (answer.first = false →
      ∀ pair ∈ s.client.inFlight.head?, pair.metaFlags.subscriptionRequest = true →
        ¬ answer.owner.id < pair.promise.id) := by
    rw [Apart, howed]
    simp [hconfirmation]
  rw [hapart]
  rcases h.confirmation env hvalue with
    ⟨pair, hpair, hrequest, moved, settlement, hreaction⟩ | ⟨hnone, moved, hreaction⟩
  · have hhead : ∀ other ∈ s.client.inFlight.head?, other = pair := by
      intro other hother
      exact Option.some.inj (hother.symm.trans hpair)
    rw [receive_confirmation value howed hconfirmation hreaction.settled]
    refine ⟨(own_append answer.owner [pair.promise] rfl).trans ?_, fun hfurther => ?_⟩
    · refine and_congr_right fun _ => ⟨fun hown _ other hother _ => ?_, fun hfurther => ?_⟩
      · rw [hhead other hother]
        exact hown pair.promise List.mem_cons_self
      · intro promise hpromise
        rw [List.mem_singleton.mp hpromise]
        cases hfirst : answer.first with
        | true => exact h.first_le hfirst pair hpair
        | false => exact hfurther hfirst pair hpair hrequest
    · refine .inr ((h.answered 1 (h.awaits_drop fun hfirst other hother => ?_)).advance hreaction)
      refine hfurther hfirst other hother ?_
      rw [hhead other hother]
      exact hrequest
  · rw [receive_confirmation value howed hconfirmation hreaction.settled]
    refine ⟨(own_append answer.owner [] rfl).trans ?_, fun _ => ?_⟩
    · refine and_congr_right fun _ => ⟨fun _ _ other hother hrequest => ?_, fun _ _ hmem => ?_⟩
      · rw [hnone other hother] at hrequest
        exact absurd hrequest (by decide)
      · exact absurd hmem List.not_mem_nil
    · exact .inr ((h.answered 0 h.awaits_of_cons).advance hreaction)

/-- What a step keeps, where a confirmation does not take the promise of a later command. -/
theorem step_kept (env : Environment F64) (h : Kept s) (hallowed : Allowed s action) :
    (Own (step env s action) ↔ Own s ∧ Apart s action) ∧
      (Apart s action → Kept (step env s action)) := by
  have hclient : ∀ c, Own (s.advance c) ↔ Own s ∧ True := fun c => (and_iff_left trivial).symm
  cases action with
  | send command => exact ⟨hclient _, fun _ => h.send command⟩
  | onAutoFlush =>
    obtain ⟨moved, hmove⟩ := Client.advance_onAutoFlush env s.client
    exact ⟨hclient _, fun _ => h.advance hmove⟩
  | onWritable =>
    obtain ⟨moved, hmove⟩ := Client.advance_sendNextCommand env s.client
    exact ⟨hclient _, fun _ => h.advance hmove⟩
  | listeners channels =>
    refine ⟨hclient _, fun _ => h.imp_right fun horderly => ?_⟩
    have hstill : Client.Reaction s.client [] []
        { s.client with channelsSubscribedTo := channels } := by
      refine .still ?_
      rw [List.append_nil]
    exact horderly.advance hstill
  | message value =>
    obtain ⟨moved, hreaction⟩ := (h.orderly hallowed.1).message env hallowed.2
    exact ⟨hclient _, fun _ => .inr ((h.orderly hallowed.1).advance hreaction)⟩
  | answer value =>
    obtain ⟨hopen, answer, hanswer, hvalue⟩ := hallowed
    have horderly := h.orderly hopen
    obtain ⟨owed, howed⟩ : ∃ owed, s.owed = answer :: owed := List.head?_eq_some_iff.mp hanswer
    rw [howed] at horderly
    cases hconfirmation : answer.confirmation with
    | true =>
      rw [hconfirmation, if_pos rfl] at hvalue
      exact confirmation_kept horderly howed hconfirmation hvalue
    | false =>
      rw [hconfirmation, if_neg (by decide)] at hvalue
      obtain ⟨hown, hkept⟩ := reply_kept env horderly howed hconfirmation hvalue
      have hapart : Apart s (.answer value) := by
        rw [Apart, howed]
        intro other hother hother'
        obtain rfl := Option.some.inj hother
        rw [hconfirmation] at hother'
        exact absurd hother' (by decide)
      exact ⟨hown.trans (and_iff_left hapart).symm, fun _ => hkept⟩

theorem own_run (actions : List (Action F64)) (h : Kept s)
    (hallowed : Along (step env) Allowed s actions) :
    Own (run env s actions) ↔ Own s ∧ Along (step env) Apart s actions := by
  induction actions generalizing s with
  | nil => exact (and_iff_left trivial).symm
  | cons action actions ih =>
    obtain ⟨hown, hkept⟩ := step_kept env h hallowed.1
    refine ⟨fun hrun => ?_, fun hall => ?_⟩
    · obtain ⟨hs, hapart⟩ := hown.mp (Own.of_run actions hrun)
      exact ⟨hs, hapart, ((ih (hkept hapart) hallowed.2).mp hrun).2⟩
    · obtain ⟨hs, hapart, hrest⟩ := hall
      exact (ih (hkept hapart) hallowed.2).mpr ⟨hown.mpr ⟨hs, hapart⟩, hrest⟩

/-- No confirmation settles the promise of a later command, in a run where that command is not
yet at the head of those in flight when a further confirmation comes, and in no other. -/
theorem confirmed_own (env : Environment F64) (auto offline : Bool) (actions : List (Action F64))
    (h : Along (step env) Allowed (start auto offline) actions) :
    Own (run env (start auto offline) actions) ↔
      Along (step env) Apart (start auto offline) actions := by
  have hown : Own (start auto offline : System F64) := fun _ hmem => absurd hmem List.not_mem_nil
  have hkept : Kept (start auto offline : System F64) := .inr (.init auto offline)
  exact (own_run actions hkept h).trans (and_iff_right hown)

/-- The confirmation of a channel. -/
def subscribed (channel : Bytes) : RESPValue Unit :=
  .push (ascii "subscribe") [.bulkString (some channel), .integer 1]

/-- `SUBSCRIBE a` and its confirmation. -/
theorem confirmed_own_subscribe : Own (run ⟨fun _ => 1000, fun _ _ => true⟩ (start true true)
    [.send ⟨ascii "SUBSCRIBE", [ascii "a"], {}⟩, .answer (subscribed (ascii "a"))]) := by
  refine (confirmed_own ⟨fun _ => 1000, fun _ _ => true⟩ true true
    [.send ⟨ascii "SUBSCRIBE", [ascii "a"], {}⟩, .answer (subscribed (ascii "a"))] ?_).mpr ?_
  · refine ⟨trivial, ⟨by decide, ⟨⟨0, ⟨ascii "SUBSCRIBE", [ascii "a"], {}⟩⟩, true, true⟩,
      by decide, .inl (by decide)⟩, trivial⟩
  · refine ⟨trivial, ?_, trivial⟩
    unfold Apart
    decide

/-- `SUBSCRIBE a b`, and `SUBSCRIBE c` that is sent when `a` is confirmed: the confirmation
of `b` settles its promise. -/
theorem confirmed_next : ¬ ∀ (env : Environment Unit) (auto offline : Bool)
    (actions : List (Action Unit)), Along (step env) Allowed (start auto offline) actions →
      Own (run env (start auto offline) actions) := by
  intro h
  have hown := h ⟨fun _ => 1000, fun _ _ => true⟩ true true
    [.send ⟨ascii "SUBSCRIBE", [ascii "a", ascii "b"], {}⟩,
      .send ⟨ascii "SUBSCRIBE", [ascii "c"], {}⟩,
      .answer (subscribed (ascii "a")), .answer (subscribed (ascii "b"))]
    ⟨trivial, trivial,
      ⟨by decide, ⟨⟨0, ⟨ascii "SUBSCRIBE", [ascii "a", ascii "b"], {}⟩⟩, true, true⟩, by decide,
        .inl (by decide)⟩,
      ⟨by decide, ⟨⟨0, ⟨ascii "SUBSCRIBE", [ascii "a", ascii "b"], {}⟩⟩, true, false⟩, by decide,
        .inl (by decide)⟩, trivial⟩
  refine absurd hown ?_
  unfold Own
  decide

end System

end OhosBun.Valkey
