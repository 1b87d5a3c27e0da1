/-
# `OhosBun.Valkey.Client` — the client of `valkey.rs`

Commands wait in `queue`, are in flight once they have been handed to the socket or the
write buffer, and are settled by the reply that comes for them.  They leave the queue one at
a time (`drain`), as a batch (`on_auto_flush`), or are not put there (`enqueue`).

How much the socket takes of what it is handed, and whether callbacks for a message went
well, is not for the client to say (`Environment`).  `written` has the promises of all
commands that were put in flight and `settled` what became of promises; the client keeps
neither.  The retry policy and finalization are left out: a client that failed is closed.
-/
import OhosBun.Collections.OffsetByteList
import OhosBun.Valkey.Command
import OhosBun.Valkey.Protocol

namespace OhosBun.Valkey

open OhosBun.Lib OhosBun.Collections

inductive SubscriptionPushMessage
  | message
  | subscribe
  | unsubscribe
  /-- `pmessage` / `smessage` -/
  | patternMessage
deriving DecidableEq

namespace SubscriptionPushMessage

/-- `SUBSCRIPTION_PUSH_MESSAGES` -/
def get (bytes : Bytes) : Option SubscriptionPushMessage :=
  if bytes = ascii "message" then some .message
  else if bytes = ascii "subscribe" then some .subscribe
  else if bytes = ascii "unsubscribe" then some .unsubscribe
  else none

def fromBytes (bytes : Bytes) : Option SubscriptionPushMessage :=
  match get bytes with
  | some kind => some kind
  | none =>
    match bytes with
    | [] => none
    | first :: base =>
      if first = 112 ∨ first = 115 then
        match get base with
        | some .message => some .patternMessage
        | kind => kind
      else none

/-- Pattern (`p`-prefixed) and sharded (`s`-prefixed) variants. -/
def isReplyKind : Bytes → Bool
  | [] => false
  | first :: base => (first = 112 || first = 115) &&
      (fromBytes base = some .subscribe || fromBytes base = some .unsubscribe)

end SubscriptionPushMessage

/-! ## The state -/

inductive Status
  | neverConnected
  | disconnected
  | connecting
  | connected
deriving DecidableEq

structure ConnectionFlags where
  isSelectingDbInternal : Bool := false
  enableOfflineQueue : Bool := true
  failed : Bool := false
  enableAutoPipelining : Bool := true
deriving DecidableEq

structure SubscriptionCtx where
  isSubscriber : Bool := false
  originalEnableOfflineQueue : Bool := true
  originalEnableAutoPipelining : Bool := true
deriving DecidableEq

/-- What becomes of a promise. -/
inductive Settlement (F64 : Type)
  | resolved (value : RESPValue F64)
  /-- The number of channels that have listeners. -/
  | subscribed (count : Nat)
  | unsubscribed
  | rejected (value : RESPValue F64)
  | failed (message : Bytes) (err : RedisError)
  | refused (message : Bytes)

/-- What is known of a socket: what it took, and how often it was asked. -/
structure Socket where
  sent : Bytes := []
  writes : Nat := 0
  closed : Bool := false

structure Environment (F64 : Type) where
  /-- What the socket takes when it is asked so many times before; negative on error. -/
  takes : Nat → Int
  callbacks : (channel message : RESPValue F64) → Bool

structure Client (F64 : Type) where
  socket : Socket := {}
  status : Status
  writeBuffer : OffsetByteList := .new
  inFlight : List PromisePair := []
  queue : List Entry := []
  flags : ConnectionFlags := {}
  autoFlusherRegistered : Bool := false
  subscriptionCtx : SubscriptionCtx := {}
  /-- How many channels have listeners. -/
  channelsSubscribedTo : Nat := 0
  promises : Nat := 0
  written : List Promise := []
  settled : List (Promise × Settlement F64) := []

/-! ## Sending -/

def Socket.write (takes : Nat → Int) (socket : Socket) (data : Bytes) : Int × Socket :=
  if socket.closed then (0, socket)
  else
    let wrote := min (takes socket.writes) (min data.length (2 ^ 31 - 1))
    (wrote,
      { socket with sent := socket.sent ++ data.take wrote.toNat, writes := socket.writes + 1 })

namespace Client
variable {F64 : Type} (env : Environment F64)

def settle (c : Client F64) (promise : Promise) (settlement : Settlement F64) : Client F64 :=
  { c with settled := c.settled ++ [(promise, settlement)] }

def registerAutoFlusher (c : Client F64) : Client F64 := { c with autoFlusherRegistered := true }

def connectionReady (c : Client F64) : Bool :=
  c.status = .connected && !c.flags.isSelectingDbInternal

/-- Flush pending data to the socket. -/
def flushData (c : Client F64) : Client F64 :=
  let chunk := c.writeBuffer.remaining
  if chunk = [] then c
  else
    let (wrote, socket) := c.socket.write env.takes chunk
    { c with
      socket
      writeBuffer := if 0 < wrote then c.writeBuffer.consume wrote.toNat else c.writeBuffer }

/-- Drain auto-pipelined commands. -/
def onAutoFlush (c : Client F64) : Client F64 :=
  if c.status ≠ .connected then { c with autoFlusherRegistered := false }
  else
    let pipelineable := c.queue.takeWhile (·.metaFlags.supportsAutoPipelining)
    let c := flushData env
      { c with
        queue := c.queue.drop pipelineable.length
        inFlight := c.inFlight ++ pipelineable.map Entry.toPair
        writeBuffer := pipelineable.foldl (fun buffer cmd => buffer.write cmd.serializedData)
          c.writeBuffer
        written := c.written ++ pipelineable.map (·.promise) }
    { c with autoFlusherRegistered := !c.queue.isEmpty }

def drain (c : Client F64) : Client F64 :=
  match c.queue with
  | [] => c
  | offlineCmd :: queue =>
    if c.inFlight ≠ [] && !offlineCmd.metaFlags.supportsAutoPipelining then c
    else
      -- Add the promise to the command queue first
      let c := { c with
        queue
        inFlight := c.inFlight ++ [offlineCmd.toPair]
        written := c.written ++ [offlineCmd.promise] }
      let data := offlineCmd.serializedData
      if c.connectionReady && c.writeBuffer.remaining.isEmpty then
        let (wrote, socket) := c.socket.write env.takes data
        let unwritten := data.drop wrote.toNat
        { c with
          socket
          -- Handle incomplete write.
          writeBuffer := if unwritten = [] then c.writeBuffer else c.writeBuffer.write unwritten }
      else { c with writeBuffer := c.writeBuffer.write data }

/-- What the head of the queue asks for where nothing waits to be written. -/
def sendHead (c : Client F64) : Client F64 :=
  match c.queue with
  | [] => if c.inFlight.isEmpty then drain env c else c
  | head :: _ =>
    if head.metaFlags.supportsAutoPipelining then c.registerAutoFlusher
    else if c.inFlight.isEmpty then
      let c := drain env c
      if c.queue.head?.any (·.metaFlags.supportsAutoPipelining) then c.registerAutoFlusher else c
    -- Non-pipelineable command is blocked by in-flight commands.
    else c

def sendNextCommand (c : Client F64) : Client F64 :=
  flushData env
    (if c.writeBuffer.remaining.isEmpty && c.connectionReady then sendHead env c else c)

def onWritable (c : Client F64) : Client F64 := sendNextCommand env c

def enqueue (c : Client F64) (promise : Promise) : Client F64 :=
  let supports := promise.metaFlags.supportsAutoPipelining
  let canPipeline := supports && c.flags.enableAutoPipelining
  let mustWaitForQueue := !supports && !c.queue.isEmpty
  if !c.queue.isEmpty || (!canPipeline && !c.inFlight.isEmpty) || !c.connectionReady ||
      mustWaitForQueue || canPipeline then
    let c := { c with queue := c.queue ++ [Entry.create promise.metaFlags promise] }
    -- If we're connected and using auto pipelining, schedule a flush
    if c.status = .connected && canPipeline then c.registerAutoFlusher else c
  else
    flushData env
      { c with
        writeBuffer := c.writeBuffer.write promise.command.serialize
        inFlight := c.inFlight ++ [⟨promise.metaFlags, promise⟩]
        written := c.written ++ [promise] }

def sendRejection (c : Client F64) : Option Bytes :=
  if c.flags.failed then some (ascii "Connection has failed")
  else if c.status ≠ .connected && !c.flags.enableOfflineQueue then
    some (ascii "Connection is closed and offline queue is disabled")
  else none

def send (c : Client F64) (command : Command) : Client F64 :=
  let promise : Promise := ⟨c.promises, command⟩
  let c := { c with promises := c.promises + 1 }
  match c.sendRejection with
  | some message => c.settle promise (.refused message)
  | none =>
    let c := enqueue env c promise
    if c.flags.enableAutoPipelining && promise.metaFlags.supportsAutoPipelining &&
        c.status = .connected && !c.queue.isEmpty then c.registerAutoFlusher
    else c

/-! ## Replies -/

/-- Mark the connection as failed: all pending commands are rejected and the socket is closed. -/
def fail (c : Client F64) (message : Bytes) (err : RedisError) : Client F64 :=
  if c.flags.failed then c
  else
    { c with
      flags := { c.flags with failed := true }
      settled := c.settled ++ (c.inFlight.map (·.promise) ++ c.queue.map (·.promise)).map
        fun promise => (promise, .failed message err)
      inFlight := []
      queue := []
      socket := { c.socket with closed := true }
      status := .disconnected
      writeBuffer := .new
      autoFlusherRegistered := false }

def addSubscription (c : Client F64) : Client F64 :=
  { c with
    subscriptionCtx :=
      if c.subscriptionCtx.isSubscriber then c.subscriptionCtx
      else ⟨true, c.flags.enableOfflineQueue, c.flags.enableAutoPipelining⟩ }

/-- After the last subscription the flags are restored. -/
def removeSubscription (c : Client F64) : Client F64 :=
  if c.channelsSubscribedTo = 0 then
    { c with
      flags := { c.flags with
        enableOfflineQueue := c.subscriptionCtx.originalEnableOfflineQueue
        enableAutoPipelining := c.subscriptionCtx.originalEnableAutoPipelining }
      subscriptionCtx := { c.subscriptionCtx with isSubscriber := false } }
  else c

def onValkeyMessage (c : Client F64) (value : List (RESPValue F64)) : Client F64 :=
  if !c.subscriptionCtx.isSubscriber then c
  else
    match value with
    | channel :: message :: _ => if env.callbacks channel message then onWritable env c else c
    | _ => c

/-- Settles a promise where there is one. -/
def settlePair (c : Client F64) (pair : Option PromisePair) (settlement : Settlement F64) :
    Client F64 :=
  match pair with
  | some pair => c.settle pair.promise settlement
  | none => c

/-- A response in the subscriber state; `none` where it falls through. -/
def handleSubscribeResponse (c : Client F64) (value : RESPValue F64) (pair : Option PromisePair) :
    Option (Client F64) :=
  match value with
  | .error _ => some (c.settlePair pair (.rejected value))
  | .push kind data =>
    let subCount := c.channelsSubscribedTo
    let isPatternOrSharded := SubscriptionPushMessage.isReplyKind kind
    match SubscriptionPushMessage.fromBytes kind with
    | some .message => some (onValkeyMessage env c data)
    | some .patternMessage => some c
    | some .subscribe =>
      -- only resolve the promise for the first channel confirmation
      some ((onWritable env c.addSubscription).settlePair pair
        (if isPatternOrSharded then .resolved value else .subscribed subCount))
    | some .unsubscribe =>
      some ((onWritable env c).removeSubscription.settlePair pair
        (if isPatternOrSharded then .resolved value else .unsubscribed))
    | none =>
      some (c.fail (ascii "Push message is not a subscription message.") .invalidResponseType)
  | _ => none

/-- The initial HELLO response. -/
def handleHelloResponse (c : Client F64) (value : RESPValue F64) : Client F64 :=
  match value with
  | .error err => c.fail err .authenticationFailed
  | .simpleString str =>
    if str = ascii "OK" then onWritable env { c with status := .connected }
    else c.fail (ascii "Authentication failed (unexpected response)") .authenticationFailed
  | .map entries =>
    if entries.any fun entry => match entry.key, entry.value with
        | .simpleString key, .integer version => key = ascii "proto" && version ≠ 3
        | _, _ => false then
      c.fail (ascii "Server does not support RESP3") .unsupportedProtocol
    else onWritable env { c with status := .connected }
  | _ => c.fail (ascii "Authentication failed with unexpected response") .authenticationFailed

/-- The initial SELECT response. -/
def handleSelectResponse (c : Client F64) (value : RESPValue F64) : Client F64 :=
  let c := { c with flags := { c.flags with isSelectingDbInternal := false } }
  match value with
  | .error err => c.fail err .invalidCommand
  | .simpleString str =>
    if str = ascii "OK" then sendNextCommand env c
    else c.fail (ascii "SELECT command failed with non-OK response") .invalidResponse
  | _ => c.fail (ascii "Received non-SELECT response while in the SELECT state.") .invalidResponse

/-- Whether a response takes the promise pair at the head. -/
def shouldConsumePromisePair (c : Client F64) (value : RESPValue F64) : Bool :=
  match value with
  | .push kind _ =>
    match SubscriptionPushMessage.fromBytes kind with
    -- Message pushes never need promise pairs
    | some .message | some .patternMessage => false
    -- Subscribe/unsubscribe pushes only need promise pairs if we have pending commands
    | some .subscribe | some .unsubscribe =>
      c.inFlight.head?.any (·.metaFlags.subscriptionRequest)
    | none => SubscriptionPushMessage.isReplyKind kind
  | _ => true

/-- What a regular command's promise is settled with. -/
def regular (m : Meta) (value : RESPValue F64) : Settlement F64 :=
  match value with
  | .error _ => .rejected value
  -- EXISTS returns 1 if key exists, 0 if not - we convert to boolean
  | .integer int => if m.returnAsBool then .resolved (.boolean (int > 0)) else .resolved value
  | _ => .resolved value

/-- For regular commands, get the next command+promise pair from the queue. -/
def handleRegular (c : Client F64) (value : RESPValue F64) (pair : Option PromisePair) :
    Client F64 :=
  match pair with
  | some pair => c.settle pair.promise (regular pair.metaFlags value)
  | none => c

/-- A response with the promise pair that it takes. -/
def handlePair (c : Client F64) (value : RESPValue F64) (pair : Option PromisePair) :
    Client F64 :=
  let requestIsSubscribe := pair.any (·.metaFlags.subscriptionRequest)
  if c.subscriptionCtx.isSubscriber || requestIsSubscribe then
    match value with
    | .error err =>
      -- A raw subscription request from a client that is not (yet) a subscriber failed
      if c.subscriptionCtx.isSubscriber then c.fail err .serverError
      else c.handleRegular value pair
    | .push kind _ =>
      if (SubscriptionPushMessage.fromBytes kind).isSome then
        (handleSubscribeResponse env c value pair).getD (c.handleRegular value pair)
      else
        c.fail (ascii "Unexpected push message kind without promise") .invalidResponseType
    | _ => c.handleRegular value pair
  else c.handleRegular value pair

/-- Handle Valkey protocol response. -/
def handleResponse (c : Client F64) (value : RESPValue F64) : Client F64 :=
  if c.status ≠ .connected then handleHelloResponse env c value
  else if c.flags.isSelectingDbInternal then handleSelectResponse env c value
  else if c.shouldConsumePromisePair value then
    handlePair env { c with inFlight := c.inFlight.tail } value c.inFlight.head?
  else handlePair env c value none

end Client

end OhosBun.Valkey
