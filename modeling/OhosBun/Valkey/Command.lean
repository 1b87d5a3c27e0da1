/-
# `OhosBun.Valkey.Command` — commands and what is noted of them

`ValkeyCommand.rs`: a command is written as an array of bulk strings, and `Meta` notes how
it is sent (`SUPPORTS_AUTO_PIPELINING`, `SUBSCRIPTION_REQUEST`) and how its reply is
returned.  A `Promise` is known by the `send` that made it and the command it was made for.
-/
import OhosBun.Lib.Bytes
import OhosBun.Semver.Version

namespace OhosBun.Valkey

open OhosBun.Lib

structure Meta where
  returnAsBool : Bool := false
  supportsAutoPipelining : Bool := true
  returnAsBuffer : Bool := false
  subscriptionRequest : Bool := false
deriving DecidableEq

/-- `metaFlags` is what the caller asked for. -/
structure Command where
  command : Bytes
  args : List Bytes
  metaFlags : Meta := {}
deriving DecidableEq

/-- `$len`, and the bytes. -/
def bulkString (bytes : Bytes) : Bytes :=
  36 :: Semver.decimal bytes.length ++ [13, 10] ++ bytes ++ [13, 10]

/-- Serialize as RESP array format directly. -/
def Command.serialize (command : Command) : Bytes :=
  42 :: Semver.decimal (1 + command.args.length) ++ [13, 10] ++ bulkString command.command ++
    command.args.flatMap bulkString

/-- `AUTO_PIPELINE_DISALLOWED_COMMANDS` -/
def autoPipelineDisallowedCommands : List Bytes :=
  ["AUTH", "EXEC", "INFO", "QUIT", "MULTI", "WATCH", "SCRIPT", "SELECT", "CLUSTER", "DISCARD",
    "UNWATCH", "PIPELINE", "SUBSCRIBE", "PSUBSCRIBE", "UNSUBSCRIBE", "UNPSUBSCRIBE"].map ascii

def toLower (byte : UInt8) : UInt8 := if 65 ≤ byte ∧ byte ≤ 90 then byte + 32 else byte

def eqlCaseInsensitiveAscii (a b : Bytes) : Bool := a.map toLower = b.map toLower

def isSubscriptionCommand (name : Bytes) : Bool :=
  (["SUBSCRIBE", "PSUBSCRIBE", "SSUBSCRIBE", "UNSUBSCRIBE", "PUNSUBSCRIBE",
    "SUNSUBSCRIBE"].map ascii).any fun c => eqlCaseInsensitiveAscii name c

def Meta.check (m : Meta) (command : Command) : Meta where
  returnAsBool := m.returnAsBool
  supportsAutoPipelining := !autoPipelineDisallowedCommands.contains command.command
  returnAsBuffer := m.returnAsBuffer
  subscriptionRequest := m.subscriptionRequest || isSubscriptionCommand command.command

structure Promise where
  id : Nat
  command : Command
deriving DecidableEq

/-- What `send` made of the command's own flags. -/
def Promise.metaFlags (promise : Promise) : Meta := promise.command.metaFlags.check promise.command

/-- Command stored in offline queue. -/
structure Entry where
  serializedData : Bytes
  metaFlags : Meta
  promise : Promise
deriving DecidableEq

/-- A command that is in flight. -/
structure PromisePair where
  metaFlags : Meta
  promise : Promise
deriving DecidableEq

/-- A promise as it is in flight. -/
def Promise.toPair (promise : Promise) : PromisePair := ⟨promise.metaFlags, promise⟩

def Entry.create (m : Meta) (promise : Promise) : Entry where
  serializedData := promise.command.serialize
  metaFlags := m
  promise := promise

def Entry.toPair (entry : Entry) : PromisePair := ⟨entry.metaFlags, entry.promise⟩

end OhosBun.Valkey
