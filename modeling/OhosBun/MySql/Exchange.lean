/-
# `OhosBun.MySql.Exchange` — a connection and its server

Queries are submitted, the socket becomes writable, deferred flushes run, and a server answers the
commands in the order in which they were written, each once it has all of it, packet by packet
(`Event`).  An answer is complete: `isPrepareAnswer` and `isResultAnswer` are the packets of one.
-/
import Mathlib.Algebra.Ring.Nat
import OhosBun.MySql.Connection
import OhosBun.Lib.Refinement

namespace OhosBun.MySql

open OhosBun.Lib

/-! ## Complete answers -/

/-- The packet that ends definitions, where there is one. -/
def definitionsEof (deprecateEof : Bool) : List Packet := if deprecateEof then [] else [.eof false]

/-- So many definitions, and the end of them. -/
def definitions (deprecateEof : Bool) (n : Nat) : List Packet :=
  if n = 0 then [] else List.replicate n .definition ++ definitionsEof deprecateEof

/-- The answer to `COM_STMT_PREPARE`. -/
def isPrepareAnswer (deprecateEof : Bool) : List Packet → Bool
  | [.error] => true
  | .prepareOk statementId numParams numColumns :: rest => 0 < statementId ∧
      rest = definitions deprecateEof numParams ++ definitions deprecateEof numColumns
  | _ => false

/-- Where in a result an answer is. -/
inductive Stage
  | start
  | columns (left : Nat)
  | columnsEof
  | rows
deriving DecidableEq

/-- After the header and some definitions. -/
def Stage.afterDefinitions (deprecateEof : Bool) (left : Nat) : Stage :=
  if left = 0 then if deprecateEof then .rows else .columnsEof else .columns left

/-- The rest of the answer to `COM_QUERY` or `COM_STMT_EXECUTE`: results, the last of which says
that no more follow, or an error. -/
def isResultAnswer (deprecateEof : Bool) : Stage → List Packet → Bool
  | _, [] => false
  | _, .error :: rest => rest.isEmpty
  | .start, .ok moreResults :: rest =>
    if moreResults then isResultAnswer deprecateEof .start rest else rest.isEmpty
  | .start, .header fieldCount :: rest => 0 < fieldCount ∧ fieldCount ≤ maxFields ∧
      isResultAnswer deprecateEof (.columns fieldCount) rest
  | .columns left, .definition :: rest =>
    isResultAnswer deprecateEof (.afterDefinitions deprecateEof (left - 1)) rest
  | .columnsEof, .eof _ :: rest => isResultAnswer deprecateEof .rows rest
  | .rows, .row :: rest => isResultAnswer deprecateEof .rows rest
  | .rows, .eof moreResults :: rest =>
    if moreResults then isResultAnswer deprecateEof .start rest else rest.isEmpty
  | _, _ :: _ => false

theorem isResultAnswer_nil (deprecateEof : Bool) (stage : Stage) :
    isResultAnswer deprecateEof stage [] = false := by
  rw [isResultAnswer]

def isAnswer (deprecateEof : Bool) (kind : CommandKind) (packets : List Packet) : Bool :=
  match kind with
  | .prepare => isPrepareAnswer deprecateEof packets
  | .query | .execute => isResultAnswer deprecateEof .start packets

/-! ## Events -/

/-- `submitted` queries so far, the next of them is the one with that number; the first `answered`
commands have been, and `reply` is what has yet to come of the next answer. -/
structure Exchange where
  connection : Connection
  submitted : Nat
  answered : Nat
  reply : List Packet

inductive Event
  | submit (env : Env) (simple : Bool) (signature : Option SignatureName)
  | autoFlush (env : Env)
  | writable (env : Env)
  | answer (packets : List Packet)
  | packet (env : Env)

/-- A packet was handled: the command it is of the answer to, and the front of the queue then. -/
structure Handling where
  command : Command
  front : Option Nat
deriving DecidableEq

namespace Exchange

/-- A connection nothing has been submitted to. -/
def start (deprecateEof pipeliningDisabled : Bool) : Exchange :=
  ⟨.connected deprecateEof pipeliningDisabled, 0, 0, []⟩

def unanswered (s : Exchange) : List Command := s.connection.written.drop s.answered

/-- The next answer may start: the socket has taken the whole of the command. -/
def mayAnswer (s : Exchange) (packets : List Packet) : Bool :=
  match s.unanswered with
  | [] => false
  | command :: later => s.reply.isEmpty &&
      decide (s.connection.writeBuffer ≤ (later.map Command.length).sum) &&
      isAnswer s.connection.deprecateEof command.kind packets

def takePacket (s : Exchange) (env : Env) (command : Command) (packet : Packet)
    (rest : List Packet) : Option (Exchange × Option Handling) := do
  let c ← s.connection.handleCommand env packet
  some ({ s with
    connection := c
    answered := if rest.isEmpty then s.answered + 1 else s.answered
    reply := rest }, some ⟨command, s.connection.current.map Query.id⟩)

/-- One event; what the server may not do does not happen. -/
def step (s : Exchange) : Event → Option (Exchange × Option Handling)
  | .submit env simple signature => some ({ s with
      connection := s.connection.doRun env (.init s.submitted simple signature)
      submitted := s.submitted + 1 }, none)
  | .autoFlush env => some ({ s with connection := s.connection.onAutoFlush env }, none)
  | .writable env => some ({ s with connection := s.connection.onWritable env }, none)
  | .answer packets => some (if s.mayAnswer packets then { s with reply := packets } else s, none)
  | .packet env =>
    match s.reply, s.unanswered with
    | packet :: rest, command :: _ => s.takePacket env command packet rest
    | _, _ => some (s, none)

/-! ## What is claimed -/

/-- In the order of the queue, which is that of submission: whatever was written was for a request
in front of those that are still in the queue, or for the first of them. -/
def InOrder (s : Exchange) : Prop :=
  (s.connection.queue.requests.map Query.id).Pairwise (· < ·) ∧
    (s.connection.written.map Command.request ++ s.connection.queue.requests.map Query.id).Pairwise
      (· ≤ ·)

/-- The counters count the running requests of each kind. -/
def Counted (s : Exchange) : Prop :=
  s.connection.queue.pipelinedRequests =
      s.connection.queue.requests.countP (fun q => q.isRunning && q.pipelined) ∧
    s.connection.queue.nonpipelinableRequests =
      s.connection.queue.requests.countP (fun q => q.isRunning && !q.pipelined)

instance (s : Exchange) : Decidable s.InOrder := by
  unfold InOrder
  infer_instance

instance (s : Exchange) : Decidable s.Counted := by
  unfold Counted
  infer_instance

end Exchange

/-- The packet was handled for the request whose command it answers. -/
def Handling.Attributed (h : Handling) : Prop := h.front = some h.command.request

instance (h : Handling) : Decidable h.Attributed := by
  unfold Handling.Attributed
  infer_instance

/-! ## The step that goes wrong -/

namespace Connection

/-- A run of the query fails: its statement has failed, or its text or parameters are refused. -/
def fails (env : Env) (c : Connection) (q : Query) : Bool :=
  if q.simple then c.canExecuteQuery && !env.fits q.id
  else
    match q.getStatement c.statements with
    | none => false
    | some s =>
      match s.status with
      | .failed => true
      | .prepared => c.canPipeline && !env.binds q.id
      | .parsing => false
      | .pending => c.canPrepareQuery && !env.fits q.id

/-- `advance` pops a request that fails, and goes past the next one: the first request that is not
over fails to start while others wait behind it. -/
def Trips (env : Env) (c : Connection) : Prop :=
  match c.queue.requests.dropWhile Query.isCompleted with
  | request :: _ :: _ => c.isAbleToWrite ∧ request.isPending ∧
      request.isBeingPrepared c.statements = false ∧ c.fails env request
  | _ => False

instance (env : Env) (c : Connection) : Decidable (c.Trips env) := by
  unfold Trips
  split <;> infer_instance

end Connection

/-- Without the pipelining, prepared queries are not executed and stay in front of others. -/
def Exchange.Steady (s : Exchange) : Event → Prop
  | .submit _ simple _ => s.connection.pipeliningDisabled = false ∨ simple = true
  | .packet env =>
    match s.reply with
    | [] => True
    | packet :: _ =>
      match s.connection.handlePacket packet with
      | none | some (_, .nothing) => True
      | some (c, _) => ¬ c.Trips env
  | .autoFlush _ | .writable _ | .answer _ => True

instance Exchange.decidableSteady (s : Exchange) : ∀ event, Decidable (s.Steady event)
  | .submit _ simple _ =>
    inferInstanceAs (Decidable (s.connection.pipeliningDisabled = false ∨ simple = true))
  | .packet _ => by
    unfold Steady
    dsimp only
    split
    · infer_instance
    · split <;> infer_instance
  | .autoFlush _ | .writable _ | .answer _ => .isTrue trivial

end OhosBun.MySql
