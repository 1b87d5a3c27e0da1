/-
# `OhosBun.MySql.RequestQueue` — when a query is written, and when the next one is

A connection that is connected, as the queue of its requests sees it.  `run` starts a query if it
may: its statement is prepared, or it is executed.  `add` puts a query that was run at the back of
the queue; `advance` walks the queue from the front for queries that can be started, with an
offset that runs past those it leaves where they are.

What is written is kept as the list of the commands, and the number of their bytes that the socket
has not taken yet.
-/
import OhosBun.MySql.Query

namespace OhosBun.MySql

inductive CommandKind
  | query
  | prepare
  | execute
deriving DecidableEq

/-- A command and the request it is written for. -/
structure Command where
  kind : CommandKind
  request : Nat
  length : Nat
deriving DecidableEq

/-- What is outside, in one event: whether the text of a request fits a packet, whether its
parameters are bound and fit one, how long the packet is, and the bytes the socket takes of the
first and of the second chunk. -/
structure Env where
  fits : Nat → Bool
  binds : Nat → Bool
  payload : Nat → Nat
  takes : Nat
  takesNext : Nat

structure RequestQueue where
  requests : List Query
  pipelinedRequests : Nat
  nonpipelinableRequests : Nat
  waitingToPrepare : Bool
  isReadyForQuery : Bool

/-- `pipeliningDisabled` is the feature flag `BUN_FEATURE_FLAG_DISABLE_SQL_AUTO_PIPELINING`. -/
structure Connection where
  queue : RequestQueue
  statements : Statements
  writeBuffer : Nat
  hasBackpressure : Bool
  deprecateEof : Bool
  pipeliningDisabled : Bool
  written : List Command

def RequestQueue.init : RequestQueue := ⟨[], 0, 0, false, true⟩

def maxPipelineSize : Nat := 65535

namespace Connection

/-- A connection whose session has been set up. -/
def connected (deprecateEof pipeliningDisabled : Bool) : Connection :=
  ⟨.init, fun _ => none, 0, false, deprecateEof, pipeliningDisabled, []⟩

section Conditions
variable (c : Connection)

def isAbleToWrite : Bool := !c.hasBackpressure && decide (c.writeBuffer < maxPipelineSize)

def canExecuteQuery : Bool :=
  c.isAbleToWrite && c.queue.isReadyForQuery && c.queue.nonpipelinableRequests = 0 &&
    c.queue.pipelinedRequests = 0

def canPrepareQuery : Bool :=
  c.isAbleToWrite && c.queue.isReadyForQuery && !c.queue.waitingToPrepare &&
    c.queue.pipelinedRequests = 0

def canPipeline : Bool :=
  if c.pipeliningDisabled then false
  else c.queue.isReadyForQuery && c.queue.nonpipelinableRequests = 0 &&
    !c.queue.waitingToPrepare && c.isAbleToWrite

end Conditions

/-! ## Starting a query -/

/-- A packet, with its header and the byte that says which command it is. -/
def write (env : Env) (kind : CommandKind) (id : Nat) (c : Connection) : Connection :=
  { c with
    writeBuffer := c.writeBuffer + (5 + env.payload id)
    written := c.written ++ [⟨kind, id, 5 + env.payload id⟩] }

/-- How a run ends. -/
structure Ran where
  ok : Bool
  query : Query
  connection : Connection

def runSimpleQuery (env : Env) (c : Connection) (q : Query) : Ran :=
  if q.status ≠ .pending ∨ c.canExecuteQuery = false then ⟨true, q, c⟩
  else
    let q := if q.statement.isNone then { q with statement := some (.own (.new .parsing)) } else q
    if env.fits q.id then ⟨true, { q with status := .running }, c.write env .query q.id⟩
    else ⟨false, q, c⟩

/-- The query's statement is that of its signature, a new one if there was none. -/
def findStatement (c : Connection) (q : Query) : Option (Query × Connection) :=
  if q.statement.isSome then some (q, c)
  else
    match q.signature with
    | none => none
    | some name =>
      match c.statements name with
      | some s =>
        if s.status = .failed then none
        else some ({ q with statement := some (.shared name) }, c)
      | none => some ({ q with statement := some (.shared name) },
          { c with statements := c.statements.set name (.new .pending) })

/-- That binding the parameters sets the status is not seen: it is running next, or has failed. -/
def bindAndExecute (env : Env) (c : Connection) (q : Query) : Ran :=
  if env.binds q.id then
    ⟨true, { q with status := .running, pipelined := true }, c.write env .execute q.id⟩
  else ⟨false, q, c⟩

def prepareRequest (env : Env) (c : Connection) (q : Query) (s : Statement) : Ran :=
  if env.fits q.id then
    let (statements, q) := q.putStatement c.statements { s with status := .parsing }
    ⟨true, q, { c.write env .prepare q.id with statements := statements }⟩
  else ⟨false, q, c⟩

def runPreparedQuery (env : Env) (c : Connection) (q : Query) : Ran :=
  match c.findStatement q with
  | none => ⟨false, q, c⟩
  | some (q, c) =>
    match q.getStatement c.statements with
    | none => ⟨true, q, c⟩
    | some s =>
      match s.status with
      | .failed => ⟨false, q, c⟩
      | .prepared => if c.canPipeline then c.bindAndExecute env q else ⟨true, q, c⟩
      | .parsing => ⟨true, q, c⟩
      | .pending => if c.canPrepareQuery then c.prepareRequest env q s else ⟨true, q, c⟩

def runQuery (env : Env) (c : Connection) (q : Query) : Ran :=
  if q.simple then c.runSimpleQuery env q else c.runPreparedQuery env q

/-- `JSMySQLQuery::run`: a query whose run fails has failed. -/
def run (env : Env) (c : Connection) (q : Query) : Ran :=
  if q.isPending = false ∨ q.isBeingPrepared c.statements then ⟨true, q, c⟩
  else if (c.runQuery env q).ok then c.runQuery env q
  else { c.runQuery env q with query := (c.runQuery env q).query.fail }

/-! ## The queue -/

def setRequests (c : Connection) (requests : List Query) : Connection :=
  { c with queue := { c.queue with requests := requests } }

def popFront (c : Connection) : Connection := c.setRequests c.queue.requests.tail

def current (c : Connection) : Option Query := c.queue.requests.head?

def add (c : Connection) (q : Query) : Connection :=
  let queue :=
    if q.isBeingPrepared c.statements then
      { c.queue with isReadyForQuery := false, waitingToPrepare := true }
    else if q.isRunning then
      if q.pipelined then
        { c.queue with
          isReadyForQuery := false
          pipelinedRequests := c.queue.pipelinedRequests + 1 }
      else
        { c.queue with
          isReadyForQuery := false
          nonpipelinableRequests := c.queue.nonpipelinableRequests + 1 }
    else c.queue
  { c with queue := { queue with requests := queue.requests ++ [q] } }

/-- The query at the offset has been run and is its command's. -/
def started (c : Connection) (q : Query) : Connection :=
  if q.pipelined then
    { c with queue := { c.queue with
      isReadyForQuery := false
      pipelinedRequests := c.queue.pipelinedRequests + 1 } }
  else
    { c with queue := { c.queue with
      isReadyForQuery := false
      nonpipelinableRequests := c.queue.nonpipelinableRequests + 1 } }

@[simp] theorem requests_setRequests (c : Connection) (requests : List Query) :
    (c.setRequests requests).queue.requests = requests := rfl

@[simp] theorem requests_started (c : Connection) (q : Query) :
    (c.started q).queue.requests = c.queue.requests := by
  rw [started]
  split
  · rfl
  · rfl

/-! ## Running leaves the queue alone -/

/-! ## The walk -/

/-- The walk from an offset on.  A query that fails is rejected; at the front it is popped. -/
def advanceFrom (env : Env) (offset : Nat) (c : Connection) : Connection :=
  match hreq : c.queue.requests[offset]? with
  | none => c
  | some req =>
    if c.isAbleToWrite = false then c
    else if req.isCompleted then
      if 0 < offset then advanceFrom env (offset + 1) c
      else advanceFrom env offset c.popFront
    else if req.isBeingPrepared c.statements then
      { c with queue := { c.queue with waitingToPrepare := true } }
    else if req.isRunning then
      let totalRequestsRunning := c.queue.pipelinedRequests + c.queue.nonpipelinableRequests
      if offset < totalRequestsRunning then advanceFrom env (offset + totalRequestsRunning) c
      else advanceFrom env (offset + 1) c
    else
      let ran := c.run env req
      let c' := ran.connection.setRequests (c.queue.requests.set offset ran.query)
      if ran.ok = false then
        if offset = 0 then advanceFrom env (offset + 1) c'.popFront
        else advanceFrom env (offset + 1) c'
      else if ran.query.isBeingPrepared c'.statements then
        { c' with queue := { c'.queue with isReadyForQuery := false, waitingToPrepare := true } }
      else if ran.query.isRunning then
        if ran.query.pipelined ∧ (c'.started ran.query).canPipeline then
          advanceFrom env (offset + 1) (c'.started ran.query)
        else c'.started ran.query
      else c'
termination_by c.queue.requests.length - offset
decreasing_by
  all_goals
    have hoffset := (List.getElem?_eq_some_iff.mp hreq).1
    try simp only [popFront, requests_setRequests, requests_started, List.length_tail, List.length_set]
    omega

/-- Queries that are over are discarded, up to the first that is not. -/
def discardCompleted (c : Connection) : Connection :=
  c.setRequests (c.queue.requests.dropWhile Query.isCompleted)

def advance (env : Env) (c : Connection) : Connection := (c.advanceFrom env 0).discardCompleted

/-- `JSMySQLQuery::do_run`: a query that does not fail to run is enqueued. -/
def doRun (env : Env) (c : Connection) (q : Query) : Connection :=
  if (c.run env q).ok then (c.run env q).connection.add (c.run env q).query
  else (c.run env q).connection

end Connection

end OhosBun.MySql
