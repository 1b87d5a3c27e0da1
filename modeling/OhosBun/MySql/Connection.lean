/-
# `OhosBun.MySql.Connection` — the answers of the server

A packet is for the query at the front of the queue: it is of the answer that prepares its
statement, or of a result.  A handler notes what the packet says and, where an answer or a result
ends, tells what it calls last: `advance`, or `flush_queue` (`Next`).

A packet is what it is decoded as where such a packet is due; one that is not due is not decoded,
and the connection fails (`none`), as it does if a counter would go below zero.
-/
import OhosBun.MySql.RequestQueue

namespace OhosBun.MySql

/-- `ok` and `eof` say whether more results follow; with `CLIENT_DEPRECATE_EOF` the packet that ends
a result is an OK packet whose first byte is that of an EOF packet. -/
inductive Packet
  | ok (moreResults : Bool)
  | error
  | eof (moreResults : Bool)
  | prepareOk (statementId numParams numColumns : Nat)
  | header (fieldCount : Nat)
  | definition
  | row
deriving DecidableEq

/-- The tail call of a handler. -/
inductive Next
  | nothing
  | advance
  | flushQueue
deriving DecidableEq

/-- No result set has more columns. -/
def maxFields : Nat := 4096

namespace Connection

/-! ## The query at the front -/

/-- The query at the front changes. -/
def mapCurrent (f : Query → Query) (c : Connection) : Connection :=
  match c.queue.requests with
  | [] => c
  | request :: rest => c.setRequests (f request :: rest)

/-- The statement of the query at the front changes. -/
def mapStatement (f : Statement → Statement) (c : Connection) : Connection :=
  match c.queue.requests with
  | [] => c
  | request :: rest =>
    match request.getStatement c.statements with
    | none => c
    | some s =>
      let (statements, request) := request.putStatement c.statements (f s)
      { c.setRequests (request :: rest) with statements := statements }

def markAsReadyForQuery (c : Connection) : Connection :=
  { c with queue := { c.queue with isReadyForQuery := true } }

def notWaitingToPrepare (c : Connection) : Connection :=
  { c with queue := { c.queue with waitingToPrepare := false } }

/-- `MySQLQuery::mark_as_prepared` of the query at the front. -/
def markCurrentAsPrepared (c : Connection) : Connection :=
  match c.current with
  | none => c
  | some request =>
    if request.isPending then
      c.mapStatement fun s =>
        if s.status = .parsing ∧ s.params = s.paramsReceived ∧ 0 < s.statementId then
          { s with status := .prepared }
        else s
    else c

def markAsPrepared (c : Connection) : Connection := c.notWaitingToPrepare.markCurrentAsPrepared

def markCurrentRequestAsFinished (c : Connection) : Option Connection :=
  match c.current with
  | none => some c.notWaitingToPrepare
  | some item =>
    if item.isBeingPrepared c.statements then some c.notWaitingToPrepare.markCurrentAsPrepared
    else if item.isRunning then
      if item.pipelined then
        if c.queue.pipelinedRequests = 0 then none
        else some { c.notWaitingToPrepare with queue := { c.notWaitingToPrepare.queue with
          pipelinedRequests := c.queue.pipelinedRequests - 1 } }
      else
        if c.queue.nonpipelinableRequests = 0 then none
        else some { c.notWaitingToPrepare with queue := { c.notWaitingToPrepare.queue with
          nonpipelinableRequests := c.queue.nonpipelinableRequests - 1 } }
    else some c.notWaitingToPrepare

/-! ## Packets -/

def checkIfPreparedStatementIsDone (c : Connection) : Connection × Next :=
  match c.current.bind fun request => request.getStatement c.statements with
  | none => (c, .nothing)
  | some s =>
    if s.columnsReceived = s.columns ∧ s.paramsReceived = s.params then
      let c := c.mapStatement fun s => { s with status := .prepared }
      let c := c.markAsReadyForQuery.markAsPrepared.mapStatement Statement.reset
      (c, .advance)
    else (c, .nothing)

/-- A definition is that of a parameter, or else of a column. -/
def receiveDefinition (s : Statement) : Statement :=
  if s.paramsReceived < s.params then { s with paramsReceived := s.paramsReceived + 1 }
  else if s.columnsReceived < s.columns then { s with columnsReceived := s.columnsReceived + 1 }
  else s

def receivePrepareOk (statementId numParams numColumns : Nat) (s : Statement) : Statement :=
  { s with
    statementId := statementId
    params := if 0 < numParams then numParams else s.params
    paramsReceived := if 0 < numParams then 0 else s.paramsReceived
    columns := if 0 < numColumns then numColumns else s.columns
    columnsReceived := if 0 < numColumns then 0 else s.columnsReceived }

def handlePreparedStatement (c : Connection) (packet : Packet) : Option (Connection × Next) :=
  match c.current.bind fun request => request.getStatement c.statements with
  | none => none
  | some s =>
    if 0 < s.statementId then
      match packet with
      | .eof _ => if c.deprecateEof then none else some c.checkIfPreparedStatementIsDone
      | .definition =>
        let c := c.mapStatement receiveDefinition
        if c.deprecateEof then some c.checkIfPreparedStatementIsDone else some (c, .nothing)
      | _ => none
    else
      match packet with
      | .prepareOk statementId numParams numColumns =>
        if statementId = 0 then none
        else some (c.mapStatement
          (receivePrepareOk statementId numParams numColumns)).checkIfPreparedStatementIsDone
      | .error => do
        let c := c.mapStatement fun s => { s with status := .failed }
        let c ← c.markAsReadyForQuery.markCurrentRequestAsFinished
        some (c.mapCurrent Query.fail, .advance)
      | _ => none

def handleResultSetOk (c : Connection) (moreResults : Bool) : Option (Connection × Next) := do
  let isLastResult := !moreResults
  let c ← if isLastResult then c.markAsReadyForQuery.markCurrentRequestAsFinished else some c
  some ((c.mapCurrent fun request => request.result isLastResult).mapStatement Statement.reset,
    .flushQueue)

def receiveHeader (fieldCount : Nat) (s : Statement) : Statement :=
  { s with
    columns := fieldCount
    columnsReceived := if s.columns = fieldCount then s.columnsReceived else 0
    headerReceived := true }

/-- Before the header of a result set. -/
def handleHeader (c : Connection) : Packet → Option (Connection × Next)
  | .ok moreResults => c.handleResultSetOk moreResults
  | .header fieldCount =>
    if fieldCount = 0 ∨ maxFields < fieldCount then none
    else some (c.mapStatement (receiveHeader fieldCount), .nothing)
  | _ => none

/-- Before the last column. -/
def handleColumn (c : Connection) : Packet → Option (Connection × Next)
  | .definition =>
    some (c.mapStatement fun s => { s with columnsReceived := s.columnsReceived + 1 }, .nothing)
  | _ => none

/-- After the columns. -/
def handleRow (c : Connection) (s : Statement) : Packet → Option (Connection × Next)
  | .eof moreResults =>
    if c.deprecateEof = false ∧ s.columnsEofReceived = false then
      some (c.mapStatement fun s => { s with columnsEofReceived := true }, .nothing)
    else c.handleResultSetOk moreResults
  | .row => some (c, .nothing)
  | _ => none

def handleResultSet (c : Connection) (packet : Packet) : Option (Connection × Next) :=
  match c.current with
  | none => none
  | some request =>
    match packet with
    | .error => do
      let c := c.mapStatement Statement.reset
      let c ← c.markAsReadyForQuery.markCurrentRequestAsFinished
      some (c.mapCurrent Query.fail, .flushQueue)
    | packet =>
      match request.getStatement c.statements with
      | none => none
      | some s =>
        if s.headerReceived = false then c.handleHeader packet
        else if s.columnsReceived < s.columns then c.handleColumn packet
        else c.handleRow s packet

/-- What a packet does before the queue is advanced. -/
def handlePacket (c : Connection) (packet : Packet) : Option (Connection × Next) :=
  match c.current with
  | none => none
  | some request =>
    if request.simple then c.handleResultSet packet
    else
      match request.getStatement c.statements with
      | none => some (c, .nothing)
      | some s =>
        match s.status with
        | .pending => none
        | .parsing => c.handlePreparedStatement packet
        | .prepared => c.handleResultSet packet
        | .failed => do
          let c ← c.markAsReadyForQuery.markCurrentRequestAsFinished
          some (c.mapCurrent Query.fail, .flushQueue)

/-! ## Writing -/

def flushData (takes : Nat) (c : Connection) : Connection :=
  if c.hasBackpressure then c
  else if c.writeBuffer = 0 then c
  else { c with
    writeBuffer := c.writeBuffer - min takes c.writeBuffer
    hasBackpressure := min takes c.writeBuffer < c.writeBuffer }

def flushQueue (env : Env) (c : Connection) : Connection :=
  if (c.flushData env.takes).hasBackpressure then c.flushData env.takes
  else ((c.flushData env.takes).advance env).flushData env.takesNext

def perform (env : Env) (c : Connection) : Next → Connection
  | .nothing => c
  | .advance => c.advance env
  | .flushQueue => c.flushQueue env

/-- A packet comes in. -/
def handleCommand (env : Env) (c : Connection) (packet : Packet) : Option Connection := do
  let (c, next) ← c.handlePacket packet
  some (c.perform env next)

def onAutoFlush (env : Env) (c : Connection) : Connection :=
  if c.hasBackpressure then c else c.flushQueue env

def onWritable (env : Env) (c : Connection) : Connection :=
  flushQueue env { c with hasBackpressure := false }

end Connection

end OhosBun.MySql
