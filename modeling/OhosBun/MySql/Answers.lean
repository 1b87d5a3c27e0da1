/-
# `OhosBun.MySql.Answers` — what a packet does

On a busy connection a packet of a complete answer is what is due.  If it is the last one, the
connection is ready again; otherwise it stays busy with the rest of the answer
(`Busy.handlePacket`).
-/
import OhosBun.MySql.Walk

namespace OhosBun.MySql

namespace Statements
variable {statements : Statements} {name : SignatureName} {s s' : Statement}

theorem set_set : (statements.set name s).set name s' = statements.set name s' := by
  funext other
  by_cases heq : other = name
  · rw [heq, set_self, set_self]
  · rw [set_of_ne heq, set_of_ne heq, set_of_ne heq]

theorem set_of_eq (h : statements name = some s) : statements.set name s = statements := by
  funext other
  by_cases heq : other = name
  · rw [heq, set_self, h]
  · rw [set_of_ne heq]

end Statements

namespace Connection

/-! ## The query at the front -/

section Front
variable {c : Connection} {request : Query} {rest : List Query} {name : SignatureName} {s : Statement}

theorem current_eq (hrequests : c.queue.requests = request :: rest) : c.current = some request := by
  rw [current, hrequests, List.head?_cons]

theorem mapCurrent_eq (hrequests : c.queue.requests = request :: rest) (f : Query → Query) :
    c.mapCurrent f = c.setRequests (f request :: rest) := by
  rw [mapCurrent, hrequests]

theorem mapStatement_shared (hrequests : c.queue.requests = request :: rest)
    (hstatement : request.statement = some (.shared name)) (hs : c.statements name = some s)
    (f : Statement → Statement) :
    c.mapStatement f = { c with statements := c.statements.set name (f s) } := by
  rw [mapStatement, hrequests]
  dsimp only
  rw [Query.getStatement_shared hstatement, hs]
  dsimp only
  rw [Query.putStatement_shared hstatement, ← hrequests]
  rfl

theorem mapStatement_own (hrequests : c.queue.requests = request :: rest)
    (hstatement : request.statement = some (.own s)) (f : Statement → Statement) :
    c.mapStatement f = c.setRequests ({ request with statement := some (.own (f s)) } :: rest) := by
  rw [mapStatement, hrequests]
  dsimp only
  rw [Query.getStatement_own hstatement]
  dsimp only
  rw [Query.putStatement, hstatement]
  rfl

end Front

/-! ## Results -/

section Results
variable {c : Connection} {request : Query} {rest : List Query} {kind : CommandKind} {packet : Packet}
  {reply reply' : List Packet}

/-- After a packet: the rest of the answer is due, or there is none and the queue is advanced. -/
inductive Handles (c : Connection) (request : Query) (rest : List Query) (kind : CommandKind)
    (reply : List Packet) : Option (Connection × Next) → Prop
  | due {c' : Connection} {request' : Query} {next : Next} (hbusy : c'.Busy request' rest kind reply)
      (hid : request'.id = request.id) (hkept : Kept c c') (hne : reply ≠ []) :
      Handles c request rest kind reply (some (c', next))
  | settled {c' : Connection} {next : Next} (hready : c'.Ready)
      (hids : c'.queue.requests.map Query.id = (request :: rest).map Query.id) (hkept : Kept c c')
      (hnext : next ≠ .nothing) (heq : reply = []) : Handles c request rest kind reply (some (c', next))

/-- The statement that results come in for. -/
theorem Busy.resultStatement (h : Busy c request rest kind reply) (hkind : kind ≠ .prepare) :
    ∃ s, request.getStatement c.statements = some s ∧ s.ResultDue c.deprecateEof reply ∧
      (request.simple = false → s.status = .prepared) := by
  cases h.engaged with
  | prepare => exact absurd rfl hkind
  | @execute name s hrunning hpip hsimple hdisabled hstatement hs hrest hprepared hdue =>
    exact ⟨s, (Query.getStatement_shared hstatement _).trans hs, hdue, fun _ => hprepared⟩
  | @query s hrunning hpip hsimple hstatement hrest hdue =>
    exact ⟨s, Query.getStatement_own hstatement _, hdue,
      fun hfalse => absurd (hsimple.symm.trans hfalse) Bool.noConfusion⟩

theorem Busy.isRunning (h : Busy c request rest kind reply) (hkind : kind ≠ .prepare) :
    request.isRunning = true := by
  cases h.engaged with
  | prepare => exact absurd rfl hkind
  | execute hrunning => exact hrunning
  | query hrunning => exact hrunning

variable {f : Statement → Statement} {s : Statement}

/-- The statement takes a part of the result in. -/
theorem Busy.mapStatement (h : Busy c request rest kind reply) (hkind : kind ≠ .prepare)
    (hs : request.getStatement c.statements = some s) (hstatus : (f s).status = s.status)
    (hdue : (f s).ResultDue c.deprecateEof reply') :
    ∃ request', Busy (c.mapStatement f) request' rest kind reply' ∧ request'.id = request.id ∧
      Kept c (c.mapStatement f) := by
  cases h.engaged with
  | prepare => exact absurd rfl hkind
  | @execute name s' hrunning hpip hsimple hdisabled hstatement hs' hrest hprepared _ =>
    obtain rfl : s' = s :=
      Option.some.inj (hs'.symm.trans ((Query.getStatement_shared hstatement _).symm.trans hs))
    rw [mapStatement_shared h.requests hstatement hs']
    refine ⟨request, ⟨h.requests, h.isReady, ?_, ?_, h.pipelined, h.nonpipelinable⟩, rfl,
      ⟨rfl, rfl, rfl, rfl, rfl⟩⟩
    · exact .execute hrunning hpip hsimple hdisabled hstatement Statements.set_self
        (hrest.set_restBut _) (hstatus.trans hprepared) hdue
    · exact fun q hq => (h.waits q hq).extend (Statements.extends_set _ _ _)
  | @query s' hrunning hpip hsimple hstatement hrest _ =>
    obtain rfl : s' = s := Option.some.inj ((Query.getStatement_own hstatement _).symm.trans hs)
    rw [mapStatement_own h.requests hstatement]
    exact ⟨{ request with statement := some (.own (f s')) },
      ⟨rfl, h.isReady, .query hrunning hpip hsimple rfl hrest hdue, h.waits, h.pipelined,
        h.nonpipelinable⟩, rfl, ⟨rfl, rfl, rfl, rfl, rfl⟩⟩

/-- The statement is as it was, and less of the answer is due. -/
theorem Busy.withReply (h : Busy c request rest kind reply) (hkind : kind ≠ .prepare)
    (hs : request.getStatement c.statements = some s) (hdue : s.ResultDue c.deprecateEof reply') :
    Busy c request rest kind reply' := by
  refine ⟨h.requests, h.isReady, ?_, h.waits, h.pipelined, h.nonpipelinable⟩
  cases h.engaged with
  | prepare => exact absurd rfl hkind
  | execute hrunning hpip hsimple hdisabled hstatement hs' hrest hprepared _ =>
    rw [Query.getStatement_shared hstatement] at hs
    obtain rfl := Option.some.inj (hs'.symm.trans hs)
    exact .execute hrunning hpip hsimple hdisabled hstatement hs hrest hprepared hdue
  | query hrunning hpip hsimple hstatement hrest _ =>
    rw [Query.getStatement_own hstatement] at hs
    obtain rfl := Option.some.inj hs
    exact .query hrunning hpip hsimple hstatement hrest hdue

/-- Nothing is running any more. -/
def finished (c : Connection) : Connection :=
  { c with queue := ⟨c.queue.requests, 0, 0, false, true⟩ }

/-- The counters do not go below zero. -/
theorem Busy.markFinished (h : Busy c request rest kind reply) (hkind : kind ≠ .prepare) :
    c.markAsReadyForQuery.markCurrentRequestAsFinished = some c.finished := by
  have hrunning := h.isRunning hkind
  rw [markCurrentRequestAsFinished, current_eq (c := c.markAsReadyForQuery) h.requests]
  dsimp only
  rw [if_neg ((Query.isBeingPrepared_of_isPending (Query.isPending_of_isRunning hrunning) _) ▸
    Bool.false_ne_true), if_pos hrunning]
  have hpipelined := h.pipelined
  have hnonpipelinable := h.nonpipelinable
  cases h.engaged with
  | prepare => exact absurd rfl hkind
  | execute _ hpip =>
    rw [if_neg CommandKind.noConfusion] at hnonpipelinable
    rw [if_pos hpip]
    simp only [markAsReadyForQuery, notWaitingToPrepare, finished, hpipelined, hnonpipelinable]
    rfl
  | query _ hpip =>
    rw [if_neg CommandKind.noConfusion] at hpipelined
    rw [if_neg (hpip ▸ Bool.false_ne_true)]
    simp only [markAsReadyForQuery, notWaitingToPrepare, finished, hpipelined, hnonpipelinable]
    rfl

/-- The request is over, and its statement ready for the next result. -/
theorem Busy.ready_finished (h : Busy c request rest kind reply) (hkind : kind ≠ .prepare)
    (hsent : c.writeBuffer = 0) (hpressure : c.hasBackpressure = false) {g : Query → Query}
    (hover : (g request).isCompleted = true) (hid : (g request).id = request.id)
    (hstatement : (g request).statement = request.statement) :
    Handles c request rest kind []
      (some ((c.finished.mapCurrent g).mapStatement Statement.reset, .flushQueue)) := by
  have hrequests : (c.finished.mapCurrent g).queue.requests = g request :: rest := by
    rw [mapCurrent_eq (c := c.finished) h.requests]
    rfl
  cases h.engaged with
  | prepare => exact absurd rfl hkind
  | @execute name s _ _ _ _ hshared hs hrest hprepared _ =>
    rw [mapStatement_shared hrequests (hstatement.trans hshared) (s := s) (by
      rw [mapCurrent_eq (c := c.finished) h.requests]
      exact hs), mapCurrent_eq (c := c.finished) h.requests]
    refine .settled ⟨rfl, rfl, rfl, rfl, hsent, hpressure, hrest.set (.prepared hprepared s.atStart_reset),
      fun q hq => ?_⟩ (congrArg (· :: rest.map Query.id) hid) ⟨rfl, rfl, rfl, rfl, rfl⟩ Next.noConfusion rfl
    rcases List.mem_cons.mp hq with rfl | hq
    · exact .settled hover
    · exact (h.waits q hq).extend (Statements.extends_set _ _ _)
  | @query s _ _ _ hown hrest _ =>
    rw [mapStatement_own hrequests (hstatement.trans hown), mapCurrent_eq (c := c.finished) h.requests]
    refine .settled ⟨rfl, rfl, rfl, rfl, hsent, hpressure, hrest, fun q hq => ?_⟩
      (congrArg (· :: rest.map Query.id) hid) ⟨rfl, rfl, rfl, rfl, rfl⟩ Next.noConfusion rfl
    rcases List.mem_cons.mp hq with rfl | hq
    · exact .settled hover
    · exact h.waits q hq

/-- The last result, without rows or after them. -/
theorem Busy.handleResultSetOk_last (h : Busy c request rest kind reply) (hkind : kind ≠ .prepare)
    (hsent : c.writeBuffer = 0) (hpressure : c.hasBackpressure = false) :
    Handles c request rest kind [] (c.handleResultSetOk false) := by
  have hresult : request.result true = { request with status := .success } :=
    if_neg (Query.isCompleted_of_isRunning (h.isRunning hkind) ▸ Bool.false_ne_true)
  have hready := h.ready_finished hkind hsent hpressure (g := fun request => request.result true)
    (by rw [hresult]; rfl) (Query.id_result _ _) (by rw [hresult])
  rw [handleResultSetOk]
  simp only [Bool.not_false, if_true, h.markFinished hkind]
  exact hready

/-- A result, and there are more. -/
theorem Busy.handleResultSetOk_more (h : Busy c request rest kind reply) (hkind : kind ≠ .prepare)
    (hdue : isResultAnswer c.deprecateEof .start reply' = true) :
    Handles c request rest kind reply' (c.handleResultSetOk true) := by
  have hne : reply' ≠ [] := by
    rintro rfl
    rw [isResultAnswer] at hdue
    exact Bool.false_ne_true hdue
  have hresult : request.result false = { request with status := .partialResponse } :=
    if_neg (Query.isCompleted_of_isRunning (h.isRunning hkind) ▸ Bool.false_ne_true)
  have hpartial : Busy (c.setRequests (request.result false :: rest)) (request.result false) rest kind
      reply := by
    rw [hresult]
    refine ⟨rfl, h.isReady, ?_, h.waits, h.pipelined, h.nonpipelinable⟩
    cases h.engaged with
    | prepare => exact absurd rfl hkind
    | execute _ hpip hsimple hdisabled hstatement hs hrest hprepared hdue =>
      exact .execute rfl hpip hsimple hdisabled hstatement hs hrest hprepared hdue
    | query _ hpip hsimple hstatement hrest hdue =>
      exact .query rfl hpip hsimple hstatement hrest hdue
  obtain ⟨s, hs, _⟩ := hpartial.resultStatement hkind
  obtain ⟨request', hbusy, hid, hkept⟩ := hpartial.mapStatement (f := Statement.reset) hkind hs rfl
    (s.atStart_reset.resultDue_of hdue)
  rw [handleResultSetOk]
  simp only [Bool.not_true, Bool.false_eq_true, if_false]
  rw [← mapCurrent_eq h.requests fun request => request.result false] at hbusy hkept
  have hkept' : Kept c (c.mapCurrent fun request => request.result false) := by
    rw [mapCurrent_eq h.requests]
    exact ⟨rfl, rfl, rfl, rfl, rfl⟩
  exact .due hbusy (hid.trans (Query.id_result _ _)) (hkept'.trans hkept) hne

theorem ne_nil_of_isResultAnswer {deprecateEof : Bool} {stage : Stage}
    (h : isResultAnswer deprecateEof stage reply = true) : reply ≠ [] := by
  rintro rfl
  exact Bool.false_ne_true ((isResultAnswer_nil _ _).symm.trans h)

/-- An error instead of a result. -/
theorem Busy.handles_error (h : Busy c request rest kind reply) (hkind : kind ≠ .prepare)
    (hsent : c.writeBuffer = 0) (hpressure : c.hasBackpressure = false) :
    Handles c request rest kind [] (c.handleResultSet .error) := by
  obtain ⟨s, hs, _⟩ := h.resultStatement hkind
  obtain ⟨request', hbusy, hid, hkept⟩ := h.mapStatement (f := Statement.reset) hkind hs rfl
    (s.atStart_reset.resultDue _)
  have hrun : c.handleResultSet .error =
      some ((c.mapStatement Statement.reset).finished.mapCurrent Query.fail, .flushQueue) := by
    rw [Connection.handleResultSet, current_eq h.requests]
    simp only [hbusy.markFinished hkind]
    rfl
  have hfail := Query.isCompleted_fail request'
  rw [hrun, mapCurrent_eq (c := (c.mapStatement Statement.reset).finished) hbusy.requests]
  refine .settled ⟨rfl, rfl, rfl, rfl, hkept.writeBuffer.trans hsent, hkept.hasBackpressure.trans hpressure,
    ?_, fun q hq => ?_⟩ ?_ (hkept.trans ⟨rfl, rfl, rfl, rfl, rfl⟩) Next.noConfusion rfl
  · cases hbusy.engaged with
    | prepare => exact absurd rfl hkind
    | @execute name s' _ _ _ _ _ hs' hrest hprepared hdue =>
      have hstart : s'.AtStart := hdue.due.elim (fun hnil => hdue.start hnil.2)
        fun hdue => absurd rfl (ne_nil_of_isResultAnswer hdue)
      exact Statements.set_of_eq hs' ▸ hrest.set (.prepared hprepared hstart)
    | query _ _ _ _ hrest _ => exact hrest
  · rcases List.mem_cons.mp hq with rfl | hq
    · exact .settled hfail
    · exact hbusy.waits q hq
  · exact congrArg (· :: rest.map Query.id) ((Query.id_fail _).trans hid)

/-- A part of a result. -/
theorem Busy.handles_part (h : Busy c request rest kind (packet :: reply)) (hkind : kind ≠ .prepare)
    (hs : request.getStatement c.statements = some s) (hstatus : (f s).status = s.status)
    (hheader : (f s).headerReceived = true)
    (heof : (f s).columnsEofReceived = true → (f s).columns ≤ (f s).columnsReceived)
    (hdue : isResultAnswer c.deprecateEof ((f s).stage c.deprecateEof) reply = true) :
    Handles c request rest kind reply (some (c.mapStatement f, .nothing)) := by
  obtain ⟨request', hbusy, hid, hkept⟩ := h.mapStatement hkind hs hstatus
    ⟨fun hfalse => absurd (hheader.symm.trans hfalse) Bool.noConfusion, heof, .inr hdue⟩
  exact .due hbusy hid hkept (ne_nil_of_isResultAnswer hdue)

/-- The end of a result. -/
theorem Busy.handles_end (h : Busy c request rest kind (packet :: reply)) (hkind : kind ≠ .prepare)
    (hsent : c.writeBuffer = 0) (hpressure : c.hasBackpressure = false) {moreResults : Bool}
    (hdue : (if moreResults then isResultAnswer c.deprecateEof .start reply else reply.isEmpty) = true) :
    Handles c request rest kind reply (c.handleResultSetOk moreResults) := by
  cases moreResults with
  | true => exact h.handleResultSetOk_more hkind hdue
  | false =>
    obtain rfl : reply = [] := List.isEmpty_iff.mp hdue
    exact h.handleResultSetOk_last hkind hsent hpressure

section Parts
variable {s : Statement} (h : Busy c request rest kind (packet :: reply)) (hkind : kind ≠ .prepare)
  (hs : request.getStatement c.statements = some s)
include h hkind hs

/-- The first packet of a result. -/
theorem Busy.handleHeader (hsent : c.writeBuffer = 0) (hpressure : c.hasBackpressure = false)
    (hstart : s.AtStart) (herror : packet ≠ .error)
    (hdue : isResultAnswer c.deprecateEof .start (packet :: reply) = true) :
    Handles c request rest kind reply (c.handleHeader packet) := by
  cases packet with
  | error => exact absurd rfl herror
  | ok moreResults =>
    rw [isResultAnswer] at hdue
    exact h.handles_end hkind hsent hpressure hdue
  | header fieldCount =>
    rw [isResultAnswer, decide_eq_true_eq] at hdue
    obtain ⟨hpos, hle, hdue⟩ := hdue
    have hreceived : (receiveHeader fieldCount s).columnsReceived = 0 := by
      rw [receiveHeader, hstart.columns, ite_self]
    have hstage : (receiveHeader fieldCount s).stage c.deprecateEof = .columns fieldCount := by
      rw [Statement.stage, if_neg Bool.noConfusion, hreceived]
      exact if_pos hpos
    rw [Connection.handleHeader, if_neg (by omega)]
    refine h.handles_part hkind hs rfl rfl (fun htrue => ?_) (hstage ▸ hdue)
    exact absurd (hstart.columnsEof.symm.trans htrue) Bool.noConfusion
  | eof | prepareOk | definition | row => exact absurd hdue Bool.false_ne_true

/-- The definition of a column. -/
theorem Busy.handleColumn (hheader : s.headerReceived = true)
    (hcolumns : s.columnsReceived < s.columns) (heof : s.columnsEofReceived = false)
    (herror : packet ≠ .error)
    (hdue : isResultAnswer c.deprecateEof (.columns (s.columns - s.columnsReceived))
      (packet :: reply) = true) :
    Handles c request rest kind reply (c.handleColumn packet) := by
  cases packet with
  | error => exact absurd rfl herror
  | definition =>
    rw [isResultAnswer] at hdue
    refine h.handles_part hkind hs rfl hheader
      (fun htrue => absurd (heof.symm.trans htrue) Bool.noConfusion) ?_
    have hstage : Statement.stage c.deprecateEof { s with columnsReceived := s.columnsReceived + 1 } =
        .afterDefinitions c.deprecateEof (s.columns - s.columnsReceived - 1) := by
      rw [Statement.stage, if_neg (fun hfalse => Bool.noConfusion (hheader.symm.trans hfalse)),
        Stage.afterDefinitions]
      dsimp only
      by_cases hlast : s.columns - s.columnsReceived - 1 = 0
      · rw [if_neg (by omega), if_pos hlast, heof]
        cases c.deprecateEof with
        | false => rfl
        | true => rfl
      · rw [if_pos (by omega), if_neg hlast, Nat.sub_sub]
    exact hstage ▸ hdue
  | ok | eof | prepareOk | header | row => exact absurd hdue Bool.false_ne_true

/-- A row, or what ends the columns or the rows. -/
theorem Busy.handleRow (hsent : c.writeBuffer = 0) (hpressure : c.hasBackpressure = false)
    (hheader : s.headerReceived = true) (hcolumns : ¬ s.columnsReceived < s.columns)
    (herror : packet ≠ .error)
    (hdue : isResultAnswer c.deprecateEof (if c.deprecateEof = false ∧ s.columnsEofReceived = false
      then .columnsEof else .rows) (packet :: reply) = true) :
    Handles c request rest kind reply (c.handleRow s packet) := by
  by_cases hcolumnsEof : c.deprecateEof = false ∧ s.columnsEofReceived = false
  · rw [if_pos hcolumnsEof] at hdue
    cases packet with
    | error => exact absurd rfl herror
    | eof moreResults =>
      rw [isResultAnswer] at hdue
      rw [Connection.handleRow, if_pos hcolumnsEof]
      refine h.handles_part hkind hs rfl hheader (fun _ => Nat.not_lt.mp hcolumns) ?_
      have hstage : Statement.stage c.deprecateEof { s with columnsEofReceived := true } = .rows := by
        rw [Statement.stage, if_neg (fun hfalse => Bool.noConfusion (hheader.symm.trans hfalse)),
          if_neg hcolumns, if_neg (fun hfalse => Bool.noConfusion hfalse.2)]
      exact hstage ▸ hdue
    | ok | prepareOk | header | definition | row => exact absurd hdue Bool.false_ne_true
  · rw [if_neg hcolumnsEof] at hdue
    cases packet with
    | error => exact absurd rfl herror
    | eof moreResults =>
      rw [isResultAnswer] at hdue
      rw [Connection.handleRow, if_neg hcolumnsEof]
      exact h.handles_end hkind hsent hpressure hdue
    | row =>
      rw [isResultAnswer] at hdue
      refine .due (h.withReply hkind hs ⟨fun hfalse => ?_, fun _ => Nat.not_lt.mp hcolumns, .inr ?_⟩)
        rfl (.refl c) (ne_nil_of_isResultAnswer hdue)
      · exact absurd (hheader.symm.trans hfalse) Bool.noConfusion
      · rw [Statement.stage, if_neg (fun hfalse => Bool.noConfusion (hheader.symm.trans hfalse)),
          if_neg hcolumns, if_neg hcolumnsEof]
        exact hdue
    | ok | prepareOk | header | definition => exact absurd hdue Bool.false_ne_true

end Parts

/-- A packet of a result. -/
theorem Busy.handleResultSet (h : Busy c request rest kind (packet :: reply)) (hkind : kind ≠ .prepare)
    (hsent : c.writeBuffer = 0) (hpressure : c.hasBackpressure = false) :
    Handles c request rest kind reply (c.handleResultSet packet) := by
  obtain ⟨s, hs, ⟨hstart, heof, hdue⟩, _⟩ := h.resultStatement hkind
  have hdue : isResultAnswer c.deprecateEof (s.stage c.deprecateEof) (packet :: reply) = true :=
    hdue.resolve_left fun hnil => List.cons_ne_nil _ _ hnil.1
  by_cases herror : packet = .error
  · subst herror
    have hnil : reply = [] := by
      rw [isResultAnswer] at hdue
      exact List.isEmpty_iff.mp hdue
    exact hnil ▸ h.handles_error hkind hsent hpressure
  have hrun : c.handleResultSet packet =
      if s.headerReceived = false then c.handleHeader packet
      else if s.columnsReceived < s.columns then c.handleColumn packet
      else c.handleRow s packet := by
    rw [Connection.handleResultSet, current_eq h.requests]
    cases packet with
    | error => exact absurd rfl herror
    | _ => simp only [hs]
  rw [hrun]
  rw [Statement.stage] at hdue
  by_cases hheader : s.headerReceived = false
  · rw [if_pos hheader] at hdue ⊢
    exact h.handleHeader hkind hs hsent hpressure (hstart hheader) herror hdue
  rw [if_neg hheader] at hdue ⊢
  have hheader : s.headerReceived = true := eq_true_of_ne_false hheader
  by_cases hcolumns : s.columnsReceived < s.columns
  · rw [if_pos hcolumns] at hdue ⊢
    exact h.handleColumn hkind hs hheader hcolumns
      (eq_false_of_ne_true fun htrue => Nat.not_lt.mpr (heof htrue) hcolumns) herror hdue
  · rw [if_neg hcolumns] at hdue ⊢
    exact h.handleRow hkind hs hsent hpressure hheader hcolumns herror hdue

end Results

/-! ## The answer that prepares a statement -/

section Prepare
variable {c : Connection} {request : Query} {rest : List Query} {packet : Packet} {reply : List Packet}
  {name : SignatureName} {s : Statement}

theorem ne_nil_of_prepareDue {deprecateEof : Bool} (h : s.PrepareDue deprecateEof reply)
    (hid : 0 < s.statementId) : reply ≠ [] := by
  intro hnil
  have hlen := congrArg List.length hnil
  cases h with
  | fresh => exact absurd hid (Nat.lt_irrefl 0)
  | params _ _ _ _ hlt =>
    rw [List.length_append, List.length_append, List.length_replicate, definitionsEof] at hlen
    cases deprecateEof with
    | false => exact absurd hlen (by rw [if_neg Bool.false_ne_true, List.length_singleton]; simp)
    | true => exact absurd hlen (by have := hlt rfl; simp; omega)
  | columns _ _ _ _ _ hlt =>
    rw [List.length_append, List.length_replicate, definitionsEof] at hlen
    cases deprecateEof with
    | false => exact absurd hlen (by rw [if_neg Bool.false_ne_true, List.length_singleton]; simp)
    | true => exact absurd hlen (by have := hlt rfl; simp; omega)

theorem of_mem_definitionsEof {deprecateEof : Bool} (h : packet ∈ definitionsEof deprecateEof) :
    packet = .eof false := by
  cases deprecateEof with
  | false => exact List.mem_singleton.mp h
  | true => exact absurd h List.not_mem_nil

/-- After the first packet. -/
theorem of_mem_prepareDue {deprecateEof : Bool} (h : s.PrepareDue deprecateEof reply)
    (hid : 0 < s.statementId) (hmem : packet ∈ reply) : packet = .definition ∨ packet = .eof false := by
  cases h with
  | fresh => exact absurd hid (Nat.lt_irrefl 0)
  | params =>
    rcases List.mem_append.mp hmem with hmem | hmem
    · exact .inl (List.eq_of_mem_replicate hmem)
    rcases List.mem_append.mp hmem with hmem | hmem
    · exact .inr (of_mem_definitionsEof hmem)
    rw [definitions] at hmem
    split at hmem
    · exact absurd hmem List.not_mem_nil
    rcases List.mem_append.mp hmem with hmem | hmem
    · exact .inl (List.eq_of_mem_replicate hmem)
    · exact .inr (of_mem_definitionsEof hmem)
  | columns =>
    rcases List.mem_append.mp hmem with hmem | hmem
    · exact .inl (List.eq_of_mem_replicate hmem)
    · exact .inr (of_mem_definitionsEof hmem)

/-- The statement of a request that is being prepared. -/
structure Prepares (c : Connection) (request : Query) (rest : List Query) (name : SignatureName)
    (s : Statement) : Prop where
  status : request.status = .pending
  pipelined : request.pipelined = false
  simple : request.simple = false
  disabled : c.pipeliningDisabled = false
  statement : request.statement = some (.shared name)
  get : c.statements name = some s
  others : c.statements.RestBut name
  requests : c.queue.requests = request :: rest
  isReady : c.queue.isReadyForQuery = false
  waits : ∀ q ∈ rest, q.Waits c.pipeliningDisabled c.statements
  noPipelined : c.queue.pipelinedRequests = 0
  noNonpipelinable : c.queue.nonpipelinableRequests = 0

theorem Busy.prepares (h : Busy c request rest .prepare reply) :
    ∃ name s, Prepares c request rest name s ∧ s.PrepareDue c.deprecateEof reply := by
  obtain ⟨hrequests, hready, hengaged, hwaits, hpipelined, hnonpipelinable⟩ := h
  cases hengaged with
  | @prepare name s hstatus hpip hsimple hdisabled hstatement hs hrest hdue =>
    exact ⟨name, s, ⟨hstatus, hpip, hsimple, hdisabled, hstatement, hs, hrest, hrequests, hready, hwaits,
      hpipelined, hnonpipelinable⟩, hdue⟩

namespace Prepares

/-- The statement takes a part of the answer in. -/
theorem set (h : Prepares c request rest name s) (s' : Statement) :
    Prepares { c with statements := c.statements.set name s' } request rest name s' :=
  { h with
    get := Statements.set_self
    others := h.others.set_restBut s'
    waits := fun q hq => (h.waits q hq).extend (Statements.extends_set _ _ _) }

theorem mapStatement (h : Prepares c request rest name s) (f : Statement → Statement) :
    c.mapStatement f = { c with statements := c.statements.set name (f s) } :=
  mapStatement_shared h.requests h.statement h.get f

theorem busy (h : Prepares c request rest name s) {reply' : List Packet}
    (hdue : s.PrepareDue c.deprecateEof reply') : Busy c request rest .prepare reply' :=
  ⟨h.requests, h.isReady, .prepare h.status h.pipelined h.simple h.disabled h.statement h.get h.others hdue,
    h.waits, h.noPipelined, h.noNonpipelinable⟩

theorem getStatement (h : Prepares c request rest name s) :
    (c.current.bind fun request => request.getStatement c.statements) = some s := by
  rw [current_eq h.requests]
  exact (Query.getStatement_shared h.statement _).trans h.get

/-- The statement is prepared. -/
theorem check_done (h : Prepares c request rest name s)
    (hdone : s.columnsReceived = s.columns ∧ s.paramsReceived = s.params) :
    c.checkIfPreparedStatementIsDone = ({ c with
      queue := { c.queue with isReadyForQuery := true, waitingToPrepare := false }
      statements := c.statements.set name { s with status := .prepared }.reset }, .advance) := by
  let done : Statement := { s with status := .prepared }
  let ready (statements : Statements) : Connection := { c with
    queue := { c.queue with isReadyForQuery := true, waitingToPrepare := false }
    statements := statements }
  let c₁ : Connection := { c with statements := c.statements.set name done }
  have hcurrent : c₁.markAsReadyForQuery.markAsPrepared = ready c₁.statements := by
    rw [markAsPrepared, markCurrentAsPrepared,
      current_eq (c := c₁.markAsReadyForQuery.notWaitingToPrepare) h.requests]
    dsimp only
    rw [if_pos (Query.isPending_of_status h.status),
      mapStatement_shared (c := c₁.markAsReadyForQuery.notWaitingToPrepare) h.requests h.statement
        (s := done) Statements.set_self, if_neg (fun hparsing => StatementStatus.noConfusion hparsing.1)]
    exact congrArg ready (Statements.set_of_eq Statements.set_self)
  have hreset : (ready c₁.statements).mapStatement Statement.reset =
      ready (c.statements.set name done.reset) :=
    (mapStatement_shared (c := ready c₁.statements) h.requests h.statement Statements.set_self _).trans
      (congrArg ready Statements.set_set)
  rw [checkIfPreparedStatementIsDone, h.getStatement]
  dsimp only
  rw [if_pos hdone, h.mapStatement]
  exact congrArg (·, Next.advance) ((congrArg (Connection.mapStatement _) hcurrent).trans hreset)

/-- The answer is over, or something of it is due. -/
theorem check (h : Prepares c request rest name s) (hsent : c.writeBuffer = 0)
    (hpressure : c.hasBackpressure = false)
    (hdone : s.columnsReceived = s.columns ∧ s.paramsReceived = s.params → reply = [])
    (hdue : ¬ (s.columnsReceived = s.columns ∧ s.paramsReceived = s.params) →
      s.PrepareDue c.deprecateEof reply ∧ 0 < s.statementId) :
    Handles c request rest .prepare reply (some c.checkIfPreparedStatementIsDone) := by
  by_cases hall : s.columnsReceived = s.columns ∧ s.paramsReceived = s.params
  · obtain rfl := hdone hall
    rw [h.check_done hall]
    refine .settled ⟨rfl, rfl, h.noPipelined, h.noNonpipelinable, hsent, hpressure,
      h.others.set (.prepared rfl (Statement.atStart_reset _)), fun q hq => ?_⟩
      (congrArg (List.map Query.id) h.requests) ⟨rfl, rfl, rfl, rfl, rfl⟩ Next.noConfusion rfl
    rcases List.mem_cons.mp (h.requests ▸ hq) with rfl | hq
    · exact .prepared h.status h.pipelined h.simple h.disabled h.statement Statements.set_self
    · exact (h.waits q hq).extend (Statements.extends_set _ _ _)
  · obtain ⟨hdue, hid⟩ := hdue hall
    have hrun : c.checkIfPreparedStatementIsDone = (c, .nothing) := by
      rw [checkIfPreparedStatementIsDone, h.getStatement]
      exact if_neg hall
    rw [hrun]
    exact .due (h.busy hdue) rfl (.refl c) (ne_nil_of_prepareDue hdue hid)

/-- The same after the statement has taken a part of the answer in. -/
theorem check_set (h : Prepares c request rest name s) (s' : Statement) (hsent : c.writeBuffer = 0)
    (hpressure : c.hasBackpressure = false) (hid : 0 < s'.statementId)
    (hdone : s'.columnsReceived = s'.columns ∧ s'.paramsReceived = s'.params → reply = [])
    (hdue : ¬ (s'.columnsReceived = s'.columns ∧ s'.paramsReceived = s'.params) →
      s'.PrepareDue c.deprecateEof reply) :
    Handles c request rest .prepare reply
      (some (checkIfPreparedStatementIsDone { c with statements := c.statements.set name s' })) := by
  have hkept : Kept c { c with statements := c.statements.set name s' } := ⟨rfl, rfl, rfl, rfl, rfl⟩
  have hchecked := (h.set s').check hsent hpressure hdone fun hnot => ⟨hdue hnot, hid⟩
  generalize some (checkIfPreparedStatementIsDone { c with statements := c.statements.set name s' }) =
    result at hchecked ⊢
  cases hchecked with
  | due hbusy hid hkept' hne => exact .due hbusy hid (hkept.trans hkept') hne
  | settled hready hids hkept' hnext heq => exact .settled hready hids (hkept.trans hkept') hnext heq

/-- The server does not prepare it. -/
theorem error (h : Prepares c request rest name (.new .parsing)) (hsent : c.writeBuffer = 0)
    (hpressure : c.hasBackpressure = false) :
    Handles c request rest .prepare [] (c.handlePreparedStatement .error) := by
  let failed : Statement := { Statement.new .parsing with status := .failed }
  let c₁ : Connection := { c with statements := c.statements.set name failed }
  have hfinish : c₁.markAsReadyForQuery.markCurrentRequestAsFinished =
      some c₁.markAsReadyForQuery.notWaitingToPrepare := by
    rw [markCurrentRequestAsFinished, current_eq (c := c₁.markAsReadyForQuery) h.requests]
    dsimp only
    rw [if_neg, if_neg (Query.isRunning_of_pending h.status ▸ Bool.false_ne_true)]
    have hprepared : request.isBeingPrepared c₁.statements = false := by
      refine Query.isBeingPrepared_of_ne fun s hs => ?_
      rw [Query.getStatement_shared h.statement] at hs
      exact Option.some.inj (Statements.set_self.symm.trans hs) ▸ StatementStatus.noConfusion
    exact hprepared ▸ Bool.false_ne_true
  have hrun : c.handlePreparedStatement .error =
      some (c₁.markAsReadyForQuery.notWaitingToPrepare.mapCurrent Query.fail, .advance) := by
    unfold handlePreparedStatement
    rw [h.getStatement]
    dsimp only
    rw [if_neg (show ¬ 0 < (Statement.new .parsing).statementId from Nat.lt_irrefl 0), h.mapStatement]
    exact congrArg (·.bind fun c => some (c.mapCurrent Query.fail, Next.advance)) hfinish
  rw [hrun, mapCurrent_eq (c := c₁.markAsReadyForQuery.notWaitingToPrepare) h.requests]
  refine .settled ⟨rfl, rfl, h.noPipelined, h.noNonpipelinable, hsent, hpressure,
    h.others.set (.failed rfl), fun q hq => ?_⟩ (congrArg (· :: rest.map Query.id) (Query.id_fail _))
    ⟨rfl, rfl, rfl, rfl, rfl⟩ Next.noConfusion rfl
  rcases List.mem_cons.mp hq with rfl | hq
  · exact .settled (Query.isCompleted_fail request)
  · exact (h.waits q hq).extend (Statements.extends_set _ _ _)

/-- The first packet of the answer, if it is prepared. -/
theorem prepareOk (h : Prepares c request rest name (.new .parsing)) (hsent : c.writeBuffer = 0)
    (hpressure : c.hasBackpressure = false) {statementId numParams numColumns : Nat}
    (hid : 0 < statementId)
    (hreply : reply = definitions c.deprecateEof numParams ++ definitions c.deprecateEof numColumns) :
    Handles c request rest .prepare reply
      (c.handlePreparedStatement (.prepareOk statementId numParams numColumns)) := by
  have hreceived : receivePrepareOk statementId numParams numColumns (.new .parsing) =
      ⟨.parsing, statementId, numParams, 0, numColumns, 0, false, false⟩ := by
    have h0 (n : Nat) : (if 0 < n then n else 0) = n := by
      split
      · rfl
      · omega
    simp only [receivePrepareOk, Statement.new, h0, ite_self]
  unfold handlePreparedStatement
  rw [h.getStatement]
  dsimp only
  rw [if_neg (show ¬ 0 < (Statement.new .parsing).statementId from Nat.lt_irrefl 0), if_neg (Nat.ne_of_gt hid),
    h.mapStatement, hreceived]
  refine h.check_set _ hsent hpressure hid (fun hdone => ?_) fun hdue => ?_
  · rw [hreply, ← show 0 = numParams from hdone.2, ← show 0 = numColumns from hdone.1]
    rfl
  · rcases Nat.eq_zero_or_pos numParams with rfl | hparams
    · have hcolumns : 0 < numColumns := Nat.pos_of_ne_zero fun hzero => hdue ⟨hzero.symm, rfl⟩
      have hlist : reply = List.replicate (numColumns - 0) Packet.definition ++
          definitionsEof c.deprecateEof := by
        rw [hreply, definitions, if_pos rfl, definitions, if_neg (Nat.ne_of_gt hcolumns), List.nil_append]
        rfl
      rw [hlist]
      exact .columns (s := ⟨.parsing, statementId, 0, 0, numColumns, 0, false, false⟩) hid rfl rfl hcolumns
        (Nat.zero_le _) fun _ => hcolumns
    · have hlist : reply = List.replicate (numParams - 0) Packet.definition ++
          (definitionsEof c.deprecateEof ++ definitions c.deprecateEof numColumns) := by
        rw [hreply, definitions, if_neg (Nat.ne_of_gt hparams), List.append_assoc]
        rfl
      rw [hlist]
      exact .params (s := ⟨.parsing, statementId, numParams, 0, numColumns, 0, false, false⟩) hid rfl rfl
        (Nat.zero_le _) fun _ => hparams

/-- A definition, that of a parameter or of a column. -/
theorem definition (h : Prepares c request rest name s) (hsent : c.writeBuffer = 0)
    (hpressure : c.hasBackpressure = false) (hid : 0 < s.statementId)
    (hdue : s.PrepareDue c.deprecateEof (.definition :: reply)) :
    Handles c request rest .prepare reply (c.handlePreparedStatement .definition) := by
  unfold handlePreparedStatement
  rw [h.getStatement]
  dsimp only
  rw [if_pos hid, h.mapStatement]
  generalize hlist : Packet.definition :: reply = l at hdue
  cases hdue with
  | fresh => exact absurd hid (Nat.lt_irrefl 0)
  | params _ hstatus hcolumns hle hlt =>
    have hmore : s.paramsReceived < s.params := by
      rcases Nat.lt_or_eq_of_le hle with hmore | heq
      · exact hmore
      · rw [heq, Nat.sub_self, List.replicate_zero, List.nil_append, definitionsEof] at hlist
        cases hdeprecate : c.deprecateEof with
        | false =>
          rw [hdeprecate] at hlist
          exact Packet.noConfusion (List.cons.inj hlist).1
        | true => exact absurd (hlt hdeprecate) (Nat.not_lt.mpr (Nat.le_of_eq heq.symm))
    have hreceived : receiveDefinition s = { s with paramsReceived := s.paramsReceived + 1 } := if_pos hmore
    have hreply : reply = List.replicate (s.params - (s.paramsReceived + 1)) Packet.definition ++
        (definitionsEof c.deprecateEof ++ definitions c.deprecateEof s.columns) := by
      rw [show s.params - s.paramsReceived = s.params - (s.paramsReceived + 1) + 1 by omega,
        List.replicate_succ, List.cons_append] at hlist
      exact (List.cons.inj hlist).2
    rw [hreceived]
    by_cases hdeprecate : c.deprecateEof = true
    · rw [if_pos hdeprecate]
      refine h.check_set _ hsent hpressure hid (fun hdone => ?_) fun hdue => ?_
      · have hparams : s.paramsReceived + 1 = s.params := hdone.2
        have hnone : s.columns = 0 := (show s.columnsReceived = s.columns from hdone.1) ▸ hcolumns
        rw [hreply, hparams, Nat.sub_self, hdeprecate, hnone]
        rfl
      · rcases Nat.lt_or_eq_of_le (Nat.succ_le_of_lt hmore) with hmore' | hparams
        · rw [hreply]
          exact .params (s := { s with paramsReceived := s.paramsReceived + 1 }) hid hstatus hcolumns
            (Nat.le_of_lt hmore') fun _ => hmore'
        · have hpos : 0 < s.columns := Nat.pos_of_ne_zero fun hzero =>
            hdue ⟨hcolumns.trans hzero.symm, hparams⟩
          have hreply' : reply = List.replicate (s.columns - s.columnsReceived) Packet.definition ++
              definitionsEof c.deprecateEof := by
            rw [hreply, ← Nat.succ_eq_add_one, hparams, Nat.sub_self, hcolumns, definitions,
              if_neg (Nat.ne_of_gt hpos), hdeprecate]
            rfl
          rw [hreply']
          exact .columns (s := { s with paramsReceived := s.paramsReceived + 1 }) hid hstatus hparams hpos
            (hcolumns ▸ Nat.zero_le _) fun _ => hcolumns ▸ hpos
    · rw [if_neg hdeprecate]
      have hdue : Statement.PrepareDue c.deprecateEof reply
          { s with paramsReceived := s.paramsReceived + 1 } := by
        rw [hreply]
        exact .params (s := { s with paramsReceived := s.paramsReceived + 1 }) hid hstatus hcolumns hmore
          fun htrue => absurd htrue hdeprecate
      exact .due ((h.set _).busy hdue) rfl ⟨rfl, rfl, rfl, rfl, rfl⟩ (ne_nil_of_prepareDue hdue hid)
  | columns _ hstatus hparams hpos hle hlt =>
    have hmore : s.columnsReceived < s.columns := by
      rcases Nat.lt_or_eq_of_le hle with hmore | heq
      · exact hmore
      · rw [heq, Nat.sub_self, List.replicate_zero, List.nil_append, definitionsEof] at hlist
        cases hdeprecate : c.deprecateEof with
        | false =>
          rw [hdeprecate] at hlist
          exact Packet.noConfusion (List.cons.inj hlist).1
        | true => exact absurd (hlt hdeprecate) (Nat.not_lt.mpr (Nat.le_of_eq heq.symm))
    have hreceived : receiveDefinition s = { s with columnsReceived := s.columnsReceived + 1 } :=
      (if_neg (Nat.not_lt.mpr (Nat.le_of_eq hparams.symm))).trans (if_pos hmore)
    have hreply : reply = List.replicate (s.columns - (s.columnsReceived + 1)) Packet.definition ++
        definitionsEof c.deprecateEof := by
      rw [show s.columns - s.columnsReceived = s.columns - (s.columnsReceived + 1) + 1 by omega,
        List.replicate_succ, List.cons_append] at hlist
      exact (List.cons.inj hlist).2
    rw [hreceived]
    by_cases hdeprecate : c.deprecateEof = true
    · rw [if_pos hdeprecate]
      refine h.check_set _ hsent hpressure hid (fun hdone => ?_) fun hdue => ?_
      · have hcolumns : s.columnsReceived + 1 = s.columns := hdone.1
        rw [hreply, hcolumns, Nat.sub_self, hdeprecate]
        rfl
      · have hmore' : s.columnsReceived + 1 < s.columns :=
          Nat.lt_of_le_of_ne hmore fun heq => hdue ⟨heq, hparams⟩
        rw [hreply]
        exact .columns (s := { s with columnsReceived := s.columnsReceived + 1 }) hid hstatus hparams hpos
          (Nat.le_of_lt hmore') fun _ => hmore'
    · rw [if_neg hdeprecate]
      have hdue : Statement.PrepareDue c.deprecateEof reply
          { s with columnsReceived := s.columnsReceived + 1 } := by
        rw [hreply]
        exact .columns (s := { s with columnsReceived := s.columnsReceived + 1 }) hid hstatus hparams hpos
          hmore fun htrue => absurd htrue hdeprecate
      exact .due ((h.set _).busy hdue) rfl ⟨rfl, rfl, rfl, rfl, rfl⟩ (ne_nil_of_prepareDue hdue hid)

/-- The end of the definitions, where it is a packet of its own. -/
theorem eof (h : Prepares c request rest name s) (hsent : c.writeBuffer = 0)
    (hpressure : c.hasBackpressure = false) (hid : 0 < s.statementId) {moreResults : Bool}
    (hdue : s.PrepareDue c.deprecateEof (.eof moreResults :: reply)) :
    Handles c request rest .prepare reply (c.handlePreparedStatement (.eof moreResults)) := by
  unfold handlePreparedStatement
  rw [h.getStatement]
  dsimp only
  rw [if_pos hid]
  generalize hlist : Packet.eof moreResults :: reply = l at hdue
  cases hdue with
  | fresh => exact absurd hid (Nat.lt_irrefl 0)
  | params _ hstatus hcolumns hle hlt =>
    have hparams : s.paramsReceived = s.params := by
      rcases Nat.lt_or_eq_of_le hle with hmore | heq
      · rw [show s.params - s.paramsReceived = s.params - (s.paramsReceived + 1) + 1 by omega,
          List.replicate_succ] at hlist
        exact Packet.noConfusion (List.cons.inj hlist).1
      · exact heq
    have hdeprecate : c.deprecateEof = false :=
      eq_false_of_ne_true fun htrue => absurd (hlt htrue) (Nat.not_lt.mpr (Nat.le_of_eq hparams.symm))
    rw [hparams, Nat.sub_self, hdeprecate] at hlist
    have hreply : reply = definitions false s.columns := (List.cons.inj hlist).2
    rw [if_neg (hdeprecate ▸ Bool.false_ne_true)]
    refine h.check hsent hpressure (fun hdone => ?_) fun hdue => ⟨?_, hid⟩
    · rw [hreply, ← hdone.1, hcolumns]
      rfl
    · have hpos : 0 < s.columns := Nat.pos_of_ne_zero fun hzero =>
        hdue ⟨hcolumns.trans hzero.symm, hparams⟩
      have hreply' : reply = List.replicate (s.columns - s.columnsReceived) Packet.definition ++
          definitionsEof c.deprecateEof := by
        rw [hreply, hcolumns, definitions, if_neg (Nat.ne_of_gt hpos), hdeprecate]
        rfl
      rw [hreply']
      exact .columns hid hstatus hparams hpos (hcolumns ▸ Nat.zero_le _) fun _ => hcolumns ▸ hpos
  | columns _ hstatus hparams hpos hle hlt =>
    have hcolumns : s.columnsReceived = s.columns := by
      rcases Nat.lt_or_eq_of_le hle with hmore | heq
      · rw [show s.columns - s.columnsReceived = s.columns - (s.columnsReceived + 1) + 1 by omega,
          List.replicate_succ] at hlist
        exact Packet.noConfusion (List.cons.inj hlist).1
      · exact heq
    have hdeprecate : c.deprecateEof = false :=
      eq_false_of_ne_true fun htrue => absurd (hlt htrue) (Nat.not_lt.mpr (Nat.le_of_eq hcolumns.symm))
    rw [hcolumns, Nat.sub_self, hdeprecate] at hlist
    rw [if_neg (hdeprecate ▸ Bool.false_ne_true)]
    exact h.check hsent hpressure (fun _ => (List.cons.inj hlist).2)
      fun hdue => absurd ⟨hcolumns, hparams⟩ hdue

end Prepares

/-- A packet of an answer that prepares a statement. -/
theorem Busy.handlePreparedStatement (h : Busy c request rest .prepare (packet :: reply))
    (hsent : c.writeBuffer = 0) (hpressure : c.hasBackpressure = false) :
    Handles c request rest .prepare reply (c.handlePreparedStatement packet) := by
  obtain ⟨name, s, hprepares, hdue⟩ := h.prepares
  rcases Nat.eq_zero_or_pos s.statementId with hzero | hid
  · generalize hlist : packet :: reply = l at hdue
    cases hdue with
    | params hid => exact absurd hzero (Nat.ne_of_gt hid)
    | columns hid => exact absurd hzero (Nat.ne_of_gt hid)
    | fresh hanswer =>
      subst hlist
      have hanswer : isPrepareAnswer c.deprecateEof (packet :: reply) = true :=
        hanswer.resolve_left (List.cons_ne_nil _ _)
      cases packet with
      | error =>
        cases reply with
        | nil => exact hprepares.error hsent hpressure
        | cons => exact absurd hanswer Bool.false_ne_true
      | prepareOk statementId numParams numColumns =>
        rw [isPrepareAnswer, decide_eq_true_eq] at hanswer
        exact hprepares.prepareOk hsent hpressure hanswer.1 hanswer.2
      | ok | eof | header | definition | row => exact absurd hanswer Bool.false_ne_true
  · rcases of_mem_prepareDue hdue hid List.mem_cons_self with rfl | rfl
    · exact hprepares.definition hsent hpressure hid hdue
    · exact hprepares.eof hsent hpressure hid hdue

end Prepare

/-- A packet. -/
theorem Busy.handlePacket {c : Connection} {request : Query} {rest : List Query} {kind : CommandKind}
    {packet : Packet} {reply : List Packet} (h : Busy c request rest kind (packet :: reply))
    (hsent : c.writeBuffer = 0) (hpressure : c.hasBackpressure = false) :
    Handles c request rest kind reply (c.handlePacket packet) := by
  rw [Connection.handlePacket, current_eq h.requests]
  dsimp only
  by_cases hkind : kind = .prepare
  · subst hkind
    obtain ⟨name, s, hprepares, hdue⟩ := h.prepares
    rw [if_neg (hprepares.simple ▸ Bool.false_ne_true), Query.getStatement_shared hprepares.statement,
      hprepares.get]
    dsimp only
    rw [hdue.status]
    exact h.handlePreparedStatement hsent hpressure
  · obtain ⟨s, hs, _, hprepared⟩ := h.resultStatement hkind
    cases hsimple : request.simple with
    | true => exact h.handleResultSet hkind hsent hpressure
    | false =>
      rw [if_neg Bool.false_ne_true, hs]
      dsimp only
      rw [hprepared hsimple]
      exact h.handleResultSet hkind hsent hpressure

end Connection

end OhosBun.MySql
