/-
# `OhosBun.MySql.Starting` — what a run does

Between two steps a connection is either ready, with no command unanswered, or busy with the
command of the request at the front (`Ready`, `Busy`).  On a ready connection a run writes a
command, or fails (`Starts`); on a busy one it does nothing, or fails.
-/
import OhosBun.MySql.Exchange

namespace OhosBun.MySql

/-! ## Statements -/

namespace Statement

/-- No part of a result has come. -/
structure AtStart (s : Statement) : Prop where
  header : s.headerReceived = false
  columns : s.columnsReceived = 0
  columnsEof : s.columnsEofReceived = false

theorem atStart_reset (s : Statement) : s.reset.AtStart := ⟨rfl, rfl, rfl⟩

theorem atStart_new (status : StatementStatus) : (new status).AtStart := ⟨rfl, rfl, rfl⟩

/-- No command for the statement is unanswered. -/
inductive Rests : Statement → Prop
  | fresh : Rests (new .pending)
  | prepared {s : Statement} (hstatus : s.status = .prepared) (hstart : s.AtStart) : Rests s
  | failed {s : Statement} (hstatus : s.status = .failed) : Rests s

theorem Rests.status_ne {s : Statement} (h : s.Rests) : s.status ≠ .parsing := by
  intro hparsing
  cases h with
  | fresh => exact StatementStatus.noConfusion hparsing
  | prepared hstatus _ => exact StatementStatus.noConfusion (hstatus.symm.trans hparsing)
  | failed hstatus => exact StatementStatus.noConfusion (hstatus.symm.trans hparsing)

/-- Where the result is that is coming in. -/
def stage (deprecateEof : Bool) (s : Statement) : Stage :=
  if s.headerReceived = false then .start
  else if s.columnsReceived < s.columns then .columns (s.columns - s.columnsReceived)
  else if deprecateEof = false ∧ s.columnsEofReceived = false then .columnsEof
  else .rows

theorem AtStart.stage {s : Statement} (h : s.AtStart) (deprecateEof : Bool) :
    s.stage deprecateEof = .start := if_pos h.header

/-- What has yet to come of the answer is what the statement waits for. -/
structure ResultDue (deprecateEof : Bool) (reply : List Packet) (s : Statement) : Prop where
  start : s.headerReceived = false → s.AtStart
  columnsEof : s.columnsEofReceived = true → s.columns ≤ s.columnsReceived
  due : reply = [] ∧ s.headerReceived = false ∨
    isResultAnswer deprecateEof (s.stage deprecateEof) reply = true

theorem AtStart.resultDue {s : Statement} (h : s.AtStart) (deprecateEof : Bool) :
    s.ResultDue deprecateEof [] :=
  ⟨fun _ => h, fun htrue => absurd (h.columnsEof.symm.trans htrue) Bool.noConfusion,
    .inl ⟨rfl, h.header⟩⟩

theorem AtStart.resultDue_of {s : Statement} (h : s.AtStart) {deprecateEof : Bool} {reply : List Packet}
    (hdue : isResultAnswer deprecateEof .start reply = true) : s.ResultDue deprecateEof reply :=
  ⟨fun _ => h, fun htrue => absurd (h.columnsEof.symm.trans htrue) Bool.noConfusion,
    .inr ((h.stage deprecateEof).symm ▸ hdue)⟩

/-- The same of the answer that prepares it. -/
inductive PrepareDue (deprecateEof : Bool) : List Packet → Statement → Prop
  | fresh {reply : List Packet} (h : reply = [] ∨ isPrepareAnswer deprecateEof reply = true) :
      PrepareDue deprecateEof reply (new .parsing)
  | params {s : Statement} (hid : 0 < s.statementId) (hstatus : s.status = .parsing)
      (hcolumns : s.columnsReceived = 0) (hle : s.paramsReceived ≤ s.params)
      (hlt : deprecateEof = true → s.paramsReceived < s.params) :
      PrepareDue deprecateEof (List.replicate (s.params - s.paramsReceived) .definition ++
        (definitionsEof deprecateEof ++ definitions deprecateEof s.columns)) s
  | columns {s : Statement} (hid : 0 < s.statementId) (hstatus : s.status = .parsing)
      (hparams : s.paramsReceived = s.params) (hpos : 0 < s.columns)
      (hle : s.columnsReceived ≤ s.columns)
      (hlt : deprecateEof = true → s.columnsReceived < s.columns) :
      PrepareDue deprecateEof (List.replicate (s.columns - s.columnsReceived) .definition ++
        definitionsEof deprecateEof) s

theorem PrepareDue.status {deprecateEof : Bool} {reply : List Packet} {s : Statement}
    (h : s.PrepareDue deprecateEof reply) : s.status = .parsing := by
  cases h with
  | fresh _ => rfl
  | params _ hstatus _ _ _ => exact hstatus
  | columns _ hstatus _ _ _ _ => exact hstatus

end Statement

namespace Statements
variable {statements statements' : Statements} {name : SignatureName} {s : Statement}

def Rest (statements : Statements) : Prop := ∀ name s, statements name = some s → s.Rests

def RestBut (statements : Statements) (name : SignatureName) : Prop :=
  ∀ other s, other ≠ name → statements other = some s → s.Rests

/-- A statement stays where it is. -/
def Extends (statements statements' : Statements) : Prop :=
  ∀ name s, statements name = some s → ∃ s', statements' name = some s'

theorem Extends.refl (statements : Statements) : statements.Extends statements :=
  fun _ s h => ⟨s, h⟩

theorem extends_set (statements : Statements) (name : SignatureName) (s : Statement) :
    statements.Extends (statements.set name s) := by
  intro other s' h
  by_cases heq : other = name
  · exact ⟨s, heq ▸ set_self⟩
  · exact ⟨s', (set_of_ne heq).trans h⟩

theorem Rest.restBut (h : statements.Rest) (name : SignatureName) : statements.RestBut name :=
  fun other s _ hs => h other s hs

theorem RestBut.set_restBut (h : statements.RestBut name) (s : Statement) :
    (statements.set name s).RestBut name :=
  fun other s' hne hs => h other s' hne ((set_of_ne hne).symm.trans hs)

theorem RestBut.set (h : statements.RestBut name) (hs : s.Rests) : (statements.set name s).Rest := by
  intro other s' hs'
  by_cases heq : other = name
  · rw [heq, set_self] at hs'
    exact Option.some.inj hs' ▸ hs
  · exact h other s' heq ((set_of_ne heq).symm.trans hs')

theorem Rest.set (h : statements.Rest) (hs : s.Rests) : (statements.set name s).Rest :=
  (h.restBut name).set hs

end Statements

/-! ## Queries -/

namespace Query

/-- A query in the queue for which no command is unanswered. -/
inductive Waits (disabled : Bool) (statements : Statements) : Query → Prop
  | settled {q : Query} (h : q.isCompleted = true) : Waits disabled statements q
  | simple {q : Query} (hstatus : q.status = .pending) (hpipelined : q.pipelined = false)
      (hsimple : q.simple = true) (hstatement : q.statement = none) : Waits disabled statements q
  | prepared {q : Query} {name : SignatureName} {s : Statement} (hstatus : q.status = .pending)
      (hpipelined : q.pipelined = false) (hsimple : q.simple = false) (hdisabled : disabled = false)
      (hstatement : q.statement = some (.shared name)) (hs : statements name = some s) :
      Waits disabled statements q

/-- The query is the one whose command is unanswered, or the rest of whose answer is coming in. -/
inductive Engaged (disabled deprecateEof : Bool) (statements : Statements) (reply : List Packet) :
    Query → CommandKind → Prop
  | prepare {q : Query} {name : SignatureName} {s : Statement} (hstatus : q.status = .pending)
      (hpipelined : q.pipelined = false) (hsimple : q.simple = false) (hdisabled : disabled = false)
      (hstatement : q.statement = some (.shared name)) (hs : statements name = some s)
      (hrest : statements.RestBut name) (hdue : s.PrepareDue deprecateEof reply) :
      Engaged disabled deprecateEof statements reply q .prepare
  | execute {q : Query} {name : SignatureName} {s : Statement} (hrunning : q.isRunning = true)
      (hpipelined : q.pipelined = true) (hsimple : q.simple = false) (hdisabled : disabled = false)
      (hstatement : q.statement = some (.shared name)) (hs : statements name = some s)
      (hrest : statements.RestBut name) (hprepared : s.status = .prepared)
      (hdue : s.ResultDue deprecateEof reply) :
      Engaged disabled deprecateEof statements reply q .execute
  | query {q : Query} {s : Statement} (hrunning : q.isRunning = true)
      (hpipelined : q.pipelined = false) (hsimple : q.simple = true)
      (hstatement : q.statement = some (.own s)) (hrest : statements.Rest)
      (hdue : s.ResultDue deprecateEof reply) :
      Engaged disabled deprecateEof statements reply q .query

variable {disabled deprecateEof : Bool} {statements statements' : Statements} {q : Query}
  {reply : List Packet} {kind : CommandKind}

theorem Waits.extend (h : q.Waits disabled statements) (hext : statements.Extends statements') :
    q.Waits disabled statements' := by
  cases h with
  | settled h => exact .settled h
  | simple hstatus hpipelined hsimple hstatement => exact .simple hstatus hpipelined hsimple hstatement
  | prepared hstatus hpipelined hsimple hdisabled hstatement hs =>
    obtain ⟨s', hs'⟩ := hext _ _ hs
    exact .prepared hstatus hpipelined hsimple hdisabled hstatement hs'

theorem isPending_of_status (h : q.status = .pending) : q.isPending = true := decide_eq_true h

theorem isCompleted_of_pending (h : q.status = .pending) : q.isCompleted = false := by
  rw [isCompleted, h]
  rfl

theorem isRunning_of_pending (h : q.status = .pending) : q.isRunning = false := by
  rw [isRunning, h]

theorem isCompleted_of_isRunning (h : q.isRunning = true) : q.isCompleted = false := by
  rw [isRunning] at h
  rw [isCompleted]
  split at h
  next hs => rw [hs]; rfl
  next hs => rw [hs]; rfl
  next hs => rw [hs]; rfl
  all_goals exact absurd h Bool.false_ne_true

theorem isRunning_of_isCompleted (h : q.isCompleted = true) : q.isRunning = false := by
  cases hrunning : q.isRunning with
  | false => rfl
  | true => exact absurd (h.symm.trans (isCompleted_of_isRunning hrunning)) Bool.noConfusion

theorem isPending_of_isRunning (h : q.isRunning = true) : q.isPending = false := by
  rw [isPending, decide_eq_false_iff_not]
  intro hpending
  exact absurd (h.symm.trans (isRunning_of_pending hpending)) Bool.noConfusion

theorem isBeingPrepared_of_isPending (h : q.isPending = false) (statements : Statements) :
    q.isBeingPrepared statements = false := by
  rw [isBeingPrepared, h, Bool.false_and]

theorem Waits.isRunning (h : q.Waits disabled statements) : q.isRunning = false := by
  cases h with
  | settled h => exact isRunning_of_isCompleted h
  | simple hstatus _ _ _ => exact isRunning_of_pending hstatus
  | prepared hstatus _ _ _ _ _ => exact isRunning_of_pending hstatus

/-- Nothing is prepared where no statement is. -/
theorem isBeingPrepared_of_ne (h : ∀ s, q.getStatement statements = some s → s.status ≠ .parsing) :
    q.isBeingPrepared statements = false := by
  rw [isBeingPrepared]
  cases hs : q.getStatement statements with
  | none => exact Bool.and_false _
  | some s => rw [Option.any_some, decide_eq_false (h s hs), Bool.and_false]

theorem isBeingPrepared_of_parsing {s : Statement} (hstatus : q.status = .pending)
    (hs : q.getStatement statements = some s) (hparsing : s.status = .parsing) :
    q.isBeingPrepared statements = true := by
  rw [isBeingPrepared, isPending_of_status hstatus, hs, Option.any_some, decide_eq_true hparsing]
  rfl

theorem getStatement_shared {name : SignatureName} (h : q.statement = some (.shared name))
    (statements : Statements) : q.getStatement statements = statements name := by
  rw [getStatement, h]

theorem putStatement_shared {name : SignatureName} (h : q.statement = some (.shared name))
    (statements : Statements) (s : Statement) :
    q.putStatement statements s = (statements.set name s, q) := by
  rw [putStatement, h]

theorem getStatement_own {s : Statement} (h : q.statement = some (.own s)) (statements : Statements) :
    q.getStatement statements = some s := by
  rw [getStatement, h]

theorem getStatement_none (h : q.statement = none) (statements : Statements) :
    q.getStatement statements = none := by
  rw [getStatement, h]

end Query

/-! ## Connections -/

namespace Connection

/-- No command is unanswered, and the next one may be written. -/
structure Ready (c : Connection) : Prop where
  isReady : c.queue.isReadyForQuery = true
  notWaiting : c.queue.waitingToPrepare = false
  pipelined : c.queue.pipelinedRequests = 0
  nonpipelinable : c.queue.nonpipelinableRequests = 0
  sent : c.writeBuffer = 0
  noBackpressure : c.hasBackpressure = false
  rest : c.statements.Rest
  waits : ∀ q ∈ c.queue.requests, q.Waits c.pipeliningDisabled c.statements

/-- A command for the request at the front is unanswered. -/
structure Busy (c : Connection) (request : Query) (rest : List Query) (kind : CommandKind)
    (reply : List Packet) : Prop where
  requests : c.queue.requests = request :: rest
  isReady : c.queue.isReadyForQuery = false
  engaged : request.Engaged c.pipeliningDisabled c.deprecateEof c.statements reply kind
  waits : ∀ q ∈ rest, q.Waits c.pipeliningDisabled c.statements
  pipelined : c.queue.pipelinedRequests = if kind = .execute then 1 else 0
  nonpipelinable : c.queue.nonpipelinableRequests = if kind = .query then 1 else 0

/-- What a run does on a ready connection: it fails, or it writes a command. -/
inductive Starts (env : Env) (c : Connection) (q : Query) : Ran → Prop
  | failed {q' : Query} {statements : Statements} (hover : q'.isCompleted = true)
      (hid : q'.id = q.id) (hrest : statements.Rest) (hext : c.statements.Extends statements) :
      Starts env c q ⟨false, q', { c with statements := statements }⟩
  | written {q' : Query} {statements : Statements} {kind : CommandKind} (hid : q'.id = q.id)
      (hengaged : q'.Engaged c.pipeliningDisabled c.deprecateEof statements [] kind)
      (hext : c.statements.Extends statements) :
      Starts env c q ⟨true, q', { c.write env kind q'.id with statements := statements }⟩

namespace Ready
variable {c : Connection}

theorem isAbleToWrite (h : c.Ready) : c.isAbleToWrite = true := by
  rw [Connection.isAbleToWrite, h.noBackpressure, h.sent]
  rfl

theorem canExecuteQuery (h : c.Ready) : c.canExecuteQuery = true := by
  rw [Connection.canExecuteQuery, h.isAbleToWrite, h.isReady, h.pipelined, h.nonpipelinable]
  rfl

theorem canPrepareQuery (h : c.Ready) : c.canPrepareQuery = true := by
  rw [Connection.canPrepareQuery, h.isAbleToWrite, h.isReady, h.pipelined, h.notWaiting]
  rfl

theorem canPipeline (h : c.Ready) (hdisabled : c.pipeliningDisabled = false) :
    c.canPipeline = true := by
  rw [Connection.canPipeline, hdisabled, h.isAbleToWrite, h.isReady, h.nonpipelinable, h.notWaiting]
  rfl

end Ready

section Run
variable {env : Env} {c : Connection} {q : Query}

theorem run_of_pending (hstatus : q.status = .pending) (hprepared : q.isBeingPrepared c.statements = false) :
    c.run env q = if (c.runQuery env q).ok then c.runQuery env q
      else { c.runQuery env q with query := (c.runQuery env q).query.fail } := by
  refine if_neg ?_
  rw [Query.isPending_of_status hstatus, hprepared]
  exact fun h => h.elim Bool.noConfusion Bool.noConfusion

/-- A failed run fails the query. -/
theorem Starts.of_failed {q' : Query} {statements : Statements}
    (hstatus : q.status = .pending) (hprepared : q.isBeingPrepared c.statements = false)
    (hrun : c.runQuery env q = ⟨false, q', { c with statements := statements }⟩)
    (hid : q'.id = q.id) (hrest : statements.Rest) (hext : c.statements.Extends statements) :
    Starts env c q (c.run env q) := by
  rw [run_of_pending hstatus hprepared, hrun]
  exact .failed (Query.isCompleted_fail _) ((Query.id_fail _).trans hid) hrest hext

theorem Starts.of_written {ran : Ran} (hstatus : q.status = .pending)
    (hprepared : q.isBeingPrepared c.statements = false) (hrun : c.runQuery env q = ran)
    (hok : ran.ok = true) (h : Starts env c q ran) : Starts env c q (c.run env q) := by
  rw [run_of_pending hstatus hprepared, hrun, if_pos hok]
  exact h

namespace Ready

theorem runQuery_simple (h : c.Ready) (hstatus : q.status = .pending) (hsimple : q.simple = true)
    (hstatement : q.statement = none) : c.runQuery env q = if env.fits q.id then
      ⟨true, { q with statement := some (.own (.new .parsing)), status := .running },
        c.write env .query q.id⟩
      else ⟨false, { q with statement := some (.own (.new .parsing)) }, c⟩ := by
  rw [runQuery, if_pos hsimple, runSimpleQuery, if_neg, hstatement]
  · rfl
  · rw [h.canExecuteQuery]
    exact fun hor => hor.elim (fun hne => hne hstatus) Bool.noConfusion

/-- A query whose statement has been found. -/
theorem runQuery_found (h : c.Ready) {q' : Query} {statements : Statements} {s : Statement}
    (hsimple : q.simple = false) (hdisabled : c.pipeliningDisabled = false)
    (hfind : c.findStatement q = some (q', { c with statements := statements }))
    (hs : q'.getStatement statements = some s) : c.runQuery env q = match s.status with
      | .failed => ⟨false, q', { c with statements := statements }⟩
      | .prepared => bindAndExecute env { c with statements := statements } q'
      | .parsing => ⟨true, q', { c with statements := statements }⟩
      | .pending => prepareRequest env { c with statements := statements } q' s := by
  rw [runQuery, if_neg (hsimple ▸ Bool.false_ne_true), runPreparedQuery, hfind]
  dsimp only
  rw [hs]
  dsimp only
  cases s.status with
  | failed => rfl
  | prepared => exact if_pos (h.canPipeline hdisabled)
  | parsing => rfl
  | pending => exact if_pos h.canPrepareQuery

/-- A simple query. -/
theorem starts_simple (h : c.Ready) (hstatus : q.status = .pending) (hpipelined : q.pipelined = false)
    (hsimple : q.simple = true) (hstatement : q.statement = none) : Starts env c q (c.run env q) := by
  have hprepared : q.isBeingPrepared c.statements = false :=
    Query.isBeingPrepared_of_ne fun s hs =>
      absurd ((Query.getStatement_none hstatement _).symm.trans hs) (Option.some_ne_none s).symm
  have hrun := @Ready.runQuery_simple env _ _ h hstatus hsimple hstatement
  cases hfits : env.fits q.id with
  | false =>
    rw [hfits, if_neg Bool.false_ne_true] at hrun
    exact .of_failed hstatus hprepared hrun rfl h.rest (.refl _)
  | true =>
    rw [hfits, if_pos rfl] at hrun
    refine .of_written hstatus hprepared hrun rfl (.written rfl ?_ (.refl _))
    exact .query rfl hpipelined hsimple rfl h.rest ((Statement.atStart_new _).resultDue _)

theorem starts_found (h : c.Ready) {q' : Query} {statements : Statements} {name : SignatureName}
    {s : Statement} (hstatus : q.status = .pending) (hprepared : q.isBeingPrepared c.statements = false)
    (hsimple : q.simple = false) (hdisabled : c.pipeliningDisabled = false)
    (hfind : c.findStatement q = some (q', { c with statements := statements }))
    (hid : q'.id = q.id) (hstatus' : q'.status = .pending) (hpipelined' : q'.pipelined = false)
    (hsimple' : q'.simple = false) (hstatement : q'.statement = some (.shared name))
    (hs : statements name = some s) (hrest : statements.Rest)
    (hext : c.statements.Extends statements) : Starts env c q (c.run env q) := by
  have hrun := @Ready.runQuery_found env _ _ h _ _ _ hsimple hdisabled hfind
    ((Query.getStatement_shared hstatement statements).trans hs)
  cases hrest name s hs with
  | failed hfailed =>
    rw [hfailed] at hrun
    exact .of_failed hstatus hprepared hrun hid hrest hext
  | prepared hdone hstart =>
    rw [hdone] at hrun
    dsimp only at hrun
    rw [bindAndExecute] at hrun
    cases hbinds : env.binds q'.id with
    | false =>
      rw [hbinds, if_neg Bool.false_ne_true] at hrun
      exact .of_failed hstatus hprepared hrun hid hrest hext
    | true =>
      rw [hbinds, if_pos rfl] at hrun
      refine .of_written hstatus hprepared hrun rfl (.written hid ?_ hext)
      exact .execute rfl rfl hsimple' hdisabled hstatement hs (hrest.restBut name) hdone
        (hstart.resultDue _)
  | fresh =>
    dsimp only [Statement.new] at hrun
    rw [prepareRequest] at hrun
    cases hfits : env.fits q'.id with
    | false =>
      rw [hfits, if_neg Bool.false_ne_true] at hrun
      exact .of_failed hstatus hprepared hrun hid hrest hext
    | true =>
      rw [hfits, if_pos rfl, Query.putStatement_shared hstatement] at hrun
      refine .of_written hstatus hprepared hrun rfl (.written hid ?_ ?_)
      · exact .prepare hstatus' hpipelined' hsimple' hdisabled hstatement Statements.set_self
          ((hrest.restBut name).set_restBut _) (.fresh (.inl rfl))
      · intro other s' hs'
        obtain ⟨s'', hs''⟩ := hext other s' hs'
        exact Statements.extends_set _ _ _ other s'' hs''

/-- A query that waits. -/
theorem starts (h : c.Ready) (hq : q.Waits c.pipeliningDisabled c.statements)
    (hover : q.isCompleted = false) : Starts env c q (c.run env q) := by
  cases hq with
  | settled hq => exact absurd (hover.symm.trans hq) Bool.noConfusion
  | simple hstatus hpipelined hsimple hstatement =>
    exact h.starts_simple hstatus hpipelined hsimple hstatement
  | prepared hstatus hpipelined hsimple hdisabled hstatement hs =>
    refine h.starts_found hstatus ?_ hsimple hdisabled ?_ rfl hstatus
      hpipelined hsimple hstatement hs h.rest (.refl _)
    · exact Query.isBeingPrepared_of_ne fun s' hs' =>
        (h.rest _ s' ((Query.getStatement_shared hstatement _).symm.trans hs')).status_ne
    · rw [findStatement, hstatement]
      rfl

/-- A query that is submitted. -/
theorem starts_init (h : c.Ready) {id : Nat} {simple : Bool} {signature : Option SignatureName}
    (hmay : c.pipeliningDisabled = false ∨ simple = true) :
    Starts env c (.init id simple signature) (c.run env (.init id simple signature)) := by
  cases simple with
  | true => exact h.starts_simple rfl rfl rfl rfl
  | false =>
    have hdisabled : c.pipeliningDisabled = false := hmay.resolve_right Bool.false_ne_true
    have hprepared : (Query.init id false signature).isBeingPrepared c.statements = false := rfl
    have hfails (hfind : c.findStatement (.init id false signature) = none) :
        Starts env c (.init id false signature) (c.run env (.init id false signature)) := by
      refine .of_failed rfl hprepared
        ?_ rfl h.rest (.refl _)
      rw [runQuery, if_neg (show ¬ (Query.init id false signature).simple = true from
        Bool.false_ne_true), runPreparedQuery, hfind]
    cases signature with
    | none => exact hfails rfl
    | some name =>
      cases hs : c.statements name with
      | none =>
        refine @Ready.starts_found _ _ _ h
          ⟨id, false, some name, some (.shared name), .pending, false⟩ _ _ _ rfl hprepared
          rfl hdisabled ?_ rfl rfl rfl rfl rfl Statements.set_self (h.rest.set .fresh)
          (Statements.extends_set _ _ _)
        simp only [findStatement, Query.init, Option.isSome_none, hs, Bool.false_eq_true, if_false]
      | some s =>
        by_cases hfailed : s.status = .failed
        · exact hfails (by
            simp only [findStatement, Query.init, Option.isSome_none, hs, if_pos hfailed,
              Bool.false_eq_true, if_false])
        · refine @Ready.starts_found _ _ _ h
            ⟨id, false, some name, some (.shared name), .pending, false⟩ _ _ _ rfl hprepared
            rfl hdisabled ?_ rfl rfl rfl rfl rfl hs h.rest (.refl _)
          simp only [findStatement, Query.init, Option.isSome_none, hs, if_neg hfailed,
            Bool.false_eq_true, if_false]

/-- Which runs fail. -/
theorem fails_of_run (h : c.Ready) (hq : q.Waits c.pipeliningDisabled c.statements)
    (hover : q.isCompleted = false) (hprepared : q.isBeingPrepared c.statements = false)
    (hrun : (c.run env q).ok = false) : c.fails env q = true := by
  have hok (hstatus : q.status = .pending) : (c.runQuery env q).ok = false := by
    rw [run_of_pending hstatus hprepared] at hrun
    cases hok : (c.runQuery env q).ok with
    | false => rfl
    | true =>
      rw [hok, if_pos rfl] at hrun
      exact hok.symm.trans hrun
  cases hq with
  | settled hq => exact absurd (hover.symm.trans hq) Bool.noConfusion
  | simple hstatus _ hsimple hstatement =>
    have hok := hok hstatus
    rw [h.runQuery_simple hstatus hsimple hstatement] at hok
    rw [fails, if_pos hsimple, h.canExecuteQuery]
    cases hfits : env.fits q.id with
    | false => rfl
    | true =>
      rw [hfits] at hok
      exact absurd hok.symm Bool.false_ne_true
  | @prepared name s hstatus _ hsimple hdisabled hstatement hs =>
    have hok := hok hstatus
    have hget := (Query.getStatement_shared hstatement c.statements).trans hs
    have hfind : c.findStatement q = some (q, { c with statements := c.statements }) := by
      rw [findStatement, hstatement]
      rfl
    rw [h.runQuery_found hsimple hdisabled hfind hget] at hok
    rw [fails, if_neg (hsimple ▸ Bool.false_ne_true), hget]
    dsimp only
    cases hstat : s.status with
    | failed => rfl
    | parsing => exact absurd hstat (h.rest name s hs).status_ne
    | prepared =>
      rw [hstat] at hok
      dsimp only at hok ⊢
      rw [bindAndExecute] at hok
      rw [h.canPipeline hdisabled]
      cases hbinds : env.binds q.id with
      | false => rfl
      | true =>
        rw [hbinds] at hok
        exact absurd hok.symm Bool.false_ne_true
    | pending =>
      rw [hstat] at hok
      dsimp only at hok ⊢
      rw [prepareRequest] at hok
      rw [h.canPrepareQuery]
      cases hfits : env.fits q.id with
      | false => rfl
      | true =>
        rw [hfits] at hok
        exact absurd hok.symm Bool.false_ne_true

end Ready

/-- On a busy connection nothing is written. -/
theorem run_of_not_ready (hready : c.queue.isReadyForQuery = false)
    (hq : q.Waits c.pipeliningDisabled c.statements) (hover : q.isCompleted = false)
    (hprepared : q.isBeingPrepared c.statements = false) :
    c.run env q = ⟨true, q, c⟩ ∨ c.run env q = ⟨false, q.fail, c⟩ := by
  have hexecute : c.canExecuteQuery = false := by
    rw [canExecuteQuery, hready, Bool.and_false, Bool.false_and, Bool.false_and]
  have hprepare : c.canPrepareQuery = false := by
    rw [canPrepareQuery, hready, Bool.and_false, Bool.false_and, Bool.false_and]
  have hpipeline : c.canPipeline = false := by
    rw [canPipeline, hready, Bool.false_and, Bool.false_and, Bool.false_and, ite_self]
  cases hq with
  | settled hq => exact absurd (hover.symm.trans hq) Bool.noConfusion
  | simple hstatus _ hsimple _ =>
    refine .inl ?_
    have hrun : c.runQuery env q = ⟨true, q, c⟩ := by
      rw [runQuery, if_pos hsimple]
      exact if_pos (.inr hexecute)
    rw [run_of_pending hstatus hprepared, hrun]
    rfl
  | prepared hstatus _ hsimple _ hstatement hs =>
    have hfind : c.findStatement q = some (q, c) := by
      rw [findStatement, hstatement]
      rfl
    have hrun : c.runQuery env q = ⟨true, q, c⟩ ∨ c.runQuery env q = ⟨false, q, c⟩ := by
      rw [runQuery, if_neg (hsimple ▸ Bool.false_ne_true), runPreparedQuery, hfind]
      dsimp only
      rw [Query.getStatement_shared hstatement, hs]
      dsimp only
      split
      · exact .inr rfl
      · exact .inl (if_neg (hpipeline ▸ Bool.false_ne_true))
      · exact .inl rfl
      · exact .inl (if_neg (hprepare ▸ Bool.false_ne_true))
    rw [run_of_pending hstatus hprepared]
    rcases hrun with hrun | hrun
    · rw [hrun]
      exact .inl rfl
    · rw [hrun]
      exact .inr rfl

end Run

end Connection

end OhosBun.MySql
