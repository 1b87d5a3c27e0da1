/-
# `OhosBun.MySql.Walk` — what `advance` does

On a busy connection the walk leaves the request at the front, and fails some of those behind it.
On a ready one it drops what is over and starts the next request, unless that fails: then nothing
is behind it, if the walk does not trip.
-/
import OhosBun.MySql.Starting

namespace OhosBun.MySql

theorem Statements.RestBut.status_ne {statements : Statements} {name name' : SignatureName}
    {s s' : Statement} (h : statements.RestBut name) (hs : statements name = some s)
    (hparsing : s.status ≠ .parsing) (hs' : statements name' = some s') : s'.status ≠ .parsing := by
  by_cases heq : name' = name
  · exact Option.some.inj (hs.symm.trans (heq ▸ hs')) ▸ hparsing
  · exact (h name' s' heq hs').status_ne

namespace Query
variable {disabled deprecateEof : Bool} {statements : Statements} {q : Query} {reply : List Packet}
  {kind : CommandKind}

theorem Engaged.isCompleted (h : q.Engaged disabled deprecateEof statements reply kind) :
    q.isCompleted = false := by
  cases h with
  | prepare hstatus => exact isCompleted_of_pending hstatus
  | execute hrunning => exact isCompleted_of_isRunning hrunning
  | query hrunning => exact isCompleted_of_isRunning hrunning

theorem isPending_of_isCompleted (h : q.isCompleted = true) : q.isPending = false := by
  rw [isPending, decide_eq_false_iff_not]
  intro hpending
  exact absurd (h.symm.trans (isCompleted_of_pending hpending)) Bool.noConfusion

theorem Waits.isBeingPrepared (h : q.Waits disabled statements)
    (hparsing : ∀ name s, statements name = some s → s.status ≠ .parsing) :
    q.isBeingPrepared statements = false := by
  cases h with
  | settled hover => exact isBeingPrepared_of_isPending (isPending_of_isCompleted hover) statements
  | simple _ _ _ hstatement =>
    refine isBeingPrepared_of_ne fun s hs => ?_
    exact absurd ((getStatement_none hstatement _).symm.trans hs) (Option.some_ne_none s).symm
  | prepared _ _ _ _ hstatement _ =>
    refine isBeingPrepared_of_ne fun s hs => ?_
    exact hparsing _ s ((getStatement_shared hstatement _).symm.trans hs)

end Query

namespace Connection

/-- What is written, and how much of it has been sent, stays as it is. -/
structure Kept (c c' : Connection) : Prop where
  written : c'.written = c.written
  writeBuffer : c'.writeBuffer = c.writeBuffer
  hasBackpressure : c'.hasBackpressure = c.hasBackpressure
  deprecateEof : c'.deprecateEof = c.deprecateEof
  pipeliningDisabled : c'.pipeliningDisabled = c.pipeliningDisabled

theorem Kept.refl (c : Connection) : Kept c c := ⟨rfl, rfl, rfl, rfl, rfl⟩

variable {c c' : Connection} {env : Env} {offset : Nat}

theorem Kept.trans {c'' : Connection} (h : Kept c c') (h' : Kept c' c'') : Kept c c'' :=
  ⟨h'.written.trans h.written, h'.writeBuffer.trans h.writeBuffer,
    h'.hasBackpressure.trans h.hasBackpressure, h'.deprecateEof.trans h.deprecateEof,
    h'.pipeliningDisabled.trans h.pipeliningDisabled⟩

/-! ## The walk, request by request -/

/-- The walk is over behind the last request. -/
theorem advanceFrom_none (h : c.queue.requests[offset]? = none) :
    c.advanceFrom env offset = c := by
  rw [advanceFrom]
  generalize c.queue.requests[offset]? = o at h ⊢
  subst h
  rfl

/-- What the walk does with a request. -/
theorem advanceFrom_some {req : Query} (h : c.queue.requests[offset]? = some req) :
    c.advanceFrom env offset =
      if c.isAbleToWrite = false then c
      else if req.isCompleted then
        if 0 < offset then advanceFrom env (offset + 1) c
        else advanceFrom env offset c.popFront
      else if req.isBeingPrepared c.statements then
        { c with queue := { c.queue with waitingToPrepare := true } }
      else if req.isRunning then
        if offset < c.queue.pipelinedRequests + c.queue.nonpipelinableRequests then
          advanceFrom env (offset + (c.queue.pipelinedRequests + c.queue.nonpipelinableRequests)) c
        else advanceFrom env (offset + 1) c
      else
        let ran := c.run env req
        let c' := ran.connection.setRequests (c.queue.requests.set offset ran.query)
        if ran.ok = false then
          if offset = 0 then advanceFrom env (offset + 1) c'.popFront
          else advanceFrom env (offset + 1) c'
        else if ran.query.isBeingPrepared c'.statements then
          { c' with queue := { c'.queue with isReadyForQuery := false, waitingToPrepare := true } }
        else if ran.query.isRunning then
          if ran.query.pipelined ∧ (c'.started ran.query).canPipeline then
            advanceFrom env (offset + 1) (c'.started ran.query)
          else c'.started ran.query
        else c' := by
  rw [advanceFrom]
  generalize c.queue.requests[offset]? = o at h ⊢
  subst h
  rfl

section Busy
variable {env : Env} {c : Connection} {request : Query} {rest : List Query} {kind : CommandKind}
  {reply : List Packet}

theorem set_of_getElem? {α : Type*} {l : List α} {i : Nat} {a : α} (h : l[i]? = some a) :
    l.set i a = l := by
  obtain ⟨hlt, rfl⟩ := List.getElem?_eq_some_iff.mp h
  exact List.set_getElem_self hlt

/-- Behind a running request, requests whose statement has failed fail. -/
theorem advanceFrom_behind (env : Env) (request : Query) : ∀ (n : Nat) {c : Connection}
    {rest : List Query} {offset : Nat}, rest.length - offset ≤ n →
      c.queue.requests = request :: rest → c.queue.isReadyForQuery = false →
      (∀ name s, c.statements name = some s → s.status ≠ .parsing) →
      (∀ q ∈ rest, q.Waits c.pipeliningDisabled c.statements) →
      ∃ rest', c.advanceFrom env (offset + 1) = c.setRequests (request :: rest') ∧
        rest'.map Query.id = rest.map Query.id ∧
        ∀ q ∈ rest', q.Waits c.pipeliningDisabled c.statements := by
  intro n
  induction n with
  | zero =>
    intro c rest offset hn hrequests _ _ hwaits
    refine ⟨rest, ?_, rfl, hwaits⟩
    have hnone : c.queue.requests[offset + 1]? = none := by
      rw [hrequests, List.getElem?_cons_succ]
      exact List.getElem?_eq_none (by omega)
    rw [advanceFrom_none hnone, ← hrequests]
    rfl
  | succ n ih =>
    intro c rest offset hn hrequests hready hparsing hwaits
    have hstays : c = c.setRequests (request :: rest) := by
      rw [← hrequests]
      rfl
    cases hreq : c.queue.requests[offset + 1]? with
    | none =>
      rw [advanceFrom_none hreq]
      exact ⟨rest, hstays, rfl, hwaits⟩
    | some req =>
      rw [advanceFrom_some hreq]
      have hreq' : rest[offset]? = some req := by rwa [hrequests, List.getElem?_cons_succ] at hreq
      have hlt := (List.getElem?_eq_some_iff.mp hreq').1
      have hreqWaits := hwaits req (List.mem_of_getElem? hreq')
      have hprepared := hreqWaits.isBeingPrepared hparsing
      by_cases hwrite : c.isAbleToWrite = false
      · rw [if_pos hwrite]
        exact ⟨rest, hstays, rfl, hwaits⟩
      rw [if_neg hwrite]
      by_cases hover : req.isCompleted = true
      · rw [if_pos hover, if_pos (Nat.succ_pos offset)]
        exact ih (by omega) hrequests hready hparsing hwaits
      rw [if_neg hover]
      replace hover : req.isCompleted = false := eq_false_of_ne_true hover
      rw [if_neg (hprepared ▸ Bool.false_ne_true), if_neg (hreqWaits.isRunning ▸ Bool.false_ne_true)]
      dsimp only
      rcases run_of_not_ready hready hreqWaits hover hprepared with hrun | hrun
      · have hset : c.queue.requests.set (offset + 1) req = request :: rest := by
          rw [set_of_getElem? hreq, hrequests]
        rw [hrun]
        dsimp only
        rw [if_neg Bool.noConfusion, hset, if_neg, if_neg]
        · exact ⟨rest, rfl, rfl, hwaits⟩
        · exact hreqWaits.isRunning ▸ Bool.false_ne_true
        · exact hprepared ▸ Bool.false_ne_true
      · rw [hrun]
        dsimp only
        rw [if_pos rfl, if_neg (Nat.succ_ne_zero offset), hrequests, List.set_cons_succ]
        obtain ⟨rest', heq, hids, hwaits'⟩ := @ih
          (c.setRequests (request :: rest.set offset req.fail)) (rest.set offset req.fail)
          (offset + 1) (by rw [List.length_set]; omega) rfl
          hready hparsing (fun q hq => (List.mem_or_eq_of_mem_set hq).elim (hwaits q)
            fun heq => .settled (heq ▸ Query.isCompleted_fail req))
        refine ⟨rest', heq, hids.trans ?_, hwaits'⟩
        rw [List.map_set, Query.id_fail]
        exact set_of_getElem? (by rw [List.getElem?_map, hreq', Option.map_some])

/-- The front of a busy connection is not over. -/
theorem Busy.discardCompleted (h : Busy c request rest kind reply) : c.discardCompleted = c := by
  rw [Connection.discardCompleted, h.requests, List.dropWhile_cons_of_neg, ← h.requests]
  · rfl
  · exact h.engaged.isCompleted ▸ Bool.false_ne_true

/-- On a busy connection. -/
theorem Busy.advance (h : Busy c request rest kind reply) (env : Env) :
    ∃ rest', Busy (c.advance env) request rest' kind reply ∧
      rest'.map Query.id = rest.map Query.id ∧ Kept c (c.advance env) := by
  have hwalk : ∃ rest', Busy (c.advanceFrom env 0) request rest' kind reply ∧
      rest'.map Query.id = rest.map Query.id ∧ Kept c (c.advanceFrom env 0) := by
    have hfront : c.queue.requests[0]? = some request := by
      rw [h.requests]
      rfl
    rw [advanceFrom_some hfront]
    by_cases hwrite : c.isAbleToWrite = false
    · rw [if_pos hwrite]
      exact ⟨rest, h, rfl, .refl c⟩
    · rw [if_neg hwrite, if_neg (h.engaged.isCompleted ▸ Bool.false_ne_true)]
      have hbehind (hrunning : request.isRunning = true) (hkind : kind ≠ .prepare)
          (hparsing : ∀ name s, c.statements name = some s → s.status ≠ .parsing) :
          ∃ rest', Busy (c.advanceFrom env 1) request rest' kind reply ∧
            rest'.map Query.id = rest.map Query.id ∧ Kept c (c.advanceFrom env 1) := by
        obtain ⟨rest', heq, hids, hwaits⟩ := advanceFrom_behind env request rest.length
          (Nat.sub_le _ 0) h.requests h.isReady hparsing h.waits
        rw [heq]
        exact ⟨rest', ⟨rfl, h.isReady, h.engaged, hwaits, h.pipelined, h.nonpipelinable⟩, hids,
          ⟨rfl, rfl, rfl, rfl, rfl⟩⟩
      cases hengaged : h.engaged with
      | prepare hstatus _ _ _ hstatement hs _ hdue =>
        rw [if_pos (Query.isBeingPrepared_of_parsing hstatus
          ((Query.getStatement_shared hstatement _).trans hs) hdue.status)]
        exact ⟨rest, ⟨h.requests, h.isReady, h.engaged, h.waits, h.pipelined, h.nonpipelinable⟩, rfl,
          ⟨rfl, rfl, rfl, rfl, rfl⟩⟩
      | execute hrunning _ _ _ _ hs hrest hprepared _ =>
        rw [if_neg ((Query.isBeingPrepared_of_isPending
          (Query.isPending_of_isRunning hrunning) c.statements) ▸ Bool.false_ne_true), if_pos hrunning,
          h.pipelined, h.nonpipelinable]
        exact hbehind hrunning CommandKind.noConfusion fun name' s' hs' =>
          hrest.status_ne hs (hprepared ▸ StatementStatus.noConfusion) hs'
      | query hrunning _ _ _ hrest _ =>
        rw [if_neg ((Query.isBeingPrepared_of_isPending
          (Query.isPending_of_isRunning hrunning) c.statements) ▸ Bool.false_ne_true), if_pos hrunning,
          h.pipelined, h.nonpipelinable]
        exact hbehind hrunning CommandKind.noConfusion fun name s hs => (hrest name s hs).status_ne
  obtain ⟨rest', hbusy, hids, hkept⟩ := hwalk
  rw [Connection.advance, hbusy.discardCompleted]
  exact ⟨rest', hbusy, hids, hkept⟩

end Busy

/-! ## On a ready connection -/

/-- The connection has nothing to do, or is busy with a request that was in its queue. -/
inductive Advances (c : Connection) : Connection → Prop
  | idle {c' : Connection} (hready : c'.Ready) (hempty : c'.queue.requests = [])
      (hwritten : c'.written = c.written) (hdeprecate : c'.deprecateEof = c.deprecateEof)
      (hdisabled : c'.pipeliningDisabled = c.pipeliningDisabled) : Advances c c'
  | busy {c' : Connection} {request : Query} {rest : List Query} {command : Command}
      (hbusy : c'.Busy request rest command.kind []) (hid : request.id = command.request)
      (hids : (request :: rest).map Query.id <:+ c.queue.requests.map Query.id)
      (hwritten : c'.written = c.written ++ [command]) (hpressure : c'.hasBackpressure = false)
      (hdeprecate : c'.deprecateEof = c.deprecateEof)
      (hdisabled : c'.pipeliningDisabled = c.pipeliningDisabled) : Advances c c'

theorem Advances.of_popFront (h : Advances c.popFront c') : Advances c c' := by
  cases h with
  | idle hready hempty hwritten hdeprecate hdisabled =>
    exact .idle hready hempty hwritten hdeprecate hdisabled
  | busy hbusy hid hids hwritten hpressure hdeprecate hdisabled =>
    refine .busy hbusy hid (hids.trans ?_) hwritten hpressure hdeprecate hdisabled
    exact (List.tail_suffix _).map Query.id

theorem Advances.discardCompleted (h : Advances c c') :
    c'.discardCompleted = c' := by
  cases h with
  | idle _ hempty _ _ _ =>
    rw [Connection.discardCompleted, hempty, List.dropWhile_nil, ← hempty]
    rfl
  | busy hbusy _ _ _ _ _ _ => exact hbusy.discardCompleted

/-- A query that was run is the one its command is unanswered of. -/
def noted (c : Connection) (q : Query) : Connection :=
  if q.isBeingPrepared c.statements then
    { c with queue := { c.queue with isReadyForQuery := false, waitingToPrepare := true } }
  else if q.isRunning then c.started q
  else c

theorem canPipeline_started (c : Connection) (q : Query) : (c.started q).canPipeline = false := by
  have hready : (c.started q).queue.isReadyForQuery = false := by
    rw [started]
    split
    · rfl
    · rfl
  rw [canPipeline, hready, Bool.false_and, Bool.false_and, Bool.false_and, ite_self]

theorem busy_noted {q : Query} {rest : List Query} {kind : CommandKind}
    (hrequests : c.queue.requests = q :: rest) (hpipelined : c.queue.pipelinedRequests = 0)
    (hnonpipelinable : c.queue.nonpipelinableRequests = 0)
    (hengaged : q.Engaged c.pipeliningDisabled c.deprecateEof c.statements [] kind)
    (hwaits : ∀ q ∈ rest, q.Waits c.pipeliningDisabled c.statements) :
    Busy (c.noted q) q rest kind [] ∧ Kept c (c.noted q) := by
  cases hengaged with
  | prepare hstatus hpip hsimple hdisabled hstatement hs hrest hdue =>
    rw [noted, if_pos (Query.isBeingPrepared_of_parsing hstatus
      ((Query.getStatement_shared hstatement _).trans hs) hdue.status)]
    exact ⟨⟨hrequests, rfl, .prepare hstatus hpip hsimple hdisabled hstatement hs hrest hdue, hwaits,
      hpipelined, hnonpipelinable⟩, ⟨rfl, rfl, rfl, rfl, rfl⟩⟩
  | execute hrunning hpip hsimple hdisabled hstatement hs hrest hprepared hdue =>
    rw [noted, if_neg ((Query.isBeingPrepared_of_isPending
      (Query.isPending_of_isRunning hrunning) c.statements) ▸ Bool.false_ne_true), if_pos hrunning,
      started, if_pos hpip, hpipelined]
    exact ⟨⟨hrequests, rfl, .execute hrunning hpip hsimple hdisabled hstatement hs hrest hprepared hdue,
      hwaits, rfl, hnonpipelinable⟩, ⟨rfl, rfl, rfl, rfl, rfl⟩⟩
  | query hrunning hpip hsimple hstatement hrest hdue =>
    rw [noted, if_neg ((Query.isBeingPrepared_of_isPending
      (Query.isPending_of_isRunning hrunning) c.statements) ▸ Bool.false_ne_true), if_pos hrunning,
      started, if_neg (hpip ▸ Bool.false_ne_true), hnonpipelinable]
    exact ⟨⟨hrequests, rfl, .query hrunning hpip hsimple hstatement hrest hdue, hwaits, hpipelined, rfl⟩,
      ⟨rfl, rfl, rfl, rfl, rfl⟩⟩

namespace Ready
variable {c : Connection}

theorem popFront (h : c.Ready) : c.popFront.Ready :=
  { h with waits := fun q hq => h.waits q (List.mem_of_mem_tail hq) }

theorem ne_parsing (h : c.Ready) (name : SignatureName) (s : Statement)
    (hs : c.statements name = some s) : s.status ≠ .parsing := (h.rest name s hs).status_ne

/-- The request at the front is started, and the walk ends. -/
theorem advanceFrom_front (h : c.Ready) {env : Env} {req : Query} {rest : List Query}
    (hrequests : c.queue.requests = req :: rest) (hover : req.isCompleted = false) :
    c.advanceFrom env 0 =
      if (c.run env req).ok = false then
        advanceFrom env 1 ((c.run env req).connection.setRequests rest)
      else ((c.run env req).connection.setRequests ((c.run env req).query :: rest)).noted
        (c.run env req).query := by
  have hwaits := h.waits req (hrequests ▸ List.mem_cons_self)
  have hfront : c.queue.requests[0]? = some req := by rw [hrequests]; rfl
  rw [advanceFrom_some hfront, if_neg (h.isAbleToWrite ▸ Bool.noConfusion),
    if_neg (hover ▸ Bool.false_ne_true),
    if_neg ((hwaits.isBeingPrepared h.ne_parsing) ▸ Bool.false_ne_true),
    if_neg (hwaits.isRunning ▸ Bool.false_ne_true)]
  dsimp only
  rw [hrequests, List.set_cons_zero]
  split
  · rfl
  · simp only [noted, canPipeline_started, Bool.false_eq_true, and_false, if_false]

/-- The walk from the front. -/
theorem advanceFrom_zero (env : Env) : ∀ (requests : List Query) {c : Connection}, c.Ready →
    c.queue.requests = requests → ¬ c.Trips env → Advances c (c.advanceFrom env 0) := by
  intro requests
  induction requests with
  | nil =>
    intro c h hrequests _
    rw [advanceFrom_none (by rw [hrequests]; rfl)]
    exact .idle h hrequests rfl rfl rfl
  | cons req rest ih =>
    intro c h hrequests htrips
    cases hover : req.isCompleted with
    | true =>
      have hpop : c.advanceFrom env 0 = c.popFront.advanceFrom env 0 := by
        have hfront : c.queue.requests[0]? = some req := by rw [hrequests]; rfl
        rw [advanceFrom_some hfront, if_neg (h.isAbleToWrite ▸ Bool.noConfusion), if_pos hover,
          if_neg (Nat.lt_irrefl 0)]
      rw [hpop]
      refine (ih h.popFront ?_ fun htrips' => htrips ?_).of_popFront
      · rw [Connection.popFront, hrequests]
        rfl
      · have hdrop : c.popFront.queue.requests.dropWhile Query.isCompleted =
            c.queue.requests.dropWhile Query.isCompleted := by
          rw [hrequests, List.dropWhile_cons_of_pos hover, Connection.popFront, hrequests]
          rfl
        rw [Trips] at htrips' ⊢
        rw [← hdrop]
        exact htrips'
    | false =>
      have hwaits := h.waits req (hrequests ▸ List.mem_cons_self)
      have hrest : ∀ q ∈ rest, q.Waits c.pipeliningDisabled c.statements :=
        fun q hq => h.waits q (hrequests ▸ List.mem_cons_of_mem _ hq)
      rw [h.advanceFrom_front hrequests hover]
      have hstarts : Starts env c req (c.run env req) := h.starts hwaits hover
      have hprepared := hwaits.isBeingPrepared h.ne_parsing
      have hfails : (c.run env req).ok = false → c.fails env req = true :=
        h.fails_of_run hwaits hover hprepared
      generalize c.run env req = ran at hstarts hfails ⊢
      cases hstarts with
      | failed _ _ hrest' hext =>
        rw [if_pos rfl]
        cases rest with
        | nil =>
          rw [advanceFrom_none rfl]
          exact .idle { h with rest := hrest', waits := fun q hq => absurd hq List.not_mem_nil }
            rfl rfl rfl rfl
        | cons next rest =>
          refine absurd ?_ htrips
          rw [Trips, hrequests, List.dropWhile_cons_of_neg (hover ▸ Bool.false_ne_true)]
          refine ⟨h.isAbleToWrite, ?_, hprepared, hfails rfl⟩
          cases hwaits with
          | settled hover' => exact absurd (hover.symm.trans hover') Bool.noConfusion
          | simple hstatus => exact Query.isPending_of_status hstatus
          | prepared hstatus => exact Query.isPending_of_status hstatus
      | @written q' statements kind hid hengaged hext =>
        rw [if_neg Bool.noConfusion]
        obtain ⟨hbusy, hkept⟩ := busy_noted
          (c := { c.write env kind q'.id with statements := statements }.setRequests (q' :: rest))
          rfl h.pipelined h.nonpipelinable hengaged (fun q hq => (hrest q hq).extend hext)
        refine .busy hbusy rfl ?_ hkept.written
          (hkept.hasBackpressure.trans h.noBackpressure) hkept.deprecateEof hkept.pipeliningDisabled
        have hids := List.suffix_refl (req.id :: rest.map (·.id))
        simpa only [hrequests, List.map_cons, hid] using hids

theorem advance (h : c.Ready) {env : Env} (htrips : ¬ c.Trips env) : Advances c (c.advance env) := by
  have hwalk := h.advanceFrom_zero env c.queue.requests rfl htrips
  rw [Connection.advance, hwalk.discardCompleted]
  exact hwalk

end Ready

end Connection

end OhosBun.MySql
