/-
# `OhosBun.MySql.Attribution` — answers reach the request that caused them

After any events the connection has nothing to do, or one command is unanswered and its request is
at the front (`Stands`).  So every packet is handled for the request whose command it answers,
commands are written in the order of the queue, and the counters count.

That is so as long as no step trips.  When a request that the walk starts fails at the front, it is
popped and the offset still goes up: the request behind it is skipped, and the one after that is
written first, with the skipped one in front of it.
-/
import OhosBun.MySql.Answers

namespace OhosBun.MySql

open OhosBun.Lib

namespace Query
variable {disabled deprecateEof : Bool} {statements : Statements} {q : Query} {reply : List Packet}
  {kind : CommandKind}

theorem Engaged.insert {name : SignatureName} (h : q.Engaged disabled deprecateEof statements reply kind)
    (hnone : statements name = none) :
    q.Engaged disabled deprecateEof (statements.set name (.new .pending)) reply kind := by
  have hget {other : SignatureName} {s : Statement} (hs : statements other = some s) :
      statements.set name (.new .pending) other = some s := by
    refine (Statements.set_of_ne fun heq => ?_).trans hs
    exact absurd ((heq ▸ hs).symm.trans hnone) (Option.some_ne_none s)
  have hbut {other : SignatureName} (hrest : statements.RestBut other) :
      (statements.set name (.new .pending)).RestBut other := by
    intro name' s hne hs
    by_cases heq : name' = name
    · rw [heq, Statements.set_self] at hs
      exact Option.some.inj hs ▸ .fresh
    · exact hrest name' s hne ((Statements.set_of_ne heq).symm.trans hs)
  cases h with
  | prepare hstatus hpip hsimple hdisabled hstatement hs hrest hdue =>
    exact .prepare hstatus hpip hsimple hdisabled hstatement (hget hs) (hbut hrest) hdue
  | execute hrunning hpip hsimple hdisabled hstatement hs hrest hprepared hdue =>
    exact .execute hrunning hpip hsimple hdisabled hstatement (hget hs) (hbut hrest) hprepared hdue
  | query hrunning hpip hsimple hstatement hrest hdue =>
    exact .query hrunning hpip hsimple hstatement (hrest.set .fresh) hdue

/-- The answer starts to come in. -/
theorem Engaged.answer (h : q.Engaged disabled deprecateEof statements [] kind)
    (hanswer : isAnswer deprecateEof kind reply = true) :
    q.Engaged disabled deprecateEof statements reply kind := by
  have hresult {s : Statement} (hdue : s.ResultDue deprecateEof [])
      (hanswer : isResultAnswer deprecateEof .start reply = true) : s.ResultDue deprecateEof reply :=
    (hdue.due.elim (fun hnil => hdue.start hnil.2)
      fun hdue => absurd rfl (Connection.ne_nil_of_isResultAnswer hdue)).resultDue_of hanswer
  cases h with
  | @prepare name s hstatus hpip hsimple hdisabled hstatement hs hrest hdue =>
    refine .prepare hstatus hpip hsimple hdisabled hstatement hs hrest ?_
    have hnew : s = .new .parsing := by
      generalize hlist : ([] : List Packet) = l at hdue
      have hdue' := hdue
      cases hdue with
      | fresh => rfl
      | params hid => exact absurd hlist.symm (Connection.ne_nil_of_prepareDue hdue' hid)
      | columns hid => exact absurd hlist.symm (Connection.ne_nil_of_prepareDue hdue' hid)
    exact hnew ▸ .fresh (.inr hanswer)
  | execute hrunning hpip hsimple hdisabled hstatement hs hrest hprepared hdue =>
    exact .execute hrunning hpip hsimple hdisabled hstatement hs hrest hprepared (hresult hdue hanswer)
  | query hrunning hpip hsimple hstatement hrest hdue =>
    exact .query hrunning hpip hsimple hstatement hrest (hresult hdue hanswer)

end Query

namespace Connection

theorem add_eq (c : Connection) (q : Query) :
    c.add q = (c.setRequests (c.queue.requests ++ [q])).noted q := by
  rw [add, noted]
  dsimp only
  split
  next hprepared => exact (if_pos hprepared).symm
  next hprepared =>
    rw [if_neg (show ¬ q.isBeingPrepared (c.setRequests (c.queue.requests ++ [q])).statements = true
      from hprepared)]
    split
    · rw [started]
      split
      · rfl
      · rfl
    · rfl

/-! ## A submission -/

section Submission
variable {env : Env} {c : Connection} {request q : Query} {rest : List Query} {kind : CommandKind}
  {reply : List Packet}

/-- A request is behind those that wait, or has failed and is not. -/
def Joins (c c' : Connection) (request : Query) (rest : List Query) (kind : CommandKind)
    (reply : List Packet) (id : Nat) : Prop :=
  ∃ rest', Busy c' request rest' kind reply ∧ Kept c c' ∧
    (rest'.map Query.id = rest.map Query.id ∨ rest'.map Query.id = rest.map Query.id ++ [id])

/-- Behind the request that is busy. -/
theorem Busy.add (h : Busy c request rest kind reply)
    (hq : q.Waits c.pipeliningDisabled c.statements) :
    Busy (c.add q) request (rest ++ [q]) kind reply ∧ Kept c (c.add q) := by
  have hrequests : (c.setRequests (c.queue.requests ++ [q])).queue.requests =
      request :: (rest ++ [q]) := by
    rw [h.requests]
    rfl
  have hwaits : ∀ q' ∈ rest ++ [q], q'.Waits c.pipeliningDisabled c.statements := by
    intro q' hq'
    rcases List.mem_append.mp hq' with hq' | hq'
    · exact h.waits q' hq'
    · exact List.mem_singleton.mp hq' ▸ hq
  rw [add_eq, noted]
  split
  · exact ⟨⟨hrequests, rfl, h.engaged, hwaits, h.pipelined, h.nonpipelinable⟩, ⟨rfl, rfl, rfl, rfl, rfl⟩⟩
  · rw [if_neg (hq.isRunning ▸ Bool.false_ne_true)]
    exact ⟨⟨hrequests, h.isReady, h.engaged, hwaits, h.pipelined, h.nonpipelinable⟩,
      ⟨rfl, rfl, rfl, rfl, rfl⟩⟩

theorem runPreparedQuery_of_not_ready {q' : Query} {c' : Connection} {s : Statement}
    (hfind : c.findStatement q = some (q', c')) (hready : c'.queue.isReadyForQuery = false)
    (hs : q'.getStatement c'.statements = some s) (hfailed : s.status ≠ .failed) :
    c.runPreparedQuery env q = ⟨true, q', c'⟩ := by
  have hprepare : c'.canPrepareQuery = false := by
    rw [canPrepareQuery, hready, Bool.and_false, Bool.false_and, Bool.false_and]
  have hpipeline : c'.canPipeline = false := by
    rw [canPipeline, hready, Bool.false_and, Bool.false_and, Bool.false_and, ite_self]
  rw [runPreparedQuery, hfind]
  dsimp only
  rw [hs]
  dsimp only
  split
  next hstatus => exact absurd hstatus hfailed
  · exact if_neg (hpipeline ▸ Bool.false_ne_true)
  · rfl
  · exact if_neg (hprepare ▸ Bool.false_ne_true)

theorem Busy.doRun (h : Busy c request rest kind reply) {id : Nat} {simple : Bool}
    {signature : Option SignatureName} (hmay : c.pipeliningDisabled = false ∨ simple = true) :
    Joins c (c.doRun env (.init id simple signature)) request rest kind reply id := by
  have hkeeps (hran : (c.run env (.init id simple signature)).ok = false)
      (hconnection : (c.run env (.init id simple signature)).connection = c) :
      Joins c (c.doRun env (.init id simple signature)) request rest kind reply id := by
    rw [Connection.doRun, if_neg (hran ▸ Bool.false_ne_true), hconnection]
    exact ⟨rest, h, .refl c, .inl rfl⟩
  have hjoins {q' : Query} {c' : Connection}
      (hran : c.run env (.init id simple signature) = ⟨true, q', c'⟩) (hid : q'.id = id)
      (hbusy : Busy c' request rest kind reply) (hkept : Kept c c')
      (hq' : q'.Waits c'.pipeliningDisabled c'.statements) :
      Joins c (c.doRun env (.init id simple signature)) request rest kind reply id := by
    rw [Connection.doRun, hran, if_pos rfl]
    obtain ⟨hadded, hkept'⟩ := hbusy.add hq'
    refine ⟨_, hadded, hkept.trans hkept', .inr ?_⟩
    rw [List.map_append, List.map_singleton, hid]
  cases simple with
  | true =>
    have hwaits : (Query.init id true signature).Waits c.pipeliningDisabled c.statements :=
      .simple rfl rfl rfl rfl
    rcases run_of_not_ready h.isReady hwaits rfl rfl with hran | hran
    · exact hjoins hran rfl h (.refl c) hwaits
    · exact hkeeps (congrArg Ran.ok hran) (congrArg Ran.connection hran)
  | false =>
    have hdisabled := hmay.resolve_right Bool.false_ne_true
    have hran : c.run env (.init id false signature) =
        if (c.runPreparedQuery env (.init id false signature)).ok then
          c.runPreparedQuery env (.init id false signature)
        else { c.runPreparedQuery env (.init id false signature) with
          query := (c.runPreparedQuery env (.init id false signature)).query.fail } := rfl
    have hfails (hfind : c.findStatement (.init id false signature) = none) :
        c.run env (.init id false signature) = ⟨false, (Query.init id false signature).fail, c⟩ := by
      have hprepared : c.runPreparedQuery env (.init id false signature) =
          ⟨false, .init id false signature, c⟩ := by
        rw [runPreparedQuery, hfind]
      rw [hran, hprepared]
      rfl
    have hwaitsFor (name : SignatureName) (c' : Connection) {s : Statement}
        (hfind : c.findStatement (.init id false signature) =
          some (⟨id, false, signature, some (.shared name), .pending, false⟩, c'))
        (hs : c'.statements name = some s) (hfailed : s.status ≠ .failed)
        (hbusy : Busy c' request rest kind reply) (hkept : Kept c c') :
        Joins c (c.doRun env (.init id false signature)) request rest kind reply id := by
      refine hjoins ?_ rfl hbusy hkept (.prepared
        (q := ⟨id, false, signature, some (.shared name), .pending, false⟩) rfl rfl rfl
        (hkept.pipeliningDisabled.trans hdisabled) rfl hs)
      rw [hran, runPreparedQuery_of_not_ready hfind hbusy.isReady hs hfailed]
      rfl
    cases signature with
    | none =>
      have hrun := hfails rfl
      exact hkeeps (congrArg Ran.ok hrun) (congrArg Ran.connection hrun)
    | some name =>
      cases hs : c.statements name with
      | none =>
        refine hwaitsFor name { c with statements := c.statements.set name (.new .pending) }
          ?_ Statements.set_self StatementStatus.noConfusion ⟨h.requests, h.isReady,
            h.engaged.insert hs, fun q hq => (h.waits q hq).extend (Statements.extends_set _ _ _),
            h.pipelined, h.nonpipelinable⟩ ⟨rfl, rfl, rfl, rfl, rfl⟩
        simp only [findStatement, Query.init, Option.isSome_none, hs, Bool.false_eq_true, if_false]
      | some s =>
        by_cases hfailed : s.status = .failed
        · have hrun := hfails (by
            simp only [findStatement, Query.init, Option.isSome_none, hs, if_pos hfailed,
              Bool.false_eq_true, if_false])
          exact hkeeps (congrArg Ran.ok hrun) (congrArg Ran.connection hrun)
        · refine hwaitsFor name c ?_ hs hfailed h (.refl c)
          simp only [findStatement, Query.init, Option.isSome_none, hs, if_neg hfailed,
            Bool.false_eq_true, if_false]

end Submission

/-! ## The order of commands -/

/-- Requests are numbered in the order of the queue, and whatever is written is for none that comes
after the front. -/
structure Ordered (c : Connection) (submitted : Nat) : Prop where
  increasing : (c.queue.requests.map Query.id).Pairwise (· < ·)
  order : (c.written.map Command.request ++ c.queue.requests.map Query.id).Pairwise (· ≤ ·)
  below : ∀ id ∈ c.written.map Command.request ++ c.queue.requests.map Query.id, id < submitted

namespace Ordered
variable {c c' : Connection} {submitted : Nat}

theorem of_eq (h : Ordered c submitted) (hwritten : c'.written = c.written)
    (hids : c'.queue.requests.map Query.id = c.queue.requests.map Query.id) :
    Ordered c' submitted :=
  ⟨hids ▸ h.increasing, hwritten ▸ hids ▸ h.order, hwritten ▸ hids ▸ h.below⟩

/-- A command for the front of what is left of the queue. -/
theorem write (h : Ordered c submitted) {command : Command} {ids : List Nat}
    (hwritten : c'.written = c.written ++ [command])
    (hids : c'.queue.requests.map Query.id = command.request :: ids)
    (hsuffix : c'.queue.requests.map Query.id <:+ c.queue.requests.map Query.id) :
    Ordered c' submitted := by
  have hsub : (c.written.map Command.request ++ command.request :: ids).Sublist
      (c.written.map Command.request ++ c.queue.requests.map Query.id) :=
    (List.Sublist.refl _).append (hids ▸ hsuffix).sublist
  have horder := h.order.sublist hsub
  obtain ⟨hpast, hleft, hcross⟩ := List.pairwise_append.mp horder
  refine ⟨h.increasing.sublist hsuffix.sublist, ?_, fun id hid => ?_⟩
  · rw [hwritten, hids, List.map_append, List.map_singleton]
    refine List.pairwise_append.mpr ⟨?_, hleft, fun a ha b hb => ?_⟩
    · exact List.pairwise_append.mpr ⟨hpast, List.pairwise_singleton _ _, fun a ha b hb =>
        hcross a ha b (List.mem_singleton.mp hb ▸ List.mem_cons_self)⟩
    · rcases List.mem_append.mp ha with ha | ha
      · exact hcross a ha b hb
      · obtain rfl := List.mem_singleton.mp ha
        rcases List.mem_cons.mp hb with rfl | hb
        · exact Nat.le_refl _
        · exact List.rel_of_pairwise_cons hleft hb
  · rw [hwritten, hids, List.map_append, List.map_singleton] at hid
    refine h.below id (hsub.subset ?_)
    rcases List.mem_append.mp hid with hid | hid
    · rcases List.mem_append.mp hid with hid | hid
      · exact List.mem_append_left _ hid
      · exact List.mem_append_right _ (List.mem_singleton.mp hid ▸ List.mem_cons_self)
    · exact List.mem_append_right _ hid

/-- The next request is behind all others. -/
theorem enqueue (h : Ordered c submitted) (hwritten : c'.written = c.written)
    (hids : c'.queue.requests.map Query.id = c.queue.requests.map Query.id ++ [submitted]) :
    Ordered c' (submitted + 1) := by
  refine ⟨?_, ?_, fun id hid => ?_⟩
  · rw [hids]
    exact List.pairwise_append.mpr ⟨h.increasing, List.pairwise_singleton _ _, fun a ha b hb =>
      List.mem_singleton.mp hb ▸ h.below a (List.mem_append_right _ ha)⟩
  · rw [hwritten, hids, ← List.append_assoc]
    exact List.pairwise_append.mpr ⟨h.order, List.pairwise_singleton _ _, fun a ha b hb =>
      List.mem_singleton.mp hb ▸ Nat.le_of_lt (h.below a ha)⟩
  · rw [hwritten, hids, ← List.append_assoc] at hid
    rcases List.mem_append.mp hid with hid | hid
    · exact Nat.lt_succ_of_lt (h.below id hid)
    · exact List.mem_singleton.mp hid ▸ Nat.lt_succ_self _

theorem succ (h : Ordered c submitted) : Ordered c (submitted + 1) :=
  ⟨h.increasing, h.order, fun id hid => Nat.lt_succ_of_lt (h.below id hid)⟩

theorem advances (h : Ordered c submitted) (hadvances : Advances c c') : Ordered c' submitted := by
  cases hadvances with
  | idle _ hempty hwritten =>
    have hsub : (c'.queue.requests.map Query.id).Sublist (c.queue.requests.map Query.id) := by
      rw [hempty]
      exact List.nil_sublist _
    have hall := (List.Sublist.refl (c.written.map Command.request)).append hsub
    exact ⟨h.increasing.sublist hsub, hwritten ▸ h.order.sublist hall,
      fun id hid => h.below id (hall.subset (hwritten ▸ hid))⟩
  | @busy request rest command hbusy hid hids hwritten =>
    have hids' : c'.queue.requests.map Query.id = command.request :: rest.map Query.id := by
      rw [hbusy.requests, List.map_cons, hid]
    exact h.write hwritten hids' (hbusy.requests ▸ hids)

end Ordered

/-! ## Between two steps -/

/-- Nothing to do, or one command unanswered, which is the last one written. -/
inductive Stands (c : Connection) (answered : Nat) (reply : List Packet) : Prop
  | idle (hready : c.Ready) (hempty : c.queue.requests = []) (hanswered : answered = c.written.length)
      (hreply : reply = [])
  | busy {past : List Command} {command : Command} {request : Query} {rest : List Query}
      (hbusy : Busy c request rest command.kind reply) (hid : request.id = command.request)
      (hwritten : c.written = past ++ [command]) (hanswered : answered = past.length)
      (hpressure : c.hasBackpressure = true → 0 < c.writeBuffer)
      (hsent : reply ≠ [] → c.writeBuffer = 0)

section Steps
variable {env : Env} {c c' : Connection} {answered submitted : Nat} {reply : List Packet}

theorem Advances.stands (h : Advances c c') (hanswered : answered = c.written.length) :
    Stands c' answered [] := by
  cases h with
  | idle hready hempty hwritten => exact .idle hready hempty (hwritten ▸ hanswered) rfl
  | busy hbusy hid hids hwritten hpressure =>
    exact .busy hbusy hid hwritten hanswered
      (fun htrue => absurd (hpressure.symm.trans htrue) Bool.noConfusion) fun hne => absurd rfl hne

theorem not_trips_of_empty (hempty : c.queue.requests = []) : ¬ c.Trips env := by
  rw [Trips, hempty]
  exact id

theorem Stands.advance (h : Stands c answered reply) (hordered : Ordered c submitted) (env : Env) :
    Stands (c.advance env) answered reply ∧ Ordered (c.advance env) submitted := by
  cases h with
  | idle hready hempty hanswered hreply =>
    have hadvances := hready.advance (@not_trips_of_empty env _ hempty)
    exact ⟨hreply ▸ hadvances.stands hanswered, hordered.advances hadvances⟩
  | busy hbusy hid hwritten hanswered hpressure hsent =>
    obtain ⟨rest', hbusy', hids, hkept⟩ := hbusy.advance env
    refine ⟨.busy hbusy' hid (hkept.written.trans hwritten) hanswered ?_ ?_, hordered.of_eq hkept.written ?_⟩
    · rw [hkept.hasBackpressure, hkept.writeBuffer]
      exact hpressure
    · rw [hkept.writeBuffer]
      exact hsent
    · rw [hbusy.requests, hbusy'.requests, List.map_cons, List.map_cons, hids]

theorem exists_flushData (takes : Nat) (c : Connection) : ∃ writeBuffer hasBackpressure,
    c.flushData takes = { c with writeBuffer := writeBuffer, hasBackpressure := hasBackpressure } ∧
      ((c.hasBackpressure = true → 0 < c.writeBuffer) → hasBackpressure = true → 0 < writeBuffer) ∧
      (c.writeBuffer = 0 → c.flushData takes = c) := by
  rw [flushData]
  split
  · exact ⟨c.writeBuffer, c.hasBackpressure, rfl, id, fun _ => rfl⟩
  split
  · exact ⟨c.writeBuffer, c.hasBackpressure, rfl, id, fun _ => rfl⟩
  next hne =>
    refine ⟨_, _, rfl, fun _ hpressure => ?_, fun hzero => absurd hzero hne⟩
    exact Nat.sub_pos_of_lt (of_decide_eq_true hpressure)

theorem Stands.flushData (h : Stands c answered reply) (hordered : Ordered c submitted) (takes : Nat) :
    Stands (c.flushData takes) answered reply ∧ Ordered (c.flushData takes) submitted := by
  obtain ⟨writeBuffer, hasBackpressure, heq, hstill, hzero⟩ := exists_flushData takes c
  cases h with
  | idle hready hempty hanswered hreply =>
    rw [hzero hready.sent]
    exact ⟨.idle hready hempty hanswered hreply, hordered⟩
  | busy hbusy hid hwritten hanswered hpressure hsent =>
    have hkeeps : c.writeBuffer = 0 → writeBuffer = 0 := fun hsent =>
      (congrArg Connection.writeBuffer (heq.symm.trans (hzero hsent)) :).trans hsent
    rw [heq]
    exact ⟨.busy ⟨hbusy.requests, hbusy.isReady, hbusy.engaged, hbusy.waits, hbusy.pipelined,
      hbusy.nonpipelinable⟩ hid hwritten hanswered (hstill hpressure) fun hne => hkeeps (hsent hne),
      hordered.of_eq rfl rfl⟩

theorem Stands.flushQueue (h : Stands c answered reply) (hordered : Ordered c submitted) (env : Env) :
    Stands (c.flushQueue env) answered reply ∧ Ordered (c.flushQueue env) submitted := by
  obtain ⟨h₁, hordered₁⟩ := h.flushData hordered env.takes
  rw [Connection.flushQueue]
  split
  · exact ⟨h₁, hordered₁⟩
  · obtain ⟨h₂, hordered₂⟩ := h₁.advance hordered₁ env
    exact h₂.flushData hordered₂ env.takesNext

theorem Stands.perform (h : Stands c answered reply) (hordered : Ordered c submitted) (env : Env)
    (next : Next) : Stands (c.perform env next) answered reply ∧ Ordered (c.perform env next) submitted := by
  cases next with
  | nothing => exact ⟨h, hordered⟩
  | advance => exact h.advance hordered env
  | flushQueue => exact h.flushQueue hordered env

/-- After the last packet of an answer. -/
theorem Ready.perform (h : c.Ready) (hordered : Ordered c submitted)
    (hanswered : answered = c.written.length) {next : Next} (hnext : next ≠ .nothing)
    (htrips : ¬ c.Trips env) :
    Stands (c.perform env next) answered [] ∧ Ordered (c.perform env next) submitted := by
  have hadvances := h.advance htrips
  have hstands := hadvances.stands hanswered
  have hordered' := hordered.advances hadvances
  cases next with
  | nothing => exact absurd rfl hnext
  | advance => exact ⟨hstands, hordered'⟩
  | flushQueue =>
    have hflush : c.flushData env.takes = c := (exists_flushData env.takes c).choose_spec.choose_spec.2.2 h.sent
    rw [Connection.perform, Connection.flushQueue, hflush, if_neg (h.noBackpressure ▸ Bool.false_ne_true)]
    exact hstands.flushData hordered' env.takesNext

/-- A submission. -/
theorem Stands.doRun (h : Stands c answered reply) (hordered : Ordered c submitted) {simple : Bool}
    {signature : Option SignatureName} (hmay : c.pipeliningDisabled = false ∨ simple = true) :
    Stands (c.doRun env (.init submitted simple signature)) answered reply ∧
      Ordered (c.doRun env (.init submitted simple signature)) (submitted + 1) := by
  cases h with
  | idle hready hempty hanswered hreply =>
    have hstarts : Starts env c (.init submitted simple signature)
      (c.run env (.init submitted simple signature)) := hready.starts_init hmay
    rw [Connection.doRun]
    generalize c.run env (.init submitted simple signature) = ran at hstarts ⊢
    cases hstarts with
    | failed _ _ hrest hext =>
      rw [if_neg Bool.false_ne_true]
      refine ⟨.idle { hready with rest := hrest, waits := fun q hq => ?_ } hempty hanswered hreply,
        ⟨hordered.increasing, hordered.order, fun id hid => Nat.lt_succ_of_lt (hordered.below id hid)⟩⟩
      exact absurd (hempty ▸ hq) List.not_mem_nil
    | @written q' statements kind hid hengaged hext =>
      have hid : q'.id = submitted := hid
      obtain ⟨hbusy, hkept⟩ := busy_noted
        (c := { c.write env kind q'.id with statements := statements }.setRequests
          (c.queue.requests ++ [q'])) (by rw [hempty]; rfl) hready.pipelined
        hready.nonpipelinable hengaged (fun q hq => absurd hq List.not_mem_nil)
      have hqueued : Ordered (c.setRequests (c.queue.requests ++ [q'])) (submitted + 1) := by
        refine hordered.enqueue rfl ?_
        rw [requests_setRequests, List.map_append, List.map_singleton, hid]
      rw [if_pos rfl, add_eq]
      refine ⟨?_, hqueued.write hkept.written
        (congrArg (List.map Query.id) hbusy.requests) ?_⟩
      · refine .busy (hreply ▸ hbusy) rfl
          hkept.written hanswered (fun htrue => ?_) (fun hne => absurd hreply hne)
        exact absurd ((hkept.hasBackpressure.trans hready.noBackpressure).symm.trans htrue)
          Bool.noConfusion
      · have hsame := hbusy.requests.trans (show [q'] = c.queue.requests ++ [q'] by rw [hempty]; rfl)
        exact ⟨[], congrArg (List.map Query.id) hsame⟩
  | busy hbusy hid hwritten hanswered hpressure hsent =>
    obtain ⟨rest', hbusy', hkept, hids⟩ :=
      hbusy.doRun hmay
    refine ⟨.busy hbusy' hid (hkept.written.trans hwritten) hanswered ?_ ?_, ?_⟩
    · rw [hkept.hasBackpressure, hkept.writeBuffer]
      exact hpressure
    · rw [hkept.writeBuffer]
      exact hsent
    · rcases hids with hids | hids
      · refine (hordered.of_eq hkept.written ?_).succ
        rw [hbusy.requests, hbusy'.requests, List.map_cons, List.map_cons, hids]
      · refine hordered.enqueue hkept.written ?_
        rw [hbusy.requests, hbusy'.requests, List.map_cons, List.map_cons, hids, List.cons_append]

theorem Stands.onWritable (h : Stands c answered reply) (hordered : Ordered c submitted) (env : Env) :
    Stands (c.onWritable env) answered reply ∧ Ordered (c.onWritable env) submitted := by
  have hreset : Stands { c with hasBackpressure := false } answered reply := by
    cases h with
    | idle hready hempty hanswered hreply =>
      exact .idle { hready with noBackpressure := rfl } hempty hanswered hreply
    | busy hbusy hid hwritten hanswered _ hsent =>
      exact .busy ⟨hbusy.requests, hbusy.isReady, hbusy.engaged, hbusy.waits, hbusy.pipelined,
        hbusy.nonpipelinable⟩ hid hwritten hanswered (fun h => absurd h Bool.false_ne_true) hsent
  exact hreset.flushQueue (hordered.of_eq rfl rfl) env

end Steps

end Connection

/-! ## Runs -/

namespace Exchange
variable {s : Exchange}

structure Sound (s : Exchange) : Prop where
  stands : s.connection.Stands s.answered s.reply
  ordered : s.connection.Ordered s.submitted

theorem sound_start (deprecateEof pipeliningDisabled : Bool) :
    (start deprecateEof pipeliningDisabled).Sound where
  stands := .idle ⟨rfl, rfl, rfl, rfl, rfl, rfl, fun _ s hs => absurd hs.symm (Option.some_ne_none s),
    fun _ hq => absurd hq List.not_mem_nil⟩ rfl rfl rfl
  ordered := ⟨List.Pairwise.nil, List.Pairwise.nil, fun _ hid => absurd hid List.not_mem_nil⟩

/-- The server starts to answer the command that is unanswered. -/
theorem Sound.answer (h : s.Sound) {packets : List Packet} (hmay : s.mayAnswer packets = true) :
    Sound { s with reply := packets } := by
  refine ⟨?_, h.ordered⟩
  rw [mayAnswer, unanswered] at hmay
  cases h.stands with
  | idle _ _ hanswered _ =>
    rw [hanswered, List.drop_length] at hmay
    exact absurd hmay Bool.false_ne_true
  | @busy past command request rest hbusy hid hwritten hanswered hpressure hsent =>
    rw [hwritten, hanswered, List.drop_left] at hmay
    simp only [Bool.and_eq_true, decide_eq_true_eq] at hmay
    obtain ⟨⟨hempty, hsent'⟩, hanswer⟩ := hmay
    have hempty : s.reply = [] := List.isEmpty_iff.mp hempty
    rw [hempty] at hbusy
    exact .busy ⟨hbusy.requests, hbusy.isReady, hbusy.engaged.answer hanswer, hbusy.waits,
      hbusy.pipelined, hbusy.nonpipelinable⟩ hid hwritten hanswered hpressure
      fun _ => Nat.le_zero.mp hsent'

/-- A packet of the answer. -/
theorem Sound.packet (h : s.Sound) {env : Env} (hsteady : s.Steady (.packet env)) :
    ∃ s' handling, s.step (.packet env) = some (s', handling) ∧
      (∀ x ∈ handling, x.Attributed) ∧ s'.Sound := by
  cases hreply : s.reply with
  | nil =>
    refine ⟨s, none, ?_, fun x hx => absurd hx.symm (Option.some_ne_none x), h⟩
    rw [step, hreply]
  | cons packet reply =>
    cases h.stands with
    | idle _ _ _ hnil => exact absurd (hreply.symm.trans hnil) (List.cons_ne_nil _ _)
    | @busy past command request rest hbusy hid hwritten hanswered hpressure hsent =>
      have hsent := hsent (hreply ▸ List.cons_ne_nil _ _)
      have hpressure : s.connection.hasBackpressure = false := eq_false_of_ne_true fun htrue =>
        absurd (hpressure htrue) (Nat.not_lt.mpr (Nat.le_of_eq hsent))
      have hunanswered : s.unanswered = [command] := by
        rw [unanswered, hwritten, hanswered, List.drop_left]
      have hhandles : s.connection.Handles request rest command.kind reply
          (s.connection.handlePacket packet) :=
        Connection.Busy.handlePacket (hreply ▸ hbusy) hsent hpressure
      have hattributed : Handling.Attributed ⟨command, s.connection.current.map Query.id⟩ := by
        rw [Handling.Attributed, Connection.current_eq hbusy.requests, Option.map_some, hid]
      rw [Steady, hreply] at hsteady
      dsimp only at hsteady
      have hstep : s.step (.packet env) = (s.connection.handlePacket packet).bind fun handled =>
          some ({ s with
            connection := handled.1.perform env handled.2
            answered := if reply.isEmpty then s.answered + 1 else s.answered
            reply := reply }, some ⟨command, s.connection.current.map Query.id⟩) := by
        rw [step, hreply, hunanswered]
        dsimp only
        rw [takePacket, Connection.handleCommand]
        cases s.connection.handlePacket packet with
        | none => rfl
        | some result => rfl
      rw [hstep]
      generalize s.connection.handlePacket packet = result at hhandles hsteady ⊢
      cases hhandles with
      | @due c' request' next hbusy' hid' hkept hne =>
        have hnonempty : reply.isEmpty = false := by
          rw [List.isEmpty_eq_false_iff]
          exact hne
        have hstands : c'.Stands s.answered reply := by
          refine .busy hbusy' (hid'.trans hid) (hkept.written.trans hwritten) hanswered ?_ ?_
          · rw [hkept.hasBackpressure, hpressure]
            exact fun h => absurd h Bool.false_ne_true
          · exact fun _ => hkept.writeBuffer.trans hsent
        have hordered : c'.Ordered s.submitted := by
          refine h.ordered.of_eq hkept.written ?_
          rw [hbusy.requests, hbusy'.requests, List.map_cons, List.map_cons, hid']
        obtain ⟨hstands', hordered'⟩ := hstands.perform hordered env next
        refine ⟨_, _, rfl, fun x hx => Option.some.inj hx ▸ hattributed, ⟨?_, hordered'⟩⟩
        rw [hnonempty]
        exact hstands'
      | @settled c' next hready hids hkept hnext hnil =>
        subst hnil
        have htrips : ¬ c'.Trips env := by
          cases next with
          | nothing => exact absurd rfl hnext
          | advance => exact hsteady
          | flushQueue => exact hsteady
        have hanswered' : s.answered + 1 = c'.written.length := by
          rw [hkept.written, hwritten, hanswered, List.length_append, List.length_singleton]
        have hordered : c'.Ordered s.submitted :=
          h.ordered.of_eq hkept.written (hids.trans (hbusy.requests ▸ rfl))
        obtain ⟨hstands', hordered'⟩ := hready.perform hordered hanswered' hnext htrips
        exact ⟨_, _, rfl, fun x hx => Option.some.inj hx ▸ hattributed, ⟨hstands', hordered'⟩⟩

/-- One event. -/
theorem Sound.step (h : s.Sound) {event : Event} (hsteady : s.Steady event) :
    ∃ s' handling, s.step event = some (s', handling) ∧ (∀ x ∈ handling, x.Attributed) ∧ s'.Sound := by
  have hnone : ∀ x ∈ (none : Option Handling), x.Attributed :=
    fun x hx => absurd hx.symm (Option.some_ne_none x)
  cases event with
  | submit env simple signature =>
    obtain ⟨hstands, hordered⟩ := h.stands.doRun h.ordered hsteady
    exact ⟨_, _, rfl, hnone, ⟨hstands, hordered⟩⟩
  | autoFlush env =>
    refine ⟨_, _, rfl, hnone, ?_⟩
    rw [Connection.onAutoFlush]
    split
    · exact h
    · obtain ⟨hstands, hordered⟩ := h.stands.flushQueue h.ordered env
      exact ⟨hstands, hordered⟩
  | writable env =>
    obtain ⟨hstands, hordered⟩ := h.stands.onWritable h.ordered env
    exact ⟨_, _, rfl, hnone, ⟨hstands, hordered⟩⟩
  | answer packets =>
    refine ⟨_, _, rfl, hnone, ?_⟩
    split
    next hmay => exact h.answer hmay
    · exact h
  | packet env => exact h.packet hsteady

/-- A request that waits is not running. -/
theorem Sound.counted (h : s.Sound) : s.Counted := by
  cases h.stands with
  | idle hready hempty _ _ =>
    rw [Counted, hempty, hready.pipelined, hready.nonpipelinable]
    exact ⟨rfl, rfl⟩
  | @busy past command request rest hbusy _ _ _ _ _ =>
    have hrest (p : Query → Bool) : rest.countP (fun q => q.isRunning && p q) = 0 := by
      refine List.countP_eq_zero.mpr fun q hq => ?_
      rw [(hbusy.waits q hq).isRunning]
      exact Bool.false_ne_true
    rw [Counted, hbusy.requests, hbusy.pipelined, hbusy.nonpipelinable, List.countP_cons,
      List.countP_cons, hrest, hrest fun q => !q.pipelined]
    generalize command.kind = kind at hbusy ⊢
    cases hbusy.engaged with
    | prepare hstatus =>
      rw [Query.isRunning_of_pending hstatus]
      exact ⟨rfl, rfl⟩
    | execute hrunning hpipelined =>
      rw [hrunning, hpipelined]
      exact ⟨rfl, rfl⟩
    | query hrunning hpipelined =>
      rw [hrunning, hpipelined]
      exact ⟨rfl, rfl⟩

/-- Whatever is submitted, flushed and answered in whatever order: as long as no step trips, the run
goes on, every packet is handled for the request whose command it answers, commands are in the
order of the queue, and the counters count. -/
theorem answers_requests (deprecateEof pipeliningDisabled : Bool) (events : List Event)
    (hsteady : Guarded step Steady (start deprecateEof pipeliningDisabled) events) :
    ∃ s handlings, run step (start deprecateEof pipeliningDisabled) events = some (s, handlings) ∧
      (∀ handling ∈ handlings, ∀ x ∈ handling, x.Attributed) ∧ s.InOrder ∧ s.Counted := by
  have hstep (s : Exchange) (a : Unit) (event : Event) (hsound : s.Sound) (hsteady : s.Steady event) :
      ∃ s' handling, ∃ b : Unit, s.step event = some (s', handling) ∧
        (∀ x ∈ handling, x.Attributed) ∧ s'.Sound := by
    obtain ⟨s', handling, hstep, hattributed, hsound'⟩ := hsound.step hsteady
    exact ⟨s', handling, a, hstep, hattributed, hsound'⟩
  obtain ⟨s, handlings, _, hrun, hfollows, hsound⟩ :=
    exists_run hstep events (sound_start deprecateEof pipeliningDisabled) hsteady (a := ())
  exact ⟨s, handlings, hrun, hfollows.forall_reply fun _ _ _ _ h => h,
    ⟨hsound.ordered.increasing, hsound.ordered.order⟩, hsound.counted⟩

/-- What is outside where nothing is refused, and the socket takes everything. -/
def willing : Env := ⟨fun _ => true, fun _ => true, fun _ => 3, 65536, 65536⟩

/-- A statement is prepared and executed, and a simple query waits behind it. -/
theorem answers_requests_prepared :
    Guarded step Steady (start true false)
        [.submit willing false (some [1]), .submit willing true none, .autoFlush willing,
          .answer [.prepareOk 1 0 0], .packet willing, .answer [.ok false], .packet willing] ∧
      ∃ s handlings, run step (start true false)
          [.submit willing false (some [1]), .submit willing true none, .autoFlush willing,
            .answer [.prepareOk 1 0 0], .packet willing, .answer [.ok false], .packet willing] =
          some (s, handlings) ∧
        (∀ handling ∈ handlings, ∀ x ∈ handling, x.Attributed) ∧ s.InOrder ∧ s.Counted := by
  have hsteady : Guarded step Steady (start true false)
      [.submit willing false (some [1]), .submit willing true none, .autoFlush willing,
        .answer [.prepareOk 1 0 0], .packet willing, .answer [.ok false], .packet willing] := by
    with_unfolding_all decide
  exact ⟨hsteady, answers_requests true false _ hsteady⟩

/-- Two queries share a statement that the server does not prepare, and two others are behind them:
the one that is executed next is the second of these, and its result is given to the first. -/
theorem not_answers_requests : ¬ ∀ (deprecateEof pipeliningDisabled : Bool) (events : List Event),
    ∃ s handlings, run step (start deprecateEof pipeliningDisabled) events = some (s, handlings) ∧
      (∀ handling ∈ handlings, ∀ x ∈ handling, x.Attributed) ∧ s.InOrder ∧ s.Counted := by
  intro h
  obtain ⟨s, handlings, hrun, hall, _⟩ := h true false
    [.submit willing false (some [2]), .autoFlush willing, .answer [.prepareOk 1 0 0], .packet willing,
      .autoFlush willing, .answer [.ok false], .packet willing,
      .submit willing false (some [1]), .submit willing false (some [1]),
      .submit willing false (some [2]), .submit willing true none, .autoFlush willing,
      .answer [.error], .packet willing, .autoFlush willing, .answer [.ok false], .packet willing]
  have hwrong : (run step (start true false)
      [.submit willing false (some [2]), .autoFlush willing, .answer [.prepareOk 1 0 0], .packet willing,
        .autoFlush willing, .answer [.ok false], .packet willing,
        .submit willing false (some [1]), .submit willing false (some [1]),
        .submit willing false (some [2]), .submit willing true none, .autoFlush willing,
        .answer [.error], .packet willing, .autoFlush willing, .answer [.ok false],
        .packet willing]).map (fun result => result.2.getLast?) =
      some (some (some ⟨⟨.query, 4, 8⟩, some 3⟩)) := by with_unfolding_all decide
  rw [hrun, Option.map_some, Option.some.injEq] at hwrong
  have hattributed := hall _ (List.mem_of_getLast? hwrong) _ rfl
  exact absurd hattributed (by decide)

end Exchange

end OhosBun.MySql
