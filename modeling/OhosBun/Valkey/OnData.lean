/-
# `OhosBun.Valkey.OnData` — replies as they come in

`on_data` of `valkey.rs`: a chunk is read as it is until a reply in it is not complete; what
is left goes to the read buffer, and from there on chunks are added to the buffer and the
scanner says when a reply is complete.  The rest of the client is a parameter
(`Handlers`); where a handler closes the socket, `on_data` returns.

`run_cut` says that the replies are handled in order however the stream is cut, and that
what is kept is the start of the next one.  On the buffered path a reply is counted in a
`u32`, so that holds for a reply and a chunk of up to 2^32 bytes; `run_nulls` has a reply
that is longer.
-/
import OhosBun.Collections.OffsetByteList
import OhosBun.Lib.Outcome
import OhosBun.Valkey.Agreement

namespace OhosBun.Valkey

open OhosBun.Lib OhosBun.Collections

/-- What `on_data` needs of the rest of the client. -/
structure Handlers (F64 Client Socket JsError : Type) where
  socket : Client → Socket
  handleResponse : RESPValue F64 → Client → Except JsError Unit × Client
  sendNextCommand : Client → Client
  fail : String → RedisError → Client → Except JsError Unit × Client

/-- `handled` has the values that `handle_response` was called with. -/
structure Connection (F64 Client : Type) where
  readBuffer : OffsetByteList := {}
  replyScanner : ReplyScanner := {}
  client : Client
  handled : List (RESPValue F64) := []

namespace Connection
variable {F64 Client Socket JsError : Type} [DecidableEq Socket] (floats : Floats F64)
  (handlers : Handlers F64 Client Socket JsError)

/-- A call returns or panics; `none` is a call that has not come to its end. -/
abbrev Returned (F64 Client JsError : Type) :=
  Option (Outcome (JsError × Connection F64 Client) (Connection F64 Client))

def fail (c : Connection F64 Client) (message : String) (err : RedisError) :
    Returned F64 Client JsError :=
  match handlers.fail message err c.client with
  | (.ok _, client) => some (.ok { c with client })
  | (.error e, client) => some (.err (e, { c with client }))

/-- Handles a value, and goes on where the socket is still the same. -/
def handleResponse (socket : Socket) (c : Connection F64 Client) (value : RESPValue F64)
    (next : Connection F64 Client → Returned F64 Client JsError) : Returned F64 Client JsError :=
  let handled := c.handled ++ [value]
  match handlers.handleResponse value c.client with
  | (.error e, client) => some (.err (e, { c with client, handled }))
  | (.ok _, client) =>
    if handlers.socket client ≠ socket then some (.ok { c with client, handled })
    else next { c with client := handlers.sendNextCommand client, handled }

/-- Process as many complete messages from the buffer as possible. -/
@[grind] def onDataBuffered (socket : Socket) : (fuel : Nat) → Connection F64 Client →
    Returned F64 Client JsError
  | 0, _ => none
  | fuel + 1, c =>
    if c.readBuffer.remaining = [] then some (.ok c)
    else
      match c.replyScanner.scan c.readBuffer.remaining with
      | (.ok .needMoreData, replyScanner) => some (.ok { c with replyScanner })
      | (.error err, replyScanner) =>
        fail handlers { c with replyScanner } "Failed to read data (buffer path)" err
      | (.ok .complete, replyScanner) =>
        match readValue floats c.readBuffer.remaining with
        | (.error err, _) =>
          fail handlers { c with replyScanner } "Failed to read data (buffer path)" err
        | (.ok value, left) =>
          let bytesConsumed := c.readBuffer.remaining.length - left.length
          if bytesConsumed = 0 then
            fail handlers { c with replyScanner }
              "Parser consumed 0 bytes unexpectedly (buffer path)" .invalidResponse
          -- `u32::try_from(bytes_consumed).expect("int cast")`
          else if 2 ^ 32 ≤ bytesConsumed then some .panic
          else
            handleResponse handlers socket
              { c with
                readBuffer := c.readBuffer.consume bytesConsumed
                replyScanner := {} }
              value (onDataBuffered socket fuel)

/-- Buffer is empty, try processing directly from stack 'data'. -/
@[grind] def onDataDirect (socket : Socket) : (fuel : Nat) → Connection F64 Client → Bytes →
    Returned F64 Client JsError
  | 0, _, _ => none
  | fuel + 1, c, data =>
    if data = [] then some (.ok c)
    else
      match readValue floats data with
      | (.error err, _) =>
        if err = .invalidResponse then
          some (.ok { c with replyScanner := {}, readBuffer := c.readBuffer.write data })
        else fail handlers c "Failed to read data (stack path)" err
      | (.ok value, left) =>
        if data.length - left.length = 0 then
          fail handlers c "Parser consumed 0 bytes unexpectedly (stack path)" .invalidResponse
        else
          handleResponse handlers socket c value fun c => onDataDirect socket fuel c left

def onData (fuel : Nat) (c : Connection F64 Client) (data : Bytes) : Returned F64 Client JsError :=
  let socket := handlers.socket c.client
  if c.readBuffer.remaining ≠ [] then
    onDataBuffered floats handlers socket fuel { c with readBuffer := c.readBuffer.write data }
  else onDataDirect floats handlers socket fuel c data

/-- One chunk after the other, until a call does not return as it should. -/
def run (fuel : Nat) (c : Connection F64 Client) : List Bytes → Returned F64 Client JsError
  | [] => some (.ok c)
  | data :: chunks =>
    match onData floats handlers fuel c data with
    | some (.ok c) => run fuel c chunks
    | returned => returned

/-! ## A turn of the loops -/

section Turn
variable {handlers} {socket : Socket} {c : Connection F64 Client}

/-- Handlers that do not close the socket. -/
structure KeepsOpen (handlers : Handlers F64 Client Socket JsError) : Prop where
  handleResponse : ∀ value client, ∃ client',
    handlers.handleResponse value client = (.ok (), client') ∧
      handlers.socket client' = handlers.socket client
  sendNextCommand : ∀ client,
    handlers.socket (handlers.sendNextCommand client) = handlers.socket client

/-- The client after a value. -/
def serve (handlers : Handlers F64 Client Socket JsError) (client : Client)
    (value : RESPValue F64) : Client :=
  handlers.sendNextCommand (handlers.handleResponse value client).2

omit [DecidableEq Socket] in
theorem KeepsOpen.socket_serve (h : KeepsOpen handlers) (client : Client) (value : RESPValue F64) :
    handlers.socket (serve handlers client value) = handlers.socket client := by
  obtain ⟨client', hhandle, hsocket⟩ := h.handleResponse value client
  rw [serve, h.sendNextCommand, hhandle, hsocket]

theorem KeepsOpen.handleResponse_eq (h : KeepsOpen handlers)
    (hsocket : handlers.socket c.client = socket) (value : RESPValue F64)
    (next : Connection F64 Client → Returned F64 Client JsError) :
    Connection.handleResponse handlers socket c value next =
      next { c with client := serve handlers c.client value, handled := c.handled ++ [value] } := by
  obtain ⟨client', hhandle, hsocket'⟩ := h.handleResponse value c.client
  rw [Connection.handleResponse, serve, hhandle]
  dsimp only
  rw [if_neg (not_not.mpr (hsocket'.trans hsocket))]

variable {frame : Bytes × RESPValue F64} {s : ReplyScanner} {buffer : Bytes} {fuel : Nat}

theorem ne_nil_of_complete (h : (readValue floats).Complete frame) : frame.1 ≠ [] := by
  intro hnil
  have hread : readValue floats frame.1 = (.ok frame.2, []) := h
  rw [hnil] at hread
  exact absurd (Prod.mk.inj hread).1 (by simp)

theorem outcome_complete (h : (readValue floats).Complete frame) (rest : Bytes) :
    ReplyScanner.outcome (ReplyScanner.scan {} (frame.1 ++ rest)) = .ok (some frame.1.length) := by
  rw [ReplyScanner.scan_of_readValue floats ((stable_readValue floats).read_complete h rest),
    List.length_append, Nat.add_sub_cancel]

theorem outcome_incomplete {start : Bytes} (h : (readValue floats).Incomplete start) :
    ReplyScanner.outcome (ReplyScanner.scan {} start) = .ok none := by
  obtain ⟨extra, frame, hextra, hcomplete⟩ := h
  obtain ⟨⟨⟩, hskip⟩ := (skips_readValue floats).of_ok hcomplete
  obtain ⟨left, hleft⟩ :=
    (ReplyScanner.stable_skipAt maxNestingDepth).error_more_of_isPrefix hskip hextra
  rw [ReplyScanner.scan_outcome, hleft]
  rfl

/-- A scanner in place of a fresh one. -/
def AsFreshAt (s : ReplyScanner) (buffer : Bytes) : Prop := ∃ seen, seen <+: buffer ∧ s.AsFresh seen

theorem AsFreshAt.init (buffer : Bytes) : AsFreshAt {} buffer := ⟨[], List.nil_prefix, .init⟩

theorem AsFreshAt.outcome_eq (h : AsFreshAt s buffer) :
    ReplyScanner.outcome (s.scan buffer) = ReplyScanner.outcome (ReplyScanner.scan {} buffer) := by
  obtain ⟨seen, ⟨extra, rfl⟩, hfresh⟩ := h
  exact hfresh.outcome_eq extra

theorem AsFreshAt.append (h : AsFreshAt s buffer) (extra : Bytes) : AsFreshAt s (buffer ++ extra) := by
  obtain ⟨seen, hseen, hfresh⟩ := h
  exact ⟨seen, hseen.trans (List.prefix_append _ _), hfresh⟩

theorem AsFreshAt.scan (h : AsFreshAt s buffer)
    (hopen : ReplyScanner.outcome (ReplyScanner.scan {} buffer) = .ok none) :
    AsFreshAt (s.scan buffer).2 buffer := by
  obtain ⟨seen, hseen, hfresh⟩ := h
  refine ⟨buffer, List.prefix_refl _, hfresh.scan hseen fun n hn => ?_⟩
  rw [hopen] at hn
  exact absurd (Except.ok.inj hn) (by simp)

theorem onDataBuffered_nil (h : c.readBuffer.remaining = []) :
    onDataBuffered floats handlers socket (fuel + 1) c = some (.ok c) := by
  rw [onDataBuffered, if_pos h]

/-- The start of a reply stays in the buffer. -/
theorem onDataBuffered_incomplete (hne : c.readBuffer.remaining ≠ [])
    (hscanner : AsFreshAt c.replyScanner c.readBuffer.remaining)
    (h : (readValue floats).Incomplete c.readBuffer.remaining) :
    onDataBuffered floats handlers socket (fuel + 1) c =
      some (.ok { c with replyScanner := (c.replyScanner.scan c.readBuffer.remaining).2 }) := by
  have houtcome := hscanner.outcome_eq.trans (outcome_incomplete floats h)
  rw [onDataBuffered, if_neg hne]
  cases hscan : c.replyScanner.scan c.readBuffer.remaining with
  | mk result scanner =>
    rw [hscan] at houtcome
    match result with
    | .ok .needMoreData => rfl
    | .ok .complete => exact absurd (Except.ok.inj houtcome) (by simp)
    | .error err => exact absurd houtcome (by simp [ReplyScanner.outcome])

/-- A reply at the front of the buffer is handled, or is too long. -/
theorem onDataBuffered_complete {rest : Bytes} (hremaining : c.readBuffer.remaining = frame.1 ++ rest)
    (hscanner : AsFreshAt c.replyScanner c.readBuffer.remaining) (h : (readValue floats).Complete frame) :
    onDataBuffered floats handlers socket (fuel + 1) c =
      if 2 ^ 32 ≤ frame.1.length then some .panic
      else
        handleResponse handlers socket
          { c with readBuffer := c.readBuffer.consume frame.1.length, replyScanner := {} }
          frame.2 (onDataBuffered floats handlers socket fuel) := by
  have hframe := ne_nil_of_complete floats h
  have houtcome := hscanner.outcome_eq
  rw [hremaining, outcome_complete floats h] at houtcome
  have hconsumed : (frame.1 ++ rest).length - rest.length = frame.1.length := by
    rw [List.length_append, Nat.add_sub_cancel]
  rw [onDataBuffered, hremaining, if_neg (List.append_ne_nil_of_left_ne_nil hframe rest)]
  cases hscan : c.replyScanner.scan (frame.1 ++ rest) with
  | mk result scanner =>
    rw [hscan] at houtcome
    match result with
    | .ok .needMoreData => exact absurd (Except.ok.inj houtcome) (by simp)
    | .error err => exact absurd houtcome (by simp [ReplyScanner.outcome])
    | .ok .complete =>
      rw [(stable_readValue floats).read_complete h rest]
      dsimp only
      rw [hconsumed, if_neg (List.length_eq_zero_iff.not.mpr hframe)]

theorem onDataDirect_incomplete {data : Bytes} (hne : data ≠ [])
    (h : (readValue floats).Incomplete data) :
    onDataDirect floats handlers socket (fuel + 1) c data =
      some (.ok { c with replyScanner := {}, readBuffer := c.readBuffer.write data }) := by
  obtain ⟨left, hleft⟩ := (stable_readValue floats).read_incomplete h
  rw [onDataDirect, if_neg hne, hleft]
  rfl

theorem onDataDirect_complete (h : (readValue floats).Complete frame) (rest : Bytes) :
    onDataDirect floats handlers socket (fuel + 1) c (frame.1 ++ rest) =
      handleResponse handlers socket c frame.2
        fun c => onDataDirect floats handlers socket fuel c rest := by
  have hframe := ne_nil_of_complete floats h
  rw [onDataDirect, if_neg (List.append_ne_nil_of_left_ne_nil hframe rest),
    (stable_readValue floats).read_complete h rest]
  dsimp only
  rw [List.length_append, Nat.add_sub_cancel, if_neg (List.length_eq_zero_iff.not.mpr hframe)]

end Turn

/-! ## The loops -/

section Loops
variable {handlers} {c : Connection F64 Client}

/-- What a connection keeps: the start of a reply, and room for the replies to come. -/
structure Pending (frames : List (Bytes × RESPValue F64)) (c : Connection F64 Client)
    (start : Bytes) : Prop where
  remaining : c.readBuffer.remaining = start
  scanner : AsFreshAt c.replyScanner start
  room : ∀ frame ∈ frames, c.readBuffer.head + frame.1.length < 2 ^ 32

/-- The replies that were handled on the way from one state to another. -/
structure Handled (handlers : Handlers F64 Client Socket JsError)
    (frames : List (Bytes × RESPValue F64)) (c c' : Connection F64 Client) : Prop where
  handled : c'.handled = c.handled ++ frames.map (·.2)
  client : c'.client = frames.foldl (fun client frame => serve handlers client frame.2) c.client

variable {c' mid : Connection F64 Client} {frame : Bytes × RESPValue F64}
  {before : List (Bytes × RESPValue F64)} {fuel : Nat} {data : Bytes}

omit [DecidableEq Socket] in
theorem Handled.nil (hhandled : c'.handled = c.handled) (hclient : c'.client = c.client) :
    Handled handlers [] c c' :=
  ⟨by rw [hhandled, List.map_nil, List.append_nil], hclient⟩

omit [DecidableEq Socket] in
theorem Handled.cons {frames : List (Bytes × RESPValue F64)}
    (hhandled : mid.handled = c.handled ++ [frame.2])
    (hclient : mid.client = serve handlers c.client frame.2) (h : Handled handlers frames mid c') :
    Handled handlers (frame :: frames) c c' where
  handled := by rw [h.handled, hhandled, List.append_assoc]; rfl
  client := by rw [h.client, hclient]; rfl

omit [DecidableEq Socket] in
theorem Handled.trans {frames frames' : List (Bytes × RESPValue F64)} (h : Handled handlers frames c mid)
    (h' : Handled handlers frames' mid c') : Handled handlers (frames ++ frames') c c' where
  handled := by rw [h'.handled, h.handled, List.map_append, List.append_assoc]
  client := by rw [h'.client, h.client, List.foldl_append]

variable {frames : List (Bytes × RESPValue F64)} {start : Bytes} {room : Nat}

/-- The replies in the buffer are handled; each leaves no more behind than came in last. -/
theorem onDataBuffered_frames (hopen : KeepsOpen handlers) (hroom : 0 < room)
    (hframes : ∀ frame ∈ frames, frame.1.length + room ≤ 2 ^ 32)
    (hstart : (readValue floats).Incomplete start)
    (hbefore : ∀ frame ∈ before, frame ∈ frames ∧ (readValue floats).Complete frame)
    (hfuel : before.length < fuel)
    (hrest : (before.tail.flatMap (·.1) ++ start).length ≤ room ∨ before = [])
    (hpending : Pending frames c (before.flatMap (·.1) ++ start)) :
    ∃ c', onDataBuffered floats handlers (handlers.socket c.client) fuel c = some (.ok c') ∧
      Handled handlers before c c' ∧ Pending frames c' start := by
  induction before generalizing c fuel with
  | nil =>
    obtain ⟨fuel, rfl⟩ := Nat.exists_eq_add_one_of_ne_zero (Nat.ne_of_gt (Nat.zero_lt_of_lt hfuel))
    rw [List.flatMap_nil, List.nil_append] at hpending
    by_cases hne : start = []
    · refine ⟨c, onDataBuffered_nil floats (hpending.remaining.trans hne), .nil rfl rfl, hpending⟩
    · rw [← hpending.remaining] at hne hstart
      have hscanner := hpending.scanner
      rw [← hpending.remaining] at hscanner
      refine ⟨_, onDataBuffered_incomplete floats hne hscanner hstart, .nil rfl rfl, ?_⟩
      refine ⟨hpending.remaining, ?_, hpending.room⟩
      rw [← hpending.remaining]
      exact hscanner.scan (outcome_incomplete floats hstart)
  | cons frame before ih =>
    obtain ⟨fuel, rfl⟩ := Nat.exists_eq_add_one_of_ne_zero (Nat.ne_of_gt (Nat.zero_lt_of_lt hfuel))
    obtain ⟨hmem, hcomplete⟩ := hbefore frame List.mem_cons_self
    have hremaining := hpending.remaining
    rw [List.flatMap_cons, List.append_assoc] at hremaining
    have hscanner := hpending.scanner
    rw [← hpending.remaining] at hscanner
    have hlen := hpending.room frame hmem
    have hrest' : (before.flatMap (·.1) ++ start).length ≤ room :=
      hrest.resolve_right (List.cons_ne_nil _ _)
    have hconsume : (c.readBuffer.consume frame.1.length).remaining =
        before.flatMap (·.1) ++ start := by
      rw [OffsetByteList.remaining_consume_of_lt hlen, hremaining, List.drop_left]
    obtain ⟨c', hrun, hhandled, hpending'⟩ := ih
      (c := { c with
        readBuffer := c.readBuffer.consume frame.1.length
        replyScanner := {}
        client := serve handlers c.client frame.2
        handled := c.handled ++ [frame.2] })
      (fun f hf => hbefore f (List.mem_cons_of_mem _ hf)) (Nat.lt_of_succ_lt_succ hfuel)
      (by
        cases before with
        | nil => exact .inr rfl
        | cons next before =>
          refine .inl (Nat.le_trans ?_ hrest')
          rw [List.flatMap_cons, List.append_assoc]
          exact (List.suffix_append _ _).length_le)
      ⟨hconsume, .init _, fun f hf => by
        have hf' := hframes f hf
        have hhead := OffsetByteList.head_consume (l := c.readBuffer) frame.1.length
        rw [hconsume] at hhead
        dsimp only
        omega⟩
    refine ⟨c', ?_, .cons rfl rfl hhandled, hpending'⟩
    rw [onDataBuffered_complete floats hremaining hscanner hcomplete, if_neg (by omega)]
    refine (hopen.handleResponse_eq rfl _ _).trans ?_
    rw [← hrun, hopen.socket_serve]

/-- The replies in the data are handled. -/
theorem onDataDirect_frames (hopen : KeepsOpen handlers) (hroom : 0 < room)
    (hframes : ∀ frame ∈ frames, frame.1.length + room ≤ 2 ^ 32)
    (hstart : (readValue floats).Incomplete start)
    (hbefore : ∀ frame ∈ before, (readValue floats).Complete frame) (hfuel : before.length < fuel)
    (hempty : c.readBuffer = {}) (hscanner : AsFreshAt c.replyScanner []) :
    ∃ c', onDataDirect floats handlers (handlers.socket c.client) fuel c
        (before.flatMap (·.1) ++ start) = some (.ok c') ∧
      Handled handlers before c c' ∧ Pending frames c' start := by
  have hhead : ∀ frame ∈ frames, 0 + frame.1.length < 2 ^ 32 := by
    intro frame hframe
    have hle := hframes frame hframe
    omega
  induction before generalizing c fuel with
  | nil =>
    obtain ⟨fuel, rfl⟩ := Nat.exists_eq_add_one_of_ne_zero (Nat.ne_of_gt (Nat.zero_lt_of_lt hfuel))
    rw [List.flatMap_nil, List.nil_append]
    by_cases hne : start = []
    · subst hne
      refine ⟨c, rfl, .nil rfl rfl, ?_, hscanner, ?_⟩
      · rw [hempty]
        rfl
      · rw [hempty]
        exact hhead
    · refine ⟨_, onDataDirect_incomplete floats hne hstart, .nil rfl rfl, ?_, .init _, ?_⟩
      · rw [hempty, OffsetByteList.remaining_write]
        rfl
      · rw [hempty]
        exact hhead
  | cons frame before ih =>
    obtain ⟨fuel, rfl⟩ := Nat.exists_eq_add_one_of_ne_zero (Nat.ne_of_gt (Nat.zero_lt_of_lt hfuel))
    obtain ⟨c', hrun, hhandled, hpending⟩ := ih
      (c := { c with
        client := serve handlers c.client frame.2
        handled := c.handled ++ [frame.2] })
      (fun f hf => hbefore f (List.mem_cons_of_mem _ hf)) (Nat.lt_of_succ_lt_succ hfuel)
      hempty hscanner
    refine ⟨c', ?_, .cons rfl rfl hhandled, hpending⟩
    rw [List.flatMap_cons, List.append_assoc,
      onDataDirect_complete floats (hbefore frame List.mem_cons_self)]
    refine (hopen.handleResponse_eq rfl _ _).trans ?_
    rw [← hrun, hopen.socket_serve]

theorem onData_of_empty (h : c.readBuffer.remaining = []) :
    onData floats handlers fuel c data =
      onDataDirect floats handlers (handlers.socket c.client) fuel c data :=
  if_neg (not_not.mpr h)

theorem onData_of_remaining (h : c.readBuffer.remaining ≠ []) :
    onData floats handlers fuel c data =
      onDataBuffered floats handlers (handlers.socket c.client) fuel
        { c with readBuffer := c.readBuffer.write data } :=
  if_pos h

/-- A chunk after the start of a reply. -/
theorem onData_frames (hopen : KeepsOpen handlers) {chunk start' : Bytes} (hne : chunk ≠ [])
    (hframes : ∀ frame ∈ frames, frame.1.length + chunk.length ≤ 2 ^ 32)
    (hstart : (readValue floats).Incomplete start) (hstart' : (readValue floats).Incomplete start')
    (hbefore : ∀ frame ∈ before, frame ∈ frames ∧ (readValue floats).Complete frame)
    (hfuel : before.length < fuel) (hpending : Pending frames c start)
    (hcut : start ++ chunk = before.flatMap (·.1) ++ start') :
    ∃ c', onData floats handlers fuel c chunk = some (.ok c') ∧
      Handled handlers before c c' ∧ Pending frames c' start' := by
  have hroom := List.length_pos_iff.mpr hne
  by_cases hnil : c.readBuffer.remaining = []
  · obtain rfl := hpending.remaining.symm.trans hnil
    rw [List.nil_append] at hcut
    rw [onData_of_empty floats hnil, hcut]
    exact onDataDirect_frames floats hopen hroom hframes hstart' (fun f hf => (hbefore f hf).2)
      hfuel (OffsetByteList.eq_empty_of_remaining _ hnil) hpending.scanner
  · have hpending' : Pending frames { c with readBuffer := c.readBuffer.write chunk }
        (before.flatMap (·.1) ++ start') := by
      rw [← hcut, ← hpending.remaining]
      refine ⟨OffsetByteList.remaining_write _ _, ?_, hpending.room⟩
      rw [hpending.remaining]
      exact hpending.scanner.append chunk
    have hrest : (before.tail.flatMap (·.1) ++ start').length ≤ chunk.length ∨ before = [] := by
      cases before with
      | nil => exact .inr rfl
      | cons frame before =>
        rw [List.flatMap_cons, List.append_assoc] at hcut
        have hle := (stable_readValue floats).length_le_complete hstart
          (hbefore frame List.mem_cons_self).2 hcut
        have hlen := congrArg List.length hcut
        rw [List.length_append, List.length_append] at hlen
        refine .inl ?_
        rw [List.tail_cons]
        omega
    obtain ⟨c', hrun, hhandled, hpending''⟩ := onDataBuffered_frames floats hopen hroom hframes
      hstart' hbefore hfuel hrest hpending'
    rw [onData_of_remaining floats hnil]
    exact ⟨c', hrun, ⟨hhandled.handled, hhandled.client⟩, hpending''⟩

/-- Chunk after chunk. -/
theorem run_frames (hopen : KeepsOpen handlers) {chunks : List Bytes} {tail : Bytes}
    (hne : ∀ chunk ∈ chunks, chunk ≠ [])
    (hframes : ∀ frame ∈ frames, ∀ chunk ∈ chunks, frame.1.length + chunk.length ≤ 2 ^ 32)
    (hstart : (readValue floats).Incomplete start) (htail : (readValue floats).Incomplete tail)
    {after : List (Bytes × RESPValue F64)}
    (hafter : ∀ frame ∈ after, frame ∈ frames ∧ (readValue floats).Complete frame)
    (hfuel : after.length < fuel) (hpending : Pending frames c start)
    (hcut : start ++ chunks.flatten = after.flatMap (·.1) ++ tail) :
    ∃ c', run floats handlers fuel c chunks = some (.ok c') ∧
      Handled handlers after c c' ∧ Pending frames c' tail := by
  induction chunks generalizing c start after with
  | nil =>
    rw [List.flatten_nil, List.append_nil] at hcut
    cases after with
    | nil =>
      obtain rfl : start = tail := hcut
      exact ⟨c, rfl, .nil rfl rfl, hpending⟩
    | cons frame after =>
      rw [List.flatMap_cons, List.append_assoc] at hcut
      exact absurd hcut ((stable_readValue floats).ne_append hstart
        (hafter frame List.mem_cons_self).2 _)
  | cons chunk chunks ih =>
    rw [List.flatten_cons, ← List.append_assoc] at hcut
    obtain ⟨before, after', start', rfl, hbefore, hstart', hafter'⟩ :=
      Reader.exists_cut (fun f hf => (hafter f hf).2) htail hcut
    rw [List.length_append] at hfuel
    obtain ⟨mid, hchunk, hhandled, hpending'⟩ := onData_frames floats hopen
      (hne chunk List.mem_cons_self)
      (fun f hf => hframes f hf chunk List.mem_cons_self) hstart hstart'
      (fun f hf => hafter f (List.mem_append_left _ hf)) (by omega : before.length < fuel)
      hpending hbefore
    obtain ⟨c', hrun, hhandled', hpending''⟩ := ih
      (fun ch hch => hne ch (List.mem_cons_of_mem _ hch))
      (fun f hf ch hch => hframes f hf ch (List.mem_cons_of_mem _ hch)) hstart'
      (fun f hf => hafter f (List.mem_append_right _ hf)) (by omega) hpending' hafter'
    refine ⟨c', ?_, hhandled.trans hhandled', hpending''⟩
    rw [run, hchunk]
    exact hrun

/-- A reply that comes in two chunks is counted in a `u32`. -/
theorem run_long (h : (readValue floats).Complete frame) (hlen : 2 ^ 32 ≤ frame.1.length)
    {front back : Bytes} (hfront : front ≠ []) (hback : back ≠ []) (hcut : front ++ back = frame.1)
    (client : Client) (fuel : Nat) :
    run floats handlers (fuel + 1) { client } [front, back] = some .panic := by
  have hincomplete : (readValue floats).Incomplete front := ⟨back, frame.2, hback, by rwa [hcut]⟩
  have hfirst : onData floats handlers (fuel + 1) { client } front =
      some (.ok { client, readBuffer := ({} : OffsetByteList).write front }) := by
    rw [onData_of_empty floats OffsetByteList.remaining_empty]
    exact onDataDirect_incomplete floats hfront hincomplete
  have hkept : (({} : OffsetByteList).write front).remaining = front := by
    rw [OffsetByteList.remaining_write, OffsetByteList.remaining_empty, List.nil_append]
  have hwhole : ((({} : OffsetByteList).write front).write back).remaining = frame.1 ++ [] := by
    rw [OffsetByteList.remaining_write, hkept, hcut, List.append_nil]
  have hsecond : onData floats handlers (fuel + 1)
      { client, readBuffer := ({} : OffsetByteList).write front } back = some .panic := by
    rw [onData_of_remaining floats (by rwa [hkept]),
      onDataBuffered_complete floats hwhole (.init _) h, if_pos hlen]
  rw [run, hfirst]
  dsimp only
  rw [run, hsecond]

end Loops

section Nulls

def nulls : Nat → Bytes
  | 0 => []
  | n + 1 => 95 :: 13 :: 10 :: nulls n

theorem length_nulls (n : Nat) : (nulls n).length = 3 * n := by
  induction n with
  | zero => rfl
  | succ n ih =>
    rw [nulls, List.length_cons, List.length_cons, List.length_cons, ih]
    omega

theorem readValueAt_null (levels : Nat) (rest : Bytes) :
    readValueAt floats levels (95 :: 13 :: 10 :: rest) = (.ok .null, rest) := by
  have hline : readUntilCrlf 0 (13 :: 10 :: rest) = (.ok [], rest) :=
    readUntilCrlf_append List.not_mem_nil (Nat.zero_le _) rest
  have hnull : ∀ child, readWith floats child (95 :: 13 :: 10 :: rest) = (.ok .null, rest) := by
    intro child
    change ((readUntilCrlf 0).bind _) (13 :: 10 :: rest) = _
    rw [Reader.bind_of_ok hline]
    rfl
  cases levels with
  | zero => exact hnull _
  | succ levels => exact hnull _

theorem many_nulls (levels n : Nat) (rest : Bytes) :
    Reader.many (readValueAt floats levels) n (nulls n ++ rest) =
      (.ok (List.replicate n .null), rest) := by
  induction n with
  | zero => rfl
  | succ n ih =>
    rw [Reader.many, nulls, List.cons_append, List.cons_append, List.cons_append,
      Reader.bind_of_ok (readValueAt_null floats levels _)]
    exact Reader.map_eq_ok.2 ⟨_, ih, rfl⟩

theorem complete_nulls {digits : Bytes} {n : Nat} (hdigits : parseInt64 digits = some (n : Int))
    (hline : 13 ∉ digits) (hlen : digits.length ≤ maxLineLen) :
    (readValue floats).Complete
      (42 :: (digits ++ 13 :: 10 :: nulls n), .array (List.replicate n .null)) := by
  have hmany := many_nulls floats 127 n []
  rw [List.append_nil] at hmany
  have hint : readInteger 0 (digits ++ 13 :: 10 :: nulls n) = (.ok (n : Int), nulls n) := by
    rw [readInteger, Reader.bind_of_ok (readUntilCrlf_append hline hlen _), hdigits]
    rfl
  change ((readInteger 0).bind _) (digits ++ 13 :: 10 :: nulls n) = _
  rw [Reader.bind_of_ok hint]
  dsimp only
  rw [if_neg (by decide), if_neg (by omega), Int.toNat_natCast]
  exact Reader.map_eq_ok.2 ⟨_, hmany, rfl⟩

end Nulls

end Connection

end OhosBun.Valkey
