/-
# `OhosBun.WebSocket.Segments` — however a stream is cut into reads

The loop comes to its end, of a client that is alive as of one that is not, and leaves the client
where the receiver is after the bytes of the read (`Stands.handleData`).  So two ways of cutting a
stream come to the same, unless a read meets a close frame of whose payload no byte or one is
there (`CutInClose`).
-/
import OhosBun.WebSocket.Reads

namespace OhosBun.WebSocket

open OhosBun.Lib

namespace Connection
variable {δ : Type} {c d e : Connection δ}

/-- A connection that was dead still is, and nothing was seen of it. -/
def Lifeless (c d : Connection δ) : Prop := c.Dead → d.Dead ∧ c.Silent d

theorem lifeless_sendPong (env : Env δ) (c : Connection δ) (payload : Bytes) :
    c.Lifeless (c.sendPong env payload) := fun hdead => by
  rw [hdead.sendPong env payload]
  exact ⟨hdead, .refl c⟩

theorem Lifeless.refl (c : Connection δ) : c.Lifeless c := fun h => ⟨h, .refl c⟩

theorem Lifeless.trans (h : c.Lifeless d) (h' : d.Lifeless e) : c.Lifeless e := fun hdead =>
  ⟨(h' (h hdead).1).1, (h hdead).2.trans (h' (h hdead).1).2⟩

end Connection

namespace Client
variable {δ : Type} {env : Env δ} {c : Client δ} {cursor : RecvCursor} {r : Receiver δ}

/-! ## The loop comes to its end -/

def weight : ReceiveState → Nat
  | .needHeader => 0
  | .extendedPayloadLength16 | .extendedPayloadLength64 => 2
  | _ => 1

theorem weight_le (state : ReceiveState) : weight state ≤ 2 := by
  cases state <;> decide

def turnsLeft (cursor : RecvCursor) : Nat := 3 * cursor.data.length + weight cursor.state

/-- The turn does not panic, nothing is seen of a connection that is dead, and if the loop goes on
it is nearer its end. -/
structure Proceeds (c : Client δ) (cursor : RecvCursor) (result : Client δ × RecvCursor × Step) :
    Prop where
  lifeless : c.connection.Lifeless result.1.connection
  noPanic : result.2.2 ≠ .panicked
  nearer : result.2.2 = .again → turnsLeft result.2.1 < turnsLeft cursor
  more : result.2.2 = .again → result.2.1.state = .needHeader → result.2.1.data ≠ []

variable {c' : Client δ} {cursor' : RecvCursor}

theorem proceeds_stop {step : Step} (hlifeless : c.connection.Lifeless c'.connection)
    (h : step = .needMoreData ∨ step = .terminated) : Proceeds c cursor (c', cursor', step) := by
  rcases h with rfl | rfl
  · exact ⟨hlifeless, Step.noConfusion, Step.noConfusion, Step.noConfusion⟩
  · exact ⟨hlifeless, Step.noConfusion, Step.noConfusion, Step.noConfusion⟩

theorem proceeds_again (hlifeless : c.connection.Lifeless c'.connection)
    (h : turnsLeft cursor' < turnsLeft cursor) (hmore : cursor'.state = .needHeader → cursor'.data ≠ []) :
    Proceeds c cursor (c', cursor', .again) :=
  ⟨hlifeless, Step.noConfusion, fun _ => h, fun _ => hmore⟩

theorem proceeds_rest (hlifeless : c.connection.Lifeless c'.connection)
    (h : cursor'.data ≠ [] → turnsLeft cursor' < turnsLeft cursor) :
    Proceeds c cursor (c', cursor', if cursor'.data = [] then .needMoreData else .again) := by
  split
  next => exact proceeds_stop hlifeless (.inl rfl)
  next hrest => exact proceeds_again hlifeless (h hrest) fun _ => hrest

theorem proceeds_recvFailed (cursor' : RecvCursor) (code : ErrorCode) (h : c'.connection = c.connection) :
    Proceeds c cursor (c'.recvFailed cursor' code) := by
  refine proceeds_stop (fun hdead => ?_) (.inr rfl)
  exact h ▸ hdead.fail code

/-- All of it is consumed. -/
theorem consume_all (c : Client δ) (data : Bytes) (left : Nat) (kind : Opcode) (isFinal : Bool) :
    (c.consume env data left kind isFinal).1 = data.length ∧
    c.connection.Lifeless (c.consume env data left kind isFinal).2.connection := by
  by_cases hlast : data.length = left ∧ isFinal = true
  · obtain ⟨rfl, rfl⟩ := hlast
    obtain ⟨hconsumed, hdispatched⟩ := dispatched_consume c data kind
    refine ⟨hconsumed, fun hdead => ?_⟩
    rw [hdispatched.connection_eq]
    exact hdead.dispatchMessage env _ _ _
  · obtain ⟨remain, hconsume⟩ := consume_of_more c kind
      (fun hlen => Bool.eq_false_iff.mpr fun hfinal => hlast ⟨hlen, hfinal⟩)
    rw [hconsume]
    exact ⟨rfl, .refl _⟩

theorem proceeds_recvHeader (hsame : c'.connection = c.connection) (cursor' : RecvCursor) (a b : UInt8)
    (h : cursor'.data.length < cursor.data.length) :
    Proceeds c cursor (c'.recvHeader env cursor' a b) := by
  have hlt : ∀ cursor'' : RecvCursor, cursor''.data = cursor'.data →
      turnsLeft cursor'' < turnsLeft cursor := by
    intro cursor'' hdata
    have hweight := weight_le cursor''.state
    rw [turnsLeft, turnsLeft, hdata]
    omega
  obtain ⟨hnext, -⟩ := parseWebsocketHeader_next a b
  rw [recvHeader]
  generalize parseWebsocketHeader a b = header at hnext
  dsimp only
  generalize (decide (header.opcode = .text) || decide (header.opcode = .binary)) = isMessage
  refine iteInduction (fun _ => proceeds_recvFailed _ _ hsame) fun _ => ?_
  refine iteInduction (fun _ => proceeds_recvFailed _ _ hsame) fun _ => ?_
  refine iteInduction (fun _ => proceeds_recvFailed _ _ hsame) fun _ => ?_
  generalize hopened : (if (decide (header.opcode = .continuation) || isMessage) = true then
    ({ c' with receive := { c'.receive with receivingIsFinal := header.isFinal } } : Client δ)
    else c') = opened
  have hopen : opened.connection = c.connection := by
    rw [← hopened, ← hsame]
    split
    · rfl
    · rfl
  refine iteInduction (fun _ => proceeds_recvFailed _ _ hopen) fun _ => ?_
  refine iteInduction (fun _ => proceeds_recvFailed _ _ hopen) fun _ => ?_
  refine iteInduction (fun _ => proceeds_recvFailed _ _ hopen) fun _ => ?_
  generalize hbegun : (if isMessage = true then
    ({ opened with
      receive :=
        { opened.receive with
          messageIsCompressed := header.compressed
          receivingCompressed := header.compressed } } : Client δ)
    else if header.opcode = .continuation then
      { opened with
        receive := { opened.receive with receivingCompressed := opened.receive.messageIsCompressed } }
    else opened) = begun
  have hbegin : begun.connection = c.connection := by
    rw [← hbegun, ← hopen]
    split
    · rfl
    · split
      · rfl
      · rfl
  generalize hcursor : (if isMessage = true then
    ({ cursor' with
      state := header.next
      bodyRemain := header.payloadLen
      isFinal := header.isFinal
      lastDataType := header.opcode } : RecvCursor)
    else
      { cursor' with
        state := header.next
        bodyRemain := header.payloadLen
        isFinal := header.isFinal }) = moved
  have hmoved : moved.data = cursor'.data ∧ moved.state = header.next := by
    rw [← hcursor]
    split
    · exact ⟨rfl, rfl⟩
    · exact ⟨rfl, rfl⟩
  split
  next =>
    refine proceeds_rest ?_ (fun _ => hlt _ (by exact hmoved.1))
    rw [← hbegin]
    exact (consume_all begun [] 0 moved.lastDataType true).2
  next =>
    refine proceeds_again (hbegin ▸ .refl _) (hlt _ hmoved.1) fun hheader => ?_
    exact absurd (hmoved.2.symm.trans hheader) hnext

/-- What is gathered of a control payload. -/
theorem bufferControlPayload_same (c : Client δ) (cursor : RecvCursor) :
    (c.bufferControlPayload cursor).2.1.connection = c.connection ∧
    (c.bufferControlPayload cursor).2.2.data.length ≤ cursor.data.length := by
  have hstart : (c.startControl cursor).1.connection = c.connection ∧
      (c.startControl cursor).2.data = cursor.data := by
    rw [startControl]
    split
    · exact ⟨rfl, rfl⟩
    · exact ⟨rfl, rfl⟩
  have hgather : ∀ (c' : Client δ) (cursor' : RecvCursor),
      (c'.gatherControl cursor').1.connection = c'.connection ∧
      (c'.gatherControl cursor').2.data.length ≤ cursor'.data.length := by
    intro c' cursor'
    rw [gatherControl]
    split
    · exact ⟨rfl, le_refl _⟩
    · refine ⟨rfl, ?_⟩
      dsimp only
      rw [List.length_drop]
      exact Nat.sub_le _ _
  have hgathered := hgather (c.startControl cursor).1 (c.startControl cursor).2
  rw [hstart.1, hstart.2] at hgathered
  rw [bufferControlPayload]
  dsimp only
  split
  · exact hgathered
  · exact hgathered

theorem proceeds_recvPingOrPong (c : Client δ) (opcode : Opcode) (h : 0 < weight cursor.state) :
    Proceeds c cursor (c.recvPingOrPong env cursor opcode) := by
  obtain ⟨hsame, hdata⟩ := bufferControlPayload_same c cursor
  rw [recvPingOrPong]
  split
  next => exact proceeds_recvFailed _ _ rfl
  split
  next hgathered =>
    rw [hgathered] at hsame
    exact proceeds_stop (hsame ▸ .refl _) (.inl rfl)
  next payload c' cursor' hgathered =>
    rw [hgathered] at hsame hdata
    dsimp only at hsame hdata
    have hdispatch : c'.connection.Lifeless (c'.connection.dispatchData env payload opcode) :=
      fun hdead => hdead.dispatchData env payload opcode
    refine proceeds_rest ?_ fun _ => ?_
    · rw [← hsame]
      split
      · exact hdispatch.trans (Connection.lifeless_sendPong env _ _)
      · exact hdispatch
    · have hle : 3 * cursor'.data.length ≤ 3 * cursor.data.length := Nat.mul_le_mul_left 3 hdata
      exact Nat.lt_of_le_of_lt hle (Nat.lt_add_of_pos_right h)

/-- Whatever the client, and alive or not. -/
theorem proceeds_step (c : Client δ) (hmore : cursor.state = .needHeader → cursor.data ≠ []) :
    Proceeds c cursor (c.step env cursor) := by
  have hbuffer := bufferControlPayload_same c cursor
  have hlifeless : ∀ connection : Connection δ, connection = c.connection →
      c.connection.Lifeless connection := by
    rintro _ rfl
    exact .refl _
  rw [step]
  cases hstate : cursor.state with
  | needHeader =>
    have hne := hmore hstate
    dsimp only
    rw [recvFrameHeader]
    split
    next hdata => exact absurd hdata hne
    next => exact proceeds_stop (.refl _) (.inl rfl)
    next a b rest _ hdata =>
      refine proceeds_recvHeader (by rfl) _ a b ?_
      rw [hdata]
      exact Nat.lt_succ_of_lt (Nat.lt_succ_self _)
    next hdata => exact absurd hdata hne
    next a b rest _ hdata =>
      refine proceeds_recvHeader (by rfl) _ a b ?_
      rw [hdata]
      exact Nat.lt_succ_self _
  | needMask | fail => exact proceeds_recvFailed _ _ rfl
  | needBody =>
    dsimp only
    rw [recvBody]
    dsimp only
    split
    next => exact proceeds_recvFailed _ _ rfl
    generalize htaken : min cursor.bodyRemain cursor.data.length = taken
    obtain ⟨hconsumed, hdead⟩ := consume_all c (cursor.data.take taken)
      cursor.bodyRemain cursor.lastDataType cursor.isFinal
    rw [hconsumed, List.length_take]
    refine proceeds_rest hdead fun hrest => ?_
    -- the rest of the read is not of this frame
    have hlt : taken < cursor.data.length := Nat.not_le.mp fun hle => hrest (List.drop_eq_nil_of_le hle)
    have hzero : cursor.bodyRemain - min taken cursor.data.length = 0 := by omega
    rw [turnsLeft, turnsLeft, hzero, if_pos rfl, hstate, List.length_drop]
    exact Nat.lt_succ_of_le (Nat.mul_le_mul_left 3 (Nat.sub_le _ _))
  | extendedPayloadLength16 | extendedPayloadLength64 =>
    dsimp only
    rw [recvExtendedPayloadLength]
    dsimp only
    split
    next => exact proceeds_stop (.refl _) (.inl rfl)
    split
    next => exact proceeds_stop (.refl _) (.inl rfl)
    split
    next => exact proceeds_recvFailed _ _ rfl
    next =>
      refine proceeds_again (.refl _) ?_ (fun hheader => ReceiveState.noConfusion hheader)
      rw [turnsLeft, turnsLeft, hstate, List.length_drop]
      exact Nat.lt_succ_of_le (Nat.add_le_add_right (Nat.mul_le_mul_left 3 (Nat.sub_le _ _)) 1)
  | ping => exact proceeds_recvPingOrPong c .ping (by rw [hstate]; decide)
  | pong => exact proceeds_recvPingOrPong c .pong (by rw [hstate]; decide)
  | close =>
    dsimp only
    rw [recvClose]
    split
    next => exact proceeds_recvFailed _ _ rfl
    dsimp only
    split
    next => exact proceeds_stop (fun hdead => hdead.sendCloseWithBody env _ _ _) (.inr rfl)
    obtain ⟨hsame, hdata⟩ := hbuffer
    split
    next hgathered =>
      rw [hgathered] at hsame
      exact proceeds_stop (hlifeless _ hsame) (.inl rfl)
    next payload c' cursor' hgathered =>
      rw [hgathered] at hsame
      split
      · refine proceeds_stop ?_ (.inr rfl)
        rw [← hsame]
        exact fun hdead => hdead.sendCloseWithBody env _ _ _
      · refine proceeds_stop ?_ (.inr rfl)
        rw [← hsame]
        exact fun hdead => hdead.sendCloseWithBody env _ _ _

/-! ## Reads -/

/-- Between reads. -/
structure Stands (env : Env δ) (c : Client δ) (r : Receiver δ) : Prop where
  silent : r.connection.Silent c.connection
  cases : c.Follows env (c.cursor []) r ∨ c.receive.closeReceived = true ∧ r.phase = .ended

theorem Stands.closed (closeReceived : c.receive.closeReceived = true) (ended : r.phase = .ended)
    (silent : r.connection.Silent c.connection) : c.Stands env r :=
  ⟨silent, .inr ⟨closeReceived, ended⟩⟩

/-- What is kept for the next read is where the client stands. -/
theorem Settled.stored (h : c.Settled env cursor r) :
    Stands env
      { c with
        receive :=
          { c.receive with
            receiveState := cursor.state
            receivingType := cursor.lastDataType
            receiveBodyRemain := cursor.bodyRemain } } r := by
  refine ⟨h.silent, .inl ?_⟩
  cases h.follows with
  | live valid view =>
    refine .live { valid with isFinal := fun _ => rfl, body := fun hbody hzero => ?_ } view
    rw [← valid.body hbody hzero, valid.isFinal (.inl hbody)]
    rfl
  | dead connection silent ended => exact .dead connection silent ended

/-- Where a client stands has nothing to do with what there is to read. -/
theorem Follows.withData (h : c.Follows env cursor r) (data : Bytes) :
    c.Follows env { cursor with data } r := by
  cases h with
  | live valid view => exact .live { valid with } view
  | dead connection silent ended => exact .dead connection silent ended

theorem loop_stands (turns : Nat) : ∀ {c : Client δ} {cursor : RecvCursor} {r : Receiver δ},
    c.Follows env cursor r → (cursor.state = .needHeader → cursor.data ≠ []) →
    (c.connection.outgoing = true → ¬ c.InCloseCode cursor) → turnsLeft cursor < turns →
    ∃ c', loop env turns c cursor = some c' ∧ c'.Stands env (r.bytes env cursor.data) := by
  induction turns with
  | zero => intro _ _ _ _ _ _ hturns; exact absurd hturns (Nat.not_lt_zero _)
  | succ turns ih =>
    intro c cursor r hfollows hmore hclean hturns
    have hproceeds := @proceeds_step _ env _ c hmore
    rw [loop]
    cases hfollows with
    | live valid view =>
      have hturn := @Valid.turn _ env _ _ valid hmore (hclean valid.alive.outgoing)
      rw [view] at hturn
      generalize c.step env cursor = result at hturn hproceeds
      cases hturn with
      | again taken hdata hfollows hmore' hclean' =>
        have hlt := hproceeds.nearer rfl
        obtain ⟨c', hloop, hstands⟩ := ih hfollows hmore' (fun _ => hclean')
          (Nat.lt_of_lt_of_le hlt (Nat.le_of_lt_succ hturns))
        refine ⟨c', hloop, ?_⟩
        rw [hdata, Receiver.bytes_append]
        exact hstands
      | needMoreData hsettled => exact ⟨_, rfl, hsettled.stored⟩
      | terminated hended hsilent => exact ⟨_, rfl, .closed rfl hended hsilent⟩
    | dead connection silent ended =>
      obtain ⟨hdead, hsilent⟩ := hproceeds.lifeless connection
      rw [Receiver.bytes_ended ended]
      generalize c.step env cursor = result at hproceeds hdead hsilent
      obtain ⟨c', cursor', step⟩ := result
      have hfollows : c'.Follows env cursor' r := .dead hdead (silent.trans hsilent) ended
      cases step with
      | again =>
        have hlt := hproceeds.nearer rfl
        obtain ⟨c'', hloop, hstands⟩ := ih hfollows (hproceeds.more rfl)
          (fun houtgoing => absurd houtgoing (by rw [hdead.outgoing]; decide))
          (Nat.lt_of_lt_of_le hlt (Nat.le_of_lt_succ hturns))
        rw [Receiver.bytes_ended ended] at hstands
        exact ⟨c'', hloop, hstands⟩
      | needMoreData =>
        have hsettled : c'.Settled env cursor' r := ⟨hfollows, silent.trans hsilent⟩
        exact ⟨_, rfl, hsettled.stored⟩
      | terminated => exact ⟨_, rfl, .closed rfl ended (silent.trans hsilent)⟩
      | panicked => exact absurd rfl hproceeds.noPanic

/-- A read would find a close frame here of whose payload no byte or one is there. -/
def CutInClose (c : Client δ) : Prop :=
  c.connection.outgoing = true ∧ c.receive.closeReceived = false ∧ c.receive.receiveState = .close ∧
    c.receive.controlFrameStarted = true ∧ c.receive.receiveBodyRemain ≤ 1

/-- A read takes a client where it takes a receiver. -/
theorem Stands.handleData (h : c.Stands env r) {data : Bytes} (hdata : data ≠ [])
    (hclean : ¬ c.CutInClose) :
    ∃ c', c.handleData env data = some c' ∧ c'.Stands env (r.bytes env data) := by
  rw [Client.handleData]
  rcases h.cases with hfollows | ⟨closeReceived, ended⟩
  · split
    next hclosed =>
      cases hfollows with
      | live valid view =>
        have hopen := valid.closeReceived
        rw [hclosed] at hopen
        exact absurd hopen (by decide)
      | dead connection silent ended =>
        rw [Receiver.bytes_ended ended]
        exact ⟨c, rfl, .closed hclosed ended silent⟩
    next hopen =>
      have hweight := weight_le (c.cursor data).state
      have hturns : turnsLeft (c.cursor data) < 3 * data.length + 3 := by
        change 3 * data.length + weight (c.cursor data).state < 3 * data.length + 3
        omega
      refine loop_stands _ (hfollows.withData data) (fun _ => hdata) (fun houtgoing hcode => ?_) hturns
      exact hclean ⟨houtgoing, Bool.eq_false_iff.mpr hopen, hcode⟩
  · rw [if_pos closeReceived, Receiver.bytes_ended ended]
    exact ⟨c, rfl, .closed closeReceived ended h.silent⟩

/-- No read of these meets a close frame just begun. -/
def Uncut (env : Env δ) : Client δ → List Bytes → Prop
  | _, [] => True
  | c, data :: reads =>
    ¬ c.CutInClose ∧ ∀ c' ∈ c.handleData env data, Uncut env c' reads

instance (c : Client δ) : Decidable c.CutInClose := by
  unfold CutInClose
  infer_instance

instance decidableUncut (env : Env δ) : ∀ (c : Client δ) (reads : List Bytes), Decidable (c.Uncut env reads)
  | _, [] => .isTrue trivial
  | c, data :: reads =>
    have : ∀ c' : Client δ, Decidable (c'.Uncut env reads) := fun c' => decidableUncut env c' reads
    inferInstanceAs (Decidable (¬ c.CutInClose ∧ ∀ c' ∈ c.handleData env data, c'.Uncut env reads))

theorem Stands.handleReads {reads : List Bytes} : ∀ {c : Client δ} {r : Receiver δ},
    c.Stands env r → (∀ data ∈ reads, data ≠ []) → Uncut env c reads →
    ∃ c', c.handleReads env reads = some c' ∧ c'.Stands env (r.bytes env reads.flatten) := by
  induction reads with
  | nil => exact fun h _ _ => ⟨_, rfl, h⟩
  | cons data reads ih =>
    intro c r h hne huncut
    obtain ⟨c₁, hread, hstands⟩ := h.handleData (hne data (List.mem_cons_self ..)) huncut.1
    obtain ⟨c₂, hreads, hstands'⟩ := ih hstands (fun data' hmem => hne data' (List.mem_cons_of_mem _ hmem))
      (huncut.2 c₁ hread)
    refine ⟨c₂, ?_, ?_⟩
    · rw [Client.handleReads, hread]
      exact hreads
    · rw [List.flatten_cons, Receiver.bytes_append]
      exact hstands'

/-! ## A stream, however it is cut -/

/-- Connected, and nothing read. -/
def fresh (connection : Connection δ) : Client δ := ⟨connection, {}⟩

theorem stands_fresh {connection : Connection δ} (h : connection.Alive) :
    (fresh connection).Stands env { connection } := by
  have hbetween : Between (fresh connection) :=
    { alive := h
      closeReceived := rfl
      fragment := rfl
      lengthBytes := rfl
      lengthLen := rfl
      started := rfl
      controlBytes := rfl }
  obtain ⟨hvalid, hview⟩ := @Between.valid_header _ _ _ ((fresh connection).cursor []) hbetween
    rfl
  exact ⟨.refl _, .inl (.live hvalid hview)⟩

/-- Two ways of cutting a stream come to the same events, bytes written and close to be reported. -/
theorem seen_of_uncut (env : Env δ) {connection : Connection δ} (halive : connection.Alive)
    {reads reads' : List Bytes} (hreads : ∀ data ∈ reads, data ≠ [])
    (hreads' : ∀ data ∈ reads', data ≠ []) (hsame : reads.flatten = reads'.flatten)
    (huncut : (fresh connection).Uncut env reads) (huncut' : (fresh connection).Uncut env reads') :
    ∃ c c', (fresh connection).handleReads env reads = some c ∧
      (fresh connection).handleReads env reads' = some c' ∧ c.connection.Silent c'.connection := by
  have hfresh := @stands_fresh _ env _ halive
  obtain ⟨c, hrun, hstands⟩ := hfresh.handleReads hreads huncut
  obtain ⟨c', hrun', hstands'⟩ := hfresh.handleReads hreads' huncut'
  refine ⟨c, c', hrun, hrun', ?_⟩
  rw [← hsame] at hstands'
  exact hstands.silent.symm.trans hstands'.silent

/-- Everything is written at once. -/
def freely : Env Unit where
  isValidUtf8 _ := true
  decompress _ _ := ((), .error .invalidCompressedData)
  compress _ _ := none
  entropy _ := [1, 2, 3, 4]
  takes _ := some 1000
  encrypted _ := []

/-- A ping and a close frame, in one read, and with cuts in a header and in a payload. -/
theorem seen_of_uncut_close : ∃ c c' : Client Unit,
    (fresh {}).handleReads freely [[0x89, 1, 7, 0x88, 3, 0x03, 0xE9, 0x21]] = some c ∧
    (fresh {}).handleReads freely [[0x89], [1, 7, 0x88], [3, 0x03, 0xE9], [0x21]] = some c' ∧
    c.connection.Silent c'.connection :=
  seen_of_uncut freely ⟨rfl, rfl⟩ (by decide) (by decide) rfl (by decide) (by decide)

/-- A close frame of which only the header came with the first read: its code is lost. -/
theorem not_seen_of_cut : ¬ ∀ reads reads' : List Bytes, (∀ data ∈ reads, data ≠ []) →
    (∀ data ∈ reads', data ≠ []) → reads.flatten = reads'.flatten →
    ((fresh {}).handleReads freely reads).map (fun c => c.connection.events) =
      ((fresh {}).handleReads freely reads').map (fun c => c.connection.events) := by
  intro hall
  have hcut := hall [[0x88, 2, 0x03, 0xE9]] [[0x88, 2], [0x03, 0xE9]] (by decide) (by decide) rfl
  have hwhole : ((fresh {}).handleReads freely [[0x88, 2, 0x03, 0xE9]]).map
      (fun c => c.connection.events) =
      some [.frame [0x88, 0x82, 1, 2, 3, 4, 2, 0xEA], .closed 1001 []] := by decide
  have hhalves : ((fresh {}).handleReads freely [[0x88, 2], [0x03, 0xE9]]).map
      (fun c => c.connection.events) =
      some [.frame [0x88, 0x82, 1, 2, 3, 4, 2, 0xEA], .closed 1005 []] := by decide
  rw [hwhole, hhalves] at hcut
  exact absurd hcut (by decide)

end Client

end OhosBun.WebSocket
