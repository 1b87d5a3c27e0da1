/-
# `OhosBun.Webcore.Streaming` — a stream decodes to what its bytes decode to

A decoder that starts a stream gives, over all its calls, the code units of the bytes as one
piece, however they are cut; a fatal one throws if the bytes are ill-formed, and only then.
Behind the last chunk the decoder does what a new one does (`decode_stream`).
-/
import OhosBun.Webcore.Chunks

namespace OhosBun.Webcore

open OhosBun.Lib

namespace TextDecoder
variable {simdutf : Simdutf} {flush stream : Bool} {chunk : Bytes} {d d' : TextDecoder}

/-! ## Decoders between two calls -/

/-- Nothing is carried to the next call. -/
structure Idle (d : TextDecoder) : Prop where
  buffered : d.buffered = default
  leadByte : d.leadByte = none
  leadSurrogate : d.leadSurrogate = none

/-- What a decoder carries belongs to its encoding. -/
structure Sorted (d : TextDecoder) : Prop where
  utf8 : d.encoding = .utf8 → d.leadByte = none ∧ d.leadSurrogate = none
  utf16 : d.encoding ≠ .utf8 → d.buffered = default ∧ ∃ s, d.carry s = d

/-- A decoder with the settings of another. -/
structure SameSettings (d d' : TextDecoder) : Prop where
  ignoreBom : d'.ignoreBom = d.ignoreBom
  fatal : d'.fatal = d.fatal
  encoding : d'.encoding = d.encoding

theorem SameSettings.trans {d'' : TextDecoder} (h : SameSettings d d') (h' : SameSettings d' d'') :
    SameSettings d d'' :=
  ⟨h'.1.trans h.1, h'.2.trans h.2, h'.3.trans h.3⟩

theorem beginDecode_settings (d : TextDecoder) (stream : Bool) :
    SameSettings d (d.beginDecode stream) := by
  unfold beginDecode
  split <;> exact ⟨rfl, rfl, rfl⟩

theorem Sorted.beginDecode (h : d.Sorted) (stream : Bool) : (d.beginDecode stream).Sorted := by
  unfold TextDecoder.beginDecode
  split
  · refine ⟨h.utf8, fun hencoding => ⟨(h.utf16 hencoding).1, ?_⟩⟩
    obtain ⟨s, hs⟩ := (h.utf16 hencoding).2
    exact ⟨s, congrArg (fun d : TextDecoder => { d with doNotFlush := stream }) hs⟩
  · refine ⟨h.utf8, fun hencoding => ⟨(h.utf16 hencoding).1, ?_⟩⟩
    obtain ⟨s, hs⟩ := (h.utf16 hencoding).2
    exact ⟨s, congrArg (fun d : TextDecoder => { d with doNotFlush := stream, bomSeen := false }) hs⟩

@[simp] theorem beginDecode_doNotFlush (d : TextDecoder) (stream : Bool) :
    (d.beginDecode stream).doNotFlush = stream := by
  unfold beginDecode
  split <;> rfl

/-- What a chunk leaves of a decoder for UTF-8. -/
theorem decodeUtf8_state : ∃ left seen, (flush = true → left = default) ∧
    (d.decodeUtf8 simdutf flush chunk).2 = { d with buffered := left, bomSeen := seen } := by
  unfold decodeUtf8
  dsimp only
  generalize bomInput _ _ = input
  generalize toUtf16AllocMaybeBuffered _ _ _ _ = result
  obtain ⟨setBomSeen, input⟩ := input
  cases result with
  | panic => exact ⟨default, d.bomSeen, fun _ => rfl, rfl⟩
  | err e => exact ⟨default, d.bomSeen, fun _ => rfl, rfl⟩
  | ok converted =>
    refine ⟨if flush then default else leftover converted, setBomSeen || d.bomSeen,
      fun h => if_pos h, ?_⟩
    cases converted <;> cases setBomSeen <;> cases flush <;> rfl

variable {bigEndian : Bool} {before : Bytes}

/-- What a chunk leaves of a decoder for UTF-16. -/
theorem decodeUtf16Slice_state {s : Utf16.State} (hd : d.carry s = d) :
    ∃ t seen, (flush = true → t = ⟨none, none⟩) ∧
      (d.decodeUtf16Slice bigEndian flush chunk).2 = { d.carry t with bomSeen := seen } := by
  obtain ⟨w, hw⟩ : ∃ w, (Utf16.decoder bigEndian).read flush s
    (if d.preStripped bigEndian chunk then chunk.drop 2 else chunk) = w := ⟨_, rfl⟩
  have hflush : flush = true → w.2 = ⟨none, none⟩ := by
    rintro rfl
    rw [← hw]
    rfl
  rw [decodeUtf16Slice_eq hd hw]
  split
  · exact ⟨w.2, d.bomSeen, hflush, rfl⟩
  · split
    · exact ⟨w.2, true, hflush, rfl⟩
    · split
      · exact ⟨w.2, true, hflush, rfl⟩
      · exact ⟨w.2, d.bomSeen, hflush, rfl⟩

/-- What a chunk leaves of a decoder. -/
theorem Sorted.decodeSlice (h : d.Sorted) : (d.decodeSlice simdutf flush chunk).2.Sorted ∧
    SameSettings d (d.decodeSlice simdutf flush chunk).2 ∧
    (d.decodeSlice simdutf flush chunk).2.doNotFlush = d.doNotFlush ∧
    (flush = true → (d.decodeSlice simdutf flush chunk).2.Idle) := by
  have hutf16 (bigEndian : Bool) (hencoding : d.encoding ≠ .utf8) :
      (d.decodeUtf16Slice bigEndian flush chunk).2.Sorted ∧
      SameSettings d (d.decodeUtf16Slice bigEndian flush chunk).2 ∧
      (d.decodeUtf16Slice bigEndian flush chunk).2.doNotFlush = d.doNotFlush ∧
      (flush = true → (d.decodeUtf16Slice bigEndian flush chunk).2.Idle) := by
    obtain ⟨hbuffered, s, hs⟩ := h.utf16 hencoding
    obtain ⟨t, seen, hflush, hstate⟩ := decodeUtf16Slice_state
      hs
    rw [hstate]
    refine ⟨⟨fun h => absurd h hencoding, fun _ => ⟨hbuffered, t, rfl⟩⟩, ⟨rfl, rfl, rfl⟩, rfl, ?_⟩
    intro h'
    obtain rfl := hflush h'
    exact ⟨hbuffered, rfl, rfl⟩
  cases hencoding : d.encoding with
  | utf8 =>
    have hslice : d.decodeSlice simdutf flush chunk = d.decodeUtf8 simdutf flush chunk := by
      rw [TextDecoder.decodeSlice, hencoding]
    obtain ⟨left, seen, hflush, hstate⟩ :=
      decodeUtf8_state (d := d)
    obtain ⟨hbyte, hunit⟩ := h.utf8 hencoding
    rw [hslice, hstate]
    refine ⟨⟨fun _ => ⟨hbyte, hunit⟩, fun hne => absurd hencoding hne⟩, ⟨rfl, rfl, rfl⟩, rfl, ?_⟩
    exact fun h' => ⟨hflush h', hbyte, hunit⟩
  | utf16Le =>
    have hslice : d.decodeSlice simdutf flush chunk = d.decodeUtf16Slice false flush chunk := by
      rw [TextDecoder.decodeSlice, hencoding]
    rw [hslice]
    exact hutf16 false (by rw [hencoding]; decide)
  | utf16Be =>
    have hslice : d.decodeSlice simdutf flush chunk = d.decodeUtf16Slice true flush chunk := by
      rw [TextDecoder.decodeSlice, hencoding]
    rw [hslice]
    exact hutf16 true (by rw [hencoding]; decide)

/-- Between two calls a decoder that does not go on with a stream carries nothing. -/
structure Resting (d : TextDecoder) : Prop where
  sorted : d.Sorted
  idle : d.doNotFlush = false → d.Idle

theorem Resting.decode (h : d.Resting) :
    (d.decode simdutf stream chunk).2.Resting ∧ SameSettings d (d.decode simdutf stream chunk).2 ∧
      (d.decode simdutf stream chunk).2.doNotFlush = stream := by
  obtain ⟨hsorted, hsettings, hdoNotFlush, hidle⟩ :=
    (h.sorted.beginDecode stream).decodeSlice
  rw [beginDecode_doNotFlush] at hdoNotFlush
  refine ⟨⟨hsorted, fun hnot => hidle ?_⟩, (beginDecode_settings d stream).trans hsettings,
    hdoNotFlush⟩
  rw [hdoNotFlush.symm.trans hnot]
  rfl

theorem Resting.run (calls : List (Bool × Bytes)) : ∀ {d : TextDecoder}, d.Resting →
    (d.run simdutf calls).2.Resting ∧ SameSettings d (d.run simdutf calls).2 := by
  induction calls with
  | nil => exact fun h => ⟨h, rfl, rfl, rfl⟩
  | cons call calls ih =>
    intro d h
    obtain ⟨hresting, hsettings, -⟩ := h.decode
    obtain ⟨hresting', hsettings'⟩ := ih hresting
    exact ⟨hresting', hsettings.trans hsettings'⟩

theorem new_idle (encoding : EncodingLabel) (ignoreBom fatal : Bool) :
    (new encoding ignoreBom fatal).Idle := ⟨rfl, rfl, rfl⟩

theorem new_resting (encoding : EncodingLabel) (ignoreBom fatal : Bool) :
    (new encoding ignoreBom fatal).Resting :=
  ⟨⟨fun _ => ⟨rfl, rfl⟩, fun _ => ⟨rfl, ⟨none, none⟩, rfl⟩⟩, fun _ => new_idle _ _ _⟩

/-- A decoder that starts a stream starts it as a new one does. -/
theorem Idle.beginDecode (h : d.Idle) (hnew : d.doNotFlush = false) (stream : Bool) :
    d.beginDecode stream = (new d.encoding d.ignoreBom d.fatal).beginDecode stream := by
  obtain ⟨buffered, leadByte, leadSurrogate, bomSeen, doNotFlush, ignoreBom, fatal, encoding⟩ := d
  obtain ⟨hbuffered, hbyte, hunit⟩ := h
  dsimp only at hnew hbuffered hbyte hunit
  subst hnew
  subst hbuffered
  subst hbyte
  subst hunit
  rfl

/-- A decoder that starts a stream does what a new one does. -/
theorem Idle.run (h : d.Idle) (hnew : d.doNotFlush = false) (calls : List (Bool × Bytes)) :
    (d.run simdutf calls).1 =
      ((new d.encoding d.ignoreBom d.fatal).run simdutf calls).1 := by
  cases calls with
  | nil => rfl
  | cons call calls =>
    obtain ⟨stream, chunk⟩ := call
    rw [TextDecoder.run, TextDecoder.run, TextDecoder.decode, TextDecoder.decode,
      h.beginDecode hnew]

/-! ## Streams -/

/-- The calls of a stream. -/
def streamCalls (chunks : List Bytes) (last : Bytes) : List (Bool × Bytes) :=
  chunks.map (true, ·) ++ [(false, last)]

section Stream
variable {σ : Type} {m : Transducer σ UInt8 Decoded} {R : Bytes → TextDecoder → Prop}

/-- What is left of a stream decodes to what its bytes decode to. -/
theorem run_stream (hdecodes : Decodes simdutf m R)
    (hbegin : ∀ before d, R before d → d.doNotFlush = true →
      ∀ stream, R before (d.beginDecode stream)) (last : Bytes) :
    ∀ (chunks : List Bytes) (before : Bytes) (d : TextDecoder), d.Resting →
      (∀ stream, R before (d.beginDecode stream)) →
      if d.fatal ∧ .error ∈ (m.read true (m.run m.start before).2 (chunks.flatten ++ last)).1 then
        .err (invalidData d.encoding.label) ∈ (d.run simdutf (streamCalls chunks last)).1
      else ∃ outs : List (List UInt16),
        (d.run simdutf (streamCalls chunks last)).1 = outs.map .ok ∧
        outs.flatten = units (shown d.ignoreBom (m.run m.start before).1
          (m.read true (m.run m.start before).2 (chunks.flatten ++ last)).1) := by
  intro chunks
  induction chunks with
  | nil =>
    intro before d _ hR
    have hstep := hdecodes before _ true last (hR false)
    obtain ⟨hignore, hfatal, hencoding⟩ := beginDecode_settings d false
    rw [hignore, hfatal, hencoding] at hstep
    change if _ then _ ∈ [(d.decode simdutf false last).1] else ∃ outs : List (List UInt16),
      [(d.decode simdutf false last).1] = _ ∧ _
    rw [List.flatten_nil, List.nil_append]
    split at hstep
    · next hbad =>
        rw [if_pos hbad]
        exact List.mem_singleton.mpr hstep.symm
    · next hgood =>
        rw [if_neg hgood]
        exact ⟨[_], congrArg (fun r => [r]) hstep.1, List.flatten_singleton⟩
  | cons chunk chunks ih =>
    intro before d hresting hR
    have hstep := hdecodes before _ false chunk (hR true)
    obtain ⟨hignore, hfatal, hencoding⟩ := beginDecode_settings d true
    rw [hignore, hfatal, hencoding, Transducer.read_false] at hstep
    obtain ⟨hresting', hsettings', hstream⟩ := hresting.decode
    have hrun : (d.run simdutf (streamCalls (chunk :: chunks) last)).1 =
        (d.decode simdutf true chunk).1 ::
          ((d.decode simdutf true chunk).2.run simdutf (streamCalls chunks last)).1 := rfl
    rw [hrun, List.flatten_cons, List.append_assoc, Transducer.read_append]
    by_cases hfirst : d.fatal ∧ .error ∈ (m.run (m.run m.start before).2 chunk).1
    · rw [if_pos hfirst] at hstep
      rw [if_pos ⟨hfirst.1, List.mem_append_left _ hfirst.2⟩]
      exact List.mem_cons.mpr (.inl hstep.symm)
    · rw [if_neg hfirst] at hstep
      obtain ⟨hresult, hnext⟩ := hstep
      have hrest := ih (before ++ chunk) _ hresting' (hbegin _ _ (hnext rfl) hstream)
      rw [hsettings'.ignoreBom, hsettings'.fatal, hsettings'.encoding, Transducer.run_append] at hrest
      have hsplit : ∀ out : List Decoded,
          (d.fatal ∧ .error ∈ (m.run (m.run m.start before).2 chunk).1 ++ out) ↔
            (d.fatal ∧ .error ∈ out) := by
        intro out
        rw [List.mem_append]
        constructor
        · rintro ⟨h, h' | h'⟩
          · exact absurd ⟨h, h'⟩ hfirst
          · exact ⟨h, h'⟩
        · exact fun h => ⟨h.1, .inr h.2⟩
      rw [if_congr (hsplit _) rfl rfl]
      split at hrest
      · next hbad =>
          rw [if_pos hbad]
          exact List.mem_cons_of_mem _ hrest
      · next hgood =>
          rw [if_neg hgood]
          obtain ⟨outs, houts, htext⟩ := hrest
          refine ⟨units (shown d.ignoreBom (m.run m.start before).1
            (m.run (m.run m.start before).2 chunk).1) :: outs, ?_, ?_⟩
          · rw [houts, List.map_cons]
            exact congrArg (· :: _) hresult
          · rw [List.flatten_cons, htext, shown_append, units_append]

end Stream

theorem StandsUtf8.beginDecode (h : StandsUtf8 before d) (hstream : d.doNotFlush = true) (stream : Bool) :
    StandsUtf8 before (d.beginDecode stream) := by
  rw [TextDecoder.beginDecode, if_pos hstream]
  exact ⟨h.encoding, h.pending, h.seen, h.ahead⟩

theorem StandsUtf16.beginDecode (h : StandsUtf16 bigEndian before d) (hstream : d.doNotFlush = true)
    (stream : Bool) :
    StandsUtf16 bigEndian before (d.beginDecode stream) := by
  rw [TextDecoder.beginDecode, if_pos hstream]
  exact ⟨h.encoding, congrArg (fun d : TextDecoder => { d with doNotFlush := stream }) h.carried,
    h.bomSeen⟩

theorem Idle.standsUtf8 (h : d.Idle) (hnew : d.doNotFlush = false) (hencoding : d.encoding = .utf8)
    (stream : Bool) : StandsUtf8 [] (d.beginDecode stream) := by
  have hambiguous : Ambiguous [] := ⟨List.nil_prefix, by decide⟩
  rw [h.beginDecode hnew, hencoding]
  exact ⟨rfl, rfl, fun _ hseen => Bool.noConfusion hseen, fun _ _ => ⟨hambiguous, rfl⟩⟩

theorem Idle.standsUtf16 (h : d.Idle) (hnew : d.doNotFlush = false)
    (hencoding : d.encoding = if bigEndian then .utf16Be else .utf16Le) (stream : Bool) :
    StandsUtf16 bigEndian [] (d.beginDecode stream) := by
  rw [h.beginDecode hnew, hencoding]
  exact ⟨rfl, rfl, fun _ => iff_of_false Bool.false_ne_true fun hne => hne rfl⟩

/-- The calls of a stream throw, or give its text. -/
theorem Resting.run_stream (h : d.Resting) (hnew : d.doNotFlush = false) (hsound : simdutf.Sound)
    (chunks : List Bytes) (last : Bytes) :
    if d.fatal ∧ d.encoding.IllFormed (chunks.flatten ++ last) then
      .err (invalidData d.encoding.label) ∈ (d.run simdutf (streamCalls chunks last)).1
    else ∃ outs : List (List UInt16),
      (d.run simdutf (streamCalls chunks last)).1 = outs.map .ok ∧
      outs.flatten = d.encoding.text d.ignoreBom (chunks.flatten ++ last) := by
  have htext (out : List Decoded) : units (shown d.ignoreBom [] out) =
      units (if d.ignoreBom then out else dropBom out) := by
    cases d.ignoreBom <;> rfl
  have hutf16 (bigEndian : Bool) (hencoding : d.encoding = if bigEndian then .utf16Be else .utf16Le) :=
    TextDecoder.run_stream (@decodes_utf16 simdutf _)
      (fun _ _ h => StandsUtf16.beginDecode h) last chunks [] d h
      ((h.idle hnew).standsUtf16 hnew hencoding)
  unfold EncodingLabel.IllFormed EncodingLabel.text
  cases hencoding : d.encoding with
  | utf8 =>
    have hrun := TextDecoder.run_stream (decodes_utf8 hsound)
      (fun _ _ h => StandsUtf8.beginDecode h) last chunks [] d h
      ((h.idle hnew).standsUtf8 hnew hencoding)
    rw [hencoding, Transducer.run_nil, htext] at hrun
    exact hrun
  | utf16Le =>
    have hrun := hutf16 false hencoding
    rw [hencoding, Transducer.run_nil, htext] at hrun
    exact hrun
  | utf16Be =>
    have hrun := hutf16 true hencoding
    rw [hencoding, Transducer.run_nil, htext] at hrun
    exact hrun

theorem run_snoc (calls : List (Bool × Bytes)) (call : Bool × Bytes) : ∀ d : TextDecoder,
    (d.run simdutf (calls ++ [call])).2 = ((d.run simdutf calls).2.decode simdutf call.1 call.2).2 := by
  induction calls with
  | nil => exact fun _ => rfl
  | cons first calls ih => exact fun d => ih _

/-- A stream decodes to what its bytes decode to, however it is cut: the code units of the calls
together are those of the bytes, a fatal decoder throws just for ill-formed bytes, and behind the
last chunk the decoder does what a new one does. -/
theorem decode_stream (simdutf : Simdutf) (hsound : simdutf.Sound) (encoding : EncodingLabel)
    (ignoreBom fatal : Bool) (earlier : List (Bool × Bytes)) (d : TextDecoder)
    (hd : d = ((new encoding ignoreBom fatal).run simdutf earlier).2) (hnew : d.doNotFlush = false)
    (chunks : List Bytes) (last : Bytes) :
    (fatal = false ∨ ¬ encoding.IllFormed (chunks.flatten ++ last) → ∃ outs : List (List UInt16),
      (d.run simdutf (streamCalls chunks last)).1 = outs.map .ok ∧
      outs.flatten = encoding.text ignoreBom (chunks.flatten ++ last)) ∧
    (fatal = true → ((∃ e, .err e ∈ (d.run simdutf (streamCalls chunks last)).1) ↔
      encoding.IllFormed (chunks.flatten ++ last))) ∧
    ∀ calls, ((d.run simdutf (streamCalls chunks last)).2.run simdutf calls).1 =
      ((new encoding ignoreBom fatal).run simdutf calls).1 := by
  obtain ⟨hresting, hignore, hfatal, hencoding⟩ :=
    (new_resting encoding ignoreBom fatal).run earlier
  rw [← hd] at hresting hignore hfatal hencoding
  have hstream := hresting.run_stream hnew hsound chunks last
  rw [hignore, hfatal, hencoding] at hstream
  refine ⟨fun hgood => ?_, ?_, fun calls => ?_⟩
  · rwa [if_neg] at hstream
    rintro ⟨h, h'⟩
    rcases hgood with hgood | hgood
    · exact Bool.false_ne_true (hgood.symm.trans h)
    · exact hgood h'
  · rintro rfl
    by_cases hbad : encoding.IllFormed (chunks.flatten ++ last)
    · rw [if_pos ⟨rfl, hbad⟩] at hstream
      exact iff_of_true ⟨_, hstream⟩ hbad
    · rw [if_neg fun h => hbad h.2] at hstream
      obtain ⟨outs, houts, -⟩ := hstream
      refine iff_of_false ?_ hbad
      rintro ⟨e, he⟩
      rw [houts] at he
      obtain ⟨out, -, hout⟩ := List.mem_map.mp he
      exact absurd hout (by simp)
  · obtain ⟨hresting', hsettings'⟩ := hresting.run (streamCalls chunks last)
    have hflushed : (d.run simdutf (streamCalls chunks last)).2.doNotFlush = false := by
      rw [streamCalls, run_snoc]
      exact (hresting.run _).1.decode.2.2
    rw [(hresting'.idle hflushed).run hflushed, hsettings'.ignoreBom, hsettings'.fatal,
      hsettings'.encoding, hignore, hfatal, hencoding]
    rfl

/-- A byte order mark and a character, each cut in two, and a last chunk that ends both. -/
theorem decode_stream_cut_mark : ∃ outs : List (List UInt16),
    ((new .utf8 false true).run .standard
      (streamCalls [[0xEF], [0xBB, 0xBF, 0xC3], []] [0xA9])).1 = outs.map .ok ∧
    outs.flatten = [0xE9] := by
  obtain ⟨outs, houts, htext⟩ := (decode_stream .standard Simdutf.standard_sound .utf8 false true
    [] _ rfl rfl [[0xEF], [0xBB, 0xBF, 0xC3], []] [0xA9]).1 (.inr (by decide))
  exact ⟨outs, houts, htext.trans (by decide)⟩

/-- The UTF-8 of a text, however it is cut, decodes to the code units of the text, without a byte
order mark in front where that is not ignored. -/
theorem decode_encoded (simdutf : Simdutf) (hsound : simdutf.Sound) (ignoreBom fatal : Bool)
    (text : List Char) (chunks : List Bytes) (last : Bytes)
    (hcut : chunks.flatten ++ last = text.flatMap String.utf8EncodeChar) :
    ∃ outs : List (List UInt16),
      ((new .utf8 ignoreBom fatal).run simdutf (streamCalls chunks last)).1 = outs.map .ok ∧
      outs.flatten =
        (if ignoreBom = false ∧ (text.head?.map Char.toNat) = some 0xFEFF then text.tail else text).flatMap
          fun c => Decoded.units (.scalar c.toNat) := by
  have hdecoded : EncodingLabel.utf8.decoded (chunks.flatten ++ last) = text.map (.scalar ·.toNat) := by
    rw [hcut]
    exact Utf8.translate_encode text
  have hgood : ¬ EncodingLabel.utf8.IllFormed (chunks.flatten ++ last) := by
    rw [EncodingLabel.IllFormed, hdecoded]
    simp
  have hstream := (new_resting .utf8 ignoreBom fatal).run_stream rfl hsound chunks last
  rw [if_neg fun h => hgood h.2] at hstream
  obtain ⟨outs, houts, htext⟩ := hstream
  refine ⟨outs, houts, htext.trans ?_⟩
  change EncodingLabel.text .utf8 ignoreBom _ = _
  have hunits (text : List Char) : units (text.map (.scalar ·.toNat)) =
      text.flatMap fun c => Decoded.units (.scalar c.toNat) := by rw [units, List.flatMap_map]
  rw [EncodingLabel.text, hdecoded, ← hunits]
  cases ignoreBom with
  | true => simp
  | false =>
    cases text with
    | nil => rfl
    | cons c text =>
      by_cases hmark : c.toNat = 0xFEFF
      · simp [hmark, dropBom]
      · simp [hmark, dropBom]

theorem decode_encoded_mark : ∃ outs : List (List UInt16),
    ((new .utf8 false true).run .standard (streamCalls [[0xEF], [0xBB, 0xBF, 0xC3]] [0xA9])).1 = outs.map .ok ∧
    outs.flatten = [Char.ofNat 0xE9].flatMap fun c => Decoded.units (.scalar c.toNat) :=
  decode_encoded .standard Simdutf.standard_sound false true [Char.ofNat 0xFEFF, Char.ofNat 0xE9] _ _ (by decide)

end TextDecoder

end OhosBun.Webcore
