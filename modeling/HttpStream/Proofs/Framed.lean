import HttpStream.Proofs.Calls

/-! A body is read as the framing says that was chosen at the end of the fields, and of a body of
known length there is still to come what was not delivered. -/

set_option autoImplicit false

namespace HttpStream

def Stage.framing? : Stage → Option Framing
  | .untilClose => some .untilClose
  | .content _ => some .contentLength
  | .chunkStart | .chunkSize _ | .chunkParams _ | .chunkData _ | .trailer _ => some .chunked
  | _ => none

theorem Stage.exists_framing? {stage : Stage} (body : stage.inBody = true) :
    ∃ framing, stage.framing? = some framing := by
  cases stage <;> first | exact ⟨_, rfl⟩ | cases body

theorem Stage.framing?_of_inHead {stage : Stage} (inside : stage.inHead = true) :
    stage.framing? = none := by
  cases stage <;> first | rfl | cases inside

theorem Stage.framing?_of_inStartLine {stage : Stage} (line : stage.inStartLine = true) :
    stage.framing? = none := by
  cases stage <;> first | rfl | cases line

theorem Stage.framing?_of_inFields {stage : Stage} (line : stage.inFields = true) :
    stage.framing? = none := by
  cases stage <;> first | rfl | cases line

namespace Reader

variable {r s t : Reader} {b : UInt8} {capacity : Nat} {step : Step} {bytes : Bytes} {turn : Turn}

structure Framed (r : Reader) : Prop where
  framing : ∀ framing ∈ r.stage.framing?, r.framing = framing
  content : ∀ remaining, r.stage = .content remaining →
    r.contentLength = some (r.contentRead + remaining) ∧ 0 < r.contentRead + remaining
  -- Only responses end with the connection, and that is not decided before their fields end.
  untilClose : r.framing = .untilClose → r.mode = .response ∧ r.stage.inHead = false

theorem Framed.of_none (none : r.stage.framing? = none)
    (untilClose : r.framing = .untilClose → r.mode = .response ∧ r.stage.inHead = false) :
    r.Framed where
  framing := by simp [none]
  content remaining stage := by
    rw [stage] at none
    cases none
  untilClose := untilClose

theorem Framed.fresh (mode : Mode) (settings : Settings) : Framed { mode, settings } :=
  .of_none rfl nofun

theorem Framed.counted (h : r.Framed) (headerBytes : Nat) (afterCr : Bool) :
    Framed { r with headerBytes, afterCr } :=
  ⟨h.framing, h.content, h.untilClose⟩

theorem Framed.decided (h : r.Framed) (inside : r.stage.inHead = true) :
    r.framing ≠ .untilClose := by
  intro framing
  cases inside.symm.trans (h.untilClose framing).2

theorem Framed.finish (h : r.Framed) {stage : Stage} (ends : stage = .done ∨ stage = .closed) :
    (r.enter stage).Framed := by
  rcases ends with rfl | rfl
  · exact .of_none rfl fun framing => ⟨(h.untilClose framing).1, rfl⟩
  · exact .of_none rfl fun framing => ⟨(h.untilClose framing).1, rfl⟩

/-! The start line. -/

theorem StartLineStep.framed (h : r.StartLineStep capacity b step) (framed : r.Framed)
    (inside : r.stage.inHead = true) : step.reader.Framed := by
  have decided : r.framing ≠ .untilClose := framed.decided inside
  cases h with
  | inside stage target line =>
    exact .of_none (Stage.framing?_of_inStartLine line) fun framing => absurd framing decided
  | fault => exact framed
  | shortRequest | requestLine | statusLine =>
    exact .of_none rfl fun framing => absurd framing decided

/-! The field section. -/

theorem heed_decided {head after : Head} {field : Field} {events : List Event}
    (h : r.heed head field = .ok (s, after, events)) (decided : r.framing ≠ .untilClose) :
    s.framing ≠ .untilClose := by
  unfold heed at h
  split at h
  · unfold heedContentLength at h
    split at h
    · cases h; exact decided
    · cases length : Value.contentLength field.value with
      | error => rw [length] at h; cases h
      | ok length' =>
        rw [length] at h
        cases h
        simp only
        split <;> nofun
  · unfold heedTransferEncoding at h
    cases chunked : Value.chunked field.value with
    | error => rw [chunked] at h; cases h
    | ok ending =>
      rw [chunked] at h
      cases h
      split
      · nofun
      · exact decided
  · cases h
    unfold heedConnection
    split <;> exact decided
  · cases host : Value.host field.value <;> rw [host] at h <;> cases h
    exact decided
  · cases h; exact decided

theorem flush_decided {head after : Head} {pending : Option Field} {events : List Event}
    (h : r.flush head pending = .ok (s, after, events)) (decided : r.framing ≠ .untilClose) :
    s.framing ≠ .untilClose := by
  cases pending with
  | none => cases h; exact decided
  | some field =>
    simp only [flush] at h
    cases heeded : r.heed head field with
    | error => rw [heeded] at h; cases h
    | ok result =>
      obtain ⟨next, head', early⟩ := result
      rw [heeded] at h
      cases h
      obtain ⟨cache, remembered, _⟩ := remember_ok (r := next) field
      have later := heed_decided heeded decided
      rw [remembered]
      exact later

theorem endFields_framed {head : Head} (side : head.side = r.mode) (measured : r.Measured)
    (framed : r.Framed) (inside : r.stage.inHead = true) : (r.endFields head).reader.Framed := by
  have decided : r.framing ≠ .untilClose := framed.decided inside
  unfold endFields
  split
  · exact framed
  · simp only
    split
    · next final =>
      -- No field asks for a body that ends with the connection.
      have response : r.mode = .response := by
        rw [← side]
        cases head with
        | request =>
          simp only [finalFraming] at final
          split at final
          · cases final
          · exact absurd final decided
        | response => rfl
      exact ⟨by rintro _ ⟨⟩; exact final, by rintro _ ⟨⟩, fun _ => ⟨response, rfl⟩⟩
    · next final =>
      have positive := measured (finalFraming_eq_contentLength final)
      refine ⟨by rintro _ ⟨⟩; exact final, ?_, fun framing => ?_⟩
      · rintro remaining ⟨⟩
        simp only [enter, Nat.zero_add]
        cases length : r.contentLength with
        | none => rw [length] at positive; cases positive
        | some length' => rw [length] at positive; exact ⟨rfl, positive⟩
      · cases final.symm.trans framing
    · next final =>
      exact ⟨by rintro _ ⟨⟩; exact final, by rintro _ ⟨⟩, fun framing => by
        cases final.symm.trans framing⟩
    · next final =>
      exact .of_none rfl fun framing => by cases final.symm.trans framing
    · next final =>
      exact .of_none rfl fun framing => by cases final.symm.trans framing

theorem FieldStep.framed (h : r.FieldStep b step) (sound : r.Sound) (framed : r.Framed)
    (inside : r.stage.inHead = true) : step.reader.Framed := by
  have decided : r.framing ≠ .untilClose := framed.decided inside
  cases h with
  | inside stage ended line =>
    exact .of_none (Stage.framing?_of_inFields line) fun framing => absurd framing decided
  | fault => exact framed
  | field side fields delivered =>
    have later := flush_decided delivered decided
    exact .of_none rfl fun framing => absurd framing later
  | @blank flushed head after pending events side fields delivered =>
    have next := flush_sound delivered sound fields
    have kin : r.Kin flushed := flush_kin delivered
    have stage : flushed.stage = r.stage := by
      obtain ⟨⟨framing, contentLength, cache, rfl, _⟩, _⟩ := flush_ok delivered
      rfl
    have later := flush_decided delivered decided
    have undecided : (flushed.endLine b).Framed :=
      .of_none (by rw [endLine_stage, stage, Stage.framing?_of_inHead inside]) fun framing =>
        absurd framing later
    exact endFields_framed
      ((flush_ok delivered).2.2.1.trans (side.trans kin.mode.symm)) next.measured undecided
      (by rw [endLine_stage, stage]; exact inside)

/-! The body. -/

theorem Framed.deliver (h : r.Framed) (body : r.stage.inBody = true)
    (within : ∀ remaining, r.stage = .content remaining → bytes.length ≤ remaining) :
    (r.deliver bytes).reader.Framed := by
  have same : (r.deliver bytes).reader.stage.framing? = r.stage.framing? := by
    cases stage : r.stage <;> simp only [Reader.deliver, stage, enter_stage] <;> rfl
  refine ⟨fun framing member => h.framing framing (same ▸ member), ?_, fun framing =>
    ⟨(h.untilClose framing).1, ?_⟩⟩
  · intro remaining stage
    cases before : r.stage with
    | content whole =>
      obtain ⟨length, positive⟩ := h.content whole before
      have short := within whole before
      simp only [Reader.deliver, before, enter] at stage ⊢
      cases stage
      rw [length]
      exact ⟨by congr 1; omega, by omega⟩
    | _ => simp only [Reader.deliver, before, enter] at stage; cases stage
  · exact Stage.inHead_of_inBody (deliver_inBody body bytes)

theorem interpret_framing? (body : r.stage.inBody = true) :
    (r.interpret capacity b).reader.stage.framing? = r.stage.framing? ∨
      (r.interpret capacity b).reader.stage = .done := by
  have endChunkLine (size : Nat) :
      (r.endChunkLine size b).reader.stage.framing? = some .chunked ∨
        (r.endChunkLine size b).reader.stage = .done := by
    simp only [Reader.endChunkLine]
    repeat' split
    all_goals first | exact .inl rfl | exact .inr rfl
  have pushChunkStart : (r.pushChunkStart b).reader.stage.framing? = some .chunked := by
    simp only [Reader.pushChunkStart]
    repeat' split
    all_goals rfl
  -- A chunked body goes from one of its stages to another until it is over.
  cases stage : r.stage with
  | untilClose | content => simp only [interpret, stage, Reader.deliver]; exact .inl rfl
  | chunkStart => simp only [interpret, stage]; exact .inl pushChunkStart
  | chunkData remaining =>
    cases remaining with
    | zero => simp only [interpret, stage]; exact .inl pushChunkStart
    | succ remaining => simp only [interpret, stage, Reader.deliver]; exact .inl rfl
  | chunkSize size =>
    simp only [interpret, stage, pushChunkSize]
    repeat' split
    all_goals first
      | exact endChunkLine size
      | exact .inl rfl
      | exact .inl (congrArg Stage.framing? stage)
  | chunkParams size =>
    simp only [interpret, stage, pushChunkParams]
    split
    · exact endChunkLine size
    · exact .inl (congrArg Stage.framing? stage)
  | trailer token =>
    simp only [interpret, stage, pushTrailer]
    repeat' split
    all_goals first | exact .inl rfl | exact .inr rfl
  | _ => simp [stage, Stage.inBody] at body

theorem BodyStep.kept (h : r.BodyStep b step) : step.reader.framing = r.framing ∧
    step.reader.contentLength = r.contentLength ∧ step.reader.mode = r.mode := by
  cases h <;> exact ⟨rfl, rfl, rfl⟩

theorem interpret_body_framed (framed : r.Framed) (body : r.stage.inBody = true)
    (more : r.stage ≠ .content 0) : (r.interpret capacity b).reader.Framed := by
  have sliced (same : r.interpret capacity b = r.deliver [b]) :
      (r.interpret capacity b).reader.Framed := by
    rw [same]
    refine framed.deliver body fun remaining stage => ?_
    cases remaining with
    | zero => exact absurd stage more
    | succ remaining => exact Nat.le_add_left 1 remaining
  -- A body of known length is read by slices only.
  by_cases content : r.stage.framing? = some .contentLength
  · apply sliced
    cases stage : r.stage <;> rw [stage] at content <;> try cases content
    simp only [interpret, stage]
  · have step : r.BodyStep b (r.interpret capacity b) := interpret_body body
    obtain ⟨framing, length, mode⟩ := step.kept
    have outside := step.outside body
    rcases interpret_framing? body with same | done
    · refine ⟨?_, ?_, ?_⟩
      · intro other member
        rw [same] at member
        exact framing.trans (framed.framing other member)
      · intro remaining stage
        rw [stage] at same
        exact absurd same.symm content
      · intro untilClose
        rw [framing] at untilClose
        exact ⟨mode.trans (framed.untilClose untilClose).1, outside⟩
    · refine .of_none (by rw [done]; rfl) fun untilClose => ?_
      rw [framing] at untilClose
      exact ⟨mode.trans (framed.untilClose untilClose).1, outside⟩

/-! Any octet. -/

theorem interpret_framed (sound : r.Sound) (framed : r.Framed) (more : r.stage ≠ .content 0) :
    (r.interpret capacity b).reader.Framed := by
  rcases part_cases r.stage with line | line | body | finished
  · exact (interpret_startLine sound line).framed framed (Stage.inHead_of_inStartLine line)
  · exact (interpret_fields sound line).framed sound framed (Stage.inHead_of_inFields line)
  · exact interpret_body_framed framed body more
  · rcases finished with stage | stage <;> simp only [interpret, stage] <;> exact framed

theorem push_framed (sound : r.Sound) (framed : r.Framed) (more : r.stage ≠ .content 0) :
    (r.push capacity b).reader.Framed := by
  rcases push_reader r capacity b with ⟨headerBytes, afterCr, same⟩ | ⟨headerBytes, same⟩
  · rw [same]
    exact framed.counted headerBytes afterCr
  · rw [same]
    exact interpret_framed (sound.counted headerBytes false) (framed.counted headerBytes false) more

theorem Noted.framed (h : s.Noted t) (inside : s.stage.inHead = true) (framed : s.Framed) :
    t.Framed := by
  have after : t.stage.inHead = true := h.inHead inside
  obtain ⟨stage, rfl, _⟩ := h
  exact .of_none (Stage.framing?_of_inHead after) fun framing =>
    absurd framing (framed.decided inside)

theorem Framed.slice (framed : r.Framed) (b : UInt8) (rest : Bytes)
    (room : r.room.Allows (rest.length + 1)) :
    ({ r with afterCr := false }.deliver (b :: rest)).reader.Framed := by
  have framed : Framed { r with afterCr := false } := framed.counted _ _
  refine framed.deliver (inBody_of_room room).1 fun remaining stage => ?_
  have stage : r.stage = .content remaining := stage
  simp only [Reader.room, stage] at room
  split at room
  · exact room
  · cases room

theorem TurnCase.framed (h : r.TurnCase capacity b bytes turn) (sound : r.Sound)
    (framed : r.Framed) (more : r.stage ≠ .content 0) : turn.step.reader.Framed := by
  refine h.keeps sound framed ?_ (fun t headerBytes afterCr framed => framed.counted _ _)
    (fun noted inside framed => noted.framed inside framed) ?_
  · intro t b sound inside framed
    rcases inside with inside | rfl
    · exact push_framed sound framed (ne_of_inHead inside)
    · exact push_framed sound framed more
  · exact framed.slice

end Reader
end HttpStream
