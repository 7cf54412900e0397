import HttpStream.Proofs.Sound

/-! All that one octet can do, part by part of a message. Properties of a reader are derived from
these lists of cases and not from the functions of the single stages. -/

set_option autoImplicit false

namespace HttpStream

open Octet

namespace Stage

def inStartLine : Stage → Bool
  | .start | .method _ | .beforeUri _ | .uri _ | .afterUri _ | .requestVersion _ _
  | .responseVersion _ | .beforeStatus _ | .status _ _ _ | .afterStatus _ _ | .reason _ _ _ => true
  | _ => false

def inFields : Stage → Bool
  | .lineStart _ _ | .fieldName _ _ | .fieldValue _ _ _ _ _ _ => true
  | _ => false

theorem inHead_of_inStartLine {stage : Stage} (line : stage.inStartLine = true) :
    stage.inHead = true := by
  cases stage <;> first | rfl | cases line

theorem inHead_of_inFields {stage : Stage} (line : stage.inFields = true) :
    stage.inHead = true := by
  cases stage <;> first | rfl | cases line

theorem inHead_of_inBody {stage : Stage} (body : stage.inBody = true) : stage.inHead = false := by
  cases stage <;> first | rfl | cases body

theorem isComplete_of_inHead {stage : Stage} (inside : stage.inHead = true) :
    stage.isComplete = false := by
  cases stage <;> first | rfl | cases inside

theorem isCounted_of_inHead {stage : Stage} (inside : stage.inHead = true) :
    stage.isCounted = true := by
  simp [isCounted, inside]

end Stage

namespace Reader

/-- What an octet of the start line leads to. -/
inductive StartLineStep (r : Reader) (capacity : Nat) (b : UInt8) : Step → Prop where
  | inside (stage : Stage) (target : Snoc UInt8) (line : stage.inStartLine = true)
      (side : ∀ mode ∈ stage.side?, mode = r.mode) :
      StartLineStep r capacity b (.quiet { r.enter stage with target })
  | fault (fault : Fault) : StartLineStep r capacity b (.fail r fault)
  | shortRequest (side : r.mode = .request) (method : Method) :
      StartLineStep r capacity b (r.shortRequest method b)
  | requestLine (side : r.mode = .request) (method : Method) (version : Version) :
      StartLineStep r capacity b (r.requestLine capacity method version b)
  | statusLine (side : r.mode = .response) (version : Version) (status : Nat)
      (reason : Option Text) : StartLineStep r capacity b (r.statusLine version status reason b)

inductive FieldStep (r : Reader) (b : UInt8) : Step → Prop where
  | inside (stage : Stage) (ended : Bool) (line : stage.inFields = true)
      (side : ∀ mode ∈ stage.side?, mode = r.mode) (sound : stage.Sound)
      (known : stage.head? = r.stage.head?) :
      FieldStep r b (.quiet { r.enter stage with afterCr := ended })
  | fault (fault : Fault) : FieldStep r b (.fail r fault)
  -- The field before is delivered, and another one begins.
  | field {flushed : Reader} {head after : Head} {pending : Option Field} {events : List Event}
      (side : head.side = r.mode) (sound : ∀ field ∈ pending, field.Sound)
      (delivered : r.flush head pending = .ok (flushed, after, events)) (token : Snoc Char)
      (known : r.stage.head? = some head) :
      FieldStep r b { reader := flushed.enter (.fieldName after token), events }
  -- The field before is delivered, and the section is over.
  | blank {flushed : Reader} {head after : Head} {pending : Option Field} {events : List Event}
      (side : head.side = r.mode) (sound : ∀ field ∈ pending, field.Sound)
      (delivered : r.flush head pending = .ok (flushed, after, events))
      (known : r.stage.head? = some head) :
      FieldStep r b { (flushed.endLine b).endFields after with
        events := events ++ ((flushed.endLine b).endFields after).events }

/-- What an octet of the body or of the trailers, whose octets are counted, leads to. -/
inductive BodyStep (r : Reader) (b : UInt8) : Step → Prop where
  | slice (body : r.stage.inBody = true) (uncounted : r.stage.isCounted = false) :
      BodyStep r b (r.deliver [b])
  | inside (stage : Stage) (ended : Bool) (body : stage.inBody = true)
      (same : stage.isCounted = r.stage.isCounted) :
      BodyStep r b (.quiet { r.enter stage with afterCr := ended })
  | trailers (uncounted : r.stage.isCounted = false) (configured : r.settings.trailers = true) :
      BodyStep r b (.quiet ((r.endLine b).enter (.trailer .empty)))
  | fault (stage : Stage) (body : stage.inBody = true)
      (same : stage.isCounted = r.stage.isCounted) (fault : Fault) :
      BodyStep r b (.fail (r.enter stage) fault)
  | finished : BodyStep r b { reader := (r.endLine b).enter .done, events := [.messageComplete] }
  | trailer (counted : r.stage.isCounted = true) (name value : Text) :
      BodyStep r b
        { reader := (r.endLine b).enter (.trailer .empty), events := [.trailer name value] }

variable {r : Reader} {b : UInt8}

section StartLine

variable {capacity : Nat} {method : Method}

theorem StartLineStep.enter (stage : Stage) (line : stage.inStartLine = true)
    (side : ∀ mode ∈ stage.side?, mode = r.mode) :
    StartLineStep r capacity b (.quiet (r.enter stage)) := .inside stage r.target line side

theorem StartLineStep.onward {mode : Mode} (known : r.mode = mode) (stage : Stage)
    (line : stage.inStartLine = true) (side : stage.side? = some mode) :
    StartLineStep r capacity b (.quiet (r.enter stage)) :=
  .enter stage line (by simp [side, known])

theorem StartLineStep.stay (h : r.Sound) (line : r.stage.inStartLine = true) :
    StartLineStep r capacity b (.quiet r) := .inside r.stage r.target line h.side

theorem pushStart_line (stay : r.StartLineStep capacity b (.quiet r)) :
    r.StartLineStep capacity b (r.pushStart b) := by
  unfold pushStart
  split
  · cases mode : r.mode with
    | request => exact .onward mode _ rfl rfl
    | response => exact .onward mode _ rfl rfl
  · exact stay

/-! Stages that only a request comes to. -/

section Request

variable (request : r.mode = .request)

include request

theorem pushMethod_line (token : Snoc Char) :
    r.StartLineStep capacity b (r.pushMethod token b) := by
  unfold pushMethod
  split
  · split
    · exact .onward request _ rfl rfl
    · exact .fault _
  · split
    · exact .fault _
    · exact .onward request _ rfl rfl

theorem pushBeforeUri_line (stay : r.StartLineStep capacity b (.quiet r)) (method : Method) :
    r.StartLineStep capacity b (r.pushBeforeUri method b) := by
  unfold pushBeforeUri
  split
  · exact stay
  · split
    · exact .fault _
    · exact .inside (.uri method) _ rfl (by simp [Stage.side?, request])

theorem pushUri_line (stage : r.stage = .uri method) :
    r.StartLineStep capacity b (r.pushUri method b) := by
  unfold pushUri
  split
  · exact .onward request _ rfl rfl
  · split
    · exact .shortRequest request method
    · exact .inside r.stage _ (by rw [stage]; rfl) (by simp [stage, Stage.side?, request])

theorem pushAfterUri_line (stay : r.StartLineStep capacity b (.quiet r)) (method : Method) :
    r.StartLineStep capacity b (r.pushAfterUri method b) := by
  unfold pushAfterUri
  split
  · exact stay
  · split
    · exact .shortRequest request method
    · exact .onward request _ rfl rfl

theorem pushRequestVersion_line (method : Method) (token : Snoc Char) :
    r.StartLineStep capacity b (r.pushRequestVersion capacity method token b) := by
  unfold pushRequestVersion
  split
  · split
    · exact .requestLine request method _
    · exact .fault _
  · exact .onward request _ rfl rfl

end Request

/-! Stages that only a response comes to. -/

section Response

variable (response : r.mode = .response)

include response

theorem pushResponseVersion_line (token : Snoc Char) :
    r.StartLineStep capacity b (r.pushResponseVersion token b) := by
  unfold pushResponseVersion
  split
  · split
    · exact .onward response _ rfl rfl
    · exact .fault _
  · split
    · exact .fault _
    · exact .onward response _ rfl rfl

theorem pushBeforeStatus_line (stay : r.StartLineStep capacity b (.quiet r)) (version : Version) :
    r.StartLineStep capacity b (r.pushBeforeStatus version b) := by
  unfold pushBeforeStatus
  split
  · exact stay
  · split
    · exact .onward response _ rfl rfl
    · exact .fault _

theorem pushStatus_line (version : Version) (value digits : Nat) :
    r.StartLineStep capacity b (r.pushStatus version value digits b) := by
  unfold pushStatus
  split
  · split
    · exact .onward response _ rfl rfl
    · exact .fault _
  · split
    · exact .fault _
    · split
      · exact .onward response _ rfl rfl
      · split
        · exact .statusLine response _ _ _
        · exact .fault _

theorem pushAfterStatus_line (stay : r.StartLineStep capacity b (.quiet r)) (version : Version)
    (status : Nat) : r.StartLineStep capacity b (r.pushAfterStatus version status b) := by
  unfold pushAfterStatus
  split
  · exact stay
  · split
    · exact .statusLine response _ _ _
    · exact .onward response _ rfl rfl

theorem pushReason_line (version : Version) (status : Nat) (token : Snoc Char) :
    r.StartLineStep capacity b (r.pushReason version status token b) := by
  unfold pushReason
  split
  · exact .statusLine response _ _ _
  · exact .onward response _ rfl rfl

end Response

theorem interpret_startLine (h : r.Sound) (line : r.stage.inStartLine = true) :
    r.StartLineStep capacity b (r.interpret capacity b) := by
  have stay : r.StartLineStep capacity b (.quiet r) := .stay h line
  -- The side that is read is known from the stage.
  have side {mode : Mode} (known : r.stage.side? = some mode) : r.mode = mode := h.mode known
  unfold interpret
  cases stage : r.stage with
  | start => exact pushStart_line stay
  | method token => exact pushMethod_line (side (by rw [stage]; rfl)) token
  | beforeUri method => exact pushBeforeUri_line (side (by rw [stage]; rfl)) stay method
  | uri method => exact pushUri_line (side (by rw [stage]; rfl)) stage
  | afterUri method => exact pushAfterUri_line (side (by rw [stage]; rfl)) stay method
  | requestVersion method token =>
    exact pushRequestVersion_line (side (by rw [stage]; rfl)) method token
  | responseVersion token => exact pushResponseVersion_line (side (by rw [stage]; rfl)) token
  | beforeStatus version => exact pushBeforeStatus_line (side (by rw [stage]; rfl)) stay version
  | status version value digits =>
    exact pushStatus_line (side (by rw [stage]; rfl)) version value digits
  | afterStatus version status =>
    exact pushAfterStatus_line (side (by rw [stage]; rfl)) stay version status
  | reason version status token =>
    exact pushReason_line (side (by rw [stage]; rfl)) version status token
  | _ => simp [stage, Stage.inStartLine] at line

end StartLine

/-! The field section. -/

section Fields

variable {capacity : Nat}

theorem FieldStep.enter (stage : Stage) (line : stage.inFields = true)
    (side : ∀ mode ∈ stage.side?, mode = r.mode) (sound : stage.Sound)
    (known : stage.head? = r.stage.head?) :
    FieldStep r b (.quiet (r.enter stage)) := .inside stage r.afterCr line side sound known

theorem valuePart_push {token : Snoc Char} (h : token.IsValuePart) (folding : Bool)
    (plain : isLineEnd b = false) (text : isBlank b = false) :
    ((if folding && !token.isEmpty then token.push ' ' else token).push
      (toChar b)).IsValuePart := by
  split
  · next joined =>
    have spaced : (token.push (toChar sp)).IsValuePart :=
      h.push (by decide) (fun empty => by simp [empty] at joined)
    exact spaced.push plain (fun _ => text)
  · exact h.push plain (fun _ => text)

section

variable {head : Head} (side : head.side = r.mode) (known : r.stage.head? = some head)

include side known

theorem pushLineStart_field {pending : Option Field} (sound : ∀ field ∈ pending, field.Sound) :
    r.FieldStep b (r.pushLineStart head pending b) := by
  unfold pushLineStart
  split
  · cases pending with
    | some field =>
      have field := sound field rfl
      exact .enter _ rfl (by simp [Stage.side?, side]) ⟨field.standard, .ofList field.value⟩
        known.symm
    | none => exact .fault _
  · cases delivered : r.flush head pending with
    | error fault => exact .fault fault
    | ok result =>
      obtain ⟨flushed, after, events⟩ := result
      simp only
      split
      · exact .blank side sound delivered known
      · exact .field side sound delivered _ known

theorem pushFieldName_field (token : Snoc Char) :
    r.FieldStep b (r.pushFieldName head token b) := by
  unfold pushFieldName
  simp only
  split
  · exact .inside _ _ rfl (by simp [Stage.side?, side]) ⟨rfl, .nil⟩ known.symm
  · split
    · exact .enter _ rfl (by simp [Stage.side?, side]) ⟨rfl, .empty⟩ known.symm
    · exact .enter _ rfl (by simp [Stage.side?, side]) trivial known.symm

theorem pushFieldValue_field (stay : r.FieldStep b (.quiet r)) {standard : Option StandardName}
    {name : Text} {token : Snoc Char} (named : standard = StandardName.ofText? name)
    (value : token.IsValuePart) (folding recognized : Bool) :
    r.FieldStep b (r.pushFieldValue head standard name token folding recognized b) := by
  unfold pushFieldValue
  split
  · exact .inside _ _ rfl (by simp [Stage.side?, side]) ⟨named, value.trimmed⟩ known.symm
  · next plain =>
    split
    · split
      · exact stay
      · next started =>
        -- A blank is kept inside the value only, never as its first octet.
        have value := value.push (b := b) (by simpa using plain) fun empty => by
          simp [empty] at started
        exact .enter _ rfl (by simp [Stage.side?, side]) ⟨named, value⟩ known.symm
    · next text =>
      have value := valuePart_push value folding (by simpa using plain) (by simpa using text)
      exact .enter _ rfl (by simp [Stage.side?, side]) ⟨named, value⟩ known.symm

end

theorem interpret_fields (h : r.Sound) (line : r.stage.inFields = true) :
    r.FieldStep b (r.interpret capacity b) := by
  have stay : r.FieldStep b (.quiet r) := .enter r.stage line h.side h.stage rfl
  have held := h.stage
  unfold interpret
  cases stage : r.stage with
  | lineStart head pending =>
    refine pushLineStart_field (h.side _ (by rw [stage]; rfl)) (by rw [stage]; rfl) ?_
    intro field waits
    rwa [stage, Option.mem_def.mp waits] at held
  | fieldName head token =>
    exact pushFieldName_field (h.side _ (by rw [stage]; rfl)) (by rw [stage]; rfl) token
  | fieldValue head standard name token folding recognized =>
    rw [stage] at held
    exact pushFieldValue_field (h.side _ (by rw [stage]; rfl)) (by rw [stage]; rfl) stay held.1
      held.2 folding recognized
  | _ => simp [stage, Stage.inFields] at line

end Fields

/-! The body and the trailers. -/

section Body

variable {capacity : Nat}

theorem endChunkLine_body (uncounted : r.stage.isCounted = false) (size : Nat) :
    r.BodyStep b (r.endChunkLine size b) := by
  unfold endChunkLine
  simp only
  split
  · exact .inside (.chunkData size) _ rfl uncounted.symm
  · split
    · next configured => exact .trailers uncounted configured
    · exact .finished

theorem pushChunkStart_body (uncounted : r.stage.isCounted = false) :
    r.BodyStep b (r.pushChunkStart b) := by
  unfold pushChunkStart
  simp only
  split
  · split
    · exact .inside (.chunkSize _) r.afterCr rfl uncounted.symm
    · exact .fault .chunkStart rfl uncounted.symm _
  · exact .inside .chunkStart _ rfl uncounted.symm

theorem pushChunkSize_body (body : r.stage.inBody = true) (uncounted : r.stage.isCounted = false)
    (size : Nat) : r.BodyStep b (r.pushChunkSize size b) := by
  unfold pushChunkSize
  split
  · exact endChunkLine_body uncounted size
  · split
    · exact .inside (.chunkParams size) r.afterCr rfl uncounted.symm
    · split
      · split
        · exact .inside (.chunkSize _) r.afterCr rfl uncounted.symm
        · exact .fault r.stage body rfl _
      · exact .fault r.stage body rfl _

theorem pushChunkParams_body (body : r.stage.inBody = true) (uncounted : r.stage.isCounted = false)
    (size : Nat) : r.BodyStep b (r.pushChunkParams size b) := by
  unfold pushChunkParams
  split
  · exact endChunkLine_body uncounted size
  · exact .inside r.stage r.afterCr body rfl

theorem pushTrailer_body (counted : r.stage.isCounted = true) (token : Snoc Char) :
    r.BodyStep b (r.pushTrailer token b) := by
  unfold pushTrailer
  split
  · exact .inside (.trailer _) r.afterCr rfl counted.symm
  · split
    · exact .finished
    · exact .trailer counted _ _

theorem interpret_body (body : r.stage.inBody = true) :
    r.BodyStep b (r.interpret capacity b) := by
  unfold interpret
  cases stage : r.stage with
  | untilClose => exact .slice body (by rw [stage]; rfl)
  | content remaining => exact .slice body (by rw [stage]; rfl)
  | chunkStart => exact pushChunkStart_body (by rw [stage]; rfl)
  | chunkSize size => exact pushChunkSize_body body (by rw [stage]; rfl) size
  | chunkParams size => exact pushChunkParams_body body (by rw [stage]; rfl) size
  | chunkData remaining =>
    cases remaining with
    | zero => exact pushChunkStart_body (by rw [stage]; rfl)
    | succ remaining => exact .slice body (by rw [stage]; rfl)
  | trailer token => exact pushTrailer_body (by rw [stage]; rfl) token
  | _ => simp [stage, Stage.inBody] at body

end Body

/-! Delivering a field. -/

section Flush

/-- The events of a field that is delivered: a valid `Host` of a request comes with its parts. -/
inductive Delivery (mode : Mode) : Option Field → List Event → Prop where
  | nothing : Delivery mode none []
  | plain (field : Field) : Delivery mode (some field) [.header field.name field.value]
  | host (field : Field) (side : mode = .request) (known : field.standard = some .host)
      (host : Text) (port : Option Nat) :
      Delivery mode (some field) [.host host port, .header field.name field.value]

/-- What a field means for the message shows in the framing or in the memory, and nowhere else. -/
theorem heed_ok {head after : Head} {field : Field} {heeded : Reader} {events : List Event}
    (h : r.heed head field = .ok (heeded, after, events)) :
    ((∃ framing contentLength, heeded = { r with framing, contentLength }) ∨
      heeded = { r with cache := .disabled }) ∧ (r.Measured → heeded.Measured) ∧
      after.side = head.side ∧
      Delivery head.side (some field) (events ++ [.header field.name field.value]) := by
  unfold heed at h
  split at h
  · unfold heedContentLength at h
    split at h
    · cases h; exact ⟨.inl ⟨_, _, rfl⟩, id, rfl, .plain field⟩
    · cases length : Value.contentLength field.value <;> rw [length] at h <;> cases h
      refine ⟨.inl ⟨_, _, rfl⟩, ?_, rfl, .plain field⟩
      intro _ announced
      simpa [Nat.pos_iff_ne_zero] using announced
  · unfold heedTransferEncoding at h
    cases chunked : Value.chunked field.value with
    | error => rw [chunked] at h; cases h
    | ok ending =>
      rw [chunked] at h
      cases h
      cases ending with
      | false => exact ⟨.inl ⟨_, _, rfl⟩, id, rfl, .plain field⟩
      | true => exact ⟨.inl ⟨_, _, rfl⟩, fun _ => nofun, rfl, .plain field⟩
  · cases h
    unfold heedConnection
    split
    · exact ⟨.inr rfl, id, rfl, .plain field⟩
    · exact ⟨.inl ⟨_, _, rfl⟩, id, rfl, .plain field⟩
  · next known =>
    cases host : Value.host field.value <;> rw [host] at h <;> cases h
    exact ⟨.inl ⟨_, _, rfl⟩, id, rfl, .host field rfl known _ _⟩
  · cases h; exact ⟨.inl ⟨_, _, rfl⟩, id, rfl, .plain field⟩

theorem remember_ok (field : Field) : ∃ cache, r.remember field = { r with cache } ∧
    (r.cache.Sound → field.Sound → cache.Sound) := by
  unfold remember
  split
  · next standard known =>
    split
    · refine ⟨_, rfl, ?_⟩
      intro memory sound
      apply memory.put
      intro nonempty
      exact ⟨by rw [← known, sound.standard], nonempty, sound.value⟩
    · exact ⟨_, rfl, fun memory _ => memory⟩
  · exact ⟨_, rfl, fun memory _ => memory⟩

theorem flush_ok {head after : Head} {pending : Option Field} {flushed : Reader}
    {events : List Event} (h : r.flush head pending = .ok (flushed, after, events)) :
    (∃ framing contentLength cache, flushed = { r with framing, contentLength, cache } ∧
      (r.cache.Sound → (∀ field ∈ pending, field.Sound) → cache.Sound)) ∧
      (r.Measured → flushed.Measured) ∧ after.side = head.side ∧
      Delivery head.side pending events := by
  cases pending with
  | none => cases h; exact ⟨⟨_, _, _, rfl, fun memory _ => memory⟩, id, rfl, .nothing⟩
  | some field =>
    simp only [flush] at h
    cases heeded : r.heed head field with
    | error => rw [heeded] at h; cases h
    | ok result =>
      obtain ⟨next, head', early⟩ := result
      rw [heeded] at h
      cases h
      obtain ⟨change, measured, side, delivery⟩ := heed_ok heeded
      obtain ⟨cache, remembered, kept⟩ := remember_ok (r := next) field
      rw [remembered]
      refine ⟨?_, measured, side, delivery⟩
      rcases change with ⟨framing, contentLength, rfl⟩ | rfl
      · exact ⟨_, _, _, rfl, fun memory sound => kept memory (sound field rfl)⟩
      · exact ⟨_, _, _, rfl, fun _ sound => kept .disabled (sound field rfl)⟩

end Flush

inductive BlankStep (r : Reader) : Step → Prop where
  | fault (fault : Fault) : BlankStep r (.fail r fault)
  | body (framing : Framing) (stage : Stage) (body : stage.inBody = true)
      (uncounted : stage.isCounted = false) (more : r.Measured → stage ≠ .content 0)
      (kept : framing = .contentLength → r.framing = .contentLength) :
      BlankStep r
        { reader := { r with contentRead := 0, framing, stage }, events := [.headerComplete] }
  | finished (framing : Framing) (kept : framing = .contentLength → r.framing = .contentLength) :
      BlankStep r
        { reader := { r with contentRead := 0, framing, stage := .done }
          events := [.headerComplete, .messageComplete] }

theorem finalFraming_eq_contentLength {head : Head}
    (h : r.finalFraming head = .contentLength) : r.framing = .contentLength := by
  unfold finalFraming at h
  split at h
  · split at h
    · cases h
    · exact h
  · split at h
    · cases h
    · split at h
      · cases h
      · exact h

theorem endFields_blank (head : Head) : r.BlankStep (r.endFields head) := by
  have kept : r.finalFraming head = .contentLength → r.framing = .contentLength :=
    finalFraming_eq_contentLength
  unfold endFields
  split
  · exact .fault _
  · simp only
    split
    · exact .body _ .untilClose rfl rfl (fun _ => nofun) kept
    · next announced =>
      refine .body _ (.content _) rfl rfl ?_ kept
      -- The length was positive when it was announced, and only a length leads here.
      intro measured
      have positive := measured (kept announced)
      simpa using Nat.ne_of_gt positive
    · exact .body _ .chunkStart rfl rfl (fun _ => nofun) kept
    · exact .finished _ kept
    · exact .finished _ kept

/-- The field before the blank line touches no more than what fields may touch. -/
theorem flush_blank {head after : Head} {pending : Option Field} {flushed : Reader}
    {events : List Event} (h : r.flush head pending = .ok (flushed, after, events)) (b : UInt8) :
    ∃ framing contentLength cache step, (flushed.endLine b).endFields after = step ∧
      BlankStep { r.endLine b with framing, contentLength, cache } step ∧
      (r.Measured → Measured { r.endLine b with framing, contentLength, cache }) := by
  obtain ⟨⟨framing, contentLength, cache, rfl, _⟩, measured, _⟩ := flush_ok h
  exact ⟨framing, contentLength, cache, _, rfl, endFields_blank after, measured⟩

/-! One octet, anywhere. -/

theorem part_cases (stage : Stage) : stage.inStartLine = true ∨ stage.inFields = true ∨
    stage.inBody = true ∨ stage = .done ∨ stage = .closed := by
  cases stage <;> simp [Stage.inStartLine, Stage.inFields, Stage.inBody]

/-- What an octet leads to. The reader that gives it a meaning may have counted it. -/
inductive OctetStep (r : Reader) (capacity : Nat) (b : UInt8) : Step → Prop where
  | limit (headerBytes : Nat) (fault : Fault) :
      OctetStep r capacity b (.fail { r with headerBytes } fault)
  | lineRest (headerBytes : Nat) (afterCr : Bool) :
      OctetStep r capacity b (.quiet { r with headerBytes, afterCr })
  | idle (finished : r.stage = .done ∨ r.stage = .closed) :
      OctetStep r capacity b (.quiet { r with afterCr := false })
  | startLine (headerBytes : Nat) (line : r.stage.inStartLine = true) {step : Step}
      (cause : StartLineStep { r with headerBytes, afterCr := false } capacity b step) :
      OctetStep r capacity b step
  | fields (headerBytes : Nat) (line : r.stage.inFields = true) {step : Step}
      (cause : FieldStep { r with headerBytes, afterCr := false } b step) :
      OctetStep r capacity b step
  | body (headerBytes : Nat) (body : r.stage.inBody = true) {step : Step}
      (cause : BodyStep { r with headerBytes, afterCr := false } b step) :
      OctetStep r capacity b step

theorem accept_cases (h : r.Sound) (capacity headerBytes : Nat)
    (counted : r.stage.isCounted = true ∨ headerBytes = r.headerBytes) :
    r.OctetStep capacity b ({ r with headerBytes }.accept capacity b) := by
  unfold accept
  split
  · exact .lineRest headerBytes _
  · have sound : Sound { r with headerBytes, afterCr := false } := h.counted _ _
    rcases part_cases r.stage with line | line | body | finished
    · exact .startLine headerBytes line (interpret_startLine sound line)
    · exact .fields headerBytes line (interpret_fields sound line)
    · exact .body headerBytes body (interpret_body body)
    · -- Between messages nothing is counted, so the count is still the old one.
      have same : headerBytes = r.headerBytes := by
        rcases counted with counted | same
        · rcases finished with stage | stage <;>
            simp [stage, Stage.isCounted, Stage.inHead] at counted
        · exact same
      subst same
      have quiet : { r with afterCr := false }.interpret capacity b =
          .quiet { r with afterCr := false } := by
        rcases finished with stage | stage <;> simp only [interpret, stage]
      rw [quiet]
      exact .idle finished

theorem push_cases (h : r.Sound) (capacity : Nat) :
    r.OctetStep capacity b (r.push capacity b) := by
  unfold push
  split
  · next counted =>
    split
    · exact .limit _ _
    · exact accept_cases h capacity _ (.inl counted)
  · exact accept_cases h capacity r.headerBytes (.inr rfl)

end Reader
end HttpStream
