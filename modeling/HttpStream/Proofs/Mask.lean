import HttpStream.Proofs.Invariant

/-! What an octet leads to does not depend on the fields that are remembered, on their number, or
on how a line was recognized; and its meaning does not depend on the octets counted so far. -/

set_option autoImplicit false

namespace HttpStream

def Field.plain (field : Field) : Field := { field with recognized := false }

namespace Stage

/-- The stage without the notes that lines were recognized. -/
def plain : Stage → Stage
  | .lineStart head pending => .lineStart head (pending.map Field.plain)
  | .fieldValue head standard name token folding _ =>
    .fieldValue head standard name token folding false
  | stage => stage

@[simp] theorem plain_plain (stage : Stage) : stage.plain.plain = stage.plain := by
  cases stage with
  | lineStart head pending => cases pending <;> rfl
  | _ => rfl

@[simp] theorem plain_eq_done {stage : Stage} : stage.plain = .done ↔ stage = .done := by
  cases stage <;> simp [plain]

@[simp] theorem plain_eq_closed {stage : Stage} : stage.plain = .closed ↔ stage = .closed := by
  cases stage <;> simp [plain]

@[simp] theorem plain_eq_content {stage : Stage} {remaining : Nat} :
    stage.plain = .content remaining ↔ stage = .content remaining := by
  cases stage <;> simp [plain]

@[simp] theorem plain_eq_lineStart {stage : Stage} {head : Head} :
    stage.plain = .lineStart head none ↔ stage = .lineStart head none := by
  cases stage with
  | lineStart head pending => cases pending <;> simp [plain]
  | _ => simp [plain]

@[simp] theorem label_plain (stage : Stage) : stage.plain.label = stage.label := by
  cases stage <;> rfl

@[simp] theorem isCounted_plain (stage : Stage) : stage.plain.isCounted = stage.isCounted := by
  cases stage <;> rfl

@[simp] theorem isComplete_plain (stage : Stage) : stage.plain.isComplete = stage.isComplete := by
  cases stage <;> rfl

theorem isComplete_eq_false {stage : Stage} (busy : stage ≠ .done) (open_ : stage ≠ .closed) :
    stage.isComplete = false := by
  simp [isComplete, busy, open_]

@[simp] theorem isIdle_plain (stage : Stage) : stage.plain.isIdle = stage.isIdle := by
  cases stage <;> rfl

@[simp] theorem isStart_plain (stage : Stage) : stage.plain.isStart = stage.isStart := by
  cases stage <;> rfl

@[simp] theorem isClosed_plain (stage : Stage) : stage.plain.isClosed = stage.isClosed := by
  cases stage <;> rfl

@[simp] theorem inHead_plain (stage : Stage) : stage.plain.inHead = stage.inHead := by
  cases stage <;> rfl

@[simp] theorem inBody_plain (stage : Stage) : stage.plain.inBody = stage.inBody := by
  cases stage <;> rfl

end Stage

namespace Reader

/-- The reader with nothing remembered, and with another count. -/
def masked (r : Reader) (headerBytes : Nat) : Reader :=
  { r with
    settings := { r.settings with memoryCapacity := 0 }
    stage := r.stage.plain
    headerBytes
    cache := .unset }

end Reader

def Step.masked (step : Step) (headerBytes : Nat) : Step :=
  { step with reader := step.reader.masked headerBytes }

namespace Reader

variable {r s : Reader} {b : UInt8} {m n capacity other : Nat}

theorem masked_masked (r : Reader) (m n : Nat) : (r.masked m).masked n = r.masked n := by
  simp [masked]

theorem quiet_masked (r : Reader) (m n : Nat) :
    (Step.quiet (r.masked m)).masked n = (Step.quiet r).masked n :=
  congrArg Step.quiet (masked_masked r m n)

theorem fail_masked (r : Reader) (m n : Nat) (fault : Fault) :
    (Step.fail (r.masked m) fault).masked n = (Step.fail r fault).masked n :=
  congrArg (Step.fail · fault) (masked_masked r m n)

/-! The start line. -/

section StartLine

theorem pushStart_masked : ((r.masked m).pushStart b).masked n = (r.pushStart b).masked n := by
  have mode : (r.masked m).mode = r.mode := rfl
  simp only [pushStart, mode]
  split
  · cases r.mode <;> rfl
  · exact quiet_masked r m n

theorem pushMethod_masked (token : Snoc Char) :
    ((r.masked m).pushMethod token b).masked n = (r.pushMethod token b).masked n := by
  unfold pushMethod
  split
  · cases Method.ofText? token.toList with
    | some method => rfl
    | none => exact fail_masked r m n _
  · split
    · exact fail_masked r m n _
    · rfl

theorem pushBeforeUri_masked (method : Method) :
    ((r.masked m).pushBeforeUri method b).masked n = (r.pushBeforeUri method b).masked n := by
  unfold pushBeforeUri
  split
  · exact quiet_masked r m n
  · split
    · exact fail_masked r m n _
    · rfl

theorem pushUri_masked (method : Method) :
    ((r.masked m).pushUri method b).masked n = (r.pushUri method b).masked n := by
  unfold pushUri
  split
  · rfl
  · split
    · rfl
    · simp [Step.masked, Step.quiet, masked]

theorem pushAfterUri_masked (method : Method) :
    ((r.masked m).pushAfterUri method b).masked n = (r.pushAfterUri method b).masked n := by
  unfold pushAfterUri
  split
  · exact quiet_masked r m n
  · split <;> rfl

theorem pushRequestVersion_masked (method : Method) (token : Snoc Char) :
    ((r.masked m).pushRequestVersion other method token b).masked n =
      (r.pushRequestVersion capacity method token b).masked n := by
  unfold pushRequestVersion
  split
  · cases Version.ofText? token.toList with
    | some version => rfl
    | none => exact fail_masked r m n _
  · rfl

theorem pushResponseVersion_masked (token : Snoc Char) :
    ((r.masked m).pushResponseVersion token b).masked n =
      (r.pushResponseVersion token b).masked n := by
  unfold pushResponseVersion
  split
  · cases Version.ofText? token.toList with
    | some version => rfl
    | none => exact fail_masked r m n _
  · split
    · exact fail_masked r m n _
    · rfl

theorem pushBeforeStatus_masked (version : Version) :
    ((r.masked m).pushBeforeStatus version b).masked n =
      (r.pushBeforeStatus version b).masked n := by
  unfold pushBeforeStatus
  split
  · exact quiet_masked r m n
  · split
    · rfl
    · exact fail_masked r m n _

theorem pushStatus_masked (version : Version) (value digits : Nat) :
    ((r.masked m).pushStatus version value digits b).masked n =
      (r.pushStatus version value digits b).masked n := by
  unfold pushStatus
  split
  · split
    · rfl
    · exact fail_masked r m n _
  · split
    · exact fail_masked r m n _
    · split
      · rfl
      · split
        · rfl
        · exact fail_masked r m n _

theorem pushAfterStatus_masked (version : Version) (status : Nat) :
    ((r.masked m).pushAfterStatus version status b).masked n =
      (r.pushAfterStatus version status b).masked n := by
  unfold pushAfterStatus
  split
  · exact quiet_masked r m n
  · split <;> rfl

theorem pushReason_masked (version : Version) (status : Nat) (token : Snoc Char) :
    ((r.masked m).pushReason version status token b).masked n =
      (r.pushReason version status token b).masked n := by
  unfold pushReason
  split <;> rfl

end StartLine

/-! The field section. -/

section Fields

def maskedFirst (n : Nat) (result : Reader × Head × List Event) : Reader × Head × List Event :=
  (result.1.masked n, result.2)

theorem heedContentLength_masked (value : Text) :
    ((r.masked m).heedContentLength value).map (·.masked n) =
      (r.heedContentLength value).map (·.masked n) := by
  have framing : (r.masked m).framing = r.framing := rfl
  simp only [heedContentLength, framing]
  split
  · exact congrArg Except.ok (masked_masked r m n)
  · cases Value.contentLength value with
    | error fault => rfl
    | ok length => exact congrArg Except.ok (by simp [masked])

theorem heedTransferEncoding_masked (value : Text) :
    ((r.masked m).heedTransferEncoding value).map (·.masked n) =
      (r.heedTransferEncoding value).map (·.masked n) := by
  unfold heedTransferEncoding
  cases Value.chunked value with
  | error fault => rfl
  | ok chunked => cases chunked <;> exact congrArg Except.ok (by simp [masked])

theorem heedConnection_masked (value : Text) :
    ((r.masked m).heedConnection value).masked n = (r.heedConnection value).masked n := by
  unfold heedConnection
  split <;> simp [masked]

theorem map_maskedFirst (result : Except Fault Reader) (head : Head) :
    (do pure (← result, head, ([] : List Event))).map (maskedFirst n) =
      (result.map (·.masked n)).map (·, head, []) := by
  cases result <;> rfl

theorem heed_masked (head : Head) (field : Field) :
    ((r.masked m).heed head field.plain).map (maskedFirst n) =
      (r.heed head field).map (maskedFirst n) := by
  have same (result : Head × List Event) :
      maskedFirst n (r.masked m, result) = maskedFirst n (r, result) :=
    congrArg (·, result) (masked_masked r m n)
  obtain ⟨standard, name, value, recognized⟩ := field
  simp only [Field.plain, heed]
  split
  · rw [map_maskedFirst, map_maskedFirst, heedContentLength_masked]
  · rw [map_maskedFirst, map_maskedFirst, heedTransferEncoding_masked]
  · exact congrArg (fun next => Except.ok (next, head, [])) (heedConnection_masked value)
  · cases Value.host value with
    | error fault => rfl
    | ok parts => exact congrArg Except.ok (same _)
  · exact congrArg Except.ok (same _)

theorem remember_masked (field : Field) : (r.remember field).masked n = r.masked n := by
  obtain ⟨cache, remembered, _⟩ := remember_ok (r := r) field
  rw [remembered]
  rfl

theorem flush_masked (head : Head) (pending : Option Field) :
    ((r.masked m).flush head (pending.map Field.plain)).map (maskedFirst n) =
      (r.flush head pending).map (maskedFirst n) := by
  cases pending with
  | none => exact congrArg (fun next => Except.ok (next, head, [])) (masked_masked r m n)
  | some field =>
    -- What is remembered does not show, so a field delivers what its meaning says.
    have delivered (r : Reader) (field : Field) :
        (r.flush head (some field)).map (maskedFirst n) =
          ((r.heed head field).map (maskedFirst n)).map fun heeded =>
            (heeded.1, heeded.2.1, heeded.2.2 ++ [.header field.name field.value]) := by
      simp only [flush]
      cases r.heed head field with
      | error fault => rfl
      | ok result =>
        obtain ⟨next, after, events⟩ := result
        exact congrArg (fun next => Except.ok (next, after, events ++ [_])) (remember_masked field)
    rw [Option.map_some, delivered, delivered, heed_masked]
    rfl

theorem endFields_masked (head : Head) :
    ((r.masked m).endFields head).masked n = (r.endFields head).masked n := by
  have final : (r.masked m).finalFraming head = r.finalFraming head := rfl
  simp only [endFields, final]
  split
  · exact fail_masked r m n _
  · cases r.finalFraming head <;> rfl

theorem endFields_congr (head : Head) (same : r.masked n = s.masked n) :
    (r.endFields head).masked n = (s.endFields head).masked n := by
  rw [← endFields_masked (r := r), same, endFields_masked]

theorem pushLineStart_masked (head : Head) (pending : Option Field) :
    ((r.masked m).pushLineStart head (pending.map Field.plain) b).masked n =
      (r.pushLineStart head pending b).masked n := by
  unfold pushLineStart
  split
  · cases pending with
    | some field => rfl
    | none => exact fail_masked r m n _
  · -- Both deliver the field before, or neither does, and then for the same fault.
    have flushed := flush_masked (r := r) (m := m) (n := n) head pending
    cases left : (r.masked m).flush head (pending.map Field.plain) with
    | error fault =>
      cases right : r.flush head pending with
      | error other =>
        rw [left, right] at flushed
        cases flushed
        exact fail_masked r m n _
      | ok result => rw [left, right] at flushed; cases flushed
    | ok result =>
      cases right : r.flush head pending with
      | error fault => rw [left, right] at flushed; cases flushed
      | ok other =>
        rw [left, right] at flushed
        obtain ⟨first, after, events⟩ := result
        obtain ⟨second, _, _⟩ := other
        obtain ⟨same, rfl, rfl⟩ : first.masked n = second.masked n ∧ _ ∧ _ := by
          simpa [Except.map, maskedFirst] using flushed
        simp only
        split
        · have ended : (first.endLine b).masked n = (second.endLine b).masked n :=
            congrArg (fun r => r.endLine b) same
          exact congrArg (fun step : Step => { step with events := events ++ step.events })
            (endFields_congr after ended)
        · exact congrArg (fun r : Reader => (⟨r.enter _, events, none⟩ : Step)) same

theorem pushFieldName_masked (head : Head) (token : Snoc Char) :
    ((r.masked m).pushFieldName head token b).masked n =
      (r.pushFieldName head token b).masked n := by
  unfold pushFieldName
  split
  · rfl
  · split <;> rfl

theorem pushFieldValue_masked (head : Head) (standard : Option StandardName) (name : Text)
    (token : Snoc Char) (folding recognized : Bool) :
    ((r.masked m).pushFieldValue head standard name token folding false b).masked n =
      (r.pushFieldValue head standard name token folding recognized b).masked n := by
  unfold pushFieldValue
  split
  · rfl
  · split
    · split
      · exact quiet_masked r m n
      · rfl
    · rfl

end Fields

/-! The body. -/

section Body

theorem deliver_masked (bytes : Bytes) :
    ((r.masked m).deliver bytes).masked n = (r.deliver bytes).masked n := by
  have held : (r.masked m).stage = r.stage.plain := rfl
  cases stage : r.stage with
  | lineStart head pending =>
    simp only [deliver, held, stage, Stage.plain]
    cases pending <;> rfl
  | _ => simp only [deliver, held, stage, Stage.plain]; rfl

theorem endChunkLine_masked (size : Nat) :
    ((r.masked m).endChunkLine size b).masked n = (r.endChunkLine size b).masked n := by
  have trailers : ((r.masked m).endLine b).settings.trailers =
      (r.endLine b).settings.trailers := rfl
  simp only [endChunkLine, trailers]
  split
  · rfl
  · split <;> rfl

theorem pushChunkStart_masked :
    ((r.masked m).pushChunkStart b).masked n = (r.pushChunkStart b).masked n := by
  unfold pushChunkStart
  split
  · cases Octet.hexValue? b <;> rfl
  · rfl

theorem pushChunkSize_masked (size : Nat) :
    ((r.masked m).pushChunkSize size b).masked n = (r.pushChunkSize size b).masked n := by
  unfold pushChunkSize
  split
  · exact endChunkLine_masked size
  · split
    · rfl
    · cases Octet.hexValue? b with
      | some digit =>
        simp only
        split
        · rfl
        · exact fail_masked r m n _
      | none => exact fail_masked r m n _

theorem pushChunkParams_masked (size : Nat) :
    ((r.masked m).pushChunkParams size b).masked n = (r.pushChunkParams size b).masked n := by
  unfold pushChunkParams
  split
  · exact endChunkLine_masked size
  · exact quiet_masked r m n

theorem pushTrailer_masked (token : Snoc Char) :
    ((r.masked m).pushTrailer token b).masked n = (r.pushTrailer token b).masked n := by
  unfold pushTrailer
  split
  · rfl
  · split <;> rfl

end Body

theorem interpret_masked : ((r.masked m).interpret other b).masked n =
    (r.interpret capacity b).masked n := by
  have held : (r.masked m).stage = r.stage.plain := rfl
  cases stage : r.stage with
  | start => simp only [interpret, held, stage, Stage.plain, pushStart_masked]
  | method token => simp only [interpret, held, stage, Stage.plain, pushMethod_masked]
  | beforeUri method => simp only [interpret, held, stage, Stage.plain, pushBeforeUri_masked]
  | uri method => simp only [interpret, held, stage, Stage.plain, pushUri_masked]
  | afterUri method => simp only [interpret, held, stage, Stage.plain, pushAfterUri_masked]
  | requestVersion method token =>
    simp only [interpret, held, stage, Stage.plain]
    exact pushRequestVersion_masked method token
  | responseVersion token =>
    simp only [interpret, held, stage, Stage.plain, pushResponseVersion_masked]
  | beforeStatus version =>
    simp only [interpret, held, stage, Stage.plain, pushBeforeStatus_masked]
  | status version value digits =>
    simp only [interpret, held, stage, Stage.plain, pushStatus_masked]
  | afterStatus version status =>
    simp only [interpret, held, stage, Stage.plain, pushAfterStatus_masked]
  | reason version status token =>
    simp only [interpret, held, stage, Stage.plain, pushReason_masked]
  | lineStart head pending =>
    simp only [interpret, held, stage, Stage.plain, pushLineStart_masked]
  | fieldName head token =>
    simp only [interpret, held, stage, Stage.plain, pushFieldName_masked]
  | fieldValue head standard name token folding recognized =>
    simp only [interpret, held, stage, Stage.plain]
    exact pushFieldValue_masked head standard name token folding recognized
  | untilClose => simp only [interpret, held, stage, Stage.plain, deliver_masked]
  | content remaining => simp only [interpret, held, stage, Stage.plain, deliver_masked]
  | chunkStart => simp only [interpret, held, stage, Stage.plain, pushChunkStart_masked]
  | chunkSize size => simp only [interpret, held, stage, Stage.plain, pushChunkSize_masked]
  | chunkParams size => simp only [interpret, held, stage, Stage.plain, pushChunkParams_masked]
  | chunkData remaining =>
    cases remaining with
    | zero => simp only [interpret, held, stage, Stage.plain, pushChunkStart_masked]
    | succ remaining => simp only [interpret, held, stage, Stage.plain, deliver_masked]
  | trailer token => simp only [interpret, held, stage, Stage.plain, pushTrailer_masked]
  | done => simp only [interpret, held, stage, Stage.plain, quiet_masked]
  | closed => simp only [interpret, held, stage, Stage.plain, quiet_masked]

end Reader
end HttpStream
