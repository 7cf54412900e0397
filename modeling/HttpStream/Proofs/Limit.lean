import HttpStream.Proofs.Mask
import HttpStream.Proofs.Run

/-! The limit of the start line and the fields has no say in what an octet means. -/

set_option autoImplicit false

namespace HttpStream

open Octet

def Reader.under (r : Reader) (headerLimit : Nat) : Reader :=
  { r with settings := { r.settings with headerLimit } }

def Step.under (step : Step) (headerLimit : Nat) : Step :=
  { step with reader := step.reader.under headerLimit }

namespace Step

variable {step : Step} {n : Nat}

theorem shut_under : (step.under n).shut = step.shut.under n := by
  have fault : (step.under n).fault = step.fault := rfl
  unfold shut
  rw [fault]
  split <;> rfl

theorem andThen_under {next other : Reader → Step}
    (goes : other (step.reader.under n) = (next step.reader).under n) :
    (step.under n).andThen other = (step.andThen next).under n := by
  obtain ⟨reader, events, fault⟩ := step
  cases fault with
  | some fault => rfl
  | none => simp only [andThen, under, goes]

end Step

namespace Reader

variable {r : Reader} {b : UInt8} {n capacity : Nat}

theorem interpret_startLine_under (line : r.stage.inStartLine = true) :
    (r.under n).interpret capacity b = (r.interpret capacity b).under n := by
  have held : (r.under n).stage = r.stage := rfl
  have mode : (r.under n).mode = r.mode := rfl
  cases stage : r.stage <;> simp only [stage, Stage.inStartLine, Bool.false_eq_true] at line <;>
    simp only [interpret, held, stage, pushStart, mode, pushMethod, pushBeforeUri, pushUri,
      pushAfterUri, pushRequestVersion, pushResponseVersion, pushBeforeStatus, pushStatus,
      pushAfterStatus, pushReason] <;>
    repeat' first | rfl | split

theorem interpret_body_under (body : r.stage.inBody = true) :
    (r.under n).interpret capacity b = (r.interpret capacity b).under n := by
  have held : (r.under n).stage = r.stage := rfl
  have deliver : (r.under n).deliver [b] = (r.deliver [b]).under n := by
    unfold deliver
    rw [held]
    split <;> rfl
  have endChunkLine (size : Nat) :
      (r.under n).endChunkLine size b = (r.endChunkLine size b).under n := by
    have trailers : ((r.under n).endLine b).settings.trailers = (r.endLine b).settings.trailers :=
      rfl
    simp only [Reader.endChunkLine, trailers]
    repeat' first | rfl | split
  cases stage : r.stage with
  | chunkData remaining =>
    cases remaining <;> simp only [interpret, held, stage, deliver, pushChunkStart]
    all_goals repeat' first | rfl | split
  | untilClose | content | chunkStart | chunkSize | chunkParams | trailer =>
    simp only [interpret, held, stage, deliver, pushChunkStart, pushChunkSize, pushChunkParams,
      pushTrailer, endChunkLine]
    repeat' first | rfl | split
  | _ => simp [stage, Stage.inBody] at body

def underFirst (n : Nat) (result : Reader × Head × List Event) : Reader × Head × List Event :=
  (result.1.under n, result.2)

theorem remember_under (field : Field) :
    (r.under n).remember field = (r.remember field).under n := by
  unfold remember
  repeat' first | rfl | split

theorem heed_under (head : Head) (field : Field) :
    (r.under n).heed head field = (r.heed head field).map (underFirst n) := by
  have framing : (r.under n).framing = r.framing := rfl
  unfold heed
  split
  · unfold heedContentLength
    rw [framing]
    split
    · rfl
    · cases Value.contentLength field.value <;> rfl
  · unfold heedTransferEncoding
    cases Value.chunked field.value with
    | error => rfl
    | ok chunked => cases chunked <;> rfl
  · unfold heedConnection
    split <;> rfl
  · cases Value.host field.value <;> rfl
  · rfl

theorem flush_under (head : Head) (pending : Option Field) :
    (r.under n).flush head pending = (r.flush head pending).map (underFirst n) := by
  cases pending with
  | none => rfl
  | some field =>
    simp only [flush, heed_under]
    cases r.heed head field with
    | error fault => rfl
    | ok result =>
      obtain ⟨heeded, after, events⟩ := result
      exact congrArg (fun r => Except.ok (r, after, events ++ [.header field.name field.value]))
        (remember_under (r := heeded) field)

theorem endFields_under (head : Head) :
    (r.under n).endFields head = (r.endFields head).under n := by
  have final : (r.under n).finalFraming head = r.finalFraming head := rfl
  simp only [endFields, final]
  repeat' first | rfl | split

theorem interpret_fields_under (line : r.stage.inFields = true) :
    (r.under n).interpret capacity b = (r.interpret capacity b).under n := by
  have held : (r.under n).stage = r.stage := rfl
  cases stage : r.stage with
  | lineStart head pending =>
    simp only [interpret, held, stage, pushLineStart, flush_under]
    split
    · cases pending <;> rfl
    · cases r.flush head pending with
      | error fault => rfl
      | ok result =>
        obtain ⟨flushed, after, events⟩ := result
        simp only [Except.map, underFirst]
        split
        · exact congrArg (fun step : Step => { step with events := events ++ step.events })
            (endFields_under (r := flushed.endLine b) after)
        · rfl
  | fieldName | fieldValue =>
    simp only [interpret, held, stage, pushFieldName, pushFieldValue]
    repeat' first | rfl | split
  | _ => simp [stage, Stage.inFields] at line

theorem interpret_under : (r.under n).interpret capacity b = (r.interpret capacity b).under n := by
  rcases part_cases r.stage with line | line | body | finished
  · exact interpret_startLine_under line
  · exact interpret_fields_under line
  · exact interpret_body_under body
  · have held : (r.under n).stage = r.stage := rfl
    rcases finished with stage | stage <;> simp only [interpret, held, stage] <;> rfl

theorem settle_under : (r.under n).settle = r.settle.under n := by
  have held : (r.under n).stage = r.stage := rfl
  unfold settle
  rw [held]
  split <;> rfl

end Reader
end HttpStream
