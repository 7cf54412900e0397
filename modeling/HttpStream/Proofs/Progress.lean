import HttpStream.Proofs.Calls
import HttpStream.Proofs.Registers
import Mathlib.Algebra.Group.Nat.Defs

/-! Within a message a reader goes from part to part and never back, so the loop that takes an octet
is one that has a case for it. -/

set_option autoImplicit false

namespace HttpStream

open Octet

def Loop.order : Loop → Nat
  | .opening => 0
  | .startLine => 1
  | .fields => 2
  | .body => 3

namespace Stage

/-- The place of the first loop that has a case for the stage. -/
def order (stage : Stage) : Nat :=
  if stage.isStart then 0 else if stage.inStartLine then 1 else if stage.inFields then 2 else 3

theorem order_le (stage : Stage) : stage.order ≤ 3 := by
  unfold order
  repeat' split
  all_goals omega

theorem order_of_inStartLine {stage : Stage} (line : stage.inStartLine = true) :
    stage.order ≤ 1 := by
  unfold order
  rw [line]
  split <;> simp

theorem order_of_not_isStart {stage : Stage} (later : stage.isStart = false) :
    1 ≤ stage.order := by
  simp only [order, later, Bool.false_eq_true, if_false]
  repeat' split
  all_goals omega

theorem order_of_inFields {stage : Stage} (line : stage.inFields = true) : stage.order = 2 := by
  cases stage <;> first | rfl | cases line

theorem order_of_outside {stage : Stage} (outside : stage.inHead = false) : stage.order = 3 := by
  cases stage <;> first | rfl | cases outside

theorem order_plain (stage : Stage) : stage.plain.order = stage.order := by
  cases stage <;> rfl

def Numeric : Stage → Prop
  | .status _ value digits => value < 10 ^ digits ∧ digits ≤ 3
  | _ => True

theorem numeric_of_inFields {stage : Stage} (line : stage.inFields = true) : stage.Numeric := by
  cases stage <;> trivial

theorem numeric_of_outside {stage : Stage} (outside : stage.inHead = false) : stage.Numeric := by
  cases stage <;> trivial

theorem numeric_plain (stage : Stage) : stage.plain.Numeric ↔ stage.Numeric := by
  cases stage <;> rfl

structure Precedes (before after : Stage) : Prop where
  order : before.order ≤ after.order
  numeric : before.Numeric → after.Numeric

theorem Precedes.refl (stage : Stage) : stage.Precedes stage := ⟨Nat.le_refl _, id⟩

theorem Precedes.trans {first second third : Stage} (left : first.Precedes second)
    (right : second.Precedes third) : first.Precedes third :=
  ⟨Nat.le_trans left.order right.order, right.numeric ∘ left.numeric⟩

theorem Precedes.of_outside {before after : Stage} (outside : after.inHead = false) :
    before.Precedes after := by
  refine ⟨?_, fun _ => numeric_of_outside outside⟩
  rw [order_of_outside outside]
  exact before.order_le

theorem Precedes.of_inFields {before after : Stage} (line : before.inFields = true)
    (later : after.inFields = true) : before.Precedes after := by
  refine ⟨?_, fun _ => numeric_of_inFields later⟩
  exact Nat.le_of_eq ((order_of_inFields line).trans (order_of_inFields later).symm)

end Stage

/-- A loop that is not past the stage leads to one that has a case for it. -/
theorem Loop.handles_of_next? {loop next : Loop} {stage : Stage}
    (order : loop.order ≤ stage.order) (found : loop.next? stage = some next) :
    next.handles stage = true ∧ next.order ≤ stage.order := by
  cases stage <;> cases loop <;>
    first
    | exact absurd order (Nat.not_le_of_lt (Nat.le_of_ble_eq_true rfl))
    | cases found; exact ⟨rfl, Nat.le_of_ble_eq_true rfl⟩
    | cases found

theorem Octet.digitValue_le (b : UInt8) : isDigit b = true → digitValue b ≤ 9 := by
  grind [isDigit, digitValue, UInt8.le_iff_toNat_le]

namespace Reader

variable {r s t : Reader} {b : UInt8} {capacity : Nat} {step : Step} {bytes : Bytes} {turn : Turn}

/-- An octet of the start line that leads to another stage does not lead back ahead of it, and a
status code has three digits at most. -/
theorem interpret_startLine_stage (line : r.stage.inStartLine = true) :
    (r.interpret capacity b).reader.stage = r.stage ∨
      (r.interpret capacity b).reader.stage.isStart = false ∧
        (r.stage.Numeric → (r.interpret capacity b).reader.stage.Numeric) := by
  -- Digits of a status are the only thing here that a bound has to be kept for.
  cases stage : r.stage with
  | beforeStatus version =>
    simp only [interpret, stage, pushBeforeStatus]
    split
    · exact .inl stage
    · split
      · next digit =>
        refine .inr ⟨rfl, fun _ => ⟨?_, by decide⟩⟩
        exact Nat.lt_succ_of_le (digitValue_le b digit)
      · exact .inl stage
  | status version value digits =>
    simp only [interpret, stage, pushStatus]
    split
    · next digit =>
      split
      · next short =>
        refine .inr ⟨rfl, fun numeric => ⟨?_, short⟩⟩
        have small := digitValue_le b digit
        have value := numeric.1
        rw [Nat.pow_succ]
        omega
      · exact .inl stage
    · repeat' split
      all_goals first | exact .inl stage | exact .inr ⟨rfl, fun _ => trivial⟩
  | start | method | beforeUri | uri | afterUri | requestVersion | responseVersion | afterStatus
  | reason =>
    simp only [interpret, stage, pushStart, pushMethod, pushBeforeUri, pushUri, pushAfterUri,
      pushRequestVersion, pushResponseVersion, pushAfterStatus, pushReason]
    repeat' split
    all_goals first | exact .inl stage | exact .inr ⟨rfl, fun _ => trivial⟩
  | _ => simp [stage, Stage.inStartLine] at line

theorem interpret_startLine_precedes (line : r.stage.inStartLine = true) :
    r.stage.Precedes (r.interpret capacity b).reader.stage := by
  rcases interpret_startLine_stage (r := r) line with same | ⟨later, numeric⟩
  · rw [same]
    exact .refl r.stage
  · refine ⟨Nat.le_trans (Stage.order_of_inStartLine line) ?_, numeric⟩
    exact Stage.order_of_not_isStart later

theorem FieldStep.precedes (h : r.FieldStep b step) (line : r.stage.inFields = true) :
    r.stage.Precedes step.reader.stage := by
  cases h with
  | inside stage ended inside => exact .of_inFields line inside
  | fault => exact .refl r.stage
  | field => exact .of_inFields line rfl
  | blank _ _ delivered =>
    obtain ⟨framing, contentLength, cache, step, same, blank, _⟩ := flush_blank delivered b
    rw [same]
    cases blank with
    | fault => exact .refl r.stage
    | body framing stage body => exact .of_outside (Stage.inHead_of_inBody body)
    | finished => exact .of_outside rfl

theorem interpret_precedes (sound : r.Sound) :
    r.stage.Precedes (r.interpret capacity b).reader.stage := by
  rcases part_cases r.stage with line | line | body | finished
  · exact interpret_startLine_precedes line
  · exact (interpret_fields sound line).precedes line
  · exact .of_outside ((interpret_body body).outside body)
  · have quiet : r.interpret capacity b = .quiet r := by
      rcases finished with stage | stage <;> simp only [interpret, stage]
    rw [quiet]
    exact .refl r.stage

theorem push_precedes (sound : r.Sound) : r.stage.Precedes (r.push capacity b).reader.stage := by
  rcases push_reader r capacity b with ⟨headerBytes, afterCr, same⟩ | ⟨headerBytes, same⟩
  · rw [same]
    exact .refl r.stage
  · rw [same]
    exact interpret_precedes (sound.counted headerBytes false)

theorem Noted.precedes (h : s.Noted t) : s.stage.Precedes t.stage := by
  refine ⟨?_, fun numeric => ?_⟩
  · apply Nat.le_of_eq
    rw [← t.stage.order_plain, h.stage, Stage.order_plain]
  · rw [← t.stage.numeric_plain, h.stage, Stage.numeric_plain]
    exact numeric

theorem TurnCase.precedes (h : r.TurnCase capacity b bytes turn) (sound : r.Sound) :
    r.stage.Precedes turn.step.reader.stage := by
  refine h.keeps (P := fun s => r.stage.Precedes s.stage) sound (.refl r.stage)
    (fun t b sound _ early => early.trans (push_precedes sound)) (fun _ _ _ early => early)
    (fun noted _ early => early.trans noted.precedes) fun b rest room => ?_
  have body : r.stage.inBody = true := (inBody_of_room room).1
  have after := deliver_inBody (r := { r with afterCr := false }) body (b :: rest)
  exact .of_outside (Stage.inHead_of_inBody after)

end Reader
end HttpStream
