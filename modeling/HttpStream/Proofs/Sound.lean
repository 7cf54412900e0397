import HttpStream.Proofs.Memory
import HttpStream.Reader.Push

/-! What holds of every reader that is reached: a stage belongs to the side that is read, a field
is known by the name it has, values are text of one line without blanks at their ends, and so are
the remembered ones; a body that is as long as announced is not empty. -/

set_option autoImplicit false

namespace HttpStream

open Octet

def Head.side : Head → Mode
  | .request _ _ => .request
  | .response _ => .response

structure Field.Sound (field : Field) : Prop where
  standard : field.standard = StandardName.ofText? field.name
  value : Text.IsValue field.value

namespace Stage

/-- The side whose messages have this stage, if it is a stage of one side only. -/
def side? : Stage → Option Mode
  | .method _ | .beforeUri _ | .uri _ | .afterUri _ | .requestVersion _ _ => some .request
  | .responseVersion _ | .beforeStatus _ | .status _ _ _ | .afterStatus _ _ | .reason _ _ _ =>
    some .response
  | .lineStart head _ | .fieldName head _ | .fieldValue head _ _ _ _ _ => some head.side
  | .start | .done | .untilClose | .content _ | .chunkStart | .chunkSize _ | .chunkParams _
  | .chunkData _ | .trailer _ | .closed => none

def head? : Stage → Option Head
  | .lineStart head _ | .fieldName head _ | .fieldValue head _ _ _ _ _ => some head
  | _ => none

def Sound : Stage → Prop
  | .lineStart _ (some field) => field.Sound
  | .fieldValue _ standard name token _ _ =>
    standard = StandardName.ofText? name ∧ token.IsValuePart
  | _ => True

end Stage

namespace Reader

def Measured (r : Reader) : Prop := r.framing = .contentLength → 0 < r.contentLength.getD 0

structure Sound (r : Reader) : Prop where
  stage : r.stage.Sound
  side : ∀ mode ∈ r.stage.side?, mode = r.mode
  cache : r.cache.Sound
  measured : r.Measured

theorem Sound.fresh (mode : Mode) (settings : Settings) : Sound { mode, settings } :=
  ⟨trivial, by rintro _ ⟨⟩, by rintro _ ⟨⟩, nofun⟩

variable {r : Reader}

/-! What an octet leaves alone. -/

@[simp] theorem enter_stage (r : Reader) (stage : Stage) : (r.enter stage).stage = stage := rfl
@[simp] theorem enter_settings (r : Reader) (stage : Stage) :
    (r.enter stage).settings = r.settings := rfl
@[simp] theorem endLine_stage (r : Reader) (b : UInt8) : (r.endLine b).stage = r.stage := rfl
@[simp] theorem count_stage (r : Reader) : r.count.stage = r.stage := rfl

theorem Sound.enter (h : r.Sound) {stage : Stage} (sound : stage.Sound)
    (side : ∀ mode ∈ stage.side?, mode = r.mode) : (r.enter stage).Sound :=
  ⟨sound, side, h.cache, h.measured⟩

theorem Sound.counted (h : r.Sound) (headerBytes : Nat) (afterCr : Bool) :
    Sound { r with headerBytes, afterCr } :=
  ⟨h.stage, h.side, h.cache, h.measured⟩

theorem Sound.endLine (h : r.Sound) (b : UInt8) : (r.endLine b).Sound := h.counted _ _

theorem Sound.count (h : r.Sound) : r.count.Sound := h.counted _ _

theorem Sound.mode (h : r.Sound) {mode : Mode} (side : r.stage.side? = some mode) :
    r.mode = mode := (h.side mode side).symm

end Reader
end HttpStream
