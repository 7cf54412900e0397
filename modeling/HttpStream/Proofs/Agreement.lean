import HttpStream.Proofs.Calls
import HttpStream.Proofs.Registers

/-! The registers agree with the stage. From this it follows where the text may be cut and how far
a chunk has come. -/

set_option autoImplicit false

namespace HttpStream

open Octet

namespace Snoc

theorem trimmed_push_of_blank {c : Char} (blank : Text.isBlank c = true) (token : Snoc Char) :
    (token.push c).trimmed Text.isBlank = token.trimmed Text.isBlank := by
  simp [trimmed, push, blank]

theorem trimmed_of_closed {token : Snoc Char} (closed : Text.IsClosed token.toList) :
    token.trimmed Text.isBlank = token.toList := by
  have whole := trimmed_ofList closed
  rwa [show ofList token.toList = token by simp [ofList, toList]] at whole

theorem closed_push {c : Char} (text : Text.isBlank c = false) (token : Snoc Char) :
    Text.IsClosed (token.push c).toList := by
  simp [Text.IsClosed, text]

end Snoc

namespace Registers

variable {registers : Registers} {token : Snoc Char}

def Holds (registers : Registers) (token : Snoc Char) : Prop :=
  registers.text = String.ofList token.toList

/-- The length is that of the token without the blanks at its end. -/
def Marks (registers : Registers) (token : Snoc Char) : Prop :=
  registers.length = (String.ofList (token.trimmed Text.isBlank)).utf8ByteSize

theorem clear_holds (registers : Registers) : registers.clear.Holds .empty := rfl

theorem Holds.add (h : registers.Holds token) (c : Char) :
    (registers.add c).Holds (token.push c) := by
  have text : registers.text = String.ofList token.toList := h
  simp [Holds, Registers.add, text]

theorem Holds.isEmpty (h : registers.Holds token) : registers.text.isEmpty = token.isEmpty := by
  have text : registers.text = String.ofList token.toList := h
  rw [text, ← Snoc.isEmpty_toList]
  cases token.toList <;> simp [String.isEmpty_iff]

theorem Holds.mark (h : registers.Holds token) (closed : Text.IsClosed token.toList) :
    registers.mark.Holds token ∧ registers.mark.Marks token := by
  refine ⟨h, ?_⟩
  have text : registers.text = String.ofList token.toList := h
  simp [Marks, Registers.mark, Snoc.trimmed_of_closed closed, text]

theorem hold_holds (registers : Registers) (closed : Text.IsClosed token.toList) :
    (registers.hold token).Holds token ∧ (registers.hold token).Marks token := by
  have holds : Holds { registers with text := String.ofList token.toList } token := rfl
  exact holds.mark closed

theorem Holds.add_mark (h : registers.Holds token) {c : Char} (text : Text.isBlank c = false) :
    (registers.add c).mark.Holds (token.push c) ∧ (registers.add c).mark.Marks (token.push c) :=
  (h.add c).mark (Snoc.closed_push text token)

theorem Marks.add (h : registers.Marks token) {c : Char} (blank : Text.isBlank c = true) :
    (registers.add c).Marks (token.push c) := by
  unfold Marks
  rw [Snoc.trimmed_push_of_blank blank]
  exact h

theorem Holds.extend (h : registers.Holds token) (marks : registers.Marks token) (b : UInt8) :
    (registers.extend b).Holds (token.push (toChar b)) ∧
      (registers.extend b).Marks (token.push (toChar b)) := by
  unfold Registers.extend
  split
  · next blank => exact ⟨h.add _, marks.add ((isBlank_toChar b).trans blank)⟩
  · next text => exact h.add_mark ((isBlank_toChar b).trans (by simpa using text))

/-- The length is a place between two characters of the text, or one of its ends. -/
theorem Holds.isValid (h : registers.Holds token) (marks : registers.Marks token) :
    String.Pos.Raw.IsValid registers.text ⟨registers.length⟩ := by
  obtain ⟨n, front⟩ := Snoc.trimmed_eq_take Text.isBlank token
  refine String.Pos.Raw.isValid_iff_exists_append.mpr
    ⟨String.ofList (token.trimmed Text.isBlank), String.ofList (token.toList.drop n), ?_, ?_⟩
  · have text : registers.text = String.ofList token.toList := h
    rw [← String.ofList_append, front, List.take_append_drop, text]
  · have length : registers.length = _ := marks
    rw [length]
    rfl

def Agree (registers : Registers) : Stage → Prop
  | .method token | .requestVersion _ token | .responseVersion token | .trailer token =>
    registers.Holds token
  | .reason _ _ token | .fieldName _ token | .fieldValue _ _ _ token _ _ =>
    registers.Holds token ∧ registers.Marks token
  | .chunkSize size | .chunkParams size =>
    registers.chunkLength = size ∧ size < UInt64.size ∧ registers.chunkPosition = 0
  | .chunkData remaining =>
    registers.chunkPosition + remaining = registers.chunkLength ∧
      registers.chunkLength < UInt64.size
  | _ => True

end Registers

def Stage.Opens : Stage → Prop
  | .fieldName _ token | .fieldValue _ _ _ token _ _ => Text.IsClosed token.toList
  | .untilClose | .content _ | .chunkStart | .done => True
  | _ => False

theorem Registers.openLine_agree (registers : Registers) {head : Head} {pending : Option Field}
    {after : Stage} (opens : after.Opens) :
    (registers.openLine (.lineStart head pending) after).Agree after := by
  cases after with
  | fieldName | fieldValue => exact registers.hold_holds opens
  | untilClose | content | chunkStart | done => trivial
  | _ => cases opens

theorem Octet.hexValue?_lt (b : UInt8) : ∀ digit ∈ hexValue? b, digit < 16 := by
  grind [hexValue?, isDigit, UInt8.le_iff_toNat_le]

namespace Reader

open Registers (Agree)

variable {r : Reader} {registers : Registers} {b : UInt8} {capacity : Nat}

theorem endChunkLine_agree {size : Nat} (agree : registers.Agree (.chunkParams size)) :
    (registers.endChunkLine r.settings.trailers).Agree (r.endChunkLine size b).reader.stage := by
  obtain ⟨rfl, small, position⟩ := agree
  have trailers : (r.endLine b).settings.trailers = r.settings.trailers := rfl
  simp only [endChunkLine, Registers.endChunkLine, trailers]
  rcases Nat.eq_zero_or_pos registers.chunkLength with zero | more
  · rw [zero, if_neg (Nat.lt_irrefl 0)]
    cases r.settings.trailers with
    | true => exact registers.clear_holds
    | false => trivial
  · rw [if_pos more, if_neg (by simp [Nat.ne_of_gt more])]
    exact ⟨by rw [position, Nat.zero_add], small⟩

theorem pushChunkStart_agree (registers : Registers) :
    (registers.beginChunk b).Agree (r.pushChunkStart b).reader.stage := by
  simp only [pushChunkStart, Registers.beginChunk]
  cases isVisible b with
  | false => trivial
  | true =>
    cases found : hexValue? b with
    | none => trivial
    | some digit => exact ⟨rfl, Nat.lt_trans (hexValue?_lt b digit found) (by decide), rfl⟩

/-! One octet of a start line. -/

theorem interpret_start_agree (registers : Registers) (stage : r.stage = .start) :
    (registers.interpret r b).Agree (r.interpret capacity b).reader.stage := by
  simp only [interpret, Registers.interpret, stage, pushStart]
  split
  · cases r.mode <;> exact registers.clear_holds.add _
  · simp only [Step.quiet, stage]
    trivial

theorem interpret_word_agree {token : Snoc Char}
    (stage : r.stage = .method token ∨ r.stage = .responseVersion token)
    (agree : registers.Agree r.stage) :
    (registers.interpret r b).Agree (r.interpret capacity b).reader.stage := by
  have holds : registers.Holds token := by
    rcases stage with stage | stage <;> rwa [stage] at agree
  rcases stage with stage | stage
  all_goals
    simp only [interpret, Registers.interpret, stage, pushMethod, pushResponseVersion]
    by_cases space : b = sp
    · rw [if_pos space, if_pos (by simp [space])]
      split
      · trivial
      · simpa only [Step.fail, stage]
    · rw [if_neg space]
      cases control : isControl b with
      | true => simpa [Step.fail, stage]
      | false =>
        rw [if_neg (by simp [space])]
        exact holds.add _

theorem interpret_requestVersion_agree {method : Method} {token : Snoc Char}
    (stage : r.stage = .requestVersion method token) (agree : registers.Agree r.stage) :
    (registers.interpret r b).Agree (r.interpret capacity b).reader.stage := by
  have holds : registers.Holds token := by rwa [stage] at agree
  simp only [interpret, Registers.interpret, stage, pushRequestVersion]
  split
  · split
    · trivial
    · simpa only [Step.fail, stage]
  · exact holds.add _

theorem interpret_afterUri_agree (registers : Registers) {method : Method}
    (stage : r.stage = .afterUri method) :
    (registers.interpret r b).Agree (r.interpret capacity b).reader.stage := by
  simp only [interpret, Registers.interpret, stage, pushAfterUri]
  cases isBlank b with
  | true => simp only [Step.quiet, stage, if_true]; trivial
  | false =>
    cases isControl b with
    | true => trivial
    | false => exact registers.clear_holds.add _

theorem interpret_afterStatus_agree (registers : Registers) {version : Version} {status : Nat}
    (stage : r.stage = .afterStatus version status) :
    (registers.interpret r b).Agree (r.interpret capacity b).reader.stage := by
  simp only [interpret, Registers.interpret, stage, pushAfterStatus]
  cases blank : isBlank b with
  | true => simp only [Step.quiet, stage, if_true]; trivial
  | false =>
    cases isControl b with
    | true => trivial
    | false => exact registers.clear_holds.add_mark ((isBlank_toChar b).trans blank)

theorem interpret_reason_agree {version : Version} {status : Nat} {token : Snoc Char}
    (stage : r.stage = .reason version status token) (agree : registers.Agree r.stage) :
    (registers.interpret r b).Agree (r.interpret capacity b).reader.stage := by
  obtain ⟨holds, marks⟩ : registers.Holds token ∧ registers.Marks token := by rwa [stage] at agree
  simp only [interpret, Registers.interpret, stage, pushReason]
  split
  · trivial
  · exact holds.extend marks b

theorem interpret_startLine_agree (agree : registers.Agree r.stage)
    (line : r.stage.inStartLine = true) :
    (registers.interpret r b).Agree (r.interpret capacity b).reader.stage := by
  cases stage : r.stage with
  | start => exact interpret_start_agree registers stage
  | method => exact interpret_word_agree (.inl stage) agree
  | responseVersion => exact interpret_word_agree (.inr stage) agree
  | requestVersion => exact interpret_requestVersion_agree stage agree
  | afterUri => exact interpret_afterUri_agree registers stage
  | afterStatus => exact interpret_afterStatus_agree registers stage
  | reason => exact interpret_reason_agree stage agree
  -- No register is tied to the other stages.
  | beforeUri | uri | beforeStatus | status =>
    simp only [interpret, stage, pushBeforeUri, pushUri, pushBeforeStatus, pushStatus]
    repeat' split
    all_goals first | trivial | (simp only [Step.quiet, Step.fail, stage]; trivial)
  | _ => simp [stage, Stage.inStartLine] at line

/-! One octet of a field line, and one of a body. -/

theorem interpret_fieldName_agree {head : Head} {token : Snoc Char}
    (stage : r.stage = .fieldName head token) (agree : registers.Agree r.stage) :
    (registers.interpret r b).Agree (r.interpret capacity b).reader.stage := by
  obtain ⟨holds, marks⟩ : registers.Holds token ∧ registers.Marks token := by rwa [stage] at agree
  simp only [interpret, Registers.interpret, stage, pushFieldName]
  split
  · trivial
  · split
    · exact ⟨registers.clear_holds, rfl⟩
    · exact holds.extend marks b

theorem interpret_fieldValue_agree {head : Head} {standard : Option StandardName} {name : Text}
    {token : Snoc Char} {folding recognized : Bool}
    (stage : r.stage = .fieldValue head standard name token folding recognized)
    (agree : registers.Agree r.stage) :
    (registers.interpret r b).Agree (r.interpret capacity b).reader.stage := by
  obtain ⟨holds, marks⟩ : registers.Holds token ∧ registers.Marks token := by rwa [stage] at agree
  simp only [interpret, Registers.interpret, stage, pushFieldValue, holds.isEmpty]
  split
  · trivial
  · split
    · next blank =>
      split
      · simp only [Step.quiet, stage]
        exact ⟨holds, marks⟩
      · exact ⟨holds.add _, marks.add ((isBlank_toChar b).trans blank)⟩
    · next text =>
      have text : Text.isBlank (toChar b) = false :=
        (isBlank_toChar b).trans (by simpa using text)
      split
      · exact (holds.add ' ').add_mark text
      · exact holds.add_mark text

theorem interpret_chunkData_agree {remaining : Nat} (stage : r.stage = .chunkData remaining)
    (agree : registers.Agree r.stage) :
    (registers.interpret r b).Agree (r.interpret capacity b).reader.stage := by
  cases remaining with
  | zero =>
    simp only [interpret, Registers.interpret, stage]
    exact pushChunkStart_agree registers
  | succ remaining =>
    obtain ⟨position, small⟩ : registers.chunkPosition + (remaining + 1) = registers.chunkLength ∧
        registers.chunkLength < UInt64.size := by rwa [stage] at agree
    simp only [interpret, Registers.interpret, stage, deliver, Registers.deliver]
    refine ⟨?_, small⟩
    simp only [List.length_singleton]
    omega

theorem interpret_chunkSize_agree {size : Nat} (stage : r.stage = .chunkSize size)
    (agree : registers.Agree r.stage) :
    (registers.interpret r b).Agree (r.interpret capacity b).reader.stage := by
  have agree : registers.Agree (.chunkParams size) := by rwa [stage] at agree
  simp only [interpret, Registers.interpret, stage, pushChunkSize]
  split
  · exact endChunkLine_agree agree
  · split
    · exact agree
    · cases hexValue? b with
      | none => simpa only [Step.fail, stage]
      | some digit =>
        obtain ⟨rfl, within, position⟩ := agree
        simp only [Registers.addDigit]
        split
        · next small => exact ⟨rfl, small, position⟩
        · simp only [Step.fail, stage]
          exact ⟨rfl, within, position⟩

theorem interpret_trailer_agree {token : Snoc Char} (stage : r.stage = .trailer token)
    (agree : registers.Agree r.stage) :
    (registers.interpret r b).Agree (r.interpret capacity b).reader.stage := by
  have holds : registers.Holds token := by rwa [stage] at agree
  simp only [interpret, Registers.interpret, stage, pushTrailer]
  cases isLineEnd b with
  | false => exact holds.add _
  | true =>
    cases token.isEmpty with
    | true => trivial
    | false => exact registers.clear_holds

theorem interpret_body_agree (agree : registers.Agree r.stage) (body : r.stage.inBody = true) :
    (registers.interpret r b).Agree (r.interpret capacity b).reader.stage := by
  cases stage : r.stage with
  | untilClose | content => simp only [interpret, stage, deliver]; trivial
  | chunkStart =>
    simp only [interpret, Registers.interpret, stage]
    exact pushChunkStart_agree registers
  | chunkData => exact interpret_chunkData_agree stage agree
  | chunkSize => exact interpret_chunkSize_agree stage agree
  | chunkParams size =>
    have agree : registers.Agree (.chunkParams size) := by rwa [stage] at agree
    simp only [interpret, Registers.interpret, stage, pushChunkParams]
    split
    · exact endChunkLine_agree agree
    · simpa only [Step.quiet, stage]
  | trailer => exact interpret_trailer_agree stage agree
  | _ => simp [stage, Stage.inBody] at body

/-- An octet keeps the registers in agreement with the stage, except at the beginning of a field
line. -/
theorem interpret_agree (agree : registers.Agree r.stage)
    (inLine : ∀ head pending, r.stage ≠ .lineStart head pending) :
    (registers.interpret r b).Agree (r.interpret capacity b).reader.stage := by
  rcases part_cases r.stage with line | line | body | finished
  · exact interpret_startLine_agree agree line
  · cases stage : r.stage with
    | lineStart head pending => exact absurd stage (inLine head pending)
    | fieldName => exact interpret_fieldName_agree stage agree
    | fieldValue => exact interpret_fieldValue_agree stage agree
    | _ => simp [stage, Stage.inFields] at line
  · exact interpret_body_agree agree body
  · rcases finished with stage | stage <;> simp only [interpret, stage, Step.quiet] <;> trivial

/-! A turn. -/

theorem push_agree (agree : registers.Agree r.stage)
    (inLine : ∀ head pending, r.stage ≠ .lineStart head pending)
    (fine : (r.push capacity b).fault = none) (fresh : r.isLineRest b = false) :
    (registers.interpret r b).Agree (r.push capacity b).reader.stage := by
  obtain ⟨headerBytes, meaning⟩ := push_meaning fine fresh
  rw [meaning]
  exact interpret_agree (r := { r with headerBytes, afterCr := false }) agree inLine

theorem slice_agree {tail bytes : Bytes} (agree : registers.Agree r.stage)
    (slice : r.slice? b tail = some bytes) :
    (registers.deliver r.stage bytes.length).Agree
      ({ r with afterCr := false }.deliver bytes).reader.stage := by
  obtain ⟨n, short, rfl, _, room⟩ := slice?_eq_some slice
  have size : (b :: tail.take n).length = n + 1 := by simp [Nat.min_eq_left short]
  rw [size]
  cases stage : r.stage with
  | chunkData remaining =>
    obtain ⟨position, small⟩ : registers.chunkPosition + remaining = registers.chunkLength ∧
        registers.chunkLength < UInt64.size := by rwa [stage] at agree
    have within : n + 1 ≤ remaining := by
      simp only [Reader.room, stage] at room
      split at room
      · exact room
      · cases room
    simp only [deliver, Registers.deliver, size]
    refine ⟨?_, small⟩
    simp only
    omega
  | content remaining | untilClose => simp only [deliver]; trivial
  | _ => simp only [Reader.room, stage] at room; cases room

theorem endFields_opens {head : Head} (fine : (r.endFields head).fault = none) :
    (r.endFields head).reader.stage.Opens := by
  unfold endFields at fine ⊢
  split at fine
  · cases fine
  · next host =>
    rw [if_neg host]
    simp only
    split <;> trivial

theorem pushLineStart_opens {head : Head} {pending : Option Field}
    (sound : ∀ field ∈ pending, field.Sound)
    (fine : (r.pushLineStart head pending b).fault = none) :
    (r.pushLineStart head pending b).reader.stage.Opens := by
  unfold pushLineStart at fine ⊢
  split at fine
  · next continued =>
    rw [if_pos continued]
    cases pending with
    | none => cases fine
    | some field =>
      have closed : Text.IsClosed (Snoc.ofList field.value).toList := by
        rw [Snoc.toList_ofList]
        exact (sound field rfl).value.closed
      exact closed
  · next opened =>
    rw [if_neg opened]
    have text : Text.isBlank (toChar b) = false := by
      simp only [Bool.or_eq_true, not_or, Bool.not_eq_true] at opened
      exact (isBlank_toChar b).trans opened.2
    cases delivered : r.flush head pending with
    | error fault => rw [delivered] at fine; cases fine
    | ok result =>
      obtain ⟨flushed, after, events⟩ := result
      rw [delivered] at fine
      simp only at fine ⊢
      split at fine
      · next ended =>
        rw [if_pos ended]
        exact endFields_opens fine
      · next inside =>
        rw [if_neg inside]
        exact Snoc.closed_push text .empty

theorem fieldAhead_opens {head : Head} {window : Bytes} (sound : r.Sound)
    (before : r.stage.Opens) : (r.fieldAhead head window).1.stage.Opens := by
  unfold fieldAhead
  split
  · exact before
  · cases line : r.lineAhead? head window with
    | some ahead =>
      unfold lineAhead? at line
      split at line
      · next length line' found =>
        split at line
        · cases line
          -- Remembered or well known, a line has a value that no blank begins or ends.
          have known : line'.Sound := by
            rcases Option.or_eq_some_iff.mp found with remembered | ⟨_, listed⟩
            · exact (sound.cache.spelled_of_best? remembered).2.2.2
            · exact (FieldLine.spelled_of_atFront? listed).2.2.2
          have closed : Text.IsClosed (Snoc.ofList line'.value).toList := by
            rw [Snoc.toList_ofList]
            exact known.value.closed
          exact closed
        · cases line
      · cases line
    | none =>
      cases name : r.nameAhead? head window with
      | none => exact before
      | some ahead =>
        unfold nameAhead? at name
        split at name
        · next length standard found =>
          split at name
          · cases name
            obtain ⟨_, _, members, spelled⟩ := StandardName.spelled_of_atFront? found
            have closed : Text.IsClosed (Snoc.ofList standard.text.toList).toList := by
              rw [Snoc.toList_ofList, spelled]
              exact closed_of_isNameOctet members
            exact closed
          · cases name
        · cases name

theorem drain_stage (r : Reader) (bytes : Bytes) : (r.drain bytes).1.stage = r.stage := by
  obtain ⟨s, n, drained⟩ : ∃ s n, r.drain bytes = (s, n) := ⟨_, _, rfl⟩
  obtain ⟨_, headerBytes, afterCr, rfl⟩ := drain_frame drained
  rw [drained]

theorem takeLf_stage (r : Reader) (bytes : Bytes) : (r.takeLf bytes).1.stage = r.stage := by
  obtain ⟨s, n, taken⟩ : ∃ s n, r.takeLf bytes = (s, n) := ⟨_, _, rfl⟩
  obtain ⟨_, afterCr, rfl⟩ := takeLf_frame taken
  rw [taken]

theorem extend_opens {head : Head} {pending : Option Field} (sound : r.Sound) (input : Input)
    (before : r.stage = .lineStart head pending) (fine : (r.push capacity b).fault = none)
    (fresh : r.isLineRest b = false) :
    (r.extend capacity b (r.push capacity b) input).step.reader.stage.Opens := by
  have opens : (r.push capacity b).reader.stage.Opens := by
    have held : ∀ field ∈ pending, field.Sound := by
      rintro field rfl
      have held := sound.stage
      rwa [before] at held
    obtain ⟨headerBytes, meaning⟩ := push_meaning fine fresh
    rw [meaning] at fine ⊢
    simp only [interpret, before] at fine ⊢
    exact pushLineStart_opens held fine
  simp only [extend, before]
  split
  · exact fieldAhead_opens (sound.push capacity b) opens
  · exact opens
  · simp only [Turn.further, drain_stage]
    exact opens

/-- Elsewhere the octets after the first one leave the stage as it is, or they end the request
line. -/
theorem extend_stage (capacity : Nat) (b : UInt8)
    (inLine : ∀ head pending, r.stage ≠ .lineStart head pending) (step : Step)
    (input : Input) :
    (r.extend capacity b step input).step.reader.stage = step.reader.stage ∨
      ∃ head, (r.extend capacity b step input).step.reader.stage = .lineStart head none := by
  rw [extend_eq]
  cases kind : r.stage.beyond step.reader.stage with
  | target | nothing => exact .inl rfl
  | version method =>
    simp only [Turn.toward]
    cases found : step.reader.versionAhead? capacity method b (Input.active input) with
    | none => exact .inl rfl
    | some turn =>
      unfold versionAhead? at found
      repeat' split at found
      all_goals cases found
      exact .inr ⟨_, rfl⟩
  | field head =>
    obtain ⟨⟨head', pending, before⟩, _⟩ := Stage.field_of_beyond kind
    exact absurd before (inLine head' pending)
  | lineEnd => exact .inl (drain_stage ..)
  | chunkEnd => exact .inl (takeLf_stage ..)

theorem startAhead?_stage {window : Bytes} {s : Reader} {n : Nat}
    (ahead : r.startAhead? window = some (s, n)) :
    (∃ method, s.stage = .beforeUri method) ∨ ∃ version, s.stage = .beforeStatus version := by
  unfold startAhead? at ahead
  repeat' split at ahead
  all_goals cases ahead
  · exact .inl ⟨_, rfl⟩
  · exact .inr ⟨_, rfl⟩

theorem push_lineRest_stage (capacity : Nat) (rest : r.isLineRest b = true) :
    (r.push capacity b).reader.stage = r.stage := by
  have rest' : r.count.isLineRest b = true := rest
  unfold push
  split
  · split
    · rfl
    · rw [accept, if_pos rest']
      rfl
  · rw [accept, if_pos rest]
    rfl

theorem extend_agree (sound : r.Sound) (agree : registers.Agree r.stage) (input : Input)
    (fine : (r.push capacity b).fault = none) (fresh : r.isLineRest b = false) :
    ((registers.interpret r b).openLine r.stage
      (r.extend capacity b (r.push capacity b) input).step.reader.stage).Agree
        (r.extend capacity b (r.push capacity b) input).step.reader.stage := by
  by_cases inLine : ∀ head pending, r.stage ≠ .lineStart head pending
  · have same (after : Stage) :
        (registers.interpret r b).openLine r.stage after = registers.interpret r b := by
      unfold Registers.openLine
      split
      · next stage => exact absurd stage (inLine _ _)
      · next stage => exact absurd stage (inLine _ _)
      · rfl
    rw [same]
    rcases extend_stage capacity b inLine (r.push capacity b) input with
      stage | ⟨head, stage⟩
    · rw [stage]
      exact push_agree agree inLine fine fresh
    · rw [stage]
      trivial
  · obtain ⟨head, pending, before⟩ : ∃ head pending, r.stage = .lineStart head pending := by
      simpa using inLine
    have opens := extend_opens sound input before fine fresh
    rw [before]
    exact (registers.interpret r b).openLine_agree opens

theorem turn_agree {tail : Bytes} {later : Input} {turn : Turn} (sound : r.Sound)
    (agree : registers.Agree r.stage) (turns : r.turn capacity b tail later = turn)
    (fine : turn.step.fault = none) :
    (registers.turn r b tail turn).Agree turn.step.reader.stage := by
  unfold Registers.turn
  unfold Reader.turn at turns
  cases ahead : r.startAhead? (b :: tail) with
  | some found =>
    rw [ahead] at turns
    subst turns
    rcases startAhead?_stage ahead with ⟨method, stage⟩ | ⟨version, stage⟩
    · simp only [Step.quiet, stage]
      trivial
    · simp only [Step.quiet, stage]
      trivial
  | none =>
    rw [ahead] at turns
    cases slice : r.slice? b tail with
    | some bytes =>
      rw [slice] at turns
      subst turns
      exact slice_agree agree slice
    | none =>
      rw [slice] at turns
      simp only [fine, Option.isSome_none, Bool.false_eq_true, Bool.false_or, if_false]
      cases wrong : (r.push capacity b).fault with
      | some fault =>
        simp only [wrong] at turns
        subst turns
        cases wrong.symm.trans fine
      | none =>
        simp only [wrong] at turns
        -- The rest of a line end changes no stage; only behind other octets does a turn look ahead.
        cases rest : r.isLineRest b with
        | true =>
          rw [rest] at turns
          subst turns
          simp only [if_true, push_lineRest_stage capacity rest]
          exact agree
        | false =>
          rw [rest] at turns
          subst turns
          exact extend_agree sound agree _ wrong rest

end Reader
end HttpStream
