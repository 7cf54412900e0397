import HttpStream.Proofs.Folding
import HttpStream.Proofs.RequestLines

/-! Field lines as they stand on the wire, with any number of CRs in their ends, and what their
octets collect: the name and the value that the line spells. -/

set_option autoImplicit false

namespace HttpStream

def Octet.folds (b : UInt8) : Bool := b = colon || isBlank b

open Octet

theorem Text.continues_ofBytes (b : UInt8) (rest : Bytes) :
    continues (ofBytes (b :: rest)) = folds b := by
  have colon : (toChar b == ':') = decide (b = colon) := by
    rw [toChar_beq_colon, Bool.beq_eq_decide_eq]
  simp [continues, ofBytes, folds, colon, isBlank_toChar]

theorem Text.takeWhile_ofBytes {p : Char → Bool} {q : UInt8 → Bool}
    (same : ∀ b, p (toChar b) = q b) (bytes : Bytes) :
    (ofBytes bytes).takeWhile p = ofBytes (bytes.takeWhile q) := by
  simp [ofBytes, List.takeWhile_map, Function.comp_def, same]

theorem Text.dropWhile_ofBytes {p : Char → Bool} {q : UInt8 → Bool}
    (same : ∀ b, p (toChar b) = q b) (bytes : Bytes) :
    (ofBytes bytes).dropWhile p = ofBytes (bytes.dropWhile q) := by
  simp [ofBytes, List.dropWhile_map, Function.comp_def, same]

theorem Octet.toChar_bne_colon (b : UInt8) : (toChar b != ':') = (b != colon) := by
  rw [bne, bne, toChar_beq_colon]

/-- The end of a line: a LF, with any number of CRs ahead of it. -/
structure LineEnd where
  crs : Nat
  deriving DecidableEq, Repr

def LineEnd.wire (ending : LineEnd) : Bytes := List.replicate ending.crs cr ++ [lf]

def LineEnd.first (ending : LineEnd) : UInt8 := if ending.crs = 0 then lf else cr

structure RawLine where
  octets : Bytes
  ending : LineEnd
  nonempty : octets ≠ []
  plain : ∀ b ∈ octets, isLineEnd b = false

namespace RawLine

def wire (line : RawLine) : Bytes := line.octets ++ line.ending.wire

def text (line : RawLine) : Text := Text.ofBytes line.octets

theorem wire_eq (line : RawLine) :
    ∃ b rest, line.wire = b :: rest ∧ Text.continues line.text = folds b := by
  obtain ⟨octets, ending, nonempty, _⟩ := line
  cases octets with
  | nil => exact absurd rfl nonempty
  | cons b rest => exact ⟨b, rest ++ ending.wire, rfl, Text.continues_ofBytes b rest⟩

end RawLine

namespace LineEnd

variable (ending : LineEnd)

theorem isLineEnd_first : isLineEnd ending.first = true := by
  unfold first
  split <;> rfl

theorem folds_first : folds ending.first = false := by
  unfold first
  split <;> rfl

theorem wire_eq : ∃ rest, ending.wire = ending.first :: rest ∧
    (rest = [] ∧ ending.first = lf ∨
      ∃ k, rest = List.replicate k cr ++ [lf] ∧ ending.first = cr) := by
  obtain ⟨crs⟩ := ending
  cases crs with
  | zero => exact ⟨[], rfl, .inl ⟨rfl, rfl⟩⟩
  | succ k => exact ⟨_, rfl, .inr ⟨k, rfl, rfl⟩⟩

end LineEnd

namespace Reader

variable {r s t : Reader} {b : UInt8} {capacity n : Nat} {bytes : Bytes} {events : List Event}

/-! Line ends. -/

theorem run_events_append {first : Bytes} {step : Step}
    (told : r.run false capacity first = { reader := s, events }) (second : Bytes)
    (onward : s.run false capacity second = step) :
    r.run false capacity (first ++ second) = { step with events := events ++ step.events } := by
  rw [run_append, told]
  simp only [Step.andThen]
  rw [onward]

theorem run_lineRest (capacity : Nat) (unlimited : r.settings.limit? = none)
    (open_ : r.stage.isComplete = false) (more : r.stage ≠ .content 0) (afterCr : r.afterCr = true)
    (k : Nat) : ∃ headerBytes, r.run false capacity (List.replicate k cr ++ [lf]) =
      .quiet { r with headerBytes, afterCr := false } := by
  have one {r : Reader} {b : UInt8} (unlimited : r.settings.limit? = none)
      (open_ : r.stage.isComplete = false) (more : r.stage ≠ .content 0)
      (afterCr : r.afterCr = true) (ended : isLineEnd b = true) :
      ∃ headerBytes, r.advance false capacity b = .quiet { r.endLine b with headerBytes } := by
    obtain ⟨headerBytes, pushed, _⟩ := push_lineRest (r := r) (b := b) capacity
      (by simp [isLineRest, afterCr, ended]) fun _ => fits_of_unlimited unlimited 1
    refine ⟨headerBytes, ?_⟩
    rw [advance_of_fine open_ (by rw [pushed]; rfl) (by rw [pushed]; exact more), pushed]
  induction k generalizing r with
  | zero =>
    obtain ⟨headerBytes, advanced⟩ := one unlimited open_ more afterCr (b := lf) rfl
    exact ⟨headerBytes, (run_singleton r lf).trans advanced⟩
  | succ k ih =>
    obtain ⟨headerBytes, advanced⟩ := one unlimited open_ more afterCr (b := cr) rfl
    obtain ⟨last, onward⟩ := ih (r := { r.endLine cr with headerBytes }) unlimited open_ more rfl
    refine ⟨last, ?_⟩
    rw [List.replicate_succ, List.cons_append, run, advanced, Step.quiet_andThen]
    exact onward

theorem run_lineEnd (ending : LineEnd) (front : Bytes) (unlimited : t.settings.limit? = none)
    (first : s.run false capacity (front ++ [ending.first]) = { reader := t, events })
    (open_ : t.stage.isComplete = false) (more : t.stage ≠ .content 0)
    (afterCr : t.afterCr = (ending.first == cr)) :
    ∃ headerBytes, s.run false capacity (front ++ ending.wire) =
      { reader := { t with headerBytes, afterCr := false }, events } := by
  obtain ⟨rest, wire, ⟨rfl, isLf⟩ | ⟨k, rfl, isCr⟩⟩ := ending.wire_eq
  · refine ⟨t.headerBytes, ?_⟩
    have fresh : t.afterCr = false := by rw [afterCr, isLf]; rfl
    rw [wire, first]
    obtain ⟨⟩ := t
    cases fresh
    rfl
  · obtain ⟨headerBytes, quiet⟩ := run_lineRest capacity unlimited open_ more
      (by rw [afterCr, isCr]; rfl) k
    refine ⟨headerBytes, ?_⟩
    rw [wire, ← List.singleton_append, ← List.append_assoc, run_events_append first _ quiet]
    simp [Step.quiet]

/-! Values and names, octet by octet. -/

section Value

variable (capacity : Nat) (head : Head) (standard : Option StandardName) (name : Text)
  {token : Snoc Char} {folding : Bool} (unlimited : r.settings.limit? = none)
include unlimited

theorem glides_blanks (ready : (folding || token.isEmpty) = true) (blank : bytes.all isBlank = true)
    (n : Nat) :
    let stage : Stage := .fieldValue head standard name token folding false
    Glides capacity (r.stand n stage r.target) bytes (r.stand (n + bytes.length) stage r.target) :=
  glides_stay unlimited rfl isLineEnd_of_isBlank
    (fun s b at_ blank => by
      simp only [interpret, at_, pushFieldValue, isLineEnd_of_isBlank b blank, blank, ready,
        Bool.false_eq_true, if_false, if_true])
    blank n

variable (token folding) in
/-- From the first octet that is not blank on, the octets are added as they are, behind a space if
they continue a value. -/
theorem glides_solid (solid : isBlank b = false) (plain : ∀ c ∈ b :: bytes, isLineEnd c = false)
    (n : Nat) :
    let first := if folding && !token.isEmpty then token.push ' ' else token
    ∃ m, Glides capacity (r.stand n (.fieldValue head standard name token folding false) r.target)
      (b :: bytes) (r.stand m (.fieldValue head standard name
        ((first.push (toChar b)).append (Text.ofBytes bytes)) false false) r.target) := by
  intro first
  have ends : isLineEnd b = false := plain b List.mem_cons_self
  let held (token : Snoc Char) : Stage := .fieldValue head standard name token false false
  have opens : Glides capacity
      (r.stand n (.fieldValue head standard name token folding false) r.target) [b]
      (r.stand (n + 1) (held (first.push (toChar b))) r.target) := by
    refine .single rfl rfl ends (fits_stand unlimited 1 _) ?_
    simp only [interpret, stand, count, pushFieldValue, ends, solid, Bool.false_eq_true, if_false]
    rfl
  have stays (s : Reader) (token : Snoc Char) (b : UInt8) (at_ : s.stage = held token)
      (started : token.isEmpty = false) (plain : (!isLineEnd b) = true) :
      s.interpret capacity b = .quiet (s.enter (held (token.push (toChar b)))) := by
    have plain : isLineEnd b = false := by simpa using plain
    simp [interpret, at_, held, pushFieldValue, plain, started]
  have later : bytes.all (fun b => !isLineEnd b) = true :=
    List.all_eq_true.mpr fun c later => by simpa using plain c (List.mem_cons_of_mem b later)
  exact ⟨_, opens.trans (glides_collect (fun _ => rfl) (fun b plain => by simpa using plain) stays
    rfl rfl rfl later (fits_stand unlimited _ _))⟩

/-- Where a value that is collected goes on with the octets of a line, blanks ahead of them are
skipped, and one space joins them to what stands there. -/
theorem glides_text (plain : ∀ b ∈ bytes, isLineEnd b = false)
    (closed : Text.IsClosed token.toList) (ready : (folding || token.isEmpty) = true) (n : Nat) :
    ∃ m token' folding',
      Glides capacity (r.stand n (.fieldValue head standard name token folding false) r.target)
        bytes (r.stand m (.fieldValue head standard name token' folding' false) r.target) ∧
      token'.trimmed Text.isBlank = Text.extended token.toList (Text.ofBytes bytes) := by
  have skips := glides_blanks capacity head standard name unlimited ready
    (@List.all_takeWhile _ isBlank bytes) n
  have text := Text.dropWhile_ofBytes isBlank_toChar bytes
  have split := List.takeWhile_append_dropWhile (p := isBlank) (l := bytes)
  -- Blanks alone leave the text as it was; behind others comes text that is joined to it.
  cases opened : bytes.dropWhile isBlank with
  | nil =>
    rw [opened, List.append_nil] at split
    rw [split] at skips
    refine ⟨_, token, folding, skips, ?_⟩
    rw [Text.extended_of_blank (by rw [text, opened]; rfl), ← Snoc.trimmed_ofList closed]
    simp [Snoc.trimmed_eq]
  | cons b rest =>
    rw [opened] at split text
    have solid : isBlank b = false := by
      have first := List.head?_dropWhile_not isBlank bytes
      rw [opened] at first
      simpa using first
    have within (c : UInt8) (member : c ∈ b :: rest) : isLineEnd c = false :=
      plain c (by rw [← split]; exact List.mem_append_right _ member)
    obtain ⟨m, collects⟩ :=
      glides_solid capacity head standard name token folding unlimited solid within _
    have whole := skips.trans collects
    rw [split] at whole
    refine ⟨m, _, false, whole, ?_⟩
    have front : (if folding && !token.isEmpty then token.push ' ' else token).toList =
        if token.toList.isEmpty then [] else token.toList ++ [' '] := by
      rw [Snoc.isEmpty_toList]
      cases empty : token.isEmpty with
      | true =>
        have none : token.toList = [] := by simpa [← Snoc.isEmpty_toList] using empty
        simp [none]
      | false => simp_all
    have text : (Text.ofBytes bytes).dropWhile Text.isBlank = toChar b :: Text.ofBytes rest := text
    rw [Text.extended_of_solid text (by rwa [isBlank_toChar]), ← front, Snoc.trimmed_eq]
    simp [Snoc.append, Snoc.push, Snoc.toList]

end Value

/-- A line end at this stage leaves the field to wait for the next line. -/
def Closes (capacity : Nat) (stage : Stage) (head : Head) (field : NamedField) : Prop :=
  ∀ (r : Reader) (b : UInt8), r.stage = stage → isLineEnd b = true →
    r.interpret capacity b = .quiet ((r.endLine b).enter (.lineStart head (some field.field)))

theorem glides_fieldLine (capacity : Nat) {head : Head} (unlimited : r.settings.limit? = none)
    (plain : ∀ c ∈ b :: bytes, isLineEnd c = false) (notColon : b ≠ colon) (n : Nat) :
    ∃ m stage, stage.inHead = true ∧
      Closes capacity stage head (NamedField.ofLine (Text.ofBytes (b :: bytes))) ∧
      Glides capacity (r.stand n (.fieldName head (Snoc.empty.push (toChar b))) r.target) bytes
        (r.stand m stage r.target) := by
  let front := bytes.takeWhile (· != colon)
  let token : Snoc Char := (Snoc.empty.push (toChar b)).append (Text.ofBytes front)
  have split := List.takeWhile_append_dropWhile (p := (· != colon)) (l := bytes)
  have inside {c : UInt8} (member : c ∈ bytes) := plain c (List.mem_cons_of_mem b member)
  have members : front.all isInName = true := List.all_eq_true.mpr fun c member => by
    have notColon : (c != colon) = true := List.all_eq_true.mp List.all_takeWhile c member
    have whole : c ∈ bytes := (List.takeWhile_prefix _).subset member
    simp [isInName, inside whole, notColon]
  have named : Glides capacity
      (r.stand n (.fieldName head (Snoc.empty.push (toChar b))) r.target) front
      (r.stand (n + front.length) (.fieldName head token) r.target) :=
    glides_name capacity rfl rfl rfl members (fits_stand unlimited _ _)
  -- Up to the colon the line is the name of the field, and the value follows it.
  have first : (b != colon) = true := by simpa using notColon
  have nameText : (Text.ofBytes (b :: bytes)).takeWhile (· != ':') = token.toList := by
    rw [Text.takeWhile_ofBytes toChar_bne_colon, List.takeWhile_cons_of_pos (p := (· != colon)) first]
    simp [token, Text.ofBytes, Snoc.append, Snoc.push, Snoc.empty, Snoc.toList, front]
  have valueText : (Text.ofBytes (b :: bytes)).dropWhile (· != ':') =
      Text.ofBytes (bytes.dropWhile (· != colon)) := by
    rw [Text.dropWhile_ofBytes toChar_bne_colon, List.dropWhile_cons_of_pos (p := (· != colon)) first]
  have name : (NamedField.ofLine (Text.ofBytes (b :: bytes))).1 = token.trimmed Text.isBlank := by
    rw [Snoc.trimmed_eq, ← nameText]
    rfl
  cases rest : bytes.dropWhile (· != colon) with
  | nil =>
    have whole : front = bytes := by rwa [rest, List.append_nil] at split
    have value : (NamedField.ofLine (Text.ofBytes (b :: bytes))).2 = [] := by
      simp only [NamedField.ofLine, valueText, rest]
      rfl
    refine ⟨n + front.length, .fieldName head token, rfl, ?_, whole ▸ named⟩
    intro s c at_ ended
    simp [interpret, at_, pushFieldName, ended, NamedField.field, name, value]
  | cons c more =>
    have isColon : c = colon := by
      have head := List.head?_dropWhile_not (· != colon) bytes
      rw [rest] at head
      simpa using head
    subst isColon
    have value : (NamedField.ofLine (Text.ofBytes (b :: bytes))).2 =
        Text.extended [] (Text.ofBytes more) := by
      rw [Text.extended_nil]
      simp only [NamedField.ofLine, valueText, rest]
      rfl
    let text := token.trimmed Text.isBlank
    have opens : Glides capacity (r.stand (n + front.length) (.fieldName head token) r.target)
        [colon] (r.stand (n + front.length + 1)
          (.fieldValue head (StandardName.ofText? text) text .empty false false) r.target) :=
      .single rfl rfl rfl (fits_stand unlimited 1 _) rfl
    have line (c : UInt8) (member : c ∈ more) : isLineEnd c = false :=
      inside ((List.dropWhile_suffix _).subset (rest ▸ List.mem_cons_of_mem colon member))
    have closed : Text.IsClosed Snoc.empty.toList := by simp [Text.IsClosed]
    have fresh : (false || (Snoc.empty : Snoc Char).isEmpty) = true := rfl
    obtain ⟨m, token', folding, collects, trimmed⟩ := glides_text capacity head
      (StandardName.ofText? text) text unlimited line closed fresh (n + front.length + 1)
    have joined : front ++ ([colon] ++ more) = bytes := by
      rw [List.singleton_append, ← rest]
      exact split
    refine ⟨m, .fieldValue head (StandardName.ofText? text) text token' folding false, rfl, ?_,
      joined ▸ named.trans (opens.trans collects)⟩
    intro s c at_ ended
    simp [interpret, at_, pushFieldValue, ended, NamedField.field, name, value, text, trimmed]

end Reader

end HttpStream
