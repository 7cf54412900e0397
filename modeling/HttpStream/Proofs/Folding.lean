import HttpStream.Proofs.Decision

/-! Fields as their lines spell them: names and values cut out of single lines, lines joined to the
field that they continue, and what is told of the fields in their order. -/

set_option autoImplicit false

namespace HttpStream

open Octet

namespace Text

def strip (text : Text) : Text := trimRight isBlank (text.dropWhile isBlank)

def continues (line : Text) : Bool := line.head?.any fun c => c == ':' || isBlank c

/-- A value with more text after it, and one space between the two if neither is empty. -/
def extended (value text : Text) : Text :=
  let more := strip text
  if value.isEmpty || more.isEmpty then value ++ more else value ++ ' ' :: more

end Text

namespace NamedField

/-- The field that a line begins. A line without a colon is all name. -/
def ofLine (line : Text) : NamedField :=
  (Text.trimRight Text.isBlank (line.takeWhile (· != ':')),
    Text.strip ((line.dropWhile (· != ':')).drop 1))

def onward (field : NamedField) : List Text → List NamedField
  | [] => [field]
  | line :: rest =>
    if Text.continues line then onward (field.1, Text.extended field.2 (line.drop 1)) rest
    else field :: onward (ofLine line) rest

/-- The fields that lines spell, unless the first one continues nothing. -/
def ofLines? : List Text → Option (List NamedField)
  | [] => some []
  | line :: rest => if Text.continues line then none else some (onward (ofLine line) rest)

example : ofLines? ["A : b ".toList, "\t c".toList, ":".toList, "D".toList] =
    some [("A".toList, "b c".toList), ("D".toList, [])] := by decide

theorem onward_append {lines : List Text} {more : List NamedField}
    (spells : ofLines? lines = some more) (before : List Text) (field : NamedField) :
    onward field (before ++ lines) = onward field before ++ more := by
  induction before generalizing field with
  | nil =>
    cases lines with
    | nil =>
      cases spells
      rfl
    | cons line rest =>
      simp only [ofLines?] at spells
      split at spells
      · cases spells
      · next begins =>
        cases spells
        simp [onward, begins]
  | cons line rest ih =>
    simp only [List.cons_append, onward, ih]
    split <;> rfl

theorem exists_onward_eq (field : NamedField) (lines : List Text) :
    ∃ fields last, field.onward lines = fields ++ [last] := by
  induction lines generalizing field with
  | nil => exact ⟨[], field, rfl⟩
  | cons line rest ih =>
    rw [onward]
    split
    · exact ih _
    · obtain ⟨fields, last, spells⟩ := ih (ofLine line)
      exact ⟨field :: fields, last, by rw [spells]; rfl⟩

theorem ofLines?_append {before lines : List Text} {fields more : List NamedField}
    (spelled : ofLines? before = some fields) (spells : ofLines? lines = some more) :
    ofLines? (before ++ lines) = some (fields ++ more) := by
  cases before with
  | nil =>
    cases spelled
    exact spells
  | cons line rest =>
    simp only [List.cons_append, ofLines?] at spelled ⊢
    split at spelled
    · cases spelled
    · next begins =>
      cases spelled
      rw [if_neg begins, onward_append spells]

def field (field : NamedField) : Field := ⟨StandardName.ofText? field.1, field.1, field.2, false⟩

end NamedField

/-! What is told of fields. -/

/-- What is told of a field that stands after others: ahead of a length, the chunked coding takes
its meaning, and hosts matter to requests only. -/
def tellField (mode : Mode) (before : List NamedField) (field : NamedField) :
    Except Fault (List Event) :=
  let header := Event.header field.1 field.2
  if StandardName.contentLength.names field && !chunks before then
    (Value.contentLength field.2).map fun _ => [header]
  else if StandardName.transferEncoding.names field then
    (Value.chunked field.2).map fun _ => [header]
  else if StandardName.host.names field && mode = .request then
    (Value.host field.2).map fun (host, port) => [.host host port, header]
  else .ok [header]

def Head.missesHost (fields : List NamedField) : Head → Bool
  | .request version _ => version.isPersistent && !fields.any StandardName.host.names
  | .response _ => false

def tellBlank (head : Head) (answersHead : Bool) (fields : List NamedField) :
    List Event × Option Fault :=
  if head.missesHost fields then ([], some .noHost)
  else if Framing.decided answersHead head.status? fields = .noContent then
    ([.headerComplete, .messageComplete], none)
  else ([.headerComplete], none)

def tellEach (mode : Mode) (before : List NamedField) : List NamedField → List Event × Option Fault
  | [] => ([], none)
  | field :: rest =>
    match tellField mode before field with
    | .error fault => ([], some fault)
    | .ok events =>
      let (more, fault) := tellEach mode (before ++ [field]) rest
      (events ++ more, fault)

def tellFields (head : Head) (answersHead : Bool) (before : List NamedField) :
    List NamedField → List Event × Option Fault
  | [] => tellBlank head answersHead before
  | field :: rest =>
    match tellField head.side before field with
    | .error fault => ([], some fault)
    | .ok events =>
      let (more, fault) := tellFields head answersHead (before ++ [field]) rest
      (events ++ more, fault)

def tellLines (head : Head) (answersHead : Bool) (lines : List Text) : List Event × Option Fault :=
  match NamedField.ofLines? lines with
  | some fields => tellFields head answersHead [] fields
  | none => ([], some .badContinuation)

variable {mode : Mode} {head : Head} {answersHead : Bool} {before fields : List NamedField}
  {field : NamedField} {events : List Event}

/-- Fields are told as far as nothing is wrong with those ahead of them. -/
theorem tellFields_append (fields later : List NamedField) :
    tellFields head answersHead before (fields ++ later) =
      let each := tellEach head.side before fields
      let onward := tellFields head answersHead (before ++ fields) later
      match each.2 with
      | some _ => each
      | none => (each.1 ++ onward.1, onward.2) := by
  induction fields generalizing before with
  | nil => simp [tellEach]
  | cons field rest ih =>
    rw [List.cons_append, tellFields, tellEach]
    cases tellField head.side before field with
    | error fault => rfl
    | ok events =>
      simp only [ih, List.append_assoc, List.singleton_append]
      cases wrong : (tellEach head.side (before ++ [field]) rest).2 <;> simp [wrong]

/-! Nothing of a body is told there. -/

theorem tellField_ok (told : tellField mode before field = .ok events) :
    events = [.header field.1 field.2] ∨
      ∃ host port, events = [.host host port, .header field.1 field.2] := by
  have mapped {α : Type} {value : Except Fault α} {tell : α → List Event}
      (told : value.map tell = .ok events) : ∃ a, events = tell a := by
    cases value with
    | error => cases told
    | ok a => cases told; exact ⟨a, rfl⟩
  unfold tellField at told
  split at told
  · obtain ⟨_, rfl⟩ := mapped told
    exact .inl rfl
  · split at told
    · obtain ⟨_, rfl⟩ := mapped told
      exact .inl rfl
    · split at told
      · obtain ⟨_, rfl⟩ := mapped told
        exact .inr ⟨_, _, rfl⟩
      · cases told
        exact .inl rfl

theorem tellField_noContent (told : tellField mode before field = .ok events) (bytes : Bytes) :
    .content bytes ∉ events := by
  obtain rfl | ⟨host, port, rfl⟩ := tellField_ok told <;> simp

theorem tellBlank_noContent (bytes : Bytes) :
    .content bytes ∉ (tellBlank head answersHead fields).1 := by
  unfold tellBlank
  split
  · simp
  · split <;> simp

theorem tellFields_noContent (bytes : Bytes) :
    .content bytes ∉ (tellFields head answersHead before fields).1 := by
  induction fields generalizing before with
  | nil => exact tellBlank_noContent bytes
  | cons field rest ih =>
    rw [tellFields]
    cases tells : tellField head.side before field with
    | error => simp
    | ok events => simp [tellField_noContent tells, ih]

theorem tellLines_noContent {lines : List Text} (bytes : Bytes) :
    .content bytes ∉ (tellLines head answersHead lines).1 := by
  unfold tellLines
  split
  · exact tellFields_noContent bytes
  · simp

/-! Trimming. -/

namespace Text

theorem trimRight_ne_nil {text : Text} (solid : text.all isBlank = false) :
    trimRight isBlank text ≠ [] := by
  intro none
  have dropped : text.reverse.dropWhile isBlank = [] := List.reverse_eq_nil_iff.mp none
  have whole := List.takeWhile_append_dropWhile (p := isBlank) (l := text.reverse)
  rw [dropped, List.append_nil] at whole
  have all : text.reverse.all isBlank = true := whole ▸ List.all_takeWhile
  rw [List.all_reverse, solid] at all
  cases all

/-- What is not blank keeps the text before it. -/
theorem trimRight_append (first : Text) {second : Text} (solid : second.all isBlank = false) :
    trimRight isBlank (first ++ second) = first ++ trimRight isBlank second := by
  have stops : second.reverse.dropWhile isBlank ≠ [] :=
    mt List.reverse_eq_nil_iff.mpr (trimRight_ne_nil solid)
  rw [trimRight, trimRight, List.reverse_append, List.dropWhile_append,
    if_neg (by simpa [List.isEmpty_iff] using stops)]
  simp

theorem extended_nil (text : Text) : extended [] text = strip text := by simp [extended]

theorem extended_of_blank {value text : Text} (blank : text.dropWhile isBlank = []) :
    extended value text = value := by
  simp [extended, strip, blank, trimRight]

theorem extended_of_solid {value text : Text} {c : Char} {rest : Text}
    (opened : text.dropWhile isBlank = c :: rest) (solid : isBlank c = false) :
    extended value text =
      trimRight isBlank ((if value.isEmpty then [] else value ++ [' ']) ++ c :: rest) := by
  have visible : (c :: rest).all isBlank = false := by simp [solid]
  have nonempty : trimRight isBlank (c :: rest) ≠ [] := trimRight_ne_nil visible
  rw [trimRight_append _ visible, extended, strip, opened]
  cases value <;> simp [nonempty]

end Text

theorem Snoc.trimmed_eq (s : Snoc Char) (drop : Char → Bool) :
    s.trimmed drop = Text.trimRight drop s.toList := by
  simp [trimmed, Text.trimRight, toList]

end HttpStream
