import HttpStream.Proofs.Framed
import HttpStream.Proofs.Tables
import HttpStream.Proofs.Telling

/-! The framing of a message is a matter of its status, of the request it answers, and of its fields
as they are told: in which order a reader came upon them, and how, does not show. -/

set_option autoImplicit false

namespace HttpStream

/-! What decides, read off the fields. -/

abbrev NamedField := Text × Text

def StandardName.names (name : StandardName) (field : NamedField) : Bool :=
  Text.fold field.1 = Text.fold name.text.toList

def Value.endsChunked (value : Text) : Bool :=
  (Text.elements value).getLast?.any fun element => Text.fold element = "chunked".toList

def chunks (fields : List NamedField) : Bool :=
  fields.any fun field => StandardName.transferEncoding.names field && Value.endsChunked field.2

/-- The `Content-Length` fields ahead of the first field that makes a message chunked. -/
def lengths (fields : List NamedField) : List NamedField :=
  (fields.takeWhile fun field =>
    !(StandardName.transferEncoding.names field && Value.endsChunked field.2)).filter
    StandardName.contentLength.names

/-- The length that the last `Content-Length` field announces. -/
def announced? (fields : List NamedField) : Option Int :=
  (fields.filter StandardName.contentLength.names).getLast?.bind fun field =>
    Value.signed? field.2

/-- Whether a response with the status has no body, whatever its fields say. -/
def bodiless (status : Nat) : Bool :=
  (100 ≤ status && status < 200) || status = 204 || status = 304

/-- The framing of a message with the fields, where only a response has a status. -/
def Framing.decided (answersHead : Bool) (status : Option Nat) (fields : List NamedField) :
    Framing :=
  if status.any fun status => answersHead || bodiless status then .noContent
  else if chunks fields then .chunked
  else match announced? fields with
    | some length => if 0 < length then .contentLength else .noContent
    | none => if status.isSome then .untilClose else .noContent

example : Framing.decided false (some 200)
    [("content-length".toList, "5".toList), ("Transfer-Encoding".toList, "gzip, Chunked".toList)] =
      .chunked := by rfl

namespace Event

def field? : Event → Option NamedField
  | .header name value => some (name, value)
  | _ => none

def status? : Event → Option Nat
  | .statusLine _ status _ => some status
  | _ => none

def content? : Event → Option Bytes
  | .content bytes => some bytes
  | _ => none

def hasVersion : Event → Bool
  | .requestLine _ _ version => version.isSome
  | .statusLine .. => true
  | _ => false

def fields (events : List Event) : List NamedField := events.filterMap field?

theorem fields_append (events more : List Event) :
    fields (events ++ more) = fields events ++ fields more := List.filterMap_append

def status (events : List Event) : Option Nat := events.findSome? status?

def contents (events : List Event) : List Bytes := events.filterMap content?

end Event

/-! What a field adds. -/

theorem chunks_append (fields more : List NamedField) :
    chunks (fields ++ more) = (chunks fields || chunks more) := List.any_append

theorem chunks_append_singleton (fields : List NamedField) (field : NamedField) :
    chunks (fields ++ [field]) =
      (chunks fields ||
        StandardName.transferEncoding.names field && Value.endsChunked field.2) := by
  simp [chunks]

theorem plain_of_chunks {fields : List NamedField} (plain : chunks fields = false) :
    ∀ field ∈ fields,
      (!(StandardName.transferEncoding.names field && Value.endsChunked field.2)) = true := by
  intro field member
  rw [Bool.eq_false_iff.mpr (List.any_eq_false.mp plain field member)]
  rfl

theorem lengths_of_plain {fields : List NamedField} (plain : chunks fields = false) :
    lengths fields = fields.filter StandardName.contentLength.names := by
  rw [lengths, ← List.append_nil fields, List.takeWhile_append_of_pos (plain_of_chunks plain)]
  rfl

/-- Behind the chunked coding a length does not count any more. -/
theorem lengths_append (fields more : List NamedField) : lengths (fields ++ more) =
    if chunks fields then lengths fields else lengths fields ++ lengths more := by
  cases chunked : chunks fields with
  | false =>
    rw [lengths_of_plain chunked, lengths, List.takeWhile_append_of_pos (plain_of_chunks chunked),
      List.filter_append]
    rfl
  | true =>
    obtain ⟨field, member, last⟩ := List.any_eq_true.mp chunked
    unfold lengths
    rw [List.takeWhile_append, if_neg]
    · rfl
    · intro whole
      have same := (List.takeWhile_prefix _).eq_of_length whole
      have ahead := List.all_eq_true.mp List.all_takeWhile field (same.symm ▸ member)
      simp [last] at ahead

theorem lengths_append_singleton (fields : List NamedField) {field : NamedField}
    (other : StandardName.contentLength.names field = false ∨
      StandardName.transferEncoding.names field = false) :
    lengths (fields ++ [field]) =
      if StandardName.contentLength.names field && !chunks fields then lengths fields ++ [field]
      else lengths fields := by
  have one : lengths [field] = [field].filter StandardName.contentLength.names := by
    cases coding : StandardName.transferEncoding.names field && Value.endsChunked field.2 with
    | true =>
      have length : StandardName.contentLength.names field = false := by simp_all
      rw [lengths, List.takeWhile_cons, coding]
      simp [length]
    | false => rw [lengths, List.takeWhile_cons, coding]; rfl
  rw [lengths_append, one]
  cases chunks fields <;> cases length : StandardName.contentLength.names field <;> simp [length]

theorem announced?_append_singleton (fields : List NamedField) (field : NamedField) :
    announced? (fields ++ [field]) =
      if StandardName.contentLength.names field then Value.signed? field.2
      else announced? fields := by
  unfold announced?
  cases named : StandardName.contentLength.names field <;> simp [named]

theorem StandardName.names_iff {name : StandardName} {field : NamedField} :
    name.names field = true ↔ ofText? field.1 = some name := by
  rw [ofText?_eq_some_iff]
  simp [names]

namespace Value

theorem endsChunked_iff {value : Text} : endsChunked value = true ↔
    (Text.elements value).getLast?.bind StandardToken.ofText? = some .chunked := by
  unfold endsChunked
  cases (Text.elements value).getLast? with
  | none => simp
  | some element =>
    have spelled := @StandardToken.ofText?_eq_some_iff element .chunked
    have usual : Text.fold StandardToken.chunked.text.toList = "chunked".toList := by decide
    rw [Option.any_some, decide_eq_true_iff, Option.bind_some, spelled, usual]

theorem chunked_eq {value : Text} {ending : Bool} (h : chunked value = .ok ending) :
    ending = endsChunked value := by
  unfold chunked at h
  split at h
  · next last =>
    cases h
    exact (endsChunked_iff.mpr last).symm
  · next other =>
    have plain : endsChunked value = false :=
      Bool.eq_false_iff.mpr fun last => other (endsChunked_iff.mp last)
    split at h
    · cases h
    · cases h
      exact plain.symm

theorem contentLength_eq {value : Text} {length : Nat} (h : contentLength value = .ok length) :
    ∃ announced, signed? value = some announced ∧ length = announced.toNat := by
  unfold contentLength at h
  split at h
  · next announced found =>
    cases h
    exact ⟨announced, found, rfl⟩
  · cases h

end Value

namespace Reader

variable {r s : Reader} {fields : List NamedField}

def Counted (r : Reader) (fields : List NamedField) : Prop :=
  r.contentLength.map some =
    (lengths fields).getLast?.map fun field => (Value.signed? field.2).map Int.toNat

theorem Counted.nothing (length : r.contentLength = none) : r.Counted [] := by
  rw [Counted, length]
  rfl

theorem Counted.of_eq (h : r.Counted fields) (length : s.contentLength = r.contentLength) :
    s.Counted fields := by
  rw [Counted, length]
  exact h

/-- What a reader has made of the fields told so far. A length that stands after the chunked coding
does not count. -/
structure Heeded (r : Reader) (fields : List NamedField) : Prop where
  framing : r.framing =
    if chunks fields then .chunked
    else match announced? fields with
      | some length => if 0 < length then .contentLength else .noContent
      | none => .unknown
  counted : r.Counted fields

theorem Heeded.nothing (framing : r.framing = .unknown) (length : r.contentLength = none) :
    r.Heeded [] := ⟨framing, .nothing length⟩

theorem Heeded.of_eq (h : r.Heeded fields) (framing : s.framing = r.framing)
    (length : s.contentLength = r.contentLength) : s.Heeded fields :=
  ⟨framing.trans h.framing, h.counted.of_eq length⟩

theorem Counted.contentLength (h : r.Counted fields) (plain : chunks fields = false) :
    r.contentLength = (announced? fields).map Int.toNat := by
  unfold Counted at h
  rw [announced?, ← lengths_of_plain plain]
  cases last : (lengths fields).getLast? with
  | none => simpa [last] using h
  | some field =>
    rw [last] at h
    obtain ⟨length, known, same⟩ := Option.map_eq_some_iff.mp h
    rw [known, same]
    rfl

/-- Before the fields end, the framing is the chunked coding or what the length in force says. -/
theorem Heeded.inForce (h : r.Heeded fields) {length : Nat}
    (known : r.contentLength = some length) :
    r.framing = if chunks fields then .chunked
      else if 0 < length then .contentLength else .noContent := by
  rw [h.framing]
  cases plain : chunks fields with
  | true => rfl
  | false =>
    have counted := h.counted.contentLength plain
    rw [known] at counted
    obtain ⟨announced, found, rfl⟩ := Option.map_eq_some_iff.mp counted.symm
    simp [found]

theorem Heeded.other (h : r.Heeded fields) {field : NamedField}
    (length : StandardName.contentLength.names field = false)
    (coding : StandardName.transferEncoding.names field = false) :
    r.Heeded (fields ++ [field]) := by
  refine ⟨?_, ?_⟩
  · simpa [chunks_append_singleton, announced?_append_singleton, length, coding] using h.framing
  · simpa [Counted, lengths_append_singleton fields (.inl length), length] using h.counted

theorem Heeded.chunks_iff (h : r.Heeded fields) : chunks fields = true ↔ r.framing = .chunked := by
  rw [h.framing]
  cases chunks fields with
  | true => simp
  | false =>
    cases announced? fields with
    | none => simp
    | some length => by_cases positive : 0 < length <;> simp [positive]

abbrev told (fields : List NamedField) (field : Field) : List NamedField :=
  fields ++ [(field.name, field.value)]

theorem Field.names_eq {field : Field} (sound : field.Sound) (name : StandardName) :
    name.names (field.name, field.value) = (field.standard == some name) := by
  rw [Bool.eq_iff_iff, StandardName.names_iff, ← sound.standard, beq_iff_eq]

theorem heedContentLength_heeded {field : Field} (named : field.standard = some .contentLength)
    (sound : field.Sound) (heeded : r.Heeded fields)
    (h : r.heedContentLength field.value = .ok s) : s.Heeded (told fields field) := by
  have length : StandardName.contentLength.names (field.name, field.value) = true := by
    simp [Field.names_eq sound, named]
  have coding : StandardName.transferEncoding.names (field.name, field.value) = false := by
    simp [Field.names_eq sound, named]
  have chunks_told : chunks (told fields field) = chunks fields := by
    simp [told, chunks_append_singleton, coding]
  have announced_told : announced? (told fields field) = Value.signed? field.value := by
    simp [told, announced?_append_singleton, length]
  unfold heedContentLength at h
  split at h
  · next chunked =>
    cases h
    have chunking := heeded.chunks_iff.mpr chunked
    refine ⟨by simp [chunks_told, chunking, chunked], ?_⟩
    simpa [Counted, lengths_append_singleton fields (.inr coding), chunking] using heeded.counted
  · next other =>
    -- No coding came before, so the length decides, the last one if there are several.
    have plain : chunks fields = false := Bool.eq_false_iff.mpr (mt heeded.chunks_iff.mp other)
    cases value : Value.contentLength field.value with
    | error => rw [value] at h; cases h
    | ok length =>
      rw [value] at h
      cases h
      obtain ⟨announced, signed, rfl⟩ := Value.contentLength_eq value
      refine ⟨?_, ?_⟩
      · simp only [chunks_told, plain, announced_told, signed, Int.lt_toNat]
        rfl
      · simp [Counted, lengths_append_singleton fields (.inr coding), plain, length, signed]

theorem heedTransferEncoding_heeded {field : Field}
    (named : field.standard = some .transferEncoding) (sound : field.Sound)
    (heeded : r.Heeded fields) (h : r.heedTransferEncoding field.value = .ok s) :
    s.Heeded (told fields field) := by
  have length : StandardName.contentLength.names (field.name, field.value) = false := by
    simp [Field.names_eq sound, named]
  have coding : StandardName.transferEncoding.names (field.name, field.value) = true := by
    simp [Field.names_eq sound, named]
  have announced_told : announced? (told fields field) = announced? fields := by
    simp [told, announced?_append_singleton, length]
  unfold heedTransferEncoding at h
  cases value : Value.chunked field.value with
  | error => rw [value] at h; cases h
  | ok ending =>
    have chunks_told : chunks (told fields field) = (chunks fields || ending) := by
      simp [told, chunks_append_singleton, coding, Value.chunked_eq value]
    rw [value] at h
    cases h
    have counted : r.Counted (told fields field) := by
      simpa [Counted, lengths_append_singleton fields (.inl length), length] using heeded.counted
    cases ending with
    | true => exact ⟨by simp [chunks_told], counted⟩
    | false =>
      rw [Bool.or_false] at chunks_told
      exact ⟨by rw [chunks_told, announced_told]; exact heeded.framing, counted⟩

end Reader

def Head.status? : Head → Option Nat
  | .request _ _ => none
  | .response status => some status

namespace Reader

variable {r s : Reader} {fields : List NamedField}

theorem heed_heeded {head after : Head} {field : Field} {events : List Event}
    (h : r.heed head field = .ok (s, after, events)) (sound : field.Sound)
    (heeded : r.Heeded fields) :
    s.Heeded (told fields field) ∧ after.status? = head.status? ∧ Event.fields events = [] := by
  have other (length : field.standard ≠ some .contentLength)
      (coding : field.standard ≠ some .transferEncoding) : r.Heeded (told fields field) :=
    heeded.other (by simp [Field.names_eq sound, length])
      (by simp [Field.names_eq sound, coding])
  unfold heed at h
  split at h
  · next named =>
    cases value : r.heedContentLength field.value with
    | error => rw [value] at h; cases h
    | ok next =>
      rw [value] at h
      cases h
      exact ⟨heedContentLength_heeded named sound heeded value, rfl, rfl⟩
  · next named =>
    cases value : r.heedTransferEncoding field.value with
    | error => rw [value] at h; cases h
    | ok next =>
      rw [value] at h
      cases h
      exact ⟨heedTransferEncoding_heeded named sound heeded value, rfl, rfl⟩
  · next named =>
    cases h
    refine ⟨?_, rfl, rfl⟩
    have plain : r.Heeded (told fields field) := other (by simp [named]) (by simp [named])
    unfold heedConnection
    split
    · exact plain.of_eq rfl rfl
    · exact plain
  · next named =>
    cases value : Value.host field.value with
    | error => rw [value] at h; cases h
    | ok host =>
      rw [value] at h
      cases h
      exact ⟨other (by simp [named]) (by simp [named]), rfl, rfl⟩
  · next notLength notCoding _ _ =>
    cases h
    exact ⟨other notLength notCoding, rfl, rfl⟩

theorem flush_heeded {head after : Head} {pending : Option Field} {events before : List Event}
    (h : r.flush head pending = .ok (s, after, events)) (sound : ∀ field ∈ pending, field.Sound)
    (heeded : r.Heeded (Event.fields before)) :
    s.Heeded (Event.fields (before ++ events)) ∧ after.status? = head.status? := by
  cases pending with
  | none =>
    cases h
    rw [List.append_nil]
    exact ⟨heeded, rfl⟩
  | some field =>
    simp only [flush] at h
    cases given : r.heed head field with
    | error => rw [given] at h; cases h
    | ok result =>
      obtain ⟨next, head', early⟩ := result
      rw [given] at h
      cases h
      obtain ⟨later, status, none⟩ := heed_heeded given (sound field rfl) heeded
      obtain ⟨cache, remembered, _⟩ := remember_ok (r := next) field
      have fields : Event.fields (before ++ (early ++ [.header field.name field.value])) =
          told (Event.fields before) field := by
        simp only [Event.fields, List.filterMap_append] at none ⊢
        rw [none]
        rfl
      rw [fields, remembered]
      exact ⟨later.of_eq rfl rfl, status⟩

/-- The framing in force after the fields is the one that they, the status and the request decide
on. -/
theorem finalFraming_eq (head : Head) (coded : ∀ status ∈ head.status?, 100 ≤ status)
    (heeded : r.Heeded fields) :
    r.finalFraming head = Framing.decided r.headResponse head.status? fields := by
  -- What was heeded stands in the framing, except that the status may rule a body out.
  have undecided : Framing.decided r.headResponse head.status? fields =
      if head.status?.any fun status => r.headResponse || bodiless status then .noContent
      else if r.framing = .unknown then
        if head.status?.isSome then .untilClose else .noContent
      else r.framing := by
    unfold Framing.decided
    rw [heeded.framing]
    cases chunks fields with
    | true => simp
    | false =>
      cases announced? fields with
      | none => simp
      | some length => by_cases positive : 0 < length <;> simp [positive]
  rw [undecided]
  cases head with
  | request version hostSeen => simp [finalFraming, Head.status?]
  | response status =>
    have code : 100 ≤ status := coded status rfl
    have same : (r.headResponse || bodiless status) =
        (r.headResponse || status == 304 || status == 204 || decide (status < 200)) := by
      cases r.headResponse with
      | true => simp
      | false =>
        rw [Bool.eq_iff_iff]
        simp only [bodiless, Bool.false_or, Bool.or_eq_true, Bool.and_eq_true, decide_eq_true_eq,
          beq_iff_eq]
        omega
    simp [finalFraming, Head.status?, same]

end Reader
end HttpStream
