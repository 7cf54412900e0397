import HttpStream.Proofs.Codings

/-! A single line of transfer codings, octet by octet: whether a request is chunked goes by what is
left of the text after the last comma without the white space at its ends. -/

set_option autoImplicit false

namespace HttpStream

open Octet

namespace Text

def lastElement (text : Text) : Text := (text.reverse.takeWhile (· != ',')).reverse

variable {text front back : Text}

theorem comma_lastElement (text : Text) : ',' ∉ lastElement text := by
  intro member
  have apart := List.all_eq_true.mp (@List.all_takeWhile _ (· != ',') text.reverse) ','
    (List.mem_reverse.mp member)
  cases apart

theorem lastElement_append_back (apart : ',' ∉ back) :
    lastElement (text ++ back) = lastElement text ++ back := by
  have all : ∀ c ∈ back.reverse, (c != ',') = true := fun c member =>
    bne_iff_ne.mpr fun same => apart (same ▸ List.mem_reverse.mp member)
  rw [lastElement, List.reverse_append, List.takeWhile_append_of_pos all, List.reverse_append,
    List.reverse_reverse, lastElement]

theorem lastElement_of_apart (apart : ',' ∉ text) : lastElement text = text :=
  @lastElement_append_back [] _ apart

theorem lastElement_comma (front : Text) (apart : ',' ∉ text) :
    lastElement (front ++ ',' :: text) = text := by
  rw [← List.singleton_append, ← List.append_assoc, lastElement_append_back apart]
  simp [lastElement]

theorem lastElement_split (text : Text) :
    lastElement text = text ∨ ∃ front, text = front ++ ',' :: lastElement text := by
  have parts := @List.takeWhile_append_dropWhile _ (· != ',') text.reverse
  have stop := List.head?_dropWhile_not (· != ',') text.reverse
  cases rest : text.reverse.dropWhile (· != ',') with
  | nil =>
    rw [rest, List.append_nil] at parts
    exact .inl (by rw [lastElement, parts, List.reverse_reverse])
  | cons c before =>
    obtain rfl : c = ',' := by simpa [rest] using stop
    refine .inr ⟨before.reverse, ?_⟩
    have whole := congrArg List.reverse parts
    rw [rest, List.reverse_reverse, List.reverse_append, List.reverse_cons,
      List.append_assoc] at whole
    exact whole.symm

theorem getLast?_splitOn (text : Text) : (text.splitOn ',').getLast? = some (lastElement text) := by
  rcases lastElement_split text with all | ⟨front, split⟩
  · rw [List.splitOn_eq_singleton (all ▸ comma_lastElement text), all]
    rfl
  · conv => lhs; rw [split]
    rw [List.splitOn_append_cons_self, List.splitOn_eq_singleton (comma_lastElement text)]
    simp

theorem trim_lastElement_strip (text : Text) :
    trim (lastElement (strip text)) = trim (lastElement text) := by
  obtain ⟨front, back, split, before, after, _⟩ := trimBoth_split isBlank text
  have apart {blanks : Text} (all : blanks.all isBlank = true) : ',' ∉ blanks := fun member => by
    cases List.all_eq_true.mp all ',' member
  rw [← strip_eq] at split
  conv => rhs; rw [split, lastElement_append_back (apart after)]
  -- The blanks in front stand ahead of the only element, or of another one.
  rcases lastElement_split (strip text) with all | ⟨lead, elements⟩
  · have only : ',' ∉ strip text := all ▸ comma_lastElement (strip text)
    rw [all, lastElement_of_apart (by simp [apart before, only])]
    exact (trimBoth_append (all_isSpace before) (all_isSpace after)).symm
  · have last : lastElement (front ++ strip text) = lastElement (strip text) := by
      conv => lhs; rw [elements, ← List.append_assoc]
      exact lastElement_comma _ (comma_lastElement _)
    have none : ([] : Text).all isSpace = true := rfl
    rw [last]
    exact (trimBoth_append none (all_isSpace after)).symm

end Text

def unframed (field : NamedField) : Bool :=
  !StandardName.transferEncoding.names field && !StandardName.contentLength.names field

variable {head : Head} {asked : Bool} {fields later : List NamedField} {field : NamedField}

theorem unframed_filter {name : StandardName}
    (framing : name = .transferEncoding ∨ name = .contentLength)
    (apart : fields.all unframed = true) : fields.filter name.names = [] := by
  refine List.filter_eq_nil_iff.mpr fun other member => ?_
  have apart := List.all_eq_true.mp apart other member
  simp only [unframed, Bool.and_eq_true, Bool.not_eq_true'] at apart
  rcases framing with rfl | rfl <;> simp [apart]

/-- With one field of codings, and no length, a request is chunked if these end in that coding. -/
theorem judged_single (request : head.side = .request)
    (named : StandardName.transferEncoding.names field = true)
    (apart : (fields ++ later).all unframed = true)
    (fine : othersFine head.side (fields ++ later) = true)
    (host : head.missesHost (fields ++ later) = false) :
    Framing.judged head asked (fields ++ field :: later) = .ok .chunked ↔
      Value.endsChunked field.2 = true := by
  -- The other fields say nothing of the framing, so that each part of it is read off this one.
  have fine' : othersFine head.side (fields ++ field :: later) = true := by
    simpa [othersFine, others, named] using fine
  have host' : head.missesHost (fields ++ field :: later) = false := by
    cases head with
    | response => rfl
    | request =>
      have other := StandardName.names_of_ne named (show .host ≠ _ by decide)
      simpa [Head.missesHost, other] using host
  have coding :
      (fields ++ field :: later).filter StandardName.transferEncoding.names = [field] := by
    have none := unframed_filter (.inl rfl) apart
    rw [List.filter_append, List.append_eq_nil_iff] at none
    rw [List.filter_append, List.filter_cons_of_pos named, none.1, none.2]
    rfl
  have length : announced? (fields ++ field :: later) = none := by
    have none := unframed_filter (.inr rfl) apart
    rw [List.filter_append, List.append_eq_nil_iff] at none
    have other := StandardName.names_of_ne named (show .contentLength ≠ _ by decide)
    rw [announced?, List.filter_append, List.filter_cons_of_neg (by simp [other]), none.1, none.2]
    rfl
  have wrong : (fields ++ field :: later).find? miscoded =
      [field].find? fun field => misplacesChunked (Text.elements field.2) := by
    rw [← List.head?_filter, ← List.head?_filter, ← coding, List.filter_filter]
    simp only [Bool.and_comm]
    rfl
  have chunked : chunks (fields ++ field :: later) = Value.endsChunked field.2 := by
    rw [chunks, ← List.any_filter, coding]
    simp
  have status : head.status? = none := by
    cases head with
    | request => rfl
    | response => cases request
  rw [judged_eq fine', wrong, host', status]
  cases misplaced : misplacesChunked (Text.elements field.2) with
  | true =>
    have last : Value.endsChunked field.2 = false := by
      simp only [misplacesChunked, Bool.and_eq_true, Bool.not_eq_true'] at misplaced
      exact misplaced.2
    simp [misplaced, last]
  | false =>
    cases ends : Value.endsChunked field.2 <;>
      simp [misplaced, Framing.decided, chunked, length, ends]

theorem NamedField.ofLine_value {name value : Bytes} (cut : colon ∉ name) :
    (ofLine (Text.ofBytes (name ++ colon :: value))).2 = Text.strip (Text.ofBytes value) := by
  have front : ∀ b ∈ name, (b != colon) = true := fun b member =>
    bne_iff_ne.mpr fun same => cut (same ▸ member)
  rw [ofLine, Text.dropWhile_ofBytes toChar_bne_colon, List.dropWhile_append_of_pos front]
  simp [Text.ofBytes]

/-- A request with one field of transfer codings, on a line of its own, and no length, with nothing
else wrong, in any fragments within the limit: it is chunked if the text after the last comma of the
value is that coding in any case, but for white space at its ends. Unless what the blanks leave of
that text begins or ends with other white space, only blanks can be at its ends. -/
theorem Reader.feedAll_codingLine {σ : Type} (mode : Mode) (settings : Settings)
    (early : Listener σ) (state : σ) (before : List Call) (memoryCapacity : Option Nat) :
    let reader := (Reader.through { mode, settings } early state before).1.reset
    ∀ (first : reader.StartLine memoryCapacity) (lines after : List RawLine) (line : RawLine)
      (blank : LineEnd) (name value : Bytes) (fields later : List NamedField)
      (fragments : List Input),
    first.head.side = .request →
    NamedField.ofLines? (lines.map RawLine.text) = some fields →
    NamedField.ofLines? (after.map RawLine.text) = some later →
    Text.continues line.text = false → line.octets = name ++ colon :: value → colon ∉ name →
    StandardName.transferEncoding.names (NamedField.ofLine line.text) = true →
    (fields ++ later).all unframed = true →
    othersFine first.head.side (fields ++ later) = true →
    first.head.missesHost (fields ++ later) = false →
    fragments.flatten.flatten =
      first.wire ++ ((lines ++ line :: after).flatMap RawLine.wire ++ blank.wire) →
    (settings.headerLimit = 0 ∨ fragments.flatten.flatten.length ≤ settings.headerLimit) →
    let comes := outcome (reader.feedAll (Recorder.listener { memoryCapacity }) {} fragments)
    let last := Text.lastElement (Text.ofBytes value)
    (comes = .ok .chunked ↔ Text.fold (Text.trim last) = "chunked".toList) ∧
      (Text.isBare Text.isSpace (Text.strip last) = true →
        (comes = .ok .chunked ↔ Text.fold (Text.strip last) = "chunked".toList)) := by
  intro reader first lines after line blank name value fields later fragments request spelled spells
    begins octets cut named apart fine host whole within comes last
  have opening : reader.Opening := .reset ((Sound.fresh mode settings).through early state before)
  let block := FieldSection.around spelled line begins spells blank
  have comes_eq : comes = Framing.judged first.head reader.headResponse block.fields :=
    first.outcome opening block fragments whole (spares_reset early state before within)
  have text : (NamedField.ofLine line.text).2 = Text.strip (Text.ofBytes value) := by
    rw [RawLine.text, octets, NamedField.ofLine_value cut]
  have ends : Value.endsChunked (NamedField.ofLine line.text).2 =
      decide (Text.fold (Text.trim last) = "chunked".toList) := by
    rw [Value.endsChunked, text, Text.elements, List.getLast?_map, Text.getLast?_splitOn,
      Option.map_some, Text.trim_lastElement_strip]
    rfl
  have chunked : comes = .ok .chunked ↔ Text.fold (Text.trim last) = "chunked".toList := by
    rw [comes_eq]
    refine (judged_single request named apart fine host).trans ?_
    rw [ends, decide_eq_true_iff]
  refine ⟨chunked, fun bare => ?_⟩
  rw [chunked, ← Text.trim_strip, Text.trim_eq, Text.trimBoth_eq_self_iff.mpr bare]

theorem Reader.feedAll_codingLine_of_blanks :
    let reader := (Reader.through { mode := .request } (Recorder.listener {}) {} []).1.reset
    let rawLine (text : String) (h : Text.toBytes text.toList ≠ [] ∧
        ∀ b ∈ Text.toBytes text.toList, isLineEnd b = false) : RawLine :=
      ⟨Text.toBytes text.toList, ⟨1⟩, h.1, h.2⟩
    let host := rawLine "Host: a" (by decide +kernel)
    let line := rawLine "Transfer-Encoding:gzip,\tCHUNKED " (by decide +kernel)
    let message := Text.toBytes "POST / HTTP/1.1".toList ++ LineEnd.wire ⟨1⟩ ++
      (([host] ++ line :: []).flatMap RawLine.wire ++ LineEnd.wire ⟨1⟩)
    outcome (reader.feedAll (Recorder.listener {}) {} [[message]]) = .ok .chunked := by
  intro reader rawLine host line message
  let first : reader.StartLine none :=
    { head := .request .http11 false
      event := .requestLine ⟨"POST".toList, by decide, by decide⟩ [0x2f] (some .http11)
      octets := Text.toBytes "POST / HTTP/1.1".toList
      ending := ⟨1⟩
      known := rfl
      quiet := by decide +kernel
      told := by decide +kernel }
  have chunked := Reader.feedAll_codingLine .request {} (Recorder.listener {}) {} [] none first
    [host] [] line ⟨1⟩ (Text.toBytes "Transfer-Encoding".toList)
    (Text.toBytes "gzip,\tCHUNKED ".toList) [("Host".toList, "a".toList)] [] [[message]] rfl
    (by decide +kernel) rfl (by decide +kernel) (by decide +kernel) (by decide +kernel)
    (by decide +kernel) (by decide +kernel) (by decide +kernel) (by decide +kernel)
    (by decide +kernel) (.inr (by decide +kernel))
  exact (chunked.2 (by decide +kernel)).mpr (by decide +kernel)

/-- A vertical tab is no blank, and yet a coding is recognized behind it. -/
theorem Reader.feedAll_codingLine_spaced :
    let value : Bytes := [sp, 0x0b] ++ Text.toBytes "chunked".toList
    let message := Text.toBytes "POST / HTTP/1.0\r\nTransfer-Encoding:".toList ++ value ++
      Text.toBytes "\r\n\r\n".toList
    outcome (Reader.feedAll { mode := .request } (Recorder.listener {}) {} [[message]]) =
        .ok .chunked ∧
      Text.fold (Text.strip (Text.lastElement (Text.ofBytes value))) ≠ "chunked".toList := by
  decide +kernel

end HttpStream
