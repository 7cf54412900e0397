import Mathlib.Data.List.Find
import HttpStream.Proofs.Outcomes
import HttpStream.Proofs.Trimming

/-! The transfer codings of a message: a list that its fields may spell on one line or on many. Each
line is judged by itself, and the framing is chunked where one of them ends in that coding. -/

set_option autoImplicit false

namespace HttpStream

def isChunked (coding : Text) : Bool := Text.fold coding = "chunked".toList

/-- Whether the chunked coding is listed, and another one in the last place. -/
def misplacesChunked (codings : List Text) : Bool :=
  codings.any isChunked && !codings.getLast?.any isChunked

/-- The elements of a list value, as the grammar separates them. -/
def Value.codings (value : Text) : List Text := (value.splitOn ',').map Text.strip

def codings (fields : List NamedField) : List Text :=
  (fields.filter StandardName.transferEncoding.names).flatMap fun field => Value.codings field.2

def others (fields : List NamedField) : List NamedField :=
  fields.filter fun field => !StandardName.transferEncoding.names field

def misplaced (field : NamedField) : Bool :=
  StandardName.transferEncoding.names field && misplacesChunked (Value.codings field.2)

/-- Whether a field is refused for its codings, from which all white space is trimmed. -/
def miscoded (field : NamedField) : Bool :=
  StandardName.transferEncoding.names field && misplacesChunked (Text.elements field.2)

def othersFine (mode : Mode) (fields : List NamedField) : Bool :=
  (others fields).all fun field => (tellField mode [] field).isOk

/-! One value. -/

namespace Value

theorem chunked_token (element : Text) :
    (StandardToken.ofText? element == some .chunked) = isChunked element := by
  have usual : Text.fold StandardToken.chunked.text.toList = "chunked".toList := by decide
  rw [Bool.eq_iff_iff, beq_iff_eq, StandardToken.ofText?_eq_some_iff, usual, isChunked,
    decide_eq_true_iff]

theorem chunked_judged (value : Text) : chunked value =
    if misplacesChunked (Text.elements value) then .error (.badChunking value)
    else .ok (endsChunked value) := by
  have listed : lists .chunked value = (Text.elements value).any isChunked := by
    simp only [lists, chunked_token]
  have last : (Text.elements value).getLast?.any isChunked = endsChunked value := rfl
  unfold chunked misplacesChunked
  rw [listed, last]
  by_cases ends : endsChunked value = true
  · rw [if_pos (endsChunked_iff.mp ends), ends]
    simp
  · rw [if_neg (mt endsChunked_iff.mpr ends), Bool.eq_false_iff.mpr ends]
    simp

end Value

/-! The fields together. -/

variable {mode : Mode} {head : Head} {asked : Bool} {before fields more : List NamedField}
  {field : NamedField}

theorem tellField_behind (other : StandardName.transferEncoding.names field = false)
    (fine : (tellField mode [] field).isOk = true) (before : List NamedField) :
    ∃ events, tellField mode before field = .ok events := by
  have ok {told : Except Fault (List Event)} (fine : told.isOk = true) :
      ∃ events, told = .ok events := by
    cases told with
    | error => cases fine
    | ok events => exact ⟨events, rfl⟩
  -- Behind the chunked coding a length is not looked at, and all else goes by the field alone.
  by_cases ignored : StandardName.contentLength.names field = true ∧ chunks before = true
  · have notHost := StandardName.names_of_ne ignored.1 (show .host ≠ _ by decide)
    exact ⟨[.header field.1 field.2], by simp [tellField, ignored.2, other, notHost]⟩
  · have same : tellField mode before field = tellField mode [] field := by
      have first : chunks [] = false := rfl
      have front : (StandardName.contentLength.names field && !chunks before) =
          StandardName.contentLength.names field := by grind
      simp only [tellField, front, first, Bool.not_false, Bool.and_true]
    rw [same]
    exact ok fine

theorem tellField_coding (named : StandardName.transferEncoding.names field = true) :
    tellField mode before field =
      (Value.chunked field.2).map fun _ => [.header field.1 field.2] := by
  have notLength := StandardName.names_of_ne named (show .contentLength ≠ _ by decide)
  simp only [tellField, notLength, named, Bool.false_and, Bool.false_eq_true, if_false, if_true]

/-- The first line with a misplaced coding is what is wrong with fields that are fine otherwise. -/
theorem tellFields_fault (fine : othersFine head.side fields = true) :
    (tellFields head asked before fields).2 =
      match fields.find? miscoded with
      | some field => some (.badChunking field.2)
      | none => (tellBlank head asked (before ++ fields)).2 := by
  induction fields generalizing before with
  | nil => simp [tellFields]
  | cons field rest ih =>
    cases named : StandardName.transferEncoding.names field with
    | true =>
      have fine' : othersFine head.side rest = true := by
        simpa [othersFine, others, named] using fine
      cases wrong : misplacesChunked (Text.elements field.2) with
      | true =>
        simp [tellFields, tellField_coding named, Value.chunked_judged, miscoded, wrong, named,
          Except.map]
      | false =>
        simp [tellFields, tellField_coding named, Value.chunked_judged, miscoded, wrong, named,
          Except.map, ih fine']
    | false =>
      obtain ⟨first, fine'⟩ : (tellField head.side [] field).isOk = true ∧
          othersFine head.side rest = true := by simpa [othersFine, others, named] using fine
      obtain ⟨events, told⟩ := tellField_behind named first before
      simp [tellFields, told, miscoded, named, ih fine']

theorem tellBlank_fault : (tellBlank head asked fields).2 =
    if head.missesHost fields then some .noHost else none := by
  unfold tellBlank
  split
  · rfl
  · split <;> rfl

theorem judged_eq (fine : othersFine head.side fields = true) :
    Framing.judged head asked fields =
      match fields.find? miscoded with
      | some field => .error (.badChunking field.2)
      | none =>
        if head.missesHost fields then .error .noHost
        else .ok (.decided asked head.status? fields) := by
  unfold Framing.judged
  rw [tellFields_fault fine]
  cases fields.find? _ with
  | some field => rfl
  | none =>
    simp only [List.nil_append, tellBlank_fault]
    cases head.missesHost fields <;> rfl

/-! Codings without white space in them. -/

theorem filter_names {name : StandardName} (different : name ≠ .transferEncoding)
    (fields : List NamedField) : fields.filter name.names = (others fields).filter name.names := by
  rw [others, List.filter_filter]
  refine List.filter_congr fun field _ => ?_
  cases named : name.names field with
  | false => rfl
  | true => simp [StandardName.names_of_ne named different.symm]

theorem elements_eq {value : Text}
    (solid : ∀ coding ∈ Value.codings value, coding.any Text.isSpace = false) :
    Text.elements value = Value.codings value := by
  refine List.map_congr_left fun piece member => ?_
  have inner : (Text.strip piece).any Text.isSpace = false :=
    solid _ (List.mem_map_of_mem member)
  rw [← Text.trim_strip]
  exact Text.trimBoth_eq_self_iff.mpr (Text.isBare_of_none inner)

theorem last_of_placed {codings : List Text} (placed : misplacesChunked codings = false) :
    codings.getLast?.any isChunked = codings.any isChunked := by
  cases last : codings.getLast?.any isChunked with
  | false => simpa [misplacesChunked, last] using placed.symm
  | true =>
    cases found : codings.getLast? with
    | none => simp [found] at last
    | some coding =>
      rw [found] at last
      exact (List.any_eq_true.mpr ⟨coding, List.mem_of_getLast? found, last⟩).symm

section Solid

variable (solid : ∀ coding ∈ codings fields, coding.any Text.isSpace = false)
include solid

theorem elements_of_mem (member : field ∈ fields)
    (named : StandardName.transferEncoding.names field = true) :
    Text.elements field.2 = Value.codings field.2 :=
  elements_eq fun coding listed => solid coding
    (List.mem_flatMap.mpr ⟨field, List.mem_filter.mpr ⟨member, named⟩, listed⟩)

theorem find?_miscoded : fields.find? miscoded = fields.find? misplaced := by
  refine List.find?_congr fun field member => ?_
  cases named : StandardName.transferEncoding.names field with
  | false => simp [miscoded, misplaced, named]
  | true => simp [miscoded, misplaced, named, elements_of_mem solid member named]

/-- Where each line has the chunked coding in the last place or not at all, a message is chunked if
the coding is listed. -/
theorem chunks_eq (placed : fields.any misplaced = false) :
    chunks fields = (codings fields).any isChunked := by
  rw [codings, List.any_flatMap, List.any_filter, chunks, Bool.eq_iff_iff, List.any_eq_true,
    List.any_eq_true]
  simp only [Bool.and_eq_true]
  refine exists_congr fun field => and_congr_right fun member => and_congr_right fun named => ?_
  have right : misplacesChunked (Value.codings field.2) = false := by
    simpa [misplaced, named] using List.any_eq_false.mp placed field member
  rw [← last_of_placed right, ← elements_of_mem solid member named]
  rfl

end Solid

/-! The same list on other lines. -/

theorem misplaced_of_pairwise
    (ordered : (codings fields).Pairwise fun a b => isChunked a = true → isChunked b = true) :
    fields.any misplaced = false := by
  refine List.any_eq_false.mpr fun field member => ?_
  cases named : StandardName.transferEncoding.names field with
  | false => simp [misplaced, named]
  | true =>
    have line : (Value.codings field.2).Sublist (codings fields) :=
      List.sublist_flatten_of_mem
        (List.mem_map_of_mem (List.mem_filter.mpr ⟨member, named⟩))
    have ordered := ordered.sublist line
    -- A chunked coding of the line stands ahead of its last one, or is the last one.
    rcases List.eq_nil_or_concat (Value.codings field.2) with none | ⟨front, last, split⟩
    · simp [misplaced, misplacesChunked, none]
    · rw [split, List.concat_eq_append, List.pairwise_append] at ordered
      have chunked : front.any isChunked = true → isChunked last = true := fun found => by
        obtain ⟨coding, inside, chunked⟩ := List.any_eq_true.mp found
        exact ordered.2.2 coding inside last List.mem_cons_self chunked
      have placed : misplacesChunked (front ++ [last]) = false := by
        cases ends : isChunked last with
        | true => simp [misplacesChunked, ends]
        | false => simpa [misplacesChunked, ends] using mt chunked (by simp [ends])
      simp [misplaced, split, placed]

theorem judged_congr (fine : othersFine head.side fields = true)
    (solid : ∀ coding ∈ codings fields, coding.any Text.isSpace = false)
    (same : others more = others fields) (listed : codings more = codings fields)
    (placed : fields.any misplaced = false) (placed' : more.any misplaced = false) :
    Framing.judged head asked more = Framing.judged head asked fields := by
  have fine' : othersFine head.side more = true := by rwa [othersFine, same]
  have solid' : ∀ coding ∈ codings more, coding.any Text.isSpace = false := listed ▸ solid
  have none {fields : List NamedField} (placed : fields.any misplaced = false) :
      fields.find? misplaced = none := by
    simpa using placed
  -- Hosts and lengths are among the other fields, which are the same on both sides.
  have hosts : head.missesHost more = head.missesHost fields := by
    cases head with
    | response => rfl
    | request version =>
      have hosted (fields : List NamedField) : fields.any StandardName.host.names =
          (others fields).any StandardName.host.names := by
        have some (fields : List NamedField) : fields.any StandardName.host.names =
            (fields.filter StandardName.host.names).any fun _ => true := by simp
        rw [some, some (others fields), filter_names (by decide)]
      rw [Head.missesHost, Head.missesHost, hosted, same, ← hosted]
  have framing : Framing.decided asked head.status? more =
      Framing.decided asked head.status? fields := by
    have lengths (fields : List NamedField) : announced? fields = announced? (others fields) := by
      rw [announced?, announced?, filter_names (by decide)]
    unfold Framing.decided
    rw [chunks_eq solid placed, chunks_eq solid' placed', listed, lengths more, same, ← lengths]
  rw [judged_eq fine, judged_eq fine', find?_miscoded solid, find?_miscoded solid', none placed,
    none placed', hosts, framing]

/-- Codings without white space in them that fields list in the same order, with the same other
fields around them that nothing is wrong with, in any fragments within the limit: where no other
coding follows the chunked one in the list, it does not matter how it is cut into lines. In general
it matters for the lines that have the chunked coding ahead of the last one of their own: with such
a line a message is refused, and two messages without one come to the same. -/
theorem Reader.feedAll_codings {σ : Type} (mode : Mode) (settings : Settings) (early : Listener σ)
    (state : σ) (before : List Call) (memoryCapacity : Option Nat) :
    let reader := (Reader.through { mode, settings } early state before).1.reset
    ∀ (first : reader.StartLine memoryCapacity) (block block' : FieldSection)
      (fragments fragments' : List Input),
    fragments.flatten.flatten = first.wire ++ block.wire →
    fragments'.flatten.flatten = first.wire ++ block'.wire →
    (settings.headerLimit = 0 ∨ fragments.flatten.flatten.length ≤ settings.headerLimit ∧
      fragments'.flatten.flatten.length ≤ settings.headerLimit) →
    othersFine first.head.side block.fields = true →
    (∀ coding ∈ codings block.fields, coding.any Text.isSpace = false) →
    others block'.fields = others block.fields → codings block'.fields = codings block.fields →
    let comes (fragments : List Input) :=
      outcome (reader.feedAll (Recorder.listener { memoryCapacity }) {} fragments)
    ((codings block.fields).Pairwise (fun a b => isChunked a = true → isChunked b = true) →
      comes fragments' = comes fragments ∧
        ∀ value, comes fragments ≠ .error (.badChunking value)) ∧
    (block.fields.any misplaced = false → block'.fields.any misplaced = false →
      comes fragments' = comes fragments) ∧
    (block.fields.any misplaced = true ↔
      ∃ value, comes fragments = .error (.badChunking value)) := by
  intro reader first block block' fragments fragments' spelled spelled' within fine solid same
    listed comes
  have opening : reader.Opening := .reset ((Sound.fresh mode settings).through early state before)
  have comes_eq (block : FieldSection) (fragments : List Input)
      (spelled : fragments.flatten.flatten = first.wire ++ block.wire)
      (within : settings.headerLimit = 0 ∨
        fragments.flatten.flatten.length ≤ settings.headerLimit) :
      comes fragments = Framing.judged first.head reader.headResponse block.fields :=
    first.outcome opening block fragments spelled (spares_reset early state before within)
  -- What is left is about the judgement of the fields alone.
  rw [comes_eq block fragments spelled (within.imp id And.left),
    comes_eq block' fragments' spelled' (within.imp id And.right)]
  have unplaced : block.fields.any misplaced = true ↔ ∃ value,
      Framing.judged first.head reader.headResponse block.fields = .error (.badChunking value) := by
    rw [judged_eq fine, find?_miscoded solid]
    cases found : block.fields.find? misplaced with
    | none =>
      have placed : block.fields.any misplaced = false := by simpa using found
      rw [placed]
      simp only
      split <;> simp
    | some field =>
      have there : block.fields.any misplaced = true :=
        List.any_eq_true.mpr ⟨field, List.mem_of_find?_eq_some found, List.find?_some found⟩
      simp [there]
  refine ⟨fun ordered => ?_, judged_congr fine solid same listed, unplaced⟩
  have placed := misplaced_of_pairwise ordered
  have placed' : block'.fields.any misplaced = false := misplaced_of_pairwise (listed ▸ ordered)
  refine ⟨judged_congr fine solid same listed placed placed', fun value wrong => ?_⟩
  rw [unplaced.mpr ⟨value, wrong⟩] at placed
  cases placed

theorem Reader.feedAll_codings_of_gzip :
    let reader := (Reader.through { mode := .request } (Recorder.listener {}) {} []).1.reset
    let comes (fragments : List Input) :=
      outcome (reader.feedAll (Recorder.listener {}) {} fragments)
    let line (text : String) (h : Text.toBytes text.toList ≠ [] ∧
        ∀ b ∈ Text.toBytes text.toList, Octet.isLineEnd b = false) : RawLine :=
      ⟨Text.toBytes text.toList, ⟨1⟩, h.1, h.2⟩
    let one := [line "Transfer-Encoding: gzip, Chunked" (by decide +kernel),
      line "Content-Length: 5" (by decide +kernel)]
    let two := [line "transfer-encoding:gzip" (by decide +kernel),
      line "Content-Length: 5" (by decide +kernel),
      line "Transfer-Encoding: Chunked" (by decide +kernel)]
    let message (lines : List RawLine) : Bytes := Text.toBytes "POST / HTTP/1.0".toList ++
      LineEnd.wire ⟨1⟩ ++ (lines.flatMap RawLine.wire ++ LineEnd.wire ⟨1⟩)
    comes [[message two]] = comes [[message one]] ∧ comes [[message one]] = .ok .chunked := by
  intro reader comes line one two message
  let first : reader.StartLine none :=
    { head := .request .http10 false
      event := .requestLine ⟨"POST".toList, by decide, by decide⟩ [0x2f] (some .http10)
      octets := Text.toBytes "POST / HTTP/1.0".toList
      ending := ⟨1⟩
      known := rfl
      quiet := by decide +kernel
      told := by decide +kernel }
  let block : FieldSection :=
    { lines := one
      blank := ⟨1⟩
      fields := [("Transfer-Encoding".toList, "gzip, Chunked".toList),
        ("Content-Length".toList, "5".toList)]
      spells := by decide +kernel }
  let block' : FieldSection :=
    { lines := two
      blank := ⟨1⟩
      fields := [("transfer-encoding".toList, "gzip".toList), ("Content-Length".toList, "5".toList),
        ("Transfer-Encoding".toList, "Chunked".toList)]
      spells := by decide +kernel }
  have same := Reader.feedAll_codings .request {} (Recorder.listener {}) {} [] none first block
    block' [[message one]] [[message two]] (by decide +kernel) (by decide +kernel)
    (.inr (by decide +kernel)) (by decide +kernel) (by decide +kernel) (by decide +kernel)
    (by decide +kernel)
  exact ⟨(same.1 (by decide +kernel)).1, by decide +kernel⟩

/-- Where another coding follows the chunked one, it matters how the list is cut into lines: that
coding may end one of them, or stand ahead of another one there. -/
theorem Reader.feedAll_codings_cut :
    let comes (text : String) := outcome
      (Reader.feedAll { mode := .request } (Recorder.listener {}) {}
        [[Text.toBytes ("POST / HTTP/1.0\r\n" ++ text ++ "\r\n").toList]])
    comes "Transfer-Encoding: chunked\r\nTransfer-Encoding: gzip\r\n" = .ok .chunked ∧
      comes "Transfer-Encoding: chunked, gzip\r\n" =
        .error (.badChunking "chunked, gzip".toList) := by
  decide +kernel

end HttpStream
