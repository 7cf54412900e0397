import HttpStream.Proofs.ChunkedBodies
import HttpStream.Proofs.Outcomes
import HttpStream.Proofs.Trimming

/-! One line read twice, as a field ahead of the body and as a trailer behind it: the trailer is the
field without any white space at the ends of its name and its value. -/

set_option autoImplicit false

namespace HttpStream

open Octet

/-! What the line spells. -/

theorem NamedField.ofLine_split (line : Text) : ∃ gap, gap.all Text.isBlank = true ∧
    (line = (ofLine line).1 ++ gap ∧ (ofLine line).2 = [] ∨ ∃ lead trail,
      lead.all Text.isBlank = true ∧ trail.all Text.isBlank = true ∧
        line = (ofLine line).1 ++ gap ++ ':' :: (lead ++ (ofLine line).2 ++ trail)) := by
  have parts := @List.takeWhile_append_dropWhile _ (· != ':') line
  have stop := List.head?_dropWhile_not (· != ':') line
  obtain ⟨gap, front, blanks⟩ := Text.trimRight_split Text.isBlank (line.takeWhile (· != ':'))
  refine ⟨gap, blanks, ?_⟩
  simp only [ofLine, ← front]
  cases rest : line.dropWhile (· != ':') with
  | nil =>
    rw [rest, List.append_nil] at parts
    exact .inl ⟨parts.symm, rfl⟩
  | cons c after =>
    obtain rfl : c = ':' := by simpa [rest] using stop
    obtain ⟨lead, trail, split, leads, trails, _⟩ := Text.trimBoth_split Text.isBlank after
    refine .inr ⟨lead, trail, leads, trails, ?_⟩
    rw [List.drop_one, List.tail_cons, Text.strip_eq, ← split, ← rest]
    exact parts.symm

/-- A trailer is cut out of its line as a field is, and loses all white space at its ends. -/
theorem trailerField_eq (line : Text) : Reader.trailerField line =
    (Text.trim (NamedField.ofLine line).1, Text.trim (NamedField.ofLine line).2) := by
  have value : line.drop ((line.takeWhile (· != ':')).length + 1) =
      (line.dropWhile (· != ':')).drop 1 := by
    have parts := @List.takeWhile_append_dropWhile _ (· != ':') line
    generalize line.takeWhile _ = front, line.dropWhile _ = rest at parts ⊢
    simp [← parts, List.drop_append]
  simp only [Reader.trailerField, NamedField.ofLine, value, Text.trim_trimRight, Text.trim_strip]

namespace Reader

variable {r : Reader} {capacity : Nat}

theorem run_trailerStart (capacity : Nat) (unlimited : r.settings.limit? = none)
    (at_ : r.stage = .trailer .empty) {b : UInt8} (plain : isLineEnd b = false) (rest : Bytes) :
    r.run false capacity (b :: rest) =
      (r.trailing .empty r.headerBytes).run false capacity (b :: rest) := by
  have fits : r.fits 1 = true := fits_of_unlimited unlimited 1
  have pushed : r.push capacity b =
      (r.trailing .empty (r.headerBytes + 1)).pushTrailer .empty b := by
    have counted : r.stage.isCounted = true := by rw [at_]; rfl
    unfold push
    rw [if_pos counted, limitFault?_of_fits fits]
    have same : ({ r.count with afterCr := false } : Reader) =
        r.trailing .empty (r.headerBytes + 1) := by
      obtain ⟨⟩ := r
      cases at_
      rfl
    have fresh : r.count.isLineRest b = false := by simp [isLineRest, plain]
    simp only [accept, fresh, same, Bool.false_eq_true, if_false]
    rfl
  rw [run, run, advance_alone, advance_alone, pushed, push_trailing unlimited, at_]
  rfl

theorem run_trailer (capacity : Nat) (unlimited : r.settings.limit? = none)
    (at_ : r.stage = .trailer .empty) (line : RawLine) :
    let field := trailerField line.text
    ∃ s, r.run false capacity line.wire =
      { reader := s, events := [.trailer field.1 field.2] } := by
  intro field
  obtain ⟨m, told⟩ := run_rawTrailer unlimited capacity line r.headerBytes
  refine ⟨r.trailing .empty m, ?_⟩
  obtain ⟨octets, ending, nonempty, plain⟩ := line
  cases octets with
  | nil => exact absurd rfl nonempty
  | cons b rest =>
    exact (run_trailerStart capacity unlimited at_ (plain b List.mem_cons_self) _).trans told

end Reader

theorem tellFields_initial {head : Head} {asked : Bool} {before : List NamedField}
    (fields : List NamedField) :
    Event.fields (tellFields head asked before fields).1 <+: fields := by
  induction fields generalizing before with
  | nil =>
    rcases tellBlank_cases head asked before with blank | ⟨late, blank, silent, _⟩
    · simp [tellFields, blank, Event.fields]
    · simp [tellFields, blank, silent]
  | cons field rest ih =>
    rw [tellFields]
    cases told : tellField head.side before field with
    | error fault => exact List.nil_prefix
    | ok events =>
      rw [Event.fields_append, (tellField_tellsOnly told).fields]
      exact List.cons_prefix_cons.mpr ⟨rfl, ih⟩

/-- A line that continues nothing, told by any connection in any fragments within the limit: as a
trailer, and in the fields of a message. There its name and its value are what is between blanks;
the trailer loses all white space, so that the two are the same if there is none but blanks at
their ends. -/
theorem Reader.feedAll_trailer {σ : Type} (mode : Mode) (settings : Settings) (early : Listener σ)
    (state : σ) (before : List Call) (memoryCapacity : Option Nat) (line : RawLine) :
    let reached := (Reader.through { mode, settings } early state before).1
    let told (r : Reader) (fragments : List Input) :=
      (r.feedAll (Recorder.listener { memoryCapacity }) {} fragments).2.1
    let field := NamedField.ofLine line.text
    let trailer : NamedField := (Text.trim field.1, Text.trim field.2)
    Text.continues line.text = false →
    (∀ fragments : List Input, reached.stage = .trailer .empty →
      fragments.flatten.flatten = line.wire → reached.Spares line.wire.length →
      (told reached fragments).events = [.trailer trailer.1 trailer.2] ∧
        (told reached fragments).fault = none) ∧
    (∀ (first : reached.reset.StartLine memoryCapacity) (lines after : List RawLine)
      (blank : LineEnd) (fields later : List NamedField) (fragments : List Input),
      NamedField.ofLines? (lines.map RawLine.text) = some fields →
      NamedField.ofLines? (after.map RawLine.text) = some later →
      fragments.flatten.flatten =
        first.wire ++ ((lines ++ line :: after).flatMap RawLine.wire ++ blank.wire) →
      (settings.headerLimit = 0 ∨ fragments.flatten.flatten.length ≤ settings.headerLimit) →
      let heard := told reached.reset fragments
      Event.fields heard.events <+: fields ++ field :: later ∧
        (heard.fault = none → Event.fields heard.events = fields ++ field :: later)) ∧
    (∃ gap, gap.all Text.isBlank = true ∧ (line.text = field.1 ++ gap ∧ field.2 = [] ∨
      ∃ lead trail, lead.all Text.isBlank = true ∧ trail.all Text.isBlank = true ∧
        line.text = field.1 ++ gap ++ ':' :: (lead ++ field.2 ++ trail))) ∧
    (trailer = field ↔
      Text.isBare Text.isSpace field.1 = true ∧ Text.isBare Text.isSpace field.2 = true) := by
  intro reached told field trailer begins
  have sound : reached.Sound := (Sound.fresh mode settings).through early state before
  refine ⟨?_, ?_, NamedField.ofLine_split line.text, ?_⟩
  · intro fragments at_ whole spared
    obtain ⟨step, alike, _, _, state⟩ := feedAll_spared memoryCapacity fragments sound
      (by rw [at_]; nofun) (whole ▸ spared)
    obtain ⟨s, run⟩ := run_trailer (r := reached.under 0) 0 rfl at_ line
    rw [whole, run, trailerField_eq] at alike
    rw [show told reached fragments = _ from state]
    exact ⟨Event.eq_of_joined_eq alike.events (by simp), Option.or_none.trans alike.fault⟩
  · intro first lines after blank fields later fragments spelled spells whole within heard
    let block := FieldSection.around spelled line begins spells blank
    obtain ⟨events, fault, _⟩ := first.fed (.reset sound) block fragments whole
      (spares_reset early state before within)
    obtain ⟨_, _, start⟩ := Event.of_head? first.known
    have heard_eq : Event.fields heard.events =
        Event.fields (tellFields first.head reached.reset.headResponse [] block.fields).1 := by
      rw [show heard.events = _ from events, Event.fields, List.filterMap_cons_none start]
      rfl
    rw [heard_eq]
    refine ⟨tellFields_initial block.fields, fun fine => ?_⟩
    exact (tellFields_fine (fault.symm.trans fine)).1
  · rw [Prod.ext_iff]
    exact and_congr Text.trimBoth_eq_self_iff Text.trimBoth_eq_self_iff

theorem Reader.feedAll_trailer_of_checksum :
    let line : RawLine := ⟨Text.toBytes "Checksum : 5 \t".toList, ⟨1⟩, by decide, by decide +kernel⟩
    let body := Text.toBytes "HTTP/1.1 200 OK\r\nTransfer-Encoding: chunked\r\n\r\n0\r\n".toList
    let next := Text.toBytes "HTTP/1.1 204 \r\n".toList ++ (line.wire ++ LineEnd.wire ⟨1⟩)
    let reached := (Reader.through { mode := .response, settings := { trailers := true } }
      (Recorder.listener {}) {} [.read [body]]).1
    let told (r : Reader) (bytes : Bytes) := (r.feedAll (Recorder.listener {}) {} [[bytes]]).2.1
    (told reached line.wire).events = [.trailer "Checksum".toList "5".toList] ∧
      Event.fields (told reached.reset next).events = [("Checksum".toList, "5".toList)] := by
  intro line body next reached told
  let first : reached.reset.StartLine none :=
    { head := .response 204
      event := .statusLine .http11 204 none
      octets := Text.toBytes "HTTP/1.1 204 ".toList
      ending := ⟨1⟩
      known := rfl
      quiet := by decide +kernel
      told := by decide +kernel }
  have both := Reader.feedAll_trailer .response { trailers := true } (Recorder.listener {}) {}
    [.read [body]] none line (by decide +kernel)
  have ready : reached.stage = .trailer .empty ∧
      reached.headerBytes + line.wire.length ≤ reached.settings.headerLimit := by
    decide +kernel
  obtain ⟨trailer, _⟩ := both.1 [[line.wire]] ready.1 rfl (.inr ready.2)
  have field := (both.2.1 first [] [] ⟨1⟩ [] [] [[next]] rfl rfl (by decide +kernel)
    (.inr (by decide +kernel))).2 (by decide +kernel)
  exact ⟨trailer.trans (by decide +kernel), field.trans (by decide +kernel)⟩

/-- A no-break space at the end of a value is text in a field, and lost in a trailer. -/
theorem Reader.feedAll_trailer_spaced :
    let line : Bytes := Text.toBytes "X: ".toList ++ [0xa0, 0x61]
    let head := Text.toBytes "HTTP/1.1 200 OK\r\nTransfer-Encoding: chunked\r\n".toList
    let told (bytes : Bytes) := (Reader.feedAll
      { mode := .response, settings := { trailers := true } }
      (Recorder.listener {}) {} [[bytes]]).2.1.events
    .header "X".toList ['\u00a0', 'a'] ∈ told (head ++ line ++ [cr, lf, cr, lf]) ∧
      .trailer "X".toList ['a'] ∈
        told (head ++ Text.toBytes "\r\n0\r\n".toList ++ line ++ [cr, lf, cr, lf]) := by
  decide +kernel

end HttpStream
