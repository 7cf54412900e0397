import HttpStream.Proofs.Openings
import HttpStream.Proofs.RawLines

/-! Field sections as they stand on the wire: whatever their lines hold and however these end, the
fields that they spell are told, each of them once and in order. -/

set_option autoImplicit false

namespace HttpStream

open Octet

/-! Between two lines. -/

def Head.after (head : Head) (fields : List NamedField) : Head :=
  match head with
  | .request version _ => .request version (fields.any StandardName.host.names)
  | .response status => .response status

theorem Event.after_of_head? {start : Event} {head : Head} (known : start.head? = some head) :
    head.after [] = head := by
  cases start with
  | requestLine _ _ version => cases version <;> cases known; rfl
  | statusLine => cases known; rfl
  | _ => cases known

theorem StandardName.names_eq (name : StandardName) (field : NamedField) :
    name.names field = (ofText? field.1 == some name) := by
  rw [Bool.eq_iff_iff, names_iff, beq_iff_eq]

theorem StandardName.names_of_ne {name other : StandardName} {field : NamedField}
    (named : name.names field = true)
    (different : other ≠ name) : other.names field = false := by
  rw [names_eq] at named ⊢
  rw [beq_iff_eq.mp named, Bool.eq_false_iff]
  simpa using different.symm

namespace Reader

variable {r s t : Reader} {b : UInt8} {capacity n : Nat} {bytes : Bytes} {events : List Event}
  {head : Head} {before : List NamedField} {field : NamedField} {fault : Fault}

/-- A field that names no host leaves what is known of the start line. -/
theorem after_append_of_ne (other : StandardName.host.names field = false) :
    head.after (before ++ [field]) = head.after before := by
  cases head <;> simp [Head.after, other]

/-- A field is given its meaning as it is told: what is wrong with it is what is said to be, or it is
told last, and what is known of the start line is `after`. -/
def GoesAs (field : NamedField) (after : Head) (told : Except Fault (List Event))
    (result : Except Fault (Reader × Head × List Event)) : Prop :=
  match told with
  | .error fault => result = .error fault
  | .ok events => ∃ s early, result = .ok (s, after, early) ∧
      events = early ++ [.header field.1 field.2]

theorem tellField_ordinary {mode : Mode}
    (length : StandardName.ofText? field.1 = some .contentLength → chunks before = true)
    (coding : StandardName.ofText? field.1 ≠ some .transferEncoding)
    (host : StandardName.ofText? field.1 = some .host → mode = .response) :
    tellField mode before field = .ok [.header field.1 field.2] := by
  have notLength : (StandardName.contentLength.names field && !chunks before) = false := by
    simpa [StandardName.names_eq] using length
  have notCoding : StandardName.transferEncoding.names field = false := by
    simpa [StandardName.names_eq] using coding
  have notHost : (StandardName.host.names field && decide (mode = .request)) = false := by
    cases mode <;> simp_all [StandardName.names_eq]
  simp only [tellField, notLength, notCoding, notHost, Bool.false_eq_true, if_false]

theorem tellField_length {mode : Mode} (named : StandardName.contentLength.names field = true)
    (plain : chunks before = false) : tellField mode before field =
      (Value.contentLength field.2).map fun _ => [.header field.1 field.2] := by
  simp [tellField, named, plain]

/-- A length is ignored behind the chunked coding. -/
theorem heedContentLength_tells (heeded : r.Heeded before) {mode : Mode} (after : Head)
    (named : StandardName.ofText? field.1 = some .contentLength) :
    GoesAs field after (tellField mode before field)
      (r.heedContentLength field.2 >>= fun s => pure (s, after, [])) := by
  have chunking : chunks before = true ↔ r.framing = .chunked := heeded.chunks_iff
  by_cases chunked : r.framing = .chunked
  · have result : r.heedContentLength field.2 = .ok r := by simp [heedContentLength, chunked]
    rw [tellField_ordinary (fun _ => chunking.mpr chunked) (by simp [named]) (by simp [named]),
      result]
    exact ⟨r, [], rfl, rfl⟩
  · have plain : chunks before = false := Bool.eq_false_iff.mpr (mt chunking.mp chunked)
    rw [tellField_length (by simp [StandardName.names_eq, named]) plain]
    simp only [heedContentLength, chunked, if_false]
    cases Value.contentLength field.2 with
    | error fault => rfl
    | ok length => exact ⟨_, [], rfl, rfl⟩

theorem heedTransferEncoding_tells {mode : Mode} (after : Head)
    (named : StandardName.ofText? field.1 = some .transferEncoding) :
    GoesAs field after (tellField mode before field)
      (r.heedTransferEncoding field.2 >>= fun s => pure (s, after, [])) := by
  have told : tellField mode before field =
      (Value.chunked field.2).map fun _ => [.header field.1 field.2] := by
    simp [tellField, StandardName.names_eq, named]
  rw [told]
  simp only [heedTransferEncoding]
  cases Value.chunked field.2 with
  | error fault => rfl
  | ok ending => exact ⟨_, [], rfl, rfl⟩

/-- A host is told ahead of its field, and the head keeps that there was one. -/
theorem heedHost_tells (r : Reader) {version : Version} {seen : Bool}
    (named : StandardName.ofText? field.1 = some .host) :
    GoesAs field ((Head.request version seen).after (before ++ [field]))
      (tellField .request before field)
      (Value.host field.2 >>= fun host =>
        pure (r, .request version true, [.host host.1 host.2])) := by
  have told : tellField .request before field =
      (Value.host field.2).map fun host => [.host host.1 host.2, .header field.1 field.2] := by
    simp [tellField, StandardName.names_eq, named]
  have after : (Head.request version seen).after (before ++ [field]) = .request version true := by
    simp [Head.after, StandardName.names_eq, named]
  rw [after, told]
  cases Value.host field.2 with
  | error fault => rfl
  | ok host => exact ⟨r, [.host host.1 host.2], rfl, rfl⟩

theorem heed_tells (heeded : r.Heeded before) :
    GoesAs field (head.after (before ++ [field])) (tellField head.side before field)
      (r.heed (head.after before) field.field) := by
  have same (other : StandardName.ofText? field.1 ≠ some .host) :
      head.after (before ++ [field]) = head.after before :=
    after_append_of_ne (by simp [StandardName.names_eq, other])
  unfold heed
  split
  · next named =>
    have named : StandardName.ofText? field.1 = some .contentLength := named
    rw [same (by simp [named])]
    exact heedContentLength_tells heeded _ named
  · next named =>
    have named : StandardName.ofText? field.1 = some .transferEncoding := named
    rw [same (by simp [named])]
    exact heedTransferEncoding_tells _ named
  · next named =>
    have named : StandardName.ofText? field.1 = some .connection := named
    rw [same (by simp [named]),
      tellField_ordinary (by simp [named]) (by simp [named]) (by simp [named])]
    exact ⟨_, [], rfl, rfl⟩
  · next version seen named side =>
    have named : StandardName.ofText? field.1 = some .host := named
    cases head with
    | response => cases side
    | request version' seen' =>
      cases side
      exact heedHost_tells r named
  · next notLength notCoding notConnection notHost =>
    -- What is left of the host fields are those of responses, where they mean nothing.
    have response (named : StandardName.ofText? field.1 = some .host) : head.side = .response := by
      cases head with
      | response => rfl
      | request version seen => exact absurd rfl (notHost version _ named)
    have same : head.after (before ++ [field]) = head.after before := by
      cases head with
      | response => rfl
      | request => exact same fun named => by cases response named
    rw [same, tellField_ordinary (fun named => absurd named notLength) notCoding response]
    exact ⟨r, [], rfl, rfl⟩

/-- Between two lines, after these fields and with one more that the next line may continue, in a
message without a limit. -/
structure Between (head : Head) (asked : Bool) (before : List NamedField)
    (pending : Option NamedField) (r : Reader) : Prop where
  sound : r.Sound
  unlimited : r.settings.limit? = none
  asked : r.headResponse = asked
  stage : r.stage = .lineStart (head.after before) (pending.map NamedField.field)
  fresh : r.afterCr = false
  heeded : r.Heeded before

variable {asked : Bool} {pending : Option NamedField} {target : Snoc UInt8}

def tellPending (mode : Mode) (before : List NamedField) :
    Option NamedField → Except Fault (List Event)
  | none => .ok []
  | some field => tellField mode before field

theorem Between.flush (h : r.Between head asked before pending) (headerBytes : Nat) :
    let u : Reader := { r with headerBytes, afterCr := false }
    match tellPending head.side before pending with
    | .error fault =>
      u.flush (head.after before) (pending.map NamedField.field) = .error fault
    | .ok events => ∃ s,
      u.flush (head.after before) (pending.map NamedField.field) =
          .ok (s, head.after (before ++ pending.toList), events) ∧
        s.Heeded (before ++ pending.toList) ∧ s.Measured ∧
        ∃ framing contentLength cache, s = { u with framing, contentLength, cache } := by
  intro u
  cases pending with
  | none =>
    have heeded : u.Heeded before := h.heeded.of_eq rfl rfl
    rw [Option.toList_none, List.append_nil]
    exact ⟨u, rfl, heeded, h.sound.measured, _, _, _, rfl⟩
  | some field =>
    have heeded : u.Heeded before := h.heeded.of_eq rfl rfl
    have sound : field.field.Sound := by
      have stage := h.sound.stage
      rw [h.stage] at stage
      exact stage
    have goes := @heed_tells u head before field heeded
    simp only [tellPending, Option.map_some, Option.toList_some]
    unfold GoesAs at goes
    split at goes
    · simp only [Reader.flush, goes]
      rfl
    · obtain ⟨s, early, given, rfl⟩ := goes
      have flushed : u.flush (head.after before) (some field.field) =
          .ok (s.remember field.field, head.after (before ++ [field]),
            early ++ [.header field.1 field.2]) := by
        simp only [Reader.flush, given]
        rfl
      obtain ⟨later, _⟩ := heed_heeded given sound heeded
      obtain ⟨cache, remembered, _⟩ := remember_ok (r := s) field.field
      obtain ⟨⟨framing, contentLength, cache', same, _⟩, measured, _⟩ := flush_ok flushed
      refine ⟨_, flushed, ?_, measured h.sound.measured, framing, contentLength, cache', same⟩
      rw [remembered]
      exact later.of_eq rfl rfl

/-! Line by line. -/

theorem Between.push (h : r.Between head asked before pending) (capacity : Nat) (b : UInt8) :
    r.push capacity b =
      { r with headerBytes := r.headerBytes + 1, afterCr := false }.pushLineStart
        (head.after before) (pending.map NamedField.field) b := by
  have inside : r.stage.inHead = true := by rw [h.stage]; rfl
  rw [push_of_fits inside (fits_of_unlimited h.unlimited 1) (by simp [isLineRest, h.fresh])]
  simp only [interpret, count, h.stage]

theorem Between.inHead (h : r.Between head asked before pending) : r.stage.inHead = true := by
  rw [h.stage]
  rfl

theorem Between.run_refused (h : r.Between head asked before pending) (capacity : Nat)
    (wrong : tellPending head.side before pending = .error fault) (opens : folds b = false)
    (rest : Bytes) :
    ∃ s, r.run false capacity (b :: rest) = { reader := s, fault := some fault } := by
  have flushed := h.flush (r.headerBytes + 1)
  rw [wrong] at flushed
  have refused : r.push capacity b =
      .fail { r with headerBytes := r.headerBytes + 1, afterCr := false } fault := by
    rw [folds] at opens
    rw [h.push]
    simp only [pushLineStart, opens, Bool.false_eq_true, if_false]
    rw [show Reader.flush _ _ _ = _ from flushed]
  exact ⟨_, Reader.run_refused h.inHead refused rest⟩

/-- The first octet of a line that begins a field delivers the field before. -/
theorem Between.push_opening (h : r.Between head asked before pending) (capacity : Nat)
    (told : tellPending head.side before pending = .ok events) (opens : folds b = false)
    (plain : isLineEnd b = false) :
    ∃ (s : Reader) (n : Nat), r.push capacity b =
        { reader := s.stand n
            (.fieldName (head.after (before ++ pending.toList)) (Snoc.empty.push (toChar b))) s.target
          events } ∧
      s.settings = r.settings ∧ s.headResponse = r.headResponse ∧
      s.Heeded (before ++ pending.toList) := by
  have flushed := h.flush (r.headerBytes + 1)
  rw [told] at flushed
  obtain ⟨s, flushed, heeded, _, framing, contentLength, cache, rfl⟩ := flushed
  refine ⟨{ r with framing, contentLength, cache }, r.headerBytes + 1, (h.push capacity b).trans ?_,
    rfl, rfl, heeded.of_eq rfl rfl⟩
  rw [folds] at opens
  simp only [pushLineStart, opens, plain, Bool.false_eq_true, if_false]
  rw [flushed]
  rfl

theorem run_closing (ending : LineEnd) {stage : Stage} (target : Snoc UInt8)
    (unlimited : r.settings.limit? = none) (inHead : stage.inHead = true)
    (closes : Closes capacity stage (head.after before) field) (n : Nat) :
    ∃ m, (r.stand n stage target).run false capacity ending.wire =
      .quiet (r.stand m (.lineStart (head.after before) (some field.field)) target) := by
  let ended : Reader := ((r.stand (n + 1) stage target).endLine ending.first).enter
    (.lineStart (head.after before) (some field.field))
  have ends : (r.stand n stage target).push capacity ending.first = .quiet ended :=
    (push_stand unlimited inHead n).trans (closes _ _ rfl ending.isLineEnd_first)
  have more : ended.stage ≠ .content 0 := nofun
  exact run_lineEnd (t := ended) ending [] unlimited (run_told inHead ends more) rfl more rfl

theorem Between.run_line (h : r.Between head asked before pending) (capacity : Nat) (line : RawLine)
    (opens : Text.continues line.text = false)
    (told : tellPending head.side before pending = .ok events) :
    ∃ s, r.run false capacity line.wire = { reader := s, events } ∧
      s.Between head asked (before ++ pending.toList) (some (.ofLine line.text)) := by
  obtain ⟨octets, ending, nonempty, plain⟩ := line
  cases octets with
  | nil => exact absurd rfl nonempty
  | cons b rest =>
    have opens : folds b = false := (Text.continues_ofBytes b rest).symm.trans opens
    have notColon : b ≠ colon := by
      rintro rfl
      cases opens
    obtain ⟨s, n, pushed, settings, asks, heeded⟩ := h.push_opening capacity told opens
      (plain b List.mem_cons_self)
    have unlimited : s.settings.limit? = none := settings ▸ h.unlimited
    obtain ⟨m, stage, inHead, closes, glides⟩ := glides_fieldLine capacity unlimited plain notColon n
    obtain ⟨k, ends⟩ := run_closing ending s.target unlimited inHead closes m
    have first := run_told h.inHead pushed nofun
    have whole := run_events_append first (rest ++ ending.wire)
      ((run_quiet_append (glides.run false) _).trans ends)
    simp only [Step.quiet, List.append_nil] at whole
    refine ⟨_, whole, ?_, unlimited, asks.trans h.asked, rfl, rfl, heeded.of_eq rfl rfl⟩
    have sound := h.sound.run false capacity ([b] ++ (rest ++ ending.wire))
    rwa [whole] at sound

theorem Between.run_continuation (h : r.Between head asked before (some field)) (capacity : Nat)
    (line : RawLine) (continues : Text.continues line.text = true) :
    ∃ s, r.run false capacity line.wire = .quiet s ∧
      s.Between head asked before
        (some (field.1, Text.extended field.2 (line.text.drop 1))) := by
  obtain ⟨octets, ending, nonempty, plain⟩ := line
  cases octets with
  | nil => exact absurd rfl nonempty
  | cons b rest =>
    have continued : folds b = true := (Text.continues_ofBytes b rest).symm.trans continues
    rw [folds] at continued
    have closed : Text.IsClosed field.2 := by
      have stage := h.sound.stage
      rw [h.stage] at stage
      exact Field.Sound.value stage |>.closed
    let value (token : Snoc Char) (folding : Bool) : Stage :=
      .fieldValue (head.after before) (StandardName.ofText? field.1) field.1 token folding false
    have opened : r.push capacity b =
        .quiet (r.stand (r.headerBytes + 1) (value (.ofList field.2) true) r.target) := by
      rw [h.push]
      simp only [pushLineStart, continued, if_true, Option.map_some]
      rfl
    have plainRest (c : UInt8) (member : c ∈ rest) := plain c (List.mem_cons_of_mem b member)
    have ready : (true || (Snoc.ofList field.2).isEmpty) = true := rfl
    obtain ⟨m, token, still, glides, trimmed⟩ := glides_text capacity (head.after before)
      (StandardName.ofText? field.1) field.1 h.unlimited plainRest (by rwa [Snoc.toList_ofList])
      ready (r.headerBytes + 1)
    rw [Snoc.toList_ofList] at trimmed
    -- However many blanks came last, trimming leaves the value with the text joined to it.
    have closes : Closes capacity (value token still) (head.after before)
        (field.1, Text.extended field.2 (Text.ofBytes rest)) := fun s c at_ ended => by
      simp [interpret, at_, value, pushFieldValue, ended, NamedField.field, trimmed]
    obtain ⟨k, ends⟩ := run_closing ending r.target h.unlimited rfl closes m
    have first := run_told h.inHead opened (by simp [value, stand])
    have whole := run_events_append first (rest ++ ending.wire)
      ((run_quiet_append (glides.run false) _).trans ends)
    refine ⟨_, whole, ?_, h.unlimited, h.asked, rfl, rfl, h.heeded.of_eq rfl rfl⟩
    have sound := h.sound.run false capacity ([b] ++ (rest ++ ending.wire))
    rwa [whole] at sound

theorem Between.run_stray (h : r.Between head asked before none) (capacity : Nat)
    (line : RawLine) (continues : Text.continues line.text = true) (rest : Bytes) :
    ∃ s, r.run false capacity (line.wire ++ rest) =
      { reader := s, fault := some .badContinuation } := by
  obtain ⟨b, later, wire, opens⟩ := line.wire_eq
  rw [continues, folds] at opens
  have refused : r.push capacity b =
      .fail { r with headerBytes := r.headerBytes + 1, afterCr := false } .badContinuation := by
    rw [h.push]
    simp only [pushLineStart, ← opens, if_true, Option.map_none]
  rw [wire]
  exact ⟨_, Reader.run_refused h.inHead refused (later ++ rest)⟩

/-! The blank line. -/

theorem status?_after (head : Head) (fields : List NamedField) :
    (head.after fields).status? = head.status? := by
  cases head <;> rfl

theorem finalFraming_ne_unknown (r : Reader) (head : Head) : r.finalFraming head ≠ .unknown := by
  cases head <;> simp only [finalFraming] <;> repeat' split
  all_goals first | assumption | decide

theorem endFields_tells {fields : List NamedField} (inside : r.stage.inHead = true)
    (heeded : r.Heeded fields) (measured : r.Measured)
    (coded : ∀ status ∈ head.status?, 100 ≤ status) :
    ∃ s, r.endFields (head.after fields) =
        { reader := s, events := (tellBlank head r.headResponse fields).1
          fault := (tellBlank head r.headResponse fields).2 } ∧
      s.settings = r.settings ∧ s.afterCr = r.afterCr ∧ s.stage ≠ .content 0 := by
  have final : r.finalFraming (head.after fields) =
      Framing.decided r.headResponse head.status? fields := by
    rw [finalFraming_eq _ (by rwa [status?_after]) heeded, status?_after]
  have lacks : lacksHost (head.after fields) = head.missesHost fields := by cases head <;> rfl
  unfold endFields tellBlank
  rw [lacks]
  cases head.missesHost fields with
  | true =>
    refine ⟨r, rfl, rfl, rfl, fun full => ?_⟩
    rw [full] at inside
    cases inside
  | false =>
    rw [← final]
    simp only [Bool.false_eq_true, if_false]
    cases framing : r.finalFraming (head.after fields) with
    | unknown => exact absurd framing (finalFraming_ne_unknown _ _)
    | noContent | chunked | untilClose => exact ⟨_, rfl, rfl, rfl, nofun⟩
    | contentLength =>
      -- A length of 0 is framed as no content, so here at least one octet is awaited.
      have length := measured (finalFraming_eq_contentLength framing)
      refine ⟨_, rfl, rfl, rfl, fun full => ?_⟩
      have none : r.contentLength.getD 0 = 0 := by simpa [enter] using full
      omega

theorem run_lineRest_quiet (capacity : Nat) (unlimited : r.settings.limit? = none)
    (more : r.stage ≠ .content 0) (afterCr : r.afterCr = true) (k : Nat) :
    ∃ s, r.run false capacity (List.replicate k cr ++ [lf]) = .quiet s := by
  cases complete : r.stage.isComplete with
  | true =>
    obtain done | closed : r.stage = .done ∨ r.stage = .closed := by
      simpa [Stage.isComplete] using complete
    · exact ⟨r, run_done done _⟩
    · exact ⟨r, run_closed closed _⟩
  | false =>
    obtain ⟨headerBytes, quiet⟩ := run_lineRest capacity unlimited complete more afterCr k
    exact ⟨_, quiet⟩

theorem Between.push_blank (h : r.Between head asked before pending) (capacity : Nat)
    (coded : ∀ status ∈ head.status?, 100 ≤ status)
    (told : tellPending head.side before pending = .ok events) (opens : folds b = false)
    (ends : isLineEnd b = true) :
    let ended := tellBlank head asked (before ++ pending.toList)
    ∃ s, r.push capacity b = { reader := s, events := events ++ ended.1, fault := ended.2 } ∧
      s.settings = r.settings ∧ s.afterCr = (b == cr) ∧ s.stage ≠ .content 0 := by
  intro ended
  have flushed := h.flush (r.headerBytes + 1)
  rw [told] at flushed
  obtain ⟨s, flushed, heeded, measured, framing, contentLength, cache, rfl⟩ := flushed
  let t : Reader := Reader.endLine
    { r with headerBytes := r.headerBytes + 1, afterCr := false, framing, contentLength, cache } b
  obtain ⟨s, blankStep, settings, afterCr, more⟩ := endFields_tells (r := t)
    h.inHead (heeded.of_eq rfl rfl) measured coded
  have asks : t.headResponse = asked := h.asked
  rw [asks] at blankStep
  refine ⟨s, (h.push capacity b).trans ?_, settings, afterCr, more⟩
  rw [folds] at opens
  simp only [pushLineStart, opens, ends, Bool.false_eq_true, if_false, if_true]
  rw [flushed]
  simp only
  rw [show Reader.endFields _ _ = _ from blankStep]

theorem Between.run_blank (h : r.Between head asked before pending) (capacity : Nat)
    (coded : ∀ status ∈ head.status?, 100 ≤ status)
    (told : tellPending head.side before pending = .ok events) (blank : LineEnd) :
    let ended := tellBlank head asked (before ++ pending.toList)
    ∃ s, r.run false capacity blank.wire =
      { reader := s, events := events ++ ended.1, fault := ended.2 } := by
  intro ended
  obtain ⟨s, pushed, settings, afterCr, more⟩ :=
    h.push_blank capacity coded told blank.folds_first blank.isLineEnd_first
  cases wrong : ended.2 with
  | some fault =>
    rw [show (tellBlank _ _ _).2 = _ from wrong] at pushed
    obtain ⟨rest, wire, _⟩ := blank.wire_eq
    exact ⟨_, by rw [wire, Reader.run_refused h.inHead pushed]⟩
  | none =>
    rw [show (tellBlank _ _ _).2 = _ from wrong] at pushed
    have first := run_told h.inHead pushed more
    obtain ⟨rest, wire, ⟨rfl, _⟩ | ⟨k, rfl, isCr⟩⟩ := blank.wire_eq
    · exact ⟨_, by rw [wire, first]⟩
    · have unlimited : s.settings.limit? = none := by rw [settings]; exact h.unlimited
      obtain ⟨u, quiet⟩ := run_lineRest_quiet capacity unlimited more
        (by rw [afterCr]; simp [isCr]) k
      refine ⟨u, ?_⟩
      rw [wire, ← List.singleton_append, run_events_append first _ quiet]
      simp [Step.quiet, ended]

/-! The lines together. -/

/-- The lines after one that began a field: what they tell, and the field that waits behind them if
nothing is wrong with those before it. -/
theorem Between.run_lines {fields : List NamedField} {last : NamedField} (capacity : Nat)
    (lines : List RawLine) (h : r.Between head asked before (some field))
    (spells : field.onward (lines.map RawLine.text) = fields ++ [last]) :
    let told := tellEach head.side before fields
    ∃ s, r.run false capacity (lines.flatMap RawLine.wire) =
        { reader := s, events := told.1, fault := told.2 } ∧
      (told.2 = none → s.Between head asked (before ++ fields) (some last)) := by
  -- On the lines: one continues the field that waits, or has it told and begins the next.
  induction lines generalizing r before field fields with
  | nil =>
    obtain ⟨rfl, rfl⟩ : fields = [] ∧ last = field := by
      have one : [] ++ [field] = fields ++ [last] := spells
      obtain ⟨none, same⟩ := List.append_inj' one rfl
      exact ⟨none.symm, (List.singleton_inj.mp same).symm⟩
    rw [List.append_nil]
    exact ⟨r, rfl, fun _ => h⟩
  | cons line rest ih =>
    rw [List.flatMap_cons]
    cases continues : Text.continues line.text with
    | true =>
      obtain ⟨s, quiet, between⟩ := h.run_continuation capacity line continues
      rw [run_quiet_append quiet]
      exact ih between (by simpa [NamedField.onward, continues] using spells)
    | false =>
      have spells : field :: (NamedField.ofLine line.text).onward (rest.map RawLine.text) =
          fields ++ [last] := by simpa [NamedField.onward, continues] using spells
      obtain ⟨own, last', onward⟩ :=
        (NamedField.ofLine line.text).exists_onward_eq (rest.map RawLine.text)
      obtain ⟨rfl, rfl⟩ : field :: own = fields ∧ last' = last := by
        have same : (field :: own) ++ [last'] = fields ++ [last] := by rwa [onward] at spells
        obtain ⟨front, back⟩ := List.append_inj' same rfl
        exact ⟨front, List.singleton_inj.mp back⟩
      cases tells : tellField head.side before field with
      | error fault =>
        obtain ⟨b, later, wire, opens⟩ := line.wire_eq
        obtain ⟨s, refused⟩ := h.run_refused capacity tells (opens.symm.trans continues)
          (later ++ rest.flatMap RawLine.wire)
        simp only [tellEach, tells]
        refine ⟨s, by rw [wire, List.cons_append, refused], fun fine => ?_⟩
        cases fine
      | ok events =>
        obtain ⟨s, first, between⟩ := h.run_line capacity line continues tells
        obtain ⟨t, ran, waits⟩ := ih between onward
        simp only [tellEach, tells]
        refine ⟨t, by rw [run_events_append first _ ran]; rfl, fun fine => ?_⟩
        have behind := waits fine
        rwa [Option.toList_some, List.append_assoc] at behind

section Section

variable (capacity : Nat) (coded : ∀ status ∈ head.status?, 100 ≤ status) (blank : LineEnd)
include coded

theorem Between.run_onward (lines : List RawLine) (h : r.Between head asked before (some field)) :
    let told := tellFields head asked before (field.onward (lines.map RawLine.text))
    ∃ s, r.run false capacity (lines.flatMap RawLine.wire ++ blank.wire) =
      { reader := s, events := told.1, fault := told.2 } := by
  intro told
  obtain ⟨fields, last, spells⟩ := field.exists_onward_eq (lines.map RawLine.text)
  obtain ⟨s, ran, waits⟩ := h.run_lines capacity lines spells
  have told_eq : told = _ := (congrArg _ spells).trans (tellFields_append fields [last])
  rw [told_eq]
  -- A field is judged at the line behind it: all but the last at fields, the last at the blank
  -- line.
  cases wrong : (tellEach head.side before fields).2 with
  | some fault =>
    refine ⟨s, ?_⟩
    rw [run_append, ran]
    simp [Step.andThen, wrong]
  | none =>
    have between := waits wrong
    rw [wrong] at ran
    cases tells : tellField head.side (before ++ fields) last with
    | error fault =>
      obtain ⟨rest, wire, _⟩ := blank.wire_eq
      obtain ⟨t, refused⟩ := between.run_refused capacity tells blank.folds_first rest
      refine ⟨t, ?_⟩
      rw [wire, run_events_append ran _ refused]
      simp [tellFields, tells, wrong]
    | ok events =>
      obtain ⟨t, ended⟩ := between.run_blank capacity coded tells blank
      refine ⟨t, ?_⟩
      rw [run_events_append ran _ ended]
      simp [tellFields, tells, wrong]

/-- The lines of a section and the blank line after them tell of what they spell. -/
theorem Between.run_section (lines : List RawLine) (h : r.Between head asked [] none) :
    let told := tellLines head asked (lines.map RawLine.text)
    ∃ s, r.run false capacity (lines.flatMap RawLine.wire ++ blank.wire) =
      { reader := s, events := told.1, fault := told.2 } := by
  intro told
  cases lines with
  | nil =>
    obtain ⟨s, ended⟩ := h.run_blank capacity coded rfl blank
    exact ⟨s, ended⟩
  | cons line rest =>
    rw [List.flatMap_cons, List.append_assoc]
    cases continues : Text.continues line.text with
    | true =>
      obtain ⟨s, stray⟩ := h.run_stray capacity line continues
        (rest.flatMap RawLine.wire ++ blank.wire)
      refine ⟨s, ?_⟩
      simp [told, tellLines, NamedField.ofLines?, continues, stray]
    | false =>
      obtain ⟨s, first, between⟩ := h.run_line capacity line continues rfl
      obtain ⟨t, onward⟩ := between.run_onward capacity coded blank rest
      refine ⟨t, ?_⟩
      rw [run_events_append first _ onward]
      simp [told, tellLines, NamedField.ofLines?, continues]

end Section

/-! A message up to its blank line. -/

theorem Opening.run_between (h : r.Opening) (capacity : Nat) (unlimited : r.settings.limit? = none)
    {line : Bytes} {ending : LineEnd} {start : Event}
    (quiet : (r.run false capacity line).events = [])
    (told : (r.run false capacity (line ++ [ending.first])).events = [start])
    (known : start.head? = some head) :
    ∃ s, r.run false capacity (line ++ ending.wire) = { reader := s, events := [start] } ∧
      s.Between head r.headResponse [] none ∧ ∀ status ∈ head.status?, 100 ≤ status := by
  obtain ⟨s, first, opened⟩ := h.run capacity quiet told known
  have unlimited' : s.settings.limit? = none := opened.kin.settings ▸ unlimited
  obtain ⟨headerBytes, whole⟩ := run_lineEnd ending line unlimited' first
    (by rw [opened.stage]; rfl) (by rw [opened.stage]; nofun) opened.afterCr
  have sound := h.sound.run false capacity (line ++ ending.wire)
  rw [whole] at sound
  refine ⟨_, whole, ⟨sound, unlimited', opened.kin.headResponse, ?_, rfl,
    opened.heeded.of_eq rfl rfl⟩, opened.coded⟩
  rw [Event.after_of_head? known]
  exact opened.stage

variable {σ : Type}

/-- Fragments that the limit spares are told as their octets are. -/
theorem told_spared (memoryCapacity : Option Nat) (fragments : List Input) (opening : r.Opening)
    (spared : r.Spares fragments.flatten.flatten.length) :
    let fed := (r.feedAll (.patient memoryCapacity) {} fragments).2.1
    let step := (r.under 0).run false 0 fragments.flatten.flatten
    Event.joined fed.events = Event.joined step.events ∧ fed.fault = step.fault := by
  intro fed step
  have waits : r.stage ≠ .content 0 := ne_of_inHead (Stage.inHead_of_inStartLine opening.line)
  obtain ⟨step', alike, _, _, state⟩ :=
    feedAll_spared memoryCapacity fragments opening.sound waits spared
  have events : fed.events = step'.events := by
    rw [show fed = _ from state]
    rfl
  have fault : fed.fault = step'.fault := by
    rw [show fed = _ from state]
    simp [Recorder.told]
  exact ⟨(congrArg Event.joined events).trans alike.events, fault.trans alike.fault⟩

theorem run_of_told (memoryCapacity : Option Nat) (opening : r.Opening)
    (spared : r.Spares bytes.length)
    (told : (r.feedAll (.patient memoryCapacity) {} [[bytes]]).2.1.events = events)
    (none : ∀ content, .content content ∉ events) :
    ((r.under 0).run false 0 bytes).events = events := by
  have flat : ([[bytes]] : List Input).flatten.flatten = bytes := by simp
  obtain ⟨joined, _⟩ := told_spared memoryCapacity [[bytes]] opening (by rwa [flat])
  rw [flat] at joined
  subst told
  exact Event.eq_of_joined_eq joined.symm none

/-- A message whose start line is told, up to the blank line after its fields, in any fragments
within the limit, on a connection with any past: its field lines may end in any number of CRs and
a LF, and their fields are told once each and in order, with the names and values that the lines
spell, up to the first one with something wrong about it. -/
theorem feedAll_fieldSection (mode : Mode) (settings : Settings) (early : Listener σ) (state : σ)
    (before : List Call) (memoryCapacity : Option Nat) (head : Head) (start : Event) (line : Bytes)
    (ending blank : LineEnd) (lines : List RawLine) (fragments : List Input) :
    let reader := (Reader.through { mode, settings } early state before).1.reset
    let told (fragments : List Input) :=
      (reader.feedAll (Recorder.listener { memoryCapacity }) {} fragments).2.1
    start.head? = some head → (told [[line]]).events = [] →
    (told [[line ++ [ending.first]]]).events = [start] →
    fragments.flatten.flatten = line ++ ending.wire ++ lines.flatMap RawLine.wire ++ blank.wire →
    (settings.headerLimit = 0 ∨ fragments.flatten.flatten.length ≤ settings.headerLimit) →
    let fields := tellLines head reader.headResponse (lines.map RawLine.text)
    (told fragments).events = start :: fields.1 ∧ (told fragments).fault = fields.2 := by
  intro reader told known quiet accepted spelled within fields
  have fresh : Sound { mode, settings } := .fresh mode settings
  obtain ⟨_, same⟩ := through_connection fresh early state before
  have same : reader.settings = settings := same
  have opening : reader.Opening := .reset (fresh.through early state before)
  have opening' : (reader.under 0).Opening :=
    ⟨opening.sound.under 0, opening.line, opening.coded, opening.framing, opening.contentLength⟩
  let whole : Bytes := fragments.flatten.flatten
  have spared (front : Bytes) (prefix_ : front <+: whole) : reader.Spares front.length := by
    rw [Spares, same]
    refine within.imp id fun within => ?_
    have less : front.length ≤ whole.length := prefix_.length_le
    have none : reader.headerBytes = 0 := rfl
    simp only [whole] at less
    omega
  obtain ⟨rest, wire, _⟩ := ending.wire_eq
  have split : whole = line ++ [ending.first] ++
      (rest ++ (lines.flatMap RawLine.wire ++ blank.wire)) := by
    rw [show whole = _ from spelled, wire]
    simp
  have line' : line <+: whole := ⟨_, by rw [split, List.append_assoc]⟩
  have accepted' : line ++ [ending.first] <+: whole := ⟨_, split.symm⟩
  have other (bytes : Bytes) : .content bytes ≠ start := by
    rintro rfl
    cases known
  -- The octets come to the same, one by one and without a limit.
  have quiet := run_of_told memoryCapacity opening (spared line line') quiet
    fun _ => List.not_mem_nil
  have started := run_of_told memoryCapacity opening (spared _ accepted') accepted
    fun bytes member => other bytes (by simpa using member)
  obtain ⟨s, first, between, coded⟩ := opening'.run_between 0 rfl quiet started known
  obtain ⟨t, section_⟩ := between.run_section 0 coded blank lines
  have run := run_events_append first _ section_
  obtain ⟨events, fault⟩ := told_spared memoryCapacity fragments opening
    (spared whole (List.prefix_refl whole))
  rw [show fragments.flatten.flatten = _ from spelled, List.append_assoc, run] at events fault
  refine ⟨Event.eq_of_joined_eq events fun bytes member => ?_, fault⟩
  rcases List.mem_cons.mp member with same | later
  · exact other bytes same
  · exact tellLines_noContent bytes later

/-- A folded field, a host that the connection has seen before and a name without a colon, cut
inside names, values, line ends and folds, at the limit. -/
theorem feedAll_fieldSection_of_folded :
    let line := Text.toBytes "GET / HTTP/1.1".toList
    let rawLine (text : String) (crs : Nat) (h : Text.toBytes text.toList ≠ [] ∧
        ∀ b ∈ Text.toBytes text.toList, isLineEnd b = false) : RawLine :=
      ⟨Text.toBytes text.toList, ⟨crs⟩, h.1, h.2⟩
    let lines := [rawLine "A :  b " 0 (by decide +kernel), rawLine "\t c d" 2 (by decide +kernel),
      rawLine ":" 1 (by decide +kernel), rawLine "Host:x:1" 1 (by decide +kernel),
      rawLine "E " 0 (by decide +kernel)]
    let fragments : List Input := [[Text.toBytes "GET / HT".toList, Text.toBytes "TP/1.1\r".toList],
      [Text.toBytes "\r\nA :  b \n\t".toList], [Text.toBytes " c d\r".toList],
      [Text.toBytes "\r\n:\r\nHo".toList], [Text.toBytes "st:x:1\r\nE \n\r".toList],
      [Text.toBytes "\n".toList]]
    let settings : Settings := { headerLimit := 51 }
    let reader := (Reader.through { mode := .request, settings } (Recorder.listener {}) {}
      [.read [Text.toBytes "GET / HTTP/1.1\r\nHost:x:1\r\n\r\n".toList]]).1.reset
    let told (fragments : List Input) :=
      (reader.feedAll (Recorder.listener {}) {} fragments).2.1
    let start : Event := .requestLine ⟨"GET".toList, by decide, by decide⟩ [0x2f] (some .http11)
    start.head? = some (.request .http11 false) ∧ (told [[line]]).events = [] ∧
      (told [[line ++ [cr]]]).events = [start] ∧
      fragments.flatten.flatten =
        line ++ LineEnd.wire ⟨2⟩ ++ lines.flatMap RawLine.wire ++ LineEnd.wire ⟨1⟩ ∧
      fragments.flatten.flatten.length ≤ 51 ∧
      (told fragments).events =
        [start, .header "A".toList "b c d".toList, .host "x".toList (some 1),
          .header "Host".toList "x:1".toList, .header "E".toList [], .headerComplete,
          .messageComplete] := by
  intro line rawLine lines fragments settings reader told start
  have quiet : (told [[line]]).events = [] := by decide +kernel
  have accepted : (told [[line ++ [cr]]]).events = [start] := by decide +kernel
  have spelled : fragments.flatten.flatten =
      line ++ LineEnd.wire ⟨2⟩ ++ lines.flatMap RawLine.wire ++ LineEnd.wire ⟨1⟩ := by
    decide +kernel
  have within : fragments.flatten.flatten.length ≤ 51 := by decide +kernel
  have section_ := feedAll_fieldSection .request settings (Recorder.listener {}) {}
    [.read [Text.toBytes "GET / HTTP/1.1\r\nHost:x:1\r\n\r\n".toList]] none
    (.request .http11 false) start line ⟨2⟩ ⟨1⟩ lines fragments rfl quiet accepted spelled
    (.inr within)
  exact ⟨rfl, quiet, accepted, spelled, within, section_.1.trans (by decide +kernel)⟩

end Reader
end HttpStream
