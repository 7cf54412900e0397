import HttpStream.Proofs.Lengths
import HttpStream.Proofs.Outcomes

/-! A single length, octet by octet: where its line and all that continues it have been read, the
next octet decides on the framing, or has the value refused, wherever the text of it came from. -/

set_option autoImplicit false

namespace HttpStream

namespace Reader

open Octet

variable {r : Reader} {head : Head} {asked : Bool} {before fields : List NamedField}
  {field last : NamedField} {b : UInt8} {lines : List RawLine} {memoryCapacity : Option Nat}

structure Waits (head : Head) (asked : Bool) (fields : List NamedField) (last : NamedField)
    (step : Step) : Prop where
  fault : step.fault = none
  between : step.reader.Between head asked fields (some last)
  told : TellsOnly fields step.events

theorem Between.run_fields (capacity : Nat) (h : r.Between head asked [] none)
    (spells : NamedField.ofLines? (lines.map RawLine.text) = some (fields ++ [last]))
    (fine : (r.run false capacity (lines.flatMap RawLine.wire)).fault = none) :
    Waits head asked fields last (r.run false capacity (lines.flatMap RawLine.wire)) := by
  cases lines with
  | nil => simp [NamedField.ofLines?] at spells
  | cons line rest =>
    rw [List.flatMap_cons] at fine ⊢
    cases continues : Text.continues line.text with
    | true => simp [NamedField.ofLines?, continues] at spells
    | false =>
      have spells : (NamedField.ofLine line.text).onward (rest.map RawLine.text) =
          fields ++ [last] := by simpa [NamedField.ofLines?, continues] using spells
      obtain ⟨s, first, between⟩ := h.run_line capacity line continues rfl
      obtain ⟨t, ran, waits⟩ := between.run_lines capacity rest spells
      rw [run_events_append first _ ran] at fine ⊢
      exact ⟨fine, waits fine, tellEach_tellsOnly fine⟩

/-- What the next octet tells of a field that waits and in which nothing is wrong: the field, and
then what there is to say about the end of the fields if they end there. -/
structure Delivers (field : NamedField) (b : UInt8) (step : Step) : Prop where
  fields : Event.fields step.events = [field]
  status : Event.status step.events = none
  ends : .headerComplete ∈ step.events → isLineEnd b = true
  fault : step.fault = none ∨ step.fault = some .noHost

theorem Between.run_next (capacity : Nat) (h : r.Between head asked before (some field))
    (coded : ∀ status ∈ head.status?, 100 ≤ status) (opens : folds b = false) :
    match tellField head.side before field with
    | .error fault => (r.run false capacity [b]).fault = some fault
    | .ok _ => Delivers field b (r.run false capacity [b]) := by
  cases tells : tellField head.side before field with
  | error fault =>
    obtain ⟨s, refused⟩ := h.run_refused capacity tells opens []
    rw [refused]
  | ok events =>
    have only := tellField_tellsOnly tells
    simp only
    -- Either another field opens, or the blank line comes, which may lack a host.
    cases ends : isLineEnd b with
    | false =>
      obtain ⟨s, n, pushed, _⟩ := h.push_opening capacity tells opens ends
      rw [run_told h.inHead pushed nofun]
      exact ⟨only.fields, only.status, fun past => absurd past only.going, .inl rfl⟩
    | true =>
      obtain ⟨s, pushed, _, _, more⟩ := h.push_blank capacity coded tells opens ends
      rw [Option.toList_some] at pushed
      rcases tellBlank_cases head asked (before ++ [field]) with
        blank | ⟨late, blank, fields, status, _⟩
      · rw [blank, List.append_nil] at pushed
        rw [Reader.run_refused h.inHead pushed]
        exact ⟨only.fields, only.status, fun past => absurd past only.going, .inr rfl⟩
      · rw [blank] at pushed
        rw [run_told h.inHead pushed more]
        refine ⟨?_, ?_, fun _ => ends, .inl rfl⟩
        · rw [Event.fields_append, only.fields, fields]
          rfl
        · rw [Event.status_append, only.status, status]
          rfl

theorem StartLine.run_field (first : r.StartLine memoryCapacity) (opening : r.Opening)
    (spells : NamedField.ofLines? (lines.map RawLine.text) = some (fields ++ [field]))
    (opens : folds b = false)
    (spared : r.Spares (first.wire ++ lines.flatMap RawLine.wire ++ [b]).length)
    (fine : ((r.under 0).run false 0 (first.wire ++ lines.flatMap RawLine.wire)).fault = none) :
    let ahead := (r.under 0).run false 0 (first.wire ++ lines.flatMap RawLine.wire)
    let step := (r.under 0).run false 0 (first.wire ++ lines.flatMap RawLine.wire ++ [b])
    ahead.reader.Heeded fields ∧
      match tellField first.head.side fields field with
      | .error fault => step.fault = some fault
      | .ok _ => ∃ more, step.events = first.event :: more ∧
        Event.fields more = fields ++ [field] ∧ Event.status more = none ∧
        (.headerComplete ∈ more → isLineEnd b = true) ∧
        (step.fault = none ∨ step.fault = some .noHost) := by
  intro ahead step
  -- The start line leads between the lines, the lines to the field that waits, and `b` is next.
  obtain ⟨s, opened, between, coded⟩ := first.run_opened opening (spared.mono (by simp))
  have ran : ahead = _ := run_events_append opened (lines.flatMap RawLine.wire) rfl
  have fine' : (s.run false 0 (lines.flatMap RawLine.wire)).fault = none := by
    have fine : ahead.fault = none := fine
    rwa [ran] at fine
  have waits := between.run_fields 0 spells fine'
  have next := waits.between.run_next 0 coded opens
  have known : ahead.reader = (s.run false 0 (lines.flatMap RawLine.wire)).reader := by rw [ran]
  have first_eq : ahead = { reader := ahead.reader, events := ahead.events } := by rw [← fine]
  have whole : step = _ := run_events_append first_eq [b] rfl
  refine ⟨known ▸ waits.between.heeded, ?_⟩
  rw [← known] at next
  cases tells : tellField first.head.side fields field with
  | error fault =>
    rw [tells] at next
    rw [whole]
    exact next
  | ok events =>
    rw [tells] at next
    have next : Delivers field b (ahead.reader.run false 0 [b]) := next
    simp only
    rw [whole]
    refine ⟨(s.run false 0 (lines.flatMap RawLine.wire)).events ++
      (ahead.reader.run false 0 [b]).events, by rw [ran]; rfl, ?_, ?_, ?_, next.fault⟩
    · rw [Event.fields_append, waits.told.fields, next.fields]
    · rw [Event.status_append, waits.told.status, next.status]
      rfl
    · intro past
      exact next.ends ((List.mem_append.mp past).resolve_left waits.told.going)

/-- Behind a length, and no chunked coding, the framing is what the length says, unless the fields
are over and their message has no body at all. -/
theorem Decides.framing_of_length {events : List Event} {announced : Int}
    (h : Decides asked r events) (plain : chunks (Event.fields events) = false)
    (length : announced? (Event.fields events) = some announced)
    (version : events.any Event.hasVersion = true)
    (bodied : .headerComplete ∈ events →
      (Event.status events).any (fun status => asked || bodiless status) = false) :
    r.contentLength = some announced.toNat ∧
      r.framing = if 0 < announced.toNat then .contentLength else .noContent := by
  have counted : r.contentLength = some announced.toNat := by
    rw [h.counted.contentLength plain, length]
    rfl
  refine ⟨counted, ?_⟩
  by_cases past : .headerComplete ∈ events
  · rw [(h.settled past version).framing, Framing.decided, bodied past, plain, length]
    simp only [Bool.false_eq_true, if_false, Int.lt_toNat]
    rfl
  · rw [(h.heeded past).inForce counted, plain]
    rfl

theorem StartLine.run_length (first : r.StartLine memoryCapacity) (opening : r.Opening)
    (spells : NamedField.ofLines? (lines.map RawLine.text) = some (fields ++ [field]))
    (named : StandardName.contentLength.names field = true) (opens : folds b = false)
    (spared : r.Spares (first.wire ++ lines.flatMap RawLine.wire ++ [b]).length) :
    let ahead := (r.under 0).run false 0 (first.wire ++ lines.flatMap RawLine.wire)
    let step := (r.under 0).run false 0 (first.wire ++ lines.flatMap RawLine.wire ++ [b])
    ahead.fault = none → ahead.reader.framing ≠ .chunked →
    match Value.contentLength field.2 with
    | .error fault => step.fault = some fault
    | .ok length => (step.fault = none ∨ step.fault = some .noHost) ∧
      ((isLineEnd b = true → first.head.status?.any
          (fun status => r.headResponse || bodiless status) = false) →
        step.reader.contentLength = some length ∧
          step.reader.framing = if 0 < length then .contentLength else .noContent) := by
  intro ahead step fine unchunked
  obtain ⟨heeded, result⟩ := first.run_field opening spells opens spared fine
  have plain : chunks fields = false := Bool.eq_false_iff.mpr (mt heeded.chunks_iff.mp unchunked)
  rw [tellField_length named plain] at result
  cases value : Value.contentLength field.2 with
  | error fault =>
    rw [value] at result
    exact result
  | ok length =>
    rw [value] at result
    obtain ⟨more, events, fields', status, ends, fault⟩ := result
    refine ⟨fault, fun bodied => ?_⟩
    obtain ⟨announced, signed, rfl⟩ := Value.contentLength_eq value
    obtain ⟨told, code, version⟩ := Event.opened first.known status
    -- The framing follows from the fields told, of which this length is the last.
    have decides := (Decides.fresh opening).of_eq (s := r.under 0) rfl rfl rfl rfl
    have decides : Decides r.headResponse step.reader ([] ++ step.events) :=
      decides.run (opening.sound.under 0) 0 _
    rw [List.nil_append, show step.events = _ from events] at decides
    have other := StandardName.names_of_ne named (show .transferEncoding ≠ _ by decide)
    refine decides.framing_of_length ?_ ?_ version fun past => ?_
    · rw [told, fields', chunks_append_singleton, plain, other]
      rfl
    · rw [told, fields', announced?_append_singleton, named, if_pos rfl, signed]
    · rw [code]
      rcases List.mem_cons.mp past with same | past
      · have known := first.known
        rw [← same] at known
        cases known
      · exact bodied (ends past)

variable {σ : Type}

/-- A message up to a length, in any fragments within the limit, on a connection with any past:
where nothing was found wrong ahead of it, and the message is not chunked, the next octet has the
value refused if it is no number that a length can be, and else the framing goes by the number.
Digits count, with a plus sign or without; a number with a minus sign comes to nothing. Only at the
end of the fields of a response that has no body does the framing go by that. -/
theorem feedAll_lengthLine (mode : Mode) (settings : Settings) (early : Listener σ) (state : σ)
    (before : List Call) (memoryCapacity : Option Nat) :
    let reader := (Reader.through { mode, settings } early state before).1.reset
    let fed (fragments : List Input) :=
      reader.feedAll (Recorder.listener { memoryCapacity }) {} fragments
    ∀ (first : reader.StartLine memoryCapacity) (lines : List RawLine) (fields : List NamedField)
      (field : NamedField) (b : UInt8) (ahead fragments : List Input),
    NamedField.ofLines? (lines.map RawLine.text) = some (fields ++ [field]) →
    StandardName.contentLength.names field = true → folds b = false →
    ahead.flatten.flatten = first.wire ++ lines.flatMap RawLine.wire →
    fragments.flatten.flatten = first.wire ++ lines.flatMap RawLine.wire ++ [b] →
    (settings.headerLimit = 0 ∨ fragments.flatten.flatten.length ≤ settings.headerLimit) →
    (fed ahead).2.1.fault = none → (fed ahead).1.framing ≠ .chunked →
    let comes := (fed fragments).1
    let refused := (fed fragments).2.1.fault = some (.badContentLength field.2)
    (refused ↔ (∀ n, ¬Value.Counts field.2 n) ∧ ¬Value.Negated field.2) ∧
      ((isLineEnd b = true → first.head.status?.any
          (fun status => reader.headResponse || bodiless status) = false) →
        (∀ n, ¬refused ∧ comes.framing = .contentLength ∧ comes.contentLength = some n ↔
          0 < n ∧ Value.Counts field.2 n) ∧
        (¬refused ∧ comes.framing = .noContent ↔
          Value.Counts field.2 0 ∨ Value.Negated field.2)) ∧
      (field.2.head? ≠ some '+' →
        ∀ n, Value.Counts field.2 n ↔ Text.Denotes field.2 n ∧ n < 2 ^ 63) := by
  intro reader fed first lines fields field b ahead fragments spells named opens spelled spelled'
    within fine unchunked comes refused
  have opening : reader.Opening := .reset ((Sound.fresh mode settings).through early state before)
  have spared : reader.Spares fragments.flatten.flatten.length :=
    spares_reset early state before within
  have spared' : reader.Spares ahead.flatten.flatten.length :=
    spared.mono (by rw [spelled, spelled']; simp)
  obtain ⟨_, fault⟩ := told_spared memoryCapacity ahead opening spared'
  obtain ⟨framing, _⟩ := framing_spared memoryCapacity ahead opening spared'
  obtain ⟨_, verdict⟩ := told_spared memoryCapacity fragments opening spared
  obtain ⟨framing', length'⟩ := framing_spared memoryCapacity fragments opening spared
  rw [spelled] at fault framing
  rw [spelled'] at verdict framing' length'
  have result := first.run_length opening spells named opens (spelled' ▸ spared)
    (fault.symm.trans fine) fun chunked => unchunked (framing.trans chunked)
  -- From here on the verdict on the value decides all three parts.
  have unsigned (plain : field.2.head? ≠ some '+') (n : Nat) :
      Value.Counts field.2 n ↔ Text.Denotes field.2 n ∧ n < 2 ^ 63 := Value.counts_of_unsigned plain
  cases value : Value.contentLength field.2 with
  | error other =>
    obtain ⟨rfl, uncounted, plain⟩ := Value.contentLength_eq_error_iff.mp value
    rw [value] at result
    have refused' : refused := verdict.trans result
    refine ⟨iff_of_true refused' ⟨uncounted, plain⟩, fun _ => ⟨fun n => ?_, ?_⟩, unsigned⟩
    · exact iff_of_false (fun taken => taken.1 refused') fun counts => uncounted n counts.2
    · exact iff_of_false (fun taken => taken.1 refused') (not_or.mpr ⟨uncounted 0, plain⟩)
  | ok length =>
    rw [value] at result
    obtain ⟨other, goesBy⟩ := result
    have taken : ¬refused := fun refused => by
      have same := verdict.symm.trans refused
      rcases other with fine | host
      · cases fine.symm.trans same
      · cases host.symm.trans same
    have numbers (n : Nat) := Value.framing_of_contentLength (n := n) value
    refine ⟨iff_of_false taken fun ⟨uncounted, plain⟩ => ?_, fun bodied => ?_, unsigned⟩
    · rcases Value.contentLength_eq_ok_iff.mp value with counts | negated
      · exact absurd counts (uncounted length)
      · exact absurd negated.1 plain
    · obtain ⟨counted, framing⟩ := goesBy bodied
      rw [show comes.framing = _ from framing', show comes.contentLength = _ from length', counted,
        framing]
      simp only [taken, not_false_eq_true, true_and, Option.some.injEq]
      exact ⟨fun n => (numbers n).1, (numbers 0).2⟩

theorem feedAll_lengthLine_of_zero :
    let reader := (Reader.through { mode := .request } (Recorder.listener {}) {} []).1.reset
    let fragments : List Input := [[Text.toBytes "POST / HTTP/1.0\r\nContent-Length: 0".toList],
      [Text.toBytes "5\r\nA".toList]]
    let fed := reader.feedAll (Recorder.listener {}) {} fragments
    fed.2.1.fault ≠ some (.badContentLength "05".toList) ∧ fed.1.framing = .contentLength ∧
      fed.1.contentLength = some 5 := by
  intro reader fragments fed
  let first : reader.StartLine none :=
    { head := .request .http10 false
      event := .requestLine ⟨"POST".toList, by decide, by decide⟩ [0x2f] (some .http10)
      octets := Text.toBytes "POST / HTTP/1.0".toList
      ending := ⟨1⟩
      known := rfl
      quiet := by decide +kernel
      told := by decide +kernel }
  let line : RawLine :=
    ⟨Text.toBytes "Content-Length: 05".toList, ⟨1⟩, by decide +kernel, by decide +kernel⟩
  have decided := feedAll_lengthLine .request {} (Recorder.listener {}) {} [] none first [line] []
    ("Content-Length".toList, "05".toList) 0x41
    [[Text.toBytes "POST / HTTP/1.0\r\nContent-Length: 05\r\n".toList]] fragments
    (by decide +kernel) (by decide +kernel) (by decide +kernel) (by decide +kernel)
    (by decide +kernel) (.inr (by decide +kernel)) (by decide +kernel) (by decide +kernel)
  have counts : Value.Counts "05".toList 5 :=
    ⟨⟨by decide, by decide, by decide +kernel⟩, by decide⟩
  exact ((decided.2.1 (by decide)).1 5).mpr ⟨by decide, counts⟩

/-- A plus sign is no digit, and yet what is announced with one counts. -/
theorem feedAll_lengthLine_plus :
    let fed := Reader.feedAll { mode := .request } (Recorder.listener {}) {}
      [[Text.toBytes "POST / HTTP/1.0\r\nContent-Length: +5\r\n\r\n".toList]]
    fed.2.1.fault = none ∧ fed.1.framing = .contentLength ∧ fed.1.contentLength = some 5 ∧
      "+5".toList.all Char.isDigit = false := by
  decide +kernel

end Reader
end HttpStream
