import HttpStream.Proofs.Pipeline
import HttpStream.Proofs.TidyReading

/-! Under a limit, and with trailers, an input may still arrive in any fragments and pieces, as long
as none of the cuts parts a line end. A cut that does part one may make a difference: to which
message the second octet of the line end is charged, and whether it is charged at all. -/

set_option autoImplicit false

namespace HttpStream

variable {renew : Bool} {capacity : Nat} {bytes : Bytes}

theorem Step.Matches.label {first second : Step} (h : first.Matches false second) :
    first.reader.stage.label = second.reader.stage.label := by
  have awake (r : Reader) : r.wake false = r := Reader.wake_of_not (by simp)
  have peer : first.reader.Peer second.reader := by simpa only [awake] using h.reader
  rw [← Stage.label_plain, peer.stage, Stage.label_plain]

namespace Reader

variable {r : Reader}

theorem Comes.unique {whole first second : Step} (h : Comes renew capacity r whole first [])
    (h' : Comes renew capacity r whole second []) : first.Matches renew second :=
  h.all.trans h'.all.symm

/-- Whatever the limit, and with or without trailers: one message in fragments that part no line
end comes to what it comes to in one piece. -/
theorem feedAll_unparted (mode : Mode) (settings : Settings) (memoryCapacity : Option Nat)
    (fragments : List Input) (unparted : Unparted (fragments.map List.flatten)) :
    let reader : Reader := { mode, settings }
    let listener := Recorder.listener { memoryCapacity }
    let cut := reader.feedAll listener {} fragments
    let whole := reader.feedAll listener {} [[fragments.flatten.flatten]]
    Event.joined cut.2.1.events = Event.joined whole.2.1.events ∧
      cut.2.1.fault = whole.2.1.fault ∧ cut.1.stage.label = whole.1.stage.label := by
  intro reader listener cut whole
  have fed (fragments : List Input) :=
    feedAll_comes (r := reader) 0 memoryCapacity {} fragments (.fresh mode settings) nofun
  obtain ⟨step, comes, cutReader, cutState⟩ := fed fragments
  obtain ⟨once, comes', wholeReader, wholeState⟩ := fed [[fragments.flatten.flatten]]
  have piece : [[fragments.flatten.flatten]].map List.flatten =
      [(fragments.map List.flatten).flatten] := by
    simp [List.flatten_flatten]
  rw [neatly_of_unparted unparted] at comes
  rw [piece, neatly_of_unparted (unparted_singleton _), List.flatten_singleton] at comes'
  have same := comes.unique comes'
  simp only [cut, whole, listener, cutReader, cutState, wholeReader, wholeState]
  exact ⟨by simpa [Recorder.told] using same.events, by simp [Recorder.told, same.fault],
    same.label⟩

theorem feedAll_unparted_of_chunked :
    Unparted ([[Text.toBytes "HTTP/1.1 200 OK\r\nTransfer-Encoding: ".toList],
      [Text.toBytes "chunked\r\n".toList, Text.toBytes "\r\n0\r\n".toList],
      [Text.toBytes "\r\n".toList]].map List.flatten) ∧
    (({ mode := .response, settings := { headerLimit := 48, trailers := true } } : Reader).feedAll
      (Recorder.listener {}) {} [[Text.toBytes "HTTP/1.1 200 OK\r\nTransfer-Encoding: ".toList],
        [Text.toBytes "chunked\r\n".toList, Text.toBytes "\r\n0\r\n".toList],
        [Text.toBytes "\r\n".toList]]).2.1.fault = none :=
  ⟨by decide +kernel, (feedAll_unparted .response { headerLimit := 48, trailers := true } none _
    (by decide +kernel)).2.1.trans (by decide +kernel)⟩

/-- Not so with a cut within the line end of the last chunk line, whose LF is charged only then, nor
with one within the line end of the head, whose LF is not charged only then. -/
theorem feedAll_parted :
    let wire := Text.toBytes
      "HTTP/1.1 200 OK\r\nTransfer-Encoding: chunked\r\n\r\n0\r\n\r\n".toList
    let fault (limit : Nat) (fragments : List Bytes) :=
      (({ mode := .response, settings := { headerLimit := limit, trailers := true } } :
        Reader).feedAll (Recorder.listener {}) {} (fragments.map fun bytes => [bytes])).2.1.fault
    fault 48 [wire] = none ∧
      fault 48 [wire.take 49, wire.drop 49] = some (.headerTooLarge 49 48) ∧
      fault 47 [wire] = some (.headerTooLarge 48 47) ∧
      fault 47 [wire.take 46, wire.drop 46] = none := by
  decide +kernel

end Reader

namespace EventStream

variable {s : EventStream}

theorem comes_of_ready {step : Step} {rest : Bytes}
    (h : Reader.Comes true capacity s.ready (s.ready.neat true capacity bytes) step rest)
    (sound : s.reader.Sound) :
    Reader.Comes true capacity s.reader (s.reader.neat true capacity bytes) step rest := by
  have awake : (s.ready.wake true).Peer (s.reader.wake true) := by
    rw [ready_eq_wake, Reader.wake_wake]
    exact ⟨rfl, rfl⟩
  have same := Reader.neat_peer capacity capacity bytes (s.ready_eq_wake ▸ sound.wake true) sound
    awake
  refine ⟨h.same.trans same, h.sound, h.waits, h.closed, fun closed => ?_⟩
  have ready : s.ready = s.reader := by
    rw [ready_eq_wake, Reader.wake_of_not (by simp [closed])]
  exact ready ▸ h.still (ready ▸ closed)

/-- What octets come to in turns that do not look ahead keeps track of a stream. -/
theorem comes_tracks (capacity : Nat) :
    Tracks (fun r => r.Sound ∧ r.stage ≠ .content 0) fun r source step rest =>
      Reader.Comes true capacity r (r.neat true capacity source) step rest where
  waits fit := fit.2
  fit _ comes := ⟨comes.sound, comes.waits⟩
  nil fit := .refl fit.1 fit.2
  append _ first second := first.trans second
  read {s} source := by
    rintro ⟨sound, waits⟩
    obtain ⟨step, yields⟩ := Reader.read_yields (r := s.ready) true capacity none s.recorder
      [source] (s.ready_eq_wake ▸ sound.wake true)
    have comes := Reader.Comes.ofReading yields (ready_waits waits)
    rw [List.flatten_singleton] at comes
    exact ⟨step, comes_of_ready comes sound, yields.reader, yields.state, yields.finished⟩

theorem drawGrowing_closed (closed : s.reader.stage = .closed) (sound : s.reader.Sound)
    (empty : s.recorder = {}) (buffer : Bytes) (pieces : List Bytes) :
    s.drawGrowing buffer pieces = ([], []) := by
  induction pieces generalizing s buffer with
  | nil => rfl
  | cons piece pieces ih =>
    obtain ⟨step, comes, reader, empty', events, error, _⟩ :=
      drawAll_tracked (comes_tracks 0) ⟨sound, by simp [closed]⟩ (buffer ++ piece)
    have quiet := comes.still closed
    rw [quiet, Recorder.told_quiet, empty] at events error
    rw [quiet] at reader
    have rest := ih (by rwa [reader]) (by rwa [reader]) empty'
      (s.drawAll false (buffer ++ piece)).rest
    rw [drawGrowing, events, error, rest]
    rfl

/-- Whatever the pieces, what is drawn of them is what they come to one after the other in turns
that do not look ahead. -/
theorem drawGrowing_comes (capacity : Nat) (sound : s.reader.Sound)
    (waits : s.reader.stage ≠ .content 0) (empty : s.recorder = {}) (pieces : List Bytes) :
    ∃ step, Reader.Comes true capacity s.reader (s.reader.neatly true capacity pieces) step [] ∧
      (s.drawGrowing [] pieces).1 = step.events ∧
      (s.drawGrowing [] pieces).2 = (step.fault.map .badMessage).toList := by
  -- On the pieces; a drawing without an error leaves no octets, and after one nothing is drawn.
  induction pieces generalizing s with
  | nil => exact ⟨.quiet s.reader, .nil sound waits, rfl, rfl⟩
  | cons piece pieces ih =>
    obtain ⟨first, comes, reader, empty', events, error, nothing⟩ :=
      drawAll_tracked (comes_tracks capacity) ⟨sound, waits⟩ piece
    rw [empty] at events error
    rw [drawGrowing, List.nil_append, events, error]
    generalize s.drawAll false piece = drawn at *
    cases wrong : first.fault with
    | none =>
      have rest : drawn.rest = [] := nothing (by simp [error, Recorder.told, wrong])
      rw [rest] at comes ⊢
      obtain ⟨second, comes', events', errors⟩ :=
        ih (s := drawn.stream) (reader ▸ comes.sound) (reader ▸ comes.waits) empty'
      refine ⟨first.append second, comes.cons (reader ▸ comes') sound, ?_, ?_⟩
      · simp [Step.append, Recorder.told, ← events']
      · simp [Step.append, Recorder.told, wrong, ← errors]
    | some fault =>
      have closed : first.reader.stage = .closed := comes.closed (by simp [wrong])
      have comes : Reader.Comes true capacity s.reader (s.reader.neat true capacity piece) first [] :=
        comes.instead fun fine => absurd (wrong.symm.trans fine) (by simp)
      rw [drawGrowing_closed (reader ▸ closed) (reader ▸ comes.sound) empty' drawn.rest pieces]
      refine ⟨first.append (.quiet first.reader),
        comes.cons (.of_closed closed comes.sound pieces) sound, ?_, ?_⟩
      · simp [Step.append, Step.quiet, Recorder.told]
      · simp [Step.append, Step.quiet, Recorder.told, wrong]

/-- Whatever the limit: what is drawn of a source that grows by pieces is the same, if the pieces
part no line end. -/
theorem drawGrowing_unparted (mode : Mode) (settings : Settings) (first second : List Bytes)
    (same : first.flatten = second.flatten) (unparted : Unparted first)
    (unparted' : Unparted second) :
    let stream : EventStream := { reader := { mode, settings } }
    Event.joined (stream.drawGrowing [] first).1 = Event.joined (stream.drawGrowing [] second).1 ∧
      ∃ error : Option StreamError, (stream.drawGrowing [] first).2 = error.toList ∧
        (stream.drawGrowing [] second).2 = error.toList := by
  intro stream
  have drawn (pieces : List Bytes) :=
    drawGrowing_comes (s := stream) 0 (.fresh mode settings) nofun rfl pieces
  obtain ⟨step, comes, events, errors⟩ := drawn first
  obtain ⟨once, comes', events', errors'⟩ := drawn second
  rw [Reader.neatly_of_unparted unparted] at comes
  rw [Reader.neatly_of_unparted unparted', ← same] at comes'
  have alike : step.Matches true once := comes.unique comes'
  refine ⟨?_, step.fault.map .badMessage, errors, ?_⟩
  · rw [events, events']
    exact alike.events
  · rw [errors', alike.fault]

theorem drawGrowing_unparted_of_gets :
    let whole := Text.toBytes "GET / HTTP/1.0\r\n\r\nGET /aa HTTP/1.0\r\n\r\n".toList
    let first := [whole.take 5, (whole.drop 5).take 20, whole.drop 25]
    let second := [whole.take 18, whole.drop 18]
    let stream : EventStream := { reader := { mode := .request, settings := { headerLimit := 19 } } }
    first.flatten = second.flatten ∧ Unparted first ∧ Unparted second ∧
      Event.joined (stream.drawGrowing [] first).1 = Event.joined (stream.drawGrowing [] second).1 :=
  have same := by decide +kernel
  have unparted := by decide +kernel
  have unparted' := by decide +kernel
  ⟨same, unparted, unparted',
    (drawGrowing_unparted .request { headerLimit := 19 } _ _ same unparted unparted').1⟩

/-- Not so with a cut within the line end of the first message, whose LF is then charged to the
second. -/
theorem drawGrowing_parted :
    let whole := Text.toBytes "GET / HTTP/1.0\r\n\r\nGET /aa HTTP/1.0\r\n\r\n".toList
    let stream : EventStream := { reader := { mode := .request, settings := { headerLimit := 19 } } }
    (stream.drawGrowing [] [whole]).2 = [] ∧
      (stream.drawGrowing [] [whole.take 17, whole.drop 17]).2 =
        [.badMessage (.headerTooLarge 20 19)] := by
  intro whole stream
  have errors (pieces : List Bytes) : (stream.drawGrowing [] pieces).2 =
      ((stream.reader.neatly true 0 pieces).fault.map .badMessage).toList := by
    obtain ⟨step, comes, _, errors⟩ :=
      drawGrowing_comes (s := stream) 0 (.fresh _ _) nofun rfl pieces
    rw [errors, comes.all.fault]
  rw [errors, errors]
  decide +kernel

end EventStream
end HttpStream
