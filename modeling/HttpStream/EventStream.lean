import HttpStream.Reader.Ending
import HttpStream.Reader.Read
import HttpStream.Recorder

/-! Messages one after the other on a connection, as a stream of single events. Asking again and
again comes to an end: each event takes input, or leaves less that could be told without input. -/

set_option autoImplicit false

namespace HttpStream

structure EventStream where
  reader : Reader
  recorder : Recorder := {}

/-- The answer to a request for an event: the event, none until more octets come, or the end of
the stream by an error. -/
structure Draw where
  answer : Except StreamError (Option Event)
  stream : EventStream
  rest : Bytes

structure Drawn where
  events : List Event
  error : Option StreamError
  stream : EventStream
  rest : Bytes

/-- How much a reader at this stage may yet tell without another octet: the completion of a body,
and an early end. -/
def Stage.due : Stage → Nat
  | .start | .done | .closed => 0
  | .content 0 => 2
  | _ => 1

namespace EventStream

def take? (s : EventStream) : Option (Except StreamError Event × EventStream) :=
  match s.recorder.events, s.recorder.fault with
  -- A fault is told once there are no events ahead of it any more.
  | event :: events, fault => some (.ok event, { s with recorder := { events, fault } })
  | [], some fault => some (.error (.badMessage fault), { s with recorder := {} })
  | [], none => none

def ready (s : EventStream) : Reader := if s.reader.stage = .done then s.reader.reset else s.reader

def read (s : EventStream) (source : Bytes) : Reading Recorder :=
  s.ready.read (Recorder.listener {}) s.recorder [source]

def next (s : EventStream) (source : Bytes) : Draw :=
  match s.take? with
  | some (answer, s) => ⟨answer.map some, s, source⟩
  | none =>
    let reading := s.read source
    let s : EventStream := ⟨reading.reader, reading.state⟩
    let rest := reading.rest.flatten
    -- As long as octets are taken there may be more to come of them.
    if rest.length < source.length then s.next rest
    else
      match s.take? with
      | some (answer, s) => ⟨answer.map some, s, rest⟩
      | none => ⟨.ok none, s, rest⟩
termination_by source.length
decreasing_by assumption

/-- The next event of a stream whose source will not grow any more. -/
def finish (s : EventStream) (source : Bytes) : Draw :=
  let draw := s.next source
  match draw.answer with
  | .ok none =>
    let (reader, recorder, _) :=
      draw.stream.reader.shutdown (Recorder.listener {}) draw.stream.recorder
    -- An early end is told as two events; the second one waits in the recorder.
    match recorder.pop? with
    | some (event, recorder) => ⟨.ok (some event), ⟨reader, recorder⟩, draw.rest⟩
    | none => ⟨.ok none, ⟨reader, recorder⟩, draw.rest⟩
  | _ => draw

def draw (s : EventStream) (ended : Bool) (source : Bytes) : Draw :=
  if ended then s.finish source else s.next source

/-! Each event drawn leaves less to come. -/

theorem take?_reader {s t : EventStream} {answer : Except StreamError Event}
    (h : s.take? = some (answer, t)) : t.reader = s.reader := by
  unfold take? at h
  split at h <;> simp at h <;> simp [← h.2]

theorem take?_ok {s t : EventStream} {event : Event} (h : s.take? = some (.ok event, t)) :
    t.recorder.events.length < s.recorder.events.length := by
  unfold take? at h
  split at h
  · next found => simp only [Option.some.injEq, Prod.mk.injEq] at h; simp [← h.2, found]
  · simp at h
  · simp at h

theorem take?_eq_none {s : EventStream} : s.take? = none ↔ s.recorder = {} := by
  obtain ⟨reader, events, fault⟩ := s
  cases events <;> cases fault <;> simp [take?]

theorem due_ready (s : EventStream) : s.ready.stage.due ≤ s.reader.stage.due := by
  unfold ready
  split
  · exact Nat.zero_le _
  · exact Nat.le_refl _

theorem read_rest_le (s : EventStream) (source : Bytes) :
    (s.read source).rest.flatten.length ≤ source.length := by
  simpa [read, Input.size] using s.ready.read_size_le (Recorder.listener {}) s.recorder [source]

theorem read_cases (s : EventStream) (source : Bytes) :
    (s.read source).rest.flatten.length < source.length ∨
      ((s.read source).reader.stage.due ≤ s.reader.stage.due ∧
        (s.read source).state = s.recorder) ∨
      (s.read source).reader.stage.due < s.reader.stage.due := by
  rcases s.ready.read_progress (Recorder.listener {}) s.recorder [source] with h | h | h
  · exact .inl (by simpa [read, Input.size] using h)
  · exact .inr (.inl ⟨by simpa [read, h.1] using s.due_ready, h.2⟩)
  · refine .inr (.inr (Nat.lt_of_lt_of_le ?_ s.due_ready))
    simp [read, h.1, h.2, Stage.due]

theorem next_rest_le (s : EventStream) (source : Bytes) :
    (s.next source).rest.length ≤ source.length := by
  fun_induction next s source with
  | case1 => exact Nat.le_refl _
  | case2 s source _ reading t rest h ih => exact Nat.le_of_lt (Nat.lt_of_le_of_lt ih h)
  | case3 s source => exact s.read_rest_le source
  | case4 s source => exact s.read_rest_le source

theorem next_due_le (s : EventStream) (source : Bytes) :
    (s.next source).rest.length < source.length ∨
      (s.next source).stream.reader.stage.due ≤ s.reader.stage.due := by
  fun_induction next s source with
  | case1 s source answer t found => exact .inr (by simp [take?_reader found])
  | case2 s source _ reading t rest h ih => exact .inl (Nat.lt_of_le_of_lt (t.next_rest_le rest) h)
  | case3 s source _ reading t rest h answer u found =>
    rcases s.read_cases source with less | same | less
    · exact absurd less h
    · exact .inr (by simpa [take?_reader found] using same.1)
    · exact .inr (by simpa [take?_reader found] using Nat.le_of_lt less)
  | case4 s source _ reading t rest h =>
    rcases s.read_cases source with less | same | less
    · exact absurd less h
    · exact .inr same.1
    · exact .inr (Nat.le_of_lt less)

theorem next_none {s : EventStream} {source : Bytes} (h : (s.next source).answer = .ok none) :
    (s.next source).stream.recorder = {} := by
  fun_induction next s source with
  | case1 s source answer t found => cases answer <;> simp [Except.map] at h
  | case2 s source _ reading t rest _ ih => exact ih h
  | case3 s source _ reading t rest _ answer u found => cases answer <;> simp [Except.map] at h
  | case4 s source _ reading t rest _ found => exact take?_eq_none.mp found

theorem next_some {s : EventStream} {source : Bytes} {event : Event}
    (h : (s.next source).answer = .ok (some event)) :
    (s.next source).rest.length < source.length ∨
      (s.next source).rest.length = source.length ∧
        ((s.next source).stream.reader.stage.due < s.reader.stage.due ∨
          (s.next source).stream.reader.stage.due = s.reader.stage.due ∧
            (s.next source).stream.recorder.events.length < s.recorder.events.length) := by
  fun_induction next s source with
  | case1 s source answer t found =>
    cases answer with
    | error => simp [Except.map] at h
    | ok event => exact .inr ⟨rfl, .inr ⟨by rw [take?_reader found], take?_ok found⟩⟩
  | case2 s source _ reading t rest less =>
    exact .inl (Nat.lt_of_le_of_lt (t.next_rest_le rest) less)
  | case3 s source none reading t rest notLess answer u found =>
    refine .inr ⟨Nat.le_antisymm (s.read_rest_le source) (Nat.le_of_not_lt notLess), .inl ?_⟩
    rcases s.read_cases source with less | same | less
    · exact absurd less notLess
    · have empty : t.take? = Option.none := take?_eq_none.mpr (same.2.trans (take?_eq_none.mp none))
      simp [empty] at found
    · simpa [take?_reader found] using less
  | case4 => simp at h

theorem shutdown_cases (r : Reader) (recorder : Recorder) :
    (r.shutdown (Recorder.listener {}) recorder).2.1 = recorder ∨
      (r.shutdown (Recorder.listener {}) recorder).1.stage.due < r.stage.due := by
  unfold Reader.shutdown
  split
  · exact .inl rfl
  · exact .inl rfl
  · exact .inl rfl
  · next start done closed =>
    right
    simp only [Reader.enter, Stage.due]
    split <;> simp_all

theorem finish_some {s : EventStream} {source : Bytes} {event : Event}
    (h : (s.finish source).answer = .ok (some event)) :
    (s.finish source).rest.length < source.length ∨
      (s.finish source).rest.length = source.length ∧
        ((s.finish source).stream.reader.stage.due < s.reader.stage.due ∨
          (s.finish source).stream.reader.stage.due = s.reader.stage.due ∧
            (s.finish source).stream.recorder.events.length < s.recorder.events.length) := by
  revert h
  fun_cases finish s source with
  | case1 draw answer reader recorder _ shut event' recorder' popped =>
    intro _
    rcases shutdown_cases draw.stream.reader draw.stream.recorder with same | less
    · rw [shut, next_none answer] at same
      simp only at same
      simp [same, Recorder.pop?] at popped
    · rw [shut] at less
      have rest : draw.rest.length ≤ source.length := s.next_rest_le source
      have due : draw.rest.length < source.length ∨
          draw.stream.reader.stage.due ≤ s.reader.stage.due := s.next_due_le source
      simp only at less ⊢
      omega
  | case2 => intro h; simp at h
  | case3 => exact next_some

/-- Every event drawn makes a lexicographic measure smaller: octets left, reports due, events
recorded. -/
theorem draw_some {s : EventStream} {ended : Bool} {source : Bytes} {event : Event}
    (h : (s.draw ended source).answer = .ok (some event)) :
    (s.draw ended source).rest.length < source.length ∨
      (s.draw ended source).rest.length = source.length ∧
        ((s.draw ended source).stream.reader.stage.due < s.reader.stage.due ∨
          (s.draw ended source).stream.reader.stage.due = s.reader.stage.due ∧
            (s.draw ended source).stream.recorder.events.length < s.recorder.events.length) := by
  cases ended with
  | false => exact next_some h
  | true => exact finish_some h

def drawAll (s : EventStream) (ended : Bool) (source : Bytes) : Drawn :=
  let draw := s.draw ended source
  match _h : draw.answer with
  | .error error => ⟨[], some error, draw.stream, draw.rest⟩
  | .ok none => ⟨[], none, draw.stream, draw.rest⟩
  | .ok (some event) =>
    let drawn := draw.stream.drawAll ended draw.rest
    { drawn with events := event :: drawn.events }
termination_by (source.length, s.reader.stage.due, s.recorder.events.length)
decreasing_by simpa only [Prod.lex_def] using draw_some ‹_›

/-- All the events and the errors drawn of a source that grows by pieces, each time until none is
left or the stream fails, and then ends. -/
def drawPieces (s : EventStream) (buffer : Bytes) : List Bytes → List Event × List StreamError
  | [] =>
    let drawn := s.drawAll true buffer
    (drawn.events, drawn.error.toList)
  | piece :: pieces =>
    let drawn := s.drawAll false (buffer ++ piece)
    let (events, errors) := drawn.stream.drawPieces drawn.rest pieces
    (drawn.events ++ events, drawn.error.toList ++ errors)

/-- The same of a source that does not end. -/
def drawGrowing (s : EventStream) (buffer : Bytes) : List Bytes → List Event × List StreamError
  | [] => ([], [])
  | piece :: pieces =>
    let drawn := s.drawAll false (buffer ++ piece)
    let (events, errors) := drawn.stream.drawGrowing drawn.rest pieces
    (drawn.events ++ events, drawn.error.toList ++ errors)

end EventStream
end HttpStream
