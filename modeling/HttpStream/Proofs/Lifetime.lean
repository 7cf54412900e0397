import HttpStream.Proofs.Grammar
import HttpStream.Proofs.Halting

/-! A stream over its whole life: what its reader tells is whole messages and at most one that
breaks off, what is answered is what was told, in that order, and once the last of it was answered
there is nothing more. -/

set_option autoImplicit false

namespace HttpStream

def Entry.outcome : Entry → Except StreamError Event
  | .told _ event => .ok event
  | .rejected fault => .error (.badMessage fault)

/-- Nothing more is told of a connection after it: a fault, or a message that the end of the input
completes. -/
def Entry.isFinal : Entry → Bool
  | .told reading event => !reading && event = .messageComplete
  | .rejected _ => true

def Recorder.outcomes (recorder : Recorder) : List (Except StreamError Event) :=
  recorder.events.map .ok ++ (recorder.fault.map fun fault => .error (.badMessage fault)).toList

def Draw.outcomes (draw : Draw) : List (Except StreamError Event) :=
  match draw.answer with
  | .ok none => []
  | .ok (some event) => [.ok event]
  | .error error => [.error error]

namespace EventStream

def readLogged (s : EventStream) (source : Bytes) : Reading (Recorder × List Entry) :=
  s.ready.read ((Recorder.listener {}).logged true) (s.recorder, []) [source]

def tells (s : EventStream) (source : Bytes) : List Entry :=
  match s.take? with
  | some _ => []
  | none =>
    let told := (s.readLogged source).state.2
    if (s.read source).rest.flatten.length < source.length then
      told ++ tells ⟨(s.read source).reader, (s.read source).state⟩ (s.read source).rest.flatten
    else told
termination_by source.length
decreasing_by assumption

/-- All that the reader tells in answer to a request. The end of the source is told once there is
nothing else to answer. -/
def tellsAt (s : EventStream) (ended : Bool) (source : Bytes) : List Entry :=
  let draw := s.next source
  s.tells source ++
    if ended && draw.answer matches .ok none then
      (draw.stream.reader.shutdown ((Recorder.listener {}).logged false)
        (draw.stream.recorder, [])).2.1.2
    else []

end EventStream

inductive Request where
  -- An event, after `data` arrived and with `ended` telling whether the source is complete.
  | draw (ended : Bool) (data : Bytes)
  | headResponse (value : Bool)

/-- A stream with the octets that are left of its source, what it has answered so far, and what
its reader has told. -/
structure Course where
  stream : EventStream
  source : Bytes := []
  answers : List (Except StreamError Event) := []
  log : List Entry := []

namespace Course

def step (course : Course) : Request → Course
  | .draw ended data =>
    let draw := course.stream.draw ended (course.source ++ data)
    { stream := draw.stream
      source := draw.rest
      answers := course.answers ++ draw.outcomes
      log := course.log ++ course.stream.tellsAt ended (course.source ++ data) }
  | .headResponse value =>
    { course with
      stream := { course.stream with reader := course.stream.reader.setHeadResponse value } }

def run (course : Course) (requests : List Request) : Course := requests.foldl step course

end Course

/-! What is told. -/

/-- What was told on a connection: whole messages, and what is logged of the one that its reader is
in. -/
structure Chronicled (mode : Mode) (settings : Settings) (r : Reader) (log : List Entry) :
    Prop where
  sound : r.Sound
  told : ∃ (accounts : List (Account mode settings.trailers)) (current : List Entry),
    log = (accounts.flatMap (·.events)).map (.told true) ++ current ∧
      Logged mode settings.trailers r.stage current
  mode : r.mode = mode
  settings : r.settings = settings

variable {mode : Mode} {settings : Settings} {r s : Reader} {log told : List Entry}

theorem Chronicled.fresh (mode : Mode) (settings : Settings) :
    Chronicled mode settings { mode, settings } [] where
  sound := .fresh mode settings
  told := ⟨[], [], rfl, .start mode settings.trailers⟩
  mode := rfl
  settings := rfl

namespace Chronicled

variable (h : Chronicled mode settings r log)
include h

theorem goesOn (sound : s.Sound) (kin : r.Kin s)
    (logged : ∀ current, Logged mode settings.trailers r.stage current →
      Logged mode settings.trailers s.stage (current ++ told)) :
    Chronicled mode settings s (log ++ told) := by
  obtain ⟨accounts, current, rfl, whole⟩ := h.told
  exact ⟨sound, ⟨accounts, current ++ told, List.append_assoc .., logged current whole⟩,
    kin.mode.trans h.mode, kin.settings.trans h.settings⟩

theorem wake : Chronicled mode settings (r.wake true) log := by
  by_cases finished : r.stage = .done
  · obtain ⟨accounts, current, rfl, logged⟩ := h.told
    obtain ⟨events, rfl, told⟩ := logged.of_open (by simp [finished])
    have kin := r.kin_wake true
    have start : (r.wake true).stage = .start := by simp [Reader.wake, finished, Reader.reset]
    rw [finished] at told
    cases told with
    | finished account =>
      refine ⟨h.sound.wake true, ⟨accounts ++ [account], [], by simp, ?_⟩,
        kin.mode.trans h.mode, kin.settings.trans h.settings⟩
      rw [start]
      exact .start mode settings.trailers
  · rwa [Reader.wake_of_not (by simp [finished])]

theorem read {σ : Type} (listener : Listener σ) (state : σ) (input : Input) :
    let reading := r.read (listener.logged true) (state, []) input
    Chronicled mode settings reading.reader (log ++ reading.state.2) := by
  refine h.goesOn (h.sound.read ..) (Reader.kin_read h.sound ..) fun current logged => ?_
  rw [← h.mode, ← h.settings] at logged ⊢
  have onward : Logged r.mode r.settings.trailers
      (r.read (listener.logged true) (state, current) input).reader.stage
      (r.read (listener.logged true) (state, current) input).state.2 :=
    Reader.read_logged (state, current) input h.sound logged
  -- A reading logs the same whatever was logged before it.
  have appends : (listener.logged true).Extends (listener.logged true)
      fun state => (state.1, current ++ state.2) :=
    ⟨fun state event => by simp [Listener.logged], fun state fault => by simp [Listener.logged],
      fun _ => rfl⟩
  have same := appends.read r (state, []) input
  simp only [List.append_nil] at same
  rwa [same] at onward

theorem ended : Chronicled mode settings r.ended.reader
    (log ++ r.ended.events.map (.told false)) :=
  h.goesOn h.sound.ended r.kin_ended fun _ => Reader.Logged.ended

end Chronicled

/-! What is answered. -/

theorem Recorder.outcomes_eq_nil {recorder : Recorder} (none : recorder.outcomes = []) :
    recorder = {} := by
  obtain ⟨events, fault⟩ := recorder
  cases events <;> cases fault <;> simp_all [outcomes]

theorem Reader.read_outcomes (r : Reader) (state : Recorder × List Entry) (input : Input)
    (fine : state.1.fault = none) (same : state.2.map Entry.outcome = state.1.outcomes) :
    let reading := r.read ((Recorder.listener {}).logged true) state input
    reading.state.2.map Entry.outcome = reading.state.1.outcomes := by
  -- The recorder and the log are told the same, in the same order.
  have heard {state after : Recorder × List Entry} {events : List Event} {stop : Bool}
      (fine : state.1.fault = none) (same : state.2.map Entry.outcome = state.1.outcomes)
      (h : ((Recorder.listener {}).logged true).hear state events = (after, stop)) :
      after.1.fault = none ∧ after.2.map Entry.outcome = after.1.outcomes := by
    rw [hear_logged, Recorder.hear_patient] at h
    cases h
    have order : events.map (Entry.outcome ∘ Entry.told true) = events.map .ok := rfl
    simp [fine, same, Recorder.outcomes, order]
  fun_induction Reader.read r ((Recorder.listener {}).logged true) state input with
  | case1 => exact same
  | case2 => exact same
  | case3 r state input full after stop notified =>
    have told : ((Recorder.listener {}).logged true).hear state [.messageComplete] =
        (after, stop) := by simp [Listener.hear, notified]
    exact (heard fine same told).2
  | case4 => exact same
  | case5 r state input b tail later found turn after stop told fault =>
    obtain ⟨fine, same⟩ := heard fine same told
    simp [Listener.logged, Recorder.listener, Recorder.outcomes, same, fine, Entry.outcome]
  | case6 r state input b tail later found turn after fineTurn rest busy open_ partial_ told =>
    exact (heard fine same told).2
  | case7 r state input b tail later found turn after stop told fineTurn rest go _ _ _ ih =>
    obtain ⟨fine, same⟩ := heard fine same told
    exact ih fine same

namespace EventStream

variable {s t : EventStream} {source : Bytes}

theorem read_eq_readLogged (s : EventStream) (source : Bytes) :
    (s.read source).reader = (s.readLogged source).reader ∧
      (s.read source).state = (s.readLogged source).state.1 := by
  have same : s.read source = ⟨(s.readLogged source).reader, (s.readLogged source).state.1,
      (s.readLogged source).stopped, (s.readLogged source).rest⟩ :=
    Reader.read_inner true (s.recorder, []) [source]
  exact ⟨congrArg (·.reader) same, congrArg (·.state) same⟩

theorem read_chronicled (h : Chronicled mode settings s.reader log) (source : Bytes) :
    Chronicled mode settings (s.read source).reader (log ++ (s.readLogged source).state.2) := by
  have awake : Chronicled mode settings s.ready log := s.ready_eq_wake ▸ h.wake
  rw [(s.read_eq_readLogged source).1]
  exact awake.read (Recorder.listener {}) s.recorder [source]

theorem tells_of_found {answer : Except StreamError Event} (found : s.take? = some (answer, t))
    (source : Bytes) : s.tells source = [] := by
  rw [tells, found]

theorem tells_of_less (none : s.take? = none)
    (less : (s.read source).rest.flatten.length < source.length) :
    s.tells source = (s.readLogged source).state.2 ++
      tells ⟨(s.read source).reader, (s.read source).state⟩ (s.read source).rest.flatten := by
  rw [tells, none]
  exact if_pos less

theorem tells_of_not_less (none : s.take? = none)
    (notLess : ¬(s.read source).rest.flatten.length < source.length) :
    s.tells source = (s.readLogged source).state.2 := by
  rw [tells, none]
  exact if_neg notLess

theorem next_chronicled (h : Chronicled mode settings s.reader log) (source : Bytes) :
    Chronicled mode settings (s.next source).stream.reader (log ++ s.tells source) := by
  fun_induction next s source generalizing log with
  | case1 s source answer t found =>
    rw [tells_of_found found, take?_reader found, List.append_nil]
    exact h
  | @case2 s source none reading t rest less ih =>
    rw [tells_of_less none less, ← List.append_assoc]
    exact ih (read_chronicled h source)
  | @case3 s source none reading t rest notLess answer u found =>
    rw [tells_of_not_less none notLess, take?_reader found]
    exact read_chronicled h source
  | @case4 s source none reading t rest notLess found =>
    rw [tells_of_not_less none notLess]
    exact read_chronicled h source

theorem take?_outcomes {answer : Except StreamError Event} (found : s.take? = some (answer, t))
    (rest : Bytes) :
    s.recorder.outcomes = Draw.outcomes ⟨answer.map some, t, rest⟩ ++ t.recorder.outcomes := by
  obtain ⟨reader, events, fault⟩ := s
  cases events with
  | cons event events => cases found; rfl
  | nil =>
    cases fault with
    | some fault => cases found; rfl
    | none => cases found

theorem read_outcomes (none : s.take? = none) (source : Bytes) :
    (s.readLogged source).state.2.map Entry.outcome = (s.read source).state.outcomes := by
  have empty : s.recorder = {} := take?_eq_none.mp none
  rw [(s.read_eq_readLogged source).2]
  exact Reader.read_outcomes s.ready (s.recorder, []) [source] (by rw [empty])
    (by rw [empty]; rfl)

/-- What was recorded, and then what is told: that is what is answered, and then what is left
recorded. -/
theorem next_outcomes (s : EventStream) (source : Bytes) :
    s.recorder.outcomes ++ (s.tells source).map Entry.outcome =
      (s.next source).outcomes ++ (s.next source).stream.recorder.outcomes := by
  have nothing {s : EventStream} (none : s.take? = none) : s.recorder.outcomes = [] := by
    rw [take?_eq_none.mp none]
    rfl
  fun_induction next s source with
  | case1 s source answer t found =>
    rw [tells_of_found found, List.map_nil, List.append_nil]
    exact take?_outcomes found source
  | case2 s source none reading t rest less ih =>
    rw [tells_of_less none less, nothing none, List.nil_append, List.map_append,
      read_outcomes none source]
    exact ih
  | case3 s source none reading t rest notLess answer u found =>
    rw [tells_of_not_less none notLess, nothing none, List.nil_append, read_outcomes none source]
    exact take?_outcomes found rest
  | case4 s source none reading t rest notLess found =>
    rw [tells_of_not_less none notLess, nothing none, List.nil_append, read_outcomes none source]
    rfl

theorem shutdown_told (r : Reader) (recorder : Recorder) :
    (r.shutdown ((Recorder.listener {}).logged false) (recorder, [])).2.1.2 =
      r.ended.events.map (.told false) := by
  have heard := (r.shutdown_ended ((Recorder.listener {}).logged false) (recorder, [])).2
  rw [Reader.hear_logged] at heard
  simp [heard]

theorem tellsAt_of_answer {ended : Bool} (busy : ended = true → (s.next source).answer ≠ .ok none) :
    s.tellsAt ended source = s.tells source := by
  unfold tellsAt
  cases ended with
  | false => simp
  | true =>
    have busy := busy rfl
    cases answer : (s.next source).answer with
    | error => simp
    | ok event =>
      cases event with
      | none => exact absurd answer busy
      | some => simp

theorem tellsAt_of_idle (idle : (s.next source).answer = .ok none) :
    s.tellsAt true source =
      s.tells source ++ (s.next source).stream.reader.ended.events.map (.told false) := by
  simp only [tellsAt, idle, Bool.true_and, if_true, shutdown_told]

/-- Where there is no event, a complete source is answered with what its end tells. -/
theorem finish_of_idle (idle : (s.next source).answer = .ok none) :
    (s.finish source).stream.reader = (s.next source).stream.reader.ended.reader ∧
      (s.next source).stream.reader.ended.events.map .ok =
        (s.finish source).outcomes ++ (s.finish source).stream.recorder.outcomes := by
  have shut := (s.next source).stream.reader.shutdown_patient none {}
  simp only [finish, idle, next_none idle]
  rw [shut]
  simp only [Recorder.told, Recorder.pop?, Reader.ended_fine, List.nil_append]
  cases (s.next source).stream.reader.ended.events with
  | nil => exact ⟨rfl, rfl⟩
  | cons event events => exact ⟨rfl, by simp [Draw.outcomes, Recorder.outcomes]⟩

/-- What a request comes to: what looking for the next event comes to, or, for a complete source
without one, what its end tells. -/
theorem draw_cases (s : EventStream) (ended : Bool) (source : Bytes) :
    (s.draw ended source = s.next source ∧ s.tellsAt ended source = s.tells source) ∨
      ((s.next source).answer = .ok none ∧
        s.tellsAt ended source =
          s.tells source ++ (s.next source).stream.reader.ended.events.map (.told false) ∧
        (s.draw ended source).stream.reader = (s.next source).stream.reader.ended.reader ∧
        (s.next source).stream.reader.ended.events.map .ok =
          (s.draw ended source).outcomes ++ (s.draw ended source).stream.recorder.outcomes) := by
  cases ended with
  | false => exact .inl ⟨rfl, tellsAt_of_answer nofun⟩
  | true =>
    by_cases idle : (s.next source).answer = .ok none
    · exact .inr ⟨idle, tellsAt_of_idle idle, finish_of_idle idle⟩
    · refine .inl ⟨?_, tellsAt_of_answer fun _ => idle⟩
      rcases s.finish_cases source with ⟨_, same⟩ | ⟨none, _⟩ | ⟨none, _⟩
      · exact same
      · exact absurd none idle
      · exact absurd none idle

theorem draw_chronicled (h : Chronicled mode settings s.reader log) (ended : Bool)
    (source : Bytes) :
    Chronicled mode settings (s.draw ended source).stream.reader
      (log ++ s.tellsAt ended source) := by
  have next := next_chronicled h source
  rcases s.draw_cases ended source with ⟨same, told⟩ | ⟨_, told, reader, _⟩
  · rw [same, told]
    exact next
  · rw [reader, told, ← List.append_assoc]
    exact next.ended

theorem draw_outcomes (s : EventStream) (ended : Bool) (source : Bytes) :
    s.recorder.outcomes ++ (s.tellsAt ended source).map Entry.outcome =
      (s.draw ended source).outcomes ++ (s.draw ended source).stream.recorder.outcomes := by
  have next := s.next_outcomes source
  rcases s.draw_cases ended source with ⟨same, told⟩ | ⟨idle, told, _, outcomes⟩
  · rw [same, told]
    exact next
  · have before : s.recorder.outcomes ++ (s.tells source).map Entry.outcome = [] := by
      rw [next, next_none idle]
      simp [Draw.outcomes, idle, Recorder.outcomes]
    have end_ (events : List Event) :
        (events.map (Entry.told false)).map Entry.outcome = events.map .ok := by
      simp [Entry.outcome]
    rw [told, List.map_append, ← List.append_assoc, before, List.nil_append, end_, outcomes]

/-! The end. -/

theorem next_closed (closed : s.reader.stage = .closed) (empty : s.recorder = {})
    (source : Bytes) : s.next source = ⟨.ok none, s, []⟩ := by
  have idle : s.take? = none := take?_eq_none.mpr empty
  have awake : s.ready = s.reader := by simp [ready, closed]
  have reading (source : Bytes) : s.read source = ⟨s.reader, s.recorder, false, []⟩ := by
    rw [read, awake, Reader.read_closed closed]
  have last : s.next [] = ⟨.ok none, s, []⟩ := by
    rw [next, idle]
    simp [reading, idle]
  cases source with
  | nil => exact last
  | cons b rest =>
    rw [next, idle]
    simp [reading, last]

theorem draw_closed (closed : s.reader.stage = .closed) (empty : s.recorder = {})
    (ended : Bool) (source : Bytes) : s.draw ended source = ⟨.ok none, s, []⟩ := by
  have next := next_closed closed empty source
  cases ended with
  | false => exact next
  | true =>
    obtain ⟨reader, recorder⟩ := s
    obtain rfl : recorder = {} := empty
    have shut : reader.shutdown (Recorder.listener {}) {} = (reader, {}, false) := by
      simp [Reader.shutdown, show reader.stage = .closed from closed]
    simp only [draw, finish, next, shut, if_true]
    rfl

end EventStream

theorem Entry.isFinal_of_mem {events : List Event} {entry : Entry}
    (told : entry ∈ events.map (.told true)) : entry.isFinal = false := by
  obtain ⟨event, _, rfl⟩ := List.mem_map.mp told
  rfl

theorem Entry.isLast_of_isFinal {entry : Entry} (final : entry.isFinal = true) :
    entry.isLast = true := by
  cases entry <;> simp_all [isFinal, isLast]

namespace Chronicled

variable {entry : Entry} (h : Chronicled mode settings r log)
include h

theorem final_last (told : entry ∈ log.dropLast) : entry.isFinal = false := by
  obtain ⟨accounts, current, rfl, logged⟩ := h.told
  rw [List.dropLast_append] at told
  split at told
  · exact Entry.isFinal_of_mem (List.dropLast_subset _ told)
  · rcases List.mem_append.mp told with whole | under
    · exact Entry.isFinal_of_mem whole
    · have open_ := logged.grammatical.last entry under
      exact Bool.eq_false_iff.mpr fun final => by simp [Entry.isLast_of_isFinal final] at open_

theorem closed_of_final (told : entry ∈ log) (final : entry.isFinal = true) :
    r.stage = .closed := by
  obtain ⟨accounts, current, rfl, logged⟩ := h.told
  have more {events : List Event} (told : entry ∈ events.map (.told true)) : False := by
    simp [Entry.isFinal_of_mem told] at final
  rcases List.mem_append.mp told with whole | under
  · exact (more whole).elim
  · cases logged with
    | told => exact (more under).elim
    | finished closed => exact closed

end Chronicled

namespace Course

variable {course : Course}

/-- What is kept of a course from request to request. -/
structure Kept (mode : Mode) (settings : Settings) (course : Course) : Prop where
  chronicled : Chronicled mode settings course.stream.reader course.log
  order : course.log.map Entry.outcome = course.answers ++ course.stream.recorder.outcomes

theorem Kept.step (h : course.Kept mode settings) (request : Request) :
    (course.step request).Kept mode settings := by
  cases request with
  | draw ended data =>
    refine ⟨EventStream.draw_chronicled h.chronicled ended _, ?_⟩
    simp only [Course.step, List.map_append, h.order, List.append_assoc]
    rw [EventStream.draw_outcomes]
  | headResponse value =>
    have sound : (course.stream.reader.setHeadResponse value).Sound :=
      ⟨h.chronicled.sound.stage, h.chronicled.sound.side, h.chronicled.sound.cache,
        h.chronicled.sound.measured⟩
    exact ⟨⟨sound, h.chronicled.told, h.chronicled.mode, h.chronicled.settings⟩, h.order⟩

theorem Kept.run (h : course.Kept mode settings) (requests : List Request) :
    (course.run requests).Kept mode settings := by
  induction requests generalizing course with
  | nil => exact h
  | cons request rest ih => exact ih (h.step request)

structure Over (course : Course) : Prop where
  closed : course.stream.reader.stage = .closed
  empty : course.stream.recorder = {}

theorem Over.draw (h : course.Over) (ended : Bool) (source : Bytes) :
    course.stream.draw ended source = ⟨.ok none, course.stream, []⟩ :=
  EventStream.draw_closed h.closed h.empty ended source

theorem Over.step (h : course.Over) (request : Request) : (course.step request).Over := by
  cases request with
  | draw ended data =>
    simp only [Course.step, h.draw]
    exact ⟨h.closed, h.empty⟩
  | headResponse value => exact ⟨h.closed, h.empty⟩

theorem Over.run (h : course.Over) (requests : List Request) : (course.run requests).Over := by
  induction requests generalizing course with
  | nil => exact h
  | cons request rest ih => exact ih (h.step request)

theorem Kept.answered (h : course.Kept mode settings) {answer : Except StreamError Event}
    (before : answer ∈ course.answers.dropLast) : ∃ event, answer = .ok event := by
  have told : answer ∈ (course.log.map Entry.outcome).dropLast := by
    rw [h.order, List.dropLast_append]
    split
    · exact before
    · exact List.mem_append_left _ (List.dropLast_subset _ before)
  rw [← List.map_dropLast] at told
  obtain ⟨entry, early, rfl⟩ := List.mem_map.mp told
  cases entry with
  | told reading event => exact ⟨event, rfl⟩
  | rejected fault => cases h.chronicled.final_last early

theorem Kept.isOver (h : course.Kept mode settings) {entry : Entry}
    (answered : entry ∈ course.log.take course.answers.length) (final : entry.isFinal = true) :
    course.Over := by
  refine ⟨h.chronicled.closed_of_final (List.take_subset _ _ answered) final,
    Recorder.outcomes_eq_nil ?_⟩
  have length := congrArg List.length h.order
  rw [List.length_map, List.length_append] at length
  cases more : course.stream.recorder.outcomes with
  | nil => rfl
  | cons outcome rest =>
    -- There is more to answer, so the entry is not the last one.
    rw [more, List.length_cons] at length
    have early : entry ∈ course.log.dropLast := by
      rw [List.dropLast_eq_take]
      exact List.take_subset_take_left _ (by omega) answered
    simp [h.chronicled.final_last early] at final

theorem Kept.rejected_of_error (h : course.Kept mode settings) {error : StreamError}
    (wrong : .error error ∈ course.answers) :
    ∃ fault, .rejected fault ∈ course.log.take course.answers.length := by
  rw [List.prefix_iff_eq_take.mp ⟨_, h.order.symm⟩, ← List.map_take] at wrong
  obtain ⟨entry, told, outcome⟩ := List.mem_map.mp wrong
  cases entry with
  | told reading event => cases outcome
  | rejected fault => exact ⟨fault, told⟩

/-- Whatever is asked of a stream: what is answered is what its reader tells, in that order, and the
rest of that is yet to be answered. What it tells is whole messages and what is told of another one,
which a fault or the end of the input may cut short. So there is one error at most, with all events
before it. After it, and after a message that the end of the input completed, each request is
answered with nothing and leaves nothing of the source. -/
theorem run_lifetime (mode : Mode) (settings : Settings) (requests : List Request) :
    let course := ({ stream := { reader := { mode, settings } } } : Course).run requests
    course.log.map Entry.outcome = course.answers ++ course.stream.recorder.outcomes ∧
      (∃ (accounts : List (Account mode settings.trailers)) (current : List Entry),
        course.log = (accounts.flatMap (·.events)).map (.told true) ++ current ∧
          Grammatical mode settings.trailers current) ∧
      (∀ answer ∈ course.answers.dropLast, ∃ event, answer = .ok event) ∧
      ((∃ error, .error error ∈ course.answers) ∨
          .told false .messageComplete ∈ course.log.take course.answers.length →
        ∀ (later : List Request) (ended : Bool) (data : Bytes),
          let after := course.run later
          let draw := after.stream.draw ended (after.source ++ data)
          draw.answer = .ok none ∧ draw.rest = []) := by
  intro course
  have fresh : ({ stream := { reader := { mode, settings } } } : Course).Kept mode settings :=
    ⟨.fresh mode settings, rfl⟩
  have kept : course.Kept mode settings := fresh.run requests
  obtain ⟨accounts, current, log, logged⟩ := kept.chronicled.told
  refine ⟨kept.order, ⟨accounts, current, log, logged.grammatical⟩, fun _ => kept.answered, ?_⟩
  intro last later ended data
  have finished : course.Over := by
    rcases last with ⟨error, wrong⟩ | complete
    · obtain ⟨fault, rejected⟩ := kept.rejected_of_error wrong
      exact kept.isOver rejected rfl
    · exact kept.isOver complete rfl
  have after := (finished.run later).draw ended ((course.run later).source ++ data)
  exact ⟨congrArg Draw.answer after, congrArg Draw.rest after⟩

end Course
end HttpStream
