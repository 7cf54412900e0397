import HttpStream.Proofs.Octetwise
import HttpStream.Reader.Read
import HttpStream.Recorder

/-! Reading an input comes to what its octets come to one by one. -/

set_option autoImplicit false

namespace HttpStream

abbrev Listener.patient (memoryCapacity : Option Nat) : Listener Recorder :=
  Recorder.listener { memoryCapacity }

namespace Recorder

def told (recorder : Recorder) (step : Step) : Recorder where
  events := recorder.events ++ step.events
  fault := step.fault.or recorder.fault

variable {memoryCapacity : Option Nat}

theorem hear_patient (recorder : Recorder) (events : List Event) :
    (Listener.patient memoryCapacity).hear recorder events =
      ({ recorder with events := recorder.events ++ events }, false) := by
  induction events generalizing recorder with
  | nil => simp [Listener.hear]
  | cons event rest ih =>
    rw [Listener.hear]
    simp only [listener, List.contains_nil, Bool.false_eq_true, if_false] at ih ⊢
    rw [ih]
    simp

theorem heard_patient {recorder state : Recorder} {events : List Event} {stop : Bool}
    (heard : (Listener.patient memoryCapacity).hear recorder events = (state, stop)) :
    state = { recorder with events := recorder.events ++ events } ∧ stop = false := by
  rw [hear_patient] at heard
  cases heard
  exact ⟨rfl, rfl⟩

end Recorder

namespace Reader

variable {renew : Bool} {capacity n : Nat} {r s : Reader} {b : UInt8}

/-- What a reading comes to: the step `step` is told of, and it is what the octets that are taken
come to. -/
structure ReadsAs (renew : Bool) (capacity : Nat) (r : Reader) (recorder : Recorder) (input : Input)
    (reading : Reading Recorder) (step : Step) (taken : Bytes) : Prop where
  reader : reading.reader = step.reader
  state : reading.state = recorder.told step
  rest : input.flatten = taken ++ reading.rest.flatten
  alike : step.Alike renew (r.settle.andThen fun r => r.run renew capacity taken)
  finished : reading.reader.stage = .done ∨ reading.rest.flatten = []
  sound : reading.reader.Sound
  settings : reading.reader.settings = r.settings
  more : reading.reader.stage ≠ .content 0
  closed : step.fault ≠ none → reading.reader.stage = .closed

theorem ReadsAs.quiet {recorder : Recorder} {input rest : Input} {stopped : Bool} {taken : Bytes}
    (left : input.flatten = taken ++ rest.flatten)
    (still : r.run renew capacity taken = .quiet r)
    (finished : r.stage = .done ∨ rest.flatten = []) (sound : r.Sound)
    (more : r.stage ≠ .content 0) :
    ReadsAs renew capacity r recorder input ⟨r, recorder, stopped, rest⟩ (.quiet r) taken where
  reader := rfl
  state := by simp [Recorder.told, Step.quiet]
  rest := left
  alike := by
    rw [settle_of_ne more, Step.quiet_andThen, still]
    exact .refl _
  finished := finished
  sound := sound
  settings := rfl
  more := more
  closed := fun wrong => absurd rfl wrong

section Turn

variable {bytes : Bytes} {turn : Turn} (cause : r.TurnCase capacity b bytes turn)
  (lenient : r.settings.Lenient renew) (sound : r.Sound) (more : r.stage.isComplete = false)
include cause lenient sound more

theorem fault_alike {fault : Fault} {other : Nat} (wrong : turn.step.fault = some fault) :
    turn.step.shut.Alike renew (r.run renew other (b :: bytes)) := by
  have shut : turn.step.shut.fault = some fault := by rw [Step.fault_shut, wrong]
  have first : turn.step.shut.Alike renew (r.run renew other [b]) := by
    have alike := (cause.alike lenient sound more).trans
      (run_alike capacity other _ lenient.sparesTrailers sound sound (.refl _))
    have one : turn.extra = 0 := by rw [cause.of_fault wrong]
    rwa [one, Step.andThen_of_fault shut] at alike
  have rest : r.run renew other (b :: bytes) = r.run renew other [b] := by
    have split := run_append renew other r [b] bytes
    rwa [List.singleton_append, Step.andThen_of_fault (first.fault.symm.trans shut)] at split
  rwa [rest]

theorem onward_alike {step : Step} {taken : Bytes} {other : Nat} (fine : turn.step.fault = none)
    (goes : step.Alike renew
      (turn.step.reader.settle.andThen fun r => r.run renew other taken)) :
    (turn.step.andThen fun _ => step).Alike renew
      (r.run renew other (b :: bytes.take turn.extra ++ taken)) := by
  have shut : turn.step.shut = turn.step := Step.shut_of_fine fine
  have first : (turn.step.andThen settle).Alike renew
      (r.run renew other (b :: bytes.take turn.extra)) := by
    have alike := (cause.alike lenient sound more).trans
      (run_alike capacity other _ lenient.sparesTrailers sound sound (.refl _))
    rwa [shut] at alike
  have kin : r.Kin (turn.step.andThen settle).reader :=
    Step.andThen_of (P := r.Kin) (cause.kin sound) fun s h => h.trans (kin_settle s)
  have settled : (turn.step.andThen settle).reader.Sound :=
    Step.andThen_of (P := Sound) (cause.sound sound) fun _ h => h.settle
  have onward := run_alike other other taken
    (kin.settings ▸ lenient.sparesTrailers) settled (sound.run renew other _) first.reader
  have whole : ((turn.step.andThen settle).andThen fun r => r.run renew other taken).Alike renew
      ((r.run renew other (b :: bytes.take turn.extra)).andThen fun r => r.run renew other taken) :=
    first.andThen onward
  have part : (turn.step.andThen fun _ => step).Alike renew
      (turn.step.andThen fun r => r.settle.andThen fun r => r.run renew other taken) :=
    (Step.Alike.refl turn.step).andThen goes
  rw [Step.andThen_andThen] at whole
  rw [run_append]
  exact part.trans whole

end Turn

theorem read_alike (renew : Bool) (capacity : Nat) (memoryCapacity : Option Nat)
    (recorder : Recorder) (input : Input)
    (lenient : r.settings.Lenient renew) (sound : r.Sound) :
    ∃ step taken, ReadsAs renew capacity r recorder input
      (r.read (.patient memoryCapacity) recorder input) step taken := by
  -- On the turns of the reading: each tells what its octets come to, and so do those after it.
  fun_induction read r (Listener.patient memoryCapacity) recorder input with
  | case1 r recorder input stage =>
    exact ⟨.quiet r, [], .quiet rfl rfl (.inl stage) sound (by simp [stage])⟩
  | case2 r recorder input stage =>
    exact ⟨.quiet r, input.flatten,
      .quiet (by simp) (run_closed stage _) (.inr rfl) sound (by simp [stage])⟩
  | case3 r recorder input stage state stop notified =>
    have full := settle_of_full stage
    refine ⟨r.settle, [], by rw [full], ?_, rfl, ?_, .inl rfl, sound.enter_finished (.inl rfl),
      rfl, by simp, by simp [full]⟩
    · have heard : state = { recorder with events := recorder.events ++ [.messageComplete] } :=
        (congrArg Prod.fst notified).symm
      rw [heard, full]
      simp [Recorder.told]
    · rw [full]
      exact ⟨by simp [Step.andThen, run, Step.quiet], rfl, .refl _⟩
  | case4 r recorder input none _ _ partial_ =>
    have nothing := Input.flatten_eq_nil_of_next? none
    exact ⟨.quiet r, [], .quiet rfl rfl (.inr nothing) sound partial_⟩
  | case5 r recorder input b tail later found turn state stop heard fault wrong busy open_
      partial_ =>
    have more : r.stage.isComplete = false := Stage.isComplete_eq_false busy open_
    have cause : r.TurnCase _ b (tail :: later).flatten turn := turn_cases sound
    have quiet : r.settle = .quiet r := settle_of_ne partial_
    have shut := Step.shut_of_fault wrong
    obtain ⟨heard, _⟩ := Recorder.heard_patient heard
    refine ⟨turn.step.shut, input.flatten, by rw [shut], ?_, by simp, ?_, .inr rfl,
      (cause.sound sound).enter_finished (.inr rfl), (cause.kin sound).settings, by simp,
      fun _ => rfl⟩
    · rw [heard, shut]
      simp [Recorder.told, Recorder.listener, wrong]
    · rw [quiet, Step.quiet_andThen, Input.flatten_of_next? found]
      exact fault_alike cause lenient sound more wrong
  | case6 r recorder input b tail later found turn state fine rest _ _ _ heard =>
    cases (Recorder.heard_patient heard).2
  | case7 r recorder input b tail later found turn state stop heard fine rest _ busy open_
      partial_ ih =>
    have more : r.stage.isComplete = false := Stage.isComplete_eq_false busy open_
    have cause : r.TurnCase _ b (tail :: later).flatten turn := turn_cases sound
    have quiet : r.settle = .quiet r := settle_of_ne partial_
    obtain ⟨heard, _⟩ := Recorder.heard_patient heard
    obtain ⟨step, taken, reads⟩ := ih ((cause.kin sound).settings ▸ lenient) (cause.sound sound)
    have told := Step.andThen_of_fine fine fun _ => step
    refine ⟨turn.step.andThen fun _ => step, b :: (tail :: later).flatten.take turn.extra ++ taken,
      by rw [told, reads.reader], ?_, ?_, ?_, reads.finished, reads.sound,
      reads.settings.trans (cause.kin sound).settings, reads.more,
      by rw [told]; exact reads.closed⟩
    · rw [told, reads.state, heard]
      simp [Recorder.told]
    · have left : (tail :: later).flatten.drop turn.extra =
          taken ++ (turn.step.reader.read (.patient memoryCapacity) state rest).rest.flatten := by
        rw [← Input.flatten_drop]
        exact reads.rest
      rw [Input.flatten_of_next? found, List.cons_append, List.cons_append, List.append_assoc,
        ← left, List.take_append_drop]
    · rw [quiet, Step.quiet_andThen]
      exact onward_alike cause lenient sound more fine reads.alike

end Reader

/-- Two steps told one after the other; the second one may come after a fault. -/
def Step.append (first second : Step) : Step :=
  ⟨second.reader, first.events ++ second.events, second.fault.or first.fault⟩

theorem Recorder.told_told (recorder : Recorder) (first second : Step) :
    (recorder.told first).told second = recorder.told (first.append second) := by
  simp [told, Step.append, Option.or_assoc]

@[simp] theorem Recorder.told_quiet (recorder : Recorder) (r : Reader) :
    recorder.told (.quiet r) = recorder := by
  simp [told, Step.quiet]

namespace Reader

variable {renew : Bool} {capacity other : Nat} {r s : Reader} {bytes more : Bytes}
  {step first second : Step}

/-- The step is what the octets come to, for a reader that waits for octets. -/
structure Leads (renew : Bool) (capacity : Nat) (r : Reader) (bytes : Bytes) (step : Step) :
    Prop where
  alike : step.Alike renew (r.run renew capacity bytes)
  sound : step.reader.Sound
  settings : step.reader.settings = r.settings
  waits : step.reader.stage ≠ .content 0
  closed : step.fault ≠ none → step.reader.stage = .closed

namespace Leads

theorem quiet (quiet : r.run renew capacity bytes = .quiet r) (sound : r.Sound)
    (waits : r.stage ≠ .content 0) : Leads renew capacity r bytes (.quiet r) :=
  ⟨quiet ▸ .refl _, sound, rfl, waits, nofun⟩

theorem nil (sound : r.Sound) (waits : r.stage ≠ .content 0) :
    Leads renew capacity r [] (.quiet r) := .quiet rfl sound waits

theorem ofReading {recorder : Recorder} {input : Input} {reading : Reading Recorder}
    (h : ReadsAs renew capacity r recorder input reading step bytes)
    (waits : r.stage ≠ .content 0) : Leads renew capacity r bytes step := by
  have alike := h.alike
  rw [settle_of_ne waits, Step.quiet_andThen] at alike
  obtain ⟨reader, events, fault⟩ := step
  obtain rfl : reading.reader = reader := h.reader
  exact ⟨alike, h.sound, h.settings, h.more, h.closed⟩

theorem of_closed (h : Leads renew capacity r bytes step) (closed : r.stage = .closed) :
    Event.joined step.events = [] ∧ step.fault = none ∧ step.reader.stage = .closed ∧
      (step.reader.wake renew).Twin (r.wake renew) := by
  have alike := h.alike
  rw [run_closed closed] at alike
  refine ⟨alike.events, alike.fault, ?_, alike.reader⟩
  have stage : (step.reader.wake renew).stage.plain = .closed := by
    rw [alike.reader.stage, Step.quiet, wake_of_not (by simp [closed]), closed]
    rfl
  unfold wake at stage
  split at stage
  · cases stage
  · exact Stage.plain_eq_closed.mp stage

theorem append (left : Leads renew capacity r bytes first)
    (right : Leads renew capacity first.reader more second) (lenient : r.settings.Lenient renew)
    (sound : r.Sound) : Leads renew capacity r (bytes ++ more) (first.append second) := by
  have same : (first.append second).Alike renew (r.run renew capacity (bytes ++ more)) := by
    rw [run_append]
    cases wrong : first.fault with
    | none =>
      have onward := run_alike capacity capacity more
        (left.settings ▸ lenient.sparesTrailers) left.sound (sound.run renew capacity bytes)
        left.alike.reader
      have split : (first.andThen fun _ => second).Alike renew
          ((r.run renew capacity bytes).andThen fun r => r.run renew capacity more) :=
        left.alike.andThen (right.alike.trans onward)
      have joint : (first.andThen fun _ => second) = first.append second := by
        simp [Step.andThen, wrong, Step.append]
      exact joint ▸ split
    | some fault =>
      -- The first octets closed the reader, which has nothing to tell of the others.
      obtain ⟨events, fine, _, twin⟩ := right.of_closed (left.closed (by simp [wrong]))
      rw [Step.andThen_of_fault (left.alike.fault ▸ wrong)]
      refine ⟨?_, ?_, twin.trans left.alike.reader⟩
      · have nothing : Event.joined second.events = Event.joined [] := events
        simpa [Step.append] using Event.joined_append left.alike.events nothing
      · simp [Step.append, fine, left.alike.fault]
  refine ⟨same, right.sound, right.settings.trans left.settings, right.waits, ?_⟩
  intro wrong
  cases fine : second.fault with
  | some fault => exact right.closed (by simp [fine])
  | none => exact (right.of_closed (left.closed (by simpa [Step.append, fine] using wrong))).2.2.1

/-- What comes after a message that is over is nothing to its reader. -/
theorem append_finished (left : Leads renew capacity r bytes first)
    (finished : first.reader.run renew capacity more = .quiet first.reader)
    (lenient : r.settings.Lenient renew) (sound : r.Sound) :
    Leads renew capacity r (bytes ++ more) first := by
  have whole := left.append (.quiet finished left.sound left.waits) lenient sound
  obtain ⟨reader, events, fault⟩ := first
  simpa [Step.append, Step.quiet] using whole

theorem unique (left : Leads renew capacity r bytes first)
    (right : Leads renew capacity r bytes second) : first.Alike renew second :=
  left.alike.trans right.alike.symm

end Leads

end Reader
end HttpStream
