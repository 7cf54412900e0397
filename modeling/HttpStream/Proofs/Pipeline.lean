import HttpStream.EventStream
import HttpStream.Proofs.Calls

/-! Any number of messages may arrive on a connection in any pieces: what is told of them is the
same. -/

set_option autoImplicit false

namespace HttpStream

inductive Recorder.Gives : Recorder → Except StreamError (Option Event) → Recorder → Prop where
  | event (event : Event) (events : List Event) (fault : Option Fault) :
      Gives ⟨event :: events, fault⟩ (.ok (some event)) ⟨events, fault⟩
  | fault (fault : Fault) : Gives ⟨[], some fault⟩ (.error (.badMessage fault)) {}
  | nothing : Gives {} (.ok none) {}

namespace Recorder.Gives

variable {whole left : Recorder}

theorem of_event {event : Event} (h : whole.Gives (.ok (some event)) left) :
    whole = ⟨event :: left.events, left.fault⟩ := by
  cases h
  rfl

theorem of_error {error : StreamError} (h : whole.Gives (.error error) left) :
    left = {} ∧ ∃ fault, error = .badMessage fault ∧ whole = ⟨[], some fault⟩ := by
  cases h
  exact ⟨rfl, _, rfl, rfl⟩

theorem of_nothing (h : whole.Gives (.ok none) left) : left = {} ∧ whole = {} := by
  cases h
  exact ⟨rfl, rfl⟩

end Recorder.Gives

theorem Recorder.told_append_of_event {whole left : Recorder} {first second : Step} {event : Event}
    (h : whole.told first = ⟨event :: left.events, left.fault⟩) :
    whole.told (first.append second) =
      ⟨event :: (left.told second).events, (left.told second).fault⟩ := by
  rw [← told_told, h]
  rfl

theorem Reader.Leads.closed_of_told {renew : Bool} {capacity : Nat} {r : Reader} {bytes : Bytes}
    {step : Step} {recorder : Recorder} (h : Leads renew capacity r bytes step)
    (closed : recorder.fault ≠ none → r.stage = .closed)
    (wrong : (recorder.told step).fault ≠ none) : step.reader.stage = .closed := by
  cases fine : step.fault with
  | some fault => exact h.closed (by simp [fine])
  | none => exact (h.of_closed (closed (by simpa [Recorder.told, fine] using wrong))).2.2.1

namespace Reader

variable {r s : Reader}

theorem ended_closed (closed : r.stage = .closed) : r.ended = .quiet r := by
  simp [ended, closed]

/-- The end of the input tells the same of readers with the same to tell. -/
theorem ended_events (h : (r.wake true).Twin (s.wake true)) : r.ended.events = s.ended.events := by
  have awake (r : Reader) : r.ended.events = (r.wake true).ended.events := by
    by_cases finished : r.stage = .done
    · simp [ended, wake, finished, reset, Step.quiet]
    · rw [wake_of_not (by simp [finished])]
  have blurred (r : Reader) : r.ended.events = r.blurred.ended.events := by
    cases stage : r.stage <;> simp [ended, Reader.blurred, masked, Stage.plain, stage, Step.quiet]
  rw [awake r, awake s, blurred (r.wake true), h.blurred, ← blurred]

end Reader

namespace EventStream

variable {s t : EventStream} {capacity : Nat} {source : Bytes} {step : Step}

theorem gives_of_take? {answer : Except StreamError Event} (h : s.take? = some (answer, t)) :
    t.reader = s.reader ∧ s.recorder.Gives (answer.map some) t.recorder := by
  obtain ⟨reader, events, fault⟩ := s
  cases events with
  | cons event events =>
    cases h
    exact ⟨rfl, .event event events fault⟩
  | nil =>
    cases fault with
    | some fault =>
      cases h
      exact ⟨rfl, .fault fault⟩
    | none => cases h

theorem map_some_ne (answer : Except StreamError Event) : answer.map some ≠ .ok none := by
  cases answer <;> simp [Except.map]

theorem ready_eq_wake (s : EventStream) : s.ready = s.reader.wake true := by
  simp [ready, Reader.wake]

/-- A reader made ready for the next message tells what it would have told anyway. -/
theorem leads_of_ready {taken : Bytes} (h : Reader.Leads true capacity s.ready taken step)
    (lenient : s.reader.settings.Lenient true) (sound : s.reader.Sound) :
    Reader.Leads true capacity s.reader taken step := by
  have kin : s.reader.Kin s.ready := s.ready_eq_wake ▸ Reader.kin_wake s.reader true
  have awake : (s.ready.wake true).Twin (s.reader.wake true) := by
    rw [ready_eq_wake, Reader.wake_wake]
    exact .refl _
  have same := Reader.run_alike capacity capacity taken
    (kin.settings ▸ lenient.sparesTrailers) (s.ready_eq_wake ▸ sound.wake true) sound awake
  exact ⟨h.alike.trans same, h.sound, h.settings.trans kin.settings, h.waits, h.closed⟩

theorem ready_waits (waits : s.reader.stage ≠ .content 0) : s.ready.stage ≠ .content 0 := by
  unfold ready
  split
  · nofun
  · exact waits

theorem ready_ne_done (s : EventStream) : s.ready.stage ≠ .done := by
  unfold ready
  split
  · nofun
  · assumption

/-- The end of the input is told once nothing else is left to draw. -/
theorem finish_cases (s : EventStream) (source : Bytes) :
    let reader := (s.next source).stream.reader
    ((s.next source).answer ≠ .ok none ∧ s.finish source = s.next source) ∨
    ((s.next source).answer = .ok none ∧ reader.ended.events = [] ∧
      (s.finish source).answer = .ok none) ∨
    ((s.next source).answer = .ok none ∧ reader.ended.reader.stage = .closed ∧
      ∃ event events, reader.ended.events = event :: events ∧ s.finish source =
        ⟨.ok (some event), ⟨reader.ended.reader, ⟨events, none⟩⟩, (s.next source).rest⟩) := by
  intro reader
  by_cases idle : (s.next source).answer = .ok none
  · have shut : reader.shutdown (Recorder.listener {}) {} =
        (reader.ended.reader, ⟨reader.ended.events, reader.ended.fault.or none⟩, false) :=
      reader.shutdown_patient none {}
    simp only [finish, idle, next_none idle]
    rw [show (s.next source).stream.reader = reader from rfl, shut, reader.ended_fine]
    rcases reader.ended_cases with quiet | ⟨closed, cut⟩
    · rw [quiet]
      exact .inr (.inl ⟨trivial, rfl, rfl⟩)
    · have finished : reader.ended.reader.stage = .closed := by
        rw [closed]
        rfl
      rcases cut.events with told | told <;> rw [told] <;>
        exact .inr (.inr ⟨trivial, finished, _, _, rfl, rfl⟩)
  · refine .inl ⟨idle, ?_⟩
    fun_cases finish s source with
    | case1 draw answer => exact absurd answer idle
    | case2 draw answer => exact absurd answer idle
    | case3 => rfl

/-- A relation that keeps track of a stream whose reader fits: the octets there were, what was told
of them, and what is left of them. It holds where nothing was read, and goes on over readings. -/
structure Tracks (Fit : Reader → Prop) (R : Reader → Bytes → Step → Bytes → Prop) : Prop where
  waits {r : Reader} : Fit r → r.stage ≠ .content 0
  fit {r : Reader} {source rest : Bytes} {step : Step} : Fit r → R r source step rest →
    Fit step.reader
  nil {r : Reader} {source : Bytes} : Fit r → R r source (.quiet r) source
  append {r : Reader} {source rest left : Bytes} {first second : Step} : Fit r →
    R r source first rest → R first.reader rest second left → R r source (first.append second) left
  read {s : EventStream} (source : Bytes) : Fit s.reader →
    ∃ step, R s.reader source step (s.read source).rest.flatten ∧
      (s.read source).reader = step.reader ∧ (s.read source).state = s.recorder.told step ∧
      ((s.read source).reader.stage = .done ∨ (s.read source).rest.flatten = [])

section Tracks

variable {Fit : Reader → Prop} {R : Reader → Bytes → Step → Bytes → Prop} (tracks : Tracks Fit R)
  (fit : Fit s.reader)
include tracks fit

theorem next_tracked (source : Bytes) :
    ∃ step, R s.reader source step (s.next source).rest ∧
      (s.next source).stream.reader = step.reader ∧
      (s.recorder.told step).Gives (s.next source).answer (s.next source).stream.recorder ∧
      ((s.next source).answer = .ok none → (s.next source).rest = []) := by
  -- On the readings: what the recorder holds is what the steps told and no answer gave yet.
  fun_induction next s source with
  | case1 s source answer t found =>
    obtain ⟨reader, gives⟩ := gives_of_take? found
    exact ⟨.quiet s.reader, tracks.nil fit, reader, by simpa using gives,
      fun idle => absurd idle (map_some_ne answer)⟩
  | case2 s source none reading t rest less ih =>
    obtain ⟨first, tracked, reader, state, _⟩ := tracks.read source fit
    have same : t.reader = first.reader := reader
    obtain ⟨second, tracked', reader', gives, empty⟩ := ih (same ▸ tracks.fit fit tracked)
    refine ⟨first.append second, tracks.append fit tracked (same ▸ tracked'), reader', ?_, empty⟩
    rw [← Recorder.told_told, ← state]
    exact gives
  | case3 s source none reading t rest less answer u found =>
    obtain ⟨step, tracked, reader, state, _⟩ := tracks.read source fit
    obtain ⟨same, gives⟩ := gives_of_take? found
    exact ⟨step, tracked, same.trans reader, state ▸ gives,
      fun idle => absurd idle (map_some_ne answer)⟩
  | case4 s source none reading t rest less found =>
    obtain ⟨step, tracked, reader, state, finished⟩ := tracks.read source fit
    refine ⟨step, tracked, reader, ?_, ?_⟩
    · have empty : reading.state = {} := take?_eq_none.mp found
      have same : s.recorder.told step = {} := state.symm.trans empty
      have left : t.recorder = {} := empty
      rw [same, left]
      exact .nothing
    · intro _
      rcases finished with done | nothing
      · rcases s.ready.read_progress (Recorder.listener {}) s.recorder [source] with h | h | h
        · have shorter : (s.read source).rest.flatten.length < source.length := by
            simpa [read, Input.size] using h
          exact absurd shorter less
        · exact absurd (h.1 ▸ done) s.ready_ne_done
        · exact absurd h.1 (ready_waits (tracks.waits fit))
      · exact nothing

theorem drawAll_tracked (source : Bytes) :
    ∃ step, R s.reader source step (s.drawAll false source).rest ∧
      (s.drawAll false source).stream.reader = step.reader ∧
      (s.drawAll false source).stream.recorder = {} ∧
      (s.drawAll false source).events = (s.recorder.told step).events ∧
      (s.drawAll false source).error = (s.recorder.told step).fault.map .badMessage ∧
      ((s.drawAll false source).error = none → (s.drawAll false source).rest = []) := by
  -- On the events drawn; what is told so far is the event drawn and what the recorder holds.
  fun_induction drawAll s false source with
  | case1 s source draw error answer =>
    obtain ⟨step, tracked, reader, gives, _⟩ := next_tracked tracks fit source
    rw [show (s.next source).answer = .error error from answer] at gives
    obtain ⟨empty, fault, rfl, told⟩ := gives.of_error
    exact ⟨step, tracked, reader, empty, by rw [told], by rw [told]; rfl, nofun⟩
  | case2 s source draw answer =>
    obtain ⟨step, tracked, reader, gives, nothing⟩ := next_tracked tracks fit source
    have idle : (s.next source).answer = .ok none := answer
    rw [idle] at gives
    obtain ⟨empty, told⟩ := gives.of_nothing
    exact ⟨step, tracked, reader, empty, by rw [told], by rw [told]; rfl, fun _ => nothing idle⟩
  | case3 s source draw event answer drawn ih =>
    obtain ⟨first, tracked, reader, gives, _⟩ := next_tracked tracks fit source
    rw [show (s.next source).answer = .ok (some event) from answer] at gives
    have told := gives.of_event
    have same : draw.stream.reader = first.reader := reader
    obtain ⟨second, tracked', reader', empty, events, error, nothing⟩ :=
      ih (same ▸ tracks.fit fit tracked)
    have both : s.recorder.told (first.append second) =
        ⟨event :: (draw.stream.recorder.told second).events,
          (draw.stream.recorder.told second).fault⟩ := Recorder.told_append_of_event told
    refine ⟨first.append second, tracks.append fit tracked (same ▸ tracked'), reader', empty, ?_, ?_,
      nothing⟩
    · rw [both, ← events]
    · rw [both]
      exact error

end Tracks

theorem leads_tracks (capacity : Nat) :
    Tracks (fun r => r.settings.Lenient true ∧ r.Sound ∧ r.stage ≠ .content 0)
      fun r source step rest =>
        ∃ taken, Reader.Leads true capacity r taken step ∧ source = taken ++ rest where
  waits fit := fit.2.2
  fit := by
    rintro r source rest step ⟨lenient, _, _⟩ ⟨taken, leads, _⟩
    exact ⟨by rwa [leads.settings], leads.sound, leads.waits⟩
  nil fit := ⟨[], .nil fit.2.1 fit.2.2, rfl⟩
  append := by
    rintro r source rest left first second ⟨lenient, sound, _⟩ ⟨taken, leads, rfl⟩
      ⟨later, leads', rfl⟩
    exact ⟨taken ++ later, leads.append leads' lenient sound, (List.append_assoc ..).symm⟩
  read := by
    rintro s source ⟨lenient, sound, waits⟩
    have kin : s.reader.Kin s.ready := s.ready_eq_wake ▸ Reader.kin_wake s.reader true
    obtain ⟨step, taken, reads⟩ := Reader.read_alike (r := s.ready) true capacity none
      s.recorder [source] (kin.settings ▸ lenient)
      (s.ready_eq_wake ▸ sound.wake true)
    have whole : source = taken ++ (s.read source).rest.flatten := by
      have whole := reads.rest
      rwa [List.flatten_singleton] at whole
    exact ⟨step, ⟨taken, leads_of_ready (.ofReading reads (ready_waits waits)) lenient sound, whole⟩,
      reads.reader, reads.state, reads.finished⟩

inductive Finishes (capacity : Nat) (s : EventStream) (source : Bytes) : Prop where
  | before {step : Step} {taken : Bytes} (leads : Reader.Leads true capacity s.reader taken step)
      (whole : source = taken ++ (s.finish source).rest)
      (reader : (s.finish source).stream.reader = step.reader)
      (gives : (s.recorder.told step).Gives (s.finish source).answer
        (s.finish source).stream.recorder)
      (busy : (s.finish source).answer ≠ .ok none) : Finishes capacity s source
  -- Nothing was left to tell, not even of the end.
  | silent {step : Step} (leads : Reader.Leads true capacity s.reader source step)
      (told : s.recorder.told step = {}) (ended : step.reader.ended.events = [])
      (answer : (s.finish source).answer = .ok none) : Finishes capacity s source
  -- It is the first that is told of the end.
  | ending {step : Step} {event : Event} {events : List Event}
      (leads : Reader.Leads true capacity s.reader source step)
      (told : s.recorder.told step = {}) (closed : step.reader.ended.reader.stage = .closed)
      (ended : step.reader.ended.events = event :: events)
      (answer : (s.finish source).answer = .ok (some event))
      (stream : (s.finish source).stream = ⟨step.reader.ended.reader, ⟨events, none⟩⟩) :
      Finishes capacity s source

section Draws

variable (capacity) (lenient : s.reader.settings.Lenient true) (sound : s.reader.Sound)
  (waits : s.reader.stage ≠ .content 0)
include lenient sound waits

theorem next_leads (source : Bytes) :
    ∃ step taken, Reader.Leads true capacity s.reader taken step ∧
      source = taken ++ (s.next source).rest ∧ (s.next source).stream.reader = step.reader ∧
      (s.recorder.told step).Gives (s.next source).answer (s.next source).stream.recorder ∧
      ((s.next source).answer = .ok none → (s.next source).rest = []) := by
  obtain ⟨step, ⟨taken, leads, whole⟩, drawn⟩ :=
    next_tracked (leads_tracks capacity) ⟨lenient, sound, waits⟩ source
  exact ⟨step, taken, leads, whole, drawn⟩

theorem drawAll_leads (source : Bytes) :
    ∃ step taken, Reader.Leads true capacity s.reader taken step ∧
      source = taken ++ (s.drawAll false source).rest ∧
      (s.drawAll false source).stream.reader = step.reader ∧
      (s.drawAll false source).stream.recorder = {} ∧
      (s.drawAll false source).events = (s.recorder.told step).events ∧
      (s.drawAll false source).error = (s.recorder.told step).fault.map .badMessage ∧
      ((s.drawAll false source).error = none → (s.drawAll false source).rest = []) := by
  obtain ⟨step, ⟨taken, leads, whole⟩, drawn⟩ :=
    drawAll_tracked (leads_tracks capacity) ⟨lenient, sound, waits⟩ source
  exact ⟨step, taken, leads, whole, drawn⟩

theorem finish_leads (source : Bytes) : Finishes capacity s source := by
  obtain ⟨step, taken, leads, whole, reader, gives, empty⟩ := next_leads capacity
    lenient sound waits source
  rcases s.finish_cases source with
    ⟨busy, same⟩ | ⟨idle, silent, answer⟩ | ⟨idle, finished, event, events, told, outcome⟩
  · rw [← same] at busy whole reader gives
    exact .before leads whole reader gives busy
  · rw [idle] at gives
    rw [empty idle, List.append_nil] at whole
    rw [reader] at silent
    exact .silent (whole ▸ leads) gives.of_nothing.2 silent answer
  · rw [idle] at gives
    rw [empty idle, List.append_nil] at whole
    rw [reader] at finished told outcome
    exact .ending (whole ▸ leads) gives.of_nothing.2 finished told
      (congrArg Draw.answer outcome) (congrArg Draw.stream outcome)

/-- All that is drawn once no octets will come, the end of the last message included. -/
theorem drawAll_ended (source : Bytes)
    (closed : s.recorder.fault ≠ none → s.reader.stage = .closed) :
    ∃ step, Reader.Leads true capacity s.reader source step ∧
      Event.joined (s.drawAll true source).events =
        Event.joined ((s.recorder.told step).events ++ step.reader.ended.events) ∧
      (s.drawAll true source).error = (s.recorder.told step).fault.map .badMessage := by
  fun_induction drawAll s true source with
  | case1 s source draw error answer =>
    have answer : (s.finish source).answer = .error error := answer
    cases finish_leads capacity lenient sound waits source with
    | @before step taken leads whole _ gives =>
      rw [answer] at gives
      obtain ⟨empty, fault, rfl, told⟩ := gives.of_error
      have finished : step.reader.stage = .closed :=
        leads.closed_of_told closed (by rw [told]; nofun)
      refine ⟨step, ?_, ?_, by rw [told]; rfl⟩
      · rw [whole]
        exact leads.append_finished (Reader.run_closed finished _) lenient sound
      · rw [told, Reader.ended_closed finished]
        rfl
    | silent _ _ _ quiet => cases quiet.symm.trans answer
    | ending _ _ _ _ told => cases told.symm.trans answer
  | case2 s source draw answer =>
    have answer : (s.finish source).answer = .ok none := answer
    cases finish_leads capacity lenient sound waits source with
    | before _ _ _ _ busy => exact absurd answer busy
    | @silent step leads told ended =>
      exact ⟨step, leads, by rw [told, ended]; rfl, by rw [told]; rfl⟩
    | ending _ _ _ _ told => cases told.symm.trans answer
  | case3 s source draw event answer drawn ih =>
    have answer : (s.finish source).answer = .ok (some event) := answer
    cases finish_leads capacity lenient sound waits source with
    | @before first taken leads whole reader gives =>
      -- An event that was told before the end: what is drawn after it ends in the same way.
      rw [answer] at gives
      have told := gives.of_event
      have reader : draw.stream.reader = first.reader := reader
      obtain ⟨second, leads', events, error⟩ := ih
        (by rw [reader, leads.settings]; exact lenient) (reader ▸ leads.sound)
        (reader ▸ leads.waits)
        (fun wrong => reader ▸ leads.closed_of_told closed (by rw [told]; exact wrong))
      have both : s.recorder.told (first.append second) =
          ⟨event :: (draw.stream.recorder.told second).events,
            (draw.stream.recorder.told second).fault⟩ := Recorder.told_append_of_event told
      refine ⟨first.append second, ?_, ?_, ?_⟩
      · rw [whole]
        exact leads.append (reader ▸ leads') lenient sound
      · rw [both]
        exact Event.joined_cons_congr event events
      · rw [both]
        exact error
    | silent _ _ _ quiet => cases quiet.symm.trans answer
    | @ending step first events leads told finished ended answered stream =>
      -- The first event of the end itself: the reader is closed, and only the others are left.
      have same : draw.stream = ⟨step.reader.ended.reader, ⟨events, none⟩⟩ := stream
      obtain rfl : first = event := by simpa using answered.symm.trans answer
      obtain ⟨second, leads', (events' : Event.joined drawn.events = _),
        (error' : drawn.error = _)⟩ := ih
        (by rw [same, (Reader.kin_ended _).settings, leads.settings]; exact lenient)
        (same ▸ leads.sound.ended) (by rw [same, finished]; nofun)
        (fun _ => by rw [same]; exact finished)
      rw [same] at leads' events' error'
      obtain ⟨nothing, fine, closed', _⟩ := leads'.of_closed finished
      refine ⟨step, leads, ?_, ?_⟩
      · rw [told, ended]
        apply Event.joined_cons_congr
        rw [events', Reader.ended_closed closed']
        have quiet : Event.joined (events ++ second.events) = Event.joined (events ++ []) :=
          Event.joined_append_right events nothing
        simpa [Recorder.told, Step.quiet] using quiet
      · rw [told]
        simpa [Recorder.told, fine] using error'

theorem drawPieces_leads (buffer : Bytes) (pieces : List Bytes)
    (closed : s.recorder.fault ≠ none → s.reader.stage = .closed) :
    ∃ step, Reader.Leads true capacity s.reader (buffer ++ pieces.flatten) step ∧
      Event.joined (s.drawPieces buffer pieces).1 =
        Event.joined ((s.recorder.told step).events ++ step.reader.ended.events) ∧
      (s.drawPieces buffer pieces).2 = ((s.recorder.told step).fault.map .badMessage).toList := by
  -- On the pieces; each drawing leaves an empty recorder and the octets that it did not take.
  induction pieces generalizing s buffer with
  | nil =>
    obtain ⟨step, leads, events, error⟩ := drawAll_ended capacity lenient sound waits
      buffer closed
    exact ⟨step, by simpa using leads, events, by rw [drawPieces, error]⟩
  | cons piece pieces ih =>
    obtain ⟨first, taken, leads, whole, reader, empty, events, error, _⟩ :=
      drawAll_leads capacity lenient sound waits (buffer ++ piece)
    let drawn := s.drawAll false (buffer ++ piece)
    have reader : drawn.stream.reader = first.reader := reader
    obtain ⟨second, leads', events', errors⟩ := ih (s := drawn.stream)
      (by rw [reader, leads.settings]; exact lenient) (reader ▸ leads.sound)
      (reader ▸ leads.waits) drawn.rest
      (fun wrong => by rw [empty] at wrong; exact absurd rfl wrong)
    have bytes : buffer ++ (piece :: pieces).flatten = taken ++ (drawn.rest ++ pieces.flatten) := by
      rw [List.flatten_cons, ← List.append_assoc, whole, List.append_assoc]
    have both : s.recorder.told (first.append second) =
        ⟨(s.recorder.told first).events ++ second.events,
          second.fault.or (s.recorder.told first).fault⟩ := by
      rw [← Recorder.told_told]
      rfl
    refine ⟨first.append second, ?_, ?_, ?_⟩
    · rw [bytes]
      exact leads.append (reader ▸ leads') lenient sound
    · rw [both, drawPieces, events, List.append_assoc]
      apply Event.joined_append_right
      rw [events', empty]
      rfl
    · rw [both, drawPieces, error]
      refine (congrArg (_ ++ ·) errors).trans ?_
      rw [empty]
      cases wrong : (s.recorder.told first).fault with
      | none => simp [Recorder.told]
      | some fault =>
        have finished : drawn.stream.reader.stage = .closed :=
          reader ▸ leads.closed_of_told closed (by simp [wrong])
        simp [Recorder.told, (leads'.of_closed finished).2.1]

end Draws

/-- However a source is cut into pieces, what is drawn of it is the same: its events up to the cuts
of the bodies, and its error, if it comes to one. -/
theorem drawPieces_cut (mode : Mode) (settings : Settings) (first second : List Bytes)
    (unlimited : settings.headerLimit = 0) (same : first.flatten = second.flatten) :
    let stream : EventStream := { reader := { mode, settings } }
    Event.joined (stream.drawPieces [] first).1 = Event.joined (stream.drawPieces [] second).1 ∧
      ∃ error : Option StreamError, (stream.drawPieces [] first).2 = error.toList ∧
        (stream.drawPieces [] second).2 = error.toList := by
  intro stream
  have drawn (pieces : List Bytes) := drawPieces_leads (s := stream) 0 (.inl unlimited)
    (.fresh mode settings) nofun [] pieces nofun
  obtain ⟨step, leads, events, errors⟩ := drawn first
  obtain ⟨once, leads', events', errors'⟩ := drawn second
  have alike : step.Alike true once := leads.unique (same ▸ leads')
  refine ⟨?_, step.fault.map .badMessage, ?_, ?_⟩
  · rw [events, events', Reader.ended_events alike.reader]
    exact Event.joined_append alike.events rfl
  · rw [errors]
    simp [Recorder.told, stream]
  · rw [errors', alike.fault]
    simp [Recorder.told, stream]

theorem drawPieces_cut_of_get :
    ({ headerLimit := 0 } : Settings).headerLimit = 0 ∧
      [Text.toBytes "GET /\r".toList, Text.toBytes "\nGET /a\n".toList].flatten =
        [Text.toBytes "GET /\r\nG".toList, Text.toBytes "ET /a\n".toList].flatten ∧
      Event.joined (({ reader := { mode := .request, settings := { headerLimit := 0 } } } :
          EventStream).drawPieces []
            [Text.toBytes "GET /\r".toList, Text.toBytes "\nGET /a\n".toList]).1 =
        Event.joined (({ reader := { mode := .request, settings := { headerLimit := 0 } } } :
          EventStream).drawPieces []
            [Text.toBytes "GET /\r\nG".toList, Text.toBytes "ET /a\n".toList]).1 :=
  ⟨rfl, by decide, (drawPieces_cut .request { headerLimit := 0 } _ _ rfl (by decide)).1⟩

end EventStream
end HttpStream
