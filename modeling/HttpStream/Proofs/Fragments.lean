import HttpStream.Proofs.Reading

/-! One message may arrive in any fragments, and each fragment in any segments: what is told of it
is the same. -/

set_option autoImplicit false

namespace HttpStream

namespace Reader

variable {capacity : Nat} {memoryCapacity : Option Nat} {r : Reader} {bytes : Bytes} {step : Step}

theorem run_done (done : r.stage = .done) (bytes : Bytes) :
    r.run false capacity bytes = .quiet r := by
  induction bytes with
  | nil => rfl
  | cons b rest ih =>
    have quiet : r.advance false capacity b = .quiet r := by
      simp [advance, wake, done, Stage.isComplete]
    rw [run, quiet, Step.quiet_andThen, ih]

/-- A feeding takes all of its input, in the sense that what it leaves comes after the message. -/
theorem feed_leads (capacity : Nat) (memoryCapacity : Option Nat) (recorder : Recorder)
    (input : Input) (lenient : r.settings.Lenient false) (sound : r.Sound)
    (waits : r.stage ≠ .content 0) :
    ∃ step, Leads false capacity r input.flatten step ∧
      (r.feed (.patient memoryCapacity) recorder input).reader = step.reader ∧
      (r.feed (.patient memoryCapacity) recorder input).state = recorder.told step := by
  fun_induction feed r (Listener.patient memoryCapacity) recorder input with
  | case1 r recorder input reading less ih =>
    obtain ⟨first, taken, reads⟩ := read_alike false capacity memoryCapacity recorder input
      lenient sound
    obtain ⟨second, leads, reader, state⟩ := ih (reads.settings ▸ lenient) reads.sound reads.more
    have left := Leads.ofReading reads waits
    rw [reads.rest]
    refine ⟨first.append second, left.append (reads.reader ▸ leads) lenient sound, reader, ?_⟩
    rw [state, reads.state, Recorder.told_told]
  | case2 r recorder input reading =>
    -- No progress: what is left comes after the message, or there is nothing left.
    obtain ⟨first, taken, reads⟩ := read_alike false capacity memoryCapacity recorder input
      lenient sound
    have left := Leads.ofReading reads waits
    have finished : first.reader.run false capacity reading.rest.flatten = .quiet first.reader := by
      rcases reads.finished with done | none
      · exact run_done (reads.reader ▸ done) _
      · rw [none]
        rfl
    rw [reads.rest]
    exact ⟨first, left.append_finished finished lenient sound, reads.reader, reads.state⟩

theorem feedAll_leads (capacity : Nat) (memoryCapacity : Option Nat) (recorder : Recorder)
    (fragments : List Input) (lenient : r.settings.Lenient false) (sound : r.Sound)
    (waits : r.stage ≠ .content 0) :
    ∃ step, Leads false capacity r fragments.flatten.flatten step ∧
      (r.feedAll (.patient memoryCapacity) recorder fragments).1 = step.reader ∧
      (r.feedAll (.patient memoryCapacity) recorder fragments).2.1 = recorder.told step := by
  -- On the fragments; the reader between two of them is again sound and waits for octets.
  induction fragments generalizing r recorder with
  | nil => exact ⟨.quiet r, .nil sound waits, rfl, by simp [feedAll]⟩
  | cons fragment rest ih =>
    obtain ⟨first, leads, reader, state⟩ := feed_leads capacity memoryCapacity recorder
      fragment lenient sound waits
    obtain ⟨second, leads', reader', state'⟩ := ih (r := first.reader) (recorder.told first)
      (leads.settings ▸ lenient) leads.sound leads.waits
    rw [List.flatten_cons, List.flatten_append, feedAll, reader, state]
    refine ⟨first.append second, leads.append leads' lenient sound, reader', ?_⟩
    rw [← Recorder.told_told, ← state']

/-- One message in fragments, each of them in segments, comes to what it comes to in one piece,
whether it is well formed or not: the same events up to the cuts of the body, the same fault, and a
reader at the same stage. -/
theorem feedAll_fragments (mode : Mode) (settings : Settings) (memoryCapacity : Option Nat)
    (fragments : List Input) (free : settings.trailers = false ∨ settings.headerLimit = 0) :
    let reader : Reader := { mode, settings }
    let listener := Recorder.listener { memoryCapacity }
    let cut := reader.feedAll listener {} fragments
    let whole := reader.feedAll listener {} [[fragments.flatten.flatten]]
    Event.joined cut.2.1.events = Event.joined whole.2.1.events ∧
      cut.2.1.fault = whole.2.1.fault ∧ cut.1.stage.label = whole.1.stage.label := by
  intro reader listener cut whole
  have lenient : settings.Lenient false := free.symm.imp_right fun none => ⟨none, rfl⟩
  have fed (fragments : List Input) := feedAll_leads (r := reader) 0 memoryCapacity {}
    fragments lenient (.fresh mode settings) nofun
  obtain ⟨step, leads, cutReader, cutState⟩ := fed fragments
  obtain ⟨once, leads', wholeReader, wholeState⟩ := fed [[fragments.flatten.flatten]]
  rw [show [[fragments.flatten.flatten]].flatten.flatten = fragments.flatten.flatten by simp]
    at leads'
  have same := leads.unique leads'
  have twin : step.reader.Twin once.reader := same.reader
  have label : step.reader.stage.label = once.reader.stage.label := by
    rw [← Stage.label_plain, twin.stage, Stage.label_plain]
  simp only [cut, whole, listener, cutReader, cutState, wholeReader, wholeState]
  exact ⟨by simpa [Recorder.told] using same.events, by simp [Recorder.told, same.fault], label⟩

theorem feedAll_fragments_of_get :
    (({} : Settings).trailers = false ∨ ({} : Settings).headerLimit = 0) ∧
      (Event.joined (({ mode := .request } : Reader).feedAll (Recorder.listener {}) {}
        [[Text.toBytes "GE".toList], [Text.toBytes "T / ".toList, Text.toBytes "HTTP/1.0\r".toList],
          [Text.toBytes "\n\r\n".toList]]).2.1.events).map Event.kind =
        [.requestLine, .headerComplete, .messageComplete] :=
  ⟨.inl rfl, (congrArg (List.map Event.kind)
    (feedAll_fragments .request {} none _ (.inl rfl)).1).trans (by decide +kernel)⟩

end Reader
end HttpStream
