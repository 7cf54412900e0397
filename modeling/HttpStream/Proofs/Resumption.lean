import HttpStream.Proofs.Stops
import HttpStream.Proofs.Transparency

/-! A reading that was stopped goes on where it stopped: read on until nothing more is taken, an
input tells what it tells a listener that never asks to stop. -/

set_option autoImplicit false

namespace HttpStream

namespace Recorder

def record (recorder : Recorder) : Callback → Recorder
  | .told event _ => { recorder with events := recorder.events ++ [event] }
  | .rejected fault => { recorder with fault := some fault }

def recordAll (recorder : Recorder) (log : List Callback) : Recorder := log.foldl record recorder

theorem recordAll_append (recorder : Recorder) (log more : List Callback) :
    recorder.recordAll (log ++ more) = (recorder.recordAll log).recordAll more :=
  List.foldl_append

variable {σ : Type}

theorem recordAll_answers (recorder : Recorder) (listener : Listener σ) (state : σ)
    (events : List Event) : recorder.recordAll (listener.answers state events) =
      { recorder with events := recorder.events ++ events } := by
  induction events generalizing recorder state with
  | nil => simp [recordAll, Listener.answers]
  | cons event rest ih =>
    rw [Listener.answers, recordAll, List.foldl_cons]
    exact (ih _ _).trans (by simp [record])

theorem recordAll_hear {listener : Listener σ} {state heard : σ × List Callback} {stop : Bool}
    {events : List Event} (h : listener.noted.hear state events = (heard, stop)) :
    recordAll {} heard.2 =
      { recordAll {} state.2 with events := (recordAll {} state.2).events ++ events } := by
  rw [Listener.hear_noted] at h
  rw [← congrArg (·.1.2) h, recordAll_append, recordAll_answers]

end Recorder

/-- Readings that leave the same unread, told the same, and by readers that differ only in what they
remember; one of them may have been stopped. -/
structure Reading.Even {σ : Type} (first second : Reading σ) : Prop where
  reader : first.reader.Peer second.reader
  state : first.state = second.state
  rest : first.rest = second.rest

namespace Reading.Even

variable {σ : Type} {first second third : Reading σ}

theorem ofPeer (h : first.Peer second) : first.Even second := ⟨h.reader, h.state, h.rest⟩

theorem trans (left : first.Even second) (right : second.Even third) : first.Even third :=
  ⟨left.reader.trans right.reader, left.state.trans right.state, left.rest.trans right.rest⟩

end Reading.Even

namespace Reader

variable {σ τ : Type} {r s : Reader} {listener : Listener σ} {input : Input}
  {memory : Option Nat}

/-- Where a reading took nothing, there is nothing to take for anyone. -/
theorem read_still (other : Listener τ) (state : σ) (otherState : τ)
    (still : ¬(r.read listener state input).rest.size < input.size) :
    (r.read listener state input).reader.read other otherState
        (r.read listener state input).rest =
      ⟨(r.read listener state input).reader, otherState, false,
        (r.read listener state input).rest⟩ := by
  by_cases done : r.stage = .done
  · rw [read_done done, read_done done]
  by_cases closed : r.stage = .closed
  · rw [read_closed closed, read_closed closed]
  by_cases full : r.stage = .content 0
  · rw [read_full full]
    exact read_done rfl
  have reads : r.Reads := ⟨done, closed, full⟩
  cases found : input.next? with
  | none => rw [read_nothing reads found, read_nothing reads found]
  | some next =>
    obtain ⟨b, tail, later⟩ := next
    exact absurd (read_takes reads found) still

theorem read_final (recorder : Recorder) :
    (r.read (.patient memory) recorder input).reader.read (.patient memory)
        (r.read (.patient memory) recorder input).state
        (r.read (.patient memory) recorder input).rest =
      ⟨(r.read (.patient memory) recorder input).reader,
        (r.read (.patient memory) recorder input).state, false,
        (r.read (.patient memory) recorder input).rest⟩ := by
  fun_induction read r (Listener.patient memory) recorder input with
  | case1 r recorder input finished => exact read_done finished
  | case2 r recorder input finished => exact read_closed finished
  | case3 => exact read_done rfl
  | case4 r recorder input none busy open_ partial_ =>
    exact read_nothing ⟨busy, open_, partial_⟩ none
  | case5 => exact read_closed rfl
  | case6 r recorder input b tail later found turn heard fine rest busy open_ partial_ told =>
    rw [Recorder.hear_patient] at told
    cases congrArg Prod.snd told
  | case7 _ _ _ _ _ _ _ _ _ _ _ _ _ _ _ _ _ ih => exact ih

theorem feed_patient (recorder : Recorder) :
    (r.feed (.patient memory) recorder input).Even (r.read (.patient memory) recorder input) := by
  rw [feed]
  split
  · rw [feed, read_final]
    simp only [Nat.lt_irrefl, if_false]
    exact ⟨⟨rfl, rfl⟩, rfl, rfl⟩
  · exact ⟨⟨rfl, rfl⟩, rfl, rfl⟩

/-- After a reading, whoever listened and whether it was stopped or not, there is to be told what
it would have told if it had gone on. -/
theorem read_resumed (sound : r.Sound) (state : σ × List Callback) :
    (r.read (.patient memory) (Recorder.recordAll {} state.2) input).Even
      ((r.read listener.noted state input).reader.read (.patient memory)
        (Recorder.recordAll {} (r.read listener.noted state input).state.2)
        (r.read listener.noted state input).rest) := by
  -- A listener that never stops, and that remembers as many fields as this one, takes the same
  -- turns.
  have again {r : Reader} {input : Input} {recorder : Recorder} (sound : r.Sound)
      (first second : Option Nat) : (r.read (.patient first) recorder input).Even
        (r.read (.patient second) recorder input) :=
    .ofPeer (read_peer ⟨rfl, rfl⟩ sound sound)
  have turns {r : Reader} {state : σ × List Callback} {recorder : Recorder} {b : UInt8}
      {tail : Bytes} {later : Input} :
      r.turn (r.capacityFor (.patient (some (r.capacityFor listener.noted state))) recorder) b tail
        later = r.turn (r.capacityFor listener.noted state) b tail later := rfl
  fun_induction read r listener.noted state input with
  | case1 => exact again sound _ _
  | case2 r state input finished =>
    rw [read_closed finished, read_closed finished]
    exact ⟨⟨rfl, rfl⟩, rfl, rfl⟩
  | case3 r state input full inner stop notified =>
    have heard : Recorder.recordAll {} inner.2 = { Recorder.recordAll {} state.2 with
        events := (Recorder.recordAll {} state.2).events ++ [.messageComplete] } := by
      have told : listener.noted.hear state [.messageComplete] = (inner, stop) := by
        rw [Listener.hear, notified]
        simp [Listener.hear]
      exact Recorder.recordAll_hear told
    rw [read_full full, read_done rfl, heard]
    exact ⟨⟨rfl, rfl⟩, rfl, rfl⟩
  | case4 => exact again sound _ _
  | case5 r state input b tail later found turn inner stop heard fault wrong busy open_ partial_ =>
    refine (again sound memory (some (r.capacityFor listener.noted state))).trans ?_
    have rejected : Recorder.recordAll {} (listener.noted.reject inner fault).2 =
        { Recorder.recordAll {} inner.2 with fault := some fault } :=
      Recorder.recordAll_append {} inner.2 [.rejected fault]
    rw [read_of_fault ⟨busy, open_, partial_⟩ found turns wrong, read_closed rfl, rejected,
      Recorder.recordAll_hear heard]
    exact ⟨⟨rfl, rfl⟩, rfl, rfl⟩
  | case6 r state input b tail later found turn inner fine rest busy open_ partial_ heard =>
    refine (again sound memory (some (r.capacityFor listener.noted state))).trans ?_
    rw [read_of_turn ⟨busy, open_, partial_⟩ found turns fine, ← Input.drop_of_next? found,
      ← Recorder.recordAll_hear heard]
    exact again (sound.turn ..) _ _
  | case7 r state input b tail later found turn inner stop heard fine rest go busy open_
      partial_ ih =>
    refine (again sound memory (some (r.capacityFor listener.noted state))).trans ?_
    rw [read_of_turn ⟨busy, open_, partial_⟩ found turns fine, ← Input.drop_of_next? found,
      ← Recorder.recordAll_hear heard]
    exact (again (sound.turn ..) _ _).trans (ih (sound.turn ..))

theorem feed_resumed (sound : r.Sound) (state : σ × List Callback) :
    (r.read (.patient memory) (Recorder.recordAll {} state.2) input).Even
      ((r.feed listener.noted state input).map fun state => Recorder.recordAll {} state.2) := by
  fun_induction feed r listener.noted state input with
  | case1 r state input reading less ih =>
    have resumed : (r.read (.patient memory) (Recorder.recordAll {} state.2) input).Even
        (reading.reader.read (.patient memory) (Recorder.recordAll {} reading.state.2)
          reading.rest) := read_resumed sound state
    exact resumed.trans (ih (sound.read ..))
  | case2 r state input reading still =>
    have resumed : (r.read (.patient memory) (Recorder.recordAll {} state.2) input).Even
        (reading.reader.read (.patient memory) (Recorder.recordAll {} reading.state.2)
          reading.rest) := read_resumed sound state
    have final : reading.reader.read (.patient memory) (Recorder.recordAll {} reading.state.2)
        reading.rest = ⟨reading.reader, Recorder.recordAll {} reading.state.2, false,
          reading.rest⟩ := read_still (.patient memory) state _ still
    rw [final] at resumed
    exact ⟨resumed.reader, resumed.state, resumed.rest⟩

/-- Whoever listens to a connection, and whatever was asked of it before:
a reading is stopped if the listener answered so to an event, or the message is bad, and else not;
its callbacks come in groups, for octets one after the other, each group has one cause, and what is
told after a callback that halts the reading belongs to the group of that callback; and if it is
read on until nothing more is taken, all that is told of an input is what is told of it to a
listener that never asks to stop. -/
theorem stops_honoured {σ : Type} (mode : Mode) (settings : Settings) (listener : Listener σ)
    (start : σ) (before : List Call) (input : Input) (memory : Option Nat) :
    let r := (Reader.through { mode, settings } listener start before).1
    let state := (Reader.through { mode, settings } listener start before).2
    let reading := r.read listener.noted (state, []) input
    let groups := r.groups listener state input
    let fed := r.feed listener.noted (state, []) input
    let calm := r.feed (Recorder.listener { memoryCapacity := memory }) {} input
    (r.read listener state input = reading.map Prod.fst ∧
      reading.stopped = reading.state.2.any Callback.halts) ∧
    (reading.state.2 = groups.flatMap Group.told ∧
      groups.flatMap Group.octets <+: input.flatten ∧
      (∀ group ∈ groups, group.Caused) ∧
      ∀ earlier callback later, reading.state.2 = earlier ++ callback :: later →
        callback.halts = true →
          ∃ group ∈ groups.getLast?, ∃ first, group.told = first ++ callback :: later) ∧
    (r.feed listener state input = fed.map Prod.fst ∧
      Recorder.recordAll {} fed.state.2 = calm.state ∧ fed.rest = calm.rest) := by
  intro r state reading groups fed calm
  have sound : r.Sound := (Sound.fresh mode settings).through listener start before
  obtain ⟨told, stopped⟩ : reading.state.2 = groups.flatMap Group.told ∧
      reading.stopped = (groups.flatMap Group.told).any Callback.halts := read_groups []
  have resumed : (r.read (.patient memory) {} input).Even
      (fed.map fun state => Recorder.recordAll {} state.2) := feed_resumed sound (state, [])
  have once : calm.Even (r.read (.patient memory) {} input) := feed_patient {}
  have even := once.trans resumed
  refine ⟨⟨listener.noted_extends.read r (state, []) input, told ▸ stopped⟩,
    ⟨told, groups_octets r listener state input, groups_caused sound listener state input, ?_⟩,
    listener.noted_extends.feed r (state, []) input, even.state.symm, even.rest.symm⟩
  intro earlier callback later split halts
  exact told_after_halt (groups_quiet r listener state input) (told.symm.trans split) halts

end Reader
end HttpStream
