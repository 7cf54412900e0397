import HttpStream.Proofs.Reading
import HttpStream.Reader.Call

/-! A reader stays sound, and on its connection, whatever its owner asks of it. -/

set_option autoImplicit false

namespace HttpStream.Reader

variable {σ : Type} {r : Reader} {listener : Listener σ} {state : σ} {input : Input}

/-! One turn of a reading. -/

theorem read_done (finished : r.stage = .done) :
    r.read listener state input = ⟨r, state, false, input⟩ := by
  simp [read, finished]

theorem read_closed (closed : r.stage = .closed) :
    r.read listener state input = ⟨r, state, false, []⟩ := by
  simp [read, closed]

theorem read_full (full : r.stage = .content 0) :
    r.read listener state input =
      ⟨r.enter .done, (listener.notify state .messageComplete).1,
        (listener.notify state .messageComplete).2, input⟩ := by
  simp [read, full]

structure Reads (r : Reader) : Prop where
  notDone : r.stage ≠ .done
  notClosed : r.stage ≠ .closed
  notFull : r.stage ≠ .content 0

theorem read_nothing (reads : r.Reads) (none : input.next? = none) :
    r.read listener state input = ⟨r, state, false, input⟩ := by
  rw [read]
  split
  · next stage => exact absurd stage reads.notDone
  · next stage => exact absurd stage reads.notClosed
  · next stage => exact absurd stage reads.notFull
  · split
    · rfl
    · next found =>
      rw [none] at found
      cases found

theorem read_next {b : UInt8} {tail : Bytes} {later : Input} (reads : r.Reads)
    (found : input.next? = some (b, tail, later)) :
    r.read listener state input =
      let turn := r.turn (r.capacityFor listener state) b tail later
      let (state, stop) := listener.hear state turn.step.events
      match turn.step.fault with
      | some fault => ⟨turn.step.reader.enter .closed, listener.reject state fault, true, []⟩
      | none =>
        let rest := Input.drop turn.extra (tail :: later)
        if stop then ⟨turn.step.reader, state, true, rest⟩
        else turn.step.reader.read listener state rest := by
  rw [read]
  split
  · next stage => exact absurd stage reads.notDone
  · next stage => exact absurd stage reads.notClosed
  · next stage => exact absurd stage reads.notFull
  · split
    · next none =>
      rw [found] at none
      cases none
    · next found' =>
      rw [found] at found'
      cases found'
      rfl

section Turn

variable {b : UInt8} {tail : Bytes} {later : Input} {turn : Turn} {heard : σ} {stop : Bool}
  (reads : r.Reads) (found : input.next? = some (b, tail, later))
  (turns : r.turn (r.capacityFor listener state) b tail later = turn)
  (told : listener.hear state turn.step.events = (heard, stop))
include reads found turns told

theorem read_fault {fault : Fault} (wrong : turn.step.fault = some fault) :
    r.read listener state input =
      ⟨turn.step.reader.enter .closed, listener.reject heard fault, true, []⟩ := by
  rw [read_next reads found]
  simp only [turns, told, wrong]

theorem read_stop (fine : turn.step.fault = none) (stops : stop = true) :
    r.read listener state input =
      ⟨turn.step.reader, heard, true, Input.drop turn.extra (tail :: later)⟩ := by
  rw [read_next reads found]
  simp only [turns, told, fine, stops, if_true]

theorem read_onward (fine : turn.step.fault = none) (goes : stop = false) :
    r.read listener state input =
      turn.step.reader.read listener heard (Input.drop turn.extra (tail :: later)) := by
  rw [read_next reads found]
  simp only [turns, told, fine, goes, Bool.false_eq_true, if_false]

end Turn

theorem read_takes {b : UInt8} {tail : Bytes} {later : Input} (reads : r.Reads)
    (found : input.next? = some (b, tail, later)) :
    (r.read listener state input).rest.size < input.size := by
  let turn := r.turn (r.capacityFor listener state) b tail later
  obtain ⟨heard, stop, told⟩ : ∃ heard stop,
      listener.hear state turn.step.events = (heard, stop) := ⟨_, _, rfl⟩
  have less := Input.size_drop_lt turn.extra found
  cases wrong : turn.step.fault with
  | some fault =>
    rw [read_fault reads found rfl told wrong]
    exact Nat.lt_of_le_of_lt (Nat.zero_le _) less
  | none =>
    cases stop with
    | true => rwa [read_stop reads found rfl told wrong rfl]
    | false =>
      rw [read_onward reads found rfl told wrong rfl]
      exact Nat.lt_of_le_of_lt (read_size_le ..) less

/-! What a call keeps. -/

theorem Sound.turn (h : r.Sound) (capacity : Nat) (b : UInt8) (tail : Bytes) (later : Input) :
    (r.turn capacity b tail later).step.reader.Sound :=
  (turn_cases h).sound h

theorem Sound.read (h : r.Sound) (listener : Listener σ) (state : σ) (input : Input) :
    (r.read listener state input).reader.Sound := by
  fun_induction Reader.read r listener state input with
  | case1 => exact h
  | case2 => exact h
  | case3 => exact h.enter_finished (.inl rfl)
  | case4 => exact h
  | case5 => exact (h.turn ..).enter_finished (.inr rfl)
  | case6 => exact h.turn ..
  | case7 _ _ _ _ _ _ _ _ _ _ _ _ _ _ _ _ _ ih => exact ih (h.turn ..)

def ended (r : Reader) : Step :=
  match r.stage with
  | .start | .done | .closed => .quiet r
  | .untilClose => { reader := r.enter .closed, events := [.messageComplete] }
  | _ =>
    { reader := r.enter .closed
      events := if r.headResponse then [.messageComplete] else [.earlyEof, .messageComplete] }

theorem shutdown_patient (r : Reader) (memoryCapacity : Option Nat) (recorder : Recorder) :
    r.shutdown (.patient memoryCapacity) recorder =
      (r.ended.reader, recorder.told r.ended, false) := by
  cases stage : r.stage <;> cases head : r.headResponse <;>
    simp [shutdown, ended, stage, head, Recorder.told, Recorder.listener, Step.quiet]

theorem ended_fine (r : Reader) : r.ended.fault = none := by
  unfold ended
  split <;> rfl

/-- An end that no octet announces: a message under way is complete, or cut short. -/
structure CutShort (r : Reader) (events : List Event) : Prop where
  notDone : r.stage ≠ .done
  notClosed : r.stage ≠ .closed
  events : events = [.messageComplete] ∨ events = [.earlyEof, .messageComplete]

theorem ended_cases (r : Reader) :
    r.ended = .quiet r ∨ r.ended.reader = r.enter .closed ∧ r.CutShort r.ended.events := by
  unfold ended
  split
  · exact .inl rfl
  · exact .inl rfl
  · exact .inl rfl
  · next stage => exact .inr ⟨rfl, by simp [stage], by simp [stage], .inl rfl⟩
  · next done closed _ =>
    refine .inr ⟨rfl, done, closed, ?_⟩
    cases r.headResponse with
    | true => exact .inl rfl
    | false => exact .inr rfl

theorem kin_ended (r : Reader) : r.Kin r.ended.reader := by
  rcases r.ended_cases with quiet | ⟨shut, _⟩
  · rw [quiet]
    exact .refl r
  · rw [shut]
    exact ⟨rfl, rfl, rfl⟩

theorem Sound.ended (h : r.Sound) : r.ended.reader.Sound := by
  rcases r.ended_cases with quiet | ⟨shut, _⟩
  · rw [quiet]
    exact h
  · rw [shut]
    exact h.enter_finished (.inr rfl)

theorem shutdown_ended (r : Reader) (listener : Listener σ) (state : σ) :
    (r.shutdown listener state).1 = r.ended.reader ∧
      (r.shutdown listener state).2.1 = (listener.hear state r.ended.events).1 := by
  cases stage : r.stage <;> cases head : r.headResponse <;>
    simp [Reader.shutdown, Reader.ended, stage, head, Listener.hear, Step.quiet]

theorem close_cases (r : Reader) (listener : Listener σ) (state : σ) :
    (r.close listener state).1.stage = .closed ∧ ∃ events,
      (r.close listener state).2 = (listener.hear state events).1 ∧
        (events = [] ∨ r.CutShort events) := by
  refine ⟨rfl, _, rfl, ?_⟩
  split
  · exact .inl rfl
  · exact .inl rfl
  · exact .inl rfl
  · next stage => exact .inr ⟨by simp [stage], by simp [stage], .inl rfl⟩
  · next done closed _ => exact .inr ⟨done, closed, .inr rfl⟩

theorem Sound.close (h : r.Sound) (listener : Listener σ) (state : σ) :
    (r.close listener state).1.Sound :=
  ⟨trivial, by rintro _ ⟨⟩, h.cache, nofun⟩

theorem kin_read (sound : r.Sound) (listener : Listener σ) (state : σ) (input : Input) :
    r.Kin (r.read listener state input).reader := by
  fun_induction Reader.read r listener state input with
  | case1 => exact .refl _
  | case2 => exact .refl _
  | case3 => exact ⟨rfl, rfl, rfl⟩
  | case4 => exact .refl _
  | case5 r state input b tail later found turn =>
    have kin : r.Kin turn.step.reader := (turn_cases sound).kin sound
    exact ⟨kin.mode, kin.settings, kin.headResponse⟩
  | case6 => exact (turn_cases sound).kin sound
  | case7 _ _ _ _ _ _ _ _ _ _ _ _ _ _ _ _ _ ih =>
    exact ((turn_cases sound).kin sound).trans (ih (sound.turn ..))

theorem answer_connection (sound : r.Sound) (listener : Listener σ) (state : σ) (call : Call) :
    (r.answer listener state call).reader.mode = r.mode ∧
      (r.answer listener state call).reader.settings = r.settings := by
  cases call with
  | read input =>
    have kin := kin_read sound listener state input
    exact ⟨kin.mode, kin.settings⟩
  | shutdown =>
    have same : (r.answer listener state .shutdown).reader = r.ended.reader :=
      (r.shutdown_ended listener state).1
    rw [same]
    exact ⟨r.kin_ended.mode, r.kin_ended.settings⟩
  | close | reset | headResponse => exact ⟨rfl, rfl⟩

theorem Sound.answer (h : r.Sound) (listener : Listener σ) (state : σ) (call : Call) :
    (r.answer listener state call).reader.Sound := by
  cases call with
  | read input => exact h.read listener state input
  | shutdown =>
    have ended : (r.shutdown listener state).1.Sound :=
      (r.shutdown_ended listener state).1.symm ▸ h.ended
    exact ended
  | close => exact h.close listener state
  | reset => exact h.reset
  | headResponse value => exact ⟨h.stage, h.side, h.cache, h.measured⟩

def through (r : Reader) (listener : Listener σ) (state : σ) : List Call → Reader × σ
  | [] => (r, state)
  | call :: rest =>
    let reply := r.answer listener state call
    reply.reader.through listener reply.state rest

theorem Sound.through (h : r.Sound) (listener : Listener σ) (state : σ) (calls : List Call) :
    (r.through listener state calls).1.Sound := by
  induction calls generalizing r state with
  | nil => exact h
  | cons call rest ih => exact ih (h.answer listener state call) _

theorem through_connection (sound : r.Sound) (listener : Listener σ) (state : σ)
    (calls : List Call) :
    (r.through listener state calls).1.mode = r.mode ∧
      (r.through listener state calls).1.settings = r.settings := by
  induction calls generalizing r state with
  | nil => exact ⟨rfl, rfl⟩
  | cons call rest ih =>
    obtain ⟨mode, settings⟩ := answer_connection sound listener state call
    obtain ⟨mode', settings'⟩ := ih (sound.answer listener state call)
      (r.answer listener state call).state
    exact ⟨mode'.trans mode, settings'.trans settings⟩

end HttpStream.Reader
