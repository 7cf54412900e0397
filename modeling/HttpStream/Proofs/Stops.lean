import HttpStream.Proofs.Listening

/-! A listener may ask to stop at any event. The reading then ends with the octet that caused the
event, and it is the listener's answers that say whether a reading was stopped. -/

set_option autoImplicit false

namespace HttpStream

inductive Callback where
  | told (event : Event) (stop : Bool)
  | rejected (fault : Fault)

namespace Callback

/-- Whether the reading is to end: the listener asked for it, or the message is bad. -/
def halts : Callback → Bool
  | .told _ stop => stop
  | .rejected _ => true

def event? : Callback → Option Event
  | .told event _ => some event
  | .rejected _ => none

def fault? : Callback → Option Fault
  | .told _ _ => none
  | .rejected fault => some fault

end Callback

namespace Listener

variable {σ : Type}

def noted (listener : Listener σ) : Listener (σ × List Callback) where
  notify state event :=
    let (inner, stop) := listener.notify state.1 event
    ((inner, state.2 ++ [.told event stop]), stop)
  reject state fault := (listener.reject state.1 fault, state.2 ++ [.rejected fault])
  memoryCapacity state := listener.memoryCapacity state.1

def answers (listener : Listener σ) (state : σ) : List Event → List Callback
  | [] => []
  | event :: rest =>
    let (state, stop) := listener.notify state event
    .told event stop :: listener.answers state rest

def tellings (listener : Listener σ) (state : σ) (step : Step) : List Callback :=
  listener.answers state step.events ++ step.fault.toList.map .rejected

theorem noted_extends (listener : Listener σ) : listener.noted.Extends listener Prod.fst :=
  ⟨fun _ _ => rfl, fun _ _ => rfl, fun _ => rfl⟩

variable (listener : Listener σ)

theorem hear_noted (state : σ × List Callback) (events : List Event) :
    listener.noted.hear state events =
      (((listener.hear state.1 events).1, state.2 ++ listener.answers state.1 events),
        (listener.hear state.1 events).2) := by
  induction events generalizing state with
  | nil => simp [hear, answers]
  | cons event rest ih =>
    simp only [hear, ih]
    simp [noted, answers]

theorem hear_stops (state : σ) (events : List Event) :
    (listener.hear state events).2 = (listener.answers state events).any Callback.halts := by
  induction events generalizing state with
  | nil => rfl
  | cons event rest ih => simp only [hear, answers, List.any_cons, ih, Callback.halts]

theorem tellings_halts (state : σ) (step : Step) :
    (listener.tellings state step).any Callback.halts =
      (step.fault.isSome || (listener.hear state step.events).2) := by
  rw [hear_stops, tellings, List.any_append, Bool.or_comm]
  cases step.fault <;> rfl

theorem tellings_events (state : σ) (step : Step) :
    (listener.tellings state step).filterMap Callback.event? = step.events := by
  have told (state : σ) (events : List Event) :
      (listener.answers state events).filterMap Callback.event? = events := by
    induction events generalizing state with
    | nil => rfl
    | cons event rest ih => simp only [answers, List.filterMap_cons, Callback.event?, ih]
  cases wrong : step.fault <;> simp [tellings, told, wrong, Callback.event?]

theorem tellings_faults (state : σ) (step : Step) :
    (listener.tellings state step).filterMap Callback.fault? = step.fault.toList := by
  have told (state : σ) (events : List Event) :
      (listener.answers state events).filterMap Callback.fault? = [] := by
    induction events generalizing state with
    | nil => rfl
    | cons event rest ih => simp only [answers, List.filterMap_cons, Callback.fault?, ih]
  cases wrong : step.fault <;> simp [tellings, told, wrong, Callback.fault?]

end Listener

/-- Octets that are read in one go, by the reader that reads them, and what is told of them. -/
structure Group where
  reader : Reader
  octets : Bytes
  told : List Callback

namespace Group

def events (group : Group) : List Event := group.told.filterMap Callback.event?

def faults (group : Group) : List Fault := group.told.filterMap Callback.fault?

/-- All that is told of the octets has one cause. -/
inductive Caused (group : Group) : Prop where
  | nothing (silent : group.told = [])
  -- It is what one of the octets leads to; of those before it there was nothing to tell.
  | octet {capacity : Nat} {before after : Bytes} {b : UInt8} {s : Reader}
      (split : group.octets = before ++ b :: after)
      (reached : group.reader.run false capacity before = .quiet s)
      (events : group.events = (s.push capacity b).events)
      (faults : group.faults = (s.push capacity b).fault.toList)
  -- It is one event, for a slice of the body.
  | slice {stop : Bool} (told : group.told = [.told (.content group.octets) stop])
  -- The body was all delivered before, and no octet is needed to say so.
  | ending {stop : Bool} (full : group.reader.stage = .content 0) (none : group.octets = [])
      (told : group.told = [.told .messageComplete stop])

end Group

namespace Reader

variable {σ : Type}

def groups (r : Reader) (listener : Listener σ) (state : σ) (input : Input) : List Group :=
  match r.stage with
  | .done | .closed => []
  | .content 0 => [⟨r, [], listener.answers state [.messageComplete]⟩]
  | _ =>
    match _h : input.next? with
    | none => []
    | some (b, tail, later) =>
      let turn := r.turn (r.capacityFor listener state) b tail later
      let octets := b :: (tail :: later).flatten.take turn.extra
      let group : Group := ⟨r, octets, listener.tellings state turn.step⟩
      let (state, stop) := listener.hear state turn.step.events
      if turn.step.fault.isSome || stop then [group]
      else group :: turn.step.reader.groups listener state (Input.drop turn.extra (tail :: later))
termination_by input.size
decreasing_by exact Input.size_drop_lt _ ‹_›

variable {r s : Reader} {b : UInt8} {capacity : Nat} {bytes : Bytes} {turn : Turn}
  {listener : Listener σ} {state : σ} {input : Input}

theorem TurnCase.caused (h : r.TurnCase capacity b bytes turn) (more : r.stage.isComplete = false)
    (listener : Listener σ) (state : σ) :
    Group.Caused ⟨r, b :: bytes.take turn.extra, listener.tellings state turn.step⟩ := by
  have events := listener.tellings_events state turn.step
  have faults := listener.tellings_faults state turn.step
  cases h with
  | octet | onward | lineEnd | chunkEnd => exact .octet (List.nil_append _).symm rfl events faults
  | known => exact .nothing rfl
  | slice => exact .slice rfl
  | @line s t n ending quiet inside glides found fine =>
    have first : r.advance false capacity b = .quiet s := by
      rw [advance_of_fine more (by rw [quiet]; rfl) (by rw [quiet]; exact ne_of_inHead inside),
        quiet]
    have split : b :: bytes.take (n + 1) = (b :: bytes.take n) ++ ending :: [] := by
      simp [List.take_add_one, found]
    exact .octet split (by rw [run, first, Step.quiet_andThen, glides.run]) events faults

/-- A reading tells its groups in order, and is stopped if one of the callbacks halts it. -/
theorem read_groups (log : List Callback) :
    (r.read listener.noted (state, log) input).state.2 =
        log ++ (r.groups listener state input).flatMap Group.told ∧
      (r.read listener.noted (state, log) input).stopped =
        ((r.groups listener state input).flatMap Group.told).any Callback.halts := by
  -- On the groups; what was told before them stays in front, so the log is arbitrary.
  fun_induction groups r listener state input generalizing log with
  | case1 r state input finished => simp [read_done finished]
  | case2 r state input finished => simp [read_closed finished]
  | case3 r state input full =>
    rw [read_full full]
    simp [Listener.noted, Listener.answers, Callback.halts]
  | case4 r state input none busy open_ partial_ =>
    simp [read_nothing ⟨busy, open_, partial_⟩ none]
  | case5 r state input b tail later found turn octets group heard stop told halted busy open_
      partial_ =>
    have reads : r.Reads := ⟨busy, open_, partial_⟩
    have noted : listener.noted.hear (state, log) turn.step.events =
        ((heard, log ++ listener.answers state turn.step.events), stop) := by
      rw [Listener.hear_noted, told]
    have halts : group.told.any Callback.halts = true := by
      rw [Listener.tellings_halts, told]
      exact halted
    rw [List.flatMap_singleton, halts]
    cases wrong : turn.step.fault with
    | some fault =>
      rw [read_fault reads found rfl noted wrong]
      simp [group, Listener.tellings, Listener.noted, wrong]
    | none =>
      have stops : stop = true := by simpa [wrong] using halted
      rw [read_stop reads found rfl noted wrong stops]
      simp [group, Listener.tellings, wrong]
  | case6 r state input b tail later found turn octets group heard stop told goes busy open_
      partial_ ih =>
    have reads : r.Reads := ⟨busy, open_, partial_⟩
    have noted : listener.noted.hear (state, log) turn.step.events =
        ((heard, log ++ listener.answers state turn.step.events), stop) := by
      rw [Listener.hear_noted, told]
    have quiet : group.told.any Callback.halts = false := by
      rw [Listener.tellings_halts, told]
      simpa using goes
    obtain ⟨fine, on⟩ : turn.step.fault = none ∧ stop = false := by simpa using goes
    obtain ⟨state', stopped⟩ := ih (log ++ listener.answers state turn.step.events)
    rw [read_onward reads found rfl noted fine on, List.flatMap_cons, List.any_append, quiet,
      Bool.false_or]
    refine ⟨state'.trans ?_, stopped⟩
    simp only [group, Listener.tellings, fine, Option.toList_none, List.map_nil, List.append_nil,
      List.append_assoc]

theorem groups_caused (sound : r.Sound) (listener : Listener σ) (state : σ) (input : Input) :
    ∀ group ∈ r.groups listener state input, group.Caused := by
  fun_induction groups r listener state input with
  | case1 | case2 | case4 => simp
  | case3 r state input full =>
    intro group member
    obtain rfl := List.mem_singleton.mp member
    exact .ending full rfl rfl
  | case5 r state input b tail later found turn octets group heard stop told halted busy open_
      partial_ =>
    have cause : r.TurnCase _ b (tail :: later).flatten turn := turn_cases sound
    intro other member
    obtain rfl := List.mem_singleton.mp member
    exact cause.caused (Stage.isComplete_eq_false busy open_) listener state
  | case6 r state input b tail later found turn octets group heard stop told goes busy open_
      partial_ ih =>
    have cause : r.TurnCase _ b (tail :: later).flatten turn := turn_cases sound
    intro other member
    rcases List.mem_cons.mp member with rfl | later
    · exact cause.caused (Stage.isComplete_eq_false busy open_) listener state
    · exact ih (cause.sound sound) other later

theorem groups_octets (r : Reader) (listener : Listener σ) (state : σ) (input : Input) :
    (r.groups listener state input).flatMap Group.octets <+: input.flatten := by
  fun_induction groups r listener state input with
  | case1 | case2 | case3 | case4 => exact List.nil_prefix
  | case5 r state input b tail later found turn octets group =>
    rw [List.flatMap_singleton, Input.flatten_of_next? found]
    exact List.cons_prefix_cons.mpr ⟨rfl, List.take_prefix _ _⟩
  | case6 r state input b tail later found turn octets group heard stop told goes busy open_
      partial_ ih =>
    have whole : input.flatten = octets ++ (tail :: later).flatten.drop turn.extra := by
      rw [Input.flatten_of_next? found, List.cons_append, List.take_append_drop]
    rw [Input.flatten_drop] at ih
    rw [List.flatMap_cons, whole]
    exact (List.prefix_append_right_inj octets).mpr ih

/-- No group but the last one halts the reading. -/
theorem groups_quiet (r : Reader) (listener : Listener σ) (state : σ) (input : Input) :
    ∀ group ∈ (r.groups listener state input).dropLast, group.told.any Callback.halts = false := by
  fun_induction groups r listener state input with
  | case1 | case2 | case3 | case4 | case5 => simp
  | case6 r state input b tail later found turn octets group heard stop told goes busy open_
      partial_ ih =>
    have quiet : group.told.any Callback.halts = false := by
      rw [Listener.tellings_halts, told]
      simpa using goes
    generalize turn.step.reader.groups listener heard (Input.drop turn.extra (tail :: later)) = rest
      at ih ⊢
    intro other member
    cases rest with
    | nil => cases member
    | cons next rest =>
      rw [List.dropLast_cons_cons] at member
      rcases List.mem_cons.mp member with rfl | later
      · exact quiet
      · exact ih other later

theorem told_after_halt {groups : List Group} {before after : List Callback} {callback : Callback}
    (quiet : ∀ group ∈ groups.dropLast, group.told.any Callback.halts = false)
    (told : groups.flatMap Group.told = before ++ callback :: after)
    (halts : callback.halts = true) :
    ∃ group ∈ groups.getLast?, ∃ earlier, group.told = earlier ++ callback :: after := by
  rcases List.eq_nil_or_concat groups with rfl | ⟨front, group, rfl⟩
  · simp at told
  · rw [List.concat_eq_append] at quiet told ⊢
    rw [List.dropLast_concat] at quiet
    rw [List.flatMap_append, List.flatMap_singleton] at told
    refine ⟨group, by simp, ?_⟩
    rcases List.append_eq_append_iff.mp told with ⟨earlier, _, split⟩ | ⟨more, split, tail⟩
    · exact ⟨earlier, split⟩
    · cases more with
      | nil => exact ⟨[], tail.symm⟩
      | cons first more =>
        -- The callback would belong to a group before the last one.
        obtain rfl : callback = first := (List.cons.inj tail).1
        have member : callback ∈ front.flatMap Group.told := by
          rw [split]
          exact List.mem_append_right _ List.mem_cons_self
        obtain ⟨other, inside, told⟩ := List.mem_flatMap.mp member
        have calm := quiet other inside
        rw [List.any_eq_false] at calm
        exact absurd halts (calm callback told)

end Reader
end HttpStream
