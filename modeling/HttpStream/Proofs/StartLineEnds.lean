import HttpStream.Proofs.Openings
import HttpStream.Proofs.Stops

/-! Where a start line ends. The stages of it do not agree on that: a version and a reason go on to
the end of their line, but the target of a request and the code of a response end the line at any
control octet, and what stands behind it is read as fields, or as the next message. -/

set_option autoImplicit false

namespace HttpStream

open Octet

def Stage.endsAt : Stage → UInt8 → Bool
  | .uri _, b => isControl b
  | .afterUri _, b | .afterStatus _ _, b => isControl b && !isBlank b
  | .status _ value digits, b => Reader.isStatus value digits && isControl b
  | .requestVersion _ token, b => isLineEnd b && (Version.ofText? token.toList).isSome
  | .reason _ _ _, b => isLineEnd b
  | _, _ => false

namespace Event

def isStartLine : Event → Bool
  | .requestLine .. | .statusLine .. => true
  | _ => false

/-- Whether an octet may end the start line that is told: behind a version, or a reason, only a line
end does. -/
def endedBy : Event → UInt8 → Bool
  | .requestLine _ _ (some _), b | .statusLine _ _ (some _), b => isLineEnd b
  | .requestLine _ _ none, b | .statusLine _ _ none, b => isControl b
  | _, _ => false

def next (event : Event) : Stage :=
  match event.head? with
  | some head => .lineStart head none
  | none => .done

end Event

/-- The octet ends the start line that is told, whatever follows it. -/
structure EndsStartLine (b : UInt8) (step : Step) (event : Event) : Prop where
  told : step.events.filter Event.isStartLine = [event]
  octet : event.endedBy b = true
  next : step.reader.stage = event.next

theorem EndsStartLine.isControl {b : UInt8} {step : Step} {event : Event}
    (h : EndsStartLine b step event) : isControl b = true := by
  have line : isLineEnd b = true → Octet.isControl b = true := by
    simp only [isLineEnd, Octet.isControl, Bool.or_eq_true, beq_iff_eq, decide_eq_true_eq]
    rintro (rfl | rfl) <;> decide
  have octet := h.octet
  cases event with
  | requestLine _ _ version => cases version <;> first | exact octet | exact line octet
  | statusLine _ _ reason => cases reason <;> first | exact octet | exact line octet
  | _ => cases octet

inductive Ends (b : UInt8) (step : Step) : Bool → Prop where
  | told {event : Event} (ending : EndsStartLine b step event) : Ends b step true
  | silent (nothing : step.events.filter Event.isStartLine = []) : Ends b step false

theorem Octet.isControl_sp : isControl sp = false := by decide

theorem Octet.isControl_of_isDigit {b : UInt8} (digit : isDigit b = true) :
    isControl b = false := by
  simp only [isDigit, isControl, sp, Bool.and_eq_true, decide_eq_true_eq, decide_eq_false_iff_not,
    UInt8.lt_iff_toNat_lt, UInt8.le_iff_toNat_le] at digit ⊢
  exact fun control => by simp at digit control; omega

theorem Stage.inStartLine_of_endsAt {stage : Stage} {b : UInt8} (ends : stage.endsAt b = true) :
    stage.inStartLine = true := by
  cases stage <;> first | rfl | cases ends

namespace Reader

variable {r : Reader} {capacity : Nat} {b : UInt8}

/-! Each stage that can end the line has its own test; the others tell nothing. -/

theorem shortRequest_ends (r : Reader) (method : Method) (control : isControl b = true) :
    Ends b (r.shortRequest method b) true := .told ⟨rfl, control, rfl⟩

theorem pushUri_ends (r : Reader) (method : Method) (b : UInt8) :
    Ends b (r.pushUri method b) (isControl b) := by
  unfold pushUri
  by_cases space : b = sp
  · rw [if_pos space, space, isControl_sp]
    exact .silent rfl
  · rw [if_neg space]
    cases control : isControl b with
    | true => exact r.shortRequest_ends method control
    | false => exact .silent rfl

theorem pushAfterUri_ends (r : Reader) (method : Method) (b : UInt8) :
    Ends b (r.pushAfterUri method b) (isControl b && !isBlank b) := by
  unfold pushAfterUri
  cases blank : isBlank b with
  | true =>
    rw [Bool.not_true, Bool.and_false]
    exact .silent rfl
  | false =>
    cases control : isControl b with
    | true => exact r.shortRequest_ends method control
    | false => exact .silent rfl

theorem pushRequestVersion_ends (r : Reader) (capacity : Nat) (method : Method) (token : Snoc Char)
    (b : UInt8) : Ends b (r.pushRequestVersion capacity method token b)
      (isLineEnd b && (Version.ofText? token.toList).isSome) := by
  unfold pushRequestVersion
  cases ending : isLineEnd b with
  | false => exact .silent rfl
  | true =>
    cases Version.ofText? token.toList with
    | none => exact .silent rfl
    | some version => exact .told ⟨rfl, ending, rfl⟩

theorem pushStatus_ends (r : Reader) (version : Version) (value digits : Nat) (b : UInt8) :
    Ends b (r.pushStatus version value digits b) (isStatus value digits && isControl b) := by
  unfold pushStatus
  cases digit : isDigit b with
  | true =>
    rw [isControl_of_isDigit digit, Bool.and_false, if_pos rfl]
    split <;> exact .silent rfl
  | false =>
    cases isStatus value digits with
    | false => exact .silent rfl
    | true =>
      by_cases space : b = sp
      · subst space
        exact .silent rfl
      · cases control : isControl b with
        | false =>
          simp only [Bool.not_true, Bool.false_eq_true, space, if_false]
          exact .silent rfl
        | true =>
          simp only [Bool.not_true, Bool.false_eq_true, space, if_false]
          exact .told ⟨rfl, control, rfl⟩

theorem pushAfterStatus_ends (r : Reader) (version : Version) (value : Nat) (b : UInt8) :
    Ends b (r.pushAfterStatus version value b) (isControl b && !isBlank b) := by
  unfold pushAfterStatus
  cases blank : isBlank b with
  | true =>
    rw [Bool.not_true, Bool.and_false]
    exact .silent rfl
  | false =>
    cases control : isControl b with
    | true => exact .told ⟨rfl, control, rfl⟩
    | false => exact .silent rfl

theorem pushReason_ends (r : Reader) (version : Version) (value : Nat) (token : Snoc Char)
    (b : UInt8) : Ends b (r.pushReason version value token b) (isLineEnd b) := by
  unfold pushReason
  cases ending : isLineEnd b with
  | true => exact .told ⟨rfl, ending, rfl⟩
  | false => exact .silent rfl

theorem interpret_ends (line : r.stage.inStartLine = true) (capacity : Nat) (b : UInt8) :
    Ends b (r.interpret capacity b) (r.stage.endsAt b) := by
  cases stage : r.stage <;> simp only [interpret, stage]
  case uri method => exact r.pushUri_ends method b
  case afterUri method => exact r.pushAfterUri_ends method b
  case requestVersion method token => exact r.pushRequestVersion_ends capacity method token b
  case status version value digits => exact r.pushStatus_ends version value digits b
  case afterStatus version value => exact r.pushAfterStatus_ends version value b
  case reason version value token => exact r.pushReason_ends version value token b
  case start | method | beforeUri | responseVersion | beforeStatus =>
    refine .silent ?_
    simp only [pushStart, pushMethod, pushBeforeUri, pushResponseVersion, pushBeforeStatus]
    repeat' split
    all_goals rfl
  all_goals simp [stage, Stage.inStartLine] at line

theorem Delivery.tells_no_start {mode : Mode} {pending : Option Field} {events : List Event}
    (h : Delivery mode pending events) : events.filter Event.isStartLine = [] := by
  cases h <;> rfl

theorem FieldStep.tells_no_start {step : Step} (h : r.FieldStep b step) :
    step.events.filter Event.isStartLine = [] := by
  cases h with
  | inside | fault => rfl
  | field _ _ delivered => exact (flush_ok delivered).2.2.2.tells_no_start
  | @blank flushed _ after _ _ _ _ delivered =>
    rw [List.filter_append, (flush_ok delivered).2.2.2.tells_no_start, List.nil_append]
    rcases (flushed.endLine b).endFields_cases after with fault | ⟨stage, more, ended, begins⟩
    · rw [fault]
      rfl
    · rw [ended]
      cases begins <;> rfl

theorem tells_no_start_of_late {events : List Event}
    (late : ∀ event ∈ events, event.isLate = true) : events.filter Event.isStartLine = [] := by
  refine List.filter_eq_nil_iff.mpr fun event member => ?_
  have one := late event member
  cases event <;> simp [Event.isLate, Event.isStartLine] at one ⊢

theorem push_tells_no_start (sound : r.Sound) (outside : r.stage.inStartLine = false)
    (capacity : Nat) (b : UInt8) : (r.push capacity b).events.filter Event.isStartLine = [] := by
  have push := push_cases sound capacity (b := b)
  generalize r.push capacity b = step at push
  cases push with
  | limit | lineRest | idle => rfl
  | startLine _ line => simp [line] at outside
  | fields _ _ cause => exact cause.tells_no_start
  | body _ _ cause => exact tells_no_start_of_late cause.late

/-- Whether an octet ends the start line that is read: it does not end the line before, there is
room for it, and it is one of those that end a line at this stage. -/
def endsStartLine (r : Reader) (b : UInt8) : Bool :=
  r.stage.endsAt b && !r.isLineRest b && r.count.limitFault?.isNone

theorem push_endsStartLine (sound : r.Sound) (capacity : Nat) (b : UInt8) :
    Ends b (r.push capacity b) (r.endsStartLine b) := by
  cases line : r.stage.inStartLine with
  | false =>
    have never : r.endsStartLine b = false := by
      cases ends : r.stage.endsAt b with
      | true => simp [Stage.inStartLine_of_endsAt ends] at line
      | false => simp [endsStartLine, ends]
    rw [never]
    exact .silent (push_tells_no_start sound line capacity b)
  | true =>
    have counted : r.stage.isCounted = true :=
      Stage.isCounted_of_inHead (Stage.inHead_of_inStartLine line)
    simp only [push, counted, if_true, endsStartLine]
    -- An octet over the limit ends nothing, and neither does the rest of a line end.
    cases limit : r.count.limitFault? with
    | some fault =>
      rw [Option.isNone_some, Bool.and_false]
      exact .silent rfl
    | none =>
      have same : r.count.isLineRest b = r.isLineRest b := rfl
      cases rest : r.isLineRest b with
      | true =>
        rw [accept, same, rest, Bool.not_true, Bool.and_false]
        exact .silent rfl
      | false =>
        have ends := interpret_ends (r := { r.count with afterCr := false }) line capacity b
        simpa [accept, same, rest] using ends

variable {σ : Type} {listener : Listener σ} {state : σ} {input : Input}

theorem groups_sound (sound : r.Sound) (listener : Listener σ) (state : σ) (input : Input) :
    ∀ group ∈ r.groups listener state input, group.reader.Sound := by
  fun_induction groups r listener state input with
  | case1 | case2 | case4 => simp
  | case3 | case5 =>
    intro group member
    obtain rfl := List.mem_singleton.mp member
    exact sound
  | case6 r state input b tail later found turn octets group heard stop told goes busy open_
      partial_ ih =>
    intro other member
    rcases List.mem_cons.mp member with rfl | later
    · exact sound
    · exact ih (sound.turn ..) other later

end Reader

/-- A start line that is told of octets read in one go is told of the one that ends it. -/
theorem Group.Caused.ends {group : Group} (h : group.Caused) (sound : group.reader.Sound)
    {event : Event} (told : event ∈ group.events) (start : event.isStartLine = true) :
    ∃ s capacity before b after, group.octets = before ++ b :: after ∧
      group.reader.run false capacity before = .quiet s ∧
      group.events = (s.push capacity b).events ∧ s.endsStartLine b = true ∧
      EndsStartLine b (s.push capacity b) event := by
  cases h with
  | nothing silent => simp [Group.events, silent] at told
  | slice one =>
    rw [Group.events, one, List.filterMap_cons] at told
    obtain rfl := List.mem_singleton.mp told
    cases start
  | ending _ _ one =>
    rw [Group.events, one] at told
    obtain rfl := List.mem_singleton.mp told
    cases start
  -- Octets that are not taken in slices are told of one by one: it is `b` that has it told.
  | @octet capacity before after b s split reached events faults =>
    have sound' : s.Sound := by
      have ran := sound.run false capacity before
      rwa [reached] at ran
    have found : event ∈ (s.push capacity b).events.filter Event.isStartLine :=
      List.mem_filter.mpr ⟨events ▸ told, start⟩
    have ends := Reader.push_endsStartLine sound' capacity b
    generalize line : s.endsStartLine b = ended at ends
    cases ends with
    | silent nothing =>
      rw [nothing] at found
      cases found
    | told ending =>
      rw [ending.told] at found
      obtain rfl := List.mem_singleton.mp found
      exact ⟨s, capacity, before, b, after, split, reached, events, line, ending⟩

namespace Reader

variable {σ : Type}

/-- Whoever listens to a connection, however its octets arrive and whatever was asked of it before:
a start line ends at an octet that ends lines at its stage, and at each of those. That is a line end
if the line has a version and a response has a reason; else it is any control octet, and behind it,
on the same line, come the fields or the next message. -/
theorem start_lines_end (mode : Mode) (settings : Settings) (listener : Listener σ) (start : σ)
    (before : List Call) (input : Input) :
    let r := (Reader.through { mode, settings } listener start before).1
    let state := (Reader.through { mode, settings } listener start before).2
    let reading := r.read listener.noted (state, []) input
    let groups := r.groups listener state input
    (reading.state.2 = groups.flatMap Group.told ∧
      groups.flatMap Group.octets <+: input.flatten) ∧
    (∀ group ∈ groups, ∀ event ∈ group.events, event.isStartLine = true →
      ∃ s capacity earlier b after, group.octets = earlier ++ b :: after ∧
        group.reader.run false capacity earlier = .quiet s ∧
        group.events = (s.push capacity b).events ∧ s.endsStartLine b = true ∧
        isControl b = true ∧ EndsStartLine b (s.push capacity b) event) ∧
    ∀ capacity b, r.endsStartLine b = true ↔
      ∃ event, EndsStartLine b (r.push capacity b) event := by
  intro r state reading groups
  have sound : r.Sound := (Sound.fresh mode settings).through listener start before
  refine ⟨⟨(read_groups []).1, groups_octets r listener state input⟩, ?_, fun capacity b => ?_⟩
  · intro group member event told line
    have caused := groups_caused sound listener state input group member
    obtain ⟨s, capacity, earlier, b, after, split, reached, events, ends, ending⟩ :=
      caused.ends (groups_sound sound listener state input group member) told line
    exact ⟨s, capacity, earlier, b, after, split, reached, events, ends, ending.isControl, ending⟩
  · have ends := push_endsStartLine sound capacity b
    generalize r.endsStartLine b = ended at ends
    cases ends with
    | told ending => exact ⟨fun _ => ⟨_, ending⟩, fun _ => rfl⟩
    | silent nothing =>
      refine ⟨nofun, fun ⟨event, ending⟩ => ?_⟩
      have told := ending.told
      rw [nothing] at told
      cases told

/-- A tab behind the target of a request has it told as a whole message, with the line still going
on, and what stands on its line behind the code of a response and a null octet is a field. -/
theorem start_lines_end_inside :
    let read (mode : Mode) (text : String) :=
      (Reader.read { mode } (Recorder.listener {}) {} [Text.toBytes text.toList]).state
    (read .request "GET /a").events = [] ∧
      (read .request "GET /a\tb HTTP/1.1\r\n").events.map Event.kind =
        [.requestLine, .headerComplete, .messageComplete] ∧
      (read .response "HTTP/1.1 200\x00X: 1\r\n\r\n").events =
        [.statusLine .http11 200 none, .header "X".toList "1".toList, .headerComplete] := by
  decide +kernel

end Reader
end HttpStream
