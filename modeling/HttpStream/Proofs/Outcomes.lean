import HttpStream.Proofs.BodyFraming
import HttpStream.Proofs.FieldSections

/-! What a message comes to where its fields end, whatever fragments it arrives in: the fault that
is found in them, or the framing that they decide on. -/

set_option autoImplicit false

namespace HttpStream

open Octet

structure FieldSection where
  lines : List RawLine
  blank : LineEnd
  fields : List NamedField
  spells : NamedField.ofLines? (lines.map RawLine.text) = some fields

def FieldSection.wire (block : FieldSection) : Bytes :=
  block.lines.flatMap RawLine.wire ++ block.blank.wire

def FieldSection.around {lines after : List RawLine} {fields later : List NamedField}
    (spelled : NamedField.ofLines? (lines.map RawLine.text) = some fields) (line : RawLine)
    (begins : Text.continues line.text = false)
    (spells : NamedField.ofLines? (after.map RawLine.text) = some later) (blank : LineEnd) :
    FieldSection where
  lines := lines ++ line :: after
  blank
  fields := fields ++ NamedField.ofLine line.text :: later
  spells := by
    have single : NamedField.ofLines? [line.text] = some [NamedField.ofLine line.text] := by
      simp [NamedField.ofLines?, begins, NamedField.onward]
    rw [List.map_append]
    exact NamedField.ofLines?_append spelled (NamedField.ofLines?_append single spells)

def outcome (fed : Reader × Recorder × Nat) : Except Fault Framing :=
  match fed.2.1.fault with
  | some fault => .error fault
  | none => .ok fed.1.framing

def Framing.judged (head : Head) (asked : Bool) (fields : List NamedField) :
    Except Fault Framing :=
  match (tellFields head asked [] fields).2 with
  | some fault => .error fault
  | none => .ok (.decided asked head.status? fields)

namespace Reader

/-- A start line that a reader at the start of a message takes, told where its end begins. -/
structure StartLine (r : Reader) (memoryCapacity : Option Nat) where
  head : Head
  event : Event
  octets : Bytes
  ending : LineEnd
  known : event.head? = some head
  quiet : (r.feedAll (Recorder.listener { memoryCapacity }) {} [[octets]]).2.1.events = []
  told : (r.feedAll (Recorder.listener { memoryCapacity }) {}
    [[octets ++ [ending.first]]]).2.1.events = [event]

variable {asked : Bool} {r : Reader} {events : List Event}

def StartLine.wire {memoryCapacity : Option Nat} (first : r.StartLine memoryCapacity) : Bytes :=
  first.octets ++ first.ending.wire

/-! The decision, over runs. -/

theorem Step.andThen_carries {P : Reader → List Event → Prop} {step : Step} {next : Reader → Step}
    (first : P step.reader (events ++ step.events))
    (onward : ∀ s more, P s more → P (next s).reader (more ++ (next s).events)) :
    P (step.andThen next).reader (events ++ (step.andThen next).events) := by
  unfold Step.andThen
  split
  · exact first
  · rw [← List.append_assoc]
    exact onward _ _ first

theorem Decides.shut {step : Step} (h : Decides asked step.reader events) :
    Decides asked step.shut.reader events := by
  unfold Step.shut
  split
  · have ended : Decides asked (step.reader.enter .closed) (events ++ []) :=
      h.ends rfl (List.forall_mem_nil _)
    rwa [List.append_nil] at ended
  · exact h

theorem Decides.settle (h : Decides asked r events) :
    Decides asked r.settle.reader (events ++ r.settle.events) := by
  unfold Reader.settle
  split
  · exact h.ends rfl (by simp [Event.isLate])
  · rwa [Step.quiet, List.append_nil]

theorem Decides.advance (h : Decides asked r events) (sound : r.Sound) (capacity : Nat)
    (b : UInt8) : Decides asked (r.advance false capacity b).reader
      (events ++ (r.advance false capacity b).events) := by
  rw [advance_alone]
  split
  · rwa [Step.quiet, List.append_nil]
  · have pushed : Decides asked (r.push capacity b).reader
        (events ++ (r.push capacity b).events) := push_decides sound h
    have shut := pushed.shut
    rw [← Step.events_shut] at shut
    exact Step.andThen_carries shut fun _ _ => Decides.settle

theorem Decides.run (h : Decides asked r events) (sound : r.Sound) (capacity : Nat)
    (bytes : Bytes) : Decides asked (r.run false capacity bytes).reader
      (events ++ (r.run false capacity bytes).events) := by
  induction bytes generalizing r events with
  | nil => rwa [Reader.run, Step.quiet, List.append_nil]
  | cons b rest ih =>
    have first := And.intro (sound.advance false capacity b) (h.advance sound capacity b)
    exact (Step.andThen_carries (P := fun s events => s.Sound ∧ Decides asked s events) first
      fun s more known => ⟨known.1.run false capacity rest, ih known.2 known.1⟩).2

end Reader

/-! What is told of fields, and what they decide. -/

theorem Event.status_append (events more : List Event) :
    status (events ++ more) = (status events).or (status more) := List.findSome?_append

structure TellsOnly (fields : List NamedField) (events : List Event) : Prop where
  fields : Event.fields events = fields
  status : Event.status events = none
  going : .headerComplete ∉ events

variable {head : Head} {asked : Bool} {before fields later : List NamedField} {field : NamedField}
  {events more : List Event}

theorem TellsOnly.nothing : TellsOnly [] [] := ⟨rfl, rfl, List.not_mem_nil⟩

theorem TellsOnly.append (first : TellsOnly fields events) (second : TellsOnly later more) :
    TellsOnly (fields ++ later) (events ++ more) where
  fields := by rw [Event.fields_append, first.fields, second.fields]
  status := by rw [Event.status_append, first.status, second.status]; rfl
  going := by simp [first.going, second.going]

theorem tellField_tellsOnly {mode : Mode} (told : tellField mode before field = .ok events) :
    TellsOnly [field] events := by
  obtain rfl | ⟨host, port, rfl⟩ := tellField_ok told <;> exact ⟨rfl, rfl, by simp⟩

theorem tellEach_tellsOnly {mode : Mode} (fine : (tellEach mode before fields).2 = none) :
    TellsOnly fields (tellEach mode before fields).1 := by
  induction fields generalizing before with
  | nil => exact .nothing
  | cons field rest ih =>
    rw [tellEach] at fine ⊢
    cases told : tellField mode before field with
    | error fault => simp [told] at fine
    | ok events =>
      rw [told] at fine
      exact (tellField_tellsOnly told).append (ih fine)

theorem tellBlank_cases (head : Head) (asked : Bool) (fields : List NamedField) :
    tellBlank head asked fields = ([], some .noHost) ∨
      ∃ events, tellBlank head asked fields = (events, none) ∧ Event.fields events = [] ∧
        Event.status events = none ∧ .headerComplete ∈ events := by
  unfold tellBlank
  repeat' split
  all_goals first | exact .inl rfl | exact .inr ⟨_, rfl, rfl, rfl, List.mem_cons_self⟩

theorem tellFields_fine (fine : (tellFields head asked before fields).2 = none) :
    Event.fields (tellFields head asked before fields).1 = fields ∧
      Event.status (tellFields head asked before fields).1 = none ∧
      .headerComplete ∈ (tellFields head asked before fields).1 := by
  have whole : tellFields head asked before (fields ++ []) = _ := tellFields_append fields []
  rw [List.append_nil] at whole
  rw [whole] at fine ⊢
  cases wrong : (tellEach head.side before fields).2 with
  | some fault => simp [wrong] at fine
  | none =>
    have each := tellEach_tellsOnly wrong
    simp only [wrong, tellFields] at fine ⊢
    rcases tellBlank_cases head asked (before ++ fields) with
      blank | ⟨late, blank, silent, code, past⟩
    · simp [blank] at fine
    · rw [blank]
      refine ⟨?_, ?_, List.mem_append_right _ past⟩
      · rw [Event.fields_append, each.fields, silent, List.append_nil]
      · rw [Event.status_append, each.status, code]
        rfl

theorem Event.of_head? {event : Event} (known : event.head? = some head) :
    event.hasVersion = true ∧ event.status? = head.status? ∧ event.field? = none := by
  cases event with
  | requestLine _ _ version => cases version <;> cases known; exact ⟨rfl, rfl, rfl⟩
  | statusLine => cases known; exact ⟨rfl, rfl, rfl⟩
  | _ => cases known

theorem Event.opened {start : Event} (known : start.head? = some head)
    (status : Event.status more = none) :
    Event.fields (start :: more) = Event.fields more ∧
      Event.status (start :: more) = head.status? ∧
      (start :: more).any Event.hasVersion = true := by
  obtain ⟨version, code, line⟩ := Event.of_head? known
  refine ⟨by rw [Event.fields, List.filterMap_cons_none line]; rfl, ?_, by simp [version]⟩
  rw [Event.status, List.findSome?_cons, code]
  cases head.status? with
  | none => exact status
  | some => rfl

namespace Reader

variable {r : Reader} {memoryCapacity : Option Nat}

theorem Spares.mono {m n : Nat} (h : r.Spares n) (less : m ≤ n) : r.Spares m :=
  h.imp id fun within => Nat.le_trans (Nat.add_le_add_left less _) within

theorem Decides.fresh (opening : r.Opening) : Decides r.headResponse r [] where
  undecided := ⟨opening.coded, fun _ => rfl, by simp [Stage.head?_of_inStartLine opening.line]⟩
  flag _ := rfl
  heeded _ := .nothing opening.framing opening.contentLength
  counted := .nothing opening.contentLength
  settled := nofun

theorem StartLine.noContent (first : r.StartLine memoryCapacity) (bytes : Bytes) :
    Event.content bytes ≠ first.event := by
  intro same
  have known := first.known
  rw [← same] at known
  cases known

theorem StartLine.run_opened (first : r.StartLine memoryCapacity) (opening : r.Opening)
    (spared : r.Spares first.wire.length) :
    ∃ s, (r.under 0).run false 0 first.wire = { reader := s, events := [first.event] } ∧
      s.Between first.head r.headResponse [] none ∧
      ∀ status ∈ first.head.status?, 100 ≤ status := by
  have opening' : (r.under 0).Opening :=
    ⟨opening.sound.under 0, opening.line, opening.coded, opening.framing, opening.contentLength⟩
  obtain ⟨rest, wire, _⟩ := first.ending.wire_eq
  have quiet := run_of_told memoryCapacity opening (spared.mono (by simp [StartLine.wire]))
    first.quiet fun _ => List.not_mem_nil
  have started := run_of_told memoryCapacity opening
    (spared.mono (by simp [StartLine.wire, wire])) first.told
    fun bytes member => first.noContent bytes (List.mem_singleton.mp member)
  exact opening'.run_between 0 rfl quiet started first.known

/-- The octets of a message up to the blank line after its fields, one by one and without a
limit. -/
theorem StartLine.run (first : r.StartLine memoryCapacity) (opening : r.Opening)
    (block : FieldSection) (spared : r.Spares (first.wire ++ block.wire).length) :
    let told := tellFields first.head r.headResponse [] block.fields
    ∃ s, (r.under 0).run false 0 (first.wire ++ block.wire) =
      { reader := s, events := first.event :: told.1, fault := told.2 } := by
  intro told
  obtain ⟨s, opened, between, coded⟩ := first.run_opened opening (spared.mono (by simp))
  obtain ⟨t, lines⟩ := between.run_section 0 coded block.blank block.lines
  have spells : tellLines first.head r.headResponse (block.lines.map RawLine.text) = told := by
    simp only [tellLines, block.spells, told]
  refine ⟨t, (run_events_append opened _ lines).trans ?_⟩
  rw [spells]
  rfl

/-- Fragments that the limit spares come to the framing, and to the length, of their octets. -/
theorem framing_spared (memoryCapacity : Option Nat) (fragments : List Input)
    (opening : r.Opening) (spared : r.Spares fragments.flatten.flatten.length) :
    let fed := r.feedAll (Recorder.listener { memoryCapacity }) {} fragments
    let step := (r.under 0).run false 0 fragments.flatten.flatten
    fed.1.framing = step.reader.framing ∧ fed.1.contentLength = step.reader.contentLength := by
  intro fed step
  have waits : r.stage ≠ .content 0 := ne_of_inHead (Stage.inHead_of_inStartLine opening.line)
  obtain ⟨step', alike, _, reader, _⟩ :=
    feedAll_spared memoryCapacity fragments opening.sound waits spared
  rw [show fed.1 = _ from reader]
  have blurred := alike.reader.blurred
  exact ⟨(congrArg Reader.framing blurred :), (congrArg Reader.contentLength blurred :)⟩

/-- A message up to the blank line after its fields, in any fragments within the limit: the fields
are told up to the first one with something wrong about it, and they decide the framing if there is
none. -/
theorem StartLine.fed (first : r.StartLine memoryCapacity) (opening : r.Opening)
    (block : FieldSection) (fragments : List Input)
    (spelled : fragments.flatten.flatten = first.wire ++ block.wire)
    (spared : r.Spares fragments.flatten.flatten.length) :
    let fed := r.feedAll (Recorder.listener { memoryCapacity }) {} fragments
    let told := tellFields first.head r.headResponse [] block.fields
    fed.2.1.events = first.event :: told.1 ∧ fed.2.1.fault = told.2 ∧
      (told.2 = none → fed.1.framing =
        Framing.decided r.headResponse first.head.status? block.fields) := by
  intro fed told
  obtain ⟨s, run⟩ := first.run opening block (spelled ▸ spared)
  obtain ⟨events, fault⟩ := told_spared memoryCapacity fragments opening spared
  have twin := (framing_spared memoryCapacity fragments opening spared).1
  have decides := (Decides.fresh opening).of_eq (s := r.under 0) rfl rfl rfl rfl
  have decides := decides.run (opening.sound.under 0) 0 (first.wire ++ block.wire)
  rw [spelled, run] at events fault twin
  rw [run] at decides
  refine ⟨?_, fault, fun fine => ?_⟩
  · refine Event.eq_of_joined_eq events fun bytes member => ?_
    rcases List.mem_cons.mp member with same | later
    · exact first.noContent bytes same
    · exact tellFields_noContent bytes later
  · obtain ⟨fields, status, past⟩ := tellFields_fine fine
    obtain ⟨fields', status', version⟩ := Event.opened first.known status
    have settled := decides.settled (List.mem_cons_of_mem _ past) version
    rw [show fed.1.framing = _ from twin, settled.framing]
    simp only [List.nil_append]
    rw [fields', fields, status']

theorem StartLine.outcome (first : r.StartLine memoryCapacity) (opening : r.Opening)
    (block : FieldSection) (fragments : List Input)
    (spelled : fragments.flatten.flatten = first.wire ++ block.wire)
    (spared : r.Spares fragments.flatten.flatten.length) :
    HttpStream.outcome (r.feedAll (Recorder.listener { memoryCapacity }) {} fragments) =
      Framing.judged first.head r.headResponse block.fields := by
  obtain ⟨_, fault, framing⟩ := first.fed opening block fragments spelled spared
  unfold HttpStream.outcome Framing.judged
  rw [fault]
  cases wrong : (tellFields first.head r.headResponse [] block.fields).2 with
  | some => rfl
  | none => simp only [framing wrong]

theorem spares_reset {σ : Type} {mode : Mode} {settings : Settings} {n : Nat} (early : Listener σ)
    (state : σ) (before : List Call)
    (within : settings.headerLimit = 0 ∨ n ≤ settings.headerLimit) :
    (Reader.through { mode, settings } early state before).1.reset.Spares n := by
  obtain ⟨_, same⟩ := through_connection (.fresh mode settings) early state before
  have none : (Reader.through { mode, settings } early state before).1.reset.headerBytes = 0 := rfl
  have same : (Reader.through { mode, settings } early state before).1.reset.settings = settings :=
    same
  rw [Spares, same, none, Nat.zero_add]
  exact within

end Reader
end HttpStream
