import HttpStream.Proofs.Decision

/-! A reader keeps to the decision: up to the end of the fields it has made of them what they say,
at the end it decides, and from then on it lets the framing be. -/

set_option autoImplicit false

namespace HttpStream

namespace Stage

/-- The status of a response, from where its code is complete to the end of its fields. -/
def code? : Stage → Option Nat
  | .afterStatus _ code | .reason _ code _ => some code
  | stage => stage.head?.bind Head.status?

def Coded (stage : Stage) : Prop := ∀ code ∈ stage.code?, 100 ≤ code

theorem Coded.of_none {stage : Stage} (none : stage.code? = none) : stage.Coded := by
  simp [Coded, none]

theorem head?_of_outside {stage : Stage} (outside : stage.inHead = false) : stage.head? = none := by
  cases stage <;> first | rfl | cases outside

theorem head?_of_inStartLine {stage : Stage} (line : stage.inStartLine = true) :
    stage.head? = none := by
  cases stage <;> first | rfl | cases line

theorem code?_of_outside {stage : Stage} (outside : stage.inHead = false) :
    stage.code? = none := by
  cases stage <;> first | rfl | cases outside

theorem code?_of_inFields {stage : Stage} (line : stage.inFields = true) :
    stage.code? = stage.head?.bind Head.status? := by
  cases stage <;> first | rfl | cases line

theorem Coded.head {stage : Stage} (coded : stage.Coded) {head : Head}
    (known : stage.head? = some head) : ∀ code ∈ head.status?, 100 ≤ code := by
  have line : stage.inFields = true := by cases stage <;> first | rfl | cases known
  intro code some
  exact coded code (by rwa [code?_of_inFields line, known])

theorem inStartLine_of_outside {stage : Stage} (outside : stage.inHead = false) :
    stage.inStartLine = false := by
  cases stage <;> first | rfl | cases outside

theorem inStartLine_of_inFields {stage : Stage} (line : stage.inFields = true) :
    stage.inStartLine = false := by
  cases stage <;> first | rfl | cases line

theorem head?_plain (stage : Stage) : stage.plain.head? = stage.head? := by cases stage <;> rfl

theorem code?_plain (stage : Stage) : stage.plain.code? = stage.code? := by
  cases stage <;> rfl

theorem inStartLine_plain (stage : Stage) : stage.plain.inStartLine = stage.inStartLine := by
  cases stage <;> rfl

end Stage

def Event.isLate : Event → Bool
  | .content _ | .trailer _ _ | .messageComplete | .earlyEof => true
  | _ => false

namespace Event

variable {events more : List Event}

theorem late_append (late : ∀ event ∈ more, event.isLate = true) :
    fields (events ++ more) = fields events ∧ status (events ++ more) = status events ∧
      (.headerComplete ∈ events ++ more ↔ .headerComplete ∈ events) ∧
      (events ++ more).any hasVersion = events.any hasVersion := by
  induction more generalizing events with
  | nil => simp
  | cons event more ih =>
    obtain ⟨first, rest⟩ := List.forall_mem_cons.mp late
    have one := @ih (events ++ [event]) rest
    rw [List.append_assoc, List.singleton_append] at one
    rw [one.1, one.2.1, one.2.2.1, one.2.2.2]
    cases event with
    | content | trailer | messageComplete | earlyEof =>
      simp [fields, status, field?, status?, hasVersion]
    | _ => cases first

theorem late_append_over (late : ∀ event ∈ more, event.isLate = true) :
    fields (events ++ .headerComplete :: more) = fields events ∧
      status (events ++ .headerComplete :: more) = status events := by
  have rest := @late_append (events ++ [.headerComplete]) more late
  rw [List.append_assoc, List.singleton_append] at rest
  rw [rest.1, rest.2.1]
  simp [fields, status, field?, status?]

end Event

namespace Reader

variable {asked : Bool} {r s : Reader} {b : UInt8} {capacity : Nat} {step : Step}
  {events more : List Event}

theorem Delivery.plain_append {mode : Mode} {pending : Option Field}
    (h : Delivery mode pending more) (events : List Event) :
    Event.status (events ++ more) = Event.status events ∧
      (.headerComplete ∈ events ++ more ↔ .headerComplete ∈ events) := by
  have none : Event.status more = none := by cases h <;> rfl
  refine ⟨?_, ?_⟩
  · unfold Event.status at none ⊢
    rw [List.findSome?_append, none, Option.or_none]
  · cases h <;> simp

structure Undecided (r : Reader) (events : List Event) : Prop where
  coded : r.stage.Coded
  ahead : r.stage.inStartLine = true → events = []
  waiting : ∀ head ∈ r.stage.head?,
    head.status? = Event.status events ∧ .headerComplete ∉ events

structure Settled (asked : Bool) (r : Reader) (events : List Event) : Prop where
  framing : r.framing = Framing.decided asked (Event.status events) (Event.fields events)
  contentLength : r.framing = .contentLength → ∃ length,
    announced? (Event.fields events) = some length ∧ r.contentLength = some length.toNat

/-- A reader keeps to the decision as far as it has come, with `asked` telling whether the message
answered a HEAD request where it was decided. A request without a version has no fields that could
decide anything. The length is kept also where it does not count. -/
structure Decides (asked : Bool) (r : Reader) (events : List Event) : Prop where
  undecided : r.Undecided events
  flag : .headerComplete ∉ events → r.headResponse = asked
  heeded : .headerComplete ∉ events → r.Heeded (Event.fields events)
  counted : r.Counted (Event.fields events)
  settled : .headerComplete ∈ events → events.any Event.hasVersion = true →
    Settled asked r events

theorem Undecided.of_outside (outside : r.stage.inHead = false) : r.Undecided events where
  coded := .of_none (Stage.code?_of_outside outside)
  ahead line := by simp [Stage.inStartLine_of_outside outside] at line
  waiting := by simp [Stage.head?_of_outside outside]

theorem Undecided.of_eq (h : r.Undecided events) (head : s.stage.head? = r.stage.head?)
    (code : s.stage.code? = r.stage.code?)
    (line : s.stage.inStartLine = r.stage.inStartLine) : s.Undecided events where
  coded := by
    unfold Stage.Coded
    rw [code]
    exact h.coded
  ahead before := h.ahead (line ▸ before)
  waiting head' known := h.waiting head' (head ▸ known)

theorem Settled.of_eq (h : Settled asked r events) (framing : s.framing = r.framing)
    (length : s.contentLength = r.contentLength) : Settled asked s events :=
  ⟨framing.trans h.framing,
    fun counted => by rw [length]; exact h.contentLength (framing ▸ counted)⟩

theorem Decides.moved (h : Decides asked r events) (undecided : s.Undecided events)
    (framing : s.framing = r.framing) (length : s.contentLength = r.contentLength)
    (flag : s.headResponse = r.headResponse) : Decides asked s events :=
  ⟨undecided, by rw [flag]; exact h.flag, fun going => (h.heeded going).of_eq framing length,
    h.counted.of_eq length, fun past version => (h.settled past version).of_eq framing length⟩

theorem Decides.of_eq (h : Decides asked r events) (stage : s.stage = r.stage)
    (framing : s.framing = r.framing) (length : s.contentLength = r.contentLength)
    (flag : s.headResponse = r.headResponse) : Decides asked s events :=
  h.moved (h.undecided.of_eq (by rw [stage]) (by rw [stage]) (by rw [stage])) framing length flag

/-- Past the fields a reader goes on with the decision. -/
theorem Decides.onward (h : Decides asked r events) (outside : s.stage.inHead = false)
    (framing : s.framing = r.framing) (length : s.contentLength = r.contentLength)
    (flag : s.headResponse = r.headResponse) (late : ∀ event ∈ more, event.isLate = true) :
    Decides asked s (events ++ more) := by
  obtain ⟨fields, status, past, version⟩ := @Event.late_append events more late
  refine ⟨.of_outside outside, fun going => flag.trans (h.flag (mt past.mpr going)),
    fun going => ?_, ?_, fun after opened => ?_⟩
  · rw [fields]
    exact (h.heeded (mt past.mpr going)).of_eq framing length
  · rw [fields]
    exact h.counted.of_eq length
  have settled := h.settled (past.mp after) (version ▸ opened)
  exact ⟨by rw [fields, status, framing]; exact settled.framing,
    by rw [fields, framing, length]; exact settled.contentLength⟩

theorem Undecided.decides (h : r.Undecided events) (flag : r.headResponse = asked)
    (open_ : .headerComplete ∉ events) (heeded : r.Heeded (Event.fields events)) :
    Decides asked r events :=
  ⟨h, fun _ => flag, fun _ => heeded, heeded.counted, fun past => absurd past open_⟩

theorem Decides.ahead (h : Decides asked r events) (line : r.stage.inStartLine = true) :
    events = [] ∧ r.framing = .unknown ∧ r.contentLength = none := by
  obtain rfl := h.undecided.ahead line
  have heeded := h.heeded List.not_mem_nil
  exact ⟨rfl, heeded.framing, heeded.counted.contentLength rfl⟩

/-! An octet. -/

theorem pushStatus_coded {version : Version} {value digits : Nat} (coded : r.stage.Coded) :
    (r.pushStatus version value digits b).reader.stage.Coded := by
  unfold pushStatus
  split
  · split
    · exact .of_none rfl
    · exact coded
  · split
    · exact coded
    · next complete =>
      have code : 100 ≤ value := by
        simp only [isStatus, Bool.not_eq_true', Bool.and_eq_false_iff, not_or,
          Bool.not_eq_false, decide_eq_true_eq] at complete
        exact complete.2
      repeat' split
      · rintro _ ⟨⟩
        exact code
      · rintro _ ⟨⟩
        exact code
      · exact coded

section Code

variable {version : Version} {value : Nat} (code : 100 ≤ value)
include code

theorem pushAfterStatus_coded (coded : r.stage.Coded) :
    (r.pushAfterStatus version value b).reader.stage.Coded := by
  unfold pushAfterStatus
  repeat' split
  · exact coded
  · rintro _ ⟨⟩
    exact code
  · rintro _ ⟨⟩
    exact code

theorem pushReason_coded {token : Snoc Char} :
    (r.pushReason version value token b).reader.stage.Coded := by
  unfold pushReason
  split
  · rintro _ ⟨⟩
    exact code
  · rintro _ ⟨⟩
    exact code

end Code

theorem interpret_startLine_coded (line : r.stage.inStartLine = true) (coded : r.stage.Coded) :
    (r.interpret capacity b).reader.stage.Coded := by
  -- A status has its bounds once it is complete; from there on it is only handed on.
  cases stage : r.stage with
  | status version value digits =>
    simp only [interpret, stage]
    exact pushStatus_coded coded
  | afterStatus version value =>
    simp only [interpret, stage]
    exact pushAfterStatus_coded (coded value (by rw [stage]; rfl)) coded
  | reason version value token =>
    simp only [interpret, stage]
    exact pushReason_coded (coded value (by rw [stage]; rfl))
  | start | method | beforeUri | uri | afterUri | requestVersion | responseVersion
  | beforeStatus =>
    simp only [interpret, stage, pushStart, pushMethod, pushBeforeUri, pushUri, pushAfterUri,
      pushRequestVersion, pushResponseVersion, pushBeforeStatus]
    repeat' split
    all_goals first | exact coded | exact .of_none rfl
  | _ => simp [stage, Stage.inStartLine] at line

theorem StartLineStep.decides (h : r.StartLineStep capacity b step)
    (line : r.stage.inStartLine = true) (coded : step.reader.stage.Coded)
    (decides : Decides asked r events) : Decides asked step.reader (events ++ step.events) := by
  -- Ahead of the fields nothing was told yet, and nothing decided.
  obtain ⟨rfl, framing, length⟩ := decides.ahead line
  have flag : r.headResponse = asked := decides.flag List.not_mem_nil
  cases h with
  | inside stage target inside =>
    refine Undecided.decides ⟨coded, fun _ => rfl, ?_⟩ flag (by simp [Step.quiet])
      (.nothing framing length)
    simp [Step.quiet, Stage.head?_of_inStartLine inside]
  | fault =>
    rw [Step.fail, List.append_nil]
    exact decides
  | shortRequest =>
    refine ⟨.of_outside rfl, fun _ => flag, fun going => ?_, .nothing length, fun _ opened => ?_⟩
    · simp [Reader.shortRequest] at going
    · simp [Reader.shortRequest, Event.hasVersion] at opened
  | requestLine =>
    refine Undecided.decides ⟨coded, by rintro ⟨⟩, ?_⟩ flag (by simp [Reader.requestLine])
      (.nothing framing length)
    rintro head ⟨⟩
    exact ⟨rfl, by simp [Reader.requestLine]⟩
  | statusLine =>
    refine Undecided.decides ⟨coded, by rintro ⟨⟩, ?_⟩ flag (by simp [Reader.statusLine])
      (.nothing framing length)
    rintro head ⟨⟩
    exact ⟨rfl, by simp [Reader.statusLine]⟩

inductive Begins (framing : Framing) : Stage → List Event → Prop where
  | body (stage : Stage) (body : stage.inBody = true) : Begins framing stage []
  | finished (bare : framing = .noContent ∨ framing = .unknown) :
      Begins framing .done [.messageComplete]

theorem Begins.outside {framing : Framing} {stage : Stage} (h : Begins framing stage more) :
    stage.inHead = false := by
  cases h with
  | body _ body => exact Stage.inHead_of_inBody body
  | finished => rfl

theorem Begins.late {framing : Framing} {stage : Stage} (h : Begins framing stage more) :
    ∀ event ∈ more, event.isLate = true := by
  cases h <;> simp [Event.isLate]

/-- The blank line shows that there is no host, or it ends the fields with the framing that was
found. -/
theorem endFields_cases (r : Reader) (head : Head) :
    r.endFields head = .fail r .noHost ∨ ∃ stage more,
      r.endFields head =
        { reader := { r with contentRead := 0, framing := r.finalFraming head, stage }
          events := .headerComplete :: more } ∧ Begins (r.finalFraming head) stage more := by
  unfold endFields
  split
  · exact .inl rfl
  · right
    simp only
    split
    · exact ⟨_, _, rfl, .body .untilClose rfl⟩
    · exact ⟨_, _, rfl, .body (.content _) rfl⟩
    · exact ⟨_, _, rfl, .body .chunkStart rfl⟩
    · next bare => exact ⟨_, _, rfl, .finished (.inl bare)⟩
    · next bare => exact ⟨_, _, rfl, .finished (.inr bare)⟩

theorem endFields_settled {head : Head} (heeded : r.Heeded (Event.fields events))
    (status : head.status? = Event.status events) (coded : ∀ code ∈ head.status?, 100 ≤ code) :
    Settled r.headResponse { r with framing := r.finalFraming head } events := by
  have final : r.finalFraming head =
      Framing.decided r.headResponse (Event.status events) (Event.fields events) := by
    rw [finalFraming_eq head coded heeded, status]
  refine ⟨final, fun counted => ?_⟩
  have announced : r.framing = .contentLength := finalFraming_eq_contentLength counted
  have plain : chunks (Event.fields events) = false :=
    Bool.eq_false_iff.mpr (mt heeded.chunks_iff.mp (by simp [announced]))
  have framing := heeded.framing
  rw [announced, plain] at framing
  have length := heeded.counted.contentLength plain
  cases found : announced? (Event.fields events) with
  | none => simp [found] at framing
  | some value => exact ⟨value, rfl, by rw [length, found]; rfl⟩

structure Weighs (asked : Bool) (r : Reader) (head : Head) (events : List Event) : Prop where
  heeded : r.Heeded (Event.fields events)
  status : head.status? = Event.status events
  coded : ∀ code ∈ head.status?, 100 ≤ code
  open_ : .headerComplete ∉ events
  flag : r.headResponse = asked

section Weighs

variable {head after : Head}

theorem Weighs.of_eq (h : Weighs asked r head events) (framing : s.framing = r.framing)
    (length : s.contentLength = r.contentLength) (flag : s.headResponse = r.headResponse) :
    Weighs asked s head events :=
  { h with heeded := h.heeded.of_eq framing length, flag := flag.trans h.flag }

theorem Decides.flush {pending : Option Field} {told : List Event} (h : Decides asked r events)
    (known : r.stage.head? = some head) (fields : ∀ field ∈ pending, field.Sound)
    (delivered : r.flush head pending = .ok (s, after, told)) :
    Weighs asked s after (events ++ told) := by
  obtain ⟨status, open_⟩ := h.undecided.waiting head known
  obtain ⟨heeded, kept⟩ := flush_heeded delivered fields (h.heeded open_)
  obtain ⟨same, past⟩ := (flush_ok delivered).2.2.2.plain_append events
  exact ⟨heeded, by rw [same, ← status, kept], kept ▸ h.undecided.coded.head known,
    mt past.mp open_, (flush_kin delivered).headResponse.trans (h.flag open_)⟩

theorem Weighs.decides {stage : Stage} (h : Weighs asked r head events)
    (begins : Begins (r.finalFraming head) stage more) :
    Decides asked { r with contentRead := 0, framing := r.finalFraming head, stage }
      (events ++ .headerComplete :: more) := by
  obtain ⟨fields, status⟩ := @Event.late_append_over events more begins.late
  have settled := endFields_settled h.heeded h.status h.coded
  refine ⟨.of_outside begins.outside, fun going => absurd (by simp) going,
    fun going => absurd (by simp) going, by rw [fields]; exact h.heeded.counted, fun _ _ => ?_⟩
  exact ⟨by rw [fields, status, ← h.flag]; exact settled.framing,
    by rw [fields]; exact settled.contentLength⟩

end Weighs

theorem FieldStep.decides (h : r.FieldStep b step) (line : r.stage.inFields = true)
    (decides : Decides asked r events) : Decides asked step.reader (events ++ step.events) := by
  cases h with
  | inside stage ended inside side sound known =>
    have code : stage.code? = r.stage.code? := by
      rw [Stage.code?_of_inFields inside, Stage.code?_of_inFields line, known]
    have later : stage.inStartLine = r.stage.inStartLine := by
      rw [Stage.inStartLine_of_inFields inside, Stage.inStartLine_of_inFields line]
    rw [Step.quiet, List.append_nil]
    exact decides.moved (decides.undecided.of_eq known code later) rfl rfl rfl
  | fault =>
    rw [Step.fail, List.append_nil]
    exact decides
  | @field flushed head after pending told side fields delivered token known =>
    have weighs := decides.flush known fields delivered
    refine Undecided.decides ⟨weighs.coded, by rintro ⟨⟩, ?_⟩ weighs.flag weighs.open_
      (weighs.heeded.of_eq rfl rfl)
    rintro head' ⟨⟩
    exact ⟨weighs.status, weighs.open_⟩
  | @blank flushed head after pending told side fields delivered known =>
    have weighs : Weighs asked (flushed.endLine b) after (events ++ told) :=
      (decides.flush known fields delivered).of_eq rfl rfl rfl
    rcases (flushed.endLine b).endFields_cases after with
      fault | ⟨stage', more, body, begins⟩
    · -- Without a host the fields do not end: the reader is where it was, and nothing is decided.
      rw [fault]
      simp only [Step.fail, List.append_nil]
      obtain ⟨⟨framing, contentLength, cache, kept, _⟩, _, _, delivery⟩ := flush_ok delivered
      have stage : (flushed.endLine b).stage = r.stage := by rw [endLine_stage, kept]
      refine Undecided.decides ⟨?_, ?_, ?_⟩ weighs.flag weighs.open_ weighs.heeded
      · rw [stage]
        exact decides.undecided.coded
      · intro before
        rw [stage, Stage.inStartLine_of_inFields line] at before
        cases before
      · intro head' known'
        rw [stage] at known'
        obtain ⟨status, _⟩ := decides.undecided.waiting head' known'
        exact ⟨status.trans (delivery.plain_append events).1.symm, weighs.open_⟩
    · rw [body]
      simp only [← List.append_assoc]
      exact weighs.decides begins

theorem BodyStep.late (h : r.BodyStep b step) : ∀ event ∈ step.events, event.isLate = true := by
  cases h <;> simp [Step.quiet, Step.fail, Reader.deliver, Event.isLate]

theorem BodyStep.decides (h : r.BodyStep b step) (body : r.stage.inBody = true)
    (decides : Decides asked r events) : Decides asked step.reader (events ++ step.events) :=
  decides.onward (h.outside body) h.kept.1 h.kept.2.1 h.kin.headResponse h.late

theorem push_coded (line : r.stage.inStartLine = true) (coded : r.stage.Coded) :
    (r.push capacity b).reader.stage.Coded := by
  rcases push_reader r capacity b with ⟨headerBytes, afterCr, same⟩ | ⟨headerBytes, same⟩
  · rw [same]
    exact coded
  · rw [same]
    exact interpret_startLine_coded (r := { r with headerBytes, afterCr := false }) line coded

theorem push_decides (sound : r.Sound) (decides : Decides asked r events) :
    Decides asked (r.push capacity b).reader (events ++ (r.push capacity b).events) := by
  have counted (headerBytes : Nat) (afterCr : Bool) :
      Decides asked { r with headerBytes, afterCr } events := decides.of_eq rfl rfl rfl rfl
  have coded (line : r.stage.inStartLine = true) : (r.push capacity b).reader.stage.Coded :=
    push_coded line decides.undecided.coded
  have push := push_cases sound capacity (b := b)
  generalize r.push capacity b = step at coded push
  cases push with
  | limit | lineRest | idle =>
    simp only [Step.fail, Step.quiet, List.append_nil]
    exact counted _ _
  | startLine headerBytes line cause =>
    exact cause.decides line (coded line) (counted headerBytes false)
  | fields headerBytes line cause => exact cause.decides line (counted headerBytes false)
  | body headerBytes body cause => exact cause.decides body (counted headerBytes false)

/-! A turn. -/

theorem Noted.head? (h : r.Noted s) : s.stage.head? = r.stage.head? := by
  rw [← Stage.head?_plain, h.stage, Stage.head?_plain]

theorem Noted.code? (h : r.Noted s) : s.stage.code? = r.stage.code? := by
  rw [← Stage.code?_plain, h.stage, Stage.code?_plain]

theorem Noted.inStartLine (h : r.Noted s) : s.stage.inStartLine = r.stage.inStartLine := by
  rw [← Stage.inStartLine_plain, h.stage, Stage.inStartLine_plain]

theorem Noted.decides (h : r.Noted s) (decides : Decides asked r events) :
    Decides asked s events := by
  have undecided := decides.undecided.of_eq h.head? h.code? h.inStartLine
  obtain ⟨stage, rfl, _⟩ := h
  exact decides.moved undecided rfl rfl rfl

end Reader
end HttpStream
