import HttpStream.Proofs.Hosts
import HttpStream.Proofs.Instants
import HttpStream.Proofs.Outcomes

/-! The `Host` fields of a message: their hosts are told right ahead of them and of no other field,
and the blank line shows whether one is missing. -/

set_option autoImplicit false

namespace HttpStream

open Octet

namespace Event

def isField : Event → Bool
  | .host .. | .header .. => true
  | _ => false

/-- Whether a request whose line was told needs a host, and no field that was told names one. -/
def lacksHost (events : List Event) : Bool :=
  (events.findSome? head?).any (Head.missesHost (fields events))

end Event

/-- A host is told where a `Host` field of a request follows, with what its value says, and nowhere
else; and no such field is told without its host. -/
inductive Heralded (mode : Mode) : List Event → Prop where
  | nothing : Heralded mode []
  | host {host : Text} {port : Option Nat} {name value : Text} {rest : List Event}
      (side : mode = .request) (named : StandardName.host.names (name, value) = true)
      (parsed : Value.host value = .ok (host, port)) (later : Heralded mode rest) :
      Heralded mode (.host host port :: .header name value :: rest)
  | plain {name value : Text} {rest : List Event}
      (other : mode = .request → StandardName.host.names (name, value) = false)
      (later : Heralded mode rest) : Heralded mode (.header name value :: rest)
  | silent {event : Event} {rest : List Event} (silent : event.isField = false)
      (later : Heralded mode rest) : Heralded mode (event :: rest)

/-- What is told of fields in order, and what is found wrong with them: they are told up to the first
one with a fault, and if there is none, they may be lacking a host. -/
structure Announced (mode : Mode) (fields : List NamedField) (lacking : Bool) (told : List Event)
    (fault : Option Fault) : Prop where
  heralded : Heralded mode told
  inOrder : Event.fields told <+: fields
  whole : Event.fields told = fields → (fault = some .noHost ↔ lacking = true)
  refused : ∀ field rest, fields = Event.fields told ++ field :: rest →
    ∃ wrong, fault = some wrong ∧ wrong ≠ .noHost ∧
      (mode = .request → StandardName.host.names field = true →
        Value.host field.2 = .error wrong)

variable {mode : Mode} {head : Head} {before rest : List NamedField} {field : NamedField}
  {lacking : Bool} {events more told : List Event} {fault : Option Fault}

/-! What is told of one field. -/

namespace Heralded

theorem append (first : Heralded mode events) (second : Heralded mode more) :
    Heralded mode (events ++ more) := by
  induction first with
  | nothing => exact second
  | host side named parsed _ ih => exact .host side named parsed ih
  | plain other _ ih => exact .plain other ih
  | silent silent _ ih => exact .silent silent ih

theorem of_silent (silent : ∀ event ∈ events, event.isField = false) : Heralded mode events := by
  induction events with
  | nil => exact .nothing
  | cons event rest ih =>
    obtain ⟨first, later⟩ := List.forall_mem_cons.mp silent
    exact .silent first (ih later)

end Heralded

namespace Event

theorem fields_of_silent (silent : ∀ event ∈ events, event.isField = false) :
    fields events = [] :=
  List.filterMap_eq_nil_iff.mpr fun event member => by
    have other := silent event member
    cases event <;> first | rfl | cases other

theorem isField_of_late {event : Event} (late : event.isLate = true) : event.isField = false := by
  cases event <;> first | rfl | cases late

theorem isField_of_head? {event : Event} (known : event.head? = some head) :
    event.isField = false := by
  cases event <;> first | rfl | cases known

end Event

theorem Head.missesHost_append (head : Head) (fields more : List NamedField) :
    head.missesHost (fields ++ more) =
      (head.missesHost fields && !more.any StandardName.host.names) := by
  cases head <;> simp [missesHost, Bool.and_assoc]

theorem Event.lacksHost_append (behind : ∀ event ∈ more, event.head? = none) :
    lacksHost (events ++ more) =
      (lacksHost events && !(fields more).any StandardName.host.names) := by
  have none : more.findSome? head? = none := List.findSome?_eq_none_iff.mpr behind
  rw [lacksHost, List.findSome?_append, none, Option.or_none, fields_append, lacksHost]
  cases events.findSome? head? with
  | none => rfl
  | some head => exact head.missesHost_append _ _

theorem Event.lacksHost_opened {start : Event} (known : start.head? = some head) :
    lacksHost (start :: more) = head.missesHost (fields more) := by
  have line : start.field? = none := (of_head? known).2.2
  rw [lacksHost, List.findSome?_cons, known, fields, List.filterMap_cons_none line]
  rfl

theorem Announced.append (heralded : Heralded mode events) (first : Event.fields events = before)
    (h : Announced mode rest lacking more fault) :
    Announced mode (before ++ rest) lacking (events ++ more) fault := by
  have both : Event.fields (events ++ more) = before ++ Event.fields more := by
    rw [Event.fields_append, first]
  refine ⟨heralded.append h.heralded, ?_, ?_, ?_⟩
  · rw [both]
    exact (List.prefix_append_right_inj before).mpr h.inOrder
  · rw [both]
    exact fun whole => h.whole (List.append_cancel_left whole)
  · rw [both]
    intro field later split
    rw [List.append_assoc] at split
    exact h.refused field later (List.append_cancel_left split)

theorem Announced.refuse {wrong : Fault} (other : wrong ≠ .noHost)
    (host : mode = .request → StandardName.host.names field = true →
      Value.host field.2 = .error wrong) :
    Announced mode (field :: rest) lacking [] (some wrong) where
  heralded := .nothing
  inOrder := List.nil_prefix
  whole := nofun
  refused next later split := by
    obtain ⟨rfl, -⟩ := List.cons.inj split
    exact ⟨wrong, rfl, other, host⟩

theorem Announced.blank (silent : ∀ event ∈ events, event.isField = false)
    (missing : fault = some .noHost ↔ lacking = true) :
    Announced mode [] lacking events fault where
  heralded := .of_silent silent
  inOrder := by simp [Event.fields_of_silent silent]
  whole _ := missing
  refused _ _ split := by simp at split

/-! Values that are wrong. -/

namespace Value

variable {value : Text} {wrong : Fault}

theorem contentLength_error (refused : contentLength value = .error wrong) : wrong ≠ .noHost := by
  unfold contentLength at refused
  split at refused <;> cases refused
  exact nofun

theorem chunked_error (refused : chunked value = .error wrong) : wrong ≠ .noHost := by
  unfold chunked at refused
  repeat' split at refused
  all_goals cases refused
  exact nofun

theorem host_error (refused : host value = .error wrong) : wrong ≠ .noHost := by
  rcases host_cases value with ⟨name, port, accepted⟩ | bad | bad
  · rw [accepted] at refused
    cases refused
  all_goals
    rw [bad] at refused
    cases refused
    exact nofun

end Value

/-! The fields that lines spell. -/

/-- What a field comes to: it is told with its host, or something is wrong with it, and of a `Host`
field of a request that is what is wrong with its value. -/
def TellsHost (mode : Mode) (field : NamedField) : Except Fault (List Event) → Prop
  | .ok events => Heralded mode events ∧ Event.fields events = [field]
  | .error wrong => wrong ≠ .noHost ∧
      (mode = .request → StandardName.host.names field = true → Value.host field.2 = .error wrong)

theorem TellsHost.map {α : Type} {value : Except Fault α} {tell : α → List Event}
    (accepts : ∀ a, value = .ok a → TellsHost mode field (.ok (tell a)))
    (refuses : ∀ wrong, value = .error wrong → TellsHost mode field (.error wrong)) :
    TellsHost mode field (value.map tell) := by
  cases value with
  | error wrong => exact refuses wrong rfl
  | ok a => exact accepts a rfl

theorem TellsHost.plain (other : mode = .request → StandardName.host.names field = false) :
    TellsHost mode field (.ok [.header field.1 field.2]) := ⟨.plain other .nothing, rfl⟩

theorem TellsHost.host (side : mode = .request) (named : StandardName.host.names field = true) :
    TellsHost mode field ((Value.host field.2).map fun (host, port) =>
      [.host host port, .header field.1 field.2]) :=
  .map (fun _ parsed => ⟨.host side named parsed .nothing, rfl⟩)
    fun _ refused => ⟨Value.host_error refused, fun _ _ => refused⟩

theorem TellsHost.other {α : Type} {value : Except Fault α}
    (other : StandardName.host.names field = false)
    (fault : ∀ wrong, value = .error wrong → wrong ≠ .noHost) :
    TellsHost mode field (value.map fun _ => [.header field.1 field.2]) :=
  .map (fun _ _ => .plain fun _ => other) fun wrong refused =>
    ⟨fault wrong refused, by simp [other]⟩

theorem tellField_tellsHost (mode : Mode) (before : List NamedField) (field : NamedField) :
    TellsHost mode field (tellField mode before field) := by
  simp only [tellField]
  split
  · next length =>
    have named := (Bool.and_eq_true_iff.mp length).1
    exact .other (StandardName.names_of_ne named (by decide)) fun _ => Value.contentLength_error
  · split
    · next coding =>
      exact .other (StandardName.names_of_ne coding (by decide)) fun _ => Value.chunked_error
    · split
      · next host =>
        obtain ⟨named, side⟩ : StandardName.host.names field = true ∧ mode = .request := by
          simpa using host
        exact .host side named
      · next other => exact .plain fun side => by simpa [side] using other

theorem tellFields_announced (head : Head) (asked : Bool) (before fields : List NamedField) :
    let told := tellFields head asked before fields
    Announced head.side fields (head.missesHost (before ++ Event.fields told.1)) told.1 told.2 := by
  -- On the fields that are left, as those before them only matter for whether a host is lacking.
  induction fields generalizing before with
  | nil =>
    simp only [tellFields]
    have silent : ∀ event ∈ (tellBlank head asked before).1, event.isField = false := by
      unfold tellBlank
      repeat' split
      all_goals simp [Event.isField]
    refine .blank silent ?_
    rw [Event.fields_of_silent silent, List.append_nil, tellBlank]
    repeat' split
    all_goals simp [*]
  | cons field rest ih =>
    have tellsHost := tellField_tellsHost head.side before field
    simp only [tellFields]
    cases tells : tellField head.side before field with
    | error wrong =>
      rw [tells] at tellsHost
      exact .refuse tellsHost.1 tellsHost.2
    | ok events =>
      rw [tells] at tellsHost
      have later := Announced.append tellsHost.1 tellsHost.2 (ih (before ++ [field]))
      rw [Event.fields_append, tellsHost.2]
      simpa using later

def Field.named (field : Field) : NamedField := (field.name, field.value)

namespace Reader

variable {r s t : Reader} {b : UInt8} {capacity : Nat} {bytes : Bytes} {step : Step} {turn : Turn}
  {after : Head} {pending : Option Field} {wrong : Fault}

/-! The field that waits. -/

theorem heedContentLength_error {value : Text}
    (refused : r.heedContentLength value = .error wrong) : wrong ≠ .noHost := by
  unfold heedContentLength at refused
  split at refused
  · cases refused
  · cases length : Value.contentLength value with
    | error =>
      rw [length] at refused
      cases refused
      exact Value.contentLength_error length
    | ok => rw [length] at refused; cases refused

theorem heedTransferEncoding_error {value : Text}
    (refused : r.heedTransferEncoding value = .error wrong) : wrong ≠ .noHost := by
  unfold heedTransferEncoding at refused
  cases coding : Value.chunked value with
  | error =>
    rw [coding] at refused
    cases refused
    exact Value.chunked_error coding
  | ok => rw [coding] at refused; cases refused

/-- A field that names no host of a request is told alone, or it has a fault of its own. -/
theorem heed_plain {field : Field} (other : field.standard = some .host → head.side = .response) :
    (∃ wrong, r.heed head field = .error wrong ∧ wrong ≠ .noHost) ∨
      ∃ s, r.heed head field = .ok (s, head, []) := by
  unfold heed
  split
  · cases length : r.heedContentLength field.value with
    | error wrong => exact .inl ⟨wrong, rfl, heedContentLength_error length⟩
    | ok s => exact .inr ⟨s, rfl⟩
  · cases coding : r.heedTransferEncoding field.value with
    | error wrong => exact .inl ⟨wrong, rfl, heedTransferEncoding_error coding⟩
    | ok s => exact .inr ⟨s, rfl⟩
  · exact .inr ⟨_, rfl⟩
  · next named => cases other named
  · exact .inr ⟨_, rfl⟩

theorem heed_host {version : Version} {seen : Bool} {field : Field}
    (named : field.standard = some .host) : r.heed (.request version seen) field =
      (Value.host field.value).map fun (host, port) =>
        (r, .request version true, [.host host port]) := by
  simp only [heed, named]
  cases Value.host field.value <;> rfl

theorem heed_tellsHost (r : Reader) (head : Head) {field : Field} (sound : field.Sound) :
    TellsHost head.side field.named
        ((r.heed head field).map fun result => result.2.2 ++ [.header field.name field.value]) ∧
      ∀ result, r.heed head field = .ok result → lacksHost result.2.1 =
        (lacksHost head && !StandardName.host.names field.named) := by
  have named_iff : StandardName.host.names field.named = true ↔ field.standard = some .host := by
    rw [Field.named, Field.names_eq sound, beq_iff_eq]
  -- But for the host fields of requests no field tells of hosts or supplies one.
  by_cases other : field.standard = some .host → head.side = .response
  · have unnamed (side : head.side = .request) :
        StandardName.host.names field.named = false := Bool.eq_false_iff.mpr fun named => by
      rw [other (named_iff.mp named)] at side
      cases side
    rcases heed_plain (r := r) other with ⟨wrong, refused, fault⟩ | ⟨s, accepted⟩
    · rw [refused]
      refine ⟨⟨fault, fun side named => by simp [unnamed side] at named⟩, ?_⟩
      rintro _ ⟨⟩
    · rw [accepted]
      refine ⟨.plain unnamed, ?_⟩
      rintro _ ⟨⟩
      cases head with
      | response => rfl
      | request => simp [unnamed rfl]
  · obtain ⟨named, request⟩ := Classical.not_imp.mp other
    cases head with
    | response => exact absurd rfl request
    | request version seen =>
      have host := named_iff.mpr named
      rw [heed_host named]
      cases parsed : Value.host field.value with
      | error wrong =>
        refine ⟨⟨Value.host_error parsed, fun _ _ => parsed⟩, ?_⟩
        rintro _ ⟨⟩
      | ok result =>
        refine ⟨⟨.host rfl host parsed .nothing, rfl⟩, ?_⟩
        rintro _ ⟨⟩
        simp [lacksHost, host]

theorem flush_announced (r : Reader) (head : Head) (sound : ∀ field ∈ pending, field.Sound) :
    match r.flush head pending with
    | .error wrong => ∃ field ∈ pending, TellsHost head.side field.named (.error wrong)
    | .ok (_, after, events) => Heralded head.side events ∧
        Event.fields events = pending.toList.map Field.named ∧
        lacksHost after = (lacksHost head &&
          !(pending.toList.map Field.named).any StandardName.host.names) := by
  cases pending with
  | none => exact ⟨.nothing, rfl, by simp⟩
  | some field =>
    obtain ⟨tells, lacks⟩ := heed_tellsHost r head (sound field rfl)
    simp only [flush]
    cases heeds : r.heed head field with
    | error wrong =>
      rw [heeds] at tells
      exact ⟨field, rfl, tells⟩
    | ok result =>
      rw [heeds] at tells
      have lacks := lacks result heeds
      exact ⟨tells.1, tells.2, by simpa using lacks⟩

theorem flush_behind {flushed : Reader}
    (delivered : r.flush head pending = .ok (flushed, after, events)) :
    ∀ event ∈ events, event.head? = none := by
  obtain ⟨_, _, _, delivery⟩ := flush_ok delivered
  cases delivery <;> simp [Event.head?]

/-! A message, octet by octet. -/

/-- Of the fields told so far the hosts were told, and it is known whether one is lacking. -/
structure Hosted (r : Reader) (told : List Event) : Prop where
  ahead : r.stage.inStartLine = true → told = []
  heralded : Heralded r.mode told
  lacks : ∀ head ∈ r.stage.head?, lacksHost head = Event.lacksHost told

theorem Hosted.of_eq (h : r.Hosted told) (mode : s.mode = r.mode)
    (head : s.stage.head? = r.stage.head?)
    (line : s.stage.inStartLine = r.stage.inStartLine) : s.Hosted told where
  ahead before := h.ahead (line ▸ before)
  heralded := mode ▸ h.heralded
  lacks head' known := h.lacks head' (head ▸ known)

theorem Hosted.onward (h : r.Hosted told) (mode : s.mode = r.mode)
    (outside : s.stage.inHead = false) (silent : ∀ event ∈ more, event.isField = false) :
    s.Hosted (told ++ more) where
  ahead line := by simp [Stage.inStartLine_of_outside outside] at line
  heralded := mode ▸ h.heralded.append (.of_silent silent)
  lacks := by simp [Stage.head?_of_outside outside]

theorem StartLineStep.hosted (h : r.StartLineStep capacity b step)
    (line : r.stage.inStartLine = true) (hosted : r.Hosted told) :
    step.reader.Hosted (told ++ step.events) := by
  obtain rfl := hosted.ahead line
  cases h with
  | inside stage target inside =>
    refine ⟨fun _ => rfl, .nothing, ?_⟩
    simp [Step.quiet, Stage.head?_of_inStartLine inside]
  | fault =>
    rw [Step.fail, List.append_nil]
    exact hosted
  | shortRequest =>
    exact hosted.onward rfl rfl (by simp [Reader.shortRequest, Event.isField])
  | requestLine =>
    refine ⟨by rintro ⟨⟩, .of_silent (by simp [Reader.requestLine, Event.isField]), ?_⟩
    rintro head ⟨⟩
    rfl
  | statusLine =>
    refine ⟨by rintro ⟨⟩, .of_silent (by simp [Reader.statusLine, Event.isField]), ?_⟩
    rintro head ⟨⟩
    rfl

theorem Hosted.flush {flushed : Reader} (hosted : r.Hosted told) (known : r.stage.head? = some head)
    (side : head.side = r.mode) (sound : ∀ field ∈ pending, field.Sound)
    (delivered : r.flush head pending = .ok (flushed, after, events)) :
    flushed.mode = r.mode ∧ Heralded flushed.mode (told ++ events) ∧
      Event.fields events = pending.toList.map Field.named ∧
      lacksHost after = Event.lacksHost (told ++ events) := by
  have announced := flush_announced r head sound
  rw [delivered] at announced
  obtain ⟨heralded, fields, lacks⟩ := announced
  have mode : flushed.mode = r.mode := (flush_kin delivered).mode
  refine ⟨mode, ?_, fields, ?_⟩
  · rw [mode]
    exact hosted.heralded.append (side ▸ heralded)
  · rw [lacks, hosted.lacks head known, Event.lacksHost_append (flush_behind delivered), fields]

theorem endFields_fault (r : Reader) (head : Head) :
    (r.endFields head).fault = some .noHost ↔ lacksHost head = true := by
  unfold endFields
  split
  · next lacking => simp [Step.fail, lacking]
  · next there =>
    simp only [there]
    split <;> simp

theorem endFields_silent (r : Reader) (head : Head) :
    ∀ event ∈ (r.endFields head).events, event.isField = false ∧ event.head? = none := by
  rcases r.endFields_cases head with fault | ⟨stage, more, ended, begins⟩
  · simp [fault, Step.fail]
  · rw [ended]
    cases begins <;> simp [Event.isField, Event.head?]

theorem FieldStep.hosted (h : r.FieldStep b step) (line : r.stage.inFields = true)
    (hosted : r.Hosted told) : step.reader.Hosted (told ++ step.events) := by
  cases h with
  | inside stage ended inside side sound known =>
    have later : stage.inStartLine = r.stage.inStartLine := by
      rw [Stage.inStartLine_of_inFields inside, Stage.inStartLine_of_inFields line]
    rw [Step.quiet, List.append_nil]
    exact hosted.of_eq rfl known later
  | fault =>
    rw [Step.fail, List.append_nil]
    exact hosted
  | field side sound delivered token known =>
    obtain ⟨_, heralded, _, lacks⟩ := hosted.flush known side sound delivered
    refine ⟨by rintro ⟨⟩, heralded, ?_⟩
    rintro _ ⟨⟩
    exact lacks
  | @blank flushed head after pending events side sound delivered known =>
    obtain ⟨mode, heralded, fields, lacks⟩ := hosted.flush known side sound delivered
    have silent := (flushed.endLine b).endFields_silent after
    have missing := (flushed.endLine b).endFields_fault after
    rcases (flushed.endLine b).endFields_cases after with fault | ⟨stage, more, ended, begins⟩
    · -- What was known at the line before is still right: a host was lacking there, too.
      have lacking : Event.lacksHost (told ++ events) = true := by
        rw [← lacks, ← missing, fault]
        rfl
      have before : Event.lacksHost told = true := by
        rw [Event.lacksHost_append (flush_behind delivered)] at lacking
        exact (Bool.and_eq_true_iff.mp lacking).1
      have stage : flushed.stage = r.stage := by
        obtain ⟨⟨framing, contentLength, cache, rfl, _⟩, _⟩ := flush_ok delivered
        rfl
      rw [fault]
      simp only [Step.fail, List.append_nil]
      refine ⟨fun before => ?_, heralded, fun head' known' => ?_⟩
      · simp [stage, Stage.inStartLine_of_inFields line] at before
      · rw [endLine_stage, stage] at known'
        rw [hosted.lacks head' known', before, lacking]
    · rw [ended] at silent ⊢
      rw [← List.append_assoc]
      refine ⟨fun line => ?_, ?_, ?_⟩
      · simp [Stage.inStartLine_of_outside begins.outside] at line
      · exact heralded.append (.of_silent fun event member => (silent event member).1)
      · simp [Stage.head?_of_outside begins.outside]

theorem push_hosted (sound : r.Sound) (hosted : r.Hosted told) :
    (r.push capacity b).reader.Hosted (told ++ (r.push capacity b).events) := by
  have counted (headerBytes : Nat) (afterCr : Bool) :
      Hosted { r with headerBytes, afterCr } told := hosted.of_eq rfl rfl rfl
  have push := push_cases sound capacity (b := b)
  generalize r.push capacity b = step at push
  cases push with
  | limit | lineRest | idle =>
    simp only [Step.fail, Step.quiet, List.append_nil]
    exact counted _ _
  | startLine headerBytes line cause => exact cause.hosted line (counted headerBytes false)
  | fields headerBytes line cause => exact cause.hosted line (counted headerBytes false)
  | body headerBytes body cause =>
    exact (counted headerBytes false).onward cause.kin.mode (cause.outside body)
      fun event member => Event.isField_of_late (cause.late event member)

theorem TurnCase.hosted (cause : r.TurnCase capacity b bytes turn) (sound : r.Sound)
    (hosted : r.Hosted told) : turn.step.reader.Hosted (told ++ turn.step.events) := by
  refine cause.carries sound hosted (fun t b told sound _ hosted => push_hosted sound hosted)
    (fun t _ _ told hosted => hosted.of_eq rfl rfl rfl) ?_ fun b rest room => ?_
  · exact fun _ noted _ hosted => hosted.of_eq noted.kin.mode noted.head? noted.inStartLine
  · have body : r.stage.inBody = true := (inBody_of_room room).1
    have after := deliver_inBody (r := { r with afterCr := false }) body (b :: rest)
    exact hosted.onward rfl (Stage.inHead_of_inBody after) (by simp [Event.isField])

/-- The octet behind a field line: the field is told with its host, or something is wrong with it,
and if the octet ends the fields, it shows whether a host is lacking. -/
theorem push_announced (sound : r.Sound) (hosted : r.Hosted told)
    (between : r.stage = .lineStart head pending) (fits : r.fits 1 = true)
    (fresh : r.isLineRest b = false) (opens : folds b = false) :
    let step := r.push capacity b
    Announced r.mode (pending.toList.map Field.named)
      (isLineEnd b && Event.lacksHost (told ++ step.events)) step.events step.fault := by
  have inside : r.stage.inHead = true := by rw [between]; rfl
  have known : r.stage.head? = some head := by rw [between]; rfl
  have side : head.side = r.mode := sound.side _ (by rw [between]; rfl)
  have waits : ∀ field ∈ pending, field.Sound := by
    rintro field rfl
    have held := sound.stage
    rw [between] at held
    exact held
  -- The octet itself is read by `u`, once the field before it is delivered.
  let u : Reader := { r.count with afterCr := false }
  have hosted : u.Hosted told := hosted.of_eq rfl rfl rfl
  have pushed : r.push capacity b = u.pushLineStart head pending b := by
    rw [push_of_fits inside fits fresh]
    simp only [interpret, count, between, u]
  have announced := flush_announced u head waits
  rw [folds] at opens
  simp only [pushed, pushLineStart, opens, Bool.false_eq_true, if_false]
  cases delivered : u.flush head pending with
  | error wrong =>
    rw [delivered] at announced
    obtain ⟨field, rfl, other, host⟩ := announced
    exact .refuse other (side ▸ host)
  | ok result =>
    obtain ⟨flushed, after, events⟩ := result
    rw [delivered] at announced
    obtain ⟨heralded, fields, _⟩ := announced
    have lacks := (hosted.flush known side waits delivered).2.2.2
    have alone (lacking : Bool) {more : List Event} {fault : Option Fault}
        (rest : Announced r.mode [] lacking more fault) :
        Announced r.mode (pending.toList.map Field.named) lacking (events ++ more) fault := by
      simpa using Announced.append (side ▸ heralded) fields rest
    cases ends : isLineEnd b with
    | false =>
      have rest : Announced r.mode [] false [] none := .blank (List.forall_mem_nil _) (by simp)
      simpa using alone false rest
    | true =>
      have silent := (flushed.endLine b).endFields_silent after
      simp only [if_true, Bool.true_and]
      refine alone _ (.blank (fun event member => (silent event member).1) ?_)
      rw [endFields_fault, lacks, ← List.append_assoc,
        Event.lacksHost_append fun event member => (silent event member).2,
        Event.fields_of_silent fun event member => (silent event member).1]
      simp

theorem turn_lineStart (between : r.stage = .lineStart head pending) (capacity : Nat) (b : UInt8)
    (tail : Bytes) (later : Input) :
    (r.turn capacity b tail later).step.events = (r.push capacity b).events ∧
      (r.turn capacity b tail later).step.fault = (r.push capacity b).fault := by
  have unknown : r.startAhead? (b :: tail) = none := by simp [startAhead?, between]
  have unsliced : r.slice? b tail = none := by simp [slice?, room, between]
  simp only [turn, unknown, unsliced]
  split
  · exact ⟨rfl, rfl⟩
  · split
    · exact ⟨rfl, rfl⟩
    · simp only [extend, between]
      split <;> exact ⟨rfl, rfl⟩

theorem CutShort.silent (cut : r.CutShort events) : ∀ event ∈ events, event.isField = false := by
  rcases cut.events with rfl | rfl <;> simp [Event.isField]

theorem StartLine.side {memoryCapacity : Option Nat} (first : r.StartLine memoryCapacity)
    (opening : r.Opening) (spared : r.Spares first.wire.length) : first.head.side = r.mode := by
  obtain ⟨s, started, between, _⟩ := first.run_opened opening spared
  have kin := kin_run (opening.sound.under 0) false 0 first.wire
  rw [started] at kin
  have side : (first.head.after []).side = s.mode :=
    between.sound.side _ (by rw [between.stage]; rfl)
  rw [Event.after_of_head? first.known] at side
  exact side.trans kin.mode

theorem StartLine.announced {memoryCapacity : Option Nat} (first : r.StartLine memoryCapacity)
    (opening : r.Opening) (block : FieldSection) (fragments : List Input)
    (spelled : fragments.flatten.flatten = first.wire ++ block.wire)
    (spared : r.Spares fragments.flatten.flatten.length) :
    let fed := (r.feedAll (Recorder.listener { memoryCapacity }) {} fragments).2.1
    Announced r.mode block.fields (Event.lacksHost fed.events) fed.events fed.fault := by
  intro fed
  obtain ⟨events, fault, _⟩ := first.fed opening block fragments spelled spared
  have told := tellFields_announced first.head r.headResponse [] block.fields
  rw [spelled] at spared
  rw [first.side opening (spared.mono (by simp))] at told
  have silent : ∀ event ∈ [first.event], event.isField = false := by
    simpa using Event.isField_of_head? first.known
  have whole := Announced.append (.of_silent silent) (Event.fields_of_silent silent) told
  rw [show fed.events = _ from events, show fed.fault = _ from fault,
    Event.lacksHost_opened first.known]
  exact whole

end Reader

namespace Instant

variable {σ : Type} {listener : Listener σ} {now next later : Instant σ}

theorem Follows.hosted (follows : Follows listener now next) (sound : now.reader.Sound)
    (hosted : now.reader.Hosted now.told) : next.reader.Hosted next.told := by
  cases follows with
  | turn _ taken =>
    rw [told_tells]
    exact (Reader.turn_cause sound taken).hosted sound hosted
  | refused _ taken =>
    have turned := (Reader.turn_cause sound taken).hosted sound hosted
    rw [told_rejects, told_tells]
    have shut := turned.onward (s := (Reader.enter _ .closed)) rfl rfl (List.forall_mem_nil _)
    rwa [List.append_nil] at shut
  | completed =>
    rw [told_tells]
    exact hosted.onward rfl rfl (by simp [Event.isField])
  | shutdown =>
    rw [told_tells]
    rcases now.reader.ended_cases with quiet | ⟨shut, cut⟩
    · rw [quiet, Step.quiet, List.append_nil]
      exact hosted
    · rw [shut]
      exact hosted.onward rfl rfl cut.silent
  | close =>
    rw [told_tells]
    rcases now.reader.parting_cases with none | cut
    · rw [none]
      exact hosted.onward rfl rfl (List.forall_mem_nil _)
    · exact hosted.onward rfl rfl cut.silent
  | reset => exact ⟨fun _ => rfl, .nothing, by rintro _ ⟨⟩⟩
  | headResponse => exact hosted.of_eq rfl rfl rfl

/-- Whoever listens and whatever is asked of a connection: at every instant the hosts that were told
of the message under way stand right ahead of the `Host` fields of a request, with what these say,
and no such field was told without its host. The octet that ends a field line has the field told, or
finds something wrong with it; and if it is the blank line, it finds that there is no host just where
a request of a persistent version was told, and no field that names a host. So it goes for the fields
of a message as a whole, with any past of the connection and in any fragments within the limit. -/
theorem hosts_announced (mode : Mode) (settings : Settings) (listener : Listener σ) (state : σ) :
    let start := fresh mode settings state
    (∀ now, start.Reaches listener now → Heralded mode now.told ∧
      ∀ head pending b tail later, now.reader.stage = .lineStart head pending →
        now.reader.fits 1 = true → now.reader.isLineRest b = false → folds b = false →
        let capacity := now.reader.capacityFor listener now.state
        let step := (now.reader.turn capacity b tail later).step
        Announced mode (pending.toList.map Field.named)
          (isLineEnd b && Event.lacksHost (now.told ++ step.events)) step.events step.fault) ∧
    (∀ calls,
      let last := start.through listener calls
      start.Reaches listener last ∧
        last.reader = (Reader.through { mode, settings } listener state calls).1 ∧
        last.log = Reader.log { mode, settings } listener state [] calls) ∧
    ∀ (before : List Call) (memoryCapacity : Option Nat),
      let reader := (Reader.through { mode, settings } listener state before).1.reset
      ∀ (first : reader.StartLine memoryCapacity) (block : FieldSection) (fragments : List Input),
        fragments.flatten.flatten = first.wire ++ block.wire →
        (settings.headerLimit = 0 ∨ fragments.flatten.flatten.length ≤ settings.headerLimit) →
        let fed := (reader.feedAll (Recorder.listener { memoryCapacity }) {} fragments).2.1
        Announced mode block.fields (Event.lacksHost fed.events) fed.events fed.fault := by
  intro start
  have fresh : start.reader.Sound := .fresh mode settings
  refine ⟨fun now reached => ?_, reaches_last mode settings listener state, ?_⟩
  · have sound : now.reader.Sound := Reaches.sound reached fresh
    obtain ⟨same, hosted⟩ : now.reader.mode = mode ∧ now.reader.Hosted now.told :=
      Reaches.keeps (P := fun now => now.reader.mode = mode ∧ now.reader.Hosted now.told) reached
        fresh ⟨rfl, fun _ => rfl, .nothing, by rintro _ ⟨⟩⟩ fun sound follows kept =>
        ⟨(follows.connection sound).1.trans kept.1, follows.hosted sound kept.2⟩
    refine ⟨same ▸ hosted.heralded, ?_⟩
    intro head pending b tail later between fits fresh opens capacity step
    obtain ⟨events, fault⟩ := Reader.turn_lineStart between capacity b tail later
    rw [show step.events = _ from events, show step.fault = _ from fault, ← same]
    exact Reader.push_announced sound hosted between fits fresh opens
  · intro before memoryCapacity reader first block fragments spelled within fed
    obtain ⟨same, _⟩ := Reader.through_connection fresh listener state before
    have opening : reader.Opening := .reset (fresh.through listener state before)
    have announced := first.announced opening block fragments spelled
      (Reader.spares_reset listener state before within)
    rwa [show reader.mode = mode from same] at announced

theorem hosts_announced_of_requests :
    let listener := Recorder.listener {}
    let asked : Bytes := Text.toBytes
      "GET / HTTP/1.1\r\nHost: a\r\nhOST:\r\n [::1]:80\r\nA: b\r\n".toList
    let now := (fresh .request {} {}).through listener [.read [asked]]
    let blank := now.reader.turn (now.reader.capacityFor listener now.state) cr [lf] []
    let reader := (Reader.through { mode := .request } listener {} []).1.reset
    let fed := (reader.feedAll (Recorder.listener {}) {}
      [[Text.toBytes "GET / HTTP/1.1\nA: ".toList], [Text.toBytes "b\n\n".toList]]).2.1
    Heralded .request now.told ∧ (Event.fields now.told).length = 2 ∧
      blank.step.fault ≠ some .noHost ∧ fed.fault = some .noHost := by
  intro listener asked now blank reader fed
  obtain ⟨instants, runs, messages⟩ := hosts_announced .request {} listener {}
  obtain ⟨heralded, octets⟩ := instants now (runs [.read [asked]]).1
  let waits : Stage :=
    .lineStart (.request .http11 true) (some ⟨none, "A".toList, "b".toList, false⟩)
  have standing : now.reader.stage = waits ∧ now.reader.fits 1 = true ∧
      now.reader.isLineRest cr = false ∧ (Event.fields now.told).length = 2 ∧
      Event.fields blank.step.events = [("A".toList, "b".toList)] ∧
      Event.lacksHost (now.told ++ blank.step.events) = false := by decide +kernel
  obtain ⟨between, fits, fresh, two, one, there⟩ := standing
  have ended := octets _ _ cr [lf] [] between fits fresh (by decide)
  let first : reader.StartLine none :=
    { head := .request .http11 false
      event := .requestLine ⟨"GET".toList, by decide, by decide⟩ [0x2f] (some .http11)
      octets := Text.toBytes "GET / HTTP/1.1".toList
      ending := ⟨0⟩
      known := rfl
      quiet := by decide +kernel
      told := by decide +kernel }
  let block : FieldSection :=
    { lines := [⟨Text.toBytes "A: b".toList, ⟨0⟩, by decide +kernel, by decide +kernel⟩]
      blank := ⟨0⟩
      fields := [("A".toList, "b".toList)]
      spells := by decide +kernel }
  have told : Event.fields fed.events = block.fields ∧ Event.lacksHost fed.events = true := by
    decide +kernel
  have message := messages [] none first block
    [[Text.toBytes "GET / HTTP/1.1\nA: ".toList], [Text.toBytes "b\n\n".toList]]
    (by decide +kernel) (.inr (by decide +kernel))
  refine ⟨heralded, two, fun missing => ?_, (message.whole told.1).mpr told.2⟩
  have lacking := (ended.whole one).mp missing
  rw [there] at lacking
  cases lacking

end Instant
end HttpStream
