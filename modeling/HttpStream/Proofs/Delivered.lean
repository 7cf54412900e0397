import HttpStream.Proofs.Deciding

/-! The octets of a body that were told: none without a body, and of a body of known length as many
as were announced, once the message is over. -/

set_option autoImplicit false

namespace HttpStream

namespace Event

def octets (events : List Event) : Nat := (contents events).flatten.length

theorem contents_append (events more : List Event) :
    contents (events ++ more) = contents events ++ contents more := List.filterMap_append

theorem octets_append (events more : List Event) :
    octets (events ++ more) = octets events + octets more := by
  simp [octets, contents_append]

theorem octets_of_contents {events : List Event} (none : contents events = []) :
    octets events = 0 := by
  simp [octets, none]

end Event

namespace Reader

variable {asked : Bool} {r s : Reader} {b : UInt8} {capacity : Nat} {step : Step}
  {events more : List Event}

theorem Delivery.contents {mode : Mode} {pending : Option Field}
    (h : Delivery mode pending more) : Event.contents more = [] ∧ .messageComplete ∉ more := by
  cases h <;> exact ⟨rfl, by simp⟩

/-- What was told of a body, and what the reader knows of it. -/
structure Delivered (r : Reader) (events : List Event) : Prop where
  total : r.contentRead = Event.octets events
  none : r.stage.inHead = true ∨ r.framing = .noContent → Event.contents events = []
  counted : r.framing = .contentLength → .headerComplete ∈ events → ∃ length,
    r.contentLength = some length ∧ Event.octets events ≤ length ∧
      (r.stage = .done → Event.octets events = length)
  finished : .messageComplete ∈ events → r.stage = .done
  ends : r.stage = .done → r.framing ≠ .untilClose

namespace Delivered

theorem isOpen (h : r.Delivered events) (busy : r.stage ≠ .done) : .messageComplete ∉ events :=
  mt h.finished busy

theorem of_head (inside : s.stage.inHead = true) (count : s.contentRead = 0)
    (none : Event.contents events = []) (open_ : .messageComplete ∉ events)
    (going : .headerComplete ∉ events) : s.Delivered events where
  total := count.trans (Event.octets_of_contents none).symm
  none _ := none
  counted _ ended := absurd ended going
  finished complete := absurd complete open_
  ends done := by simp [done, Stage.inHead] at inside

theorem of_body (framed : s.Framed) (body : s.stage.inBody = true)
    (count : s.contentRead = Event.octets events) (open_ : .messageComplete ∉ events) :
    s.Delivered events := by
  have busy : s.stage ≠ .done := fun done => by simp [done, Stage.inBody] at body
  obtain ⟨framing, known⟩ := Stage.exists_framing? body
  have same : s.framing = framing := framed.framing framing known
  refine ⟨count, ?_, ?_, fun complete => absurd complete open_, fun done =>
    absurd done busy⟩
  · rintro (inside | bare)
    · simp [Stage.inHead_of_inBody body] at inside
    · rw [← same, bare] at known
      cases stage : s.stage <;> simp [stage, Stage.framing?] at known
  · intro announced _
    rw [← same, announced] at known
    cases stage : s.stage with
    | content remaining =>
      obtain ⟨length, _⟩ := framed.content remaining stage
      exact ⟨_, length, by rw [← count]; exact Nat.le_add_right .., by rintro ⟨⟩⟩
    | _ => simp [stage, Stage.framing?] at known

theorem of_eq (h : r.Delivered events) (stage : s.stage = r.stage) (framing : s.framing = r.framing)
    (length : s.contentLength = r.contentLength) (count : s.contentRead = r.contentRead) :
    s.Delivered events := by
  constructor
  · rw [count]
    exact h.total
  · rw [stage, framing]
    exact h.none
  · rw [stage, framing, length]
    exact h.counted
  · rw [stage]
    exact h.finished
  · rw [stage, framing]
    exact h.ends

theorem shut (h : r.Delivered events) (busy : r.stage ≠ .done) :
    (r.enter .closed).Delivered events where
  total := h.total
  none bare := by
    rcases bare with inside | bare
    · cases inside
    · exact h.none (.inr bare)
  counted announced ended := by
    obtain ⟨length, known, within, _⟩ := h.counted announced ended
    exact ⟨length, known, within, by rintro ⟨⟩⟩
  finished complete := absurd complete (h.isOpen busy)
  ends := nofun

theorem complete (h : r.Delivered events) (framed : r.Framed) (full : r.stage = .content 0) :
    (r.enter .done).Delivered (events ++ [.messageComplete]) := by
  obtain ⟨length, positive⟩ := framed.content 0 full
  have framing : r.framing = .contentLength := framed.framing _ (by rw [full]; rfl)
  have count := h.total
  have octets : Event.octets (events ++ [.messageComplete]) = Event.octets events := by
    rw [Event.octets_append]
    rfl
  refine ⟨by rw [octets]; exact count, ?_, ?_, fun _ => rfl, ?_⟩
  · rintro (inside | bare)
    · cases inside
    · simp [enter, framing] at bare
  · intro _ _
    refine ⟨_, length, ?_⟩
    rw [octets, ← count]
    exact ⟨Nat.le_refl _, fun _ => rfl⟩
  · intro _
    simp [enter, framing]

end Delivered

/-! An octet. -/

theorem Decides.going (h : Decides asked r events) (inside : r.stage.inHead = true) :
    .headerComplete ∉ events := by
  rcases part_cases r.stage with line | line | body | finished
  · rw [h.undecided.ahead line]
    exact List.not_mem_nil
  · obtain ⟨head, known⟩ : ∃ head, r.stage.head? = some head := by
      cases stage : r.stage <;> rw [stage] at line <;> first | exact ⟨_, rfl⟩ | cases line
    exact (h.undecided.waiting head known).2
  · simp [Stage.inHead_of_inBody body] at inside
  · rcases finished with done | closed
    · simp [done, Stage.inHead] at inside
    · simp [closed, Stage.inHead] at inside

theorem StartLineStep.delivered (h : r.StartLineStep capacity b step)
    (line : r.stage.inStartLine = true) (decides : Decides asked r events)
    (delivered : r.Delivered events) : step.reader.Delivered (events ++ step.events) := by
  obtain ⟨rfl, framing, _⟩ := decides.ahead line
  have count : r.contentRead = 0 := delivered.total
  cases h with
  | inside stage target inside =>
    exact .of_head (Stage.inHead_of_inStartLine inside) count rfl (by simp [Step.quiet])
      (by simp [Step.quiet])
  | fault =>
    rw [Step.fail, List.append_nil]
    exact delivered
  | shortRequest =>
    refine ⟨count, fun _ => rfl, ?_, fun _ => rfl, ?_⟩
    · intro announced
      cases framing.symm.trans announced
    · intro _ waits
      cases framing.symm.trans waits
  | requestLine =>
    simp only [Reader.requestLine]
    exact .of_head rfl count rfl (by simp) (by simp)
  | statusLine =>
    simp only [Reader.statusLine]
    exact .of_head rfl count rfl (by simp) (by simp)

theorem FieldStep.delivered (h : r.FieldStep b step) (line : r.stage.inFields = true)
    (framed : step.reader.Framed) (decides : Decides asked r events)
    (delivered : r.Delivered events) : step.reader.Delivered (events ++ step.events) := by
  have inside : r.stage.inHead = true := Stage.inHead_of_inFields line
  have busy : r.stage ≠ .done := fun done => by simp [done, Stage.inHead] at inside
  have going := decides.going inside
  have none := delivered.none (.inl inside)
  have opened := delivered.isOpen busy
  have count : r.contentRead = 0 :=
    delivered.total.trans (Event.octets_of_contents none)
  -- No slice was told yet, so that all there is to show is that no field line tells one either.
  cases h with
  | inside stage ended inside =>
    rw [Step.quiet, List.append_nil]
    exact .of_head (Stage.inHead_of_inFields inside) count none opened going
  | fault =>
    rw [Step.fail, List.append_nil]
    exact delivered
  | @field flushed head after pending told side fields flush token known =>
    obtain ⟨⟨framing, contentLength, cache, kept, _⟩, _, _, delivery⟩ := flush_ok flush
    obtain ⟨quiet, silent⟩ := delivery.contents
    have count' : flushed.contentRead = 0 := by rw [kept]; exact count
    exact .of_head rfl count' (by rw [Event.contents_append, none, quiet]; rfl)
      (by simp [opened, silent]) (by simpa using mt (delivery.plain_append events).2.mp going)
  | @blank flushed head after pending told side fields flush known =>
    obtain ⟨⟨framing, contentLength, cache, kept, _⟩, _, _, delivery⟩ := flush_ok flush
    obtain ⟨quiet, silent⟩ := delivery.contents
    have none' : Event.contents (events ++ told) = [] := by
      rw [Event.contents_append, none, quiet]
      rfl
    have opened' : .messageComplete ∉ events ++ told := by simp [opened, silent]
    rcases (flushed.endLine b).endFields_cases after with
      fault | ⟨stage', more, body, begins⟩
    · rw [fault]
      simp only [Step.fail, List.append_nil]
      refine .of_head ?_ ?_ none' opened' (mt (delivery.plain_append events).2.mp going)
      · rw [endLine_stage, kept]
        exact inside
      · simp only [Reader.endLine, kept]
        exact count
    · rw [body] at framed ⊢
      simp only [← List.append_assoc]
      have quiet' : Event.contents (.headerComplete :: more) = [] := by
        cases begins <;> rfl
      have nothing : Event.contents (events ++ told ++ .headerComplete :: more) = [] := by
        rw [Event.contents_append, none', quiet']
        rfl
      cases begins with
      | body _ inBody =>
        exact .of_body framed inBody (Event.octets_of_contents nothing).symm
          (by simpa using opened')
      | finished bare =>
        refine ⟨(Event.octets_of_contents nothing).symm, fun _ => nothing, ?_, fun _ => rfl, ?_⟩
        · intro announced
          rcases bare with bare | bare <;> cases bare.symm.trans announced
        · intro _ waits
          rcases bare with bare | bare <;> cases bare.symm.trans waits

theorem BodyStep.delivered (h : r.BodyStep b step) (body : r.stage.inBody = true)
    (framed : step.reader.Framed) (chunked : step.reader.stage = .done → r.framing = .chunked)
    (delivered : r.Delivered events) : step.reader.Delivered (events ++ step.events) := by
  have busy : r.stage ≠ .done := fun done => by simp [done, Stage.inBody] at body
  have opened := delivered.isOpen busy
  have count := delivered.total
  cases h with
  | slice =>
    refine .of_body framed (deliver_inBody body [b]) ?_ (by simp [Reader.deliver, opened])
    rw [Event.octets_append, ← count]
    rfl
  | inside stage ended after =>
    rw [Step.quiet, List.append_nil]
    exact .of_body framed after count opened
  | trailers =>
    rw [Step.quiet, List.append_nil]
    exact .of_body framed rfl count opened
  | fault stage after =>
    rw [Step.fail, List.append_nil]
    exact .of_body framed after count opened
  | finished =>
    -- Only a chunked body is ended by an octet of its own.
    have coding : r.framing = .chunked := chunked rfl
    have total : r.contentRead = Event.octets (events ++ [.messageComplete]) := by
      rw [Event.octets_append, count]
      rfl
    refine ⟨total, ?_, ?_, fun _ => rfl, ?_⟩
    · rintro (inside | bare)
      · cases inside
      · cases coding.symm.trans bare
    · intro announced
      cases coding.symm.trans announced
    · intro _ waits
      cases coding.symm.trans waits
  | trailer =>
    refine .of_body framed rfl ?_ (by simp [opened])
    rw [Event.octets_append, ← count]
    rfl

/-- Of all bodies only a chunked one ends with an octet. -/
theorem interpret_done (body : r.stage.inBody = true)
    (done : (r.interpret capacity b).reader.stage = .done) :
    r.stage.framing? = some .chunked := by
  cases stage : r.stage with
  | untilClose | content =>
    simp only [interpret, stage, Reader.deliver, enter_stage] at done
    cases done
  | chunkStart | chunkSize | chunkParams | chunkData | trailer => rfl
  | _ => simp [stage, Stage.inBody] at body

theorem push_done (body : r.stage.inBody = true) (done : (r.push capacity b).reader.stage = .done) :
    r.stage.framing? = some .chunked := by
  rcases push_reader r capacity b with ⟨headerBytes, afterCr, same⟩ | ⟨headerBytes, same⟩
  · rw [same] at done
    have done : r.stage = .done := done
    simp [done, Stage.inBody] at body
  · rw [same] at done
    exact interpret_done (r := { r with headerBytes, afterCr := false }) body done

theorem push_delivered (sound : r.Sound) (framed : r.Framed) (more : r.stage ≠ .content 0)
    (decides : Decides asked r events) (delivered : r.Delivered events) :
    (r.push capacity b).reader.Delivered (events ++ (r.push capacity b).events) := by
  have framed' : (r.push capacity b).reader.Framed := push_framed sound framed more
  have chunked (body : r.stage.inBody = true)
      (done : (r.push capacity b).reader.stage = .done) : r.framing = .chunked :=
    framed.framing _ (push_done body done)
  have counted (headerBytes : Nat) (afterCr : Bool) :
      Delivered { r with headerBytes, afterCr } events := delivered.of_eq rfl rfl rfl rfl
  have decides' (headerBytes : Nat) (afterCr : Bool) :
      Decides asked { r with headerBytes, afterCr } events := decides.of_eq rfl rfl rfl rfl
  have push := push_cases sound capacity (b := b)
  generalize r.push capacity b = step at framed' chunked push
  cases push with
  | limit | lineRest | idle =>
    simp only [Step.fail, Step.quiet, List.append_nil]
    exact counted _ _
  | startLine headerBytes line cause =>
    exact cause.delivered line (decides' headerBytes false) (counted headerBytes false)
  | fields headerBytes line cause =>
    exact cause.delivered line framed' (decides' headerBytes false) (counted headerBytes false)
  | body headerBytes body cause =>
    exact cause.delivered body framed' (chunked body) (counted headerBytes false)

/-! A turn. -/

structure Accounted (asked : Bool) (r : Reader) (events : List Event) : Prop where
  framed : r.Framed
  decides : Decides asked r events
  delivered : r.Delivered events

theorem Accounted.of_eq (h : Accounted asked r events) (headerBytes : Nat) (afterCr : Bool) :
    Accounted asked { r with headerBytes, afterCr } events :=
  ⟨h.framed.counted _ _, h.decides.of_eq rfl rfl rfl rfl, h.delivered.of_eq rfl rfl rfl rfl⟩

theorem Noted.delivered (h : r.Noted s) (inside : r.stage.inHead = true)
    (decides : Decides asked r events) (delivered : r.Delivered events) : s.Delivered events := by
  have inside' : s.stage.inHead = true := h.inHead inside
  have busy : r.stage ≠ .done := fun done => by simp [done, Stage.inHead] at inside
  have none := delivered.none (.inl inside)
  have count : r.contentRead = 0 :=
    delivered.total.trans (Event.octets_of_contents none)
  obtain ⟨stage, rfl, _⟩ := h
  exact .of_head inside' count none (delivered.isOpen busy) (decides.going inside)

theorem TurnCase.accounted {bytes : Bytes} {turn : Turn} (h : r.TurnCase capacity b bytes turn)
    (sound : r.Sound) (more : r.stage ≠ .content 0) (accounted : Accounted asked r events) :
    Accounted asked turn.step.reader (events ++ turn.step.events) := by
  refine h.carries sound accounted ?_ (fun _ _ _ _ known => known.of_eq _ _) ?_ ?_
  · intro t b events sound inside known
    have more : t.stage ≠ .content 0 := by
      rcases inside with inside | rfl
      · exact ne_of_inHead inside
      · exact more
    exact ⟨push_framed sound known.framed more, push_decides sound known.decides,
      push_delivered sound known.framed more known.decides known.delivered⟩
  · intro t u events noted inside known
    exact ⟨noted.framed inside known.framed, noted.decides known.decides,
      noted.delivered inside known.decides known.delivered⟩
  · intro b rest room
    have body : r.stage.inBody = true := (inBody_of_room room).1
    have body' := deliver_inBody (r := { r with afterCr := false }) body (b :: rest)
    have busy : r.stage ≠ .done := fun done => by simp [done, Stage.inBody] at body
    have opened := accounted.delivered.isOpen busy
    have framed := accounted.framed.slice b rest room
    refine ⟨framed, accounted.decides.onward (Stage.inHead_of_inBody body') rfl rfl rfl
      (by simp [Event.isLate]), .of_body framed body' ?_ (by simp [opened])⟩
    rw [Event.octets_append, ← accounted.delivered.total]
    simp [Reader.deliver, Event.octets, Event.contents, Event.content?]

end Reader
end HttpStream
