import HttpStream.Proofs.Steps

/-! An octet keeps a reader sound, and leaves alone what belongs to the connection: the side that
is read, the settings, and whether the response has a body. -/

set_option autoImplicit false

namespace HttpStream

theorem Stage.side?_of_inBody {stage : Stage} (body : stage.inBody = true) :
    stage.side? = none ∧ stage.Sound := by
  cases stage <;> simp_all [Stage.inBody, Stage.side?, Stage.Sound]

theorem Stage.sound_of_inStartLine {stage : Stage} (line : stage.inStartLine = true) :
    stage.Sound := by
  cases stage <;> simp_all [Stage.inStartLine, Stage.Sound]

namespace Reader

structure Kin (r s : Reader) : Prop where
  mode : s.mode = r.mode
  settings : s.settings = r.settings
  headResponse : s.headResponse = r.headResponse

variable {r s t : Reader} {b : UInt8} {capacity : Nat} {step : Step}

theorem Kin.refl (r : Reader) : r.Kin r := ⟨rfl, rfl, rfl⟩

theorem Kin.trans (first : r.Kin s) (second : s.Kin t) : r.Kin t :=
  ⟨second.mode.trans first.mode, second.settings.trans first.settings,
    second.headResponse.trans first.headResponse⟩

theorem Kin.of_counted {headerBytes : Nat} {afterCr : Bool}
    (h : Kin { r with headerBytes, afterCr } s) : r.Kin s :=
  ⟨h.mode, h.settings, h.headResponse⟩

/-! The start line. -/

theorem StartLineStep.kin (h : r.StartLineStep capacity b step) : r.Kin step.reader := by
  cases h <;> exact ⟨rfl, rfl, rfl⟩

theorem StartLineStep.sound (h : r.StartLineStep capacity b step) (sound : r.Sound) :
    step.reader.Sound := by
  cases h with
  | inside stage target line side =>
    exact ⟨Stage.sound_of_inStartLine line, side, sound.cache, sound.measured⟩
  | fault => exact sound
  | shortRequest => exact ⟨trivial, by rintro _ ⟨⟩, sound.cache, sound.measured⟩
  | requestLine side method version =>
    refine ⟨trivial, ?_, ?_, sound.measured⟩
    · rintro _ ⟨⟩
      exact side.symm
    · simp only [Reader.requestLine]
      split
      · exact sound.cache.enable capacity
      · exact sound.cache
  | statusLine side =>
    refine ⟨trivial, ?_, sound.cache, sound.measured⟩
    rintro _ ⟨⟩
    exact side.symm

/-! The field section. -/

theorem endFields_kin (head : Head) : r.Kin (r.endFields head).reader := by
  have cases := r.endFields_blank head
  generalize r.endFields head = step at cases
  cases cases <;> exact ⟨rfl, rfl, rfl⟩

theorem endFields_sound (head : Head) (sound : r.Sound) : (r.endFields head).reader.Sound := by
  have cases := r.endFields_blank head
  generalize r.endFields head = step at cases
  cases cases with
  | fault => exact sound
  | body framing stage body _ _ kept =>
    obtain ⟨noSide, trivial⟩ := Stage.side?_of_inBody body
    exact ⟨trivial, by simp [noSide], sound.cache, fun final => sound.measured (kept final)⟩
  | finished framing kept =>
    exact ⟨trivial, by simp [Stage.side?], sound.cache,
      fun final => sound.measured (kept final)⟩

theorem flush_kin {head after : Head} {pending : Option Field} {events : List Event}
    (h : r.flush head pending = .ok (s, after, events)) : r.Kin s := by
  obtain ⟨⟨framing, contentLength, cache, rfl, _⟩, _⟩ := flush_ok h
  exact ⟨rfl, rfl, rfl⟩

theorem flush_sound {head after : Head} {pending : Option Field} {events : List Event}
    (h : r.flush head pending = .ok (s, after, events)) (sound : r.Sound)
    (fields : ∀ field ∈ pending, field.Sound) : s.Sound := by
  obtain ⟨⟨framing, contentLength, cache, rfl, kept⟩, measured, _⟩ := flush_ok h
  exact ⟨sound.stage, sound.side, kept sound.cache fields, measured sound.measured⟩

theorem FieldStep.kin (h : r.FieldStep b step) : r.Kin step.reader := by
  cases h with
  | inside => exact ⟨rfl, rfl, rfl⟩
  | fault => exact .refl r
  | field side fields delivered token =>
    have kin := flush_kin delivered
    exact ⟨kin.mode, kin.settings, kin.headResponse⟩
  | @blank flushed _ after _ _ side fields delivered =>
    have kin : (flushed.endLine b).Kin ((flushed.endLine b).endFields after).reader :=
      endFields_kin after
    exact (flush_kin delivered).trans ⟨kin.mode, kin.settings, kin.headResponse⟩

theorem FieldStep.sound (h : r.FieldStep b step) (sound : r.Sound) : step.reader.Sound := by
  cases h with
  | inside stage ended line side held => exact ⟨held, side, sound.cache, sound.measured⟩
  | fault => exact sound
  | @field flushed head after pending events side fields delivered token =>
    have next := flush_sound delivered sound fields
    refine ⟨trivial, ?_, next.cache, next.measured⟩
    rintro _ ⟨⟩
    exact (flush_ok delivered).2.2.1.trans (side.trans (flush_kin delivered).mode.symm)
  | blank side fields delivered =>
    exact endFields_sound _ ((flush_sound delivered sound fields).endLine b)

/-! The body. -/

theorem BodyStep.kin (h : r.BodyStep b step) : r.Kin step.reader := by
  cases h <;> exact ⟨rfl, rfl, rfl⟩

theorem deliver_inBody (body : r.stage.inBody = true) (bytes : Bytes) :
    (r.deliver bytes).reader.stage.inBody = true := by
  simp only [deliver]
  split
  · rfl
  · rfl
  · exact body

theorem BodyStep.outside (h : r.BodyStep b step) (body : r.stage.inBody = true) :
    step.reader.stage.inHead = false := by
  cases h with
  | slice => exact Stage.inHead_of_inBody (deliver_inBody body _)
  | inside _ _ body => exact Stage.inHead_of_inBody body
  | fault _ body => exact Stage.inHead_of_inBody body
  | trailers | finished | trailer => rfl

/-- In the body nothing but the place of the reader changes that is to be sound. -/
theorem Sound.inBody (sound : r.Sound) (body : s.stage.inBody = true) (cache : s.cache = r.cache)
    (framing : s.framing = r.framing) (length : s.contentLength = r.contentLength) : s.Sound := by
  obtain ⟨noSide, trivial⟩ := Stage.side?_of_inBody body
  exact ⟨trivial, by simp [noSide], cache ▸ sound.cache,
    fun final => length ▸ sound.measured (framing ▸ final)⟩

theorem BodyStep.sound (h : r.BodyStep b step) (sound : r.Sound) : step.reader.Sound := by
  cases h with
  | slice body => exact sound.inBody (deliver_inBody body [b]) rfl rfl rfl
  | inside stage ended body => exact sound.inBody body rfl rfl rfl
  | trailers => exact sound.inBody rfl rfl rfl rfl
  | fault stage body => exact sound.inBody body rfl rfl rfl
  | finished => exact (sound.endLine b).enter trivial (by simp [Stage.side?])
  | trailer => exact sound.inBody rfl rfl rfl rfl

/-! Any octet. -/

theorem OctetStep.kin (h : r.OctetStep capacity b step) : r.Kin step.reader := by
  cases h with
  | limit | lineRest | idle => exact ⟨rfl, rfl, rfl⟩
  | startLine _ _ cause => exact cause.kin.of_counted
  | fields _ _ cause => exact cause.kin.of_counted
  | body _ _ cause => exact cause.kin.of_counted

theorem OctetStep.sound (h : r.OctetStep capacity b step) (sound : r.Sound) :
    step.reader.Sound := by
  cases h with
  | limit | lineRest | idle => exact sound.counted _ _
  | startLine _ _ cause => exact cause.sound (sound.counted _ _)
  | fields _ _ cause => exact cause.sound (sound.counted _ _)
  | body _ _ cause => exact cause.sound (sound.counted _ _)

theorem interpret_kin (h : r.Sound) : r.Kin (r.interpret capacity b).reader := by
  rcases part_cases r.stage with line | line | body | finished
  · exact (interpret_startLine h line).kin
  · exact (interpret_fields h line).kin
  · exact (interpret_body body).kin
  · rcases finished with stage | stage <;> simp only [interpret, stage] <;> exact .refl r

/-! The meaning of an octet does not count it. -/

theorem StartLineStep.headerBytes (h : r.StartLineStep capacity b step) :
    step.reader.headerBytes = r.headerBytes := by
  cases h <;> rfl

theorem FieldStep.headerBytes (h : r.FieldStep b step) :
    step.reader.headerBytes = r.headerBytes := by
  have flushed {s : Reader} {head after : Head} {pending : Option Field} {events : List Event}
      (h : r.flush head pending = .ok (s, after, events)) : s.headerBytes = r.headerBytes := by
    obtain ⟨⟨framing, contentLength, cache, rfl, _⟩, _⟩ := flush_ok h
    rfl
  cases h with
  | inside | fault => rfl
  | field _ _ delivered =>
    have count := flushed delivered
    exact count
  | blank _ _ delivered =>
    obtain ⟨framing, contentLength, cache, step, same, blank, _⟩ := flush_blank delivered b
    rw [same]
    cases blank <;> rfl

theorem BodyStep.headerBytes (h : r.BodyStep b step) :
    step.reader.headerBytes = r.headerBytes := by
  cases h <;> rfl

theorem interpret_headerBytes (h : r.Sound) :
    (r.interpret capacity b).reader.headerBytes = r.headerBytes := by
  rcases part_cases r.stage with line | line | body | finished
  · exact (interpret_startLine h line).headerBytes
  · exact (interpret_fields h line).headerBytes
  · exact (interpret_body body).headerBytes
  · rcases finished with stage | stage <;> simp only [interpret, stage, Step.quiet]

theorem push_headerBytes (sound : r.Sound) (capacity : Nat) (b : UInt8) :
    (r.push capacity b).reader.headerBytes =
      if r.stage.isCounted then r.headerBytes + 1 else r.headerBytes := by
  have accepted (r : Reader) (sound : r.Sound) :
      (r.accept capacity b).reader.headerBytes = r.headerBytes := by
    unfold accept
    split
    · rfl
    · exact interpret_headerBytes (r := { r with afterCr := false }) (sound.counted _ _)
  unfold push
  split
  · split
    · rfl
    · exact accepted r.count sound.count
  · exact accepted r sound

/-- The reader after an octet: the count or the note of a line end is all that differs, or the octet
has its meaning. -/
theorem push_reader (r : Reader) (capacity : Nat) (b : UInt8) :
    (∃ headerBytes afterCr, (r.push capacity b).reader = { r with headerBytes, afterCr }) ∨
      ∃ headerBytes, (r.push capacity b).reader =
        ({ r with headerBytes, afterCr := false }.interpret capacity b).reader := by
  have accepted (headerBytes : Nat) :
      (∃ afterCr, ({ r with headerBytes }.accept capacity b).reader =
        { r with headerBytes, afterCr }) ∨
        ({ r with headerBytes }.accept capacity b).reader =
          ({ r with headerBytes, afterCr := false }.interpret capacity b).reader := by
    unfold accept
    split
    · exact .inl ⟨_, rfl⟩
    · exact .inr rfl
  unfold push
  split
  · split
    · exact .inl ⟨_, _, rfl⟩
    · rcases accepted (r.headerBytes + 1) with ⟨afterCr, same⟩ | same
      · exact .inl ⟨_, afterCr, same⟩
      · exact .inr ⟨_, same⟩
  · rcases accepted r.headerBytes with ⟨afterCr, same⟩ | same
    · exact .inl ⟨_, afterCr, same⟩
    · exact .inr ⟨_, same⟩

/-- From the body an octet leads back to counted octets only by way of the trailers. -/
theorem BodyStep.configured (h : r.BodyStep b step) (uncounted : r.stage.isCounted = false)
    (counted : step.reader.stage.isCounted = true) : r.settings.trailers = true := by
  -- Most octets of the body lead to a stage that is counted exactly if theirs is.
  have again {P : Prop} (h : r.stage.isCounted = true) : P := by simp [uncounted] at h
  cases h with
  | slice body =>
    simp only [deliver, enter] at counted
    split at counted
    · cases counted
    · cases counted
    · exact again counted
  | inside stage ended body same => exact again (same ▸ counted)
  | trailers _ configured => exact configured
  | fault stage body same => exact again (same ▸ counted)
  | finished => cases counted
  | trailer before => exact again before

theorem interpret_trailers (h : r.stage.isCounted = false)
    (counted : (r.interpret capacity b).reader.stage.isCounted = true) :
    r.settings.trailers = true := by
  rcases part_cases r.stage with line | line | body | finished
  · cases stage : r.stage <;> simp_all [Stage.inStartLine, Stage.isCounted, Stage.inHead]
  · cases stage : r.stage <;> simp_all [Stage.inFields, Stage.isCounted, Stage.inHead]
  · exact (interpret_body body).configured h counted
  · rcases finished with stage | stage <;> simp only [interpret, stage, Step.quiet] at counted <;>
      cases counted

theorem push_kin (h : r.Sound) : r.Kin (r.push capacity b).reader := (push_cases h capacity).kin

theorem Sound.push (h : r.Sound) (capacity : Nat) (b : UInt8) : (r.push capacity b).reader.Sound :=
  (push_cases h capacity).sound h

end Reader
end HttpStream
