import HttpStream.Proofs.Account

/-! What an octet or a turn tells goes on with what was told of the message before. -/

set_option autoImplicit false

namespace HttpStream

open Octet

namespace Reader

abbrev Told (r : Reader) (part : Part) (events : List Event) : Prop :=
  HttpStream.Told r.mode r.settings.trailers part events

variable {r s t : Reader} {b : UInt8} {capacity n : Nat} {step : Step} {events more : List Event}
  {part : Part}

theorem Kin.told (kin : r.Kin s) : s.Told part events ↔ r.Told part events := by
  simp only [Told, kin.mode, kin.settings]

/-! An octet. -/

theorem StartLineStep.told (h : r.StartLineStep capacity b step)
    (line : r.stage.inStartLine = true) (told : r.Told .startLine events) :
    r.Told step.reader.stage.part (events ++ step.events) := by
  cases h with
  | inside stage _ after =>
    have part : stage.part = .startLine := Stage.part_of_inStartLine after
    exact (part ▸ told).silent rfl
  | fault =>
    have part : r.stage.part = .startLine := Stage.part_of_inStartLine line
    exact (part ▸ told).silent rfl
  | shortRequest side method =>
    have opened := told.start (.requestLine method r.uri none) (by simp [Event.opens, side])
    have whole := opened.headerComplete.messageComplete (.inl rfl)
    rw [List.append_assoc, List.append_assoc] at whole
    exact whole
  | requestLine side method version => exact told.start _ (by simp [Event.opens, side])
  | statusLine side => exact told.start _ (by simp [Event.opens, side])

theorem Delivery.told {mode : Mode} {trailing : Bool} {pending : Option Field}
    (h : Delivery mode pending more) (sound : ∀ field ∈ pending, field.Sound)
    (told : HttpStream.Told mode trailing .fields events) :
    HttpStream.Told mode trailing .fields (events ++ more) := by
  cases h with
  | nothing =>
    exact told.silent rfl
  | plain field => exact told.notice { name := field.name, value := field.value, isHost := nofun }
  | host field side known host port =>
    have name : Text.fold field.name = Text.fold StandardName.host.text.toList :=
      StandardName.fold_of_ofText? (by rw [← (sound field rfl).standard, known])
    exact told.notice
      { name := field.name, value := field.value, host := some (host, port),
        isHost := fun _ => ⟨side, name⟩ }

theorem FieldStep.told (h : r.FieldStep b step) (line : r.stage.inFields = true)
    (told : r.Told .fields events) :
    r.Told step.reader.stage.part (events ++ step.events) := by
  cases h with
  | inside stage _ after =>
    have part : stage.part = .fields := Stage.part_of_inFields after
    exact (part ▸ told).silent rfl
  | fault =>
    have part : r.stage.part = .fields := Stage.part_of_inFields line
    exact (part ▸ told).silent rfl
  | field side sound delivered =>
    have delivery := (flush_ok delivered).2.2.2
    rw [side] at delivery
    exact delivery.told sound told
  | @blank _ _ _ _ fieldEvents side sound delivered =>
    have delivery := (flush_ok delivered).2.2.2
    rw [side] at delivery
    have told : r.Told .fields (events ++ fieldEvents) := delivery.told sound told
    obtain ⟨framing, contentLength, cache, step, same, blank, _⟩ := flush_blank delivered b
    rw [same, ← List.append_assoc]
    cases blank with
    | fault =>
      have part : r.stage.part = .fields := Stage.part_of_inFields line
      exact (part ▸ told).silent rfl
    | body _ stage body uncounted =>
      have part : stage.part = .body := by simp [Stage.part_of_inBody body, uncounted]
      rw [part]
      exact told.headerComplete
    | finished =>
      have whole := told.headerComplete.messageComplete (.inl rfl)
      rw [List.append_assoc] at whole
      exact whole

theorem deliver_part (r : Reader) (bytes : Bytes) :
    (r.deliver bytes).reader.stage.part = r.stage.part := by
  simp only [deliver, enter_stage]
  split
  · next stage => rw [stage]; rfl
  · next stage => rw [stage]; rfl
  · rfl

theorem BodyStep.told (h : r.BodyStep b step) (body : r.stage.inBody = true)
    (told : r.Told r.stage.part events) :
    r.Told step.reader.stage.part (events ++ step.events) := by
  have part := Stage.part_of_inBody body
  cases h with
  | slice _ uncounted =>
    rw [deliver_part]
    simp only [part, uncounted] at told ⊢
    exact told.content [b]
  | inside stage _ after same =>
    have after : stage.part = r.stage.part := by rw [Stage.part_of_inBody after, same, part]
    exact (after ▸ told).silent rfl
  | trailers uncounted configured =>
    simp only [part, uncounted] at told
    exact (told.toTrailers configured).silent rfl
  | fault stage after same =>
    have after : stage.part = r.stage.part := by rw [Stage.part_of_inBody after, same, part]
    exact (after ▸ told).silent rfl
  -- The end of a message is told behind content and behind trailers.
  | finished =>
    refine told.messageComplete ?_
    rw [part]
    cases r.stage.isCounted <;> simp
  | trailer counted name value =>
    simp only [part, counted] at told
    exact told.trailer name value

theorem OctetStep.told (h : r.OctetStep capacity b step) (told : r.Told r.stage.part events) :
    r.Told step.reader.stage.part (events ++ step.events) := by
  cases h with
  | limit | lineRest | idle => exact told.silent rfl
  | startLine _ line cause =>
    rw [Stage.part_of_inStartLine line] at told
    exact cause.told line told
  | fields _ line cause =>
    rw [Stage.part_of_inFields line] at told
    exact cause.told line told
  | body _ body cause => exact cause.told body told

theorem push_told (sound : r.Sound) (told : r.Told r.stage.part events) :
    r.Told (r.push capacity b).reader.stage.part (events ++ (r.push capacity b).events) :=
  (push_cases sound capacity).told told

/-! A fault does not end a message. -/

theorem FieldStep.open_of_fault {fault : Fault} (h : r.FieldStep b step)
    (wrong : step.fault = some fault) : step.reader.stage = r.stage := by
  cases h with
  | inside | field => cases wrong
  | fault => rfl
  | blank side sound delivered =>
    obtain ⟨framing, contentLength, cache, step, same, blank, _⟩ := flush_blank delivered b
    rw [same] at wrong ⊢
    cases blank with
    | fault => rfl
    | body | finished => cases wrong

theorem OctetStep.open_of_fault {fault : Fault} (h : r.OctetStep capacity b step)
    (wrong : step.fault = some fault) (busy : r.stage ≠ .done) : step.reader.stage ≠ .done := by
  cases h with
  | limit => exact busy
  | lineRest | idle => cases wrong
  | startLine _ _ cause =>
    cases cause with
    | fault => exact busy
    | inside | shortRequest | requestLine | statusLine => cases wrong
  | fields _ _ cause => exact cause.open_of_fault wrong ▸ busy
  | body _ _ cause =>
    cases cause with
    | fault stage body => rintro (rfl : stage = _); cases body
    | slice | inside | trailers | finished | trailer => cases wrong

/-! A turn. -/

theorem Noted.samePart (h : s.Noted t) : t.stage.part = s.stage.part := by
  rw [← Stage.part_plain, h.stage, Stage.part_plain]

variable {bytes : Bytes} {turn : Turn}

theorem TurnCase.told (h : r.TurnCase capacity b bytes turn) (sound : r.Sound)
    (told : r.Told r.stage.part events) :
    r.Told turn.step.reader.stage.part (events ++ turn.step.events) := by
  let carried (s : Reader) (events : List Event) : Prop := r.Kin s ∧ r.Told s.stage.part events
  have next : carried turn.step.reader (events ++ turn.step.events) := by
    refine h.carries sound ⟨.refl r, told⟩ ?_ (fun _ _ _ _ ⟨kin, told⟩ =>
      ⟨⟨kin.mode, kin.settings, kin.headResponse⟩, told⟩) ?_ ?_
    · intro t b events sound _ ⟨kin, told⟩
      exact ⟨kin.trans (push_kin sound), kin.told.mp (push_told sound (kin.told.mpr told))⟩
    · intro t u events noted _ ⟨kin, told⟩
      exact ⟨kin.trans noted.kin, noted.samePart ▸ told⟩
    · intro b rest room
      obtain ⟨body, uncounted, _⟩ := inBody_of_room room
      have part : r.stage.part = .body := by rw [Stage.part_of_inBody body, uncounted]; rfl
      have kept := deliver_part { r with afterCr := false } (b :: rest)
      rw [part] at told
      refine ⟨⟨rfl, rfl, rfl⟩, ?_⟩
      rw [kept, show ({ r with afterCr := false } : Reader).stage.part = .body from part]
      exact told.content _
  exact next.2

theorem TurnCase.open_of_fault {fault : Fault} (h : r.TurnCase capacity b bytes turn)
    (sound : r.Sound) (wrong : turn.step.fault = some fault) (busy : r.stage ≠ .done) :
    turn.step.reader.stage ≠ .done := by
  cases h.of_fault wrong
  exact (push_cases sound capacity).open_of_fault wrong busy

end Reader
end HttpStream
