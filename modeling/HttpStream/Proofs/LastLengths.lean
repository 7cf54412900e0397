import HttpStream.Proofs.Truncation

/-! Of several lengths that a message announces it is the last one that counts, as long as no field
before it makes the message chunked: a length that was found does not stay. -/

set_option autoImplicit false

namespace HttpStream
namespace Reader

variable {σ : Type} {asked : Bool} {r : Reader} {listener : Listener σ} {events : List Event}
  {before told : List NamedField}

/-! What is told goes on, call by call. -/

theorem answer_heard (listener : Listener σ) (state : σ × List Entry) {call : Call}
    (goesOn : call.goesOn = true) (sound : r.Sound) :
    heard state.2 <+: heard (r.answer (listener.logged call.isRead) state call).state.2 := by
  cases call with
  | read input =>
    exact read_carries (P := fun _ events => heard state.2 <+: events) listener state input sound
      (List.prefix_refl _) (fun _ _ _ told => told.trans (List.prefix_append _ _))
      (fun _ told => told.trans (List.prefix_append _ _)) (fun _ told => told)
  | shutdown =>
    have told := (r.shutdown_ended (listener.logged false) state).2
    rw [hear_logged] at told
    have log : (r.answer (listener.logged false) state .shutdown).state.2 =
        state.2 ++ r.ended.events.map (.told false) := congrArg Prod.snd told
    simp only [Call.isRead, log, heard_append]
    exact List.prefix_append _ _
  | headResponse => exact List.prefix_refl _
  | reset | close => cases goesOn

theorem through_accounted (more : List Call) (state : σ) {log : List Entry}
    (goesOn : ∀ call ∈ more, call.goesOn = true) (sound : r.Sound)
    (accounted : Accounted asked r (heard log)) :
    (∃ asked, Accounted asked (r.through listener state more).1
        (heard (r.log listener state log more))) ∧
      heard log <+: heard (r.log listener state log more) := by
  -- On the calls. Each may have more told, and none of it is taken back; whether a HEAD was asked
  -- for may change on the way.
  induction more generalizing r state log asked with
  | nil => exact ⟨⟨asked, accounted⟩, List.prefix_refl _⟩
  | cons call rest ih =>
    obtain ⟨first, later⟩ := List.forall_mem_cons.mp goesOn
    obtain ⟨asked', next⟩ := answer_accounted listener (state, log) first sound accounted
    have sound' := sound.answer (listener.logged call.isRead) (state, log) call
    have grows := answer_heard listener (state, log) first sound
    have kept : call.isReset = false := by cases call <;> first | rfl | cases first
    have answered := @answer_inner _ r listener call.isRead (state, log) call
    simp only [through, Reader.log, kept, Bool.false_eq_true, if_false]
    rw [answered]
    obtain ⟨known, grows'⟩ := ih _ later sound' next
    exact ⟨known, grows.trans grows'⟩

/-! What the lengths come to. -/

theorem Heeded.announced (h : r.Heeded before)
    (found : r.framing = .noContent ∨ r.framing = .contentLength) :
    chunks before = false ∧ ∃ length, r.contentLength = some length := by
  have plain : chunks before = false := Bool.eq_false_iff.mpr fun chunked => by
    rcases found with found | found <;>
      cases found.symm.trans (h.chunks_iff.mp chunked)
  refine ⟨plain, ?_⟩
  have framing := h.framing
  rw [plain] at framing
  cases announced : announced? before with
  | none => rcases found with found | found <;> simp [found, announced] at framing
  | some length => exact ⟨_, by rw [h.counted.contentLength plain, announced]; rfl⟩

/-- With more fields the length is that of the last one that counts, if one does. -/
theorem Counted.later {s : Reader} {length : Nat} (h : s.Counted (before ++ told))
    (start : r.Counted before) (plain : chunks before = false)
    (known : r.contentLength = some length) :
    ∃ last, s.contentLength = some last ∧
      (lengths told = [] → last = length) ∧
      ∀ field ∈ (lengths told).getLast?, ∃ announced,
        Value.signed? field.2 = some announced ∧ last = announced.toNat := by
  unfold Counted at h
  rw [lengths_append, plain, if_neg Bool.false_ne_true, List.getLast?_append] at h
  cases later : (lengths told).getLast? with
  | none =>
    rw [later, Option.none_or, ← start, known] at h
    refine ⟨length, ?_, fun _ => rfl, nofun⟩
    cases own : s.contentLength <;> simp_all
  | some field =>
    rw [later, Option.some_or, Option.map_some] at h
    obtain ⟨last, own, same⟩ := Option.map_eq_some_iff.mp h
    obtain ⟨announced, signed, toNat⟩ := Option.map_eq_some_iff.mp same.symm
    refine ⟨last, own, fun none => by simp [none] at later, ?_⟩
    rintro _ ⟨⟩
    exact ⟨announced, signed, toNat.symm⟩

/-- Whoever listens and however the octets arrive: once a length has decided the framing of a
message whose fields go on, the fields told from then on decide it anew. The last of their lengths
ahead of the chunked coding replaces the one found before, whatever that was, and until the fields
end the framing follows it. So both stay as they were only if that last length is the same. -/
theorem last_length_counts (mode : Mode) (settings : Settings) (listener : Listener σ) (state : σ)
    (calls more : List Call) (goesOn : ∀ call ∈ more, call.goesOn = true) :
    let reached := Reader.through { mode, settings } listener state calls
    let r := reached.1
    let s := (r.through listener reached.2 more).1
    let log (more : List Call) := Reader.log { mode, settings } listener state [] (calls ++ more)
    let events := heard (log more)
    r.stage.inFields = true → (r.framing = .noContent ∨ r.framing = .contentLength) →
      ∃ told last, Event.fields events = Event.fields (heard (log [])) ++ told ∧
        s.contentLength = some last ∧
        (lengths told = [] → r.contentLength = some last) ∧
        (∀ field ∈ (lengths told).getLast?, ∃ announced,
          Value.signed? field.2 = some announced ∧ last = announced.toNat) ∧
        (.headerComplete ∉ events → s.framing =
          if chunks told then .chunked
          else if 0 < last then .contentLength else .noContent) := by
  intro reached r s log events line found
  obtain ⟨sound, known⟩ : r.Sound ∧ r.Known (heard (log [])) := by
    simp only [log, List.append_nil]
    exact through_known calls state (.fresh mode settings)
      (.accounted false (.fresh mode settings false false .unset))
  cases known with
  | ended closed => simp [closed, Stage.inFields] at line
  | accounted asked accounted =>
    have going := accounted.decides.going (Stage.inHead_of_inFields line)
    have start := accounted.decides.heeded going
    obtain ⟨plain, length, counted⟩ := start.announced found
    -- What is told from `r` on is told behind what led there, and the account goes on over both.
    have onward := @through_accounted _ _ r listener more reached.2 (log []) goesOn sound accounted
    have whole : r.log listener reached.2 (log []) more = log more := by
      simp only [log, log_append]
      rfl
    rw [whole] at onward
    obtain ⟨⟨asked', accounted'⟩, rest, events_eq⟩ := onward
    have fields : Event.fields events = Event.fields (heard (log [])) ++ Event.fields rest := by
      rw [show events = _ from events_eq.symm, Event.fields_append]
    have later : s.Counted (Event.fields events) := accounted'.decides.counted
    rw [fields] at later
    obtain ⟨last, inForce, none, numbers⟩ := later.later start.counted plain counted
    refine ⟨Event.fields rest, last, fields, inForce, fun silent => ?_, numbers, fun open_ => ?_⟩
    · rw [counted, none silent]
    · have framing := (accounted'.decides.heeded open_).inForce inForce
      rwa [show heard (log more) = events from rfl, fields, chunks_append, plain,
        Bool.false_or] at framing

theorem last_length_counts_of_two :
    let calls : List Call :=
      [.read [Text.toBytes "POST / HTTP/1.0\r\nContent-Length: 5\r\nC".toList]]
    let more : List Call := [.read [Text.toBytes "ontent-Length: 7\r\n\r\n".toList]]
    let listener := Recorder.listener {}
    let reached := Reader.through { mode := .request } listener {} calls
    let s := (reached.1.through listener reached.2 more).1
    let log (more : List Call) :=
      Reader.log { mode := .request } listener {} [] (calls ++ more)
    reached.1.stage.inFields = true ∧ reached.1.framing = .contentLength ∧
      ∃ told last, Event.fields (heard (log more)) = Event.fields (heard (log [])) ++ told ∧
        s.contentLength = some last ∧
        ∀ field ∈ (lengths told).getLast?, ∃ announced,
          Value.signed? field.2 = some announced ∧ last = announced.toNat := by
  intro calls more listener reached s log
  have found : reached.1.stage.inFields = true ∧ reached.1.framing = .contentLength := by
    decide +kernel
  obtain ⟨told, last, fields, inForce, _, numbers, _⟩ :=
    last_length_counts .request {} listener {} calls more (by decide) found.1 (.inr found.2)
  exact ⟨found.1, found.2, told, last, fields, inForce, numbers⟩

/-- A length that was found is replaced, and nothing is found wrong; so is the framing, by a length
of nothing. -/
theorem last_length_counts_unlike :
    let resolved := Text.toBytes "POST / HTTP/1.0\r\nContent-Length: 5\r\nC".toList
    let after (input : Input) :=
      (Reader.read { mode := .request } (Recorder.listener {}) {} input)
    let more := after [resolved, Text.toBytes "ontent-Length: 7\r\n\r\n".toList]
    let nothing := after [resolved, Text.toBytes "ontent-Length: 0\r\nA".toList]
    (after [resolved]).reader.stage.inFields = true ∧
      (after [resolved]).reader.framing = .contentLength ∧
      (after [resolved]).reader.contentLength = some 5 ∧
      more.state.fault = none ∧ more.reader.contentLength = some 7 ∧
      nothing.reader.stage.inFields = true ∧ nothing.state.fault = none ∧
      nothing.reader.framing = .noContent ∧ nothing.reader.contentLength = some 0 := by
  decide +kernel

end Reader
end HttpStream
