import HttpStream.Proofs.Instants

/-! The memory of a connection over all of its messages: it starts with a request of a persistent
version, takes in fields that were told, never forgets one, and is given up for good when the
connection is to be closed. -/

set_option autoImplicit false

namespace HttpStream

open Octet

def Event.closes : Event → Bool
  | .header name value => Text.fold name == "connection".toList &&
      (Text.elements value).any fun element => Text.fold element == "close".toList
  | _ => false

def Event.persists : Event → Bool
  | .requestLine _ _ (some version) => version.isPersistent
  | _ => false

theorem Event.closes_header (name value : Text) : (Event.header name value).closes = true ↔
    StandardName.ofText? name = some .connection ∧ Value.lists .close value = true := by
  have name' : Text.fold StandardName.connection.text.toList = "connection".toList := by decide
  have token : Text.fold StandardToken.close.text.toList = "close".toList := by decide
  simp only [closes, Value.lists, Bool.and_eq_true, beq_iff_eq, List.any_eq_true,
    StandardName.ofText?_eq_some_iff, StandardToken.ofText?_eq_some_iff, name', token]

namespace Recall

/-- How a memory may come to be another one later: it may be given up, and else it only grows. -/
inductive Ages : Recall → Recall → Prop where
  | unset (cache : Recall) : Ages .unset cache
  | grown {old memory : FieldMemory} (capacity : memory.capacity = old.capacity)
      (size : old.size ≤ memory.size) : Ages (.active old) (.active memory)
  | disabled (cache : Recall) : Ages cache .disabled

variable {cache first second third : Recall} {line : FieldLine}

theorem Ages.refl (cache : Recall) : Ages cache cache := by
  cases cache with
  | unset => exact .unset _
  | active => exact .grown rfl (Nat.le_refl _)
  | disabled => exact .disabled _

theorem Ages.trans (sooner : Ages first second) (later : Ages second third) :
    Ages first third := by
  cases sooner with
  | unset => exact .unset _
  | grown capacity size =>
    cases later with
    | grown capacity' size' => exact .grown (capacity'.trans capacity) (Nat.le_trans size size')
    | disabled => exact .disabled _
  | disabled =>
    cases later with
    | disabled => exact .disabled _

theorem Ages.grows (ages : Ages first second) {old memory : FieldMemory}
    (active : old ∈ first.memory?) (active' : memory ∈ second.memory?) :
    memory.capacity = old.capacity ∧ old.size ≤ memory.size := by
  cases ages with
  | unset => cases active
  | grown capacity size =>
    cases active
    cases active'
    exact ⟨capacity, size⟩
  | disabled => cases active'

theorem Ages.disabled_eq (ages : Ages .disabled cache) : cache = .disabled := by
  cases ages
  rfl

theorem ages_put (cache : Recall) (line : FieldLine) : Ages cache (cache.put line) := by
  cases cache with
  | unset => exact .unset _
  | active memory => exact .grown (memory.put_capacity line) (memory.size_le_put line)
  | disabled => exact .disabled _

theorem ages_enable (cache : Recall) (capacity : Nat) : Ages cache (cache.enable capacity) := by
  cases cache with
  | unset => exact .unset _
  | active memory => exact .refl _
  | disabled => exact .disabled _

end Recall

/-- What is known of a memory from all that was told on the connection; `asked` are the sizes that
were asked for. -/
structure Recalls (asked : Nat → Prop) (cache : Recall) (told : List Event) : Prop where
  started : ∀ memory ∈ cache.memory?, asked memory.capacity ∧ 0 < memory.capacity ∧
    memory.size ≤ memory.capacity ∧ ∃ event ∈ told, event.persists = true
  stored : ∀ memory ∈ cache.memory?, ∀ key line, memory.lines.get? key = some line →
    .header line.name line.value ∈ told ∧ line.standard.isRepeated = true ∧
      StandardName.ofText? line.name = some line.standard
  closed : told.any Event.closes = true → cache = .disabled

namespace Recalls

variable {asked : Nat → Prop} {cache : Recall} {told more : List Event} {event : Event}

theorem start (asked : Nat → Prop) : Recalls asked .unset [] :=
  ⟨by rintro _ ⟨⟩, by rintro _ ⟨⟩, nofun⟩

theorem disabled (asked : Nat → Prop) (told : List Event) : Recalls asked .disabled told :=
  ⟨by rintro _ ⟨⟩, by rintro _ ⟨⟩, fun _ => rfl⟩

theorem append (h : Recalls asked cache told) (open_ : more.any Event.closes = false) :
    Recalls asked cache (told ++ more) where
  started memory active := by
    obtain ⟨capacity, positive, within, event, member, persists⟩ := h.started memory active
    exact ⟨capacity, positive, within, event, List.mem_append_left _ member, persists⟩
  stored memory active key line found := by
    obtain ⟨member, repeated, named⟩ := h.stored memory active key line found
    exact ⟨List.mem_append_left _ member, repeated, named⟩
  closed closes := by
    rw [List.any_append, open_, Bool.or_false] at closes
    exact h.closed closes

theorem enable {capacity : Nat} (h : Recalls asked cache told) (wanted : asked capacity)
    (member : event ∈ told) (persists : event.persists = true) :
    Recalls asked (cache.enable capacity) told := by
  cases cache with
  | active => exact h
  | disabled => exact h
  | unset =>
    by_cases positive : 0 < capacity
    · rw [Recall.enable, if_pos positive]
      refine ⟨?_, ?_, fun closes => by cases h.closed closes⟩
      · rintro memory ⟨⟩
        exact ⟨wanted, positive, Nat.zero_le _, event, member, persists⟩
      · rintro memory ⟨⟩ key line found
        simp at found
    · rwa [Recall.enable, if_neg positive]

/-- A field is taken in once it was told. -/
theorem put {line : FieldLine} (h : Recalls asked cache told)
    (member : .header line.name line.value ∈ told) (repeated : line.standard.isRepeated = true)
    (named : StandardName.ofText? line.name = some line.standard) :
    Recalls asked (cache.put line) told := by
  cases cache with
  | unset => exact h
  | disabled => exact h
  | active memory =>
    refine ⟨?_, ?_, fun closes => by cases h.closed closes⟩
    · rintro grown ⟨⟩
      obtain ⟨capacity, positive, within, persists⟩ := h.started memory rfl
      rw [FieldMemory.put_capacity]
      exact ⟨capacity, positive, FieldMemory.put_within line within, persists⟩
    · rintro grown ⟨⟩ key found stored
      rcases FieldMemory.get?_of_put stored with rfl | old
      · exact ⟨member, repeated, named⟩
      · exact h.stored memory rfl key found old

end Recalls

namespace Reader

variable {r s t : Reader} {b : UInt8} {capacity n : Nat} {bytes : Bytes} {turn : Turn}
  {head after : Head} {field : Field} {pending : Option Field} {told events : List Event}
  {asked : Nat → Prop}

theorem heed_cache {heeded : Reader} (heeds : r.heed head field = .ok (heeded, after, events)) :
    (heeded.cache = if field.standard = some .connection ∧ Value.lists .close field.value = true
      then .disabled else r.cache) ∧ events.any Event.closes = false := by
  unfold heed at heeds
  split at heeds
  · next known =>
    unfold heedContentLength at heeds
    split at heeds
    · cases heeds
      exact ⟨by simp [known], rfl⟩
    · cases length : Value.contentLength field.value <;> rw [length] at heeds <;> cases heeds
      exact ⟨by simp [known], rfl⟩
  · next known =>
    unfold heedTransferEncoding at heeds
    cases chunked : Value.chunked field.value with
    | error => rw [chunked] at heeds; cases heeds
    | ok ending =>
      rw [chunked] at heeds
      cases heeds
      refine ⟨?_, rfl⟩
      cases ending <;> simp [known]
  · next known =>
    cases heeds
    refine ⟨?_, rfl⟩
    unfold heedConnection
    split
    · next closes => rw [if_pos ⟨known, closes⟩]
    · next stays => rw [if_neg fun closes => stays closes.2]
  · next known =>
    cases host : Value.host field.value <;> rw [host] at heeds <;> cases heeds
    exact ⟨by simp [known], rfl⟩
  · next other _ =>
    cases heeds
    exact ⟨(if_neg fun closes => other closes.1).symm, rfl⟩

theorem remember_cache (r : Reader) (field : Field) : (r.remember field).cache = r.cache ∨
    ∃ standard, field.standard = some standard ∧ standard.isRepeated = true ∧
      (r.remember field).cache = r.cache.put ⟨standard, field.name, field.value⟩ := by
  unfold remember
  split
  · next standard known =>
    split
    · next kept => exact .inr ⟨standard, known, (Bool.and_eq_true_iff.mp kept).1, rfl⟩
    · exact .inl rfl
  · exact .inl rfl

/-- A field that is delivered is taken in as it is told, or has the memory given up. -/
theorem flush_recalls {flushed : Reader} (h : Recalls asked r.cache told)
    (sound : ∀ field ∈ pending, field.Sound)
    (delivered : r.flush head pending = .ok (flushed, after, events)) :
    Recalls asked flushed.cache (told ++ events) ∧ r.cache.Ages flushed.cache := by
  cases pending with
  | none =>
    cases delivered
    exact ⟨h.append rfl, .refl _⟩
  | some field =>
    have named : field.standard = StandardName.ofText? field.name := (sound field rfl).standard
    simp only [flush] at delivered
    cases heeds : r.heed head field with
    | error => rw [heeds] at delivered; cases delivered
    | ok result =>
      obtain ⟨heeded, head', early⟩ := result
      rw [heeds] at delivered
      cases delivered
      obtain ⟨cache, open_⟩ := heed_cache heeds
      have member : Event.header field.name field.value ∈
          told ++ (early ++ [.header field.name field.value]) := by simp
      have kept : Recalls asked heeded.cache (told ++ (early ++ [.header field.name field.value])) ∧
          r.cache.Ages heeded.cache := by
        rw [cache, named]
        split
        · exact ⟨.disabled _ _, .disabled _⟩
        · next stays =>
          refine ⟨h.append ?_, .refl _⟩
          have other : (Event.header field.name field.value).closes = false :=
            Bool.eq_false_iff.mpr (mt (Event.closes_header _ _).mp stays)
          simp [open_, other]
      -- A line is remembered after its field was told.
      rcases remember_cache heeded field with same | ⟨standard, known, repeated, same⟩
      · rwa [same]
      · rw [same]
        exact ⟨kept.1.put member repeated (named ▸ known), kept.2.trans (Recall.ages_put _ _)⟩

theorem push_recalls (sound : r.Sound) (wanted : asked capacity) (h : Recalls asked r.cache told) :
    Recalls asked (r.push capacity b).reader.cache (told ++ (r.push capacity b).events) ∧
      r.cache.Ages (r.push capacity b).reader.cache := by
  have push := push_cases sound capacity (b := b)
  generalize r.push capacity b = step at push
  have quiet : Recalls asked r.cache (told ++ []) := h.append rfl
  cases push with
  | limit | lineRest | idle => exact ⟨quiet, .refl _⟩
  | startLine headerBytes line cause =>
    cases cause with
    | inside | fault => exact ⟨quiet, .refl _⟩
    | shortRequest => exact ⟨h.append rfl, .refl _⟩
    | statusLine => exact ⟨h.append rfl, .refl _⟩
    | requestLine side method version =>
      have line : Recalls asked r.cache (told ++ [.requestLine method r.uri (some version)]) :=
        h.append rfl
      simp only [requestLine]
      split
      · next persists =>
        exact ⟨line.enable wanted (List.mem_append_right _ (List.mem_singleton_self _)) persists,
          Recall.ages_enable _ _⟩
      · exact ⟨line, .refl _⟩
  | fields headerBytes line cause =>
    cases cause with
    | inside | fault => exact ⟨quiet, .refl _⟩
    | field _ sound delivered =>
      have flushed := flush_recalls (r := { r with headerBytes, afterCr := false }) h sound delivered
      exact flushed
    | @blank flushed _ after _ events _ sound delivered =>
      obtain ⟨recalls, ages⟩ :=
        flush_recalls (r := { r with headerBytes, afterCr := false }) h sound delivered
      have blank := (flushed.endLine b).endFields_blank after
      generalize (flushed.endLine b).endFields after = step at blank
      simp only [← List.append_assoc]
      cases blank with
      | fault | body | finished => exact ⟨recalls.append rfl, ages⟩
  | body headerBytes body cause =>
    cases cause with
    | slice | inside | trailers | fault | finished | trailer => exact ⟨h.append rfl, .refl _⟩

theorem TurnCase.recalls (cause : r.TurnCase capacity b bytes turn) (sound : r.Sound)
    (wanted : asked capacity) (h : Recalls asked r.cache told) :
    Recalls asked turn.step.reader.cache (told ++ turn.step.events) ∧
      r.cache.Ages turn.step.reader.cache := by
  refine cause.carries (P := fun s told => Recalls asked s.cache told ∧ r.cache.Ages s.cache) sound
    ⟨h, .refl _⟩ ?_ (fun _ _ _ _ kept => kept) ?_ fun _ _ _ => ⟨h.append rfl, .refl _⟩
  · rintro t b events sound _ ⟨h, ages⟩
    obtain ⟨h', ages'⟩ := push_recalls (b := b) sound wanted h
    exact ⟨h', ages.trans ages'⟩
  · rintro t u events ⟨stage, rfl, _⟩ _ kept
    exact kept

theorem CutShort.stays (cut : r.CutShort events) : events.any Event.closes = false := by
  rcases cut.events with rfl | rfl <;> rfl

end Reader

namespace Instant

variable {σ : Type} {listener : Listener σ} {now next later : Instant σ} {asked : Nat → Prop}

theorem Follows.recalls (follows : Follows listener now next) (sound : now.reader.Sound)
    (wanted : asked (now.reader.capacityFor listener now.state))
    (h : Recalls asked now.reader.cache now.history) :
    Recalls asked next.reader.cache next.history ∧ now.reader.cache.Ages next.reader.cache := by
  cases follows with
  | turn _ taken =>
    rw [history_tells]
    exact (Reader.turn_cause sound taken).recalls sound wanted h
  | refused _ taken =>
    rw [history_rejects, history_tells]
    exact (Reader.turn_cause sound taken).recalls sound wanted h
  | completed full =>
    rw [history_tells]
    exact ⟨h.append rfl, .refl _⟩
  | shutdown =>
    rw [history_tells]
    rcases now.reader.ended_cases with quiet | ⟨shut, cut⟩
    · rw [quiet]
      exact ⟨h.append rfl, .refl _⟩
    · rw [shut]
      exact ⟨h.append cut.stays, .refl _⟩
  | close =>
    rw [history_tells]
    rcases now.reader.parting_cases with none | cut
    · rw [none]
      exact ⟨h.append rfl, .refl _⟩
    · exact ⟨h.append cut.stays, .refl _⟩
  | reset =>
    refine ⟨?_, .refl _⟩
    simpa [history, Reader.reset] using h
  | headResponse value => exact ⟨h, .refl _⟩

def Asks (start : Instant σ) (listener : Listener σ) (capacity : Nat) : Prop :=
  ∃ now, start.Reaches listener now ∧ now.reader.capacityFor listener now.state = capacity

theorem Reaches.recalls {start : Instant σ} (reaches : now.Reaches listener later)
    (reached : start.Reaches listener now) (sound : now.reader.Sound)
    (h : Recalls (start.Asks listener) now.reader.cache now.history) :
    Recalls (start.Asks listener) later.reader.cache later.history ∧
      now.reader.cache.Ages later.reader.cache := by
  induction reaches with
  | refl => exact ⟨h, .refl _⟩
  | @tail middle last before follows ih =>
    have wanted : start.Asks listener (middle.reader.capacityFor listener middle.state) :=
      ⟨middle, reached.trans before, rfl⟩
    obtain ⟨recalls, ages⟩ := follows.recalls (Reaches.sound before sound) wanted ih.1
    exact ⟨recalls, ih.2.trans ages⟩

/-- At every instant of a connection, whoever listens and whatever is asked of it: a memory that is in
use was started by a request of a persistent version, with a size that was asked for and is not zero;
it holds no more lines than that, and each of them was told as a field of the same name and value, of
a kind that is repeated. At no later instant does it hold fewer lines; and once a field was told by
which the connection is to be closed, there is no memory at any later instant. -/
theorem memory_life (mode : Mode) (settings : Settings) (listener : Listener σ) (state : σ) :
    let start := fresh mode settings state
    (∀ now, start.Reaches listener now →
      (∀ memory ∈ now.reader.cache.memory?,
        0 < memory.capacity ∧ memory.size ≤ memory.capacity ∧
        (∃ earlier, start.Reaches listener earlier ∧
          earlier.reader.capacityFor listener earlier.state = memory.capacity) ∧
        (∃ event ∈ now.history, event.persists = true) ∧
        ∀ key line, memory.lines.get? key = some line →
          .header line.name line.value ∈ now.history ∧ line.standard.isRepeated = true ∧
            StandardName.ofText? line.name = some line.standard) ∧
      ∀ later, now.Reaches listener later →
        (∀ old ∈ now.reader.cache.memory?, ∀ memory ∈ later.reader.cache.memory?,
          memory.capacity = old.capacity ∧ old.size ≤ memory.size) ∧
        (now.history.any Event.closes = true → later.reader.cache.memory? = none)) ∧
    ∀ calls,
      let last := start.through listener calls
      start.Reaches listener last ∧
        last.reader = (Reader.through { mode, settings } listener state calls).1 ∧
        last.log = Reader.log { mode, settings } listener state [] calls := by
  intro start
  have fresh : start.reader.Sound := .fresh mode settings
  have nothing : Recalls (start.Asks listener) start.reader.cache start.history := .start _
  refine ⟨fun now reached => ?_, reaches_last mode settings listener state⟩
  have recalls := (Reaches.recalls reached .refl fresh nothing).1
  refine ⟨fun memory active => ?_, fun later reaches => ?_⟩
  · obtain ⟨asks, positive, within, persists⟩ := recalls.started memory active
    exact ⟨positive, within, asks, persists, recalls.stored memory active⟩
  · have ages := (Reaches.recalls reaches reached (Reaches.sound reached fresh) recalls).2
    refine ⟨fun old active memory active' => ages.grows active active', fun closes => ?_⟩
    rw [recalls.closed closes] at ages
    rw [ages.disabled_eq]
    rfl

/-- Two fields of a request are taken in; another request closes the connection, and a third one does
not start the memory again. -/
theorem memory_life_of_requests :
    let listener := Recorder.listener {}
    let fields : Bytes := Text.toBytes
      "GET / HTTP/1.1\r\nHost: h\r\nUser-Agent: me\r\nA: b\r\n\r\n".toList
    let closing : Bytes := Text.toBytes
      "GET / HTTP/1.1\r\nHost: h\r\nConnection: x, Close\r\n\r\n".toList
    let first := (fresh .request {} {}).through listener [.read [fields]]
    let second := first.through listener [.reset, .read [closing]]
    let third := second.through listener [.reset, .read [fields]]
    (∃ memory ∈ first.reader.cache.memory?, memory.size = 2 ∧ memory.size ≤ memory.capacity) ∧
      second.history.any Event.closes = true ∧ third.reader.cache.memory? = none := by
  intro listener fields closing first second third
  obtain ⟨life, runs⟩ := memory_life .request {} listener {}
  have closes : second.history.any Event.closes = true := by decide +kernel
  have reached : (fresh .request {} {}).Reaches listener first := (runs [.read [fields]]).1
  obtain ⟨memory, active, size⟩ : ∃ memory ∈ first.reader.cache.memory?, memory.size = 2 := by
    have some : (first.reader.cache.memory?.map FieldMemory.size) = some 2 := by decide +kernel
    exact Option.map_eq_some_iff.mp some
  refine ⟨⟨memory, active, size, ((life first reached).1 memory active).2.1⟩, closes, ?_⟩
  exact ((life second (reached.trans (reaches_through _ _))).2 third (reaches_through _ _)).2 closes

end Instant
end HttpStream
