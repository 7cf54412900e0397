import HttpStream.Proofs.Fragments
import HttpStream.Proofs.Limit

/-! The limit of the start line and the fields is exact: it shows after as many octets of them as it
allows, and not before. -/

set_option autoImplicit false

namespace HttpStream

namespace Stage

/-- What there is to say of a message whose next octet of the head, read at this stage, is more
than `limit` allows. -/
def overflow (stage : Stage) (limit : Nat) : Fault :=
  match stage with
  | .uri _ => .uriTooLong limit
  | _ => .headerTooLarge (limit + 1) limit

theorem overflow_plain (stage : Stage) (limit : Nat) :
    stage.plain.overflow limit = stage.overflow limit := by
  cases stage <;> rfl

def Untrailed (stage : Stage) : Prop := stage.isCounted = stage.inHead

theorem Untrailed.of_inHead {stage : Stage} (inside : stage.inHead = true) : stage.Untrailed :=
  (isCounted_of_inHead inside).trans inside.symm

end Stage

namespace Reader

variable {r s : Reader} {b : UInt8} {capacity limit : Nat} {step : Step} {bytes : Bytes}

/-! Octets of the head. -/

theorem OctetStep.inHead (h : r.OctetStep capacity b step)
    (inside : step.reader.stage.inHead = true) : r.stage.inHead = true := by
  cases h with
  | limit | lineRest | idle => exact inside
  | startLine _ line => exact Stage.inHead_of_inStartLine line
  | fields _ line => exact Stage.inHead_of_inFields line
  | body _ body cause =>
    rw [cause.outside body] at inside
    cases inside

theorem OctetStep.untrailed (h : r.OctetStep capacity b step)
    (trailers : r.settings.trailers = false) (untrailed : r.stage.Untrailed) :
    step.reader.stage.Untrailed := by
  cases h with
  | limit | lineRest | idle => exact untrailed
  | startLine _ line cause =>
    cases cause with
    | inside _ _ line => exact .of_inHead (Stage.inHead_of_inStartLine line)
    | fault => exact untrailed
    | shortRequest | requestLine | statusLine => rfl
  | fields _ line cause =>
    cases cause with
    | inside _ _ line => exact .of_inHead (Stage.inHead_of_inFields line)
    | fault => exact untrailed
    | field => rfl
    | blank _ _ delivered =>
      obtain ⟨framing, contentLength, cache, step, same, blank, _⟩ := flush_blank delivered b
      rw [same]
      cases blank with
      | fault => exact untrailed
      | body _ _ body uncounted => exact uncounted.trans (Stage.inHead_of_inBody body).symm
      | finished => rfl
  | body _ body cause =>
    have uncounted : r.stage.isCounted = false := untrailed.trans (Stage.inHead_of_inBody body)
    have inside : step.reader.stage.inHead = false := cause.outside body
    -- Behind the fields only trailers are counted, and those are not configured.
    cases counted : step.reader.stage.isCounted with
    | false => exact counted.trans inside.symm
    | true => cases trailers.symm.trans (cause.configured uncounted counted)

theorem OctetStep.noContent (h : r.OctetStep capacity b step) (inside : r.stage.inHead = true)
    (slice : Bytes) : .content slice ∉ step.events := by
  cases h with
  | limit | lineRest | idle => rintro ⟨⟩
  | startLine _ _ cause =>
    cases cause with
    | inside | fault => rintro ⟨⟩
    | shortRequest | requestLine | statusLine =>
      simp [shortRequest, Reader.requestLine, Reader.statusLine]
  | fields _ _ cause =>
    have delivered {mode : Mode} {pending : Option Field} {events : List Event}
        (delivery : Delivery mode pending events) : .content slice ∉ events := by
      cases delivery <;> simp
    cases cause with
    | inside | fault => rintro ⟨⟩
    | field _ _ flushed => exact delivered (flush_ok flushed).2.2.2
    | blank _ _ flushed =>
      obtain ⟨framing, contentLength, cache, step, same, blank, _⟩ := flush_blank flushed b
      have before := delivered (flush_ok flushed).2.2.2
      rw [same]
      cases blank <;> simp [before, Step.fail]
  | body _ body =>
    rw [Stage.inHead_of_inBody body] at inside
    cases inside

/-! A message alone, without a limit. -/

structure Unbounded (r : Reader) : Prop where
  sound : r.Sound
  unlimited : r.settings.headerLimit = 0
  trailers : r.settings.trailers = false
  untrailed : r.stage.Untrailed

/-- What one octet of a message alone leads to. -/
theorem advance_alone (r : Reader) (capacity : Nat) (b : UInt8) :
    r.advance false capacity b =
      if r.stage.isComplete then .quiet r else (r.push capacity b).shut.andThen settle := rfl

theorem Unbounded.advance (h : r.Unbounded) (capacity : Nat) (b : UInt8) :
    (r.advance false capacity b).reader.Unbounded := by
  have kin := kin_advance h.sound false capacity b
  have pushed : (r.push capacity b).reader.stage.Untrailed :=
    (push_cases h.sound capacity).untrailed h.trailers h.untrailed
  have shut : (r.push capacity b).shut.reader.stage.Untrailed := by
    unfold Step.shut
    split
    · rfl
    · exact pushed
  refine ⟨h.sound.advance false capacity b, kin.settings ▸ h.unlimited,
    kin.settings ▸ h.trailers, ?_⟩
  rw [advance_alone]
  split
  · exact h.untrailed
  · refine Step.andThen_of (P := fun r => r.stage.Untrailed) shut fun s untrailed => ?_
    unfold settle
    split
    · rfl
    · exact untrailed

theorem Unbounded.run (h : r.Unbounded) (capacity : Nat) (bytes : Bytes) :
    (r.run false capacity bytes).reader.Unbounded := by
  induction bytes generalizing r with
  | nil => exact h
  | cons b rest ih => exact Step.andThen_of (h.advance capacity b) fun _ next => ih next

theorem advance_inHead (sound : r.Sound)
    (inside : (r.advance false capacity b).reader.stage.inHead = true) :
    r.stage.inHead = true ∧ r.advance false capacity b = r.push capacity b ∧
      (r.push capacity b).fault = none := by
  rw [advance_alone] at inside ⊢
  split at inside
  · next complete =>
    have more : r.stage.isComplete = false := Stage.isComplete_of_inHead inside
    cases more.symm.trans complete
  · next more =>
    rw [if_neg more]
    cases wrong : (r.push capacity b).fault with
    | some fault =>
      have shut : (r.push capacity b).shut.fault = some fault := by rw [Step.fault_shut, wrong]
      rw [Step.andThen_of_fault shut] at inside
      simp only [Step.shut, wrong] at inside
      cases inside
    | none =>
      rw [Step.shut_of_fine wrong] at inside ⊢
      -- A body that wants no octet is settled at once, which is past the head.
      by_cases full : (r.push capacity b).reader.stage = .content 0
      · have settled : (r.push capacity b).reader.settle.reader.stage = .done := by
          simp [settle, full]
        simp only [Step.andThen, wrong] at inside
        rw [settled] at inside
        cases inside
      · have same := Step.andThen_of_quiet wrong (settle_of_ne full)
        rw [same] at inside ⊢
        exact ⟨(push_cases sound capacity).inHead inside, rfl, rfl⟩

/-- As long as a message alone is in its head, its octets are counted one by one, and what is told
of them is no content. -/
structure Heads (r : Reader) (bytes : Bytes) (step : Step) : Prop where
  before : r.stage.inHead = true
  fine : step.fault = none
  headerBytes : step.reader.headerBytes = r.headerBytes + bytes.length
  noContent : ∀ slice, .content slice ∉ step.events

theorem run_inHead (h : r.Unbounded)
    (inside : (r.run false capacity bytes).reader.stage.inHead = true) :
    r.Heads bytes (r.run false capacity bytes) := by
  -- On the octets; nothing leads back into the head, so each of them was read there.
  induction bytes generalizing r with
  | nil => exact ⟨inside, rfl, rfl, nofun⟩
  | cons b rest ih =>
    rw [run] at inside ⊢
    cases wrong : (r.advance false capacity b).fault with
    | some fault =>
      rw [Step.andThen_of_fault wrong] at inside
      obtain ⟨_, same, fine⟩ := advance_inHead h.sound inside
      rw [same, fine] at wrong
      cases wrong
    | none =>
      simp only [Step.andThen, wrong] at inside ⊢
      have onward := ih (h.advance capacity b) inside
      obtain ⟨before, same, _⟩ := advance_inHead h.sound onward.before
      have count := push_headerBytes h.sound capacity b
      have noContent := (push_cases (b := b) h.sound capacity).noContent before
      rw [Stage.isCounted_of_inHead before, if_pos rfl] at count
      rw [same] at onward ⊢
      refine ⟨before, onward.fine, ?_, ?_⟩
      · rw [onward.headerBytes, count, List.length_cons, Nat.add_right_comm, Nat.add_assoc]
      · intro slice told
        exact (List.mem_append.mp told).elim (noContent slice) (onward.noContent slice)

/-! The same message under a limit. -/

theorem limit?_under (r : Reader) (positive : 0 < limit) :
    (r.under limit).settings.limit? = some limit := by
  simp [under, Settings.limit?, Nat.ne_of_gt positive]

theorem limitFault?_under (positive : 0 < limit) (full : r.headerBytes = limit) :
    (r.under limit).count.limitFault? = some (r.stage.overflow limit) := by
  have found : (r.under limit).count.settings.limit? = some limit := limit?_under r positive
  have stage : (r.under limit).count.stage = r.stage := rfl
  have count : (r.under limit).count.headerBytes = limit + 1 := by rw [← full]; rfl
  simp only [limitFault?, found, stage, count, Nat.not_succ_le_self, if_false]
  cases r.stage <;> rfl

theorem accept_under : (r.under limit).accept capacity b = (r.accept capacity b).under limit := by
  have rest : (r.under limit).isLineRest b = r.isLineRest b := rfl
  unfold accept
  rw [rest]
  split
  · rfl
  · exact interpret_under (r := { r with afterCr := false })

theorem push_under_of_fits (unlimited : r.settings.limit? = none)
    (fits : r.stage.isCounted = true → (r.under limit).fits 1 = true) :
    (r.under limit).push capacity b = (r.push capacity b).under limit := by
  have stage : (r.under limit).stage = r.stage := rfl
  have none : r.count.limitFault? = none := by
    have unlimited : r.count.settings.limit? = none := unlimited
    simp only [limitFault?, unlimited]
  unfold push
  rw [stage, none]
  split
  · next counted =>
    rw [limitFault?_of_fits (fits counted)]
    exact accept_under (r := r.count)
  · exact accept_under

section Limited

variable (positive : 0 < limit) (h : r.Unbounded)
include positive h

/-- Within the limit an octet leads to what it leads to without one. -/
theorem push_under (within : r.stage.inHead = true → r.headerBytes < limit) :
    (r.under limit).push capacity b = (r.push capacity b).under limit := by
  refine push_under_of_fits (Settings.limit?_of_zero h.unlimited) fun counted => ?_
  have less := within (h.untrailed.symm.trans counted)
  simp only [Reader.fits, limit?_under r positive, decide_eq_true_eq]
  exact less

theorem advance_under (within : r.stage.inHead = true → r.headerBytes < limit) :
    (r.under limit).advance false capacity b = (r.advance false capacity b).under limit := by
  have stage : (r.under limit).stage = r.stage := rfl
  rw [advance_alone, advance_alone, stage, push_under positive h within]
  split
  · rfl
  · rw [Step.shut_under]
    exact Step.andThen_under settle_under

/-- A run is the same with the limit as without it, if its octets of the head are as many as are
allowed, or fewer. -/
theorem run_under (within : r.stage.inHead = true → r.headerBytes + bytes.length ≤ limit) :
    (r.under limit).run false capacity bytes = (r.run false capacity bytes).under limit := by
  -- On the octets; once they lead out of the head the limit has no more to say.
  induction bytes generalizing r with
  | nil => rfl
  | cons b rest ih =>
    have first : (r.under limit).advance false capacity b =
        (r.advance false capacity b).under limit :=
      advance_under positive h fun inside => by
        have enough := within inside
        rw [List.length_cons] at enough
        omega
    rw [run, run, first]
    refine Step.andThen_under (ih (h.advance capacity b) fun inside => ?_)
    obtain ⟨before, same, _⟩ := advance_inHead h.sound inside
    have count := push_headerBytes h.sound capacity b
    rw [Stage.isCounted_of_inHead before, if_pos rfl] at count
    have enough := within before
    rw [same, count]
    rw [List.length_cons] at enough
    omega

/-- The limit has no more to say of a message whose head kept within it. -/
theorem run_under_append {front : Bytes} (rest : Bytes)
    (within : r.headerBytes + front.length ≤ limit)
    (left : (r.run false capacity front).reader.stage.inHead = false) :
    (r.under limit).run false capacity (front ++ rest) =
      (r.run false capacity (front ++ rest)).under limit := by
  rw [run_append, run_append, run_under positive h fun _ => within]
  refine Step.andThen_under (run_under positive (h.run capacity front) fun inside => ?_)
  cases left.symm.trans inside

theorem run_overflow {front rest : Bytes}
    (inside : (r.run false capacity front).reader.stage.inHead = true)
    (full : r.headerBytes + front.length = limit) :
    let step := r.run false capacity front
    (r.under limit).run false capacity (front ++ b :: rest) =
      { reader := (step.reader.under limit).count.enter .closed
        events := step.events
        fault := some (step.reader.stage.overflow limit) } := by
  intro step
  have heads : r.Heads front step := run_inHead h inside
  have count : step.reader.headerBytes = limit := heads.headerBytes.trans full
  have counted : (step.reader.under limit).stage.isCounted = true :=
    Stage.isCounted_of_inHead inside
  have open_ : (step.reader.under limit).stage.isComplete = false :=
    Stage.isComplete_of_inHead inside
  have pushed : (step.reader.under limit).push capacity b =
      .fail (step.reader.under limit).count (step.reader.stage.overflow limit) := by
    simp only [push, counted, if_true, limitFault?_under positive count]
  -- The front has used up the limit, so that the next octet is one too many.
  have last : (step.reader.under limit).run false capacity (b :: rest) =
      { reader := (step.reader.under limit).count.enter .closed
        fault := some (step.reader.stage.overflow limit) } := by
    rw [run, advance_alone, open_, pushed]
    rfl
  have fine : (step.under limit).fault = none := heads.fine
  rw [run_append, run_under positive h fun _ => Nat.le_of_eq full]
  calc (step.under limit).andThen (fun r => r.run false capacity (b :: rest))
      = { (step.reader.under limit).run false capacity (b :: rest) with
          events := step.events ++
            ((step.reader.under limit).run false capacity (b :: rest)).events } := by
        simp only [Step.andThen, fine]
        rfl
    _ = _ := by rw [last, List.append_nil]

end Limited

/-! Fragments of one message. -/

/-- What a reader and its listener come to is what the step says, up to the cuts of a body. -/
structure Reaches (reader : Reader) (recorder : Recorder) (step : Step) : Prop where
  events : Event.joined recorder.events = Event.joined step.events
  fault : recorder.fault = step.fault
  stage : reader.stage.plain = step.reader.stage.plain

theorem feedAll_reaches (mode : Mode) (settings : Settings) (memoryCapacity : Option Nat)
    (fragments : List Input) (trailers : settings.trailers = false) :
    let fed := Reader.feedAll { mode, settings } (.patient memoryCapacity) {} fragments
    Reaches fed.1 fed.2.1
      (Reader.run false 0 { mode, settings } fragments.flatten.flatten) := by
  intro fed
  obtain ⟨step, leads, reader, state⟩ := feedAll_leads (r := { mode, settings }) 0 memoryCapacity
    {} fragments (.inr ⟨trailers, rfl⟩) (.fresh mode settings) nofun
  have twin : step.reader.Twin
      (Reader.run false 0 { mode, settings } fragments.flatten.flatten).reader :=
    leads.alike.reader
  have reader : fed.1 = step.reader := reader
  have state : fed.2.1 = Recorder.told {} step := state
  rw [reader, state]
  exact ⟨by simpa [Recorder.told] using leads.alike.events,
    by simp [Recorder.told, leads.alike.fault], twin.stage⟩

/-- A message that has no more octets in its head than the limit allows is read as it is without a
limit. Of any other the reader tells what it tells of the octets that are allowed; then it is
closed, and says that the request target is too long if it was reading it, or else the head. -/
theorem feedAll_limit (mode : Mode) (settings : Settings) (memoryCapacity : Option Nat)
    (limit : Nat) (fragments : List Input) (positive : 0 < limit)
    (trailers : settings.trailers = false) :
    let fed (headerLimit : Nat) (fragments : List Input) :=
      Reader.feedAll { mode, settings := { settings with headerLimit } }
        (Recorder.listener { memoryCapacity }) {} fragments
    let octets := fragments.flatten.flatten
    let limited := fed limit fragments
    let free := fed 0 [[octets]]
    let early := fed 0 [[octets.take limit]]
    (octets.length ≤ limit ∨ early.1.stage.inHead = false →
      Event.joined limited.2.1.events = Event.joined free.2.1.events ∧
        limited.2.1.fault = free.2.1.fault ∧ limited.1.stage.label = free.1.stage.label) ∧
    (limit < octets.length → early.1.stage.inHead = true →
      limited.2.1.events = early.2.1.events ∧ limited.1.stage = .closed ∧
        limited.2.1.fault = some (early.1.stage.overflow limit)) := by
  intro fed octets limited free early
  let reader : Reader := { mode, settings := { settings with headerLimit := 0 } }
  have unbounded : reader.Unbounded := ⟨.fresh mode _, rfl, trailers, rfl⟩
  have none : reader.headerBytes = 0 := rfl
  -- What each of the three readings comes to, octet by octet.
  have under : Reaches limited.1 limited.2.1 ((reader.under limit).run false 0 octets) :=
    feedAll_reaches mode { settings with headerLimit := limit } memoryCapacity fragments trailers
  have alone (bytes : Bytes) : Reaches (fed 0 [[bytes]]).1 (fed 0 [[bytes]]).2.1
      (reader.run false 0 bytes) := by
    have reaches := feedAll_reaches mode { settings with headerLimit := 0 } memoryCapacity [[bytes]]
      trailers
    rwa [show [[bytes]].flatten.flatten = bytes by simp] at reaches
  have whole : Reaches free.1 free.2.1 (reader.run false 0 octets) := alone octets
  have front : Reaches early.1 early.2.1 (reader.run false 0 (octets.take limit)) := alone _
  have inHead : early.1.stage.inHead =
      (reader.run false 0 (octets.take limit)).reader.stage.inHead := by
    rw [← Stage.inHead_plain, front.stage, Stage.inHead_plain]
  have allowed : reader.headerBytes + (octets.take limit).length ≤ limit := by
    rw [none, Nat.zero_add]
    exact List.length_take_le _ _
  constructor
  · intro within
    have same : (reader.under limit).run false 0 octets =
        (reader.run false 0 octets).under limit := by
      rcases within with short | left
      · exact run_under positive unbounded fun _ => by rwa [none, Nat.zero_add]
      · have split := run_under_append positive unbounded (octets.drop limit) allowed
          (inHead.symm.trans left)
        rwa [List.take_append_drop] at split
    rw [same] at under
    have stage : limited.1.stage.plain = free.1.stage.plain := under.stage.trans whole.stage.symm
    refine ⟨under.events.trans whole.events.symm, under.fault.trans whole.fault.symm, ?_⟩
    rw [← Stage.label_plain, stage, Stage.label_plain]
  · intro beyond inside
    rw [inHead] at inside
    have size : (octets.take limit).length = limit := by
      rw [List.length_take, Nat.min_eq_left (Nat.le_of_lt beyond)]
    obtain ⟨b, rest, dropped⟩ : ∃ b rest, octets.drop limit = b :: rest :=
      List.exists_cons_of_length_pos (by rw [List.length_drop]; omega)
    have refused : (reader.under limit).run false 0 (octets.take limit ++ b :: rest) = _ :=
      run_overflow positive unbounded inside (by rw [none, Nat.zero_add, size])
    rw [← dropped, List.take_append_drop] at refused
    rw [refused] at under
    have heads := run_inHead unbounded inside
    have overflow : early.1.stage.overflow limit =
        (reader.run false 0 (octets.take limit)).reader.stage.overflow limit := by
      rw [← Stage.overflow_plain, front.stage, Stage.overflow_plain]
    refine ⟨?_, Stage.plain_eq_closed.mp under.stage, overflow ▸ under.fault⟩
    have events := Event.eq_of_joined_eq under.events heads.noContent
    exact events.trans (Event.eq_of_joined_eq front.events heads.noContent).symm

theorem feedAll_limit_of_target :
    0 < 5 ∧ ({} : Settings).trailers = false ∧
      (Reader.feedAll { mode := .request, settings := { headerLimit := 5 } }
        (Recorder.listener {}) {}
        [[Text.toBytes "GE".toList], [Text.toBytes "T /a HTTP/1.0".toList]]).2.1.fault =
          some (.uriTooLong 5) :=
  ⟨by decide, rfl,
    ((feedAll_limit .request {} none 5 _ (by decide) rfl).2 (by decide +kernel)
      (by decide +kernel)).2.2.trans (by decide +kernel)⟩

end Reader
end HttpStream
