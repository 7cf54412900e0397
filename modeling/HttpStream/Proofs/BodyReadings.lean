import HttpStream.Proofs.BodyTurns

/-! Reading on in a body comes to what its octets come to one by one, as long as its trailers keep
within the limit: in any fragments its data is told in slices, and after it what follows it. -/

set_option autoImplicit false

namespace HttpStream

open Octet

namespace Reader

variable {r s t : Reader} {b : UInt8} {capacity : Nat} {tail octets data : Bytes}
  {later : Input} {turn : Turn}

theorem plain_outside {stage : Stage} (outside : stage.inHead = false) : stage.plain = stage := by
  cases stage <;> first | rfl | cases outside

theorem Twin.stage_eq (h : r.Twin s) (outside : s.stage.inHead = false) : r.stage = s.stage := by
  have same := h.stage
  have left : r.stage.inHead = false := by
    rw [← Stage.inHead_plain, same, Stage.inHead_plain]
    exact outside
  rwa [plain_outside left, plain_outside outside] at same

theorem Twin.contentRead (h : r.Twin s) : r.contentRead = s.contentRead := by
  have same := congrArg Reader.contentRead h.blurred
  exact same

/-- What reading on from `r` has come to after these octets is what they come to one by one without
a limit, up to the cuts of slices, and no more of them were counted. -/
structure Follows (r : Reader) (octets : Bytes) (s : Reader) (recorder : Recorder) : Prop where
  alike : (({ reader := s.under 0, events := recorder.events, fault := recorder.fault } :
    Step).andThen settle).Alike false ((r.under 0).run false 0 octets)
  settings : s.settings = r.settings
  outside : s.stage.inHead = false
  count : s.stage.isComplete = false →
    s.headerBytes ≤ ((r.under 0).run false 0 octets).reader.headerBytes
  fine : s.stage ≠ .closed → recorder.fault = none

namespace Follows

variable {recorder : Recorder}

theorem start (outside : r.stage.inHead = false) (waits : r.stage ≠ .content 0) :
    r.Follows [] r {} where
  alike := by
    have quiet : ((({ reader := r.under 0 } : Step)).andThen settle) = .quiet (r.under 0) :=
      Step.andThen_of_quiet rfl (settle_of_ne waits)
    rw [quiet]
    exact .refl _
  settings := rfl
  outside := outside
  count _ := Nat.le_refl _
  fine _ := rfl

theorem twin (h : r.Follows octets s recorder) (reads : s.Reads) :
    (({ reader := s.under 0, events := recorder.events } : Step)).Alike false
      ((r.under 0).run false 0 octets) := by
  have alike := h.alike
  rwa [h.fine reads.notClosed, Step.andThen_of_quiet rfl (settle_of_ne reads.notFull)] at alike

theorem inBody (h : r.Follows octets s recorder) (reads : s.Reads) : s.stage.inBody = true := by
  obtain ⟨notDone, notClosed, _⟩ := reads
  have outside := h.outside
  cases stage : s.stage <;> simp_all [Stage.inHead, Stage.inBody]

/-- The next octet is counted by the octets one by one as it is by the reading. -/
theorem counts (h : r.Follows octets s recorder) (sound : r.Sound) (reads : s.Reads) (b : UInt8)
    (more : Bytes) : (if s.stage.isCounted then s.headerBytes + 1 else s.headerBytes) ≤
      ((r.under 0).run false 0 (octets ++ b :: more)).reader.headerBytes := by
  have before := h.twin reads
  let u : Reader := ((r.under 0).run false 0 octets).reader
  have open_ : (s.under 0).stage.isComplete = false := isComplete_of_inBody (h.inBody reads)
  have same : (s.under 0).Twin u := before.reader
  have complete : u.stage.isComplete = false := same.isComplete ▸ open_
  have counted : s.stage.isCounted = u.stage.isCounted := same.isCounted
  have fine : ((r.under 0).run false 0 octets).fault = none := before.fault.symm
  have first : ((r.under 0).run false 0 (octets ++ [b])).reader.headerBytes =
      if u.stage.isCounted then u.headerBytes + 1 else u.headerBytes := by
    rw [run_append, Step.andThen, fine]
    simp only [run_singleton]
    exact advance_headerBytes ((sound.under 0).run false 0 octets) complete
  have onward := run_append_headerBytes_le 0 (sound.under 0) (octets ++ [b]) more
  rw [List.append_assoc, List.singleton_append, first, ← counted] at onward
  have count : s.headerBytes ≤ u.headerBytes := h.count open_
  refine Nat.le_trans ?_ onward
  split <;> omega

section Turn

variable (h : r.Follows octets s recorder) (sound : r.Sound) (here : s.Sound) (reads : s.Reads)
  (cause : s.BodyTurn capacity b tail later turn)
  (keeps : s.Keeps turn.step.reader ∧ s.Kin turn.step.reader)
include h sound here reads cause

theorem turn_alike (fits : s.stage.isCounted = true → s.fits 1 = true) :
    (({ reader := s.under 0, events := recorder.events } : Step).andThen fun _ =>
        (turn.step.under 0).shut.andThen settle).Alike false
      ((r.under 0).run false 0 (octets ++ b :: (tail :: later).flatten.take turn.extra)) := by
  have before := h.twin reads
  have goes := (cause.follows (h.inBody reads) fits).trans
    (run_alike capacity 0 _ (.inr rfl) (here.under 0) ((sound.under 0).run false 0 octets)
      before.reader)
  rw [run_append]
  exact before.andThen goes

theorem turn_count (open_ : turn.step.reader.stage.isComplete = false) (more : Bytes) :
    turn.step.reader.headerBytes ≤
      ((r.under 0).run false 0 (octets ++ b :: more)).reader.headerBytes :=
  Nat.le_trans (cause.counts here open_) (h.counts sound reads b more)

include keeps

theorem turned (fits : s.stage.isCounted = true → s.fits 1 = true)
    (right : turn.step.fault = none) :
    r.Follows (octets ++ b :: (tail :: later).flatten.take turn.extra) turn.step.reader
      { recorder with events := recorder.events ++ turn.step.events } where
  alike := by
    have alike := h.turn_alike sound here reads cause fits
    have fine : (turn.step.under 0).fault = none := right
    rw [Step.shut_of_fine fine] at alike
    rw [h.fine reads.notClosed]
    simpa only [Step.andThen, Step.under, right, List.append_assoc] using alike
  settings := keeps.2.settings.trans h.settings
  outside := keeps.1.outside
  count open_ := h.turn_count sound here reads cause open_ _
  fine _ := h.fine reads.notClosed

theorem faulted (fits : s.stage.isCounted = true → s.fits 1 = true) {fault : Fault}
    (wrong : turn.step.fault = some fault) :
    r.Follows (octets ++ b :: (tail :: later).flatten.take turn.extra)
      (turn.step.reader.enter .closed)
      { events := recorder.events ++ turn.step.events, fault := some fault } where
  alike := by
    have alike := h.turn_alike sound here reads cause fits
    have shut : (turn.step.under 0).shut.andThen settle =
        { reader := (turn.step.reader.enter .closed).under 0, events := turn.step.events,
          fault := some fault } := by
      simp only [Step.shut, Step.under, wrong, Step.andThen]
      rfl
    rw [shut] at alike
    exact alike
  settings := keeps.2.settings.trans h.settings
  outside := rfl
  count open_ := by cases open_
  fine open_ := absurd rfl open_

end Turn

theorem stage_eq (h : r.Follows octets s recorder)
    (waits : s.stage ≠ .content 0) :
    ((r.under 0).run false 0 octets).reader.stage = s.stage := by
  have alike := h.alike
  cases wrong : recorder.fault with
  | some fault =>
    rw [Step.andThen_of_fault wrong] at alike
    exact alike.reader.symm.stage_eq h.outside
  | none =>
    have quiet : (s.under 0).settle = .quiet (s.under 0) := settle_of_ne waits
    rw [Step.andThen_of_quiet wrong quiet] at alike
    exact alike.reader.symm.stage_eq h.outside

theorem finished (h : r.Follows octets s recorder) (complete : s.stage.isComplete = true)
    (more : Bytes) : r.Follows (octets ++ more) s recorder where
  alike := by
    have waits : s.stage ≠ .content 0 := by
      intro full
      rw [full] at complete
      cases complete
    have alike := h.alike
    rw [run_append]
    -- A run that met a fault takes nothing more, and one that is done or closed stays so.
    cases wrong : ((r.under 0).run false 0 octets).fault with
    | some fault => rwa [Step.andThen_of_fault wrong]
    | none =>
      have ended : ((r.under 0).run false 0 octets).reader.stage.isComplete = true := by
        have quiet : (s.under 0).settle = .quiet (s.under 0) := settle_of_ne waits
        have same := alike.reader.isComplete
        simp only [Step.andThen, quiet] at same
        split at same <;> exact same.symm.trans complete
      have stage : ((r.under 0).run false 0 octets).reader.stage = .done ∨
          ((r.under 0).run false 0 octets).reader.stage = .closed := by
        simpa [Stage.isComplete] using ended
      rwa [Step.andThen_of_quiet wrong (stage.elim (run_done · more) (run_closed · more))]
  settings := h.settings
  outside := h.outside
  count open_ := by cases open_.symm.trans complete
  fine := h.fine

end Follows

/-- A listener that never asks to stop has all that has arrived read, up to the end of the
message. -/
theorem readAll_patient (memoryCapacity : Option Nat) (recorder : Recorder) (input : Input)
    (arrivals : List Input) :
    let reading := r.readAll (.patient memoryCapacity) recorder input arrivals
    (reading.reader.stage = .done ∨ reading.rest.flatten = []) ∧
      reading.reader.stage ≠ .content 0 := by
  induction arrivals generalizing r recorder input with
  | nil =>
    let reading := r.read (.patient memoryCapacity) recorder input
    have again : reading.reader.read (.patient memoryCapacity) reading.state reading.rest =
        ⟨reading.reader, reading.state, false, reading.rest⟩ := read_final recorder
    have finished := @read_finished _ reading.reader (.patient memoryCapacity) reading.state
      reading.rest (by rw [again])
    rw [again] at finished
    refine ⟨finished, fun full => ?_⟩
    have full : reading.reader.stage = .content 0 := full
    rw [read_full full] at again
    cases full.symm.trans (congrArg (·.reader.stage) again).symm
  | cons arrival later ih => exact ih ..

def Budgeted (r : Reader) (octets : Bytes) : Prop :=
  r.settings.headerLimit = 0 ∨
    ((r.under 0).run false 0 octets).reader.headerBytes ≤ r.settings.headerLimit

theorem Budgeted.of_append {first second : Bytes} (h : r.Budgeted (first ++ second))
    (sound : r.Sound) : r.Budgeted first :=
  h.imp_right (Nat.le_trans (run_append_headerBytes_le 0 (sound.under 0) first second))

theorem InBudget.within (h : r.InBudget) :
    r.settings.headerLimit = 0 ∨ r.headerBytes ≤ r.settings.headerLimit := by
  by_cases unlimited : r.settings.headerLimit = 0
  · exact .inl unlimited
  · exact .inr (h _ (by simp [Settings.limit?, unlimited]))

theorem Follows.fits {octets : Bytes} {recorder : Recorder} (h : r.Follows octets s recorder)
    (sound : r.Sound) (reads : s.Reads) {more : Bytes} (budget : r.Budgeted (octets ++ b :: more))
    (counted : s.stage.isCounted = true) : s.fits 1 = true := by
  have settings := h.settings
  rcases budget with unlimited | within
  · exact fits_of_unlimited (Settings.limit?_of_zero (settings ▸ unlimited)) 1
  · have count := h.counts sound reads b more
    rw [if_pos counted] at count
    unfold Reader.fits
    split
    · next limit found =>
      have limit : limit = r.settings.headerLimit := by
        rw [settings, Settings.limit?] at found
        split at found <;> simp_all
      simp only [decide_eq_true_eq]
      omega
    · rfl

/-- Reading on in a body that keeps within the limit comes to what the octets come to one by one, at
every place that it comes to. -/
theorem follows_carries (memoryCapacity : Option Nat) {whole : Input} (cut : Input → Prop)
    (sound : r.Sound) (budget : r.Budgeted whole.flatten) :
    Carries (.patient memoryCapacity) whole cut fun n s recorder =>
      r.Follows (whole.flatten.take n) s recorder where
  turned {n s recorder b tail later more} h here reads _ found := by
    intro turn heard
    have case : s.TurnCase _ b (tail :: later).flatten turn := turn_cases here
    have body := h.inBody reads
    have cause : s.BodyTurn _ b tail later turn := turn_body body
    have onward : s.Keeps turn.step.reader := case.keepsFraming here ⟨h.outside, rfl, rfl⟩
    have kin : s.Kin turn.step.reader := case.kin here
    have told : heard = { recorder with events := recorder.events ++ turn.step.events } := by
      simp only [heard, Recorder.hear_patient]
    have left : whole.flatten = whole.flatten.take n ++
        b :: (tail :: (later ++ more)).flatten := by
      have split := List.take_append_drop n whole.flatten
      rwa [← Input.flatten_drop, Input.flatten_of_next? found, eq_comm] at split
    have fits : s.stage.isCounted = true → s.fits 1 = true :=
      h.fits sound reads (by rwa [← left])
    rw [told]
    -- A turn that meets a fault has taken a single octet.
    refine ⟨fun right => ?_, fun fault wrong => ?_⟩
    · rw [Input.take_onward found case.extra_le]
      exact h.turned sound here reads cause ⟨onward, kin⟩ fits right
    · have alone : turn.extra = 0 := by rw [case.of_fault wrong]
      have taken := Input.take_onward found case.extra_le
      rw [alone] at taken
      have next := h.faulted sound here reads cause ⟨onward, kin⟩ fits wrong
      rw [alone, ← taken] at next
      exact next
  completed {n s recorder} h full := by
    have alike := h.alike
    have fine : recorder.fault = none := h.fine (by simp [full])
    have settled : (s.under 0).settle =
        { reader := (s.enter .done).under 0, events := [.messageComplete] } :=
      settle_of_full (r := s.under 0) full
    simp only [Step.andThen, fine, settled] at alike
    refine ⟨?_, h.settings, rfl, by rintro ⟨⟩, fun _ => fine⟩
    have quiet : ((s.enter .done).under 0).settle = .quiet ((s.enter .done).under 0) :=
      settle_of_ne (by rintro ⟨⟩)
    have told : ((Listener.patient memoryCapacity).notify recorder .messageComplete).1 =
        { recorder with events := recorder.events ++ [.messageComplete] } := rfl
    simp only [told, Step.andThen, fine, quiet, Step.quiet, List.append_nil]
    exact alike

theorem readAll_follows (memoryCapacity : Option Nat) (input : Input) (arrivals : List Input)
    (sound : r.Sound) (outside : r.stage.inHead = false) (waits : r.stage ≠ .content 0)
    (budget : r.Budgeted (input ++ arrivals.flatten).flatten) :
    let reading := r.readAll (.patient memoryCapacity) {} input arrivals
    ({ reader := reading.reader.under 0, events := reading.state.events,
       fault := reading.state.fault } : Step).Alike false
      ((r.under 0).run false 0 (input ++ arrivals.flatten).flatten) := by
  intro reading
  obtain ⟨n, follows, ends⟩ := (follows_carries memoryCapacity (fun _ => True) sound budget).reaches
    sound (fun _ => trivial) (.start outside waits)
  obtain ⟨finished, settled⟩ := r.readAll_patient memoryCapacity {} input arrivals
  have split := List.take_append_drop n (input ++ arrivals.flatten).flatten
  -- Whatever was not taken comes after the end of the message.
  have all (complete : reading.reader.stage.isComplete = true) :
      r.Follows (input ++ arrivals.flatten).flatten reading.reader reading.state :=
    split ▸ follows.finished complete _
  have whole : r.Follows (input ++ arrivals.flatten).flatten reading.reader reading.state := by
    rcases ends with closed | remains
    · exact all (by rw [closed]; rfl)
    · rcases finished with done | nothing
      · exact all (by rw [done]; rfl)
      · rw [remains.flatten] at nothing
        rw [nothing, List.append_nil] at split
        exact split ▸ follows
  have alike := whole.alike
  cases wrong : reading.state.fault with
  | some fault => rwa [Step.andThen_of_fault wrong, wrong] at alike
  | none =>
    have quiet : (reading.reader.under 0).settle = .quiet (reading.reader.under 0) :=
      settle_of_ne settled
    rwa [Step.andThen_of_quiet wrong quiet, wrong] at alike

/-! What a reading tells. -/

/-- Octets that lead from `r` to `s` tell of this data, in slices, and of nothing else. -/
structure Unchunks (capacity : Nat) (r : Reader) (octets data : Bytes) (s : Reader) : Prop where
  fine : (r.run false capacity octets).fault = none
  reader : (r.run false capacity octets).reader = s
  told : ∃ bodies : List Bytes, Event.joined (r.run false capacity octets).events =
    Event.joined (bodies.map .content) ∧ bodies.flatten = data

namespace Unchunks

theorem of_quiet (quiet : r.run false capacity octets = .quiet s) :
    Unchunks capacity r octets [] s := by
  constructor
  · rw [quiet]
    rfl
  · rw [quiet]
    rfl
  · rw [quiet]
    exact ⟨[], rfl, rfl⟩

theorem run_append (h : Unchunks capacity r octets data s) (more : Bytes) :
    r.run false capacity (octets ++ more) = { s.run false capacity more with
      events := (r.run false capacity octets).events ++ (s.run false capacity more).events } := by
  rw [Reader.run_append]
  simp only [Step.andThen, h.fine, h.reader]

theorem trans {more moreData : Bytes} (first : Unchunks capacity r octets data s)
    (second : Unchunks capacity s more moreData t) :
    Unchunks capacity r (octets ++ more) (data ++ moreData) t := by
  have whole := first.run_append more
  obtain ⟨bodies, told, rfl⟩ := first.told
  obtain ⟨rest, tells, rfl⟩ := second.told
  constructor
  · rw [whole]
    exact second.fine
  · rw [whole]
    exact second.reader
  · refine ⟨bodies ++ rest, ?_, List.flatten_append⟩
    rw [whole, List.map_append]
    exact Event.joined_append told tells

end Unchunks

section Tells

variable {input : Input} {arrivals : List Input} (memoryCapacity : Option Nat) (sound : r.Sound)
  (outside : r.stage.inHead = false) (waits : r.stage ≠ .content 0)
include sound outside waits

theorem readAll_alike {step : Step}
    (leads : (r.under 0).run false 0 (input ++ arrivals.flatten).flatten = step)
    (budget : r.settings.headerLimit = 0 ∨
      step.reader.headerBytes ≤ r.settings.headerLimit) :
    let reading := r.readAll (.patient memoryCapacity) {} input arrivals
    ({ reader := reading.reader.under 0, events := reading.state.events,
       fault := reading.state.fault } : Step).Alike false step := by
  subst leads
  exact readAll_follows memoryCapacity input arrivals sound outside waits budget

theorem readAll_leads {events : List Event} {fault : Option Fault}
    (leads : (r.under 0).run false 0 (input ++ arrivals.flatten).flatten =
      { reader := t, events, fault })
    (none : ∀ bytes, .content bytes ∉ events) (after : t.stage.inHead = false)
    (budget : r.settings.headerLimit = 0 ∨ t.headerBytes ≤ r.settings.headerLimit) :
    let reading := r.readAll (.patient memoryCapacity) {} input arrivals
    reading.reader.stage = t.stage ∧ reading.state = { events, fault } := by
  intro reading
  have alike := readAll_alike memoryCapacity sound outside waits leads budget
  have told : reading.state.events = events := Event.eq_of_joined_eq alike.events none
  have wrong : reading.state.fault = fault := alike.fault
  refine ⟨alike.reader.stage_eq after, ?_⟩
  rw [← told, ← wrong]

theorem readAll_unchunks {rest : Bytes} {late : List Event}
    (front : Unchunks 0 (r.under 0) octets data s)
    (back : s.run false 0 rest = { reader := t, events := late })
    (none : ∀ bytes, .content bytes ∉ late) (after : t.stage.inHead = false)
    (arrived : (input ++ arrivals.flatten).flatten = octets ++ rest)
    (budget : r.settings.headerLimit = 0 ∨ t.headerBytes ≤ r.settings.headerLimit) :
    let reading := r.readAll (.patient memoryCapacity) {} input arrivals
    reading.reader.stage = t.stage ∧ reading.reader.contentRead = t.contentRead ∧
      ∃ slices : List Bytes, reading.state = { events := slices.map .content ++ late } ∧
        slices.flatten = data := by
  intro reading
  have leads := front.run_append rest
  rw [back, ← arrived] at leads
  have alike := readAll_alike memoryCapacity sound outside waits leads budget
  obtain ⟨bodies, told, same⟩ := front.told
  have whole : Event.joined reading.state.events = Event.joined (bodies.map .content ++ late) :=
    alike.events.trans (Event.joined_append told rfl)
  obtain ⟨slices, slicing, flat⟩ := Event.slices_of_joined_eq none whole
  have fault : reading.state.fault = .none := alike.fault
  refine ⟨alike.reader.stage_eq after, alike.reader.contentRead, slices, ?_, flat.trans same⟩
  rw [← slicing, ← fault]

end Tells

end Reader
end HttpStream
