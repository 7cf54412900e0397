import HttpStream.Proofs.Turns

/-! A turn comes to what its octets come to one by one: it may drain a line end, tell a slice as a
whole, or look ahead, and its reader has the same to tell afterwards. -/

set_option autoImplicit false

namespace HttpStream

open Octet

/-- The limit asks for nothing after the field section of a message, so that it does not matter
there which octets are counted: it counts for single messages only, and not for trailers. -/
def Settings.Lenient (settings : Settings) (renew : Bool) : Prop :=
  settings.headerLimit = 0 ∨ settings.trailers = false ∧ renew = false

namespace Settings

variable {settings : Settings} {renew : Bool}

theorem Lenient.sparesTrailers (h : settings.Lenient renew) : settings.SparesTrailers :=
  h.elim .inr fun h => .inl h.1

theorem limit?_of_zero (h : settings.headerLimit = 0) : settings.limit? = none := by
  simp [limit?, h]

end Settings

namespace Reader

variable {renew : Bool} {capacity n : Nat} {r s : Reader} {b : UInt8}

theorem advance_of_awake (awake : r.wake renew = r) (more : r.stage.isComplete = false) :
    r.advance renew capacity b = (r.push capacity b).shut.andThen settle := by
  simp [advance, awake, more]

theorem wake_of_not (h : ¬(renew = true ∧ r.stage = .done)) : r.wake renew = r := by
  unfold wake
  split
  · next finished => exact absurd (by simpa using finished) h
  · rfl

theorem wake_of_open (more : r.stage.isComplete = false) : r.wake renew = r :=
  wake_of_not fun finished => by
    rw [finished.2] at more
    cases more

/-! Line ends. -/

theorem push_lineRest (capacity : Nat) (rest : r.isLineRest b = true)
    (fits : r.stage.isCounted = true → r.fits 1 = true) :
    ∃ headerBytes, r.push capacity b = .quiet { r.endLine b with headerBytes } ∧
      (r.stage.isCounted = true → headerBytes = r.headerBytes + 1) := by
  have rest' : r.count.isLineRest b = true := rest
  unfold push
  split
  · next counted =>
    rw [limitFault?_of_fits (fits counted)]
    simp only [accept, rest', if_true]
    exact ⟨r.headerBytes + 1, rfl, fun _ => rfl⟩
  · next uncounted =>
    simp only [accept, rest, if_true]
    exact ⟨r.headerBytes, rfl, fun counted => absurd counted uncounted⟩

theorem push_lead (capacity : Nat) (start : r.stage = .start) (fits : r.fits 1 = true)
    (hidden : isVisible b = false) :
    ∃ headerBytes afterCr, r.push capacity b = .quiet { r with headerBytes, afterCr } := by
  cases lineRest : r.isLineRest b with
  | true =>
    obtain ⟨headerBytes, pushed, _⟩ := push_lineRest capacity lineRest fun _ => fits
    exact ⟨headerBytes, _, pushed⟩
  | false =>
    refine ⟨r.headerBytes + 1, false, ?_⟩
    rw [push_of_fits (by rw [start]; rfl) fits lineRest]
    simp [interpret, count, start, pushStart, hidden]

/-- What is left of the last line end of a message is read by the reader of the next one. -/
theorem lineRest_renewed (unlimited : r.settings.limit? = none) (finished : r.stage = .done)
    (rest : r.isLineRest b = true) :
    (r.advance true capacity b).Alike true (.quiet (r.count.endLine b)) := by
  have awake : r.wake true = r.reset := by simp [wake, finished]
  have after : (r.count.endLine b).wake true = (r.count.endLine b).reset := by simp [wake, finished]
  have fits : r.reset.fits 1 = true := by
    have limit : r.reset.settings.limit? = none := unlimited
    simp [Reader.fits, limit]
  obtain ⟨headerBytes, pushed, _⟩ := push_lineRest (r := r.reset) capacity rest
    fun _ => fits
  have step : r.advance true capacity b = .quiet { r.reset.endLine b with headerBytes } := by
    simp only [advance, awake, pushed]
    rfl
  rw [step]
  refine ⟨rfl, rfl, ?_⟩
  rw [Step.quiet, Step.quiet, after]
  constructor
  · rfl
  · intro limited
    have limited : r.settings.limit?.isSome = true := limited
    simp [unlimited] at limited
  · intro busy
    cases busy

theorem lineRest_alike (capacity : Nat) (lenient : r.settings.Lenient renew)
    (rest : r.isLineRest b = true) (fits : r.stage.isCounted = true → r.fits 1 = true)
    (more : r.stage ≠ .content 0) :
    (r.advance renew capacity b).Alike renew (.quiet (r.count.endLine b)) := by
  -- Behind a finished message the octet is skipped ahead of the next one, and not counted there.
  by_cases finished : renew = true ∧ r.stage = .done
  · obtain ⟨rfl, finished⟩ := finished
    have unlimited : r.settings.headerLimit = 0 := lenient.resolve_right (by simp)
    exact lineRest_renewed (Settings.limit?_of_zero unlimited) finished rest
  · have awake : r.wake renew = r := wake_of_not finished
    cases complete : r.stage.isComplete with
    | true =>
      have quiet : r.advance renew capacity b = .quiet r := by simp [advance, awake, complete]
      have idle : r.stage.isCounted = false ∧ r.stage.isIdle = true := by
        cases stage : r.stage <;> rw [stage] at complete <;> cases complete <;> exact ⟨rfl, rfl⟩
      have twin : r.Twin (r.count.endLine b) :=
        ⟨rfl, fun _ counted => by simp [idle.1] at counted, fun busy => by simp [idle.2] at busy⟩
      rw [quiet]
      exact ⟨rfl, rfl, twin.wake renew⟩
    | false =>
      obtain ⟨headerBytes, pushed, counted⟩ := push_lineRest capacity rest fits
      let next : Reader := { r.endLine b with headerBytes }
      have quiet : r.advance renew capacity b = .quiet next := by
        have settled : next.settle = .quiet next := settle_of_ne more
        rw [advance_of_awake awake complete, pushed]
        exact settled
      have twin : next.Twin (r.count.endLine b) := ⟨rfl, fun _ => counted, fun _ => rfl⟩
      rw [quiet]
      exact ⟨rfl, rfl, twin.wake renew⟩

/-- Draining a line end comes to reading what is left of it. -/
theorem drain_alike (capacity : Nat) {bytes : Bytes} (lenient : r.settings.Lenient renew)
    (sound : r.Sound) (more : r.stage ≠ .content 0) (drained : r.drain bytes = (s, n)) :
    (r.run renew capacity (bytes.take n)).Alike renew (.quiet s) := by
  -- On the octets: one that is drained leads where reading it leads, up to a count.
  induction bytes generalizing r s n with
  | nil =>
    cases drained
    exact .refl _
  | cons b rest ih =>
    unfold drain at drained
    split at drained
    · next goes =>
      rw [Bool.and_eq_true] at goes
      obtain ⟨t, m, later⟩ : ∃ t m, (r.count.endLine b).drain rest = (t, m) := ⟨_, _, rfl⟩
      rw [later] at drained
      cases drained
      have next : (r.count.endLine b).Sound := sound.count.endLine b
      have alike := ih (r := r.count.endLine b) lenient next more later
      have first := lineRest_alike capacity lenient goes.1 (fun _ => goes.2) more
      have settings := (kin_advance sound renew capacity b).settings
      have onward := run_alike capacity capacity (rest.take m)
        (settings ▸ lenient.sparesTrailers) (sound.advance renew capacity b) next first.reader
      have whole : (r.run renew capacity (b :: rest.take m)).Alike renew
          ((Step.quiet (r.count.endLine b)).andThen fun r => r.run renew capacity (rest.take m)) :=
        first.andThen onward
      exact whole.trans alike
    · cases drained
      exact .refl _

theorem takeLf_alike (capacity : Nat) {bytes : Bytes} (lenient : r.settings.Lenient renew)
    (trailers : r.stage.isCounted = true → r.settings.headerLimit = 0)
    (more : r.stage ≠ .content 0) (taken : r.takeLf bytes = (s, n)) :
    (r.run renew capacity (bytes.take n)).Alike renew (.quiet s) := by
  unfold takeLf at taken
  split at taken
  · next follows =>
    cases taken
    obtain ⟨afterCr, front⟩ := follows
    cases bytes with
    | nil => cases front
    | cons b rest =>
      obtain rfl : b = lf := by simpa using front
      -- Where octets are counted no limit is set, so it does not matter that this one is not.
      have unlimited (counted : r.stage.isCounted = true) : r.settings.limit? = none :=
        Settings.limit?_of_zero (trailers counted)
      have first := lineRest_alike (b := lf) capacity lenient
        (by simp [isLineRest, afterCr, isLineEnd])
        (fun counted => by simp [fits, unlimited counted]) more
      have twin : (r.count.endLine lf).Twin { r with afterCr := false } :=
        ⟨rfl, fun limited counted => by
          have none : r.settings.limit? = none := unlimited counted
          have limited : r.settings.limit?.isSome = true := limited
          simp [none] at limited, fun _ => rfl⟩
      rw [List.take_succ_cons, List.take_zero, run_singleton]
      exact first.trans ⟨rfl, rfl, twin.wake renew⟩
  · cases taken
    exact .refl _

/-! Slices. -/

theorem push_slice (fresh : r.isLineRest b = false) (room : r.room.Allows (n + 1)) :
    r.push capacity b = { r with afterCr := false }.deliver [b] := by
  obtain ⟨_, uncounted, _⟩ := inBody_of_room room
  simp only [push, uncounted, Bool.false_eq_true, if_false, accept, fresh]
  unfold Reader.room at room
  split at room
  · next stage => simp only [interpret, stage]
  · next stage => simp only [interpret, stage]
  · next remaining stage =>
    cases remaining with
    | zero => cases room
    | succ remaining => simp only [interpret, stage]
  · cases room

theorem room_deliver (room : r.room.Allows (n + 2)) :
    (r.deliver [b]).reader.room.Allows (n + 1) ∧ (r.deliver [b]).reader.stage ≠ .content 0 := by
  unfold Reader.room at room
  split at room
  · next stage => simp [deliver, enter, stage, Reader.room, Room.Allows]
  · next remaining stage =>
    split at room
    · simp only [Room.Allows] at room
      have more : 0 < remaining - 1 := by omega
      simp only [deliver, enter, stage, Reader.room, List.length_singleton, more, if_true,
        Room.Allows, ne_eq, Stage.content.injEq]
      omega
    · cases room
  · next remaining stage =>
    split at room
    · simp only [Room.Allows] at room
      have more : 0 < remaining - 1 := by omega
      simp only [deliver, enter, stage, Reader.room, List.length_singleton, more, if_true,
        Room.Allows, ne_eq, reduceCtorEq, not_false_eq_true, and_true]
      omega
    · cases room
  · cases room

theorem deliver_deliver (r : Reader) (b : UInt8) (rest : Bytes) :
    ((r.deliver [b]).reader.deliver rest).reader = (r.deliver (b :: rest)).reader := by
  cases stage : r.stage <;>
    simp [deliver, enter, stage, Nat.sub_sub, Nat.add_assoc, Nat.add_comm 1]

/-- A slice is told in pieces if its octets come one by one, and nothing else is different. -/
theorem slice_run {rest : Bytes} (fresh : r.isLineRest b = false)
    (room : r.room.Allows (rest.length + 1)) :
    let step := ({ r with afterCr := false }.deliver (b :: rest)).andThen settle
    let run := r.run renew capacity (b :: rest)
    Event.joined run.events = Event.joined step.events ∧ run.fault = step.fault ∧
      run.reader = step.reader := by
  have first (s : Reader) (n : Nat) (b : UInt8) (fresh : s.isLineRest b = false)
      (room : s.room.Allows (n + 1)) : s.advance renew capacity b =
        ({ s with afterCr := false }.deliver [b]).andThen settle := by
    obtain ⟨_, _, more⟩ := inBody_of_room room
    rw [advance_of_awake (wake_of_open more) more, push_slice fresh room]
    rfl
  -- On the octets after the first one; what is left of the slice has room for the rest of it.
  induction rest generalizing r b with
  | nil =>
    rw [run_singleton, first r 0 b fresh room]
    exact ⟨rfl, rfl, rfl⟩
  | cons c rest ih =>
    let u : Reader := { r with afterCr := false }
    obtain ⟨roomLeft, notFull⟩ := room_deliver (r := u) (b := b) room
    let next : Reader := (u.deliver [b]).reader
    have step : r.advance renew capacity b = u.deliver [b] := by
      rw [first r (rest.length + 1) b fresh room]
      exact Step.andThen_of_quiet rfl (settle_of_ne notFull)
    obtain ⟨events, fault, reader⟩ := ih (r := next) (b := c) rfl roomLeft
    have same : (next.deliver (c :: rest)).reader = (u.deliver (b :: c :: rest)).reader :=
      deliver_deliver u b (c :: rest)
    have run : r.run renew capacity (b :: c :: rest) =
        (u.deliver [b]).andThen fun r => r.run renew capacity (c :: rest) := by
      rw [Reader.run, step]
    refine ⟨?_, ?_, ?_⟩
    · rw [run]
      calc Event.joined (.content [b] :: (next.run renew capacity (c :: rest)).events)
          = Event.joined (.content [b] :: .content (c :: rest) ::
              (next.deliver (c :: rest)).reader.settle.events) :=
            Event.joined_cons_congr _ events
        _ = Event.joined (.content (b :: c :: rest) ::
              (next.deliver (c :: rest)).reader.settle.events) :=
            Event.joined_content_content [b] (c :: rest) _
        _ = _ := by rw [same]; rfl
    · rw [run]
      exact fault.trans (congrArg (fun r => r.settle.fault) same)
    · rw [run]
      exact reader.trans (congrArg (fun r => r.settle.reader) same)

theorem slice_alike {rest : Bytes} (fresh : r.isLineRest b = false)
    (room : r.room.Allows (rest.length + 1)) :
    (({ r with afterCr := false }.deliver (b :: rest)).andThen settle).Alike renew
      (r.run renew capacity (b :: rest)) := by
  obtain ⟨events, fault, reader⟩ := @slice_run renew capacity r b rest fresh room
  exact ⟨events.symm, fault.symm, reader ▸ .refl _⟩

/-! Turns. -/

theorem Noted.twin (h : r.Noted s) : r.Twin s := by
  obtain ⟨stage, rfl, plain⟩ := h
  exact .of_masked (n := 0) (by simp [masked, enter, plain]) fun _ _ => rfl

theorem ne_of_inHead (h : r.stage.inHead = true) : r.stage ≠ .content 0 := fun full => by
  rw [full] at h
  cases h

theorem advance_of_fine (more : r.stage.isComplete = false)
    (fine : (r.push capacity b).fault = none)
    (after : (r.push capacity b).reader.stage ≠ .content 0) :
    r.advance renew capacity b = r.push capacity b := by
  rw [advance_of_awake (wake_of_open more) more, Step.shut_of_fine fine]
  exact Step.andThen_of_quiet fine (settle_of_ne after)

theorem further_alike {t : Reader} {rest : Bytes} (more : r.stage.isComplete = false)
    (fine : (r.push capacity b).fault = none)
    (before : (r.push capacity b).reader.stage ≠ .content 0) (after : t.stage ≠ .content 0)
    (goes : ((r.push capacity b).reader.run renew capacity rest).Alike renew (.quiet t)) :
    (({ r.push capacity b with reader := t } : Step).shut.andThen settle).Alike renew
      (r.run renew capacity (b :: rest)) := by
  have told : ({ r.push capacity b with reader := t } : Step).shut.andThen settle =
      (r.push capacity b).andThen fun _ => .quiet t := by
    simp [Step.shut, Step.andThen, Step.quiet, fine, settle_of_ne after]
  rw [told, run, advance_of_fine more fine before]
  exact (Step.Alike.refl _).andThen goes.symm

variable {bytes : Bytes} {turn : Turn}

theorem TurnCase.alike (h : r.TurnCase capacity b bytes turn) (lenient : r.settings.Lenient renew)
    (sound : r.Sound) (more : r.stage.isComplete = false) :
    (turn.step.shut.andThen settle).Alike renew
      (r.run renew capacity (b :: bytes.take turn.extra)) := by
  -- What a turn takes at once is taken here octet by octet, for each of the ways it goes.
  cases h with
  | octet =>
    rw [List.take_zero, run_singleton, advance_of_awake (wake_of_open more) more]
    exact .refl _
  | known within inside glides =>
    rw [glides.run]
    have after := glides.inHead inside
    have settled : (Step.quiet _).shut.andThen settle = .quiet _ :=
      Step.andThen_of_quiet rfl (settle_of_ne (ne_of_inHead after))
    rw [settled]
    exact .refl _
  | @slice n within fresh room =>
    have size : (bytes.take n).length = n := by rw [List.length_take, Nat.min_eq_left within]
    exact slice_alike fresh (by rwa [size])
  | @onward s t n fine inside within glides noted =>
    have stage : s.stage.inHead = true := glides.inHead inside
    have after : t.stage ≠ .content 0 := fun full => by
      have same := noted.stage
      rw [full] at same
      exact ne_of_inHead stage (Stage.plain_eq_content.mp same.symm)
    refine further_alike more fine (ne_of_inHead inside) after ?_
    rw [glides.run]
    exact ⟨rfl, rfl, noted.twin.wake renew⟩
  | @line s t n ending quiet inside glides found fine =>
    have first : r.advance renew capacity b = .quiet s := by
      rw [advance_of_fine more (by rw [quiet]; rfl) (by rw [quiet]; exact ne_of_inHead inside),
        quiet]
    have last : t.stage.inHead = true := glides.inHead inside
    have open_ : t.stage.isComplete = false := by
      cases stage : t.stage <;> rw [stage] at last <;> cases last <;> rfl
    rw [List.take_add_one, found, run, first, Step.quiet_andThen, run_append, glides.run,
      Step.quiet_andThen, Option.toList_some, run_singleton,
      advance_of_awake (wake_of_open open_) open_]
    exact .refl _
  | @lineEnd s n fine open_ drained =>
    have settings : (r.push capacity b).reader.settings = r.settings := (push_kin sound).settings
    have alike := drain_alike capacity (settings ▸ lenient) (sound.push capacity b)
      open_ drained
    obtain ⟨_, headerBytes, afterCr, rfl⟩ := drain_frame drained
    exact further_alike more fine open_ open_ alike
  | @chunkEnd s n fine open_ trailers taken =>
    have settings : (r.push capacity b).reader.settings = r.settings := (push_kin sound).settings
    have unlimited (counted : (r.push capacity b).reader.stage.isCounted = true) :
        (r.push capacity b).reader.settings.headerLimit = 0 := by
      rw [settings]
      exact lenient.resolve_right fun none => by simp [trailers counted] at none
    have alike := takeLf_alike capacity (settings ▸ lenient) unlimited open_ taken
    obtain ⟨_, afterCr, rfl⟩ := takeLf_frame taken
    exact further_alike more fine open_ open_ alike

end Reader
end HttpStream
