import HttpStream.Proofs.Joined
import HttpStream.Proofs.Mask
import HttpStream.Reader.Ending

/-! The reader as a machine that takes its input octet by octet, over one message or over one
message after the other, and when two readers have the same to tell of the octets to come. -/

set_option autoImplicit false

namespace HttpStream

def Settings.SparesTrailers (settings : Settings) : Prop :=
  settings.trailers = false ∨ settings.headerLimit = 0

namespace Step

def andThen (step : Step) (next : Reader → Step) : Step :=
  match step.fault with
  | some _ => step
  | none => { next step.reader with events := step.events ++ (next step.reader).events }

def shut (step : Step) : Step :=
  match step.fault with
  | some _ => { step with reader := step.reader.enter .closed }
  | none => step

@[simp] theorem quiet_andThen (r : Reader) (next : Reader → Step) :
    (quiet r).andThen next = next r := rfl

theorem andThen_quiet (step : Step) : step.andThen quiet = step := by
  obtain ⟨reader, events, fault⟩ := step
  cases fault <;> simp [andThen, quiet]

theorem fault_shut (step : Step) : step.shut.fault = step.fault := by
  unfold shut
  split <;> simp [*]

theorem events_shut (step : Step) : step.shut.events = step.events := by
  unfold shut
  split <;> rfl

theorem shut_of_fine {step : Step} (fine : step.fault = none) : step.shut = step := by
  simp [shut, fine]

theorem shut_of_fault {step : Step} {fault : Fault} (wrong : step.fault = some fault) :
    step.shut = { step with reader := step.reader.enter .closed } := by
  simp [shut, wrong]

theorem andThen_of_fine {step : Step} (fine : step.fault = none) (next : Reader → Step) :
    step.andThen next =
      { next step.reader with events := step.events ++ (next step.reader).events } := by
  simp [andThen, fine]

theorem andThen_of_fault {step : Step} {fault : Fault} (wrong : step.fault = some fault)
    (next : Reader → Step) : step.andThen next = step := by
  simp [andThen, wrong]

theorem andThen_of_quiet {step : Step} {next : Reader → Step} (fine : step.fault = none)
    (quiet : next step.reader = .quiet step.reader) : step.andThen next = step := by
  obtain ⟨reader, events, fault⟩ := step
  cases fine
  simp only at quiet
  simp [andThen, quiet, Step.quiet]

theorem andThen_andThen (step : Step) (first second : Reader → Step) :
    (step.andThen first).andThen second = step.andThen fun r => (first r).andThen second := by
  obtain ⟨reader, events, fault⟩ := step
  cases fault with
  | some fault => rfl
  | none =>
    simp only [andThen]
    cases shown : (first reader).fault <;> simp [shown]

end Step

namespace Reader

/-- A body of known length that is all delivered completes the message. -/
def settle (r : Reader) : Step :=
  match r.stage with
  | .content 0 => { reader := r.enter .done, events := [.messageComplete] }
  | _ => .quiet r

def wake (renew : Bool) (r : Reader) : Reader :=
  if renew && r.stage = .done then r.reset else r

/-- Takes one octet; those after the last message mean nothing. -/
def advance (renew : Bool) (capacity : Nat) (r : Reader) (b : UInt8) : Step :=
  let r := r.wake renew
  if r.stage.isComplete then .quiet r else (r.push capacity b).shut.andThen settle

def run (renew : Bool) (capacity : Nat) (r : Reader) : Bytes → Step
  | [] => .quiet r
  | b :: rest => (r.advance renew capacity b).andThen fun r => r.run renew capacity rest

variable {renew : Bool} {capacity other : Nat} {r s t : Reader}

theorem run_singleton (r : Reader) (b : UInt8) :
    r.run renew capacity [b] = r.advance renew capacity b := Step.andThen_quiet _

theorem run_append (renew : Bool) (capacity : Nat) (r : Reader) (first second : Bytes) :
    r.run renew capacity (first ++ second) =
      (r.run renew capacity first).andThen fun r => r.run renew capacity second := by
  induction first generalizing r with
  | nil => rfl
  | cons b first ih =>
    simp only [List.cons_append, run, Step.andThen_andThen]
    congr 1
    funext r
    exact ih r

/-! A run keeps a reader sound and on its connection. -/

theorem Step.andThen_of {P : Reader → Prop} {step : Step} {next : Reader → Step}
    (first : P step.reader) (second : ∀ r, P r → P (next r).reader) :
    P (step.andThen next).reader := by
  unfold Step.andThen
  split
  · exact first
  · exact second step.reader first

theorem Sound.enter_finished (h : r.Sound) {stage : Stage}
    (finished : stage = .done ∨ stage = .closed) : (r.enter stage).Sound := by
  rcases finished with rfl | rfl <;> exact h.enter trivial (by rintro _ ⟨⟩)

theorem Sound.reset (h : r.Sound) : r.reset.Sound :=
  ⟨trivial, by rintro _ ⟨⟩, h.cache, nofun⟩

theorem Sound.wake (h : r.Sound) (renew : Bool) : (r.wake renew).Sound := by
  unfold Reader.wake
  split
  · exact h.reset
  · exact h

theorem Sound.settle (h : r.Sound) : r.settle.reader.Sound := by
  unfold Reader.settle
  split
  · exact h.enter_finished (.inl rfl)
  · exact h

theorem Sound.shut {step : Step} (h : step.reader.Sound) : step.shut.reader.Sound := by
  unfold Step.shut
  split
  · exact h.enter_finished (.inr rfl)
  · exact h

theorem Sound.advance (h : r.Sound) (renew : Bool) (capacity : Nat) (b : UInt8) :
    (r.advance renew capacity b).reader.Sound := by
  unfold Reader.advance
  have awake := h.wake renew
  simp only
  split
  · exact awake
  · exact Step.andThen_of (P := Sound) (awake.push capacity b).shut fun r h => h.settle

theorem kin_wake (r : Reader) (renew : Bool) : r.Kin (r.wake renew) := by
  unfold wake
  split <;> exact ⟨rfl, rfl, rfl⟩

theorem kin_settle (r : Reader) : r.Kin r.settle.reader := by
  unfold settle
  split <;> exact ⟨rfl, rfl, rfl⟩

theorem Kin.shut {step : Step} (h : r.Kin step.reader) : r.Kin step.shut.reader := by
  unfold Step.shut
  split
  · exact ⟨h.mode, h.settings, h.headResponse⟩
  · exact h

theorem kin_advance (h : r.Sound) (renew : Bool) (capacity : Nat) (b : UInt8) :
    r.Kin (r.advance renew capacity b).reader := by
  unfold advance
  have awake := h.wake renew
  simp only
  split
  · exact kin_wake r renew
  · exact Step.andThen_of (P := r.Kin) ((kin_wake r renew).trans (push_kin awake)).shut
      fun s h => h.trans (kin_settle s)

theorem Sound.run (h : r.Sound) (renew : Bool) (capacity : Nat) (bytes : Bytes) :
    (r.run renew capacity bytes).reader.Sound := by
  induction bytes generalizing r with
  | nil => exact h
  | cons b rest ih =>
    exact Step.andThen_of (P := Sound) (h.advance renew capacity b) fun _ next => ih next

theorem kin_run (h : r.Sound) (renew : Bool) (capacity : Nat) (bytes : Bytes) :
    r.Kin (r.run renew capacity bytes).reader := by
  induction bytes generalizing r with
  | nil => exact .refl r
  | cons b rest ih =>
    have first := And.intro (h.advance renew capacity b) (kin_advance h renew capacity b)
    exact (Step.andThen_of (P := fun s => s.Sound ∧ r.Kin s) first fun s next =>
      ⟨next.1.run renew capacity rest, next.2.trans (ih next.1)⟩).2

theorem run_closed (closed : r.stage = .closed) (bytes : Bytes) :
    r.run renew capacity bytes = .quiet r := by
  induction bytes with
  | nil => rfl
  | cons b rest ih =>
    have quiet : r.advance renew capacity b = .quiet r := by
      simp [advance, wake, closed, Stage.isComplete]
    rw [run, quiet, Step.quiet_andThen, ih]

/-! Readers that have the same to tell. -/

/-- The reader without its memory, its count, and the line end before it. -/
def blurred (r : Reader) : Reader := { r.masked 0 with afterCr := false }

/-- Readers that differ in what they remember, in a count that no limit asks for, and in a line
end that means nothing where they stand. -/
structure Twin (r s : Reader) : Prop where
  blurred : r.blurred = s.blurred
  count : r.settings.limit?.isSome = true → r.stage.isCounted = true →
    r.headerBytes = s.headerBytes
  afterCr : r.stage.isIdle = false → r.afterCr = s.afterCr

namespace Twin

theorem refl (r : Reader) : r.Twin r := ⟨rfl, fun _ _ => rfl, fun _ => rfl⟩

theorem of_masked {n : Nat} (masked : r.masked n = s.masked n)
    (count : r.settings.limit?.isSome = true → r.stage.isCounted = true →
      r.headerBytes = s.headerBytes) : r.Twin s := by
  refine ⟨?_, count, fun _ => (congrArg Reader.afterCr masked :)⟩
  exact congrArg (fun r => { r with headerBytes := 0, afterCr := false }) masked

theorem stage (h : r.Twin s) : r.stage.plain = s.stage.plain := congrArg Reader.stage h.blurred

theorem limit? (h : r.Twin s) : r.settings.limit? = s.settings.limit? :=
  congrArg (fun r => r.settings.limit?) h.blurred

theorem isCounted (h : r.Twin s) : r.stage.isCounted = s.stage.isCounted := by
  rw [← Stage.isCounted_plain, h.stage, Stage.isCounted_plain]

theorem isIdle (h : r.Twin s) : r.stage.isIdle = s.stage.isIdle := by
  rw [← Stage.isIdle_plain, h.stage, Stage.isIdle_plain]

theorem isComplete (h : r.Twin s) : r.stage.isComplete = s.stage.isComplete := by
  rw [← Stage.isComplete_plain, h.stage, Stage.isComplete_plain]

theorem symm (h : r.Twin s) : s.Twin r where
  blurred := h.blurred.symm
  count limited counted :=
    (h.count (by rwa [h.limit?]) (by rwa [h.isCounted])).symm
  afterCr idle := (h.afterCr (by rwa [h.isIdle])).symm

theorem trans (first : r.Twin s) (second : s.Twin t) : r.Twin t where
  blurred := first.blurred.trans second.blurred
  count limited counted :=
    (first.count limited counted).trans
      (second.count (by rwa [← first.limit?]) (by rwa [← first.isCounted]))
  afterCr idle := (first.afterCr idle).trans (second.afterCr (by rwa [← first.isIdle]))

theorem enter (h : r.Twin s) (stage : Stage) (uncounted : stage.isCounted = false)
    (idle : stage.isIdle = true) : (r.enter stage).Twin (s.enter stage) where
  blurred := congrArg (fun r => r.enter stage.plain) h.blurred
  count _ counted := by simp [uncounted] at counted
  afterCr busy := by simp [idle] at busy

theorem reset (h : r.Twin s) : r.reset.Twin s.reset where
  blurred := congrArg (fun r => { r.reset with afterCr := false }) h.blurred
  count _ _ := rfl
  afterCr busy := by simp [Reader.reset, Stage.isIdle] at busy

end Twin
end Reader

structure Step.Twin (first second : Step) : Prop where
  events : first.events = second.events
  fault : first.fault = second.fault
  reader : first.reader.Twin second.reader

namespace Reader

variable {renew : Bool} {capacity other : Nat} {r s t : Reader}

theorem interpret_congr {n : Nat} {b : UInt8} (same : r.masked n = s.masked n) :
    (r.interpret capacity b).masked n = (s.interpret other b).masked n :=
  calc (r.interpret capacity b).masked n
      = ((r.masked n).interpret other b).masked n := interpret_masked.symm
    _ = (s.interpret other b).masked n := by rw [same, interpret_masked]

theorem interpret_twin {b : UInt8} (spares : r.settings.SparesTrailers) (left : r.Sound)
    (right : s.Sound) (same : r.masked 0 = s.masked 0)
    (count : r.settings.limit?.isSome = true → r.stage.isCounted = true →
      r.headerBytes = s.headerBytes) :
    (r.interpret capacity b).Twin (s.interpret other b) := by
  have outcome : (r.interpret capacity b).masked 0 = (s.interpret other b).masked 0 :=
    interpret_congr same
  refine ⟨(congrArg Step.events outcome :), (congrArg Step.fault outcome :),
    .of_masked (congrArg Step.reader outcome :) ?_⟩
  intro limited counted
  rw [interpret_headerBytes left, interpret_headerBytes right]
  rw [(interpret_kin left).settings] at limited
  -- Octets that begin to be counted are those of trailers, and no limit is set on them.
  cases before : r.stage.isCounted with
  | true => exact count limited before
  | false =>
    have trailers : r.settings.trailers = true := interpret_trailers before counted
    have unlimited : r.settings.headerLimit = 0 := spares.resolve_left (by simp [trailers])
    simp [Settings.limit?, unlimited] at limited

/-- Between messages a line end means the same whether or not it belongs to the last line. -/
theorem accept_idle (capacity : Nat) {b : UInt8} (idle : r.stage.isIdle = true)
    (ended : Octet.isLineEnd b = true) :
    ∃ afterCr, r.accept capacity b = .quiet { r with afterCr } := by
  unfold accept
  split
  · exact ⟨_, rfl⟩
  · refine ⟨false, ?_⟩
    cases stage : r.stage <;> simp [stage, Stage.isIdle] at idle <;>
      simp [interpret, pushStart, Octet.isVisible_of_isLineEnd ended]

theorem accept_twin {b : UInt8} (spares : r.settings.SparesTrailers) (left : r.Sound)
    (right : s.Sound) (h : r.Twin s) : (r.accept capacity b).Twin (s.accept other b) := by
  have meaning : ({ r with afterCr := false }.interpret capacity b).Twin
      ({ s with afterCr := false }.interpret other b) :=
    interpret_twin spares (left.counted _ _) (right.counted _ _) h.blurred h.count
  cases idle : r.stage.isIdle with
  | true =>
    cases ended : Octet.isLineEnd b with
    | true =>
      obtain ⟨first, before⟩ := accept_idle capacity idle ended
      obtain ⟨second, after⟩ := accept_idle (r := s) other (h.isIdle ▸ idle) ended
      rw [before, after]
      exact ⟨rfl, rfl, h.blurred, h.count, fun busy => by simp [Step.quiet, idle] at busy⟩
    | false => simpa [accept, isLineRest, ended] using meaning
  | false =>
    have same : r.isLineRest b = s.isLineRest b := by rw [isLineRest, isLineRest, h.afterCr idle]
    unfold accept
    rw [← same]
    split
    · exact ⟨rfl, rfl, h.blurred, h.count, fun _ => rfl⟩
    · exact meaning

theorem limitFault?_twin (h : r.Twin s) (counted : r.stage.isCounted = true) :
    r.limitFault? = s.limitFault? := by
  have plain (r : Reader) :
      r.limitFault? = { r.blurred with headerBytes := r.headerBytes }.limitFault? := by
    simp only [limitFault?, blurred, masked]
    cases r.stage <;> rfl
  cases limited : r.settings.limit?.isSome with
  | true => rw [plain r, plain s, h.count limited counted, h.blurred]
  | false =>
    have unlimited : r.settings.limit? = none := by simpa using limited
    simp only [limitFault?, ← h.limit?, unlimited]

theorem push_twin {b : UInt8} (spares : r.settings.SparesTrailers) (left : r.Sound)
    (right : s.Sound) (h : r.Twin s) : (r.push capacity b).Twin (s.push other b) := by
  unfold push
  rw [← h.isCounted]
  split
  · next counted =>
    have counting : r.count.Twin s.count :=
      ⟨h.blurred, fun limited _ => congrArg (· + 1) (h.count limited counted), h.afterCr⟩
    rw [← limitFault?_twin counting counted]
    split
    · exact ⟨rfl, rfl, counting⟩
    · exact accept_twin spares left.count right.count counting
  · exact accept_twin spares left right h

theorem settle_of_ne (h : r.stage ≠ .content 0) : r.settle = .quiet r := by
  unfold settle
  split
  · next stage => exact absurd stage h
  · rfl

theorem settle_of_full (h : r.stage = .content 0) :
    r.settle = { reader := r.enter .done, events := [.messageComplete] } := by
  simp [settle, h]

theorem settle_twin (h : r.Twin s) : r.settle.Twin s.settle := by
  have same : r.stage = .content 0 ↔ s.stage = .content 0 := by
    rw [← Stage.plain_eq_content, h.stage, Stage.plain_eq_content]
  by_cases full : r.stage = .content 0
  · simp only [settle, full, same.mp full]
    exact ⟨rfl, rfl, h.enter .done rfl rfl⟩
  · rw [settle_of_ne full, settle_of_ne (mt same.mpr full)]
    exact ⟨rfl, rfl, h⟩

theorem Twin.wake (h : r.Twin s) (renew : Bool) : (r.wake renew).Twin (s.wake renew) := by
  have same : r.stage = .done ↔ s.stage = .done := by
    rw [← Stage.plain_eq_done, h.stage, Stage.plain_eq_done]
  simp only [Reader.wake, Bool.and_eq_true, decide_eq_true_eq, same]
  split
  · exact h.reset
  · exact h

end Reader

/-- The same to tell, apart from the cuts of a body and from messages that are over. -/
structure Step.Alike (renew : Bool) (first second : Step) : Prop where
  events : Event.joined first.events = Event.joined second.events
  fault : first.fault = second.fault
  reader : (first.reader.wake renew).Twin (second.reader.wake renew)

namespace Step

variable {renew : Bool} {first second third : Step}

theorem Twin.alike (h : first.Twin second) (renew : Bool) : first.Alike renew second :=
  ⟨congrArg Event.joined h.events, h.fault, h.reader.wake renew⟩

theorem Twin.shut (h : first.Twin second) : first.shut.Twin second.shut := by
  unfold Step.shut
  rw [← h.fault]
  split
  · exact ⟨h.events, rfl, h.reader.enter .closed rfl rfl⟩
  · exact h

theorem Twin.andThen {next other : Reader → Step} (h : first.Twin second)
    (goesOn : (next first.reader).Twin (other second.reader)) :
    (first.andThen next).Twin (second.andThen other) := by
  unfold Step.andThen
  rw [← h.fault]
  split
  · exact h
  · exact ⟨by rw [h.events, goesOn.events], goesOn.fault, goesOn.reader⟩

namespace Alike

theorem refl (step : Step) : step.Alike renew step := ⟨rfl, rfl, .refl _⟩

theorem symm (h : first.Alike renew second) : second.Alike renew first :=
  ⟨h.events.symm, h.fault.symm, h.reader.symm⟩

theorem trans (left : first.Alike renew second) (right : second.Alike renew third) :
    first.Alike renew third :=
  ⟨left.events.trans right.events, left.fault.trans right.fault, left.reader.trans right.reader⟩

theorem andThen {next other : Reader → Step} (h : first.Alike renew second)
    (goesOn : (next first.reader).Alike renew (other second.reader)) :
    (first.andThen next).Alike renew (second.andThen other) := by
  unfold Step.andThen
  rw [← h.fault]
  split
  · exact h
  · exact ⟨Event.joined_append h.events goesOn.events, goesOn.fault, goesOn.reader⟩

end Alike
end Step

namespace Reader

variable {renew : Bool} {capacity other : Nat} {r s : Reader}

theorem wake_wake (r : Reader) : (r.wake renew).wake renew = r.wake renew := by
  cases renew with
  | false => rfl
  | true =>
    by_cases finished : r.stage = .done
    · simp [wake, finished, reset]
    · simp [wake, finished]

theorem advance_alike {b : UInt8} (spares : r.settings.SparesTrailers) (left : r.Sound)
    (right : s.Sound) (h : (r.wake renew).Twin (s.wake renew)) :
    (r.advance renew capacity b).Alike renew (s.advance renew other b) := by
  unfold advance
  simp only [← h.isComplete]
  split
  · exact ⟨rfl, rfl, h.wake renew⟩
  · have settings : (r.wake renew).settings = r.settings := (kin_wake r renew).settings
    have pushed : ((r.wake renew).push capacity b).Twin ((s.wake renew).push other b) :=
      push_twin (settings ▸ spares) (left.wake renew) (right.wake renew) h
    exact (pushed.shut.andThen (settle_twin pushed.shut.reader)).alike renew

/-- Readers with the same to tell tell it, of any octets to come. -/
theorem run_alike (capacity other : Nat) (bytes : Bytes)
    (spares : r.settings.SparesTrailers) (left : r.Sound) (right : s.Sound)
    (h : (r.wake renew).Twin (s.wake renew)) :
    (r.run renew capacity bytes).Alike renew (s.run renew other bytes) := by
  -- On the octets; that the readers have the same to tell once they are awake goes on to hold.
  induction bytes generalizing r s with
  | nil => exact ⟨rfl, rfl, h⟩
  | cons b rest ih =>
    have first : (r.advance renew capacity b).Alike renew (s.advance renew other b) :=
      advance_alike spares left right h
    have settings := (kin_advance left renew capacity b).settings
    exact first.andThen
      (ih (settings ▸ spares) (left.advance renew capacity b) (right.advance renew other b)
        first.reader)

end Reader
end HttpStream
