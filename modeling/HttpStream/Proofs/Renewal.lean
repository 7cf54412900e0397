import HttpStream.Proofs.Transparency

/-! A reset is a fresh start: wherever a reader stood, and whatever its connection remembers, it
goes on after a reset as a reader that has read nothing. -/

set_option autoImplicit false

namespace HttpStream

open Octet

structure Snapshot where
  label : String
  phase : Phase
  isStart : Bool
  isClosed : Bool
  isIdle : Bool
  isComplete : Bool
  inHead : Bool
  inBody : Bool
  isChunking : Bool
  framing : Framing
  contentLength : Option Nat
  contentRead : Nat
  uri : Bytes
  summary : String

namespace Reader

def snapshot (r : Reader) : Snapshot where
  label := r.stage.label
  phase := r.stage.phase
  isStart := r.stage.isStart
  isClosed := r.stage.isClosed
  isIdle := r.stage.isIdle
  isComplete := r.stage.isComplete
  inHead := r.stage.inHead
  inBody := r.stage.inBody
  isChunking := r.isChunking
  framing := r.framing
  contentLength := r.contentLength
  contentRead := r.contentRead
  uri := r.uri
  summary := r.summary

theorem summary_masked (r : Reader) (n : Nat) : (r.masked n).summary = r.summary := by
  have label : (r.masked n).stage.label = r.stage.label := r.stage.label_plain
  have length : (r.masked n).contentLength = r.contentLength := rfl
  have read : (r.masked n).contentRead = r.contentRead := rfl
  unfold summary
  rw [label, length, read]

theorem snapshot_masked (r : Reader) (n : Nat) : (r.masked n).snapshot = r.snapshot := by
  have stage : (r.masked n).stage = r.stage.plain := rfl
  simp only [snapshot, summary_masked, stage, Stage.label_plain, Stage.phase_plain,
    Stage.isStart_plain, Stage.isClosed_plain, Stage.isIdle_plain, Stage.isComplete_plain,
    Stage.inHead_plain, Stage.inBody_plain]
  rfl

end Reader

/-- A reply as the owner of the connection sees it: what the listener has heard, the answer, the
octets left, and all that shows of the reader. -/
def Reply.seen {σ : Type} (reply : Reply σ) : σ × Option Bool × Input × Snapshot :=
  (reply.state, reply.stopped, reply.rest, reply.reader.snapshot)

theorem Reply.Peer.seen {σ : Type} {first second : Reply σ} (h : first.Peer second) :
    first.seen = second.seen := by
  have snapshot : first.reader.snapshot = second.reader.snapshot := by
    rw [← Reader.snapshot_masked _ 0, h.reader.masked, Reader.snapshot_masked]
  simp only [Reply.seen, h.state, h.stopped, h.rest, snapshot]

namespace Reader

/-- The same reader up to the note of a line end before it, in a place where the note means
nothing: ahead of a start line, or closed. -/
def Level (r s : Reader) : Prop :=
  s = r ∨ (r.stage = .start ∨ r.stage = .closed) ∧ ∃ afterCr, s = { r with afterCr }

variable {σ : Type} {listener : Listener σ} {state : σ} {r s : Reader} {b : UInt8} {capacity : Nat}

namespace Level

theorem aside (idle : r.stage = .start ∨ r.stage = .closed) (afterCr : Bool) :
    r.Level { r with afterCr } := .inr ⟨idle, afterCr, rfl⟩

theorem snapshot (h : r.Level s) : r.snapshot = s.snapshot := by
  rcases h with rfl | ⟨_, afterCr, rfl⟩ <;> rfl

end Level

/-! Ahead of a start line. -/

/-- What an octet ahead of a start line leads to, whether a line ended before it or not: it is
refused at the limit, or passed over, or the note of a line end makes no difference. -/
theorem push_start (start : r.stage = .start) (capacity : Nat) (b : UInt8) (afterCr : Bool) :
    (∃ fault, r.push capacity b = .fail r.count fault ∧
      { r with afterCr }.push capacity b = .fail { r.count with afterCr } fault) ∨
    (∃ first second, r.push capacity b = .quiet { r.count with afterCr := first } ∧
      { r with afterCr }.push capacity b = .quiet { r.count with afterCr := second }) ∨
    { r with afterCr }.push capacity b = r.push capacity b := by
  have counted : r.stage.isCounted = true := by rw [start]; rfl
  have idle : r.count.stage.isIdle = true := by rw [count_stage, start]; rfl
  cases fine : r.count.limitFault? with
  | some fault =>
    exact .inl ⟨fault, push_of_limit counted fine,
      push_of_limit (r := { r with afterCr }) counted fine⟩
  | none =>
    rw [push_within counted fine, push_within (r := { r with afterCr }) counted fine]
    cases ended : isLineEnd b with
    | true =>
      obtain ⟨first, passed⟩ := accept_idle capacity idle ended
      obtain ⟨second, passed'⟩ := accept_idle (r := { r with afterCr }.count) capacity idle ended
      exact .inr (.inl ⟨first, second, passed, passed'⟩)
    | false =>
      refine .inr (.inr ?_)
      simp only [accept, isLineRest, ended, Bool.and_false, Bool.false_eq_true, if_false]
      rfl

theorem startAhead?_aside (afterCr : Bool) (window : Bytes) :
    { r with afterCr }.startAhead? window = r.startAhead? window := by
  rfl

theorem turn_of_start (start : r.stage = .start) (capacity : Nat) (b : UInt8) (tail : Bytes)
    (later : Input) : r.turn capacity b tail later =
      match r.startAhead? (b :: tail) with
      | some (reader, length) => { step := .quiet reader, extra := length - 1 }
      | none => { step := r.push capacity b } := by
  have slice : r.slice? b tail = none := by simp [slice?, room, start]
  unfold turn
  cases r.startAhead? (b :: tail) with
  | some known => rfl
  | none =>
    simp only [slice, extend, start]
    split
    · rfl
    · split <;> rfl

theorem turn_start (start : r.stage = .start) (capacity : Nat) (b : UInt8) (tail : Bytes)
    (later : Input) (afterCr : Bool) :
    (∃ fault, r.turn capacity b tail later = { step := .fail r.count fault } ∧
      { r with afterCr }.turn capacity b tail later =
        { step := .fail { r.count with afterCr } fault }) ∨
    (∃ first second,
      r.turn capacity b tail later = { step := .quiet { r.count with afterCr := first } } ∧
      { r with afterCr }.turn capacity b tail later =
        { step := .quiet { r.count with afterCr := second } }) ∨
    { r with afterCr }.turn capacity b tail later = r.turn capacity b tail later := by
  rw [turn_of_start start, turn_of_start (r := { r with afterCr }) start,
    startAhead?_aside (r := r) afterCr]
  cases r.startAhead? (b :: tail) with
  | some known => exact .inr (.inr rfl)
  | none =>
    rcases push_start start capacity b afterCr with
      ⟨fault, wrong, wrong'⟩ | ⟨first, second, passed, passed'⟩ | same
    · exact .inl ⟨fault, by rw [wrong], by rw [wrong']⟩
    · exact .inr (.inl ⟨first, second, by rw [passed], by rw [passed']⟩)
    · exact .inr (.inr (by rw [same]))

end Reader

structure Reading.Level {σ : Type} (first second : Reading σ) : Prop where
  reader : first.reader.Level second.reader
  state : first.state = second.state
  stopped : first.stopped = second.stopped
  rest : first.rest = second.rest

namespace Reader

variable {σ : Type} {listener : Listener σ} {state : σ} {r s : Reader} {input : Input}

theorem Level.refl_reading (reading : Reading σ) : reading.Level reading :=
  ⟨.inl rfl, rfl, rfl, rfl⟩

theorem read_start (start : r.stage = .start) (afterCr : Bool) :
    (r.read listener state input).Level ({ r with afterCr }.read listener state input) := by
  -- On the octets left. The note of a line end is overwritten by each octet ahead of the start
  -- line, and gone once the line begins.
  induction size : input.size using Nat.strongRecOn generalizing r afterCr state input with
  | ind size ih =>
    subst size
    have reads : r.Reads := by constructor <;> rw [start] <;> nofun
    have reads' : Reads { r with afterCr } := ⟨reads.notDone, reads.notClosed, reads.notFull⟩
    cases found : input.next? with
    | none =>
      rw [read_nothing reads found, read_nothing reads' found]
      exact ⟨.aside (.inl start) afterCr, rfl, rfl, rfl⟩
    | some next =>
      obtain ⟨b, tail, later⟩ := next
      have capacity : { r with afterCr }.capacityFor listener state =
          r.capacityFor listener state := rfl
      rw [read_next reads found, read_next reads' found, capacity]
      rcases turn_start start (r.capacityFor listener state) b tail later afterCr with
        ⟨fault, wrong, wrong'⟩ | ⟨first, second, passed, passed'⟩ | same
      · rw [wrong, wrong']
        exact ⟨.aside (.inr rfl) afterCr, rfl, rfl, rfl⟩
      · rw [passed, passed']
        exact ih _ (Input.size_drop_lt 0 found) (r := { r.count with afterCr := first }) start
          second rfl
      · rw [same]
        exact Level.refl_reading _

theorem Level.read (h : r.Level s) (listener : Listener σ) (state : σ) (input : Input) :
    (r.read listener state input).Level (s.read listener state input) := by
  rcases h with rfl | ⟨start | closed, afterCr, rfl⟩
  · exact refl_reading _
  · exact read_start start afterCr
  · rw [read_closed closed, read_closed (r := { r with afterCr }) closed]
    exact ⟨.aside (.inr closed) afterCr, rfl, rfl, rfl⟩

/-! Any call. -/

theorem Level.answer (h : r.Level s) (listener : Listener σ) (state : σ) (call : Call) :
    (r.answer listener state call).reader.Level (s.answer listener state call).reader ∧
      (r.answer listener state call).seen = (s.answer listener state call).seen := by
  cases call with
  | read input =>
    have reading := h.read listener state input
    refine ⟨reading.reader, ?_⟩
    have snapshot := reading.reader.snapshot
    simp only [Reply.seen, Reader.answer, Reply.ofReading, reading.state, reading.stopped,
      reading.rest, snapshot]
  | shutdown =>
    rcases h with rfl | ⟨idle, afterCr, rfl⟩
    · exact ⟨.inl rfl, rfl⟩
    · -- Neither reader is in the middle of a message.
      have silent (s : Reader) (idle : s.stage = .start ∨ s.stage = .closed) :
          s.shutdown listener state = (s, state, false) := by
        rcases idle with stage | stage <;> simp [Reader.shutdown, stage]
      simp only [Reader.answer, silent r idle, silent { r with afterCr } idle]
      exact ⟨.aside idle afterCr, rfl⟩
  | close =>
    rcases h with rfl | ⟨_, afterCr, rfl⟩
    · exact ⟨.inl rfl, rfl⟩
    · exact ⟨.aside (.inr rfl) afterCr, rfl⟩
  | reset =>
    rcases h with rfl | ⟨_, afterCr, rfl⟩
    · exact ⟨.inl rfl, rfl⟩
    · exact ⟨.aside (.inl rfl) afterCr, rfl⟩
  | headResponse value =>
    rcases h with rfl | ⟨idle, afterCr, rfl⟩
    · exact ⟨.inl rfl, rfl⟩
    · exact ⟨.aside (r := r.setHeadResponse value) idle afterCr, rfl⟩

theorem Level.answers (h : r.Level s) (listener : Listener σ) (state : σ) (calls : List Call) :
    (r.answers listener state calls).map Reply.seen =
      (s.answers listener state calls).map Reply.seen := by
  -- On the calls; an answer leaves the readers level again.
  induction calls generalizing r s state with
  | nil => rfl
  | cons call rest ih =>
    obtain ⟨level, seen⟩ := h.answer listener state call
    have heard : (r.answer listener state call).state = (s.answer listener state call).state :=
      congrArg Prod.fst seen
    simp only [Reader.answers, List.map_cons]
    rw [seen, ih level, heard]

/-- Whatever was asked of a connection before, a reader that was reset shows what a new reader for
the same side shows, with the same settings and the same word on whether the response has a body;
and it answers whatever is asked next as that reader does. -/
theorem answers_reset (mode : Mode) (settings : Settings) (memory : Option Nat)
    (before after : List Call) (recorder : Recorder) :
    let listener := Recorder.listener { memoryCapacity := memory }
    let reader := (Reader.through { mode, settings } listener {} before).1
    let fresh : Reader := { mode, settings, headResponse := reader.headResponse }
    reader.reset.snapshot = fresh.snapshot ∧
      (reader.reset.answers listener recorder after).map Reply.seen =
        (fresh.answers listener recorder after).map Reply.seen := by
  intro listener reader fresh
  have new : Sound { mode, settings } := .fresh mode settings
  have sound : reader.reset.Sound := (new.through listener {} before).reset
  obtain ⟨side, config⟩ := through_connection new listener {} before
  -- A reset leaves the memory and the note of a line end; the memory does not show.
  have peer : reader.reset.Peer { fresh with afterCr := reader.afterCr } := by
    refine ⟨?_, rfl⟩
    simp only [masked, reset, fresh, reader, side, config]
  have level : fresh.Level { fresh with afterCr := reader.afterCr } := .aside (.inl rfl) _
  have sound' : Sound { fresh with afterCr := reader.afterCr } :=
    ⟨trivial, new.side, new.cache, new.measured⟩
  have same : (reader.reset.answers listener recorder after).map Reply.seen =
      (Reader.answers { fresh with afterCr := reader.afterCr } listener recorder after).map
        Reply.seen :=
    answers_map (fun _ _ => Reply.Peer.seen) recorder after peer sound sound'
  exact ⟨rfl, same.trans (level.answers listener recorder after).symm⟩

end Reader
end HttpStream
