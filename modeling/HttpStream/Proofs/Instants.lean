import HttpStream.Proofs.Grammar
import Mathlib.Logic.Relation

/-! A connection from one instant to the next: a turn of its reader, the end of a body of known
length, or what its owner asks other than to read. -/

set_option autoImplicit false

namespace HttpStream

/-- A reader with its listener, and all that was heard so far. -/
structure Instant (σ : Type) where
  reader : Reader
  state : σ
  past : List Entry := []
  log : List Entry := []

def Entry.event? : Entry → Option Event
  | .told _ event => some event
  | .rejected _ => none

namespace Reader

def parting (r : Reader) : List Event :=
  match r.stage with
  | .start | .done | .closed => []
  | .untilClose => [.messageComplete]
  | _ => [.earlyEof, .messageComplete]

def shut (r : Reader) : Reader :=
  { r.enter .closed with
    framing := .unknown, contentLength := none, contentRead := 0, headerBytes := 0 }

theorem parting_cases (r : Reader) : r.parting = [] ∨ r.CutShort r.parting := by
  unfold parting
  split
  · exact .inl rfl
  · exact .inl rfl
  · exact .inl rfl
  · next stage => exact .inr ⟨by simp [stage], by simp [stage], .inl rfl⟩
  · next done closed _ => exact .inr ⟨done, closed, .inr rfl⟩

theorem turn_cause {r : Reader} {capacity : Nat} {b : UInt8} {tail : Bytes} {later : Input}
    {turn : Turn} (sound : r.Sound) (taken : r.turn capacity b tail later = turn) :
    r.TurnCase capacity b (tail :: later).flatten turn :=
  taken ▸ turn_cases sound

end Reader

namespace Instant

variable {σ : Type} {listener : Listener σ} {now next later : Instant σ} {event : Event}

def fresh (mode : Mode) (settings : Settings) (state : σ) : Instant σ where
  reader := { mode, settings }
  state

/-- What was told of the message under way. -/
def told (now : Instant σ) : List Event := now.log.filterMap Entry.event?

def history (now : Instant σ) : List Event := (now.past ++ now.log).filterMap Entry.event?

def tells (now : Instant σ) (listener : Listener σ) (reading : Bool) (reader : Reader)
    (events : List Event) : Instant σ :=
  { now with
    reader
    state := (listener.hear now.state events).1
    log := now.log ++ events.map (.told reading) }

def rejects (now : Instant σ) (listener : Listener σ) (fault : Fault) : Instant σ :=
  { now with
    reader := now.reader.enter .closed
    state := listener.reject now.state fault
    log := now.log ++ [.rejected fault] }

inductive Follows (listener : Listener σ) (now : Instant σ) : Instant σ → Prop where
  | turn {b : UInt8} {tail : Bytes} {later : Input} (reads : now.reader.Reads) {turn : Turn}
      (taken : now.reader.turn (now.reader.capacityFor listener now.state) b tail later = turn)
      (fine : turn.step.fault = none) :
      Follows listener now (now.tells listener true turn.step.reader turn.step.events)
  | refused {b : UInt8} {tail : Bytes} {later : Input} (reads : now.reader.Reads) {turn : Turn}
      (taken : now.reader.turn (now.reader.capacityFor listener now.state) b tail later = turn)
      {fault : Fault} (wrong : turn.step.fault = some fault) :
      Follows listener now
        ((now.tells listener true turn.step.reader turn.step.events).rejects listener fault)
  | completed (full : now.reader.stage = .content 0) :
      Follows listener now
        (now.tells listener true (now.reader.enter .done) [.messageComplete])
  | shutdown :
      Follows listener now
        (now.tells listener false now.reader.ended.reader now.reader.ended.events)
  | close : Follows listener now (now.tells listener false now.reader.shut now.reader.parting)
  | reset :
      Follows listener now
        { now with reader := now.reader.reset, past := now.past ++ now.log, log := [] }
  | headResponse (value : Bool) :
      Follows listener now { now with reader := now.reader.setHeadResponse value }

def Reaches (listener : Listener σ) : Instant σ → Instant σ → Prop :=
  Relation.ReflTransGen (Follows listener)

def of (past : List Entry) (reader : Reader) (logged : σ × List Entry) : Instant σ :=
  ⟨reader, logged.1, past, logged.2⟩

def answer (now : Instant σ) (listener : Listener σ) (call : Call) : Instant σ :=
  let reply := now.reader.answer (listener.logged call.isRead) (now.state, now.log) call
  if call.isReset then of (now.past ++ now.log) reply.reader (reply.state.1, [])
  else of now.past reply.reader reply.state

def through (now : Instant σ) (listener : Listener σ) : List Call → Instant σ
  | [] => now
  | call :: rest => (now.answer listener call).through listener rest

/-! What was told. -/

theorem event?_told (reading : Bool) (events : List Event) :
    (events.map (Entry.told reading)).filterMap Entry.event? = events := by
  simp [List.filterMap_map, Function.comp_def, Entry.event?]

@[simp] theorem told_tells (now : Instant σ) (reading : Bool) (reader : Reader)
    (events : List Event) : (now.tells listener reading reader events).told = now.told ++ events := by
  rw [told, tells, List.filterMap_append, event?_told]
  rfl

@[simp] theorem told_rejects (now : Instant σ) (fault : Fault) :
    (now.rejects listener fault).told = now.told := by
  simp [told, rejects, Entry.event?]

theorem history_eq (now : Instant σ) :
    now.history = now.past.filterMap Entry.event? ++ now.told := List.filterMap_append

@[simp] theorem history_tells (now : Instant σ) (reading : Bool) (reader : Reader)
    (events : List Event) :
    (now.tells listener reading reader events).history = now.history ++ events := by
  rw [history_eq, told_tells, history_eq, List.append_assoc]
  rfl

@[simp] theorem history_rejects (now : Instant σ) (fault : Fault) :
    (now.rejects listener fault).history = now.history := by
  rw [history_eq, told_rejects, history_eq]
  rfl

/-! Calls pass through instants. -/

/-- What the log says is what the listener was told. -/
theorem of_hear (past : List Entry) {r s : Reader} {state inner : σ × List Entry}
    {reading stop : Bool} {events : List Event}
    (heard : (listener.logged reading).hear state events = (inner, stop)) :
    of past s inner = (of past r state).tells listener reading s events := by
  rw [Reader.hear_logged] at heard
  obtain ⟨rfl, _⟩ := Prod.mk.inj heard
  rfl

theorem reaches_read (past : List Entry) (r : Reader) (state : σ × List Entry) (input : Input) :
    (of past r state).Reaches listener
      (of past (r.read (listener.logged true) state input).reader
        (r.read (listener.logged true) state input).state) := by
  -- Each turn of the reading is one step.
  fun_induction Reader.read r (listener.logged true) state input with
  | case1 => exact .refl
  | case2 => exact .refl
  | case3 r state input full inner stop notified =>
    have heard : (listener.logged true).hear state [.messageComplete] = (inner, stop) := by
      simp [Listener.hear, notified]
    rw [of_hear past heard]
    exact .single (.completed full)
  | case4 => exact .refl
  | case5 r state input b tail later found turn inner stop heard fault wrong busy open_ partial_ =>
    have step : (of past r state).Follows listener
        ((of past turn.step.reader inner).rejects listener fault) :=
      of_hear past heard ▸ .refused ⟨busy, open_, partial_⟩ rfl wrong
    exact .single step
  | case6 r state input b tail later found turn inner fine rest busy open_ partial_ heard =>
    rw [of_hear past heard]
    exact .single (.turn ⟨busy, open_, partial_⟩ rfl fine)
  | case7 r state input b tail later found turn inner stop heard fine rest _ busy open_
      partial_ ih =>
    have step : (of past r state).Follows listener (of past turn.step.reader inner) :=
      of_hear past heard ▸ .turn ⟨busy, open_, partial_⟩ rfl fine
    exact ih.head step

theorem reaches_answer (now : Instant σ) (call : Call) :
    now.Reaches listener (now.answer listener call) := by
  cases call with
  | read input => exact reaches_read now.past now.reader (now.state, now.log) input
  | shutdown =>
    obtain ⟨reader, heard⟩ := now.reader.shutdown_ended (listener.logged false) (now.state, now.log)
    have same : now.answer listener .shutdown = of now.past now.reader.ended.reader
        ((listener.logged false).hear (now.state, now.log) now.reader.ended.events).1 := by
      rw [← reader, ← heard]
      rfl
    rw [same, of_hear now.past rfl]
    exact .single .shutdown
  | close =>
    have same : now.answer listener .close = of now.past now.reader.shut
        ((listener.logged false).hear (now.state, now.log) now.reader.parting).1 := rfl
    rw [same, of_hear now.past rfl]
    exact .single .close
  | reset => exact .single .reset
  | headResponse value => exact .single (.headResponse value)

theorem reaches_through (now : Instant σ) (calls : List Call) :
    now.Reaches listener (now.through listener calls) := by
  induction calls generalizing now with
  | nil => exact .refl
  | cons call rest ih => exact (reaches_answer now call).trans (ih _)

theorem through_eq (now : Instant σ) (calls : List Call) :
    (now.through listener calls).reader = (now.reader.through listener now.state calls).1 ∧
      (now.through listener calls).state = (now.reader.through listener now.state calls).2 ∧
      (now.through listener calls).log = now.reader.log listener now.state now.log calls := by
  induction calls generalizing now with
  | nil => exact ⟨rfl, rfl, rfl⟩
  | cons call rest ih =>
    have answered := @Reader.answer_inner _ now.reader listener call.isRead (now.state, now.log) call
    simp only [through, Reader.through, Reader.log, answered]
    have next := ih (now.answer listener call)
    cases call <;> exact next

/-- Whatever is asked of a connection is a way through its instants, to what is left of the reader
and to what was heard. -/
theorem reaches_last (mode : Mode) (settings : Settings) (listener : Listener σ) (state : σ)
    (calls : List Call) :
    let last := (fresh mode settings state).through listener calls
    (fresh mode settings state).Reaches listener last ∧
      last.reader = (Reader.through { mode, settings } listener state calls).1 ∧
      last.log = Reader.log { mode, settings } listener state [] calls := by
  obtain ⟨reader, _, log⟩ := @through_eq _ listener (fresh mode settings state) calls
  exact ⟨reaches_through _ calls, reader, log⟩

/-! What every step keeps. -/

theorem Follows.sound (follows : Follows listener now next) (sound : now.reader.Sound) :
    next.reader.Sound := by
  cases follows with
  | turn _ taken => exact taken ▸ sound.turn ..
  | refused _ taken => exact (taken ▸ sound.turn ..).enter_finished (.inr rfl)
  | completed => exact sound.enter_finished (.inl rfl)
  | shutdown => exact sound.ended
  | close => exact sound.close listener now.state
  | reset => exact sound.reset
  | headResponse => exact ⟨sound.stage, sound.side, sound.cache, sound.measured⟩

theorem Reaches.sound (reaches : now.Reaches listener later) (sound : now.reader.Sound) :
    later.reader.Sound := by
  induction reaches with
  | refl => exact sound
  | tail _ follows ih => exact follows.sound ih

/-- What every step keeps holds ever after. -/
theorem Reaches.keeps {P : Instant σ → Prop} (reaches : now.Reaches listener later)
    (sound : now.reader.Sound) (start : P now)
    (kept : ∀ {now next : Instant σ}, now.reader.Sound → Follows listener now next → P now →
      P next) : P later := by
  induction reaches with
  | refl => exact start
  | tail before follows ih => exact kept (Reaches.sound before sound) follows ih

theorem Follows.connection (follows : Follows listener now next) (sound : now.reader.Sound) :
    next.reader.mode = now.reader.mode ∧ next.reader.settings = now.reader.settings := by
  cases follows with
  | turn _ taken | refused _ taken =>
    have kin := (Reader.turn_cause sound taken).kin sound
    exact ⟨kin.mode, kin.settings⟩
  | shutdown => exact ⟨now.reader.kin_ended.mode, now.reader.kin_ended.settings⟩
  | completed | close | reset | headResponse => exact ⟨rfl, rfl⟩

end Instant
end HttpStream
