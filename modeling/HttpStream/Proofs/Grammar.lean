import HttpStream.Proofs.Listening
import HttpStream.Proofs.Telling

/-! Whoever listens, and whatever the owner of a connection asks: between two resets no more is told
than the account of one message. It breaks off at most once, at a fault or at an end that no octet
announces, and nothing is told after that. -/

set_option autoImplicit false

namespace HttpStream

/-- What a listener hears: an event, told while octets are read or not, or a fault. -/
inductive Entry where
  | told (reading : Bool) (event : Event)
  | rejected (fault : Fault)

def Entry.isLast : Entry → Bool
  | .told _ event => event = .messageComplete
  | .rejected _ => true

def Listener.logged {σ : Type} (listener : Listener σ) (reading : Bool) :
    Listener (σ × List Entry) where
  notify state event :=
    let (inner, stop) := listener.notify state.1 event
    ((inner, state.2 ++ [.told reading event]), stop)
  reject state fault := (listener.reject state.1 fault, state.2 ++ [.rejected fault])
  memoryCapacity state := listener.memoryCapacity state.1

def Call.isRead : Call → Bool
  | .read _ => true
  | _ => false

def Call.isReset : Call → Bool
  | .reset => true
  | _ => false

/-- All that was heard since the last reset, after further calls. -/
def Reader.log {σ : Type} (r : Reader) (listener : Listener σ) (state : σ) (log : List Entry) :
    List Call → List Entry
  | [] => log
  | call :: rest =>
    let reply := r.answer (listener.logged call.isRead) (state, log) call
    reply.reader.log listener reply.state.1 (if call.isReset then [] else reply.state.2) rest

/-- What may be heard between two resets: an account as far as it goes, which a fault or an end
that no octet announces may cut short. -/
inductive Grammatical (mode : Mode) (trailing : Bool) : List Entry → Prop where
  | told (account : Account mode trailing) {events : List Event}
      (start : events <+: account.events) :
      Grammatical mode trailing (events.map (.told true))
  | rejected (account : Account mode trailing) {events : List Event}
      (start : events <+: account.events) (short : events ≠ account.events) (fault : Fault) :
      Grammatical mode trailing (events.map (.told true) ++ [.rejected fault])
  | ended (account : Account mode trailing) {events : List Event}
      (start : events <+: account.events) (short : events ≠ account.events) (cut : List Event)
      (early : cut = [] ∨ cut = [.earlyEof]) :
      Grammatical mode trailing
        (events.map (.told true) ++ (cut ++ [Event.messageComplete]).map (.told false))

variable {mode : Mode} {trailing : Bool} {log : List Entry} {events : List Event} {part : Part}

namespace Told

theorem start_account (told : Told mode trailing part events) :
    ∃ account : Account mode trailing, events <+: account.events ∧
      (part ≠ .finished → events ≠ account.events) := by
  obtain ⟨account, rest, whole, short⟩ := told.goesOn
  refine ⟨account, ⟨rest, whole.symm⟩, fun open_ same => short open_ ?_⟩
  rw [← same] at whole
  simpa using whole

end Told

inductive Logged (mode : Mode) (trailing : Bool) (stage : Stage) : List Entry → Prop where
  | told {events : List Event} (told : Told mode trailing stage.part events) :
      Logged mode trailing stage (events.map (.told true))
  | finished {log : List Entry} (closed : stage = .closed)
      (grammatical : Grammatical mode trailing log) :
      Logged mode trailing stage log

theorem Logged.start (mode : Mode) (trailing : Bool) : Logged mode trailing .start [] := by
  have told : Told mode trailing Stage.start.part [] := .startLine
  exact .told told

theorem Logged.grammatical {stage : Stage} (h : Logged mode trailing stage log) :
    Grammatical mode trailing log := by
  cases h with
  | told told =>
    obtain ⟨account, start, _⟩ := told.start_account
    exact .told account start
  | finished _ grammatical => exact grammatical

theorem Logged.of_open {stage : Stage} (h : Logged mode trailing stage log)
    (open_ : stage ≠ .closed) :
    ∃ events, log = events.map (.told true) ∧ Told mode trailing stage.part events := by
  cases h with
  | told told => exact ⟨_, rfl, told⟩
  | finished closed => exact absurd closed open_

namespace Grammatical

theorem isLast_told {reading : Bool} (none : Event.messageComplete ∉ events) :
    ∀ entry ∈ events.map (Entry.told reading), entry.isLast = false := by
  intro entry member
  obtain ⟨event, told, rfl⟩ := List.mem_map.mp member
  have other : event ≠ .messageComplete := fun same => none (same ▸ told)
  simp [Entry.isLast, other]

theorem last (h : Grammatical mode trailing log) :
    ∀ entry ∈ log.dropLast, entry.isLast = false := by
  cases h with
  | @told account events start =>
    rcases List.prefix_concat_iff.mp start with rfl | inside
    · rw [List.map_append, List.map_singleton, List.dropLast_concat]
      exact isLast_told account.messageComplete_notMem
    · have none : Event.messageComplete ∉ events := fun member =>
        account.messageComplete_notMem (inside.subset member)
      exact fun entry member => isLast_told none entry (List.dropLast_subset _ member)
  | rejected account start short fault =>
    rw [List.dropLast_concat]
    exact isLast_told (account.messageComplete_notMem_of_short start short)
  | ended account start short cut early =>
    have none : Event.messageComplete ∉ cut := by rcases early with rfl | rfl <;> simp
    rw [List.map_append, List.map_singleton, ← List.append_assoc, List.dropLast_concat]
    intro entry member
    rcases List.mem_append.mp member with before | early
    · exact isLast_told (account.messageComplete_notMem_of_short start short) entry before
    · exact isLast_told none entry early

end Grammatical

namespace Reader

variable {σ : Type} {r : Reader} {listener : Listener σ}

theorem hear_logged (listener : Listener σ) (reading : Bool) (state : σ × List Entry)
    (events : List Event) :
    (listener.logged reading).hear state events =
      (((listener.hear state.1 events).1, state.2 ++ events.map (.told reading)),
        (listener.hear state.1 events).2) := by
  induction events generalizing state with
  | nil => simp [Listener.hear]
  | cons event rest ih =>
    simp only [Listener.hear, ih]
    simp [Listener.logged]

theorem logged_extends (listener : Listener σ) (reading : Bool) :
    (listener.logged reading).Extends listener Prod.fst :=
  ⟨fun _ _ => rfl, fun _ _ => rfl, fun _ => rfl⟩

theorem read_inner (reading : Bool) (state : σ × List Entry) (input : Input) :
    let logged := r.read (listener.logged reading) state input
    r.read listener state.1 input =
      ⟨logged.reader, logged.state.1, logged.stopped, logged.rest⟩ :=
  (logged_extends listener reading).read r state input

/-- A log disturbs nothing: the calls are answered as they are without it. -/
theorem answer_inner (reading : Bool) (state : σ × List Entry) (call : Call) :
    let logged := r.answer (listener.logged reading) state call
    r.answer listener state.1 call =
      ⟨logged.reader, logged.state.1, logged.stopped, logged.rest⟩ := by
  cases call with
  | read input => exact congrArg Reply.ofReading (read_inner reading state input)
  | shutdown =>
    cases stage : r.stage <;> cases head : r.headResponse <;>
      simp [answer, shutdown, stage, head, Listener.logged]
  | close => simp [answer, close, hear_logged]
  | reset => rfl
  | headResponse value => rfl

theorem turn_logged {state inner : σ × List Entry} {capacity : Nat} {b : UInt8} {bytes : Bytes}
    {turn : Turn} {stop : Bool} (h : Logged r.mode r.settings.trailers r.stage state.2)
    (open_ : r.stage ≠ .closed) (cause : r.TurnCase capacity b bytes turn) (sound : r.Sound)
    (heard : (listener.logged true).hear state turn.step.events = (inner, stop)) :
    ∃ events, inner.2 = events.map (.told true) ∧
      r.Told turn.step.reader.stage.part events := by
  obtain ⟨events, log, told⟩ := h.of_open open_
  rw [hear_logged, log, ← List.map_append] at heard
  exact ⟨events ++ turn.step.events, (congrArg (·.1.2) heard).symm, cause.told sound told⟩

theorem read_logged (state : σ × List Entry) (input : Input) (sound : r.Sound)
    (h : Logged r.mode r.settings.trailers r.stage state.2) :
    Logged r.mode r.settings.trailers
      (r.read (listener.logged true) state input).reader.stage
      (r.read (listener.logged true) state input).state.2 := by
  -- On the turns of the reading; what is logged stays an account until a fault ends it.
  fun_induction read r (listener.logged true) state input with
  | case1 => exact h
  | case2 => exact h
  | case3 r state input full inner stop notified =>
    obtain ⟨events, log, told⟩ := h.of_open (by simp [full])
    have log' : inner.2 = (events ++ [Event.messageComplete]).map (.told true) := by
      rw [List.map_append, ← log]
      exact (congrArg (·.1.2) notified).symm
    rw [log']
    rw [full] at told
    exact .told (told.messageComplete (.inl rfl))
  | case4 => exact h
  | case5 r state input b tail later found turn inner stop heard fault wrong busy open_ partial_ =>
    have cause : r.TurnCase _ b (tail :: later).flatten turn := turn_cases sound
    obtain ⟨events, log, told⟩ := turn_logged h open_ cause sound heard
    obtain ⟨account, start, short⟩ := told.start_account
    have unfinished := mt Stage.part_eq_finished.mp (cause.open_of_fault sound wrong busy)
    refine .finished rfl ?_
    simp only [Listener.logged, log]
    exact .rejected account start (short unfinished) fault
  | case6 r state input b tail later found turn inner fine rest busy open_ partial_ heard =>
    have cause : r.TurnCase _ b (tail :: later).flatten turn := turn_cases sound
    obtain ⟨events, log, told⟩ := turn_logged h open_ cause sound heard
    rw [log]
    exact .told told
  | case7 r state input b tail later found turn inner stop heard fine rest _ busy open_
      partial_ ih =>
    have cause : r.TurnCase _ b (tail :: later).flatten turn := turn_cases sound
    obtain ⟨events, log, told⟩ := turn_logged h open_ cause sound heard
    have kin := cause.kin sound
    rw [kin.mode, kin.settings, log] at ih
    exact ih (cause.sound sound) (.told told)

theorem CutShort.grammatical (cut : r.CutShort events)
    (h : Logged mode trailing r.stage log) :
    Grammatical mode trailing (log ++ events.map (.told false)) := by
  obtain ⟨before, rfl, told⟩ := h.of_open cut.notClosed
  obtain ⟨account, start, short⟩ := told.start_account
  have short := short (mt Stage.part_eq_finished.mp cut.notDone)
  rcases cut.events with rfl | rfl
  · exact .ended account start short [] (.inl rfl)
  · exact .ended account start short [.earlyEof] (.inr rfl)

theorem Logged.ended (h : Logged mode trailing r.stage log) :
    Logged mode trailing r.ended.reader.stage (log ++ r.ended.events.map (.told false)) := by
  rcases r.ended_cases with quiet | ⟨shut, cut⟩
  · rw [quiet]
    simpa [Step.quiet] using h
  · rw [shut]
    exact .finished rfl (cut.grammatical h)

theorem answer_logged (listener : Listener σ) (state : σ × List Entry) (call : Call)
    (sound : r.Sound) (h : Logged r.mode r.settings.trailers r.stage state.2) :
    let reply := r.answer (listener.logged call.isRead) state call
    Logged r.mode r.settings.trailers reply.reader.stage
      (if call.isReset then [] else reply.state.2) := by
  cases call with
  | read input => exact read_logged state input sound h
  | shutdown =>
    obtain ⟨reader, heard⟩ := r.shutdown_ended (listener.logged false) state
    rw [hear_logged] at heard
    have reply : (r.answer (listener.logged false) state .shutdown).reader = r.ended.reader :=
      reader
    have log : (r.answer (listener.logged false) state .shutdown).state.2 =
        state.2 ++ r.ended.events.map (.told false) := congrArg Prod.snd heard
    simp only [Call.isRead, Call.isReset, reply, log]
    exact Logged.ended h
  | close =>
    obtain ⟨closed, events, heard, cut⟩ := r.close_cases (listener.logged false) state
    rw [hear_logged] at heard
    have log : (r.answer (listener.logged false) state .close).state.2 =
        state.2 ++ events.map (.told false) := congrArg Prod.snd heard
    simp only [Call.isRead, Call.isReset, log]
    refine .finished closed ?_
    rcases cut with rfl | cut
    · simpa using h.grammatical
    · exact cut.grammatical h
  | reset => exact .start r.mode r.settings.trailers
  | headResponse value => exact h

theorem Logged.onward (calls : List Call) (state : σ) (sound : r.Sound)
    (h : Logged r.mode r.settings.trailers r.stage log) :
    Grammatical r.mode r.settings.trailers (r.log listener state log calls) := by
  -- On the calls; a reset begins a new account at the start of a message.
  induction calls generalizing r state log with
  | nil => exact h.grammatical
  | cons call rest ih =>
    have next := answer_logged listener (state, log) call sound h
    obtain ⟨mode, settings⟩ := answer_connection sound (listener.logged call.isRead)
      (state, log) call
    rw [← mode, ← settings] at next ⊢
    exact ih _ (sound.answer _ _ call) next

/-- Whoever listens and whatever is asked of a connection, what is heard since the last reset is
the account of one message as far as it goes, with at most a fault or an end after it; and nothing
is heard after the end of the message. -/
theorem log_grammatical (mode : Mode) (settings : Settings) (listener : Listener σ) (state : σ)
    (calls : List Call) :
    let log := Reader.log { mode, settings } listener state [] calls
    Grammatical mode settings.trailers log ∧ ∀ entry ∈ log.dropLast, entry.isLast = false := by
  intro log
  have grammatical : Grammatical mode settings.trailers log :=
    Logged.onward (r := { mode, settings }) calls state (.fresh mode settings)
      (.start mode settings.trailers)
  exact ⟨grammatical, grammatical.last⟩

end Reader
end HttpStream
