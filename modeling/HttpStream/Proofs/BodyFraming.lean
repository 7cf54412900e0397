import HttpStream.Proofs.Delivered
import HttpStream.Proofs.Grammar

/-! Whoever listens and whatever is asked of a connection: the framing of a message is decided where
its fields end, by what was told of them, and it stays; what is told of the body agrees with it. -/

set_option autoImplicit false

namespace HttpStream

def Call.goesOn : Call → Bool
  | .reset | .close => false
  | _ => true

/-- The events that were told while octets were read. -/
def heard (log : List Entry) : List Event :=
  log.filterMap fun
    | .told true event => some event
    | _ => none

@[simp] theorem heard_nil : heard [] = [] := rfl

theorem heard_append (log more : List Entry) : heard (log ++ more) = heard log ++ heard more :=
  List.filterMap_append

theorem heard_told (events : List Event) : heard (events.map (.told true)) = events := by
  simp [heard, List.filterMap_map]

theorem heard_aside (events : List Event) : heard (events.map (.told false)) = [] := by
  simp [heard, List.filterMap_map]

theorem heard_rejected (log : List Entry) (fault : Fault) :
    heard (log ++ [.rejected fault]) = heard log := by
  simp [heard]

namespace Reader

variable {σ : Type} {asked : Bool} {r s t : Reader} {listener : Listener σ} {b : UInt8}
  {capacity : Nat} {bytes : Bytes} {turn : Turn} {events : List Event}

/-- What every turn carries on with the events that it tells, and the ends of a reading too, a
reading carries on. -/
theorem read_carries {P : Reader → List Event → Prop} (listener : Listener σ)
    (state : σ × List Entry) (input : Input) (sound : r.Sound) (start : P r (heard state.2))
    (turned : ∀ {s : Reader} {capacity : Nat} {b : UInt8} {bytes : Bytes} {turn : Turn}
      {events : List Event}, s.Sound → s.stage ≠ .content 0 → s.TurnCase capacity b bytes turn →
      P s events → P turn.step.reader (events ++ turn.step.events))
    (completed : ∀ {s : Reader} {events : List Event}, s.stage = .content 0 → P s events →
      P (s.enter .done) (events ++ [.messageComplete]))
    (shut : ∀ {s : Reader} {events : List Event}, s.stage ≠ .done → P s events →
      P (s.enter .closed) events) :
    P (r.read (listener.logged true) state input).reader
      (heard (r.read (listener.logged true) state input).state.2) := by
  have told {state inner : σ × List Entry} {events : List Event} {stop : Bool}
      (hears : (listener.logged true).hear state events = (inner, stop)) :
      heard inner.2 = heard state.2 ++ events := by
    rw [hear_logged] at hears
    rw [← congrArg (·.1.2) hears, heard_append, heard_told]
  -- On the turns of the reading; a fault closes the reader where it stands.
  fun_induction read r (listener.logged true) state input with
  | case1 => exact start
  | case2 => exact start
  | case3 r state input full inner stop notified =>
    have log : inner.2 = state.2 ++ [.told true .messageComplete] :=
      (congrArg (·.1.2) notified).symm
    rw [log, heard_append]
    exact completed full start
  | case4 => exact start
  | case5 r state input b tail later found turn inner stop hears fault wrong busy _ partial_ =>
    have cause : r.TurnCase _ b (tail :: later).flatten turn := turn_cases sound
    simp only [Listener.logged]
    rw [heard_rejected, told hears]
    exact shut (cause.open_of_fault sound wrong busy) (turned sound partial_ cause start)
  | case6 r state input b tail later found turn inner fine rest _ _ partial_ hears =>
    rw [told hears]
    exact turned sound partial_ (turn_cases sound) start
  | case7 r state input b tail later found turn inner stop hears fine rest _ _ _ partial_ ih =>
    apply ih ((turn_cases sound).sound sound)
    rw [told hears]
    exact turned sound partial_ (turn_cases sound) start

/-! Past the head the framing stays. -/

structure Keeps (r s : Reader) : Prop where
  outside : s.stage.inHead = false
  framing : s.framing = r.framing
  contentLength : s.contentLength = r.contentLength

theorem push_keeps (sound : s.Sound) (h : r.Keeps s) : r.Keeps (s.push capacity b).reader := by
  have push := push_cases sound capacity (b := b)
  generalize s.push capacity b = step at push
  cases push with
  | limit | lineRest | idle => exact ⟨h.outside, h.framing, h.contentLength⟩
  | startLine _ line => exact absurd (Stage.inHead_of_inStartLine line) (by simp [h.outside])
  | fields _ line => exact absurd (Stage.inHead_of_inFields line) (by simp [h.outside])
  | body _ body cause =>
    obtain ⟨framing, length, _⟩ := cause.kept
    exact ⟨cause.outside body, framing.trans h.framing, length.trans h.contentLength⟩

theorem TurnCase.keepsFraming (cause : s.TurnCase capacity b bytes turn) (sound : s.Sound)
    (h : r.Keeps s) : r.Keeps turn.step.reader := by
  refine cause.keeps sound h (fun t b sound _ kept => push_keeps sound kept)
    (fun _ _ _ kept => ⟨kept.outside, kept.framing, kept.contentLength⟩) ?_ ?_
  · intro t u noted inside kept
    exact absurd inside (by simp [kept.outside])
  · intro b rest room
    have body : s.stage.inBody = true := (inBody_of_room room).1
    exact ⟨Stage.inHead_of_inBody (deliver_inBody (r := { s with afterCr := false }) body _),
      h.framing, h.contentLength⟩

theorem Keeps.ends (h : r.Keeps s) {stage : Stage} (outside : stage.inHead = false) :
    r.Keeps (s.enter stage) := ⟨outside, h.framing, h.contentLength⟩

theorem read_keeps (sound : r.Sound) (outside : r.stage.inHead = false) (listener : Listener σ)
    (state : σ) (input : Input) : r.Keeps (r.read listener state input).reader := by
  rw [read_inner true (state, []) input]
  exact @read_carries _ _ (fun s _ => r.Keeps s) listener (state, []) input sound
    ⟨outside, rfl, rfl⟩ (fun sound _ cause => cause.keepsFraming sound)
    (fun _ kept => kept.ends rfl) (fun _ kept => kept.ends rfl)

theorem answer_keeps (sound : r.Sound) (outside : r.stage.inHead = false) (listener : Listener σ)
    (state : σ) {call : Call} (goesOn : call.goesOn = true) :
    r.Keeps (r.answer listener state call).reader := by
  have kept : r.Keeps r := ⟨outside, rfl, rfl⟩
  cases call with
  | read input => exact read_keeps sound outside listener state input
  | shutdown =>
    have same : (r.answer listener state .shutdown).reader = r.ended.reader :=
      (r.shutdown_ended listener state).1
    rw [same]
    rcases r.ended_cases with quiet | ⟨shut, _⟩
    · rw [quiet]
      exact kept
    · rw [shut]
      exact kept.ends rfl
  | headResponse => exact ⟨outside, rfl, rfl⟩
  | reset | close => cases goesOn

/-! The account of a message, over all calls. -/

theorem Decides.ends (h : Decides asked r events) {stage : Stage} (outside : stage.inHead = false)
    {more : List Event} (late : ∀ event ∈ more, event.isLate = true) :
    Decides asked (r.enter stage) (events ++ more) :=
  h.onward outside rfl rfl rfl late

theorem Accounted.shut (h : Accounted asked r events) (busy : r.stage ≠ .done) :
    Accounted asked (r.enter .closed) events := by
  have decides : Decides asked (r.enter .closed) (events ++ []) :=
    h.decides.ends rfl (List.forall_mem_nil _)
  rw [List.append_nil] at decides
  exact ⟨h.framed.finish (.inr rfl), decides, h.delivered.shut busy⟩

theorem Accounted.complete (h : Accounted asked r events) (full : r.stage = .content 0) :
    Accounted asked (r.enter .done) (events ++ [.messageComplete]) where
  framed := h.framed.finish (.inl rfl)
  decides := h.decides.ends rfl (by simp [Event.isLate])
  delivered := h.delivered.complete h.framed full

theorem Accounted.fresh (mode : Mode) (settings : Settings) (afterCr asked : Bool)
    (cache : Recall) :
    Accounted asked { mode, settings, afterCr, headResponse := asked, cache } [] where
  framed := .of_none rfl nofun
  decides := ⟨⟨.of_none rfl, fun _ => rfl, nofun⟩, fun _ => rfl, fun _ => .nothing rfl rfl,
    .nothing rfl, nofun⟩
  delivered := .of_head rfl rfl rfl List.not_mem_nil List.not_mem_nil

/-- What is known of a message, of which these events were told, while the connection is open; one
that its owner ended has no framing. -/
inductive Known (r : Reader) (events : List Event) : Prop where
  | accounted (asked : Bool) (accounted : Accounted asked r events)
  | ended (closed : r.stage = .closed) (framing : r.framing = .unknown)

theorem read_known (listener : Listener σ) (state : σ × List Entry) (input : Input)
    (sound : r.Sound) (accounted : Accounted asked r (heard state.2)) :
    Accounted asked (r.read (listener.logged true) state input).reader
      (heard (r.read (listener.logged true) state input).state.2) :=
  read_carries listener state input sound accounted
    (fun sound more cause known => cause.accounted sound more known)
    (fun full known => known.complete full) (fun busy known => known.shut busy)

/-- A message may turn out to answer a HEAD request as long as its fields have not ended. -/
theorem Accounted.setHeadResponse (h : Accounted asked r events) (value : Bool) :
    ∃ asked, Accounted asked (r.setHeadResponse value) events := by
  have framed : (r.setHeadResponse value).Framed :=
    ⟨h.framed.framing, h.framed.content, h.framed.untilClose⟩
  have delivered : (r.setHeadResponse value).Delivered events := h.delivered.of_eq rfl rfl rfl rfl
  have undecided : (r.setHeadResponse value).Undecided events :=
    h.decides.undecided.of_eq rfl rfl rfl
  -- Past the fields the decision stands as it was made, and what was asked then counts.
  by_cases past : .headerComplete ∈ events
  · exact ⟨asked, framed, ⟨undecided, fun going => absurd past going,
      fun going => absurd past going, h.decides.counted.of_eq rfl,
      fun _ opened => (h.decides.settled past opened).of_eq rfl rfl⟩, delivered⟩
  · have heeded := (h.decides.heeded past).of_eq (s := r.setHeadResponse value) rfl rfl
    exact ⟨value, framed, undecided.decides rfl past heeded, delivered⟩

theorem answer_accounted (listener : Listener σ) (state : σ × List Entry) {call : Call}
    (goesOn : call.goesOn = true) (sound : r.Sound)
    (accounted : Accounted asked r (heard state.2)) :
    let reply := r.answer (listener.logged call.isRead) state call
    ∃ asked, Accounted asked reply.reader (heard reply.state.2) := by
  cases call with
  | read input => exact ⟨asked, read_known listener state input sound accounted⟩
  | shutdown =>
    obtain ⟨reader, tells⟩ := r.shutdown_ended (listener.logged false) state
    rw [hear_logged] at tells
    have reply : (r.answer (listener.logged false) state .shutdown).reader = r.ended.reader :=
      reader
    have log : (r.answer (listener.logged false) state .shutdown).state.2 =
        state.2 ++ r.ended.events.map (.told false) := congrArg Prod.snd tells
    simp only [Call.isRead, reply, log]
    rw [heard_append, heard_aside, List.append_nil]
    rcases r.ended_cases with quiet | ⟨shut, cut⟩
    · rw [quiet]
      exact ⟨asked, accounted⟩
    · rw [shut]
      exact ⟨asked, accounted.shut cut.notDone⟩
  | headResponse value => exact accounted.setHeadResponse value
  | reset | close => cases goesOn

theorem answer_closed (closed : r.stage = .closed) (listener : Listener σ) (state : σ)
    {call : Call} (goesOn : call.goesOn = true) :
    (r.answer listener state call).reader.stage = .closed := by
  cases call with
  | read input =>
    simp only [answer, read_closed closed, Reply.ofReading]
    exact closed
  | shutdown =>
    have same : (r.answer listener state .shutdown).reader = r.ended.reader :=
      (r.shutdown_ended listener state).1
    rw [same]
    simp [ended, closed, Step.quiet]
  | headResponse => exact closed
  | reset | close => cases goesOn

theorem answer_known (listener : Listener σ) (state : σ × List Entry) (call : Call)
    (sound : r.Sound) (h : r.Known (heard state.2)) :
    let reply := r.answer (listener.logged call.isRead) state call
    reply.reader.Known (heard (if call.isReset then [] else reply.state.2)) := by
  have onward (goesOn : call.goesOn = true) :
      let reply := r.answer (listener.logged call.isRead) state call
      reply.reader.Known (heard reply.state.2) := by
    cases h with
    | accounted asked accounted =>
      obtain ⟨asked, next⟩ := answer_accounted listener state goesOn sound accounted
      exact .accounted asked next
    | ended closed framing =>
      have outside : r.stage.inHead = false := by rw [closed]; rfl
      exact .ended (answer_closed closed _ _ goesOn)
        ((answer_keeps sound outside _ _ goesOn).framing.trans framing)
  cases call with
  | reset => exact .accounted _ (.fresh r.mode r.settings r.afterCr r.headResponse r.cache)
  | close => exact .ended rfl rfl
  | read | shutdown | headResponse => exact onward rfl

structure Agrees (r : Reader) (events : List Event) : Prop where
  noContent : r.framing = .noContent → Event.contents events = []
  contentLength : r.framing = .contentLength → .headerComplete ∈ events → ∃ length,
    r.contentLength = some length ∧ Event.octets events ≤ length ∧
      (.messageComplete ∈ events → Event.octets events = length)
  -- Such a body ends with the connection, and no octet tells of that.
  untilClose : r.framing = .untilClose → .messageComplete ∉ events
  body : ∀ framing ∈ r.stage.framing?, r.framing = framing

theorem Accounted.agrees (h : Accounted asked r events) : r.Agrees events where
  noContent bare := h.delivered.none (.inr bare)
  contentLength announced past := by
    obtain ⟨length, known, within, whole⟩ := h.delivered.counted announced past
    exact ⟨length, known, within, fun complete => whole (h.delivered.finished complete)⟩
  untilClose waits complete := h.delivered.ends (h.delivered.finished complete) waits
  body := h.framed.framing

theorem Known.agrees (h : r.Known events) : r.Agrees events := by
  cases h with
  | accounted _ accounted => exact accounted.agrees
  | ended closed framing =>
    refine ⟨?_, ?_, ?_, by simp [closed, Stage.framing?]⟩ <;> exact fun other => by
      cases framing.symm.trans other

theorem Known.outside (h : r.Known events) (past : .headerComplete ∈ events) :
    r.stage.inHead = false := by
  cases h with
  | accounted _ accounted =>
    exact Bool.eq_false_iff.mpr fun inside => accounted.decides.going inside past
  | ended closed => simp [closed, Stage.inHead]

theorem through_known (calls : List Call) (state : σ) {log : List Entry} (sound : r.Sound)
    (h : r.Known (heard log)) :
    (r.through listener state calls).1.Sound ∧
      (r.through listener state calls).1.Known (heard (r.log listener state log calls)) := by
  -- On the calls; a log goes along with the reader, and does not change what is answered.
  induction calls generalizing r state log with
  | nil => exact ⟨sound, h⟩
  | cons call rest ih =>
    have next := answer_known listener (state, log) call sound h
    have sound' := sound.answer (listener.logged call.isRead) (state, log) call
    have answered := @answer_inner _ r listener call.isRead (state, log) call
    simp only [through, Reader.log]
    rw [answered]
    exact ih _ sound' next

theorem read_settled (listener : Listener σ) (state : σ × List Entry) (input : Input)
    (sound : r.Sound) (h : r.Known (heard state.2)) (going : .headerComplete ∉ heard state.2) :
    let reading := r.read (listener.logged true) state input
    .headerComplete ∈ heard reading.state.2 → (heard reading.state.2).any Event.hasVersion = true →
      Settled r.headResponse reading.reader (heard reading.state.2) := by
  intro reading past opened
  cases h with
  | accounted asked accounted =>
    rw [accounted.decides.flag going]
    exact (read_known listener state input sound accounted).decides.settled past opened
  | ended closed =>
    have quiet : reading = ⟨r, state, false, []⟩ := read_closed closed
    rw [quiet] at past
    exact absurd past going

/-- Whoever listens and whatever is asked of a connection: a reading that comes upon the end of the
fields leaves the framing, and the length, that the status, the answered request and the fields
told since the last reset decide on; from then on every call but a reset and the end of the
connection leaves both as they are; and at any time what was told of the body agrees with them. -/
theorem framing_decided (mode : Mode) (settings : Settings) (listener : Listener σ) (state : σ)
    (calls : List Call) :
    let reached := Reader.through { mode, settings } listener state calls
    let log := Reader.log { mode, settings } listener state [] calls
    let r := reached.1
    (∀ input, .headerComplete ∉ heard log →
      let reading := r.read (listener.logged true) (reached.2, log) input
      let events := heard reading.state.2
      .headerComplete ∈ events → events.any Event.hasVersion = true →
        reading.reader.framing =
          Framing.decided r.headResponse (Event.status events) (Event.fields events) ∧
        (reading.reader.framing = .contentLength → ∃ length,
          announced? (Event.fields events) = some length ∧
            reading.reader.contentLength = some length.toNat)) ∧
      (.headerComplete ∈ heard log → ∀ call : Call, call.goesOn = true →
        let reply := r.answer listener reached.2 call
        reply.reader.framing = r.framing ∧ reply.reader.contentLength = r.contentLength) ∧
      r.Agrees (heard log) := by
  intro reached log r
  obtain ⟨sound, known⟩ : r.Sound ∧ r.Known (heard log) :=
    through_known calls state (.fresh mode settings)
      (.accounted false (.fresh mode settings false false .unset))
  refine ⟨?_, ?_, known.agrees⟩
  · intro input going reading events past opened
    have settled := read_settled listener (reached.2, log) input sound known going past opened
    exact ⟨settled.framing, settled.contentLength⟩
  · intro past call goesOn
    have kept := answer_keeps sound (known.outside past) listener reached.2 goesOn
    exact ⟨kept.framing, kept.contentLength⟩

end Reader
end HttpStream
