import HttpStream.Proofs.Calls
import HttpStream.Proofs.Peers
import HttpStream.Proofs.Reading

/-! What a reader remembers of the fields of a connection does not show: whatever its owner asks of
it, the answers are those of a reader that remembers more, or less, or nothing. -/

set_option autoImplicit false

namespace HttpStream

open Octet

structure Reading.Peer {σ : Type} (first second : Reading σ) : Prop where
  reader : first.reader.Peer second.reader
  state : first.state = second.state
  stopped : first.stopped = second.stopped
  rest : first.rest = second.rest

namespace Reading.Peer

variable {σ : Type} {first second third : Reading σ}

theorem symm (h : first.Peer second) : second.Peer first :=
  ⟨h.reader.symm, h.state.symm, h.stopped.symm, h.rest.symm⟩

theorem trans (left : first.Peer second) (right : second.Peer third) : first.Peer third :=
  ⟨left.reader.trans right.reader, left.state.trans right.state,
    left.stopped.trans right.stopped, left.rest.trans right.rest⟩

end Reading.Peer

namespace Reader

variable {r s : Reader} {b : UInt8} {capacity n : Nat} {memory memory' : Option Nat}
  {recorder : Recorder} {input : Input} {tail : Bytes} {later : Input}

/-! One turn of a reading. -/

theorem read_of_turn (reads : r.Reads) (found : input.next? = some (b, tail, later)) {turn : Turn}
    (turns : r.turn (r.capacityFor (.patient memory) recorder) b tail later = turn)
    (fine : turn.step.fault = none) :
    r.read (.patient memory) recorder input =
      turn.step.reader.read (.patient memory)
        { recorder with events := recorder.events ++ turn.step.events }
        (Input.drop (turn.extra + 1) input) := by
  rw [read_next reads found]
  simp only [turns, Recorder.hear_patient, fine, Input.drop_of_next? found]
  rfl

theorem read_of_fault (reads : r.Reads) (found : input.next? = some (b, tail, later)) {turn : Turn}
    (turns : r.turn (r.capacityFor (.patient memory) recorder) b tail later = turn)
    {fault : Fault} (wrong : turn.step.fault = some fault) :
    r.read (.patient memory) recorder input =
      ⟨turn.step.reader.enter .closed, ⟨recorder.events ++ turn.step.events, some fault⟩, true,
        []⟩ := by
  rw [read_next reads found]
  simp only [turns, Recorder.hear_patient, wrong]
  rfl

theorem read_glides {bytes : Bytes} (glides : Glides capacity r bytes s)
    (line : r.stage.inLine = true) (front : bytes <+: (Input.drop n input).flatten) :
    r.read (.patient memory) recorder (Input.drop n input) =
      s.read (.patient memory) recorder (Input.drop (n + bytes.length) input) := by
  -- On the octets; each is a turn of its own and stays within the line.
  induction glides generalizing n with
  | nil => rfl
  | @cons r s t b rest plain before after quiet _ ih =>
    obtain ⟨more, whole⟩ := front
    obtain ⟨tail, later, found⟩ := Input.next?_of_flatten whole.symm
    have reads : r.Reads := by
      constructor <;> intro stage <;> rw [stage] at line <;> cases line
    have pushed := (push_inLine_capacity line capacity
      (r.capacityFor (.patient memory) recorder)).symm.trans quiet
    have turns := turn_inLine line plain (r.capacityFor (.patient memory) recorder) tail later
    rw [pushed] at turns
    have inside : s.stage.inLine = true := by
      have inside := push_inLine line plain capacity (by rw [quiet]; rfl)
      rwa [quiet] at inside
    have left : rest <+: (Input.drop (n + 1) input).flatten := by
      rw [← Input.drop_drop, Input.flatten_drop, ← whole]
      exact List.prefix_append rest more
    have onward := ih inside left
    rw [read_of_turn reads found turns rfl, Input.drop_drop]
    simpa [Nat.add_assoc, Nat.add_comm 1, Step.quiet] using onward

/-! Two readings. -/

theorem Peer.reads (h : r.Peer s) (reads : r.Reads) : s.Reads :=
  ⟨mt h.done.mpr reads.notDone, mt h.closed.mpr reads.notClosed, mt h.full.mpr reads.notFull⟩

/-- Whatever is known of a field line, reading goes on from its first octet. -/
theorem read_opens (sound : r.Sound) (found : input.next? = some (b, tail, later))
    (opens : r.Opens (r.capacityFor (.patient memory) recorder) b)
    (less : ∀ {t u : Reader} {recorder : Recorder} {rest : Input}, t.Peer u → t.Sound → u.Sound →
      rest.size < input.size →
        (t.read (.patient memory) recorder rest).Peer (u.read (.patient memory) recorder rest)) :
    let pushed := r.push (r.capacityFor (.patient memory) recorder) b
    (r.read (.patient memory) recorder input).Peer
      (pushed.reader.read (.patient memory)
        { recorder with events := recorder.events ++ pushed.events } (Input.drop 1 input)) := by
  intro pushed
  obtain ⟨head, pending, before⟩ := opens.before
  have reads : r.Reads := by constructor <;> rw [before] <;> nofun
  obtain ⟨events, fine, s, glides, noted⟩ := opens.turn sound tail later
  have cause : r.TurnCase (r.capacityFor (.patient memory) recorder) b (tail :: later).flatten _ :=
    turn_cases sound
  generalize turns : r.turn (r.capacityFor (.patient memory) recorder) b tail later = turn
    at events fine glides noted cause
  have size : ((tail :: later).flatten.take turn.extra).length = turn.extra := by
    rw [List.length_take, Nat.min_eq_left cause.extra_le]
  have inside : pushed.reader.stage.inLine = true := by
    obtain ⟨head', token, after⟩ := opens.after
    rw [after]
    rfl
  have front : (tail :: later).flatten.take turn.extra <+: (Input.drop 1 input).flatten := by
    rw [Input.flatten_drop, Input.flatten_of_next? found]
    exact List.take_prefix _ _
  rw [read_of_turn reads found turns fine, events, read_glides glides inside front, size,
    Nat.add_comm 1]
  exact less (Peer.noted noted).symm (cause.sound sound) (glides.sound (sound.push _ b))
    (by rw [← Input.drop_of_next? found]; exact Input.size_drop_lt _ found)

theorem read_peer (h : r.Peer s) (left : r.Sound) (right : s.Sound) :
    (r.read (.patient memory) recorder input).Peer (s.read (.patient memory') recorder input) := by
  -- On the octets left. Turns are alike but where a field line opens; there both readings come
  -- to reading the line octet by octet, which again is two readings of fewer octets.
  induction size : input.size using Nat.strongRecOn
    generalizing r s memory memory' recorder input with
  | ind size ih =>
    subst size
    have less {t u : Reader} {memory memory' : Option Nat} {recorder : Recorder} {rest : Input}
        (h : t.Peer u) (left : t.Sound) (right : u.Sound) (shorter : rest.size < input.size) :
        (t.read (.patient memory) recorder rest).Peer (u.read (.patient memory') recorder rest) :=
      ih rest.size shorter h left right rfl
    by_cases done : r.stage = .done
    · rw [read_done done, read_done (h.done.mp done)]
      exact ⟨h, rfl, rfl, rfl⟩
    by_cases closed : r.stage = .closed
    · rw [read_closed closed, read_closed (h.closed.mp closed)]
      exact ⟨h, rfl, rfl, rfl⟩
    by_cases full : r.stage = .content 0
    · rw [read_full full, read_full (h.full.mp full)]
      exact ⟨h.enter .done, rfl, rfl, rfl⟩
    have reads : r.Reads := ⟨done, closed, full⟩
    cases found : input.next? with
    | none =>
      rw [read_nothing reads found, read_nothing (h.reads reads) found]
      exact ⟨h, rfl, rfl, rfl⟩
    | some next =>
      obtain ⟨b, tail, later⟩ := next
      have shorter (n : Nat) : (Input.drop (n + 1) input).size < input.size := by
        rw [← Input.drop_of_next? found]
        exact Input.size_drop_lt n found
      let c := r.capacityFor (.patient memory) recorder
      let d := s.capacityFor (.patient memory') recorder
      have turns : (r.turn c b tail later).Peer (s.turn d b tail later) ∨ r.Opens c b :=
        turn_peer h left right
      rcases turns with same | opens
      · cases wrong : (r.turn c b tail later).step.fault with
        | some fault =>
          rw [read_of_fault reads found rfl wrong,
            read_of_fault (h.reads reads) found rfl (same.step.fault.symm.trans wrong),
            same.step.events]
          exact ⟨same.step.reader.enter .closed, rfl, rfl, rfl⟩
        | none =>
          rw [read_of_turn reads found rfl wrong,
            read_of_turn (h.reads reads) found rfl (same.step.fault.symm.trans wrong), same.extra,
            same.step.events]
          exact less same.step.reader (left.turn c b tail later) (right.turn d b tail later)
            (shorter _)
      · have first := read_opens left found opens less
        have opens' : s.Opens d b := opens.peer h left right
        have second := read_opens right found opens' less
        have pushed : (r.push c b).Peer (s.push d b) := push_peer h left right
        refine first.trans (.trans ?_ second.symm)
        rw [pushed.events]
        exact less pushed.reader (left.push c b) (right.push d b) (shorter 0)

/-! Other calls. -/

theorem ended_peer (h : r.Peer s) : r.ended.Peer s.ended := by
  have head : r.headResponse = s.headResponse := (congrArg Reader.headResponse h.masked :)
  have cut : Step.Peer
      { reader := r.enter .closed
        events := if r.headResponse then [.messageComplete] else [.earlyEof, .messageComplete] }
      { reader := s.enter .closed
        events := if s.headResponse then [.messageComplete] else [.earlyEof, .messageComplete] } :=
    ⟨by rw [head], rfl, h.enter .closed⟩
  unfold ended
  rcases Stage.plain_cases h.stage with same | ⟨_, _, _, before, before'⟩ |
    ⟨_, _, _, _, _, _, _, before, before'⟩
  · rw [same]
    split
    · exact quiet_peer h
    · exact quiet_peer h
    · exact quiet_peer h
    · exact ⟨rfl, rfl, h.enter .closed⟩
    · exact cut
  · rw [before, before']
    exact cut
  · rw [before, before']
    exact cut

theorem close_peer (h : r.Peer s) :
    (r.close (.patient memory) recorder).1.Peer (s.close (.patient memory') recorder).1 ∧
      (r.close (.patient memory) recorder).2 = (s.close (.patient memory') recorder).2 := by
  unfold close
  simp only [Recorder.hear_patient]
  refine ⟨⟨?_, rfl⟩, ?_⟩
  · exact congrArg (fun r => { r.enter .closed with
      framing := .unknown, contentLength := none, contentRead := 0, headerBytes := 0 }) h.masked
  · rcases Stage.plain_cases h.stage with same | ⟨_, _, _, before, before'⟩ |
      ⟨_, _, _, _, _, _, _, before, before'⟩
    · rw [same]
    · rw [before, before']
    · rw [before, before']

end Reader

structure Reply.Peer {σ : Type} (first second : Reply σ) : Prop where
  reader : first.reader.Peer second.reader
  state : first.state = second.state
  stopped : first.stopped = second.stopped
  rest : first.rest = second.rest

structure Sight (σ : Type) where
  state : σ
  stopped : Option Bool
  rest : Input
  label : String
  phase : Phase
  framing : Framing
  contentLength : Option Nat
  contentRead : Nat
  uri : Bytes

def Reply.sight {σ : Type} (reply : Reply σ) : Sight σ where
  state := reply.state
  stopped := reply.stopped
  rest := reply.rest
  label := reply.reader.stage.label
  phase := reply.reader.stage.phase
  framing := reply.reader.framing
  contentLength := reply.reader.contentLength
  contentRead := reply.reader.contentRead
  uri := reply.reader.uri

@[simp] theorem Stage.phase_plain (stage : Stage) : stage.plain.phase = stage.phase := by
  cases stage <;> rfl

theorem Reply.Peer.sight {σ : Type} {first second : Reply σ} (h : first.Peer second) :
    first.sight = second.sight := by
  have label := congrArg Stage.label h.reader.stage
  have phase := congrArg Stage.phase h.reader.stage
  have framing : first.reader.framing = second.reader.framing :=
    (congrArg Reader.framing h.reader.masked :)
  have length : first.reader.contentLength = second.reader.contentLength :=
    (congrArg Reader.contentLength h.reader.masked :)
  have read : first.reader.contentRead = second.reader.contentRead :=
    (congrArg Reader.contentRead h.reader.masked :)
  have uri : first.reader.uri = second.reader.uri := (congrArg Reader.uri h.reader.masked :)
  rw [Stage.label_plain, Stage.label_plain] at label
  rw [Stage.phase_plain, Stage.phase_plain] at phase
  simp only [Reply.sight, h.state, h.stopped, h.rest, label, phase, framing, length, read, uri]

namespace Reader

variable {r s : Reader} {memory memory' : Option Nat} {recorder : Recorder}

theorem answer_peer (h : r.Peer s) (left : r.Sound) (right : s.Sound) (call : Call) :
    (r.answer (.patient memory) recorder call).Peer
      (s.answer (.patient memory') recorder call) := by
  cases call with
  | read input =>
    have reading : (r.read (.patient memory) recorder input).Peer
        (s.read (.patient memory') recorder input) := read_peer h left right
    exact ⟨reading.reader, reading.state, congrArg some reading.stopped, reading.rest⟩
  | shutdown =>
    have ended := ended_peer h
    simp only [answer, shutdown_patient]
    exact ⟨ended.reader, by simp only [Recorder.told, ended.events, ended.fault], rfl, rfl⟩
  | close =>
    have closed : (r.close (.patient memory) recorder).1.Peer
        (s.close (.patient memory') recorder).1 ∧ _ := close_peer h
    exact ⟨closed.1, closed.2, rfl, rfl⟩
  | reset => exact ⟨h.reset, rfl, rfl, rfl⟩
  | headResponse value => exact ⟨h.setHeadResponse value, rfl, rfl, rfl⟩

theorem answers_map {α : Type} {view : Reply Recorder → α}
    (alike : ∀ first second : Reply Recorder, first.Peer second → view first = view second)
    (recorder : Recorder) (calls : List Call) (h : r.Peer s) (left : r.Sound) (right : s.Sound) :
    (r.answers (.patient memory) recorder calls).map view =
      (s.answers (.patient memory') recorder calls).map view := by
  -- On the calls; an answer keeps the readers peers and sound.
  induction calls generalizing r s recorder with
  | nil => rfl
  | cons call rest ih =>
    have first : (r.answer (.patient memory) recorder call).Peer
        (s.answer (.patient memory') recorder call) := answer_peer h left right call
    have later := ih (r.answer (.patient memory) recorder call).state first.reader
      (left.answer _ _ call) (right.answer _ _ call)
    simp only [answers, List.map_cons]
    rw [alike _ _ first, later, first.state]

theorem answers_sight (recorder : Recorder) (calls : List Call) (h : r.Peer s) (left : r.Sound)
    (right : s.Sound) :
    (r.answers (.patient memory) recorder calls).map Reply.sight =
      (s.answers (.patient memory') recorder calls).map Reply.sight :=
  answers_map (fun _ _ => Reply.Peer.sight) recorder calls h left right

/-- Whatever is asked of a connection, its answers and all that shows of its reader are the same
with one size of the memory for fields and with another, none at all included. -/
theorem answers_transparent (mode : Mode) (settings : Settings) (size size' : Nat)
    (memory memory' : Option Nat) (calls : List Call) :
    (Reader.answers { mode, settings := { settings with memoryCapacity := size } }
        (Recorder.listener { memoryCapacity := memory }) {} calls).map Reply.sight =
      (Reader.answers { mode, settings := { settings with memoryCapacity := size' } }
        (Recorder.listener { memoryCapacity := memory' }) {} calls).map Reply.sight :=
  answers_sight
    (r := { mode, settings := { settings with memoryCapacity := size } })
    (s := { mode, settings := { settings with memoryCapacity := size' } })
    {} calls ⟨rfl, rfl⟩ (.fresh mode _) (.fresh mode _)

end Reader
end HttpStream
