import HttpStream.Proofs.Turns
import HttpStream.Reader.Ending

/-! Readers that differ in nothing but their memories: an octet means the same to them, and so does
every turn, but for one that finds a field line it knows. -/

set_option autoImplicit false

namespace HttpStream

open Octet

namespace Stage

def inLine : Stage → Bool
  | .fieldName _ _ | .fieldValue _ _ _ _ _ _ => true
  | _ => false

/-- What the notes on recognized lines may hide. -/
theorem plain_cases {stage other : Stage} (same : stage.plain = other.plain) :
    other = stage ∨
      (∃ head pending pending', stage = .lineStart head pending ∧
        other = .lineStart head pending') ∨
      ∃ head standard name token folding recognized recognized',
        stage = .fieldValue head standard name token folding recognized ∧
          other = .fieldValue head standard name token folding recognized' := by
  cases stage with
  | lineStart head pending =>
    cases other with
    | lineStart head' pending' =>
      simp only [plain, lineStart.injEq] at same
      exact .inr (.inl ⟨head, pending, pending', rfl, by rw [same.1]⟩)
    | _ => cases same
  | fieldValue head standard name token folding recognized =>
    cases other with
    | fieldValue =>
      cases same
      exact .inr (.inr ⟨head, standard, name, token, folding, recognized, _, rfl, rfl⟩)
    | _ => cases same
  | _ =>
    cases other with
    | lineStart | fieldValue => cases same
    | _ => exact .inl same.symm

end Stage

namespace Reader

/-- Readers that differ only in what they remember. -/
structure Peer (r s : Reader) : Prop where
  masked : r.masked 0 = s.masked 0
  headerBytes : r.headerBytes = s.headerBytes

variable {r s t : Reader} {b : UInt8} {capacity other n : Nat}

namespace Peer

theorem symm (h : r.Peer s) : s.Peer r := ⟨h.masked.symm, h.headerBytes.symm⟩

theorem trans (left : r.Peer s) (right : s.Peer t) : r.Peer t :=
  ⟨left.masked.trans right.masked, left.headerBytes.trans right.headerBytes⟩

theorem stage (h : r.Peer s) : r.stage.plain = s.stage.plain := congrArg Reader.stage h.masked

theorem isCounted (h : r.Peer s) : r.stage.isCounted = s.stage.isCounted := by
  rw [← Stage.isCounted_plain, h.stage, Stage.isCounted_plain]

theorem done (h : r.Peer s) : r.stage = .done ↔ s.stage = .done := by
  rw [← Stage.plain_eq_done, h.stage, Stage.plain_eq_done]

theorem closed (h : r.Peer s) : r.stage = .closed ↔ s.stage = .closed := by
  rw [← Stage.plain_eq_closed, h.stage, Stage.plain_eq_closed]

theorem full (h : r.Peer s) : r.stage = .content 0 ↔ s.stage = .content 0 := by
  rw [← Stage.plain_eq_content, h.stage, Stage.plain_eq_content]

theorem mode (h : r.Peer s) : r.mode = s.mode := (congrArg Reader.mode h.masked :)

theorem limit? (h : r.Peer s) : r.settings.limit? = s.settings.limit? :=
  congrArg (fun r => r.settings.limit?) h.masked

theorem afterCr (h : r.Peer s) : r.afterCr = s.afterCr := (congrArg Reader.afterCr h.masked :)

theorem isLineRest (h : r.Peer s) : r.isLineRest b = s.isLineRest b := by
  simp [Reader.isLineRest, h.afterCr]

theorem fits (h : r.Peer s) : r.fits n = s.fits n := by
  simp only [Reader.fits, h.limit?, h.headerBytes]

theorem enter (h : r.Peer s) (stage : Stage) : (r.enter stage).Peer (s.enter stage) :=
  ⟨congrArg (fun r => r.enter stage.plain) h.masked, h.headerBytes⟩

theorem endLine (h : r.Peer s) (b : UInt8) : (r.endLine b).Peer (s.endLine b) :=
  ⟨congrArg (fun r => r.endLine b) h.masked, h.headerBytes⟩

theorem fresh (h : r.Peer s) : Peer { r with afterCr := false } { s with afterCr := false } :=
  ⟨congrArg (fun r => { r with afterCr := false }) h.masked, h.headerBytes⟩

theorem skip (h : r.Peer s) (n : Nat) : (r.skip n).Peer (s.skip n) :=
  ⟨h.masked, congrArg (· + n) h.headerBytes⟩

theorem reset (h : r.Peer s) : r.reset.Peer s.reset :=
  ⟨congrArg Reader.reset h.masked, rfl⟩

theorem setHeadResponse (h : r.Peer s) (value : Bool) :
    (r.setHeadResponse value).Peer (s.setHeadResponse value) :=
  ⟨congrArg (fun r => r.setHeadResponse value) h.masked, h.headerBytes⟩

theorem noted (h : r.Noted s) : r.Peer s := by
  obtain ⟨stage, rfl, plain⟩ := h
  exact ⟨by simp [Reader.masked, Reader.enter, plain], rfl⟩

end Peer

end Reader

structure Step.Peer (first second : Step) : Prop where
  events : first.events = second.events
  fault : first.fault = second.fault
  reader : first.reader.Peer second.reader

structure Turn.Peer (first second : Turn) : Prop where
  step : first.step.Peer second.step
  extra : first.extra = second.extra

namespace Reader

variable {r s t : Reader} {b : UInt8} {capacity other n : Nat}

/-! An octet. -/

theorem quiet_peer (h : r.Peer s) : (Step.quiet r).Peer (.quiet s) := ⟨rfl, rfl, h⟩

theorem interpret_peer (h : r.Peer s) (left : r.Sound) (right : s.Sound) :
    (r.interpret capacity b).Peer (s.interpret other b) := by
  have outcome : (r.interpret capacity b).masked 0 = (s.interpret other b).masked 0 :=
    interpret_congr h.masked
  refine ⟨(congrArg Step.events outcome :), (congrArg Step.fault outcome :),
    (congrArg Step.reader outcome :), ?_⟩
  rw [interpret_headerBytes left, interpret_headerBytes right, h.headerBytes]

theorem accept_peer (h : r.Peer s) (left : r.Sound) (right : s.Sound) :
    (r.accept capacity b).Peer (s.accept other b) := by
  unfold accept
  rw [← h.isLineRest]
  split
  · exact quiet_peer (h.endLine b)
  · exact interpret_peer h.fresh (left.counted _ _) (right.counted _ _)

theorem limitFault?_peer (h : r.Peer s) : r.limitFault? = s.limitFault? := by
  have plain (r : Reader) :
      r.limitFault? = { r.masked 0 with headerBytes := r.headerBytes }.limitFault? := by
    simp only [limitFault?, masked]
    cases r.stage <;> rfl
  rw [plain r, plain s, h.masked, h.headerBytes]

theorem push_peer (h : r.Peer s) (left : r.Sound) (right : s.Sound) :
    (r.push capacity b).Peer (s.push other b) := by
  have counted : r.count.Peer s.count := h.skip 1
  unfold push
  rw [← h.isCounted, limitFault?_peer counted]
  split
  · split
    · exact ⟨rfl, rfl, counted⟩
    · exact accept_peer counted left.count right.count
  · exact accept_peer h left right

theorem deliver_peer (h : r.Peer s) (bytes : Bytes) : (r.deliver bytes).Peer (s.deliver bytes) := by
  have outcome : (r.deliver bytes).masked 0 = (s.deliver bytes).masked 0 := by
    rw [← deliver_masked (m := 0), h.masked, deliver_masked]
  exact ⟨rfl, rfl, (congrArg Step.reader outcome :), h.headerBytes⟩

/-! What goes with an octet. -/

theorem further_peer {step step' : Step} {ahead ahead' : Reader × Nat} (h : step.Peer step')
    (further : ahead.1.Peer ahead'.1) (extra : ahead.2 = ahead'.2) :
    (Turn.further step ahead).Peer (.further step' ahead') :=
  ⟨⟨h.events, h.fault, further⟩, extra⟩

theorem startAhead?_peer (h : r.Peer s) (window : Bytes) :
    (r.startAhead? window = none ∧ s.startAhead? window = none) ∨
      ∃ t t' length, r.startAhead? window = some (t, length) ∧
        s.startAhead? window = some (t', length) ∧ t.Peer t' := by
  have gone (length : Nat) (stage : Stage) : Peer
      { (r.skip length).enter stage with afterCr := false }
      { (s.skip length).enter stage with afterCr := false } :=
    ((h.skip length).enter stage).fresh
  unfold startAhead?
  rw [← h.mode]
  rcases Stage.plain_cases h.stage with stage | ⟨_, _, _, before, after⟩ |
    ⟨_, _, _, _, _, _, _, before, after⟩
  · rw [stage]
    split
    · cases Method.atFront? window with
      | none => exact .inl ⟨rfl, rfl⟩
      | some known =>
        obtain ⟨length, method⟩ := known
        simp only [← h.fits]
        split
        · exact .inr ⟨_, _, length, rfl, rfl, gone length _⟩
        · exact .inl ⟨rfl, rfl⟩
    · cases Version.atFront? window with
      | none => exact .inl ⟨rfl, rfl⟩
      | some known =>
        obtain ⟨length, version⟩ := known
        simp only [← h.fits]
        split
        · exact .inr ⟨_, _, length + 1, rfl, rfl, gone (length + 1) _⟩
        · exact .inl ⟨rfl, rfl⟩
    · exact .inl ⟨rfl, rfl⟩
  · rw [before, after]
    exact .inl ⟨rfl, rfl⟩
  · rw [before, after]
    exact .inl ⟨rfl, rfl⟩

theorem slice?_peer (h : r.Peer s) (tail : Bytes) : r.slice? b tail = s.slice? b tail := by
  have room : r.room = s.room := by
    unfold room
    rcases Stage.plain_cases h.stage with stage | ⟨_, _, _, before, after⟩ |
      ⟨_, _, _, _, _, _, _, before, after⟩
    · rw [stage]
    · rw [before, after]
    · rw [before, after]
  simp only [slice?, h.isLineRest, room]

theorem scanTarget_peer (h : r.Peer s) (window : Bytes) :
    (r.scanTarget window).1.Peer (s.scanTarget window).1 ∧
      (r.scanTarget window).2 = (s.scanTarget window).2 := by
  have same : r.affordable window = s.affordable window := by
    simp only [affordable, h.limit?, h.headerBytes]
  unfold scanTarget
  rw [same]
  let octets := (s.affordable window).takeWhile isVisible
  exact ⟨⟨congrArg (fun r => { r with target := r.target.append octets }) h.masked,
    congrArg (· + octets.length) h.headerBytes⟩, rfl⟩

theorem requestLine_peer (h : r.Peer s) (method : Method) (version : Version) (b : UInt8) :
    (r.requestLine capacity method version b).Peer (s.requestLine other method version b) := by
  have uri : r.uri = s.uri := (congrArg Reader.uri h.masked :)
  refine ⟨by simp only [requestLine, uri], rfl, ?_, h.headerBytes⟩
  exact congrArg (fun r => (r.endLine b).enter (.lineStart (.request version false) none)) h.masked

theorem versionAhead?_peer {turn turn' : Turn} (h : r.Peer s) (method : Method) (window : Bytes)
    (less : turn.Peer turn') :
    ((r.versionAhead? capacity method b window).getD turn).Peer
      ((s.versionAhead? other method b window).getD turn') := by
  unfold versionAhead?
  split
  · exact less
  · cases Version.atFront? (b :: window) with
    | none => exact less
    | some known =>
      obtain ⟨length, version⟩ := known
      simp only
      cases window[length - 1]? with
      | none => exact less
      | some ending =>
        simp only [← h.fits]
        split
        · exact ⟨requestLine_peer (h.skip length) method version ending, rfl⟩
        · exact less

theorem drain_peer (h : r.Peer s) (bytes : Bytes) :
    (r.drain bytes).1.Peer (s.drain bytes).1 ∧ (r.drain bytes).2 = (s.drain bytes).2 := by
  -- On the octets; a drained one is counted by both.
  induction bytes generalizing r s with
  | nil => exact ⟨h, rfl⟩
  | cons b rest ih =>
    simp only [drain, ← h.isLineRest, ← h.fits]
    split
    · have onward := ih ((h.skip 1).endLine b)
      exact ⟨onward.1, congrArg (· + 1) onward.2⟩
    · exact ⟨h, rfl⟩

theorem takeLf_peer (h : r.Peer s) (bytes : Bytes) :
    (r.takeLf bytes).1.Peer (s.takeLf bytes).1 ∧ (r.takeLf bytes).2 = (s.takeLf bytes).2 := by
  simp only [takeLf, ← h.afterCr]
  split
  · exact ⟨h.fresh, rfl⟩
  · exact ⟨h, rfl⟩

/-- Where the octet opens a field line, the lines known to the one may be unknown to the other. -/
theorem extend_peer {step step' : Step} (h : r.Peer s) (steps : step.Peer step') (rest : Input) :
    (r.extend capacity b step rest).Peer (s.extend other b step' rest) ∨
      ∃ head head' pending token, r.stage = .lineStart head pending ∧
        step.reader.stage = .fieldName head' token := by
  have alone : Turn.Peer { step } { step := step' } := ⟨steps, rfl⟩
  have same : s.stage.beyond step'.reader.stage = r.stage.beyond step.reader.stage := by
    rw [← Stage.beyond_plain, ← h.stage, ← steps.reader.stage, Stage.beyond_plain]
  rw [extend_eq, extend_eq, same]
  cases kind : r.stage.beyond step.reader.stage with
  | target =>
    obtain ⟨reader, extra⟩ := scanTarget_peer steps.reader (Input.active rest)
    exact .inl (further_peer steps reader extra)
  | version method => exact .inl (versionAhead?_peer steps.reader method _ alone)
  | field head =>
    obtain ⟨⟨head', pending, before⟩, token, after⟩ := Stage.field_of_beyond kind
    exact .inr ⟨head', head, pending, token, before, after⟩
  | lineEnd =>
    obtain ⟨reader, extra⟩ := drain_peer steps.reader rest.flatten
    exact .inl (further_peer steps reader extra)
  | chunkEnd =>
    obtain ⟨reader, extra⟩ := takeLf_peer steps.reader rest.flatten
    exact .inl (further_peer steps reader extra)
  | nothing => exact .inl alone

structure Opens (r : Reader) (capacity : Nat) (b : UInt8) : Prop where
  before : ∃ head pending, r.stage = .lineStart head pending
  after : ∃ head token, (r.push capacity b).reader.stage = .fieldName head token
  fine : (r.push capacity b).fault = none
  fresh : r.isLineRest b = false

theorem Opens.peer (opens : r.Opens capacity b) (h : r.Peer s) (left : r.Sound) (right : s.Sound) :
    s.Opens other b := by
  have pushed : (r.push capacity b).Peer (s.push other b) := push_peer h left right
  obtain ⟨⟨head, pending, before⟩, ⟨head', token, after⟩, fine, fresh⟩ := opens
  refine ⟨?_, ⟨head', token, ?_⟩, pushed.fault ▸ fine, h.isLineRest ▸ fresh⟩
  · rcases Stage.plain_cases h.stage with same | ⟨_, _, _, _, stage⟩ |
      ⟨_, _, _, _, _, _, _, stage, _⟩
    · exact ⟨head, pending, same.trans before⟩
    · exact ⟨_, _, stage⟩
    · rw [before] at stage
      cases stage
  · rcases Stage.plain_cases pushed.reader.stage with same | ⟨_, _, _, stage, _⟩ |
      ⟨_, _, _, _, _, _, _, stage, _⟩
    · exact same.trans after
    · rw [after] at stage
      cases stage
    · rw [after] at stage
      cases stage

theorem turn_peer {tail : Bytes} {later : Input} (h : r.Peer s) (left : r.Sound) (right : s.Sound) :
    (r.turn capacity b tail later).Peer (s.turn other b tail later) ∨ r.Opens capacity b := by
  have pushed : (r.push capacity b).Peer (s.push other b) := push_peer h left right
  unfold turn
  rcases startAhead?_peer h (b :: tail) with ⟨none, none'⟩ | ⟨t, t', length, found, found', same⟩
  · rw [none, none', ← slice?_peer h]
    simp only
    cases r.slice? b tail with
    | some bytes => exact .inl ⟨deliver_peer h.fresh bytes, rfl⟩
    | none =>
      simp only [← pushed.fault, ← h.isLineRest]
      split
      · exact .inl ⟨pushed, rfl⟩
      · next fine =>
        split
        · exact .inl ⟨pushed, rfl⟩
        · next fresh =>
          refine (extend_peer h pushed (tail :: later)).imp_right ?_
          rintro ⟨head, head', pending, token, before, after⟩
          exact ⟨⟨_, _, before⟩, ⟨_, _, after⟩, fine, by simpa using fresh⟩
  · rw [found, found']
    exact .inl ⟨quiet_peer same, rfl⟩

/-! Within a line. -/

theorem Opens.turn (opens : r.Opens capacity b) (sound : r.Sound) (tail : Bytes) (later : Input) :
    let turn := r.turn capacity b tail later
    turn.step.events = (r.push capacity b).events ∧ turn.step.fault = none ∧
      ∃ s, Glides capacity (r.push capacity b).reader ((tail :: later).flatten.take turn.extra) s ∧
        s.Noted turn.step.reader := by
  obtain ⟨⟨head, pending, before⟩, ⟨head', token, after⟩, fine, fresh⟩ := opens
  -- No start line and no slice begins here, and it is the field line that is looked ahead in.
  have turns : r.turn capacity b tail later = .further (r.push capacity b)
      ((r.push capacity b).reader.fieldAhead head' (b :: Input.active (tail :: later))) := by
    have ahead : r.startAhead? (b :: tail) = none := by simp [startAhead?, before]
    have slice : r.slice? b tail = none := by simp [slice?, fresh, room, before]
    simp [Reader.turn, ahead, slice, fine, fresh, extend, before, after]
  obtain ⟨rfl, afterCr⟩ := push_lineStart before fine fresh after
  obtain ⟨within, _, s, glides, noted⟩ := fieldAhead_glides capacity
    (sound.push capacity b) after afterCr rfl
  rw [Input.take_active within] at glides
  rw [turns]
  exact ⟨rfl, fine, s, glides, noted⟩

section Line

variable (line : r.stage.inLine = true) (plain : isLineEnd b = false)
include line

theorem push_inLine_capacity (capacity other : Nat) : r.push capacity b = r.push other b := by
  have meaning (r : Reader) (line : r.stage.inLine = true) :
      r.interpret capacity b = r.interpret other b := by
    cases stage : r.stage <;> simp only [stage, Stage.inLine, Bool.false_eq_true] at line <;>
      simp only [interpret, stage]
  have first := meaning { r with afterCr := false } line
  have counted := meaning { r.count with afterCr := false } line
  simp only [push, accept, first, counted]

include plain

theorem push_inLine (capacity : Nat) (fine : (r.push capacity b).fault = none) :
    (r.push capacity b).reader.stage.inLine = true := by
  obtain ⟨headerBytes, meaning⟩ := push_meaning fine (isLineRest_of_plain plain)
  rw [meaning]
  cases stage : r.stage with
  | fieldName head token =>
    simp only [interpret, pushFieldName, plain]
    split
    · contradiction
    · split <;> rfl
  | fieldValue head standard name token folding recognized =>
    simp only [interpret, pushFieldValue, plain]
    split
    · contradiction
    · split
      · split
        · exact stage ▸ line
        · rfl
      · rfl
  | _ => simp [stage, Stage.inLine] at line

theorem turn_inLine (capacity : Nat) (tail : Bytes) (later : Input) :
    r.turn capacity b tail later = { step := r.push capacity b } := by
  have ahead : r.startAhead? (b :: tail) = none := by
    cases stage : r.stage <;> simp_all [startAhead?, Stage.inLine]
  have slice : r.slice? b tail = none := by
    cases stage : r.stage <;> simp_all [slice?, room, Stage.inLine]
  have fresh : r.isLineRest b = false := isLineRest_of_plain plain
  simp only [turn, ahead, slice, fresh, Bool.false_eq_true, if_false]
  split
  · rfl
  · next fine =>
    have inside := push_inLine line plain capacity fine
    unfold extend
    split
    · next stage => rw [stage] at line; cases line
    · next stage => rw [stage] at line; cases line
    · next stage => rw [stage] at line; cases line
    · next stage => rw [stage] at line; cases line
    · split
      · next after => rw [after] at inside; cases inside
      · rfl
    · split
      · next after => rw [after] at inside; cases inside
      · rfl
    · next stage => rw [stage] at line; cases line
    · next stage => rw [stage] at line; cases line
    · next stage => rw [stage] at line; cases line
    · rfl

end Line

end Reader
end HttpStream
