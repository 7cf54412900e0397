import HttpStream.Proofs.FieldLines
import HttpStream.Proofs.Segments

/-! What a turn does with the octets that it takes: it is one octet and what goes with it. -/

set_option autoImplicit false

namespace HttpStream

open Octet

inductive Beyond where
  | target
  | version (method : Method)
  | field (head : Head)
  | lineEnd
  | chunkEnd
  | nothing

namespace Stage

def beyond : Stage → Stage → Beyond
  | .beforeUri _, .uri _ | .uri _, .uri _ => .target
  | .afterUri _, .requestVersion method' _ => .version method'
  | .lineStart _ _, .fieldName head _ => .field head
  | .lineStart _ _, .fieldValue _ _ _ _ _ _ => .nothing
  | .lineStart _ _, _ => .lineEnd
  | .fieldName _ _, .lineStart _ _ => .lineEnd
  | .fieldValue _ _ _ _ _ _, .lineStart _ _ => .lineEnd
  | .trailer _, .done => .lineEnd
  | .chunkSize _, .done | .chunkSize _, .trailer _ => .chunkEnd
  | .chunkParams _, .done | .chunkParams _, .trailer _ => .chunkEnd
  | _, _ => .nothing

theorem beyond_plain (stage other : Stage) :
    stage.plain.beyond other.plain = stage.beyond other := by
  cases stage <;> cases other <;> rfl

variable {before after : Stage}

theorem target_of_beyond (h : before.beyond after = .target) :
    before.inStartLine = true ∧ ∃ method, after = .uri method := by
  unfold beyond at h
  split at h <;> first | exact ⟨rfl, _, rfl⟩ | cases h

theorem version_of_beyond {method : Method} (h : before.beyond after = .version method) :
    (∃ method', before = .afterUri method') ∧ ∃ token, after = .requestVersion method token := by
  unfold beyond at h
  split at h <;> cases h
  exact ⟨⟨_, rfl⟩, _, rfl⟩

theorem field_of_beyond {head : Head} (h : before.beyond after = .field head) :
    (∃ head' pending, before = .lineStart head' pending) ∧
      ∃ token, after = .fieldName head token := by
  unfold beyond at h
  split at h <;> cases h
  exact ⟨⟨_, _, rfl⟩, _, rfl⟩

theorem lineEnd_of_beyond (h : before.beyond after = .lineEnd) :
    before.inFields = true ∨ after = .done := by
  unfold beyond at h
  split at h <;> first | exact .inl rfl | exact .inr rfl | cases h

theorem chunkEnd_of_beyond (h : before.beyond after = .chunkEnd) :
    before.isCounted = false ∧ after ≠ .content 0 := by
  unfold beyond at h
  split at h <;> first | exact ⟨rfl, nofun⟩ | cases h

end Stage

def Turn.toward (step : Step) (capacity : Nat) (b : UInt8) (rest : Input) : Beyond → Turn
  | .target => .further step (step.reader.scanTarget (Input.active rest))
  | .version method =>
    (step.reader.versionAhead? capacity method b (Input.active rest)).getD { step }
  | .field head => .further step (step.reader.fieldAhead head (b :: Input.active rest))
  | .lineEnd => .further step (step.reader.drain rest.flatten)
  | .chunkEnd => .further step (step.reader.takeLf rest.flatten)
  | .nothing => { step }

namespace Reader

theorem extend_eq (r : Reader) (capacity : Nat) (b : UInt8) (step : Step) (rest : Input) :
    r.extend capacity b step rest =
      .toward step capacity b rest (r.stage.beyond step.reader.stage) := by
  unfold extend
  generalize r.stage = before
  generalize step.reader.stage = after
  cases before <;> cases after <;> rfl

def Room.Allows : Room → Nat → Prop
  | .none, _ => False
  | .atMost octets, n => n ≤ octets
  | .unbounded, _ => True

/-- What a turn at `b` with the octets `bytes` after it leads to. -/
inductive TurnCase (r : Reader) (capacity : Nat) (b : UInt8) (bytes : Bytes) : Turn → Prop where
  | octet : TurnCase r capacity b bytes { step := r.push capacity b }
  -- The beginning of a start line, known as a whole.
  | known {s : Reader} {n : Nat} (within : n ≤ bytes.length) (inside : r.stage.inHead = true)
      (glides : Glides capacity r (b :: bytes.take n) s) :
      TurnCase r capacity b bytes { step := .quiet s, extra := n }
  | slice {n : Nat} (within : n ≤ bytes.length) (fresh : r.isLineRest b = false)
      (room : r.room.Allows (n + 1)) :
      TurnCase r capacity b bytes
        { step := { r with afterCr := false }.deliver (b :: bytes.take n), extra := n }
  -- Octets that nothing is told of, after the first one.
  | onward {s t : Reader} {n : Nat} (fine : (r.push capacity b).fault = none)
      (inside : (r.push capacity b).reader.stage.inHead = true) (within : n ≤ bytes.length)
      (glides : Glides capacity (r.push capacity b).reader (bytes.take n) s) (noted : s.Noted t)
      (sound : t.Sound) :
      TurnCase r capacity b bytes
        { step := { r.push capacity b with reader := t }, extra := n }
  | line {s t : Reader} {n : Nat} {ending : UInt8} (quiet : r.push capacity b = .quiet s)
      (inside : s.stage.inHead = true)
      (glides : Glides capacity s (bytes.take n) t) (found : bytes[n]? = some ending)
      (fine : (t.push capacity ending).fault = none) :
      TurnCase r capacity b bytes { step := t.push capacity ending, extra := n + 1 }
  | lineEnd {s : Reader} {n : Nat} (fine : (r.push capacity b).fault = none)
      (more : (r.push capacity b).reader.stage ≠ .content 0)
      (drained : (r.push capacity b).reader.drain bytes = (s, n)) :
      TurnCase r capacity b bytes
        { step := { r.push capacity b with reader := s }, extra := n }
  | chunkEnd {s : Reader} {n : Nat} (fine : (r.push capacity b).fault = none)
      (more : (r.push capacity b).reader.stage ≠ .content 0)
      (trailers : (r.push capacity b).reader.stage.isCounted = true → r.settings.trailers = true)
      (taken : (r.push capacity b).reader.takeLf bytes = (s, n)) :
      TurnCase r capacity b bytes
        { step := { r.push capacity b with reader := s }, extra := n }

variable {r s t : Reader} {b : UInt8} {capacity n : Nat} {tail : Bytes} {later : Input}

/-- An octet that shows nothing to be wrong and ends no line before it has a meaning of its
own. -/
theorem push_meaning (fine : (r.push capacity b).fault = none) (fresh : r.isLineRest b = false) :
    ∃ headerBytes, r.push capacity b =
      { r with headerBytes, afterCr := false }.interpret capacity b := by
  have fresh' : r.count.isLineRest b = false := fresh
  unfold push at fine ⊢
  split at fine
  · next counted =>
    rw [if_pos counted]
    split at fine
    · cases fine
    · next within =>
      refine ⟨r.headerBytes + 1, ?_⟩
      simp only [accept, fresh', Bool.false_eq_true, if_false]
      rfl
  · next uncounted =>
    rw [if_neg uncounted]
    refine ⟨r.headerBytes, ?_⟩
    simp [accept, fresh]

theorem StartLineStep.afterCr {step : Step} (h : r.StartLineStep capacity b step)
    (inside : step.reader.stage.inStartLine = true) : step.reader.afterCr = r.afterCr := by
  cases h with
  | inside | fault => rfl
  | shortRequest | requestLine | statusLine => cases inside

theorem push_inStartLine (sound : r.Sound) (before : r.stage.inStartLine = true)
    (fine : (r.push capacity b).fault = none) (fresh : r.isLineRest b = false)
    (after : (r.push capacity b).reader.stage.inStartLine = true) :
    (r.push capacity b).reader.afterCr = false := by
  obtain ⟨headerBytes, meaning⟩ := push_meaning fine fresh
  rw [meaning] at after ⊢
  exact (interpret_startLine (sound.counted headerBytes false) before).afterCr after

theorem FieldStep.more {step : Step} (h : r.FieldStep b step) (measured : r.Measured)
    (before : r.stage.inFields = true) : step.reader.stage ≠ .content 0 := by
  have inside : r.stage ≠ .content 0 := fun full => by
    rw [full] at before
    cases before
  cases h with
  | inside stage ended line =>
    rintro (rfl : stage = _)
    cases line
  | fault => exact inside
  | field => nofun
  | blank _ _ delivered =>
    obtain ⟨framing, contentLength, cache, step, same, blank, keeps⟩ := flush_blank delivered b
    rw [same]
    cases blank with
    | fault => exact inside
    | body _ _ _ _ more => exact more (keeps measured)
    | finished => nofun

/-- The octets of the fields do not lead to a body that is over before it begins. -/
theorem push_more (sound : r.Sound) (before : r.stage.inFields = true)
    (fine : (r.push capacity b).fault = none) (fresh : r.isLineRest b = false) :
    (r.push capacity b).reader.stage ≠ .content 0 := by
  obtain ⟨headerBytes, meaning⟩ := push_meaning fine fresh
  rw [meaning]
  exact (interpret_fields (sound.counted headerBytes false) before).more sound.measured before

theorem push_afterUri {method method' : Method} {token : Snoc Char}
    (before : r.stage = .afterUri method) (fine : (r.push capacity b).fault = none)
    (fresh : r.isLineRest b = false)
    (after : (r.push capacity b).reader.stage = .requestVersion method' token) :
    token = Snoc.empty.push (toChar b) ∧ ∃ s, r.push capacity b = .quiet s := by
  obtain ⟨headerBytes, meaning⟩ := push_meaning fine fresh
  rw [meaning] at after ⊢
  simp only [interpret, before, pushAfterUri] at after ⊢
  split
  · simp_all [Step.quiet]
  · split
    · simp_all [shortRequest]
    · next visible control =>
      simp only [visible, control, if_false, Bool.false_eq_true] at after
      cases after
      exact ⟨rfl, _, rfl⟩

theorem endFields_notName {head head' : Head} {token : Snoc Char}
    (after : (r.endFields head).reader.stage = .fieldName head' token) :
    r.stage = .fieldName head' token := by
  have cases := r.endFields_blank head
  generalize r.endFields head = step at cases after
  cases cases with
  | fault => exact after
  | body framing stage body => simp only at after; rw [after] at body; cases body
  | finished => cases after

theorem push_lineStart {head head' : Head} {pending : Option Field} {token : Snoc Char}
    (before : r.stage = .lineStart head pending) (fine : (r.push capacity b).fault = none)
    (fresh : r.isLineRest b = false)
    (after : (r.push capacity b).reader.stage = .fieldName head' token) :
    token = Snoc.empty.push (toChar b) ∧ (r.push capacity b).reader.afterCr = false := by
  obtain ⟨headerBytes, meaning⟩ := push_meaning fine fresh
  rw [meaning] at after ⊢
  simp only [interpret, before, pushLineStart] at after ⊢
  split
  · next continued =>
    simp only [continued, if_true] at after
    cases pending with
    | some field => cases after
    | none => cases after
  · next opened =>
    simp only [opened] at after
    split
    · simp_all [Step.fail]
    · next flushed _ events delivered =>
      simp only [delivered] at after
      obtain ⟨⟨framing, contentLength, cache, rfl, _⟩, _⟩ := flush_ok delivered
      -- Only an octet that ends no line opens a name.
      cases ended : isLineEnd b with
      | true =>
        simp only [ended, if_true] at after
        cases endFields_notName after
      | false =>
        simp only [ended, Bool.false_eq_true, if_false] at after ⊢
        cases after
        exact ⟨rfl, rfl⟩

section Cases

variable (sound : r.Sound) (fresh : r.isLineRest b = false)
  (fine : (r.push capacity b).fault = none)
include sound fresh fine

theorem target_case {method : Method} (input : Input) (before : r.stage.inStartLine = true)
    (after : (r.push capacity b).reader.stage = .uri method) :
    TurnCase r capacity b input.flatten
      (.further (r.push capacity b)
        ((r.push capacity b).reader.scanTarget (Input.active input))) := by
  have afterCr : (r.push capacity b).reader.afterCr = false :=
    push_inStartLine sound before fine fresh (by rw [after]; rfl)
  obtain ⟨within, glides⟩ := scanTarget_glides capacity (Input.active input) after afterCr
  have size := (Input.active_prefix input).length_le
  rw [Input.take_active within] at glides
  exact .onward fine (by rw [after]; rfl) (Nat.le_trans within size) glides (.refl _)
    (glides.sound (sound.push capacity b))

theorem version_case {method method' : Method} {token : Snoc Char} {turn : Turn} (input : Input)
    (before : r.stage = .afterUri method)
    (after : (r.push capacity b).reader.stage = .requestVersion method' token)
    (h : (r.push capacity b).reader.versionAhead? capacity method' b (Input.active input) =
      some turn) : TurnCase r capacity b input.flatten turn := by
  have afterCr : (r.push capacity b).reader.afterCr = false :=
    push_inStartLine sound (by rw [before]; rfl) fine fresh (by rw [after]; rfl)
  obtain ⟨rfl, s, pushed⟩ := push_afterUri before fine fresh after
  rw [pushed] at h after afterCr
  obtain ⟨n, t, ending, glides, _, found, fine', rfl⟩ := versionAhead?_glides after afterCr h
  have within : n ≤ (Input.active input).length :=
    Nat.le_of_lt (List.getElem?_eq_some_iff.mp found).1
  have inside : s.stage.inHead = true := by
    have stage : s.stage = .requestVersion method' (Snoc.empty.push (toChar b)) := after
    rw [stage]
    rfl
  rw [Input.take_active within] at glides
  exact .line pushed inside glides (Input.getElem?_active found) fine'

theorem field_case {head head' : Head} {pending : Option Field} {token : Snoc Char} (input : Input)
    (before : r.stage = .lineStart head pending)
    (after : (r.push capacity b).reader.stage = .fieldName head' token) :
    TurnCase r capacity b input.flatten
      (.further (r.push capacity b)
        ((r.push capacity b).reader.fieldAhead head' (b :: Input.active input))) := by
  obtain ⟨rfl, afterCr⟩ := push_lineStart before fine fresh after
  obtain ⟨within, sound', s, glides, noted⟩ := fieldAhead_glides capacity
    (sound.push capacity b) after afterCr rfl
  have size := (Input.active_prefix input).length_le
  rw [Input.take_active within] at glides
  exact .onward fine (by rw [after]; rfl) (Nat.le_trans within size) glides noted sound'

theorem extend_case (input : Input) :
    TurnCase r capacity b input.flatten
      (r.extend capacity b (r.push capacity b) input) := by
  rw [extend_eq]
  cases kind : r.stage.beyond (r.push capacity b).reader.stage with
  | target =>
    obtain ⟨before, method, after⟩ := Stage.target_of_beyond kind
    exact target_case sound fresh fine input before after
  | version method =>
    obtain ⟨⟨method', before⟩, token, after⟩ := Stage.version_of_beyond kind
    simp only [Turn.toward]
    cases found : (r.push capacity b).reader.versionAhead? capacity method b
        (Input.active input) with
    | some turn => exact version_case sound fresh fine input before after found
    | none => exact .octet
  | field head =>
    obtain ⟨⟨head', pending, before⟩, token, after⟩ := Stage.field_of_beyond kind
    exact field_case sound fresh fine input before after
  | lineEnd =>
    rcases Stage.lineEnd_of_beyond kind with before | after
    · exact .lineEnd fine (push_more sound before fine fresh) rfl
    · exact .lineEnd fine (by rw [after]; nofun) rfl
  | chunkEnd =>
    obtain ⟨uncounted, more⟩ := Stage.chunkEnd_of_beyond kind
    -- The line of a chunk size may lead to trailers, and then they are configured.
    refine .chunkEnd fine more (fun counted => ?_) rfl
    obtain ⟨headerBytes, meaning⟩ := push_meaning fine fresh
    rw [meaning] at counted
    exact interpret_trailers (r := { r with headerBytes, afterCr := false }) uncounted counted
  | nothing => exact .octet

end Cases

theorem inBody_of_room (h : r.room.Allows (n + 1)) : r.stage.inBody = true ∧
    r.stage.isCounted = false ∧ r.stage.isComplete = false := by
  unfold room at h
  split at h
  · next stage => rw [stage]; exact ⟨rfl, rfl, rfl⟩
  · next stage => rw [stage]; exact ⟨rfl, rfl, rfl⟩
  · next stage => rw [stage]; exact ⟨rfl, rfl, rfl⟩
  · cases h

theorem pos_of_room {octets : Nat} (h : r.room = .atMost octets) : 0 < octets := by
  unfold room at h
  split at h
  · cases h
  · split at h <;> cases h; assumption
  · split at h <;> cases h; assumption
  · cases h

theorem slice?_eq_some {bytes : Bytes} (h : r.slice? b tail = some bytes) :
    ∃ n, n ≤ tail.length ∧ bytes = b :: tail.take n ∧ r.isLineRest b = false ∧
      r.room.Allows (n + 1) := by
  unfold slice? at h
  split at h
  · cases h
  · next fresh =>
    have fresh : r.isLineRest b = false := by simpa using fresh
    split at h
    · cases h
    · next octets room =>
      cases h
      have positive : 0 < octets := pos_of_room room
      refine ⟨(tail.take (octets - 1)).length, List.length_take_le' _ _, ?_, fresh, ?_⟩
      · rw [← List.prefix_iff_eq_take.mp (List.take_prefix _ _)]
      · -- Room for so many octets is room for at least one, so the cut keeps within it.
        have short := List.length_take_le (octets - 1) tail
        rw [room]
        simp only [Room.Allows]
        omega
    · next room =>
      cases h
      exact ⟨tail.length, Nat.le_refl _, by simp, fresh, by rw [room]; trivial⟩

theorem turn_cases (sound : r.Sound) :
    TurnCase r capacity b (tail :: later).flatten (r.turn capacity b tail later) := by
  -- A turn looks ahead in one segment; what it takes there is a prefix of all the octets.
  have prefix_ {n : Nat} (h : n ≤ tail.length) :
      tail.take n = (tail :: later).flatten.take n ∧ n ≤ (tail :: later).flatten.length := by
    rw [List.flatten_cons, List.take_append_of_le_length h, List.length_append]
    exact ⟨rfl, by omega⟩
  unfold turn
  split
  · next s length ahead =>
    obtain ⟨positive, short, glides⟩ := startAhead?_glides capacity ahead
    obtain ⟨n, rfl⟩ : ∃ n, length = n + 1 := ⟨length - 1, by omega⟩
    obtain ⟨same, within⟩ := prefix_ (n := n) (by simpa using short)
    rw [List.take_succ_cons, same] at glides
    exact .known within (startAhead?_inHead ahead) glides
  · split
    · next bytes slice =>
      obtain ⟨n, short, rfl, fresh, room⟩ := slice?_eq_some slice
      obtain ⟨same, within⟩ := prefix_ short
      have size : (tail.take n).length = n := by
        rw [List.length_take, Nat.min_eq_left short]
      rw [List.length_cons, size, Nat.add_sub_cancel, same]
      exact .slice within fresh room
    · simp only
      split
      · exact .octet
      · next fine =>
        split
        · exact .octet
        · next fresh => exact extend_case sound (by simpa using fresh) fine (tail :: later)

/-! What a turn leaves alone. -/

/-- Draining a line end changes the count and the note of a line end only. -/
theorem drain_frame {bytes : Bytes} (h : r.drain bytes = (s, n)) :
    n ≤ bytes.length ∧ ∃ headerBytes afterCr, s = { r with headerBytes, afterCr } := by
  induction bytes generalizing r s n with
  | nil =>
    cases h
    exact ⟨Nat.le_refl 0, _, _, rfl⟩
  | cons b rest ih =>
    unfold drain at h
    split at h
    · obtain ⟨t, m, later⟩ : ∃ t m, (r.count.endLine b).drain rest = (t, m) := ⟨_, _, rfl⟩
      rw [later] at h
      cases h
      obtain ⟨within, headerBytes, afterCr, rfl⟩ := ih later
      exact ⟨Nat.succ_le_succ within, headerBytes, afterCr, rfl⟩
    · cases h
      exact ⟨Nat.zero_le _, _, _, rfl⟩

theorem takeLf_frame {bytes : Bytes} (h : r.takeLf bytes = (s, n)) :
    n ≤ bytes.length ∧ ∃ afterCr, s = { r with afterCr } := by
  unfold takeLf at h
  split at h
  · next follows =>
    cases h
    cases bytes with
    | nil => cases follows.2
    | cons b rest => exact ⟨by simp, _, rfl⟩
  · cases h
    exact ⟨Nat.zero_le _, _, rfl⟩

variable {bytes : Bytes} {turn : Turn}

theorem TurnCase.extra_le (h : r.TurnCase capacity b bytes turn) : turn.extra ≤ bytes.length := by
  cases h with
  | octet => exact Nat.zero_le _
  | known within | slice within | onward _ _ within => exact within
  | line _ _ _ found => exact (List.getElem?_eq_some_iff.mp found).1
  | lineEnd _ _ drained => exact (drain_frame drained).1
  | chunkEnd _ _ _ taken => exact (takeLf_frame taken).1

/-- A turn that shows something to be wrong takes one octet. -/
theorem TurnCase.of_fault (h : r.TurnCase capacity b bytes turn) {fault : Fault}
    (wrong : turn.step.fault = some fault) : turn = { step := r.push capacity b } := by
  have no {P : Prop} {step : Step} (fine : step.fault = none) (wrong : step.fault = some fault) :
      P := by
    rw [fine] at wrong
    cases wrong
  cases h with
  | octet => rfl
  | known | slice => cases wrong
  | onward fine | line _ _ _ _ fine | lineEnd fine | chunkEnd fine => exact no fine wrong

theorem Noted.kin (h : r.Noted s) : r.Kin s := by
  obtain ⟨stage, rfl, _⟩ := h
  exact ⟨rfl, rfl, rfl⟩

theorem Noted.inHead (h : r.Noted s) (inside : r.stage.inHead = true) : s.stage.inHead = true := by
  rw [← Stage.inHead_plain, h.stage, Stage.inHead_plain]
  exact inside

theorem Glides.carries {P : Reader → List Event → Prop} {events : List Event}
    (h : Glides capacity r bytes s) (sound : r.Sound) (start : P r events)
    (carried : ∀ (t : Reader) (b : UInt8), t.Sound → t.stage.inHead = true → P t events →
      P (t.push capacity b).reader (events ++ (t.push capacity b).events)) : P s events := by
  induction h with
  | nil => exact start
  | @cons r _ _ b _ _ before _ quiet _ ih =>
    have next := sound.push capacity b
    have later := carried r b sound before start
    rw [quiet] at next later
    rw [Step.quiet, List.append_nil] at later
    exact ih next later

/-- What every octet carries on with the events that it tells, and every slice of the body, a turn
carries on; how many octets were counted must not matter for it, nor whether a line was
recognized. -/
theorem TurnCase.carries {P : Reader → List Event → Prop} {events : List Event}
    (h : r.TurnCase capacity b bytes turn) (sound : r.Sound) (start : P r events)
    (carried : ∀ (t : Reader) (b : UInt8) (events : List Event), t.Sound →
      t.stage.inHead = true ∨ t = r → P t events →
      P (t.push capacity b).reader (events ++ (t.push capacity b).events))
    (counted : ∀ (t : Reader) (headerBytes : Nat) (afterCr : Bool) (events : List Event),
      P t events → P { t with headerBytes, afterCr } events)
    (noted : ∀ {t u : Reader} (events : List Event), t.Noted u → t.stage.inHead = true →
      P t events → P u events)
    (sliced : ∀ (b : UInt8) (rest : Bytes), r.room.Allows (rest.length + 1) →
      P ({ r with afterCr := false }.deliver (b :: rest)).reader
        (events ++ [.content (b :: rest)])) :
    P turn.step.reader (events ++ turn.step.events) := by
  -- An octet first, as in every case, then what the turn reads beyond it.
  have next := carried r b events sound (.inr rfl) start
  have pushed := sound.push capacity b
  have onward (events : List Event) (t : Reader) (b : UInt8) (sound : t.Sound)
      (inside : t.stage.inHead = true) := carried t b events sound (.inl inside)
  cases h with
  | octet => exact next
  | known _ _ glides =>
    rw [Step.quiet, List.append_nil]
    exact glides.carries sound start (onward events)
  | @slice n within _ room =>
    apply sliced
    rwa [List.length_take, Nat.min_eq_left within]
  | onward _ inside _ glides same =>
    refine noted _ same (glides.inHead inside) ?_
    exact glides.carries pushed next (onward _)
  | line quiet inside glides =>
    rw [quiet] at next pushed
    rw [Step.quiet, List.append_nil] at next
    refine onward events _ _ (glides.sound pushed) (glides.inHead inside) ?_
    exact glides.carries pushed next (onward events)
  | lineEnd _ _ drained =>
    obtain ⟨_, headerBytes, afterCr, rfl⟩ := drain_frame drained
    exact counted _ headerBytes afterCr _ next
  | chunkEnd _ _ _ taken =>
    obtain ⟨_, afterCr, rfl⟩ := takeLf_frame taken
    exact counted _ _ afterCr _ next

theorem TurnCase.keeps {P : Reader → Prop} (h : r.TurnCase capacity b bytes turn) (sound : r.Sound)
    (start : P r)
    (kept : ∀ (t : Reader) (b : UInt8), t.Sound → t.stage.inHead = true ∨ t = r → P t →
      P (t.push capacity b).reader)
    (counted : ∀ (t : Reader) (headerBytes : Nat) (afterCr : Bool), P t →
      P { t with headerBytes, afterCr })
    (noted : ∀ {t u : Reader}, t.Noted u → t.stage.inHead = true → P t → P u)
    (sliced : ∀ (b : UInt8) (rest : Bytes), r.room.Allows (rest.length + 1) →
      P ({ r with afterCr := false }.deliver (b :: rest)).reader) : P turn.step.reader :=
  @TurnCase.carries _ _ _ _ _ (fun s _ => P s) [] h sound start (fun t b _ => kept t b)
    (fun t headerBytes afterCr _ => counted t headerBytes afterCr) (fun _ => noted) sliced

theorem TurnCase.kin (h : r.TurnCase capacity b bytes turn) (sound : r.Sound) :
    r.Kin turn.step.reader :=
  h.keeps sound (.refl r) (fun _ _ sound _ kin => kin.trans (push_kin sound))
    (fun _ _ _ kin => ⟨kin.mode, kin.settings, kin.headResponse⟩)
    (fun noted _ kin => kin.trans noted.kin) fun _ _ _ => ⟨rfl, rfl, rfl⟩

theorem TurnCase.sound (h : r.TurnCase capacity b bytes turn) (sound : r.Sound) :
    turn.step.reader.Sound := by
  have next : (r.push capacity b).reader.Sound := sound.push capacity b
  cases h with
  | octet => exact next
  | known _ _ glides => exact glides.sound sound
  | slice _ _ room =>
    have body : r.stage.inBody = true := (inBody_of_room room).1
    exact sound.inBody (deliver_inBody (r := { r with afterCr := false }) body _) rfl rfl rfl
  | onward _ _ _ _ _ sound' => exact sound'
  | line quiet _ glides =>
    rw [quiet] at next
    exact (glides.sound next).push _ _
  | lineEnd _ _ drained =>
    obtain ⟨_, headerBytes, afterCr, rfl⟩ := drain_frame drained
    exact next.counted _ _
  | chunkEnd _ _ _ taken =>
    obtain ⟨_, afterCr, rfl⟩ := takeLf_frame taken
    exact next.counted _ _

end Reader
end HttpStream
