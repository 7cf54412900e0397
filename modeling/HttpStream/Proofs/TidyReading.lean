import HttpStream.Proofs.Fragments
import HttpStream.Proofs.Tidy

/-! A turn comes to what its octets come to in turns that do not look ahead, and so does a reading;
nothing is asked of the limit for that. -/

set_option autoImplicit false

namespace HttpStream

open Octet

namespace Reader

variable {renew : Bool} {capacity other n : Nat} {r s t : Reader} {b : UInt8} {bytes : Bytes}

/-! Octets that nothing goes with. -/

theorem neat_alone (more : r.stage.isComplete = false)
    (alone : r.tidied b (r.push capacity b) bytes = ((r.push capacity b).reader, 0)) :
    r.neat renew capacity (b :: bytes) =
      (r.advance renew capacity b).andThen fun s => s.neat renew capacity bytes := by
  have awake : r.wake renew = r := wake_of_open more
  rw [neat_cons (by rwa [awake]), advance_of_awake awake more]
  simp only [awake, plainTurn, alone, Turn.further, List.drop_zero]

theorem Glides.neat (h : Glides capacity r bytes s) (renew : Bool) (rest : Bytes) :
    r.neat renew capacity (bytes ++ rest) = s.neat renew capacity rest := by
  induction h with
  | nil => rfl
  | @cons r s t b more plain before after quiet _ ih =>
    have fresh : (r.push capacity b).reader.afterCr = false := by
      refine Bool.eq_false_iff.mpr fun noted => ?_
      rw [push_afterCr (by rw [quiet]; rfl) noted] at plain
      cases plain
    rw [List.cons_append, neat_alone (Stage.isComplete_of_inHead before) (tidied_of_fresh fresh),
      advance_of_quiet renew before after quiet, Step.quiet_andThen, ih]

theorem tidied_of_inStartLine {step : Step} (line : r.stage.inStartLine = true) :
    r.tidied b step bytes = (step.reader, 0) := by
  have none : r.stage.drains step.reader.stage = false ∧
      r.stage.takesLf step.reader.stage = false := by
    cases stage : r.stage <;> rw [stage] at line <;> first | exact ⟨rfl, rfl⟩ | cases line
  simp [tidied, none]

theorem tidied_of_room {step : Step} (room : r.room.Allows (n + 1)) :
    r.tidied b step bytes = (step.reader, 0) := by
  have none : r.stage.drains step.reader.stage = false ∧
      r.stage.takesLf step.reader.stage = false := by
    unfold Reader.room at room
    cases stage : r.stage <;> rw [stage] at room <;> first | exact ⟨rfl, rfl⟩ | cases room
  simp [tidied, none]

theorem neat_slice (renew : Bool) (capacity : Nat) (fresh : r.isLineRest b = false)
    (room : r.room.Allows (bytes.length + 1)) (rest : Bytes) :
    r.neat renew capacity (b :: bytes ++ rest) =
      (r.run renew capacity (b :: bytes)).andThen fun s => s.neat renew capacity rest := by
  induction bytes generalizing r b with
  | nil =>
    obtain ⟨_, _, more⟩ := inBody_of_room room
    rw [List.cons_append, List.nil_append, run_singleton, neat_alone more (tidied_of_room room)]
  | cons c later ih =>
    obtain ⟨_, _, more⟩ := inBody_of_room room
    let u : Reader := { r with afterCr := false }
    obtain ⟨roomLeft, notFull⟩ := room_deliver (r := u) (b := b) room
    have step : r.advance renew capacity b = u.deliver [b] := by
      rw [advance_of_awake (wake_of_open more) more, push_slice fresh room]
      exact Step.andThen_of_quiet rfl (settle_of_ne notFull)
    rw [List.cons_append, neat_alone more (tidied_of_room room), run, Step.andThen_andThen]
    refine Step.andThen_congr fun _ => ?_
    rw [step]
    exact ih rfl roomLeft

/-! Turns. -/

def onward (renew : Bool) (capacity : Nat) (turn : Turn) (bytes : Bytes) : Step :=
  (turn.step.shut.andThen settle).andThen fun s => s.neat renew capacity (bytes.drop turn.extra)

theorem neat_of_open (more : r.stage.isComplete = false) :
    r.neat renew capacity (b :: bytes) =
      onward renew capacity (r.plainTurn capacity b bytes) bytes := by
  have awake : r.wake renew = r := wake_of_open more
  rw [neat_cons (by rwa [awake]), awake]
  rfl

theorem onward_of_glides (sound : r.Sound) (more : r.stage.isComplete = false)
    (fine : (r.push capacity b).fault = none)
    (inside : (r.push capacity b).reader.stage.inHead = true)
    (alone : r.tidied b (r.push capacity b) bytes = ((r.push capacity b).reader, 0))
    (glides : Glides capacity (r.push capacity b).reader (bytes.take n) s) (noted : s.Noted t)
    (sound' : t.Sound) :
    (onward renew capacity { step := { r.push capacity b with reader := t }, extra := n }
      bytes).Matches renew (r.neat renew capacity (b :: bytes)) := by
  have stage : s.stage.inHead = true := glides.inHead inside
  have after : t.stage.inHead = true := noted.inHead stage
  have told : ({ r.push capacity b with reader := t } : Step).shut.andThen settle =
      (r.push capacity b).andThen fun _ => .quiet t := by
    simp [Step.shut, Step.andThen, Step.quiet, fine, settle_of_ne (ne_of_inHead after)]
  have whole := glides.neat renew (bytes.drop n)
  rw [List.take_append_drop] at whole
  rw [neat_alone more alone, advance_of_fine more fine (ne_of_inHead inside), onward, told,
    Step.andThen_andThen]
  refine (Step.Matches.refl _).andThen fun _ => ?_
  rw [whole, Step.quiet_andThen]
  have peer : t.Peer s := (Peer.noted noted).symm
  exact neat_peer capacity capacity _ sound' (glides.sound (sound.push capacity b))
    (peer.wake renew)

theorem onward_of_line {ending : UInt8} (more : r.stage.isComplete = false)
    (alone : r.tidied b (r.push capacity b) bytes = ((r.push capacity b).reader, 0))
    (quiet : r.push capacity b = .quiet s) (inside : s.stage.inHead = true)
    (glides : Glides capacity s (bytes.take n) t) (line : t.stage.inStartLine = true)
    (found : bytes[n]? = some ending) :
    onward renew capacity { step := t.push capacity ending, extra := n + 1 } bytes =
      r.neat renew capacity (b :: bytes) := by
  have first : r.advance renew capacity b = .quiet s := by
    rw [advance_of_fine more (by rw [quiet]; rfl) (by rw [quiet]; exact ne_of_inHead inside),
      quiet]
  have open_ : t.stage.isComplete = false :=
    Stage.isComplete_of_inHead (Stage.inHead_of_inStartLine line)
  have split : bytes = bytes.take n ++ ending :: bytes.drop (n + 1) := by
    obtain ⟨within, same⟩ := List.getElem?_eq_some_iff.mp found
    rw [← same, ← List.drop_eq_getElem_cons within, List.take_append_drop]
  have whole := glides.neat renew (ending :: bytes.drop (n + 1))
  rw [← split] at whole
  rw [neat_alone more alone, first, Step.quiet_andThen, whole, neat_of_open open_, plainTurn,
    tidied_of_inStartLine line]
  rfl

theorem tidied_eq {step : Step} (bytes : Bytes) (fine : step.fault = none)
    (fresh : r.isLineRest b = false) :
    r.tidied b step bytes =
      match r.stage.beyond step.reader.stage with
      | .lineEnd => step.reader.drain bytes
      | .chunkEnd => step.reader.takeLf bytes
      | _ => (step.reader, 0) := by
  simp only [tidied, fine, fresh, Option.isSome_none, Bool.or_self, Bool.false_eq_true, if_false]
  generalize r.stage = before
  generalize step.reader.stage = after
  cases before <;> cases after <;> rfl

section Extend

variable (sound : r.Sound) (more : r.stage.isComplete = false) (fresh : r.isLineRest b = false)
  (fine : (r.push capacity b).fault = none)
include sound more fresh fine

theorem onward_of_target {method : Method} (input : Input) (before : r.stage.inStartLine = true)
    (after : (r.push capacity b).reader.stage = .uri method) :
    (onward renew capacity (.further (r.push capacity b)
      ((r.push capacity b).reader.scanTarget (Input.active input))) input.flatten).Matches renew
        (r.neat renew capacity (b :: input.flatten)) := by
  have afterCr : (r.push capacity b).reader.afterCr = false :=
    push_inStartLine sound before fine fresh (by rw [after]; rfl)
  obtain ⟨within, glides⟩ := scanTarget_glides capacity (Input.active input) after afterCr
  rw [Input.take_active within] at glides
  exact onward_of_glides sound more fine (by rw [after]; rfl) (tidied_of_fresh afterCr) glides
    (.refl _) (glides.sound (sound.push capacity b))

theorem onward_of_version {method method' : Method} {token : Snoc Char} {turn : Turn}
    (input : Input) (before : r.stage = .afterUri method)
    (after : (r.push capacity b).reader.stage = .requestVersion method' token)
    (h : (r.push capacity b).reader.versionAhead? capacity method' b (Input.active input) =
      some turn) :
    onward renew capacity turn input.flatten = r.neat renew capacity (b :: input.flatten) := by
  have afterCr : (r.push capacity b).reader.afterCr = false :=
    push_inStartLine sound (by rw [before]; rfl) fine fresh (by rw [after]; rfl)
  have alone : r.tidied b (r.push capacity b) input.flatten = ((r.push capacity b).reader, 0) :=
    tidied_of_fresh afterCr
  obtain ⟨rfl, s, pushed⟩ := push_afterUri before fine fresh after
  have inside : s.stage.inHead = true := by
    rw [pushed] at after
    rw [show s.stage = _ from after]
    rfl
  rw [pushed] at h after afterCr
  obtain ⟨n, t, ending, glides, line, found, fine', rfl⟩ := versionAhead?_glides after afterCr h
  have within : n ≤ (Input.active input).length :=
    Nat.le_of_lt (List.getElem?_eq_some_iff.mp found).1
  rw [Input.take_active within] at glides
  exact onward_of_line more alone pushed inside glides line (Input.getElem?_active found)

theorem onward_of_field {head head' : Head} {pending : Option Field} {token : Snoc Char}
    (input : Input) (before : r.stage = .lineStart head pending)
    (after : (r.push capacity b).reader.stage = .fieldName head' token) :
    (onward renew capacity (.further (r.push capacity b)
      ((r.push capacity b).reader.fieldAhead head' (b :: Input.active input)))
        input.flatten).Matches renew (r.neat renew capacity (b :: input.flatten)) := by
  obtain ⟨rfl, afterCr⟩ := push_lineStart before fine fresh after
  obtain ⟨within, sound', s, glides, noted⟩ := fieldAhead_glides capacity
    (sound.push capacity b) after afterCr rfl
  rw [Input.take_active within] at glides
  exact onward_of_glides sound more fine (by rw [after]; rfl) (tidied_of_fresh afterCr) glides noted
    sound'

/-- A turn takes the rest of a line end as a plain turn does, or it looks ahead. -/
theorem onward_of_extend (input : Input) :
    (onward renew capacity (r.extend capacity b (r.push capacity b) input)
      input.flatten).Matches renew (r.neat renew capacity (b :: input.flatten)) := by
  -- Where nothing known is looked for, the turn is the plain one already.
  have plain {turn : Turn} (same : turn = r.plainTurn capacity b input.flatten) :
      (onward renew capacity turn input.flatten).Matches renew
        (r.neat renew capacity (b :: input.flatten)) := by
    rw [same, neat_of_open more]
    exact .refl _
  have taken := tidied_eq input.flatten fine fresh
  rw [extend_eq]
  cases kind : r.stage.beyond (r.push capacity b).reader.stage with
  | target =>
    obtain ⟨before, method, after⟩ := Stage.target_of_beyond kind
    exact onward_of_target sound more fresh fine input before after
  | version method =>
    obtain ⟨⟨method', before⟩, token, after⟩ := Stage.version_of_beyond kind
    simp only [Turn.toward]
    cases found : (r.push capacity b).reader.versionAhead? capacity method b
        (Input.active input) with
    | some turn =>
      rw [Option.getD_some, onward_of_version sound more fresh fine input before after found]
      exact .refl _
    | none => exact plain (by rw [plainTurn, taken, kind]; rfl)
  | field head =>
    obtain ⟨⟨head', pending, before⟩, token, after⟩ := Stage.field_of_beyond kind
    exact onward_of_field sound more fresh fine input before after
  | lineEnd | chunkEnd | nothing => exact plain (by rw [plainTurn, taken, kind]; rfl)

end Extend

theorem onward_of_turn (sound : r.Sound) (more : r.stage.isComplete = false) (capacity : Nat)
    (b : UInt8) (tail : Bytes) (later : Input) :
    (onward renew capacity (r.turn capacity b tail later) (tail :: later).flatten).Matches renew
      (r.neat renew capacity (b :: (tail :: later).flatten)) := by
  -- Where the turn takes one octet because of what the octet is, a plain turn takes no more.
  have single (taken : (r.push capacity b).fault.isSome = true ∨ r.isLineRest b = true) :
      (onward renew capacity { step := r.push capacity b } (tail :: later).flatten).Matches renew
        (r.neat renew capacity (b :: (tail :: later).flatten)) := by
    have same : r.plainTurn capacity b (tail :: later).flatten = { step := r.push capacity b } := by
      rcases taken with taken | taken <;> simp [plainTurn, tidied, taken, Turn.further]
    rw [neat_of_open more, same]
    exact .refl _
  have prefix_ {n : Nat} (h : n ≤ tail.length) : (tail :: later).flatten =
      tail.take n ++ (tail :: later).flatten.drop n := by
    rw [List.flatten_cons, List.drop_append_of_le_length h, ← List.append_assoc,
      List.take_append_drop]
  unfold turn
  split
  · next s length ahead =>
    obtain ⟨positive, short, glides⟩ := startAhead?_glides capacity ahead
    obtain ⟨n, rfl⟩ : ∃ n, length = n + 1 := ⟨length - 1, by omega⟩
    have inside := glides.inHead (startAhead?_inHead ahead)
    have settled : (Step.quiet s).shut.andThen settle = .quiet s :=
      Step.andThen_of_quiet rfl (settle_of_ne (ne_of_inHead inside))
    have whole := glides.neat renew ((tail :: later).flatten.drop n)
    rw [List.take_succ_cons, List.cons_append, ← prefix_ (by simpa using short)] at whole
    rw [onward, settled, Step.quiet_andThen, whole]
    exact .refl _
  · split
    · next bytes slice =>
      obtain ⟨n, short, rfl, fresh, room⟩ := slice?_eq_some slice
      have size : (tail.take n).length = n := by rw [List.length_take, Nat.min_eq_left short]
      have room : r.room.Allows ((tail.take n).length + 1) := by rwa [size]
      have whole := neat_slice renew capacity fresh room ((tail :: later).flatten.drop n)
      rw [List.cons_append, ← prefix_ short] at whole
      obtain ⟨events, fault, reader⟩ := @slice_run renew capacity r b (tail.take n) fresh room
      rw [onward, whole, List.length_cons, size, Nat.add_sub_cancel]
      have told : Step.Matches renew
          (({ r with afterCr := false }.deliver (b :: tail.take n)).andThen settle)
          (r.run renew capacity (b :: tail.take n)) :=
        ⟨events.symm, fault.symm, by rw [reader]; exact ⟨rfl, rfl⟩⟩
      refine told.andThen fun _ => ?_
      rw [← reader]
      exact .refl _
    · simp only
      split
      · next wrong => exact single (.inl (by rw [wrong]; rfl))
      · next fine =>
        split
        · next rest => exact single (.inr rest)
        · next fresh =>
          exact onward_of_extend sound more (by simpa using fresh) fine (tail :: later)

/-- The memory that a turn starts does not matter for what it comes to. -/
theorem onward_of_turn_other (renew : Bool) (sound : r.Sound) (more : r.stage.isComplete = false)
    (capacity other : Nat) (b : UInt8) (tail : Bytes) (later : Input) :
    (onward renew other (r.turn capacity b tail later) (tail :: later).flatten).Matches renew
      (r.neat renew other (b :: (tail :: later).flatten)) := by
  have cause : r.TurnCase capacity b (tail :: later).flatten (r.turn capacity b tail later) :=
    turn_cases sound
  have settled : ((r.turn capacity b tail later).step.shut.andThen settle).reader.Sound :=
    Step.andThen_of (P := Sound) (Sound.shut (cause.sound sound)) fun _ sound => sound.settle
  have first : (onward renew other (r.turn capacity b tail later)
      (tail :: later).flatten).Matches renew
        (onward renew capacity (r.turn capacity b tail later) (tail :: later).flatten) :=
    (Step.Matches.refl _).andThen fun _ =>
      neat_peer other capacity _ settled settled ⟨rfl, rfl⟩
  exact (first.trans (onward_of_turn sound more capacity b tail later)).trans
    (neat_peer capacity other _ sound sound ⟨rfl, rfl⟩)

/-! Readings. -/

structure Yields (renew : Bool) (capacity : Nat) (r : Reader) (recorder : Recorder) (bytes : Bytes)
    (reading : Reading Recorder) (step : Step) : Prop where
  reader : reading.reader = step.reader
  state : reading.state = recorder.told step
  same : (step.andThen fun s => s.neat renew capacity reading.rest.flatten).Matches renew
    (r.settle.andThen fun r => r.neat renew capacity bytes)
  finished : reading.reader.stage = .done ∨ reading.rest.flatten = []
  sound : reading.reader.Sound
  more : reading.reader.stage ≠ .content 0
  closed : step.fault ≠ none → reading.reader.stage = .closed
  still : r.stage = .closed → step = .quiet r

theorem Yields.quiet {recorder : Recorder} {rest : Input} {stopped : Bool}
    (left : r.neat renew capacity rest.flatten = r.neat renew capacity bytes)
    (finished : r.stage = .done ∨ rest.flatten = []) (sound : r.Sound)
    (more : r.stage ≠ .content 0) :
    Yields renew capacity r recorder bytes ⟨r, recorder, stopped, rest⟩ (.quiet r) where
  reader := rfl
  state := by simp
  same := by
    rw [settle_of_ne more, Step.quiet_andThen, Step.quiet_andThen, left]
    exact .refl _
  finished := finished
  sound := sound
  more := more
  closed := fun wrong => absurd rfl wrong
  still _ := rfl

theorem neat_closed (closed : r.stage = .closed) (bytes : Bytes) :
    r.neat renew capacity bytes = .quiet r := by
  have awake : r.wake renew = r := wake_of_not (by simp [closed])
  have complete : (r.wake renew).stage.isComplete = true := by
    rw [awake, closed]
    rfl
  have still : (r.wake renew).neat renew capacity bytes = .quiet (r.wake renew) :=
    neat_still complete bytes
  rwa [awake] at still

theorem neatly_closed (closed : r.stage = .closed) (pieces : List Bytes) :
    r.neatly renew capacity pieces = .quiet r := by
  induction pieces with
  | nil => rfl
  | cons piece pieces ih => rw [neatly, neat_closed closed, Step.quiet_andThen, ih]

theorem read_yields (renew : Bool) (capacity : Nat) (memoryCapacity : Option Nat)
    (recorder : Recorder) (input : Input) (sound : r.Sound) :
    ∃ step, Yields renew capacity r recorder input.flatten
      (r.read (.patient memoryCapacity) recorder input) step := by
  -- On the turns of the reading: each leads to where plain turns lead, and so do those after it.
  fun_induction read r (Listener.patient memoryCapacity) recorder input with
  | case1 r recorder input stage =>
    exact ⟨.quiet r, .quiet rfl (.inl stage) sound (by simp [stage])⟩
  | case2 r recorder input stage =>
    refine ⟨.quiet r, .quiet ?_ (.inr rfl) sound (by simp [stage])⟩
    rw [neat_closed stage, neat_closed stage]
  | case3 r recorder input stage state stop notified =>
    have full := settle_of_full stage
    have heard : state = { recorder with events := recorder.events ++ [.messageComplete] } :=
      (congrArg Prod.fst notified).symm
    refine ⟨r.settle, by rw [full], ?_, .refl _, .inl rfl, sound.enter_finished (.inl rfl),
      by simp, by simp [full], by simp [stage]⟩
    rw [heard, full]
    simp [Recorder.told]
  | case4 r recorder input none _ _ partial_ =>
    have nothing := Input.flatten_eq_nil_of_next? none
    exact ⟨.quiet r, .quiet rfl (.inr nothing) sound partial_⟩
  | case5 r recorder input b tail later found turn state stop heard fault wrong busy open_
      partial_ =>
    have more : r.stage.isComplete = false := Stage.isComplete_eq_false busy open_
    have cause : r.TurnCase _ b (tail :: later).flatten turn := turn_cases sound
    have shut := Step.shut_of_fault wrong
    obtain ⟨heard, _⟩ := Recorder.heard_patient heard
    have turned := onward_of_turn_other renew sound more
      (r.capacityFor (.patient memoryCapacity) recorder) capacity b tail later
    refine ⟨turn.step.shut, by rw [shut], ?_, ?_, .inr rfl,
      (cause.sound sound).enter_finished (.inr rfl), by simp, fun _ => rfl,
      fun closed => absurd closed open_⟩
    · rw [heard, shut]
      simp [Recorder.told, Recorder.listener, wrong]
    · rw [settle_of_ne partial_, Step.quiet_andThen, Input.flatten_of_next? found]
      have wrong' : turn.step.shut.fault = some fault := by rw [Step.fault_shut, wrong]
      rw [onward, Step.andThen_of_fault wrong', Step.andThen_of_fault wrong'] at turned
      rw [Step.andThen_of_fault wrong']
      exact turned
  | case6 r recorder input b tail later found turn state fine rest _ _ _ heard =>
    cases (Recorder.heard_patient heard).2
  | case7 r recorder input b tail later found turn state stop heard fine rest _ busy open_
      partial_ ih =>
    have more : r.stage.isComplete = false := Stage.isComplete_eq_false busy open_
    have cause : r.TurnCase _ b (tail :: later).flatten turn := turn_cases sound
    obtain ⟨heard, _⟩ := Recorder.heard_patient heard
    obtain ⟨step, yields⟩ := ih (cause.sound sound)
    have told := Step.andThen_of_fine fine fun _ => step
    have turned := onward_of_turn_other renew sound more
      (r.capacityFor (.patient memoryCapacity) recorder) capacity b tail later
    have shut : turn.step.shut = turn.step := Step.shut_of_fine fine
    refine ⟨turn.step.andThen fun _ => step, by rw [told, yields.reader], ?_, ?_, yields.finished,
      yields.sound, yields.more, by rw [told]; exact yields.closed,
      fun closed => absurd closed open_⟩
    · rw [told, yields.state, heard]
      simp [Recorder.told]
    · rw [settle_of_ne partial_, Step.quiet_andThen, Input.flatten_of_next? found,
        Step.andThen_andThen]
      have goesOn := yields.same
      rw [Input.flatten_drop] at goesOn
      rw [onward, show (r.turn _ b tail later) = turn from rfl, shut,
        Step.andThen_andThen] at turned
      exact ((Step.Matches.refl turn.step).andThen fun _ => goesOn).trans turned

/-! What was told so far, and what is left unread. -/

/-- The step is told of the whole but for the octets that are left, by a reader that waits for
octets. -/
structure Comes (renew : Bool) (capacity : Nat) (r : Reader) (whole step : Step) (rest : Bytes) :
    Prop where
  same : (step.andThen fun s => s.neat renew capacity rest).Matches renew whole
  sound : step.reader.Sound
  waits : step.reader.stage ≠ .content 0
  closed : step.fault ≠ none → step.reader.stage = .closed
  still : r.stage = .closed → step = .quiet r

namespace Comes

variable {rest left : Bytes} {pieces : List Bytes} {whole first second step : Step}

theorem refl (sound : r.Sound) (waits : r.stage ≠ .content 0) :
    Comes renew capacity r (r.neat renew capacity bytes) (.quiet r) bytes :=
  ⟨by rw [Step.quiet_andThen]; exact .refl _, sound, waits, nofun, fun _ => rfl⟩

theorem nil (sound : r.Sound) (waits : r.stage ≠ .content 0) :
    Comes renew capacity r (.quiet r) (.quiet r) [] :=
  ⟨by rw [Step.quiet_andThen, neat_nil]; exact .refl _, sound, waits, nofun, fun _ => rfl⟩

theorem ofReading {recorder : Recorder} {reading : Reading Recorder}
    (h : Yields renew capacity r recorder bytes reading step) (waits : r.stage ≠ .content 0) :
    Comes renew capacity r (r.neat renew capacity bytes) step reading.rest.flatten := by
  have same := h.same
  rw [settle_of_ne waits, Step.quiet_andThen] at same
  have reader := h.reader
  exact ⟨same, reader ▸ h.sound, reader ▸ h.more, fun wrong => reader ▸ h.closed wrong, h.still⟩

theorem append {part : Step} {goesOn : Reader → Step} (h : Comes renew capacity r part first rest)
    (same : (first.andThen goesOn).Matches renew whole)
    (next : Comes renew capacity first.reader (goesOn first.reader) second left) :
    Comes renew capacity r whole (first.append second) left := by
  cases wrong : first.fault with
  | none =>
    have both : first.append second = first.andThen fun _ => second := by
      simp [Step.andThen, wrong, Step.append]
    refine ⟨?_, next.sound, next.waits, ?_, ?_⟩
    · rw [both, Step.andThen_andThen]
      exact ((Step.Matches.refl first).andThen fun _ => next.same).trans same
    · intro wrong'
      exact next.closed (by simpa [Step.append, wrong] using wrong')
    · intro closed
      have quiet := h.still closed
      rw [quiet] at next
      rw [quiet, next.still closed]
      simp [Step.append, Step.quiet]
  | some fault =>
    -- The first octets closed the reader, which has nothing to tell of the others.
    have closed : first.reader.stage = .closed := h.closed (by simp [wrong])
    have silent : first.append second = first := by
      rw [next.still closed]
      obtain ⟨reader, events, fault⟩ := first
      simp [Step.append, Step.quiet]
    rw [Step.andThen_of_fault wrong] at same
    rw [silent]
    refine ⟨?_, h.sound, h.waits, h.closed, h.still⟩
    rw [Step.andThen_of_fault wrong]
    exact same

theorem trans (h : Comes renew capacity r whole first rest)
    (next : Comes renew capacity first.reader (first.reader.neat renew capacity rest) second left) :
    Comes renew capacity r whole (first.append second) left :=
  h.append h.same next

theorem all (h : Comes renew capacity r whole step []) : step.Matches renew whole := by
  have same := h.same
  rwa [Step.andThen_congr fun _ => neat_nil _, Step.andThen_quiet] at same

theorem cons (h : Comes renew capacity r (r.neat renew capacity bytes) first [])
    (next : Comes renew capacity first.reader (first.reader.neatly renew capacity pieces) second [])
    (sound : r.Sound) :
    Comes renew capacity r (r.neatly renew capacity (bytes :: pieces)) (first.append second) [] := by
  have same : (first.andThen fun s => s.neatly renew capacity pieces).Matches renew
      (r.neatly renew capacity (bytes :: pieces)) :=
    h.all.andThen fun _ =>
      neatly_peer capacity capacity pieces h.sound (sound.neat renew capacity bytes) h.all.reader
  exact h.append same next

/-- What is left may be other octets, if they come to the same. -/
theorem instead (h : Comes renew capacity r whole step rest)
    (same : step.fault = none →
      step.reader.neat renew capacity left = step.reader.neat renew capacity rest) :
    Comes renew capacity r whole step left := by
  have goesOn : (step.andThen fun s => s.neat renew capacity left) =
      step.andThen fun s => s.neat renew capacity rest := Step.andThen_congr same
  exact ⟨goesOn ▸ h.same, h.sound, h.waits, h.closed, h.still⟩

theorem finished (h : Comes false capacity r whole step rest) (done : step.reader.stage = .done) :
    Comes false capacity r whole step [] := by
  have complete : (step.reader.wake false).stage.isComplete = true := by
    rw [wake_of_not (by simp), done]
    rfl
  exact h.instead fun _ => (neat_still complete []).trans (neat_still complete rest).symm

theorem of_closed (closed : r.stage = .closed) (sound : r.Sound) (pieces : List Bytes) :
    Comes renew capacity r (r.neatly renew capacity pieces) (.quiet r) [] := by
  rw [neatly_closed closed]
  exact nil sound (by simp [closed])

end Comes

/-! Fragments. -/

theorem feed_comes (capacity : Nat) (memoryCapacity : Option Nat) (recorder : Recorder)
    (input : Input) (sound : r.Sound) (waits : r.stage ≠ .content 0) :
    ∃ step, Comes false capacity r (r.neat false capacity input.flatten) step [] ∧
      (r.feed (.patient memoryCapacity) recorder input).reader = step.reader ∧
      (r.feed (.patient memoryCapacity) recorder input).state = recorder.told step := by
  fun_induction feed r (Listener.patient memoryCapacity) recorder input with
  | case1 r recorder input reading less ih =>
    obtain ⟨first, yields⟩ := read_yields false capacity memoryCapacity recorder input sound
    obtain ⟨second, comes, reader, state⟩ := ih yields.sound yields.more
    refine ⟨first.append second, (Comes.ofReading yields waits).trans (yields.reader ▸ comes),
      reader, ?_⟩
    rw [state, yields.state, Recorder.told_told]
  | case2 r recorder input reading =>
    -- No progress: what is left comes after the message, or there is nothing left.
    obtain ⟨step, yields⟩ := read_yields false capacity memoryCapacity recorder input sound
    have comes := Comes.ofReading yields waits
    refine ⟨step, ?_, yields.reader, yields.state⟩
    rcases yields.finished with done | none
    · exact comes.finished (yields.reader ▸ done)
    · rwa [none] at comes

/-- Whatever the fragments, they come to what they come to one after the other in turns that do not
look ahead. -/
theorem feedAll_comes (capacity : Nat) (memoryCapacity : Option Nat) (recorder : Recorder)
    (fragments : List Input) (sound : r.Sound) (waits : r.stage ≠ .content 0) :
    ∃ step, Comes false capacity r (r.neatly false capacity (fragments.map List.flatten)) step [] ∧
      (r.feedAll (.patient memoryCapacity) recorder fragments).1 = step.reader ∧
      (r.feedAll (.patient memoryCapacity) recorder fragments).2.1 = recorder.told step := by
  -- On the fragments; the reader between two of them is again sound and waits for octets.
  induction fragments generalizing r recorder with
  | nil => exact ⟨.quiet r, .nil sound waits, rfl, by simp [feedAll]⟩
  | cons fragment rest ih =>
    obtain ⟨first, comes, reader, state⟩ := feed_comes capacity memoryCapacity recorder
      fragment sound waits
    obtain ⟨second, comes', reader', state'⟩ := ih (recorder.told first) comes.sound comes.waits
    rw [feedAll, reader, state]
    refine ⟨first.append second, comes.cons comes' sound, reader', ?_⟩
    rw [← Recorder.told_told, ← state']

end Reader
end HttpStream
