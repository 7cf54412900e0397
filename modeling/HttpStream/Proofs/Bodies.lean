import HttpStream.Proofs.Arrivals
import HttpStream.Proofs.BodyFraming
import HttpStream.Proofs.RawLines

/-! Bodies of a known length, and bodies that end with the connection, are told octet by octet,
whoever listens. The line end ahead of such a body may be read in part where the fields end and in
part where the body begins; none of it is taken for content, and no content for it. -/

set_option autoImplicit false

namespace HttpStream

open Octet

namespace LineEnd

variable (ending : LineEnd) {n : Nat}

theorem length_wire : ending.wire.length = ending.crs + 1 := by simp [wire]

theorem getElem?_wire (within : n ≤ ending.crs) (more : Bytes) :
    (ending.wire ++ more)[n]? = some (if n < ending.crs then cr else lf) := by
  rw [List.getElem?_append_left (by rw [length_wire]; omega), wire]
  split
  · next less =>
    rw [List.getElem?_append_left (by simpa using less), List.getElem?_replicate, if_pos less]
  · next last =>
    obtain rfl : n = ending.crs := by omega
    rw [List.getElem?_append_right (by simp)]
    simp

end LineEnd

def Event.IsEarly (event : Event) : Prop :=
  event ≠ .headerComplete ∧ event ≠ .messageComplete ∧ ∀ bytes, event ≠ .content bytes

namespace Reader

variable {r s t : Reader} {b : UInt8} {capacity n k : Nat} {tail bytes body : Bytes}
  {later : Input} {ending : LineEnd}

/-! The blank line. -/

/-- Behind `n` octets of a line end: it goes on, or is over. -/
structure EndsLine (ending : LineEnd) (n : Nat) (s : Reader) : Prop where
  within : n ≤ ending.crs + 1
  afterCr : s.afterCr = decide (n ≤ ending.crs)

namespace EndsLine

theorem octet (h : EndsLine ending n s) (goes : n ≤ ending.crs)
    (found : (ending.wire ++ body)[n]? = some b) :
    s.isLineRest b = true ∧ ∀ t : Reader, EndsLine ending (n + 1) (t.endLine b) := by
  rw [ending.getElem?_wire goes body] at found
  have afterCr : s.afterCr = true := by simpa [goes] using h.afterCr
  cases found
  refine ⟨?_, fun t => ⟨by omega, ?_⟩⟩
  · rw [isLineRest, afterCr]
    split <;> rfl
  · rw [endLine]
    split
    · next less => exact (decide_eq_true (show n + 1 ≤ ending.crs by omega)).symm
    · next last => exact (decide_eq_false (show ¬n + 1 ≤ ending.crs by omega)).symm

theorem drain (h : EndsLine ending n s)
    (follows : bytes <+: (ending.wire ++ body).drop n) (drained : s.drain bytes = (t, k)) :
    EndsLine ending (n + k) t := by
  -- On the octets. Behind the LF none of them belongs to the line end.
  induction bytes generalizing n s t k with
  | nil =>
    cases drained
    exact h
  | cons b rest ih =>
    unfold Reader.drain at drained
    split at drained
    · next taken =>
      rw [Bool.and_eq_true] at taken
      obtain ⟨u, m, onward⟩ : ∃ u m, (s.count.endLine b).drain rest = (u, m) := ⟨_, _, rfl⟩
      rw [onward] at drained
      cases drained
      have afterCr : s.afterCr = true := by
        have rest := taken.1
        rw [isLineRest, Bool.and_eq_true] at rest
        exact rest.1
      have goes : n ≤ ending.crs := by simpa [afterCr] using h.afterCr
      obtain ⟨more, whole⟩ := follows
      have found : (ending.wire ++ body)[n]? = some b := by
        rw [← List.head?_drop, ← whole]
        rfl
      have next : rest <+: (ending.wire ++ body).drop (n + 1) := by
        refine ⟨more, ?_⟩
        rw [← List.drop_drop, ← whole]
        rfl
      have last := ih ((h.octet goes found).2 s.count) next onward
      rwa [Nat.add_assoc, Nat.add_comm 1] at last
    · cases drained
      exact h

end EndsLine

theorem Delivery.early {mode : Mode} {pending : Option Field} {events : List Event}
    (h : Delivery mode pending events) : ∀ event ∈ events, Event.IsEarly event := by
  cases h <;> simp [Event.IsEarly]

inductive BlankLine (b : UInt8) : Step → Prop
  | bad {s : Reader} {events : List Event} {fault : Fault}
      (going : .headerComplete ∉ events) :
      BlankLine b { reader := s, events, fault := some fault }
  | body {s : Reader} {front late : List Event} (early : ∀ event ∈ front, Event.IsEarly event)
      (afterCr : s.afterCr = (b == cr)) (outside : s.stage.inHead = false)
      (count : s.contentRead = 0)
      (known : s.framing = .contentLength → late = [] ∧ ∃ length, 0 < length ∧
        s.contentLength = some length ∧ s.stage = .content length)
      (unknown : s.framing = .untilClose → late = [] ∧ s.stage = .untilClose) :
      BlankLine b { reader := s, events := front ++ .headerComplete :: late }

theorem endFields_blankLine (r : Reader) (head : Head) (b : UInt8) (measured : r.Measured)
    {front : List Event} (early : ∀ event ∈ front, Event.IsEarly event) :
    BlankLine b { (r.endLine b).endFields head with
      events := front ++ ((r.endLine b).endFields head).events } := by
  have going : .headerComplete ∉ front := fun member => (early _ member).1 rfl
  unfold endFields
  split
  · exact .bad (by simpa [Step.fail] using going)
  · dsimp only
    split
    · next final =>
      exact .body early rfl rfl rfl (fun length => by cases final.symm.trans length)
        fun _ => ⟨rfl, rfl⟩
    · next final =>
      have positive := measured (finalFraming_eq_contentLength final)
      refine .body early rfl rfl rfl (fun _ => ⟨rfl, r.contentLength.getD 0, positive, ?_, rfl⟩)
        fun waits => by cases final.symm.trans waits
      cases length : r.contentLength with
      | none => simp [length] at positive
      | some length' => exact length
    all_goals
      next final =>
      exact .body early rfl rfl rfl (fun length => by cases final.symm.trans length)
        fun waits => by cases final.symm.trans waits

theorem push_blankLine (capacity : Nat) {head : Head} {pending : Option Field} (sound : r.Sound)
    (at_ : r.stage = .lineStart head pending) (fresh : r.afterCr = false)
    (ended : isLineEnd b = true) : BlankLine b (r.push capacity b) := by
  obtain ⟨plain, notColon⟩ : isBlank b = false ∧ b ≠ colon := by
    rcases (isLineEnd_iff b).mp ended with rfl | rfl <;> decide
  have fresh' : r.count.isLineRest b = false := by simp [isLineRest, count, fresh]
  unfold push
  rw [at_]
  simp only [Stage.isCounted, Stage.inHead, Bool.true_or, if_true]
  split
  · exact .bad (List.not_mem_nil)
  · simp only [accept, fresh', Bool.false_eq_true, if_false]
    have stage : r.count.stage = .lineStart head pending := at_
    simp only [interpret, stage, pushLineStart, plain, notColon, decide_false, Bool.or_self,
      Bool.false_eq_true, if_false]
    split
    · exact .bad (List.not_mem_nil)
    · next flushed after events delivered =>
      obtain ⟨_, measured, _, delivery⟩ := flush_ok delivered
      rw [if_pos ended]
      exact endFields_blankLine flushed after b (measured sound.measured) delivery.early

inductive BlankLineTurn (ending : LineEnd) (b : UInt8) : Turn → Prop
  | bad {s : Reader} {events : List Event} {fault : Fault}
      (going : .headerComplete ∉ events) :
      BlankLineTurn ending b { step := { reader := s, events, fault := some fault } }
  | body {s : Reader} {n : Nat} {front late : List Event}
      (early : ∀ event ∈ front, Event.IsEarly event) (ends : EndsLine ending (1 + n) s)
      (outside : s.stage.inHead = false) (count : s.contentRead = 0)
      (known : s.framing = .contentLength → late = [] ∧ ∃ length, 0 < length ∧
        s.contentLength = some length ∧ s.stage = .content length)
      (unknown : s.framing = .untilClose → late = [] ∧ s.stage = .untilClose) :
      BlankLineTurn ending b
        { step := { reader := s, events := front ++ .headerComplete :: late }, extra := n }

theorem turn_blankLine {head : Head} {pending : Option Field} (sound : r.Sound)
    (at_ : r.stage = .lineStart head pending) (fresh : r.afterCr = false)
    (follows : b :: (tail :: later).flatten <+: ending.wire ++ body) :
    BlankLineTurn ending b (r.turn capacity b tail later) := by
  have first : (ending.wire ++ body)[0]? = some b := by
    obtain ⟨more, whole⟩ := follows
    rw [← whole]
    rfl
  rw [ending.getElem?_wire (Nat.zero_le _)] at first
  have ended : isLineEnd b = true := by
    cases first
    split <;> rfl
  have notRest : r.isLineRest b = false := by simp [isLineRest, fresh]
  -- One octet of the line end is read as such; the turn then drains what it has of the others.
  have begins (s : Reader) (afterCr : s.afterCr = (b == cr)) : EndsLine ending 1 s := by
    refine ⟨by omega, ?_⟩
    cases first
    rw [afterCr]
    split
    · next less => exact (decide_eq_true (show 1 ≤ ending.crs by omega)).symm
    · next none => exact (decide_eq_false (show ¬1 ≤ ending.crs by omega)).symm
  unfold turn
  split
  · next ahead => exact absurd ahead (by simp [startAhead?, at_])
  · split
    · next found => exact absurd found (by simp [slice?, notRest, Reader.room, at_])
    · have blank := push_blankLine capacity sound at_ fresh ended
      simp only
      generalize r.push capacity b = step at blank
      cases blank with
      | bad going => exact .bad going
      | @body s front late early afterCr outside count known unknown =>
        obtain ⟨t, k, drained⟩ : ∃ t k, s.drain (tail :: later).flatten = (t, k) := ⟨_, _, rfl⟩
        have next : (tail :: later).flatten <+: (ending.wire ++ body).drop 1 := by
          obtain ⟨more, whole⟩ := follows
          exact ⟨more, by rw [← whole]; rfl⟩
        have ends := (begins s afterCr).drain next drained
        simp only [notRest, Bool.false_eq_true, if_false, extend, at_]
        obtain ⟨_, headerBytes, _, rfl⟩ := drain_frame drained
        split
        · next stage => rw [stage] at outside; cases outside
        · next stage => rw [stage] at outside; cases outside
        · rw [Turn.further, drained]
          exact .body early ends outside count known unknown

/-! The body. -/

/-- In a body that is not in chunks, behind `n` octets of the whole, with these slices told. -/
structure Fills (ending : LineEnd) (whole : Input) (n : Nat) (s : Reader) (slices : List Bytes) :
    Prop where
  afterCr : s.afterCr = decide (n ≤ ending.crs)
  place : n ≤ ending.crs ∧ slices = [] ∨ n = ending.wire.length + slices.flatten.length
  told : slices.flatten <+: whole.flatten.drop ending.wire.length
  pieces : ∀ before slice after, slices = before ++ slice :: after → slice ≠ [] ∧
    slice <+: Input.active (Input.drop (ending.wire.length + before.flatten.length) whole)
  count : s.contentRead = slices.flatten.length
  measure : s.framing = .untilClose ∧ s.stage = .untilClose ∨
    s.framing = .contentLength ∧ ∃ length, s.contentLength = some length ∧ 0 < length ∧
      (s.stage = .content (length - slices.flatten.length) ∧ slices.flatten.length ≤ length ∨
        s.stage = .done ∧ slices.flatten.length = length)

theorem turn_lineRest (outside : s.stage.inHead = false) (uncounted : s.stage.isCounted = false)
    (rest : s.isLineRest b = true) :
    s.turn capacity b tail later = { step := .quiet (s.endLine b) } := by
  have pushed : s.push capacity b = .quiet (s.endLine b) := by
    simp [push, uncounted, accept, rest]
  unfold turn
  split
  · next ahead => cases outside.symm.trans (startAhead?_inHead ahead)
  · split
    · next found => simp [slice?, rest] at found
    · simp only [pushed, Step.quiet, rest, if_true]

theorem turn_slice (outside : s.stage.inHead = false) (found : s.slice? b tail = some bytes) :
    s.turn capacity b tail later =
      { step := { s with afterCr := false }.deliver bytes, extra := bytes.length - 1 } := by
  unfold turn
  split
  · next ahead => cases outside.symm.trans (startAhead?_inHead ahead)
  · rw [found]

namespace Fills

variable {whole more : Input} {slices : List Bytes}

theorem start (ends : EndsLine ending n s) (count : s.contentRead = 0)
    (measure : s.framing = .untilClose ∧ s.stage = .untilClose ∨
      s.framing = .contentLength ∧ ∃ length, 0 < length ∧ s.contentLength = some length ∧
        s.stage = .content length) : Fills ending whole n s [] where
  afterCr := ends.afterCr
  place := by
    have within := ends.within
    have size := ending.length_wire
    by_cases goes : n ≤ ending.crs
    · exact .inl ⟨goes, rfl⟩
    · exact .inr (by rw [size, List.flatten_nil, List.length_nil]; omega)
  told := List.nil_prefix
  pieces _ _ _ split := by simp at split
  count := count
  measure := by
    rcases measure with waits | ⟨framing, length, positive, known, stage⟩
    · exact .inl waits
    · exact .inr ⟨framing, length, known, positive, .inl ⟨stage, Nat.zero_le _⟩⟩

theorem room (h : Fills ending whole n s slices) (reads : s.Reads) :
    s.stage.inBody = true ∧ s.stage.isCounted = false ∧ s.room ≠ .none := by
  rcases h.measure with ⟨_, stage⟩ | ⟨_, length, _, _, ⟨stage, _⟩ | ⟨done, _⟩⟩
  · simp [stage, Stage.inBody, Stage.isCounted, Stage.inHead, Reader.room]
  · have positive : 0 < length - slices.flatten.length := by
      refine Nat.pos_of_ne_zero fun full => reads.notFull ?_
      rw [stage, full]
    simp only [stage, Reader.room, positive, if_true]
    exact ⟨rfl, rfl, by rintro ⟨⟩⟩
  · exact absurd done reads.notDone

theorem slice (h : Fills ending whole n s slices) (goes : ¬n ≤ ending.crs)
    (found : (whole.drop n).next? = some (b, tail, later)) (slice : s.slice? b tail = some bytes) :
    Fills ending whole (n + bytes.length) ({ s with afterCr := false }.deliver bytes).reader
      (slices ++ [bytes]) := by
  obtain ⟨k, short, rfl, fresh, room⟩ := slice?_eq_some slice
  have place : n = ending.wire.length + slices.flatten.length :=
    h.place.resolve_left fun early => goes early.1
  have length : (slices ++ [b :: tail.take k]).flatten.length =
      slices.flatten.length + (b :: tail.take k).length := by simp
  have active : Input.active (whole.drop n) = b :: tail := Input.active_of_next? found
  have taken : b :: tail.take k <+: b :: tail :=
    (List.prefix_cons_inj b).mpr (List.take_prefix k _)
  constructor
  · have past : ¬n + (b :: tail.take k).length ≤ ending.crs := by omega
    rw [decide_eq_false past]
    rfl
  · exact .inr (by rw [length]; omega)
  · obtain ⟨left, told⟩ := h.told
    have rest : left = b :: (tail :: later).flatten := by
      rw [← Input.flatten_of_next? found, Input.flatten_drop, place, ← List.drop_drop, ← told,
        List.drop_left]
    obtain ⟨more, split⟩ := taken
    refine ⟨more ++ later.flatten, ?_⟩
    rw [← told, rest, List.flatten_cons, ← List.cons_append, ← split]
    simp
  · -- The new slice is the last one, and what holds of the others held before it.
    intro before last after split
    rcases after.eq_nil_or_concat with rfl | ⟨after, x, rfl⟩
    · obtain ⟨rfl, same⟩ := List.append_inj' split rfl
      cases same
      exact ⟨nofun, by rwa [← place, active]⟩
    · refine h.pieces before last after ?_
      have split : slices ++ [b :: tail.take k] = (before ++ last :: after) ++ [x] := by
        simpa using split
      exact (List.append_inj' split rfl).1
  · rw [length, ← h.count]
    rfl
  · have size : (b :: tail.take k).length = k + 1 := by simp [short]
    rcases h.measure with ⟨framing, stage⟩ | ⟨framing, total, known, positive, ⟨stage, within⟩ |
      ⟨done, _⟩⟩
    · exact .inl ⟨framing, by simp [Reader.deliver, enter, stage]⟩
    · have room : k + 1 ≤ total - slices.flatten.length := by
        simp only [Reader.room, stage] at room
        split at room
        · exact room
        · cases room
      refine .inr ⟨framing, total, known, positive, .inl ⟨?_, by omega⟩⟩
      simp only [Reader.deliver, enter, stage, length, Nat.sub_sub]
    · simp [Reader.room, done, Room.Allows] at room

theorem turn (capacity : Nat) (later : Input) (h : Fills ending whole n s slices) (reads : s.Reads)
    (follows : whole.flatten <+: ending.wire ++ body) {behind : Input}
    (found : (whole.drop n).next? = some (b, tail, behind)) :
    (s.turn capacity b tail later = { step := .quiet (s.endLine b) } ∧
      Fills ending whole (n + 1) (s.endLine b) slices) ∨
    ∃ bytes, bytes ≠ [] ∧ s.turn capacity b tail later =
        { step := { s with afterCr := false }.deliver bytes, extra := bytes.length - 1 } ∧
      Fills ending whole (n + bytes.length) ({ s with afterCr := false }.deliver bytes).reader
        (slices ++ [bytes]) := by
  obtain ⟨inBody, uncounted, room⟩ := h.room reads
  have outside := Stage.inHead_of_inBody inBody
  -- Up to the end of the blank line octets are taken one by one, behind it by slices.
  by_cases goes : n ≤ ending.crs
  · have octet : (ending.wire ++ body)[n]? = some b := by
      obtain ⟨more, stream⟩ := follows
      have here : whole.flatten[n]? = some b := by
        rw [← List.head?_drop, ← Input.flatten_drop, Input.flatten_of_next? found, List.head?_cons]
      have within := (List.getElem?_eq_some_iff.mp here).1
      rwa [← stream, List.getElem?_append_left within]
    obtain ⟨rest, onward⟩ := EndsLine.octet ⟨by omega, h.afterCr⟩ goes octet
    obtain ⟨within, afterCr⟩ := onward s
    have none : slices = [] := by
      rcases h.place with ⟨_, none⟩ | past
      · exact none
      · have size := ending.length_wire
        omega
    refine .inl ⟨turn_lineRest outside uncounted rest, afterCr, ?_, h.told, h.pieces, h.count,
      h.measure⟩
    by_cases last : n + 1 ≤ ending.crs
    · exact .inl ⟨last, none⟩
    · rw [none, ending.length_wire]
      exact .inr (by simp; omega)
  · have fresh : s.isLineRest b = false := by
      rw [isLineRest, h.afterCr, decide_eq_false goes]
      rfl
    obtain ⟨bytes, slice⟩ : ∃ bytes, s.slice? b tail = some bytes := by
      unfold slice?
      rw [if_neg (by simp [fresh])]
      split
      · next none => exact absurd none room
      · exact ⟨_, rfl⟩
      · exact ⟨_, rfl⟩
    obtain ⟨_, _, nonempty, _⟩ := slice?_eq_some slice
    exact .inr ⟨bytes, by simp [nonempty], turn_slice outside slice,
      h.slice goes found slice⟩

theorem all (h : Fills ending whole n s slices) (none : whole.flatten.drop n = []) :
    slices.flatten = whole.flatten.drop ending.wire.length := by
  rcases h.place with ⟨early, rfl⟩ | place
  · have size := ending.length_wire
    have short := List.drop_eq_nil_iff.mp none
    exact (List.drop_eq_nil_of_le (by omega)).symm
  · obtain ⟨left, told⟩ := h.told
    rw [place, ← List.drop_drop, ← told, List.drop_left] at none
    rw [← told, none, List.append_nil]

theorem between (h : Fills ending whole n s slices)
    (follows : whole.flatten <+: ending.wire ++ body)
    (within : n ≤ whole.flatten.length) (begun : slices ≠ []) :
    whole.flatten = ending.wire ++ slices.flatten ++ whole.flatten.drop n := by
  have place : n = ending.wire.length + slices.flatten.length :=
    h.place.resolve_left fun early => begun early.2
  have line : whole.flatten.take ending.wire.length = ending.wire := by
    obtain ⟨more, stream⟩ := follows
    have within : ending.wire.length ≤ whole.flatten.length := by omega
    calc whole.flatten.take ending.wire.length
        = (whole.flatten ++ more).take ending.wire.length :=
          (List.take_append_of_le_length within).symm
      _ = ending.wire := by rw [stream, List.take_left]
  obtain ⟨left, told⟩ := h.told
  calc whole.flatten
      = ending.wire ++ whole.flatten.drop ending.wire.length := by
        rw [← line, List.length_take, Nat.min_eq_left (by omega), List.take_append_drop]
    _ = ending.wire ++ slices.flatten ++ whole.flatten.drop n := by
        rw [List.append_assoc, place, ← List.drop_drop, ← told, List.drop_left]

theorem complete (h : Fills ending whole n s slices) (full : s.stage = .content 0) :
    Fills ending whole n (s.enter .done) slices := by
  refine ⟨h.afterCr, h.place, h.told, h.pieces, h.count, ?_⟩
  rcases h.measure with ⟨_, stage⟩ | ⟨framing, length, known, positive, ⟨stage, within⟩ | ⟨done, _⟩⟩
  · cases full.symm.trans stage
  · have spent : length - slices.flatten.length = 0 := by
      have same := full.symm.trans stage
      simpa using same.symm
    exact .inr ⟨framing, length, known, positive, .inr ⟨rfl, by omega⟩⟩
  · cases full.symm.trans done

end Fills

/-- What a reader has told, and where it stands, that began at a blank line with nothing told:
`n` octets of the whole are behind it. -/
inductive Stands (r : Reader) (ending : LineEnd) (whole : Input) : Nat → Reader → List Event → Prop
  | ahead : Stands r ending whole 0 r []
  | bad {n : Nat} {s : Reader} {events : List Event} (closed : s.stage = .closed)
      (going : .headerComplete ∉ events) : Stands r ending whole n s events
  | other {n : Nat} {s : Reader} {events : List Event} (outside : s.stage.inHead = false)
      (framing : s.framing ≠ .contentLength ∧ s.framing ≠ .untilClose) :
      Stands r ending whole n s events
  | fills {n : Nat} {s : Reader} {front : List Event} {slices : List Bytes}
      (early : ∀ event ∈ front, Event.IsEarly event) (fills : Fills ending whole n s slices) :
      Stands r ending whole n s (front ++ .headerComplete :: (slices.map .content ++
        if s.stage = .done then [.messageComplete] else []))

namespace Stands

variable {head : Head} {pending : Option Field} {whole more : Input} {events : List Event}

theorem of_blankLine {turn : Turn} (blank : BlankLineTurn ending b turn) :
    (turn.step.fault = none →
      r.Stands ending whole (1 + turn.extra) turn.step.reader turn.step.events) ∧
      ∀ fault, turn.step.fault = some fault →
        r.Stands ending whole 1 (turn.step.reader.enter .closed) turn.step.events := by
  cases blank with
  | bad going => exact ⟨by rintro ⟨⟩, fun _ _ => .bad rfl going⟩
  | @body s k front late early ends outside count known unknown =>
    refine ⟨fun _ => ?_, by rintro _ ⟨⟩⟩
    by_cases length : s.framing = .contentLength
    · obtain ⟨rfl, total, positive, same, stage⟩ := known length
      have fills : Fills ending whole (1 + k) s [] :=
        .start ends count (.inr ⟨length, total, positive, same, stage⟩)
      have next := Stands.fills (r := r) early fills
      simpa [stage] using next
    · by_cases waits : s.framing = .untilClose
      · obtain ⟨rfl, stage⟩ := unknown waits
        have fills : Fills ending whole (1 + k) s [] := .start ends count (.inl ⟨waits, stage⟩)
        have next := Stands.fills (r := r) early fills
        simpa [stage] using next
      · exact .other outside ⟨length, waits⟩

theorem of_fills {front : List Event} {slices : List Bytes}
    (early : ∀ event ∈ front, Event.IsEarly event) (fills : Fills ending whole n s slices)
    (reads : s.Reads) (follows : whole.flatten <+: ending.wire ++ body)
    (found : (whole.drop n).next? = some (b, tail, later ++ more)) :
    let turn := s.turn capacity b tail later
    turn.step.fault = none ∧ r.Stands ending whole (n + 1 + turn.extra) turn.step.reader
      (front ++ .headerComplete :: (slices.map .content ++ turn.step.events)) := by
  have onward {t : Reader} {m : Nat} {slices' : List Bytes} (next : Fills ending whole m t slices')
      (busy : t.stage ≠ .done) :
      r.Stands ending whole m t (front ++ .headerComplete :: slices'.map .content) := by
    have told := Stands.fills (r := r) early next
    rwa [if_neg busy, List.append_nil] at told
  intro turn
  rcases fills.turn capacity later reads follows found with
    ⟨turns, next⟩ | ⟨bytes, nonempty, turns, next⟩
  · have told := onward next (show (s.endLine b).stage ≠ .done from reads.notDone)
    simp only [turn, turns]
    exact ⟨rfl, by simpa [Step.quiet] using told⟩
  · have size : n + 1 + (bytes.length - 1) = n + bytes.length := by
      have positive := List.length_pos_iff.mpr nonempty
      omega
    have inBody : ({ s with afterCr := false } : Reader).stage.inBody = true :=
      (fills.room reads).1
    have told := onward next fun done => by
      have body := deliver_inBody inBody bytes
      rw [done] at body
      cases body
    simp only [turn, turns, size]
    exact ⟨rfl, by simpa [Reader.deliver] using told⟩

theorem turned (h : r.Stands ending whole n s events) (at_ : r.stage = .lineStart head pending)
    (fresh : r.afterCr = false) (follows : whole.flatten <+: ending.wire ++ body)
    (sound : s.Sound) (reads : s.Reads)
    (found : (whole.drop n).next? = some (b, tail, later ++ more)) :
    let turn := s.turn capacity b tail later
    (turn.step.fault = none →
      r.Stands ending whole (n + 1 + turn.extra) turn.step.reader (events ++ turn.step.events)) ∧
      ∀ fault, turn.step.fault = some fault →
        r.Stands ending whole (n + 1) (turn.step.reader.enter .closed)
          (events ++ turn.step.events) := by
  intro turn
  cases h with
  | ahead =>
    have octets : whole.flatten = b :: (tail :: later).flatten ++ more.flatten := by
      have all := Input.flatten_of_next? found
      rw [Input.flatten_drop, List.drop_zero] at all
      simpa using all
    have blank : BlankLineTurn ending b turn :=
      turn_blankLine sound at_ fresh ((List.prefix_append _ _).trans (octets ▸ follows))
    rw [Nat.zero_add, List.nil_append]
    exact of_blankLine blank
  | bad closed => exact absurd closed reads.notClosed
  -- Once the fields are over, the framing that excludes such a body stays.
  | other outside framing =>
    have kept : s.Keeps turn.step.reader :=
      (turn_cases sound).keepsFraming sound ⟨outside, rfl, rfl⟩
    have same := kept.framing
    exact ⟨fun _ => .other kept.outside (same ▸ framing),
      fun _ _ => .other rfl (by rw [← same] at framing; exact framing)⟩
  | @fills n s front slices early fills =>
    obtain ⟨fine, next⟩ := of_fills (r := r) early fills reads follows found
    have fine : turn.step.fault = none := fine
    refine ⟨fun _ => ?_, fun fault wrong => by cases fine.symm.trans wrong⟩
    rw [if_neg reads.notDone]
    simpa using next

theorem completed (h : r.Stands ending whole n s events) (at_ : r.stage = .lineStart head pending)
    (full : s.stage = .content 0) :
    r.Stands ending whole n (s.enter .done) (events ++ [.messageComplete]) := by
  cases h with
  | ahead => cases full.symm.trans at_
  | bad closed => cases full.symm.trans closed
  | other outside framing => exact .other rfl framing
  | @fills n s front slices early fills =>
    have next := Stands.fills (r := r) early (fills.complete full)
    rw [if_neg (by rw [full]; nofun)]
    simpa using next

/-- What a message with a body that is not in chunks was told to be. -/
theorem account (h : r.Stands ending whole n s events) (past : .headerComplete ∈ events)
    (framed : s.framing = .contentLength ∨ s.framing = .untilClose) :
    ∃ (front : List Event) (slices : List Bytes),
      events = front ++ .headerComplete :: (slices.map .content ++
        if s.stage = .done then [.messageComplete] else []) ∧
      (∀ event ∈ front, event.IsEarly) ∧ Fills ending whole n s slices := by
  cases h with
  | ahead => cases past
  | bad _ going => exact absurd past going
  | other _ framing => exact absurd framed (not_or.mpr framing)
  | fills early fills => exact ⟨_, _, rfl, early, fills⟩

end Stands

section Readings

variable {σ : Type} (listener : Listener σ) {whole : Input} (cut : Input → Prop)

theorem stands_carries {head : Head} {pending : Option Field}
    (at_ : r.stage = .lineStart head pending) (fresh : r.afterCr = false)
    (follows : whole.flatten <+: ending.wire ++ body) :
    Carries (listener.logged true) whole cut fun n s (state : σ × List Entry) =>
      r.Stands ending whole n s (heard state.2) where
  turned {n s state b tail later more} h here reads _ found := by
    intro turn told
    have tells : heard told.2 = heard state.2 ++ turn.step.events := by
      simp only [told, hear_logged, heard_append, heard_told]
    have refuses (fault : Fault) :
        heard ((listener.logged true).reject told fault).2 = heard told.2 := heard_rejected ..
    simp only [refuses, tells]
    exact h.turned at_ fresh follows here reads found
  completed {n s state} h full := by
    have tells : heard (((listener.logged true).notify state .messageComplete).1).2 =
        heard state.2 ++ [.messageComplete] := by
      simp [Listener.logged, heard]
    rw [tells]
    exact h.completed at_ full

/-- A reading that is not stopped does not leave a body of known length that was all told. -/
theorem read_settles {listener : Listener σ} {state : σ} {input : Input}
    (goes : (r.read listener state input).stopped = false) :
    (r.read listener state input).reader.stage ≠ .content 0 := by
  fun_induction Reader.read r listener state input with
  | case1 r _ _ done => simp [done]
  | case2 r _ _ closed => simp [closed]
  | case3 => rintro ⟨⟩
  | case4 r _ _ _ _ _ open_ => exact open_
  | case5 => rintro ⟨⟩
  | case6 => cases goes
  | case7 _ _ _ _ _ _ _ _ _ _ _ _ _ _ _ _ _ ih => exact ih goes

theorem readAll_settles {listener : Listener σ} {state : σ} {input : Input} {arrivals : List Input}
    (goes : (r.readAll listener state input arrivals).stopped = false) :
    (r.readAll listener state input arrivals).reader.stage ≠ .content 0 := by
  induction arrivals generalizing r state input with
  | nil => exact read_settles goes
  | cons arrival later ih => exact ih goes

structure Conveys (ending : LineEnd) (whole : Input) (reading : Reading σ) (slices : List Bytes) :
    Prop where
  pieces : ∀ before slice after, slices = before ++ slice :: after → slice ≠ [] ∧
    slice <+: Input.active (Input.drop (ending.wire.length + before.flatten.length) whole)
  told : slices.flatten <+: whole.flatten.drop ending.wire.length
  left : slices ≠ [] → whole.flatten = ending.wire ++ slices.flatten ++ reading.rest.flatten
  count : reading.reader.contentRead = slices.flatten.length
  contentLength : reading.reader.framing = .contentLength → ∃ length,
    reading.reader.contentLength = some length ∧ slices.flatten.length ≤ length ∧
      (reading.reader.stage = .done → slices ≠ [] ∧ slices.flatten.length = length) ∧
      (reading.stopped = false →
        slices.flatten = (whole.flatten.drop ending.wire.length).take length ∧
          (slices.flatten.length = length → reading.reader.stage = .done))
  untilClose : reading.reader.framing = .untilClose → reading.reader.stage ≠ .done ∧
    (reading.stopped = false → slices.flatten = whole.flatten.drop ending.wire.length)

/-- Whoever listens, on a connection with any past: a body of known length, or one that ends with
the connection, is told octet by octet from behind the blank line ahead of it, wherever the octets
were cut; one of known length up to its length, at which the message is over. -/
theorem readAll_body {τ : Type} (mode : Mode) (settings : Settings) (early : Listener τ) (first : τ)
    (before : List Call) (m : Moment) (state : σ) (head : Head) (pending : Option Field)
    (ending : LineEnd) (body : Bytes) (arrivals : List Input)
    (reached : m ∈ Moment.answers { reader := { mode, settings } } early first before)
    (at_ : m.reader.stage = .lineStart head pending) (fresh : m.reader.afterCr = false)
    (arrived : (m.input ++ arrivals.flatten).flatten <+: ending.wire ++ body) :
    let whole := m.input ++ arrivals.flatten
    let reading := m.reader.readAll (listener.logged true) (state, []) m.input arrivals
    let told := heard reading.state.2
    .headerComplete ∈ told →
      reading.reader.framing = .contentLength ∨ reading.reader.framing = .untilClose →
      ∃ (front : List Event) (slices : List Bytes),
        told = front ++ .headerComplete :: (slices.map .content ++
          if reading.reader.stage = .done then [.messageComplete] else []) ∧
        (∀ event ∈ front, event.IsEarly) ∧ Conveys ending whole reading slices := by
  intro whole reading told past framed
  obtain ⟨_, good⟩ := Moment.good_of_answers reached
  have start : m.reader.Stands ending whole 0 m.reader (heard (state, ([] : List Entry)).2) :=
    .ahead
  obtain ⟨n, stands, ends⟩ := (stands_carries listener (fun _ => True) at_ fresh arrived).reaches
    good.sound (fun _ => trivial) start
  obtain ⟨front, slices, same, ahead, fills⟩ := stands.account past framed
  have open_ : reading.reader.stage ≠ .closed := fun closed => by
    rcases fills.measure with ⟨_, stage⟩ | ⟨_, _, _, _, ⟨stage, _⟩ | ⟨stage, _⟩⟩ <;>
      cases closed.symm.trans stage
  have remains := ends.resolve_left open_
  -- A reading that was not stopped leaves nothing, if the message is not over.
  have spent (goes : reading.stopped = false) (busy : reading.reader.stage ≠ .done) :
      slices.flatten = whole.flatten.drop ending.wire.length := by
    have none := (readAll_finished goes).resolve_left busy
    rw [remains.flatten] at none
    exact fills.all none
  refine ⟨front, slices, same, ahead, fills.pieces, fills.told, fun begun => ?_, fills.count, ?_,
    ?_⟩
  · rw [remains.flatten]
    exact fills.between arrived remains.within begun
  · intro framing
    rcases fills.measure with ⟨waits, _⟩ | ⟨_, length, known, positive, stage⟩
    · cases framing.symm.trans waits
    · refine ⟨length, known, ?_⟩
      rcases stage with ⟨stage, within⟩ | ⟨done, full⟩
      · refine ⟨within, fun done => (by cases done.symm.trans stage), fun goes => ?_⟩
        have all := spent goes fun done => by cases done.symm.trans stage
        refine ⟨by rw [← all, List.take_of_length_le within], fun full => ?_⟩
        have settled := readAll_settles goes
        rw [stage, full, Nat.sub_self] at settled
        exact absurd rfl settled
      · refine ⟨Nat.le_of_eq full, fun _ => ⟨?_, full⟩, fun _ => ⟨?_, fun _ => done⟩⟩
        · rintro rfl
          simp at full
          omega
        · have told := List.prefix_iff_eq_take.mp fills.told
          rwa [full] at told
  · intro waits
    have stage : reading.reader.stage = .untilClose := by
      rcases fills.measure with ⟨_, stage⟩ | ⟨framing, _⟩
      · exact stage
      · cases waits.symm.trans framing
    have busy : reading.reader.stage ≠ .done := by rw [stage]; nofun
    exact ⟨busy, fun goes => spent goes busy⟩

end Readings

/-- A body that begins with a line end, after one that is cut at every place, for a listener that
asks to stop again and again. -/
theorem readAll_body_of_lineEnd :
    let calls : List Call :=
      [.read [Text.toBytes "HTTP/1.1 200 OK\nContent-Length: 3\n\r".toList]]
    let moments :=
      Moment.answers { reader := { mode := .response } } (Recorder.listener {}) {} calls
    let listener := Recorder.listener { stopOn := [.headerComplete, .content] }
    let arrivals : List Input := [[[cr]], [[lf, cr], [lf]], [[0x58, lf]], []]
    ∃ m ∈ moments, m.reader.stage = .lineStart (.response 200) (some
        ⟨some .contentLength, "Content-Length".toList, "3".toList, false⟩) ∧
      m.reader.afterCr = false ∧
      (m.input ++ arrivals.flatten).flatten <+: LineEnd.wire ⟨2⟩ ++ [cr, lf, 0x58, lf] ∧
      let reading := m.reader.readAll (listener.logged true) ({}, []) m.input arrivals
      let told := heard reading.state.2
      .headerComplete ∈ told ∧ reading.reader.framing = .contentLength ∧
        ∃ (front : List Event) (slices : List Bytes),
          told = front ++ .headerComplete :: (slices.map .content ++
            if reading.reader.stage = .done then [.messageComplete] else []) ∧
          (∀ event ∈ front, event.IsEarly) ∧
          Conveys ⟨2⟩ (m.input ++ arrivals.flatten) reading slices := by
  intro calls moments listener arrivals
  let m := moments[13]?.getD { reader := { mode := .response } }
  let reading := m.reader.readAll (listener.logged true) ({}, []) m.input arrivals
  obtain ⟨long, at_, fresh, arrived, past, framing⟩ : moments[13]?.isSome = true ∧
      m.reader.stage = .lineStart (.response 200) (some
        ⟨some .contentLength, "Content-Length".toList, "3".toList, false⟩) ∧
      m.reader.afterCr = false ∧
      (m.input ++ arrivals.flatten).flatten <+: LineEnd.wire ⟨2⟩ ++ [cr, lf, 0x58, lf] ∧
      .headerComplete ∈ heard reading.state.2 ∧ reading.reader.framing = .contentLength := by
    decide +kernel
  have member : m ∈ moments := by
    obtain ⟨_, found⟩ := Option.isSome_iff_exists.mp long
    simp only [m, found, Option.getD_some]
    exact List.mem_of_getElem? found
  exact ⟨m, member, at_, fresh, arrived, past, framing,
    readAll_body listener .response {} (Recorder.listener {}) {} calls m {} _ _ ⟨2⟩ _ arrivals
      member at_ fresh arrived past (.inl framing)⟩

end Reader
end HttpStream
