import HttpStream.Proofs.Agreement
import HttpStream.Proofs.Counting
import HttpStream.Proofs.Framed
import HttpStream.Proofs.Progress
import Mathlib.Algebra.GroupWithZero.Nat

/-! At every moment of a connection the parts of a reader fit together, and whatever comes next is
in range: no text is cut inside a character or past its end, no difference is negative, no number
overflows, no segment is looked into that has no octet, and no loop is without a case. -/

set_option autoImplicit false

namespace HttpStream

open Octet

namespace Input

theorem size_of_active {input : Input} (none : active input = []) : input.size = 0 := by
  fun_induction active input with
  | case1 => rfl
  | case2 later ih => simpa using ih none
  | case3 => cases none

end Input

def Stage.isMarked : Stage → Bool
  | .reason _ _ _ | .fieldName _ _ | .fieldValue _ _ _ _ _ _ => true
  | _ => false

def Reader.found (r : Reader) (cache : Recall) (window : Bytes) : List Nat :=
  match r.stage, r.mode with
  | .start, .request => ((Method.atFront? window).map Prod.fst).toList
  | .start, .response | .afterUri _, _ => ((Version.atFront? window).map Prod.fst).toList
  | .lineStart _ _, _ =>
    (((cache.best? window).or (FieldLine.atFront? window)).map Prod.fst).toList ++
      ((StandardName.atFront? window).map Prod.fst).toList
  | _, _ => []

namespace Moment

/-- The parts of a reader fit together. -/
structure Coherent (m : Moment) : Prop where
  framing : ∀ framing ∈ m.reader.stage.framing?, m.reader.framing = framing
  content : ∀ remaining, m.reader.stage = .content remaining → ∃ length,
    m.reader.contentLength = some length ∧ 0 < length ∧ m.reader.contentRead + remaining = length
  chunk : ∀ remaining, m.reader.stage = .chunkData remaining →
    m.registers.chunkPosition + remaining = m.registers.chunkLength
  untilClose : m.reader.stage = .untilClose → m.reader.mode = .response
  side : ∀ mode ∈ m.reader.stage.side?, mode = m.reader.mode
  limit : m.reader.stage ≠ .closed → ∀ limit ∈ m.reader.settings.limit?,
    m.reader.headerBytes ≤ limit

/-- Whatever comes next is in range. -/
structure InRange (m : Moment) : Prop where
  -- The loop that takes an octet has a case for the stage.
  case : ∀ loop ∈ m.loop.next? m.reader.stage, loop.handles m.reader.stage = true
  -- Where the text is cut, there is the end of a character.
  cut : m.reader.stage.isMarked = true →
    String.Pos.Raw.IsValid m.registers.text ⟨m.registers.length⟩
  -- A known token that is found is not empty and no longer than the segment.
  known : ∀ (capacity : Nat) (b : UInt8) (window : Bytes),
    ∀ length ∈ m.reader.found (m.reader.push capacity b).reader.cache window,
      0 < length ∧ length ≤ window.length
  -- Where octets remain, the segment that is looked into has one.
  segment : ∀ n, 0 < (Input.drop n m.input).size → Input.active (Input.drop n m.input) ≠ []
  -- A slice of the body ends within its segment.
  slice : ∀ b tail bytes, m.reader.slice? b tail = some bytes → bytes.length ≤ tail.length + 1
  -- What is copied of a request target ends within its segment.
  target : ∀ window, (m.reader.scanTarget window).2 ≤ window.length
  taken : ∀ (capacity : Nat) (b : UInt8) (tail : Bytes) (later : Input),
    m.input.next? = some (b, tail, later) →
      (m.reader.turn capacity b tail later).extra < m.input.size
  -- What is left of a chunk is not negative.
  chunk : ∀ remaining, m.reader.stage = .chunkData remaining →
    m.registers.chunkPosition ≤ m.registers.chunkLength
  -- A digit of a status code is added to a 16-bit number.
  status : ∀ version value digits, m.reader.stage = .status version value digits → digits < 3 →
    ∀ b, isDigit b = true → value * 10 + digitValue b < UInt16.size
  -- As far as a chunk has come, and as long as it is, are 64-bit numbers.
  chunkLength : ∀ remaining, m.reader.stage = .chunkData remaining →
    m.registers.chunkLength < UInt64.size
  -- So are the counts, whatever is added to them of the input.
  headerBytes : m.reader.headerBytes + m.registers.discarded + m.input.size < UInt64.size
  contentRead : m.reader.contentRead + m.input.size < UInt64.size

/-- What every moment has in common, if `total` octets are given to the reader up to the end of the
call that is under way. -/
structure Good (m : Moment) (total : Nat) : Prop where
  sound : m.reader.Sound
  framed : m.reader.Framed
  numeric : m.reader.stage.Numeric
  agree : m.registers.Agree m.reader.stage
  inBudget : m.reader.stage ≠ .closed → m.reader.InBudget
  loop : m.loop.order ≤ m.reader.stage.order
  headerBytes : m.reader.headerBytes + m.registers.discarded + m.input.size ≤ total
  contentRead : m.reader.contentRead + m.input.size ≤ total

variable {m : Moment} {total : Nat}

theorem Good.cause (h : m.Good total) (capacity : Nat) (b : UInt8) (tail : Bytes) (later : Input) :
    m.reader.TurnCase capacity b (tail :: later).flatten (m.reader.turn capacity b tail later) :=
  Reader.turn_cases h.sound

theorem Good.coherent (h : m.Good total) : m.Coherent where
  framing := h.framed.framing
  content remaining stage := by
    obtain ⟨length, positive⟩ := h.framed.content remaining stage
    exact ⟨_, length, positive, rfl⟩
  chunk remaining stage := by
    have agree := h.agree
    rw [stage] at agree
    exact agree.1
  untilClose stage := by
    have framing := h.framed.framing .untilClose (by rw [stage]; rfl)
    exact (h.framed.untilClose framing).1
  side := h.sound.side
  limit := h.inBudget

theorem known_of_found {r : Reader} {cache : Recall} (sound : cache.Sound) (window : Bytes) :
    ∀ length ∈ r.found cache window, 0 < length ∧ length ≤ window.length := by
  have listed {α : Type} (found : Option (Nat × α))
      (best : ∀ length token, found = some (length, token) → 0 < length ∧ length ≤ window.length) :
      ∀ length ∈ (found.map Prod.fst).toList, 0 < length ∧ length ≤ window.length := by
    intro length member
    cases found with
    | none => cases member
    | some pair =>
      obtain rfl : length = pair.1 := by simpa using member
      exact best pair.1 pair.2 rfl
  -- A trie never finds the empty key, nor one longer than the input.
  have table {α : Type} (trie : Trie α) :
      ∀ length ∈ ((trie.best? window).map Prod.fst).toList,
        0 < length ∧ length ≤ window.length := by
    apply listed
    intro length token best
    obtain ⟨positive, short, _⟩ := Trie.get?_of_best? best
    exact ⟨positive, short⟩
  unfold Reader.found
  split
  · exact table Method.table
  · exact table Version.table
  · exact table Version.table
  · intro length member
    rcases List.mem_append.mp member with line | name
    · refine listed _ (fun length line best => ?_) length line
      rcases Option.or_eq_some_iff.mp best with remembered | ⟨_, wellKnown⟩
      · obtain ⟨positive, short, _⟩ := sound.spelled_of_best? remembered
        exact ⟨positive, short⟩
      · obtain ⟨positive, short, _⟩ := FieldLine.spelled_of_atFront? wellKnown
        exact ⟨positive, short⟩
    · exact table StandardName.exactTable length name
  · nofun

-- A number is bounded by the octets that came, or by the register that the stage agrees with.
theorem Good.inRange (h : m.Good total) (few : total < 2 ^ 63) : m.InRange where
  case next found := (Loop.handles_of_next? h.loop found).1
  cut marked := by
    have agree := h.agree
    cases stage : m.reader.stage <;> rw [stage] at agree marked <;>
      first | exact agree.1.isValid agree.2 | cases marked
  known capacity b window := known_of_found (h.sound.push capacity b).cache window
  segment n remains none := by
    have empty := Input.size_of_active none
    omega
  slice b tail bytes slice := by
    obtain ⟨n, short, rfl, _⟩ := Reader.slice?_eq_some slice
    simp only [List.length_cons, List.length_take]
    omega
  target window := by
    refine Nat.le_trans (List.takeWhile_prefix _).length_le ?_
    unfold Reader.affordable
    split
    · exact List.length_take_le' _ _
    · exact Nat.le_refl _
  taken capacity b tail later found := by
    rw [Input.size_of_next? found]
    exact Nat.lt_succ_of_le (h.cause capacity b tail later).extra_le
  chunk remaining stage := by
    have agree := h.agree
    rw [stage] at agree
    exact agree.1 ▸ Nat.le_add_right _ _
  status version value digits stage short b digit := by
    have numeric := h.numeric
    rw [stage] at numeric
    have two : 10 ^ digits ≤ 10 ^ 2 := Nat.pow_le_pow_right (by decide) (Nat.le_of_lt_succ short)
    have value := numeric.1
    have small := digitValue_le b digit
    simp only [UInt16.size]
    omega
  chunkLength remaining stage := by
    have agree := h.agree
    rw [stage] at agree
    exact agree.2
  headerBytes := by
    have fed := h.headerBytes
    simp only [UInt64.size]
    omega
  contentRead := by
    have fed := h.contentRead
    simp only [UInt64.size]
    omega

/-! What a turn keeps. -/

theorem deliver_discarded (registers : Registers) (stage : Stage) (n : Nat) :
    (registers.deliver stage n).discarded = registers.discarded := by
  unfold Registers.deliver
  split <;> rfl

theorem interpret_discarded (registers : Registers) (r : Reader) (b : UInt8) :
    (registers.interpret r b).discarded = registers.discarded := by
  unfold Registers.interpret
  simp only [Registers.extend, Registers.beginChunk, Registers.addDigit, Registers.endChunkLine]
  repeat' split
  all_goals first | rfl | exact deliver_discarded registers r.stage 1

/-- Only a reader that is closed discards what it is given. -/
theorem turn_discarded (registers : Registers) (r : Reader) (b : UInt8) (tail : Bytes)
    (turn : Turn) : (registers.turn r b tail turn).discarded = registers.discarded := by
  have opened (registers : Registers) (before after : Stage) :
      (registers.openLine before after).discarded = registers.discarded := by
    unfold Registers.openLine
    split <;> rfl
  unfold Registers.turn
  split
  · rfl
  · split
    · exact deliver_discarded ..
    · split
      · rfl
      · rw [opened, interpret_discarded]

section Turn

variable (capacity : Nat) {b : UInt8} {tail : Bytes} {later : Input} (h : m.Good total)
  (found : m.input.next? = some (b, tail, later))
include h found

theorem Good.next_counts :
    (m.next capacity b tail later).reader.headerBytes +
        (m.next capacity b tail later).registers.discarded +
          (m.next capacity b tail later).input.size ≤ total ∧
      (m.next capacity b tail later).reader.contentRead +
        (m.next capacity b tail later).input.size ≤ total := by
  have cause := h.cause capacity b tail later
  have counts := cause.counts h.sound
  have within : (m.reader.turn capacity b tail later).extra ≤ Input.size (tail :: later) :=
    cause.extra_le
  have size := Input.size_of_next? found
  have header := h.headerBytes
  have content := h.contentRead
  have header' := counts.headerBytes
  have content' := counts.contentRead
  simp only [Moment.next, turn_discarded, Input.size_drop]
  constructor <;> omega

/-- A turn that shows nothing to be wrong keeps all that moments have in common. -/
theorem Good.next (reads : m.reader.Reads)
    (fine : (m.reader.turn capacity b tail later).step.fault = none) :
    (m.next capacity b tail later).Good total := by
  have cause := h.cause capacity b tail later
  have precedes := cause.precedes h.sound
  obtain ⟨headerBytes, contentRead⟩ := h.next_counts capacity found
  refine ⟨cause.sound h.sound, cause.framed h.sound h.framed reads.notFull,
    precedes.numeric h.numeric, Reader.turn_agree h.sound h.agree rfl fine, fun _ =>
      cause.inBudget h.sound (h.inBudget reads.notClosed) fine, ?_, headerBytes, contentRead⟩
  -- The loop that takes the octet is not past its stage, and the turn leads on from there.
  simp only [Moment.next]
  cases taken : m.loop.next? m.reader.stage with
  | none => exact Nat.le_trans h.loop precedes.order
  | some loop => exact Nat.le_trans (Loop.handles_of_next? h.loop taken).2 precedes.order

theorem Good.next_shut (reads : m.reader.Reads) :
    (m.next capacity b tail later).shut.Good total := by
  have cause := h.cause capacity b tail later
  obtain ⟨headerBytes, contentRead⟩ := h.next_counts capacity found
  refine ⟨(cause.sound h.sound).enter_finished (.inr rfl),
    (cause.framed h.sound h.framed reads.notFull).finish (.inr rfl), trivial, trivial,
    fun open_ => absurd rfl open_, ?_, ?_, ?_⟩
  · have order : Stage.order .closed = 3 := rfl
    rw [shut, Reader.enter_stage, order]
    cases (m.next capacity b tail later).loop <;> decide
  · exact Nat.le_trans (Nat.add_le_add_left (Nat.zero_le _) _) headerBytes
  · exact Nat.le_trans (Nat.add_le_add_left (Nat.zero_le _) _) contentRead

end Turn

/-! A reading. -/

variable {σ : Type}

theorem Good.read (h : m.Good total) (listener : Listener σ) (state : σ) :
    ∀ other ∈ m.read listener state, other.Good total := by
  -- On the moments of the reading; a closed reader only moves octets to those discarded.
  fun_induction Moment.read m listener state with
  | case1 m state finished => simpa using h
  | case2 m state closed =>
    have discarded : Good { m with registers := m.registers.discard m.input.size, input := [] }
        total := by
      refine ⟨h.sound, h.framed, h.numeric, ?_, h.inBudget, h.loop, ?_, ?_⟩
      · rw [closed]
        trivial
      · simpa [Registers.discard, Nat.add_assoc] using h.headerBytes
      · exact Nat.le_trans (Nat.add_le_add_left (Nat.zero_le _) _) h.contentRead
    simpa using ⟨h, discarded⟩
  | case3 m state full =>
    have completed : Good { m with reader := m.reader.enter .done } total := by
      refine ⟨h.sound.enter_finished (.inl rfl), h.framed.finish (.inl rfl), trivial, trivial,
        fun _ => ?_, ?_, h.headerBytes, h.contentRead⟩
      · exact h.inBudget (by rw [full]; nofun)
      · have order : Stage.order .done = m.reader.stage.order := by rw [full]; rfl
        exact order ▸ h.loop
    simpa using ⟨h, completed⟩
  | case4 m state none => simpa using h
  | case5 m state b tail later found capacity step next heard stop told wrong busy open_ partial_ =>
    have reads : m.reader.Reads := ⟨busy, open_, partial_⟩
    simpa using ⟨h, h.next_shut capacity found reads⟩
  | case6 m state b tail later found capacity step next heard right busy open_ partial_ told =>
    have reads : m.reader.Reads := ⟨busy, open_, partial_⟩
    simpa using ⟨h, h.next capacity found reads (by simpa using right)⟩
  | case7 m state b tail later found capacity step next heard stop told right goes busy open_
      partial_ ih =>
    have reads : m.reader.Reads := ⟨busy, open_, partial_⟩
    have onward : next.Good total := h.next capacity found reads (by simpa using right)
    intro other member
    rcases List.mem_cons.mp member with rfl | later
    · exact h
    · exact ih onward other later

theorem read_last (m : Moment) (listener : Listener σ) (state : σ) :
    ∃ last ∈ (m.read listener state).getLast?,
      last.reader = (m.reader.read listener state m.input).reader ∧
        last.input = (m.reader.read listener state m.input).rest := by
  -- The moments follow the reading case by case.
  fun_induction Moment.read m listener state with
  | case1 m state finished =>
    rw [Reader.read_done finished]
    exact ⟨m, rfl, rfl, rfl⟩
  | case2 m state closed =>
    rw [Reader.read_closed closed]
    exact ⟨_, rfl, rfl, rfl⟩
  | case3 m state full =>
    rw [Reader.read_full full]
    exact ⟨_, rfl, rfl, rfl⟩
  | case4 m state none busy open_ partial_ =>
    rw [Reader.read_nothing ⟨busy, open_, partial_⟩ none]
    exact ⟨m, rfl, rfl, rfl⟩
  | case5 m state b tail later found capacity step next heard stop told wrong busy open_ partial_ =>
    have reads : m.reader.Reads := ⟨busy, open_, partial_⟩
    obtain ⟨fault, wrong⟩ := Option.isSome_iff_exists.mp wrong
    rw [Reader.read_fault reads found rfl told wrong]
    exact ⟨next.shut, rfl, rfl, rfl⟩
  | case6 m state b tail later found capacity step next heard right busy open_ partial_ told =>
    have reads : m.reader.Reads := ⟨busy, open_, partial_⟩
    rw [Reader.read_stop reads found rfl told (by simpa using right) rfl]
    exact ⟨next, rfl, rfl, rfl⟩
  | case7 m state b tail later found capacity step next heard stop told right goes busy open_
      partial_ ih =>
    have reads : m.reader.Reads := ⟨busy, open_, partial_⟩
    obtain ⟨last, found', ends⟩ := ih
    rw [Reader.read_onward reads found rfl told (by simpa using right) (by simpa using goes)]
    refine ⟨last, ?_, ends⟩
    rw [List.getLast?_cons, Option.mem_def.mp found']
    rfl

/-! Calls. -/

theorem Good.mono {more : Nat} (h : m.Good total) (le : total ≤ more) : m.Good more :=
  { h with
    headerBytes := Nat.le_trans h.headerBytes le
    contentRead := Nat.le_trans h.contentRead le }

theorem Good.rest (h : m.Good total) :
    Good { reader := m.reader, registers := m.registers } (total - m.input.size) := by
  have header := h.headerBytes
  have content := h.contentRead
  refine ⟨h.sound, h.framed, h.numeric, h.agree, h.inBudget, Nat.zero_le _, ?_, ?_⟩
  · simp only [Input.size_nil]
    omega
  · simp only [Input.size_nil]
    omega

theorem Good.answer (h : m.Good total) (listener : Listener σ) (state : σ) {call : Call}
    (other : ∀ input, call ≠ .read input) :
    Good { reader := (m.reader.answer listener state call).reader
           registers := m.registers.answer call } total := by
  have sound := h.sound.answer listener state call
  have header : m.reader.headerBytes + m.registers.discarded ≤ total :=
    Nat.le_trans (Nat.le_add_right _ _) h.headerBytes
  have content : m.reader.contentRead ≤ total := Nat.le_trans (Nat.le_add_right _ _) h.contentRead
  cases call with
  | read input => exact absurd rfl (other input)
  | shutdown =>
    have same : (m.reader.answer listener state .shutdown).reader = m.reader.ended.reader :=
      (m.reader.shutdown_ended listener state).1
    rw [same] at sound ⊢
    rcases m.reader.ended_cases with quiet | ⟨shut, _⟩
    · rw [quiet] at sound ⊢
      exact ⟨sound, h.framed, h.numeric, h.agree, h.inBudget, Nat.zero_le _, header, content⟩
    · rw [shut] at sound ⊢
      exact ⟨sound, h.framed.finish (.inr rfl), trivial, trivial, fun open_ => absurd rfl open_,
        Nat.zero_le _, header, content⟩
  | close =>
    exact ⟨sound, .of_none rfl nofun, trivial, trivial, fun open_ => absurd rfl open_,
      Nat.zero_le _, Nat.zero_le _, Nat.zero_le _⟩
  | reset =>
    exact ⟨sound, .of_none rfl nofun, trivial, trivial, fun _ _ _ => Nat.zero_le _,
      Nat.zero_le _, Nat.zero_le _, Nat.zero_le _⟩
  | headResponse value =>
    have framed : (m.reader.setHeadResponse value).Framed :=
      ⟨h.framed.framing, h.framed.content, h.framed.untilClose⟩
    exact ⟨sound, framed, h.numeric, h.agree, h.inBudget, Nat.zero_le _, header, content⟩

theorem answer_other (m : Moment) (listener : Listener σ) (state : σ) {call : Call}
    (other : ∀ input, call ≠ .read input) :
    m.answer listener state call =
      [m, { reader := (m.reader.answer listener state call).reader
            registers := m.registers.answer call }] := by
  cases call with
  | read input => exact absurd rfl (other input)
  | shutdown | close | reset | headResponse => rfl

/-- The moments of a call, and the reader that the next call finds. -/
theorem Good.call (h : m.Good total) (idle : m.input = []) (listener : Listener σ) (state : σ)
    (call : Call) :
    (∀ other ∈ m.answer listener state call, other.Good (total + call.input.size)) ∧
      Good { reader := (m.reader.answer listener state call).reader
             registers := ((m.answer listener state call).getLastD m).registers }
        (total + (call.input.size - (m.reader.answer listener state call).rest.size)) := by
  -- Only a reading takes octets, as many as it does not leave.
  by_cases other : ∀ input, call ≠ .read input
  · have answered := h.answer listener state other
    rw [m.answer_other listener state other]
    refine ⟨?_, answered.mono (Nat.le_add_right _ _)⟩
    simpa using ⟨h.mono (Nat.le_add_right _ _), answered.mono (Nat.le_add_right _ _)⟩
  · obtain ⟨input, rfl⟩ : ∃ input, call = .read input := by simpa using other
    have start : Good { m with loop := .opening, input } (total + input.size) := by
      have header := h.headerBytes
      have content := h.contentRead
      rw [idle] at header content
      exact ⟨h.sound, h.framed, h.numeric, h.agree, h.inBudget, Nat.zero_le _,
        Nat.add_le_add_right header _, Nat.add_le_add_right content _⟩
    have all := start.read listener state
    obtain ⟨last, found, reader, rest⟩ :=
      read_last { m with loop := .opening, input } listener state
    have rest : last.input = (m.reader.read listener state input).rest := rest
    have left := m.reader.read_size_le listener state input
    have total' : total + (input.size - (m.reader.read listener state input).rest.size) =
        total + input.size - last.input.size := by
      rw [rest]
      omega
    have ends := (all last (List.mem_of_getLast? found)).rest
    rw [reader] at ends
    simp only [Moment.answer, Reader.answer, Reply.ofReading, Call.input, List.getLastD_eq_getLast?,
      Option.mem_def.mp found]
    rw [total']
    exact ⟨all, ends⟩

theorem Good.answers {most : Nat} (h : m.Good total) (idle : m.input = [])
    (listener : Listener σ) (state : σ) (calls : List Call)
    (few : total + m.reader.fed listener state calls ≤ most) :
    ∀ other ∈ m.answers listener state calls, other.Good most := by
  -- On the calls; after each of them as many octets are given as it has taken.
  induction calls generalizing m state total with
  | nil =>
    intro other member
    obtain rfl := List.mem_singleton.mp member
    exact h.mono (Nat.le_trans (Nat.le_add_right _ _) few)
  | cons call rest ih =>
    simp only [Reader.fed] at few
    obtain ⟨passed, next⟩ := h.call idle listener state call
    intro other member
    rcases List.mem_append.mp member with now | later
    · exact (passed other now).mono (by omega)
    · exact ih next rfl _ (by simp only; omega) other later

end Moment

theorem Reader.fed_le {σ : Type} (r : Reader) (listener : Listener σ) (state : σ)
    (calls : List Call) :
    r.fed listener state calls ≤ (calls.map fun call => call.input.size).sum := by
  induction calls generalizing r state with
  | nil => exact Nat.le_refl 0
  | cons call rest ih =>
    have later := ih (r.answer listener state call).reader (r.answer listener state call).state
    simp only [fed, List.map_cons, List.sum_cons]
    omega

theorem Moment.answers_last {σ : Type} (m : Moment) (listener : Listener σ) (state : σ)
    (calls : List Call) :
    ∃ last ∈ (m.answers listener state calls).getLast?,
      last.reader = (m.reader.through listener state calls).1 := by
  induction calls generalizing m state with
  | nil => exact ⟨m, rfl, rfl⟩
  | cons call rest ih =>
    obtain ⟨last, found, reader⟩ := ih
      { reader := (m.reader.answer listener state call).reader
        registers := ((m.answer listener state call).getLastD m).registers }
      (m.reader.answer listener state call).state
    refine ⟨last, ?_, reader⟩
    simp only [answers]
    rw [List.getLast?_append, Option.mem_def.mp found]
    rfl

/-- If fewer than 2^63 octets are given to a reader, then at every moment of every sequence of
calls its parts fit together, and whatever comes next is in range. -/
theorem Reader.moments_safe {σ : Type} (mode : Mode) (settings : Settings) (listener : Listener σ)
    (state : σ) (calls : List Call)
    (few : Reader.fed { mode, settings } listener state calls < 2 ^ 63) :
    let moments := Moment.answers { reader := { mode, settings } } listener state calls
    (∀ m ∈ moments, m.Coherent ∧ m.InRange) ∧
      ∃ last ∈ moments.getLast?,
        last.reader = (Reader.through { mode, settings } listener state calls).1 := by
  intro moments
  have start : Moment.Good { reader := { mode, settings } } 0 :=
    ⟨.fresh mode settings, .fresh mode settings, trivial, trivial, fun _ _ _ => Nat.zero_le _,
      Nat.le_refl _, Nat.le_refl _, Nat.le_refl _⟩
  refine ⟨fun m member => ?_, Moment.answers_last _ listener state calls⟩
  have good := start.answers rfl listener state calls (Nat.le_of_eq (Nat.zero_add _)) m member
  exact ⟨good.coherent, good.inRange few⟩

theorem Reader.moments_safe_of_chunk :
    let calls : List Call :=
      [.read [Text.toBytes "HTTP/1.1 200 OK\r\nTransfer-Encoding: chunked\r\n\r\n5\r\nhe".toList],
        .read [Text.toBytes "llo\r\n0\r\n\r\n".toList], .reset]
    Reader.fed { mode := .response } (Recorder.listener {}) {} calls < 2 ^ 63 ∧
      ∀ m ∈ Moment.answers { reader := { mode := .response } } (Recorder.listener {}) {} calls,
        m.Coherent ∧ m.InRange := by
  intro calls
  have size : (calls.map fun call => call.input.size).sum < 2 ^ 63 := by decide +kernel
  have few : Reader.fed { mode := .response } (Recorder.listener {}) {} calls < 2 ^ 63 :=
    Nat.lt_of_le_of_lt (Reader.fed_le ..) size
  exact ⟨few, (Reader.moments_safe .response {} _ _ _ few).1⟩

end HttpStream
