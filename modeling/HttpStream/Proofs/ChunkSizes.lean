import HttpStream.Proofs.BodyReadings
import HttpStream.Proofs.RawLines
import Mathlib.Data.List.Induction

/-! Chunk sizes, for every spelling: the line of a size announces as many octets as its digits
denote, or is found to be wrong at the first octet with which they denote no size. -/

set_option autoImplicit false

namespace HttpStream

open Octet

def hexNumber? (octets : Bytes) : Option Nat :=
  octets.foldlM (fun n b => (hexValue? b).map (n * 16 + ·)) 0

def IsSize (octets : Bytes) : Prop := ∃ n, hexNumber? octets = some n ∧ n < 2 ^ 64

theorem hexNumber?_concat (octets : Bytes) (b : UInt8) :
    hexNumber? (octets ++ [b]) =
      (hexNumber? octets).bind fun n => (hexValue? b).map (n * 16 + ·) := by
  simp [hexNumber?, List.foldlM_append]

theorem hexNumber?_concat_eq_some {octets : Bytes} {b : UInt8} {n : Nat} :
    hexNumber? (octets ++ [b]) = some n ↔
      ∃ m d, hexNumber? octets = some m ∧ hexValue? b = some d ∧ m * 16 + d = n := by
  rw [hexNumber?_concat]
  cases hexNumber? octets <;> cases hexValue? b <;> simp

theorem hexNumber?_zeros (k : Nat) : hexNumber? (List.replicate k 0x30) = some 0 := by
  induction k with
  | zero => rfl
  | succ k ih =>
    rw [List.replicate_succ', hexNumber?_concat, ih]
    rfl

theorem Octet.plain_of_hexValue? {b : UInt8} {d : Nat} (digit : hexValue? b = some d) :
    isVisible b = true ∧ isLineEnd b = false ∧ b ≠ semicolon := by
  have visible : isVisible b = true ∧ b ≠ semicolon := by
    grind [hexValue?, isDigit, isVisible, sp, semicolon, UInt8.le_iff_toNat_le,
      UInt8.lt_iff_toNat_lt]
  exact ⟨visible.1, isLineEnd_of_isVisible b visible.1, visible.2⟩

namespace IsSize

variable {octets more : Bytes} {b : UInt8}

theorem nil : IsSize [] := ⟨0, rfl, by decide⟩

theorem of_append (h : IsSize (octets ++ more)) : IsSize octets := by
  induction more using List.reverseRecOn with
  | nil => rwa [List.append_nil] at h
  | append_singleton more b ih =>
    obtain ⟨n, denotes, small⟩ := h
    rw [← List.append_assoc] at denotes
    obtain ⟨m, d, before, _, rfl⟩ := hexNumber?_concat_eq_some.mp denotes
    exact ih ⟨m, before, by omega⟩

/-- One octet more makes it no size: it is no digit, or makes the number too large. -/
theorem not_concat {n : Nat} (denotes : hexNumber? octets = some n) :
    ¬IsSize (octets ++ [b]) ↔ ∀ d, hexValue? b = some d → 2 ^ 64 ≤ n * 16 + d := by
  constructor
  · intro none d digit
    exact Nat.le_of_not_lt fun small =>
      none ⟨n * 16 + d, hexNumber?_concat_eq_some.mpr ⟨n, d, denotes, digit, rfl⟩, small⟩
  · rintro large ⟨m, longer, small⟩
    obtain ⟨_, d, same, digit, rfl⟩ := hexNumber?_concat_eq_some.mp longer
    cases denotes.symm.trans same
    have := large d digit
    omega

/-- Octets are a size, or there is a first one among them that makes them none. -/
theorem or_split (octets : Bytes) : IsSize octets ∨
    ∃ before b rest, octets = before ++ b :: rest ∧ IsSize before ∧ ¬IsSize (before ++ [b]) := by
  induction octets using List.reverseRecOn with
  | nil => exact .inl .nil
  | append_singleton octets b ih =>
    rcases ih with whole | ⟨before, c, rest, rfl, sized, wrong⟩
    · by_cases longer : IsSize (octets ++ [b])
      · exact .inl longer
      · exact .inr ⟨octets, b, [], rfl, whole, longer⟩
    · exact .inr ⟨before, c, rest ++ [b], by simp, sized, wrong⟩

end IsSize

structure Extension where
  octets : Bytes
  opened : octets.head?.all (fun b => b == semicolon || !isVisible b) = true
  line : ∀ b ∈ octets, isLineEnd b = false

def sizeFault (b : UInt8) : Fault :=
  if (hexValue? b).isSome then .chunkSizeOverflow else .badChunkChar b

namespace Reader

variable {r : Reader} {b : UInt8} {capacity n : Nat} {size : Bytes}

def amid (r : Reader) (stage : Stage) (afterCr : Bool) : Reader := { r with stage, afterCr }

/-! The line of a chunk size, octet by octet. -/

/-- Outside the head and the trailers an octet that goes on with no line end means what its stage
makes of it. -/
theorem push_uncounted (uncounted : r.stage.isCounted = false) (fresh : r.isLineRest b = false) :
    r.push capacity b = { r with afterCr := false }.interpret capacity b := by
  simp [push, uncounted, accept, fresh]

theorem fresh_of_visible (visible : isVisible b = true) : r.isLineRest b = false :=
  isLineRest_of_plain (isLineEnd_of_isVisible b visible)

def AwaitsSize (r : Reader) : Prop := r.stage = .chunkStart ∨ r.stage = .chunkData 0

theorem AwaitsSize.push (h : r.AwaitsSize) (visible : isVisible b = true) :
    r.push capacity b = { r with afterCr := false }.pushChunkStart b := by
  rcases h with stage | stage <;>
    rw [push_uncounted (by rw [stage]; rfl) (fresh_of_visible visible)] <;>
    simp only [interpret, stage]

theorem AwaitsSize.open_ (h : r.AwaitsSize) : r.stage.isComplete = false := by
  rcases h with stage | stage <;> rw [stage] <;> rfl

theorem push_sizeOctet (visible : isVisible b = true) :
    (r.amid (.chunkSize n) false).push capacity b =
      (r.amid (.chunkSize n) false).pushChunkSize n b :=
  push_uncounted rfl (fresh_of_visible visible)

theorem run_digits (capacity : Nat) (awaits : r.AwaitsSize) (nonempty : size ≠ [])
    (denotes : hexNumber? size = some n) (small : n < 2 ^ 64) :
    r.run false capacity size = .quiet (r.amid (.chunkSize n) false) := by
  -- On the digits from the last one, as each of them multiplies what stands before it.
  induction size using List.reverseRecOn generalizing n with
  | nil => exact absurd rfl nonempty
  | append_singleton size b ih =>
    obtain ⟨m, d, before, digit, rfl⟩ := hexNumber?_concat_eq_some.mp denotes
    obtain ⟨visible, plain, other⟩ := plain_of_hexValue? digit
    cases size with
    | nil =>
      cases before
      have first : r.push capacity b = .quiet (r.amid (.chunkSize (0 * 16 + d)) false) := by
        rw [awaits.push visible]
        simp only [pushChunkStart, visible, digit, if_true, Nat.zero_mul, Nat.zero_add]
        rfl
      exact run_pushed awaits.open_ first (by rintro ⟨⟩)
    | cons c size =>
      have next : (r.amid (.chunkSize m) false).push capacity b =
          .quiet (r.amid (.chunkSize (m * 16 + d)) false) := by
        have within : m * 16 + d < UInt64.size := small
        rw [push_sizeOctet visible]
        simp only [pushChunkSize, plain, other, visible, digit, within, if_true, if_false,
          Bool.false_eq_true, Bool.not_true, Bool.or_false, decide_false]
        rfl
      rw [run_quiet_append (ih (by simp) before (by omega))]
      exact run_pushed rfl next (by rintro ⟨⟩)

theorem run_sizeFault (capacity : Nat) (awaits : r.AwaitsSize) {before : Bytes}
    (sized : IsSize before)
    (visible : isVisible b = true) (other : b ≠ semicolon) (wrong : ¬IsSize (before ++ [b]))
    (rest : Bytes) : ∃ stage,
    r.run false capacity (before ++ b :: rest) =
      .fail ((r.amid stage false).enter .closed) (sizeFault b) := by
  obtain ⟨m, denotes, small⟩ := sized
  have large := (IsSize.not_concat denotes).mp wrong
  have plain := isLineEnd_of_isVisible b visible
  by_cases none : before = []
  · subst none
    cases denotes
    -- A single digit is a size.
    have noDigit : hexValue? b = Option.none := by
      cases digit : hexValue? b with
      | none => rfl
      | some d =>
        have := large d digit
        have := hexValue?_lt b d digit
        omega
    have first : r.push capacity b = .fail (r.amid .chunkStart false) (sizeFault b) := by
      rw [awaits.push visible]
      simp only [pushChunkStart, visible, noDigit, if_true, sizeFault]
      rfl
    exact ⟨_, run_faulted awaits.open_ first rest⟩
  · have next : (r.amid (.chunkSize m) false).push capacity b =
        .fail (r.amid (.chunkSize m) false) (sizeFault b) := by
      rw [push_sizeOctet visible]
      simp only [pushChunkSize, plain, other, visible, if_false, Bool.false_eq_true, Bool.not_true,
        Bool.or_false, decide_false, sizeFault]
      cases digit : hexValue? b with
      | none => rfl
      | some d =>
        have large : ¬m * 16 + d < UInt64.size := Nat.not_lt.mpr (large d digit)
        simp only [large, if_false]
        rfl
    refine ⟨.chunkSize m, ?_⟩
    rw [run_quiet_append (run_digits capacity awaits none denotes small)]
    exact run_faulted rfl next rest

inductive SizeStage (n : Nat) : Stage → Prop
  | size : SizeStage n (.chunkSize n)
  | params : SizeStage n (.chunkParams n)

theorem run_extension (capacity : Nat) (extension : Extension) : ∃ stage, SizeStage n stage ∧
    (r.amid (.chunkSize n) false).run false capacity extension.octets =
      .quiet (r.amid stage false) := by
  obtain ⟨octets, opened, line⟩ := extension
  dsimp only
  cases octets with
  | nil => exact ⟨_, .size, rfl⟩
  | cons b rest =>
    have plain : isLineEnd b = false := line b List.mem_cons_self
    have apart : b = semicolon ∨ isVisible b = false := by simpa using opened
    have first : (r.amid (.chunkSize n) false).push capacity b =
        .quiet (r.amid (.chunkParams n) false) := by
      rw [push_uncounted rfl (isLineRest_of_plain plain)]
      simp only [interpret, amid, pushChunkSize, plain, Bool.false_eq_true, if_false]
      rw [if_pos (by simpa using apart)]
      rfl
    refine ⟨_, .params, ?_⟩
    rw [← List.singleton_append, run_quiet_append (run_pushed rfl first (by rintro ⟨⟩))]
    -- Whatever follows on the line stays in the extension.
    have rest_line : ∀ b ∈ rest, isLineEnd b = false := fun b member =>
      line b (List.mem_cons_of_mem _ member)
    clear opened line first apart plain
    induction rest with
    | nil => rfl
    | cons c rest ih =>
      have plain := rest_line c List.mem_cons_self
      have next : (r.amid (.chunkParams n) false).push capacity c =
          .quiet (r.amid (.chunkParams n) false) := by
        rw [push_uncounted rfl (isLineRest_of_plain plain)]
        simp only [interpret, amid, pushChunkParams, plain, Bool.false_eq_true, if_false]
      rw [← List.singleton_append, run_quiet_append (run_pushed rfl next (by rintro ⟨⟩))]
      exact ih fun b member => rest_line b (List.mem_cons_of_mem _ member)

theorem endChunkLine_eq (r : Reader) (n : Nat) (b : UInt8) : r.endChunkLine n b =
    { reader := r.amid (if 0 < n then .chunkData n
        else if r.settings.trailers then .trailer .empty else .done) (b == cr)
      events := if 0 < n ∨ r.settings.trailers = true then [] else [.messageComplete] } := by
  have settings : (r.endLine b).settings = r.settings := rfl
  simp only [endChunkLine, settings]
  by_cases positive : 0 < n
  · simp only [positive, if_true, true_or]
    rfl
  · by_cases trailers : r.settings.trailers = true <;>
      simp only [positive, trailers, if_true, if_false, or_true, or_false, Bool.false_eq_true] <;>
      rfl

theorem run_sizeFront (capacity : Nat) (awaits : r.AwaitsSize) (nonempty : size ≠ [])
    (denotes : hexNumber? size = some n) (small : n < 2 ^ 64) (extension : Extension) :
    ∃ stage, SizeStage n stage ∧
      r.run false capacity (size ++ extension.octets) = .quiet (r.amid stage false) := by
  obtain ⟨stage, at_, extended⟩ := run_extension (r := r) (n := n) capacity extension
  refine ⟨stage, at_, ?_⟩
  rw [run_quiet_append (run_digits capacity awaits nonempty denotes small), extended]

theorem SizeStage.run_end {stage : Stage} (at_ : SizeStage n stage) (capacity : Nat)
    (ended : isLineEnd b = true) :
    (r.amid stage false).run false capacity [b] = r.endChunkLine n b := by
  have last : (r.amid stage false).push capacity b = r.endChunkLine n b := by
    cases at_ with
    | size =>
      rw [push_uncounted rfl rfl]
      simp only [interpret, amid, pushChunkSize, ended, if_true]
      rfl
    | params =>
      rw [push_uncounted rfl rfl]
      simp only [interpret, amid, pushChunkParams, ended, if_true]
      rfl
  have open_ : (r.amid stage false).stage.isComplete = false := by cases at_ <;> rfl
  have fine : (r.endChunkLine n b).fault = none := by rw [endChunkLine_eq]
  have after : (r.endChunkLine n b).reader.stage ≠ .content 0 := by
    rw [endChunkLine_eq]
    dsimp only [amid]
    split
    · rintro ⟨⟩
    · split <;> rintro ⟨⟩
  rw [run_singleton, advance_of_fine open_ (by rwa [last]) (by rwa [last]), last]

theorem run_sizeLine (capacity : Nat) (awaits : r.AwaitsSize) (nonempty : size ≠ [])
    (denotes : hexNumber? size = some n) (small : n < 2 ^ 64) (extension : Extension)
    (ended : isLineEnd b = true) :
    r.run false capacity (size ++ extension.octets ++ [b]) = r.endChunkLine n b := by
  obtain ⟨_, at_, front⟩ := run_sizeFront capacity awaits nonempty denotes small extension
  rw [run_quiet_append front, at_.run_end capacity ended]

/-! The chunk. -/

theorem run_endRest (capacity : Nat) (uncounted : r.stage.isCounted = false)
    (open_ : r.stage.isComplete = false) (more : r.stage ≠ .content 0) (afterCr : r.afterCr = true)
    (k : Nat) :
    r.run false capacity (List.replicate k cr ++ [lf]) = .quiet { r with afterCr := false } := by
  have rest {b : UInt8} (ended : isLineEnd b = true) :
      r.run false capacity [b] = .quiet (r.endLine b) := by
    refine run_pushed open_ ?_ more
    simp [push, uncounted, accept, isLineRest, afterCr, ended, Step.quiet]
  induction k with
  | zero => exact rest rfl
  | succ k ih =>
    have same : r.endLine cr = r := by
      obtain ⟨⟩ := r
      cases afterCr
      rfl
    have first := rest (b := cr) rfl
    rw [same] at first
    rw [List.replicate_succ, List.cons_append, ← List.singleton_append, run_quiet_append first]
    exact ih

theorem run_lineEnd_quiet {front : Bytes} {stage : Stage} (capacity : Nat) (ending : LineEnd)
    (uncounted : stage.isCounted = false) (open_ : stage.isComplete = false)
    (more : stage ≠ .content 0)
    (first : r.run false capacity (front ++ [ending.first]) =
      .quiet (r.amid stage (ending.first == cr))) :
    r.run false capacity (front ++ ending.wire) = .quiet (r.amid stage false) := by
  obtain ⟨rest, wire, ⟨rfl, isLf⟩ | ⟨k, rfl, isCr⟩⟩ := ending.wire_eq
  · rw [wire, first, isLf]
    rfl
  · rw [wire, ← List.singleton_append, ← List.append_assoc, run_quiet_append first]
    exact run_endRest (r := r.amid stage (ending.first == cr)) capacity uncounted open_ more
      (by rw [isCr]; rfl) k

theorem run_chunkLine (capacity : Nat) (awaits : r.AwaitsSize) (nonempty : size ≠ [])
    (denotes : hexNumber? size = some n) (small : n < 2 ^ 64) (positive : 0 < n)
    (extension : Extension) (ending : LineEnd) :
    r.run false capacity (size ++ extension.octets ++ ending.wire) =
      .quiet (r.amid (.chunkData n) false) := by
  refine run_lineEnd_quiet capacity ending rfl rfl (by rintro ⟨⟩) ?_
  rw [run_sizeLine capacity awaits nonempty denotes small extension ending.isLineEnd_first,
    endChunkLine, if_pos positive]
  rfl

theorem unchunks_data (capacity : Nat) {data : Bytes} (within : data.length ≤ n) :
    Unchunks capacity (r.amid (.chunkData n) false) data data
      { r.amid (.chunkData (n - data.length)) false with
        contentRead := r.contentRead + data.length } := by
  cases data with
  | nil => exact .of_quiet rfl
  | cons b rest =>
    have positive : 0 < n := Nat.lt_of_lt_of_le (Nat.succ_pos _) within
    obtain ⟨events, fault, reader⟩ := @slice_run false capacity (r.amid (.chunkData n) false) b rest
      rfl (by simpa [Reader.room, amid, positive, Room.Allows] using within)
    have settled : (({ r.amid (.chunkData n) false with afterCr := false } : Reader).deliver
        (b :: rest)).reader.settle =
          .quiet { r.amid (.chunkData (n - (b :: rest).length)) false with
            contentRead := r.contentRead + (b :: rest).length } := settle_of_ne (by rintro ⟨⟩)
    refine ⟨fault.trans ?_, reader.trans ?_, [b :: rest], events.trans ?_, by simp⟩ <;>
      rw [Step.andThen_of_quiet rfl settled] <;> rfl

/-! Readings. -/

variable {σ : Type}

/-- A chunk size in any fragments, on a connection with any past. Hexadecimal digits of a number
below 2^64 announce a chunk of so many octets, or end the body if the number is 0. Of other octets
the first one closes the reader with which they are no such digits: one that is no digit, or one
that makes the number too large. -/
theorem readAll_chunkSize (mode : Mode) (settings : Settings) (early : Listener σ) (state : σ)
    (before : List Call) (m : Moment) (memoryCapacity : Option Nat) (size : Word)
    (arrivals : List Input)
    (reached : m ∈ Moment.answers { reader := { mode, settings } } early state before)
    (awaits : m.reader.AwaitsSize) (plain : semicolon ∉ size.octets) :
    let octets := (m.input ++ arrivals.flatten).flatten
    let reading := m.reader.readAll (Recorder.listener { memoryCapacity }) {} m.input arrivals
    (∀ n, hexNumber? size.octets = some n → n < 2 ^ 64 → ∀ extension : Extension,
      (∀ ending, isLineEnd ending = true →
        octets = size.octets ++ extension.octets ++ [ending] →
          reading.reader.stage = (if 0 < n then .chunkData n
            else if m.reader.settings.trailers then .trailer .empty else .done) ∧
          reading.state = { events :=
            if 0 < n ∨ m.reader.settings.trailers = true then [] else [.messageComplete] }) ∧
      ∀ (ending : LineEnd) (data : Bytes), 0 < n → data.length ≤ n →
        octets = size.octets ++ extension.octets ++ ending.wire ++ data →
          reading.reader.stage = .chunkData (n - data.length) ∧
          ∃ slices : List Bytes, reading.state = { events := slices.map .content } ∧
            slices.flatten = data) ∧
    (¬IsSize size.octets → ∃ front b rest, size.octets = front ++ b :: rest ∧
      IsSize front ∧ ¬IsSize (front ++ [b]) ∧
      (octets <+: front → reading.state = {}) ∧
      (front ++ [b] <+: octets →
        reading.reader.stage = .closed ∧ reading.state = { fault := some (sizeFault b) })) := by
  intro octets reading
  obtain ⟨_, good⟩ := Moment.good_of_answers reached
  have outside : m.reader.stage.inHead = false := by
    rcases awaits with stage | stage <;> rw [stage] <;> rfl
  have waits : m.reader.stage ≠ .content 0 := by
    rcases awaits with stage | stage <;> rw [stage] <;> nofun
  have within := (good.inBudget (by
    rcases awaits with stage | stage <;> rw [stage] <;> nofun)).within
  have free : (m.reader.under 0).AwaitsSize := awaits
  -- A size up to the octet that ends its line; its line with data behind it; no size at all.
  refine ⟨fun n denotes small extension => ⟨fun ending ended arrived => ?_,
    fun ending data positive short arrived => ?_⟩, fun unsized => ?_⟩
  · have leads := run_sizeLine 0 free size.nonempty denotes small extension ended
    rw [← arrived] at leads
    rw [endChunkLine_eq] at leads
    refine readAll_leads memoryCapacity good.sound outside waits leads ?_ ?_ within
    · split <;> simp
    · dsimp only [amid]
      split
      · rfl
      · split <;> rfl
  · have line := run_chunkLine 0 free size.nonempty denotes small positive extension ending
    have front := (Unchunks.of_quiet line).trans (unchunks_data 0 short)
    have none (s : Reader) : s.run false 0 [] = { reader := s, events := [] } := rfl
    obtain ⟨stage, _, slices, told, same⟩ := readAll_unchunks memoryCapacity good.sound outside
      waits front (none _) (fun _ => List.not_mem_nil) rfl
      (arrived.trans (List.append_nil _).symm) within
    rw [List.append_nil] at told
    exact ⟨stage, slices, told, same⟩
  · obtain ⟨front, b, rest, split, sized, wrong⟩ :=
      (IsSize.or_split size.octets).resolve_left unsized
    have member : b ∈ size.octets := by simp [split]
    have visible : isVisible b = true := List.all_eq_true.mp size.visible b member
    have other : b ≠ semicolon := fun same => plain (same ▸ member)
    refine ⟨front, b, rest, split, sized, wrong, fun started => ?_, fun ⟨more, reaches⟩ => ?_⟩
    · obtain ⟨later, whole⟩ := started
      obtain ⟨n, denotes, small⟩ := (whole ▸ sized : IsSize (octets ++ later)).of_append
      by_cases none : octets = []
      · have leads : (m.reader.under 0).run false 0 octets = .quiet (m.reader.under 0) := by
          rw [none]
          rfl
        exact (readAll_leads memoryCapacity good.sound outside waits leads (by simp) outside
          within).2
      · have leads := run_digits 0 free none denotes small
        exact (readAll_leads memoryCapacity good.sound outside waits leads (by simp) rfl
          within).2
    · obtain ⟨stage, leads⟩ := run_sizeFault 0 free sized visible other wrong more
      have arrived : octets = front ++ b :: more := by rw [← reaches]; simp
      rw [← arrived] at leads
      exact readAll_leads memoryCapacity good.sound outside waits leads (by simp) rfl within

theorem readAll_chunkSize_of_largest :
    let calls : List Call :=
      [.read [Text.toBytes "HTTP/1.1 200 OK\nTransfer-Encoding: chunked\n\n0".toList]]
    let moments :=
      Moment.answers { reader := { mode := .response } } (Recorder.listener {}) {} calls
    let size : Word :=
      ⟨Text.toBytes "0fFfFfFfFfFfFfFfF".toList, by decide +kernel, by decide +kernel⟩
    let arrivals : List Input :=
      [[Text.toBytes "fFfFfFfFfFfFfFf".toList], [Text.toBytes "F;x\r".toList, [lf, cr, lf]]]
    ∃ m ∈ moments, m.reader.AwaitsSize ∧ semicolon ∉ size.octets ∧
      hexNumber? size.octets = some (2 ^ 64 - 1) ∧
      let reading := m.reader.readAll (Recorder.listener {}) {} m.input arrivals
      reading.reader.stage = .chunkData (2 ^ 64 - 3) ∧
        ∃ slices : List Bytes, reading.state = { events := slices.map .content } ∧
          slices.flatten = [cr, lf] := by
  intro calls moments size arrivals
  have at_ : moments[11]?.map (fun m => (m.reader.stage, m.input)) =
      some (.chunkStart, [[0x30]]) := by
    decide +kernel
  obtain ⟨m, found, same⟩ := Option.map_eq_some_iff.mp at_
  obtain ⟨stage, input⟩ := Prod.mk.inj same
  have plain : semicolon ∉ size.octets := by decide +kernel
  have denotes : hexNumber? size.octets = some (2 ^ 64 - 1) := by decide +kernel
  have member : m ∈ moments := List.mem_of_getElem? found
  have awaits : m.reader.AwaitsSize := .inl stage
  have whole := readAll_chunkSize .response {} (Recorder.listener {}) {} calls m none size arrivals
    member awaits plain
  have told := (whole.1 _ denotes (by decide) ⟨Text.toBytes ";x".toList, rfl, by decide +kernel⟩).2
    ⟨1⟩ [cr, lf] (by decide) (by decide) (by rw [input]; decide +kernel)
  exact ⟨m, member, awaits, plain, denotes, told⟩

end Reader
end HttpStream
