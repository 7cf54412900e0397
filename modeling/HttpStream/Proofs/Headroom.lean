import HttpStream.Proofs.Budget
import HttpStream.Proofs.Counting

/-! A limit that the input cannot reach has no say: turn by turn, a reader does under it what it does
without one. -/

set_option autoImplicit false

namespace HttpStream

open Octet

def Turn.under (turn : Turn) (headerLimit : Nat) : Turn :=
  { turn with step := turn.step.under headerLimit }

def Reader.underAhead (headerLimit : Nat) (ahead : Reader × Nat) : Reader × Nat :=
  (ahead.1.under headerLimit, ahead.2)

def Reading.under {σ : Type} (reading : Reading σ) (headerLimit : Nat) : Reading σ :=
  { reading with reader := reading.reader.under headerLimit }

namespace Reader

variable {σ : Type} {r s : Reader} {b : UInt8} {capacity limit n : Nat} {window tail : Bytes}
  {later : Input}

/-- Without a limit, and so many octets away from `limit` at least; a limit of 0 is none. -/
structure Clear (r : Reader) (limit n : Nat) : Prop where
  unlimited : r.settings.headerLimit = 0
  within : limit = 0 ∨ r.headerBytes + n ≤ limit

theorem Clear.of_le {m : Nat} (h : r.Clear limit n) (settings : s.settings = r.settings)
    (less : s.headerBytes + m ≤ r.headerBytes + n) : s.Clear limit m :=
  ⟨settings ▸ h.unlimited, h.within.imp_right (Nat.le_trans less)⟩

theorem Clear.fits (h : r.Clear limit n) (m : Nat) : r.fits m = true :=
  fits_of_unlimited (Settings.limit?_of_zero h.unlimited) m

theorem Clear.fits_under (h : r.Clear limit n) {m : Nat} (less : m ≤ n) :
    (r.under limit).fits m = true := by
  have count : (r.under limit).headerBytes = r.headerBytes := rfl
  unfold Reader.fits
  split
  · next found =>
    have positive : 0 < limit := by
      rcases Nat.eq_zero_or_pos limit with rfl | positive
      · simp [under, Settings.limit?] at found
      · exact positive
    cases (limit?_under r positive).symm.trans found
    have within := h.within
    rw [count, decide_eq_true_eq]
    omega
  · rfl

theorem Clear.push_under (h : r.Clear limit (n + 1)) :
    (r.under limit).push capacity b = (r.push capacity b).under limit :=
  push_under_of_fits (Settings.limit?_of_zero h.unlimited) fun _ => h.fits_under (by omega)

/-! What is looked for ahead. -/

theorem Clear.startAhead?_under (h : r.Clear limit window.length) :
    (r.under limit).startAhead? window = (r.startAhead? window).map (underAhead limit) := by
  have stage : (r.under limit).stage = r.stage := rfl
  have mode : (r.under limit).mode = r.mode := rfl
  unfold startAhead?
  rw [stage, mode]
  split
  · split
    · next length method found =>
      have short : length ≤ window.length := (Trie.get?_of_best? found).2.1
      simp only [h.fits, h.fits_under short]
      rfl
    · rfl
  · split
    · next length version found =>
      by_cases spaced : window[length]? = some sp
      · have short : length + 1 ≤ window.length := (List.getElem?_eq_some_iff.mp spaced).1
        simp only [spaced, h.fits, h.fits_under short, and_self]
        rfl
      · simp [spaced]
    · rfl
  · rfl

theorem Clear.affordable_eq (h : r.Clear limit n) : r.affordable window = window := by
  simp [affordable, Settings.limit?_of_zero h.unlimited]

theorem Clear.affordable_under (h : r.Clear limit window.length) :
    (r.under limit).affordable window = window := by
  have fits := h.fits_under (Nat.le_refl _)
  unfold Reader.fits at fits
  unfold affordable
  split
  · next limit found =>
    simp only [found, decide_eq_true_eq] at fits
    exact List.take_of_length_le (by omega)
  · rfl

theorem Clear.scanTarget_under (h : r.Clear limit window.length) :
    (r.under limit).scanTarget window = underAhead limit (r.scanTarget window) := by
  simp only [scanTarget, h.affordable_under, h.affordable_eq]
  rfl

theorem Clear.versionAhead?_under (h : r.Clear limit window.length) (method : Method) :
    (r.under limit).versionAhead? capacity method b window =
      (r.versionAhead? capacity method b window).map (Turn.under · limit) := by
  unfold versionAhead?
  split
  · rfl
  · split
    · next length version found =>
      split
      · next ending line =>
        have positive : 0 < length := (Trie.get?_of_best? found).1
        have within : length - 1 < window.length := (List.getElem?_eq_some_iff.mp line).1
        simp only [h.fits, h.fits_under (show length ≤ window.length by omega), and_true]
        split
        · rfl
        · rfl
      · rfl
    · rfl

theorem Clear.fieldAhead_under (h : r.Clear limit tail.length) (head : Head) :
    (r.under limit).fieldAhead head (b :: tail) =
      underAhead limit (r.fieldAhead head (b :: tail)) := by
  have cache : (r.under limit).cache = r.cache := rfl
  -- What is found is no longer than the window, and for that there is room.
  have short {α : Type} {trie : Trie α} {length : Nat} {value : α}
      (found : trie.best? (b :: tail) = some (length, value)) :
      (r.under limit).fits (length - 1) = true := by
    have size : length ≤ tail.length + 1 := (Trie.get?_of_best? found).2.1
    exact h.fits_under (by omega)
  have line : (r.under limit).lineAhead? head (b :: tail) =
      (r.lineAhead? head (b :: tail)).map (underAhead limit) := by
    unfold lineAhead?
    rw [cache]
    split
    · next length line found =>
      have fits : (r.under limit).fits (length - 1) = true := by
        rcases Option.or_eq_some_iff.mp found with remembered | ⟨_, listed⟩
        · obtain ⟨memory, _, stored⟩ := Option.bind_eq_some_iff.mp remembered
          exact short stored
        · exact short listed
      simp only [h.fits, fits]
      rfl
    · rfl
  have name : (r.under limit).nameAhead? head (b :: tail) =
      (r.nameAhead? head (b :: tail)).map (underAhead limit) := by
    unfold nameAhead?
    split
    · next length name found =>
      simp only [h.fits, short found]
      rfl
    · rfl
  unfold fieldAhead
  split
  · rfl
  · rw [line, name]
    cases r.lineAhead? head (b :: tail) <;> cases r.nameAhead? head (b :: tail) <;> rfl

theorem Clear.drain_under {bytes : Bytes} (h : r.Clear limit bytes.length) :
    (r.under limit).drain bytes = underAhead limit (r.drain bytes) := by
  induction bytes generalizing r with
  | nil => rfl
  | cons b rest ih =>
    have lineRest : (r.under limit).isLineRest b = r.isLineRest b := rfl
    have onward : ((r.under limit).count.endLine b).drain rest =
        underAhead limit ((r.count.endLine b).drain rest) :=
      ih (r := r.count.endLine b) (h.of_le rfl (by
        have count : (r.count.endLine b).headerBytes = r.headerBytes + 1 := rfl
        rw [count, List.length_cons]
        omega))
    have fits : (r.under limit).fits 1 = true := h.fits_under (by rw [List.length_cons]; omega)
    unfold drain
    rw [lineRest, fits, h.fits, onward]
    split <;> rfl

theorem takeLf_under (rest : Bytes) :
    (r.under limit).takeLf rest = underAhead limit (r.takeLf rest) := by
  have afterCr : (r.under limit).afterCr = r.afterCr := rfl
  unfold takeLf
  rw [afterCr]
  split <;> rfl

/-! Turns. -/

theorem Clear.extend_under {step : Step} {rest : Input} (h : step.reader.Clear limit rest.size) :
    (r.under limit).extend capacity b (step.under limit) rest =
      (r.extend capacity b step rest).under limit := by
  have before : (r.under limit).stage = r.stage := rfl
  have after : (step.under limit).reader.stage = step.reader.stage := rfl
  have active : (Input.active rest).length ≤ rest.size := (Input.active_prefix rest).length_le
  have window : step.reader.Clear limit (Input.active rest).length := h.of_le rfl (by omega)
  rw [extend_eq, extend_eq, before, after]
  cases r.stage.beyond step.reader.stage with
  | target =>
    have scan : (step.under limit).reader.scanTarget (Input.active rest) =
        underAhead limit (step.reader.scanTarget (Input.active rest)) := window.scanTarget_under
    rw [Turn.toward, scan]
    rfl
  | version method =>
    have version : (step.under limit).reader.versionAhead? capacity method b (Input.active rest) =
        (step.reader.versionAhead? capacity method b (Input.active rest)).map
          (Turn.under · limit) := window.versionAhead?_under method
    rw [Turn.toward, Turn.toward, version]
    cases step.reader.versionAhead? capacity method b (Input.active rest) <;> rfl
  | field head =>
    have field : (step.under limit).reader.fieldAhead head (b :: Input.active rest) =
        underAhead limit (step.reader.fieldAhead head (b :: Input.active rest)) :=
      window.fieldAhead_under head
    rw [Turn.toward, field]
    rfl
  | lineEnd =>
    have drain : (step.under limit).reader.drain rest.flatten =
        underAhead limit (step.reader.drain rest.flatten) := h.drain_under
    rw [Turn.toward, drain]
    rfl
  | chunkEnd =>
    have take : (step.under limit).reader.takeLf rest.flatten =
        underAhead limit (step.reader.takeLf rest.flatten) := takeLf_under _
    rw [Turn.toward, take]
    rfl
  | nothing => rfl

theorem push_clear (sound : r.Sound) (h : r.Clear limit (n + 1)) :
    (r.push capacity b).reader.Clear limit n := by
  have count := (push_counts sound capacity b).headerBytes
  exact h.of_le (push_kin sound).settings (by omega)

theorem Clear.turn_under (sound : r.Sound) (h : r.Clear limit (Input.size (tail :: later) + 1)) :
    (r.under limit).turn capacity b tail later = (r.turn capacity b tail later).under limit := by
  have size : (b :: tail).length ≤ Input.size (tail :: later) + 1 := by
    rw [Input.size_cons, List.length_cons]
    omega
  have ahead : (r.under limit).startAhead? (b :: tail) =
      (r.startAhead? (b :: tail)).map (underAhead limit) :=
    (h.of_le rfl (by omega)).startAhead?_under
  have slice : (r.under limit).slice? b tail = r.slice? b tail := rfl
  have deliver (bytes : Bytes) : ({ r.under limit with afterCr := false }.deliver bytes) =
      ({ r with afterCr := false }.deliver bytes).under limit := by
    have stage : (r.under limit).stage = r.stage := rfl
    unfold Reader.deliver
    simp only [stage]
    rfl
  have extend : (r.under limit).extend capacity b ((r.push capacity b).under limit)
      (tail :: later) = (r.extend capacity b (r.push capacity b) (tail :: later)).under limit :=
    (push_clear sound h).extend_under
  have lineRest : (r.under limit).isLineRest b = r.isLineRest b := rfl
  have fault : ((r.push capacity b).under limit).fault = (r.push capacity b).fault := rfl
  unfold turn
  rw [ahead]
  cases r.startAhead? (b :: tail) with
  | some ahead => rfl
  | none =>
    simp only [Option.map_none, slice]
    cases r.slice? b tail with
    | some bytes =>
      simp only [deliver]
      rfl
    | none =>
      simp only [h.push_under, fault, lineRest, extend]
      split
      · rfl
      · split <;> rfl

/-! Readings. -/

theorem Clear.read_under (listener : Listener σ) (state : σ) {input : Input} (sound : r.Sound)
    (h : r.Clear limit input.size) :
    (r.under limit).read listener state input = (r.read listener state input).under limit := by
  -- On the turns; each counts no more octets than it takes, so the rest is as far from the limit.
  fun_induction Reader.read r listener state input with
  | case1 r state input stage => exact read_done stage
  | case2 r state input stage => exact read_closed stage
  | case3 r state input stage told stop notified =>
    rw [read_full (r := r.under limit) stage, notified]
    rfl
  | case4 r state input none busy open_ partial_ =>
    exact read_nothing (r := r.under limit) ⟨busy, open_, partial_⟩ none
  | case5 r state input b tail later found turn told stop heard fault wrong busy open_ partial_ =>
    have size := Input.size_of_next? found
    have turns : (r.under limit).turn ((r.under limit).capacityFor listener state) b tail later =
        turn.under limit := (h.of_le rfl (by omega)).turn_under sound
    rw [read_fault (r := r.under limit) ⟨busy, open_, partial_⟩ found turns heard wrong]
    rfl
  | case6 r state input b tail later found turn told fine rest busy open_ partial_ heard =>
    have size := Input.size_of_next? found
    have turns : (r.under limit).turn ((r.under limit).capacityFor listener state) b tail later =
        turn.under limit := (h.of_le rfl (by omega)).turn_under sound
    rw [read_stop (r := r.under limit) ⟨busy, open_, partial_⟩ found turns heard fine rfl]
    rfl
  | case7 r state input b tail later found turn told stop heard fine rest goes busy open_ partial_
      ih =>
    have size := Input.size_of_next? found
    have turns : (r.under limit).turn ((r.under limit).capacityFor listener state) b tail later =
        turn.under limit := (h.of_le rfl (by omega)).turn_under sound
    rw [read_onward (r := r.under limit) ⟨busy, open_, partial_⟩ found turns heard fine
      (by simpa using goes)]
    have cause : r.TurnCase _ b (tail :: later).flatten turn := turn_cases sound
    have count := (cause.counts sound).headerBytes
    have extra : turn.extra ≤ Input.size (tail :: later) := cause.extra_le
    have left : rest.size = Input.size (tail :: later) - turn.extra := Input.size_drop ..
    exact ih (cause.sound sound) (h.of_le (cause.kin sound).settings (by omega))

theorem read_counts (listener : Listener σ) (state : σ) (input : Input) (sound : r.Sound) :
    let reading := r.read listener state input
    reading.reader.headerBytes + reading.rest.size ≤ r.headerBytes + input.size := by
  -- What a turn adds to the count it takes from the input.
  have turned {r : Reader} {capacity : Nat} {input : Input} {b : UInt8} {tail : Bytes}
      {later : Input} (sound : r.Sound) (found : input.next? = some (b, tail, later)) :
      let turn := r.turn capacity b tail later
      turn.step.reader.headerBytes + (Input.drop turn.extra (tail :: later)).size ≤
        r.headerBytes + input.size := by
    intro turn
    have cause : r.TurnCase capacity b (tail :: later).flatten turn := turn_cases sound
    have count := (cause.counts sound).headerBytes
    have extra : turn.extra ≤ Input.size (tail :: later) := cause.extra_le
    have size := Input.size_of_next? found
    have left := Input.size_drop turn.extra (tail :: later)
    omega
  fun_induction Reader.read r listener state input with
  | case1 => exact Nat.le_refl _
  | case2 => exact Nat.le_add_right _ _
  | case3 => exact Nat.le_refl _
  | case4 => exact Nat.le_refl _
  | case5 _ _ _ _ _ _ found =>
    exact Nat.le_trans (Nat.le_add_right _ _) (turned sound found)
  | case6 _ _ _ _ _ _ found => exact turned sound found
  | case7 _ _ _ _ _ _ found _ _ _ _ _ _ _ _ _ _ ih =>
    exact Nat.le_trans (ih (turn_cases sound |>.sound sound)) (turned sound found)

theorem read_clear (listener : Listener σ) (state : σ) {input : Input} (sound : r.Sound)
    (h : r.Clear limit (input.size + n)) :
    (r.read listener state input).reader.Clear limit
      ((r.read listener state input).rest.size + n) := by
  have count := read_counts listener state input sound
  exact h.of_le (kin_read sound listener state input).settings (by simp only at count; omega)

theorem Clear.feed_under (listener : Listener σ) (state : σ) {input : Input} (sound : r.Sound)
    (h : r.Clear limit input.size) :
    (r.under limit).feed listener state input = (r.feed listener state input).under limit := by
  fun_induction feed r listener state input with
  | case1 r state input reading less ih =>
    have first : (r.under limit).read listener state input = reading.under limit :=
      h.read_under listener state sound
    rw [feed, first]
    simp only [Reading.under, less, if_true]
    exact ih (sound.read ..) (read_clear listener state (n := 0) sound h)
  | case2 r state input reading stuck =>
    have first : (r.under limit).read listener state input = reading.under limit :=
      h.read_under listener state sound
    rw [feed, first]
    simp only [Reading.under, stuck, if_false]

theorem feed_clear (listener : Listener σ) (state : σ) {input : Input} (sound : r.Sound)
    (h : r.Clear limit (input.size + n)) :
    (r.feed listener state input).reader.Sound ∧
      (r.feed listener state input).reader.Clear limit n := by
  fun_induction feed r listener state input with
  | case1 r state input reading less ih =>
    exact ih (sound.read ..) (read_clear listener state sound h)
  | case2 r state input reading =>
    have left : reading.reader.Clear limit (reading.rest.size + n) :=
      read_clear listener state sound h
    exact ⟨sound.read .., left.of_le rfl (by omega)⟩

/-- Fragments with no more octets than the limit allows are read as they are without a limit. -/
theorem feedAll_under (listener : Listener σ) (state : σ) (fragments : List Input) (sound : r.Sound)
    (h : r.Clear limit fragments.flatten.flatten.length) :
    (r.under limit).feedAll listener state fragments =
      ((r.feedAll listener state fragments).1.under limit,
        (r.feedAll listener state fragments).2) := by
  -- On the fragments; those before leave the reader as far from the limit as the others are long.
  induction fragments generalizing r state with
  | nil => rfl
  | cons fragment rest ih =>
    have size : (fragment :: rest).flatten.flatten.length =
        fragment.size + rest.flatten.flatten.length := by
      rw [List.flatten_cons, List.flatten_append, List.length_append]
      rfl
    rw [size] at h
    have first : (r.under limit).feed listener state fragment =
        (r.feed listener state fragment).under limit :=
      (h.of_le rfl (by omega)).feed_under listener state sound
    obtain ⟨sound', onward⟩ := feed_clear listener state sound h
    rw [feedAll, feedAll, first]
    simp only [Reading.under]
    rw [ih _ sound' onward]

theorem Sound.under (h : r.Sound) (limit : Nat) : (r.under limit).Sound :=
  ⟨h.stage, h.side, h.cache, h.measured⟩

def Spares (r : Reader) (n : Nat) : Prop :=
  r.settings.headerLimit = 0 ∨ r.headerBytes + n ≤ r.settings.headerLimit

/-- Fragments that the limit spares come to what their octets come to one by one without a limit,
whether trailers are read or not. -/
theorem feedAll_spared (memoryCapacity : Option Nat) (fragments : List Input) (sound : r.Sound)
    (waits : r.stage ≠ .content 0) (spared : r.Spares fragments.flatten.flatten.length) :
    let fed := r.feedAll (.patient memoryCapacity) {} fragments
    ∃ step : Step,
      step.Alike false ((r.under 0).run false 0 fragments.flatten.flatten) ∧
        step.reader.Sound ∧ fed.1 = step.reader.under r.settings.headerLimit ∧
        fed.2.1 = Recorder.told {} step := by
  intro fed
  have free : (r.under 0).Clear r.settings.headerLimit fragments.flatten.flatten.length :=
    ⟨rfl, spared⟩
  have same := feedAll_under (r := r.under 0) (.patient memoryCapacity) ({} : Recorder) fragments
    (sound.under 0) free
  obtain ⟨step, leads, reader, state⟩ := feedAll_leads (r := r.under 0) 0 memoryCapacity {}
    fragments (.inl rfl) (sound.under 0) waits
  have fed_eq : fed = _ := same
  refine ⟨step, leads.alike, leads.sound, ?_, ?_⟩
  · rw [fed_eq, ← reader]
  · rw [fed_eq, ← state]

end Reader
end HttpStream
