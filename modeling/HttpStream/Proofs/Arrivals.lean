import HttpStream.Proofs.Calls
import HttpStream.Proofs.Safety

/-! Reading on while octets arrive: what a reading leaves is given to the next one, ahead of what
has come in between. What every turn keeps holds of the reader at each place that it comes to. -/

set_option autoImplicit false

namespace HttpStream

namespace Input

variable {whole input more : Input} {b : UInt8} {tail : Bytes} {later : Input} {n k : Nat}

theorem next?_drop_zero (input : Input) : next? (drop 0 input) = next? input := by
  fun_induction next? input with
  | case1 => rfl
  | case2 later ih => simpa [drop] using ih
  | case3 b tail later => simp [drop, next?]

theorem next?_append (found : next? input = some (b, tail, later)) (more : Input) :
    next? (input ++ more) = some (b, tail, later ++ more) := by
  fun_induction next? input with
  | case1 => cases found
  | case2 later ih => exact ih found
  | case3 b tail later =>
    cases found
    rfl

theorem drop_append (within : n ≤ input.size) :
    drop 0 (drop n input ++ more) = drop n (input ++ more) := by
  fun_induction drop n input with
  | case1 n =>
    obtain rfl : n = 0 := by simpa using within
    rfl
  | case2 n segment later less =>
    have left : 0 < (segment.drop n).length := by
      rw [List.length_drop]
      omega
    rw [List.cons_append, List.cons_append, drop, if_pos left, drop, if_pos less, List.drop_zero]
  | case3 n segment later past ih =>
    rw [size_cons] at within
    rw [List.cons_append, drop, if_neg past]
    exact ih (by omega)

/-- What the whole leaves after so many octets, apart from segments without any. -/
structure Remains (whole : Input) (n : Nat) (rest : Input) : Prop where
  within : n ≤ whole.size
  rest : rest.drop 0 = whole.drop n

namespace Remains

theorem start (whole : Input) : Remains whole 0 whole := ⟨Nat.zero_le _, rfl⟩

theorem flatten (h : Remains whole n input) : input.flatten = whole.flatten.drop n := by
  have same := congrArg List.flatten h.rest
  rwa [flatten_drop, flatten_drop, List.drop_zero] at same

theorem next? (h : Remains whole n input) (found : input.next? = some (b, tail, later)) :
    (whole.drop n).next? = some (b, tail, later) := by
  rw [← h.rest, next?_drop_zero, found]

theorem onward (h : Remains whole n (input ++ more)) (found : input.next? = some (b, tail, later))
    (within : k ≤ size (tail :: later)) :
    Remains whole (n + 1 + k) (drop k (tail :: later) ++ more) := by
  have next := next?_append found more
  have left : size (whole.drop n) = size (tail :: (later ++ more)) + 1 :=
    size_of_next? (h.next? next)
  refine ⟨?_, ?_⟩
  · have whole_size := size_drop n whole
    have later_size : size (tail :: later) ≤ size (tail :: (later ++ more)) := by
      simp [Input.size]
    omega
  · calc drop 0 (drop k (tail :: later) ++ more)
        = drop k (tail :: (later ++ more)) := drop_append within
      _ = drop (k + 1) (drop 0 (input ++ more)) := by
          rw [drop_of_next? next, drop_drop, Nat.zero_add]
      _ = drop (n + 1 + k) whole := by
          rw [h.rest, drop_drop, Nat.add_assoc, Nat.add_comm 1]

end Remains

theorem take_onward (found : (whole.drop n).next? = some (b, tail, later ++ more))
    (within : k ≤ (tail :: later).flatten.length) :
    whole.flatten.take (n + 1 + k) =
      whole.flatten.take n ++ b :: (tail :: later).flatten.take k := by
  have left : whole.flatten.drop n = b :: ((tail :: later).flatten ++ more.flatten) := by
    rw [← flatten_drop, flatten_of_next? found, List.flatten_cons, List.flatten_cons,
      List.flatten_append, List.append_assoc]
  rw [Nat.add_assoc, List.take_add, left, Nat.add_comm, List.take_succ_cons,
    List.take_append_of_le_length within]

end Input

namespace Reader

variable {σ : Type} {r s : Reader} {listener : Listener σ} {state : σ} {input more whole : Input}
  {arrivals : List Input} {n : Nat}

/-- Reads what is there, and then, with each arrival, what was left and what has arrived, whether
the reading before was stopped or not. -/
def readAll (r : Reader) (listener : Listener σ) (state : σ) (input : Input) :
    List Input → Reading σ
  | [] => r.read listener state input
  | arrival :: later =>
    let reading := r.read listener state input
    reading.reader.readAll listener reading.state (reading.rest ++ arrival) later

theorem readAll_append (r : Reader) (listener : Listener σ) (state : σ) (input : Input)
    (first : List Input) (arrival : Input) (second : List Input) :
    r.readAll listener state input (first ++ arrival :: second) =
      let reading := r.readAll listener state input first
      reading.reader.readAll listener reading.state (reading.rest ++ arrival) second := by
  induction first generalizing r state input with
  | nil => rfl
  | cons next first ih => exact ih _ _ _

theorem readAll_done (done : r.stage = .done) (state : σ) (input : Input)
    (arrivals : List Input) :
    r.readAll listener state input arrivals = ⟨r, state, false, input ++ arrivals.flatten⟩ := by
  induction arrivals generalizing input with
  | nil => simp [readAll, read_done done]
  | cons arrival later ih =>
    simp only [readAll, read_done done, ih, List.flatten_cons, List.append_assoc]

/-- A reading that is not stopped takes all there is, unless it comes to the end of the message. -/
theorem read_finished (goes : (r.read listener state input).stopped = false) :
    (r.read listener state input).reader.stage = .done ∨
      (r.read listener state input).rest.flatten = [] := by
  fun_induction read r listener state input with
  | case1 _ _ _ finished => exact .inl finished
  | case2 => exact .inr rfl
  | case3 => exact .inl rfl
  | case4 _ _ _ none => exact .inr (Input.flatten_eq_nil_of_next? none)
  | case5 | case6 => cases goes
  | case7 _ _ _ _ _ _ _ _ _ _ _ _ _ _ _ _ _ ih => exact ih goes

theorem readAll_finished (goes : (r.readAll listener state input arrivals).stopped = false) :
    (r.readAll listener state input arrivals).reader.stage = .done ∨
      (r.readAll listener state input arrivals).rest.flatten = [] := by
  induction arrivals generalizing r state input with
  | nil => exact read_finished goes
  | cons arrival later ih => exact ih goes

/-- What every turn keeps, and so does the completion of a body that was all delivered before. `P n`
is about a reader and its listener after `n` octets of the whole; `cut` holds of what has not
arrived yet. -/
structure Carries (listener : Listener σ) (whole : Input) (cut : Input → Prop)
    (P : Nat → Reader → σ → Prop) : Prop where
  turned : ∀ {n : Nat} {s : Reader} {state : σ} {b : UInt8} {tail : Bytes} {later more : Input},
    P n s state → s.Sound → s.Reads → cut more →
    (whole.drop n).next? = some (b, tail, later ++ more) →
    let turn := s.turn (s.capacityFor listener state) b tail later
    let heard := (listener.hear state turn.step.events).1
    (turn.step.fault = none → P (n + 1 + turn.extra) turn.step.reader heard) ∧
      ∀ fault, turn.step.fault = some fault →
        P (n + 1) (turn.step.reader.enter .closed) (listener.reject heard fault)
  completed : ∀ {n : Nat} {s : Reader} {state : σ}, P n s state → s.stage = .content 0 →
    P n (s.enter .done) (listener.notify state .messageComplete).1

/-- Somewhere along the whole, with this rest of what has arrived; a closed reader leaves none. -/
def Along (whole more : Input) (P : Nat → Reader → σ → Prop) (r : Reader) (state : σ)
    (rest : Input) : Prop :=
  ∃ n, P n r state ∧ (r.stage = .closed ∨ whole.Remains n (rest ++ more))

namespace Carries

variable {cut : Input → Prop} {P : Nat → Reader → σ → Prop}

theorem read (h : Carries listener whole cut P) (sound : r.Sound) (cuts : cut more)
    (start : Along whole more P r state input) :
    let reading := r.read listener state input
    Along whole more P reading.reader reading.state reading.rest := by
  -- On the turns of the reading; a fault closes the reader, and nothing remains for it.
  fun_induction Reader.read r listener state input with
  | case1 | case4 => exact start
  | case2 r state input closed =>
    obtain ⟨n, start, _⟩ := start
    exact ⟨n, start, .inl closed⟩
  | case3 r state input full told stop notified =>
    obtain ⟨n, start, ends⟩ := start
    have next := h.completed start full
    rw [notified] at next
    exact ⟨n, next, .inr (ends.resolve_left (by simp [full]))⟩
  | case5 r state input b tail later found turn told stop heard fault wrong busy open_ partial_ =>
    obtain ⟨n, start, ends⟩ := start
    have remains := ends.resolve_left open_
    have next := (h.turned start sound ⟨busy, open_, partial_⟩ cuts
      (remains.next? (Input.next?_append found more))).2 fault wrong
    rw [heard] at next
    exact ⟨n + 1, next, .inl rfl⟩
  | case6 r state input b tail later found turn told fine rest busy open_ partial_ heard =>
    obtain ⟨n, start, ends⟩ := start
    have remains := ends.resolve_left open_
    have next := (h.turned start sound ⟨busy, open_, partial_⟩ cuts
      (remains.next? (Input.next?_append found more))).1 fine
    rw [heard] at next
    exact ⟨_, next, .inr (remains.onward found (turn_cases sound).extra_le)⟩
  | case7 r state input b tail later found turn told stop heard fine rest goes busy open_ partial_
      ih =>
    obtain ⟨n, start, ends⟩ := start
    have remains := ends.resolve_left open_
    have next := (h.turned start sound ⟨busy, open_, partial_⟩ cuts
      (remains.next? (Input.next?_append found more))).1 fine
    rw [heard] at next
    exact ih (sound.turn ..)
      ⟨_, next, .inr (remains.onward found (turn_cases sound).extra_le)⟩

theorem readAll (h : Carries listener whole cut P) (sound : r.Sound)
    (cuts : ∀ k, cut (arrivals.drop k).flatten)
    (start : Along whole arrivals.flatten P r state input) :
    let reading := r.readAll listener state input arrivals
    Along whole [] P reading.reader reading.state reading.rest := by
  induction arrivals generalizing r state input with
  | nil => exact h.read sound (cuts 0) start
  | cons arrival later ih =>
    obtain ⟨n, next, ends⟩ := h.read sound (cuts 0) start
    rw [List.drop_zero, List.flatten_cons, ← List.append_assoc] at ends
    exact ih (sound.read ..) (fun k => cuts (k + 1)) ⟨n, next, ends⟩

theorem reaches (h : Carries listener (input ++ arrivals.flatten) cut P) (sound : r.Sound)
    (cuts : ∀ k, cut (arrivals.drop k).flatten) (start : P 0 r state) :
    let reading := r.readAll listener state input arrivals
    ∃ n, P n reading.reader reading.state ∧ (reading.reader.stage = .closed ∨
      Input.Remains (input ++ arrivals.flatten) n reading.rest) := by
  intro reading
  obtain ⟨n, next, ends⟩ := h.readAll sound cuts ⟨0, start, .inr (.start _)⟩
  rw [List.append_nil] at ends
  exact ⟨n, next, ends⟩

end Carries
end Reader

/-- At every moment of calls the parts of a reader fit together. -/
theorem Moment.good_of_answers {σ : Type} {mode : Mode} {settings : Settings}
    {listener : Listener σ} {state : σ} {calls : List Call} {m : Moment}
    (reached : m ∈ Moment.answers { reader := { mode, settings } } listener state calls) :
    ∃ total, m.Good total := by
  have start : Moment.Good { reader := { mode, settings } } 0 :=
    ⟨.fresh mode settings, .fresh mode settings, trivial, trivial, fun _ _ _ => Nat.zero_le _,
      Nat.le_refl _, Nat.le_refl _, Nat.le_refl _⟩
  exact ⟨_, start.answers rfl listener state calls (Nat.le_refl _) m reached⟩

end HttpStream
