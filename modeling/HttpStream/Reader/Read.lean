import HttpStream.Listener
import HttpStream.Reader.Ahead

/-! Reading what has arrived, up to the end of the message, a stop, or the end of the input. -/

set_option autoImplicit false

namespace HttpStream

/-- The outcome of reading: the reader and its listener, whether reading was stopped, and the
octets left unread. -/
structure Reading (σ : Type) where
  reader : Reader
  state : σ
  stopped : Bool
  rest : Input

namespace Reader

variable {σ : Type}

def capacityFor (r : Reader) (listener : Listener σ) (state : σ) : Nat :=
  (listener.memoryCapacity state).getD r.settings.memoryCapacity

/-- Reads as much as there is. Octets after a complete message are left; a closed reader
discards everything, and so does one that meets a fault. -/
def read (r : Reader) (listener : Listener σ) (state : σ) (input : Input) : Reading σ :=
  match r.stage with
  | .done => ⟨r, state, false, input⟩
  | .closed => ⟨r, state, false, []⟩
  -- All of the body was delivered when a stop came between; no octet is needed to end it.
  | .content 0 =>
    let (state, stop) := listener.notify state .messageComplete
    ⟨r.enter .done, state, stop, input⟩
  | _ =>
    match _h : input.next? with
    | none => ⟨r, state, false, input⟩
    | some (b, tail, later) =>
      let turn := r.turn (r.capacityFor listener state) b tail later
      let (state, stop) := listener.hear state turn.step.events
      match turn.step.fault with
      | some fault => ⟨turn.step.reader.enter .closed, listener.reject state fault, true, []⟩
      | none =>
        let rest := Input.drop turn.extra (tail :: later)
        if stop then ⟨turn.step.reader, state, true, rest⟩
        else turn.step.reader.read listener state rest
termination_by input.size
decreasing_by exact Input.size_drop_lt _ ‹_›

theorem read_size_le (r : Reader) (listener : Listener σ) (state : σ) (input : Input) :
    (r.read listener state input).rest.size ≤ input.size := by
  fun_induction read r listener state input with
  | case1 => exact Nat.le_refl _
  | case2 => exact Nat.zero_le _
  | case3 => exact Nat.le_refl _
  | case4 => exact Nat.le_refl _
  | case5 => exact Nat.zero_le _
  | case6 => exact Nat.le_of_lt (Input.size_drop_lt _ ‹_›)
  | case7 => exact Nat.le_trans ‹_› (Nat.le_of_lt (Input.size_drop_lt _ ‹_›))

/-- A reading takes something from the input, or changes nothing, or completes a body of known
length that was all delivered before. -/
theorem read_progress (r : Reader) (listener : Listener σ) (state : σ) (input : Input) :
    (r.read listener state input).rest.size < input.size ∨
      ((r.read listener state input).reader = r ∧ (r.read listener state input).state = state) ∨
      (r.stage = .content 0 ∧ (r.read listener state input).reader.stage = .done) := by
  fun_cases read r listener state input with
  | case1 => exact .inr (.inl ⟨rfl, rfl⟩)
  | case2 => exact .inr (.inl ⟨rfl, rfl⟩)
  | case3 stage => exact .inr (.inr ⟨stage, rfl⟩)
  | case4 => exact .inr (.inl ⟨rfl, rfl⟩)
  | case5 => exact .inl (by simp [Input.size_of_next? ‹_›])
  | case6 => exact .inl (Input.size_drop_lt _ ‹_›)
  | case7 => exact .inl (Nat.lt_of_le_of_lt (read_size_le ..) (Input.size_drop_lt _ ‹_›))

def feed (r : Reader) (listener : Listener σ) (state : σ) (input : Input) : Reading σ :=
  let reading := r.read listener state input
  -- A stop ends a reading, but not the feeding.
  if reading.rest.size < input.size then
    reading.reader.feed listener reading.state reading.rest
  else reading
termination_by input.size

/-- Feeds fragments one by one; what is left of each of them is given up, and counted. -/
def feedAll (r : Reader) (listener : Listener σ) (state : σ) : List Input → Reader × σ × Nat
  | [] => (r, state, 0)
  | fragment :: rest =>
    let reading := r.feed listener state fragment
    let (reader, state, left) := reading.reader.feedAll listener reading.state rest
    (reader, state, reading.rest.size + left)

end Reader
end HttpStream
