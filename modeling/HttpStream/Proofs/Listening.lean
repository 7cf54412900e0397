import HttpStream.Proofs.Calls

/-! Listeners that keep notes while they pass on what they hear: a reader does not notice. -/

set_option autoImplicit false

namespace HttpStream

variable {σ τ : Type}

/-- A listener that acts as another one does, in a state that holds more. -/
structure Listener.Extends (outer : Listener τ) (inner : Listener σ) (view : τ → σ) : Prop where
  notify : ∀ state event, inner.notify (view state) event =
    (view (outer.notify state event).1, (outer.notify state event).2)
  reject : ∀ state fault, inner.reject (view state) fault = view (outer.reject state fault)
  memoryCapacity : ∀ state, inner.memoryCapacity (view state) = outer.memoryCapacity state

def Reading.map (view : τ → σ) (reading : Reading τ) : Reading σ :=
  ⟨reading.reader, view reading.state, reading.stopped, reading.rest⟩

namespace Listener.Extends

variable {outer : Listener τ} {inner : Listener σ} {view : τ → σ} (h : outer.Extends inner view)
include h

theorem hear (state : τ) (events : List Event) : inner.hear (view state) events =
    (view (outer.hear state events).1, (outer.hear state events).2) := by
  induction events generalizing state with
  | nil => rfl
  | cons event rest ih => simp only [Listener.hear, h.notify, ih]

theorem capacityFor (r : Reader) (state : τ) :
    r.capacityFor inner (view state) = r.capacityFor outer state := by
  simp only [Reader.capacityFor, h.memoryCapacity]

theorem read (r : Reader) (state : τ) (input : Input) :
    r.read inner (view state) input = (r.read outer state input).map view := by
  fun_induction Reader.read r outer state input with
  | case1 r state input finished => exact Reader.read_done finished
  | case2 r state input finished => exact Reader.read_closed finished
  | case3 r state input full noted stop notified =>
    rw [Reader.read_full full, h.notify, notified]
    rfl
  | case4 r state input none busy open_ partial_ =>
    exact Reader.read_nothing ⟨busy, open_, partial_⟩ none
  | case5 r state input b tail later found turn noted stop heard fault wrong busy open_ partial_ =>
    have told : inner.hear (view state) turn.step.events = (view noted, stop) := by
      rw [h.hear, heard]
    have reads : Reader.Reads r := ⟨busy, open_, partial_⟩
    rw [Reader.read_fault reads found (by rw [h.capacityFor]) told wrong, h.reject]
    rfl
  | case6 r state input b tail later found turn noted fine rest busy open_ partial_ heard =>
    have told : inner.hear (view state) turn.step.events = (view noted, true) := by
      rw [h.hear, heard]
    rw [Reader.read_stop ⟨busy, open_, partial_⟩ found (by rw [h.capacityFor]) told fine rfl]
    rfl
  | case7 r state input b tail later found turn noted stop heard fine rest go busy open_
      partial_ ih =>
    have told : inner.hear (view state) turn.step.events = (view noted, stop) := by
      rw [h.hear, heard]
    rw [Reader.read_onward ⟨busy, open_, partial_⟩ found (by rw [h.capacityFor]) told fine
      (by simpa using go)]
    exact ih

theorem feed (r : Reader) (state : τ) (input : Input) :
    r.feed inner (view state) input = (r.feed outer state input).map view := by
  fun_induction Reader.feed r outer state input with
  | case1 r state input reading less ih =>
    have same : r.read inner (view state) input = reading.map view := h.read r state input
    rw [Reader.feed]
    simp only [same, Reading.map, less, if_true]
    exact ih
  | case2 r state input reading stays =>
    have same : r.read inner (view state) input = reading.map view := h.read r state input
    rw [Reader.feed]
    simp only [same, Reading.map, stays, if_false]

end Listener.Extends
end HttpStream
