import HttpStream.Event
import HttpStream.Fault

/-! Those who are told of the events of a reader. -/

set_option autoImplicit false

namespace HttpStream

/-- A listener with a state of its own. Its answer to an event says whether the reader is to stop
once the octet that caused the event is dealt with. -/
structure Listener (σ : Type) where
  notify : σ → Event → σ × Bool
  -- A message is bad; the reader is closed after it.
  reject : σ → Fault → σ
  -- How many fields to remember on the connection, if not as the settings say.
  memoryCapacity : σ → Option Nat := fun _ => none

namespace Listener

variable {σ : Type}

def hear (listener : Listener σ) (state : σ) : List Event → σ × Bool
  | [] => (state, false)
  | event :: rest =>
    let (state, stop) := listener.notify state event
    let (state, stopLater) := listener.hear state rest
    (state, stop || stopLater)

end Listener
end HttpStream
