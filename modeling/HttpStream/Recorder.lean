import HttpStream.Listener

/-! A listener that keeps what it hears until it is asked for. -/

set_option autoImplicit false

namespace HttpStream

structure Recorder where
  events : List Event := []
  fault : Option Fault := none
  deriving DecidableEq, Repr

structure Recorder.Manner where
  -- Kinds of events at which it asks to stop.
  stopOn : List Event.Kind := []
  -- Kinds of events that it neither records nor stops at.
  ignored : List Event.Kind := []
  memoryCapacity : Option Nat := none

namespace Recorder

def isEmpty (recorder : Recorder) : Bool := recorder.events.isEmpty && recorder.fault.isNone

def pop? (recorder : Recorder) : Option (Event × Recorder) :=
  match recorder.events with
  | [] => none
  | event :: events => some (event, { recorder with events })

def listener (manner : Manner) : Listener Recorder where
  notify recorder event :=
    if manner.ignored.contains event.kind then (recorder, false)
    else ({ recorder with events := recorder.events ++ [event] }, manner.stopOn.contains event.kind)
  reject recorder fault := { recorder with fault := some fault }
  memoryCapacity _ := manner.memoryCapacity

end Recorder
end HttpStream
