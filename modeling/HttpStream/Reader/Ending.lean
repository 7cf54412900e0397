import HttpStream.Listener
import HttpStream.Reader.Basic

/-! The ends of messages and connections that no octet announces. -/

set_option autoImplicit false

namespace HttpStream.Reader

variable {σ : Type}

/-- The peer will send nothing more. This completes a body that ends with the connection, and
cuts any other message short. The answer is whether the listener asked to stop. -/
def shutdown (r : Reader) (listener : Listener σ) (state : σ) : Reader × σ × Bool :=
  match r.stage with
  | .start | .done | .closed => (r, state, false)
  | stage =>
    -- A response to a HEAD request is never told to be cut short.
    let cut := stage != .untilClose && !r.headResponse
    let state := if cut then (listener.notify state .earlyEof).1 else state
    let (state, stop) := listener.notify state .messageComplete
    (r.enter .closed, state, stop)

def close (r : Reader) (listener : Listener σ) (state : σ) : Reader × σ :=
  let events : List Event := match r.stage with
    | .start | .done | .closed => []
    | .untilClose => [.messageComplete]
    | _ => [.earlyEof, .messageComplete]
  -- The target stays in view until a reset, without which nothing is read any more.
  ({ r.enter .closed with
      framing := .unknown, contentLength := none, contentRead := 0, headerBytes := 0 },
    (listener.hear state events).1)

/-- Prepares for the next message. What belongs to the connection stays. -/
def reset (r : Reader) : Reader :=
  -- The LF of the last line end may still come, so that one was a CR is not forgotten.
  { mode := r.mode, settings := r.settings, afterCr := r.afterCr, headResponse := r.headResponse,
    cache := r.cache }

def setHeadResponse (r : Reader) (headResponse : Bool) : Reader := { r with headResponse }

end HttpStream.Reader
