import HttpStream.Reader.Ending
import HttpStream.Reader.Read

/-! What the owner of a connection asks of its reader. -/

set_option autoImplicit false

namespace HttpStream

inductive Call where
  | read (input : Input)
  | shutdown
  | close
  | reset
  | headResponse (value : Bool)

structure Reply (σ : Type) where
  reader : Reader
  state : σ
  -- Whether the owner is asked to stop, if the call tells.
  stopped : Option Bool := none
  rest : Input := []

def Reply.ofReading {σ : Type} (reading : Reading σ) : Reply σ where
  reader := reading.reader
  state := reading.state
  stopped := some reading.stopped
  rest := reading.rest

namespace Reader

variable {σ : Type}

def answer (r : Reader) (listener : Listener σ) (state : σ) : Call → Reply σ
  | .read input => .ofReading (r.read listener state input)
  | .shutdown =>
    let (reader, state, stopped) := r.shutdown listener state
    { reader, state, stopped := some stopped }
  | .close =>
    let (reader, state) := r.close listener state
    { reader, state }
  | .reset => { reader := r.reset, state }
  | .headResponse value => { reader := r.setHeadResponse value, state }

def answers (r : Reader) (listener : Listener σ) (state : σ) : List Call → List (Reply σ)
  | [] => []
  | call :: rest =>
    let reply := r.answer listener state call
    reply :: reply.reader.answers listener reply.state rest

end Reader
end HttpStream
