import HttpStream.Reader.Call
import HttpStream.Recorder

/-! A connection under the command of its owner: input arrives in segments, the reader is asked to
go on, and the connection ends. -/

set_option autoImplicit false

namespace HttpStream

structure Session where
  reader : Reader
  manner : Recorder.Manner := {}
  pending : Input := []

inductive Command where
  -- Segments arrive, and the reader reads once.
  | read (segments : List Bytes)
  -- Segments arrive, and the reader reads until it takes nothing more.
  | feed (segments : List Bytes)
  -- Octets arrive in pieces; what is left of a piece does not become pending.
  | fragments (bytes : Bytes) (size : Nat)
  | drop
  | reset
  | close
  | shutdown
  | headResponse (value : Bool)

structure Report where
  recorder : Recorder
  reader : Reader
  -- Whether reading was stopped, if the command tells.
  stopped : Option Bool := none
  -- Octets left unread, if the command reads.
  left : Option Nat := none

namespace Session

def listener (s : Session) : Listener Recorder := Recorder.listener s.manner

def settle (s : Session) (reply : Reply Recorder) : Session × Report :=
  ({ s with reader := reply.reader, pending := reply.rest },
    { recorder := reply.state, reader := reply.reader, stopped := reply.stopped,
      left := some reply.rest.size })

def ask (s : Session) (call : Call) : Session × Report :=
  let reply := s.reader.answer s.listener {} call
  ({ s with reader := reply.reader },
    { recorder := reply.state, reader := reply.reader, stopped := reply.stopped })

def run (s : Session) : Command → Session × Report
  | .read segments =>
    s.settle (s.reader.answer s.listener {} (.read (s.pending ++ segments.filter (!·.isEmpty))))
  | .feed segments =>
    s.settle
      (.ofReading (s.reader.feed s.listener {} (s.pending ++ segments.filter (!·.isEmpty))))
  | .fragments bytes size =>
    let (reader, recorder, left) :=
      s.reader.feedAll s.listener {} ((Bytes.pieces size bytes).map fun piece => [piece])
    ({ s with reader }, { recorder, reader, left := some left })
  | .drop => ({ s with pending := [] }, { recorder := {}, reader := s.reader })
  | .reset => s.ask .reset
  | .close => s.ask .close
  | .shutdown => s.ask .shutdown
  | .headResponse value => s.ask (.headResponse value)

def runAll (s : Session) : List Command → List Report
  | [] => []
  | command :: rest =>
    let (s, report) := s.run command
    report :: s.runAll rest

end Session
end HttpStream
