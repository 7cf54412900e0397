import HttpStream.Field.Memory
import HttpStream.Framing
import HttpStream.Settings
import HttpStream.Stage

/-! The state of a connection that is read: the message under way, and what outlives it. -/

set_option autoImplicit false

namespace HttpStream

structure Reader where
  mode : Mode
  settings : Settings := {}
  stage : Stage := .start
  target : Snoc UInt8 := .empty
  framing : Framing := .unknown
  contentLength : Option Nat := none
  contentRead : Nat := 0
  -- Octets counted towards the limit of the start line and the fields.
  headerBytes : Nat := 0
  -- The last octet was a CR that ended a line, so the LF of that line may follow.
  afterCr : Bool := false
  -- The response answers a HEAD request and has no body.
  headResponse : Bool := false
  cache : Recall := .unset

def Reader.recall (reader : Reader) : Recall := reader.cache

/-- What one octet leads to: the reader after it, the events it causes in their order, and what
it shows to be wrong. -/
structure Step where
  reader : Reader
  events : List Event := []
  fault : Option Fault := none

namespace Step

def quiet (reader : Reader) : Step := { reader }

def fail (reader : Reader) (fault : Fault) : Step := { reader, fault := some fault }

end Step

namespace Reader

def uri (r : Reader) : Bytes := r.target.toList

def isChunking (r : Reader) : Bool := r.framing = .chunked

def enter (r : Reader) (stage : Stage) : Reader := { r with stage }

def endLine (r : Reader) (b : UInt8) : Reader := { r with afterCr := b == Octet.cr }

/-- Whether `b` still belongs to the line end before it: the LF of a CR, or a repeated CR. -/
def isLineRest (r : Reader) (b : UInt8) : Bool := r.afterCr && Octet.isLineEnd b

def fits (r : Reader) (n : Nat) : Bool :=
  match r.settings.limit? with
  | some limit => r.headerBytes + n ≤ limit
  | none => true

def count (r : Reader) : Reader := { r with headerBytes := r.headerBytes + 1 }

def limitFault? (r : Reader) : Option Fault :=
  match r.settings.limit? with
  | some limit =>
    if r.headerBytes ≤ limit then none
    else match r.stage with
      -- Beyond the target it is no longer the target that is too long.
      | .uri _ => some (.uriTooLong limit)
      | _ => some (.headerTooLarge r.headerBytes limit)
  | none => none

def summary (r : Reader) : String :=
  let length := match r.contentLength with
    | some length => length.repr
    | none => "-1"
  "HttpParser\x7bs=" ++ r.stage.label ++ "," ++ r.contentRead.repr ++ " of " ++ length ++ "\x7d"

end Reader
end HttpStream
