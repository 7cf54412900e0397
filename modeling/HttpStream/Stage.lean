import HttpStream.Event
import HttpStream.Fault
import HttpStream.Field.Name
import HttpStream.Snoc

/-! Where in a message a reader stands, with what it holds at that place. -/

set_option autoImplicit false

namespace HttpStream

inductive Mode where
  | request
  | response
  deriving DecidableEq, Repr

/-- What the field section needs to know of its start line. -/
inductive Head where
  | request (version : Version) (hostSeen : Bool)
  | response (status : Nat)
  deriving DecidableEq, Repr

/-- A field that waits for the next line to show whether it is continued. -/
structure Field where
  standard : Option StandardName
  name : Text
  value : Text
  -- The line was recognized as a whole, so there is no use in remembering it.
  recognized : Bool
  deriving DecidableEq, Repr

inductive Stage where
  | start
  | method (token : Snoc Char)
  | beforeUri (method : Method)
  | uri (method : Method)
  | afterUri (method : Method)
  | requestVersion (method : Method) (token : Snoc Char)
  | responseVersion (token : Snoc Char)
  | beforeStatus (version : Version)
  | status (version : Version) (value digits : Nat)
  | afterStatus (version : Version) (value : Nat)
  | reason (version : Version) (status : Nat) (token : Snoc Char)
  -- At the first octet of a line of the field section.
  | lineStart (head : Head) (pending : Option Field)
  | fieldName (head : Head) (token : Snoc Char)
  -- In a value; `folding` says that a continuation line has not shown its text yet.
  | fieldValue (head : Head) (standard : Option StandardName) (name : Text) (token : Snoc Char)
      (folding recognized : Bool)
  | done
  | untilClose
  | content (remaining : Nat)
  | chunkStart
  | chunkSize (size : Nat)
  | chunkParams (size : Nat)
  | chunkData (remaining : Nat)
  | trailer (token : Snoc Char)
  | closed
  deriving DecidableEq, Repr

inductive Phase where
  | idle
  | headers
  | content
  | closed
  deriving DecidableEq, Repr

def Snoc.isOpen (token : Snoc Char) : Bool :=
  match token.last? with
  | some c => !Text.isBlank c
  | none => false

namespace Stage

def label : Stage → String
  | .start => "Start"
  | .method _ => "Method"
  | .responseVersion _ => "ResponseVersion"
  | .beforeUri _ | .beforeStatus _ => "Space1"
  | .status _ _ _ => "Status"
  | .uri _ => "Uri"
  | .afterUri _ | .afterStatus _ _ => "Space2"
  | .requestVersion _ _ => "RequestVersion"
  | .reason _ _ _ => "Reason"
  | .lineStart _ _ => "Header"
  -- Within a token the label depends on whether a blank was read last.
  | .fieldName _ token => if token.isOpen then "HeaderInName" else "HeaderName"
  | .fieldValue _ _ _ token folding _ =>
    if token.isOpen && !folding then "HeaderInValue" else "HeaderValue"
  | .done => "End"
  | .untilClose => "EofContent"
  | .content _ => "Content"
  | .chunkStart => "ChunkedContent"
  | .chunkSize _ => "ChunkSize"
  | .chunkParams _ => "ChunkParams"
  | .chunkData _ => "Chunk"
  | .trailer _ => "ChunkTrailer"
  | .closed => "Closed"

def inHead : Stage → Bool
  | .done | .untilClose | .content _ | .chunkStart | .chunkSize _ | .chunkParams _ | .chunkData _
  | .trailer _ | .closed => false
  | _ => true

def inBody : Stage → Bool
  | .untilClose | .content _ | .chunkStart | .chunkSize _ | .chunkParams _ | .chunkData _
  | .trailer _ => true
  | _ => false

def isStart (stage : Stage) : Bool := stage = .start

def isClosed (stage : Stage) : Bool := stage = .closed

def isIdle (stage : Stage) : Bool := stage = .start || stage = .done || stage = .closed

def isComplete (stage : Stage) : Bool := stage = .done || stage = .closed

/-- The stages whose octets count towards the limit of the start line and the fields. -/
def isCounted (stage : Stage) : Bool :=
  stage.inHead || match stage with
    | .trailer _ => true
    | _ => false

def phase (stage : Stage) : Phase :=
  match stage with
  | .start | .done => .idle
  | .closed => .closed
  | stage => if stage.inHead then .headers else .content

end Stage
end HttpStream
