import HttpStream.Version
import HttpStream.Method

/-! What a reader reports of a message, in the order in which it recognizes it. -/

set_option autoImplicit false

namespace HttpStream

inductive Event where
  -- A request line; without a version it is the whole of an HTTP/0.9 request.
  | requestLine (method : Method) (uri : Bytes) (version : Option Version)
  | statusLine (version : Version) (status : Nat) (reason : Option Text)
  -- The parts of a valid `Host` value of a request, ahead of the field itself.
  | host (host : Text) (port : Option Nat)
  -- One field with its continuation lines joined.
  | header (name value : Text)
  | headerComplete
  | content (bytes : Bytes)
  | trailer (name value : Text)
  | messageComplete
  -- The input ended inside a message.
  | earlyEof
  deriving DecidableEq, Repr

namespace Event

inductive Kind where
  | requestLine
  | statusLine
  | host
  | header
  | headerComplete
  | content
  | trailer
  | messageComplete
  | earlyEof
  deriving DecidableEq, Repr

def kind : Event → Kind
  | .requestLine .. => .requestLine
  | .statusLine .. => .statusLine
  | .host .. => .host
  | .header .. => .header
  | .headerComplete => .headerComplete
  | .content .. => .content
  | .trailer .. => .trailer
  | .messageComplete => .messageComplete
  | .earlyEof => .earlyEof

/-- The events with adjacent slices of a body joined: what they say apart from where the body
was cut. -/
def joined : List Event → List Event
  | [] => []
  | .content bytes :: rest =>
    match joined rest with
    | .content more :: rest => .content (bytes ++ more) :: rest
    | rest => .content bytes :: rest
  | event :: rest => event :: joined rest

end Event
end HttpStream
