import HttpStream.Text

/-! What makes a message bad, with the answer that a server owes for it. -/

set_option autoImplicit false

namespace HttpStream

/-- The first thing wrong with a message. Faults of a value carry the value. -/
inductive Fault where
  | badMethod (method : Text)
  | noUri
  | noStatus
  | unknownVersion (version : Text)
  | badStatus
  | badContentLength (value : Text)
  | badChunking (value : Text)
  | badHost (value : Text)
  | badIpv6Host (value : Text)
  | noHost
  | badContinuation
  | badChunkChar (octet : UInt8)
  | chunkSizeOverflow
  | uriTooLong (limit : Nat)
  | headerTooLarge (size limit : Nat)
  deriving DecidableEq, Repr

def hexPair (octet : UInt8) : String :=
  let n := octet.toNat
  String.ofList [Nat.digitChar (n / 16), Nat.digitChar (n % 16)]

namespace Fault

def message : Fault → String
  | .badMethod method => "invalid http method: " ++ String.ofList method
  | .noUri => "no uri"
  | .noStatus => "no status"
  | .unknownVersion version => "unknown http version: " ++ String.ofList version
  | .badStatus => "bad status code"
  | .badContentLength value => "invalid content-length header: " ++ String.ofList value
  | .badChunking value => "bad chunking: " ++ String.ofList value
  | .badHost value => "bad host header: " ++ String.ofList value
  | .badIpv6Host value => "bad ipv6 host header: " ++ String.ofList value
  | .noHost => "no host header"
  | .badContinuation => "header continuation without a header"
  | .badChunkChar octet => "bad chunk char: 0x" ++ hexPair octet
  | .chunkSizeOverflow => "chunk size overflow"
  | .uriTooLong limit => "uri is too large, exceed the limit " ++ limit.repr
  | .headerTooLarge size limit =>
    "header size too large, current: " ++ size.repr ++ " exceed the limit " ++ limit.repr

/-- The status code of the response to a request with this fault. -/
def status : Fault → Nat
  | .uriTooLong _ => 414
  | .headerTooLarge _ _ => 413
  | _ => 400

def reason? : Fault → Option String
  | .badMethod _ => some "Bad Method"
  | .noUri => some "No URI"
  | .noStatus => some "No Status"
  | .unknownVersion _ => some "Unknown Version"
  | .badStatus => some "Bad Status"
  | .badContentLength _ => some "Bad Content-Length"
  | .badChunking _ => some "Bad chunking"
  | .badHost _ => some "Bad Host header"
  | .badIpv6Host _ => some "Bad IPv6 Host header"
  | .noHost => some "No Host"
  | .badContinuation => some "Bad Continuation"
  | .badChunkChar _ | .chunkSizeOverflow => some "Bad chunk size"
  -- The status codes of these have phrases of their own.
  | .uriTooLong _ | .headerTooLarge _ _ => none

end Fault

/-- Why a stream of messages ended early: a bad message, or a failure of the transport. -/
inductive StreamError where
  | badMessage (fault : Fault)
  | transport (description : Text)
  deriving DecidableEq, Repr

namespace StreamError

def message : StreamError → String
  | .badMessage fault => "bad message: " ++ fault.message
  | .transport description => "io error: " ++ String.ofList description

def fault? : StreamError → Option Fault
  | .badMessage fault => some fault
  | .transport _ => none

end StreamError
end HttpStream
