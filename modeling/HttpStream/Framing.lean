/-! How the end of a body is found. -/

set_option autoImplicit false

namespace HttpStream

inductive Framing where
  | unknown
  | noContent
  -- The body ends with the connection.
  | untilClose
  | contentLength
  | chunked
  deriving DecidableEq, Repr

end HttpStream
