/-! Limits and switches of a reader. -/

set_option autoImplicit false

namespace HttpStream

structure Settings where
  -- Octets allowed for the start line and the fields of one message; 0 sets no limit.
  headerLimit : Nat := 8192
  -- Fields remembered per connection; 0 remembers none.
  memoryCapacity : Nat := 32
  -- Whether fields after the last chunk are read as trailers.
  trailers : Bool := false
  deriving DecidableEq, Repr

def Settings.limit? (settings : Settings) : Option Nat :=
  if settings.headerLimit = 0 then none else some settings.headerLimit

end HttpStream
