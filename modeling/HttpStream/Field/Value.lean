import HttpStream.Fault
import HttpStream.Field.Token

/-! Values of the fields that decide how a message is read: lengths, transfer codings, connection
options and hosts. -/

set_option autoImplicit false

namespace HttpStream.Value

/-- A decimal number with an optional sign, within the signed 64-bit range. -/
def signed? (value : Text) : Option Int :=
  match value with
  | '-' :: digits =>
    (Text.decimal? digits).bind fun n => if n ≤ UInt64.size / 2 then some (-(n : Int)) else none
  | '+' :: digits => natural? digits
  | digits => natural? digits
where
  natural? (digits : Text) : Option Int :=
    (Text.decimal? digits).bind fun n => if n < UInt64.size / 2 then some (n : Int) else none

/-- The length that a `Content-Length` value announces. A negative one announces nothing. -/
def contentLength (value : Text) : Except Fault Nat :=
  match signed? value with
  | some length => .ok length.toNat
  | none => .error (.badContentLength value)

def lists (token : StandardToken) (value : Text) : Bool :=
  (Text.elements value).any fun element => StandardToken.ofText? element == some token

/-- Whether a `Transfer-Encoding` value ends in the chunked coding, which may stand nowhere else. -/
def chunked (value : Text) : Except Fault Bool :=
  if (Text.elements value).getLast?.bind StandardToken.ofText? = some .chunked then .ok true
  else if lists .chunked value then .error (.badChunking value)
  else .ok false

/-- A `Host` value cut at its last colon or closing bracket: at a colon into host and port. -/
def cutPort (value : Text) : Text × Option Text :=
  let port := value.reverse.takeWhile fun c => c != ':' && c != ']'
  match value.reverse.drop port.length with
  | ':' :: host => (host.reverse, some port.reverse)
  | _ => (value, none)

def port? (digits : Text) : Option Nat :=
  (Text.decimal? digits).bind fun n => if n < UInt16.size then some n else none

def unbracket? (host : Text) : Option Text :=
  match host with
  | '[' :: literal => if literal.getLast? = some ']' then some literal.dropLast else none
  | _ => some host

def host (value : Text) : Except Fault (Text × Option Nat) :=
  if value.isEmpty then .error (.badHost value)
  else
    let (name, digits) := cutPort value
    match digits, digits.bind port? with
    -- There is a colon, and no port behind it.
    | some _, none => .error (.badHost value)
    | _, port =>
      match unbracket? name with
      | some name => .ok (name, port)
      | none => .error (.badIpv6Host value)

end HttpStream.Value
