import HttpStream.Reader.Basic

/-! Request lines and status lines, octet by octet. -/

set_option autoImplicit false

namespace HttpStream.Reader

open Octet

def pushStart (r : Reader) (b : UInt8) : Step :=
  if isVisible b then
    let token := Snoc.empty.push (toChar b)
    match r.mode with
    | .request => .quiet (r.enter (.method token))
    | .response => .quiet (r.enter (.responseVersion token))
  -- Line ends and blanks ahead of a message are skipped.
  else .quiet r

/-- An HTTP/0.9 request is over with its line. -/
def shortRequest (r : Reader) (method : Method) (b : UInt8) : Step where
  reader := (r.endLine b).enter .done
  events := [.requestLine method r.uri none, .headerComplete, .messageComplete]

def requestLine (r : Reader) (capacity : Nat) (method : Method) (version : Version) (b : UInt8) :
    Step where
  reader :=
    { (r.endLine b).enter (.lineStart (.request version false) none) with
      cache := if version.isPersistent then r.cache.enable capacity else r.cache }
  events := [.requestLine method r.uri (some version)]

def statusLine (r : Reader) (version : Version) (status : Nat) (reason : Option Text) (b : UInt8) :
    Step where
  reader := (r.endLine b).enter (.lineStart (.response status) none)
  events := [.statusLine version status reason]

def pushMethod (r : Reader) (token : Snoc Char) (b : UInt8) : Step :=
  if b = sp then
    match Method.ofText? token.toList with
    | some method => .quiet (r.enter (.beforeUri method))
    | none => .fail r (.badMethod token.toList)
  else if isControl b then .fail r .noUri
  else .quiet (r.enter (.method (token.push (toChar b))))

def pushBeforeUri (r : Reader) (method : Method) (b : UInt8) : Step :=
  if isBlank b then .quiet r
  else if isControl b then .fail r .noUri
  else .quiet { r.enter (.uri method) with target := Snoc.empty.push b }

def pushUri (r : Reader) (method : Method) (b : UInt8) : Step :=
  if b = sp then .quiet (r.enter (.afterUri method))
  -- Any control octet ends the line here, and with it the request.
  else if isControl b then r.shortRequest method b
  else .quiet { r with target := r.target.push b }

def pushAfterUri (r : Reader) (method : Method) (b : UInt8) : Step :=
  if isBlank b then .quiet r
  else if isControl b then r.shortRequest method b
  else .quiet (r.enter (.requestVersion method (Snoc.empty.push (toChar b))))

def pushRequestVersion (r : Reader) (capacity : Nat) (method : Method) (token : Snoc Char)
    (b : UInt8) : Step :=
  if isLineEnd b then
    match Version.ofText? token.toList with
    | some version => r.requestLine capacity method version b
    | none => .fail r (.unknownVersion token.toList)
  else .quiet (r.enter (.requestVersion method (token.push (toChar b))))

def pushResponseVersion (r : Reader) (token : Snoc Char) (b : UInt8) : Step :=
  if b = sp then
    match Version.ofText? token.toList with
    | some version => .quiet (r.enter (.beforeStatus version))
    | none => .fail r (.unknownVersion token.toList)
  else if isControl b then .fail r .noStatus
  else .quiet (r.enter (.responseVersion (token.push (toChar b))))

def pushBeforeStatus (r : Reader) (version : Version) (b : UInt8) : Step :=
  if isBlank b then .quiet r
  else if isDigit b then .quiet (r.enter (.status version (digitValue b) 1))
  else .fail r .badStatus

def isStatus (value digits : Nat) : Bool := digits = 3 && 100 ≤ value

def pushStatus (r : Reader) (version : Version) (value digits : Nat) (b : UInt8) : Step :=
  if isDigit b then
    if digits < 3 then .quiet (r.enter (.status version (value * 10 + digitValue b) (digits + 1)))
    else .fail r .badStatus
  else if !isStatus value digits then .fail r .badStatus
  else if b = sp then .quiet (r.enter (.afterStatus version value))
  else if isControl b then r.statusLine version value none b
  else .fail r .badStatus

def pushAfterStatus (r : Reader) (version : Version) (status : Nat) (b : UInt8) : Step :=
  if isBlank b then .quiet r
  else if isControl b then r.statusLine version status none b
  else .quiet (r.enter (.reason version status (Snoc.empty.push (toChar b))))

def pushReason (r : Reader) (version : Version) (status : Nat) (token : Snoc Char) (b : UInt8) :
    Step :=
  if isLineEnd b then r.statusLine version status (some (token.trimmed Text.isBlank)) b
  else .quiet (r.enter (.reason version status (token.push (toChar b))))

end HttpStream.Reader
