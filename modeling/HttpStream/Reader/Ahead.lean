import HttpStream.Input
import HttpStream.Reader.Push

/-! One turn of a reader. A turn reads one octet and everything that goes with it: the rest of a
known token, of a request target, of a slice of the body, or of a line end. -/

set_option autoImplicit false

namespace HttpStream

structure Turn where
  step : Step
  extra : Nat := 0

def Turn.further (step : Step) (ahead : Reader × Nat) : Turn where
  step := { step with reader := ahead.1 }
  extra := ahead.2

namespace Reader

open Octet

/-- Below this many octets in the active segment no version and no field is looked for. -/
def lookaheadMin : Nat := 7

def skip (r : Reader) (n : Nat) : Reader := { r with headerBytes := r.headerBytes + n }

/-- A common method or a version that a message begins with is taken in one go, with the space
after it: the reader behind it and its length. -/
def startAhead? (r : Reader) (window : Bytes) : Option (Reader × Nat) :=
  match r.stage, r.mode with
  | .start, .request =>
    match Method.atFront? window with
    | some (length, method) =>
      if r.fits length then
        some ({ (r.skip length).enter (.beforeUri method) with afterCr := false }, length)
      else none
    | none => none
  | .start, .response =>
    match Version.atFront? window with
    | some (length, version) =>
      if window[length]? = some sp ∧ r.fits (length + 1) then
        some ({ (r.skip (length + 1)).enter (.beforeStatus version) with afterCr := false },
          length + 1)
      else none
    | none => none
  | _, _ => none

def affordable (r : Reader) (window : Bytes) : Bytes :=
  match r.settings.limit? with
  | some limit => window.take (limit - r.headerBytes)
  | none => window

def scanTarget (r : Reader) (window : Bytes) : Reader × Nat :=
  let octets := (r.affordable window).takeWhile isVisible
  ({ r.skip octets.length with target := r.target.append octets }, octets.length)

def versionAhead? (r : Reader) (capacity : Nat) (method : Method) (b : UInt8) (window : Bytes) :
    Option Turn :=
  if window.length + 1 < lookaheadMin then none
  else
    match Version.atFront? (b :: window) with
    | some (length, version) =>
      -- Only with the line end right behind it is a version taken in one go.
      match window[length - 1]? with
      | some ending =>
        if isLineEnd ending ∧ r.fits length then
          some
            { step := (r.skip length).requestLine capacity method version ending, extra := length }
        else none
      | none => none
    | none => none

/-- A field line known as a whole, remembered or not, is taken over as it was stored. The window
begins with the octet read last. -/
def lineAhead? (r : Reader) (head : Head) (window : Bytes) : Option (Reader × Nat) :=
  -- The lines of this connection go before the well-known ones.
  match (r.cache.best? window).or (FieldLine.atFront? window) with
  | some (length, line) =>
    if r.fits (length - 1) then
      some ((r.skip (length - 1)).enter
        (.fieldValue head (some line.standard) line.name (.ofList line.value) false true),
        length - 1)
    else none
  | none => none

def nameAhead? (r : Reader) (head : Head) (window : Bytes) : Option (Reader × Nat) :=
  match StandardName.atFront? window with
  | some (length, name) =>
    if r.fits (length - 1) then
      some ((r.skip (length - 1)).enter (.fieldName head (.ofList name.text.toList)), length - 1)
    else none
  | none => none

def fieldAhead (r : Reader) (head : Head) (window : Bytes) : Reader × Nat :=
  if window.length < lookaheadMin then (r, 0)
  else ((r.lineAhead? head window).or (r.nameAhead? head window)).getD (r, 0)

def drain (r : Reader) : Bytes → Reader × Nat
  | [] => (r, 0)
  | b :: rest =>
    -- No further than the limit allows: the octet that exceeds it is refused by a turn of its own.
    if r.isLineRest b && r.fits 1 then
      let (r, n) := (r.count.endLine b).drain rest
      (r, n + 1)
    else (r, 0)

/-- The LF of the last chunk line. It does not count towards the limit. -/
def takeLf (r : Reader) (rest : Bytes) : Reader × Nat :=
  if r.afterCr ∧ rest.head? = some lf then ({ r with afterCr := false }, 1) else (r, 0)

def slice? (r : Reader) (b : UInt8) (tail : Bytes) : Option Bytes :=
  if r.isLineRest b then none
  else match r.room with
    | .none => none
    | .atMost octets => some (b :: tail.take (octets - 1))
    | .unbounded => some (b :: tail)

def extend (r : Reader) (capacity : Nat) (b : UInt8) (step : Step) (rest : Input) : Turn :=
  let window := Input.active rest
  match r.stage with
  | .beforeUri _ | .uri _ =>
    match step.reader.stage with
    | .uri _ => .further step (step.reader.scanTarget window)
    | _ => { step }
  | .afterUri _ =>
    match step.reader.stage with
    | .requestVersion method _ =>
      (step.reader.versionAhead? capacity method b window).getD { step }
    | _ => { step }
  | .lineStart _ _ =>
    match step.reader.stage with
    | .fieldName head _ => .further step (step.reader.fieldAhead head (b :: window))
    -- A continuation line: nothing that is known can stand there.
    | .fieldValue .. => { step }
    | _ => .further step (step.reader.drain rest.flatten)
  | .fieldName _ _ | .fieldValue .. =>
    match step.reader.stage with
    | .lineStart _ _ => .further step (step.reader.drain rest.flatten)
    | _ => { step }
  | .trailer _ =>
    match step.reader.stage with
    | .done => .further step (step.reader.drain rest.flatten)
    | _ => { step }
  | .chunkSize _ | .chunkParams _ =>
    match step.reader.stage with
    | .done | .trailer _ => .further step (step.reader.takeLf rest.flatten)
    | _ => { step }
  | _ => { step }

def turn (r : Reader) (capacity : Nat) (b : UInt8) (tail : Bytes) (later : Input) : Turn :=
  match r.startAhead? (b :: tail) with
  | some (reader, length) => { step := .quiet reader, extra := length - 1 }
  | none =>
    match r.slice? b tail with
    | some bytes => { step := { r with afterCr := false }.deliver bytes, extra := bytes.length - 1 }
    | none =>
      let step := r.push capacity b
      match step.fault with
      | some _ => { step }
      | none => if r.isLineRest b then { step } else r.extend capacity b step (tail :: later)

end Reader
end HttpStream
