import HttpStream.Field.Value
import HttpStream.Reader.Basic

/-! The field section: lines and their continuations, what certain fields mean for the message,
and the choice of the framing at the blank line. -/

set_option autoImplicit false

namespace HttpStream.Reader

open Octet

def heedContentLength (r : Reader) (value : Text) : Except Fault Reader :=
  -- The chunked coding goes before any length.
  if r.framing = .chunked then .ok r
  else do
    let length ← Value.contentLength value
    pure { r with
      framing := if 0 < length then .contentLength else .noContent
      contentLength := some length }

def heedTransferEncoding (r : Reader) (value : Text) : Except Fault Reader := do
  let chunked ← Value.chunked value
  pure (if chunked then { r with framing := .chunked } else r)

def heedConnection (r : Reader) (value : Text) : Reader :=
  -- A connection that will close has no use for a memory.
  if Value.lists .close value then { r with cache := .disabled } else r

/-- What a field means for the message: the reader and the head after it, and the events ahead
of the field's own. Hosts matter to requests only. -/
def heed (r : Reader) (head : Head) (field : Field) : Except Fault (Reader × Head × List Event) :=
  match field.standard, head with
  | some .contentLength, _ => do pure (← r.heedContentLength field.value, head, [])
  | some .transferEncoding, _ => do pure (← r.heedTransferEncoding field.value, head, [])
  | some .connection, _ => pure (r.heedConnection field.value, head, [])
  | some .host, .request version _ => do
    let (host, port) ← Value.host field.value
    pure (r, .request version true, [.host host port])
  | _, _ => pure (r, head, [])

def remember (r : Reader) (field : Field) : Reader :=
  match field.standard with
  | some standard =>
    -- What was recognized is in a table or remembered already.
    if standard.isRepeated && !field.recognized then
      { r with cache := r.cache.put ⟨standard, field.name, field.value⟩ }
    else r
  | none => r

def flush (r : Reader) (head : Head) : Option Field → Except Fault (Reader × Head × List Event)
  | none => pure (r, head, [])
  | some field => do
    let (r, head, events) ← r.heed head field
    pure (r.remember field, head, events ++ [.header field.name field.value])

def lacksHost : Head → Bool
  | .request version hostSeen => version.isPersistent && !hostSeen
  | .response _ => false

def finalFraming (r : Reader) : Head → Framing
  | .request _ _ => if r.framing = .unknown then .noContent else r.framing
  | .response status =>
    -- Responses that have no body, whatever their fields say.
    if r.headResponse || status == 304 || status == 204 || status < 200 then .noContent
    else if r.framing = .unknown then .untilClose
    else r.framing

def endFields (r : Reader) (head : Head) : Step :=
  if lacksHost head then .fail r .noHost
  else
    let r := { r with contentRead := 0, framing := r.finalFraming head }
    match r.framing with
    | .untilClose => { reader := r.enter .untilClose, events := [.headerComplete] }
    | .contentLength =>
      { reader := r.enter (.content (r.contentLength.getD 0)), events := [.headerComplete] }
    | .chunked => { reader := r.enter .chunkStart, events := [.headerComplete] }
    | .noContent | .unknown =>
      { reader := r.enter .done, events := [.headerComplete, .messageComplete] }

/-- The first octet of a line continues the field before it, or delivers that field and begins
another one or the end of the section. -/
def pushLineStart (r : Reader) (head : Head) (pending : Option Field) (b : UInt8) : Step :=
  -- A colon with no name ahead of it is taken for the beginning of a continuation line.
  if b = colon || isBlank b then
    match pending with
    | some field =>
      .quiet (r.enter
        (.fieldValue head field.standard field.name (.ofList field.value) true false))
    | none => .fail r .badContinuation
  else
    match r.flush head pending with
    | .error fault => .fail r fault
    | .ok (r, head, events) =>
      if isLineEnd b then
        let step := (r.endLine b).endFields head
        { step with events := events ++ step.events }
      else { reader := r.enter (.fieldName head (Snoc.empty.push (toChar b))), events }

def pushFieldName (r : Reader) (head : Head) (token : Snoc Char) (b : UInt8) : Step :=
  let name := token.trimmed Text.isBlank
  -- A line without a colon is all name, and its value is empty.
  if isLineEnd b then
    .quiet ((r.endLine b).enter
      (.lineStart head (some ⟨StandardName.ofText? name, name, [], false⟩)))
  else if b = colon then
    .quiet (r.enter (.fieldValue head (StandardName.ofText? name) name .empty false false))
  else .quiet (r.enter (.fieldName head (token.push (toChar b))))

/-- Blanks ahead of the text of a line do not count; one space joins a continuation to the text
before it. -/
def pushFieldValue (r : Reader) (head : Head) (standard : Option StandardName) (name : Text)
    (token : Snoc Char) (folding recognized : Bool) (b : UInt8) : Step :=
  if isLineEnd b then
    .quiet ((r.endLine b).enter
      (.lineStart head (some ⟨standard, name, token.trimmed Text.isBlank, recognized⟩)))
  else if isBlank b then
    if folding || token.isEmpty then .quiet r
    else
      .quiet (r.enter
        (.fieldValue head standard name (token.push (toChar b)) false recognized))
  else
    let token := if folding && !token.isEmpty then token.push ' ' else token
    -- Beyond the text that was recognized it is another line.
    .quiet (r.enter (.fieldValue head standard name (token.push (toChar b)) false false))

end HttpStream.Reader
