import HttpStream.Reader.Basic

/-! Bodies: slices of content, chunk lines and trailers. -/

set_option autoImplicit false

namespace HttpStream.Reader

open Octet

inductive Room where
  | none
  | atMost (octets : Nat)
  | unbounded

def room (r : Reader) : Room :=
  match r.stage with
  | .untilClose => .unbounded
  | .content remaining | .chunkData remaining => if 0 < remaining then .atMost remaining else .none
  | _ => .none

def deliver (r : Reader) (bytes : Bytes) : Step :=
  let stage := match r.stage with
    | .content remaining => .content (remaining - bytes.length)
    | .chunkData remaining => .chunkData (remaining - bytes.length)
    | stage => stage
  { reader := { r.enter stage with contentRead := r.contentRead + bytes.length }
    events := [.content bytes] }

def pushChunkStart (r : Reader) (b : UInt8) : Step :=
  let r := r.enter .chunkStart
  if isVisible b then
    match hexValue? b with
    | some digit => .quiet (r.enter (.chunkSize digit))
    | none => .fail r (.badChunkChar b)
  -- White space and line ends ahead of a size are skipped.
  else .quiet (r.endLine b)

def endChunkLine (r : Reader) (size : Nat) (b : UInt8) : Step :=
  let r := r.endLine b
  if 0 < size then .quiet (r.enter (.chunkData size))
  -- After the last chunk. If no trailers are read, the blank line goes with what follows.
  else if r.settings.trailers then .quiet (r.enter (.trailer .empty))
  else { reader := r.enter .done, events := [.messageComplete] }

def pushChunkSize (r : Reader) (size : Nat) (b : UInt8) : Step :=
  if isLineEnd b then r.endChunkLine size b
  -- White space after a size is as good as the semicolon ahead of parameters.
  else if b = semicolon || !isVisible b then .quiet (r.enter (.chunkParams size))
  else
    match hexValue? b with
    | some digit =>
      if size * 16 + digit < UInt64.size then .quiet (r.enter (.chunkSize (size * 16 + digit)))
      else .fail r .chunkSizeOverflow
    | none => .fail r (.badChunkChar b)

def pushChunkParams (r : Reader) (size : Nat) (b : UInt8) : Step :=
  if isLineEnd b then r.endChunkLine size b else .quiet r

/-- A trailer line cut at its first colon; without one it is all name. -/
def trailerField (line : Text) : Text × Text :=
  let name := line.takeWhile (· != ':')
  (Text.trim name, Text.trim (line.drop (name.length + 1)))

def pushTrailer (r : Reader) (token : Snoc Char) (b : UInt8) : Step :=
  if !isLineEnd b then .quiet (r.enter (.trailer (token.push (toChar b))))
  else if token.isEmpty then
    { reader := (r.endLine b).enter .done, events := [.messageComplete] }
  else
    let (name, value) := trailerField token.toList
    { reader := (r.endLine b).enter (.trailer .empty), events := [.trailer name value] }

end HttpStream.Reader
