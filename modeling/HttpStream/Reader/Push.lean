import HttpStream.Reader.Body
import HttpStream.Reader.FieldSection
import HttpStream.Reader.StartLine

/-! The reader as a machine on single octets. -/

set_option autoImplicit false

namespace HttpStream.Reader

def interpret (r : Reader) (capacity : Nat) (b : UInt8) : Step :=
  match r.stage with
  | .start => r.pushStart b
  | .method token => r.pushMethod token b
  | .beforeUri method => r.pushBeforeUri method b
  | .uri method => r.pushUri method b
  | .afterUri method => r.pushAfterUri method b
  | .requestVersion method token => r.pushRequestVersion capacity method token b
  | .responseVersion token => r.pushResponseVersion token b
  | .beforeStatus version => r.pushBeforeStatus version b
  | .status version value digits => r.pushStatus version value digits b
  | .afterStatus version status => r.pushAfterStatus version status b
  | .reason version status token => r.pushReason version status token b
  | .lineStart head pending => r.pushLineStart head pending b
  | .fieldName head token => r.pushFieldName head token b
  | .fieldValue head standard name token folding recognized =>
    r.pushFieldValue head standard name token folding recognized b
  | .untilClose | .content _ | .chunkData (_ + 1) => r.deliver [b]
  -- A chunk of which all octets came is followed by the next chunk line.
  | .chunkStart | .chunkData 0 => r.pushChunkStart b
  | .chunkSize size => r.pushChunkSize size b
  | .chunkParams size => r.pushChunkParams size b
  | .trailer token => r.pushTrailer token b
  | .done | .closed => .quiet r

def accept (r : Reader) (capacity : Nat) (b : UInt8) : Step :=
  if r.isLineRest b then .quiet (r.endLine b)
  else { r with afterCr := false }.interpret capacity b

/-- Reads one octet. `capacity` is the size of the memory that a request line may start. -/
def push (r : Reader) (capacity : Nat) (b : UInt8) : Step :=
  if r.stage.isCounted then
    -- The octet that exceeds the limit is counted before it is refused.
    match r.count.limitFault? with
    | some fault => .fail r.count fault
    | none => r.count.accept capacity b
  else r.accept capacity b

end HttpStream.Reader
