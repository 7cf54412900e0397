import HttpStream.Proofs.Steps
import HttpStream.Reader.Call

/-! What a stage holds can as well be kept in registers of fixed size: a text that grows, where it
ends without its last blanks, the numbers of a chunk. And a reading can be written as loops, one for
each part of a message. Registers and loops run along with the reader here, so that it can be said
of each moment whether the operations on them are in range. -/

set_option autoImplicit false

namespace HttpStream

open Octet

/-- The loops of a reading, in the order in which they are run. -/
inductive Loop where
  | opening
  | startLine
  | fields
  | body
  deriving DecidableEq, Repr

namespace Loop

def holds : Loop → Stage → Bool
  | .opening, stage => stage.isStart
  | .startLine, stage => stage.inStartLine
  | .fields, stage => stage.inHead
  | .body, stage => stage.inBody || stage.isClosed

def handles : Loop → Stage → Bool
  | .opening, stage => stage.isStart
  | .startLine, stage => stage.inStartLine && !stage.isStart
  | .fields, stage => stage.inFields
  | .body, stage => stage.inBody || stage.isClosed

def onward : Loop → List Loop
  | .opening => [.opening, .startLine, .fields, .body]
  | .startLine => [.startLine, .fields, .body]
  | .fields => [.fields, .body]
  | .body => [.body]

/-- The loop that takes the next octet: loops that do not go on are left for good. -/
def next? (loop : Loop) (stage : Stage) : Option Loop := loop.onward.find? (·.holds stage)

end Loop

structure Registers where
  text : String := ""
  -- Where the text ends without its last blanks.
  length : Nat := 0
  chunkLength : Nat := 0
  chunkPosition : Nat := 0
  -- Octets that came after the reader was closed.
  discarded : Nat := 0

namespace Registers

def clear (registers : Registers) : Registers := { registers with text := "" }

def add (registers : Registers) (c : Char) : Registers :=
  { registers with text := registers.text.push c }

def mark (registers : Registers) : Registers :=
  { registers with length := registers.text.utf8ByteSize }

def hold (registers : Registers) (token : Snoc Char) : Registers :=
  { registers with text := String.ofList token.toList }.mark

def discard (registers : Registers) (n : Nat) : Registers :=
  { registers with discarded := registers.discarded + n }

/-- The rest of a token is added as it comes, and no blank moves its end. -/
def extend (registers : Registers) (b : UInt8) : Registers :=
  if isBlank b then registers.add (toChar b) else (registers.add (toChar b)).mark

def deliver (registers : Registers) (stage : Stage) (n : Nat) : Registers :=
  match stage with
  | .chunkData _ => { registers with chunkPosition := registers.chunkPosition + n }
  | _ => registers

def beginChunk (registers : Registers) (b : UInt8) : Registers :=
  match if isVisible b then hexValue? b else none with
  | some digit => { registers with chunkLength := digit, chunkPosition := 0 }
  | none => registers

def addDigit (registers : Registers) (digit : Nat) : Registers :=
  if registers.chunkLength * 16 + digit < UInt64.size then
    { registers with chunkLength := registers.chunkLength * 16 + digit }
  else registers

def endChunkLine (registers : Registers) (trailers : Bool) : Registers :=
  if registers.chunkLength = 0 && trailers then registers.clear else registers

def interpret (registers : Registers) (r : Reader) (b : UInt8) : Registers :=
  match r.stage with
  | .start => if isVisible b then registers.clear.add (toChar b) else registers
  | .method _ | .responseVersion _ =>
    if b = sp || isControl b then registers else registers.add (toChar b)
  | .afterUri _ =>
    if isBlank b || isControl b then registers else registers.clear.add (toChar b)
  | .requestVersion _ _ => if isLineEnd b then registers else registers.add (toChar b)
  | .afterStatus _ _ =>
    if isBlank b || isControl b then registers else (registers.clear.add (toChar b)).mark
  | .reason _ _ _ => if isLineEnd b then registers else registers.extend b
  | .fieldName _ _ =>
    if isLineEnd b then registers
    else if b = colon then { registers.clear with length := 0 }
    else registers.extend b
  | .fieldValue _ _ _ _ folding _ =>
    if isLineEnd b then registers
    else if isBlank b then
      if folding || registers.text.isEmpty then registers else registers.add (toChar b)
    else
      let joined := if folding && !registers.text.isEmpty then registers.add ' ' else registers
      (joined.add (toChar b)).mark
  | .chunkStart | .chunkData 0 => registers.beginChunk b
  | .chunkSize _ =>
    if isLineEnd b then registers.endChunkLine r.settings.trailers
    else if b = semicolon || !isVisible b then registers
    else match hexValue? b with
      | some digit => registers.addDigit digit
      | none => registers
  | .chunkParams _ =>
    if isLineEnd b then registers.endChunkLine r.settings.trailers else registers
  | .trailer _ => if isLineEnd b then registers.clear else registers.add (toChar b)
  | .untilClose | .content _ | .chunkData (_ + 1) => registers.deliver r.stage 1
  | .beforeUri _ | .uri _ | .beforeStatus _ | .status _ _ _ | .lineStart _ _ | .done | .closed =>
    registers

/-- A line of the field section begins with what is continued, or with what is known of it. -/
def openLine (registers : Registers) (before after : Stage) : Registers :=
  match before, after with
  | .lineStart _ _, .fieldName _ token | .lineStart _ _, .fieldValue _ _ _ token _ _ =>
    registers.hold token
  | _, _ => registers

def turn (registers : Registers) (r : Reader) (b : UInt8) (tail : Bytes) (turn : Turn) :
    Registers :=
  if (r.startAhead? (b :: tail)).isSome then registers
  else
    match r.slice? b tail with
    | some bytes => registers.deliver r.stage bytes.length
    | none =>
      if turn.step.fault.isSome || r.isLineRest b then registers
      else (registers.interpret r b).openLine r.stage turn.step.reader.stage

def answer (registers : Registers) : Call → Registers
  | .reset => {}
  | .close => { registers with discarded := 0 }
  | .read _ | .shutdown | .headResponse _ => registers

end Registers

/-- A reader with its registers, and with the input of the reading under way. -/
structure Moment where
  reader : Reader
  registers : Registers := {}
  loop : Loop := .opening
  input : Input := []

namespace Moment

variable {σ : Type}

def next (m : Moment) (capacity : Nat) (b : UInt8) (tail : Bytes) (later : Input) : Moment :=
  let turn := m.reader.turn capacity b tail later
  { reader := turn.step.reader
    registers := m.registers.turn m.reader b tail turn
    loop := (m.loop.next? m.reader.stage).getD m.loop
    input := Input.drop turn.extra (tail :: later) }

def shut (m : Moment) : Moment := { m with reader := m.reader.enter .closed, input := [] }

def read (m : Moment) (listener : Listener σ) (state : σ) : List Moment :=
  match m.reader.stage with
  | .done => [m]
  | .closed => [m, { m with registers := m.registers.discard m.input.size, input := [] }]
  | .content 0 => [m, { m with reader := m.reader.enter .done }]
  | _ =>
    match _h : m.input.next? with
    | none => [m]
    | some (b, tail, later) =>
      let capacity := m.reader.capacityFor listener state
      let step := (m.reader.turn capacity b tail later).step
      let next := m.next capacity b tail later
      let (state, stop) := listener.hear state step.events
      if step.fault.isSome then [m, next.shut]
      else if stop then [m, next]
      else m :: next.read listener state
termination_by m.input.size
decreasing_by exact Input.size_drop_lt _ ‹_›

def answer (m : Moment) (listener : Listener σ) (state : σ) : Call → List Moment
  | .read input => read { m with loop := .opening, input } listener state
  | call =>
    let reader := (m.reader.answer listener state call).reader
    [m, { reader, registers := m.registers.answer call }]

/-- The moments of calls in order, ahead of each of them and after the last one included. -/
def answers (m : Moment) (listener : Listener σ) (state : σ) : List Call → List Moment
  | [] => [m]
  | call :: rest =>
    let reply := m.reader.answer listener state call
    let passed := m.answer listener state call
    let registers := (passed.getLastD m).registers
    passed ++ answers { reader := reply.reader, registers } listener reply.state rest

end Moment

def Call.input : Call → Input
  | .read input => input
  | .shutdown | .close | .reset | .headResponse _ => []

/-- The octets that calls give to a reader. Those that it leaves and that are given again count
once. -/
def Reader.fed {σ : Type} (r : Reader) (listener : Listener σ) (state : σ) : List Call → Nat
  | [] => 0
  | call :: rest =>
    let reply := r.answer listener state call
    max call.input.size
      (call.input.size - reply.rest.size + reply.reader.fed listener reply.state rest)

end HttpStream
