import HttpStream.Field.Line

/-! Fields remembered on a connection. A client repeats many lines on each of its requests;
a remembered line is recognized as a whole. -/

set_option autoImplicit false

namespace HttpStream

structure FieldMemory where
  lines : Trie FieldLine := {}
  capacity : Nat

namespace FieldMemory

def size (memory : FieldMemory) : Nat := memory.lines.size

def isEmpty (memory : FieldMemory) : Bool := memory.lines.isEmpty

def isFull (memory : FieldMemory) : Bool := memory.capacity ≤ memory.size

def accepts (memory : FieldMemory) (line : FieldLine) : Bool :=
  !memory.isFull && !line.value.isEmpty

def grows (memory : FieldMemory) (line : FieldLine) : Bool :=
  memory.accepts line && (memory.lines.store line.wire line).2

def put (memory : FieldMemory) (line : FieldLine) : FieldMemory :=
  if memory.accepts line then { memory with lines := memory.lines.insert line.wire line }
  else memory

def best? (memory : FieldMemory) (input : Bytes) : Option (Nat × FieldLine) :=
  memory.lines.best? input

end FieldMemory

/-- The memory of a connection: not wanted so far, in use, or given up because the connection
will close. -/
inductive Recall where
  | unset
  | active (memory : FieldMemory)
  | disabled

namespace Recall

def memory? : Recall → Option FieldMemory
  | .active memory => some memory
  | .unset | .disabled => none

/-- Starts an empty memory unless one was started or given up before. -/
def enable (capacity : Nat) : Recall → Recall
  | .unset => if 0 < capacity then .active { capacity } else .unset
  | cache => cache

def put (line : FieldLine) : Recall → Recall
  | .active memory => .active (memory.put line)
  | cache => cache

def best? (cache : Recall) (input : Bytes) : Option (Nat × FieldLine) :=
  cache.memory?.bind (·.best? input)

end Recall
end HttpStream
