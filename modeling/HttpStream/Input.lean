import HttpStream.Octet

/-! The unread octets of a connection, in the segments in which they arrived. -/

set_option autoImplicit false

namespace HttpStream

abbrev Input := List Bytes

namespace Input

def size (input : Input) : Nat := input.flatten.length

def next? : Input → Option (UInt8 × Bytes × Input)
  | [] => none
  | [] :: later => next? later
  | (b :: tail) :: later => some (b, tail, later)

def active : Input → Bytes
  | [] => []
  | [] :: later => active later
  | (b :: tail) :: _ => b :: tail

def drop (n : Nat) : Input → Input
  | [] => []
  | segment :: later =>
    if n < segment.length then segment.drop n :: later else drop (n - segment.length) later

@[simp] theorem size_nil : size [] = 0 := rfl

@[simp] theorem size_cons (segment : Bytes) (later : Input) :
    size (segment :: later) = segment.length + size later := by
  simp [size]

theorem size_of_next? {input : Input} {b : UInt8} {tail : Bytes} {later : Input}
    (h : next? input = some (b, tail, later)) : size input = size (tail :: later) + 1 := by
  fun_induction next? input with
  | case1 => simp at h
  | case2 later ih => simpa using ih h
  | case3 b tail later =>
    obtain ⟨rfl, rfl, rfl⟩ := by simpa using h
    simp only [size_cons, List.length_cons]
    omega

theorem size_drop (n : Nat) (input : Input) : size (drop n input) = size input - n := by
  fun_induction drop n input with
  | case1 => simp
  | case2 n segment later h => simp only [size_cons, List.length_drop]; omega
  | case3 n segment later h ih => rw [ih, size_cons]; omega

theorem size_drop_lt {input : Input} {b : UInt8} {tail : Bytes} {later : Input} (n : Nat)
    (h : next? input = some (b, tail, later)) : size (drop n (tail :: later)) < size input := by
  rw [size_drop, size_of_next? h]
  omega

end Input

/-- The octets in pieces of `size`, the last one perhaps shorter; a size of 0 counts as 1. -/
def Bytes.pieces (size : Nat) : Bytes → List Bytes
  | [] => []
  | b :: rest => (b :: rest.take (size - 1)) :: pieces size (rest.drop (size - 1))
termination_by bytes => bytes.length
decreasing_by simp only [List.length_drop, List.length_cons]; omega

end HttpStream
