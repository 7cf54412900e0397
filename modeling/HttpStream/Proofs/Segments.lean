import HttpStream.Input

/-! The octets of an input, apart from the segments in which they arrived. -/

set_option autoImplicit false

namespace HttpStream.Input

theorem flatten_of_next? {input : Input} {b : UInt8} {tail : Bytes} {later : Input}
    (h : next? input = some (b, tail, later)) : input.flatten = b :: (tail :: later).flatten := by
  fun_induction next? input with
  | case1 => simp at h
  | case2 later ih => simpa using ih h
  | case3 b tail later =>
    obtain ⟨rfl, rfl, rfl⟩ := by simpa using h
    rfl

theorem flatten_eq_nil_of_next? {input : Input} (h : next? input = none) : input.flatten = [] := by
  fun_induction next? input with
  | case1 => rfl
  | case2 later ih => simpa using ih h
  | case3 b tail later => simp at h

theorem flatten_drop (n : Nat) (input : Input) : (drop n input).flatten = input.flatten.drop n := by
  fun_induction drop n input with
  | case1 => simp
  | case2 n segment later h =>
    rw [List.flatten_cons, List.flatten_cons, List.drop_append_of_le_length (Nat.le_of_lt h)]
  | case3 n segment later h ih =>
    rw [ih, List.flatten_cons, List.drop_append, List.drop_eq_nil_of_le (Nat.le_of_not_lt h),
      List.nil_append]

theorem next?_of_flatten {input : Input} {b : UInt8} {bytes : Bytes}
    (h : input.flatten = b :: bytes) : ∃ tail later, next? input = some (b, tail, later) := by
  fun_induction next? input with
  | case1 => cases h
  | case2 later ih => exact ih h
  | case3 c tail later =>
    cases h
    exact ⟨tail, later, rfl⟩

theorem drop_drop (m n : Nat) (input : Input) : drop m (drop n input) = drop (n + m) input := by
  fun_induction drop n input with
  | case1 => rfl
  | case2 n segment later h =>
    have more : n + m < segment.length ↔ m < (segment.drop n).length := by
      rw [List.length_drop]
      omega
    have left : m - (segment.drop n).length = n + m - segment.length := by
      rw [List.length_drop]
      omega
    simp only [drop, more, left, List.drop_drop]
  | case3 n segment later h ih =>
    have less : ¬n + m < segment.length := by omega
    have left : n - segment.length + m = n + m - segment.length := by omega
    rw [ih, drop, if_neg less, left]

theorem drop_of_next? {input : Input} {b : UInt8} {tail : Bytes} {later : Input}
    (h : next? input = some (b, tail, later)) (n : Nat) :
    drop n (tail :: later) = drop (n + 1) input := by
  fun_induction next? input with
  | case1 => cases h
  | case2 rest ih => simpa [drop] using ih h
  | case3 c tail' later' =>
    cases h
    simp [drop]

theorem active_of_next? {input : Input} {b : UInt8} {tail : Bytes} {later : Input}
    (h : next? input = some (b, tail, later)) : active input = b :: tail := by
  fun_induction next? input with
  | case1 => cases h
  | case2 later ih => exact ih h
  | case3 c tail later =>
    cases h
    rfl

theorem active_prefix (input : Input) : active input <+: input.flatten := by
  fun_induction active input with
  | case1 => exact List.prefix_rfl
  | case2 later ih => simpa using ih
  | case3 b tail later => exact List.prefix_append (b :: tail) later.flatten

theorem take_active {input : Input} {n : Nat} (h : n ≤ (active input).length) :
    (active input).take n = input.flatten.take n := by
  obtain ⟨later, whole⟩ := active_prefix input
  rw [← whole, List.take_append_of_le_length h]

theorem getElem?_active {input : Input} {n : Nat} {b : UInt8} (h : (active input)[n]? = some b) :
    input.flatten[n]? = some b := by
  obtain ⟨later, whole⟩ := active_prefix input
  have within : n < (active input).length := (List.getElem?_eq_some_iff.mp h).1
  rwa [← whole, List.getElem?_append_left within]

end HttpStream.Input
