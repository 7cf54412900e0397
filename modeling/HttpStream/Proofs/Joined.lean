import HttpStream.Event

/-! Events told up to the cuts of a body. Joining the slices of a whole needs no more of its parts
than what is left of them when their own slices are joined. -/

set_option autoImplicit false

namespace HttpStream.Event

variable {xs ys zs first second : List Event}

theorem joined_cons_of_ne {event : Event} (other : ∀ bytes, event ≠ .content bytes)
    (rest : List Event) : joined (event :: rest) = event :: joined rest := by
  cases event with
  | content bytes => exact absurd rfl (other bytes)
  | _ => rfl

theorem joined_cons_congr (event : Event) (h : joined xs = joined ys) :
    joined (event :: xs) = joined (event :: ys) := by
  cases event <;> simp only [joined, h]

theorem joined_append_right (xs : List Event) (h : joined ys = joined zs) :
    joined (xs ++ ys) = joined (xs ++ zs) := by
  induction xs with
  | nil => exact h
  | cons event xs ih => exact joined_cons_congr event ih

theorem joined_content_content (bytes more : Bytes) (rest : List Event) :
    joined (.content bytes :: .content more :: rest) =
      joined (.content (bytes ++ more) :: rest) := by
  simp only [joined]
  cases joined rest with
  | nil => rfl
  | cons event rest => cases event <;> simp

theorem joined_joined_append (xs ys : List Event) :
    joined (joined xs ++ ys) = joined (xs ++ ys) := by
  induction xs with
  | nil => rfl
  | cons event xs ih =>
    by_cases slice : ∃ bytes, event = .content bytes
    · obtain ⟨bytes, rfl⟩ := slice
      have step : joined (.content bytes :: (joined xs ++ ys)) =
          joined (.content bytes :: (xs ++ ys)) := joined_cons_congr _ ih
      rw [List.cons_append, ← step]
      -- The slice may run into the first one of the rest, which is joined to it either way.
      cases whole : joined xs with
      | nil => simp [joined, whole]
      | cons next rest =>
        cases next with
        | content more =>
          simp only [joined, whole, List.cons_append]
          exact (joined_content_content bytes more (rest ++ ys)).symm
        | _ => simp only [joined, whole, List.cons_append]
    · have other : ∀ bytes, event ≠ .content bytes := fun bytes same => slice ⟨bytes, same⟩
      rw [joined_cons_of_ne other, List.cons_append, List.cons_append]
      exact joined_cons_congr event ih

theorem joined_append_cons {event : Event} (other : ∀ bytes, event ≠ .content bytes)
    (xs ys : List Event) : joined (xs ++ event :: ys) = joined xs ++ event :: joined ys := by
  induction xs with
  | nil => exact joined_cons_of_ne other ys
  | cons first xs ih =>
    cases first with
    | content bytes =>
      simp only [List.cons_append, joined, ih]
      cases joined xs with
      | nil =>
        cases event with
        | content more => exact absurd rfl (other more)
        | _ => rfl
      | cons next rest => cases next <;> rfl
    | _ => simp only [List.cons_append, joined, ih]

theorem joined_append (left : joined first = joined second) (right : joined xs = joined ys) :
    joined (first ++ xs) = joined (second ++ ys) :=
  calc joined (first ++ xs)
      = joined (joined first ++ xs) := (joined_joined_append first xs).symm
    _ = joined (second ++ xs) := by rw [left, joined_joined_append]
    _ = joined (second ++ ys) := joined_append_right second right

/-! Events without slices. -/

theorem joined_of_noContent (none : ∀ bytes, .content bytes ∉ xs) : joined xs = xs := by
  induction xs with
  | nil => rfl
  | cons event rest ih =>
    have other : ∀ bytes, event ≠ .content bytes := fun bytes same =>
      none bytes (same ▸ List.mem_cons_self)
    rw [joined_cons_of_ne other, ih fun bytes member => none bytes (List.mem_cons_of_mem _ member)]

theorem noContent_of_joined (none : ∀ bytes, .content bytes ∉ joined xs) :
    ∀ bytes, .content bytes ∉ xs := by
  induction xs with
  | nil => nofun
  | cons event rest ih =>
    by_cases slice : ∃ bytes, event = .content bytes
    · obtain ⟨bytes, rfl⟩ := slice
      have first : ∃ more, .content more ∈ joined (.content bytes :: rest) := by
        simp only [joined]
        split <;> exact ⟨_, List.mem_cons_self⟩
      obtain ⟨more, member⟩ := first
      exact absurd member (none more)
    · have other : ∀ bytes, event ≠ .content bytes := fun bytes same => slice ⟨bytes, same⟩
      rw [joined_cons_of_ne other] at none
      intro bytes member
      rcases List.mem_cons.mp member with same | later
      · exact other bytes same.symm
      · exact ih (fun bytes member => none bytes (List.mem_cons_of_mem _ member)) bytes later

/-- Events that are the same up to the cuts of a body are the same where there is no body. -/
theorem eq_of_joined_eq (same : joined xs = joined ys) (none : ∀ bytes, .content bytes ∉ ys) :
    xs = ys := by
  rw [joined_of_noContent none] at same
  have none' : ∀ bytes, .content bytes ∉ xs := noContent_of_joined (by rwa [same])
  rwa [joined_of_noContent none'] at same

/-! Slices in a row. -/

theorem joined_slices (first : Bytes) (slices : List Bytes) {rest : List Event}
    (none : ∀ bytes, .content bytes ∉ rest) :
    joined ((first :: slices).map .content ++ rest) =
      .content (first :: slices).flatten :: rest := by
  induction slices generalizing first with
  | nil =>
    have plain := joined_of_noContent none
    simp only [List.map_cons, List.map_nil, List.cons_append, List.nil_append, joined, plain,
      List.flatten_cons, List.flatten_nil, List.append_nil]
    cases rest with
    | nil => rfl
    | cons event rest =>
      cases event with
      | content bytes => exact absurd List.mem_cons_self (none bytes)
      | _ => rfl
  | cons second slices ih =>
    rw [List.map_cons, List.cons_append, joined, ih second]
    rfl

theorem slices_of_joined_eq_cons {told rest : List Event} {bytes : Bytes}
    (none : ∀ bytes, .content bytes ∉ rest) (same : joined told = .content bytes :: rest) :
    ∃ slices : List Bytes, told = slices.map .content ++ rest ∧ slices.flatten = bytes := by
  induction told generalizing bytes with
  | nil => cases same
  | cons event told ih =>
    by_cases slice : ∃ first, event = .content first
    · obtain ⟨first, rfl⟩ := slice
      simp only [joined] at same
      split at same
      · next more after later =>
        cases same
        obtain ⟨slices, rfl, rfl⟩ := ih later
        exact ⟨first :: slices, rfl, rfl⟩
      · next alone =>
        cases same
        have whole : told = joined told := eq_of_joined_eq (joined_of_noContent none).symm none
        exact ⟨[bytes], congrArg (.content bytes :: ·) whole, by simp⟩
    · have other : ∀ bytes, event ≠ .content bytes := fun bytes same => slice ⟨bytes, same⟩
      rw [joined_cons_of_ne other] at same
      cases same
      exact absurd rfl (other bytes)

theorem slices_of_joined_eq {told rest : List Event} {bodies : List Bytes}
    (none : ∀ bytes, .content bytes ∉ rest)
    (same : joined told = joined (bodies.map .content ++ rest)) :
    ∃ slices : List Bytes, told = slices.map .content ++ rest ∧
      slices.flatten = bodies.flatten := by
  cases bodies with
  | nil => exact ⟨[], eq_of_joined_eq same none, rfl⟩
  | cons first bodies =>
    rw [joined_slices first bodies none] at same
    exact slices_of_joined_eq_cons none same

end HttpStream.Event
