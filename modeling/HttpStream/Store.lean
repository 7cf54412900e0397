/-! Items under the numbers 0, 1, 2 and so on; a new item gets the next number. They stand in a
binary tree, so that an item is found in as many steps as its number has binary digits, also where
a term is evaluated by reduction. -/

set_option autoImplicit false

namespace HttpStream

/-- Items by number: item 0 first, and behind it those of odd and those of even numbers, by the
half of what the number is above 0. -/
inductive Items (α : Type) where
  | none
  | item (first : α) (odd even : Items α)

namespace Items

variable {α : Type} {items odd even : Items α} {first : α} {size : Nat}

def get? : Items α → Nat → Option α
  | .none, _ => Option.none
  | .item first _ _, 0 => some first
  | .item _ odd even, i + 1 => if i % 2 = 0 then odd.get? (i / 2) else even.get? (i / 2)

/-- Puts an item under a number that has one, or under the first number that has none. -/
def put (x : α) : Items α → Nat → Items α
  | .none, _ => .item x .none .none
  | .item _ odd even, 0 => .item x odd even
  | .item first odd even, i + 1 =>
    if i % 2 = 0 then .item first (odd.put x (i / 2)) even
    else .item first odd (even.put x (i / 2))

def Filled (items : Items α) (size : Nat) : Prop := ∀ i, (items.get? i).isSome ↔ i < size

theorem Filled.none : (none : Items α).Filled 0 := by
  intro i
  simp [get?]

theorem Filled.odds (h : (item first odd even).Filled (size + 1)) :
    odd.Filled ((size + 1) / 2) := by
  intro i
  have whole := h (2 * i + 1)
  simp only [get?, Nat.mul_mod_right, if_true, Nat.mul_div_cancel_left i Nat.two_pos] at whole
  rw [whole]
  omega

theorem Filled.evens (h : (item first odd even).Filled (size + 1)) : even.Filled (size / 2) := by
  intro i
  have whole := h (2 * i + 1 + 1)
  have half : (2 * i + 1) / 2 = i := by omega
  simp only [get?, Nat.mul_add_mod_self_left, Nat.one_mod, Nat.one_ne_zero, if_false, half] at whole
  rw [whole]
  omega

theorem get?_put (h : items.Filled size) (x : α) {i : Nat} (within : i ≤ size) (j : Nat) :
    (items.put x i).get? j = if j = i then some x else items.get? j := by
  induction items generalizing size i j with
  | none =>
    obtain rfl : size = 0 := by simpa [get?] using h 0
    obtain rfl : i = 0 := by omega
    cases j <;> simp [put, get?]
  | item first odd even ihOdd ihEven =>
    cases size with
    | zero => simpa [get?] using h 0
    | succ size =>
      cases i with
      | zero => cases j <;> simp [put, get?]
      | succ i =>
        -- The item goes to one side: on the other one nothing changes.
        by_cases side : i % 2 = 0
        · cases j with
          | zero => simp [put, side, get?]
          | succ j =>
            by_cases beside : j % 2 = 0
            · have halves : j / 2 = i / 2 ↔ j = i := by omega
              simp [put, get?, side, beside, ihOdd h.odds (by omega : i / 2 ≤ _), halves]
            · have other : j ≠ i := by omega
              simp [put, get?, side, beside, other]
        · cases j with
          | zero => simp [put, side, get?]
          | succ j =>
            by_cases beside : j % 2 = 0
            · have other : j ≠ i := by omega
              simp [put, get?, side, beside, other]
            · have halves : j / 2 = i / 2 ↔ j = i := by omega
              simp [put, get?, side, beside, ihEven h.evens (by omega : i / 2 ≤ _), halves]

theorem Filled.put (h : items.Filled size) (x : α) {i : Nat} (within : i < size) :
    (items.put x i).Filled size := by
  intro j
  rw [get?_put h x (Nat.le_of_lt within), ← h j]
  split
  · next same => simp [same, (h i).mpr within]
  · rfl

theorem Filled.put_size (h : items.Filled size) (x : α) : (items.put x size).Filled (size + 1) := by
  intro j
  rw [get?_put h x (Nat.le_refl size)]
  split
  · next last => simp [last]
  · rw [h j]
    omega

end Items

theorem Store.ended_empty {α : Type} : (none : Option α).isSome ↔ 0 < 0 := by simp

/-- Items under the numbers below `size`. The last one stands apart, as that is where a store grows
and where it is changed most. -/
structure Store (α : Type) where
  size : Nat := 0
  front : Items α := .none
  last : Option α := none
  filled : front.Filled (size - 1) := by exact Items.Filled.none
  ended : last.isSome ↔ 0 < size := by exact Store.ended_empty

namespace Store

variable {α : Type} {store : Store α} {i : Nat} {x : α}

def get? (store : Store α) (i : Nat) : Option α :=
  if i + 1 = store.size then store.last else store.front.get? i

theorem isSome_get? : (store.get? i).isSome ↔ i < store.size := by
  unfold get?
  split
  · next last =>
    rw [store.ended]
    omega
  · next ahead =>
    rw [store.filled i]
    omega

theorem lt_size (h : store.get? i = some x) : i < store.size := by
  rw [← isSome_get?, h]
  rfl

theorem exists_get? (h : i < store.size) : ∃ x, store.get? i = some x :=
  Option.isSome_iff_exists.mp (isSome_get?.mpr h)

def modify (store : Store α) (i : Nat) (change : α → α) : Store α :=
  if i + 1 = store.size then
    { store with
      last := store.last.map change
      ended := by rw [Option.isSome_map, store.ended] }
  else
    match found : store.front.get? i with
    | some x =>
      { store with
        front := store.front.put (change x) i
        filled := store.filled.put _ ((store.filled i).mp (Option.isSome_of_mem found)) }
    | none => store

def push (store : Store α) (x : α) : Store α where
  size := store.size + 1
  front :=
    -- The item that was last moves into the tree.
    match store.last with
    | some last => store.front.put last (store.size - 1)
    | none => store.front
  last := some x
  filled := by
    have ended := store.ended
    split
    · next last found =>
      rw [found] at ended
      have grown := store.filled.put_size last
      rwa [Nat.sub_add_cancel (ended.mp rfl)] at grown
    · next found =>
      have empty : store.size = 0 := by simpa [found] using ended
      simpa [empty] using store.filled
  ended := by simp

@[simp] theorem size_modify (change : α → α) : (store.modify i change).size = store.size := by
  unfold modify
  split
  · rfl
  · split <;> rfl

@[simp] theorem size_push : (store.push x).size = store.size + 1 := rfl

theorem get?_modify (change : α → α) (j : Nat) :
    (store.modify i change).get? j =
      if j = i then (store.get? j).map change else store.get? j := by
  unfold modify
  split
  · next last =>
    by_cases same : j = i
    · simp [get?, same, last]
    · have ahead : j + 1 ≠ store.size := by omega
      simp [get?, same, ahead]
  · next ahead =>
    split
    · next x found =>
      have inside : i < store.size - 1 := (store.filled i).mp (Option.isSome_of_mem found)
      have put := Items.get?_put store.filled (change x) (Nat.le_of_lt inside) j
      by_cases same : j = i
      · subst same
        simp [get?, ahead, put, found]
      · simp [get?, put, same]
    · next found =>
      split
      · next same =>
        simp [get?, same, ahead, found]
      · rfl

theorem get?_push (j : Nat) :
    (store.push x).get? j = if j = store.size then some x else store.get? j := by
  have ended := store.ended
  simp only [get?, push, Nat.add_right_cancel_iff]
  split
  · rfl
  · cases found : store.last with
    | some last =>
      have positive : 0 < store.size := by simpa [found] using ended
      have same : j = store.size - 1 ↔ j + 1 = store.size := by omega
      simp only [Items.get?_put store.filled last (Nat.le_refl _), same]
    | none =>
      have empty : store.size = 0 := by simpa [found] using ended
      simp [empty]

end Store
end HttpStream
