import HttpStream.Octet

/-! Nodes of a trie. A node numbers the nodes that single octets lead to; these stand in ascending
order of the octets, so that one is found by halving. -/

set_option autoImplicit false

namespace HttpStream.Trie

def Ascending (children : List (UInt8 × Nat)) : Prop := children.Pairwise fun x y => x.1 < y.1

/-- The first place from `low` to `high` whose octet is not below `b`. -/
def place (children : List (UInt8 × Nat)) (b : UInt8) (low high : Nat) : Nat :=
  if low < high then
    let middle := (low + high) / 2
    if (children[middle]?).any (·.1 < b) then place children b (middle + 1) high
    else place children b low middle
  else low
termination_by high - low

structure Parts (children : List (UInt8 × Nat)) (b : UInt8) (p : Nat) : Prop where
  below : ∀ child ∈ children.take p, child.1 < b
  above : ∀ child ∈ children.drop p, b ≤ child.1

variable {children : List (UInt8 × Nat)} {b : UInt8}

theorem Ascending.around (h : Ascending children) {i : Nat} (inside : i < children.length) :
    (∀ child ∈ children.take i, child.1 < children[i].1) ∧
      ∀ child ∈ children.drop (i + 1), children[i].1 < child.1 := by
  have split := h
  rw [Ascending, ← List.take_append_drop i children, List.drop_eq_getElem_cons inside,
    List.pairwise_append, List.pairwise_cons] at split
  obtain ⟨_, ⟨behind, _⟩, ahead⟩ := split
  exact ⟨fun child member => ahead child member _ List.mem_cons_self, behind⟩

theorem Ascending.parts_place (h : Ascending children) {low high : Nat} (ordered : low ≤ high)
    (within : high ≤ children.length) (below : ∀ child ∈ children.take low, child.1 < b)
    (above : ∀ child ∈ children.drop high, b ≤ child.1) :
    Parts children b (place children b low high) := by
  -- The children outside the interval are known to be on their sides of the octet.
  fun_induction place children b low high with
  | case1 low high more middle small ih =>
    have inside : middle < children.length := by omega
    have smaller : children[middle].1 < b := by simpa [List.getElem?_eq_getElem inside] using small
    refine ih (by omega) within ?_ above
    intro child member
    rw [List.take_succ_eq_append_getElem inside, List.mem_append, List.mem_singleton] at member
    rcases member with ahead | rfl
    · exact UInt8.lt_trans ((h.around inside).1 child ahead) smaller
    · exact smaller
  | case2 low high more middle large ih =>
    have inside : middle < children.length := by omega
    have larger : b ≤ children[middle].1 := by
      simpa [List.getElem?_eq_getElem inside, UInt8.not_lt] using large
    refine ih (by omega) (Nat.le_of_lt inside) below ?_
    intro child member
    rw [List.drop_eq_getElem_cons inside, List.mem_cons] at member
    rcases member with rfl | behind
    · exact larger
    · exact UInt8.le_of_lt (UInt8.lt_of_le_of_lt larger ((h.around inside).2 child behind))
  | case3 low high done =>
    obtain rfl : low = high := by omega
    exact ⟨below, above⟩

structure Node where
  children : List (UInt8 × Nat) := []
  value : Option Nat := none

namespace Node

variable {node : Node}

def place (node : Node) (b : UInt8) : Nat := Trie.place node.children b 0 node.children.length

def child? (node : Node) (b : UInt8) : Option Nat :=
  (node.children[node.place b]?).bind fun child => if child.1 = b then some child.2 else none

def link (node : Node) (b : UInt8) (next : Nat) : Node :=
  { node with
    children := node.children.take (node.place b) ++ (b, next) :: node.children.drop (node.place b) }

def hold (node : Node) (index : Nat) : Node := { node with value := some index }

theorem parts (ascending : Ascending node.children) (b : UInt8) :
    Parts node.children b (node.place b) :=
  ascending.parts_place (Nat.zero_le _) (Nat.le_refl _) (by simp) (by simp)

theorem child?_eq_some_iff (ascending : Ascending node.children) {j : Nat} :
    node.child? b = some j ↔ (b, j) ∈ node.children := by
  obtain ⟨below, above⟩ := parts ascending b
  have first : node.children[node.place b]? = (node.children.drop (node.place b)).head? :=
    (List.head?_drop ..).symm
  have ordered : Ascending (node.children.drop (node.place b)) := ascending.drop
  conv => rhs; rw [← List.take_append_drop (node.place b) node.children, List.mem_append]
  rw [child?, first]
  generalize node.children.take (node.place b) = front at *
  generalize node.children.drop (node.place b) = back at *
  have ahead : (b, j) ∉ front := fun member => UInt8.lt_irrefl b (below _ member)
  cases back with
  | nil => simp [ahead]
  | cons child back =>
    have behind : (b, j) ∉ back := by
      intro member
      have larger := (List.pairwise_cons.mp ordered).1 _ member
      exact UInt8.not_lt.mpr (above child List.mem_cons_self) larger
    obtain ⟨c, next⟩ := child
    by_cases same : c = b
    · simp [ahead, behind, same, eq_comm]
    · simp [ahead, behind, same, Ne.symm same]

@[simp] theorem value_link (next : Nat) : (node.link b next).value = node.value := rfl

theorem mem_link {child : UInt8 × Nat} {next : Nat} :
    child ∈ (node.link b next).children ↔ child = (b, next) ∨ child ∈ node.children := by
  conv => rhs; rw [← List.take_append_drop (node.place b) node.children]
  simp only [link, List.mem_append, List.mem_cons]
  exact or_left_comm

theorem ascending_link (ascending : Ascending node.children) (free : node.child? b = none)
    (next : Nat) : Ascending (node.link b next).children := by
  obtain ⟨below, above⟩ := parts ascending b
  have whole := ascending
  rw [Ascending, ← List.take_append_drop (node.place b) node.children,
    List.pairwise_append] at whole
  obtain ⟨front, back, across⟩ := whole
  rw [Ascending, link, List.pairwise_append, List.pairwise_cons]
  refine ⟨front, ⟨?_, back⟩, ?_⟩
  · rintro ⟨c, j⟩ member
    refine UInt8.lt_of_le_of_ne (above _ member) ?_
    rintro rfl
    have taken := (child?_eq_some_iff ascending).mpr (List.mem_of_mem_drop member)
    rw [free] at taken
    cases taken
  · intro child member other behind
    rcases List.mem_cons.mp behind with rfl | behind
    · exact below child member
    · exact across child member other behind

end Node
end HttpStream.Trie
