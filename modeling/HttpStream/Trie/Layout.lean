import HttpStream.Store
import HttpStream.Trie.Node

/-! The nodes of a trie in one store, each reached from the root, node 0, by the octets that spell
it. What is proved of walks and of growing goes through a `Layout`, which tells of each node its
path and of each value its key. -/

set_option autoImplicit false

namespace HttpStream.Trie

def follow? (nodes : Store Node) (node : Nat) (b : UInt8) : Option Nat :=
  (nodes.get? node).bind (·.child? b)

def held? (nodes : Store Node) (node : Nat) : Option Nat := (nodes.get? node).bind (·.value)

def find? (nodes : Store Node) (node : Nat) : Bytes → Option Nat
  | [] => some node
  | b :: key => (follow? nodes node b).bind fun next => find? nodes next key

def reach (nodes : Store Node) (node : Nat) : Bytes → Store Node × Nat
  | [] => (nodes, node)
  | b :: key =>
    match follow? nodes node b with
    | some next => reach nodes next key
    -- The new node gets the next number, under which the one before links it.
    | none => reach ((nodes.modify node (·.link b nodes.size)).push {}) nodes.size key

/-- What a node holds if its path is `path`: where each octet leads, and which key ends. -/
structure Node.Fits (node : Node) (path : Bytes) (paths keys : List Bytes) : Prop where
  ascending : Ascending node.children
  children : ∀ b j, (b, j) ∈ node.children ↔ paths[j]? = some (path ++ [b])
  value : ∀ j, node.value = some j ↔ keys[j]? = some path

/-- The paths of the nodes and the keys of the `count` values, both by number. -/
structure Layout (nodes : Store Node) (count : Nat) (paths keys : List Bytes) : Prop where
  size : paths.length = nodes.size
  root : paths[0]? = some []
  distinct : paths.Nodup
  closed : ∀ path b, path ++ [b] ∈ paths → path ∈ paths
  count : keys.length = count
  apart : keys.Nodup
  keyed : ∀ key ∈ keys, key ∈ paths
  fits : ∀ i node path, nodes.get? i = some node → paths[i]? = some path →
    node.Fits path paths keys

namespace Layout

variable {nodes : Store Node} {count i j : Nat} {paths keys : List Bytes} {path key : Bytes}
  {b : UInt8} {node : Node}

theorem start : Layout (Store.push {} {}) 0 [[]] [] where
  size := rfl
  root := rfl
  distinct := List.nodup_cons.mpr ⟨by simp, List.nodup_nil⟩
  closed path b member := by simp at member
  count := rfl
  apart := List.nodup_nil
  keyed := by simp
  fits i node path found spelled := by
    obtain rfl : node = {} := by
      rw [Store.get?_push] at found
      split at found
      · exact (Option.some.inj found).symm
      · cases found
    refine ⟨List.Pairwise.nil, fun b j => ?_, fun j => by simp⟩
    cases j <;> simp

theorem exists_node (h : Layout nodes count paths keys) (spelled : paths[i]? = some path) :
    ∃ node, nodes.get? i = some node := by
  have inside := (List.getElem?_eq_some_iff.mp spelled).1
  exact Store.exists_get? (h.size ▸ inside)

theorem unique (h : Layout nodes count paths keys) (first : paths[i]? = some path)
    (second : paths[j]? = some path) : i = j := by
  have inside := (List.getElem?_eq_some_iff.mp first).1
  exact (List.getElem?_inj inside h.distinct).mp (first.trans second.symm)

theorem follow?_eq_some_iff (h : Layout nodes count paths keys)
    (spelled : paths[i]? = some path) :
    follow? nodes i b = some j ↔ paths[j]? = some (path ++ [b]) := by
  obtain ⟨node, found⟩ := h.exists_node spelled
  have fits := h.fits i node path found spelled
  rw [follow?, found, Option.bind_some, Node.child?_eq_some_iff fits.ascending, fits.children]

theorem held?_eq_some_iff (h : Layout nodes count paths keys) (spelled : paths[i]? = some path) :
    held? nodes i = some j ↔ keys[j]? = some path := by
  obtain ⟨node, found⟩ := h.exists_node spelled
  rw [held?, found, Option.bind_some, (h.fits i node path found spelled).value]

theorem fresh_key (h : Layout nodes count paths keys) (spelled : paths[i]? = some path)
    (free : held? nodes i = none) : path ∉ keys := by
  intro member
  obtain ⟨j, keyed⟩ := List.mem_iff_getElem?.mp member
  rw [(h.held?_eq_some_iff spelled).mpr keyed] at free
  cases free

theorem front_mem (h : Layout nodes count paths keys) (member : path ++ key ∈ paths) :
    path ∈ paths := by
  induction key generalizing path with
  | nil => simpa using member
  | cons b key ih =>
    rw [List.append_cons] at member
    exact h.closed path b (ih member)

/-- Octets lead to a node exactly if they continue the path to it. -/
theorem find?_eq_some_iff (h : Layout nodes count paths keys) (spelled : paths[i]? = some path) :
    find? nodes i key = some j ↔ paths[j]? = some (path ++ key) := by
  induction key generalizing i path with
  | nil =>
    rw [find?, Option.some.injEq, List.append_nil]
    refine ⟨?_, h.unique spelled⟩
    rintro rfl
    exact spelled
  | cons b key ih =>
    rw [find?, Option.bind_eq_some_iff, List.append_cons]
    constructor
    · rintro ⟨next, followed, onward⟩
      exact (ih ((h.follow?_eq_some_iff spelled).mp followed)).mp onward
    · intro reached
      obtain ⟨next, there⟩ :=
        List.mem_iff_getElem?.mp (h.front_mem (List.mem_of_getElem? reached))
      exact ⟨next, (h.follow?_eq_some_iff spelled).mpr there, (ih there).mpr reached⟩

theorem held?_find? (h : Layout nodes count paths keys) :
    (find? nodes 0 key).bind (held? nodes) = some j ↔ keys[j]? = some key := by
  rw [Option.bind_eq_some_iff]
  constructor
  · rintro ⟨node, found, held⟩
    have spelled := (h.find?_eq_some_iff h.root).mp found
    exact (h.held?_eq_some_iff spelled).mp held
  · intro keyed
    obtain ⟨node, spelled⟩ :=
      List.mem_iff_getElem?.mp (h.keyed key (List.mem_of_getElem? keyed))
    exact ⟨node, (h.find?_eq_some_iff h.root).mpr spelled, (h.held?_eq_some_iff spelled).mpr keyed⟩

theorem getElem?_concat_eq_some_iff {item last : Bytes} :
    (paths ++ [last])[j]? = some item ↔ paths[j]? = some item ∨ j = paths.length ∧ last = item := by
  rcases Nat.lt_trichotomy j paths.length with inside | rfl | outside
  · simp [List.getElem?_append_left inside, Nat.ne_of_lt inside]
  · simp
  · have none : (paths ++ [last])[j]? = none := List.getElem?_eq_none
      (by rw [List.length_append]; exact outside)
    simp [none, List.getElem?_eq_none (Nat.le_of_lt outside), Nat.ne_of_gt outside]

theorem fits_other (fits : node.Fits key paths keys) (other : key ≠ path) :
    node.Fits key (paths ++ [path ++ [b]]) keys where
  ascending := fits.ascending
  children c j := by
    rw [getElem?_concat_eq_some_iff, fits.children]
    refine ⟨.inl, ?_⟩
    rintro (there | ⟨_, same⟩)
    · exact there
    · exact absurd (List.append_inj_left' same rfl).symm other
  value := fits.value

theorem fits_link (h : Layout nodes count paths keys) (free : follow? nodes i b = none)
    (fits : node.Fits path paths keys) (found : nodes.get? i = some node) :
    (node.link b nodes.size).Fits path (paths ++ [path ++ [b]]) keys where
  ascending := by
    rw [follow?, found] at free
    exact Node.ascending_link fits.ascending free _
  children c j := by
    rw [Node.mem_link, getElem?_concat_eq_some_iff, fits.children, h.size, or_comm, Prod.mk.injEq]
    simp only [List.append_cancel_left_eq, List.cons.injEq, and_true]
    rw [and_comm, eq_comm (a := c)]
  value := fits.value

section branch

variable (h : Layout nodes count paths keys) (spelled : paths[i]? = some path)
  (free : follow? nodes i b = none)

include h spelled free

theorem fresh_path : path ++ [b] ∉ paths := by
  intro member
  obtain ⟨j, there⟩ := List.mem_iff_getElem?.mp member
  rw [(h.follow?_eq_some_iff spelled).mpr there] at free
  cases free

theorem fits_leaf : Node.Fits {} (path ++ [b]) (paths ++ [path ++ [b]]) keys where
  ascending := List.Pairwise.nil
  children c j := by
    have fresh := h.fresh_path spelled free
    rw [getElem?_concat_eq_some_iff]
    refine ⟨nofun, ?_⟩
    rintro (there | ⟨_, same⟩)
    · exact absurd (h.closed _ c (List.mem_of_getElem? there)) fresh
    · simpa using congrArg List.length same
  value j := by
    have fresh := h.fresh_path spelled free
    exact ⟨nofun, fun keyed => absurd (h.keyed _ (List.mem_of_getElem? keyed)) fresh⟩

theorem branch :
    Layout ((nodes.modify i (·.link b nodes.size)).push {}) count (paths ++ [path ++ [b]])
      keys where
  size := by simp [h.size]
  root := getElem?_concat_eq_some_iff.mpr (.inl h.root)
  distinct := by
    rw [List.nodup_append]
    refine ⟨h.distinct, List.nodup_cons.mpr ⟨by simp, List.nodup_nil⟩, ?_⟩
    intro old member new last
    rw [List.mem_singleton.mp last]
    rintro rfl
    exact h.fresh_path spelled free member
  closed old c member := by
    rw [List.mem_append] at member ⊢
    refine .inl ?_
    rcases member with member | last
    · exact h.closed old c member
    · rw [List.append_inj_left' (List.mem_singleton.mp last) rfl]
      exact List.mem_of_getElem? spelled
  count := h.count
  apart := h.apart
  keyed key member := List.mem_append_left _ (h.keyed key member)
  fits k changed old found there := by
    -- The new node, the node that leads to it, and all the others, which stay as they were.
    rw [Store.get?_push, Store.size_modify] at found
    rw [getElem?_concat_eq_some_iff] at there
    split at found
    · next last =>
      subst last
      obtain rfl : changed = {} := (Option.some.inj found).symm
      rcases there with there | ⟨_, rfl⟩
      · have inside := (List.getElem?_eq_some_iff.mp there).1
        exact absurd h.size (Nat.ne_of_gt inside)
      · exact h.fits_leaf spelled free
    · next inside =>
      have there : paths[k]? = some old :=
        there.resolve_right fun last => inside (last.1.trans h.size)
      rw [Store.get?_modify] at found
      split at found
      · next here =>
        subst here
        obtain rfl : path = old := Option.some.inj (spelled.symm.trans there)
        obtain ⟨node, before, rfl⟩ := Option.map_eq_some_iff.mp found
        exact h.fits_link free (h.fits k node path before there) before
      · next elsewhere =>
        refine fits_other (h.fits k changed old found there) ?_
        intro same
        exact elsewhere (h.unique there (same ▸ spelled))

end branch

theorem reach (h : Layout nodes count paths keys) (spelled : paths[i]? = some path)
    (key : Bytes) :
    ∃ paths, Layout (reach nodes i key).1 count paths keys ∧
      paths[(Trie.reach nodes i key).2]? = some (path ++ key) := by
  induction key generalizing nodes paths i path with
  | nil => exact ⟨paths, h, by simpa [Trie.reach] using spelled⟩
  | cons b key ih =>
    rw [List.append_cons]
    unfold Trie.reach
    split
    · next next followed => exact ih h ((h.follow?_eq_some_iff spelled).mp followed)
    · next free =>
      exact ih (h.branch spelled free) (getElem?_concat_eq_some_iff.mpr (.inr ⟨h.size.symm, rfl⟩))

theorem hold (h : Layout nodes count paths keys) (spelled : paths[i]? = some path)
    (free : held? nodes i = none) :
    Layout (nodes.modify i (·.hold count)) (count + 1) paths (keys ++ [path]) where
  size := by rw [Store.size_modify, h.size]
  root := h.root
  distinct := h.distinct
  closed := h.closed
  count := by simp [h.count]
  apart := by
    rw [List.nodup_append]
    refine ⟨h.apart, List.nodup_cons.mpr ⟨by simp, List.nodup_nil⟩, ?_⟩
    intro old member new last
    rw [List.mem_singleton.mp last]
    rintro rfl
    exact h.fresh_key spelled free member
  keyed key member := by
    rcases List.mem_append.mp member with member | last
    · exact h.keyed key member
    · rw [List.mem_singleton.mp last]
      exact List.mem_of_getElem? spelled
  fits k changed old found there := by
    rw [Store.get?_modify] at found
    split at found
    · next here =>
      subst here
      obtain rfl : path = old := Option.some.inj (spelled.symm.trans there)
      obtain ⟨node, before, rfl⟩ := Option.map_eq_some_iff.mp found
      have fits := h.fits k node path before there
      refine ⟨fits.ascending, fits.children, fun j => ?_⟩
      -- The path of the node is no key so far, and becomes the last one.
      have fresh : keys[j]? ≠ some path := fun keyed =>
        h.fresh_key spelled free (List.mem_of_getElem? keyed)
      rw [getElem?_concat_eq_some_iff, h.count, or_iff_right fresh, and_iff_left rfl]
      simp [Node.hold, eq_comm]
    · next elsewhere =>
      have fits := h.fits k changed old found there
      refine ⟨fits.ascending, fits.children, fun j => ?_⟩
      rw [getElem?_concat_eq_some_iff, fits.value, or_iff_left]
      rintro ⟨_, rfl⟩
      exact elsewhere (h.unique there spelled)

end Layout

def LaidOut (nodes : Store Node) (count : Nat) : Prop := ∃ paths keys, Layout nodes count paths keys

namespace LaidOut

variable {nodes : Store Node} {count : Nat} {key : Bytes}

theorem start : LaidOut (Store.push {} {}) 0 := ⟨_, _, .start⟩

theorem reach (h : LaidOut nodes count) (key : Bytes) :
    LaidOut (Trie.reach nodes 0 key).1 count := by
  obtain ⟨_, keys, layout⟩ := h
  obtain ⟨paths, grown, _⟩ := layout.reach layout.root key
  exact ⟨paths, keys, grown⟩

theorem hold (h : LaidOut nodes count)
    (free : held? (Trie.reach nodes 0 key).1 (Trie.reach nodes 0 key).2 = none) :
    LaidOut ((Trie.reach nodes 0 key).1.modify (Trie.reach nodes 0 key).2 (·.hold count))
      (count + 1) := by
  obtain ⟨_, keys, layout⟩ := h
  obtain ⟨paths, grown, spelled⟩ := layout.reach layout.root key
  exact ⟨paths, _, grown.hold spelled free⟩

end LaidOut
end HttpStream.Trie
