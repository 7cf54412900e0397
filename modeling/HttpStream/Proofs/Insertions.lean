import HttpStream.Proofs.Trie
import Mathlib.Data.List.Dedup

/-! What a sequence of insertions makes of an empty trie. -/

set_option autoImplicit false

namespace HttpStream.Trie

variable {α : Type} {ignoreCase : Bool} {entries : List (Bytes × α)} {key : Bytes}

structure InOrder (trie : Trie α) : Prop where
  ascending : ∀ i node, trie.nodes.get? i = some node → Ascending node.children
  children : ∀ i node, trie.nodes.get? i = some node →
    ∀ child ∈ node.children, child.2 < trie.nodes.size
  value : ∀ i node, trie.nodes.get? i = some node →
    ∀ index ∈ node.value, index < trie.values.size

theorem inOrder (trie : Trie α) : trie.InOrder := by
  obtain ⟨paths, keys, layout⟩ := trie.laidOut
  have fits (i : Nat) (node : Node) (found : trie.nodes.get? i = some node) :
      ∃ path, node.Fits path paths keys := by
    have inside : i < paths.length := layout.size ▸ Store.lt_size found
    exact ⟨paths[i], layout.fits i node _ found (List.getElem?_eq_getElem inside)⟩
  refine ⟨fun i node found => ?_, fun i node found child member => ?_,
    fun i node found index held => ?_⟩
  · obtain ⟨path, fits⟩ := fits i node found
    exact fits.ascending
  · obtain ⟨path, fits⟩ := fits i node found
    have spelled := (fits.children child.1 child.2).mp member
    exact layout.size ▸ (List.getElem?_eq_some_iff.mp spelled).1
  · obtain ⟨path, fits⟩ := fits i node found
    have keyed := (fits.value index).mp held
    exact layout.count ▸ (List.getElem?_eq_some_iff.mp keyed).1

theorem contains_ofList : (ofList ignoreCase entries).contains key = true ↔
    ∃ entry ∈ entries, folded ignoreCase entry.1 = folded ignoreCase key := by
  rw [contains, get?_ofList, isSome_latest?]

theorem store_ofList {value : α} : ((ofList ignoreCase entries).store key value).2 = true ↔
    ∀ entry ∈ entries, folded ignoreCase entry.1 ≠ folded ignoreCase key := by
  rw [store_new, Bool.not_eq_true', ← Bool.not_eq_true, contains_ofList]
  simp

theorem length_dedup_concat (keys : List Bytes) (key : Bytes) :
    (keys ++ [key]).dedup.length =
      if key ∈ keys then keys.dedup.length else keys.dedup.length + 1 := by
  rw [(List.perm_append_singleton key keys).dedup.length_eq]
  split
  · next known => rw [List.dedup_cons_of_mem known]
  · next fresh => rw [List.dedup_cons_of_notMem fresh, List.length_cons]

theorem size_ofList : (ofList ignoreCase entries).size =
    (entries.map fun entry => folded ignoreCase entry.1).dedup.length := by
  rw [← List.reverse_reverse entries]
  induction entries.reverse with
  | nil => rfl
  | cons entry early ih =>
    rw [List.reverse_cons, ofList_concat, size_insert, ih, List.map_append, List.map_singleton,
      length_dedup_concat]
    refine if_congr ?_ rfl rfl
    rw [contains_ofList, List.mem_map]

/-- After any insertions, the nodes are in order; a lookup finds the value of the last insertion of
an equal key; an insertion is told to be new exactly if there is no equal key; the size counts the
keys that are not equal; and what is found at the front of an input is the longest key that stands
there and is not empty, with its length and its value. -/
theorem ofList_refines (ignoreCase : Bool) (entries : List (Bytes × α)) :
    let trie := ofList ignoreCase entries
    let keys := entries.map (·.1)
    trie.InOrder ∧
      (∀ key, trie.get? key = latest? ignoreCase entries key) ∧
      (∀ key value, (trie.store key value).2 = true ↔
        ∀ other ∈ keys, folded ignoreCase other ≠ folded ignoreCase key) ∧
      trie.size = (keys.map (folded ignoreCase)).dedup.length ∧
      ∀ input,
        (∀ length value, trie.best? input = some (length, value) ↔
          ∃ key, Longest ignoreCase keys input key ∧ length = key.length ∧
            latest? ignoreCase entries key = some value) ∧
        (trie.best? input = none ↔
          ∀ key ∈ keys, key ≠ [] → ¬folded ignoreCase key <+: folded ignoreCase input) := by
  intro trie keys
  refine ⟨trie.inOrder, fun _ => get?_ofList, fun key value => ?_, ?_, fun input => ⟨?_, ?_⟩⟩
  · rw [store_ofList, List.forall_mem_map]
  · rw [size_ofList, List.map_map]
    rfl
  · exact fun _ _ => best?_ofList_eq_some_iff
  · rw [best?_ofList_eq_none_iff, List.forall_mem_map]

end HttpStream.Trie
