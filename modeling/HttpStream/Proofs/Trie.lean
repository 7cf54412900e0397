import HttpStream.Trie

/-! What a trie is as a map: what an insertion changes, and which key is found at the front of an
input. -/

set_option autoImplicit false

namespace HttpStream.Trie

variable {α : Type} {trie : Trie α} {key probe input : Bytes} {value found : α}

@[simp] theorem ignoreCase_insert (trie : Trie α) (key : Bytes) (value : α) :
    (trie.insert key value).ignoreCase = trie.ignoreCase := by
  unfold insert store
  split <;> rfl

@[simp] theorem fold_insert (trie : Trie α) (key : Bytes) (value : α) :
    (trie.insert key value).fold = trie.fold := by
  funext b
  rw [fold, ignoreCase_insert, fold]

section numbers

variable {paths keys : List Bytes}

/-- A value is found by the number of its key. -/
theorem get?_eq_some_iff (layout : Layout trie.nodes trie.values.size paths keys) :
    trie.get? key = some value ↔
      ∃ j, keys[j]? = some (key.map trie.fold) ∧ trie.values.get? j = some value := by
  rw [get?, Option.bind_eq_some_iff]
  simp only [layout.held?_find?]

theorem get?_eq_none_iff (layout : Layout trie.nodes trie.values.size paths keys) :
    trie.get? key = none ↔ key.map trie.fold ∉ keys := by
  constructor
  · intro missing member
    obtain ⟨j, keyed⟩ := List.mem_iff_getElem?.mp member
    have inside := (List.getElem?_eq_some_iff.mp keyed).1
    obtain ⟨value, stored⟩ := Store.exists_get? (layout.count ▸ inside)
    rw [(get?_eq_some_iff layout).mpr ⟨j, keyed, stored⟩] at missing
    cases missing
  · intro fresh
    rw [Option.eq_none_iff_forall_ne_some]
    intro value stored
    obtain ⟨j, keyed, _⟩ := (get?_eq_some_iff layout).mp stored
    exact fresh (List.mem_of_getElem? keyed)

/-- Storing a value replaces the one of an equal key, or adds the key and the value. -/
theorem store_cases (layout : Layout trie.nodes trie.values.size paths keys) (key : Bytes)
    (value : α) :
    ∃ paths,
      (∃ index, (trie.store key value).2 = false ∧ keys[index]? = some (key.map trie.fold) ∧
        (trie.insert key value).values = trie.values.modify index (fun _ => value) ∧
        Layout (trie.insert key value).nodes trie.values.size paths keys) ∨
      ((trie.store key value).2 = true ∧ key.map trie.fold ∉ keys ∧
        (trie.insert key value).values = trie.values.push value ∧
        Layout (trie.insert key value).nodes (trie.values.size + 1) paths
          (keys ++ [key.map trie.fold])) := by
  obtain ⟨paths, grown, spelled⟩ := layout.reach layout.root (key.map trie.fold)
  refine ⟨paths, ?_⟩
  unfold insert store
  split
  · next index held =>
    exact .inl ⟨index, rfl, (grown.held?_eq_some_iff spelled).mp held, rfl, grown⟩
  · next free =>
    exact .inr ⟨rfl, grown.fresh_key spelled free, rfl, grown.hold spelled free⟩

end numbers

theorem get?_insert (trie : Trie α) (key probe : Bytes) (value : α) :
    (trie.insert key value).get? probe =
      if probe.map trie.fold = key.map trie.fold then some value else trie.get? probe := by
  obtain ⟨_, keys, layout⟩ := trie.laidOut
  refine Option.ext fun found => ?_
  -- The key is there, and its value is replaced, or it is new, and so is its value.
  obtain ⟨paths, ⟨index, _, keyed, values, grown⟩ | ⟨_, fresh, values, grown⟩⟩ :=
    store_cases layout key value
  · have size : (trie.insert key value).values.size = trie.values.size := by
      rw [values, Store.size_modify]
    have inside : index < trie.values.size :=
      layout.count ▸ (List.getElem?_eq_some_iff.mp keyed).1
    rw [get?_eq_some_iff (size ▸ grown), fold_insert, values]
    simp only [Store.get?_modify]
    split
    · next same =>
      have here (j : Nat) : keys[j]? = some (key.map trie.fold) ↔ j = index := by
        rw [← keyed, eq_comm, List.getElem?_inj (layout.count.symm ▸ inside) layout.apart, eq_comm]
      obtain ⟨old, stored⟩ := Store.exists_get? inside
      simp [same, here, stored]
    · next other =>
      rw [get?_eq_some_iff layout]
      refine exists_congr fun j => and_congr_right fun keyed' => ?_
      have elsewhere : j ≠ index := by
        rintro rfl
        exact other (Option.some.inj (keyed'.symm.trans keyed))
      rw [if_neg elsewhere]
  · have size : (trie.insert key value).values.size = trie.values.size + 1 := by
      rw [values, Store.size_push]
    rw [get?_eq_some_iff (size ▸ grown), fold_insert, values]
    simp only [Store.get?_push, Layout.getElem?_concat_eq_some_iff, layout.count]
    split
    · next same =>
      have old (j : Nat) : keys[j]? ≠ some (key.map trie.fold) := fun keyed =>
        fresh (List.mem_of_getElem? keyed)
      simp [same, old]
    · next other =>
      rw [get?_eq_some_iff layout]
      refine exists_congr fun j => ?_
      rw [or_iff_left fun last => other last.2.symm]
      refine and_congr_right fun keyed => ?_
      have inside : j < trie.values.size := layout.count ▸ (List.getElem?_eq_some_iff.mp keyed).1
      rw [if_neg (Nat.ne_of_lt inside)]

theorem store_new (trie : Trie α) (key : Bytes) (value : α) :
    (trie.store key value).2 = !trie.contains key := by
  obtain ⟨_, keys, layout⟩ := trie.laidOut
  obtain ⟨_, ⟨_, old, keyed, _⟩ | ⟨new, fresh, _⟩⟩ :=
    store_cases layout key value
  · have found : trie.get? key ≠ none := by
      rw [Ne, get?_eq_none_iff layout, Classical.not_not]
      exact List.mem_of_getElem? keyed
    rw [old, contains, Option.isSome_iff_ne_none.mpr found]
    rfl
  · rw [new, contains, (get?_eq_none_iff layout).mpr fresh]
    rfl

theorem size_insert (trie : Trie α) (key : Bytes) (value : α) :
    (trie.insert key value).size = if trie.contains key then trie.size else trie.size + 1 := by
  obtain ⟨_, keys, layout⟩ := trie.laidOut
  have known := trie.store_new key value
  obtain ⟨_, ⟨_, old, _, values, _⟩ | ⟨new, _, values, _⟩⟩ :=
    store_cases layout key value
  · rw [old, eq_comm, Bool.not_eq_false'] at known
    rw [size, values, Store.size_modify, known]
    rfl
  · rw [new, eq_comm, Bool.not_eq_true'] at known
    rw [size, values, Store.size_push, known]
    rfl

section longest

variable {nodes : Store Node} {fold : UInt8 → UInt8}

/-- The number of the value whose key ends `m` octets of the input behind a node. -/
def ending? (nodes : Store Node) (fold : UInt8 → UInt8) (node : Nat) (input : Bytes) (m : Nat) :
    Option Nat :=
  (find? nodes node ((input.take m).map fold)).bind (held? nodes)

theorem ending?_succ {node next : Nat} {b : UInt8} {rest : Bytes}
    (followed : follow? nodes node (fold b) = some next) (m : Nat) :
    ending? nodes fold node (b :: rest) (m + 1) = ending? nodes fold next rest m := by
  simp [ending?, find?, followed]

theorem ending?_blocked {node : Nat} {b : UInt8} {rest : Bytes}
    (blocked : follow? nodes node (fold b) = none) (m : Nat) :
    ending? nodes fold node (b :: rest) (m + 1) = none := by
  simp [ending?, find?, blocked]

theorem longest?_cases (nodes : Store Node) (fold : UInt8 → UInt8) (input : Bytes)
    (node depth : Nat) (best : Option (Nat × Nat)) :
    (∃ m index, 0 < m ∧ m ≤ input.length ∧ ending? nodes fold node input m = some index ∧
        (∀ k, m < k → k ≤ input.length → ending? nodes fold node input k = none) ∧
        longest? nodes fold node depth best input = some (depth + m, index)) ∨
      (∀ k, 0 < k → k ≤ input.length → ending? nodes fold node input k = none) ∧
        longest? nodes fold node depth best input = best := by
  induction input generalizing node depth best with
  | nil => exact .inr ⟨fun k positive short => absurd short (Nat.not_le.mpr positive), rfl⟩
  | cons b rest ih =>
    unfold longest?
    split
    · next next followed =>
      -- What is found further on counts, and else the value of the next node.
      rcases ih next (depth + 1) (((held? nodes next).map fun index => (depth + 1, index)).or best)
        with ⟨m, index, positive, short, ends, last, found⟩ | ⟨nowhere, found⟩
      · refine .inl ⟨m + 1, index, Nat.succ_pos m, Nat.succ_le_succ short, ?_, ?_, ?_⟩
        · rw [ending?_succ followed, ends]
        · rintro (_ | k) further short
          · cases further
          · rw [ending?_succ followed]
            exact last k (Nat.lt_of_succ_lt_succ further) (Nat.le_of_succ_le_succ short)
        · rw [found, Nat.add_assoc, Nat.add_comm 1]
      · rw [found]
        cases held : held? nodes next with
        | some index =>
          refine .inl ⟨1, index, Nat.one_pos, Nat.succ_le_succ (Nat.zero_le _), ?_, ?_, rfl⟩
          · rw [ending?_succ followed]
            simpa [ending?, find?] using held
          · rintro (_ | k) further short
            · cases further
            · rw [ending?_succ followed]
              exact nowhere k (Nat.lt_of_succ_lt_succ further) (Nat.le_of_succ_le_succ short)
        | none =>
          refine .inr ⟨?_, rfl⟩
          rintro (_ | _ | k) positive short
          · cases positive
          · rw [ending?_succ followed]
            simpa [ending?, find?] using held
          · rw [ending?_succ followed]
            exact nowhere (k + 1) (Nat.succ_pos k) (Nat.le_of_succ_le_succ short)
    · next blocked =>
      refine .inr ⟨?_, rfl⟩
      rintro (_ | k) positive _
      · cases positive
      · exact ending?_blocked blocked k

end longest

/-- What is found at the front of an input is the value of the longest front that is a key. -/
theorem best?_cases (trie : Trie α) (input : Bytes) :
    (∃ n value, 0 < n ∧ n ≤ input.length ∧ trie.get? (input.take n) = some value ∧
        (∀ k, n < k → k ≤ input.length → trie.get? (input.take k) = none) ∧
        trie.best? input = some (n, value)) ∨
      (∀ k, 0 < k → k ≤ input.length → trie.get? (input.take k) = none) ∧
        trie.best? input = none := by
  have lookup (k : Nat) : trie.get? (input.take k) =
      (ending? trie.nodes trie.fold 0 input k).bind trie.values.get? := rfl
  obtain ⟨_, keys, layout⟩ := trie.laidOut
  rcases longest?_cases trie.nodes trie.fold input 0 0 none
    with ⟨m, index, positive, short, ends, last, found⟩ | ⟨nowhere, found⟩
  · have inside : index < trie.values.size :=
      layout.count ▸ (List.getElem?_eq_some_iff.mp (layout.held?_find?.mp ends)).1
    obtain ⟨value, stored⟩ := Store.exists_get? inside
    refine .inl ⟨m, value, positive, short, ?_, ?_, ?_⟩
    · rw [lookup, ends, Option.bind_some, stored]
    · intro k further short
      rw [lookup, last k further short, Option.bind_none]
    · simp [best?, found, stored]
  · refine .inr ⟨?_, ?_⟩
    · intro k positive short
      rw [lookup, nowhere k positive short, Option.bind_none]
    · rw [best?, found, Option.bind_none]

theorem get?_of_insert
    (h : (trie.insert key value).get? probe = some found) :
    (probe.map trie.fold = key.map trie.fold ∧ found = value) ∨ trie.get? probe = some found := by
  rw [get?_insert] at h
  split at h
  · next same => exact .inl ⟨same, (Option.some.inj h).symm⟩
  · exact .inr h

theorem get?_of_best? {length : Nat} (h : trie.best? input = some (length, value)) :
    0 < length ∧ length ≤ input.length ∧ trie.get? (input.take length) = some value := by
  rcases trie.best?_cases input with ⟨n, longest, positive, short, stored, _, best⟩ | ⟨_, best⟩
  · obtain ⟨rfl, rfl⟩ := Prod.mk.inj (Option.some.inj (best.symm.trans h))
    exact ⟨positive, short, stored⟩
  · cases best.symm.trans h

@[simp] theorem get?_empty (ignoreCase : Bool) (key : Bytes) :
    ({ ignoreCase } : Trie α).get? key = none := by
  rw [get?_eq_none_iff Layout.start]
  exact List.not_mem_nil

/-- The octets by which keys are told apart. -/
def folded (ignoreCase : Bool) (key : Bytes) : Bytes :=
  if ignoreCase then key.map Octet.toLower else key

@[simp] theorem folded_false (key : Bytes) : folded false key = key := rfl

@[simp] theorem folded_true (key : Bytes) : folded true key = key.map Octet.toLower := rfl

theorem map_fold (trie : Trie α) (key : Bytes) : key.map trie.fold = folded trie.ignoreCase key := by
  unfold folded
  split
  · next ignores => exact List.map_congr_left fun b _ => by rw [fold, if_pos ignores]
  · next keeps =>
    rw [List.map_congr_left (g := id) fun b _ => by rw [fold, if_neg keeps]; rfl, List.map_id]

@[simp] theorem length_folded (ignoreCase : Bool) (key : Bytes) :
    (folded ignoreCase key).length = key.length := by
  unfold folded
  split <;> simp

theorem folded_take (ignoreCase : Bool) (input : Bytes) (n : Nat) :
    folded ignoreCase (input.take n) = (folded ignoreCase input).take n := by
  unfold folded
  split <;> simp

def latest? (ignoreCase : Bool) (entries : List (Bytes × α)) (key : Bytes) : Option α :=
  (entries.reverse.find? fun entry => folded ignoreCase entry.1 == folded ignoreCase key).map (·.2)

section ofList

variable {ignoreCase : Bool} {entries : List (Bytes × α)}

theorem ofList_concat (entry : Bytes × α) :
    ofList ignoreCase (entries ++ [entry]) = (ofList ignoreCase entries).insert entry.1 entry.2 := by
  simp [ofList, List.foldl_append]

@[simp] theorem ignoreCase_ofList : (ofList ignoreCase entries).ignoreCase = ignoreCase := by
  have kept (trie : Trie α) :
      (entries.foldl (fun trie entry => trie.insert entry.1 entry.2) trie).ignoreCase =
        trie.ignoreCase := by
    induction entries generalizing trie with
    | nil => rfl
    | cons entry rest ih => exact (ih _).trans (ignoreCase_insert ..)
  exact kept { ignoreCase }

theorem get?_ofList : (ofList ignoreCase entries).get? key = latest? ignoreCase entries key := by
  rw [← List.reverse_reverse entries]
  induction entries.reverse with
  | nil => exact get?_empty ignoreCase key
  | cons entry early ih =>
    rw [List.reverse_cons, ofList_concat, get?_insert, map_fold, map_fold, ignoreCase_ofList, ih]
    simp only [latest?, List.reverse_append, List.reverse_reverse, List.reverse_singleton,
      List.singleton_append, List.find?_cons]
    by_cases same : folded ignoreCase key = folded ignoreCase entry.1
    · simp [same]
    · have other : (folded ignoreCase entry.1 == folded ignoreCase key) = false := by
        simpa using Ne.symm same
      simp [same, other]

theorem latest?_congr {other : Bytes} (same : folded ignoreCase key = folded ignoreCase other) :
    latest? ignoreCase entries key = latest? ignoreCase entries other := by
  rw [latest?, latest?, same]

theorem isSome_latest? :
    (latest? ignoreCase entries key).isSome ↔
      ∃ entry ∈ entries, folded ignoreCase entry.1 = folded ignoreCase key := by
  simp [latest?]

/-- A key that is the front of the input and not empty, with no longer one. -/
structure Longest (ignoreCase : Bool) (keys : List Bytes) (input key : Bytes) : Prop where
  member : key ∈ keys
  nonempty : key ≠ []
  front : folded ignoreCase key <+: folded ignoreCase input
  longest : ∀ other ∈ keys, folded ignoreCase other <+: folded ignoreCase input →
    other.length ≤ key.length

theorem front_iff : folded ignoreCase key <+: folded ignoreCase input ↔
    folded ignoreCase key = folded ignoreCase (input.take key.length) := by
  rw [List.prefix_iff_eq_take, length_folded, folded_take]

theorem length_le_of_front (front : folded ignoreCase key <+: folded ignoreCase input) :
    key.length ≤ input.length := by
  simpa using front.length_le

theorem exists_front_iff {k : Nat} :
    (∃ entry ∈ entries, entry.1.length = k ∧ folded ignoreCase entry.1 <+: folded ignoreCase input) ↔
      k ≤ input.length ∧ (latest? ignoreCase entries (input.take k)).isSome := by
  rw [isSome_latest?]
  constructor
  · rintro ⟨entry, member, rfl, front⟩
    exact ⟨length_le_of_front front, entry, member, front_iff.mp front⟩
  · rintro ⟨short, entry, member, same⟩
    have length : entry.1.length = k := by
      have sizes := congrArg List.length same
      rwa [length_folded, length_folded, List.length_take, Nat.min_eq_left short] at sizes
    exact ⟨entry, member, length, front_iff.mpr (length.symm ▸ same)⟩

theorem best?_ofList_cases (ignoreCase : Bool) (entries : List (Bytes × α)) (input : Bytes) :
    (∃ key value, Longest ignoreCase (entries.map (·.1)) input key ∧
        latest? ignoreCase entries key = some value ∧
        (ofList ignoreCase entries).best? input = some (key.length, value)) ∨
      (∀ entry ∈ entries, entry.1 ≠ [] →
          ¬folded ignoreCase entry.1 <+: folded ignoreCase input) ∧
        (ofList ignoreCase entries).best? input = none := by
  rcases best?_cases (ofList ignoreCase entries) input
    with ⟨n, value, positive, short, stored, last, best⟩ | ⟨nowhere, best⟩
  · rw [get?_ofList] at stored
    obtain ⟨entry, member, rfl, front⟩ :=
      exists_front_iff.mpr ⟨short, Option.isSome_of_mem stored⟩
    refine .inl ⟨entry.1, value,
      ⟨List.mem_map_of_mem member, List.length_pos_iff.mp positive, front, ?_⟩, ?_, best⟩
    · intro key keyed other
      obtain ⟨longer, listed, rfl⟩ := List.mem_map.mp keyed
      refine Nat.le_of_not_lt fun further => ?_
      obtain ⟨short, found⟩ := exists_front_iff.mp ⟨longer, listed, rfl, other⟩
      rw [← get?_ofList, last _ further short] at found
      cases found
    · rw [latest?_congr (front_iff.mp front), stored]
  · refine .inr ⟨fun entry member nonempty front => ?_, best⟩
    obtain ⟨short, found⟩ := exists_front_iff.mp ⟨entry, member, rfl, front⟩
    rw [← get?_ofList, nowhere _ (List.length_pos_iff.mpr nonempty) short] at found
    cases found

theorem best?_ofList_eq_some_iff {n : Nat} :
    (ofList ignoreCase entries).best? input = some (n, value) ↔
      ∃ key, Longest ignoreCase (entries.map (·.1)) input key ∧ n = key.length ∧
        latest? ignoreCase entries key = some value := by
  rcases best?_ofList_cases ignoreCase entries input
    with ⟨key, found, longest, stored, best⟩ | ⟨nowhere, best⟩
  · rw [best, Option.some.injEq, Prod.mk.injEq]
    constructor
    · rintro ⟨rfl, rfl⟩
      exact ⟨key, longest, rfl, stored⟩
    · rintro ⟨other, rival, rfl, stored'⟩
      have length : key.length = other.length :=
        Nat.le_antisymm (rival.longest _ longest.member longest.front)
          (longest.longest _ rival.member rival.front)
      have same : folded ignoreCase key = folded ignoreCase other := by
        rw [front_iff.mp longest.front, front_iff.mp rival.front, length]
      rw [latest?_congr same] at stored
      exact ⟨length, Option.some.inj (stored.symm.trans stored')⟩
  · rw [best]
    refine ⟨nofun, ?_⟩
    rintro ⟨key, longest, _⟩
    obtain ⟨entry, member, rfl⟩ := List.mem_map.mp longest.member
    exact absurd longest.front (nowhere entry member longest.nonempty)

theorem best?_ofList_eq_none_iff :
    (ofList ignoreCase entries).best? input = none ↔
      ∀ entry ∈ entries, entry.1 ≠ [] → ¬folded ignoreCase entry.1 <+: folded ignoreCase input := by
  rcases best?_ofList_cases ignoreCase entries input
    with ⟨key, found, longest, _, best⟩ | ⟨nowhere, best⟩
  · rw [best]
    refine ⟨nofun, fun nowhere => ?_⟩
    obtain ⟨entry, member, rfl⟩ := List.mem_map.mp longest.member
    exact absurd longest.front (nowhere entry member longest.nonempty)
  · exact ⟨fun _ => nowhere, fun _ => best⟩

end ofList

end HttpStream.Trie
