import HttpStream.Proofs.Memory

/-! The tables of known tokens against their declarations: a lookup of a text finds the token that is
spelled, and a lookup at the front of an input finds the longest token that is spelled there. -/

set_option autoImplicit false

namespace HttpStream

namespace Trie

variable {α : Type} {ignoreCase : Bool} {values : List α} {spelling : α → Bytes}

/-- A lookup at the front of inputs that comes to what a scan of all spellings comes to: the value of
the longest one that stands there, with its length, or none if none stands there. -/
structure Scans (ignoreCase : Bool) (values : List α) (spelling : α → Bytes)
    (lookup : Bytes → Option (Nat × α)) : Prop where
  hit : ∀ input length value, lookup input = some (length, value) ↔
    value ∈ values ∧ length = (spelling value).length ∧
      Longest ignoreCase (values.map spelling) input (spelling value)
  miss : ∀ input, lookup input = none ↔
    ∀ value ∈ values, ¬folded ignoreCase (spelling value) <+: folded ignoreCase input

theorem scans_ofList
    (distinct : (values.map fun value => folded ignoreCase (spelling value)).Nodup)
    (nonempty : ∀ value ∈ values, spelling value ≠ []) :
    Scans ignoreCase values spelling
      (ofList ignoreCase (values.map fun value => (spelling value, value))).best? := by
  have keys : (values.map fun value => (spelling value, value)).map (·.1) =
      values.map spelling := by
    rw [List.map_map]
    rfl
  constructor
  · intro input length value
    rw [best?_ofList_eq_some_iff, keys]
    constructor
    · rintro ⟨key, longest, rfl, stored⟩
      rw [← get?_ofList, get?_values_iff distinct] at stored
      obtain ⟨member, same⟩ := stored
      obtain ⟨other, listed, rfl⟩ := List.mem_map.mp longest.member
      obtain rfl := List.inj_on_of_nodup_map distinct listed member same
      exact ⟨member, rfl, longest⟩
    · rintro ⟨member, rfl, longest⟩
      refine ⟨spelling value, longest, rfl, ?_⟩
      rw [← get?_ofList, get?_values_iff distinct]
      exact ⟨member, rfl⟩
  · intro input
    rw [best?_ofList_eq_none_iff, List.forall_mem_map]
    exact forall₂_congr fun value member => imp_iff_right (nonempty value member)

end Trie

namespace StandardName

theorem octets_nonempty (name : StandardName) : Text.octets name.text ≠ [] := by
  obtain ⟨octets, text, nonempty, _⟩ := all_spelling name (mem_all name)
  rw [octets]
  intro empty
  rw [empty] at text
  exact nonempty text.symm

theorem exact_distinct :
    (all.map fun name => Trie.folded false (Text.octets name.text)).Nodup := by
  refine .of_map (List.map Octet.toLower) ?_
  rw [List.map_map]
  exact distinct

theorem scans_atFront? :
    Trie.Scans false all (fun name => Text.octets name.text) atFront? :=
  Trie.scans_ofList exact_distinct fun name _ => octets_nonempty name

theorem ofText?_of_atFront? {input : Bytes} {length : Nat} {name : StandardName}
    (h : atFront? input = some (length, name)) :
    ofText? (Text.ofBytes (input.take length)) = some name := by
  obtain ⟨_, _, _, text⟩ := spelled_of_atFront? h
  rw [← text, ofText?_text]

end StandardName

namespace FieldLine

theorem wellKnown_distinct : (wellKnown.map fun line => Trie.folded false line.wire).Nodup := by
  decide +kernel

theorem scans_atFront? : Trie.Scans false wellKnown wire atFront? :=
  Trie.scans_ofList wellKnown_distinct fun line _ => by simp [wire]

theorem name_of_atFront? {input : Bytes} {length : Nat} {line : FieldLine}
    (h : atFront? input = some (length, line)) :
    Text.ofBytes (input.take line.name.length) = line.name := by
  obtain ⟨_, short, stored⟩ := Trie.get?_of_best? h
  obtain ⟨member, spelled⟩ := Trie.get?_values stored
  have name : Text.ofBytes (Text.toBytes line.name) = line.name := by
    rw [wellKnown_name member, StandardName.ofBytes_text]
  have front : Text.toBytes line.name <+: input := by
    refine .trans ?_ (List.take_prefix length input)
    rw [show input.take length = line.wire from spelled, wire, List.append_assoc]
    exact List.prefix_append _ _
  have size : (Text.toBytes line.name).length = line.name.length := by
    rw [← name, Text.ofBytes, List.length_map, ← Text.ofBytes, name]
  rw [← size, ← List.prefix_iff_eq_take.mp front, name]

theorem ofText?_of_atFront? {input : Bytes} {length : Nat} {line : FieldLine}
    (h : atFront? input = some (length, line)) :
    StandardName.ofText? line.name = some line.standard :=
  (spelled_of_atFront? h).2.2.2.standard

end FieldLine

namespace Method

def spaced (method : Method) : Bytes := Text.utf8 (method.name ++ [' '])

theorem common_distinct : (common.map fun method => Trie.folded false method.spaced).Nodup := by
  decide +kernel

theorem scans_atFront? : Trie.Scans false common spaced atFront? := by
  refine Trie.scans_ofList common_distinct fun method member => ?_
  rw [spaced, (common_spelling method member).2.2]
  exact List.append_ne_nil_of_right_ne_nil _ (by simp)

end Method

namespace Version

theorem scans_atFront? : Trie.Scans true all (fun version => Text.octets version.text) atFront? := by
  refine Trie.scans_ofList distinct fun version member => ?_
  obtain ⟨octets, _, nonempty, _⟩ := all_spelling version member
  rwa [octets]

end Version

/-- The tables come to what a scan of the declared tokens comes to. A text is looked up as a name, a
token or a version exactly if it spells one up to the case of ASCII letters; what is found at the
front of any octets is the longest name, well-known line, method with a space, or version in any case
that stands there; and the name found there, alone or in a line, is looked up as the same one. -/
theorem tables_scan :
    (∀ text name, StandardName.ofText? text = some name ↔
        Text.fold text = Text.fold name.text.toList) ∧
      (∀ text token, StandardToken.ofText? text = some token ↔
        Text.fold text = Text.fold token.text.toList) ∧
      (∀ text version, Version.ofText? text = some version ↔
        Text.fold text = Text.fold version.text.toList) ∧
      (Trie.Scans false StandardName.all (fun name => Text.octets name.text)
          StandardName.atFront? ∧
        Trie.Scans false FieldLine.wellKnown FieldLine.wire FieldLine.atFront? ∧
        Trie.Scans false Method.common Method.spaced Method.atFront? ∧
        Trie.Scans true Version.all (fun version => Text.octets version.text)
          Version.atFront?) ∧
      ∀ input length,
        (∀ name, StandardName.atFront? input = some (length, name) →
          StandardName.ofText? (Text.ofBytes (input.take length)) = some name) ∧
        ∀ line, FieldLine.atFront? input = some (length, line) →
          Text.ofBytes (input.take line.name.length) = line.name ∧
            StandardName.ofText? line.name = some line.standard := by
  refine ⟨?_, ?_, ?_, ⟨?_, ?_, ?_, ?_⟩, fun input length => ⟨?_, ?_⟩⟩
  · exact fun _ _ => StandardName.ofText?_eq_some_iff
  · exact fun _ _ => StandardToken.ofText?_eq_some_iff
  · exact fun _ _ => Version.ofText?_eq_some_iff
  · exact StandardName.scans_atFront?
  · exact FieldLine.scans_atFront?
  · exact Method.scans_atFront?
  · exact Version.scans_atFront?
  · exact fun _ => StandardName.ofText?_of_atFront?
  · exact fun _ found => ⟨FieldLine.name_of_atFront? found, FieldLine.ofText?_of_atFront? found⟩

theorem tables_scan_of_encodings :
    let input := Text.toBytes "Accept-Encoding: gzip, deflate, br\r\n".toList
    let line := FieldLine.usual .acceptEncoding "gzip, deflate, br".toList
    StandardName.ofText? (Text.ofBytes (input.take 15)) = some .acceptEncoding ∧
      FieldLine.atFront? input = some (34, line) ∧
      Text.ofBytes (input.take line.name.length) = line.name ∧
      StandardName.ofText? line.name = some .acceptEncoding := by
  intro input line
  have name : StandardName.atFront? input = some (15, .acceptEncoding) := by decide +kernel
  have field : FieldLine.atFront? input = some (34, line) := by decide +kernel
  obtain ⟨_, _, _, _, same⟩ := tables_scan
  exact ⟨(same input 15).1 _ name, field, (same input 34).2 line field⟩

end HttpStream
