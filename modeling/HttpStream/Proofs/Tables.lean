import HttpStream.Field.Line
import HttpStream.Field.Token
import HttpStream.Method
import HttpStream.Proofs.Text
import HttpStream.Proofs.Trie
import HttpStream.Version
import Mathlib.Data.List.Nodup

/-! What the tables of known tokens hold: a token found at the front of an input is spelled there,
and reads as the same token when its octets are collected one by one. -/

set_option autoImplicit false

namespace HttpStream

namespace Trie

variable {α : Type} {values : List α} {probe : Bytes} {found : α}

section keys

variable {ignoreCase : Bool} {key : α → Bytes}

theorem get?_values
    (h : (ofList ignoreCase (values.map fun value => (key value, value))).get? probe =
      some found) :
    found ∈ values ∧ folded ignoreCase probe = folded ignoreCase (key found) := by
  rw [get?_ofList, latest?, Option.map_eq_some_iff] at h
  obtain ⟨entry, first, rfl⟩ := h
  have same := List.find?_some first
  obtain ⟨value, member, rfl⟩ :=
    List.mem_map.mp (List.mem_reverse.mp (List.mem_of_find?_eq_some first))
  exact ⟨member, (eq_of_beq same).symm⟩

theorem get?_values_iff
    (distinct : (values.map fun value => folded ignoreCase (key value)).Nodup) :
    (ofList ignoreCase (values.map fun value => (key value, value))).get? probe = some found ↔
      found ∈ values ∧ folded ignoreCase probe = folded ignoreCase (key found) := by
  refine ⟨get?_values, fun ⟨member, same⟩ => ?_⟩
  obtain ⟨other, stored⟩ : ∃ other,
      (ofList ignoreCase (values.map fun value => (key value, value))).get? probe = some other := by
    rw [← Option.isSome_iff_exists, get?_ofList, isSome_latest?]
    exact ⟨(key found, found), List.mem_map_of_mem member, same.symm⟩
  obtain ⟨member', same'⟩ := get?_values stored
  rw [stored, List.inj_on_of_nodup_map distinct member' member (same'.symm.trans same)]

end keys

/-- A text is looked up by its octets in a table that ignores case. -/
theorem get?_utf8_iff {spelling : α → String} {text : Text}
    (distinct : (values.map fun value => folded true (Text.octets (spelling value))).Nodup) :
    (ofList true (values.map fun value => (Text.octets (spelling value), value))).get?
        (Text.utf8 text) = some found ↔
      found ∈ values ∧ Text.fold text = Text.fold (spelling found).toList := by
  rw [get?_values_iff distinct, Text.octets_eq]
  exact and_congr_right fun _ => Text.utf8_folded

end Trie

namespace Octet

def isNameOctet (b : UInt8) : Bool := (0x61 ≤ toLower b && toLower b ≤ 0x7a) || b == 0x2d

theorem isNameOctet_toLower (b : UInt8) : isNameOctet (toLower b) = isNameOctet b := by
  grind [isNameOctet, toLower]

theorem isVisible_toLower (b : UInt8) : isVisible (toLower b) = isVisible b := by
  grind [isVisible, toLower, sp]

theorem plain_of_isNameOctet (b : UInt8) :
    isNameOctet b = true → isLineEnd b = false ∧ b ≠ colon ∧ isBlank b = false := by
  grind [isNameOctet, toLower, isLineEnd, isBlank, cr, lf, colon, sp, tab]

def isInName (b : UInt8) : Bool := !isLineEnd b && b != colon

theorem all_isInName {bytes : Bytes} (members : bytes.all isNameOctet = true) :
    bytes.all isInName = true := by
  rw [List.all_eq_true] at members ⊢
  intro b member
  obtain ⟨plain, notColon, _⟩ := plain_of_isNameOctet b (members b member)
  simp [isInName, plain, notColon]

theorem plain_of_isVisible (b : UInt8) : isVisible b = true → b ≠ sp ∧ isControl b = false := by
  grind [isVisible, isControl, sp]

/-- A property that case does not touch holds of a spelling if it holds of another one. -/
theorem all_of_map_toLower {p : UInt8 → Bool} (fold : ∀ b, p (toLower b) = p b)
    {first second : Bytes} (same : first.map toLower = second.map toLower)
    (h : second.all p = true) : first.all p = true := by
  have moved (bytes : Bytes) : (bytes.map toLower).all p = bytes.all p := by
    simp [List.all_map, Function.comp_def, fold]
  rw [← moved, same, moved, h]

end Octet

namespace Method

theorem common_spelling : ∀ method ∈ common, (Text.toBytes method.name).all Octet.isVisible = true ∧
    method.name = Text.ofBytes (Text.toBytes method.name) ∧
    Text.utf8 (method.name ++ [' ']) = Text.toBytes method.name ++ [Octet.sp] := by
  decide +kernel

@[simp] theorem ofText?_name (method : Method) : ofText? method.name = some method := by
  simp [ofText?, method.nonempty, method.isToken]

theorem spelled_of_atFront? {window : Bytes} {length : Nat} {method : Method}
    (h : atFront? window = some (length, method)) :
    ∃ b rest, window.take length = b :: rest ++ [Octet.sp] ∧ length = rest.length + 2 ∧
      (b :: rest).all Octet.isVisible = true ∧ method.name = Text.ofBytes (b :: rest) := by
  obtain ⟨_, short, stored⟩ := Trie.get?_of_best? h
  obtain ⟨member, spelled⟩ := Trie.get?_values stored
  obtain ⟨visible, text, ending⟩ := common_spelling method member
  rw [Trie.folded_false, Trie.folded_false, ending] at spelled
  cases name : Text.toBytes method.name with
  | nil => exact absurd (by rw [text, name]; rfl) method.nonempty
  | cons b rest =>
    rw [name] at spelled visible text
    refine ⟨b, rest, spelled, ?_, visible, text⟩
    have size := congrArg List.length spelled
    simp only [List.length_take, List.length_append, List.length_cons, List.length_nil] at size
    omega

end Method

namespace Version

theorem mem_all (version : Version) : version ∈ all := by cases version <;> decide

theorem distinct : (all.map fun version => Trie.folded true (Text.octets version.text)).Nodup := by
  decide +kernel

theorem ofText?_eq_some_iff {text : Text} {version : Version} :
    ofText? text = some version ↔ Text.fold text = Text.fold version.text.toList :=
  (Trie.get?_utf8_iff distinct).trans (and_iff_right (mem_all version))

theorem ofText?_text (version : Version) : ofText? version.text.toList = some version :=
  ofText?_eq_some_iff.mpr rfl

theorem all_spelling : ∀ version ∈ all,
    Text.octets version.text = Text.toBytes version.text.toList ∧
    Text.ofBytes (Text.toBytes version.text.toList) = version.text.toList ∧
    Text.toBytes version.text.toList ≠ [] ∧
    (Text.toBytes version.text.toList).all Octet.isVisible = true := by
  decide +kernel

theorem spelled (version : Version) : ∃ b rest, Text.toBytes version.text.toList = b :: rest ∧
    (b :: rest).all Octet.isVisible = true ∧ ofText? (Text.ofBytes (b :: rest)) = some version := by
  obtain ⟨_, text, nonempty, visible⟩ := all_spelling version (mem_all version)
  cases spelling : Text.toBytes version.text.toList with
  | nil => exact absurd spelling nonempty
  | cons b rest =>
    rw [spelling] at visible text
    exact ⟨b, rest, rfl, visible, by rw [text, ofText?_text]⟩

theorem spelled_of_atFront? {window : Bytes} {length : Nat} {version : Version}
    (h : atFront? window = some (length, version)) :
    0 < length ∧ length ≤ window.length ∧ (window.take length).all Octet.isVisible = true ∧
      ofText? (Text.ofBytes (window.take length)) = some version := by
  obtain ⟨positive, short, stored⟩ := Trie.get?_of_best? h
  obtain ⟨member, same⟩ := Trie.get?_values stored
  obtain ⟨octets, text, _, visible⟩ := all_spelling version member
  rw [Trie.folded_true, Trie.folded_true, octets] at same
  refine ⟨positive, short, Octet.all_of_map_toLower Octet.isVisible_toLower same visible, ?_⟩
  rw [ofText?_eq_some_iff, ← text, Text.fold_ofBytes, Text.fold_ofBytes, same]

end Version

namespace StandardToken

theorem mem_all (token : StandardToken) : token ∈ all := by cases token <;> decide

theorem distinct : (all.map fun token => Trie.folded true (Text.octets token.text)).Nodup := by
  decide +kernel

theorem ofText?_eq_some_iff {text : Text} {token : StandardToken} :
    ofText? text = some token ↔ Text.fold text = Text.fold token.text.toList :=
  (Trie.get?_utf8_iff distinct).trans (and_iff_right (mem_all token))

theorem ofText?_text (token : StandardToken) : ofText? token.text.toList = some token :=
  ofText?_eq_some_iff.mpr rfl

end StandardToken

namespace StandardName

theorem mem_all (name : StandardName) : name ∈ all := by cases name <;> decide

theorem distinct : (all.map fun name => Trie.folded true (Text.octets name.text)).Nodup := by
  decide +kernel

theorem ofText?_eq_some_iff {text : Text} {name : StandardName} :
    ofText? text = some name ↔ Text.fold text = Text.fold name.text.toList :=
  (Trie.get?_utf8_iff distinct).trans (and_iff_right (mem_all name))

@[simp] theorem ofText?_text (name : StandardName) : ofText? name.text.toList = some name :=
  ofText?_eq_some_iff.mpr rfl

theorem all_spelling : ∀ name ∈ all, Text.octets name.text = Text.toBytes name.text.toList ∧
    Text.ofBytes (Text.toBytes name.text.toList) = name.text.toList ∧
    name.text.toList ≠ [] ∧ (Text.toBytes name.text.toList).all Octet.isNameOctet = true := by
  decide +kernel

theorem octets_text (name : StandardName) : Text.octets name.text = Text.toBytes name.text.toList :=
  (all_spelling name (mem_all name)).1

theorem ofBytes_text (name : StandardName) :
    Text.ofBytes (Text.toBytes name.text.toList) = name.text.toList :=
  (all_spelling name (mem_all name)).2.1

theorem spelled_of_atFront? {window : Bytes} {length : Nat} {name : StandardName}
    (h : atFront? window = some (length, name)) :
    0 < length ∧ length ≤ window.length ∧
      (window.take length).all Octet.isNameOctet = true ∧
      name.text.toList = Text.ofBytes (window.take length) := by
  obtain ⟨positive, short, stored⟩ := Trie.get?_of_best? h
  have spelled : window.take length = Text.octets name.text := (Trie.get?_values stored).2
  rw [spelled, octets_text]
  exact ⟨positive, short, (all_spelling name (mem_all name)).2.2.2, (ofBytes_text name).symm⟩

theorem fold_of_ofText? {text : Text} {name : StandardName} (h : ofText? text = some name) :
    Text.fold text = Text.fold name.text.toList := ofText?_eq_some_iff.mp h

theorem spelled_of_ofText? {text : Text} {name : StandardName} (h : ofText? text = some name) :
    ∃ bytes, text = Text.ofBytes bytes ∧
      bytes.map Octet.toLower = (Text.toBytes name.text.toList).map Octet.toLower := by
  have same := fold_of_ofText? h
  rw [← ofBytes_text name, Text.fold_ofBytes] at same
  exact Text.ofBytes_of_fold same

theorem plain_of_ofText? {text : Text} {name : StandardName} (h : ofText? text = some name) :
    ∃ b rest, text = Text.ofBytes (b :: rest) ∧ (b :: rest).all Octet.isNameOctet = true := by
  obtain ⟨bytes, rfl, same⟩ := spelled_of_ofText? h
  obtain ⟨_, text, nonempty, plain⟩ := all_spelling name (mem_all name)
  have plain := Octet.all_of_map_toLower Octet.isNameOctet_toLower same plain
  cases bytes with
  | nil =>
    rw [List.map_nil, eq_comm, List.map_eq_nil_iff] at same
    exact absurd (by rw [← text, same]; rfl) nonempty
  | cons b rest => exact ⟨b, rest, rfl, plain⟩

end StandardName

namespace FieldLine

theorem wellKnown_name {line : FieldLine} (member : line ∈ wellKnown) :
    line.name = line.standard.text.toList := by
  obtain ⟨⟨standard, value⟩, _, rfl⟩ := List.mem_map.mp member
  rfl

theorem wellKnown_value : ∀ line ∈ wellKnown, line.value ≠ [] ∧
    line.value = Text.ofBytes (Text.toBytes line.value) ∧
    (Text.toBytes line.value).all (fun b => !Octet.isLineEnd b) = true ∧
    line.value.head?.all (fun c => !Text.isBlank c) = true ∧
    line.value.getLast?.all (fun c => !Text.isBlank c) = true := by
  decide +kernel

end FieldLine
end HttpStream
