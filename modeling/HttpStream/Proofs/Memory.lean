import HttpStream.Field.Memory
import HttpStream.Proofs.Tables
import HttpStream.Stage

/-! Lines known as a whole, from the table or from the memory of a connection: a line found at the
front of an input is spelled there, its name is the standard one it is filed under, and its value
is text of one line without blanks at its ends. -/

set_option autoImplicit false

namespace HttpStream

open Octet

namespace Text

/-- The value of a field as it is delivered. -/
structure IsValue (text : Text) : Prop where
  line : IsLine text
  opened : IsOpened text
  closed : IsClosed text

theorem IsValue.nil : IsValue [] := ⟨.nil, by simp [IsOpened], by simp [IsClosed]⟩

end Text

namespace Snoc

theorem trimmed_eq_take {α : Type} (drop : α → Bool) (s : Snoc α) :
    ∃ n, s.trimmed drop = s.toList.take n := by
  refine ⟨(s.trimmed drop).length, ?_⟩
  have whole : s.toList = s.trimmed drop ++ (s.reversed.takeWhile drop).reverse := by
    rw [toList, trimmed, ← List.reverse_append, List.takeWhile_append_dropWhile]
  rw [whole, List.take_left]

theorem trimmed_ofList {text : Text} (closed : Text.IsClosed text) :
    (ofList text).trimmed Text.isBlank = text := by
  have stopped : text.reverse.dropWhile Text.isBlank = text.reverse := by
    cases reversed : text.reverse with
    | nil => rfl
    | cons c rest =>
      have last : c ∈ text.getLast? := by rw [List.getLast?_eq_head?_reverse, reversed]; rfl
      rw [List.dropWhile_cons_of_neg (by simp [closed c last])]
  simp [trimmed, ofList, stopped]

theorem trimmed_closed (s : Snoc Char) : Text.IsClosed (s.trimmed Text.isBlank) := by
  intro c last
  have stopped := List.head?_dropWhile_not Text.isBlank s.reversed
  rw [trimmed, List.getLast?_reverse] at last
  rw [Option.mem_def.mp last] at stopped
  simpa using stopped

structure IsValuePart (token : Snoc Char) : Prop where
  line : Text.IsLine token.toList
  opened : Text.IsOpened token.toList

theorem IsValuePart.empty : IsValuePart empty := ⟨.nil, by simp [Text.IsOpened]⟩

theorem IsValuePart.ofList {text : Text} (h : Text.IsValue text) : IsValuePart (.ofList text) :=
  ⟨by simpa using h.line, by simpa using h.opened⟩

theorem IsValuePart.push {token : Snoc Char} (h : token.IsValuePart) {b : UInt8}
    (plain : isLineEnd b = false) (start : token.isEmpty = true → isBlank b = false) :
    (token.push (toChar b)).IsValuePart := by
  refine ⟨by simpa using h.line.append (.singleton plain), ?_⟩
  rw [toList_push]
  by_cases empty : token.toList = []
  · have blank := start (by simpa [← isEmpty_toList] using empty)
    simp [empty, Text.IsOpened, isBlank_toChar, blank]
  · exact h.opened.append empty

theorem IsValuePart.trimmed {token : Snoc Char} (h : token.IsValuePart) :
    Text.IsValue (token.trimmed Text.isBlank) := by
  obtain ⟨n, short⟩ := trimmed_eq_take Text.isBlank token
  refine ⟨short ▸ h.line.take n, ?_, trimmed_closed token⟩
  intro c first
  rw [short] at first
  exact h.opened c (by cases n <;> simp_all [List.head?_take])

end Snoc

namespace FieldLine

/-- A line that can be recognized by its octets: they read as that line. -/
structure Sound (line : FieldLine) : Prop where
  standard : StandardName.ofText? line.name = some line.standard
  nonempty : line.value ≠ []
  value : Text.IsValue line.value

theorem wellKnown_sound {line : FieldLine} (member : line ∈ wellKnown) : line.Sound := by
  obtain ⟨nonempty, text, plain, opened, closed⟩ := wellKnown_value line member
  have standard : StandardName.ofText? line.name = some line.standard := by
    rw [wellKnown_name member, StandardName.ofText?_text]
  refine ⟨standard, nonempty, ⟨_, text, by simpa using plain⟩, ?_, ?_⟩
  · intro c first
    simpa [Option.mem_def.mp first] using opened
  · intro c last
    simpa [Option.mem_def.mp last] using closed

theorem spelled_of_atFront? {window : Bytes} {length : Nat} {line : FieldLine}
    (h : atFront? window = some (length, line)) :
    0 < length ∧ length ≤ window.length ∧ window.take length = line.wire ∧ line.Sound := by
  obtain ⟨positive, short, stored⟩ := Trie.get?_of_best? h
  obtain ⟨member, spelled⟩ := Trie.get?_values stored
  exact ⟨positive, short, spelled, wellKnown_sound member⟩

end FieldLine

namespace FieldMemory

variable {memory : FieldMemory} {line found : FieldLine} {key : Bytes}

@[simp] theorem put_capacity (memory : FieldMemory) (line : FieldLine) :
    (memory.put line).capacity = memory.capacity := by
  unfold put
  split <;> rfl

theorem size_le_put (memory : FieldMemory) (line : FieldLine) :
    memory.size ≤ (memory.put line).size := by
  unfold put
  split
  · rw [size, size, Trie.size_insert]
    split <;> omega
  · exact Nat.le_refl _

theorem put_within (line : FieldLine) (within : memory.size ≤ memory.capacity) :
    (memory.put line).size ≤ memory.capacity := by
  unfold put
  split
  · next accepted =>
    have room : ¬memory.capacity ≤ memory.size := by simp_all [accepts, isFull]
    simp only [size, Trie.size_insert] at room within ⊢
    split <;> omega
  · exact within

theorem get?_of_put (stored : (memory.put line).lines.get? key = some found) :
    found = line ∨ memory.lines.get? key = some found := by
  unfold put at stored
  split at stored
  · exact (Trie.get?_of_insert stored).imp (·.2) id
  · exact .inr stored

structure Sound (memory : FieldMemory) : Prop where
  exact : memory.lines.ignoreCase = false
  stored : ∀ key line, memory.lines.get? key = some line → key = line.wire ∧ line.Sound

theorem Sound.start (capacity : Nat) : Sound { capacity } := by
  constructor
  · rfl
  · intro key line h
    simp at h

theorem Sound.put (h : memory.Sound) (sound : line.value ≠ [] → line.Sound) :
    (memory.put line).Sound := by
  unfold FieldMemory.put
  split
  · next accepted =>
    have nonempty : line.value ≠ [] := by simp_all [accepts]
    have plain : memory.lines.fold = id := by
      funext b
      simp [Trie.fold, h.exact]
    constructor
    · rw [Trie.ignoreCase_insert, h.exact]
    · intro key found stored
      rcases Trie.get?_of_insert stored with ⟨same, rfl⟩ | old
      · exact ⟨by simpa only [plain, List.map_id] using same, sound nonempty⟩
      · exact h.stored key found old
  · exact h

end FieldMemory

namespace Recall

def Sound (cache : Recall) : Prop := ∀ memory ∈ cache.memory?, memory.Sound

theorem Sound.enable {cache : Recall} (h : cache.Sound) (capacity : Nat) :
    (cache.enable capacity).Sound := by
  cases cache with
  | unset =>
    by_cases positive : 0 < capacity
    · rw [Recall.enable, if_pos positive]
      intro memory active
      cases active
      exact .start capacity
    · rwa [Recall.enable, if_neg positive]
  | active memory => exact h
  | disabled => exact h

theorem Sound.put {cache : Recall} (h : cache.Sound) {line : FieldLine}
    (sound : line.value ≠ [] → line.Sound) : (cache.put line).Sound := by
  cases cache with
  | active memory =>
    intro grown active
    cases active
    exact (h memory rfl).put sound
  | unset => exact h
  | disabled => exact h

theorem Sound.disabled : Sound .disabled := by
  intro memory active
  cases active

theorem Sound.spelled_of_best? {cache : Recall} (h : cache.Sound) {window : Bytes} {length : Nat}
    {line : FieldLine} (best : cache.best? window = some (length, line)) :
    0 < length ∧ length ≤ window.length ∧ window.take length = line.wire ∧ line.Sound := by
  obtain ⟨memory, active, found⟩ := Option.bind_eq_some_iff.mp best
  obtain ⟨positive, short, stored⟩ := Trie.get?_of_best? found
  exact ⟨positive, short, (h memory active).stored _ _ stored⟩

end Recall

end HttpStream
