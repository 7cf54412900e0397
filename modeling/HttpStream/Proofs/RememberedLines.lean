import HttpStream.Proofs.Memory
import Mathlib.Data.List.Dedup

/-! What a memory of field lines has after lines were put into it: each pair of name and value that
it grew by, found by the text of its line and by nothing else. -/

set_option autoImplicit false

namespace HttpStream

namespace Text

theorem exists_octets {text : Text} (latin : ∀ c ∈ text, c.toNat < 256) :
    ∃ bytes, text = ofBytes bytes := by
  induction text with
  | nil => exact ⟨[], rfl⟩
  | cons c text ih =>
    obtain ⟨b, rfl⟩ := exists_octet (latin c List.mem_cons_self)
    obtain ⟨bytes, rfl⟩ := ih fun c member => latin c (List.mem_cons_of_mem _ member)
    exact ⟨b :: bytes, rfl⟩

theorem ofBytes_inj {first second : Bytes} : ofBytes first = ofBytes second ↔ first = second :=
  (Function.LeftInverse.injective toBytes_ofBytes).eq_iff

theorem ofBytes_prefix_iff {first second : Bytes} :
    ofBytes first <+: ofBytes second ↔ first <+: second := by
  refine ⟨?_, fun front => front.map _⟩
  rw [ofBytes, ofBytes, List.prefix_map_iff]
  rintro ⟨bytes, front, same⟩
  rwa [ofBytes_inj.mp same]

end Text

namespace FieldLine

variable {line other : FieldLine} {input : Bytes}

structure IsLatin (line : FieldLine) : Prop where
  name : ∀ c ∈ line.name, c.toNat < 256 ∧ c ≠ ':'
  value : ∀ c ∈ line.value, c.toNat < 256

-- Over the characters of the line, and not over all characters.
instance (line : FieldLine) : Decidable line.IsLatin :=
  decidable_of_iff (line.name.all (fun c => c.toNat < 256 && c != ':') = true ∧
      line.value.all (fun c => c.toNat < 256) = true) <| by
    simp only [List.all_eq_true, Bool.and_eq_true, decide_eq_true_eq, bne_iff_ne]
    exact ⟨fun ⟨name, value⟩ => ⟨name, value⟩, fun latin => ⟨latin.name, latin.value⟩⟩

def pair (line : FieldLine) : Text × Text := (line.name, line.value)

def spelled (line : FieldLine) : Text := line.name ++ [':', ' '] ++ line.value

theorem IsLatin.pair_eq (latin : line.IsLatin) : line.pair =
    (line.spelled.takeWhile (· != ':'), (line.spelled.dropWhile (· != ':')).drop 2) := by
  have before : ∀ c ∈ line.name, (c != ':') = true := fun c member => by
    simpa using (latin.name c member).2
  rw [spelled, List.append_assoc, List.takeWhile_append_of_pos before,
    List.dropWhile_append_of_pos before]
  simp [pair]

theorem IsLatin.spelled_inj (latin : line.IsLatin) (latin' : other.IsLatin) :
    line.spelled = other.spelled ↔ line.pair = other.pair := by
  constructor
  · intro same
    rw [latin.pair_eq, latin'.pair_eq, same]
  · intro same
    obtain ⟨name, value⟩ := Prod.mk.inj same
    rw [spelled, spelled, name, value]

theorem IsLatin.ofBytes_wire (latin : line.IsLatin) : Text.ofBytes line.wire = line.spelled := by
  obtain ⟨standard, name, value⟩ := line
  obtain ⟨octets, rfl⟩ := Text.exists_octets fun c member => (latin.name c member).1
  obtain ⟨more, rfl⟩ := Text.exists_octets latin.value
  simp only [wire, spelled, Text.toBytes_ofBytes]
  simp only [Text.ofBytes, List.map_append]
  rfl

theorem IsLatin.length_wire (latin : line.IsLatin) : line.wire.length = line.spelled.length := by
  rw [← latin.ofBytes_wire, Text.ofBytes, List.length_map]

theorem IsLatin.wire_inj (latin : line.IsLatin) (latin' : other.IsLatin) :
    line.wire = other.wire ↔ line.pair = other.pair := by
  rw [← latin.spelled_inj latin', ← latin.ofBytes_wire, ← latin'.ofBytes_wire, Text.ofBytes_inj]

theorem IsLatin.front_iff (latin : line.IsLatin) :
    line.spelled <+: Text.ofBytes input ↔ line.wire <+: input := by
  rw [← latin.ofBytes_wire, Text.ofBytes_prefix_iff]

structure IsLongest (lines : List FieldLine) (input : Bytes) (line : FieldLine) : Prop where
  member : line ∈ lines
  front : line.spelled <+: Text.ofBytes input
  longest : ∀ other ∈ lines, other.spelled <+: Text.ofBytes input →
    other.spelled.length ≤ line.spelled.length

end FieldLine

namespace FieldMemory

open FieldLine

variable {memory : FieldMemory} {line found : FieldLine} {lines stored : List FieldLine}
  {key input : Bytes}

def putAll (memory : FieldMemory) (lines : List FieldLine) : FieldMemory := lines.foldl put memory

def growth (memory : FieldMemory) : List FieldLine → List FieldLine
  | [] => []
  | line :: rest =>
    if memory.grows line then line :: (memory.put line).growth rest else (memory.put line).growth rest

theorem putAll_capacity (memory : FieldMemory) (lines : List FieldLine) :
    (memory.putAll lines).capacity = memory.capacity := by
  induction lines generalizing memory with
  | nil => rfl
  | cons line rest ih => exact (ih _).trans (put_capacity memory line)

/-- What a memory holds: the pairs of some lines, each under the octets of its line. -/
structure Holds (memory : FieldMemory) (stored : List FieldLine) : Prop where
  exact : memory.lines.ignoreCase = false
  latin : ∀ line ∈ stored, line.IsLatin
  apart : (stored.map pair).Nodup
  size : memory.size = stored.length
  within : memory.size ≤ memory.capacity
  known : ∀ key found, memory.lines.get? key = some found →
    ∃ line ∈ stored, line.wire = key ∧ found.pair = line.pair
  kept : ∀ line ∈ stored, ∃ found, memory.lines.get? line.wire = some found

namespace Holds

theorem start (capacity : Nat) : Holds { capacity } [] where
  exact := rfl
  latin := nofun
  apart := List.nodup_nil
  size := rfl
  within := Nat.zero_le _
  known key found stored := by simp at stored
  kept := nofun

theorem contains_wire (h : Holds memory stored) (latin : line.IsLatin) :
    memory.lines.contains line.wire = true ↔ line.pair ∈ stored.map pair := by
  rw [Trie.contains, Option.isSome_iff_exists, List.mem_map]
  constructor
  · rintro ⟨found, there⟩
    obtain ⟨old, member, same, _⟩ := h.known _ found there
    exact ⟨old, member, ((h.latin old member).wire_inj latin).mp same⟩
  · rintro ⟨old, member, same⟩
    rw [← ((h.latin old member).wire_inj latin).mpr same]
    exact h.kept old member

/-- A memory grows by a line if there is room, and the line has a value and a new pair. -/
theorem grows_iff (h : Holds memory stored) (latin : line.IsLatin) : memory.grows line = true ↔
    memory.isFull = false ∧ line.value ≠ [] ∧ line.pair ∉ stored.map pair := by
  rw [← h.contains_wire latin, grows, accepts, Trie.store_new]
  simp [and_assoc]

theorem get?_put (h : Holds memory stored) (accepted : memory.accepts line = true) (key : Bytes) :
    (memory.put line).lines.get? key =
      if key = line.wire then some line else memory.lines.get? key := by
  rw [FieldMemory.put, if_pos accepted, Trie.get?_insert, Trie.map_fold, Trie.map_fold, h.exact,
    Trie.folded_false, Trie.folded_false]

theorem exact_put (h : Holds memory stored) (line : FieldLine) :
    (memory.put line).lines.ignoreCase = false := by
  unfold FieldMemory.put
  split
  · rw [Trie.ignoreCase_insert, h.exact]
  · exact h.exact

theorem put_grows (h : Holds memory stored) (latin : line.IsLatin)
    (grows : memory.grows line = true) : Holds (memory.put line) (stored ++ [line]) where
  exact := h.exact_put line
  latin := by
    intro old member
    rcases List.mem_append.mp member with member | last
    · exact h.latin old member
    · rwa [List.mem_singleton.mp last]
  apart := by
    obtain ⟨_, _, fresh⟩ := (h.grows_iff latin).mp grows
    rw [List.map_append, List.map_singleton, ← List.concat_eq_append, List.nodup_concat]
    exact ⟨fresh, h.apart⟩
  size := by
    obtain ⟨accepted, fresh⟩ := Bool.and_eq_true_iff.mp grows
    rw [Trie.store_new, Bool.not_eq_true'] at fresh
    rw [FieldMemory.size, FieldMemory.put, if_pos accepted, Trie.size_insert, fresh,
      List.length_append, ← h.size]
    rfl
  within := by
    rw [put_capacity]
    exact put_within line h.within
  known := by
    intro key found there
    rw [h.get?_put (Bool.and_eq_true_iff.mp grows).1] at there
    split at there
    · next same =>
      obtain rfl : line = found := Option.some.inj there
      exact ⟨line, by simp, same.symm, rfl⟩
    · obtain ⟨old, member, same, pair⟩ := h.known key found there
      exact ⟨old, List.mem_append_left _ member, same, pair⟩
  kept := by
    intro old member
    rw [h.get?_put (Bool.and_eq_true_iff.mp grows).1]
    split
    · exact ⟨line, rfl⟩
    · next other =>
      refine h.kept old ((List.mem_append.mp member).resolve_right fun last => other ?_)
      rw [List.mem_singleton.mp last]

/-- A line of a pair that is stored may give it its standard name, and changes nothing else. -/
theorem put_stays (h : Holds memory stored) (latin : line.IsLatin)
    (stays : memory.grows line = false) : Holds (memory.put line) stored := by
  -- An accepted line that adds nothing replaces one with the same octets.
  by_cases accepted : memory.accepts line = true
  · have old : memory.lines.contains line.wire = true := by
      simpa [grows, accepted, Trie.store_new] using stays
    obtain ⟨twin, member, same⟩ := List.mem_map.mp ((h.contains_wire latin).mp old)
    refine ⟨h.exact_put line, h.latin, h.apart, ?_, ?_, ?_, ?_⟩
    · rw [FieldMemory.size, FieldMemory.put, if_pos accepted, Trie.size_insert, if_pos old]
      exact h.size
    · rw [put_capacity]
      exact put_within line h.within
    · intro key found there
      rw [h.get?_put accepted] at there
      split at there
      · next here =>
        obtain rfl : line = found := Option.some.inj there
        exact ⟨twin, member, (((h.latin twin member).wire_inj latin).mpr same).trans here.symm,
          same.symm⟩
      · exact h.known key found there
    · intro old member
      rw [h.get?_put accepted]
      split
      · exact ⟨line, rfl⟩
      · exact h.kept old member
  · rwa [FieldMemory.put, if_neg accepted]

theorem putAll (h : Holds memory stored) (latin : ∀ line ∈ lines, line.IsLatin) :
    Holds (memory.putAll lines) (stored ++ memory.growth lines) := by
  induction lines generalizing memory stored with
  | nil => simpa [FieldMemory.putAll, growth] using h
  | cons line rest ih =>
    have first := latin line List.mem_cons_self
    have others : ∀ line ∈ rest, line.IsLatin := fun line member =>
      latin line (List.mem_cons_of_mem _ member)
    unfold growth
    split
    · next grows =>
      rw [List.append_cons]
      exact ih (h.put_grows first grows) others
    · next stays => exact ih (h.put_stays first (Bool.eq_false_iff.mpr stays)) others

theorem dedup_pairs (h : Holds memory stored) : memory.size = (stored.map pair).dedup.length := by
  rw [h.apart.dedup, List.length_map, h.size]

theorem best?_cases (h : Holds memory stored) (input : Bytes) :
    (∃ line found, IsLongest stored input line ∧ found.pair = line.pair ∧
        memory.best? input = some (line.spelled.length, found)) ∨
      (∀ line ∈ stored, ¬line.spelled <+: Text.ofBytes input) ∧ memory.best? input = none := by
  -- A stored line at the front of the input is found under its octets.
  have there (old : FieldLine) (member : old ∈ stored)
      (front : old.spelled <+: Text.ofBytes input) : old.spelled.length ≤ input.length ∧
        0 < old.spelled.length ∧
        ∃ found, memory.lines.get? (input.take old.spelled.length) = some found := by
    rw [(h.latin old member).front_iff] at front
    rw [← (h.latin old member).length_wire, ← List.prefix_iff_eq_take.mp front]
    exact ⟨front.length_le, List.length_pos_iff.mpr (by simp [wire]), h.kept old member⟩
  rcases memory.lines.best?_cases input
    with ⟨n, found, positive, short, stored', last, best⟩ | ⟨nowhere, best⟩
  · obtain ⟨line, member, same, pair⟩ := h.known _ found stored'
    have latin := h.latin line member
    have length : line.spelled.length = n := by
      rw [← latin.length_wire, same, List.length_take, Nat.min_eq_left short]
    refine .inl ⟨line, found, ⟨member, ?_, ?_⟩, pair, length.symm ▸ best⟩
    · rw [latin.front_iff, same]
      exact List.take_prefix n input
    · intro other member' front
      obtain ⟨within, _, found', stored''⟩ := there other member' front
      refine Nat.le_of_not_lt fun further => ?_
      rw [last _ (length ▸ further) within] at stored''
      cases stored''
  · refine .inr ⟨fun line member front => ?_, best⟩
    obtain ⟨within, positive, found, stored'⟩ := there line member front
    rw [nowhere _ positive within] at stored'
    cases stored'

theorem pair_of_isLongest (h : Holds memory stored) {line other : FieldLine}
    (first : IsLongest stored input line) (second : IsLongest stored input other) :
    line.pair = other.pair := by
  have length : line.spelled.length = other.spelled.length :=
    Nat.le_antisymm (second.longest line first.member first.front)
      (first.longest other second.member second.front)
  rw [← (h.latin line first.member).spelled_inj (h.latin other second.member),
    List.prefix_iff_eq_take.mp first.front, List.prefix_iff_eq_take.mp second.front, length]

theorem best?_eq_some_iff (h : Holds memory stored) {length : Nat} {pair : Text × Text} :
    (memory.best? input).map (fun (length, found) => (length, found.pair)) = some (length, pair) ↔
      ∃ line, IsLongest stored input line ∧ length = line.spelled.length ∧ pair = line.pair := by
  rcases h.best?_cases input with ⟨line, found, longest, same, best⟩ | ⟨nowhere, best⟩
  · simp only [best, Option.map_some, same, Option.some.injEq, Prod.mk.injEq]
    constructor
    · rintro ⟨rfl, rfl⟩
      exact ⟨line, longest, rfl, rfl⟩
    · rintro ⟨other, rival, rfl, rfl⟩
      have pair := h.pair_of_isLongest longest rival
      have spelled := ((h.latin line longest.member).spelled_inj
        (h.latin other rival.member)).mpr pair
      exact ⟨congrArg List.length spelled, pair⟩
  · rw [best]
    refine ⟨nofun, ?_⟩
    rintro ⟨line, longest, _⟩
    exact absurd longest.front (nowhere line longest.member)

theorem best?_eq_none_iff (h : Holds memory stored) : memory.best? input = none ↔
    ∀ line ∈ stored, ¬line.spelled <+: Text.ofBytes input := by
  rcases h.best?_cases input with ⟨line, found, longest, _, best⟩ | ⟨nowhere, best⟩
  · rw [best]
    exact ⟨nofun, fun nowhere => absurd longest.front (nowhere line longest.member)⟩
  · exact ⟨fun _ => nowhere, fun _ => best⟩

theorem best?_wire (h : Holds memory stored) (member : line ∈ stored) :
    ∃ found, memory.best? line.wire = some (line.spelled.length, found) ∧
      found.pair = line.pair := by
  have whole : Text.ofBytes line.wire = line.spelled := (h.latin line member).ofBytes_wire
  have longest : IsLongest stored line.wire line := by
    refine ⟨member, whole ▸ List.prefix_refl _, fun other _ front => ?_⟩
    exact (whole ▸ front).length_le
  have best := h.best?_eq_some_iff.mpr ⟨line, longest, rfl, rfl⟩
  obtain ⟨⟨length, found⟩, best, same⟩ := Option.map_eq_some_iff.mp best
  obtain ⟨rfl, pair⟩ := Prod.mk.inj same
  exact ⟨found, best, pair⟩

end Holds

/-- After any lines of ISO-8859-1 text, names without a colon, were put into a memory: its size is the
number of the pairs it has grown by, and not above its capacity; it grows by a line exactly if it is
not full, the line has a value and its pair is not stored; whatever is put into it later, each stored
line is found by its text, with the same name and value; and what is found at the front of any input
is the pair of the stored line whose text is the longest there, with the length of that text. -/
theorem putAll_exact (capacity : Nat) (lines : List FieldLine)
    (latin : ∀ line ∈ lines, line.IsLatin) :
    let memory := putAll { capacity } lines
    let stored := growth { capacity } lines
    (memory.size = (stored.map pair).dedup.length ∧ memory.size ≤ capacity) ∧
      (∀ line, line.IsLatin → (memory.grows line = true ↔
        memory.isFull = false ∧ line.value ≠ [] ∧ line.pair ∉ stored.map pair)) ∧
      (∀ more, (∀ line ∈ more, line.IsLatin) → ∀ line ∈ stored,
        ∃ found, (memory.putAll more).best? line.wire = some (line.spelled.length, found) ∧
          found.pair = line.pair) ∧
      ∀ input,
        (∀ length pair, (memory.best? input).map (fun (length, found) => (length, found.pair)) =
            some (length, pair) ↔
          ∃ line, IsLongest stored input line ∧ length = line.spelled.length ∧ pair = line.pair) ∧
        (memory.best? input = none ↔ ∀ line ∈ stored, ¬line.spelled <+: Text.ofBytes input) := by
  intro memory stored
  have holds : Holds memory stored := by simpa using (Holds.start capacity).putAll latin
  have same : memory.capacity = capacity := putAll_capacity _ _
  refine ⟨⟨holds.dedup_pairs, same ▸ holds.within⟩, fun _ => holds.grows_iff, ?_, fun input => ?_⟩
  · intro more latin' line member
    exact (holds.putAll latin').best?_wire (List.mem_append_left _ member)
  · exact ⟨fun _ _ => holds.best?_eq_some_iff, holds.best?_eq_none_iff⟩

/-- A line is put twice, the second time under another standard name; a value that goes on makes a
longer line of its own, and one that is empty makes none. -/
theorem putAll_exact_of_cookies :
    let short : FieldLine := ⟨.cookie, "Cookie".toList, "a=1".toList⟩
    let long : FieldLine := ⟨.cookie, "Cookie".toList, "a=1\u00e9".toList⟩
    let accept : FieldLine := ⟨.accept, "Accept".toList, "*".toList⟩
    let lines := [short, { short with standard := .host }, long, { long with value := [] }]
    let memory := putAll { capacity := 3 } lines
    memory.size = 2 ∧ memory.grows accept = true ∧
      (∃ found, (memory.putAll [accept]).best? long.wire = some (12, found) ∧
        found.pair = long.pair) ∧
      memory.best? [0x43, 0x6f] = none := by
  intro short long accept lines memory
  have latin : ∀ line ∈ lines, line.IsLatin := by
    intro line member
    simp only [lines, List.mem_cons, List.not_mem_nil, or_false] at member
    rcases member with rfl | rfl | rfl | rfl <;> decide +kernel
  have other : accept.IsLatin := by decide +kernel
  have stored : growth { capacity := 3 } lines = [short, long] := by decide +kernel
  have length : long.spelled.length = 12 := by decide +kernel
  obtain ⟨⟨size, _⟩, grows, kept, found⟩ := putAll_exact 3 lines latin
  rw [stored] at size grows kept found
  refine ⟨size.trans (by decide +kernel), ?_, ?_, ?_⟩
  · exact (grows accept other).mpr ⟨by decide +kernel, by decide, by decide +kernel⟩
  · rw [← length]
    exact kept [accept] (by simpa using other) long (by simp)
  · exact (found _).2.mpr (by decide +kernel)

end FieldMemory
end HttpStream
