import HttpStream.Text

/-! Octets and the characters they stand for correspond one to one. -/

set_option autoImplicit false

namespace HttpStream

namespace Octet

/-- A property of all octets can be checked by counting. -/
theorem forall_of_lt {p : UInt8 → Prop} (h : ∀ n < 256, p (UInt8.ofNat n)) (b : UInt8) : p b := by
  simpa using h b.toNat b.toNat_lt

theorem toNat_toChar (b : UInt8) : (toChar b).toNat = b.toNat := by
  have small := b.toNat_lt
  unfold toChar
  rw [Char.ofNat, dif_pos (Or.inl (by omega))]
  rfl

theorem isBlank_toChar (b : UInt8) : Text.isBlank (toChar b) = isBlank b := by
  revert b
  exact forall_of_lt (by decide +kernel)

theorem toChar_beq_colon (b : UInt8) : (toChar b == ':') = (b == colon) := by
  revert b
  exact forall_of_lt (by decide +kernel)

theorem toChar_toLower (b : UInt8) : (toChar b).toLower = toChar (toLower b) := by
  revert b
  exact forall_of_lt (by decide +kernel)

theorem isLineEnd_iff (b : UInt8) : isLineEnd b = true ↔ b = cr ∨ b = lf := by simp [isLineEnd]

theorem isLineEnd_of_isVisible (b : UInt8) : isVisible b = true → isLineEnd b = false := by
  grind [isVisible, isLineEnd, sp, cr, lf]

theorem isBlank_of_isVisible (b : UInt8) : isVisible b = true → isBlank b = false := by
  grind [isVisible, isBlank, sp, tab]

theorem isLineEnd_of_isBlank (b : UInt8) : isBlank b = true → isLineEnd b = false := by
  grind [isBlank, isLineEnd, sp, tab, cr, lf]

theorem toLower_of_high (b : UInt8) : 128 ≤ b.toNat → toLower b = b := by
  revert b
  exact forall_of_lt (by decide +kernel)

theorem toLower_low (b : UInt8) : b.toNat < 128 → (toLower b).toNat < 128 := by
  revert b
  exact forall_of_lt (by decide +kernel)

theorem isVisible_of_isLineEnd {b : UInt8} (h : isLineEnd b = true) : isVisible b = false := by
  rcases (isLineEnd_iff b).mp h with rfl | rfl <;> rfl

end Octet

namespace Text

@[simp] theorem octet?_toChar (b : UInt8) : octet? (Octet.toChar b) = some b := by
  have small := b.toNat_lt
  simp [octet?, Octet.toNat_toChar, small]

theorem toChar_of_octet? {c : Char} {b : UInt8} (h : octet? c = some b) : Octet.toChar b = c := by
  simp only [octet?] at h
  split at h
  · next small =>
    cases h
    simp [Octet.toChar, Nat.mod_eq_of_lt small]
  · cases h

@[simp] theorem toBytes_ofBytes (bytes : Bytes) : toBytes (ofBytes bytes) = bytes := by
  induction bytes with
  | nil => rfl
  | cons b bytes ih =>
    simp only [toBytes, ofBytes] at ih
    simp [toBytes, ofBytes, ih]

theorem fold_ofBytes (bytes : Bytes) :
    fold (ofBytes bytes) = ofBytes (bytes.map Octet.toLower) := by
  simp [fold, ofBytes, Octet.toChar_toLower]

theorem toLower_of_high {c : Char} (high : 128 ≤ c.toNat) : c.toLower = c := by
  refine dif_neg fun upper => ?_
  have bound : c.toNat ≤ 'Z'.toNat := upper.2
  exact absurd (Nat.le_trans high bound) (by decide)

theorem exists_octet {c : Char} (small : c.toNat < 256) : ∃ b, Octet.toChar b = c :=
  ⟨UInt8.ofNat c.toNat, toChar_of_octet? (by rw [octet?, if_pos small])⟩

theorem ofBytes_of_fold {text : Text} {lower : Bytes} (h : fold text = ofBytes lower) :
    ∃ bytes, text = ofBytes bytes ∧ bytes.map Octet.toLower = lower := by
  induction text generalizing lower with
  | nil =>
    cases lower with
    | nil => exact ⟨[], rfl, rfl⟩
    | cons b lower => cases h
  | cons c text ih =>
    cases lower with
    | nil => cases h
    | cons b lower =>
      obtain ⟨first, rest⟩ := List.cons.inj h
      obtain ⟨bytes, rfl, same⟩ := ih rest
      have small : c.toNat < 256 := by
        refine Nat.lt_of_not_le fun large => ?_
        rw [toLower_of_high (Nat.le_trans (by decide) large)] at first
        rw [first, Octet.toNat_toChar] at large
        exact absurd b.toNat_lt (Nat.not_lt.mpr large)
      obtain ⟨b', rfl⟩ := exists_octet small
      rw [Octet.toChar_toLower] at first
      have octet := congrArg octet? first
      rw [octet?_toChar, octet?_toChar, Option.some.injEq] at octet
      exact ⟨b' :: bytes, rfl, by rw [List.map_cons, octet, same]⟩

theorem octets_eq (literal : String) : octets literal = utf8 literal.toList := by
  rw [octets, String.toUTF8, ← String.utf8Encode_toList, List.utf8Encode, List.data_toByteArray,
    List.toList_toArray]
  rfl

theorem utf8_inj {first second : Text} : utf8 first = utf8 second ↔ first = second := by
  refine ⟨fun same => ?_, congrArg utf8⟩
  have octets : first.utf8Encode = second.utf8Encode := congrArg List.toByteArray same
  rw [← String.toByteArray_ofList, ← String.toByteArray_ofList] at octets
  exact String.ofList_inj.mp (String.toByteArray_inj.mp octets)

theorem utf8EncodeChar_toChar (b : UInt8) : b.toNat < 128 →
    String.utf8EncodeChar (Octet.toChar b) = [b] := by
  revert b
  exact Octet.forall_of_lt (by decide +kernel)

theorem high_of_utf8EncodeChar {c : Char} (high : 128 ≤ c.toNat) {b : UInt8}
    (member : b ∈ String.utf8EncodeChar c) : 128 ≤ b.toNat := by
  have octet (n : Nat) (large : 128 ≤ n) (small : n < 256) : 128 ≤ (UInt8.ofNat n).toNat := by
    simpa [Nat.mod_eq_of_lt small] using large
  change 128 ≤ c.val.toNat at high
  simp only [String.utf8EncodeChar, show ¬c.val.toNat ≤ 127 by omega, if_false] at member
  split at member
  · simp only [List.mem_cons, List.not_mem_nil, or_false] at member
    rcases member with rfl | rfl <;> exact octet _ (by omega) (by omega)
  · split at member
    · simp only [List.mem_cons, List.not_mem_nil, or_false] at member
      rcases member with rfl | rfl | rfl <;> exact octet _ (by omega) (by omega)
    · simp only [List.mem_cons, List.not_mem_nil, or_false] at member
      rcases member with rfl | rfl | rfl | rfl <;> exact octet _ (by omega) (by omega)

/-- Only ASCII letters have another case, as characters and as octets. -/
theorem utf8EncodeChar_toLower (c : Char) :
    String.utf8EncodeChar c.toLower = (String.utf8EncodeChar c).map Octet.toLower := by
  by_cases low : c.toNat < 128
  · obtain ⟨b, rfl⟩ := exists_octet (Nat.lt_trans low (by decide))
    rw [Octet.toNat_toChar] at low
    rw [Octet.toChar_toLower, utf8EncodeChar_toChar b low,
      utf8EncodeChar_toChar _ (Octet.toLower_low b low)]
    rfl
  · have high := Nat.le_of_not_lt low
    rw [toLower_of_high high, List.map_congr_left (g := id) ?_, List.map_id]
    intro b member
    exact Octet.toLower_of_high b (high_of_utf8EncodeChar high member)

theorem utf8_fold (text : Text) : utf8 (fold text) = (utf8 text).map Octet.toLower := by
  simp [utf8, fold, List.flatMap_map, List.map_flatMap, utf8EncodeChar_toLower]

theorem utf8_folded {first second : Text} :
    (utf8 first).map Octet.toLower = (utf8 second).map Octet.toLower ↔ fold first = fold second := by
  rw [← utf8_fold, ← utf8_fold, utf8_inj]

def IsLine (text : Text) : Prop := ∃ bytes : Bytes, text = ofBytes bytes ∧
  ∀ b ∈ bytes, Octet.isLineEnd b = false

def IsOpened (text : Text) : Prop := ∀ c ∈ text.head?, isBlank c = false

def IsClosed (text : Text) : Prop := ∀ c ∈ text.getLast?, isBlank c = false

theorem IsLine.nil : IsLine [] := ⟨[], rfl, by simp⟩

theorem IsLine.append {first second : Text} (left : IsLine first) (right : IsLine second) :
    IsLine (first ++ second) := by
  obtain ⟨bytes, rfl, plain⟩ := left
  obtain ⟨more, rfl, plain'⟩ := right
  refine ⟨bytes ++ more, by simp [ofBytes], ?_⟩
  intro b member
  rcases List.mem_append.mp member with member | member
  · exact plain b member
  · exact plain' b member

theorem IsLine.singleton {b : UInt8} (h : Octet.isLineEnd b = false) :
    IsLine [Octet.toChar b] := ⟨[b], rfl, by simpa using h⟩

theorem IsLine.take {text : Text} (h : IsLine text) (n : Nat) : IsLine (text.take n) := by
  obtain ⟨bytes, rfl, plain⟩ := h
  exact ⟨bytes.take n, by simp [ofBytes], fun b member => plain b (List.mem_of_mem_take member)⟩

theorem IsOpened.append {first second : Text} (left : IsOpened first) (nonempty : first ≠ []) :
    IsOpened (first ++ second) := by
  cases first with
  | nil => exact absurd rfl nonempty
  | cons c first => simpa [IsOpened] using left

structure Denotes (digits : Text) (n : Nat) : Prop where
  nonempty : digits ≠ []
  decimal : digits.all Char.isDigit = true
  value : Nat.ofDigitChars 10 digits 0 = n

theorem decimal?_eq_some_iff {digits : Text} {n : Nat} :
    decimal? digits = some n ↔ Denotes digits n := by
  have value : digits.foldl (fun n c => n * 10 + (c.toNat - '0'.toNat)) 0 =
      Nat.ofDigitChars 10 digits 0 := by
    simp only [Nat.ofDigitChars, Nat.mul_comm 10]
  unfold decimal?
  rw [value]
  split
  · next wrong =>
    refine ⟨nofun, fun h => ?_⟩
    simp [h.decimal, h.nonempty] at wrong
  · next right =>
    simp only [Bool.or_eq_true, List.isEmpty_iff, Bool.not_eq_true', not_or,
      Bool.not_eq_false] at right
    rw [Option.some.injEq]
    exact ⟨fun same => ⟨right.1, right.2, same⟩, Denotes.value⟩

theorem denotes_toDigits (n : Nat) : Denotes (Nat.toDigits 10 n) n where
  nonempty := Nat.toDigits_ne_nil
  decimal := List.all_eq_true.mpr fun _ member =>
    Nat.isDigit_of_mem_toDigits (by decide) (by decide) member
  value := Nat.ofDigitChars_toDigits (by decide) (by decide)

end Text
end HttpStream
