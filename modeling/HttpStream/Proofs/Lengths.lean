import HttpStream.Proofs.Decision
import Mathlib.Algebra.Group.Nat.Defs

/-! The values that announce a length: decimal numbers, with a sign or without, as far as a signed
number of 64 bits goes. -/

set_option autoImplicit false

namespace HttpStream
namespace Value

def unplus : Text → Text
  | '+' :: digits => digits
  | value => value

def Counts (value : Text) (n : Nat) : Prop := Text.Denotes (unplus value) n ∧ n < 2 ^ 63

def Negated (value : Text) : Prop :=
  ∃ digits m, value = '-' :: digits ∧ Text.Denotes digits m ∧ m ≤ 2 ^ 63

variable {value digits : Text} {n : Nat} {fault : Fault}

theorem natural?_eq_some_iff {length : Int} :
    signed?.natural? digits = some length ↔ ∃ n : Nat, length = n ∧ Text.Denotes digits n ∧
      n < 2 ^ 63 := by
  unfold signed?.natural?
  rw [Option.bind_eq_some_iff]
  constructor
  · rintro ⟨n, known, small⟩
    split at small
    · next less =>
      cases small
      exact ⟨n, rfl, Text.decimal?_eq_some_iff.mp known, less⟩
    · cases small
  · rintro ⟨n, rfl, denotes, less⟩
    exact ⟨n, Text.decimal?_eq_some_iff.mpr denotes, if_pos less⟩

theorem signed?_of_ne (plain : value.head? ≠ some '-') :
    signed? value = signed?.natural? (unplus value) := by
  unfold signed? unplus
  split
  · exact absurd rfl plain
  · rfl
  · next other =>
    split
    · exact absurd rfl (other _)
    · rfl

theorem signed?_minus {length : Int} : signed? ('-' :: digits) = some length ↔
    ∃ m : Nat, length = -m ∧ Text.Denotes digits m ∧ m ≤ 2 ^ 63 := by
  simp only [signed?]
  rw [Option.bind_eq_some_iff]
  constructor
  · rintro ⟨m, known, small⟩
    split at small
    · next within =>
      cases small
      exact ⟨m, rfl, Text.decimal?_eq_some_iff.mp known, within⟩
    · cases small
  · rintro ⟨m, rfl, denotes, within⟩
    exact ⟨m, Text.decimal?_eq_some_iff.mpr denotes, if_pos within⟩

theorem not_counts_minus (digits : Text) (n : Nat) : ¬Counts ('-' :: digits) n := by
  rintro ⟨denotes, _⟩
  have decimal := denotes.decimal
  simp [unplus] at decimal

theorem contentLength_eq_ok_iff_signed : contentLength value = .ok n ↔
    ∃ length, signed? value = some length ∧ n = length.toNat := by
  refine ⟨contentLength_eq, ?_⟩
  rintro ⟨length, signed, rfl⟩
  simp [contentLength, signed]

theorem contentLength_eq_ok_iff :
    contentLength value = .ok n ↔ Counts value n ∨ Negated value ∧ n = 0 := by
  rw [contentLength_eq_ok_iff_signed]
  -- A value with a minus sign counts for nothing else, and one without it is not negated.
  by_cases minus : value.head? = some '-'
  · obtain ⟨digits, rfl⟩ := List.head?_eq_some_iff.mp minus
    simp only [signed?_minus, not_counts_minus, false_or]
    constructor
    · rintro ⟨_, ⟨m, rfl, denotes, within⟩, rfl⟩
      exact ⟨⟨digits, m, rfl, denotes, within⟩, by omega⟩
    · rintro ⟨⟨_, m, same, denotes, within⟩, rfl⟩
      cases same
      exact ⟨_, ⟨m, rfl, denotes, within⟩, by omega⟩
  · have plain : ¬Negated value := by
      rintro ⟨digits, _, rfl, _⟩
      exact minus rfl
    simp only [signed?_of_ne minus, natural?_eq_some_iff, plain, false_and, or_false]
    constructor
    · rintro ⟨_, ⟨m, rfl, counts⟩, rfl⟩
      exact counts
    · exact fun counts => ⟨n, ⟨n, rfl, counts⟩, rfl⟩

theorem contentLength_eq_error_iff : contentLength value = .error fault ↔
    fault = .badContentLength value ∧ (∀ n, ¬Counts value n) ∧ ¬Negated value := by
  have announces (n : Nat) := @contentLength_eq_ok_iff value n
  cases verdict : contentLength value with
  | ok length =>
    refine ⟨nofun, fun ⟨_, uncounted, plain⟩ => ?_⟩
    rcases (announces length).mp verdict with counts | negated
    · exact absurd counts (uncounted length)
    · exact absurd negated.1 plain
  | error other =>
    have same : other = .badContentLength value := by
      unfold contentLength at verdict
      split at verdict
      · cases verdict
      · exact (Except.error.inj verdict).symm
    simp only [verdict, reduceCtorEq, false_iff, not_or, not_and] at announces
    constructor
    · rintro ⟨⟩
      exact ⟨same, fun n => (announces n).1, fun negated => (announces 0).2 negated rfl⟩
    · rintro ⟨rfl, _⟩
      rw [same]

/-- The framing that a length decides on tells what counts from what comes to nothing. -/
theorem framing_of_contentLength {length : Nat} (announced : contentLength value = .ok length) :
    let framing : Framing := if 0 < length then .contentLength else .noContent
    (framing = .contentLength ∧ length = n ↔ 0 < n ∧ Counts value n) ∧
      (framing = .noContent ↔ Counts value 0 ∨ Negated value) := by
  intro framing
  have announces (n : Nat) : Counts value n ∨ Negated value ∧ n = 0 ↔ length = n := by
    rw [← contentLength_eq_ok_iff, announced, Except.ok.injEq]
  have zero : Counts value 0 ∨ Negated value ↔ length = 0 := by simpa using announces 0
  rcases Nat.eq_zero_or_pos length with rfl | positive
  · refine ⟨⟨nofun, fun ⟨positive, counts⟩ => ?_⟩, ⟨fun _ => zero.mpr rfl, fun _ => rfl⟩⟩
    have same := (announces n).mp (.inl counts)
    omega
  · have framing_eq : framing = .contentLength := if_pos positive
    rw [framing_eq]
    refine ⟨⟨?_, fun counts => ⟨rfl, (announces n).mp (.inl counts.2)⟩⟩, ⟨nofun, fun nothing => ?_⟩⟩
    · rintro ⟨_, rfl⟩
      exact ⟨positive, ((announces length).mpr rfl).resolve_right fun h => by omega⟩
    · have same := zero.mp nothing
      omega

theorem counts_of_unsigned (unsigned : value.head? ≠ some '+') :
    Counts value n ↔ Text.Denotes value n ∧ n < 2 ^ 63 := by
  have same : unplus value = value := by
    unfold unplus
    split
    · exact absurd rfl unsigned
    · rfl
  rw [Counts, same]

theorem contentLength_toDigits (short : n < 2 ^ 63) :
    contentLength (Nat.toDigits 10 n) = .ok n := by
  have denotes := Text.denotes_toDigits n
  have unsigned : (Nat.toDigits 10 n).head? ≠ some '+' := fun plus => by
    have digit := List.all_eq_true.mp denotes.decimal '+' (List.mem_of_mem_head? plus)
    cases digit
  exact contentLength_eq_ok_iff.mpr (.inl ((counts_of_unsigned unsigned).mpr ⟨denotes, short⟩))

end Value
end HttpStream
