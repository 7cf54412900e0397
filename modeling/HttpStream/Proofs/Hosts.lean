import HttpStream.Field.Value
import HttpStream.Proofs.Text
import Mathlib.Data.List.TakeWhile

/-! `Host` values: the text after the last colon is a port, unless a bracket closes behind that
colon, and the brackets of an address literal stand around all of the rest. -/

set_option autoImplicit false

namespace HttpStream.Value

def Uncut (text : Text) : Prop := ∀ c ∈ text, c ≠ ':' ∧ c ≠ ']'

/-- How a value is cut: at its last colon, unless a bracket closes behind it. -/
inductive Cut : Text → Text → Option Text → Prop where
  | whole {value : Text} (uncut : Uncut value) : Cut value value none
  | closed (front : Text) {rest : Text} (uncut : Uncut rest) :
      Cut (front ++ ']' :: rest) (front ++ ']' :: rest) none
  | port (name : Text) {digits : Text} (uncut : Uncut digits) :
      Cut (name ++ ':' :: digits) name (some digits)

/-- What stands in the brackets of a text that opens one, or all of another text. -/
inductive Bare : Text → Text → Prop where
  | bracketed (literal : Text) : Bare ('[' :: (literal ++ [']'])) literal
  | plain {host : Text} (unopened : host.head? ≠ some '[') : Bare host host

inductive Numbers : Option Text → Option Nat → Prop where
  | nothing : Numbers none none
  | port {digits : Text} {p : Nat} (denotes : Text.Denotes digits p) (small : p ≤ 65535) :
      Numbers (some digits) (some p)

variable {value name host rest digits : Text} {port : Option Text} {p : Nat}

/-! Where a value is cut. -/

theorem Uncut.takeWhile (uncut : Uncut rest) {c : Char} (delimits : c = ':' ∨ c = ']')
    (before : Text) : (rest.reverse ++ c :: before).takeWhile (fun c => c != ':' && c != ']') =
      rest.reverse := by
  have all : ∀ c ∈ rest.reverse, (c != ':' && c != ']') = true := fun c member => by
    simpa using uncut c (List.mem_reverse.mp member)
  rw [List.takeWhile_append_of_pos all]
  rcases delimits with rfl | rfl <;> simp

theorem Cut.cutPort (cut : Cut value name port) : cutPort value = (name, port) := by
  cases cut with
  | whole uncut =>
    have all : value.reverse.takeWhile (fun c => c != ':' && c != ']') = value.reverse :=
      List.takeWhile_eq_self_iff.mpr fun c member => by
        simpa using uncut c (List.mem_reverse.mp member)
    simp only [Value.cutPort, all, List.drop_length]
  | @closed front rest uncut =>
    have text : (front ++ ']' :: rest).reverse = rest.reverse ++ ']' :: front.reverse := by simp
    simp only [Value.cutPort, text, uncut.takeWhile (.inr rfl), List.drop_left]
    rfl
  | @port name digits uncut =>
    have text : (name ++ ':' :: digits).reverse = digits.reverse ++ ':' :: name.reverse := by simp
    simp only [Value.cutPort, text, uncut.takeWhile (.inl rfl), List.drop_left,
      List.reverse_reverse]

theorem exists_cut (value : Text) : ∃ name port, Cut value name port := by
  -- The last delimiter of the value is the first one of the reversed value.
  let inside (c : Char) : Bool := c != ':' && c != ']'
  have split := List.takeWhile_append_dropWhile (p := inside) (l := value.reverse)
  have uncut : Uncut (value.reverse.takeWhile inside).reverse := fun c member => by
    simpa [inside] using
      List.all_eq_true.mp List.all_takeWhile c (List.mem_reverse.mp member)
  have stop := List.head?_dropWhile_not inside value.reverse
  cases later : value.reverse.dropWhile inside with
  | nil =>
    rw [later, List.append_nil] at split
    rw [split, List.reverse_reverse] at uncut
    exact ⟨_, _, .whole uncut⟩
  | cons c before =>
    rw [later] at stop split
    have text : value = before.reverse ++ c :: (value.reverse.takeWhile inside).reverse := by
      simpa using (congrArg List.reverse split).symm
    have stop : inside c = false := stop
    obtain rfl | rfl : c = ':' ∨ c = ']' := by simp only [inside] at stop; grind
    · exact text ▸ ⟨_, _, .port _ uncut⟩
    · exact text ▸ ⟨_, _, .closed _ uncut⟩

/-! The two parts. -/

theorem port?_eq_some_iff : port? digits = some p ↔ Text.Denotes digits p ∧ p ≤ 65535 := by
  have small (n : Nat) : n < UInt16.size ↔ n ≤ 65535 := Nat.lt_succ_iff
  simp only [port?, Option.bind_eq_some_iff, Text.decimal?_eq_some_iff,
    Option.ite_none_right_eq_some, Option.some.injEq, small]
  constructor
  · rintro ⟨n, denotes, within, rfl⟩
    exact ⟨denotes, within⟩
  · rintro ⟨denotes, within⟩
    exact ⟨p, denotes, within, rfl⟩

theorem unbracket?_eq_some_iff : unbracket? name = some host ↔ Bare name host := by
  constructor
  · intro found
    unfold unbracket? at found
    split at found
    · next literal =>
      split at found
      · next closes =>
        obtain ⟨inner, rfl⟩ := List.getLast?_eq_some_iff.mp closes
        rw [List.dropLast_concat, Option.some.injEq] at found
        subst found
        exact .bracketed inner
      · cases found
    · next other =>
      cases found
      refine .plain fun opened => ?_
      cases name with
      | nil => cases opened
      | cons c rest =>
        obtain rfl : c = '[' := by simpa using opened
        exact other rest rfl
  · intro bare
    cases bare with
    | bracketed literal => simp [unbracket?]
    | plain unopened =>
      unfold unbracket?
      split
      · exact absurd rfl unopened
      · rfl

/-! The whole value. -/

/-- A value that is cut is judged by its parts, the port first. -/
theorem Cut.host_eq (cut : Cut value name port) (nonempty : value ≠ []) :
    Value.host value =
      if port.isSome ∧ port.bind port? = none then .error (.badHost value)
      else match unbracket? name with
        | some host => .ok (host, port.bind port?)
        | none => .error (.badIpv6Host value) := by
  have nonempty : value.isEmpty = false := by simpa using nonempty
  simp only [Value.host, nonempty, cut.cutPort, Bool.false_eq_true, if_false]
  cases port with
  | none => cases unbracket? name <;> simp
  | some digits => cases found : port? digits <;> cases unbracket? name <;> simp [found]

theorem host_eq_ok_iff {number : Option Nat} : Value.host value = .ok (host, number) ↔
    value ≠ [] ∧ ∃ name port, Cut value name port ∧ Numbers port number ∧ Bare name host := by
  constructor
  · intro accepted
    have nonempty : value ≠ [] := by
      rintro rfl
      cases accepted
    obtain ⟨name, port, cut⟩ := exists_cut value
    rw [cut.host_eq nonempty] at accepted
    refine ⟨nonempty, name, port, cut, ?_⟩
    cases port with
    | none =>
      cases bare : unbracket? name with
      | none => simp [bare] at accepted
      | some inner =>
        obtain ⟨rfl, rfl⟩ : inner = host ∧ none = number := by simpa [bare] using accepted
        exact ⟨.nothing, unbracket?_eq_some_iff.mp bare⟩
    | some digits =>
      cases found : port? digits with
      | none => simp [found] at accepted
      | some p =>
        cases bare : unbracket? name with
        | none => simp [found, bare] at accepted
        | some inner =>
          obtain ⟨rfl, rfl⟩ : inner = host ∧ some p = number := by
            simpa [found, bare] using accepted
          obtain ⟨denotes, small⟩ := port?_eq_some_iff.mp found
          exact ⟨.port denotes small, unbracket?_eq_some_iff.mp bare⟩
  · rintro ⟨nonempty, name, port, cut, numbers, bare⟩
    rw [cut.host_eq nonempty]
    have bare := unbracket?_eq_some_iff.mpr bare
    cases numbers with
    | nothing => simp [bare]
    | port denotes small => simp [port?_eq_some_iff.mpr ⟨denotes, small⟩, bare]

theorem host_cases (value : Text) : (∃ host number, Value.host value = .ok (host, number)) ∨
    Value.host value = .error (.badHost value) ∨
      Value.host value = .error (.badIpv6Host value) := by
  by_cases empty : value = []
  · subst empty
    exact .inr (.inl rfl)
  · obtain ⟨name, port, cut⟩ := exists_cut value
    rw [cut.host_eq empty]
    split
    · exact .inr (.inl rfl)
    · split
      · exact .inl ⟨_, _, rfl⟩
      · exact .inr (.inr rfl)

theorem uncut_of_denotes (denotes : Text.Denotes digits p) : Uncut digits := by
  intro c member
  have digit := List.all_eq_true.mp denotes.decimal c member
  constructor <;> rintro rfl <;> cases digit

/-- An address in brackets, or a host that needs none, with the digits of a port or without them, is
taken apart into what it was put together from; and a value that is accepted was put together in
one of these ways from what it is taken apart into, with some digits of the port. Any other value is
carried by the fault. -/
theorem host_inverse :
    (∀ address, Value.host ('[' :: (address ++ [']'])) = .ok (address, none) ∧
      ∀ p ≤ 65535, Value.host ('[' :: (address ++ ']' :: ':' :: Nat.toDigits 10 p)) =
        .ok (address, some p)) ∧
    (∀ host : Text, host ≠ [] → ':' ∉ host → ']' ∉ host → host.head? ≠ some '[' →
      Value.host host = .ok (host, none) ∧
      ∀ p ≤ 65535, Value.host (host ++ ':' :: Nat.toDigits 10 p) = .ok (host, some p)) ∧
    (∀ value host port, Value.host value = .ok (host, port) →
      (port = none ∧ (value = host ∨ value = '[' :: (host ++ [']']))) ∨
      ∃ digits p, port = some p ∧ p ≤ 65535 ∧ Text.Denotes digits p ∧
        (value = host ++ ':' :: digits ∨ value = '[' :: (host ++ ']' :: ':' :: digits))) ∧
    ∀ value, (∀ host port, Value.host value ≠ .ok (host, port)) →
      Value.host value = .error (.badHost value) ∨
        Value.host value = .error (.badIpv6Host value) := by
  have numbers {p : Nat} (small : p ≤ 65535) : Numbers (some (Nat.toDigits 10 p)) (some p) :=
    .port (Text.denotes_toDigits p) small
  have uncut (p : Nat) : Uncut (Nat.toDigits 10 p) := uncut_of_denotes (Text.denotes_toDigits p)
  refine ⟨fun address => ⟨?_, fun p small => ?_⟩, ?_, ?_, ?_⟩
  · have cut : Cut ('[' :: address ++ ']' :: []) _ none := .closed _ (List.forall_mem_nil _)
    exact host_eq_ok_iff.mpr ⟨List.cons_ne_nil _ _, _, _, cut, .nothing, .bracketed address⟩
  · have cut := Cut.port ('[' :: (address ++ [']'])) (uncut p)
    have whole := host_eq_ok_iff.mpr
      ⟨List.cons_ne_nil _ _, _, _, cut, numbers small, .bracketed address⟩
    simpa using whole
  · intro host nonempty noColon noBracket unopened
    have whole : Uncut host := fun c member =>
      ⟨fun same => noColon (same ▸ member), fun same => noBracket (same ▸ member)⟩
    refine ⟨host_eq_ok_iff.mpr ⟨nonempty, _, _, .whole whole, .nothing, .plain unopened⟩, ?_⟩
    intro p small
    exact host_eq_ok_iff.mpr
      ⟨by simp, _, _, .port host (uncut p), numbers small, .plain unopened⟩
  · intro value host port accepted
    obtain ⟨_, name, text, cut, numbers, bare⟩ := host_eq_ok_iff.mp accepted
    cases numbers with
    | nothing =>
      -- No port: either nothing was cut off, or a bracket closes behind the last colon.
      obtain rfl : name = value := by cases cut <;> rfl
      refine .inl ⟨rfl, ?_⟩
      cases bare with
      | bracketed => exact .inr rfl
      | plain => exact .inl rfl
    | @port digits p denotes small =>
      refine .inr ⟨digits, p, rfl, small, denotes, ?_⟩
      cases cut
      cases bare with
      | bracketed => exact .inr (by simp)
      | plain => exact .inl rfl
  · intro value refused
    rcases host_cases value with ⟨host, port, accepted⟩ | fault
    · exact absurd accepted (refused host port)
    · exact fault

theorem host_inverse_of_values :
    Value.host "[a:]b]:443".toList = .ok ("a:]b".toList, some 443) ∧
      Value.host "example.com:65535".toList = .ok ("example.com".toList, some 65535) ∧
      (Value.host "a:65536".toList = .error (.badHost "a:65536".toList) ∨
        Value.host "a:65536".toList = .error (.badIpv6Host "a:65536".toList)) := by
  obtain ⟨literals, hosts, _, others⟩ := host_inverse
  refine ⟨(literals "a:]b".toList).2 443 (by decide), ?_, others _ fun host port accepted => ?_⟩
  · exact (hosts "example.com".toList (by decide) (by decide) (by decide) (by decide)).2 65535
      (by decide)
  · have refused : Value.host "a:65536".toList = .error (.badHost "a:65536".toList) := by
      decide +kernel
    cases refused.symm.trans accepted

end HttpStream.Value
