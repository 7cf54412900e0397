import HttpStream.Proofs.Hosts

/-! What a `Host` value may look like. Only its last delimiter is looked at: what stands before it is
the host, whatever it is made of. -/

set_option autoImplicit false

namespace HttpStream.Value

/-- No bracket, colon or missing name makes the host ambiguous; only a literal has colons in it. -/
def Clear (value host : Text) : Prop :=
  '[' ∉ host ∧ ']' ∉ host ∧ (value.head? ≠ some '[' → host ≠ [] ∧ ':' ∉ host)

instance (value host : Text) : Decidable (Clear value host) :=
  inferInstanceAs (Decidable (_ ∧ _ ∧ (_ → _)))

inductive Tail : Text → Option Nat → Prop where
  | nothing : Tail [] none
  | port {digits : Text} {p : Nat} (denotes : Text.Denotes digits p) (small : p ≤ 65535) :
      Tail (':' :: digits) (some p)

/-- The values that say what they mean. -/
inductive Plain : Text → Text → Option Nat → Prop where
  | name {host tail : Text} {port : Option Nat} (nonempty : host ≠ [])
      (clear : ':' ∉ host ∧ '[' ∉ host ∧ ']' ∉ host) (behind : Tail tail port) :
      Plain (host ++ tail) host port
  | literal {address tail : Text} {port : Option Nat} (clear : '[' ∉ address ∧ ']' ∉ address)
      (behind : Tail tail port) : Plain ('[' :: (address ++ ']' :: tail)) address port

/-- The other values that are accepted: an empty host before a port, a colon or a bracket in a host
that is not in brackets, a bracket in one that is. -/
inductive Stray : Text → Text → Option Nat → Prop where
  | ported {host tail : Text} {p : Nat} (unopened : host.head? ≠ some '[')
      (stray : host = [] ∨ ':' ∈ host ∨ '[' ∈ host ∨ ']' ∈ host) (behind : Tail tail (some p)) :
      Stray (host ++ tail) host (some p)
  | portless {host : Text} (unopened : host.head? ≠ some '[') (stray : '[' ∈ host ∨ ']' ∈ host)
      (uncut : Cut host host none) : Stray host host none
  | literal {address tail : Text} {port : Option Nat} (stray : '[' ∈ address ∨ ']' ∈ address)
      (behind : Tail tail port) : Stray ('[' :: (address ++ ']' :: tail)) address port

inductive Unclosed : Text → Prop where
  | intro {name tail : Text} {port : Option Nat} (behind : Tail tail port)
      (uncut : tail = [] → Cut name name none) (opened : name.head? = some '[')
      (unclosed : ∀ address, name ≠ '[' :: (address ++ [']'])) : Unclosed (name ++ tail)

variable {value name host tail address : Text} {port : Option Nat}

/-! How the parts of a value are cut. -/

theorem Tail.cut (behind : Tail tail port) (uncut : tail = [] → Cut name name none) :
    ∃ digits, Cut (name ++ tail) name digits ∧ Numbers digits port := by
  cases behind with
  | nothing =>
    rw [List.append_nil]
    exact ⟨none, uncut rfl, .nothing⟩
  | port denotes small =>
    exact ⟨_, .port name (uncut_of_denotes denotes), .port denotes small⟩

theorem Cut.behind {digits : Option Text} (cut : Cut value name digits)
    (numbers : Numbers digits port) : ∃ rest, value = name ++ rest ∧ Tail rest port ∧
      (rest = [] → Cut name name none) := by
  cases numbers with
  | nothing =>
    obtain rfl : name = value := by cases cut <;> rfl
    exact ⟨[], (List.append_nil _).symm, .nothing, fun _ => cut⟩
  | port denotes small =>
    cases cut
    exact ⟨_, rfl, .port denotes small, fun empty => nomatch empty⟩

theorem uncut_literal (address : Text) :
    Cut ('[' :: (address ++ [']'])) ('[' :: (address ++ [']'])) none :=
  .closed ('[' :: address) (List.forall_mem_nil _)

theorem uncut_name (colon : ':' ∉ host) (bracket : ']' ∉ host) : Cut host host none :=
  .whole fun _ member => ⟨fun same => colon (same ▸ member), fun same => bracket (same ▸ member)⟩

/-- A value is not cut at a colon if a bracket closes behind it. -/
theorem Cut.stray (cut : Cut value name none) (stray : ':' ∈ value ∨ '[' ∈ value ∨ ']' ∈ value) :
    '[' ∈ value ∨ ']' ∈ value := by
  rcases stray with colon | bracket
  · cases cut with
    | whole uncut => exact absurd rfl (uncut _ colon).1
    | closed => exact .inr (by simp)
  · exact bracket

theorem host_of_tail (behind : Tail tail port) (uncut : tail = [] → Cut name name none)
    (bare : Bare name host) (nonempty : name ++ tail ≠ []) :
    Value.host (name ++ tail) = .ok (host, port) := by
  obtain ⟨_, cut, numbers⟩ := behind.cut uncut
  exact host_eq_ok_iff.mpr ⟨nonempty, _, _, cut, numbers, bare⟩

theorem host_of_literal (behind : Tail tail port) :
    Value.host ('[' :: (address ++ ']' :: tail)) = .ok (address, port) := by
  have accepted := host_of_tail behind (fun _ => uncut_literal address) (.bracketed address)
    (List.cons_ne_nil _ _)
  simpa using accepted

/-! What is accepted. -/

theorem Plain.accepted (plain : Plain value host port) : Value.host value = .ok (host, port) := by
  cases plain with
  | name nonempty clear behind =>
    obtain ⟨colon, opening, closing⟩ := clear
    refine host_of_tail behind (fun _ => uncut_name colon closing) (.plain fun opened => ?_)
      (List.append_ne_nil_of_left_ne_nil nonempty _)
    exact opening (List.mem_of_head? opened)
  | literal _ behind => exact host_of_literal behind

theorem Tail.ne_nil {p : Nat} (behind : Tail tail (some p)) : tail ≠ [] := by
  cases behind with
  | port => exact List.cons_ne_nil _ _

theorem Stray.accepted (stray : Stray value host port) : Value.host value = .ok (host, port) := by
  cases stray with
  | ported unopened _ behind =>
    exact host_of_tail behind (fun empty => absurd empty behind.ne_nil) (.plain unopened)
      (List.append_ne_nil_of_right_ne_nil _ behind.ne_nil)
  | portless unopened stray uncut =>
    have nonempty : value ≠ [] := by
      rintro rfl
      exact stray.elim List.not_mem_nil List.not_mem_nil
    simpa using host_of_tail .nothing (fun _ => uncut) (.plain unopened)
      (List.append_ne_nil_of_left_ne_nil nonempty _)
  | literal _ behind => exact host_of_literal behind

theorem Tail.head?_append (behind : Tail tail port) :
    (host ++ tail).head? = some '[' ↔ host.head? = some '[' := by
  cases host with
  | nil => cases behind <;> simp
  | cons => simp

theorem Plain.clear (plain : Plain value host port) : Clear value host := by
  cases plain with
  | name nonempty clear behind => exact ⟨clear.2.1, clear.2.2, fun _ => ⟨nonempty, clear.1⟩⟩
  | literal clear => exact ⟨clear.1, clear.2, fun unopened => absurd rfl unopened⟩

theorem Stray.not_clear (stray : Stray value host port) : ¬ Clear value host := by
  rintro ⟨opening, closing, name⟩
  cases stray with
  | ported unopened stray behind =>
    obtain ⟨nonempty, colon⟩ := name (behind.head?_append.not.mpr unopened)
    exact stray.elim nonempty (·.elim colon (·.elim opening closing))
  | portless unopened stray => exact stray.elim opening closing
  | literal stray => exact stray.elim opening closing

/-- There is no other way to be accepted. -/
theorem plain_or_stray (accepted : Value.host value = .ok (host, port)) :
    Plain value host port ∨ Stray value host port := by
  obtain ⟨nonempty, name, digits, cut, numbers, bare⟩ := host_eq_ok_iff.mp accepted
  obtain ⟨tail, rfl, behind, uncut⟩ := cut.behind numbers
  cases bare with
  | bracketed =>
    have text : '[' :: (host ++ [']']) ++ tail = '[' :: (host ++ ']' :: tail) := by simp
    rw [text]
    by_cases clear : '[' ∉ host ∧ ']' ∉ host
    · exact .inl (.literal clear behind)
    · exact .inr (.literal (by grind) behind)
  | plain unopened =>
    by_cases clear : host ≠ [] ∧ ':' ∉ host ∧ '[' ∉ host ∧ ']' ∉ host
    · exact .inl (.name clear.1 clear.2 behind)
    · right
      cases behind with
      | nothing =>
        rw [List.append_nil] at nonempty ⊢
        exact .portless unopened ((uncut rfl).stray (by grind)) (uncut rfl)
      | port denotes small => exact .ported unopened (by grind) (.port denotes small)

/-! What is refused. -/

theorem port?_eq_none_iff {digits : Text} :
    port? digits = none ↔ ∀ p ≤ 65535, ¬ Text.Denotes digits p := by
  rw [Option.eq_none_iff_forall_ne_some]
  exact forall_congr' fun p =>
    ⟨fun other small denotes => other (port?_eq_some_iff.mpr ⟨denotes, small⟩),
      fun other found => (port?_eq_some_iff.mp found).elim fun denotes small => other small denotes⟩

theorem badHost_iff : Value.host value = .error (.badHost value) ↔ value = [] ∨
    ∃ name digits, value = name ++ ':' :: digits ∧ Uncut digits ∧
      ∀ p ≤ 65535, ¬ Text.Denotes digits p := by
  constructor
  · intro refused
    by_cases empty : value = []
    · exact .inl empty
    · obtain ⟨name, port, cut⟩ := exists_cut value
      rw [cut.host_eq empty] at refused
      split at refused
      · next noPort =>
        cases cut with
        | whole => cases noPort.1
        | closed => cases noPort.1
        | port name uncut =>
          exact .inr ⟨name, _, rfl, uncut, port?_eq_none_iff.mp noPort.2⟩
      · split at refused <;> cases refused
  · rintro (rfl | ⟨name, digits, rfl, uncut, noPort⟩)
    · rfl
    · rw [(Cut.port name uncut).host_eq (by simp), if_pos ⟨rfl, port?_eq_none_iff.mpr noPort⟩]

theorem unbracket?_eq_none_iff : unbracket? name = none ↔
    name.head? = some '[' ∧ ∀ address, name ≠ '[' :: (address ++ [']']) := by
  rw [Option.eq_none_iff_forall_ne_some]
  constructor
  · intro other
    refine ⟨Decidable.byContradiction fun unopened => ?_, ?_⟩
    · exact other _ (unbracket?_eq_some_iff.mpr (.plain unopened))
    · rintro address rfl
      exact other _ (unbracket?_eq_some_iff.mpr (.bracketed address))
  · rintro ⟨opened, unclosed⟩ host found
    cases unbracket?_eq_some_iff.mp found with
    | bracketed => exact unclosed _ rfl
    | plain unopened => exact unopened opened

theorem exists_numbers_iff {digits : Option Text} :
    (∃ port, Numbers digits port) ↔ ¬(digits.isSome ∧ digits.bind port? = none) := by
  constructor
  · rintro ⟨port, numbers⟩ ⟨behind, noPort⟩
    cases numbers with
    | nothing => cases behind
    | port denotes small => cases noPort.symm.trans (port?_eq_some_iff.mpr ⟨denotes, small⟩)
  · intro fine
    cases digits with
    | none => exact ⟨none, .nothing⟩
    | some digits =>
      obtain ⟨p, found⟩ := Option.ne_none_iff_exists'.mp fun noPort => fine ⟨rfl, noPort⟩
      obtain ⟨denotes, small⟩ := port?_eq_some_iff.mp found
      exact ⟨some p, .port denotes small⟩

theorem badIpv6Host_iff : Value.host value = .error (.badIpv6Host value) ↔ Unclosed value := by
  constructor
  · intro refused
    have nonempty : value ≠ [] := by
      rintro rfl
      cases refused
    obtain ⟨name, digits, cut⟩ := exists_cut value
    rw [cut.host_eq nonempty] at refused
    split at refused
    · cases refused
    · next fine =>
      obtain ⟨port, numbers⟩ := exists_numbers_iff.mpr fine
      split at refused
      · cases refused
      · next unclosed =>
        obtain ⟨rest, rfl, behind, uncut⟩ := cut.behind numbers
        obtain ⟨opened, unclosed⟩ := unbracket?_eq_none_iff.mp unclosed
        exact .intro behind uncut opened unclosed
  · rintro @⟨name, tail, port, behind, uncut, opened, unclosed⟩
    obtain ⟨digits, cut, numbers⟩ := behind.cut uncut
    have nonempty : name ≠ [] := by
      rintro rfl
      cases opened
    rw [cut.host_eq (List.append_ne_nil_of_left_ne_nil nonempty _),
      if_neg (exists_numbers_iff.mp ⟨_, numbers⟩),
      unbracket?_eq_none_iff.mpr ⟨opened, unclosed⟩]

/-- A value is accepted if it says what it means, or if it is one of the stray ones, which are the
ones whose host is not clear. Any other value is refused, for its port or for a bracket that is not
closed. -/
theorem host_plain_or_stray (value : Text) :
    (∀ host port, Value.host value = .ok (host, port) ↔
      Plain value host port ∨ Stray value host port) ∧
    (∀ host port, Value.host value = .ok (host, port) →
      (Clear value host ↔ Plain value host port) ∧
        (¬ Clear value host ↔ Stray value host port)) ∧
    (Value.host value = .error (.badHost value) ↔ value = [] ∨
      ∃ name digits, value = name ++ ':' :: digits ∧ Uncut digits ∧
        ∀ p ≤ 65535, ¬ Text.Denotes digits p) ∧
    (Value.host value = .error (.badIpv6Host value) ↔ Unclosed value) ∧
    ((∃ host port, Value.host value = .ok (host, port)) ∨
      Value.host value = .error (.badHost value) ∨
        Value.host value = .error (.badIpv6Host value)) := by
  refine ⟨fun host port => ⟨plain_or_stray, fun form => form.elim (·.accepted) (·.accepted)⟩,
    fun host port accepted => ?_, badHost_iff, badIpv6Host_iff, host_cases value⟩
  rcases plain_or_stray accepted with plain | stray
  · exact ⟨iff_of_true plain.clear plain,
      iff_of_false (not_not_intro plain.clear) fun stray => stray.not_clear plain.clear⟩
  · exact ⟨iff_of_false stray.not_clear fun plain => stray.not_clear plain.clear,
      iff_of_true stray.not_clear stray⟩

theorem host_plain_or_stray_of_address :
    Plain "[::1]:443".toList "::1".toList (some 443) ∧ Stray "::1".toList ":".toList (some 1) := by
  obtain ⟨-, literal, -⟩ := host_plain_or_stray "[::1]:443".toList
  obtain ⟨-, address, -⟩ := host_plain_or_stray "::1".toList
  exact ⟨(literal _ _ (by decide +kernel)).1.mp (by decide +kernel),
    (address _ _ (by decide +kernel)).2.mp (by decide +kernel)⟩

/-- An address without its brackets, two ports, a bracket within brackets, half a pair of them and a
port without a host are all accepted. -/
theorem host_delimiters_accepted :
    (Value.host "::1".toList = .ok (":".toList, some 1) ∧ ¬ Clear "::1".toList ":".toList) ∧
    (Value.host "a:b:80".toList = .ok ("a:b".toList, some 80) ∧
      ¬ Clear "a:b:80".toList "a:b".toList) ∧
    (Value.host "[[a]".toList = .ok ("[a".toList, none) ∧ ¬ Clear "[[a]".toList "[a".toList) ∧
    (Value.host "a]".toList = .ok ("a]".toList, none) ∧ ¬ Clear "a]".toList "a]".toList) ∧
    Value.host ":80".toList = .ok ([], some 80) ∧ ¬ Clear ":80".toList [] := by
  decide +kernel

end HttpStream.Value
