import HttpStream.Proofs.Folding

/-! Text without what is dropped from its ends: the blanks that the grammar allows there, or all
white space. -/

set_option autoImplicit false

namespace HttpStream.Text

def isBare (drop : Char → Bool) (text : Text) : Bool :=
  !text.head?.any drop && !text.getLast?.any drop

def trimBoth (drop : Char → Bool) (text : Text) : Text := trimRight drop (text.dropWhile drop)

variable {drop : Char → Bool} {text front inner back : Text}

theorem strip_eq (text : Text) : strip text = trimBoth isBlank text := rfl

theorem trim_eq (text : Text) : trim text = trimBoth isSpace text := rfl

theorem isBare_iff : isBare drop text = true ↔
    text.head?.any drop = false ∧ text.getLast?.any drop = false := by
  simp [isBare]

theorem isBare_of_none (none : text.any drop = false) : isBare drop text = true := by
  have outside : ∀ c ∈ text, drop c = false := by simpa using none
  refine isBare_iff.mpr ⟨?_, ?_⟩
  · cases first : text.head? with
    | none => rfl
    | some c => exact outside c (List.mem_of_mem_head? first)
  · cases last : text.getLast? with
    | none => rfl
    | some c => exact outside c (List.mem_of_mem_getLast? last)

theorem dropWhile_exact (dropped : front.all drop = true) (stops : text.head?.any drop = false) :
    (front ++ text).dropWhile drop = text := by
  rw [List.dropWhile_append_of_pos (by simpa using dropped)]
  cases text with
  | nil => rfl
  | cons c rest => simp_all

theorem trimRight_exact (stops : text.getLast?.any drop = false) (dropped : back.all drop = true) :
    trimRight drop (text ++ back) = text := by
  rw [trimRight, List.reverse_append, dropWhile_exact (by simpa using dropped)
    (by rwa [List.head?_reverse]), List.reverse_reverse]

/-- The bare text between what is dropped is all that is left. -/
theorem trimBoth_exact (before : front.all drop = true) (bare : isBare drop inner = true)
    (after : back.all drop = true) : trimBoth drop (front ++ inner ++ back) = inner := by
  obtain ⟨first, last⟩ := isBare_iff.mp bare
  rw [trimBoth, List.append_assoc]
  cases inner with
  | nil =>
    have all : (front ++ back).all drop = true := by rw [List.all_append, before, after]; rfl
    rw [List.nil_append, ← List.append_nil (front ++ back), dropWhile_exact all rfl]
    rfl
  | cons c rest =>
    rw [dropWhile_exact before (by simpa using first)]
    exact trimRight_exact last after

theorem trimRight_split (drop : Char → Bool) (text : Text) : ∃ back,
    text = trimRight drop text ++ back ∧ back.all drop = true := by
  refine ⟨(text.reverse.takeWhile drop).reverse, ?_, ?_⟩
  · rw [trimRight, ← List.reverse_append, List.takeWhile_append_dropWhile, List.reverse_reverse]
  · rw [List.all_reverse]
    exact List.all_takeWhile

theorem trimBoth_split (drop : Char → Bool) (text : Text) : ∃ front back,
    text = front ++ trimBoth drop text ++ back ∧ front.all drop = true ∧ back.all drop = true ∧
      isBare drop (trimBoth drop text) = true := by
  have stops (text : Text) : (text.dropWhile drop).head?.any drop = false := by
    have first := List.head?_dropWhile_not drop text
    cases opened : (text.dropWhile drop).head? <;> simp_all
  obtain ⟨back, parts, after⟩ := trimRight_split drop (text.dropWhile drop)
  have last : (trimBoth drop text).getLast?.any drop = false := by
    rw [trimBoth, trimRight, List.getLast?_reverse]
    exact stops _
  have first : (trimBoth drop text).head?.any drop = false := by
    have opened := stops text
    rw [parts, ← trimBoth] at opened
    cases inner : trimBoth drop text with
    | nil => rfl
    | cons => rwa [inner] at opened
  refine ⟨text.takeWhile drop, back, ?_, List.all_takeWhile, after, isBare_iff.mpr ⟨first, last⟩⟩
  rw [List.append_assoc, trimBoth, ← parts]
  exact List.takeWhile_append_dropWhile.symm

theorem trimBoth_append (before : front.all drop = true) (after : back.all drop = true) :
    trimBoth drop (front ++ text ++ back) = trimBoth drop text := by
  obtain ⟨lead, trail, split, leads, trails, bare⟩ := trimBoth_split drop text
  have whole : front ++ text ++ back =
      (front ++ lead) ++ trimBoth drop text ++ (trail ++ back) := by
    conv => lhs; rw [split]
    simp
  rw [whole, trimBoth_exact (by simp [before, leads]) bare (by simp [after, trails])]

theorem all_isSpace (blanks : text.all isBlank = true) : text.all isSpace = true := by
  refine List.all_eq_true.mpr fun c member => ?_
  have blank := List.all_eq_true.mp blanks c member
  simp only [isBlank, Bool.or_eq_true, beq_iff_eq] at blank
  rcases blank with rfl | rfl <;> rfl

theorem trim_strip (text : Text) : trim (strip text) = trim text := by
  obtain ⟨front, back, split, before, after, _⟩ := trimBoth_split isBlank text
  conv => rhs; rw [trim_eq, split, trimBoth_append (all_isSpace before) (all_isSpace after)]
  rfl

theorem trim_trimRight (text : Text) : trim (trimRight isBlank text) = trim text := by
  obtain ⟨back, split, after⟩ := trimRight_split isBlank text
  have none : ([] : Text).all isSpace = true := rfl
  conv => rhs; rw [trim_eq, split]
  exact (trimBoth_append none (all_isSpace after)).symm

theorem trimBoth_eq_self_iff : trimBoth drop text = text ↔ isBare drop text = true := by
  obtain ⟨_, _, _, _, _, bare⟩ := trimBoth_split drop text
  constructor
  · intro same
    rwa [same] at bare
  · intro bare
    have none : ([] : Text).all drop = true := rfl
    simpa using trimBoth_exact none bare none

end HttpStream.Text
