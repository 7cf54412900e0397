import HttpStream.Proofs.Glide

/-! Field lines that are known as a whole, or by their names: taken over from where they are
stored, they are what their octets come to. -/

set_option autoImplicit false

namespace HttpStream

open Octet

namespace Reader

variable {r s t : Reader} {b : UInt8} {capacity n : Nat}

theorem glides_name (capacity : Nat) {head : Head} {token : Snoc Char} {octets : Bytes}
    (at_ : r.stage = .fieldName head token) (started : token.isEmpty = false)
    (afterCr : r.afterCr = false) (members : octets.all isInName = true)
    (fits : r.fits octets.length = true) :
    Glides capacity r octets
      ((r.skip octets.length).enter (.fieldName head (token.append (Text.ofBytes octets)))) :=
  glides_collect (fun _ => rfl) (fun b member => by simp_all [isInName])
    (fun s token b at_ _ member => by
      obtain ⟨plain, notColon⟩ : isLineEnd b = false ∧ b ≠ colon := by simpa [isInName] using member
      simp [interpret, at_, pushFieldName, plain, notColon])
    at_ started afterCr members fits

theorem glides_value (capacity : Nat) {head : Head} {standard : Option StandardName} {name : Text}
    {text : Text} (at_ : r.stage = .fieldValue head standard name .empty false false)
    (afterCr : r.afterCr = false) (value : Text.IsValue text) (fits : r.fits text.length = true) :
    Glides capacity r (Text.toBytes text)
      ((r.skip text.length).enter
        (.fieldValue head standard name (.ofList text) false false)) := by
  obtain ⟨bytes, rfl, plain⟩ := value.line
  rw [Text.toBytes_ofBytes]
  cases bytes with
  | nil =>
    have same : (r.skip 0).enter (.fieldValue head standard name (.ofList []) false false) = r := by
      obtain ⟨⟩ := r
      cases at_
      rfl
    rw [show (Text.ofBytes []).length = 0 from rfl, show Text.ofBytes [] = [] from rfl, same]
    exact .nil r
  | cons b rest =>
    -- A value does not begin with a blank, so that its first octet opens the text.
    have solid : isBlank b = false := by
      rw [← isBlank_toChar]
      exact value.opened _ rfl
    have ends : isLineEnd b = false := plain b List.mem_cons_self
    have members : (b :: rest).all (fun b => !isLineEnd b) = true := by simpa using plain
    have line := glides_open (r := r) capacity
      (fun token => .fieldValue head standard name token false false) (fun _ => rfl)
      (fun b member => by simpa using member)
      (fun s token b at_ started member => by
        simp only [Bool.not_eq_true'] at member
        simp [interpret, at_, pushFieldValue, member, started])
      (by rw [at_]; rfl)
      (fun s same _ => by
        simp [interpret, same, at_, pushFieldValue, ends, solid])
      members (by simpa [Text.ofBytes] using fits)
    simpa [Text.ofBytes, skip, enter, afterCr] using line

theorem closed_of_isNameOctet {bytes : Bytes} (members : bytes.all isNameOctet = true) :
    Text.IsClosed (Text.ofBytes bytes) := by
  intro c last
  obtain ⟨b, member, rfl⟩ := List.mem_map.mp (List.mem_of_getLast? last)
  rw [isBlank_toChar]
  exact (plain_of_isNameOctet b (List.all_eq_true.mp members b member)).2.2

theorem glides_colon (capacity : Nat) {head : Head} {name : Text} {standard : Option StandardName}
    {token : Snoc Char} (at_ : r.stage = .fieldName head token)
    (trimmed : token.trimmed Text.isBlank = name)
    (known : StandardName.ofText? name = standard) (afterCr : r.afterCr = false)
    (fits : r.fits 2 = true) :
    Glides capacity r [colon, sp]
      ((r.skip 2).enter (.fieldValue head standard name .empty false false)) := by
  obtain ⟨first, second⟩ := fits_add.mp (show r.fits (1 + 1) = true from fits)
  let stage : Stage := .fieldValue head standard name .empty false false
  have opened : Glides capacity r [colon] ((r.skip 1).enter stage) := by
    refine .single (by rw [at_]; rfl) rfl rfl first ?_
    simp [interpret, count, at_, pushFieldName, trimmed, known, isLineEnd, colon, cr, lf, skip,
      enter, stage, afterCr]
  have spaced : Glides capacity ((r.skip 1).enter stage) [sp] ((r.skip 2).enter stage) := by
    refine .single rfl rfl rfl second ?_
    simp [interpret, count, pushFieldValue, isLineEnd, isBlank, sp, cr, lf, skip, enter, stage,
      Snoc.empty, Snoc.isEmpty, afterCr]
  exact opened.trans spaced

theorem glides_field (capacity : Nat) {head : Head} {name value : Text} {octets : Bytes}
    (spelled : name = Text.ofBytes (b :: octets)) (members : octets.all isInName = true)
    (closed : Text.IsClosed name) (isValue : Text.IsValue value)
    (at_ : r.stage = .fieldName head (Snoc.empty.push (toChar b))) (afterCr : r.afterCr = false)
    (fits : r.fits (octets ++ ([colon, sp] ++ Text.toBytes value)).length = true) :
    Glides capacity r (octets ++ ([colon, sp] ++ Text.toBytes value))
      ((r.skip (octets ++ ([colon, sp] ++ Text.toBytes value)).length).enter
        (.fieldValue head (StandardName.ofText? name) name (.ofList value) false false)) := by
  have size : (Text.toBytes value).length = value.length := by
    obtain ⟨bytes, rfl, _⟩ := isValue.line
    rw [Text.toBytes_ofBytes]
    simp [Text.ofBytes]
  simp only [List.length_append, size] at fits ⊢
  obtain ⟨inName, fits⟩ := fits_add.mp fits
  obtain ⟨inColon, inValue⟩ := fits_add.mp fits
  -- The name, what separates it from the value, and the value follow one another.
  have first := glides_name capacity at_ rfl afterCr members inName
  rw [collected, ← spelled] at first
  let named : Reader := (r.skip octets.length).enter (.fieldName head (.ofList name))
  have second := glides_colon (r := named) capacity rfl (Snoc.trimmed_ofList closed) rfl afterCr
    inColon
  let opened : Reader :=
    (named.skip 2).enter (.fieldValue head (StandardName.ofText? name) name .empty false false)
  have third := glides_value (r := opened) capacity rfl afterCr isValue inValue
  have whole := first.trans (second.trans third)
  simpa [named, opened, skip, enter, Nat.add_assoc] using whole

theorem glides_line (capacity : Nat) {head : Head} {line : FieldLine} {rest : Bytes}
    (sound : line.Sound) (wire : line.wire = b :: rest)
    (at_ : r.stage = .fieldName head (Snoc.empty.push (toChar b))) (afterCr : r.afterCr = false)
    (fits : r.fits rest.length = true) :
    Glides capacity r rest
      ((r.skip rest.length).enter
        (.fieldValue head (some line.standard) line.name (.ofList line.value) false false)) := by
  obtain ⟨c, octets, name, members⟩ := StandardName.plain_of_ofText? sound.standard
  have spelled : c :: (octets ++ ([colon, sp] ++ Text.toBytes line.value)) = b :: rest := by
    simpa [FieldLine.wire, name] using wire
  obtain ⟨rfl, rfl⟩ := List.cons.inj spelled
  rw [← sound.standard]
  exact glides_field capacity name (all_isInName (by simp_all))
    (name ▸ closed_of_isNameOctet members) sound.value at_ afterCr fits

/-- The second reader knows of the line under way at most that it was recognized. -/
def Noted (s t : Reader) : Prop := ∃ stage, t = s.enter stage ∧ stage.plain = s.stage.plain

theorem Noted.refl (r : Reader) : r.Noted r := ⟨r.stage, rfl, rfl⟩

theorem Noted.stage (h : r.Noted s) : s.stage.plain = r.stage.plain := by
  obtain ⟨stage, rfl, plain⟩ := h
  exact plain

theorem lineAhead?_glides (capacity : Nat) {head : Head} {tail : Bytes} (sound : r.Sound)
    (at_ : r.stage = .fieldName head (Snoc.empty.push (toChar b))) (afterCr : r.afterCr = false)
    (h : r.lineAhead? head (b :: tail) = some (t, n)) :
    n ≤ tail.length ∧ t.Sound ∧ ∃ s, Glides capacity r (tail.take n) s ∧ s.Noted t := by
  unfold lineAhead? at h
  split at h
  · next length line found =>
    split at h
    · next fits =>
      cases h
      -- Remembered or not, the line stands there octet for octet.
      obtain ⟨positive, short, spelled, known⟩ :
          0 < length ∧ length ≤ (b :: tail).length ∧ (b :: tail).take length = line.wire ∧
            line.Sound := by
        rcases Option.or_eq_some_iff.mp found with remembered | ⟨_, listed⟩
        · exact sound.cache.spelled_of_best? remembered
        · exact FieldLine.spelled_of_atFront? listed
      obtain ⟨n, rfl⟩ : ∃ n, length = n + 1 := ⟨length - 1, by omega⟩
      rw [List.take_succ_cons] at spelled
      simp only [Nat.add_sub_cancel, List.length_cons] at fits short ⊢
      have within : n ≤ tail.length := by omega
      have size : (tail.take n).length = n := by simp [within]
      have side : head.side = r.mode := sound.side _ (by rw [at_]; rfl)
      refine ⟨within,
        ⟨⟨known.standard.symm, .ofList known.value⟩, ?_, sound.cache, sound.measured⟩, _,
        glides_line capacity known spelled.symm at_ afterCr (by rwa [size]), ?_⟩
      · rintro _ ⟨⟩
        exact side
      · rw [size]
        exact ⟨_, rfl, rfl⟩
    · cases h
  · cases h

theorem nameAhead?_glides (capacity : Nat) {head : Head} {tail : Bytes} (sound : r.Sound)
    (at_ : r.stage = .fieldName head (Snoc.empty.push (toChar b))) (afterCr : r.afterCr = false)
    (h : r.nameAhead? head (b :: tail) = some (t, n)) :
    n ≤ tail.length ∧ t.Sound ∧ Glides capacity r (tail.take n) t := by
  unfold nameAhead? at h
  split at h
  · next length name found =>
    split at h
    · next fits =>
      cases h
      obtain ⟨positive, short, members, spelled⟩ := StandardName.spelled_of_atFront? found
      obtain ⟨n, rfl⟩ : ∃ n, length = n + 1 := ⟨length - 1, by omega⟩
      rw [List.take_succ_cons] at members spelled
      simp only [Nat.add_sub_cancel, List.length_cons] at fits short ⊢
      have within : n ≤ tail.length := by omega
      have size : (tail.take n).length = n := by simp [within]
      have side : head.side = r.mode := sound.side _ (by rw [at_]; rfl)
      have glides := glides_name capacity at_ rfl afterCr
        (all_isInName (by simp_all : (tail.take n).all isNameOctet = true)) (by rwa [size])
      rw [collected, ← spelled, size] at glides
      refine ⟨within, ⟨trivial, ?_, sound.cache, sound.measured⟩, glides⟩
      rintro _ ⟨⟩
      exact side
    · cases h
  · cases h

/-- Whatever is known of a field line, its octets lead to the same place. -/
theorem fieldAhead_glides (capacity : Nat) {head : Head} {tail : Bytes} (sound : r.Sound)
    (at_ : r.stage = .fieldName head (Snoc.empty.push (toChar b))) (afterCr : r.afterCr = false)
    (h : r.fieldAhead head (b :: tail) = (t, n)) :
    n ≤ tail.length ∧ t.Sound ∧ ∃ s, Glides capacity r (tail.take n) s ∧ s.Noted t := by
  unfold fieldAhead at h
  split at h
  · cases h
    exact ⟨Nat.zero_le _, sound, r, .nil r, .refl r⟩
  · -- A whole line is looked for first, and a name only where none is found.
    cases line : r.lineAhead? head (b :: tail) with
    | some ahead =>
      obtain ⟨t', n'⟩ := ahead
      rw [line] at h
      cases h
      exact lineAhead?_glides capacity sound at_ afterCr line
    | none =>
      cases name : r.nameAhead? head (b :: tail) with
      | some ahead =>
        obtain ⟨t', n'⟩ := ahead
        rw [line, name] at h
        cases h
        obtain ⟨within, sound, glides⟩ := nameAhead?_glides capacity sound at_ afterCr name
        exact ⟨within, sound, _, glides, .refl _⟩
      | none =>
        rw [line, name] at h
        cases h
        exact ⟨Nat.zero_le _, sound, r, .nil r, .refl r⟩

end Reader
end HttpStream
