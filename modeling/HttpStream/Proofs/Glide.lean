import HttpStream.Proofs.Run
import HttpStream.Reader.Ahead

/-! Octets that pass without an event: what is taken over as a whole inside the start line or the
field section is what its octets come to one by one. -/

set_option autoImplicit false

namespace HttpStream

open Octet

namespace Reader

/-- The octets lead from one reader to the other within a line, and nothing is told of them. -/
inductive Glides (capacity : Nat) : Reader → Bytes → Reader → Prop where
  | nil (r : Reader) : Glides capacity r [] r
  | cons {r s t : Reader} {b : UInt8} {rest : Bytes} (plain : isLineEnd b = false)
      (before : r.stage.inHead = true) (after : s.stage.inHead = true)
      (quiet : r.push capacity b = .quiet s) (more : Glides capacity s rest t) :
      Glides capacity r (b :: rest) t

variable {r s t : Reader} {b : UInt8} {capacity m n : Nat}

theorem Glides.trans {first second : Bytes} (left : Glides capacity r first s)
    (right : Glides capacity s second t) : Glides capacity r (first ++ second) t := by
  induction left with
  | nil => exact right
  | cons plain before after quiet _ ih => exact .cons plain before after quiet (ih right)

theorem advance_of_quiet (renew : Bool) (before : r.stage.inHead = true)
    (after : s.stage.inHead = true) (quiet : r.push capacity b = .quiet s) :
    r.advance renew capacity b = .quiet s := by
  have awake : r.wake renew = r := by
    unfold wake
    rw [if_neg]
    cases stage : r.stage <;> simp [stage, Stage.inHead] at before ⊢
  have open_ : r.stage.isComplete = false := Stage.isComplete_of_inHead before
  have settled : s.stage ≠ .content 0 := by
    intro stage
    simp [stage, Stage.inHead] at after
  simp [advance, awake, open_, quiet, Step.shut, Step.quiet, Step.andThen, settle_of_ne settled]

theorem Glides.run {bytes : Bytes} (h : Glides capacity r bytes s) (renew : Bool) :
    r.run renew capacity bytes = .quiet s := by
  induction h with
  | nil => rfl
  | cons _ before after quiet _ ih =>
    rw [Reader.run, advance_of_quiet renew before after quiet, Step.quiet_andThen, ih]

theorem Glides.sound {bytes : Bytes} (h : Glides capacity r bytes s) (sound : r.Sound) :
    s.Sound := by
  induction h with
  | nil => exact sound
  | @cons _ _ _ b _ _ _ _ quiet _ ih =>
    have next := sound.push capacity b
    rw [quiet] at next
    exact ih next

theorem Glides.keeps {P : Reader → Prop} {bytes : Bytes} (h : Glides capacity r bytes s)
    (sound : r.Sound) (start : P r)
    (kept : ∀ (t : Reader) (b : UInt8), t.Sound → t.stage.inHead = true →
      (t.push capacity b).fault = none → P t → P (t.push capacity b).reader) : P s := by
  induction h with
  | nil => exact start
  | @cons r _ _ b _ _ before _ quiet _ ih =>
    have next := sound.push capacity b
    have later := kept r b sound before (by rw [quiet]; rfl) start
    rw [quiet] at next later
    exact ih next later

theorem Glides.inHead {bytes : Bytes} (h : Glides capacity r bytes s)
    (before : r.stage.inHead = true) : s.stage.inHead = true := by
  induction h with
  | nil => exact before
  | cons _ _ after _ _ ih => exact ih after

/-! Counting. -/

theorem fits_add : r.fits (m + n) = true ↔ r.fits m = true ∧ (r.skip m).fits n = true := by
  have limit : (r.skip m).settings.limit? = r.settings.limit? := rfl
  simp only [fits, limit]
  cases r.settings.limit? with
  | none => simp
  | some limit =>
    have passed : (r.skip m).headerBytes = r.headerBytes + m := rfl
    simp only [decide_eq_true_eq, passed]
    omega

theorem fits_of_unlimited (unlimited : r.settings.limit? = none) (n : Nat) : r.fits n = true := by
  simp [fits, unlimited]

theorem limitFault?_of_fits (h : r.fits 1 = true) : r.count.limitFault? = none := by
  have limit : r.count.settings.limit? = r.settings.limit? := rfl
  simp only [fits] at h
  simp only [limitFault?, limit]
  cases found : r.settings.limit? with
  | none => rfl
  | some limit =>
    have within : r.count.headerBytes ≤ limit := by simpa [found, count] using h
    simp [within]

theorem push_of_limit {fault : Fault} (counted : r.stage.isCounted = true)
    (wrong : r.count.limitFault? = some fault) : r.push capacity b = .fail r.count fault := by
  simp only [push, counted, if_true, wrong]

theorem push_within (counted : r.stage.isCounted = true) (fine : r.count.limitFault? = none) :
    r.push capacity b = r.count.accept capacity b := by
  simp only [push, counted, if_true, fine]

/-- Where the limit allows an octet that ends no line before it, it means what its stage makes of
it. -/
theorem push_of_fits (inHead : r.stage.inHead = true) (fits : r.fits 1 = true)
    (fresh : r.isLineRest b = false) :
    r.push capacity b = { r.count with afterCr := false }.interpret capacity b := by
  have counted : r.stage.isCounted = true := Stage.isCounted_of_inHead inHead
  have fresh : r.count.isLineRest b = false := fresh
  simp [push, counted, limitFault?_of_fits fits, accept, fresh]

theorem isLineRest_of_plain (plain : isLineEnd b = false) : r.isLineRest b = false := by
  simp [isLineRest, plain]

theorem Glides.single (before : r.stage.inHead = true) (after : s.stage.inHead = true)
    (plain : isLineEnd b = false) (fits : r.fits 1 = true)
    (meaning : { r.count with afterCr := false }.interpret capacity b = .quiet s) :
    Glides capacity r [b] s :=
  .cons plain before after
    ((push_of_fits before fits (isLineRest_of_plain plain)).trans meaning) (.nil s)

/-! Tokens. -/

theorem collected (b : UInt8) (rest : Bytes) :
    (Snoc.empty.push (toChar b)).append (Text.ofBytes rest) =
      .ofList (Text.ofBytes (b :: rest)) := by
  simp [Snoc.append, Snoc.push, Snoc.ofList, Snoc.empty, Text.ofBytes]

theorem glides_collect {stage : Snoc Char → Stage} {member : UInt8 → Bool}
    (inHead : ∀ token, (stage token).inHead = true)
    (plain : ∀ b, member b = true → isLineEnd b = false)
    (collects : ∀ (r : Reader) (token : Snoc Char) (b : UInt8), r.stage = stage token →
      token.isEmpty = false → member b = true →
      r.interpret capacity b = .quiet (r.enter (stage (token.push (toChar b)))))
    {octets : Bytes} {r : Reader} {token : Snoc Char} (at_ : r.stage = stage token)
    (started : token.isEmpty = false) (afterCr : r.afterCr = false)
    (members : octets.all member = true) (fits : r.fits octets.length = true) :
    Glides capacity r octets
      ((r.skip octets.length).enter (stage (token.append (Text.ofBytes octets)))) := by
  -- On the octets; each leads to the same stage with a longer token and one octet less allowed.
  induction octets generalizing r token with
  | nil =>
    have same : (r.skip 0).enter (stage (token.append (Text.ofBytes []))) = r := by
      obtain ⟨⟩ := r
      cases at_
      rfl
    rw [List.length_nil, same]
    exact .nil r
  | cons b rest ih =>
    rw [List.all_cons, Bool.and_eq_true] at members
    rw [List.length_cons, Nat.add_comm, fits_add] at fits
    have inside : r.stage.inHead = true := at_ ▸ inHead token
    have pushed : r.push capacity b =
        .quiet ((r.skip 1).enter (stage (token.push (toChar b)))) := by
      rw [push_of_fits inside fits.1 (isLineRest_of_plain (plain b members.1)),
        collects { r.count with afterCr := false } token b at_ started members.1]
      obtain ⟨⟩ := r
      cases afterCr
      rfl
    refine .cons (plain b members.1) inside (inHead _) pushed ?_
    have onward := ih (r := (r.skip 1).enter (stage (token.push (toChar b)))) rfl rfl afterCr
      members.2 fits.2
    have same : token.append (Text.ofBytes (b :: rest)) =
        (token.push (toChar b)).append (Text.ofBytes rest) := by
      simp [Snoc.append, Snoc.push, Text.ofBytes]
    rw [same, List.length_cons]
    simpa only [skip, enter, Nat.add_assoc, Nat.add_comm 1] using onward

theorem glides_open (capacity : Nat) (stage : Snoc Char → Stage) {member : UInt8 → Bool}
    (inHead : ∀ token, (stage token).inHead = true)
    (plain : ∀ b, member b = true → isLineEnd b = false)
    (collects : ∀ (r : Reader) (token : Snoc Char) (b : UInt8), r.stage = stage token →
      token.isEmpty = false → member b = true →
      r.interpret capacity b = .quiet (r.enter (stage (token.push (toChar b)))))
    {rest : Bytes} (before : r.stage.inHead = true)
    (opens : ∀ s : Reader, s.stage = r.stage → s.mode = r.mode →
      s.interpret capacity b = .quiet (s.enter (stage (Snoc.empty.push (toChar b)))))
    (members : (b :: rest).all member = true) (fits : r.fits (rest.length + 1) = true) :
    Glides capacity r (b :: rest)
      { (r.skip (rest.length + 1)).enter (stage (.ofList (Text.ofBytes (b :: rest)))) with
        afterCr := false } := by
  rw [List.all_cons, Bool.and_eq_true] at members
  rw [Nat.add_comm, fits_add] at fits
  let first : Reader :=
    { (r.skip 1).enter (stage (Snoc.empty.push (toChar b))) with afterCr := false }
  have opened : r.push capacity b = .quiet first := by
    rw [push_of_fits before fits.1 (isLineRest_of_plain (plain b members.1)),
      opens { r.count with afterCr := false } rfl rfl]
    rfl
  refine .cons (plain b members.1) before (inHead _) opened ?_
  have onward := glides_collect (r := first) inHead plain collects rfl rfl rfl members.2 fits.2
  rw [collected] at onward
  simpa only [first, skip, enter, Nat.add_assoc, Nat.add_comm 1] using onward

/-! The start line. -/

theorem interpret_method_sp {token : Snoc Char} {method : Method}
    (at_ : r.stage = .method token) (known : Method.ofText? token.toList = some method) :
    r.interpret capacity sp = .quiet (r.enter (.beforeUri method)) := by
  simp [interpret, at_, pushMethod, known]

theorem interpret_responseVersion_sp {token : Snoc Char} {version : Version}
    (at_ : r.stage = .responseVersion token)
    (known : Version.ofText? token.toList = some version) :
    r.interpret capacity sp = .quiet (r.enter (.beforeStatus version)) := by
  simp [interpret, at_, pushResponseVersion, known]

theorem glides_opening (capacity : Nat) (stage : Snoc Char → Stage) {next : Stage} {rest : Bytes}
    (inHead : ∀ token, (stage token).inHead = true) (after : next.inHead = true)
    (start : r.stage = .start)
    (opens : ∀ s : Reader, s.stage = .start → s.mode = r.mode → isVisible b = true →
      s.interpret capacity b = .quiet (s.enter (stage (Snoc.empty.push (toChar b)))))
    (collects : ∀ (s : Reader) (token : Snoc Char) (b : UInt8), s.stage = stage token →
      isVisible b = true →
        s.interpret capacity b = .quiet (s.enter (stage (token.push (toChar b)))))
    (ends : ∀ s : Reader, s.stage = stage (.ofList (Text.ofBytes (b :: rest))) →
      s.interpret capacity sp = .quiet (s.enter next))
    (visible : (b :: rest).all isVisible = true) (fits : r.fits (rest.length + 2) = true) :
    Glides capacity r (b :: rest ++ [sp])
      { (r.skip (rest.length + 2)).enter next with afterCr := false } := by
  have first : isVisible b = true := by simp_all
  obtain ⟨fits, last⟩ := fits_add.mp (show r.fits (rest.length + 1 + 1) = true from fits)
  have token := glides_open (r := r) capacity stage inHead isLineEnd_of_isVisible
    (fun s token b at_ _ visible => collects s token b at_ visible)
    (by rw [start]; rfl) (fun s at_ side => opens s (at_.trans start) side first) visible fits
  exact token.trans (.single (inHead _) after rfl last (ends _ rfl))

theorem glides_method {method : Method} {rest : Bytes} (start : r.stage = .start)
    (mode : r.mode = .request) (visible : (b :: rest).all isVisible = true)
    (name : method.name = Text.ofBytes (b :: rest)) (fits : r.fits (rest.length + 2) = true) :
    Glides capacity r (b :: rest ++ [sp])
      { (r.skip (rest.length + 2)).enter (.beforeUri method) with afterCr := false } := by
  have known : Method.ofText? (Snoc.ofList (Text.ofBytes (b :: rest))).toList = some method := by
    rw [Snoc.toList_ofList, ← name, Method.ofText?_name]
  exact glides_opening capacity .method (fun _ => rfl) rfl start
    (fun s at_ side visible => by simp [interpret, at_, pushStart, visible, side, mode])
    (fun s token b at_ visible => by
      obtain ⟨notSp, notControl⟩ := plain_of_isVisible b visible
      simp [interpret, at_, pushMethod, notSp, notControl])
    (fun s at_ => interpret_method_sp at_ known) visible fits

theorem glides_version {version : Version} {rest : Bytes} (start : r.stage = .start)
    (mode : r.mode = .response) (visible : (b :: rest).all isVisible = true)
    (text : Version.ofText? (Text.ofBytes (b :: rest)) = some version)
    (fits : r.fits (rest.length + 2) = true) :
    Glides capacity r (b :: rest ++ [sp])
      { (r.skip (rest.length + 2)).enter (.beforeStatus version) with afterCr := false } := by
  have known : Version.ofText? (Snoc.ofList (Text.ofBytes (b :: rest))).toList = some version := by
    rw [Snoc.toList_ofList, text]
  exact glides_opening capacity .responseVersion (fun _ => rfl) rfl start
    (fun s at_ side visible => by simp [interpret, at_, pushStart, visible, side, mode])
    (fun s token b at_ visible => by
      obtain ⟨notSp, notControl⟩ := plain_of_isVisible b visible
      simp [interpret, at_, pushResponseVersion, notSp, notControl])
    (fun s at_ => interpret_responseVersion_sp at_ known) visible fits

theorem startAhead?_glides (capacity : Nat) {window : Bytes}
    (h : r.startAhead? window = some (s, n)) :
    0 < n ∧ n ≤ window.length ∧ Glides capacity r (window.take n) s := by
  unfold startAhead? at h
  split at h
  · next start mode =>
    split at h
    · next length method found =>
      split at h
      · next fits =>
        cases h
        obtain ⟨b, rest, spelled, rfl, visible, name⟩ := Method.spelled_of_atFront? found
        have size := congrArg List.length spelled
        rw [List.length_take] at size
        rw [spelled]
        refine ⟨Nat.succ_pos _, by simp at size; omega, ?_⟩
        exact glides_method start mode visible name fits
      · cases h
    · cases h
  · next start mode =>
    split at h
    · next length version found =>
      split at h
      · next fits =>
        cases h
        obtain ⟨space, fits⟩ := fits
        obtain ⟨positive, short, visible, text⟩ := Version.spelled_of_atFront? found
        -- The space behind a known version is taken with it.
        have whole : window.take (length + 1) = window.take length ++ [sp] := by
          rw [List.take_add_one, space]
          rfl
        have within : length < window.length := (List.getElem?_eq_some_iff.mp space).1
        refine ⟨Nat.succ_pos _, within, ?_⟩
        rw [whole]
        cases spelled : window.take length with
        | nil =>
          have size := congrArg List.length spelled
          simp only [List.length_take, List.length_nil] at size
          omega
        | cons b rest =>
          have size : length = rest.length + 1 := by
            simpa [Nat.min_eq_left short] using congrArg List.length spelled
          subst size
          rw [spelled] at visible text
          exact glides_version start mode visible text fits
      · cases h
    · cases h
  · cases h

theorem startAhead?_inHead {window : Bytes} (h : r.startAhead? window = some (s, n)) :
    r.stage.inHead = true := by
  unfold startAhead? at h
  split at h
  · next start _ => rw [start]; rfl
  · next start _ => rw [start]; rfl
  · cases h

theorem interpret_uri {method : Method} (at_ : r.stage = .uri method)
    (visible : isVisible b = true) :
    r.interpret capacity b = .quiet { r with target := r.target.push b } := by
  obtain ⟨notSp, notControl⟩ := plain_of_isVisible b visible
  simp [interpret, at_, pushUri, notSp, notControl]

theorem glides_target {method : Method} {octets : Bytes} (at_ : r.stage = .uri method)
    (afterCr : r.afterCr = false) (visible : octets.all isVisible = true)
    (fits : octets ≠ [] → r.fits octets.length = true) :
    Glides capacity r octets
      { r.skip octets.length with target := r.target.append octets } := by
  induction octets generalizing r with
  | nil => exact .nil r
  | cons b rest ih =>
    rw [List.all_cons, Bool.and_eq_true] at visible
    have fits := fits (List.cons_ne_nil b rest)
    rw [List.length_cons, Nat.add_comm, fits_add] at fits
    have inside : r.stage.inHead = true := by rw [at_]; rfl
    let next : Reader := { r.skip 1 with target := r.target.push b }
    have pushed : r.push capacity b = .quiet next := by
      rw [push_of_fits inside fits.1 (isLineRest_of_plain (isLineEnd_of_isVisible b visible.1)),
        interpret_uri (r := { r.count with afterCr := false }) at_ visible.1]
      simp [next, skip, count, afterCr]
    have onward := ih (r := next) at_ afterCr visible.2 fun _ => fits.2
    have whole : { next.skip rest.length with target := next.target.append rest } =
        { r.skip (rest.length + 1) with target := r.target.append (b :: rest) } := by
      simp [next, skip, Snoc.append, Snoc.push, Nat.add_assoc, Nat.add_comm 1]
    rw [whole] at onward
    exact .cons (s := next) (isLineEnd_of_isVisible b visible.1) inside inside pushed onward

theorem fits_of_affordable {octets window : Bytes}
    (within : octets.length ≤ (r.affordable window).length) (nonempty : octets ≠ []) :
    r.fits octets.length = true := by
  have positive := List.length_pos_iff.mpr nonempty
  unfold affordable at within
  unfold fits
  cases limit : r.settings.limit? with
  | none => rfl
  | some limit =>
    simp only [limit, List.length_take] at within
    simp only [decide_eq_true_eq]
    omega

theorem scanTarget_glides {method : Method} (capacity : Nat) (window : Bytes)
    (at_ : r.stage = .uri method) (afterCr : r.afterCr = false) :
    (r.scanTarget window).2 ≤ window.length ∧
      Glides capacity r (window.take (r.scanTarget window).2) (r.scanTarget window).1 := by
  have cut : (r.affordable window).takeWhile isVisible <+: window := by
    refine (List.takeWhile_prefix _).trans ?_
    unfold affordable
    split
    · exact List.take_prefix _ _
    · exact List.prefix_rfl
  refine ⟨cut.length_le, ?_⟩
  simp only [scanTarget]
  rw [← List.prefix_iff_eq_take.mp cut]
  apply glides_target at_ afterCr List.all_takeWhile
  intro nonempty
  exact fits_of_affordable (List.takeWhile_prefix _).length_le nonempty

/-! The version of a request line. -/

theorem glides_requestVersion (capacity : Nat) {method : Method} {token : Snoc Char}
    {octets : Bytes} (at_ : r.stage = .requestVersion method token)
    (started : token.isEmpty = false) (afterCr : r.afterCr = false)
    (visible : octets.all isVisible = true) (fits : r.fits octets.length = true) :
    Glides capacity r octets
      ((r.skip octets.length).enter
        (.requestVersion method (token.append (Text.ofBytes octets)))) :=
  glides_collect (fun _ => rfl) isLineEnd_of_isVisible
    (fun s token b at_ _ visible => by
      simp [interpret, at_, pushRequestVersion, isLineEnd_of_isVisible b visible])
    at_ started afterCr visible fits

theorem push_requestVersion {method : Method} {token : Snoc Char} {version : Version}
    (at_ : r.stage = .requestVersion method token)
    (known : Version.ofText? token.toList = some version) (afterCr : r.afterCr = false)
    (fits : r.fits 1 = true) (ended : isLineEnd b = true) :
    r.push capacity b = (r.skip 1).requestLine capacity method version b := by
  rw [push_of_fits (by rw [at_]; rfl) fits (by simp [isLineRest, afterCr])]
  simp only [interpret, count, at_, pushRequestVersion, ended, if_true, known]
  rfl

theorem versionAhead?_glides {method : Method} {window : Bytes} {turn : Turn}
    (at_ : r.stage = .requestVersion method (Snoc.empty.push (toChar b)))
    (afterCr : r.afterCr = false) (h : r.versionAhead? capacity method b window = some turn) :
    ∃ n t ending, Glides capacity r (window.take n) t ∧ t.stage.inStartLine = true ∧
      window[n]? = some ending ∧ (t.push capacity ending).fault = none ∧
      turn = { step := t.push capacity ending, extra := n + 1 } := by
  unfold versionAhead? at h
  split at h
  · cases h
  · split at h
    · next length version spelled =>
      split at h
      · next ending found =>
        split at h
        · next ends =>
          cases h
          obtain ⟨ended, fits⟩ := ends
          obtain ⟨positive, short, visible, text⟩ := Version.spelled_of_atFront? spelled
          obtain ⟨n, rfl⟩ : ∃ n, length = n + 1 := ⟨length - 1, by omega⟩
          rw [List.take_succ_cons] at visible text
          simp only [Nat.add_sub_cancel] at found
          have within : n < window.length := (List.getElem?_eq_some_iff.mp found).1
          have size : (window.take n).length = n := by
            rw [List.length_take, Nat.min_eq_left (Nat.le_of_lt within)]
          obtain ⟨inside, last⟩ := fits_add.mp fits
          -- The octets before the line end are collected, and the line end gives them a meaning.
          have collects := glides_requestVersion capacity at_ rfl afterCr
            (by simp_all : (window.take n).all isVisible = true) (by rwa [size])
          rw [collected, size] at collects
          let t : Reader := (r.skip n).enter
            (.requestVersion method (.ofList (Text.ofBytes (b :: window.take n))))
          have ends : t.push capacity ending =
              (r.skip (n + 1)).requestLine capacity method version ending :=
            push_requestVersion (r := t) rfl (by rwa [Snoc.toList_ofList]) afterCr last ended
          exact ⟨n, t, ending, collects, rfl, found, by rw [ends]; rfl, by rw [ends]⟩
        · cases h
      · cases h
    · cases h

end Reader
end HttpStream
