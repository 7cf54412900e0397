import HttpStream.Proofs.BodyFraming
import HttpStream.Proofs.Headroom
import HttpStream.Proofs.Tables

/-! Request lines as the grammar writes them, well formed or not: what is told of one, what is wrong
with it, and how long its target stands. -/

set_option autoImplicit false

namespace HttpStream

open Octet

structure Word where
  octets : Bytes
  nonempty : octets ≠ []
  visible : octets.all isVisible = true

structure Gap where
  blanks : Bytes
  blank : blanks.all isBlank = true

def Gap.wire (gap : Gap) : Bytes := sp :: gap.blanks

inductive LineTail where
  | nothing
  | gap (gap : Gap)
  | version (gap : Gap) (text : Bytes) (opened : text.head?.any isVisible = true)
      (line : ∀ b ∈ text, isLineEnd b = false)

def LineTail.wire : LineTail → Bytes
  | .nothing => []
  | .gap after => after.wire
  | .version after text _ _ => after.wire ++ text

structure RequestLine where
  -- Octets ahead of the line that open none.
  lead : Bytes
  method : Word
  gap : Gap
  target : Word
  tail : LineTail
  ignored : lead.any isVisible = false

def Version.named? (octets : Bytes) : Option Version :=
  all.find? fun version => Text.fold (Text.ofBytes octets) = Text.fold version.text.toList

namespace RequestLine

def wire (line : RequestLine) : Bytes :=
  line.lead ++ line.method.octets ++ line.gap.wire ++ line.target.octets ++ line.tail.wire

def name (line : RequestLine) : Text := Text.ofBytes line.method.octets

structure Outcome where
  events : List Event := []
  fault : Option Fault := none
  stage : Stage

/-- A line is judged from left to right: its method, then its version. Without a version it is all
of a request. -/
def outcome (line : RequestLine) : Outcome :=
  match Method.ofText? line.name with
  | none => { fault := some (.badMethod line.name), stage := .closed }
  | some method =>
    match line.tail with
    | .version _ text _ _ =>
      match Version.named? text with
      | some version =>
        { events := [.requestLine method line.target.octets (some version)]
          stage := .lineStart (.request version false) none }
      | none => { fault := some (.unknownVersion (Text.ofBytes text)), stage := .closed }
    | .nothing | .gap _ =>
      { events := [.requestLine method line.target.octets none, .headerComplete, .messageComplete]
        stage := .done }

end RequestLine

namespace RequestLine

variable (line : RequestLine)

theorem outcome_cases : (∃ fault, line.outcome = { fault := some fault, stage := .closed }) ∨
    (∃ method version, line.outcome =
      { events := [.requestLine method line.target.octets (some version)]
        stage := .lineStart (.request version false) none }) ∨
    ∃ method, line.outcome =
      { events := [.requestLine method line.target.octets none, .headerComplete, .messageComplete]
        stage := .done } := by
  unfold outcome
  cases Method.ofText? line.name with
  | none => exact .inl ⟨_, rfl⟩
  | some method =>
    cases line.tail with
    | nothing | gap => exact .inr (.inr ⟨method, rfl⟩)
    | version _ text =>
      cases named : Version.named? text with
      | none => exact .inl ⟨.unknownVersion (Text.ofBytes text), by simp only [named]⟩
      | some version => exact .inr (.inl ⟨method, version, by simp only [named]⟩)

theorem outcome_noContent (bytes : Bytes) : .content bytes ∉ line.outcome.events := by
  rcases line.outcome_cases with ⟨_, wrong⟩ | ⟨_, _, told⟩ | ⟨_, told⟩ <;> simp [*]

theorem outcome_plain {stage : Stage} (same : stage.plain = line.outcome.stage.plain) :
    stage = line.outcome.stage := by
  rcases line.outcome_cases with ⟨_, wrong⟩ | ⟨_, _, told⟩ | ⟨_, told⟩
  · rw [wrong] at same ⊢
    exact Stage.plain_eq_closed.mp same
  · rw [told] at same ⊢
    exact Stage.plain_eq_lineStart.mp same
  · rw [told] at same ⊢
    exact Stage.plain_eq_done.mp same

theorem outcome_outside : line.outcome.stage.inStartLine = false := by
  rcases line.outcome_cases with ⟨_, wrong⟩ | ⟨_, _, told⟩ | ⟨_, told⟩ <;>
    simp [*, Stage.inStartLine]

end RequestLine

theorem Version.named?_eq (octets : Bytes) : named? octets = ofText? (Text.ofBytes octets) := by
  have spelled (version : Version) : (Text.fold (Text.ofBytes octets) =
      Text.fold version.text.toList) ↔ ofText? (Text.ofBytes octets) = some version :=
    ofText?_eq_some_iff.symm
  unfold named?
  simp only [spelled]
  cases known : ofText? (Text.ofBytes octets) with
  | none => simp
  | some version => cases version <;> rfl

namespace Reader

variable {r s : Reader} {b : UInt8} {capacity n : Nat} {bytes : Bytes}

/-! Octets of a start line, without a limit. -/

theorem run_lead (capacity : Nat) (unlimited : r.settings.limit? = none) (start : r.stage = .start)
    (hidden : bytes.any isVisible = false) :
    ∃ headerBytes afterCr, r.run false capacity bytes = .quiet { r with headerBytes, afterCr } := by
  induction bytes generalizing r with
  | nil => exact ⟨_, _, rfl⟩
  | cons b rest ih =>
    obtain ⟨first, others⟩ : isVisible b = false ∧ rest.any isVisible = false := by
      simpa using hidden
    obtain ⟨headerBytes, afterCr, pushed⟩ :=
      push_lead capacity start (fits_of_unlimited unlimited 1) first
    have inside : r.stage.inHead = true := by rw [start]; rfl
    let next : Reader := { r with headerBytes, afterCr }
    rw [run, advance_of_quiet (s := next) false inside inside pushed, Step.quiet_andThen]
    exact ih (r := next) unlimited start others

/-! Inside a request line. -/

def stand (r : Reader) (headerBytes : Nat) (stage : Stage) (target : Snoc UInt8) : Reader :=
  { r with headerBytes, stage, target, afterCr := false }

theorem fits_stand {stage : Stage} {target : Snoc UInt8} (unlimited : r.settings.limit? = none)
    (m n : Nat) : (r.stand n stage target).fits m = true :=
  fits_of_unlimited (r := r.stand n stage target) unlimited m

theorem glides_stay {stage : Stage} {target : Snoc UInt8} {member : UInt8 → Bool}
    (unlimited : r.settings.limit? = none) (inHead : stage.inHead = true)
    (plain : ∀ b, member b = true → isLineEnd b = false)
    (stays : ∀ (s : Reader) (b : UInt8), s.stage = stage → member b = true →
      s.interpret capacity b = .quiet s) (members : bytes.all member = true) (n : Nat) :
    Glides capacity (r.stand n stage target) bytes
      (r.stand (n + bytes.length) stage target) := by
  induction bytes generalizing n with
  | nil => exact .nil _
  | cons b rest ih =>
    rw [List.all_cons, Bool.and_eq_true] at members
    have first : Glides capacity (r.stand n stage target) [b] (r.stand (n + 1) stage target) :=
      .single inHead inHead (plain b members.1) (fits_stand unlimited 1 _)
        (stays _ b rfl members.1)
    have whole := first.trans (ih members.2 (n + 1))
    rwa [Nat.add_assoc, Nat.add_comm 1] at whole

theorem glides_word (capacity : Nat) (stage : Snoc Char → Stage)
    (inHead : ∀ token, (stage token).inHead = true) (unlimited : r.settings.limit? = none)
    (start : r.stage = .start)
    (collects : ∀ (s : Reader) (token : Snoc Char) (b : UInt8), s.stage = stage token →
      token.isEmpty = false → isVisible b = true →
      s.interpret capacity b = .quiet (s.enter (stage (token.push (toChar b)))))
    (opens : ∀ (s : Reader) (b : UInt8), s.stage = .start → s.mode = r.mode →
      isVisible b = true →
      s.interpret capacity b = .quiet (s.enter (stage (Snoc.empty.push (toChar b)))))
    (word : Word) :
    ∃ n, Glides capacity r word.octets
      (r.stand n (stage (.ofList (Text.ofBytes word.octets))) r.target) := by
  obtain ⟨octets, nonempty, visible⟩ := word
  cases octets with
  | nil => exact absurd rfl nonempty
  | cons b rest =>
    have first : isVisible b = true := by simp_all
    exact ⟨_, glides_open capacity stage inHead isLineEnd_of_isVisible collects
      (by rw [start]; rfl) (fun s at_ mode => opens s b (at_.trans start) mode first)
      visible (fits_of_unlimited unlimited _)⟩

theorem glides_methodWord (capacity : Nat) (unlimited : r.settings.limit? = none)
    (start : r.stage = .start) (mode : r.mode = .request) (word : Word) :
    ∃ n, Glides capacity r word.octets
      (r.stand n (.method (.ofList (Text.ofBytes word.octets))) r.target) := by
  refine glides_word capacity .method (fun _ => rfl) unlimited start ?_ ?_ word
  · intro s token b at_ _ visible
    obtain ⟨notSp, notControl⟩ := plain_of_isVisible b visible
    simp [interpret, at_, pushMethod, notSp, notControl]
  · intro s b at_ same visible
    simp [interpret, at_, pushStart, visible, same, mode]

theorem glides_gap (capacity : Nat) {before after : Stage} (target : Snoc UInt8)
    (unlimited : r.settings.limit? = none) (left : before.inHead = true)
    (entered : after.inHead = true)
    (space : ∀ s : Reader, s.stage = before → s.interpret capacity sp = .quiet (s.enter after))
    (stays : ∀ (s : Reader) (b : UInt8), s.stage = after → isBlank b = true →
      s.interpret capacity b = .quiet s) (gap : Gap) (n : Nat) :
    ∃ m, Glides capacity (r.stand n before target) gap.wire (r.stand m after target) := by
  have first : Glides capacity (r.stand n before target) [sp] (r.stand (n + 1) after target) :=
    .single left entered rfl (fits_stand unlimited 1 _) (space _ rfl)
  exact ⟨_, first.trans
    (glides_stay unlimited entered isLineEnd_of_isBlank stays gap.blank (n + 1))⟩

theorem glides_methodGap (capacity : Nat) {token : Snoc Char} (target : Snoc UInt8)
    {method : Method} (unlimited : r.settings.limit? = none)
    (known : Method.ofText? token.toList = some method) (gap : Gap) (n : Nat) :
    ∃ m, Glides capacity (r.stand n (.method token) target) gap.wire
      (r.stand m (.beforeUri method) target) := by
  refine glides_gap capacity target unlimited rfl rfl
    (fun s at_ => interpret_method_sp at_ known) ?_ gap n
  intro s b at_ blank
  simp [interpret, at_, pushBeforeUri, blank]

theorem glides_target_word (capacity : Nat) (method : Method) (target : Snoc UInt8)
    (unlimited : r.settings.limit? = none) (word : Word) (n : Nat) :
    ∃ m, Glides capacity (r.stand n (.beforeUri method) target) word.octets
      (r.stand m (.uri method) (.ofList word.octets)) := by
  obtain ⟨octets, nonempty, visible⟩ := word
  cases octets with
  | nil => exact absurd rfl nonempty
  | cons b rest =>
    rw [List.all_cons, Bool.and_eq_true] at visible
    obtain ⟨_, control⟩ := plain_of_isVisible b visible.1
    have opens : Glides capacity (r.stand n (.beforeUri method) target) [b]
        (r.stand (n + 1) (.uri method) (Snoc.empty.push b)) := by
      refine .single rfl rfl (isLineEnd_of_isVisible b visible.1)
        (fits_stand unlimited 1 _) ?_
      simp only [interpret, count, stand, pushBeforeUri, isBlank_of_isVisible b visible.1, control,
        Bool.false_eq_true, if_false]
      rfl
    have whole := opens.trans (glides_target rfl rfl visible.2 fun _ => fits_stand unlimited _ _)
    simp only [stand, skip, Snoc.append, Snoc.push, Snoc.empty] at whole
    exact ⟨_, by simpa [stand, Snoc.ofList] using whole⟩

theorem glides_targetGap (capacity : Nat) (method : Method) (target : Snoc UInt8)
    (unlimited : r.settings.limit? = none) (gap : Gap) (n : Nat) :
    ∃ m, Glides capacity (r.stand n (.uri method) target) gap.wire
      (r.stand m (.afterUri method) target) := by
  refine glides_gap capacity target unlimited rfl rfl ?_ ?_ gap n
  · intro s at_
    simp [interpret, at_, pushUri]
  · intro s b at_ blank
    simp [interpret, at_, pushAfterUri, blank]

theorem glides_version_text (capacity : Nat) (method : Method) (target : Snoc UInt8)
    (unlimited : r.settings.limit? = none) (opened : bytes.head?.any isVisible = true)
    (line : ∀ b ∈ bytes, isLineEnd b = false) (n : Nat) :
    ∃ m, Glides capacity (r.stand n (.afterUri method) target) bytes
      (r.stand m (.requestVersion method (.ofList (Text.ofBytes bytes))) target) := by
  cases bytes with
  | nil => cases opened
  | cons b rest =>
    have first : isVisible b = true := opened
    exact ⟨_, glides_open capacity (.requestVersion method) (fun _ => rfl)
      (fun b plain => by simpa using plain)
      (fun s token b at_ _ plain => by
        have plain : isLineEnd b = false := by simpa using plain
        simp [interpret, at_, pushRequestVersion, plain])
      rfl
      (fun s at_ _ => by
        have at_ : s.stage = .afterUri method := at_
        simp [interpret, at_, pushAfterUri, isBlank_of_isVisible b first,
          (plain_of_isVisible b first).2])
      (show (b :: rest).all (fun b => !isLineEnd b) = true by simpa using line)
      (fits_stand unlimited _ _)⟩

/-! The line as a whole. -/

theorem run_quiet_append {first : Bytes} (quiet : r.run false capacity first = .quiet s)
    (second : Bytes) : r.run false capacity (first ++ second) = s.run false capacity second := by
  rw [run_append, quiet, Step.quiet_andThen]

theorem run_faulted {t : Reader} {events : List Event} {fault : Fault}
    (open_ : s.stage.isComplete = false)
    (refused : s.push capacity b = { reader := t, events, fault := some fault }) (rest : Bytes) :
    s.run false capacity (b :: rest) =
      { reader := t.enter .closed, events, fault := some fault } := by
  rw [run, advance_alone, open_, refused]
  rfl

theorem run_pushed {t : Reader} {events : List Event} (open_ : s.stage.isComplete = false)
    (told : s.push capacity b = { reader := t, events }) (more : t.stage ≠ .content 0) :
    s.run false capacity [b] = { reader := t, events } := by
  rw [run_singleton, advance_of_fine open_ (by rw [told]) (by rw [told]; exact more), told]

theorem run_refused {t : Reader} {events : List Event} {fault : Fault}
    (inside : s.stage.inHead = true)
    (refused : s.push capacity b = { reader := t, events, fault := some fault }) (rest : Bytes) :
    s.run false capacity (b :: rest) =
      { reader := t.enter .closed, events, fault := some fault } :=
  run_faulted (Stage.isComplete_of_inHead inside) refused rest

theorem run_told {t : Reader} {events : List Event} (inside : s.stage.inHead = true)
    (told : s.push capacity b = { reader := t, events }) (more : t.stage ≠ .content 0) :
    s.run false capacity [b] = { reader := t, events } :=
  run_pushed (Stage.isComplete_of_inHead inside) told more

structure ComesTo (step : Step) (line : RequestLine) : Prop where
  events : step.events = line.outcome.events
  fault : step.fault = line.outcome.fault
  stage : step.reader.stage = line.outcome.stage
  target : line.outcome.fault = none → step.reader.target = .ofList line.target.octets

theorem push_stand {stage : Stage} {target : Snoc UInt8} (unlimited : r.settings.limit? = none)
    (inHead : stage.inHead = true) (n : Nat) :
    (r.stand n stage target).push capacity b =
      (r.stand (n + 1) stage target).interpret capacity b :=
  push_of_fits inHead (fits_stand unlimited 1 n) rfl

theorem run_short {stage : Stage} {target : Snoc UInt8} {method : Method}
    (unlimited : r.settings.limit? = none)
    (at_ : stage = .uri method ∨ stage = .afterUri method) (ended : isLineEnd b = true) (n : Nat) :
    (r.stand n stage target).run false capacity [b] =
      (r.stand (n + 1) stage target).shortRequest method b := by
  have control : isControl b = true ∧ isBlank b = false ∧ b ≠ sp := by
    rcases (isLineEnd_iff b).mp ended with rfl | rfl <;> decide
  rcases at_ with rfl | rfl <;>
    refine run_told rfl ((push_stand unlimited rfl n).trans ?_) (by rintro ⟨⟩) <;>
    simp only [interpret, stand, pushUri, pushAfterUri, control, if_true, if_false,
      Bool.false_eq_true] <;> rfl

section Line

variable (capacity) (unlimited : r.settings.limit? = none) (start : r.stage = .start)
  (mode : r.mode = .request) (line : RequestLine)
include unlimited start mode

theorem run_method : ∃ n, r.run false capacity (line.lead ++ line.method.octets) =
    .quiet (r.stand n (.method (.ofList line.name)) r.target) := by
  obtain ⟨headerBytes, afterCr, ahead⟩ := run_lead capacity unlimited start line.ignored
  obtain ⟨n, word⟩ := glides_methodWord (r := { r with headerBytes, afterCr }) capacity unlimited start
    mode line.method
  exact ⟨n, (run_quiet_append ahead _).trans (word.run false)⟩

theorem run_badMethod (unknown : Method.ofText? line.name = none)
    (rest : Bytes) : ∃ s : Reader, s.stage = .closed ∧
      r.run false capacity (line.lead ++ line.method.octets ++ sp :: rest) =
        { reader := s, fault := some (.badMethod line.name) } := by
  obtain ⟨n, opened⟩ := run_method capacity unlimited start mode line
  let stage : Stage := .method (.ofList line.name)
  have refused : (r.stand n stage r.target).push capacity sp =
      .fail (r.stand (n + 1) stage r.target) (.badMethod line.name) := by
    rw [push_stand unlimited rfl]
    simp [interpret, stage, stand, pushMethod, unknown]
  rw [run_quiet_append opened, run_refused rfl refused]
  exact ⟨_, rfl, rfl⟩

theorem run_target {method : Method}
    (known : Method.ofText? line.name = some method) :
    ∃ n, r.run false capacity
        (line.lead ++ line.method.octets ++ line.gap.wire ++ line.target.octets) =
      .quiet (r.stand n (.uri method) (.ofList line.target.octets)) := by
  obtain ⟨n, opened⟩ := run_method capacity unlimited start mode line
  have named : Method.ofText? (Snoc.ofList line.name).toList = some method := by
    rwa [Snoc.toList_ofList]
  obtain ⟨m, gap⟩ := glides_methodGap capacity r.target unlimited named line.gap n
  obtain ⟨k, target⟩ := glides_target_word capacity method r.target unlimited line.target m
  refine ⟨k, ?_⟩
  rw [run_quiet_append ((run_quiet_append opened _).trans (gap.run false)), target.run]

end Line

theorem run_version (capacity : Nat) (method : Method) (target : Snoc UInt8)
    (unlimited : r.settings.limit? = none) (ended : isLineEnd b = true) (text : Bytes) (n : Nat) :
    ∃ s : Reader,
      (r.stand n (.requestVersion method (.ofList (Text.ofBytes text))) target).run false
        capacity [b] =
      match Version.named? text with
      | some version =>
        { reader := { s with target, stage := .lineStart (.request version false) none }
          events := [.requestLine method target.toList (some version)] }
      | none =>
        { reader := s.enter .closed, fault := some (.unknownVersion (Text.ofBytes text)) } := by
  have meaning : (r.stand n (.requestVersion method (.ofList (Text.ofBytes text))) target).push
      capacity b = _ := push_stand unlimited rfl n
  simp only [interpret, stand, pushRequestVersion, ended, if_true, Snoc.toList_ofList,
    ← Version.named?_eq] at meaning
  cases named : Version.named? text with
  | none =>
    rw [named] at meaning
    exact ⟨_, run_refused rfl meaning []⟩
  | some version =>
    rw [named] at meaning
    exact ⟨((r.stand (n + 1) (.uri method) target).requestLine capacity method version b).reader,
      run_told rfl meaning (by rintro ⟨⟩)⟩

theorem run_requestLine (capacity : Nat) (unlimited : r.settings.limit? = none)
    (start : r.stage = .start) (mode : r.mode = .request) (line : RequestLine) {ending : UInt8}
    (ended : isLineEnd ending = true) :
    ComesTo (r.run false capacity (line.wire ++ [ending])) line := by
  cases known : Method.ofText? line.name with
  | none =>
    obtain ⟨s, closed, refused⟩ := run_badMethod capacity unlimited start mode line known
      (line.gap.blanks ++ line.target.octets ++ line.tail.wire ++ [ending])
    have wire : line.wire ++ [ending] = line.lead ++ line.method.octets ++
        sp :: (line.gap.blanks ++ line.target.octets ++ line.tail.wire ++ [ending]) := by
      simp [RequestLine.wire, Gap.wire]
    rw [wire, refused]
    constructor <;> simp [RequestLine.outcome, known, closed]
  | some method =>
    obtain ⟨n, front⟩ := run_target capacity unlimited start mode line known
    rw [RequestLine.wire, List.append_assoc, run_quiet_append front]
    -- Behind the target the line may end at once, end after blanks, or go on with a version.
    cases tail : line.tail with
    | nothing =>
      rw [LineTail.wire, List.nil_append, run_short unlimited (.inl rfl) ended]
      constructor <;> simp [RequestLine.outcome, known, tail, shortRequest, uri, stand, enter,
        endLine]
    | gap after =>
      obtain ⟨m, glides⟩ := glides_targetGap capacity method (.ofList line.target.octets)
        unlimited after n
      rw [LineTail.wire, run_quiet_append (glides.run false), run_short unlimited (.inr rfl) ended]
      constructor <;> simp [RequestLine.outcome, known, tail, shortRequest, uri, stand, enter,
        endLine]
    | version after text opened plain =>
      obtain ⟨m, glides⟩ := glides_targetGap capacity method (.ofList line.target.octets)
        unlimited after n
      obtain ⟨k, collects⟩ := glides_version_text capacity method
        (.ofList line.target.octets) unlimited opened plain m
      obtain ⟨s, last⟩ := run_version capacity method (.ofList line.target.octets)
        unlimited ended text k
      rw [LineTail.wire, run_quiet_append ((glides.trans collects).run false), last]
      cases named : Version.named? text <;>
        constructor <;> simp [RequestLine.outcome, known, tail, named, enter]

/-! The target stands until the reader is made ready for another message. -/

structure Past (target : Snoc UInt8) (r : Reader) : Prop where
  target : r.target = target
  outside : r.stage.inStartLine = false

variable {σ : Type} {target : Snoc UInt8} {turn : Turn}

theorem Past.enter (h : r.Past target) {stage : Stage} (outside : stage.inStartLine = false) :
    (r.enter stage).Past target := ⟨h.target, outside⟩

theorem FieldStep.past {step : Step} (cause : r.FieldStep b step) (h : r.Past target) :
    step.reader.Past target := by
  have flushed {u : Reader} {head after : Head} {pending : Option Field} {events : List Event}
      (delivered : r.flush head pending = .ok (u, after, events)) : u.target = target := by
    obtain ⟨⟨framing, contentLength, cache, rfl, _⟩, _⟩ := flush_ok delivered
    exact h.target
  cases cause with
  | inside stage _ line => exact ⟨h.target, by cases stage <;> first | rfl | cases line⟩
  | fault => exact h
  | field _ _ delivered =>
    have same := flushed delivered
    exact ⟨same, rfl⟩
  | blank _ _ delivered =>
    obtain ⟨framing, contentLength, cache, step, same, blank, _⟩ := flush_blank delivered b
    rw [same]
    cases blank with
    | fault => exact ⟨h.target, h.outside⟩
    | body _ stage body => exact ⟨h.target, by cases stage <;> first | rfl | cases body⟩
    | finished => exact ⟨h.target, rfl⟩

theorem BodyStep.past {step : Step} (cause : r.BodyStep b step) (body : r.stage.inBody = true)
    (h : r.Past target) : step.reader.Past target := by
  refine ⟨?_, Bool.eq_false_iff.mpr fun line => ?_⟩
  · cases cause with
    | slice | inside | trailers | fault | finished | trailer => exact h.target
  · cases (Stage.inHead_of_inStartLine line).symm.trans (cause.outside body)

theorem Past.push (h : r.Past target) (sound : r.Sound) :
    (r.push capacity b).reader.Past target := by
  have push := push_cases sound capacity (b := b)
  generalize r.push capacity b = step at push
  cases push with
  | limit | lineRest | idle => exact ⟨h.target, h.outside⟩
  | startLine _ line => cases h.outside.symm.trans line
  | fields _ _ cause => exact cause.past ⟨h.target, h.outside⟩
  | body _ body cause => exact cause.past body ⟨h.target, h.outside⟩

theorem TurnCase.past (cause : r.TurnCase capacity b bytes turn) (sound : r.Sound)
    (h : r.Past target) : turn.step.reader.Past target := by
  refine cause.keeps sound h (fun _ _ sound _ past => past.push sound)
    (fun _ _ _ past => ⟨past.target, past.outside⟩) ?_ ?_
  · rintro t u ⟨stage, rfl, plain⟩ _ past
    refine ⟨past.target, ?_⟩
    rw [← past.outside]
    show stage.inStartLine = t.stage.inStartLine
    cases stage <;> cases held : t.stage <;> rw [held] at plain <;> first | rfl | cases plain
  · intro b rest room
    have body : r.stage.inBody = true := (inBody_of_room room).1
    have after := deliver_inBody (r := { r with afterCr := false }) body (b :: rest)
    refine ⟨h.target, Bool.eq_false_iff.mpr fun line => ?_⟩
    cases (Stage.inHead_of_inStartLine line).symm.trans (Stage.inHead_of_inBody after)

theorem Past.read (h : r.Past target) (sound : r.Sound) (listener : Listener σ) (state : σ)
    (input : Input) : (r.read listener state input).reader.Past target := by
  rw [read_inner true (state, []) input]
  exact @read_carries _ _ (fun s _ => s.Past target) listener (state, []) input sound h
    (fun sound _ cause => cause.past sound) (fun _ past => past.enter rfl)
    (fun _ past => past.enter rfl)

theorem Past.answer (h : r.Past target) (sound : r.Sound) (listener : Listener σ) (state : σ)
    {call : Call} (keeps : call ≠ .reset) : (r.answer listener state call).reader.Past target := by
  cases call with
  | read input => exact h.read sound listener state input
  | shutdown =>
    have same : (r.answer listener state .shutdown).reader = r.ended.reader :=
      (r.shutdown_ended listener state).1
    rw [same]
    rcases r.ended_cases with quiet | ⟨shut, _⟩
    · rw [quiet]
      exact h
    · rw [shut]
      exact h.enter rfl
  | close => exact ⟨h.target, rfl⟩
  | headResponse => exact ⟨h.target, h.outside⟩
  | reset => exact absurd rfl keeps

theorem Past.through (h : r.Past target) (sound : r.Sound) (listener : Listener σ) (state : σ)
    {calls : List Call} (keep : .reset ∉ calls) :
    (r.through listener state calls).1.Past target := by
  induction calls generalizing r state with
  | nil => exact h
  | cons call rest ih =>
    have first : call ≠ .reset := fun same => keep (same ▸ List.mem_cons_self)
    exact ih (h.answer sound listener state first) (sound.answer listener state call) _
      fun later => keep (List.mem_cons_of_mem call later)

/-- A request line within the limit, in any fragments, on a connection with any past: what is told
of it, and where it leads, is what is said of the line; and from then on its target stands, whatever
is asked of the reader, until the reader is reset. -/
theorem feedAll_requestLine (settings : Settings) (early : Listener σ) (state : σ)
    (before : List Call) (memoryCapacity : Option Nat) (line : RequestLine) (ending : UInt8)
    (fragments : List Input) (ended : isLineEnd ending = true)
    (spelled : fragments.flatten.flatten = line.wire ++ [ending])
    (within : settings.headerLimit = 0 ∨ (line.wire ++ [ending]).length ≤ settings.headerLimit) :
    let reader := (Reader.through { mode := .request, settings } early state before).1.reset
    let fed := reader.feedAll (Recorder.listener { memoryCapacity }) {} fragments
    fed.2.1.events = line.outcome.events ∧ fed.2.1.fault = line.outcome.fault ∧
      fed.1.stage = line.outcome.stage ∧
      (line.outcome.fault = none →
        ∀ {τ : Type} (listener : Listener τ) (state : τ) (calls : List Call), .reset ∉ calls →
          (fed.1.through listener state calls).1.uri = line.target.octets) := by
  intro reader fed
  have fresh : Sound { mode := .request, settings } := .fresh .request settings
  obtain ⟨mode, same⟩ := through_connection fresh early state before
  have mode : reader.mode = .request := mode
  have same : reader.settings = settings := same
  have sound : reader.Sound := (fresh.through early state before).reset
  obtain ⟨step, alike, sound', fedReader, fedState⟩ := feedAll_spared memoryCapacity fragments sound
    nofun (by rw [spelled]; rw [← same] at within; simpa [Spares, reader, reset] using within)
  have comes : ComesTo ((reader.under 0).run false 0 fragments.flatten.flatten) line := by
    rw [spelled]
    exact run_requestLine (r := reader.under 0) 0 rfl rfl mode line ended
  -- No content is told, so that events that are the same when joined are the same.
  have events : step.events = line.outcome.events :=
    Event.eq_of_joined_eq (comes.events ▸ alike.events) line.outcome_noContent
  have fault : step.fault = line.outcome.fault := alike.fault.trans comes.fault
  have stage : step.reader.stage = line.outcome.stage :=
    line.outcome_plain (alike.reader.stage.trans (congrArg Stage.plain comes.stage))
  have fedEvents : fed.2.1.events = step.events := by
    rw [show fed.2.1 = _ from fedState]
    rfl
  have fedFault : fed.2.1.fault = step.fault := by
    rw [show fed.2.1 = _ from fedState]
    simp [Recorder.told]
  have fedStage : fed.1.stage = step.reader.stage := by
    rw [show fed.1 = _ from fedReader]
    rfl
  refine ⟨fedEvents.trans events, fedFault.trans fault, fedStage.trans stage, ?_⟩
  intro right τ listener state calls keep
  have target : step.reader.target = .ofList line.target.octets :=
    (congrArg Reader.target alike.reader.blurred :).trans (comes.target right)
  have past : fed.1.Past (.ofList line.target.octets) := by
    rw [show fed.1 = _ from fedReader]
    exact ⟨target, (congrArg Stage.inStartLine stage).trans line.outcome_outside⟩
  have sound : fed.1.Sound := by
    rw [show fed.1 = _ from fedReader]
    exact sound'.under _
  have kept := past.through sound listener state keep
  rw [uri, kept.target, Snoc.toList_ofList]

theorem feedAll_requestLine_of_put :
    let line : RequestLine := {
      lead := [lf, tab]
      method := ⟨Text.toBytes "put".toList, by decide +kernel, by decide +kernel⟩
      gap := ⟨[tab], by decide⟩, target := ⟨[0x2f, 0xe9], by decide, by decide⟩
      tail := .version ⟨[], rfl⟩ (Text.toBytes "http/1.1".toList) (by decide +kernel)
        (by decide +kernel)
      ignored := by decide +kernel }
    let fragments : List Input := [[[lf, tab], Text.toBytes "put ".toList], [[tab, 0x2f, 0xe9, sp]],
      [Text.toBytes "ht".toList, Text.toBytes "tp/1.1".toList], [[cr]]]
    let reader := (Reader.through { mode := .request, settings := { headerLimit := 19 } }
      (Recorder.listener {}) {} [.read [Text.toBytes "GET / HTTP/1.0\r".toList]]).1.reset
    let fed := reader.feedAll (Recorder.listener {}) {} fragments
    isLineEnd cr = true ∧ fragments.flatten.flatten = line.wire ++ [cr] ∧
      (line.wire ++ [cr]).length ≤ 19 ∧ line.outcome.fault = none ∧ .reset ∉ [Call.shutdown] ∧
      fed.2.1.events =
        [.requestLine ⟨"put".toList, by decide, by decide⟩ [0x2f, 0xe9] (some .http11)] ∧
      (fed.1.through (Recorder.listener {}) {} [.shutdown]).1.uri = [0x2f, 0xe9] := by
  intro line fragments reader fed
  have spelled : fragments.flatten.flatten = line.wire ++ [cr] := by decide +kernel
  have within : (line.wire ++ [cr]).length ≤ 19 := by decide +kernel
  have right : line.outcome.fault = none := by decide +kernel
  have keep : .reset ∉ [Call.shutdown] := by simp
  obtain ⟨events, _, _, stands⟩ := feedAll_requestLine { headerLimit := 19 } (Recorder.listener {})
    {} [.read [Text.toBytes "GET / HTTP/1.0\r".toList]] none line cr fragments rfl spelled
    (.inr within)
  exact ⟨rfl, spelled, within, right, keep, events.trans (by decide +kernel),
    stands right (Recorder.listener {}) {} [.shutdown] keep⟩

end Reader
end HttpStream
