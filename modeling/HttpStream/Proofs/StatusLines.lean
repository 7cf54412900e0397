import HttpStream.Proofs.RequestLines

/-! Status lines as the grammar writes them, well formed or not: what is told of one, and what is
wrong with it. -/

set_option autoImplicit false

namespace HttpStream

open Octet

namespace Text

def valueOf (octets : Bytes) (value : Nat) : Nat :=
  octets.foldl (fun n b => n * 10 + digitValue b) value

theorem isDigit_toChar (b : UInt8) : (toChar b).isDigit = isDigit b := by
  revert b
  exact forall_of_lt (by decide +kernel)

theorem decimal?_ofBytes (octets : Bytes) : decimal? (ofBytes octets) =
    if octets ≠ [] ∧ octets.all isDigit = true then some (valueOf octets 0) else none := by
  have digits : (ofBytes octets).all Char.isDigit = octets.all isDigit := by
    simp [ofBytes, List.all_map, Function.comp_def, isDigit_toChar]
  have value : (ofBytes octets).foldl (fun n c => n * 10 + (c.toNat - '0'.toNat)) 0 =
      valueOf octets 0 := by
    simp only [ofBytes, List.foldl_map, toNat_toChar]
    rfl
  have empty : (ofBytes octets).isEmpty = octets.isEmpty := by simp [ofBytes]
  unfold decimal?
  rw [digits, value, empty]
  cases octets with
  | nil => rfl
  | cons b rest => cases (b :: rest).all isDigit <;> simp

end Text

def statusCode? (octets : Bytes) : Option Nat :=
  if octets.length = 3 then (Text.decimal? (Text.ofBytes octets)).filter (100 ≤ ·) else none

theorem statusCode?_eq_some {octets : Bytes} {status : Nat} :
    statusCode? octets = some status ↔ octets.all isDigit = true ∧ octets.length = 3 ∧
      100 ≤ status ∧ Text.valueOf octets 0 = status := by
  unfold statusCode?
  rw [Text.decimal?_ofBytes]
  split
  · next three =>
    have nonempty : octets ≠ [] := by rintro rfl; cases three
    cases octets.all isDigit <;> simp [nonempty, three, Option.filter]
    grind
  · next other => simp [other]

structure Phrase where
  octets : Bytes
  opened : octets.head?.any isVisible = true
  line : ∀ b ∈ octets, isLineEnd b = false

inductive StatusTail where
  | nothing
  | gap (gap : Gap) (reason : Option Phrase)

namespace StatusTail

def wire : StatusTail → Bytes
  | .nothing => []
  | .gap after none => after.wire
  | .gap after (some phrase) => after.wire ++ phrase.octets

def reason? : StatusTail → Option Text
  | .nothing | .gap _ none => none
  | .gap _ (some phrase) => some (Text.trimRight Text.isBlank (Text.ofBytes phrase.octets))

end StatusTail

structure StatusLine where
  -- Octets ahead of the line that open none.
  lead : Bytes
  version : Word
  gap : Gap
  status : Word
  tail : StatusTail
  ignored : lead.any isVisible = false

namespace StatusLine

def wire (line : StatusLine) : Bytes :=
  line.lead ++ line.version.octets ++ line.gap.wire ++ line.status.octets ++ line.tail.wire

/-- A line is judged from left to right: its version, then its status code. -/
def verdict (line : StatusLine) : Except Fault (Version × Nat) :=
  match Version.named? line.version.octets with
  | none => .error (.unknownVersion (Text.ofBytes line.version.octets))
  | some version =>
    match statusCode? line.status.octets with
    | none => .error .badStatus
    | some status => .ok (version, status)

end StatusLine

namespace Reader

variable {r s : Reader} {b : UInt8} {capacity n value digits status : Nat} {version : Version}
  {target : Snoc UInt8} {bytes : Bytes}

/-! The version. -/

theorem glides_versionWord (capacity : Nat) (unlimited : r.settings.limit? = none)
    (start : r.stage = .start) (mode : r.mode = .response) (word : Word) :
    ∃ n, Glides capacity r word.octets
      (r.stand n (.responseVersion (.ofList (Text.ofBytes word.octets))) r.target) := by
  refine glides_word capacity .responseVersion (fun _ => rfl) unlimited start ?_ ?_ word
  · intro s token b at_ _ visible
    obtain ⟨notSp, notControl⟩ := plain_of_isVisible b visible
    simp [interpret, at_, pushResponseVersion, notSp, notControl]
  · intro s b at_ same visible
    simp [interpret, at_, pushStart, visible, same, mode]

theorem glides_versionGap (capacity : Nat) {token : Snoc Char} (target : Snoc UInt8)
    (unlimited : r.settings.limit? = none) (known : Version.ofText? token.toList = some version)
    (gap : Gap) (n : Nat) :
    ∃ m, Glides capacity (r.stand n (.responseVersion token) target) gap.wire
      (r.stand m (.beforeStatus version) target) := by
  refine glides_gap capacity target unlimited rfl rfl
    (fun s at_ => interpret_responseVersion_sp at_ known) ?_ gap n
  intro s b at_ blank
  simp [interpret, at_, pushBeforeStatus, blank]

/-! The status code, digit by digit. -/

theorem plain_of_isDigit (b : UInt8) (digit : isDigit b = true) :
    isLineEnd b = false ∧ isBlank b = false := by
  revert b
  exact forall_of_lt (by decide +kernel)

theorem glides_digits (capacity : Nat) (version : Version) (target : Snoc UInt8) (value : Nat)
    (unlimited : r.settings.limit? = none) (all : bytes.all isDigit = true)
    (short : digits + bytes.length ≤ 3) (n : Nat) :
    Glides capacity (r.stand n (.status version value digits) target) bytes
      (r.stand (n + bytes.length)
        (.status version (Text.valueOf bytes value) (digits + bytes.length)) target) := by
  induction bytes generalizing n value digits with
  | nil => exact .nil _
  | cons b rest ih =>
    rw [List.all_cons, Bool.and_eq_true] at all
    rw [List.length_cons] at short
    have room : digits < 3 := by omega
    have first : Glides capacity (r.stand n (.status version value digits) target) [b]
        (r.stand (n + 1) (.status version (value * 10 + digitValue b) (digits + 1)) target) :=
      .single rfl rfl (plain_of_isDigit b all.1).1 (fits_stand unlimited 1 _)
        (by simp [interpret, count, stand, pushStatus, all.1, room, enter])
    have whole := first.trans (ih _ all.2 (by omega) (n + 1))
    simpa only [List.singleton_append, List.length_cons, Text.valueOf, List.foldl_cons,
      Nat.add_assoc, Nat.add_comm 1] using whole

theorem run_wrongStatus {stage : Stage} (unlimited : r.settings.limit? = none)
    (inHead : stage.inHead = true)
    (wrong : (r.stand (n + 1) stage target).interpret capacity b =
      .fail (r.stand (n + 1) stage target) .badStatus) (rest : Bytes) :
    ∃ s : Reader, (r.stand n stage target).run false capacity (b :: rest) =
      { reader := s.enter .closed, fault := some .badStatus } :=
  ⟨_, run_refused inHead ((push_stand unlimited inHead n).trans wrong) rest⟩

theorem run_badDigits (capacity : Nat) (version : Version) (target : Snoc UInt8)
    (unlimited : r.settings.limit? = none) (visible : bytes.all isVisible = true)
    (count : digits ≤ 3) (wrong : ¬(bytes.all isDigit = true ∧ digits + bytes.length ≤ 3))
    (rest : Bytes) (n : Nat) :
    ∃ s : Reader, (r.stand n (.status version value digits) target).run false capacity
      (bytes ++ rest) = { reader := s.enter .closed, fault := some .badStatus } := by
  induction bytes generalizing n value digits with
  | nil => simp [count] at wrong
  | cons b more ih =>
    rw [List.all_cons, Bool.and_eq_true] at visible
    by_cases goes : isDigit b = true ∧ digits < 3
    · have single : [b].all isDigit = true := by simp [goes.1]
      have first := glides_digits capacity version target value unlimited single
        (show digits + 1 ≤ 3 from goes.2) n
      have left : ¬(more.all isDigit = true ∧ digits + 1 + more.length ≤ 3) := by
        simpa [goes.1, Nat.add_assoc, Nat.add_comm 1] using wrong
      obtain ⟨s, closed⟩ := ih visible.2 goes.2 left (n + 1)
      exact ⟨s, (run_quiet_append (first.run false) (more ++ rest)).trans closed⟩
    · obtain ⟨notSp, notControl⟩ := plain_of_isVisible b visible.1
      refine run_wrongStatus unlimited rfl ?_ (more ++ rest)
      simp only [interpret, stand, pushStatus]
      grind

/-- A status code that is none is noticed at the octet after it at the latest. -/
theorem run_badStatus (capacity : Nat) (version : Version) (target : Snoc UInt8)
    (unlimited : r.settings.limit? = none) (word : Word)
    (unknown : statusCode? word.octets = none) (ended : isDigit b = false) (rest : Bytes)
    (n : Nat) :
    ∃ s : Reader, (r.stand n (.beforeStatus version) target).run false capacity
      (word.octets ++ b :: rest) = { reader := s.enter .closed, fault := some .badStatus } := by
  obtain ⟨octets, nonempty, visible⟩ := word
  cases octets with
  | nil => exact absurd rfl nonempty
  | cons c more =>
    rw [List.all_cons, Bool.and_eq_true] at visible
    have blank := isBlank_of_isVisible c visible.1
    cases digit : isDigit c with
    | false =>
      refine run_wrongStatus unlimited rfl ?_ (more ++ b :: rest)
      simp [interpret, stand, pushBeforeStatus, blank, digit]
    | true =>
      have first : Glides capacity (r.stand n (.beforeStatus version) target) [c]
          (r.stand (n + 1) (.status version (digitValue c) 1) target) :=
        .single rfl rfl (plain_of_isDigit c digit).1 (fits_stand unlimited 1 _)
          (by simp [interpret, count, stand, pushBeforeStatus, blank, digit, enter])
      have opened := run_quiet_append (first.run false) (more ++ b :: rest)
      rw [List.singleton_append] at opened
      rw [List.cons_append, opened]
      -- Digits up to the end of the word and no code, or something else among them.
      by_cases digits : more.all isDigit = true ∧ 1 + more.length ≤ 3
      · have collects := glides_digits capacity version target (digitValue c) unlimited
          digits.1 digits.2 (n + 1)
        rw [run_quiet_append (collects.run false)]
        refine run_wrongStatus unlimited rfl ?_ rest
        have value : Text.valueOf (c :: more) 0 = Text.valueOf more (digitValue c) := by
          simp [Text.valueOf]
        have none : isStatus (Text.valueOf more (digitValue c)) (1 + more.length) = false := by
          rw [← value, Bool.eq_false_iff]
          intro right
          simp only [isStatus, Bool.and_eq_true, decide_eq_true_eq] at right
          have known := statusCode?_eq_some.mpr
            ⟨by simp [digit, digits.1], by simpa [Nat.add_comm] using right.1, right.2, rfl⟩
          rw [unknown] at known
          cases known
        simp [interpret, stand, pushStatus, ended, none]
      · exact run_badDigits capacity version target unlimited visible.2 (by omega) digits _ _

theorem glides_status (capacity : Nat) (version : Version) (target : Snoc UInt8)
    (unlimited : r.settings.limit? = none) (known : statusCode? bytes = some status) (n : Nat) :
    ∃ m, Glides capacity (r.stand n (.beforeStatus version) target) bytes
      (r.stand m (.status version status 3) target) := by
  obtain ⟨all, three, _, value⟩ := statusCode?_eq_some.mp known
  cases bytes with
  | nil => cases three
  | cons c more =>
    rw [List.all_cons, Bool.and_eq_true] at all
    have plain := plain_of_isDigit c all.1
    have first : Glides capacity (r.stand n (.beforeStatus version) target) [c]
        (r.stand (n + 1) (.status version (digitValue c) 1) target) :=
      .single rfl rfl plain.1 (fits_stand unlimited 1 _)
        (by simp [interpret, count, stand, pushBeforeStatus, plain.2, all.1, enter])
    rw [List.length_cons] at three
    have short : 1 + more.length = 3 := by omega
    have whole := first.trans
      (glides_digits capacity version target _ unlimited all.2 (Nat.le_of_eq short) (n + 1))
    have same : Text.valueOf more (digitValue c) = status := by
      rw [← value]
      simp [Text.valueOf]
    rw [same, short] at whole
    exact ⟨_, whole⟩

/-! The end of the line. -/

theorem glides_statusGap (capacity : Nat) (version : Version) (target : Snoc UInt8)
    (unlimited : r.settings.limit? = none) (from100 : 100 ≤ status) (gap : Gap) (n : Nat) :
    ∃ m, Glides capacity (r.stand n (.status version status 3) target) gap.wire
      (r.stand m (.afterStatus version status) target) := by
  have digit : isDigit sp = false := rfl
  refine glides_gap capacity target unlimited rfl rfl ?_ ?_ gap n
  · intro s at_
    simp [interpret, at_, pushStatus, digit, isStatus, from100]
  · intro s b at_ blank
    simp [interpret, at_, pushAfterStatus, blank]

theorem glides_phrase (capacity : Nat) (version : Version) (status : Nat) (target : Snoc UInt8)
    (unlimited : r.settings.limit? = none) (phrase : Phrase) (n : Nat) :
    ∃ m, Glides capacity (r.stand n (.afterStatus version status) target) phrase.octets
      (r.stand m (.reason version status (.ofList (Text.ofBytes phrase.octets))) target) := by
  obtain ⟨octets, opened, line⟩ := phrase
  cases octets with
  | nil => cases opened
  | cons b rest =>
    have first : isVisible b = true := opened
    exact ⟨_, glides_open capacity (.reason version status) (fun _ => rfl)
      (fun b plain => by simpa using plain)
      (fun s token b at_ _ plain => by
        have plain : isLineEnd b = false := by simpa using plain
        simp [interpret, at_, pushReason, plain])
      rfl
      (fun s at_ _ => by
        have at_ : s.stage = .afterStatus version status := at_
        simp [interpret, at_, pushAfterStatus, isBlank_of_isVisible b first,
          (plain_of_isVisible b first).2])
      (show (b :: rest).all (fun b => !isLineEnd b) = true by simpa using line)
      (fits_stand unlimited _ _)⟩

theorem run_statusLineEnd {stage : Stage} {reason : Option Text}
    (unlimited : r.settings.limit? = none) (inHead : stage.inHead = true)
    (ends : (r.stand (n + 1) stage target).interpret capacity b =
      (r.stand (n + 1) stage target).statusLine version status reason b) :
    ∃ s : Reader, (r.stand n stage target).run false capacity [b] =
      { reader := s.enter (.lineStart (.response status) none)
        events := [.statusLine version status reason] } :=
  ⟨_, run_told inHead ((push_stand unlimited inHead n).trans ends) (by rintro ⟨⟩)⟩

theorem run_tail (capacity : Nat) (version : Version) (target : Snoc UInt8)
    (unlimited : r.settings.limit? = none) (from100 : 100 ≤ status) (tail : StatusTail)
    (ended : isLineEnd b = true) (n : Nat) :
    ∃ s : Reader, (r.stand n (.status version status 3) target).run false capacity
        (tail.wire ++ [b]) =
      { reader := s.enter (.lineStart (.response status) none)
        events := [.statusLine version status tail.reason?] } := by
  have control : isDigit b = false ∧ isControl b = true ∧ isBlank b = false ∧ b ≠ sp := by
    rcases (isLineEnd_iff b).mp ended with rfl | rfl <;> decide
  cases tail with
  | nothing =>
    exact run_statusLineEnd unlimited rfl (by
      simp [interpret, stand, pushStatus, control, isStatus, from100, StatusTail.reason?])
  | gap after reason =>
    obtain ⟨m, space⟩ := glides_statusGap capacity version target unlimited from100 after n
    cases reason with
    | none =>
      rw [StatusTail.wire, run_quiet_append (space.run false)]
      exact run_statusLineEnd unlimited rfl (by
        simp [interpret, stand, pushAfterStatus, control, StatusTail.reason?])
    | some phrase =>
      obtain ⟨k, text⟩ := glides_phrase capacity version status target unlimited phrase m
      rw [StatusTail.wire, run_quiet_append ((space.trans text).run false)]
      exact run_statusLineEnd unlimited rfl (by simp [interpret, stand, pushReason, ended]; rfl)

/-! The line as a whole. -/

def JudgedAs (step : Step) (line : StatusLine) : Prop :=
  match line.verdict with
  | .ok (version, status) =>
    step.events = [.statusLine version status line.tail.reason?] ∧ step.fault = none ∧
      step.reader.stage = .lineStart (.response status) none
  | .error fault => step.events = [] ∧ step.fault = some fault ∧ step.reader.stage = .closed

theorem run_statusLine (capacity : Nat) (unlimited : r.settings.limit? = none)
    (start : r.stage = .start) (mode : r.mode = .response) (line : StatusLine) {ending : UInt8}
    (ended : isLineEnd ending = true) :
    JudgedAs (r.run false capacity (line.wire ++ [ending])) line := by
  obtain ⟨headerBytes, afterCr, ahead⟩ := run_lead capacity unlimited start line.ignored
  obtain ⟨n, word⟩ := glides_versionWord (r := { r with headerBytes, afterCr }) capacity unlimited
    start mode line.version
  let token : Snoc Char := .ofList (Text.ofBytes line.version.octets)
  have opened : r.run false capacity (line.lead ++ line.version.octets) =
      .quiet (r.stand n (.responseVersion token) r.target) :=
    (run_quiet_append ahead _).trans (word.run false)
  have named : Version.ofText? token.toList = Version.named? line.version.octets := by
    rw [Version.named?_eq, Snoc.toList_ofList]
  -- What follows the status code is a space or the end of the line, and no digit.
  obtain ⟨b, rest, after, ended'⟩ : ∃ b rest, line.tail.wire ++ [ending] = b :: rest ∧
      isDigit b = false := by
    cases line.tail with
    | nothing =>
      refine ⟨ending, [], rfl, ?_⟩
      rcases (isLineEnd_iff ending).mp ended with rfl | rfl <;> rfl
    | gap gap reason => cases reason <;> exact ⟨sp, _, rfl, rfl⟩
  have wire : line.wire ++ [ending] = line.lead ++ line.version.octets ++
      (line.gap.wire ++ (line.status.octets ++ (line.tail.wire ++ [ending]))) := by
    simp [StatusLine.wire]
  rw [wire, run_quiet_append opened]
  unfold JudgedAs StatusLine.verdict
  cases known : Version.named? line.version.octets with
  | none =>
    have refused : (r.stand n (.responseVersion token) r.target).push capacity sp =
        .fail (r.stand (n + 1) (.responseVersion token) r.target)
          (.unknownVersion (Text.ofBytes line.version.octets)) := by
      rw [push_stand unlimited rfl]
      simp only [interpret, stand, pushResponseVersion, if_true, named, known]
      rw [Snoc.toList_ofList]
    rw [Gap.wire, List.cons_append, run_refused rfl refused]
    exact ⟨rfl, rfl, rfl⟩
  | some version =>
    obtain ⟨m, gap⟩ := glides_versionGap capacity r.target unlimited (named.trans known) line.gap n
    rw [run_quiet_append (gap.run false)]
    cases code : statusCode? line.status.octets with
    | none =>
      obtain ⟨s, wrong⟩ := run_badStatus capacity version r.target unlimited line.status code ended'
        rest m
      rw [after, wrong]
      exact ⟨rfl, rfl, rfl⟩
    | some status =>
      obtain ⟨k, digits⟩ := glides_status capacity version r.target unlimited code m
      obtain ⟨s, last⟩ := run_tail capacity version r.target unlimited
        (statusCode?_eq_some.mp code).2.2.1 line.tail ended k
      rw [run_quiet_append (digits.run false), last]
      exact ⟨rfl, rfl, rfl⟩

variable {σ : Type}

/-- A status line within the limit, in any fragments, on a connection with any past: with a known
version and a status code it is told, once, and its fields follow; otherwise the fault of its
version, or else of its status code, closes the reader. -/
theorem feedAll_statusLine (settings : Settings) (early : Listener σ) (state : σ)
    (before : List Call) (memoryCapacity : Option Nat) (line : StatusLine) (ending : UInt8)
    (fragments : List Input) (ended : isLineEnd ending = true)
    (spelled : fragments.flatten.flatten = line.wire ++ [ending])
    (within : settings.headerLimit = 0 ∨ (line.wire ++ [ending]).length ≤ settings.headerLimit) :
    let reader := (Reader.through { mode := .response, settings } early state before).1.reset
    let fed := reader.feedAll (Recorder.listener { memoryCapacity }) {} fragments
    match line.verdict with
    | .ok (version, status) =>
      fed.2.1 = { events := [.statusLine version status line.tail.reason?] } ∧
        fed.1.stage = .lineStart (.response status) none
    | .error fault => fed.2.1 = { fault := some fault } ∧ fed.1.stage = .closed := by
  intro reader fed
  have fresh : Sound { mode := .response, settings } := .fresh .response settings
  obtain ⟨mode, same⟩ := through_connection fresh early state before
  have mode : reader.mode = .response := mode
  have same : reader.settings = settings := same
  have sound : reader.Sound := (fresh.through early state before).reset
  obtain ⟨step, alike, _, fedReader, fedState⟩ := feedAll_spared memoryCapacity fragments sound
    nofun (by rw [spelled]; rw [← same] at within; simpa [Spares, reader, reset] using within)
  have judged : JudgedAs ((reader.under 0).run false 0 fragments.flatten.flatten) line := by
    rw [spelled]
    exact run_statusLine (r := reader.under 0) 0 rfl rfl mode line ended
  have stage : step.reader.stage.plain = _ := alike.reader.stage
  have fedStage : fed.1.stage = step.reader.stage := by
    rw [show fed.1 = _ from fedReader]
    rfl
  have fedRecorder : fed.2.1 = { events := step.events, fault := step.fault } := by
    rw [show fed.2.1 = _ from fedState]
    simp [Recorder.told]
  rw [fedStage, fedRecorder]
  have events := alike.events
  unfold JudgedAs at judged
  cases verdict : line.verdict with
  | ok code =>
    obtain ⟨version, status⟩ := code
    rw [verdict] at judged
    obtain ⟨told, fine, at_⟩ := judged
    rw [told] at events
    -- With no content among them, events that are the same when joined are the same.
    have told := Event.eq_of_joined_eq events (by simp)
    refine ⟨by rw [told, alike.fault, fine], Stage.plain_eq_lineStart.mp ?_⟩
    exact stage.trans (congrArg Stage.plain at_)
  | error fault =>
    rw [verdict] at judged
    obtain ⟨told, wrong, at_⟩ := judged
    rw [told] at events
    have told := Event.eq_of_joined_eq events (by simp)
    refine ⟨by rw [told, alike.fault, wrong], Stage.plain_eq_closed.mp ?_⟩
    exact stage.trans (congrArg Stage.plain at_)

theorem feedAll_statusLine_of_notFound :
    let line : StatusLine := {
      lead := [lf]
      version := ⟨Text.toBytes "http/1.1".toList, by decide +kernel, by decide +kernel⟩
      gap := ⟨[tab], by decide⟩
      status := ⟨Text.toBytes "404".toList, by decide +kernel, by decide +kernel⟩
      tail := .gap ⟨[], rfl⟩
        (some ⟨Text.toBytes "Not Found \t".toList, by decide +kernel, by decide +kernel⟩)
      ignored := by decide +kernel }
    let fragments : List Input := [[[lf], Text.toBytes "ht".toList],
      [Text.toBytes "tp/1.1 ".toList], [[tab], Text.toBytes "40".toList],
      [Text.toBytes "4 Not Found \t\r".toList]]
    let reader := (Reader.through { mode := .response, settings := { headerLimit := 27 } }
      (Recorder.listener {}) {} [.read [Text.toBytes "HTTP/1.0 20".toList]]).1.reset
    let fed := reader.feedAll (Recorder.listener {}) {} fragments
    isLineEnd cr = true ∧ fragments.flatten.flatten = line.wire ++ [cr] ∧
      (line.wire ++ [cr]).length ≤ 27 ∧
      fed.2.1 = { events := [.statusLine .http11 404 (some "Not Found".toList)] } := by
  intro line fragments reader fed
  have spelled : fragments.flatten.flatten = line.wire ++ [cr] := by decide +kernel
  have within : (line.wire ++ [cr]).length ≤ 27 := by decide +kernel
  have version : Version.named? line.version.octets = some .http11 := by decide +kernel
  have status : statusCode? line.status.octets = some 404 := by decide +kernel
  have verdict : line.verdict = .ok (.http11, 404) := by
    simp only [StatusLine.verdict, version, status]
  have told := feedAll_statusLine { headerLimit := 27 } (Recorder.listener {}) {}
    [.read [Text.toBytes "HTTP/1.0 20".toList]] none line cr fragments rfl spelled (.inr within)
  rw [verdict] at told
  exact ⟨rfl, spelled, within, told.1.trans (by decide +kernel)⟩

end Reader
end HttpStream
