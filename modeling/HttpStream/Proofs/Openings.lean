import HttpStream.Proofs.RequestLines

/-! Start lines, up to the octet at which they are told: the only way that leads from the start of a
message to its fields. -/

set_option autoImplicit false

namespace HttpStream

open Octet

def Event.head? : Event → Option Head
  | .requestLine _ _ (some version) => some (.request version false)
  | .statusLine _ status _ => some (.response status)
  | _ => none

namespace Reader

variable {r s : Reader} {b : UInt8} {bytes : Bytes} {head : Head}

structure Opening (r : Reader) : Prop where
  sound : r.Sound
  line : r.stage.inStartLine = true
  coded : r.stage.Coded
  framing : r.framing = .unknown
  contentLength : r.contentLength = none

structure Opened (r : Reader) (b : UInt8) (head : Head) (s : Reader) : Prop where
  kin : r.Kin s
  stage : s.stage = .lineStart head none
  afterCr : s.afterCr = (b == cr)
  coded : ∀ status ∈ head.status?, 100 ≤ status
  heeded : s.Heeded []

/-- What an octet of a start line leads to: it leaves the line unfinished, finds something wrong with
it, or ends it. -/
inductive OpeningStep (r : Reader) (b : UInt8) : Step → Prop where
  | inside {s : Reader} (opening : s.Opening) (kin : r.Kin s) : OpeningStep r b (.quiet s)
  | fault (s : Reader) (fault : Fault) : OpeningStep r b (.fail s fault)
  | short {step : Step} (method : Method) (uri : Bytes) (rest : List Event)
      (told : step.events = .requestLine method uri none :: rest) : OpeningStep r b step
  | opened {s : Reader} (start : Event) (head : Head) (known : start.head? = some head)
      (opened : r.Opened b head s) : OpeningStep r b { reader := s, events := [start] }

theorem Opening.push (h : r.Opening) (capacity : Nat) (b : UInt8) :
    r.OpeningStep b (r.push capacity b) := by
  have sound := h.sound.push capacity b
  have kin : r.Kin (r.push capacity b).reader := push_kin h.sound
  have coded : (r.push capacity b).reader.stage.Coded := push_coded h.line h.coded
  have busy : ¬(r.stage = .done ∨ r.stage = .closed) := by
    rintro (same | same) <;> exact absurd h.line (by simp [same, Stage.inStartLine])
  have push := push_cases h.sound capacity (b := b)
  generalize r.push capacity b = step at sound kin coded push
  cases push with
  | limit => exact .fault _ _
  | lineRest => exact .inside ⟨sound, h.line, coded, h.framing, h.contentLength⟩ kin
  | idle finished => exact absurd finished busy
  | fields _ line => exact absurd h.line (by simp [Stage.inStartLine_of_inFields line])
  | body _ body =>
    exact absurd (Stage.inHead_of_inStartLine h.line) (by simp [Stage.inHead_of_inBody body])
  | startLine _ _ cause =>
    cases cause with
    | inside stage target line =>
      exact .inside ⟨sound, line, coded, h.framing, h.contentLength⟩ kin
    | fault => exact .fault _ _
    | shortRequest _ method => exact .short method _ _ rfl
    | requestLine _ method version =>
      exact .opened _ (.request version false) rfl
        ⟨kin, rfl, rfl, coded.head rfl, .nothing h.framing h.contentLength⟩
    | statusLine _ version status reason =>
      exact .opened _ (.response status) rfl
        ⟨kin, rfl, rfl, coded.head rfl, .nothing h.framing h.contentLength⟩

theorem andThen_events (step : Step) (next : Reader → Step) :
    ∃ more, (step.andThen next).events = step.events ++ more := by
  unfold Step.andThen
  split
  · exact ⟨[], (List.append_nil _).symm⟩
  · exact ⟨_, rfl⟩

/-- Whatever follows, what an octet tells is told first. -/
theorem run_events (inside : r.stage.inHead = true) (capacity : Nat) (b : UInt8) (rest : Bytes) :
    ∃ more, (r.run false capacity (b :: rest)).events = (r.push capacity b).events ++ more := by
  obtain ⟨settled, first⟩ := andThen_events (r.push capacity b).shut settle
  obtain ⟨later, whole⟩ := andThen_events ((r.push capacity b).shut.andThen settle)
    fun r => r.run false capacity rest
  refine ⟨settled ++ later, ?_⟩
  rw [run, advance_alone, Stage.isComplete_of_inHead inside]
  simp only [Bool.false_eq_true, if_false]
  rw [whole, first, Step.events_shut, List.append_assoc]

/-- Where the last of some octets has a start line told, the line is over there. -/
theorem Opening.run (h : r.Opening) (capacity : Nat) {start : Event}
    (quiet : (r.run false capacity bytes).events = [])
    (told : (r.run false capacity (bytes ++ [b])).events = [start])
    (known : start.head? = some head) :
    ∃ s, r.run false capacity (bytes ++ [b]) = { reader := s, events := [start] } ∧
      r.Opened b head s := by
  -- On the octets: all but the last leave the line unfinished.
  induction bytes generalizing r with
  | nil =>
    have inside := Stage.inHead_of_inStartLine h.line
    obtain ⟨more, events⟩ := run_events inside capacity b []
    rw [List.nil_append] at told ⊢
    have push := h.push capacity b
    generalize pushed : r.push capacity b = step at push events
    cases push with
    | @inside s opening kin =>
      have quiet := run_told inside pushed (ne_of_inHead (Stage.inHead_of_inStartLine opening.line))
      rw [quiet] at told
      cases told
    | fault s fault =>
      rw [run_refused inside pushed] at told
      cases told
    | short method uri rest first =>
      rw [told, first, List.cons_append, List.cons.injEq] at events
      rw [events.1] at known
      cases known
    | @opened s first head' known' opened =>
      have whole := run_told inside pushed (by rw [opened.stage]; nofun)
      rw [whole] at told
      cases told
      cases known'.symm.trans known
      exact ⟨s, whole, opened⟩
  | cons c rest ih =>
    have inside := Stage.inHead_of_inStartLine h.line
    obtain ⟨more, events⟩ := run_events inside capacity c rest
    rw [quiet] at events
    have none : (r.push capacity c).events = [] := (List.append_eq_nil_iff.mp events.symm).1
    have push := h.push capacity c
    generalize pushed : r.push capacity c = step at push none
    cases push with
    | @inside s opening kin =>
      have inside' := Stage.inHead_of_inStartLine opening.line
      have advanced := advance_of_quiet false inside inside' pushed
      rw [Reader.run, advanced, Step.quiet_andThen] at quiet
      rw [List.cons_append, Reader.run, advanced, Step.quiet_andThen] at told ⊢
      obtain ⟨t, whole, opened⟩ := ih opening quiet told
      exact ⟨t, whole, { opened with kin := kin.trans opened.kin }⟩
    | fault s fault =>
      rw [List.cons_append, run_refused inside pushed] at told
      cases told
    | short method uri rest first =>
      rw [first] at none
      cases none
    | opened start head known => cases none

theorem Opening.reset (sound : r.Sound) : r.reset.Opening :=
  ⟨sound.reset, rfl, .of_none rfl, rfl, rfl⟩

end Reader
end HttpStream
