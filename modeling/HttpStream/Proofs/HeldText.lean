import HttpStream.Proofs.Counting
import HttpStream.Proofs.Instants

/-! The text of a message is paid for octet by octet: what a reader holds of it, and what it has
told, is never more than the octets that it has counted. -/

set_option autoImplicit false

namespace HttpStream

open Octet

def Field.waiting (pending : Option Field) : Nat :=
  pending.elim 0 fun field => field.name.length + field.value.length

@[simp] theorem Field.waiting_none : waiting none = 0 := rfl

@[simp] theorem Field.waiting_some (field : Field) :
    waiting (some field) = field.name.length + field.value.length := rfl

def Stage.held : Stage → Nat
  | .method token | .requestVersion _ token | .responseVersion token | .reason _ _ token
  | .fieldName _ token | .trailer token => token.toList.length
  | .lineStart _ pending => Field.waiting pending
  | .fieldValue _ _ name token _ _ => name.length + token.toList.length
  | _ => 0

/-- The text that a stage may come to hold without another octet: the first octet of a continuation
line pays for the space that joins the line. -/
def Stage.charge (stage : Stage) : Nat :=
  stage.held + match stage with
    | .fieldValue _ _ _ _ folding _ => folding.toNat
    | _ => 0

/-- The characters of the text that is told with an event, the request target apart. -/
def Event.text : Event → Nat
  | .statusLine _ _ reason => (reason.getD []).length
  | .header name value | .trailer name value => name.length + value.length
  | _ => 0

def Event.textOf : List Event → Nat
  | [] => 0
  | event :: rest => event.text + textOf rest

theorem Event.textOf_append (events more : List Event) :
    textOf (events ++ more) = textOf events + textOf more := by
  induction events with
  | nil => exact (Nat.zero_add _).symm
  | cons event rest ih => rw [List.cons_append, textOf, textOf, ih, Nat.add_assoc]

theorem Stage.held_le_charge (stage : Stage) : stage.held ≤ stage.charge := Nat.le_add_right _ _

theorem Stage.charge_plain (stage : Stage) : stage.plain.charge = stage.charge := by
  cases stage with
  | lineStart head pending => cases pending <;> rfl
  | _ => rfl

theorem Stage.charge_of_uncounted {stage : Stage} (uncounted : stage.isCounted = false) :
    stage.charge = 0 := by
  cases stage <;> first | rfl | cases uncounted

theorem Text.length_trim (text : Text) : (trim text).length ≤ text.length := by
  rw [trim, trimRight, List.length_reverse]
  have right := (List.dropWhile_suffix isSpace (l := (text.dropWhile isSpace).reverse)).length_le
  have left := (List.dropWhile_suffix isSpace (l := text)).length_le
  rw [List.length_reverse] at right
  omega

theorem Snoc.length_trimmed {α : Type} (s : Snoc α) (drop : α → Bool) :
    (s.trimmed drop).length ≤ s.toList.length := by
  rw [trimmed, toList, List.length_reverse, List.length_reverse]
  exact (List.dropWhile_suffix _).length_le

namespace Reader

def weight (r : Reader) : Nat := r.uri.length + r.stage.charge

end Reader

def Step.weight (step : Step) : Nat := step.reader.weight + Event.textOf step.events

namespace Reader

variable {r s t : Reader} {b : UInt8} {capacity m n : Nat} {bytes : Bytes} {turn : Turn}
  {head after : Head} {pending : Option Field} {events : List Event}

/-- What the second reader answers for, and what was told on the way, the first one answered for or
it was paid for by octets that were counted. -/
structure Pays (r s : Reader) (text : Nat) : Prop where
  counts : r.headerBytes ≤ s.headerBytes
  pays : s.weight + text + r.headerBytes ≤ r.weight + s.headerBytes

theorem Pays.refl (r : Reader) : r.Pays r 0 := ⟨Nat.le_refl _, Nat.le_refl _⟩

theorem Pays.trans (first : r.Pays s m) (second : s.Pays t n) : r.Pays t (m + n) := by
  obtain ⟨counts, pays⟩ := first
  obtain ⟨counts', pays'⟩ := second
  constructor <;> omega

/-! What steps weigh. -/

@[simp] theorem uri_enter (r : Reader) (stage : Stage) : (r.enter stage).uri = r.uri := rfl

@[simp] theorem uri_endLine (r : Reader) (b : UInt8) : (r.endLine b).uri = r.uri := rfl

@[simp] theorem weight_enter (r : Reader) (stage : Stage) :
    (r.enter stage).weight = r.uri.length + stage.charge := rfl

@[simp] theorem weight_endLine (r : Reader) (b : UInt8) : (r.endLine b).weight = r.weight := rfl

@[simp] theorem weight_quiet (r : Reader) : (Step.quiet r).weight = r.weight := rfl

@[simp] theorem weight_fail (r : Reader) (fault : Fault) : (Step.fail r fault).weight = r.weight :=
  rfl

@[simp] theorem weight_shortRequest (r : Reader) (method : Method) (b : UInt8) :
    (r.shortRequest method b).weight = r.uri.length := rfl

@[simp] theorem weight_requestLine (r : Reader) (capacity : Nat) (method : Method)
    (version : Version) (b : UInt8) :
    (r.requestLine capacity method version b).weight = r.uri.length := rfl

@[simp] theorem weight_statusLine (r : Reader) (version : Version) (status : Nat)
    (reason : Option Text) (b : UInt8) : (r.statusLine version status reason b).weight =
      r.uri.length + (reason.getD []).length := by
  simp [Step.weight, statusLine, weight, uri, Stage.charge, Stage.held, Event.textOf, Event.text,
    enter, endLine]

theorem weight_flush {flushed : Reader}
    (delivered : r.flush head pending = .ok (flushed, after, events)) :
    flushed.uri = r.uri ∧ Event.textOf events = Field.waiting pending := by
  obtain ⟨⟨framing, contentLength, cache, rfl, _⟩, _, _, delivery⟩ := flush_ok delivered
  refine ⟨rfl, ?_⟩
  cases delivery <;> simp [Event.textOf, Event.text]

theorem weight_endFields (fine : (r.endFields head).fault = none) :
    (r.endFields head).weight = r.uri.length := by
  have blank := r.endFields_blank head
  generalize r.endFields head = step at blank fine
  cases blank with
  | fault => cases fine
  | body _ stage _ uncounted =>
    exact congrArg (r.uri.length + ·) (Stage.charge_of_uncounted uncounted)
  | finished => rfl

theorem endFields_of_fault (wrong : (r.endFields head).fault ≠ none) :
    ∃ fault, r.endFields head = .fail r fault := by
  have blank := r.endFields_blank head
  generalize r.endFields head = step at blank wrong
  cases blank with
  | fault fault => exact ⟨fault, rfl⟩
  | body => exact absurd rfl wrong
  | finished => exact absurd rfl wrong

/-! One octet. -/

theorem startLine_weight (line : r.stage.inStartLine = true) :
    (r.interpret capacity b).weight ≤ r.weight + 1 := by
  cases stage : r.stage with
  | reason version status token =>
    have trimmed := token.length_trimmed Text.isBlank
    simp only [interpret, stage, pushReason]
    split <;> simp [weight, stage, Stage.charge, Stage.held] <;> omega
  | start | method | beforeUri | uri | afterUri | requestVersion | responseVersion
  | beforeStatus | status | afterStatus =>
    simp only [interpret, stage, pushStart, pushMethod, pushBeforeUri, pushUri, pushAfterUri,
      pushRequestVersion, pushResponseVersion, pushBeforeStatus, pushStatus, pushAfterStatus]
    -- Each stage keeps its text, lets go of it, or takes in the one octet.
    repeat' split
    all_goals simp [weight, stage, uri, enter, Stage.charge, Stage.held]
    all_goals omega
  | _ => simp [stage, Stage.inStartLine] at line

/-- The first octet of a line continues the field that waits, or has it told; where the line is
blank the message may still be found to be bad. -/
theorem lineStart_weight (stage : r.stage = .lineStart head pending) :
    ((r.pushLineStart head pending b).fault = none →
      (r.pushLineStart head pending b).weight ≤ r.weight + 1) ∧
    ((r.pushLineStart head pending b).fault ≠ none →
      (r.pushLineStart head pending b).reader.uri = r.uri ∧
        r.uri.length + Event.textOf (r.pushLineStart head pending b).events ≤ r.weight) := by
  have held : r.weight = r.uri.length + Field.waiting pending := by
    rw [weight, stage]
    rfl
  have faulty : r.uri.length + Event.textOf [] ≤ r.weight := Nat.le_add_right _ _
  -- The pending text is continued, or told if the field is right, or neither if it is refused.
  unfold pushLineStart
  split
  · cases pending with
    | none => exact ⟨nofun, fun _ => ⟨rfl, faulty⟩⟩
    | some field =>
      refine ⟨fun _ => ?_, fun wrong => absurd rfl wrong⟩
      simp [Stage.charge, Stage.held, held]
      omega
  · cases delivered : r.flush head pending with
    | error => exact ⟨nofun, fun _ => ⟨rfl, faulty⟩⟩
    | ok result =>
      obtain ⟨flushed, after, events⟩ := result
      obtain ⟨uri, text⟩ := weight_flush delivered
      simp only
      split
      · have told : Event.textOf (events ++ ((flushed.endLine b).endFields after).events) =
            Field.waiting pending + Event.textOf ((flushed.endLine b).endFields after).events := by
          rw [Event.textOf_append, text]
        constructor
        · intro fine
          have blank := weight_endFields fine
          simp only [Step.weight, uri_endLine, uri] at blank ⊢
          omega
        · intro wrong
          obtain ⟨fault, failed⟩ := endFields_of_fault wrong
          rw [failed] at told ⊢
          exact ⟨uri, Nat.le_of_eq (by rw [told, held]; rfl)⟩
      · refine ⟨fun _ => ?_, fun wrong => absurd rfl wrong⟩
        simp [Step.weight, uri, text, held, Stage.charge, Stage.held]
        omega

theorem fieldValue_weight {standard : Option StandardName} {name : Text} {token : Snoc Char}
    {folding recognized : Bool}
    (stage : r.stage = .fieldValue head standard name token folding recognized) :
    (r.pushFieldValue head standard name token folding recognized b).weight ≤ r.weight + 1 := by
  have trimmed := token.length_trimmed Text.isBlank
  have held : r.weight = r.uri.length + (name.length + token.toList.length + folding.toNat) := by
    rw [weight, stage]
    rfl
  unfold pushFieldValue
  split
  · simp [Stage.charge, Stage.held]
    omega
  · split
    · split
      · exact Nat.le_succ _
      · simp [Stage.charge, Stage.held]
        omega
    · -- The space that joins a continuation was paid for by the octet that began it.
      cases folding with
      | true =>
        split <;> simp [Stage.charge, Stage.held] at held ⊢ <;> omega
      | false =>
        simp [Stage.charge, Stage.held] at held ⊢
        omega

theorem fields_weight (line : r.stage.inFields = true)
    (fine : (r.interpret capacity b).fault = none) :
    (r.interpret capacity b).weight ≤ r.weight + 1 := by
  cases stage : r.stage with
  | lineStart head pending =>
    simp only [interpret, stage] at fine ⊢
    exact (lineStart_weight stage).1 fine
  | fieldName head token =>
    have trimmed := token.length_trimmed Text.isBlank
    simp only [interpret, stage, pushFieldName]
    repeat' split
    all_goals simp [weight, stage, Stage.charge, Stage.held]
    all_goals omega
  | fieldValue =>
    simp only [interpret, stage]
    exact fieldValue_weight stage
  | _ => simp [stage, Stage.inFields] at line

theorem trailerField_length (line : Text) :
    (trailerField line).1.length + (trailerField line).2.length ≤ line.length := by
  have name := Text.length_trim (line.takeWhile (· != ':'))
  have value := Text.length_trim (line.drop ((line.takeWhile (· != ':')).length + 1))
  have front := (List.takeWhile_prefix (p := (· != ':')) (l := line)).length_le
  rw [List.length_drop] at value
  simp only [trailerField]
  omega

theorem trailer_weight {token : Snoc Char} (stage : r.stage = .trailer token) :
    (r.pushTrailer token b).weight ≤ r.weight + 1 := by
  have parts := trailerField_length token.toList
  have held : r.weight = r.uri.length + token.toList.length := by
    rw [weight, stage]
    rfl
  unfold pushTrailer
  split
  · simp [Stage.charge, Stage.held, held]
    omega
  · split
    · simp [Step.weight, Stage.charge, Stage.held, Event.textOf, Event.text, held]
      omega
    · simp [Step.weight, Stage.charge, Stage.held, Event.textOf, Event.text, held]
      omega

theorem deliver_weight (uncounted : r.stage.isCounted = false) (bytes : Bytes) :
    (r.deliver bytes).weight = r.weight := by
  have inside : (r.deliver bytes).reader.stage.isCounted = false := by
    cases stage : r.stage <;> simp_all [deliver, Stage.isCounted, Stage.inHead]
  have light : (r.deliver bytes).weight = r.uri.length + (r.deliver bytes).reader.stage.charge := rfl
  rw [light, weight, Stage.charge_of_uncounted inside, Stage.charge_of_uncounted uncounted]

theorem uncounted_weight (uncounted : r.stage.isCounted = false) (body : r.stage.inBody = true) :
    (r.interpret capacity b).weight ≤ r.weight := by
  have step : r.BodyStep b (r.interpret capacity b) := interpret_body body
  generalize r.interpret capacity b = step at step ⊢
  have light {stage : Stage} (same : stage.isCounted = r.stage.isCounted) : stage.charge = 0 :=
    Stage.charge_of_uncounted (same.trans uncounted)
  cases step with
  | slice => exact Nat.le_of_eq (deliver_weight uncounted [b])
  | inside stage ended _ same =>
    have weight : (Step.quiet { r.enter stage with afterCr := ended }).weight =
        r.uri.length + stage.charge := rfl
    rw [weight, light same]
    exact Nat.le_add_right _ _
  | fault stage _ same =>
    rw [weight_fail, weight_enter, light same]
    exact Nat.le_add_right _ _
  | trailers => exact Nat.le_add_right _ _
  | finished => exact Nat.le_add_right _ _
  | trailer counted => simp [uncounted] at counted

/-- What an octet means costs one character of text at most, and none where it is not counted. -/
theorem interpret_weight (fine : (r.interpret capacity b).fault = none) :
    (r.interpret capacity b).weight ≤ r.weight + if r.stage.isCounted then 1 else 0 := by
  rcases part_cases r.stage with line | line | body | finished
  · rw [Stage.isCounted_of_inHead (Stage.inHead_of_inStartLine line)]
    exact startLine_weight line
  · rw [Stage.isCounted_of_inHead (Stage.inHead_of_inFields line)]
    exact fields_weight line fine
  · cases counted : r.stage.isCounted with
    | false => exact uncounted_weight counted body
    | true =>
      obtain ⟨token, stage⟩ : ∃ token, r.stage = .trailer token := by
        cases stage : r.stage <;> simp [stage, Stage.isCounted, Stage.inHead, Stage.inBody] at *
      simp only [interpret, stage]
      exact trailer_weight stage
  · have quiet : r.interpret capacity b = .quiet r := by
      rcases finished with stage | stage <;> simp only [interpret, stage]
    rw [quiet]
    exact Nat.le_add_right _ _

theorem fieldName_fine (r : Reader) (head : Head) (token : Snoc Char) (b : UInt8) :
    (r.pushFieldName head token b).fault = none := by
  unfold pushFieldName
  split
  · rfl
  · split <;> rfl

theorem fieldValue_fine (r : Reader) (head : Head) (standard : Option StandardName) (name : Text)
    (token : Snoc Char) (folding recognized : Bool) (b : UInt8) :
    (r.pushFieldValue head standard name token folding recognized b).fault = none := by
  unfold pushFieldValue
  split
  · rfl
  · split
    · split <;> rfl
    · rfl

/-- What was told where something shows to be wrong was held before. -/
theorem interpret_fault_weight (wrong : (r.interpret capacity b).fault ≠ none) (sound : r.Sound) :
    (r.interpret capacity b).reader.uri = r.uri ∧
      r.uri.length + Event.textOf (r.interpret capacity b).events ≤ r.weight := by
  have faulty : r.uri.length + Event.textOf [] ≤ r.weight := Nat.le_add_right _ _
  rcases part_cases r.stage with line | line | body | finished
  · have step : r.StartLineStep capacity b (r.interpret capacity b) :=
      interpret_startLine sound line
    generalize r.interpret capacity b = step at step wrong
    cases step with
    | fault => exact ⟨rfl, faulty⟩
    | inside | shortRequest | requestLine | statusLine => exact absurd rfl wrong
  · cases stage : r.stage with
    | lineStart head pending =>
      simp only [interpret, stage] at wrong ⊢
      exact (lineStart_weight stage).2 wrong
    | fieldName head token =>
      simp only [interpret, stage] at wrong
      exact absurd (fieldName_fine r head token b) wrong
    | fieldValue head standard name token folding recognized =>
      simp only [interpret, stage] at wrong
      exact absurd (fieldValue_fine r head standard name token folding recognized b) wrong
    | _ => simp [stage, Stage.inFields] at line
  · have step : r.BodyStep b (r.interpret capacity b) := interpret_body body
    generalize r.interpret capacity b = step at step wrong
    cases step with
    | fault => exact ⟨rfl, faulty⟩
    | slice | inside | trailers | finished | trailer => exact absurd rfl wrong
  · have quiet : r.interpret capacity b = .quiet r := by
      rcases finished with stage | stage <;> simp only [interpret, stage]
    rw [quiet] at wrong
    exact absurd rfl wrong

/-- An octet exceeds the limit, ends the line before it, or has a meaning of its own. -/
theorem push_forms (r : Reader) (capacity : Nat) (b : UInt8) :
    (∃ fault, r.push capacity b = .fail r.count fault) ∨
      (∃ headerBytes afterCr, r.push capacity b = .quiet { r with headerBytes, afterCr }) ∨
      ∃ headerBytes, r.push capacity b =
        { r with headerBytes, afterCr := false }.interpret capacity b := by
  have accepted (headerBytes : Nat) :
      (∃ afterCr,
          { r with headerBytes }.accept capacity b = .quiet { r with headerBytes, afterCr }) ∨
        { r with headerBytes }.accept capacity b =
          { r with headerBytes, afterCr := false }.interpret capacity b := by
    unfold accept
    split
    · exact .inl ⟨_, rfl⟩
    · exact .inr rfl
  unfold push
  split
  · split
    · exact .inl ⟨_, rfl⟩
    · exact .inr ((accepted (r.headerBytes + 1)).imp (fun rest => ⟨_, rest⟩) fun own => ⟨_, own⟩)
  · exact .inr ((accepted r.headerBytes).imp (fun rest => ⟨_, rest⟩) fun own => ⟨_, own⟩)

theorem push_pays (sound : r.Sound) (fine : (r.push capacity b).fault = none) :
    r.Pays (r.push capacity b).reader (Event.textOf (r.push capacity b).events) := by
  have count := push_headerBytes sound capacity b
  have weight : (r.push capacity b).weight ≤ r.weight + if r.stage.isCounted then 1 else 0 := by
    rcases push_forms r capacity b with ⟨fault, same⟩ | ⟨_, _, same⟩ | ⟨headerBytes, same⟩
    · rw [same] at fine
      cases fine
    · rw [same]
      exact Nat.le_add_right _ _
    · rw [same] at fine ⊢
      exact interpret_weight fine
  rw [Step.weight] at weight
  cases counted : r.stage.isCounted with
  | true =>
    rw [counted, if_pos rfl] at count weight
    constructor <;> omega
  | false =>
    rw [counted, if_neg Bool.false_ne_true] at count weight
    constructor <;> omega

theorem push_fault_weight (sound : r.Sound) {fault : Fault}
    (wrong : (r.push capacity b).fault = some fault) :
    (r.push capacity b).reader.uri = r.uri ∧
      r.uri.length + Event.textOf (r.push capacity b).events ≤ r.weight := by
  rcases push_forms r capacity b with ⟨fault, same⟩ | ⟨_, _, same⟩ | ⟨headerBytes, same⟩
  · rw [same]
    exact ⟨rfl, Nat.le_add_right _ _⟩
  · rw [same] at wrong
    cases wrong
  · rw [same] at wrong ⊢
    exact interpret_fault_weight (by rw [wrong]; nofun) (sound.counted headerBytes false)

/-! A turn. -/

theorem Noted.weight (noted : r.Noted s) : s.weight = r.weight ∧ s.headerBytes = r.headerBytes := by
  obtain ⟨stage, rfl, plain⟩ := noted
  refine ⟨?_, rfl⟩
  rw [weight_enter, Reader.weight, ← Stage.charge_plain, plain, Stage.charge_plain]

theorem Noted.pays (noted : r.Noted s) : r.Pays s 0 := by
  obtain ⟨weight, count⟩ := noted.weight
  constructor <;> omega

theorem Glides.pays (glides : Glides capacity r bytes s) (sound : r.Sound) : r.Pays s 0 := by
  induction glides with
  | nil => exact .refl _
  | @cons r _ _ b _ _ _ _ quiet _ ih =>
    have next := sound.push capacity b
    have first : r.Pays (r.push capacity b).reader _ := push_pays sound (by rw [quiet]; rfl)
    rw [quiet] at next first
    exact first.trans (ih next)

theorem drain_pays {bytes : Bytes} (drained : r.drain bytes = (s, n)) : r.Pays s 0 := by
  induction bytes generalizing r s n with
  | nil =>
    cases drained
    exact .refl _
  | cons b rest ih =>
    unfold drain at drained
    split at drained
    · obtain ⟨t, m, later⟩ : ∃ t m, (r.count.endLine b).drain rest = (t, m) := ⟨_, _, rfl⟩
      rw [later] at drained
      cases drained
      have first : r.Pays (r.count.endLine b) 0 :=
        ⟨Nat.le_succ _, Nat.add_le_add_left (Nat.le_succ _) _⟩
      exact first.trans (ih later)
    · cases drained
      exact .refl _

theorem TurnCase.pays (cause : r.TurnCase capacity b bytes turn) (sound : r.Sound)
    (fine : turn.step.fault = none) :
    r.Pays turn.step.reader (Event.textOf turn.step.events) := by
  have next := sound.push capacity b
  cases cause with
  | octet => exact push_pays sound fine
  | known _ _ glides => exact glides.pays sound
  | @slice n _ _ room =>
    have weight := deliver_weight (r := { r with afterCr := false }) (inBody_of_room room).2.1
      (b :: bytes.take n)
    exact ⟨Nat.le_refl _, Nat.add_le_add_right (Nat.le_of_eq weight) _⟩
  | onward fine _ _ glides noted =>
    exact ((push_pays sound fine).trans (glides.pays next)).trans noted.pays
  | @line s t n ending quiet _ glides _ fine =>
    have first : r.Pays (r.push capacity b).reader _ := push_pays sound (by rw [quiet]; rfl)
    rw [quiet] at next first
    have all := (first.trans (glides.pays next)).trans (push_pays (glides.sound next) fine)
    simpa [Step.quiet, Event.textOf] using all
  | lineEnd fine _ drained => exact (push_pays sound fine).trans (drain_pays drained)
  | chunkEnd fine _ _ taken =>
    obtain ⟨_, afterCr, rfl⟩ := takeLf_frame taken
    have first := push_pays sound fine
    exact ⟨first.counts, first.pays⟩

theorem CutShort.textOf (cut : r.CutShort events) : Event.textOf events = 0 := by
  rcases cut.events with rfl | rfl <;> rfl

theorem textOf_parting (r : Reader) : Event.textOf r.parting = 0 := by
  rcases r.parting_cases with none | cut
  · rw [none]
    rfl
  · exact cut.textOf

/-! At every instant. -/

/-- The text of a message, held or told: all of it was counted, and so it is within the limit. -/
structure Covers (r : Reader) (told : List Event) : Prop where
  counted : r.stage ≠ .closed → r.weight + Event.textOf told ≤ r.headerBytes ∧ r.InBudget
  limited : ∀ limit ∈ r.settings.limit?, r.weight + Event.textOf told ≤ limit

variable {told : List Event}

theorem Covers.nothing (none : r.weight = 0) (within : r.InBudget) : r.Covers [] := by
  have nothing : r.weight + Event.textOf [] = 0 := none
  refine ⟨fun _ => ⟨?_, within⟩, fun _ _ => ?_⟩
  · rw [nothing]
    exact Nat.zero_le _
  · rw [nothing]
    exact Nat.zero_le _

theorem Covers.of_counted (counted : r.weight + Event.textOf told ≤ r.headerBytes)
    (within : r.InBudget) : r.Covers told :=
  ⟨fun _ => ⟨counted, within⟩, fun limit bounded => Nat.le_trans counted (within limit bounded)⟩

theorem Covers.shut (covers : r.Covers told) (closed : s.stage = .closed)
    (settings : s.settings = r.settings)
    (light : s.uri.length + Event.textOf events ≤ r.weight) : s.Covers (told ++ events) := by
  refine ⟨fun open_ => absurd closed open_, fun limit bounded => ?_⟩
  have weight : s.weight = s.uri.length := by
    rw [Reader.weight, closed]
    rfl
  have limited := covers.limited limit (settings ▸ bounded)
  rw [weight, Event.textOf_append]
  omega

end Reader

namespace Instant

variable {σ : Type} {listener : Listener σ} {now next : Instant σ}

theorem Follows.covers (follows : Follows listener now next) (sound : now.reader.Sound)
    (covers : now.reader.Covers now.told) : next.reader.Covers next.told := by
  -- A turn is paid for by the octets it counts; all else tells no more than was held.
  have light : now.reader.uri.length ≤ now.reader.weight := Nat.le_add_right _ _
  cases follows with
  | @turn b tail later reads turn taken fine =>
    have cause := Reader.turn_cause sound taken
    obtain ⟨paid, within⟩ := covers.counted reads.notClosed
    obtain ⟨counts, pays⟩ := cause.pays sound fine
    rw [told_tells]
    refine .of_counted ?_ (cause.inBudget sound within fine)
    rw [Event.textOf_append]
    simp only [tells]
    omega
  | @refused b tail later reads turn taken fault wrong =>
    have cause := Reader.turn_cause sound taken
    have kin := cause.kin sound
    obtain rfl := cause.of_fault wrong
    obtain ⟨uri, held⟩ := Reader.push_fault_weight sound wrong
    rw [told_rejects, told_tells]
    refine covers.shut rfl kin.settings ?_
    simp only [rejects, tells, Reader.uri_enter, uri]
    exact held
  | completed full =>
    obtain ⟨paid, within⟩ := covers.counted (by simp [full])
    rw [told_tells]
    refine .of_counted (Nat.le_trans ?_ paid) within
    rw [Event.textOf_append]
    exact Nat.add_le_add_right light _
  | shutdown =>
    rw [told_tells]
    rcases now.reader.ended_cases with quiet | ⟨shut, cut⟩
    · rw [quiet]
      simpa [tells, Step.quiet] using covers
    · refine covers.shut (congrArg Reader.stage shut) now.reader.kin_ended.settings ?_
      rw [cut.textOf]
      simp only [tells, shut, Reader.uri_enter]
      exact light
  | close =>
    rw [told_tells]
    refine covers.shut rfl rfl ?_
    rw [now.reader.textOf_parting]
    exact light
  | reset => exact .nothing rfl fun _ _ => Nat.zero_le _
  | headResponse value => exact ⟨covers.counted, covers.limited⟩

/-- At every instant of a connection with a limit, whoever listens and whatever is asked of it: the
octets of the request target, the characters of what was told of the message, its reason, fields and
trailers, and of what its reader still holds, are together no more than the limit. -/
theorem text_within_limit (mode : Mode) (settings : Settings) (listener : Listener σ) (state : σ)
    {limit : Nat} (bounded : limit ∈ settings.limit?) :
    (∀ now, (fresh mode settings state).Reaches listener now →
      now.reader.uri.length + Event.textOf now.told + now.reader.stage.held ≤ limit) ∧
    ∀ calls,
      let last := (fresh mode settings state).through listener calls
      (fresh mode settings state).Reaches listener last ∧
        last.reader = (Reader.through { mode, settings } listener state calls).1 ∧
        last.log = Reader.log { mode, settings } listener state [] calls := by
  refine ⟨fun now reaches => ?_, reaches_last mode settings listener state⟩
  have sound : (fresh mode settings state).reader.Sound := .fresh mode settings
  have start : (fresh mode settings state).reader.Covers [] := .nothing rfl fun _ _ => Nat.zero_le _
  obtain ⟨covers, same⟩ := reaches.keeps (P := fun now =>
    now.reader.Covers now.told ∧ now.reader.settings = settings) sound ⟨start, rfl⟩
    fun sound follows kept => ⟨follows.covers sound kept.1,
      (follows.connection sound).2.trans kept.2⟩
  have limited := covers.limited limit (same ▸ bounded)
  have held := now.reader.stage.held_le_charge
  rw [Reader.weight] at limited
  omega

/-- In the middle of a continuation line, behind a field that was told and another one that waits. -/
theorem text_within_limit_of_fold :
    let settings : Settings := { headerLimit := 50 }
    let last := (fresh .request settings {}).through (Recorder.listener {})
      [.read [Text.toBytes "GET /p HTTP/1.1\r\nHost: h\r\nA: b\r\n\tc d".toList]]
    50 ∈ settings.limit? ∧ Event.textOf last.told = 5 ∧ last.reader.stage.held = 6 ∧
      last.reader.uri.length + Event.textOf last.told + last.reader.stage.held ≤ 50 := by
  intro settings last
  obtain ⟨bound, runs⟩ := text_within_limit .request settings (Recorder.listener {}) {}
    (show 50 ∈ settings.limit? by decide)
  exact ⟨by decide, by decide +kernel, by decide +kernel, bound last (runs _).1⟩

end Instant
end HttpStream
