import HttpStream.Proofs.Deciding
import HttpStream.Proofs.Octetwise
import HttpStream.Proofs.Peers

/-! Octets read one by one, and with some line ends the rest of them, as far as it is at hand. What
a turn does is no more than that, so it is all that the cuts of an input can make a difference to. -/

set_option autoImplicit false

namespace HttpStream

open Octet

/-- Whether no line end goes on from the one run of octets into the other. -/
def Whole (first second : Bytes) : Prop :=
  ∀ c ∈ second.head?, isLineEnd c = true → first.getLast? ≠ some cr

instance (first second : Bytes) : Decidable (Whole first second) :=
  inferInstanceAs (Decidable (∀ c ∈ second.head?, isLineEnd c = true → first.getLast? ≠ some cr))

def Unparted : List Bytes → Prop
  | [] => True
  | piece :: rest => Whole piece rest.flatten ∧ Unparted rest

instance decidableUnparted : ∀ pieces : List Bytes, Decidable (Unparted pieces)
  | [] => .isTrue trivial
  | piece :: rest =>
    @instDecidableAnd _ _ (inferInstanceAs (Decidable (Whole piece rest.flatten)))
      (decidableUnparted rest)

theorem unparted_singleton (piece : Bytes) : Unparted [piece] := ⟨nofun, trivial⟩

namespace Stage

def drains : Stage → Stage → Bool
  | .lineStart _ _, .fieldName _ _ => false
  | .lineStart _ _, .fieldValue _ _ _ _ _ _ => false
  | .lineStart _ _, _ => true
  | .fieldName _ _, .lineStart _ _ => true
  | .fieldValue _ _ _ _ _ _, .lineStart _ _ => true
  | .trailer _, .done => true
  | _, _ => false

def takesLf : Stage → Stage → Bool
  | .chunkSize _, .done => true
  | .chunkSize _, .trailer _ => true
  | .chunkParams _, .done => true
  | .chunkParams _, .trailer _ => true
  | _, _ => false

theorem drains_plain (stage other : Stage) :
    stage.plain.drains other.plain = stage.drains other := by
  cases stage <;> cases other <;> rfl

theorem takesLf_plain (stage other : Stage) :
    stage.plain.takesLf other.plain = stage.takesLf other := by
  cases stage <;> cases other <;> rfl

end Stage

namespace Reader

variable {renew : Bool} {capacity other n : Nat} {r s t u : Reader} {b : UInt8} {bytes : Bytes}

/-- What goes with the octet `b`, which led from `r` to `step`: the reader behind it, and how many of
the octets after `b` are taken. -/
def tidied (r : Reader) (b : UInt8) (step : Step) (bytes : Bytes) : Reader × Nat :=
  if step.fault.isSome || r.isLineRest b then (step.reader, 0)
  else if r.stage.drains step.reader.stage then step.reader.drain bytes
  else if r.stage.takesLf step.reader.stage then step.reader.takeLf bytes
  else (step.reader, 0)

def plainTurn (r : Reader) (capacity : Nat) (b : UInt8) (bytes : Bytes) : Turn :=
  .further (r.push capacity b) (r.tidied b (r.push capacity b) bytes)

def neat (renew : Bool) (capacity : Nat) (r : Reader) : Bytes → Step
  | [] => .quiet r
  | b :: rest =>
    let r := r.wake renew
    if r.stage.isComplete then .quiet r
    else
      let turn := r.plainTurn capacity b rest
      (turn.step.shut.andThen settle).andThen fun s =>
        s.neat renew capacity (rest.drop turn.extra)
termination_by bytes => bytes.length
decreasing_by simp only [List.length_drop, List.length_cons]; omega

theorem neat_nil (r : Reader) : r.neat renew capacity [] = .quiet r := by rw [neat]

theorem neat_of_complete (complete : (r.wake renew).stage.isComplete = true) (b : UInt8)
    (rest : Bytes) : r.neat renew capacity (b :: rest) = .quiet (r.wake renew) := by
  rw [neat]
  simp only [complete, if_true]

theorem neat_still (complete : (r.wake renew).stage.isComplete = true) (bytes : Bytes) :
    (r.wake renew).neat renew capacity bytes = .quiet (r.wake renew) := by
  cases bytes with
  | nil => exact neat_nil _
  | cons b rest => rw [neat_of_complete (by rwa [wake_wake]), wake_wake]

theorem neat_cons (more : (r.wake renew).stage.isComplete = false) (b : UInt8) (rest : Bytes) :
    r.neat renew capacity (b :: rest) =
      let turn := (r.wake renew).plainTurn capacity b rest
      (turn.step.shut.andThen settle).andThen fun s =>
        s.neat renew capacity (rest.drop turn.extra) := by
  rw [neat]
  simp only [more, Bool.false_eq_true, if_false]

theorem tidied_frame (r : Reader) (b : UInt8) (step : Step) (bytes : Bytes) :
    (r.tidied b step bytes).2 ≤ bytes.length ∧ ∃ headerBytes afterCr,
      (r.tidied b step bytes).1 = { step.reader with headerBytes, afterCr } := by
  have nothing : (step.reader, 0).2 ≤ bytes.length ∧ ∃ headerBytes afterCr,
      (step.reader, 0).1 = { step.reader with headerBytes, afterCr } :=
    ⟨Nat.zero_le _, _, _, rfl⟩
  unfold tidied
  split
  · exact nothing
  · split
    · exact drain_frame rfl
    · split
      · obtain ⟨within, afterCr, same⟩ :=
          takeLf_frame (show step.reader.takeLf bytes = (_, _) from rfl)
        exact ⟨within, _, afterCr, same⟩
      · exact nothing

theorem tidied_of_fresh {step : Step} (fresh : step.reader.afterCr = false) :
    r.tidied b step bytes = (step.reader, 0) := by
  have drain : step.reader.drain bytes = (step.reader, 0) := by
    cases bytes with
    | nil => rfl
    | cons c rest => simp [Reader.drain, isLineRest, fresh]
  have takeLf : step.reader.takeLf bytes = (step.reader, 0) := by simp [Reader.takeLf, fresh]
  unfold tidied
  rw [drain, takeLf]
  split
  · rfl
  · split
    · rfl
    · split <;> rfl

theorem Sound.tidied (h : r.Sound) (capacity : Nat) (b : UInt8) (bytes : Bytes) :
    (r.tidied b (r.push capacity b) bytes).1.Sound := by
  obtain ⟨_, headerBytes, afterCr, same⟩ := tidied_frame r b (r.push capacity b) bytes
  rw [same]
  exact (h.push capacity b).counted headerBytes afterCr

/-! Readers that differ only in what they remember. -/

theorem Peer.wake (h : r.Peer s) (renew : Bool) : (r.wake renew).Peer (s.wake renew) := by
  simp only [Reader.wake, Bool.and_eq_true, decide_eq_true_eq, h.done]
  split
  · exact h.reset
  · exact h

theorem plainTurn_peer (h : r.Peer s) (left : r.Sound) (right : s.Sound) (bytes : Bytes) :
    (r.plainTurn capacity b bytes).Peer (s.plainTurn other b bytes) := by
  have steps : (r.push capacity b).Peer (s.push other b) := push_peer h left right
  have drains : r.stage.drains (r.push capacity b).reader.stage =
      s.stage.drains (s.push other b).reader.stage := by
    rw [← Stage.drains_plain, h.stage, steps.reader.stage, Stage.drains_plain]
  have takesLf : r.stage.takesLf (r.push capacity b).reader.stage =
      s.stage.takesLf (s.push other b).reader.stage := by
    rw [← Stage.takesLf_plain, h.stage, steps.reader.stage, Stage.takesLf_plain]
  have alone : (Turn.further (r.push capacity b) ((r.push capacity b).reader, 0)).Peer
      (.further (s.push other b) ((s.push other b).reader, 0)) :=
    further_peer steps steps.reader rfl
  unfold plainTurn tidied
  rw [steps.fault, h.isLineRest, drains, takesLf]
  split
  · exact alone
  · split
    · obtain ⟨reader, extra⟩ := drain_peer steps.reader bytes
      exact further_peer steps reader extra
    · split
      · obtain ⟨reader, extra⟩ := takeLf_peer steps.reader bytes
        exact further_peer steps reader extra
      · exact alone

end Reader

/-- The same to tell, apart from the cuts of a body, by readers that differ only in what they
remember. -/
structure Step.Matches (renew : Bool) (first second : Step) : Prop where
  events : Event.joined first.events = Event.joined second.events
  fault : first.fault = second.fault
  reader : (first.reader.wake renew).Peer (second.reader.wake renew)

namespace Step

variable {renew : Bool} {first second third : Step}

theorem Peer.matches (h : first.Peer second) (renew : Bool) : first.Matches renew second :=
  ⟨congrArg Event.joined h.events, h.fault, h.reader.wake renew⟩

theorem Peer.shut (h : first.Peer second) : first.shut.Peer second.shut := by
  unfold Step.shut
  rw [← h.fault]
  split
  · exact ⟨h.events, rfl, h.reader.enter .closed⟩
  · exact h

theorem Peer.andThen {next other : Reader → Step} (h : first.Peer second)
    (goesOn : (next first.reader).Peer (other second.reader)) :
    (first.andThen next).Peer (second.andThen other) := by
  unfold Step.andThen
  rw [← h.fault]
  split
  · exact h
  · exact ⟨by rw [h.events, goesOn.events], goesOn.fault, goesOn.reader⟩

theorem andThen_congr {step : Step} {next other : Reader → Step}
    (same : step.fault = none → next step.reader = other step.reader) :
    step.andThen next = step.andThen other := by
  unfold andThen
  split
  · rfl
  · next fine => rw [same fine]

namespace Matches

theorem refl (step : Step) : step.Matches renew step := ⟨rfl, rfl, ⟨rfl, rfl⟩⟩

theorem symm (h : first.Matches renew second) : second.Matches renew first :=
  ⟨h.events.symm, h.fault.symm, h.reader.symm⟩

theorem trans (left : first.Matches renew second) (right : second.Matches renew third) :
    first.Matches renew third :=
  ⟨left.events.trans right.events, left.fault.trans right.fault, left.reader.trans right.reader⟩

theorem andThen {next other : Reader → Step} (h : first.Matches renew second)
    (goesOn : first.fault = none →
      (next first.reader).Matches renew (other second.reader)) :
    (first.andThen next).Matches renew (second.andThen other) := by
  unfold Step.andThen
  rw [← h.fault]
  cases wrong : first.fault with
  | some fault => exact h
  | none =>
    have goesOn := goesOn wrong
    exact ⟨Event.joined_append h.events goesOn.events, goesOn.fault, goesOn.reader⟩

end Matches
end Step

namespace Reader

variable {renew : Bool} {capacity other n : Nat} {r s t u : Reader} {b : UInt8} {bytes : Bytes}

theorem settle_peer (h : r.Peer s) : r.settle.Peer s.settle := by
  have same : r.stage = .content 0 ↔ s.stage = .content 0 := by
    rw [← Stage.plain_eq_content, h.stage, Stage.plain_eq_content]
  by_cases full : r.stage = .content 0
  · simp only [settle, full, same.mp full]
    exact ⟨rfl, rfl, h.enter .done⟩
  · rw [settle_of_ne full, settle_of_ne (mt same.mpr full)]
    exact quiet_peer h

theorem Sound.plainTurn (h : r.Sound) (capacity : Nat) (b : UInt8) (bytes : Bytes) :
    ((r.plainTurn capacity b bytes).step.shut.andThen Reader.settle).reader.Sound := by
  have taken : (r.plainTurn capacity b bytes).step.reader.Sound := h.tidied capacity b bytes
  exact Step.andThen_of (P := Sound) taken.shut fun _ sound => sound.settle

theorem Sound.neat (h : r.Sound) (renew : Bool) (capacity : Nat) (bytes : Bytes) :
    (r.neat renew capacity bytes).reader.Sound := by
  fun_induction Reader.neat renew capacity r bytes with
  | case1 => exact h
  | case2 r => exact h.wake renew
  | case3 r b rest woken more turn ih =>
    exact Step.andThen_of (P := Sound) ((h.wake renew).plainTurn capacity b rest) fun s sound =>
      ih s sound

theorem neat_peer (capacity other : Nat) (bytes : Bytes) (left : r.Sound) (right : s.Sound)
    (h : (r.wake renew).Peer (s.wake renew)) :
    (r.neat renew capacity bytes).Matches renew (s.neat renew other bytes) := by
  -- On the octets left; with the first of them the same octets go along.
  induction size : bytes.length using Nat.strongRecOn generalizing r s bytes with
  | ind size ih =>
    subst size
    cases bytes with
    | nil =>
      rw [neat_nil, neat_nil]
      exact ⟨rfl, rfl, h⟩
    | cons b rest =>
      have same : (r.wake renew).stage.isComplete = (s.wake renew).stage.isComplete := by
        rw [← Stage.isComplete_plain, h.stage, Stage.isComplete_plain]
      cases complete : (r.wake renew).stage.isComplete with
      | true =>
        rw [neat_of_complete complete, neat_of_complete (same.symm.trans complete)]
        exact (quiet_peer h).matches renew
      | false =>
        rw [neat_cons complete, neat_cons (same.symm.trans complete)]
        have left' := left.wake renew
        have right' := right.wake renew
        have turns : ((r.wake renew).plainTurn capacity b rest).Peer
            ((s.wake renew).plainTurn other b rest) := plainTurn_peer h left' right' rest
        have settled := turns.step.shut.andThen (settle_peer turns.step.shut.reader)
        simp only [← turns.extra]
        refine (settled.matches renew).andThen fun _ => ?_
        refine ih _ ?_ _ (left'.plainTurn ..) (right'.plainTurn ..)
          (settled.reader.wake renew) rfl
        simp only [List.length_drop, List.length_cons]
        omega

/-! Where a line ended at a CR. -/

theorem endLine_afterCr (r : Reader) (b : UInt8) : (r.endLine b).afterCr = true → b = cr := by
  simp [endLine]

theorem endFields_afterCr (r : Reader) (head : Head) :
    (r.endFields head).reader.afterCr = r.afterCr := by
  rcases r.endFields_cases head with fault | ⟨stage, more, body, _⟩
  · rw [fault]
    rfl
  · rw [body]

theorem interpret_afterCr (fresh : r.afterCr = false)
    (after : (r.interpret capacity b).reader.afterCr = true) : b = cr := by
  have stays {s : Reader} {P : Prop} (same : s.afterCr = r.afterCr) (after : s.afterCr = true) :
      P := by
    rw [same, fresh] at after
    cases after
  -- Ends of lines apart, no stage sets the mark.
  cases stage : r.stage with
  | lineStart head pending =>
    simp only [interpret, stage, pushLineStart] at after
    split at after
    · split at after <;> exact stays rfl after
    · split at after
      · exact stays rfl after
      · next flushed =>
        obtain ⟨⟨framing, contentLength, cache, rfl, _⟩, _⟩ := flush_ok flushed
        split at after
        · rw [endFields_afterCr] at after
          exact endLine_afterCr _ b after
        · exact stays rfl after
  | chunkData remaining =>
    cases remaining with
    | zero =>
      simp only [interpret, stage, pushChunkStart] at after
      repeat' split at after
      all_goals first | exact stays rfl after | exact endLine_afterCr _ b after
    | succ remaining =>
      simp only [interpret, stage] at after
      exact stays rfl after
  | _ =>
    simp only [interpret, stage, pushStart, pushMethod, pushBeforeUri, pushUri, pushAfterUri,
      pushRequestVersion, pushResponseVersion, pushBeforeStatus, pushStatus, pushAfterStatus,
      pushReason, pushFieldName, pushFieldValue, pushChunkStart, pushChunkSize, pushChunkParams,
      pushTrailer, endChunkLine, shortRequest, requestLine, statusLine] at after
    repeat' split at after
    all_goals first | exact stays rfl after | exact endLine_afterCr r b after

theorem accept_afterCr (after : (r.accept capacity b).reader.afterCr = true) : b = cr := by
  unfold accept at after
  split at after
  · exact endLine_afterCr r b after
  · exact interpret_afterCr (r := { r with afterCr := false }) rfl after

/-- An octet that shows nothing to be wrong notes a line end at a CR only. -/
theorem push_afterCr (fine : (r.push capacity b).fault = none)
    (after : (r.push capacity b).reader.afterCr = true) : b = cr := by
  unfold push at fine after
  split at after
  · next counted =>
    split at after
    · next wrong => simp [counted, wrong, Step.fail] at fine
    · exact accept_afterCr after
  · exact accept_afterCr after

/-! Octets in two parts. -/

theorem drain_append {xs ys : Bytes} (whole : Whole (b :: xs) ys)
    (noted : s.afterCr = true → b = cr) : s.drain (xs ++ ys) = s.drain xs := by
  induction xs generalizing s b with
  | nil =>
    cases ys with
    | nil => rfl
    | cons c rest =>
      have other : s.isLineRest c = false := by
        refine Bool.eq_false_iff.mpr fun goes => ?_
        obtain ⟨afterCr, ended⟩ : s.afterCr = true ∧ isLineEnd c = true := by
          simpa [isLineRest] using goes
        exact whole c rfl ended (by simp [noted afterCr])
      simp [drain, other]
  | cons c rest ih =>
    simp only [List.cons_append, drain]
    split
    · have later : Whole (c :: rest) ys := by simpa [Whole] using whole
      rw [ih later (endLine_afterCr s.count c)]
    · rfl

theorem takeLf_append {xs ys : Bytes} (whole : Whole (b :: xs) ys)
    (noted : s.afterCr = true → b = cr) : s.takeLf (xs ++ ys) = s.takeLf xs := by
  cases xs with
  | cons c rest => rfl
  | nil =>
    have other : ¬(s.afterCr = true ∧ ys.head? = some lf) := fun ⟨afterCr, front⟩ =>
      whole lf front rfl (by simp [noted afterCr])
    simp [takeLf, other]

theorem plainTurn_append {xs ys : Bytes} (whole : Whole (b :: xs) ys) :
    r.plainTurn capacity b (xs ++ ys) = r.plainTurn capacity b xs := by
  have same : r.tidied b (r.push capacity b) (xs ++ ys) =
      r.tidied b (r.push capacity b) xs := by
    unfold tidied
    cases wrong : (r.push capacity b).fault with
    | some fault => rfl
    | none =>
      have noted : (r.push capacity b).reader.afterCr = true → b = cr := push_afterCr wrong
      rw [drain_append whole noted, takeLf_append whole noted]
  rw [plainTurn, same]
  rfl

/-- Octets that part no line end may come one after the other. -/
theorem neat_append (renew : Bool) (capacity : Nat) (r : Reader) (first : Bytes) {second : Bytes}
    (whole : Whole first second) :
    r.neat renew capacity (first ++ second) =
      (r.neat renew capacity first).andThen fun s => s.neat renew capacity second := by
  -- On the length, as a turn may take several octets of the front.
  induction size : first.length using Nat.strongRecOn generalizing r first with
  | ind size ih =>
    subst size
    cases first with
    | nil => rw [List.nil_append, neat_nil, Step.quiet_andThen]
    | cons b rest =>
      cases complete : (r.wake renew).stage.isComplete with
      | true =>
        rw [List.cons_append, neat_of_complete complete, neat_of_complete complete,
          Step.quiet_andThen, neat_still complete]
      | false =>
        have within : ((r.wake renew).plainTurn capacity b rest).extra ≤ rest.length :=
          (tidied_frame ..).1
        rw [List.cons_append, neat_cons complete, neat_cons complete]
        simp only [plainTurn_append whole, List.drop_append_of_le_length within]
        generalize Step.andThen _ settle = head
        rw [Step.andThen_andThen]
        refine Step.andThen_congr fun _ => ?_
        refine ih _ ?_ _ (rest.drop _) ?_ rfl
        · simp only [List.length_drop, List.length_cons]
          omega
        · intro c front ended last
          refine whole c front ended ?_
          rw [List.getLast?_drop] at last
          split at last
          · cases last
          · rw [List.getLast?_cons, last]
            rfl

/-- Reads pieces one after the other in such turns, which take no octets of the next piece. -/
def neatly (renew : Bool) (capacity : Nat) (r : Reader) : List Bytes → Step
  | [] => .quiet r
  | piece :: pieces =>
    (r.neat renew capacity piece).andThen fun s => s.neatly renew capacity pieces

theorem neatly_of_unparted {pieces : List Bytes} (unparted : Unparted pieces) :
    r.neatly renew capacity pieces = r.neat renew capacity pieces.flatten := by
  induction pieces generalizing r with
  | nil => exact (neat_nil r).symm
  | cons piece pieces ih =>
    rw [neatly, List.flatten_cons, neat_append _ _ _ _ unparted.1]
    exact Step.andThen_congr fun _ => ih unparted.2

theorem neatly_peer (capacity other : Nat) (pieces : List Bytes) (left : r.Sound) (right : s.Sound)
    (h : (r.wake renew).Peer (s.wake renew)) :
    (r.neatly renew capacity pieces).Matches renew (s.neatly renew other pieces) := by
  induction pieces generalizing r s with
  | nil => exact ⟨rfl, rfl, h⟩
  | cons piece pieces ih =>
    have first := neat_peer capacity other piece left right h
    exact first.andThen fun _ =>
      ih (left.neat renew capacity piece) (right.neat renew other piece) first.reader

end Reader
end HttpStream
