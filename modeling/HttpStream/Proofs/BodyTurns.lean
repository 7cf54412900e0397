import HttpStream.Proofs.Arrivals
import HttpStream.Proofs.BodyFraming
import HttpStream.Proofs.Budget
import HttpStream.Proofs.Headroom
import HttpStream.Proofs.Resumption

/-! Turns in a body. Only trailers are counted there, so that a limit they keep within has no
effect: a turn comes to what its octets come to one by one without a limit. -/

set_option autoImplicit false

namespace HttpStream

open Octet

namespace Reader

variable {r s t : Reader} {b : UInt8} {capacity : Nat} {tail bytes : Bytes}
  {later : Input} {turn : Turn}

inductive BodyTurn (r : Reader) (capacity : Nat) (b : UInt8) (tail : Bytes) (later : Input) :
    Turn → Prop
  | slice {bytes : Bytes} (found : r.slice? b tail = some bytes) :
      BodyTurn r capacity b tail later
        { step := { r with afterCr := false }.deliver bytes, extra := bytes.length - 1 }
  | octet (whole : r.slice? b tail = .none)
      (open_ : (r.push capacity b).fault = none → (r.push capacity b).reader.stage ≠ .done) :
      BodyTurn r capacity b tail later { step := r.push capacity b }
  | lastLine {s : Reader} {n : Nat} (uncounted : r.stage.isCounted = false)
      (fine : (r.push capacity b).fault = none) (fresh : r.isLineRest b = false)
      (ended : (r.push capacity b).reader.stage = .done ∨
        ∃ token, (r.push capacity b).reader.stage = .trailer token)
      (taken : (r.push capacity b).reader.takeLf (tail :: later).flatten = (s, n)) :
      BodyTurn r capacity b tail later
        { step := { r.push capacity b with reader := s }, extra := n }
  | blankLine {s : Reader} {n : Nat} (counted : r.stage.isCounted = true)
      (fine : (r.push capacity b).fault = none)
      (ended : (r.push capacity b).reader.stage = .done)
      (drained : (r.push capacity b).reader.drain (tail :: later).flatten = (s, n)) :
      BodyTurn r capacity b tail later
        { step := { r.push capacity b with reader := s }, extra := n }

/-- Where a turn takes one octet only, that octet does not end the message. -/
theorem interpret_open {stage : Stage} (at_ : r.stage = stage)
    (single : stage = .untilClose ∨ (∃ remaining, stage = .content remaining) ∨
      stage = .chunkStart ∨ ∃ remaining, stage = .chunkData remaining) :
    (r.interpret capacity b).reader.stage ≠ .done := by
  rcases single with rfl | ⟨remaining, rfl⟩ | rfl | ⟨remaining, rfl⟩
  · simp [interpret, at_, Reader.deliver]
  · simp [interpret, at_, Reader.deliver]
  · simp only [interpret, at_, pushChunkStart]
    split
    · split <;> simp [Step.quiet, Step.fail]
    · simp [Step.quiet]
  · cases remaining with
    | zero =>
      simp only [interpret, at_, pushChunkStart]
      split
      · split <;> simp [Step.quiet, Step.fail]
      · simp [Step.quiet]
    | succ remaining => simp [interpret, at_, Reader.deliver]

theorem turn_body (body : r.stage.inBody = true) :
    r.BodyTurn capacity b tail later (r.turn capacity b tail later) := by
  -- Between slices an octet is read alone, and the body goes on behind it.
  have lone (none : r.slice? b tail = none) (fresh : r.isLineRest b = false)
      (single : r.stage = .untilClose ∨ (∃ remaining, r.stage = .content remaining) ∨
        r.stage = .chunkStart ∨ ∃ remaining, r.stage = .chunkData remaining) :
      r.BodyTurn capacity b tail later { step := r.push capacity b } := by
    refine .octet none fun fine => ?_
    obtain ⟨headerBytes, meaning⟩ := push_meaning fine fresh
    rw [meaning]
    exact interpret_open (r := { r with headerBytes, afterCr := false }) rfl single
  unfold turn
  split
  · next ahead => cases (Stage.inHead_of_inBody body).symm.trans (startAhead?_inHead ahead)
  · split
    · next found => exact .slice found
    · next none =>
      simp only
      split
      · next wrong => exact .octet none fun fine => by cases fine.symm.trans wrong
      · next fine =>
        split
        · next rest =>
          refine .octet none fun _ done => ?_
          rw [push_lineRest_stage capacity rest] at done
          rw [done] at body
          cases body
        · next fresh =>
          have fresh : r.isLineRest b = false := by simpa using fresh
          cases stage : r.stage with
          | untilClose | content | chunkStart | chunkData =>
            simp only [extend, stage]
            exact lone none fresh (by simp [stage])
          | chunkSize | chunkParams =>
            simp only [extend, stage]
            split
            · next done => exact .lastLine (by rw [stage]; rfl) fine fresh (.inl done) rfl
            · next token trailer =>
              exact .lastLine (by rw [stage]; rfl) fine fresh (.inr ⟨token, trailer⟩) rfl
            · next other _ => exact .octet none fun _ => other
          | trailer =>
            simp only [extend, stage]
            split
            · next done => exact .blankLine (by rw [stage]; rfl) fine done rfl
            · next other => exact .octet none fun _ => other
          | _ => simp [stage, Stage.inBody] at body

/-! Without the limit. -/

theorem isComplete_of_inBody {stage : Stage} (body : stage.inBody = true) :
    stage.isComplete = false := by
  cases stage <;> first | rfl | cases body

theorem deliver_under (r : Reader) (limit : Nat) (bytes : Bytes) :
    (r.under limit).deliver bytes = (r.deliver bytes).under limit := by
  have stage : (r.under limit).stage = r.stage := rfl
  unfold Reader.deliver
  simp only [stage]
  rfl

theorem push_free (fits : r.stage.isCounted = true → r.fits 1 = true) :
    (r.under 0).push capacity b = (r.push capacity b).under 0 := by
  have stage : (r.under 0).stage = r.stage := rfl
  have none : (r.under 0).count.limitFault? = none := rfl
  unfold push
  rw [stage, none]
  split
  · next counted =>
    rw [limitFault?_of_fits (fits counted)]
    exact accept_under (r := r.count)
  · exact accept_under

theorem slice_follows (later : Input) (found : r.slice? b tail = some bytes) :
    ((({ r with afterCr := false }.deliver bytes).under 0).shut.andThen settle).Alike false
      ((r.under 0).run false capacity (b :: (tail :: later).flatten.take (bytes.length - 1))) := by
  obtain ⟨n, short, rfl, fresh, room⟩ := slice?_eq_some found
  have size : (tail.take n).length = n := by rw [List.length_take, Nat.min_eq_left short]
  have same : (tail :: later).flatten.take ((b :: tail.take n).length - 1) = tail.take n := by
    rw [List.length_cons, size, Nat.add_sub_cancel, List.flatten_cons,
      List.take_append_of_le_length short]
  have told : (({ r with afterCr := false }.deliver (b :: tail.take n)).under 0).shut =
      { r.under 0 with afterCr := false }.deliver (b :: tail.take n) :=
    (deliver_under { r with afterCr := false } 0 (b :: tail.take n)).symm
  rw [same, told]
  exact slice_alike fresh (by rwa [size])

/-- When the message is over, what is left of its last line end is nothing to the reader. -/
theorem run_done_alike (done : r.stage = .done) (bytes : Bytes) (headerBytes : Nat)
    (afterCr : Bool) :
    (r.run false capacity bytes).Alike false (.quiet { r with headerBytes, afterCr }) := by
  rw [run_done done]
  refine ⟨rfl, rfl, ⟨rfl, fun _ counted => ?_, fun busy => ?_⟩⟩
  · have counted : r.stage.isCounted = true := counted
    rw [done] at counted
    cases counted
  · have busy : r.stage.isIdle = false := busy
    rw [done] at busy
    cases busy

theorem BodyTurn.follows (cause : r.BodyTurn capacity b tail later turn)
    (body : r.stage.inBody = true) (fits : r.stage.isCounted = true → r.fits 1 = true) :
    ((turn.step.under 0).shut.andThen settle).Alike false
      ((r.under 0).run false capacity (b :: (tail :: later).flatten.take turn.extra)) := by
  -- While there is room for the octet, a reader without a limit makes the same of it.
  have more : (r.under 0).stage.isComplete = false := isComplete_of_inBody body
  have pushed : (r.under 0).push capacity b = (r.push capacity b).under 0 := push_free fits
  have fault : ((r.under 0).push capacity b).fault = (r.push capacity b).fault := by
    rw [pushed]
    rfl
  have stage : ((r.under 0).push capacity b).reader.stage = (r.push capacity b).reader.stage := by
    rw [pushed]
    rfl
  cases cause with
  | slice found => exact slice_follows later found
  | octet =>
    rw [List.take_zero, run_singleton, advance_of_awake (wake_of_open more) more, pushed]
    exact .refl _
  | @lastLine s n uncounted fine fresh ended taken =>
    have before : ((r.under 0).push capacity b).reader.stage ≠ .content 0 := by
      rw [stage]
      rcases ended with done | ⟨token, trailer⟩ <;> simp [*]
    have free : ((r.under 0).push capacity b).reader.takeLf (tail :: later).flatten =
        (s.under 0, n) := by
      rw [pushed]
      exact (takeLf_under _).trans (by rw [taken]; rfl)
    have unlimited : ((r.under 0).push capacity b).reader.settings.headerLimit = 0 := by
      rw [pushed]
      rfl
    have goes : (((r.under 0).push capacity b).reader.run false capacity
        ((tail :: later).flatten.take n)).Alike false (.quiet (s.under 0)) :=
      takeLf_alike capacity (.inl unlimited) (fun _ => unlimited) before free
    obtain ⟨_, afterCr, rfl⟩ := takeLf_frame taken
    have alike := further_alike more (fault.trans fine) before (stage ▸ before) goes
    rw [pushed] at alike
    exact alike
  | @blankLine s n counted fine ended drained =>
    obtain ⟨_, headerBytes, afterCr, rfl⟩ := drain_frame drained
    have done : ((r.under 0).push capacity b).reader.stage = .done := stage.trans ended
    let t : Reader := { ((r.under 0).push capacity b).reader with headerBytes, afterCr }
    have alike := further_alike (t := t) more (fault.trans fine) (by simp [done])
      (by simp [t, done])
      (run_done_alike done ((tail :: later).flatten.take n) headerBytes afterCr)
    simp only [t, pushed] at alike
    exact alike

theorem BodyTurn.counts (cause : r.BodyTurn capacity b tail later turn) (sound : r.Sound)
    (open_ : turn.step.reader.stage.isComplete = false) :
    turn.step.reader.headerBytes ≤
      if r.stage.isCounted then r.headerBytes + 1 else r.headerBytes := by
  have pushed := push_headerBytes sound capacity b
  cases cause with
  | slice found =>
    show r.headerBytes ≤ _
    split <;> omega
  | octet => exact Nat.le_of_eq pushed
  | lastLine _ _ _ _ taken =>
    obtain ⟨_, afterCr, rfl⟩ := takeLf_frame taken
    exact Nat.le_of_eq pushed
  | blankLine _ _ ended drained =>
    obtain ⟨_, headerBytes, afterCr, rfl⟩ := drain_frame drained
    have open_ : (r.push capacity b).reader.stage.isComplete = false := open_
    rw [ended] at open_
    cases open_

/-! How many octets a run counts. -/

theorem headerBytes_shut (step : Step) :
    step.shut.reader.headerBytes = step.reader.headerBytes := by
  unfold Step.shut
  split <;> rfl

theorem headerBytes_settle (r : Reader) : r.settle.reader.headerBytes = r.headerBytes := by
  unfold settle
  split <;> rfl

theorem headerBytes_andThen_settle (step : Step) :
    (step.andThen settle).reader.headerBytes = step.reader.headerBytes := by
  unfold Step.andThen
  split
  · rfl
  · exact headerBytes_settle _

theorem advance_headerBytes (sound : r.Sound) (open_ : r.stage.isComplete = false) :
    (r.advance false capacity b).reader.headerBytes =
      if r.stage.isCounted then r.headerBytes + 1 else r.headerBytes := by
  rw [advance_of_awake (wake_of_open open_) open_, headerBytes_andThen_settle, headerBytes_shut,
    push_headerBytes sound]

theorem advance_headerBytes_le (sound : r.Sound) (capacity : Nat) (b : UInt8) :
    r.headerBytes ≤ (r.advance false capacity b).reader.headerBytes ∧
      (r.advance false capacity b).reader.headerBytes ≤ r.headerBytes + 1 := by
  cases complete : r.stage.isComplete with
  | true =>
    rw [advance_alone, if_pos complete]
    exact ⟨Nat.le_refl _, Nat.le_succ _⟩
  | false =>
    rw [advance_headerBytes sound complete]
    split <;> omega

theorem run_headerBytes_le (capacity : Nat) (sound : r.Sound) (bytes : Bytes) :
    r.headerBytes ≤ (r.run false capacity bytes).reader.headerBytes ∧
      (r.run false capacity bytes).reader.headerBytes ≤ r.headerBytes + bytes.length := by
  induction bytes generalizing r with
  | nil => exact ⟨Nat.le_refl _, Nat.le_refl _⟩
  | cons b rest ih =>
    obtain ⟨atLeast, atMost⟩ := advance_headerBytes_le sound capacity b
    obtain ⟨more, less⟩ := ih (sound.advance false capacity b)
    rw [run, Step.andThen, List.length_cons]
    split
    · omega
    · show r.headerBytes ≤ ((r.advance false capacity b).reader.run false capacity
          rest).reader.headerBytes ∧ ((r.advance false capacity b).reader.run false capacity
          rest).reader.headerBytes ≤ _
      omega

theorem run_append_headerBytes_le (capacity : Nat) (sound : r.Sound) (first second : Bytes) :
    (r.run false capacity first).reader.headerBytes ≤
      (r.run false capacity (first ++ second)).reader.headerBytes := by
  rw [run_append]
  unfold Step.andThen
  split
  · exact Nat.le_refl _
  · exact (run_headerBytes_le capacity (sound.run ..) second).1

end Reader
end HttpStream
