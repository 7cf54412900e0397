import HttpStream.Proofs.ChunkedBodies

/-! Readings of bodies in chunks, in any fragments: their data is told, then their trailers, and
what comes after the message is left. -/

set_option autoImplicit false

namespace HttpStream

open Octet

namespace Reader

variable {r s t : Reader} {capacity n : Nat}

/-! Where the message ends. -/

theorem run_append_done {first : Bytes}
    (done : (r.run false capacity first).reader.stage = .done) (second : Bytes) :
    (r.run false capacity (first ++ second)).reader.stage = .done := by
  rw [run_append]
  unfold Step.andThen
  split
  · exact done
  · dsimp only
    rw [run_done done]
    exact done

structure EndsAfter (r : Reader) (front : Bytes) (b : UInt8) : Prop where
  busy : (r.run false 0 front).reader.stage ≠ .done
  done : (r.run false 0 (front ++ [b])).reader.stage = .done

theorem EndsAfter.done_iff {front rest : Bytes} {b : UInt8} (h : r.EndsAfter front b) (n : Nat) :
    (r.run false 0 ((front ++ b :: rest).take n)).reader.stage = .done ↔ front.length + 1 ≤ n := by
  constructor
  · intro done
    refine Nat.lt_of_not_le fun early => h.busy ?_
    rw [List.take_append_of_le_length early] at done
    have whole := run_append_done done (front.drop n)
    rwa [List.take_append_drop] at whole
  · intro late
    have split : (front ++ b :: rest).take n =
        front ++ [b] ++ rest.take (n - (front.length + 1)) := by
      have whole : front ++ b :: rest = (front ++ [b]) ++ rest := by simp
      rw [whole, List.take_append, List.take_of_length_le (by simpa using late)]
      simp
    rw [split]
    exact run_append_done h.done _

theorem push_ends {b : UInt8} (body : r.stage.inBody = true) (uncounted : r.stage.isCounted = false)
    (fresh : r.isLineRest b = false) (done : (r.push capacity b).reader.stage = .done) :
    (r.push capacity b).reader.afterCr = (b == cr) := by
  have meaning : r.push capacity b = { r with afterCr := false }.interpret capacity b :=
    push_uncounted uncounted fresh
  rw [meaning] at done ⊢
  have never (single : r.stage = .untilClose ∨ (∃ remaining, r.stage = .content remaining) ∨
      r.stage = .chunkStart ∨ ∃ remaining, r.stage = .chunkData remaining) : False :=
    interpret_open (r := { r with afterCr := false }) rfl single done
  -- While nothing is counted, only the last chunk line ends a message.
  cases stage : r.stage with
  | untilClose | content | chunkStart | chunkData => exact (never (by simp [stage])).elim
  | chunkSize size =>
    simp only [interpret, stage, pushChunkSize] at done ⊢
    split
    · rw [endChunkLine_eq]
      rfl
    · next plain =>
      rw [if_neg plain] at done
      split at done
      · cases done
      · split at done
        · split at done <;> cases done
        · simp [Step.fail] at done
  | chunkParams size =>
    simp only [interpret, stage, pushChunkParams] at done ⊢
    split
    · rw [endChunkLine_eq]
      rfl
    · next plain =>
      rw [if_neg plain] at done
      simp [Step.quiet] at done
  | trailer => simp [stage, Stage.isCounted, Stage.inHead] at uncounted
  | _ => simp [stage, Stage.inBody] at body

/-- What came with some arrival, or was there at first, ends with these octets. -/
def CutBehind (octets : Bytes) (input : Input) (arrivals : List Input) : Prop :=
  ∃ first second, arrivals = first ++ second ∧ (input ++ first.flatten).flatten = octets

/-- On the way to the end of the last chunk line: a message that is over took the LF of that line
too, unless the line was cut ahead of it. -/
structure Nears (r : Reader) (whole : Input) (front : Bytes) (cut : Prop) (n : Nat) (s : Reader)
    (recorder : Recorder) : Prop where
  follows : r.Follows (whole.flatten.take n) s recorder
  framed : s.Framed
  chunked : s.framing = .chunked
  place : s.stage = .done → n = front.length + 2 ∨ n = front.length + 1 ∧ cut

section Ending

variable {whole : Input} {front after : Bytes} {b : UInt8} {tail : Bytes} {later more : Input}
  {recorder : Recorder} {turn : Turn}

/-- Octets with a CR and a LF after the front: where one of them and what is taken with it lead past
the front, that one is the CR, and the LF is taken with it if it is there. -/
theorem takeLf_past {octets arrived rest : Bytes} {k : Nat}
    (whole : octets = front ++ cr :: lf :: after) (here : octets.drop n = b :: (arrived ++ rest))
    (early : n < front.length + 1) (noted : s.afterCr = (b == cr))
    (taken : s.takeLf arrived = (t, k)) (past : front.length + 1 ≤ n + 1 + k) :
    n = front.length ∧ (k = 1 ∨ k = 0 ∧ arrived = []) := by
  have next : octets.drop (n + 1) = arrived ++ rest := by
    rw [← List.drop_drop, here]
    rfl
  have isCr : octets.drop front.length = cr :: lf :: after := by rw [whole, List.drop_left]
  have isLf : octets.drop (front.length + 1) = lf :: after := by
    rw [← List.drop_drop, isCr]
    rfl
  unfold takeLf at taken
  split at taken
  · next goes =>
    obtain rfl : 1 = k := congrArg Prod.snd taken
    -- The octet that was taken is a LF, and the one ahead of the last LF is a CR.
    refine ⟨(Nat.lt_or_eq_of_le (Nat.le_of_lt_succ early)).resolve_left fun less => ?_, .inl rfl⟩
    have second : front.length = n + 1 := by omega
    rw [← second, isCr] at next
    cases arrived with
    | nil => simp at goes
    | cons x arrived =>
      cases (List.cons.inj next).1
      exact absurd (Option.some.inj goes.2) (by decide)
  · next stays =>
    obtain rfl : 0 = k := congrArg Prod.snd taken
    obtain rfl : n = front.length := by omega
    refine ⟨rfl, .inr ⟨rfl, ?_⟩⟩
    rw [isCr] at here
    cases (List.cons.inj here).1
    rw [isLf] at next
    cases arrived with
    | nil => rfl
    | cons x arrived =>
      cases (List.cons.inj next).1
      exact absurd ⟨noted, rfl⟩ stays

theorem Follows.ends (h : r.Follows (whole.flatten.take n) s recorder) (reads : s.Reads)
    (untrailed : s.stage.isCounted = false)
    (cause : s.BodyTurn capacity b tail later turn) (fine : turn.step.fault = none)
    (done : turn.step.reader.stage = .done) (ends : (r.under 0).EndsAfter front cr)
    (octets : whole.flatten = front ++ cr :: lf :: after)
    (found : (whole.drop n).next? = some (b, tail, later ++ more))
    (past : front.length + 1 ≤ n + 1 + turn.extra) :
    n = front.length ∧ (turn.extra = 1 ∨ turn.extra = 0 ∧ (tail :: later).flatten = []) := by
  have early : n < front.length + 1 := by
    refine Nat.lt_of_not_le fun late => reads.notDone ?_
    rw [← h.stage_eq reads.notFull, octets]
    exact (ends.done_iff n).mpr late
  have here : whole.flatten.drop n = b :: ((tail :: later).flatten ++ more.flatten) := by
    rw [← Input.flatten_drop, Input.flatten_of_next? found]
    simp
  have body := h.inBody reads
  cases cause with
  | @slice bytes slice =>
    have inBody := deliver_inBody (r := { s with afterCr := false }) body bytes
    rw [done] at inBody
    cases inBody
  | octet _ open_ => exact absurd done (open_ fine)
  | lastLine _ right fresh _ taken =>
    have ended : (s.push capacity b).reader.stage = .done := by
      rw [← takeLf_stage _ (tail :: later).flatten, taken]
      exact done
    exact takeLf_past octets here early (push_ends body untrailed fresh ended) taken past
  | blankLine counted => cases untrailed.symm.trans counted

end Ending

theorem Follows.uncounted {octets : Bytes} {recorder : Recorder}
    (h : r.Follows octets s recorder) (sound : r.Sound) (outside : r.stage.inHead = false)
    (uncounted : r.stage.isCounted = false) (trailers : r.settings.trailers = false)
    (waits : s.stage ≠ .content 0) : s.stage.isCounted = false := by
  have unbounded : (r.under 0).Unbounded :=
    ⟨sound.under 0, rfl, trailers, uncounted.trans outside.symm⟩
  have untrailed := (unbounded.run 0 octets).untrailed
  rw [h.stage_eq waits] at untrailed
  exact untrailed.trans h.outside

theorem nears_carries (memoryCapacity : Option Nat) {input : Input} {arrivals : List Input}
    {front after : Bytes} (sound : r.Sound) (outside : r.stage.inHead = false)
    (uncounted : r.stage.isCounted = false) (trailers : r.settings.trailers = false)
    (ends : (r.under 0).EndsAfter front cr)
    (octets : (input ++ arrivals.flatten).flatten = front ++ cr :: lf :: after)
    (budget : r.Budgeted (input ++ arrivals.flatten).flatten) :
    Carries (.patient memoryCapacity) (input ++ arrivals.flatten)
      (fun more => ∃ k, more = (arrivals.drop k).flatten)
      (r.Nears (input ++ arrivals.flatten) front (CutBehind (front ++ [cr]) input arrivals)) where
  turned {n s recorder b tail later more} h here reads cuts found := by
    intro turn heard
    have case : s.TurnCase _ b (tail :: later).flatten turn := turn_cases here
    have cause : s.BodyTurn _ b tail later turn := turn_body (h.follows.inBody reads)
    have keeps : s.Keeps turn.step.reader := case.keepsFraming here ⟨h.follows.outside, rfl, rfl⟩
    have framed : turn.step.reader.Framed := case.framed here h.framed reads.notFull
    have chunked : turn.step.reader.framing = .chunked := keeps.framing.trans h.chunked
    have follows := (follows_carries memoryCapacity (fun _ => True) sound budget).turned h.follows
      here reads trivial found
    refine ⟨fun fine => ⟨follows.1 fine, framed, chunked, fun done => ?_⟩, fun fault wrong =>
      ⟨follows.2 fault wrong, framed.finish (.inr rfl), chunked, nofun⟩⟩
    have untrailed := h.follows.uncounted sound outside uncounted trailers reads.notFull
    have past : front.length + 1 ≤ n + 1 + turn.extra := by
      have stage := (follows.1 fine).stage_eq (by rw [done]; nofun)
      rw [done, octets] at stage
      exact (ends.done_iff _).mp stage
    obtain ⟨rfl, both | ⟨alone, last⟩⟩ :=
      h.follows.ends reads untrailed cause fine done ends octets found past
    · exact .inl (by rw [both])
    · -- The CR is the last octet that has arrived.
      obtain ⟨k, rfl⟩ := cuts
      refine .inr ⟨by rw [alone], arrivals.take k, arrivals.drop k,
        (List.take_append_drop k arrivals).symm, ?_⟩
      have left : (input ++ arrivals.flatten).flatten.drop front.length =
          b :: (arrivals.drop k).flatten.flatten := by
        rw [← Input.flatten_drop, Input.flatten_of_next? found, ← List.cons_append,
          List.flatten_append, last, List.nil_append]
      rw [octets, List.drop_left] at left
      have split : (input ++ (arrivals.take k).flatten).flatten ++
          (arrivals.drop k).flatten.flatten =
            front ++ [cr] ++ (arrivals.drop k).flatten.flatten := by
        rw [← List.flatten_append, List.append_assoc, ← List.flatten_append,
          List.take_append_drop, octets, (List.cons.inj left).2]
        simp
      exact List.append_cancel_right split
  completed {n s recorder} h full := by
    have framing := h.framed.framing .contentLength (by rw [full]; rfl)
    cases framing.symm.trans h.chunked

/-! What a reading leaves. -/

section Leaves

variable {input : Input} {arrivals : List Input} (memoryCapacity : Option Nat) (sound : r.Sound)
  (outside : r.stage.inHead = false) (waits : r.stage ≠ .content 0)
include sound outside waits

variable {front after : Bytes} (framed : r.Framed) (chunked : r.framing = .chunked)
  (busy : r.stage ≠ .done) (uncounted : r.stage.isCounted = false)
  (trailers : r.settings.trailers = false) (ends : (r.under 0).EndsAfter front cr)

include ends in
/-- A reading of all the octets at which the message ends leaves nothing. -/
theorem readAll_ends (octets : (input ++ arrivals.flatten).flatten = front ++ [cr])
    (budget : r.Budgeted (front ++ [cr])) :
    let reading := r.readAll (.patient memoryCapacity) {} input arrivals
    reading.reader.stage = .done ∧ reading.rest.flatten = [] := by
  intro reading
  have budget : r.Budgeted (input ++ arrivals.flatten).flatten := octets ▸ budget
  have done : reading.reader.stage = .done := by
    have alike := readAll_follows memoryCapacity input arrivals sound outside waits budget
    rw [octets] at alike
    have ended := ends.done
    exact (Twin.stage_eq alike.reader (by
      show ((r.under 0).run false 0 (front ++ [cr])).reader.stage.inHead = false
      rw [ended]
      rfl)).trans ended
  obtain ⟨n, follows, remains⟩ := (follows_carries memoryCapacity (fun _ => True) sound
    budget).reaches sound (fun _ => trivial) (.start outside waits)
  have remains := remains.resolve_left fun closed => by cases done.symm.trans closed
  have stage := follows.stage_eq (by rw [done]; nofun)
  rw [done, octets] at stage
  have late := (ends.done_iff n).mp stage
  refine ⟨done, ?_⟩
  rw [remains.flatten, octets]
  exact List.drop_eq_nil_of_le (by simpa using late)

include framed chunked busy uncounted trailers ends in
/-- What comes after the message is left, and with it the LF of the last chunk line if it had not
arrived with its CR. -/
theorem readAll_leaves
    (octets : (input ++ arrivals.flatten).flatten = front ++ cr :: lf :: after)
    (budget : r.Budgeted (input ++ arrivals.flatten).flatten) :
    let reading := r.readAll (.patient memoryCapacity) {} input arrivals
    reading.reader.stage = .done →
      (CutBehind (front ++ [cr]) input arrivals → reading.rest.flatten = lf :: after) ∧
      (¬CutBehind (front ++ [cr]) input arrivals → reading.rest.flatten = after) := by
  intro reading done
  refine ⟨fun ⟨first, second, split, before⟩ => ?_, fun whole => ?_⟩
  · -- The message ends with what had arrived then, and the rest is not looked at.
    subst split
    have later : second.flatten.flatten = lf :: after := by
      have both : (input ++ first.flatten).flatten ++ second.flatten.flatten =
          front ++ [cr] ++ lf :: after := by
        rw [← List.flatten_append, List.append_assoc, ← List.flatten_append, octets]
        simp
      rw [before] at both
      exact List.append_cancel_left both
    cases second with
    | nil => cases later
    | cons arrival second =>
      have budget : r.Budgeted (front ++ [cr]) := by
        rw [octets, List.append_cons] at budget
        exact budget.of_append sound
      obtain ⟨ended, none⟩ :=
        readAll_ends memoryCapacity sound outside waits ends before budget
      have rest : reading.rest = (r.readAll (.patient memoryCapacity) {} input first).rest ++
          arrival ++ second.flatten := by
        simp only [reading]
        rw [readAll_append, readAll_done ended]
      rw [rest, List.append_assoc, List.flatten_append, none, List.nil_append]
      exact later
  · obtain ⟨n, nears, remains⟩ := (nears_carries memoryCapacity sound outside uncounted trailers
      ends octets budget).reaches sound (fun k => ⟨k, rfl⟩)
      ⟨.start outside waits, framed, chunked, fun done => absurd done busy⟩
    have remains := remains.resolve_left fun closed => by cases done.symm.trans closed
    obtain rfl | ⟨_, cut⟩ := nears.place done
    · rw [remains.flatten, octets, ← List.drop_drop, List.drop_left]
      rfl
    · exact absurd cut whole

end Leaves

variable {σ : Type}

/-- A body in chunks in any fragments, on a connection with any past, and with any white space and
line ends left ahead of it. Its data is told in slices and counted. Without trailers the message is
over at the last chunk line and what comes after that line is left; with them each line is told, and
the message is over at the blank line. -/
theorem readAll_chunked (mode : Mode) (settings : Settings) (early : Listener σ) (state : σ)
    (before : List Call) (m : Moment) (memoryCapacity : Option Nat) (lead : Bytes)
    (body : WrittenBody) (after : Bytes) (arrivals : List Input)
    (reached : m ∈ Moment.answers { reader := { mode, settings } } early state before)
    (at_ : m.reader.stage = .chunkStart) (hidden : lead.any isVisible = false)
    (arrived : (m.input ++ arrivals.flatten).flatten = lead ++ body.wire ++ after) :
    let reading := m.reader.readAll (Recorder.listener { memoryCapacity }) {} m.input arrivals
    let cut := CutBehind (lead ++ body.front ++ [cr]) m.input arrivals
    (m.reader.settings.trailers = false →
      reading.reader.stage = .done ∧
      reading.reader.contentRead = m.reader.contentRead + body.data.length ∧
      (∃ slices : List Bytes,
        reading.state = { events := slices.map .content ++ [.messageComplete] } ∧
        slices.flatten = body.data) ∧
      (cut → reading.rest.flatten = lf :: after) ∧ (¬cut → reading.rest.flatten = after)) ∧
    (m.reader.settings.trailers = true →
      ∀ (lines : List TrailerLine) (blank : LineEnd) (more : Bytes),
        after = lines.flatMap (·.wire) ++ blank.wire ++ more →
        (m.reader.settings.headerLimit = 0 ∨
          m.reader.headerBytes + (lines.flatMap (·.wire)).length + 2 ≤
            m.reader.settings.headerLimit) →
        reading.reader.stage = .done ∧
        reading.reader.contentRead = m.reader.contentRead + body.data.length ∧
        ∃ slices : List Bytes,
          reading.state = { events := slices.map .content ++
            (lines.map (·.event) ++ [.messageComplete]) } ∧
          slices.flatten = body.data) := by
  intro reading cut
  obtain ⟨_, good⟩ := Moment.good_of_answers reached
  have outside : m.reader.stage.inHead = false := by rw [at_]; rfl
  have uncounted : m.reader.stage.isCounted = false := by rw [at_]; rfl
  have waits : m.reader.stage ≠ .content 0 := by rw [at_]; nofun
  have busy : m.reader.stage ≠ .done := by rw [at_]; nofun
  have chunked : m.reader.framing = .chunked := good.framed.framing .chunked (by rw [at_]; rfl)
  obtain ⟨stage, last, front⟩ :=
    unchunks_front (r := m.reader.under 0) 0 at_ hidden body
  let s : Reader := (m.reader.under 0).grown body.data.length
  have octets : (m.input ++ arrivals.flatten).flatten =
      lead ++ body.front ++ cr :: lf :: after := by
    rw [arrived, WrittenBody.wire]
    simp
  -- Without trailers the message ends at the CR of the last chunk line, with them at a blank line.
  refine ⟨fun trailers => ?_, fun trailers lines blank more written budget => ?_⟩
  · have final (rest : Bytes) := last.run_last (r := s) 0 trailers rest
    have ends : (m.reader.under 0).EndsAfter (lead ++ body.front) cr := by
      refine ⟨?_, ?_⟩
      · rw [front.reader]
        cases last <;> nofun
      · rw [front.run_append, final]
        rfl
    have within := (good.inBudget (by rw [at_]; nofun)).within
    obtain ⟨done, count, told⟩ := readAll_unchunks memoryCapacity good.sound outside waits front
      (final (lf :: after)) (by simp) rfl octets within
    have budget : m.reader.Budgeted (m.input ++ arrivals.flatten).flatten := by
      rw [Budgeted, octets, front.run_append, final]
      exact within
    exact ⟨done, count, told, readAll_leaves memoryCapacity good.sound outside waits good.framed
      chunked busy uncounted trailers ends octets budget done⟩
  · have sound : (s.amid stage false).Sound := by
      rw [← front.reader]
      exact (good.sound.under 0).run false 0 _
    obtain ⟨t, done, count, counted, final⟩ :=
      last.run_lastTrailed (r := s) 0 rfl trailers sound lines blank more
    rw [← written] at final
    obtain ⟨stage, content, told⟩ := readAll_unchunks memoryCapacity good.sound outside waits front
      final (by simp [TrailerLine.event]) (by rw [done]; rfl) octets
      (budget.imp_right (Nat.le_trans counted))
    exact ⟨stage.trans done, content.trans count, told⟩

/-- A chunk that is a line end, cut inside it and inside all lines; first without trailers, where
the last chunk line is cut ahead of its LF, and then with one. -/
theorem readAll_chunked_of_cuts :
    let calls : List Call :=
      [.read [Text.toBytes "HTTP/1.1 200 OK\nTransfer-Encoding: chunked\n\r".toList], .read [[lf]]]
    let moments (trailers : Bool) := Moment.answers
      { reader := { mode := .response, settings := { trailers := trailers } } }
      (Recorder.listener {}) {} calls
    let chunk : WrittenChunk := ⟨Text.toBytes "02".toList,
      ⟨Text.toBytes ";x".toList, rfl, by decide +kernel⟩, ⟨1⟩, [cr, lf], ⟨0⟩, by decide +kernel,
      by decide, by decide⟩
    let body : WrittenBody := ⟨[chunk], 1, ⟨[], rfl, nofun⟩⟩
    let line : TrailerLine := ⟨Text.toBytes "a".toList, some (Text.toBytes " b:".toList), ⟨0⟩,
      by decide +kernel, by decide +kernel, by decide +kernel⟩
    let after : Bytes := [line].flatMap (·.wire) ++ LineEnd.wire ⟨0⟩ ++ []
    let arrivals : List Input := [[Text.toBytes "02;".toList],
      [Text.toBytes "x\r".toList, [lf, cr]], [[lf, lf, 0x30]], [Text.toBytes "0\r".toList],
      [[lf], Text.toBytes "a: b:\n\n".toList]]
    let reading (m : Moment) := m.reader.readAll (Recorder.listener {}) {} m.input arrivals
    (∃ m ∈ moments false, m.reader.stage = .chunkStart ∧
      (m.input ++ arrivals.flatten).flatten = [lf] ++ body.wire ++ after ∧
      (reading m).reader.stage = .done ∧
      (∃ slices : List Bytes,
        (reading m).state = { events := slices.map .content ++ [.messageComplete] } ∧
        slices.flatten = [cr, lf]) ∧
      (reading m).rest.flatten = lf :: after) ∧
    ∃ m ∈ moments true, m.reader.stage = .chunkStart ∧
      (m.input ++ arrivals.flatten).flatten = [lf] ++ body.wire ++ after ∧
      (reading m).reader.stage = .done ∧
      ∃ slices : List Bytes,
        (reading m).state = { events := slices.map .content ++
          [.trailer "a".toList "b:".toList, .messageComplete] } ∧
        slices.flatten = [cr, lf] := by
  intro calls moments chunk body line after arrivals reading
  have at_ (trailers : Bool) : (moments trailers)[12]?.map (fun m =>
      (m.reader.stage, m.reader.settings, m.reader.headerBytes, m.input)) =
      some (.chunkStart, { trailers := trailers }, 44, [[lf]]) := by
    cases trailers <;> decide +kernel
  have event : line.event = .trailer "a".toList "b:".toList := by decide +kernel
  have octets : ([[lf]] ++ arrivals.flatten).flatten = [lf] ++ body.wire ++ after := by
    decide +kernel
  refine ⟨?_, ?_⟩
  · obtain ⟨m, found, same⟩ := Option.map_eq_some_iff.mp (at_ false)
    simp only [Prod.mk.injEq] at same
    obtain ⟨stage, settings, _, input⟩ := same
    have member : m ∈ moments false := List.mem_of_getElem? found
    have arrived : (m.input ++ arrivals.flatten).flatten = [lf] ++ body.wire ++ after := by
      rw [input, octets]
    -- The fourth arrival ends between the CR and the LF of the last chunk line.
    have cut : CutBehind ([lf] ++ body.front ++ [cr]) m.input arrivals :=
      ⟨arrivals.take 4, arrivals.drop 4, rfl, by rw [input]; decide +kernel⟩
    obtain ⟨done, _, told, left, _⟩ := (readAll_chunked .response { trailers := false }
      (Recorder.listener {}) {} calls m none [lf] body after arrivals member stage (by decide)
      arrived).1 (by rw [settings])
    exact ⟨m, member, stage, arrived, done, told, left cut⟩
  · obtain ⟨m, found, same⟩ := Option.map_eq_some_iff.mp (at_ true)
    simp only [Prod.mk.injEq] at same
    obtain ⟨stage, settings, counted, input⟩ := same
    have member : m ∈ moments true := List.mem_of_getElem? found
    have arrived : (m.input ++ arrivals.flatten).flatten = [lf] ++ body.wire ++ after := by
      rw [input, octets]
    obtain ⟨done, _, slices, told, same⟩ := (readAll_chunked .response { trailers := true }
      (Recorder.listener {}) {} calls m none [lf] body after arrivals member stage (by decide)
      arrived).2 (by rw [settings]) [line] ⟨0⟩ [] rfl
      (.inr (by rw [settings, counted]; decide +kernel))
    refine ⟨m, member, stage, arrived, done, slices, ?_, same⟩
    rw [told, List.map_singleton, event]
    rfl

end Reader
end HttpStream
