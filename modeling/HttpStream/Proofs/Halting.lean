import HttpStream.Proofs.Pipeline

/-! Every call comes to an end, and it ends for lack of octets only where nothing is left. A loop is
run here pass by pass, so that the number of its passes can be told. -/

set_option autoImplicit false

namespace HttpStream

section Passes

variable {α β : Type} {body : α → β ⊕ α}

/-- What a loop answers within so many passes. Its body answers, or tells where the next pass
begins. -/
def within (body : α → β ⊕ α) : Nat → α → Option β
  | 0, _ => none
  | passes + 1, a =>
    match body a with
    | .inl answer => some answer
    | .inr next => within body passes next

/-- A loop whose passes bring a measure down answers within as many passes as it measures. -/
theorem within_of_decreasing {loop : α → β} {measure : α → Nat}
    (answers : ∀ a answer, body a = .inl answer → loop a = answer)
    (onward : ∀ a next, body a = .inr next → loop a = loop next ∧ measure next < measure a)
    {passes : Nat} {a : α} (enough : measure a < passes) :
    within body passes a = some (loop a) := by
  induction passes generalizing a with
  | zero => exact absurd enough (Nat.not_lt_zero _)
  | succ passes ih =>
    rw [within]
    cases pass : body a with
    | inl answer => rw [answers a answer pass]
    | inr next =>
      obtain ⟨same, less⟩ := onward a next pass
      rw [same]
      exact ih (Nat.lt_of_lt_of_le less (Nat.le_of_lt_succ enough))

end Passes

theorem Input.size_of_next?_none {input : Input} (h : input.next? = none) : input.size = 0 := by
  fun_induction next? input with
  | case1 => rfl
  | case2 later ih => simpa using ih h
  | case3 => cases h

namespace Reader

variable {σ : Type}

def pass (listener : Listener σ) : Reader × σ × Input → Reading σ ⊕ Reader × σ × Input
  | (r, state, input) =>
    match r.stage with
    | .done => .inl ⟨r, state, false, input⟩
    | .closed => .inl ⟨r, state, false, []⟩
    | .content 0 =>
      let (state, stop) := listener.notify state .messageComplete
      .inl ⟨r.enter .done, state, stop, input⟩
    | _ =>
      match input.next? with
      | none => .inl ⟨r, state, false, input⟩
      | some (b, tail, later) =>
        let turn := r.turn (r.capacityFor listener state) b tail later
        let (state, stop) := listener.hear state turn.step.events
        match turn.step.fault with
        | some fault => .inl ⟨turn.step.reader.enter .closed, listener.reject state fault, true, []⟩
        | none =>
          let rest := Input.drop turn.extra (tail :: later)
          if stop then .inl ⟨turn.step.reader, state, true, rest⟩
          else .inr (turn.step.reader, state, rest)

variable (r : Reader) (listener : Listener σ) (state : σ) (input : Input)

/-- A pass ends the reading, or leaves fewer octets to another one that comes to the same. -/
theorem pass_cases :
    pass listener (r, state, input) = .inl (r.read listener state input) ∨
      ∃ s after rest, pass listener (r, state, input) = .inr (s, after, rest) ∧
        r.read listener state input = s.read listener after rest ∧ rest.size < input.size := by
  fun_cases read r listener state input with
  | case1 stage => exact .inl (by simp only [pass, stage])
  | case2 stage => exact .inl (by simp only [pass, stage])
  | case3 stage after stop notified => exact .inl (by simp only [pass, stage, notified])
  | case4 none busy open_ partial_ => exact .inl (by simp only [pass, none])
  | case5 b tail later found turn after stop heard fault wrong busy open_ partial_ =>
    exact .inl (by simp only [pass, found, turn, heard, wrong] at heard wrong ⊢)
  | case6 b tail later found turn after fine rest busy open_ partial_ heard =>
    exact .inl (by simp only [pass, found, turn, heard, fine, if_true] at heard fine ⊢; rfl)
  | case7 b tail later found turn after stop heard fine rest going busy open_ partial_ =>
    refine .inr ⟨turn.step.reader, after, rest, ?_, rfl, Input.size_drop_lt _ found⟩
    simp only [pass, found, turn, heard, fine, going] at heard fine ⊢
    rfl

theorem read_within :
    within (pass listener) (input.size + 1) (r, state, input) =
      some (r.read listener state input) := by
  refine @within_of_decreasing _ _ (pass listener) (fun a => a.1.read listener a.2.1 a.2.2)
    (fun a => a.2.2.size) ?_ ?_ _ _ (Nat.lt_succ_self _)
  · rintro ⟨r, state, input⟩ reading stops
    rcases pass_cases r listener state input with same | ⟨s, after, rest, onward, _⟩
    · exact Sum.inl.inj (same.symm.trans stops)
    · cases onward.symm.trans stops
  · rintro ⟨r, state, input⟩ next onward
    rcases pass_cases r listener state input with stops | ⟨s, after, rest, same, reads, less⟩
    · cases stops.symm.trans onward
    · cases same.symm.trans onward
      exact ⟨reads, less⟩

theorem read_unstopped (going : (r.read listener state input).stopped = false) :
    (r.read listener state input).rest.size = 0 ∨
      (r.read listener state input).reader.stage = .done := by
  fun_induction read r listener state input with
  | case1 r state input stage => exact .inr stage
  | case2 => exact .inl rfl
  | case3 => exact .inr rfl
  | case4 r state input none => exact .inl (Input.size_of_next?_none none)
  | case5 => cases going
  | case6 => cases going
  | case7 r state input b tail later found turn after stop heard fine rest _ _ _ _ ih =>
    exact ih going

theorem read_unmoved (some : 0 < input.size)
    (still : (r.read listener state input).rest.size = input.size) :
    (r.read listener state input).reader.stage = .done := by
  revert still
  fun_cases read r listener state input with
  | case1 stage => exact fun _ => stage
  | case2 => exact fun still => absurd still (Nat.ne_of_lt some)
  | case3 => exact fun _ => rfl
  | case4 none => exact absurd (Input.size_of_next?_none none) (Nat.ne_of_gt some)
  | case5 => exact fun still => absurd still (Nat.ne_of_lt some)
  | case6 b tail later found =>
    exact fun still => absurd still (Nat.ne_of_lt (Input.size_drop_lt _ found))
  | case7 b tail later found =>
    intro still
    exact absurd still (Nat.ne_of_lt (Nat.lt_of_le_of_lt (read_size_le ..)
      (Input.size_drop_lt _ found)))

end Reader

namespace EventStream

/-- One pass of a request for an event: what is recorded answers it, or what is there is read. There
is nothing to answer if that took no octet and recorded nothing. -/
def pass : EventStream × Bytes → Draw ⊕ EventStream × Bytes
  | (s, source) =>
    match s.take? with
    | some (answer, s) => .inl ⟨answer.map some, s, source⟩
    | none =>
      let reading := s.read source
      let rest := reading.rest.flatten
      if rest.length = source.length ∧ reading.state.isEmpty then
        .inl ⟨.ok none, ⟨reading.reader, reading.state⟩, rest⟩
      else .inr (⟨reading.reader, reading.state⟩, rest)

def measure (s : EventStream) (source : Bytes) : Nat :=
  2 * source.length + if s.recorder.isEmpty then 1 else 0

theorem isEmpty_iff_take? {s : EventStream} : s.recorder.isEmpty = true ↔ s.take? = none := by
  obtain ⟨reader, events, fault⟩ := s
  cases events <;> cases fault <;> simp [take?, Recorder.isEmpty]

theorem next_of_take? {s t : EventStream} {answer : Except StreamError Event} (source : Bytes)
    (found : s.take? = some (answer, t)) : s.next source = ⟨answer.map some, t, source⟩ := by
  rw [next, found]

variable (s : EventStream) (source : Bytes)

theorem pass_cases :
    pass (s, source) = .inl (s.next source) ∨
      ∃ t rest, pass (s, source) = .inr (t, rest) ∧ s.next source = t.next rest ∧
        t.measure rest < s.measure source := by
  have fewer := s.read_rest_le source
  fun_cases next s source with
  | case1 answer t found => exact .inl (by simp only [pass, found])
  | case2 none reading t rest less =>
    -- Octets were taken, and each of them outweighs what the recorder counts for.
    refine .inr ⟨t, rest, ?_, rfl, ?_⟩
    · have moved : ¬(rest.length = source.length ∧ reading.state.isEmpty = true) :=
        fun still => absurd still.1 (Nat.ne_of_lt less)
      simp only [pass, none]
      rw [if_neg moved]
    · have waits := isEmpty_iff_take?.mpr none
      simp only [measure, waits, if_true]
      split <;> omega
  | case3 none reading t rest notLess answer u found =>
    -- No octet was taken, but now there is something to answer with.
    have same : rest.length = source.length := Nat.le_antisymm fewer (Nat.le_of_not_lt notLess)
    have told : t.recorder.isEmpty = false := by
      rw [← Bool.not_eq_true, isEmpty_iff_take?, found]
      exact nofun
    refine .inr ⟨t, rest, ?_, (next_of_take? rest found).symm, ?_⟩
    · have kept : ¬(rest.length = source.length ∧ reading.state.isEmpty = true) :=
        fun still => by simp [show reading.state.isEmpty = false from told] at still
      simp only [pass, none]
      rw [if_neg kept]
    · have waits := isEmpty_iff_take?.mpr none
      simp [measure, waits, told, same]
  | case4 none reading t rest notLess still =>
    have same : rest.length = source.length := Nat.le_antisymm fewer (Nat.le_of_not_lt notLess)
    have empty : reading.state.isEmpty = true := isEmpty_iff_take?.mpr still
    left
    simp only [pass, none]
    rw [if_pos ⟨same, empty⟩]

/-- An octet costs two passes at most, and one tells that there are no more. -/
theorem next_within :
    within pass (2 * source.length + 2) (s, source) = some (s.next source) := by
  have enough : s.measure source < 2 * source.length + 2 := by
    unfold measure
    split <;> omega
  refine @within_of_decreasing _ _ pass (fun a => a.1.next a.2) (fun a => a.1.measure a.2)
    ?_ ?_ _ (s, source) enough
  · rintro ⟨s, source⟩ draw stops
    rcases pass_cases s source with same | ⟨t, rest, onward, _⟩
    · exact Sum.inl.inj (same.symm.trans stops)
    · cases onward.symm.trans stops
  · rintro ⟨s, source⟩ next onward
    rcases pass_cases s source with stops | ⟨t, rest, same, goes, less⟩
    · cases stops.symm.trans onward
    · cases same.symm.trans onward
      exact ⟨goes, less⟩

theorem read_unmoved (some : source ≠ [])
    (still : (s.read source).rest.flatten.length = source.length) :
    (s.read source).state.isEmpty = false := by
  have size : 0 < Input.size [source] := by
    simpa [Input.size] using List.length_pos_iff.mpr some
  have same : (s.read source).rest.size = Input.size [source] := by simpa [Input.size] using still
  have finished := s.ready.read_unmoved (Recorder.listener {}) s.recorder [source] size same
  rcases s.ready.read_progress (Recorder.listener {}) s.recorder [source] with less | quiet | full
  · exact absurd same (Nat.ne_of_lt less)
  · exact absurd (quiet.1 ▸ finished) s.ready_ne_done
  · have told : (s.read source).state.events = s.recorder.events ++ [.messageComplete] := by
      simp [read, Reader.read, full.1, Recorder.listener]
    simp [Recorder.isEmpty, told]

theorem next_nothing (none : (s.next source).answer = .ok none) :
    (s.next source).rest = [] ∧ (s.next source).stream.recorder.isEmpty = true := by
  refine ⟨?_, isEmpty_iff_take?.mpr (take?_eq_none.mpr (next_none none))⟩
  revert none
  fun_induction next s source with
  | case1 s source answer => intro none; cases answer <;> cases none
  | case2 s source _ reading t rest less ih => exact ih
  | case3 s source _ reading t rest notLess answer => intro none; cases answer <;> cases none
  | case4 s source none reading t rest notLess still =>
    intro _
    have same : rest.length = source.length :=
      Nat.le_antisymm (s.read_rest_le source) (Nat.le_of_not_lt notLess)
    -- Octets that no reading takes stand at the end of a body, which would be told.
    by_cases some : source = []
    · exact List.length_eq_zero_iff.mp (by simp [same, some])
    · have told : reading.state.isEmpty = false := s.read_unmoved source some same
      have empty : reading.state.isEmpty = true := isEmpty_iff_take?.mpr still
      simp [told] at empty

theorem shutdown_nothing (r : Reader) {reader : Reader} {recorder : Recorder} {stopped : Bool}
    (shut : r.shutdown (Recorder.listener {}) {} = (reader, recorder, stopped))
    (popped : recorder.pop? = none) : recorder.isEmpty = true := by
  rw [r.shutdown_patient none] at shut
  obtain ⟨rfl, rfl, rfl⟩ := by simpa only [Prod.mk.injEq] using shut
  have events : r.ended.events = [] := by
    cases told : r.ended.events with
    | nil => rfl
    | cons => simp [Recorder.pop?, Recorder.told, told] at popped
  simp [Recorder.isEmpty, Recorder.told, events, r.ended_fine]

theorem draw_nothing {ended : Bool} (none : (s.draw ended source).answer = .ok none) :
    (s.draw ended source).rest = [] ∧ (s.draw ended source).stream.recorder.isEmpty = true := by
  cases ended with
  | false => exact next_nothing s source none
  | true =>
    revert none
    show (s.finish source).answer = .ok Option.none → (s.finish source).rest = [] ∧
      (s.finish source).stream.recorder.isEmpty = true
    fun_cases finish s source with
    | case1 => intro none; cases none
    | case2 draw answer reader recorder stopped shut popped =>
      intro _
      rw [next_none answer] at shut
      exact ⟨(next_nothing s source answer).1, shutdown_nothing _ shut popped⟩
    | case3 draw other => exact next_nothing s source

/-- The answers to requests one after the other, each with what the one before it left, and with
`ended` telling at which of them the source counts as complete. -/
def draws (s : EventStream) (source : Bytes) (ended : Nat → Bool) : Nat → Draw
  | 0 => s.draw (ended 0) source
  | n + 1 =>
    let draw := s.draw (ended 0) source
    draw.stream.draws draw.rest (fun n => ended (n + 1)) n

/-- One who asks again and again is told at some time that there is no event. -/
theorem draws_end (s : EventStream) (source : Bytes) (ended : Nat → Bool) :
    ∃ n, ∀ event, (s.draws source ended n).answer ≠ .ok (some event) := by
  by_cases drawn : ∃ event, (s.draw (ended 0) source).answer = .ok (some event)
  · obtain ⟨event, answer⟩ := drawn
    obtain ⟨n, last⟩ := draws_end (s.draw (ended 0) source).stream (s.draw (ended 0) source).rest
      fun n => ended (n + 1)
    exact ⟨n + 1, last⟩
  · exact ⟨0, fun event answer => drawn ⟨event, answer⟩⟩
termination_by (source.length, s.reader.stage.due, s.recorder.events.length)
decreasing_by simpa only [Prod.lex_def] using draw_some answer

end EventStream

structure Reading.Ends {σ : Type} (reading : Reading σ) (input : Input) : Prop where
  unstopped : reading.stopped = false → reading.rest.size = 0 ∨ reading.reader.stage = .done
  still : 0 < input.size → reading.rest.size = input.size → reading.reader.stage = .done

/-- A reading ends after as many turns as there are octets, and stops short of the end of them only
at the end of a message. So a request for an event is answered, and it is told that there is none
only with nothing left, which comes about in the end however often the source is called complete. -/
theorem every_call_ends :
    (∀ (σ : Type) (listener : Listener σ) (r : Reader) (state : σ) (input : Input),
      within (Reader.pass listener) (input.size + 1) (r, state, input) =
          some (r.read listener state input) ∧
        (r.read listener state input).Ends input) ∧
      ∀ (s : EventStream) (source : Bytes),
        within EventStream.pass (2 * source.length + 2) (s, source) = some (s.next source) ∧
          (∀ ended, (s.draw ended source).answer = .ok none →
            (s.draw ended source).rest = [] ∧
              (s.draw ended source).stream.recorder.isEmpty = true) ∧
          ∀ ended : Nat → Bool, ∃ n, ∀ event,
            (s.draws source ended n).answer ≠ .ok (some event) := by
  refine ⟨fun σ listener r state input => ⟨r.read_within listener state input, ?_⟩,
    fun s source => ⟨s.next_within source, fun ended => s.draw_nothing source,
      s.draws_end source⟩⟩
  exact ⟨r.read_unstopped listener state input, r.read_unmoved listener state input⟩

end HttpStream
