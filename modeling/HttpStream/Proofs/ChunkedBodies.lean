import HttpStream.Proofs.ChunkSizes

/-! Bodies in chunks, as any sender may write them: their data is told octet by octet, and after it
the trailers, if they are asked for; without them the message is over at the last chunk line. -/

set_option autoImplicit false

namespace HttpStream

open Octet

/-- A chunk as it is written: its size in any spelling, what may follow on that line, and its
data. -/
structure WrittenChunk where
  size : Bytes
  extension : Extension
  sizeEnd : LineEnd
  data : Bytes
  dataEnd : LineEnd
  denotes : hexNumber? size = some data.length
  nonempty : data ≠ []
  short : data.length < 2 ^ 64

namespace WrittenChunk

variable (chunk : WrittenChunk)

def wire : Bytes :=
  chunk.size ++ chunk.extension.octets ++ chunk.sizeEnd.wire ++ chunk.data ++ chunk.dataEnd.wire

theorem size_nonempty : chunk.size ≠ [] := by
  intro none
  have denotes := chunk.denotes
  rw [none] at denotes
  exact chunk.nonempty (List.length_eq_zero_iff.mp (Option.some.inj denotes).symm)

end WrittenChunk

structure WrittenBody where
  chunks : List WrittenChunk
  -- Zeros ahead of the one that is needed.
  zeros : Nat
  extension : Extension

namespace WrittenBody

variable (body : WrittenBody)

def data : Bytes := body.chunks.flatMap (·.data)

/-- All of the body but the line end after the zeros. -/
def front : Bytes :=
  body.chunks.flatMap (·.wire) ++ (List.replicate (body.zeros + 1) 0x30 ++ body.extension.octets)

def wire : Bytes := body.front ++ [cr, lf]

end WrittenBody

structure TrailerLine where
  name : Bytes
  value : Option Bytes
  ending : LineEnd
  cut : colon ∉ name
  nonempty : name ++ value.elim [] (colon :: ·) ≠ []
  plain : ∀ b ∈ name ++ value.elim [] (colon :: ·), isLineEnd b = false

namespace TrailerLine

variable (line : TrailerLine)

def octets : Bytes := line.name ++ line.value.elim [] (colon :: ·)

def wire : Bytes := line.octets ++ line.ending.wire

def event : Event :=
  .trailer (Text.trim (Text.ofBytes line.name)) (Text.trim (Text.ofBytes (line.value.getD [])))

theorem trailerField_octets : Reader.trailerField (Text.ofBytes line.octets) =
    (Text.trim (Text.ofBytes line.name), Text.trim (Text.ofBytes (line.value.getD []))) := by
  obtain ⟨name, value, _, cut, _, _⟩ := line
  have plain : ∀ c ∈ Text.ofBytes name, (c != ':') = true := by
    intro c member
    obtain ⟨b, octet, rfl⟩ := List.mem_map.mp member
    rw [toChar_bne_colon]
    exact bne_iff_ne.mpr fun same => cut (same ▸ octet)
  -- No octet of the name is a colon, so the line is cut right behind it.
  have front (rest : Text) : (Text.ofBytes name ++ rest).takeWhile (· != ':') =
      Text.ofBytes name ++ rest.takeWhile (· != ':') :=
    List.takeWhile_append_of_pos plain
  cases value with
  | none =>
    have whole := front []
    simp only [List.append_nil, List.takeWhile_nil] at whole
    simp only [octets, Option.elim_none, List.append_nil, Reader.trailerField, whole,
      Option.getD_none]
    rw [List.drop_eq_nil_of_le (Nat.le_succ _)]
    rfl
  | some value =>
    have split : Text.ofBytes (name ++ colon :: value) =
        Text.ofBytes name ++ ':' :: Text.ofBytes value := by
      simp [Text.ofBytes, toChar, colon]
    have stop := front (':' :: Text.ofBytes value)
    simp only [List.takeWhile_cons, bne_self_eq_false, Bool.false_eq_true, if_false,
      List.append_nil] at stop
    simp only [octets, Option.elim_some, Reader.trailerField, split, stop, Option.getD_some]
    rw [List.drop_append, List.drop_eq_nil_of_le (Nat.le_succ _), Nat.add_sub_cancel_left]
    rfl

end TrailerLine

namespace Reader

variable {r : Reader} {capacity : Nat} {octets : Bytes}

theorem run_chunkLead (capacity : Nat) {lead : Bytes} (at_ : r.stage = .chunkStart)
    (hidden : lead.any isVisible = false) :
    ∃ afterCr, r.run false capacity lead = .quiet (r.amid .chunkStart afterCr) := by
  induction lead generalizing r with
  | nil =>
    refine ⟨r.afterCr, ?_⟩
    obtain ⟨⟩ := r
    cases at_
    rfl
  | cons b rest ih =>
    rw [List.any_cons, Bool.or_eq_false_iff] at hidden
    -- Skipped as the rest of a line end, or as white space ahead of the size.
    have first : r.push capacity b = .quiet (r.amid .chunkStart (b == cr)) := by
      cases lineRest : r.isLineRest b with
      | true =>
        have same : r.endLine b = r.amid .chunkStart (b == cr) := by
          obtain ⟨⟩ := r
          cases at_
          rfl
        simp [push, at_, Stage.isCounted, Stage.inHead, accept, lineRest, same]
      | false =>
        rw [push_uncounted (by rw [at_]; rfl) lineRest]
        simp only [interpret, at_, pushChunkStart, hidden.1, Bool.false_eq_true, if_false]
        rfl
    obtain ⟨afterCr, later⟩ := ih (r := r.amid .chunkStart (b == cr)) rfl hidden.2
    refine ⟨afterCr, ?_⟩
    rw [← List.singleton_append,
      run_quiet_append (run_pushed (by rw [at_]; rfl) first (by rintro ⟨⟩))]
    exact later

theorem unchunks_chunk (capacity : Nat) (awaits : r.AwaitsSize) (chunk : WrittenChunk) :
    Unchunks capacity r chunk.wire chunk.data
      { r.amid .chunkStart false with contentRead := r.contentRead + chunk.data.length } := by
  have positive : 0 < chunk.data.length := List.length_pos_iff.mpr chunk.nonempty
  have line := run_chunkLine capacity awaits chunk.size_nonempty chunk.denotes chunk.short positive
    chunk.extension chunk.sizeEnd
  let s : Reader :=
    { r.amid (.chunkData 0) false with contentRead := r.contentRead + chunk.data.length }
  have slices : Unchunks capacity (r.amid (.chunkData chunk.data.length) false) chunk.data
      chunk.data s := by
    have slices := @unchunks_data r _ capacity _ (Nat.le_refl chunk.data.length)
    rwa [Nat.sub_self] at slices
  have ends : s.run false capacity ([] ++ [chunk.dataEnd.first]) =
      .quiet (s.amid .chunkStart (chunk.dataEnd.first == cr)) := by
    have hidden := isVisible_of_isLineEnd chunk.dataEnd.isLineEnd_first
    refine run_pushed rfl ?_ (by rintro ⟨⟩)
    rw [push_uncounted rfl rfl]
    simp only [interpret, s, amid, pushChunkStart, hidden, Bool.false_eq_true, if_false]
    rfl
  have last := run_lineEnd_quiet capacity chunk.dataEnd rfl rfl (by rintro ⟨⟩) ends
  have whole := ((Unchunks.of_quiet line).trans slices).trans (.of_quiet last)
  simp only [List.nil_append, List.append_nil] at whole
  exact whole

theorem unchunks_chunks (capacity : Nat) (awaits : r.AwaitsSize) (chunks : List WrittenChunk) :
    ∃ stage afterCr, Unchunks capacity r (chunks.flatMap (·.wire)) (chunks.flatMap (·.data))
      { r.amid stage afterCr with
        contentRead := r.contentRead + (chunks.flatMap (·.data)).length } ∧
      (stage = .chunkStart ∨ stage = .chunkData 0) := by
  induction chunks generalizing r with
  | nil => exact ⟨r.stage, r.afterCr, .of_quiet rfl, awaits⟩
  | cons chunk rest ih =>
    have first := unchunks_chunk capacity awaits chunk
    let s : Reader :=
      { r.amid .chunkStart false with contentRead := r.contentRead + chunk.data.length }
    obtain ⟨stage, afterCr, others, awaits⟩ := ih (r := s) (.inl rfl)
    refine ⟨stage, afterCr, ?_, awaits⟩
    have whole := first.trans others
    rw [List.flatMap_cons, List.flatMap_cons, List.length_append, ← Nat.add_assoc]
    exact whole

def grown (r : Reader) (n : Nat) : Reader := { r with contentRead := r.contentRead + n }

theorem unchunks_front (capacity : Nat) {lead : Bytes} (at_ : r.stage = .chunkStart)
    (hidden : lead.any isVisible = false) (body : WrittenBody) : ∃ stage, SizeStage 0 stage ∧
      Unchunks capacity r (lead ++ body.front) body.data
        ((r.grown body.data.length).amid stage false) := by
  obtain ⟨afterCr, quiet⟩ := run_chunkLead capacity at_ hidden
  obtain ⟨stage, afterCr', chunks, awaits⟩ :=
    unchunks_chunks (r := r.amid .chunkStart afterCr) capacity (.inl rfl) body.chunks
  obtain ⟨last, ends, line⟩ := run_sizeFront (r := (r.grown body.data.length).amid stage afterCr')
    capacity awaits (by simp [List.replicate_succ]) (hexNumber?_zeros (body.zeros + 1)) (by decide)
    body.extension
  have whole := ((Unchunks.of_quiet quiet).trans chunks).trans (.of_quiet line)
  rw [List.nil_append, List.append_nil, List.append_assoc] at whole
  exact ⟨last, ends, whole⟩

/-! Trailers. -/

def trailing (r : Reader) (token : Snoc Char) (n : Nat) : Reader :=
  { r with stage := .trailer token, headerBytes := n, afterCr := false }

section Unlimited

variable (unlimited : r.settings.limit? = none)
include unlimited

theorem push_trailing (token : Snoc Char) (n : Nat) (b : UInt8) :
    (r.trailing token n).push capacity b = (r.trailing token (n + 1)).pushTrailer token b := by
  have fits : (r.trailing token n).fits 1 = true :=
    fits_of_unlimited (r := r.trailing token n) unlimited 1
  have counted : (r.trailing token n).stage.isCounted = true := rfl
  unfold push
  rw [if_pos counted, limitFault?_of_fits fits]
  rfl

theorem run_trailerOctets (capacity : Nat) (plain : ∀ b ∈ octets, isLineEnd b = false)
    (token : Snoc Char) (n : Nat) : (r.trailing token n).run false capacity octets =
      .quiet (r.trailing (token.append (Text.ofBytes octets)) (n + octets.length)) := by
  induction octets generalizing token n with
  | nil => rfl
  | cons b rest ih =>
    have first : (r.trailing token n).push capacity b =
        .quiet (r.trailing (token.push (toChar b)) (n + 1)) := by
      rw [push_trailing unlimited]
      simp only [pushTrailer, plain b List.mem_cons_self, Bool.not_false, if_true]
      rfl
    have same : (token.push (toChar b)).append (Text.ofBytes rest) =
        token.append (Text.ofBytes (b :: rest)) := by
      simp [Snoc.push, Snoc.append, Text.ofBytes]
    have onward := (run_quiet_append (run_pushed rfl first (by rintro ⟨⟩)) rest).trans
      (ih (fun b member => plain b (List.mem_cons_of_mem _ member)) _ _)
    rw [same, Nat.add_assoc, Nat.add_comm 1] at onward
    exact onward

theorem run_rawTrailer (capacity : Nat) (line : RawLine) (n : Nat) :
    let field := trailerField line.text
    ∃ m, (r.trailing .empty n).run false capacity line.wire =
      { reader := r.trailing .empty m, events := [.trailer field.1 field.2] } := by
  intro field
  let token : Snoc Char := Snoc.empty.append (Text.ofBytes line.octets)
  have text : token.toList = line.text := by
    simp [token, Snoc.append, Snoc.toList, Snoc.empty, RawLine.text]
  have filled : token.isEmpty = false := by
    rw [← Snoc.isEmpty_toList, text]
    simpa [RawLine.text, Text.ofBytes] using line.nonempty
  let last : Reader := ((r.trailing token (n + line.octets.length + 1)).endLine
    line.ending.first).enter (.trailer .empty)
  have ends : (r.trailing token (n + line.octets.length)).push capacity line.ending.first =
      { reader := last, events := [.trailer field.1 field.2] } := by
    rw [push_trailing unlimited]
    simp only [pushTrailer, line.ending.isLineEnd_first, Bool.not_true, Bool.false_eq_true,
      if_false, filled, text]
    rfl
  -- The first octet of the line end closes the line; the others are skipped behind it.
  have first : (r.trailing .empty n).run false capacity (line.octets ++ [line.ending.first]) =
      { reader := last, events := [.trailer field.1 field.2] } := by
    have octets : (r.trailing .empty n).run false capacity line.octets =
      .quiet (r.trailing token (n + line.octets.length)) :=
        run_trailerOctets unlimited capacity line.plain .empty n
    rw [run_quiet_append octets]
    exact run_pushed rfl ends (by rintro ⟨⟩)
  exact run_lineEnd (t := last) line.ending line.octets unlimited first rfl (by rintro ⟨⟩) rfl

theorem run_trailerLine (capacity : Nat) (line : TrailerLine) (n : Nat) :
    ∃ m, (r.trailing .empty n).run false capacity line.wire =
      { reader := r.trailing .empty m, events := [line.event] } := by
  have told := run_rawTrailer unlimited capacity
    ⟨line.octets, line.ending, line.nonempty, line.plain⟩ n
  simp only [RawLine.text, line.trailerField_octets] at told
  exact told

theorem run_trailerLines (capacity : Nat) (lines : List TrailerLine) (n : Nat) :
    ∃ m, (r.trailing .empty n).run false capacity (lines.flatMap (·.wire)) =
      { reader := r.trailing .empty m, events := lines.map (·.event) } := by
  induction lines generalizing n with
  | nil => exact ⟨n, rfl⟩
  | cons line rest ih =>
    obtain ⟨m, first⟩ := run_trailerLine unlimited capacity line n
    obtain ⟨k, others⟩ := ih m
    exact ⟨k, run_events_append first _ others⟩

theorem run_blank (capacity : Nat) (blank : LineEnd) (n : Nat) : ∃ s, s.stage = .done ∧
    s.contentRead = r.contentRead ∧
    (r.trailing .empty n).run false capacity [blank.first] =
      { reader := s, events := [.messageComplete] } := by
  let s : Reader := ((r.trailing .empty (n + 1)).endLine blank.first).enter .done
  have ends : (r.trailing .empty n).push capacity blank.first =
      { reader := s, events := [.messageComplete] } := by
    rw [push_trailing unlimited]
    simp only [pushTrailer, blank.isLineEnd_first, Bool.not_true, Bool.false_eq_true, if_false]
    rfl
  exact ⟨s, rfl, rfl, run_pushed rfl ends (by rintro ⟨⟩)⟩

theorem run_trailers (capacity : Nat) (lines : List TrailerLine) (blank : LineEnd) :
    ∃ s, s.stage = .done ∧ s.contentRead = r.contentRead ∧
      (r.amid (.trailer .empty) true).run false capacity
        ([lf] ++ lines.flatMap (·.wire) ++ [blank.first]) =
      { reader := s, events := lines.map (·.event) ++ [.messageComplete] } := by
  obtain ⟨n, line⟩ := run_lineRest (r := r.amid (.trailer .empty) true) capacity unlimited rfl
    (by rintro ⟨⟩) rfl 0
  obtain ⟨m, told⟩ := run_trailerLines unlimited capacity lines n
  obtain ⟨s, done, count, ends⟩ := run_blank unlimited capacity blank m
  have whole := run_events_append told _ ends
  refine ⟨s, done, count, ?_⟩
  rw [List.append_assoc]
  exact (run_quiet_append line _).trans whole

end Unlimited

/-! The end of the last chunk line. -/

section Last

variable {stage : Stage} (at_ : SizeStage 0 stage) (capacity : Nat)
include at_

theorem SizeStage.run_last (trailers : r.settings.trailers = false) (rest : Bytes) :
    (r.amid stage false).run false capacity (cr :: rest) =
      { reader := r.amid .done true, events := [.messageComplete] } := by
  have ends : (r.amid stage false).run false capacity [cr] =
      { reader := r.amid .done true, events := [.messageComplete] } := by
    rw [at_.run_end capacity rfl, endChunkLine_eq]
    simp [trailers]
  exact run_events_append ends rest (run_done rfl rest)

/-- With trailers it goes on with them. Of what is left of the line only its LF is counted, and of
the blank line its first octet. -/
theorem SizeStage.run_lastTrailed (unlimited : r.settings.limit? = none)
    (trailers : r.settings.trailers = true) (sound : (r.amid stage false).Sound)
    (lines : List TrailerLine) (blank : LineEnd) (rest : Bytes) :
    ∃ s, s.stage = .done ∧ s.contentRead = r.contentRead ∧
      s.headerBytes ≤ r.headerBytes + (lines.flatMap (·.wire)).length + 2 ∧
      (r.amid stage false).run false capacity
        (cr :: lf :: (lines.flatMap (·.wire) ++ blank.wire ++ rest)) =
      { reader := s, events := lines.map (·.event) ++ [.messageComplete] } := by
  have ends : (r.amid stage false).run false capacity [cr] =
      .quiet (r.amid (.trailer .empty) true) := by
    rw [at_.run_end capacity rfl, endChunkLine_eq]
    simp only [Nat.lt_irrefl, trailers, if_false, if_true, or_true]
    rfl
  have after : (r.amid (.trailer .empty) true).Sound := by
    have after := sound.run false capacity [cr]
    rwa [ends] at after
  obtain ⟨s, done, count, told⟩ := run_trailers unlimited capacity lines blank
  -- Two octets more than the trailers count: the LF ahead of them and the end of the blank line.
  have counted := (run_headerBytes_le capacity after
    ([lf] ++ lines.flatMap (·.wire) ++ [blank.first])).2
  rw [told] at counted
  obtain ⟨more, wire, _⟩ := blank.wire_eq
  refine ⟨s, done, count, ?_, ?_⟩
  · refine Nat.le_trans counted (Nat.le_of_eq ?_)
    simp only [List.length_append, List.length_cons, List.length_nil]
    show r.headerBytes + _ = _
    omega
  · have octets : cr :: lf :: (lines.flatMap (·.wire) ++ blank.wire ++ rest) =
        [cr] ++ (([lf] ++ lines.flatMap (·.wire) ++ [blank.first]) ++ (more ++ rest)) := by
      rw [wire]
      simp
    rw [octets, run_quiet_append ends, run_events_append told _ (run_done done _)]
    simp [Step.quiet]

end Last

end Reader
end HttpStream
