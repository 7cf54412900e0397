import HttpStream.Proofs.Passage
import HttpStream.Proofs.Pipeline

/-! Any number of requests, written one after the other, is told back: request by request, and octet
by octet of their bodies. -/

set_option autoImplicit false

namespace HttpStream

open Octet

namespace Reader

variable {capacity n : Nat} {r s : Reader} {b : UInt8}

/-! Bodies. -/

theorem passes_slice (capacity : Nat) {bytes : Bytes} (nonempty : bytes ≠ [])
    (fresh : r.afterCr = false) (room : r.room.Allows bytes.length) :
    Passes capacity r bytes (.content bytes :: (r.deliver bytes).reader.settle.events)
      (r.deliver bytes).reader.settle.reader := by
  cases bytes with
  | nil => exact absurd rfl nonempty
  | cons b rest =>
    have same : ({ r with afterCr := false } : Reader) = r := by
      obtain ⟨⟩ := r
      cases fresh
      rfl
    obtain ⟨told, fine, reader⟩ := @slice_run true capacity r b rest
      (by simp [isLineRest, fresh]) room
    rw [same] at told fine reader
    refine ⟨fine.trans ?_, reader, told⟩
    simp only [Step.andThen, Reader.deliver, settle]
    split <;> rfl

theorem passes_whole (capacity : Nat) {bytes : Bytes} (nonempty : bytes ≠ []) (serves : r.Serves)
    (stage : r.stage = .content bytes.length) (fresh : r.afterCr = false) :
    ∃ s, Passes capacity r bytes [.content bytes, .messageComplete] s ∧ s.Ready := by
  have positive : 0 < bytes.length := List.length_pos_iff.mpr nonempty
  have slice := passes_slice capacity (r := r) nonempty fresh
    (by simp [Reader.room, stage, positive, Room.Allows])
  have full : (r.deliver bytes).reader.stage = .content 0 := by
    simp [Reader.deliver, stage, enter]
  have ends : (r.deliver bytes).reader.settle =
      { reader := (r.deliver bytes).reader.enter .done, events := [.messageComplete] } := by
    simp only [settle, full]
  rw [ends] at slice
  exact ⟨_, slice, serves.of_eq rfl rfl, .inr rfl⟩

/-! Chunks. -/

structure AtChunk (r : Reader) (stage : Stage) : Prop where
  serves : r.Serves
  stage : r.stage = stage
  fresh : r.afterCr = false

namespace AtChunk

variable {stage : Stage}

theorem push (h : r.AtChunk stage) (uncounted : stage.isCounted = false) :
    r.push capacity b = r.interpret capacity b := by
  obtain ⟨_, rfl, fresh⟩ := h
  have same : ({ r with afterCr := false } : Reader) = r := by
    obtain ⟨⟩ := r
    cases fresh
    rfl
  simp [Reader.push, uncounted, accept, isLineRest, fresh, same]

theorem onward (h : r.AtChunk stage) (next : Stage) (uncounted : stage.isCounted = false)
    (open_ : stage.isComplete = false) (more : next ≠ .content 0)
    (meaning : r.interpret capacity b = .quiet (r.enter next)) :
    Passes capacity r [b] [] (r.enter next) ∧ (r.enter next).AtChunk next :=
  ⟨.of_push (h.stage ▸ open_) ((h.push uncounted).trans meaning) more,
    h.serves.of_eq rfl rfl, rfl, h.fresh⟩

theorem lineEnd (h : r.AtChunk stage) (capacity : Nat) (next : Stage)
    (uncounted : stage.isCounted = false) (open_ : stage.isComplete = false)
    (after : next.isComplete = false) (more : next ≠ .content 0)
    (meaning : r.interpret capacity cr = .quiet ((r.endLine cr).enter next)) :
    ∃ s, Passes capacity r Wire.crlf [] s ∧ s.AtChunk next := by
  have first : Passes capacity r [cr] [] ((r.endLine cr).enter next) :=
    .of_push (h.stage ▸ open_) ((h.push uncounted).trans meaning) more
  have serves : ((r.endLine cr).enter next).Serves := h.serves.of_eq rfl rfl
  obtain ⟨headerBytes, feeds⟩ := serves.passes_lf capacity after more rfl
  exact ⟨_, first.trans feeds, serves.of_eq rfl rfl, rfl, rfl⟩

end AtChunk

theorem passes_size (capacity : Nat) (small : n < UInt64.size) (at_ : r.AtChunk .chunkStart) :
    ∃ s, Passes capacity r (Text.toBytes (Nat.toDigits 16 n)) [] s ∧ s.AtChunk (.chunkSize n) := by
  -- On the number: its last digit comes after those of its sixteenth.
  induction n using Nat.strongRecOn generalizing r with
  | _ n ih =>
    by_cases single : n < 16
    · obtain ⟨b, digit, visible, _, value⟩ := hexValue?_digitChar n single
      rw [Nat.toDigits_of_lt_base single, digit]
      refine ⟨_, at_.onward (.chunkSize n) rfl rfl (by rintro ⟨⟩) ?_⟩
      simp only [interpret, at_.stage, pushChunkStart, visible, value, if_true]
      rfl
    · obtain ⟨b, digit, visible, notSemicolon, value⟩ :=
        hexValue?_digitChar (n % 16) (Nat.mod_lt _ (by decide))
      have whole : n / 16 * 16 + n % 16 = n := Nat.div_add_mod' n 16
      obtain ⟨s, first, after⟩ := ih (n / 16) (by omega) (by omega) at_
      have plain : isLineEnd b = false := isLineEnd_of_isVisible b visible
      have meaning : s.interpret capacity b = .quiet (s.enter (.chunkSize n)) := by
        simp only [interpret, after.stage, pushChunkSize, plain, notSemicolon, visible, value,
          whole, small]
        rfl
      obtain ⟨last, after⟩ := after.onward (.chunkSize n) rfl rfl (by rintro ⟨⟩) meaning
      rw [Nat.toDigits_of_base_le (by decide) (by omega), Text.toBytes_append, digit]
      exact ⟨_, first.trans last, after⟩

theorem passes_chunk (capacity : Nat) (chunk : Wire.Chunk) (at_ : r.AtChunk .chunkStart) :
    ∃ s, Passes capacity r chunk.wire [.content chunk.bytes] s ∧ s.AtChunk .chunkStart := by
  have positive : 0 < chunk.bytes.length := List.length_pos_iff.mpr chunk.nonempty
  obtain ⟨s, size, sized⟩ := passes_size capacity chunk.short at_
  have opens : s.interpret capacity cr =
      .quiet ((s.endLine cr).enter (.chunkData chunk.bytes.length)) := by
    simp [interpret, sized.stage, pushChunkSize, endChunkLine, isLineEnd, positive]
  obtain ⟨t, line, opened⟩ := sized.lineEnd capacity (.chunkData chunk.bytes.length) rfl rfl rfl
    (by rintro ⟨⟩) opens
  have full : (t.deliver chunk.bytes).reader.stage = .chunkData 0 := by
    simp [Reader.deliver, opened.stage, enter]
  -- The data passes as one slice and leaves the chunk open until its line end.
  have slice : Passes capacity t chunk.bytes [.content chunk.bytes]
      (t.deliver chunk.bytes).reader := by
    have slice := passes_slice capacity chunk.nonempty opened.fresh
      (by simp [Reader.room, opened.stage, positive, Room.Allows])
    rwa [settle_of_ne (by simp [full])] at slice
  have spent : (t.deliver chunk.bytes).reader.AtChunk (.chunkData 0) :=
    ⟨opened.serves.of_eq rfl rfl, full, opened.fresh⟩
  have closes : (t.deliver chunk.bytes).reader.interpret capacity cr =
      .quiet (((t.deliver chunk.bytes).reader.endLine cr).enter .chunkStart) := by
    simp only [interpret, full, pushChunkStart]
    rfl
  obtain ⟨u, ending, next⟩ := spent.lineEnd capacity .chunkStart rfl rfl rfl (by rintro ⟨⟩) closes
  exact ⟨u, by simpa [Wire.Chunk.wire] using ((size.trans line).trans slice).trans ending, next⟩

theorem passes_chunks (capacity : Nat) (chunks : List Wire.Chunk) (at_ : r.AtChunk .chunkStart) :
    ∃ s, Passes capacity r (chunks.flatMap (·.wire)) (chunks.map (.content ·.bytes)) s ∧
      s.AtChunk .chunkStart := by
  induction chunks generalizing r with
  | nil => exact ⟨r, .nil r, at_⟩
  | cons chunk rest ih =>
    obtain ⟨s, first, next⟩ := passes_chunk capacity chunk at_
    obtain ⟨t, others, last⟩ := ih next
    exact ⟨t, first.trans others, last⟩

theorem joined_chunks (chunks : List Wire.Chunk) :
    Event.joined (chunks.map (.content ·.bytes)) =
      Event.joined (Wire.Body.chunked chunks).events := by
  rw [Wire.Body.joined_events]
  induction chunks with
  | nil => rfl
  | cons chunk rest ih =>
    have filled : chunk.bytes ++ rest.flatMap (·.bytes) ≠ [] := by simp [chunk.nonempty]
    simp only [List.map_cons, Event.joined, ih, Wire.Body.events, Wire.Body.content,
      List.flatMap_cons, List.isEmpty_iff, filled, if_false]
    by_cases none : rest.flatMap (·.bytes) = []
    · simp [none]
    · simp [none]

theorem passes_chunked (capacity : Nat) (chunks : List Wire.Chunk) (at_ : r.AtChunk .chunkStart) :
    ∃ s, Passes capacity r (Wire.Body.chunked chunks).wire
      ((Wire.Body.chunked chunks).events ++ [.messageComplete]) s ∧ s.Ready := by
  obtain ⟨s, told, next⟩ := passes_chunks capacity chunks at_
  obtain ⟨t, zero, sized⟩ := passes_size capacity (by decide : 0 < UInt64.size) next
  have blank : t.push capacity cr =
      { reader := (t.endLine cr).enter .done, events := [.messageComplete] } := by
    have off : (t.endLine cr).settings.trailers = false := sized.serves.trailers
    rw [sized.push rfl]
    simp [interpret, sized.stage, pushChunkSize, endChunkLine, isLineEnd, off]
  have ends : Passes capacity t [cr] [.messageComplete] ((t.endLine cr).enter .done) :=
    .of_push (by rw [sized.stage]; rfl) blank (by rintro ⟨⟩)
  have ready : ((t.endLine cr).enter .done).Ready :=
    ⟨sized.serves.of_eq rfl rfl, .inr rfl⟩
  -- The line ends after the last chunk are left to the reader of the next request.
  obtain ⟨u, left, ready⟩ := @Ready.skip _ (lf :: Wire.crlf) ready capacity rfl
  have slices : Passes capacity r (chunks.flatMap (·.wire)) (Wire.Body.chunked chunks).events s :=
    told.of_joined (joined_chunks chunks)
  have whole := (slices.trans zero).trans (ends.trans left)
  exact ⟨u, by simpa [Wire.Body.wire, Wire.crlf] using whole, ready⟩

/-! Requests. -/

theorem passes_body (capacity : Nat) (body : Wire.Body) (serves : r.Serves)
    (stage : r.stage = bodyStage body) (afterCr : r.afterCr = true) :
    ∃ s told, Passes capacity r ([lf] ++ body.wire) told s ∧ s.Ready ∧
      opening body ++ told = .headerComplete :: (body.events ++ [.messageComplete]) := by
  cases body with
  | none =>
    -- The message is over at the CR, and its LF is skipped ahead of the next one.
    have ready : r.Ready := ⟨serves, .inr stage⟩
    obtain ⟨s, left, ready⟩ := @Ready.skip _ [lf] ready capacity rfl
    exact ⟨s, [], left, ready, rfl⟩
  | whole bytes nonempty short =>
    have stage : r.stage = .content bytes.length := stage
    obtain ⟨headerBytes, feeds⟩ := serves.passes_lf capacity (by rw [stage]; rfl)
      (stage ▸ bodyStage_more (.whole bytes nonempty short)) afterCr
    obtain ⟨s, told, ready⟩ := passes_whole capacity
      (r := { r with headerBytes, afterCr := false }) nonempty
      (serves.of_eq rfl rfl) stage rfl
    refine ⟨s, _, feeds.trans told, ready, ?_⟩
    simp [opening, framingOf, Wire.Body.events, Wire.Body.content, nonempty]
  | chunked chunks =>
    have stage : r.stage = .chunkStart := stage
    obtain ⟨headerBytes, feeds⟩ := serves.passes_lf capacity (by rw [stage]; rfl)
      (by rw [stage]; rintro ⟨⟩) afterCr
    obtain ⟨s, told, ready⟩ := passes_chunked capacity chunks
      (r := { r with headerBytes, afterCr := false })
      ⟨serves.of_eq rfl rfl, stage, rfl⟩
    exact ⟨s, _, feeds.trans told, ready, rfl⟩

theorem passes_request (capacity : Nat) (request : Wire.Request) (ready : r.Ready) :
    ∃ s, Passes capacity r request.wire request.events s ∧ s.Ready := by
  have host : request.version.isPersistent = true →
      (false || request.fields.any (·.isHost)) = true := by
    intro persistent
    rcases request.known with old | new
    · simp [old, Version.isPersistent] at persistent
    · simpa using request.hosted new
  -- What is told of a line is told at the next one, so each part leaves events that are due.
  obtain ⟨s, startLine, line⟩ := passes_requestLine capacity request ready
  obtain ⟨t, _, _, told₁, due₁, fields, line, flushes, whole₁⟩ :=
    passes_fields capacity request.fields request.version line (.nothing _)
  obtain ⟨u, _, _, told₂, due₂, announcement, line, announces, whole₂⟩ :=
    passes_announcement capacity request.body line flushes
  obtain ⟨v, blank, serves, stage, afterCr⟩ := passes_blank capacity line announces host
  obtain ⟨w, told₃, body, ready, whole₃⟩ := passes_body capacity request.body serves stage afterCr
  have passes := startLine.trans (fields.trans (announcement.trans (blank.trans body)))
  have lines : request.lines.flatMap (·.events) =
      request.fields.flatMap (·.events) ++ request.body.line?.toList.flatMap (·.events) := by
    simp [Wire.Request.lines, List.flatMap_append, List.flatMap_map]
  have wire : request.wire = request.requestLine ++ (request.fields.flatMap (·.wire) ++
      (request.body.line?.toList.flatMap (·.wire) ++ ([cr] ++ ([lf] ++ request.body.wire)))) := by
    simp [Wire.Request.wire, Wire.Request.lines, List.flatMap_append, List.flatMap_map, Wire.crlf]
  have told :=
    calc told₁ ++ (told₂ ++ (due₂ ++ opening request.body ++ told₃))
        = told₁ ++ ((told₂ ++ due₂) ++ (opening request.body ++ told₃)) := by
          simp only [List.append_assoc]
      _ = (told₁ ++ due₁) ++ (request.body.line?.toList.flatMap (·.events) ++
            .headerComplete :: (request.body.events ++ [.messageComplete])) := by
          rw [whole₂, whole₃]
          simp only [List.append_assoc]
      _ = request.lines.flatMap (·.events) ++
            .headerComplete :: (request.body.events ++ [.messageComplete]) := by
          rw [whole₁, lines, List.nil_append, List.append_assoc]
  rw [told, ← wire] at passes
  exact ⟨w, by simpa [Wire.Request.events] using passes, ready⟩

theorem passes_requests (capacity : Nat) (requests : List Wire.Request) (ready : r.Ready) :
    ∃ s, Passes capacity r (requests.flatMap (·.wire)) (requests.flatMap (·.events)) s ∧
      s.Ready := by
  induction requests generalizing r with
  | nil => exact ⟨r, .nil r, ready⟩
  | cons request rest ih =>
    obtain ⟨s, first, next⟩ := passes_request capacity request ready
    obtain ⟨t, others, last⟩ := ih next
    exact ⟨t, first.trans others, last⟩

theorem Ready.waits (h : r.Ready) : r.stage ≠ .content 0 := by
  rcases h.idle with ⟨start, _⟩ | done <;> simp [*]

theorem Ready.ended (h : r.Ready) : r.ended.events = [] := by
  rcases h.idle with ⟨start, _⟩ | done
  · simp [Reader.ended, start, Step.quiet]
  · simp [Reader.ended, done, Step.quiet]

end Reader

namespace Wire

theorem Line.joined_events (lines : List Line) :
    Event.joined (lines.flatMap (·.events)) = lines.flatMap (·.events) := by
  apply Event.joined_of_noContent
  intro bytes member
  obtain ⟨line, _, told⟩ := List.mem_flatMap.mp member
  simp [Line.events] at told

theorem Request.joined_events (requests : List Request) :
    Event.joined (requests.flatMap (·.events)) = requests.flatMap (·.events) := by
  induction requests with
  | nil => rfl
  | cons request rest ih =>
    have first : ∀ bytes, Event.requestLine request.method request.target (some request.version) ≠
        .content bytes := nofun
    have ahead : ∀ bytes, Event.headerComplete ≠ .content bytes := nofun
    have last : ∀ bytes, Event.messageComplete ≠ .content bytes := nofun
    have whole : request.events ++ rest.flatMap (·.events) =
        .requestLine request.method request.target (some request.version) ::
          (request.lines.flatMap (·.events) ++ .headerComplete ::
            (request.body.events ++ .messageComplete :: rest.flatMap (·.events))) := by
      simp [Request.events]
    rw [List.flatMap_cons, whole, Event.joined_cons_of_ne first, Event.joined_append_cons ahead,
      Event.joined_append_cons last, Line.joined_events, Body.joined_events, ih]

end Wire
namespace EventStream

section Drawn

variable {s : EventStream} {capacity : Nat} {wire : Bytes} {events : List Event} {last : Reader}
  (lenient : s.reader.settings.Lenient true) (sound : s.reader.Sound) (ready : s.reader.Ready)
  (empty : s.recorder = {}) (passes : Reader.Passes capacity s.reader wire events last)
include lenient sound ready empty passes

/-- What octets come to without an error is drawn, and none of them is left. -/
theorem drawAll_of_passes :
    Event.joined (s.drawAll false wire).events = Event.joined events ∧
      (s.drawAll false wire).error = none ∧ (s.drawAll false wire).rest = [] := by
  obtain ⟨step, taken, leads, whole, _, _, told, error, nothing⟩ :=
    drawAll_leads capacity lenient sound ready.waits wire
  rw [empty] at told error
  -- What was taken shows nothing wrong, as the whole does not; so all of it was taken.
  have fine : step.fault = none := by
    rw [leads.alike.fault]
    cases wrong : (s.reader.run true capacity taken).fault with
    | none => rfl
    | some fault =>
      have run : (s.reader.run true capacity wire).fault = some fault := by
        rw [whole, Reader.run_append, Step.andThen_of_fault wrong, wrong]
      rw [passes.fine] at run
      cases run
  have error : (s.drawAll false wire).error = none := by simp [error, Recorder.told, fine]
  have rest : (s.drawAll false wire).rest = [] := nothing error
  rw [rest, List.append_nil] at whole
  refine ⟨?_, error, rest⟩
  calc Event.joined (s.drawAll false wire).events
      = Event.joined step.events := by rw [told]; simp [Recorder.told]
    _ = Event.joined (s.reader.run true capacity taken).events := leads.alike.events
    _ = Event.joined events := by rw [← whole]; exact passes.told

theorem drawPieces_of_passes (idle : last.Ready) {pieces : List Bytes}
    (whole : pieces.flatten = wire) :
    Event.joined (s.drawPieces [] pieces).1 = Event.joined events ∧
      (s.drawPieces [] pieces).2 = [] := by
  obtain ⟨step, leads, told, errors⟩ :=
    drawPieces_leads capacity lenient sound ready.waits [] pieces (by rw [empty]; nofun)
  rw [List.nil_append, whole] at leads
  rw [empty] at told errors
  have fine : step.fault = none := leads.alike.fault.trans passes.fine
  have twin := leads.alike.reader
  rw [passes.reader] at twin
  have silent : step.reader.ended.events = [] := (Reader.ended_events twin).trans idle.ended
  refine ⟨?_, by simp [errors, Recorder.told, fine]⟩
  calc Event.joined (s.drawPieces [] pieces).1
      = Event.joined step.events := by rw [told, silent]; simp [Recorder.told]
    _ = Event.joined (s.reader.run true capacity wire).events := leads.alike.events
    _ = Event.joined events := passes.told

end Drawn

/-- Requests that are written one after the other and drawn from a stream without a limit and
without trailers, whatever it remembers, come out as they were: their events and nothing else, up to
the cuts of their bodies, without an error and with no octet left. It does not matter where the
octets are cut on their way. -/
theorem drawAll_requests (memoryCapacity : Nat) (requests : List Wire.Request) :
    let stream : EventStream := { reader := {
      mode := .request, settings := { headerLimit := 0, memoryCapacity, trailers := false } } }
    let wire := requests.flatMap (·.wire)
    let events := requests.flatMap (·.events)
    let drawn := stream.drawAll false wire
    (Event.joined drawn.events = events ∧ drawn.error = none ∧ drawn.rest = []) ∧
      ∀ pieces : List Bytes, pieces.flatten = wire →
        Event.joined (stream.drawPieces [] pieces).1 = events ∧
          (stream.drawPieces [] pieces).2 = [] := by
  intro stream wire events drawn
  have ready : stream.reader.Ready := ⟨⟨rfl, rfl, rfl⟩, .inl ⟨rfl, rfl⟩⟩
  have sound : stream.reader.Sound := .fresh _ _
  have lenient : stream.reader.settings.Lenient true := .inl rfl
  obtain ⟨last, passes, idle⟩ := Reader.passes_requests 0 requests ready
  have once := drawAll_of_passes lenient sound ready rfl passes
  have cut (pieces : List Bytes) (whole : pieces.flatten = wire) :=
    drawPieces_of_passes lenient sound ready rfl passes idle whole
  rw [Wire.Request.joined_events] at once
  simp only [Wire.Request.joined_events] at cut
  exact ⟨once, cut⟩

end EventStream
end HttpStream
