import HttpStream.Proofs.Octetwise
import HttpStream.Proofs.Wire

/-! The way of a reader through a request, line by line: what its octets come to one by one, where
no limit is set and trailers are off. -/

set_option autoImplicit false

namespace HttpStream

open Octet

namespace Reader

variable {capacity n : Nat} {r s t : Reader} {b : UInt8} {bytes more : Bytes}
  {events later : List Event}

/-- The octets lead from one reader to the other, and the events are told of them, up to the cuts
of a body. -/
structure Passes (capacity : Nat) (r : Reader) (bytes : Bytes) (events : List Event) (s : Reader) :
    Prop where
  fine : (r.run true capacity bytes).fault = none
  reader : (r.run true capacity bytes).reader = s
  told : Event.joined (r.run true capacity bytes).events = Event.joined events

namespace Passes

theorem nil (r : Reader) : Passes capacity r [] [] r := ⟨rfl, rfl, rfl⟩

theorem trans (left : Passes capacity r bytes events s) (right : Passes capacity s more later t) :
    Passes capacity r (bytes ++ more) (events ++ later) t := by
  have whole : r.run true capacity (bytes ++ more) =
      (r.run true capacity bytes).andThen fun r => r.run true capacity more := run_append ..
  simp only [Step.andThen, left.fine, left.reader] at whole
  refine ⟨by rw [whole]; exact right.fine, by rw [whole]; exact right.reader, ?_⟩
  rw [whole]
  exact Event.joined_append left.told right.told

theorem of_joined (h : Passes capacity r bytes events s)
    (same : Event.joined events = Event.joined later) : Passes capacity r bytes later s :=
  ⟨h.fine, h.reader, h.told.trans same⟩

theorem of_glides (h : Glides capacity r bytes s) : Passes capacity r bytes [] s := by
  have run := h.run true
  exact ⟨by rw [run]; rfl, by rw [run]; rfl, by rw [run]; rfl⟩

theorem of_push (open_ : r.stage.isComplete = false)
    (pushed : r.push capacity b = { reader := s, events }) (more : s.stage ≠ .content 0) :
    Passes capacity r [b] events s := by
  have advanced : r.advance true capacity b = { reader := s, events } := by
    rw [advance_of_fine open_ (by rw [pushed]) (by rw [pushed]; exact more), pushed]
  rw [← run_singleton] at advanced
  exact ⟨by rw [advanced], by rw [advanced], by rw [advanced]⟩

theorem of_wake (h : Passes capacity (r.wake true) (b :: bytes) events s) :
    Passes capacity r (b :: bytes) events s := by
  have same : r.run true capacity (b :: bytes) = (r.wake true).run true capacity (b :: bytes) := by
    simp only [run, advance, wake_wake]
  exact ⟨by rw [same]; exact h.fine, by rw [same]; exact h.reader, by rw [same]; exact h.told⟩

end Passes

structure Serves (r : Reader) : Prop where
  mode : r.mode = .request
  unlimited : r.settings.limit? = none
  trailers : r.settings.trailers = false

theorem Serves.fits (h : r.Serves) (n : Nat) : r.fits n = true := fits_of_unlimited h.unlimited n

theorem Serves.of_eq (h : r.Serves) (mode : s.mode = r.mode) (settings : s.settings = r.settings) :
    s.Serves :=
  ⟨mode.trans h.mode, by rw [settings, h.unlimited], by rw [settings, h.trailers]⟩

structure Ready (r : Reader) : Prop where
  serves : r.Serves
  idle : r.stage = .start ∧ r.framing = .unknown ∨ r.stage = .done

theorem Ready.wake (h : r.Ready) : (r.wake true).Serves ∧ (r.wake true).stage = .start ∧
    (r.wake true).framing = .unknown := by
  have kin : r.Kin (r.wake true) := kin_wake r true
  refine ⟨h.serves.of_eq kin.mode kin.settings, ?_⟩
  rcases h.idle with ⟨start, framing⟩ | done
  · rw [wake_of_not (by simp [start])]
    exact ⟨start, framing⟩
  · simp [Reader.wake, done, reset]

theorem Ready.skip (h : r.Ready) (capacity : Nat) (blank : bytes.any isVisible = false) :
    ∃ s, Passes capacity r bytes [] s ∧ s.Ready := by
  -- On the octets; each leaves a reader at the start that differs in its count and line end only.
  induction bytes generalizing r with
  | nil => exact ⟨r, .nil r, h⟩
  | cons b rest ih =>
    obtain ⟨first, others⟩ : isVisible b = false ∧ rest.any isVisible = false := by
      simpa using blank
    obtain ⟨serves, start, framing⟩ := h.wake
    let u : Reader := r.wake true
    obtain ⟨headerBytes, afterCr, pushed⟩ := push_lead capacity start (serves.fits 1) first
    let next : Reader := { u with headerBytes, afterCr }
    have passes : Passes capacity u [b] [] next :=
      .of_push (by rw [start]; rfl) pushed (by simp [next, start, u])
    have ready : next.Ready := ⟨serves.of_eq rfl rfl, .inl ⟨start, framing⟩⟩
    obtain ⟨s, onward, ready⟩ := ih ready others
    exact ⟨s, .of_wake (passes.trans onward), ready⟩

theorem Serves.passes_lf (h : r.Serves) (capacity : Nat) (open_ : r.stage.isComplete = false)
    (more : r.stage ≠ .content 0) (afterCr : r.afterCr = true) :
    ∃ headerBytes, Passes capacity r [lf] [] { r with headerBytes, afterCr := false } := by
  obtain ⟨headerBytes, pushed, _⟩ := push_lineRest (r := r) (b := lf) capacity
    (by simp [isLineRest, afterCr, isLineEnd]) fun _ => h.fits 1
  exact ⟨headerBytes, .of_push open_ pushed more⟩

/-! The request line. -/

/-- At the beginning of a line of the field section, with no word on the body so far. -/
structure AtLine (r : Reader) (head : Head) (pending : Option Field) : Prop where
  serves : r.Serves
  stage : r.stage = .lineStart head pending
  framing : r.framing = .unknown
  fresh : r.afterCr = false

theorem glides_uri {method : Method} {target : Bytes} (serves : r.Serves)
    (at_ : r.stage = .beforeUri method) (nonempty : target ≠ [])
    (visible : target.all isVisible = true) :
    Glides capacity r (target ++ [sp])
      { (r.skip (target.length + 1)).enter (.afterUri method) with
        target := .ofList target, afterCr := false } := by
  cases target with
  | nil => exact absurd rfl nonempty
  | cons b rest =>
    rw [List.all_cons, Bool.and_eq_true] at visible
    obtain ⟨_, control⟩ := plain_of_isVisible b visible.1
    -- The first octet opens the target, the others are collected, and the space ends it.
    let first : Reader :=
      { (r.skip 1).enter (.uri method) with target := Snoc.empty.push b, afterCr := false }
    let last : Reader :=
      { first.skip rest.length with target := (Snoc.empty.push b).append rest }
    have serves₁ : first.Serves := serves.of_eq rfl rfl
    have serves₂ : last.Serves := serves.of_eq rfl rfl
    have opens : Glides capacity r [b] first := by
      refine .single (by rw [at_]; rfl) rfl (isLineEnd_of_isVisible b visible.1) (serves.fits 1) ?_
      simp only [interpret, count, at_, pushBeforeUri, isBlank_of_isVisible b visible.1, control,
        Bool.false_eq_true, if_false]
      rfl
    have collects : Glides capacity first rest last :=
      glides_target rfl rfl visible.2 fun _ => serves₁.fits _
    have ends : Glides capacity last [sp] { (last.skip 1).enter (.afterUri method) with
        afterCr := false } := by
      refine .single rfl rfl rfl (serves₂.fits 1) ?_
      simp only [interpret, count, last, first, skip, enter, pushUri, if_true]
    have whole := (opens.trans collects).trans ends
    simpa [last, first, skip, enter, Snoc.append, Snoc.push, Snoc.empty, Snoc.ofList, Nat.add_assoc,
      Nat.add_comm 1] using whole

theorem passes_version (capacity : Nat) {method : Method} (version : Version) (serves : r.Serves)
    (at_ : r.stage = .afterUri method) (framing : r.framing = .unknown) :
    ∃ s, Passes capacity r (Text.toBytes version.text.toList ++ Wire.crlf)
      [.requestLine method r.uri (some version)] s ∧ s.AtLine (.request version false) none := by
  obtain ⟨b, rest, spelling, visible, text⟩ := version.spelled
  have first : isVisible b = true := List.all_eq_true.mp visible b List.mem_cons_self
  -- Up to the last octet of the version, behind the CR, and behind the LF.
  let t : Reader := { (r.skip (rest.length + 1)).enter
    (.requestVersion method (.ofList (Text.ofBytes (b :: rest)))) with afterCr := false }
  let u : Reader := ((t.skip 1).requestLine capacity method version cr).reader
  have serves₁ : t.Serves := serves.of_eq rfl rfl
  have serves₂ : u.Serves := serves.of_eq rfl rfl
  have collects : Glides capacity r (b :: rest) t :=
    glides_open capacity (.requestVersion method) (fun _ => rfl) isLineEnd_of_isVisible
      (fun s token b at_ _ visible => by
        simp [interpret, at_, pushRequestVersion, isLineEnd_of_isVisible b visible])
      (by rw [at_]; rfl)
      (fun s same _ => by
        simp [interpret, same, at_, pushAfterUri, isBlank_of_isVisible b first,
          (plain_of_isVisible b first).2])
      visible (serves.fits _)
  have pushed : t.push capacity cr = (t.skip 1).requestLine capacity method version cr :=
    push_requestVersion rfl (by rwa [Snoc.toList_ofList]) rfl (serves₁.fits 1) rfl
  have ends : Passes capacity t [cr] [.requestLine method r.uri (some version)] u :=
    .of_push rfl pushed (by rintro ⟨⟩)
  obtain ⟨headerBytes, feeds⟩ := serves₂.passes_lf capacity rfl (by rintro ⟨⟩) rfl
  refine ⟨{ u with headerBytes, afterCr := false }, ?_, serves.of_eq rfl rfl, rfl, framing, rfl⟩
  rw [spelling]
  exact (Passes.of_glides collects).trans (ends.trans feeds)

theorem passes_requestLine (capacity : Nat) (request : Wire.Request) (ready : r.Ready) :
    ∃ s, Passes capacity r request.requestLine
      [.requestLine request.method request.target (some request.version)] s ∧
        s.AtLine (.request request.version false) none := by
  obtain ⟨serves, start, framing⟩ := ready.wake
  obtain ⟨octets, name, token⟩ := Text.octets_of_token request.method.isToken
  have visible : octets.all isVisible = true := List.all_eq_true.mpr fun b member =>
    (plain_of_isTokenOctet b (List.all_eq_true.mp token b member)).1
  cases octets with
  | nil => exact absurd name request.method.nonempty
  | cons b rest =>
    -- Ahead of the method, of the target and of the version.
    let u : Reader := r.wake true
    let v : Reader :=
      { (u.skip (rest.length + 2)).enter (.beforeUri request.method) with afterCr := false }
    let w : Reader := { (v.skip (request.target.length + 1)).enter (.afterUri request.method) with
      target := .ofList request.target, afterCr := false }
    have serves₁ : v.Serves := serves.of_eq rfl rfl
    have serves₂ : w.Serves := serves.of_eq rfl rfl
    have method : Glides capacity u (b :: rest ++ [sp]) v :=
      glides_method start serves.mode visible name (serves.fits _)
    have target : Glides capacity v (request.target ++ [sp]) w :=
      glides_uri serves₁ rfl request.nonempty request.visible
    obtain ⟨s, version, line⟩ := passes_version capacity request.version serves₂ rfl framing
    have uri : w.uri = request.target := Snoc.toList_ofList _
    have whole := (Passes.of_glides (method.trans target)).trans version
    have spelled : request.requestLine = b :: (rest ++ [sp] ++ (request.target ++ [sp]) ++
        (Text.toBytes request.version.text.toList ++ Wire.crlf)) := by
      simp [Wire.Request.requestLine, name]
    rw [uri] at whole
    rw [spelled]
    exact ⟨s, .of_wake whole, line⟩

/-! The field section. -/

/-- Wherever a reader has no word on the body, delivering what waits tells these events, and leaves
a mark in its memory at most. -/
def Flushes (head : Head) (pending : Option Field) (after : Head) (events : List Event) : Prop :=
  ∀ r : Reader, r.framing = .unknown →
    ∃ cache, r.flush head pending = .ok ({ r with cache }, after, events)

theorem push_nameStart (capacity : Nat) {head after : Head} {pending : Option Field}
    (at_ : r.AtLine head pending) (flushes : Flushes head pending after events)
    (token : isTokenOctet b = true) :
    ∃ cache, r.push capacity b =
      { reader := { r.count with
          afterCr := false, cache, stage := .fieldName after (Snoc.empty.push (toChar b)) }
        events } := by
  obtain ⟨serves, stage, framing, _⟩ := at_
  obtain ⟨visible, inName, notBlank⟩ := plain_of_isTokenOctet b token
  have notEnd : isLineEnd b = false := isLineEnd_of_isVisible b visible
  have notColon : b ≠ colon := by simp_all [isInName]
  obtain ⟨cache, flushed⟩ := flushes { r.count with afterCr := false } framing
  refine ⟨cache, ?_⟩
  rw [push_of_fits (by rw [stage]; rfl) (serves.fits 1) (isLineRest_of_plain notEnd)]
  simp only [interpret, count, stage, pushLineStart, notColon, notBlank, notEnd, decide_false,
    Bool.or_false, Bool.false_eq_true, if_false] at flushed ⊢
  rw [flushed]
  rfl

theorem passes_valueEnd (capacity : Nat) {head : Head} (line : Wire.Line) (serves : r.Serves)
    (at_ : r.stage = .fieldValue head (StandardName.ofText? line.name) line.name
      (.ofList line.value) false false)
    (framing : r.framing = .unknown) (fresh : r.afterCr = false) :
    ∃ s, Passes capacity r Wire.crlf [] s ∧ s.AtLine head (some line.field) := by
  let s : Reader := { (r.skip 1).enter (.lineStart head (some line.field)) with afterCr := true }
  have serves' : s.Serves := serves.of_eq rfl rfl
  have ended : r.push capacity cr = .quiet s := by
    rw [push_of_fits (by rw [at_]; rfl) (serves.fits 1) (by simp [isLineRest, fresh])]
    have trimmed : (Snoc.ofList line.value).trimmed Text.isBlank = line.value :=
      Snoc.trimmed_ofList line.isValue.closed
    simp only [interpret, count, at_, enter, pushFieldValue, trimmed]
    rfl
  have last : Passes capacity r [cr] [] s := .of_push (by rw [at_]; rfl) ended (by rintro ⟨⟩)
  obtain ⟨headerBytes, feeds⟩ := serves'.passes_lf capacity rfl (by rintro ⟨⟩) rfl
  exact ⟨_, last.trans feeds, serves.of_eq rfl rfl, rfl, framing, rfl⟩

theorem passes_line (capacity : Nat) {head after : Head} {pending : Option Field} (line : Wire.Line)
    (at_ : r.AtLine head pending) (flushes : Flushes head pending after events) :
    ∃ s, Passes capacity r line.wire events s ∧ s.AtLine after (some line.field) := by
  obtain ⟨octets, name, token⟩ := Text.octets_of_token line.isToken
  cases octets with
  | nil => exact absurd name line.nonempty
  | cons b rest =>
    have token {c : UInt8} (member : c ∈ b :: rest) := List.all_eq_true.mp token c member
    have members : rest.all isInName = true := List.all_eq_true.mpr fun c member =>
      (plain_of_isTokenOctet c (token (List.mem_cons_of_mem b member))).2.1
    obtain ⟨cache, pushed⟩ := push_nameStart capacity at_ flushes (token List.mem_cons_self)
    obtain ⟨serves, stage, framing, _⟩ := at_
    -- Behind the first octet, which delivers the field before, and at the end of the value.
    let u : Reader := { r.count with
      afterCr := false, cache, stage := .fieldName after (Snoc.empty.push (toChar b)) }
    let text : Bytes := rest ++ ([colon, sp] ++ Text.toBytes line.value)
    let v : Reader := (u.skip text.length).enter
      (.fieldValue after (StandardName.ofText? line.name) line.name (.ofList line.value) false false)
    have serves₁ : u.Serves := serves.of_eq rfl rfl
    have serves₂ : v.Serves := serves.of_eq rfl rfl
    have first : Passes capacity r [b] events u :=
      .of_push (by rw [stage]; rfl) pushed (by rintro ⟨⟩)
    have glides : Glides capacity u text v :=
      glides_field capacity name members (Text.IsValue.of_token line.isToken).closed line.isValue
        rfl rfl (serves₁.fits _)
    obtain ⟨s, ends, next⟩ := passes_valueEnd capacity line serves₂ rfl framing rfl
    have whole := (first.trans (Passes.of_glides glides)).trans ends
    exact ⟨s, by simpa [Wire.Line.wire, name, text] using whole, next⟩

theorem Flushes.nothing (head : Head) : Flushes head none head [] := fun r _ => ⟨r.cache, rfl⟩

theorem heed_field (r : Reader) (field : Wire.Field) (version : Version) (seen : Bool) :
    ∃ cache, r.heed (.request version seen) field.field = .ok ({ r with cache },
      .request version (seen || field.isHost),
      (field.host?.map fun (host, port) => Event.host host port).toList) := by
  have named (standard : StandardName) :
      standard.names field.named = true ↔ field.field.standard = some standard :=
    StandardName.names_iff
  obtain ⟨noLength, noCoding⟩ := field.ordinary
  have plain (other : field.field.standard ≠ some .host) :
      field.isHost = false ∧ field.host? = none := by
    have not : field.isHost = false := Bool.eq_false_iff.mpr (mt (named .host).mp other)
    exact ⟨not, by simp [Wire.Line.host?, not]⟩
  unfold heed
  split
  -- The two fields that announce a body are not among those of a request.
  · next known => exact absurd ((named _).mpr known) (by simp [noLength])
  · next known => exact absurd ((named _).mpr known) (by simp [noCoding])
  · next known =>
    obtain ⟨not, none⟩ := plain (by simp [known])
    rw [not, none]
    unfold heedConnection
    split
    · exact ⟨.disabled, by simp [pure, Except.pure]⟩
    · exact ⟨r.cache, by simp [pure, Except.pure]⟩
  · next known same =>
    cases same
    have yes : field.isHost = true := (named .host).mpr known
    obtain ⟨name, port, read⟩ := field.readable yes
    have read' : Value.host field.field.value = .ok (name, port) := read
    refine ⟨r.cache, ?_⟩
    rw [read']
    simp [Wire.Line.host?, yes, read, Except.toOption, pure, Except.pure, bind, Except.bind]
  · next others =>
    obtain ⟨not, none⟩ := plain fun known => others version seen known rfl
    exact ⟨r.cache, by simp [not, none, pure, Except.pure]⟩

theorem flushes_field (field : Wire.Field) (version : Version) (seen : Bool) :
    Flushes (.request version seen) (some field.field) (.request version (seen || field.isHost))
      field.events := by
  intro r _
  obtain ⟨cache, heeded⟩ := r.heed_field field version seen
  obtain ⟨cache', remembered, _⟩ := remember_ok (r := { r with cache }) field.field
  refine ⟨cache', ?_⟩
  simp only [flush, heeded, bind, Except.bind, remembered]
  rfl

/-- The fields of a request are told in order; what is known of the last one is told at the next
line. -/
theorem passes_fields (capacity : Nat) (fields : List Wire.Field) (version : Version) {head : Head}
    {pending : Option Field} {seen : Bool} (at_ : r.AtLine head pending)
    (flushes : Flushes head pending (.request version seen) events) :
    ∃ s head' pending' told due, Passes capacity r (fields.flatMap (·.wire)) told s ∧
      s.AtLine head' pending' ∧
      Flushes head' pending' (.request version (seen || fields.any (·.isHost))) due ∧
      told ++ due = events ++ fields.flatMap (·.events) := by
  -- On the fields; each line tells of the field before it, and waits itself.
  induction fields generalizing r head pending seen events with
  | nil =>
    refine ⟨r, head, pending, [], events, .nil r, at_, ?_, by simp⟩
    simpa using flushes
  | cons field rest ih =>
    obtain ⟨s, first, line⟩ := passes_line capacity field.toLine at_ flushes
    obtain ⟨t, head', pending', told, due, onward, line', flushes', whole⟩ :=
      ih line (flushes_field field version seen)
    refine ⟨t, head', pending', events ++ told, due, first.trans onward, line', ?_, ?_⟩
    · simpa [Bool.or_assoc] using flushes'
    · rw [List.append_assoc, whole, List.flatMap_cons]

/-! The announcement of the body. -/

def framingOf : Wire.Body → Framing
  | .none => .unknown
  | .whole _ _ _ => .contentLength
  | .chunked _ => .chunked

def Announces (body : Wire.Body) (head : Head) (pending : Option Field) (after : Head)
    (events : List Event) : Prop :=
  ∀ r : Reader, r.framing = .unknown → ∃ cache contentLength,
    r.flush head pending =
      .ok ({ r with cache, contentLength, framing := framingOf body }, after, events) ∧
    (framingOf body = .contentLength → contentLength = some body.content.length)

theorem flush_contentLength (head : Head) {line : Wire.Line} {n : Nat}
    (standard : line.field.standard = some .contentLength)
    (length : Value.contentLength line.value = .ok n) (positive : 0 < n)
    (framing : r.framing = .unknown) :
    r.flush head (some line.field) =
      .ok ({ r with framing := .contentLength, contentLength := some n }, head, line.events) := by
  have length : Value.contentLength line.field.value = .ok n := length
  rw [Wire.Line.events_of_ne (by simp [standard])]
  simp only [flush, heed, standard, heedContentLength, framing, length, remember]
  simp [bind, Except.bind, pure, Except.pure, positive, StandardName.isRepeated, Wire.Line.field]

theorem flush_transferEncoding (r : Reader) (head : Head) {line : Wire.Line}
    (standard : line.field.standard = some .transferEncoding)
    (chunked : Value.chunked line.value = .ok true) :
    r.flush head (some line.field) = .ok ({ r with framing := .chunked }, head, line.events) := by
  have chunked : Value.chunked line.field.value = .ok true := chunked
  rw [Wire.Line.events_of_ne (by simp [standard])]
  simp only [flush, heed, standard, heedTransferEncoding, chunked, remember]
  simp [bind, Except.bind, pure, Except.pure, StandardName.isRepeated, Wire.Line.field]

theorem passes_announcement (capacity : Nat) (body : Wire.Body) {head after : Head}
    {pending : Option Field} (at_ : r.AtLine head pending) (flushes : Flushes head pending after events) :
    ∃ s head' pending' told due, Passes capacity r (body.line?.toList.flatMap (·.wire)) told s ∧
      s.AtLine head' pending' ∧ Announces body head' pending' after due ∧
      told ++ due = events ++ body.line?.toList.flatMap (·.events) := by
  cases body with
  | none =>
    refine ⟨r, head, pending, [], events, .nil r, at_, ?_, by simp [Wire.Body.line?]⟩
    intro u framing
    obtain ⟨cache, flushed⟩ := flushes u framing
    refine ⟨cache, u.contentLength, ?_, by rintro ⟨⟩⟩
    rw [flushed, framingOf, ← framing]
  | whole bytes nonempty short =>
    let line := Wire.Line.contentLength bytes.length
    obtain ⟨s, told, next⟩ := passes_line capacity line at_ flushes
    refine ⟨s, after, some line.field, events, line.events, ?_, next, ?_, ?_⟩
    · simpa [Wire.Body.line?, line] using told
    · intro u framing
      exact ⟨u.cache, some bytes.length,
        flush_contentLength after (Wire.Line.contentLength_standard bytes.length)
          (Value.contentLength_toDigits short) (List.length_pos_iff.mpr nonempty) framing,
        fun _ => rfl⟩
    · simp [Wire.Body.line?, line]
  | chunked chunks =>
    let line := Wire.Line.transferEncoding
    obtain ⟨s, told, next⟩ := passes_line capacity line at_ flushes
    refine ⟨s, after, some line.field, events, line.events, ?_, next, ?_, ?_⟩
    · simpa [Wire.Body.line?, line] using told
    · intro u _
      exact ⟨u.cache, u.contentLength,
        flush_transferEncoding u after Wire.Line.transferEncoding_standard Value.chunked_text,
        by rintro ⟨⟩⟩
    · simp [Wire.Body.line?, line]

/-! The blank line. -/

def bodyStage (body : Wire.Body) : Stage :=
  match framingOf body with
  | .contentLength => .content body.content.length
  | .chunked => .chunkStart
  | _ => .done

def opening (body : Wire.Body) : List Event :=
  match framingOf body with
  | .contentLength | .chunked => [.headerComplete]
  | _ => [.headerComplete, .messageComplete]

theorem endFields_request {version : Version} {seen : Bool} {body : Wire.Body}
    (host : version.isPersistent = true → seen = true) (framing : r.framing = framingOf body)
    (length : framingOf body = .contentLength → r.contentLength = some body.content.length) :
    ∃ s, r.endFields (.request version seen) = { reader := s, events := opening body } ∧
      r.Kin s ∧ s.stage = bodyStage body ∧ s.afterCr = r.afterCr := by
  have hosted : lacksHost (.request version seen) = false := by
    cases persistent : version.isPersistent with
    | true => simp [lacksHost, persistent, host persistent]
    | false => simp [lacksHost, persistent]
  unfold endFields
  rw [hosted]
  cases body with
  | none =>
    simp only [framingOf] at framing
    simp only [finalFraming, framing]
    exact ⟨_, rfl, ⟨rfl, rfl, rfl⟩, rfl, rfl⟩
  | whole bytes nonempty short =>
    have length := length rfl
    simp only [framingOf] at framing
    simp only [finalFraming, framing, length]
    exact ⟨_, rfl, ⟨rfl, rfl, rfl⟩, rfl, rfl⟩
  | chunked chunks =>
    simp only [framingOf] at framing
    simp only [finalFraming, framing]
    exact ⟨_, rfl, ⟨rfl, rfl, rfl⟩, rfl, rfl⟩

theorem bodyStage_more (body : Wire.Body) : bodyStage body ≠ .content 0 := by
  cases body with
  | none | chunked => nofun
  | whole bytes nonempty short =>
    intro full
    exact nonempty (List.length_eq_zero_iff.mp (Stage.content.inj full))

theorem passes_blank (capacity : Nat) {version : Version} {seen : Bool} {body : Wire.Body}
    {head : Head} {pending : Option Field} (at_ : r.AtLine head pending)
    (announces : Announces body head pending (.request version seen) events)
    (host : version.isPersistent = true → seen = true) :
    ∃ s, Passes capacity r [cr] (events ++ opening body) s ∧ s.Serves ∧
      s.stage = bodyStage body ∧ s.afterCr = true := by
  obtain ⟨serves, stage, framing, fresh⟩ := at_
  let u : Reader := { r.count with afterCr := false }
  obtain ⟨cache, contentLength, flushed, length⟩ := announces u framing
  let w : Reader := { u with cache, contentLength, framing := framingOf body }
  obtain ⟨s, ends, kin, after, ended⟩ :=
    @endFields_request (w.endLine cr) version seen body host rfl length
  have pushed : r.push capacity cr = { reader := s, events := events ++ opening body } := by
    -- The CR delivers the last field as any line does, and then ends the fields.
    rw [push_of_fits (by rw [stage]; rfl) (serves.fits 1) (by simp [isLineRest, fresh])]
    have interpreted : u.interpret capacity cr = u.pushLineStart head pending cr := by
      simp only [interpret, u, count, stage]
    rw [show { r.count with afterCr := false } = u from rfl, interpreted]
    have opens : (cr = colon || isBlank cr) = false := by decide
    have ending : isLineEnd cr = true := rfl
    simp only [pushLineStart, opens, flushed, ending, Bool.false_eq_true, if_false, if_true]
    rw [show endLine _ cr = w.endLine cr from rfl, ends]
  exact ⟨s, .of_push (by rw [stage]; rfl) pushed (after ▸ bodyStage_more body),
    serves.of_eq kin.mode kin.settings, after, ended⟩

end Reader
end HttpStream
