import HttpStream.Proofs.BodyFraming

/-! What the end of the input, and of the connection, tells of a message that it comes upon: that
it was cut short, unless its body goes on until then. -/

set_option autoImplicit false

namespace HttpStream

deriving instance DecidableEq for Entry

def ending (early : Bool) : List Event :=
  (if early then [.earlyEof] else []) ++ [.messageComplete]

theorem Stage.inHead_or_inBody {stage : Stage} (busy : stage.isIdle = false) :
    stage.inHead = true ∨ stage.inBody = true := by
  cases stage <;> simp [inHead, inBody, isIdle] at busy ⊢

namespace Reader

variable {σ : Type} {asked : Bool} {r : Reader} {listener : Listener σ} {events : List Event}

/-- Whether nothing is missing of a message, of which these events were told, but its end. -/
def received (r : Reader) (events : List Event) : Bool :=
  r.framing = .untilClose ||
    r.framing = .contentLength && r.contentLength = some (Event.octets events)

def isFull (r : Reader) : Bool := r.stage = .content 0

/-- A body is known to be told to its end where nothing of it is to come. -/
theorem Accounted.full_iff (h : Accounted asked r events) (measured : r.Measured)
    (busy : r.stage.isIdle = false) :
    r.stage = .content 0 ↔
      r.framing = .contentLength ∧ r.contentLength = some (Event.octets events) := by
  constructor
  · intro full
    obtain ⟨length, _⟩ := h.framed.content 0 full
    refine ⟨h.framed.framing _ (by rw [full]; rfl), ?_⟩
    rw [length, h.delivered.total, Nat.add_zero]
  · rintro ⟨announced, length⟩
    rcases Stage.inHead_or_inBody busy with inside | body
    -- Ahead of the body nothing was told of it, and the announced length is not 0.
    · have none : Event.octets events = 0 :=
        Event.octets_of_contents (h.delivered.none (.inl inside))
      have positive := measured announced
      simp [length, none] at positive
    · obtain ⟨framing, known⟩ := Stage.exists_framing? body
      obtain rfl : .contentLength = framing := announced.symm.trans (h.framed.framing _ known)
      cases stage : r.stage with
      | content remaining =>
        obtain ⟨length', _⟩ := h.framed.content remaining stage
        have count := h.delivered.total
        have whole : Event.octets events = r.contentRead + remaining :=
          Option.some.inj (length.symm.trans length')
        obtain rfl : remaining = 0 := by omega
        rfl
      | _ => simp [stage, Stage.framing?] at known

theorem Accounted.untilClose_iff (h : Accounted asked r events) (busy : r.stage.isIdle = false) :
    r.stage = .untilClose ↔ r.framing = .untilClose := by
  constructor
  · intro stage
    exact h.framed.framing _ (by rw [stage]; rfl)
  · intro waits
    rcases Stage.inHead_or_inBody busy with inside | body
    · exact absurd waits (h.framed.decided inside)
    · obtain ⟨framing, known⟩ := Stage.exists_framing? body
      obtain rfl : .untilClose = framing := waits.symm.trans (h.framed.framing _ known)
      cases stage : r.stage <;> simp [stage, Stage.framing?] at known ⊢

/-- Where an end tells that a message was cut short, as far as the message goes: also where all of
it was told, if it is not over yet. -/
theorem Accounted.early (h : Accounted asked r events) (measured : r.Measured)
    (busy : r.stage.isIdle = false) :
    (!r.received events || r.isFull) = (!decide (r.stage = .untilClose)) := by
  have counted : (decide (r.framing = .contentLength) &&
      decide (r.contentLength = some (Event.octets events))) = r.isFull := by
    rw [← Bool.decide_and]
    exact decide_eq_decide.mpr (h.full_iff measured busy).symm
  have waits : decide (r.framing = .untilClose) = decide (r.stage = .untilClose) :=
    decide_eq_decide.mpr (h.untilClose_iff busy).symm
  rw [received, counted, waits, isFull]
  by_cases stage : r.stage = .untilClose <;> simp [stage]

/-! Both ends, whoever listens. -/

theorem shutdown_logged (state : σ × List Entry) (busy : r.stage.isIdle = false) :
    (r.answer (listener.logged false) state .shutdown).state.2 = state.2 ++
      (ending (!decide (r.stage = .untilClose) && !r.headResponse)).map (.told false) := by
  have events : r.ended.events = ending (!decide (r.stage = .untilClose) && !r.headResponse) := by
    cases stage : r.stage <;> cases head : r.headResponse <;>
      simp [ended, stage, head, ending, Stage.isIdle] at busy ⊢
  have told := (r.shutdown_ended (listener.logged false) state).2
  rw [hear_logged, events] at told
  exact congrArg Prod.snd told

theorem close_logged (state : σ × List Entry) (busy : r.stage.isIdle = false) :
    (r.answer (listener.logged false) state .close).state.2 = state.2 ++
      (ending (!decide (r.stage = .untilClose))).map (.told false) := by
  cases stage : r.stage <;>
    simp [answer, close, hear_logged, stage, ending, Stage.isIdle] at busy ⊢

theorem log_append (listener : Listener σ) (state : σ) (log : List Entry) (calls more : List Call) :
    r.log listener state log (calls ++ more) =
      (r.through listener state calls).1.log listener (r.through listener state calls).2
        (r.log listener state log calls) more := by
  induction calls generalizing r state log with
  | nil => rfl
  | cons call rest ih =>
    have answered := @answer_inner _ r listener call.isRead (state, log) call
    simp only [List.cons_append, Reader.log, through, ih, answered]

/-- Whoever listens and whatever was asked of a connection: the end of the connection tells that the
message under way was cut short, unless nothing of it is missing; and so does the end of the input,
unless the message was said to answer a HEAD request. Both tell it of a body, too, that was told to
the end of its announced length and that no reading has ended yet, which is where a stop at its last
slice leaves it. -/
theorem log_ending (mode : Mode) (settings : Settings) (listener : Listener σ) (state : σ)
    (calls : List Call) :
    let r := (Reader.through { mode, settings } listener state calls).1
    let log (more : List Call) := Reader.log { mode, settings } listener state [] (calls ++ more)
    let events := heard (log [])
    r.stage.isIdle = false →
      let early := !r.received events || r.isFull
      (r.isFull = true ↔
        r.framing = .contentLength ∧ r.contentLength = some (Event.octets events)) ∧
      log [.close] = log [] ++ (ending early).map (.told false) ∧
      log [.shutdown] = log [] ++ (ending (early && !r.headResponse)).map (.told false) := by
  intro r log events busy early
  obtain ⟨sound, known⟩ : r.Sound ∧ r.Known events := by
    simp only [events, log, List.append_nil]
    exact through_known calls state (.fresh mode settings)
      (.accounted false (.fresh mode settings false false .unset))
  cases known with
  | ended closed => simp [closed, Stage.isIdle] at busy
  | accounted asked accounted =>
    have early_eq : early = (!decide (r.stage = .untilClose)) := accounted.early sound.measured busy
    refine ⟨by simpa [isFull] using accounted.full_iff sound.measured busy, ?_, ?_⟩
    · simp only [log, log_append, early_eq]
      exact close_logged _ busy
    · simp only [log, log_append, early_eq]
      exact shutdown_logged _ busy

theorem log_ending_of_body :
    let listener := Recorder.listener {}
    let calls : List Call :=
      [.read [Text.toBytes "PUT / HTTP/1.0\r\nContent-Length: 100\r\n\r\npartial".toList]]
    let log (more : List Call) := Reader.log { mode := .request } listener {} [] (calls ++ more)
    (Reader.through { mode := .request } listener {} calls).1.stage.isIdle = false ∧
      log [.close] = log [] ++ [.told false .earlyEof, .told false .messageComplete] := by
  intro listener calls log
  have short : (Reader.through { mode := .request } listener {} calls).1.stage.isIdle = false ∧
      (Reader.through { mode := .request } listener {} calls).1.received
        (heard (log [])) = false := by
    decide +kernel
  have told := (log_ending .request {} listener {} calls short.1).2.1
  rw [short.2] at told
  exact ⟨short.1, told⟩

/-- A body of which nothing is missing is told to be cut short, once a stop at its last slice has
left the end of the message to the next reading; and the end of the input passes over it that the
head of an answer to a HEAD request was cut short. -/
theorem log_ending_stopped :
    let stopping := Recorder.listener { stopOn := [.content] }
    let whole : List Call :=
      [.read [Text.toBytes "POST / HTTP/1.0\r\nContent-Length: 5\r\n\r\nhello".toList]]
    let head : List Call :=
      [.headResponse true, .read [Text.toBytes "HTTP/1.1 200 OK\r\nContent-Le".toList]]
    let body (more : List Call) :=
      Reader.log { mode := .request } stopping {} [] (whole ++ more)
    let answer (more : List Call) :=
      Reader.log { mode := .response } (Recorder.listener {}) {} [] (head ++ more)
    (Reader.through { mode := .request } stopping {} whole).1.received (heard (body [])) = true ∧
      body [.close] = body [] ++ [.told false .earlyEof, .told false .messageComplete] ∧
      body [.shutdown] = body [] ++ [.told false .earlyEof, .told false .messageComplete] ∧
      (Reader.through { mode := .response } (Recorder.listener {}) {} head).1.received
        (heard (answer [])) = false ∧
      answer [.close] = answer [] ++ [.told false .earlyEof, .told false .messageComplete] ∧
      answer [.shutdown] = answer [] ++ [.told false .messageComplete] := by
  decide +kernel

end Reader
end HttpStream
