import HttpStream.Proofs.Calls

/-! What a reader counts: never more than it has read, and never more of the start line and the
fields than the limit allows. -/

set_option autoImplicit false

namespace HttpStream.Reader

variable {r s t : Reader} {b : UInt8} {capacity m n : Nat} {step : Step} {bytes : Bytes}
  {turn : Turn}

/-- Of the octets between the two readers, `n` at most were counted. -/
structure Counts (r s : Reader) (n : Nat) : Prop where
  headerBytes : s.headerBytes ≤ r.headerBytes + n
  contentRead : s.contentRead ≤ r.contentRead + n

theorem Counts.trans (first : r.Counts s m) (second : s.Counts t n) : r.Counts t (m + n) := by
  obtain ⟨header, content⟩ := first
  obtain ⟨header', content'⟩ := second
  constructor <;> omega

theorem Counts.of_eq (headerBytes : s.headerBytes = r.headerBytes)
    (contentRead : s.contentRead = r.contentRead) (n : Nat) : r.Counts s n := by
  constructor <;> omega

theorem FieldStep.contentRead (h : r.FieldStep b step) :
    step.reader.contentRead ≤ r.contentRead := by
  have flushed {s : Reader} {head after : Head} {pending : Option Field} {events : List Event}
      (h : r.flush head pending = .ok (s, after, events)) : s.contentRead = r.contentRead := by
    obtain ⟨⟨framing, contentLength, cache, rfl, _⟩, _⟩ := flush_ok h
    rfl
  cases h with
  | inside | fault => exact Nat.le_refl _
  | field _ _ delivered =>
    have same := flushed delivered
    exact Nat.le_of_eq same
  | blank _ _ delivered =>
    obtain ⟨framing, contentLength, cache, step, same, blank, _⟩ := flush_blank delivered b
    rw [same]
    cases blank with
    | fault => exact Nat.le_refl _
    | body | finished => exact Nat.zero_le _

theorem interpret_contentRead (sound : r.Sound) :
    (r.interpret capacity b).reader.contentRead ≤ r.contentRead + 1 := by
  rcases part_cases r.stage with line | line | body | finished
  · have step : r.StartLineStep capacity b (r.interpret capacity b) :=
      interpret_startLine sound line
    have same : (r.interpret capacity b).reader.contentRead = r.contentRead := by
      generalize r.interpret capacity b = step' at step
      cases step <;> rfl
    omega
  · have step : r.FieldStep b (r.interpret capacity b) := interpret_fields sound line
    exact Nat.le_succ_of_le step.contentRead
  · have step : r.BodyStep b (r.interpret capacity b) := interpret_body body
    generalize r.interpret capacity b = step' at step
    cases step with
    | slice => exact Nat.le_refl _
    | _ => exact Nat.le_succ _
  · rcases finished with stage | stage <;> simp only [interpret, stage] <;> exact Nat.le_succ _

theorem push_counts (sound : r.Sound) (capacity : Nat) (b : UInt8) :
    r.Counts (r.push capacity b).reader 1 := by
  constructor
  · rw [push_headerBytes sound]
    split <;> omega
  · rcases push_reader r capacity b with ⟨headerBytes, afterCr, same⟩ | ⟨headerBytes, same⟩
    · rw [same]
      exact Nat.le_succ _
    · rw [same]
      exact interpret_contentRead (sound.counted headerBytes false)

theorem Glides.counts (h : Glides capacity r bytes s) (sound : r.Sound) :
    r.Counts s bytes.length := by
  induction h with
  | nil r => exact .of_eq rfl rfl 0
  | @cons r s t b rest plain before after quiet more ih =>
    have next := sound.push capacity b
    have first := push_counts sound capacity b
    rw [quiet] at next first
    rw [List.length_cons, Nat.add_comm]
    exact first.trans (ih next)

theorem drain_counts {bytes : Bytes} (h : r.drain bytes = (s, n)) : r.Counts s n := by
  induction bytes generalizing r s n with
  | nil =>
    cases h
    exact .of_eq rfl rfl 0
  | cons b rest ih =>
    unfold drain at h
    split at h
    · obtain ⟨t, m, later⟩ : ∃ t m, (r.count.endLine b).drain rest = (t, m) := ⟨_, _, rfl⟩
      rw [later] at h
      cases h
      have first : r.Counts (r.count.endLine b) 1 := ⟨Nat.le_refl _, Nat.le_succ _⟩
      rw [Nat.add_comm]
      exact first.trans (ih later)
    · cases h
      exact .of_eq rfl rfl 0

theorem TurnCase.counts (h : r.TurnCase capacity b bytes turn) (sound : r.Sound) :
    r.Counts turn.step.reader (turn.extra + 1) := by
  have next := sound.push capacity b
  have first := push_counts sound capacity b
  have size {n : Nat} (within : n ≤ bytes.length) : (bytes.take n).length = n := by
    rw [List.length_take, Nat.min_eq_left within]
  rw [Nat.add_comm]
  cases h with
  | octet => exact first
  | known within _ glides =>
    have all := glides.counts sound
    rwa [List.length_cons, size within, Nat.add_comm] at all
  | @slice n within =>
    constructor
    · exact Nat.le_add_right _ _
    · simp only [deliver, List.length_cons, size within]
      omega
  | onward _ _ within glides noted =>
    have more := glides.counts next
    rw [size within] at more
    obtain ⟨stage, rfl, _⟩ := noted
    have same := first.trans more
    exact ⟨same.headerBytes, same.contentRead⟩
  | @line s t n ending quiet _ glides found =>
    have within : n ≤ bytes.length := Nat.le_of_lt (List.getElem?_eq_some_iff.mp found).1
    rw [quiet] at next first
    have more := glides.counts next
    rw [size within] at more
    exact first.trans (more.trans (push_counts (glides.sound next) capacity ending))
  | lineEnd _ _ drained => exact first.trans (drain_counts drained)
  | chunkEnd _ _ _ taken =>
    obtain ⟨_, afterCr, rfl⟩ := takeLf_frame taken
    obtain ⟨header, content⟩ := first
    exact ⟨Nat.le_trans header (by omega), Nat.le_trans content (by omega)⟩

/-! The limit. -/

def InBudget (r : Reader) : Prop := ∀ limit ∈ r.settings.limit?, r.headerBytes ≤ limit

theorem inBudget_of_limitFault? (fine : r.limitFault? = none) : r.InBudget := by
  intro limit found
  simp only [limitFault?, Option.mem_def.mp found] at fine
  split at fine
  · assumption
  · split at fine <;> cases fine

theorem InBudget.of_eq (h : r.InBudget) (settings : s.settings = r.settings)
    (headerBytes : s.headerBytes = r.headerBytes) : s.InBudget := by
  intro limit found
  rw [settings] at found
  rw [headerBytes]
  exact h limit found

theorem push_inBudget (sound : r.Sound) (h : r.InBudget)
    (fine : (r.push capacity b).fault = none) : (r.push capacity b).reader.InBudget := by
  have kin : r.Kin (r.push capacity b).reader := push_kin sound
  have count := push_headerBytes sound capacity b
  cases counted : r.stage.isCounted with
  | false =>
    rw [counted] at count
    exact h.of_eq kin.settings count
  | true =>
    cases limit : r.count.limitFault? with
    | some fault =>
      rw [push_of_limit counted limit] at fine
      cases fine
    | none =>
      rw [counted] at count
      exact (inBudget_of_limitFault? limit).of_eq kin.settings count

theorem Glides.inBudget (h : Glides capacity r bytes s) (sound : r.Sound) (within : r.InBudget) :
    s.InBudget :=
  h.keeps sound within fun _ _ sound _ fine within => push_inBudget sound within fine

theorem drain_inBudget {bytes : Bytes} (h : r.drain bytes = (s, n)) (within : r.InBudget) :
    s.InBudget := by
  induction bytes generalizing r s n with
  | nil =>
    cases h
    exact within
  | cons b rest ih =>
    unfold drain at h
    split at h
    · next allowed =>
      obtain ⟨t, m, later⟩ : ∃ t m, (r.count.endLine b).drain rest = (t, m) := ⟨_, _, rfl⟩
      rw [later] at h
      cases h
      apply ih later
      intro limit found
      have found : r.settings.limit? = some limit := found
      simp only [fits, found, Bool.and_eq_true, decide_eq_true_eq] at allowed
      exact allowed.2
    · cases h
      exact within

theorem TurnCase.inBudget (h : r.TurnCase capacity b bytes turn) (sound : r.Sound)
    (within : r.InBudget) (right : turn.step.fault = none) : turn.step.reader.InBudget := by
  have next := sound.push capacity b
  cases h with
  | octet => exact push_inBudget sound within right
  | known _ _ glides => exact glides.inBudget sound within
  | slice => exact within
  | onward fine _ _ glides noted =>
    obtain ⟨stage, rfl, _⟩ := noted
    exact glides.inBudget next (push_inBudget sound within fine)
  | @line s t n ending quiet _ glides _ fine =>
    have later : (r.push capacity b).reader.InBudget :=
      push_inBudget sound within (by rw [quiet]; rfl)
    rw [quiet] at next later
    exact push_inBudget (glides.sound next) (glides.inBudget next later) fine
  | lineEnd fine _ drained => exact drain_inBudget drained (push_inBudget sound within fine)
  | chunkEnd fine _ _ taken =>
    obtain ⟨_, afterCr, rfl⟩ := takeLf_frame taken
    exact push_inBudget sound within fine

end HttpStream.Reader
