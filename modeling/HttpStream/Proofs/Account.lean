import HttpStream.Proofs.Turns

/-! What is told of a message, and how far it has been told where a reader stands. -/

set_option autoImplicit false

namespace HttpStream

open Octet

/-- A field as it is told: a host of a request comes ahead of the field that names it. -/
structure Notice (mode : Mode) where
  name : Text
  value : Text
  host : Option (Text × Option Nat) := none
  isHost : host ≠ none → mode = .request ∧ Text.fold name = "host".toList

def Notice.events {mode : Mode} (notice : Notice mode) : List Event :=
  (notice.host.map fun (host, port) => Event.host host port).toList ++
    [.header notice.name notice.value]

def Event.opens (mode : Mode) : Event → Bool
  | .requestLine .. => mode = .request
  | .statusLine .. => mode = .response
  | _ => false

/-- What is told of a whole message. Trailers are told only where they are read at all. -/
structure Account (mode : Mode) (trailing : Bool) where
  start : Event
  opens : start.opens mode = true
  notices : List (Notice mode) := []
  slices : List Bytes := []
  trailers : List (Text × Text) := []
  configured : trailers ≠ [] → trailing = true

namespace Account

variable {mode : Mode} {trailing : Bool}

def opening (account : Account mode trailing) : List Event :=
  account.start :: account.notices.flatMap Notice.events

def throughBody (account : Account mode trailing) : List Event :=
  account.opening ++ .headerComplete :: account.slices.map .content

def throughTrailers (account : Account mode trailing) : List Event :=
  account.throughBody ++ account.trailers.map fun (name, value) => .trailer name value

def events (account : Account mode trailing) : List Event :=
  account.throughTrailers ++ [.messageComplete]

def ofStart (start : Event) (opens : start.opens mode = true) : Account mode trailing :=
  { start, opens, configured := nofun }

def bare (account : Account mode trailing) : Account mode trailing :=
  { account with trailers := [], configured := nofun }

theorem exists_account (mode : Mode) (trailing : Bool) : Nonempty (Account mode trailing) := by
  cases mode with
  | request => exact ⟨ofStart (.requestLine ⟨"GET".toList, by decide, by decide⟩ [] none) rfl⟩
  | response => exact ⟨ofStart (.statusLine .http10 200 none) rfl⟩

theorem messageComplete_notMem (account : Account mode trailing) :
    Event.messageComplete ∉ account.throughTrailers := by
  have opening : Event.messageComplete ≠ account.start := fun same => by
    have opens := account.opens
    rw [← same] at opens
    cases opens
  have notices : ∀ notice ∈ account.notices, Event.messageComplete ∉ notice.events := by
    intro notice _
    cases host : notice.host <;> simp [Notice.events, host]
  simp only [throughTrailers, throughBody, Account.opening, List.mem_append, List.mem_cons,
    List.mem_flatMap, List.mem_map, not_or, not_exists, not_and]
  exact ⟨⟨⟨opening, notices⟩, nofun, fun _ _ => nofun⟩, fun _ _ => nofun⟩

theorem messageComplete_notMem_of_short {events : List Event} (account : Account mode trailing)
    (start : events <+: account.events) (short : events ≠ account.events) :
    Event.messageComplete ∉ events := by
  have start : events <+: account.throughTrailers :=
    (List.prefix_concat_iff.mp start).resolve_left short
  exact fun member => account.messageComplete_notMem (start.subset member)

end Account

inductive Part where
  | startLine
  | fields
  | body
  | trailers
  | finished
  | closed

namespace Stage

def part : Stage → Part
  | .lineStart _ _ | .fieldName _ _ | .fieldValue _ _ _ _ _ _ => .fields
  | .untilClose | .content _ | .chunkStart | .chunkSize _ | .chunkParams _ | .chunkData _ => .body
  | .trailer _ => .trailers
  | .done => .finished
  | .closed => .closed
  | _ => .startLine

variable {stage : Stage}

theorem part_of_inStartLine (line : stage.inStartLine = true) : stage.part = .startLine := by
  cases stage <;> simp_all [inStartLine, part]

theorem part_of_inFields (line : stage.inFields = true) : stage.part = .fields := by
  cases stage <;> simp_all [inFields, part]

/-- Of the body only the octets of trailers are counted. -/
theorem part_of_inBody (body : stage.inBody = true) :
    stage.part = if stage.isCounted then .trailers else .body := by
  cases stage <;> simp_all [inBody, isCounted, inHead, part]

theorem part_eq_finished : stage.part = .finished ↔ stage = .done := by
  cases stage <;> simp [part]

@[simp] theorem part_plain (stage : Stage) : stage.plain.part = stage.part := by
  cases stage <;> rfl

end Stage

/-- What has been told of a message, in the part of it that is read. -/
inductive Told (mode : Mode) (trailing : Bool) : Part → List Event → Prop where
  | startLine : Told mode trailing .startLine []
  | fields (account : Account mode trailing) : Told mode trailing .fields account.opening
  | body (account : Account mode trailing) : Told mode trailing .body account.throughBody
  | trailers (configured : trailing = true) (account : Account mode trailing) :
      Told mode trailing .trailers account.throughTrailers
  | finished (account : Account mode trailing) : Told mode trailing .finished account.events

namespace Told

variable {mode : Mode} {trailing : Bool} {events : List Event} {part : Part}

theorem silent {more : List Event} (told : Told mode trailing part events) (nothing : more = []) :
    Told mode trailing part (events ++ more) := by
  rw [nothing, List.append_nil]
  exact told

theorem start (told : Told mode trailing .startLine events) (start : Event)
    (opens : start.opens mode = true) : Told mode trailing .fields (events ++ [start]) := by
  cases told
  exact .fields (.ofStart start opens)

theorem notice (told : Told mode trailing .fields events) (notice : Notice mode) :
    Told mode trailing .fields (events ++ notice.events) := by
  cases told with
  | fields account =>
    have next : account.opening ++ notice.events =
        { account with notices := account.notices ++ [notice] }.opening := by
      simp [Account.opening]
    rw [next]
    exact .fields _

theorem headerComplete (told : Told mode trailing .fields events) :
    Told mode trailing .body (events ++ [.headerComplete]) := by
  cases told with
  | fields account => exact .body { account with slices := [] }

theorem content (told : Told mode trailing .body events) (bytes : Bytes) :
    Told mode trailing .body (events ++ [.content bytes]) := by
  cases told with
  | body account =>
    have next : account.throughBody ++ [.content bytes] =
        { account with slices := account.slices ++ [bytes] }.throughBody := by
      simp [Account.throughBody, Account.opening]
    rw [next]
    exact .body _

theorem toTrailers (told : Told mode trailing .body events) (configured : trailing = true) :
    Told mode trailing .trailers events := by
  cases told with
  | body account =>
    have same : account.throughBody = account.bare.throughTrailers := by
      simp [Account.bare, Account.throughTrailers, Account.throughBody, Account.opening]
    rw [same]
    exact .trailers configured account.bare

theorem trailer (told : Told mode trailing .trailers events) (name value : Text) :
    Told mode trailing .trailers (events ++ [.trailer name value]) := by
  cases told with
  | trailers configured account =>
    have next : account.throughTrailers ++ [.trailer name value] =
        { account with
          trailers := account.trailers ++ [(name, value)]
          configured := fun _ => configured }.throughTrailers := by
      simp [Account.throughTrailers, Account.throughBody, Account.opening]
    rw [next]
    exact .trailers configured _

theorem messageComplete (told : Told mode trailing part events)
    (last : part = .body ∨ part = .trailers) :
    Told mode trailing .finished (events ++ [.messageComplete]) := by
  cases told with
  | startLine | fields | finished => simp at last
  | body account =>
    have whole : account.throughBody ++ [.messageComplete] = account.bare.events := by
      simp [Account.bare, Account.events, Account.throughTrailers, Account.throughBody,
        Account.opening]
    rw [whole]
    exact .finished account.bare
  | trailers _ account => exact .finished account

theorem goesOn (told : Told mode trailing part events) :
    ∃ (account : Account mode trailing) (rest : List Event), account.events = events ++ rest ∧
      (part ≠ .finished → rest ≠ []) := by
  cases told with
  | startLine =>
    obtain ⟨account⟩ := Account.exists_account mode trailing
    exact ⟨account, account.events, rfl, by simp [Account.events]⟩
  | fields account =>
    refine ⟨account, .headerComplete :: account.slices.map .content ++
      account.trailers.map (fun (name, value) => .trailer name value) ++ [.messageComplete], ?_,
      nofun⟩
    simp [Account.events, Account.throughTrailers, Account.throughBody]
  | body account =>
    refine ⟨account, account.trailers.map (fun (name, value) => .trailer name value) ++
      [.messageComplete], ?_, by simp⟩
    simp [Account.events, Account.throughTrailers]
  | trailers _ account => exact ⟨account, [.messageComplete], rfl, by simp⟩
  | finished account => exact ⟨account, [], by simp, by simp⟩

end Told
end HttpStream
