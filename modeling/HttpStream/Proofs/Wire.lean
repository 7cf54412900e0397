import HttpStream.Proofs.Lengths

/-! Requests as their clients write them: what stands on the wire, and what is to be told of it. -/

set_option autoImplicit false

namespace HttpStream

open Octet

/-! Tokens. -/

theorem Text.range_of_isTokenChar {c : Char} (token : isTokenChar c = true) :
    0x20 < c.toNat ∧ c.toNat < 0x7f ∧ c.toNat ≠ 0x3a := by
  rcases (Bool.or_eq_true _ _).mp token with letter | sign
  · delta Char.isAlphanum Char.isAlpha Char.isUpper Char.isLower Char.isDigit at letter
    simp only [Bool.or_eq_true, Bool.and_eq_true, decide_eq_true_eq, UInt32.le_iff_toNat_le,
      ge_iff_le] at letter
    change ((0x41 ≤ c.toNat ∧ c.toNat ≤ 0x5a) ∨ (0x61 ≤ c.toNat ∧ c.toNat ≤ 0x7a)) ∨
      (0x30 ≤ c.toNat ∧ c.toNat ≤ 0x39) at letter
    omega
  · have signs : ("!#$%&'*+-.^_`|~".toList.all fun c =>
        0x20 < c.toNat && c.toNat < 0x7f && c.toNat != 0x3a) = true := by decide
    simpa [and_assoc] using List.all_eq_true.mp signs c (List.contains_iff_mem.mp sign)

def Octet.isTokenOctet (b : UInt8) : Bool := Text.isTokenChar (toChar b)

theorem Octet.plain_of_isTokenOctet (b : UInt8) (token : isTokenOctet b = true) :
    isVisible b = true ∧ isInName b = true ∧ isBlank b = false := by
  obtain ⟨graphic, _, notColon⟩ := Text.range_of_isTokenChar token
  rw [toNat_toChar] at graphic notColon
  have visible : isVisible b = true := by simpa [isVisible, sp, UInt8.lt_iff_toNat_lt] using graphic
  have other : b ≠ colon := by
    rintro rfl
    exact notColon rfl
  exact ⟨visible, by simp [isInName, isLineEnd_of_isVisible b visible, other],
    isBlank_of_isVisible b visible⟩

namespace Text

variable {text : Text}

theorem octets_of_token (token : text.all isTokenChar = true) :
    ∃ bytes, text = ofBytes bytes ∧ bytes.all isTokenOctet = true := by
  induction text with
  | nil => exact ⟨[], rfl, rfl⟩
  | cons c text ih =>
    rw [List.all_cons, Bool.and_eq_true] at token
    obtain ⟨bytes, rfl, octets⟩ := ih token.2
    obtain ⟨_, small, _⟩ := range_of_isTokenChar token.1
    have first : toChar (UInt8.ofNat c.toNat) = c := toChar_of_octet? (if_pos (by omega))
    refine ⟨UInt8.ofNat c.toNat :: bytes, by simp [ofBytes, first], ?_⟩
    rw [List.all_cons, octets, isTokenOctet, first, token.1]
    rfl

theorem IsValue.of_token (token : text.all isTokenChar = true) : IsValue text := by
  obtain ⟨bytes, rfl, octets⟩ := octets_of_token token
  have plain {b : UInt8} (member : b ∈ bytes) :=
    plain_of_isTokenOctet b (List.all_eq_true.mp octets b member)
  have solid {c : Char} (member : c ∈ ofBytes bytes) : isBlank c = false := by
    obtain ⟨b, octet, rfl⟩ := List.mem_map.mp member
    rw [isBlank_toChar]
    exact (plain octet).2.2
  exact ⟨⟨bytes, rfl, fun b member => isLineEnd_of_isVisible b (plain member).1⟩,
    fun c first => solid (List.mem_of_mem_head? first),
    fun c last => solid (List.mem_of_getLast? last)⟩

theorem isTokenChar_of_isDigit {c : Char} (digit : c.isDigit = true) : isTokenChar c = true := by
  simp [isTokenChar, Char.isAlphanum, digit]

end Text

theorem Value.chunked_text : chunked StandardToken.chunked.text.toList = .ok true := by
  have single : Text.elements StandardToken.chunked.text.toList =
      [StandardToken.chunked.text.toList] := by decide +kernel
  have known := StandardToken.ofText?_text .chunked
  simp only [chunked, single, List.getLast?_singleton, Option.bind_some, known, if_true]

theorem Octet.hexValue?_digitChar : ∀ d < 16, ∃ b, Text.toBytes [d.digitChar] = [b] ∧
    isVisible b = true ∧ b ≠ semicolon ∧ hexValue? b = some d := by
  have digits : ∀ d < 16, (Text.toBytes [d.digitChar]).length = 1 ∧
      ∀ b ∈ Text.toBytes [d.digitChar],
        isVisible b = true ∧ b ≠ semicolon ∧ hexValue? b = some d := by
    decide +kernel
  intro d small
  obtain ⟨single, plain⟩ := digits d small
  obtain ⟨b, octet⟩ := List.length_eq_one_iff.mp single
  exact ⟨b, octet, plain b (by simp [octet])⟩

theorem Text.toBytes_append (first second : Text) :
    toBytes (first ++ second) = toBytes first ++ toBytes second := List.filterMap_append

namespace Wire

def crlf : Bytes := [cr, lf]

structure Line where
  name : Text
  value : Text
  nonempty : name ≠ []
  isToken : name.all Text.isTokenChar = true
  isValue : Text.IsValue value

namespace Line

def named (line : Line) : NamedField := (line.name, line.value)

def wire (line : Line) : Bytes :=
  Text.toBytes line.name ++ [colon, sp] ++ Text.toBytes line.value ++ crlf

def isHost (line : Line) : Bool := StandardName.host.names line.named

def host? (line : Line) : Option (Text × Option Nat) :=
  if line.isHost then (Value.host line.value).toOption else none

def field (line : Line) : HttpStream.Field :=
  ⟨StandardName.ofText? line.name, line.name, line.value, false⟩

def events (line : Line) : List Event :=
  (line.host?.map fun (host, port) => Event.host host port).toList ++
    [.header line.name line.value]

theorem isHost_iff {line : Line} : line.isHost = true ↔ line.field.standard = some .host :=
  StandardName.names_iff

theorem events_of_ne {line : Line} (other : line.field.standard ≠ some .host) :
    line.events = [.header line.name line.value] := by
  have plain : line.isHost = false := Bool.eq_false_iff.mpr (mt isHost_iff.mp other)
  simp [events, host?, plain]

def contentLength (n : Nat) : Line where
  name := StandardName.contentLength.text.toList
  value := Nat.toDigits 10 n
  nonempty := by decide
  isToken := by decide
  isValue := .of_token <| List.all_eq_true.mpr fun _ member =>
    Text.isTokenChar_of_isDigit (Nat.isDigit_of_mem_toDigits (by decide) (by decide) member)

def transferEncoding : Line where
  name := StandardName.transferEncoding.text.toList
  value := StandardToken.chunked.text.toList
  nonempty := by decide
  isToken := by decide
  isValue := .of_token (by decide)

theorem contentLength_standard (n : Nat) :
    (contentLength n).field.standard = some .contentLength := by
  simp only [field, contentLength]
  exact StandardName.ofText?_text .contentLength

theorem transferEncoding_standard : transferEncoding.field.standard = some .transferEncoding := by
  simp only [field, transferEncoding]
  exact StandardName.ofText?_text .transferEncoding

end Line

/-- A field that does not say how long the body is, and names a host only if it can be read. -/
structure Field extends Line where
  ordinary : StandardName.contentLength.names toLine.named = false ∧
    StandardName.transferEncoding.names toLine.named = false
  readable : toLine.isHost = true → ∃ host port, Value.host value = .ok (host, port)

/-- A chunk. Its size is a number of 64 bits, as the length of any slice of octets is. -/
structure Chunk where
  bytes : Bytes
  nonempty : bytes ≠ []
  short : bytes.length < UInt64.size

def Chunk.wire (chunk : Chunk) : Bytes :=
  Text.toBytes (Nat.toDigits 16 chunk.bytes.length) ++ crlf ++ chunk.bytes ++ crlf

inductive Body where
  | none
  -- A body whose length is a signed number of 64 bits.
  | whole (bytes : Bytes) (nonempty : bytes ≠ []) (short : bytes.length < 2 ^ 63)
  | chunked (chunks : List Chunk)

namespace Body

def line? : Body → Option Line
  | .none => Option.none
  | .whole bytes _ _ => some (.contentLength bytes.length)
  | .chunked _ => some .transferEncoding

def wire : Body → Bytes
  | .none => []
  | .whole bytes _ _ => bytes
  | .chunked chunks =>
    chunks.flatMap Chunk.wire ++ Text.toBytes (Nat.toDigits 16 0) ++ crlf ++ crlf

def content : Body → Bytes
  | .none => []
  | .whole bytes _ _ => bytes
  | .chunked chunks => chunks.flatMap Chunk.bytes

def events (body : Body) : List Event :=
  if body.content.isEmpty then [] else [.content body.content]

theorem joined_events (body : Body) : Event.joined body.events = body.events := by
  unfold events
  split <;> rfl

end Body

structure Request where
  method : Method
  target : Bytes
  version : Version
  fields : List Field
  body : Body
  nonempty : target ≠ []
  visible : target.all isVisible = true
  known : version = .http10 ∨ version = .http11
  hosted : version = .http11 → ∃ field ∈ fields, field.isHost = true

namespace Request

/-- All the lines of the field section; what announces the body stands last. -/
def lines (request : Request) : List Line :=
  request.fields.map Field.toLine ++ request.body.line?.toList

def requestLine (request : Request) : Bytes :=
  Text.toBytes request.method.name ++ [sp] ++ request.target ++ [sp] ++
    Text.toBytes request.version.text.toList ++ crlf

def wire (request : Request) : Bytes :=
  request.requestLine ++ request.lines.flatMap Line.wire ++ crlf ++ request.body.wire

example :
    Request.wire
      { method := ⟨"PUT".toList, by decide, by decide⟩, target := [0x2f], version := .http11
        fields := [
          { name := "host".toList, value := "a".toList, nonempty := by decide, isToken := by decide
            isValue := .of_token (by decide), ordinary := by decide
            readable := fun _ => ⟨"a".toList, none, rfl⟩ }]
        body := .chunked [⟨[0x41, 0x42], by decide, by decide⟩]
        nonempty := by decide, visible := by decide, known := .inr rfl
        hosted := fun _ => ⟨_, List.mem_cons_self, by decide⟩ } =
      Text.toBytes ("PUT / HTTP/1.1\r\nhost: a\r\nTransfer-Encoding: chunked\r\n\r\n" ++
        "2\r\nAB\r\n0\r\n\r\n").toList := by
  decide +kernel

def events (request : Request) : List Event :=
  .requestLine request.method request.target (some request.version) ::
    (request.lines.flatMap Line.events ++ .headerComplete :: request.body.events ++
      [.messageComplete])

end Request

end Wire
end HttpStream
