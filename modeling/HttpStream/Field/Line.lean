import HttpStream.Field.Name

/-! Field lines whose exact text is known in advance. -/

set_option autoImplicit false

namespace HttpStream

structure FieldLine where
  standard : StandardName
  name : Text
  value : Text
  deriving DecidableEq, Repr

namespace FieldLine

def wire (line : FieldLine) : Bytes :=
  Text.toBytes line.name ++ [Octet.colon, Octet.sp] ++ Text.toBytes line.value

def usual (standard : StandardName) (value : Text) : FieldLine :=
  ⟨standard, standard.text.toList, value⟩

def wellKnown : List FieldLine :=
  [(.connection, "close"), (.connection, "keep-alive"), (.connection, "Upgrade"),
   (.accept, "*/*"),
   (.acceptEncoding, "gzip"), (.acceptEncoding, "gzip, deflate"),
   (.acceptEncoding, "gzip, deflate, br"), (.acceptEncoding, "gzip,deflate,sdch"),
   (.acceptLanguage, "en-US,en;q=0.5"), (.acceptLanguage, "en-GB,en-US;q=0.8,en;q=0.6"),
   (.acceptCharset, "ISO-8859-1,utf-8;q=0.7,*;q=0.3"),
   (.cacheControl, "no-cache"), (.cacheControl, "max-age=0"), (.pragma, "no-cache"),
   (.transferEncoding, "chunked"), (.contentLength, "0"),
   (.contentEncoding, "gzip"), (.contentEncoding, "deflate"),
   (.contentType, "application/x-www-form-urlencoded"), (.contentType, "application/json"),
   (.expect, "100-continue"), (.upgrade, "websocket"), (.acceptRanges, "bytes"),
   (.upgradeInsecureRequests, "1")].map fun (standard, value) => usual standard value.toList

def table : Trie FieldLine := Trie.ofList false (wellKnown.map fun line => (line.wire, line))

def atFront? (input : Bytes) : Option (Nat × FieldLine) := table.best? input

end FieldLine
end HttpStream
