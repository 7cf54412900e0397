import HttpStream.Octet

/-! Text of names, values and tokens. The text of a message has one character per octet
(ISO-8859-1); text that comes from elsewhere may hold any character. -/

set_option autoImplicit false

namespace HttpStream

abbrev Text := List Char

namespace Text

def ofBytes (bytes : Bytes) : Text := bytes.map Octet.toChar

def octet? (c : Char) : Option UInt8 := if c.toNat < 256 then some (UInt8.ofNat c.toNat) else none

/-- The octets of a text; characters without an octet are left out. -/
def toBytes (text : Text) : Bytes := text.filterMap octet?

def toBytes? (text : Text) : Option Bytes := text.mapM octet?

def utf8 (text : Text) : Bytes := text.flatMap String.utf8EncodeChar

def octets (literal : String) : Bytes := literal.toUTF8.data.toList

def fold (text : Text) : Text := text.map Char.toLower

def isBlank (c : Char) : Bool := c == ' ' || c == '\t'

/-- White space in the sense of the Unicode property `White_Space`. -/
def isSpace (c : Char) : Bool :=
  let n := c.toNat
  (0x09 ≤ n && n ≤ 0x0d) || n == 0x20 || n == 0x85 || n == 0xa0 || n == 0x1680 ||
    (0x2000 ≤ n && n ≤ 0x200a) || n == 0x2028 || n == 0x2029 || n == 0x202f || n == 0x205f ||
    n == 0x3000

def trimRight (drop : Char → Bool) (text : Text) : Text := (text.reverse.dropWhile drop).reverse

def trim (text : Text) : Text := trimRight isSpace (text.dropWhile isSpace)

def decimal? (text : Text) : Option Nat :=
  if text.isEmpty || !text.all Char.isDigit then none
  else some (text.foldl (fun n c => n * 10 + (c.toNat - '0'.toNat)) 0)

/-- The comma-separated elements of a list value, white space around them removed. -/
def elements (text : Text) : List Text := (text.splitOn ',').map trim

end Text
end HttpStream
