/-! Octets of a connection and the classes that the grammar of a message tells apart. -/

set_option autoImplicit false

namespace HttpStream

abbrev Bytes := List UInt8

namespace Octet

def tab : UInt8 := 0x09
def lf : UInt8 := 0x0a
def cr : UInt8 := 0x0d
def sp : UInt8 := 0x20
def colon : UInt8 := 0x3a
def semicolon : UInt8 := 0x3b

def isLineEnd (b : UInt8) : Bool := b == cr || b == lf

def isBlank (b : UInt8) : Bool := b == sp || b == tab

def isControl (b : UInt8) : Bool := b < sp

/-- Octets that can open a token of the start line. Those above 0x7f count, so that
ISO-8859-1 text is never refused here. -/
def isVisible (b : UInt8) : Bool := sp < b

def isDigit (b : UInt8) : Bool := 0x30 ≤ b && b ≤ 0x39

def toLower (b : UInt8) : UInt8 := if 0x41 ≤ b && b ≤ 0x5a then b + 0x20 else b

def hexValue? (b : UInt8) : Option Nat :=
  if isDigit b then some (b.toNat - 0x30)
  else if 0x61 ≤ b && b ≤ 0x66 then some (b.toNat - 0x57)
  else if 0x41 ≤ b && b ≤ 0x46 then some (b.toNat - 0x37)
  else none

def digitValue (b : UInt8) : Nat := b.toNat - 0x30

/-- The character that an octet stands for in ISO-8859-1. -/
def toChar (b : UInt8) : Char := Char.ofNat b.toNat

end Octet
end HttpStream
