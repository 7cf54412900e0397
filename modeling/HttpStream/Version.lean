import HttpStream.Text
import HttpStream.Trie

/-! Protocol versions and their spellings, which are compared without regard to case. -/

set_option autoImplicit false

namespace HttpStream

inductive Version where
  | http09
  | http10
  | http11
  | http20
  deriving DecidableEq, Repr

namespace Version

def text : Version → String
  | .http09 => "HTTP/0.9"
  | .http10 => "HTTP/1.0"
  | .http11 => "HTTP/1.1"
  | .http20 => "HTTP/2.0"

def all : List Version := [.http09, .http10, .http11, .http20]

/-- Versions from 1.1 on keep a connection open and require a `Host` field. -/
def isPersistent : Version → Bool
  | .http09 | .http10 => false
  | .http11 | .http20 => true

def table : Trie Version := Trie.ofList true (all.map fun v => (Text.octets v.text, v))

def ofText? (text : Text) : Option Version := table.get? (Text.utf8 text)

def atFront? (input : Bytes) : Option (Nat × Version) := table.best? input

end Version
end HttpStream
