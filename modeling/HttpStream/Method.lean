import HttpStream.Text
import HttpStream.Trie

/-! Request methods. Any token of the grammar is a method; the common ones have a table. -/

set_option autoImplicit false

namespace HttpStream

def Text.isTokenChar (c : Char) : Bool := c.isAlphanum || "!#$%&'*+-.^_`|~".toList.contains c

structure Method where
  name : Text
  nonempty : name ≠ []
  isToken : name.all Text.isTokenChar = true
  deriving DecidableEq, Repr

namespace Method

def ofText? (text : Text) : Option Method :=
  if h : text ≠ [] ∧ text.all Text.isTokenChar = true then some ⟨text, h.1, h.2⟩ else none

def common : List Method :=
  ["GET", "POST", "HEAD", "PUT", "OPTIONS", "DELETE", "TRACE", "CONNECT", "PATCH"].filterMap
    fun name => ofText? name.toList

/-- The common methods, each followed by the space that ends it on a request line. -/
def table : Trie Method :=
  Trie.ofList false (common.map fun m => (Text.utf8 (m.name ++ [' ']), m))

def atFront? (input : Bytes) : Option (Nat × Method) := table.best? input

end Method
end HttpStream
