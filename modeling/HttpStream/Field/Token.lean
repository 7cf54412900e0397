import HttpStream.Text
import HttpStream.Trie

/-! Elements of field values that the standards give a meaning, compared without regard to case. -/

set_option autoImplicit false

namespace HttpStream

inductive StandardToken where
  | close
  | chunked
  | gzip
  | deflate
  | identity
  | keepAlive
  | continue
  | processing
  | te
  | bytes
  | noCache
  | upgrade
  deriving DecidableEq, Repr

namespace StandardToken

def text : StandardToken → String
  | .close => "close"
  | .chunked => "chunked"
  | .gzip => "gzip"
  | .deflate => "deflate"
  | .identity => "identity"
  | .keepAlive => "keep-alive"
  | .continue => "100-continue"
  | .processing => "102-processing"
  | .te => "TE"
  | .bytes => "bytes"
  | .noCache => "no-cache"
  | .upgrade => "Upgrade"

def all : List StandardToken :=
  [.close, .chunked, .gzip, .deflate, .identity, .keepAlive, .continue, .processing, .te, .bytes,
   .noCache, .upgrade]

def table : Trie StandardToken :=
  Trie.ofList true (all.map fun token => (Text.octets token.text, token))

def ofText? (text : Text) : Option StandardToken := table.get? (Text.utf8 text)

end StandardToken
end HttpStream
