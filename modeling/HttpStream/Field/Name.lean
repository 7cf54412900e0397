import HttpStream.Text
import HttpStream.Trie

/-! Field names of the standards, compared without regard to case. -/

set_option autoImplicit false

namespace HttpStream

inductive StandardName where
  | connection
  | cacheControl
  | date
  | pragma
  | proxyConnection
  | trailer
  | transferEncoding
  | upgrade
  | via
  | warning
  | keepAlive
  | allow
  | contentEncoding
  | contentLanguage
  | contentLength
  | contentLocation
  | contentRange
  | contentType
  | contentDisposition
  | expires
  | lastModified
  | accept
  | acceptCharset
  | acceptEncoding
  | acceptLanguage
  | authorization
  | expect
  | forwarded
  | from
  | host
  | ifMatch
  | ifModifiedSince
  | ifNoneMatch
  | ifRange
  | ifUnmodifiedSince
  | maxForwards
  | proxyAuthorization
  | range
  | requestRange
  | referer
  | te
  | userAgent
  | origin
  | cookie
  | setCookie
  | upgradeInsecureRequests
  | xForwardedFor
  | xForwardedProto
  | xForwardedHost
  | xForwardedServer
  | acceptRanges
  | age
  | etag
  | location
  | proxyAuthenticate
  | retryAfter
  | server
  | vary
  | wwwAuthenticate
  | secWebSocketKey
  | secWebSocketVersion
  | secWebSocketAccept
  deriving DecidableEq, Repr

namespace StandardName

def text : StandardName → String
  | .connection => "Connection"
  | .cacheControl => "Cache-Control"
  | .date => "Date"
  | .pragma => "Pragma"
  | .proxyConnection => "Proxy-Connection"
  | .trailer => "Trailer"
  | .transferEncoding => "Transfer-Encoding"
  | .upgrade => "Upgrade"
  | .via => "Via"
  | .warning => "Warning"
  | .keepAlive => "Keep-Alive"
  | .allow => "Allow"
  | .contentEncoding => "Content-Encoding"
  | .contentLanguage => "Content-Language"
  | .contentLength => "Content-Length"
  | .contentLocation => "Content-Location"
  | .contentRange => "Content-Range"
  | .contentType => "Content-Type"
  | .contentDisposition => "Content-Disposition"
  | .expires => "Expires"
  | .lastModified => "Last-Modified"
  | .accept => "Accept"
  | .acceptCharset => "Accept-Charset"
  | .acceptEncoding => "Accept-Encoding"
  | .acceptLanguage => "Accept-Language"
  | .authorization => "Authorization"
  | .expect => "Expect"
  | .forwarded => "Forwarded"
  | .from => "From"
  | .host => "Host"
  | .ifMatch => "If-Match"
  | .ifModifiedSince => "If-Modified-Since"
  | .ifNoneMatch => "If-None-Match"
  | .ifRange => "If-Range"
  | .ifUnmodifiedSince => "If-Unmodified-Since"
  | .maxForwards => "Max-Forwards"
  | .proxyAuthorization => "Proxy-Authorization"
  | .range => "Range"
  | .requestRange => "Request-Range"
  | .referer => "Referer"
  | .te => "TE"
  | .userAgent => "User-Agent"
  | .origin => "Origin"
  | .cookie => "Cookie"
  | .setCookie => "Set-Cookie"
  | .upgradeInsecureRequests => "Upgrade-Insecure-Requests"
  | .xForwardedFor => "X-Forwarded-For"
  | .xForwardedProto => "X-Forwarded-Proto"
  | .xForwardedHost => "X-Forwarded-Host"
  | .xForwardedServer => "X-Forwarded-Server"
  | .acceptRanges => "Accept-Ranges"
  | .age => "Age"
  | .etag => "ETag"
  | .location => "Location"
  | .proxyAuthenticate => "Proxy-Authenticate"
  | .retryAfter => "Retry-After"
  | .server => "Server"
  | .vary => "Vary"
  | .wwwAuthenticate => "WWW-Authenticate"
  | .secWebSocketKey => "Sec-WebSocket-Key"
  | .secWebSocketVersion => "Sec-WebSocket-Version"
  | .secWebSocketAccept => "Sec-WebSocket-Accept"

def all : List StandardName :=
  [.connection, .cacheControl, .date, .pragma, .proxyConnection, .trailer, .transferEncoding,
   .upgrade, .via, .warning, .keepAlive, .allow, .contentEncoding, .contentLanguage,
   .contentLength, .contentLocation, .contentRange, .contentType, .contentDisposition, .expires,
   .lastModified, .accept, .acceptCharset, .acceptEncoding, .acceptLanguage, .authorization,
   .expect, .forwarded, .from, .host, .ifMatch, .ifModifiedSince, .ifNoneMatch, .ifRange,
   .ifUnmodifiedSince, .maxForwards, .proxyAuthorization, .range, .requestRange, .referer, .te,
   .userAgent, .origin, .cookie, .setCookie, .upgradeInsecureRequests, .xForwardedFor,
   .xForwardedProto, .xForwardedHost, .xForwardedServer, .acceptRanges, .age, .etag, .location,
   .proxyAuthenticate, .retryAfter, .server, .vary, .wwwAuthenticate, .secWebSocketKey,
   .secWebSocketVersion, .secWebSocketAccept]

/-- Fields that a client tends to repeat unchanged on every request of a connection. -/
def isRepeated : StandardName → Bool
  | .host | .authorization | .accept | .acceptCharset | .acceptEncoding | .acceptLanguage
  | .cookie | .cacheControl | .userAgent => true
  | _ => false

def entries : List (Bytes × StandardName) :=
  all.map fun name => (Text.octets name.text, name)

def exactTable : Trie StandardName := Trie.ofList false entries

def foldedTable : Trie StandardName := Trie.ofList true entries

def ofText? (text : Text) : Option StandardName := foldedTable.get? (Text.utf8 text)

def atFront? (input : Bytes) : Option (Nat × StandardName) := exactTable.best? input

end StandardName
end HttpStream
