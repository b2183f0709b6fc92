import Wrk.HttpParser.Step

/-!
# Conforming Responses

What a conforming HTTP/1.1 response looks like and where it ends, in the terms
of the protocol: nothing here looks at the parser, which gives only the names
of a few bytes and words.

A response is a status line, header fields and a body. Where the body ends is
decided by the method of the request, the status and the two fields that frame
messages, in the order the protocol gives: a response to HEAD and one with
certain statuses has no body whatever its fields say, a transfer coding goes
before a length, and a response with neither lasts until the connection is
closed.

Fields are the lines a sender may generate, so that a line is never folded.
The fields besides the two that frame messages are arbitrary.

## Main definitions

* `Field`: A header field, with the white space around its value.
* `Head`: A status line and header fields.
* `ChunkedBody`: A body in chunks, with extensions and a trailer.
* `forbidsBody`, `framing`: Where the body of a response ends.
* `Conforming`: A response to a request with a given method.
-/

namespace Wrk

namespace Http

open HttpParser

/-! ### Bytes -/

/-- Space, tab, colon and semicolon. -/
def SP : Byte := 32
def HTAB : Byte := 9
def COLON : Byte := 58
def SEMICOLON : Byte := 59

/-- The end of a line. -/
def CRLF : Bytes := [CR, LF]

def isUpper (ch : Byte) : Bool := 'A'.toUInt8 ≤ ch && ch ≤ 'Z'.toUInt8

/-- A letter in lower case. Names and codings are compared this way. -/
def lowerCase (ch : Byte) : Byte := if isUpper ch then ch + 32 else ch

def isAlpha (ch : Byte) : Bool := isUpper ch || ('a'.toUInt8 ≤ ch && ch ≤ 'z'.toUInt8)

def isDigit (ch : Byte) : Bool := '0'.toUInt8 ≤ ch && ch ≤ '9'.toUInt8

def isHexDigit (ch : Byte) : Bool :=
  isDigit ch || ('A'.toUInt8 ≤ ch && ch ≤ 'F'.toUInt8) || ('a'.toUInt8 ≤ ch && ch ≤ 'f'.toUInt8)

/-- The characters of a token, such as the name of a field. -/
def isTokenChar (ch : Byte) : Bool :=
  isAlpha ch || isDigit ch || (bytes "!#$%&'*+-.^_`|~").contains ch

def isSpace (ch : Byte) : Bool := ch == SP || ch == HTAB

/-- The characters of a text: no control character but the tab. -/
def isText (ch : Byte) : Bool := ch == HTAB || (31 < ch && ch != 127)

/-- The value of decimal digits. -/
def decimal (digits : Bytes) : Nat := digits.foldl (fun n ch => n * 10 + (ch.toNat - 48)) 0

/-- The value of a hexadecimal digit. -/
def hexDigit (ch : Byte) : Nat :=
  if isDigit ch then ch.toNat - 48 else if isUpper ch then ch.toNat - 55 else ch.toNat - 87

/-- The value of hexadecimal digits. -/
def hexadecimal (digits : Bytes) : Nat := digits.foldl (fun n ch => n * 16 + hexDigit ch) 0

/-! ### Fields -/

/-- A header field. The white space around the value is not part of it, and
    that around an empty value is taken to stand before it. -/
structure Field where
  name : Bytes
  lead : Bytes
  value : Bytes
  trail : Bytes
  named : name.isEmpty = false
  token : name.all isTokenChar = true
  blank : (lead ++ trail).all isSpace = true
  text : value.all isText = true
  first : value.head?.any isSpace = false
  last : value.getLast?.any isSpace = false
  empty : value.isEmpty = true → trail.isEmpty = true

namespace Field

/-- The value of a field and the white space after it. -/
def rest (f : Field) : Bytes := f.value ++ f.trail

/-- The line of a field. -/
def bytes (f : Field) : Bytes := f.name ++ [COLON] ++ f.lead ++ f.rest ++ CRLF

/-- The field has a name, given in lower case. -/
def isNamed (word : Bytes) (f : Field) : Bool := f.name.map lowerCase = word

def isContentLength (f : Field) : Bool := f.isNamed CONTENT_LENGTH

def isTransferEncoding (f : Field) : Bool := f.isNamed TRANSFER_ENCODING

/-- The last transfer coding of the field is chunked. -/
def endsInChunked (f : Field) : Bool :=
  let before := f.value.take (f.value.length - CHUNKED.length)
  (f.value.drop (f.value.length - CHUNKED.length)).map lowerCase = CHUNKED &&
    (before.reverse.dropWhile isSpace).head?.all (· == ','.toUInt8)

end Field

/-! ### Heads -/

/-- A status line and header fields. -/
structure Head where
  status : Nat
  reason : Bytes
  fields : List Field
  code : 100 ≤ status ∧ status < 1000
  text : reason.all isText = true

namespace Head

/-- The three digits of the status. -/
def digits (h : Head) : Bytes :=
  [(48 + h.status / 100).toUInt8, (48 + h.status / 10 % 10).toUInt8, (48 + h.status % 10).toUInt8]

def statusLine (h : Head) : Bytes :=
  HttpParser.bytes "HTTP/1.1 " ++ h.digits ++ [SP] ++ h.reason ++ CRLF

/-- The head up to the empty line that ends it. -/
def lines (h : Head) : Bytes := h.statusLine ++ h.fields.flatMap Field.bytes

def bytes (h : Head) : Bytes := h.lines ++ CRLF

/-- The fields that give a length. -/
def lengths (h : Head) : List Field := h.fields.filter Field.isContentLength

/-- The fields that give transfer codings. -/
def codings (h : Head) : List Field := h.fields.filter Field.isTransferEncoding

/-- The length that is given. -/
def contentLength (h : Head) : Option Nat := h.lengths.head?.map (fun f => decimal f.value)

/-- Of all the transfer codings in order, the last is chunked. -/
def endsInChunked (h : Head) : Bool :=
  (h.codings.filter (fun f => !f.value.isEmpty)).getLast?.any Field.endsInChunked

end Head

/-! ### Bodies -/

/-- What follows the size on the line of a chunk. -/
def isExtension (ext : Bytes) : Bool := ext.head?.all (· == SEMICOLON) && ext.all isText

/-- A chunk, which is not empty. -/
structure Chunk where
  size : Bytes
  ext : Bytes
  data : Bytes
  hex : size.all isHexDigit = true
  extension : isExtension ext = true
  filled : data.isEmpty = false
  sized : hexadecimal size = data.length

/-- The line of a chunk, and the chunk. -/
def Chunk.line (c : Chunk) : Bytes := c.size ++ c.ext ++ CRLF

def Chunk.bytes (c : Chunk) : Bytes := c.line ++ c.data ++ CRLF

/-- A body in chunks. The fields of the trailer do not frame messages. -/
structure ChunkedBody where
  chunks : List Chunk
  zeros : Bytes
  ext : Bytes
  trailer : List Field
  zero : zeros.isEmpty = false ∧ zeros.all (· == '0'.toUInt8) = true
  extension : isExtension ext = true
  plain : trailer.all (fun f => !f.isContentLength && !f.isTransferEncoding) = true

namespace ChunkedBody

/-- The line of the last chunk, which is empty. -/
def lastLine (b : ChunkedBody) : Bytes := b.zeros ++ b.ext ++ CRLF

/-- The body up to the empty line that ends it. -/
def lines (b : ChunkedBody) : Bytes :=
  b.chunks.flatMap Chunk.bytes ++ b.lastLine ++ b.trailer.flatMap Field.bytes

def bytes (b : ChunkedBody) : Bytes := b.lines ++ CRLF

end ChunkedBody

/-- How the end of a body is found. -/
inductive Framing where
  | none
  | chunked
  | exactly (length : Nat)
  | untilClose
  deriving DecidableEq, Repr

/-- The body of a response. -/
inductive Body where
  | none
  | chunked (b : ChunkedBody)
  | content (data : Bytes)

def Body.bytes : Body → Bytes
  | .none => []
  | .chunked b => b.bytes
  | .content data => data

/-- A body that a framing allows. -/
def Framing.Allows : Framing → Body → Prop
  | .none, .none => True
  | .chunked, .chunked _ => True
  | .exactly n, .content data => data.length = n
  | .untilClose, .content _ => True
  | _, _ => False

/-! ### Responses -/

/-- The methods whose responses are special. -/
def HEAD : Bytes := bytes "HEAD"
def CONNECT : Bytes := bytes "CONNECT"

/-- A status after which there is no body, whatever the request. -/
def bodiless (status : Nat) : Bool := status / 100 = 1 || status = 204 || status = 304

/-- The responses that have no body. -/
def forbidsBody (method : Bytes) (status : Nat) : Bool :=
  method = HEAD || bodiless status || (method = CONNECT && status / 100 = 2)

/-- The responses that must not have a field that frames messages. -/
def forbidsFraming (method : Bytes) (status : Nat) : Bool :=
  status / 100 = 1 || status = 204 || (method = CONNECT && status / 100 = 2)

/-- Where the body of a response ends. -/
def framing (method : Bytes) (h : Head) : Framing :=
  if forbidsBody method h.status then .none
  else if h.endsInChunked then .chunked
  else if !h.codings.isEmpty then .untilClose
  else
    match h.contentLength with
    | some n => .exactly n
    | none => .untilClose

/-- A response. -/
structure Response where
  head : Head
  body : Body

def Response.bytes (r : Response) : Bytes := r.head.bytes ++ r.body.bytes

/-- A response that a server may send to a request with a method. At most one
    field gives a length, which is a number, and not together with transfer
    codings. -/
structure Conforming (method : Bytes) (r : Response) : Prop where
  body : (framing method r.head).Allows r.body
  single : r.head.lengths.length ≤ 1
  number : ∀ f ∈ r.head.lengths, f.value.isEmpty = false ∧ f.value.all isDigit = true
  exclusive : r.head.codings.isEmpty = false → r.head.lengths.isEmpty = true
  unframed : forbidsFraming method r.head.status = true →
    r.head.lengths.isEmpty = true ∧ r.head.codings.isEmpty = true

end Http

end Wrk
