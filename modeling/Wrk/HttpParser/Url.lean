import Wrk.Core.Word
import Wrk.HttpParser.Request

/-!
# Parsing URLs

`http_parser_parse_url`: a pass over the URL that notes where each part begins
and how long it is, one over the part with the host, and the port. Positions
and lengths have 16 bits.

The caller is `script_parse_url`, which wants a scheme and a host.

## Main definitions

* `UrlField`, `Span`: The parts of a URL, and where one is.
* `scanChar`, `scan`: The first pass.
* `parseHostChar`, `hostChar`, `parseHost`: The second.
* `httpParserParseUrl`, `scriptParseUrl`: The functions.
-/

namespace Wrk

namespace HttpParser

namespace Url

open Request (LineState parseUrlChar isUserinfoChar isAlpha)

/-! ### The first pass -/

/-- `enum http_parser_url_fields`. -/
inductive UrlField where
  | schema
  | host
  | port
  | path
  | query
  | fragment
  | userinfo
  deriving DecidableEq, Repr

/-- An entry of `field_data`. -/
structure Span where
  off : Nat
  len : Nat
  deriving DecidableEq, Repr

/-- The entries whose bits are set in `field_set`. -/
abbrev Parts : Type := UrlField → Option Span

/-- `len++`. -/
def bump (f : UrlField) (parts : Parts) : Parts :=
  Function.update parts f ((parts f).map (fun s => { s with len := wrap16 (s.len + 1) }))

/-- The local variables of `http_parser_parse_url`. -/
structure Scan where
  state : LineState
  oldUf : Option UrlField
  foundAt : Bool
  parts : Parts

/-- The field that a state belongs to. -/
def fieldOf : LineState → Option UrlField
  | .reqSchema => some .schema
  | .reqServer | .reqServerWithAt => some .host
  | .reqPath => some .path
  | .reqQueryString => some .query
  | .reqFragment => some .fragment
  | _ => none

/-- The states of delimiters. -/
def isDelimiter : LineState → Bool
  | .reqSchemaSlash | .reqSchemaSlashSlash | .reqServerStart => true
  | .reqQueryStringStart | .reqFragmentStart => true
  | _ => false

/-- One character. -/
def scanChar (pos : Nat) (s : Scan) (ch : Byte) : Option Scan :=
  match parseUrlChar s.state ch with
  | none => none
  | some state =>
      if isDelimiter state then some { s with state := state }
      else
        match fieldOf state with
        | none => none
        | some uf =>
            let foundAt := s.foundAt || state = .reqServerWithAt
            if s.oldUf = some uf then
              some { s with state := state, foundAt := foundAt, parts := bump uf s.parts }
            else
              some
                { state := state
                  oldUf := some uf
                  foundAt := foundAt
                  parts := Function.update s.parts uf (some ⟨wrap16 pos, 1⟩) }

/-- All characters. -/
def scan (pos : Nat) (s : Scan) : Bytes → Option Scan
  | [] => some s
  | ch :: text => (scanChar pos s ch).bind (fun s => scan (pos + 1) s text)

/-! ### The host -/

/-- `enum http_host_state`. -/
inductive HostState where
  | userinfoStart
  | userinfo
  | hostStart
  | v6Start
  | host
  | v6
  | v6End
  | v6ZoneStart
  | v6Zone
  | portStart
  | port
  deriving DecidableEq, Repr

/-- `IS_HEX`. -/
def isHex (ch : Byte) : Bool := isNum ch || ('a'.toUInt8 ≤ lower ch && lower ch ≤ 'f'.toUInt8)

/-- `IS_HOST_CHAR` in strict mode. -/
def isHostChar (ch : Byte) : Bool :=
  isAlpha ch || isNum ch || ch = '.'.toUInt8 || ch = '-'.toUInt8

/-- A character of a zone. -/
def isZoneChar (ch : Byte) : Bool :=
  isAlpha ch || isNum ch || (bytes "%.-_~").contains ch

/-- `http_parse_host_char`; there is no result where the source returns
    `s_http_host_dead`. -/
def parseHostChar (s : HostState) (ch : Byte) : Option HostState :=
  match s with
  | .userinfo | .userinfoStart =>
      if ch = '@'.toUInt8 then some .hostStart
      else if isUserinfoChar ch then some .userinfo
      else none
  | .hostStart =>
      if ch = '['.toUInt8 then some .v6Start
      else if isHostChar ch then some .host
      else none
  | .host =>
      if isHostChar ch then some .host
      else if ch = ':'.toUInt8 then some .portStart
      else none
  | .v6End => if ch = ':'.toUInt8 then some .portStart else none
  | .v6 =>
      if ch = ']'.toUInt8 then some .v6End
      else if isHex ch || ch = ':'.toUInt8 || ch = '.'.toUInt8 then some .v6
      else if ch = '%'.toUInt8 then some .v6ZoneStart
      else none
  | .v6Start => if isHex ch || ch = ':'.toUInt8 || ch = '.'.toUInt8 then some .v6 else none
  | .v6Zone =>
      if ch = ']'.toUInt8 then some .v6End
      else if isZoneChar ch then some .v6Zone
      else none
  | .v6ZoneStart => if isZoneChar ch then some .v6Zone else none
  | .port | .portStart => if isNum ch then some .port else none

/-- A part that begins at a position, or goes on. -/
def enter (f : UrlField) (pos : Nat) (new : Bool) (parts : Parts) : Parts :=
  bump f (if new then Function.update parts f (some ⟨wrap16 pos, 0⟩) else parts)

/-- The same for the host, which keeps the length it has. -/
def enterHost (pos : Nat) (new : Bool) (parts : Parts) : Parts :=
  bump .host
    (if new then
      Function.update parts .host ((parts .host).map (fun s => { s with off := wrap16 pos }))
    else parts)

/-- The entries after a character, of the state before it and the one after
    it. -/
def hostParts (pos : Nat) (s new : HostState) (parts : Parts) : Parts :=
  match new with
  | .host => enterHost pos (s ≠ .host) parts
  | .v6 => enterHost pos (s ≠ .v6) parts
  | .v6ZoneStart | .v6Zone => bump .host parts
  | .port => enter .port pos (s ≠ .port) parts
  | .userinfo => enter .userinfo pos (s ≠ .userinfo) parts
  | _ => parts

/-- The loop of `http_parse_host`. -/
def hostScan (pos : Nat) (s : HostState) (parts : Parts) : Bytes → Option (HostState × Parts)
  | [] => some (s, parts)
  | ch :: text =>
      (parseHostChar s ch).bind (fun new =>
        hostScan (pos + 1) new (hostParts pos s new parts) text)

/-- The states in which the host may end. -/
def hostEnds : HostState → Bool
  | .host | .v6End | .port => true
  | _ => false

/-- `http_parse_host`. -/
def parseHost (url : Bytes) (host : Span) (foundAt : Bool) (parts : Parts) : Option Parts :=
  let parts := Function.update parts .host (some { host with len := 0 })
  let s := if foundAt then HostState.userinfoStart else .hostStart
  (hostScan host.off s parts ((url.drop host.off).take host.len)).bind
    (fun r => if hostEnds r.1 then some r.2 else none)

/-! ### The functions -/

/-- `strtoul` of what follows a position. -/
def strtoul (text : Bytes) : Nat := (text.takeWhile isNum).foldl (fun n ch => 10 * n + digit ch) 0

/-- The check of the port, and its value. -/
def parsePort (url : Bytes) (parts : Parts) : Option (Parts × Nat) :=
  match parts .port with
  | none => some (parts, 0)
  | some port =>
      let v := strtoul (url.drop port.off)
      if v > 0xffff then none else some (parts, v)

/-- `http_parser_parse_url` of a request that is not CONNECT: the entries and
    the port. -/
def httpParserParseUrl (url : Bytes) : Option (Parts × Nat) :=
  match scan 0 ⟨.reqSpacesBeforeUrl, none, false, fun _ => none⟩ url with
  | none => none
  | some s =>
      match s.parts .host with
      | none => if (s.parts .schema).isSome then none else parsePort url s.parts
      | some host => (parseHost url host s.foundAt s.parts).bind (parsePort url)

/-- `script_parse_url`: the entries, if the URL is accepted. -/
def scriptParseUrl (url : Bytes) : Option Parts :=
  match httpParserParseUrl url with
  | none => none
  | some (parts, _) =>
      if !(parts .schema).isSome then none
      else if !(parts .host).isSome then none
      else some parts

end Url

end HttpParser

end Wrk
