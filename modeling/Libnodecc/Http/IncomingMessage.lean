import Libnodecc.Http.Url

namespace Libnodecc.Http

inductive HttpParserType where
  | request | response
  deriving DecidableEq

/-- The http_parser library: the texts of its methods and its URL parser. -/
structure HttpParser where
  methodMap : Nat → Bytes
  parseUrl : ParseUrl

/-- The fields of `http_parser` that are read once the headers are complete. -/
structure ParserInfo where
  httpMajor : Nat
  httpMinor : Nat
  method : Nat
  statusCode : Nat
  upgrade : Bool
  shouldKeepAlive : Bool
  deriving DecidableEq

/-- `_is_websocket` is `none` for `UINT8_MAX`; `type` and `upgrade` are fields of `_parser`. -/
structure IncomingMessage where
  type : HttpParserType
  upgrade : Bool
  headers : Bytes → Option Bytes
  genericValue : Buf
  partialHeaderField : Buf
  partialHeaderValue : Buf
  url : Url
  statusCode : Nat
  httpVersionMajor : Nat
  httpVersionMinor : Nat
  isWebsocket : Option Bool

def toLower (ch : UInt8) : UInt8 := if 0x41 ≤ ch ∧ ch ≤ 0x5a then ch + 0x20 else ch

/-- The value of a name that comes again. -/
def appendHeader (existing value : Bytes) : Bytes :=
  (Buf.append (Buf.appendData (some existing) (ascii ", ")) (some value)).bytes

theorem appendHeader_eq (existing value : Bytes) (hv : value ≠ []) :
    appendHeader existing value = existing ++ ascii ", " ++ value := by
  have hsep : ascii ", " ≠ [] := by decide
  have hview : Buf.view value = some value := by simp [Buf.view, hv]
  have h := Buf.append_view (some (existing ++ ascii ", ")) value (by simp [hsep])
  rw [hview] at h
  simp [appendHeader, Buf.appendData, hsep, h, Buf.view]

/-- What `_add_header_partials` does to `_headers`. -/
def emplaceHeader (headers : Bytes → Option Bytes) (name value : Bytes) : Bytes → Option Bytes :=
  match headers name with
  | none => Function.update headers name (some value)
  | some existing => Function.update headers name (some (appendHeader existing value))

theorem emplaceHeader_of_ne (headers : Bytes → Option Bytes) (name value key : Bytes)
    (h : key ≠ name) : emplaceHeader headers name value key = headers key := by
  unfold emplaceHeader
  cases headers name with
  | none => exact Function.update_of_ne h _ _
  | some existing => exact Function.update_of_ne h _ _

namespace IncomingMessage

/-- The constructor; the last arguments are what its uninitialised fields happen to hold. -/
def init (type : HttpParserType) (parser : HttpParserUrl) (statusCode major minor : Nat) :
    IncomingMessage :=
  ⟨type, false, fun _ => none, none, none, none, .uninitialized parser, statusCode, major, minor, none⟩

/-- The pair that `_add_header_partials` puts into `_headers`, if there is one. -/
def pendingHeader (m : IncomingMessage) : Option (Bytes × Bytes) :=
  match m.partialHeaderField, m.partialHeaderValue with
  | some field, some value => some (field.map toLower, value)
  | _, _ => none

def addHeaderPartials (m : IncomingMessage) : IncomingMessage :=
  match m.pendingHeader with
  | some (name, value) =>
    { m with
      headers := emplaceHeader m.headers name value
      partialHeaderField := none
      partialHeaderValue := none }
  | none => m

def parserOnUrl (m : IncomingMessage) (at' : Bytes) : IncomingMessage :=
  { m with genericValue := m.genericValue.appendData at' }

def parserOnHeaderField (m : IncomingMessage) (at' : Bytes) : IncomingMessage :=
  let m := m.addHeaderPartials
  { m with partialHeaderField := m.partialHeaderField.append (.view at') }

def parserOnHeaderValue (m : IncomingMessage) (at' : Bytes) : IncomingMessage :=
  let m := m.addHeaderPartials
  { m with partialHeaderValue := m.partialHeaderValue.append (.view at') }

def parserOnHeadersComplete (lib : HttpParser) (m : IncomingMessage) (parser : ParserInfo) :
    IncomingMessage :=
  let m := { m.addHeaderPartials with upgrade := parser.upgrade }
  match m.type with
  | .request =>
    { m with
      httpVersionMajor := parser.httpMajor % 2^8
      httpVersionMinor := parser.httpMinor % 2^8
      url := m.url.setUrl m.genericValue
      genericValue := .view (lib.methodMap parser.method) }
  | .response => { m with statusCode := parser.statusCode % 2^16 }

def parserOnMessageComplete (m : IncomingMessage) : IncomingMessage :=
  if m.isWebsocket ≠ some true then
    { m with genericValue := none, headers := fun _ => none, url := m.url.clear }
  else m

def header (m : IncomingMessage) (key : Bytes) : Buf := m.headers key

/-- The test behind `is_websocket_request`. -/
def asksForWebsocket (m : IncomingMessage) : Bool :=
  m.upgrade && m.header (ascii "upgrade") == some (ascii "websocket") &&
    m.header (ascii "sec-websocket-version") == some (ascii "13") &&
    (m.header (ascii "sec-websocket-key")).isSome

def isWebsocketRequest (m : IncomingMessage) : Bool × IncomingMessage :=
  match m.isWebsocket with
  | none => (m.asksForWebsocket, { m with isWebsocket := some m.asksForWebsocket })
  | some b => (b, m)

end IncomingMessage

/-- The accessors of a message and of its URL. -/
inductive Accessor where
  | url
  | urlField (type : UrlField)
  | portNum
  | hasParam (key : Bytes)
  | param (key : Bytes)
  | method
  | hasHeader (key : Bytes)
  | header (key : Bytes)
  | statusCode
  | httpVersionMajor
  | httpVersionMinor
  | isWebsocketRequest
  deriving DecidableEq

/-- What the user of a message gets to see. -/
inductive Exposure where
  | headersComplete (upgrade keepAlive : Bool)
  | data (buf : Buf)
  | ended
  | bytes (buf : Buf)
  | number (n : Nat)
  | flag (b : Bool)
  deriving DecidableEq

/-- The callbacks of http_parser, and the calls of the user in between. -/
inductive MessageLabel where
  | onUrl (at' : Bytes)
  | onHeaderField (at' : Bytes)
  | onHeaderValue (at' : Bytes)
  | onHeadersComplete (parser : ParserInfo)
  | onBody (at' : Bytes)
  | onMessageComplete
  | access (a : Accessor)
  deriving DecidableEq

namespace IncomingMessage

/-- An accessor; those of the URL parse it on first use. -/
def access (lib : HttpParser) (m : IncomingMessage) : Accessor → Exposure × IncomingMessage
  | .url => (.bytes m.url.url, m)
  | .urlField type =>
    let (b, url) := m.url.get lib.parseUrl type
    (.bytes b, { m with url := url })
  | .portNum =>
    let (n, url) := m.url.portNum lib.parseUrl
    (.number n, { m with url := url })
  | .hasParam key =>
    let url := m.url.parseParams lib.parseUrl
    (.flag (url.params key).isSome, { m with url := url })
  | .param key =>
    let url := m.url.parseParams lib.parseUrl
    (.bytes ((url.params key).getD none), { m with url := url })
  | .method => (.bytes m.genericValue, m)
  | .hasHeader key => (.flag (m.headers key).isSome, m)
  | .header key => (.bytes (m.header key), m)
  | .statusCode => (.number m.statusCode, m)
  | .httpVersionMajor => (.number m.httpVersionMajor, m)
  | .httpVersionMinor => (.number m.httpVersionMinor, m)
  | .isWebsocketRequest =>
    let (b, m) := m.isWebsocketRequest
    (.flag b, m)

def step (lib : HttpParser) (m : IncomingMessage) : MessageLabel → IncomingMessage
  | .onUrl at' => m.parserOnUrl at'
  | .onHeaderField at' => m.parserOnHeaderField at'
  | .onHeaderValue at' => m.parserOnHeaderValue at'
  | .onHeadersComplete parser => m.parserOnHeadersComplete lib parser
  | .onBody _ => m
  | .onMessageComplete => m.parserOnMessageComplete
  | .access a => (m.access lib a).2

/-- What the user sees of a step: the events it emits, the value an accessor returns. -/
def exposes (lib : HttpParser) (m : IncomingMessage) : MessageLabel → Option Exposure
  | .onHeadersComplete parser => some (.headersComplete parser.upgrade parser.shouldKeepAlive)
  | .onBody at' => some (.data (.view at'))
  | .onMessageComplete => if m.isWebsocket ≠ some true then some .ended else none
  | .access a => some (m.access lib a).1
  | _ => none

def after (lib : HttpParser) (m : IncomingMessage) (ls : List MessageLabel) : IncomingMessage :=
  ls.foldl (step lib) m

def exposed (lib : HttpParser) : IncomingMessage → List MessageLabel → List Exposure
  | _, [] => []
  | m, l :: ls => (m.exposes lib l).toList ++ exposed lib (m.step lib l) ls

end IncomingMessage

end Libnodecc.Http
