import Libnodecc.Buffer.Value
import Libnodecc.Util.SizeT
import Mathlib.Logic.Function.Basic

namespace Libnodecc.Http

/-- `enum http_parser_url_fields`. -/
inductive UrlField where
  | schema | host | port | path | query | fragment | userinfo
  deriving DecidableEq

/-- `struct http_parser_url`: offset and length of each field whose bit is set in `field_set`. -/
structure HttpParserUrl where
  fieldData : UrlField → Option (Nat × Nat)
  port : Nat

inductive UrlState where
  | uninitialized | urlParsed | paramsParsed | error
  deriving DecidableEq

def UrlState.rank : UrlState → Nat
  | uninitialized => 0
  | urlParsed => 1
  | paramsParsed => 2
  | error => 3

structure Url where
  params : Bytes → Option Buf
  url : Buf
  parser : HttpParserUrl
  state : UrlState

/-- What `http_parser_parse_url` says of a URL, and what it leaves in the structure it is given. -/
abbrev ParseUrl := Bytes → HttpParserUrl → Bool × HttpParserUrl

namespace Url

/-- `url::url()`, in memory that held `parser`. -/
def uninitialized (parser : HttpParserUrl) : Url := ⟨fun _ => none, none, parser, .uninitialized⟩

def setUrl (u : Url) (url : Buf) : Url :=
  { u with url := url, params := fun _ => none, state := .uninitialized }

def clear (u : Url) : Url :=
  { u with params := fun _ => none, url := none, state := .uninitialized }

/-- `url::_parse_url`. -/
def parseUrl (parse : ParseUrl) (u : Url) : Bool × Url :=
  match u.url with
  | some bs =>
    if u.state.rank < UrlState.urlParsed.rank then
      let (accepted, parser) := parse bs u.parser
      if accepted then (true, { u with parser := parser, state := .urlParsed })
      else (false, { u with parser := parser, state := .error })
    else (true, u)
  | none => (true, u)

/-- `url::_get`, after `_parse_url`. -/
def field (u : Url) (type : UrlField) : Buf :=
  match u.parser.fieldData type with
  | some (off, len) => u.url.slice off (off + len)
  | none => none

/-- `url::_get`. -/
def get (parse : ParseUrl) (u : Url) (type : UrlField) : Buf × Url :=
  let u := (u.parseUrl parse).2
  (u.field type, u)

def portNum (parse : ParseUrl) (u : Url) : Nat × Url :=
  let u := (u.parseUrl parse).2
  (if (u.parser.fieldData .port).isSome then u.parser.port else 0, u)

/-- The variables of the loop in `_parse_params`. -/
structure ParamsLoop where
  params : Bytes → Option Buf
  currentAmpPos : Nat
  currentEqPos : Nat
  field : Buf

/-- `_params.emplace`: the first value of a key stays. The key is copied, so `field` keeps it. -/
def emplace (params : Bytes → Option Buf) (field : Bytes) (value : Buf) : Bytes → Option Buf :=
  if params field = none then Function.update params field (some value) else params

def ParamsLoop.insert (query : Buf) (i : Nat) (s : ParamsLoop) : Bytes → Option Buf :=
  match s.field with
  | some field =>
    if 1 < subSizeT i s.currentEqPos then
      emplace s.params field (query.slice (s.currentEqPos + 1) i)
    else s.params
  | none => s.params

/-- The body of the loop in `_parse_params`. -/
def ParamsLoop.next (query : Buf) (i : Nat) (ch : UInt8) (s : ParamsLoop) : ParamsLoop :=
  if ch = 0x26 then
    { s with params := s.insert query i, currentAmpPos := i, currentEqPos := 0 }
  else if ch = 0x3d ∧ s.currentEqPos = 0 then
    { s with
      field := if 1 < subSizeT i s.currentAmpPos then query.slice (sizeT (s.currentAmpPos + 1)) i
        else s.field
      currentAmpPos := 0
      currentEqPos := i }
  else s

def ParamsLoop.scan (query : Buf) : Nat → Bytes → ParamsLoop → ParamsLoop
  | _, [], s => s
  | i, ch :: rest, s => scan query (i + 1) rest (s.next query i ch)

/-- The loop of `_parse_params`, and the leftovers after it. -/
def splitParams (params : Bytes → Option Buf) (query : Buf) : Bytes → Option Buf :=
  (ParamsLoop.scan query 0 query.bytes ⟨params, 2^64 - 1, 0, none⟩).insert query query.size

/-- `url::_parse_params`. -/
def parseParams (parse : ParseUrl) (u : Url) : Url :=
  if u.state.rank < UrlState.paramsParsed.rank then
    let (ok, u) := u.parseUrl parse
    if ok then
      let u := { u with state := .paramsParsed }
      let (query, u) := u.get parse .query
      { u with params := if query.isSome then splitParams u.params query else u.params }
    else u
  else u

end Url

/-- `http_parser_parse_url` fills in its result from the URL alone. -/
def Determined (parse : ParseUrl) (url : Bytes) : Prop := ∀ old old', parse url old = parse url old'

section
variable {u : Url}

theorem parseUrl_none (parse : ParseUrl) (h : u.url = none) : u.parseUrl parse = (true, u) := by
  simp [Url.parseUrl, h]

theorem field_none (h : u.url = none) (type : UrlField) : u.field type = none := by
  unfold Url.field
  cases u.parser.fieldData type <;> simp [h, Buf.slice]

theorem get_none (parse : ParseUrl) (h : u.url = none) (type : UrlField) :
    u.get parse type = (none, u) := by
  rw [Url.get, parseUrl_none parse h, field_none h type]

theorem parseParams_none (parse : ParseUrl) (h : u.url = none) : u.parseParams parse =
    if u.state.rank < UrlState.paramsParsed.rank then { u with state := .paramsParsed } else u := by
  unfold Url.parseParams
  rw [parseUrl_none parse h]
  split_ifs
  · let u' : Url := { u with state := .paramsParsed }
    have hu : u'.url = none := h
    have hg : u'.get parse .query = (none, u') := get_none parse hu .query
    simp only [u'] at hg
    simp [hg]
  · rfl

end

end Libnodecc.Http
