import Libnodecc.Http.HeaderLines
import Libnodecc.Http.UrlHistory

namespace Libnodecc.Http

open Util

/-- `client::detail::request`, without its socket and its headers. -/
structure Request where
  host : Buf
  method : Buf
  path : Buf
  deriving DecidableEq

/-- `request::compile_headers`, which appends to `buf`. -/
def Request.compileHeaders (r : Request) (order : Headers → List Bytes) (headers : Headers)
    (buf : Buf) : Buf :=
  let buf := buf.append r.method
  let buf := buf.appendData (ascii " ")
  let buf := buf.append r.path
  let buf := buf.appendData (ascii " HTTP/1.1\r\nhost: ")
  let buf := buf.append r.host
  let buf := buf.appendData crlf
  let buf := (order headers).foldl (fun buf key =>
    let buf := buf.append (Buf.view key)
    let buf := buf.appendData (ascii ": ")
    let buf := buf.append ((headers key).getD none)
    buf.appendData crlf) buf
  buf.appendData crlf

/-- The target of a request: the path of the URL as far as the end of its query. -/
def requestPath (url : Buf) (parser : HttpParserUrl) : Buf :=
  match parser.fieldData .path with
  | some (off, len) =>
    let last := match parser.fieldData .query with
      | some (off', len') => off' + len'
      | none => off + len
    url.slice off last
  | none => some (ascii "/")

/-- Where `request` connects to, and what it sends then. -/
structure Connect where
  port : Nat
  request : Request
  deriving DecidableEq

/-- `request` for a URL, with `parser` in the memory of its local variable; `none` stands for the
exception "invalid url". -/
def request (parse : ParseUrl) (parser : HttpParserUrl) (method url : Buf) : Option Connect :=
  match parse url.bytes parser with
  | (false, _) => none
  | (true, parser) =>
    match parser.fieldData .host with
    | none => none
    | some (off, len) =>
      some
        { port := if parser.port ≠ 0 then parser.port else 80
          request :=
            { host := url.slice off (off + len)
              method := method
              path := requestPath url parser } }

/-- The headers are what is appended to the buffer. -/
theorem compileHeaders_bytes (r : Request) (order : Headers → List Bytes) (headers : Headers)
    (buf : Buf) : (r.compileHeaders order headers buf).bytes =
      buf.bytes ++ requestHeaders r.method r.path r.host order headers := by
  have hlines (keys : List Bytes) (buf : Buf) :
      (keys.foldl (fun buf key =>
        let buf := buf.append (Buf.view key)
        let buf := buf.appendData (ascii ": ")
        let buf := buf.append ((headers key).getD none)
        buf.appendData crlf) buf).bytes = buf.bytes ++ headerLines keys headers := by
    induction keys generalizing buf with
    | nil => simp [headerLines]
    | cons key keys ih =>
      rw [List.foldl_cons, ih]
      simp [headerLines]
  simp only [Request.compileHeaders, requestHeaders, Buf.bytes_appendData, hlines, Buf.bytes_append,
    List.append_assoc]

/-- What the parser documents of the fields of a URL it accepts: a field has a byte and lies inside
the URL, the `?` between path and query belongs to neither, and the fragment comes last. -/
structure Documented (url : Bytes) (parser : HttpParserUrl) : Prop where
  inside : ∀ type off len, parser.fieldData type = some (off, len) → 0 < len ∧
    off + len ≤ url.length
  query : ∀ off len off' len', parser.fieldData .path = some (off, len) →
    parser.fieldData .query = some (off', len') →
    off' = off + len + 1 ∧ url[off + len]? = some 0x3f
  fragment : ∀ type off len off' len', type = .path ∨ type = .query →
    parser.fieldData type = some (off, len) → parser.fieldData .fragment = some (off', len') →
    off + len < off'

def HttpParserUrl.fieldBytes (parser : HttpParserUrl) (url : Bytes) (type : UrlField) :
    Option Bytes :=
  (parser.fieldData type).map fun (off, len) => (url.take (off + len)).drop off

/-- The path of a URL or a slash, and its query behind a question mark. -/
def HttpParserUrl.target (parser : HttpParserUrl) (url : Bytes) : Bytes :=
  (parser.fieldBytes url .path).getD (ascii "/") ++
    match parser.fieldBytes url .query with
    | some query => ascii "?" ++ query
    | none => []

/-- Nothing of `target` is from the fragment: it stands in the URL before it, but for the slash that
replaces a missing path. -/
def BeforeFragment (parser : HttpParserUrl) (url target : Bytes) : Prop :=
  ∀ off len, parser.fieldData .fragment = some (off, len) →
    target <:+: url.take off ∨
      parser.fieldData .path = none ∧ ∃ rest, target = ascii "/" ++ rest ∧ rest <:+: url.take off

/-- The headers start with a request line for `target`. -/
def SendsTarget (compile : Buf → Buf) (method target : Bytes) : Prop :=
  ∀ buf, ∃ rest, (compile buf).bytes =
    buf.bytes ++ method ++ ascii " " ++ target ++ ascii " HTTP/1.1\r\n" ++ rest

/-- The request line has the path of the URL and its complete query, and nothing of its fragment. -/
def CompleteTarget (parser : HttpParserUrl) (url : Bytes) (compile : Buf → Buf) (method : Bytes) :
    Prop :=
  ∃ target, SendsTarget compile method target ∧ target = parser.target url ∧
    BeforeFragment parser url target

theorem sendsTarget_path (r : Request) (order : Headers → List Bytes) (headers : Headers) :
    SendsTarget (r.compileHeaders order headers) r.method.bytes r.path.bytes := by
  intro buf
  refine ⟨(requestLines r.host order headers).flatMap HeaderLine.text ++ crlf, ?_⟩
  rw [compileHeaders_bytes, requestHeaders_text]
  simp only [List.append_assoc]

section
variable {url : Bytes} {first mid last : Nat}

theorem cut_append (hfirst : first ≤ mid) (hlast : mid ≤ last) (hurl : mid ≤ url.length) :
    (url.take last).drop first = (url.take mid).drop first ++ (url.take last).drop mid := by
  have htake : (url.take last).take mid = url.take mid := by
    rw [List.take_take, Nat.min_eq_left hlast]
  calc (url.take last).drop first
      = (url.take mid ++ (url.take last).drop mid).drop first := by
        rw [← htake, List.take_append_drop]
    _ = (url.take mid).drop first ++ (url.take last).drop mid := by
        apply List.drop_append_of_le_length
        rw [List.length_take]
        omega

theorem cut_byte {ch : UInt8} (h : url[first]? = some ch) :
    (url.take (first + 1)).drop first = [ch] := by
  obtain ⟨hlt, hch⟩ := List.getElem?_eq_some_iff.mp h
  rw [List.drop_take, Nat.add_sub_cancel_left, List.drop_eq_getElem_cons hlt, hch]
  rfl

end

section
variable {url : Buf} {parser : HttpParserUrl}

/-- With a path, what is cut from the URL are its path and its query. -/
theorem requestPath_target (hdoc : Documented url.bytes parser)
    (hpath : (parser.fieldData .path).isSome) :
    (requestPath url parser).bytes = parser.target url.bytes := by
  obtain ⟨⟨off, len⟩, hpath⟩ := Option.isSome_iff_exists.mp hpath
  obtain ⟨-, hinside⟩ := hdoc.inside _ _ _ hpath
  cases hquery : parser.fieldData .query with
  | none =>
    simp [requestPath, HttpParserUrl.target, HttpParserUrl.fieldBytes, hpath, hquery,
      Buf.bytes_slice]
  | some query =>
    obtain ⟨off', len'⟩ := query
    obtain ⟨hoff, hmark⟩ := hdoc.query _ _ _ _ hpath hquery
    obtain ⟨-, hinside'⟩ := hdoc.inside _ _ _ hquery
    simp only [requestPath, HttpParserUrl.target, HttpParserUrl.fieldBytes, hpath, hquery,
      Buf.bytes_slice, Option.map_some, Option.getD_some]
    rw [cut_append (show off ≤ off + len by omega) (show off + len ≤ off' + len' by omega) hinside]
    rw [cut_append (show off + len ≤ off' by omega) (show off' ≤ off' + len' by omega) (by omega)]
    rw [hoff, cut_byte hmark]
    rfl

theorem beforeFragment_path (hdoc : Documented url.bytes parser) (off len : Nat)
    (hpath : parser.fieldData .path = some (off, len)) :
    BeforeFragment parser url.bytes (requestPath url parser).bytes := by
  have hcut (last foff : Nat) (h : last ≤ foff) :
      (url.bytes.take last).drop off <:+: url.bytes.take foff :=
    (List.drop_suffix _ _).isInfix.trans (List.take_prefix_take_left h).isInfix
  intro foff flen hfragment
  left
  rw [requestPath, hpath]
  cases hquery : parser.fieldData .query with
  | none =>
    have hbefore := hdoc.fragment .path _ _ _ _ (.inl rfl) hpath hfragment
    rw [Buf.bytes_slice]
    exact hcut _ _ hbefore.le
  | some query =>
    have hbefore := hdoc.fragment .query _ _ _ _ (.inr rfl) hquery hfragment
    rw [Buf.bytes_slice]
    exact hcut _ _ hbefore.le

end

theorem slash_incomplete (r : Request) (order : Headers → List Bytes) (headers : Headers)
    (query : Bytes) (hpath : r.path = some (ascii "/")) :
    ¬SendsTarget (r.compileHeaders order headers) r.method.bytes
      (ascii "/" ++ (ascii "?" ++ query)) := by
  intro h
  obtain ⟨sent, hsent⟩ := sendsTarget_path r order headers none
  obtain ⟨rest, hrest⟩ := h none
  rw [hsent, hpath] at hrest
  simp only [List.append_assoc, List.append_cancel_left_eq, Buf.bytes_some] at hrest
  have hmark : (0x20 : UInt8) = 0x3f := List.head_eq_of_cons_eq hrest
  exact absurd hmark (by decide)

/-- The target is complete, unless a URL has a query but no path: then a slash is all of it. -/
theorem request_target_iff (parse : ParseUrl) (parser parser' : HttpParserUrl) (method url : Buf)
    (order : Headers → List Bytes) (headers : Headers)
    (haccepted : parse url.bytes parser = (true, parser'))
    (hhost : (parser'.fieldData .host).isSome) (hdoc : Documented url.bytes parser') :
    ∃ c, request parse parser method url = some c ∧
      (CompleteTarget parser' url.bytes (c.request.compileHeaders order headers) method.bytes ↔
        (parser'.fieldData .path).isSome ∨ parser'.fieldData .query = none) := by
  obtain ⟨⟨off, len⟩, hhost⟩ := Option.isSome_iff_exists.mp hhost
  let r : Request := ⟨url.slice off (off + len), method, requestPath url parser'⟩
  refine ⟨⟨if parser'.port ≠ 0 then parser'.port else 80, r⟩,
    by simp [request, haccepted, hhost, r], ?_⟩
  have hsent : SendsTarget (r.compileHeaders order headers) method.bytes r.path.bytes :=
    sendsTarget_path r order headers
  cases hpath : parser'.fieldData .path with
  | some path =>
    have htarget : r.path.bytes = parser'.target url.bytes :=
      requestPath_target hdoc (by rw [hpath]; rfl)
    refine iff_of_true ⟨_, hsent, htarget, ?_⟩ (.inl rfl)
    exact beforeFragment_path hdoc path.1 path.2 hpath
  | none =>
    have hslash : r.path = some (ascii "/") := by simp [r, requestPath, hpath]
    cases hquery : parser'.fieldData .query with
    | none =>
      have htarget : r.path.bytes = parser'.target url.bytes := by
        simp [hslash, HttpParserUrl.target, HttpParserUrl.fieldBytes, hpath, hquery]
      refine iff_of_true ⟨_, hsent, htarget, ?_⟩ (.inr rfl)
      intro off len _
      refine .inr ⟨hpath, [], ?_, List.nil_infix⟩
      rw [hslash, List.append_nil]
      rfl
    | some query =>
      refine iff_of_false ?_ (by simp)
      intro h
      obtain ⟨target, hcomplete, htarget, -⟩ := h
      apply slash_incomplete r order headers ((url.bytes.take (query.1 + query.2)).drop query.1) hslash
      rw [htarget] at hcomplete
      simpa [HttpParserUrl.target, HttpParserUrl.fieldBytes, hpath, hquery, r] using hcomplete

/-- The fields of `http://h/p?q#f`. -/
def allFields : HttpParserUrl :=
  ⟨fun
    | .schema => some (0, 4)
    | .host => some (7, 1)
    | .path => some (8, 2)
    | .query => some (11, 1)
    | .fragment => some (13, 1)
    | _ => none, 0⟩

/-- The fields of `http://h?q`. -/
def noPath : HttpParserUrl :=
  ⟨fun
    | .schema => some (0, 4)
    | .host => some (7, 1)
    | .query => some (9, 1)
    | _ => none, 0⟩

/-- What the parser says of `http://h/p?q#f` and of `http://h?q`. -/
def twoTargets : ParseUrl := fun url _ =>
  if url = ascii "http://h/p?q#f" then (true, allFields)
  else if url = ascii "http://h?q" then (true, noPath)
  else (false, Url.blank)

theorem allFields_documented : Documented (ascii "http://h/p?q#f") allFields where
  inside := by
    intro type off len h
    cases type <;> cases h <;> decide
  query := by
    intro off len off' len' hpath hquery
    cases hpath
    cases hquery
    decide
  fragment := by
    intro type off len off' len' htype h hfragment
    cases hfragment
    obtain rfl | rfl := htype <;> cases h <;> decide

theorem noPath_documented : Documented (ascii "http://h?q") noPath where
  inside := by
    intro type off len h
    cases type <;> cases h <;> decide
  query := by
    intro off len off' len' hpath
    cases hpath
  fragment := by
    intro type off len off' len' _ _ hfragment
    cases hfragment

theorem request_target_iff_path :
    ∃ c, request twoTargets Url.blank (some (ascii "GET")) (some (ascii "http://h/p?q#f")) = some c ∧
      (c.request.compileHeaders (fun _ => []) noHeaders none).bytes =
        ascii "GET /p?q HTTP/1.1\r\nhost: h\r\n\r\n" ∧
      CompleteTarget allFields (ascii "http://h/p?q#f")
        (c.request.compileHeaders (fun _ => []) noHeaders) (ascii "GET") := by
  obtain ⟨c, hc, hiff⟩ := request_target_iff twoTargets Url.blank allFields (some (ascii "GET"))
    (some (ascii "http://h/p?q#f")) (fun _ => []) noHeaders rfl rfl allFields_documented
  refine ⟨c, hc, ?_, hiff.mpr (.inl rfl)⟩
  have hpath : request twoTargets Url.blank (some (ascii "GET")) (some (ascii "http://h/p?q#f")) =
      some ⟨80, ⟨some (ascii "h"), some (ascii "GET"), some (ascii "/p?q")⟩⟩ := by
    decide
  rw [hpath] at hc
  cases hc
  decide

/-- For `http://h?q` the request line is `GET / HTTP/1.1`. -/
theorem request_target_lost : Documented (ascii "http://h?q") noPath ∧
    twoTargets (ascii "http://h?q") Url.blank = (true, noPath) ∧
    ∃ c, request twoTargets Url.blank (some (ascii "GET")) (some (ascii "http://h?q")) = some c ∧
      (c.request.compileHeaders (fun _ => []) noHeaders none).bytes =
        ascii "GET / HTTP/1.1\r\nhost: h\r\n\r\n" ∧
      ¬CompleteTarget noPath (ascii "http://h?q")
        (c.request.compileHeaders (fun _ => []) noHeaders) (ascii "GET") := by
  refine ⟨noPath_documented, rfl, ⟨80, ⟨some (ascii "h"), some (ascii "GET"), some (ascii "/")⟩⟩,
    by decide, by decide, ?_⟩
  intro h
  obtain ⟨target, hcomplete, rfl, -⟩ := h
  exact slash_incomplete ⟨some (ascii "h"), some (ascii "GET"), some (ascii "/")⟩ _ _ (ascii "q")
    rfl hcomplete

end Libnodecc.Http
