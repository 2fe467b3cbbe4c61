import Libnodecc.Http.Url
import Libnodecc.Framework.Run

namespace Libnodecc.Http

/-- Whether a URL is accepted depends on the URL alone, and so does the result if it is. -/
def AcceptsAlone (parse : ParseUrl) : Prop :=
  ∀ url old old', (parse url old).1 = (parse url old').1 ∧
    ((parse url old).1 = true → parse url old = parse url old')

/-- The calls on a `url`. -/
inductive UrlOp where
  | setUrl (url : Buf)
  | clear
  | get (type : UrlField)
  | portNum
  | hasParam (key : Bytes)
  | param (key : Bytes)
  | params

inductive UrlResult where
  | done
  | buffer (b : Buf)
  | number (n : Nat)
  | flag (b : Bool)
  | map (params : Bytes → Option Buf)

namespace Url

/-- A `struct http_parser_url` without any field. -/
def blank : HttpParserUrl := ⟨fun _ => none, 0⟩

/-- `url::url(const node::buffer&)`, in memory that held `parser`. -/
def ofBuffer (parse : ParseUrl) (parser : HttpParserUrl) (url : Buf) : Url :=
  (((uninitialized parser).setUrl url).parseUrl parse).2

def access (parse : ParseUrl) (u : Url) : UrlOp → UrlResult × Url
  | .setUrl url => (.done, u.setUrl url)
  | .clear => (.done, u.clear)
  | .get type =>
    let (b, u) := u.get parse type
    (.buffer b, u)
  | .portNum =>
    let (n, u) := u.portNum parse
    (.number n, u)
  | .hasParam key =>
    let u := u.parseParams parse
    (.flag (u.params key).isSome, u)
  | .param key =>
    let u := u.parseParams parse
    (.buffer ((u.params key).getD none), u)
  | .params =>
    let u := u.parseParams parse
    (.map u.params, u)

def step (parse : ParseUrl) (u : Url) (op : UrlOp) : Option Url := some (u.access parse op).2

def nothing : UrlOp → UrlResult
  | .setUrl _ | .clear => .done
  | .get _ | .param _ => .buffer none
  | .portNum => .number 0
  | .hasParam _ => .flag false
  | .params => .map fun _ => none

/-- What a call is to return, as the URL has it: what it returns on a new object with this URL, or
nothing if it is rejected. -/
def expected (parse : ParseUrl) (url : Buf) (op : UrlOp) : UrlResult :=
  match url with
  | none => nothing op
  | some bs =>
    if (parse bs blank).1 then (((uninitialized blank).setUrl (some bs)).access parse op).1
    else nothing op

/-- What a call returns, given what is in `_parser`, `_url` and `_params`. -/
def answer (parser : HttpParserUrl) (url : Buf) (params : Bytes → Option Buf) : UrlOp → UrlResult
  | .setUrl _ | .clear => .done
  | .get type => .buffer (field ⟨params, url, parser, .urlParsed⟩ type)
  | .portNum => .number (if (parser.fieldData .port).isSome then parser.port else 0)
  | .hasParam key => .flag (params key).isSome
  | .param key => .buffer ((params key).getD none)
  | .params => .map params

def Accepted (parse : ParseUrl) (u : Url) : Prop :=
  ∃ bs, u.url = some bs ∧ (parse bs u.parser).1 = true

/-- What an accessor finds in `_parser`. -/
def remains (parse : ParseUrl) (u : Url) : HttpParserUrl :=
  match u.url with
  | none => u.parser
  | some bs => if u.state = .uninitialized then (parse bs u.parser).2 else u.parser

/-- Without an accepted URL, what is left in `_parser` shows no bytes of the URL, and no port. -/
def Spent (parse : ParseUrl) (u : Url) : UrlOp → Prop
  | .get type => ∀ off len, (u.remains parse).fieldData type = some (off, len) →
      len = 0 ∨ u.url.size ≤ off
  | .portNum => ((u.remains parse).fieldData .port).isSome → (u.remains parse).port = 0
  | _ => True

def paramsFrom (bs : Bytes) (parser : HttpParserUrl) : Bytes → Option Buf :=
  let query := field ⟨fun _ => none, some bs, parser, .paramsParsed⟩ .query
  if query.isSome then splitParams (fun _ => none) query else fun _ => none

/-- The states that histories lead to. -/
inductive Known (parse : ParseUrl) : Url → Prop
  | new (url : Buf) (parser : HttpParserUrl) : Known parse ⟨fun _ => none, url, parser, .uninitialized⟩
  | parsed (bs : Bytes) (parser : HttpParserUrl) (h : parse bs parser = (true, parser)) :
      Known parse ⟨fun _ => none, some bs, parser, .urlParsed⟩
  | params (bs : Bytes) (parser : HttpParserUrl) (h : parse bs parser = (true, parser)) :
      Known parse ⟨paramsFrom bs parser, some bs, parser, .paramsParsed⟩
  | null (parser : HttpParserUrl) : Known parse ⟨fun _ => none, none, parser, .paramsParsed⟩
  | rejected (bs : Bytes) (parser : HttpParserUrl) (h : (parse bs parser).1 = false) :
      Known parse ⟨fun _ => none, some bs, parser, .error⟩

section
variable {parse : ParseUrl} {u : Url}

theorem slice_eq_none (b : Buf) (off len : Nat) :
    b.slice off (off + len) = none ↔ len = 0 ∨ b.size ≤ off := by
  cases b with
  | none => simp [Buf.slice, Buf.size]
  | some bs =>
    show (if min off bs.length < min (off + len) bs.length then _ else none) = none ↔ _
    show _ ↔ len = 0 ∨ bs.length ≤ off
    split_ifs with h
    · simp only [false_iff, not_or]
      omega
    · simp only [true_iff]
      omega

theorem parseUrl_remains (parse : ParseUrl) (u : Url) :
    (u.parseUrl parse).2.parser = u.remains parse ∧ (u.parseUrl parse).2.url = u.url := by
  obtain ⟨params, url, parser, state⟩ := u
  cases url with
  | none => exact ⟨rfl, rfl⟩
  | some bs =>
    cases state with
    | uninitialized =>
      simp only [parseUrl, remains, UrlState.rank, Nat.zero_lt_one, if_true]
      split_ifs <;> exact ⟨rfl, rfl⟩
    | _ => exact ⟨rfl, rfl⟩

theorem access_answer (parse : ParseUrl) (u : Url) (op : UrlOp) : (u.access parse op).1 =
    answer (u.remains parse) u.url (u.parseParams parse).params op := by
  obtain ⟨hparser, hurl⟩ := parseUrl_remains parse u
  cases op with
  | get type =>
    show UrlResult.buffer ((u.parseUrl parse).2.field type) = .buffer _
    unfold field
    rw [hparser, hurl]
  | portNum =>
    show UrlResult.number (if ((u.parseUrl parse).2.parser.fieldData .port).isSome then
      (u.parseUrl parse).2.parser.port else 0) = .number _
    rw [hparser]
  | _ => rfl

/-- After an accepted parse, what it left can be used. -/
theorem Known.remains_accepted (hparse : AcceptsAlone parse) (h : Known parse u) {bs : Bytes}
    (hurl : u.url = some bs) (haccepted : (parse bs blank).1 = true) :
    u.remains parse = (parse bs blank).2 := by
  have hsame (old : HttpParserUrl) : parse bs blank = parse bs old :=
    (hparse bs blank old).2 haccepted
  cases h with
  | new url parser =>
    cases hurl
    rw [hsame parser]
    rfl
  | parsed bs' parser hparsed =>
    cases hurl
    rw [hsame parser, hparsed]
    rfl
  | params bs' parser hparsed =>
    cases hurl
    rw [hsame parser, hparsed]
    rfl
  | null parser => cases hurl
  | rejected bs' parser hrejected =>
    cases hurl
    rw [← hsame parser, haccepted] at hrejected
    cases hrejected

theorem accepted_iff (hparse : AcceptsAlone parse) {bs : Bytes} (hurl : u.url = some bs) :
    u.Accepted parse ↔ (parse bs blank).1 = true := by
  rw [(hparse bs blank u.parser).1]
  constructor
  · intro ⟨bs', hbs', haccepted⟩
    obtain rfl := Option.some.inj (hurl.symm.trans hbs')
    exact haccepted
  · intro haccepted
    exact ⟨bs, hurl, haccepted⟩

/-- The first parse of a URL. -/
theorem parseUrl_new (hparse : AcceptsAlone parse) (bs : Bytes) (old : HttpParserUrl) :
    (∃ parser, parseUrl parse ⟨fun _ => none, some bs, old, .uninitialized⟩ =
        (true, ⟨fun _ => none, some bs, parser, .urlParsed⟩) ∧
      parse bs parser = (true, parser)) ∨
    (∃ parser, parseUrl parse ⟨fun _ => none, some bs, old, .uninitialized⟩ =
        (false, ⟨fun _ => none, some bs, parser, .error⟩) ∧
      (parse bs parser).1 = false) := by
  obtain ⟨hsame, hresult⟩ := hparse bs old (parse bs old).2
  cases haccepted : (parse bs old).1 with
  | true =>
    refine .inl ⟨(parse bs old).2, ?_, ?_⟩
    · simp only [parseUrl, UrlState.rank, Nat.zero_lt_one, if_true, haccepted]
    · rw [← hresult haccepted, ← haccepted]
  | false =>
    refine .inr ⟨(parse bs old).2, ?_, ?_⟩
    · simp only [parseUrl, UrlState.rank, Nat.zero_lt_one, if_true, haccepted, Bool.false_eq_true,
        if_false]
    · rw [← hsame, haccepted]

theorem Known.parseUrl (hparse : AcceptsAlone parse) (h : Known parse u) :
    Known parse (u.parseUrl parse).2 := by
  cases h with
  | new url old =>
    cases url with
    | none => exact .new none old
    | some bs =>
      obtain ⟨parser, hu, hparsed⟩ | ⟨parser, hu, hrejected⟩ := parseUrl_new hparse bs old
      · rw [hu]
        exact .parsed bs parser hparsed
      · rw [hu]
        exact .rejected bs parser hrejected
  | parsed bs parser hparsed => exact .parsed bs parser hparsed
  | params bs parser hparsed => exact .params bs parser hparsed
  | null parser => exact .null parser
  | rejected bs parser hrejected => exact .rejected bs parser hrejected

theorem parseParams_parsed {bs : Bytes} {parser : HttpParserUrl}
    (hu : u.parseUrl parse = (true, ⟨fun _ => none, some bs, parser, .urlParsed⟩))
    (hrank : u.state.rank < UrlState.paramsParsed.rank) :
    u.parseParams parse = ⟨paramsFrom bs parser, some bs, parser, .paramsParsed⟩ := by
  unfold parseParams
  rw [if_pos hrank, hu]
  rfl

theorem Known.parseParams (hparse : AcceptsAlone parse) (h : Known parse u) :
    Known parse (u.parseParams parse) := by
  cases h with
  | new url old =>
    cases url with
    | none =>
      rw [parseParams_none parse rfl]
      exact .null old
    | some bs =>
      obtain ⟨parser, hu, hparsed⟩ | ⟨parser, hu, hrejected⟩ := parseUrl_new hparse bs old
      · rw [parseParams_parsed hu Nat.zero_lt_two]
        exact .params bs parser hparsed
      · have hstop : Url.parseParams parse ⟨fun _ => none, some bs, old, .uninitialized⟩ =
            ⟨fun _ => none, some bs, parser, .error⟩ := by
          unfold Url.parseParams
          rw [hu]
          rfl
        rw [hstop]
        exact .rejected bs parser hrejected
  | parsed bs parser hparsed =>
    have hu : Url.parseUrl parse ⟨fun _ => none, some bs, parser, .urlParsed⟩ =
        (true, ⟨fun _ => none, some bs, parser, .urlParsed⟩) := rfl
    rw [parseParams_parsed hu Nat.one_lt_two]
    exact .params bs parser hparsed
  | params bs parser hparsed => exact .params bs parser hparsed
  | null parser => exact .null parser
  | rejected bs parser hrejected => exact .rejected bs parser hrejected

theorem Known.access (hparse : AcceptsAlone parse) (h : Known parse u) (op : UrlOp) :
    Known parse (u.access parse op).2 := by
  cases op with
  | setUrl url => exact .new url u.parser
  | clear => exact .new none u.parser
  | get _ => exact h.parseUrl hparse
  | portNum => exact h.parseUrl hparse
  | hasParam _ => exact h.parseParams hparse
  | param _ => exact h.parseParams hparse
  | params => exact h.parseParams hparse

/-- The parameters of an accepted URL depend on the URL alone. -/
theorem Known.params_accepted (hparse : AcceptsAlone parse) (h : Known parse u) {bs : Bytes}
    (hurl : u.url = some bs) (haccepted : (parse bs blank).1 = true) :
    (u.parseParams parse).params = paramsFrom bs (parse bs blank).2 := by
  have hparsed {parser : HttpParserUrl} (h : parse bs parser = (true, parser)) :
      (parse bs blank).2 = parser := by
    rw [(hparse bs blank parser).2 haccepted, h]
  cases h with
  | new url old =>
    cases hurl
    obtain ⟨parser, hu, hp⟩ | ⟨parser, hu, hrejected⟩ := parseUrl_new hparse bs old
    · rw [parseParams_parsed hu Nat.zero_lt_two, hparsed hp]
    · rw [(hparse bs parser blank).1, haccepted] at hrejected
      cases hrejected
  | parsed bs parser hp =>
    cases hurl
    have hu : Url.parseUrl parse ⟨fun _ => none, some bs, parser, .urlParsed⟩ =
        (true, ⟨fun _ => none, some bs, parser, .urlParsed⟩) := rfl
    rw [parseParams_parsed hu Nat.one_lt_two, hparsed hp]
  | params bs parser hp =>
    cases hurl
    rw [hparsed hp]
    rfl
  | null parser => cases hurl
  | rejected bs parser hrejected =>
    cases hurl
    rw [(hparse bs parser blank).1, haccepted] at hrejected
    cases hrejected

/-- Without an accepted URL there are no parameters. -/
theorem Known.params_unaccepted (hparse : AcceptsAlone parse) (h : Known parse u)
    (hunaccepted : ¬u.Accepted parse) : (u.parseParams parse).params = fun _ => none := by
  cases h with
  | new url old =>
    cases url with
    | none =>
      rw [parseParams_none parse rfl]
      rfl
    | some bs =>
      obtain ⟨parser, hu, hp⟩ | ⟨parser, hu, hrejected⟩ := parseUrl_new hparse bs old
      · refine absurd ⟨bs, rfl, ?_⟩ hunaccepted
        rw [(hparse bs old parser).1, hp]
      · unfold Url.parseParams
        rw [hu]
        rfl
  | parsed bs parser hp =>
    refine absurd ⟨bs, rfl, ?_⟩ hunaccepted
    rw [hp]
  | params bs parser hp =>
    refine absurd ⟨bs, rfl, ?_⟩ hunaccepted
    rw [hp]
  | null parser => rfl
  | rejected bs parser hrejected => rfl

/-- What is found in `_parser` shows nothing if and only if it is spent. -/
theorem answer_nothing (parse : ParseUrl) (u : Url) (op : UrlOp) :
    answer (u.remains parse) u.url (fun _ => none) op = nothing op ↔ u.Spent parse op := by
  cases op with
  | get type =>
    rw [answer, nothing, UrlResult.buffer.injEq, field]
    show _ ↔ ∀ off len, (u.remains parse).fieldData type = _ → _
    cases hfield : (u.remains parse).fieldData type with
    | none => simp
    | some range =>
      obtain ⟨off, len⟩ := range
      show u.url.slice off (off + len) = none ↔ _
      rw [slice_eq_none]
      constructor
      · intro h off' len' heq
        cases heq
        exact h
      · intro h
        exact h off len rfl
  | portNum =>
    show UrlResult.number (if _ then _ else _) = .number 0 ↔ (_ → _)
    rw [UrlResult.number.injEq]
    split_ifs with hport
    · exact ⟨fun h _ => h, fun h => h hport⟩
    · exact iff_of_true rfl fun h => absurd h hport
  | _ => exact iff_of_true rfl trivial

/-- A call returns what the URL has if and only if the URL is accepted, or nothing is left of an
earlier one. -/
theorem Known.access_iff (hparse : AcceptsAlone parse) (h : Known parse u) (op : UrlOp) :
    (u.access parse op).1 = expected parse u.url op ↔ u.Accepted parse ∨ u.Spent parse op := by
  rw [access_answer]
  by_cases haccepted : u.Accepted parse
  · obtain ⟨bs, hurl, hbs⟩ := haccepted
    have hfresh : (parse bs blank).1 = true := by rw [(hparse bs blank u.parser).1, hbs]
    have hnew : Known parse ((uninitialized blank).setUrl (some bs)) := .new (some bs) blank
    refine iff_of_true ?_ (.inl ⟨bs, hurl, hbs⟩)
    rw [h.remains_accepted hparse hurl hfresh, h.params_accepted hparse hurl hfresh, hurl]
    show _ = if (parse bs blank).1 then _ else _
    rw [if_pos hfresh, access_answer, hnew.remains_accepted hparse rfl hfresh,
      hnew.params_accepted hparse rfl hfresh]
    rfl
  · have hexpected : expected parse u.url op = nothing op := by
      cases hurl : u.url with
      | none => rfl
      | some bs =>
        rw [accepted_iff hparse hurl] at haccepted
        exact if_neg haccepted
    rw [h.params_unaccepted hparse haccepted, hexpected, answer_nothing]
    exact (or_iff_right haccepted).symm

end

/-- In any history of a `url`, a call depends only on the current URL if and only if that URL is
accepted, or what is left in `_parser` shows nothing. -/
theorem history_iff (parse : ParseUrl) (hparse : AcceptsAlone parse) (parser : HttpParserUrl)
    (url : Buf) (ops : List UrlOp) :
    Along (step parse)
      (fun u op => (u.access parse op).1 = expected parse u.url op ↔
        u.Accepted parse ∨ u.Spent parse op) (uninitialized parser) ops ∧
    Along (step parse)
      (fun u op => (u.access parse op).1 = expected parse u.url op ↔
        u.Accepted parse ∨ u.Spent parse op) (ofBuffer parse parser url) ops := by
  have hrun (u : Url) (hu : Known parse u) : Along (step parse)
      (fun u op => (u.access parse op).1 = expected parse u.url op ↔
        u.Accepted parse ∨ u.Spent parse op) u ops := by
    refine along_invariant (Known parse) ?_ ops u hu (along_of_forall (fun _ _ => trivial) u ops)
    intro u op hu _
    refine ⟨hu.access_iff hparse op, ?_⟩
    intro t ht
    cases ht
    exact hu.access hparse op
  have hnew : Known parse ((uninitialized parser).setUrl url) := .new url parser
  exact ⟨hrun _ (.new none parser), hrun _ (hnew.parseUrl hparse)⟩

/-- A parser that knows `http://a:80`, and finds the host in `http://a:99999` before it rejects
the port. -/
def twoUrls : ParseUrl := fun url _ =>
  if url = [0x68, 0x74, 0x74, 0x70, 0x3a, 0x2f, 0x2f, 0x61, 0x3a, 0x38, 0x30] then
    (true, ⟨fun
      | .schema => some (0, 4)
      | .host => some (7, 1)
      | .port => some (9, 2)
      | _ => none, 80⟩)
  else if url = [0x68, 0x74, 0x74, 0x70, 0x3a, 0x2f, 0x2f, 0x61, 0x3a, 0x39, 0x39, 0x39, 0x39, 0x39]
  then
    (false, ⟨fun
      | .schema => some (0, 4)
      | .host => some (7, 1)
      | .port => some (9, 5)
      | _ => none, 0⟩)
  else (false, blank)

/-- `http://a:80` and then `http://a:99999`, with `host` asked of both: the first answer is what the
URL has, the second is left in `_parser`. -/
theorem history_iff_host : AcceptsAlone twoUrls ∧ ∃ u v,
    step twoUrls (uninitialized blank)
        (.setUrl (some [0x68, 0x74, 0x74, 0x70, 0x3a, 0x2f, 0x2f, 0x61, 0x3a, 0x38, 0x30])) =
      some u ∧
    (u.access twoUrls (.get .host)).1 = .buffer (some [0x61]) ∧
    (u.access twoUrls (.get .host)).1 = expected twoUrls u.url (.get .host) ∧
    step twoUrls (u.access twoUrls (.get .host)).2
        (.setUrl (some [0x68, 0x74, 0x74, 0x70, 0x3a, 0x2f, 0x2f, 0x61, 0x3a, 0x39, 0x39, 0x39,
          0x39, 0x39])) =
      some v ∧
    (v.access twoUrls (.get .host)).1 = .buffer (some [0x61]) ∧
    (v.access twoUrls (.get .host)).1 ≠ expected twoUrls v.url (.get .host) := by
  have hparse : AcceptsAlone twoUrls := fun _ _ _ => ⟨rfl, fun _ => rfl⟩
  have hrun := (history_iff twoUrls hparse blank none
    [.setUrl (some [0x68, 0x74, 0x74, 0x70, 0x3a, 0x2f, 0x2f, 0x61, 0x3a, 0x38, 0x30]), .get .host,
      .setUrl (some [0x68, 0x74, 0x74, 0x70, 0x3a, 0x2f, 0x2f, 0x61, 0x3a, 0x39, 0x39, 0x39, 0x39,
        0x39]), .get .host]).1
  have hfirst := (hrun.2 _ rfl).1
  have hlast := (((hrun.2 _ rfl).2 _ rfl).2 _ rfl).1
  refine ⟨hparse, _, _, rfl, rfl, hfirst.mpr (.inl ⟨_, rfl, rfl⟩), rfl, rfl, hlast.not.mpr ?_⟩
  rintro (⟨url, hurl, haccepted⟩ | hspent)
  · cases hurl
    exact absurd haccepted (by decide)
  · obtain hempty | houtside := hspent 7 1 rfl
    · exact absurd hempty (by decide)
    · exact absurd houtside (by decide)

/-- `clear` leaves the port of `http://a:80` in `_parser`, and `host` of the rejected
`http://a:99999` is `a`. -/
theorem history_left :
    ¬(Along (step twoUrls)
      (fun u op => (u.access twoUrls op).1 = expected twoUrls u.url op) (uninitialized blank)
      [.setUrl (some [0x68, 0x74, 0x74, 0x70, 0x3a, 0x2f, 0x2f, 0x61, 0x3a, 0x38, 0x30]),
        .portNum, .clear, .portNum]) ∧
    ¬(Along (step twoUrls)
      (fun u op => (u.access twoUrls op).1 = expected twoUrls u.url op) (uninitialized blank)
      [.setUrl (some [0x68, 0x74, 0x74, 0x70, 0x3a, 0x2f, 0x2f, 0x61, 0x3a, 0x39, 0x39, 0x39, 0x39,
        0x39]), .get .host]) := by
  constructor
  · intro h
    obtain ⟨hport, -⟩ := (((h.2 _ rfl).2 _ rfl).2 _ rfl)
    injection hport with hport
    exact absurd hport (by decide)
  · intro h
    obtain ⟨hhost, -⟩ := h.2 _ rfl
    injection hhost with hhost
    exact absurd hhost (by decide)

end Url

end Libnodecc.Http
