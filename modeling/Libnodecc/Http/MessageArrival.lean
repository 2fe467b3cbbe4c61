import Libnodecc.Http.HeaderSection
import Libnodecc.Http.MessageSequence
import Libnodecc.Http.RequestOnWire
import Libnodecc.Http.ResponseOnWire

namespace Libnodecc.Http

open Util Wire

/-- What http_parser makes of a message: its parts, cut into the pieces the callbacks get. -/
structure Delivery where
  url : List Bytes
  headers : List DeliveredHeader
  info : ParserInfo
  body : List Bytes

namespace Delivery

def head (d : Delivery) : List MessageLabel := d.url.map .onUrl ++ deliver d.headers d.info

def labels (d : Delivery) : List MessageLabel :=
  d.head ++ (d.body.map .onBody ++ [.onMessageComplete])

/-- The pieces of a message that was read; every value comes in one piece that is not empty. -/
structure Of (d : Delivery) (head : Head) (body : Bytes) : Prop where
  fields : d.headers.map (fun h => (h.name.flatten, h.value.flatten)) = head.fields
  whole : ∀ h ∈ d.headers, h.Whole
  body : d.body.flatten = body

structure OfRequest (lib : HttpParser) (d : Delivery) (head : Head) (body : Bytes) : Prop
    extends d.Of head body where
  start : head.start = lib.methodMap d.info.method ++ ascii " " ++ d.url.flatten ++ ascii " HTTP/1.1"
  method : 0x20 ∉ lib.methodMap d.info.method

/-- The pieces of a response, with the number of its status line. -/
structure OfResponse (d : Delivery) (head : Head) (body : Bytes) : Prop extends d.Of head body where
  url : d.url = []
  start : Buf.decimal ((head.start.drop 9).take 3) = some d.info.statusCode

end Delivery

/-- An object with nothing of a message in it: a new one, or one whose last message left nothing
pending. A negative answer of `is_websocket_request` may be left. -/
structure Vacant (m : IncomingMessage) : Prop where
  headers : m.headers = fun _ => none
  field : m.partialHeaderField = none
  value : m.partialHeaderValue = none
  generic : m.genericValue = none
  websocket : m.isWebsocket ≠ some true

def lowered (fields : List (Bytes × Bytes)) : List (Bytes × Bytes) :=
  fields.map fun f => (f.1.map toLower, f.2)

/-- A name that nothing else in the head of an announcement is spelled like. -/
structure Announcement.Alone (a : Announcement) (name : Bytes) : Prop where
  set : ∀ key, (firstSet a.set key).isSome → key.map toLower = name.map toLower → key = name
  own : ∀ line, a.Shows line → line.name.map toLower = name.map toLower →
    line.name = name ∧ firstSet a.set name = none
  coding : ¬Spells name transferEncodingKey
  length : ¬Spells name contentLengthKey

/-- A field whose name comes once, however it is spelled. -/
theorem joined_once (fields : List (Bytes × Bytes)) (f : Bytes × Bytes) (hf : f ∈ fields)
    (honce : (fields.map Prod.fst).count f.1 ≤ 1)
    (hlike : ∀ g ∈ fields, g.1.map toLower = f.1.map toLower → g.1 = f.1) :
    joinedHeaders (lowered fields) (f.1.map toLower) = some f.2 := by
  have hsame : (lowered fields).filter (·.1 = f.1.map toLower) =
      lowered (fields.filter (·.1 = f.1)) := by
    rw [lowered, List.filter_map]
    congr 1
    apply List.filter_congr
    intro g hg
    by_cases heq : g.1 = f.1
    · simp [heq]
    · have hne : g.1.map toLower ≠ f.1.map toLower := fun h => heq (hlike g hg h)
      simp [heq, hne]
  have hlength : (fields.filter (·.1 = f.1)).length ≤ 1 := by
    have hbeq : (fun x : Bytes × Bytes => x.1 == f.1) = fun x => decide (x.1 = f.1) := by
      funext x
      by_cases h : x.1 = f.1 <;> simp [h]
    rw [List.count, List.countP_map, List.countP_eq_length_filter, Function.comp_def, hbeq] at honce
    exact honce
  have hmem : f ∈ fields.filter (·.1 = f.1) := List.mem_filter.mpr ⟨hf, by simp⟩
  obtain ⟨g, hg⟩ := List.length_eq_one_iff.mp
    (le_antisymm hlength (List.length_pos_of_mem hmem))
  rw [hg, List.mem_singleton] at hmem
  subst hmem
  rw [hg] at hsame
  simp only [joinedHeaders, hsame]
  simp [lowered]

theorem Announcement.HeadedBy.joined {a : Announcement} {head : Head} (h : a.HeadedBy head)
    (f : Bytes × Bytes) (hf : f ∈ head.fields) (ha : a.Alone f.1) :
    joinedHeaders (lowered head.fields) (f.1.map toLower) = some f.2 := by
  apply joined_once _ f hf
  · apply h.once
    intro line hshown hname
    exact (ha.own line hshown (by rw [hname])).2
  · intro g hg hlike
    rcases h.only g hg with ⟨value, hset, -⟩ | ⟨line, hshown, rfl⟩ | ⟨-, ⟨rfl, -⟩ | ⟨hkey, -⟩⟩
    · exact ha.set g.1 (by rw [hset]; rfl) hlike
    · exact (ha.own line hshown hlike).1
    · have hspells : Spells f.1 transferEncodingKey := by
        rw [Spells, ← hlike]
        decide
      exact absurd hspells ha.coding
    · have hspells : Spells f.1 contentLengthKey := by
        rw [Spells, ← hlike, hkey]
        decide
      exact absurd hspells ha.length

section
variable (lib : HttpParser)

theorem exposed_append (m : IncomingMessage) (ls ls' : List MessageLabel) :
    m.exposed lib (ls ++ ls') = m.exposed lib ls ++ (m.after lib ls).exposed lib ls' := by
  induction ls generalizing m with
  | nil => rfl
  | cons l ls ih =>
    rw [List.cons_append, IncomingMessage.exposed, ih, IncomingMessage.exposed, List.append_assoc]
    rfl

theorem after_append (m : IncomingMessage) (ls ls' : List MessageLabel) :
    m.after lib (ls ++ ls') = (m.after lib ls).after lib ls' := List.foldl_append

/-- The pieces of a URL are put together. -/
theorem after_url (us : List Bytes) (m : IncomingMessage) (bs : Bytes)
    (h : m.genericValue = .view bs) :
    m.after lib (us.map .onUrl) = { m with genericValue := .view (bs ++ us.flatten) } := by
  induction us generalizing m bs with
  | nil =>
    rw [List.flatten_nil, List.append_nil, ← h]
    rfl
  | cons u us ih =>
    have happend : (Buf.view bs).appendData u = .view (bs ++ u) := by
      by_cases hu : u = []
      · simp [Buf.appendData, hu]
      · rw [Buf.appendData, if_neg hu, Buf.bytes_view]
        simp [Buf.view, hu]
    have hstep : (m.step lib (.onUrl u)).genericValue = .view (bs ++ u) := by
      rw [← happend, ← h]
      rfl
    rw [List.map_cons, List.flatten_cons, ← List.append_assoc]
    exact ih (m.step lib (.onUrl u)) (bs ++ u) hstep

theorem addHeaderPartials_frame (m : IncomingMessage) : ∃ headers field value,
    m.addHeaderPartials = { m with
      headers := headers, partialHeaderField := field, partialHeaderValue := value } := by
  unfold IncomingMessage.addHeaderPartials
  cases m.pendingHeader with
  | none => exact ⟨_, _, _, rfl⟩
  | some x => exact ⟨_, _, _, rfl⟩

/-- The pieces of a header section change nothing but the headers. -/
theorem after_pieces (cs : List Piece) (m : IncomingMessage) : ∃ headers field value,
    m.after lib (cs.map Piece.label) = { m with
      headers := headers, partialHeaderField := field, partialHeaderValue := value } := by
  induction cs generalizing m with
  | nil => exact ⟨_, _, _, rfl⟩
  | cons c cs ih =>
    obtain ⟨headers, field, value, hm⟩ := addHeaderPartials_frame m
    have hstep : ∃ field' value', m.step lib c.label = { m with
        headers := headers, partialHeaderField := field', partialHeaderValue := value' } := by
      cases c with
      | field bs =>
        simp only [Piece.label, IncomingMessage.step, IncomingMessage.parserOnHeaderField, hm]
        exact ⟨_, _, rfl⟩
      | value bs =>
        simp only [Piece.label, IncomingMessage.step, IncomingMessage.parserOnHeaderValue, hm]
        exact ⟨_, _, rfl⟩
    obtain ⟨field', value', hstep⟩ := hstep
    obtain ⟨headers'', field'', value'', hrest⟩ := ih (m.step lib c.label)
    refine ⟨headers'', field'', value'', ?_⟩
    rw [List.map_cons, IncomingMessage.after, List.foldl_cons]
    change (m.step lib c.label).after lib (cs.map Piece.label) = _
    rw [hrest, hstep]

theorem exposed_silent (ls : List MessageLabel) (m : IncomingMessage)
    (h : ∀ l ∈ ls, ∀ m : IncomingMessage, m.exposes lib l = none) : m.exposed lib ls = [] := by
  induction ls generalizing m with
  | nil => rfl
  | cons l ls ih =>
    rw [IncomingMessage.exposed, h l List.mem_cons_self m,
      ih (m.step lib l) fun k hk => h k (List.mem_cons_of_mem l hk)]
    rfl

/-- The headers once they are complete. -/
theorem after_deliver (m : IncomingMessage) (hm : m.headers = fun _ => none)
    (hfield : m.partialHeaderField = none) (hvalue : m.partialHeaderValue = none)
    (hs : List DeliveredHeader) (info : ParserInfo) (hwhole : ∀ h ∈ hs, h.Whole) :
    (m.after lib (deliver hs info)).headers = joinedHeaders (hs.map DeliveredHeader.pair) := by
  have hflush : ∀ l ∈ deliver hs info, l.flushes = true := by
    intro l hl
    rcases List.mem_append.mp hl with hl | hl
    · obtain ⟨c, -, rfl⟩ := List.mem_map.mp hl
      cases c <;> rfl
    · obtain rfl := List.mem_singleton.mp hl
      rfl
  have hpairs := (assemble_section hs).mpr hwhole
  have hemplaced : m.emplaced lib (deliver hs info) = hs.map DeliveredHeader.pair := by
    rw [← hpairs]
    exact emplaced_eq_assemble lib _ m ⟨[], []⟩ info hfield hvalue
  rw [headers_eq_foldl lib _ m hflush, hemplaced, hm]
  apply foldl_emplaceHeader
  rw [← hpairs]
  exact Partials.value_ne_of_assembled _ _

theorem exposed_body (us : List Bytes) (m : IncomingMessage) (hm : m.isWebsocket ≠ some true) :
    m.exposed lib (us.map .onBody ++ [.onMessageComplete]) =
      (us.map fun bs => .data (.view bs)) ++ [.ended] := by
  induction us with
  | nil =>
    change (if m.isWebsocket ≠ some true then some Exposure.ended else none).toList ++ [] = _
    rw [if_pos hm]
    rfl
  | cons u us ih =>
    change .data (.view u) :: m.exposed lib (us.map .onBody ++ [.onMessageComplete]) = _
    rw [ih]
    rfl

/-- What the callbacks make of a head that was read, up to `headers_complete`. -/
theorem after_head (m : IncomingMessage) (hm : Vacant m) (d : Delivery) (head : Head)
    (body : Bytes) (hd : d.Of head body) : ∃ m₁ : IncomingMessage,
      m.after lib d.head = m₁.parserOnHeadersComplete lib d.info ∧ m₁.type = m.type ∧
      m₁.genericValue = .view d.url.flatten ∧ m₁.url = m.url ∧ m₁.isWebsocket = m.isWebsocket ∧
      (m.after lib d.head).headers = joinedHeaders (lowered head.fields) := by
  have hurl := after_url lib d.url m [] hm.generic
  rw [List.nil_append] at hurl
  obtain ⟨headers, field, value, hpieces⟩ := after_pieces lib
    (d.headers.flatMap DeliveredHeader.pieces) { m with genericValue := .view d.url.flatten }
  have hpairs : d.headers.map DeliveredHeader.pair = lowered head.fields := by
    rw [← hd.fields, lowered, List.map_map]
    rfl
  have hdeliver := after_deliver lib { m with genericValue := .view d.url.flatten } hm.headers
    hm.field hm.value d.headers d.info hd.whole
  rw [hpairs] at hdeliver
  refine ⟨{ m with
    genericValue := .view d.url.flatten, headers := headers, partialHeaderField := field
    partialHeaderValue := value }, ?_, rfl, rfl, rfl, rfl, ?_⟩
  · rw [Delivery.head, after_append, hurl, deliver, after_append, hpieces]
    rfl
  · rw [Delivery.head, after_append, hurl]
    exact hdeliver

theorem request_head (m : IncomingMessage) (hm : Vacant m) (ht : m.type = .request) (d : Delivery)
    (head : Head) (body : Bytes) (hd : d.Of head body) :
    (m.after lib d.head).genericValue = .view (lib.methodMap d.info.method) ∧
      (m.after lib d.head).url.url = .view d.url.flatten ∧
      (m.after lib d.head).headers = joinedHeaders (lowered head.fields) := by
  obtain ⟨m₁, hhead, htype, hgeneric, -, -, hheaders⟩ := after_head lib m hm d head body hd
  obtain ⟨headers, field, value, hadd⟩ := addHeaderPartials_frame m₁
  refine ⟨?_, ?_, hheaders⟩
  · rw [hhead, IncomingMessage.parserOnHeadersComplete, hadd, htype, ht]
  · rw [hhead, IncomingMessage.parserOnHeadersComplete, hadd, htype, ht]
    exact hgeneric

theorem response_head (m : IncomingMessage) (hm : Vacant m) (ht : m.type = .response)
    (d : Delivery) (head : Head) (body : Bytes) (hd : d.Of head body) :
    (m.after lib d.head).statusCode = d.info.statusCode % 2^16 ∧
      (m.after lib d.head).headers = joinedHeaders (lowered head.fields) := by
  obtain ⟨m₁, hhead, htype, -, -, -, hheaders⟩ := after_head lib m hm d head body hd
  obtain ⟨headers, field, value, hadd⟩ := addHeaderPartials_frame m₁
  refine ⟨?_, hheaders⟩
  rw [hhead, IncomingMessage.parserOnHeadersComplete, hadd, htype, ht]

/-- What the user is shown of a message: its headers at once, its body in pieces, and its end. -/
theorem exposed_labels (m : IncomingMessage) (hm : Vacant m) (d : Delivery) (head : Head)
    (body : Bytes) (hd : d.Of head body) :
    m.exposed lib d.labels = .headersComplete d.info.upgrade d.info.shouldKeepAlive ::
      ((d.body.map fun bs => .data (.view bs)) ++ [.ended]) := by
  obtain ⟨m₁, hhead, -, -, -, hwebsocket, -⟩ := after_head lib m hm d head body hd
  obtain ⟨headers, field, value, hadd⟩ := addHeaderPartials_frame m₁
  have hopen : (m.after lib d.head).isWebsocket ≠ some true := by
    have hsame : (m.after lib d.head).isWebsocket = m₁.isWebsocket := by
      rw [hhead, IncomingMessage.parserOnHeadersComplete, hadd]
      cases m₁.type <;> rfl
    rw [hsame, hwebsocket]
    exact hm.websocket
  have hsilent : m.exposed lib (d.url.map .onUrl ++
      (d.headers.flatMap DeliveredHeader.pieces).map Piece.label) = [] := by
    apply exposed_silent
    intro l hl m
    rcases List.mem_append.mp hl with hl | hl
    · obtain ⟨u, -, rfl⟩ := List.mem_map.mp hl
      rfl
    · obtain ⟨c, -, rfl⟩ := List.mem_map.mp hl
      cases c <;> rfl
  have hshown : m.exposed lib d.head =
      [.headersComplete d.info.upgrade d.info.shouldKeepAlive] := by
    rw [Delivery.head, deliver, ← List.append_assoc, exposed_append, hsilent]
    rfl
  rw [Delivery.labels, exposed_append, hshown, exposed_body lib d.body _ hopen]
  rfl

end

/-- What is announced has an opening with `P`. -/
def Transfer.OpenedBy (P : Opening → Prop) : Transfer → Prop
  | unsent _ => True
  | sending a _ => P a.opening
  | sent a _ => P a.opening

section
variable {P : Opening → Prop} {build : Build} {o : Opening}

theorem call_openedBy (ho : P o) (t t' : Transfer) (c : OutgoingCall 64) (ht : t.OpenedBy P)
    (h : t.call build o c = some t') : t'.OpenedBy P := by
  have hform (a : Announcement) (body : Bytes) (ha : P a.opening) :
      (if c.last then Transfer.sent a body else .sending a body).OpenedBy P := by
    cases c.last with
    | true => exact ha
    | false => exact ha
  have hannounce (a : Announcement) (ha : a.opening = o) (h : a.announce c = some t') :
      t'.OpenedBy P := by
    obtain ⟨-, -, rfl⟩ := announce_permits a c t' h
    apply hform
    rw [ha]
    exact ho
  cases t with
  | sent a body =>
    obtain rfl := Option.some.inj h
    exact ht
  | sending a body =>
    simp only [Transfer.call, Announcement.add] at h
    by_cases hp : a.Permits body c
    · rw [if_pos hp] at h
      obtain rfl := Option.some.inj h
      exact hform a _ ht
    · rw [if_neg hp] at h
      cases h
  | unsent set =>
    simp only [Transfer.call] at h
    cases hlength : setHeaders set contentLengthKey with
    | some value =>
      simp only [hlength] at h
      obtain ⟨n, -, h⟩ := Option.bind_eq_some_iff.mp h
      exact hannounce _ rfl h
    | none =>
      simp only [hlength] at h
      split_ifs at h with hneeds hempty hlast hexact
      · obtain rfl := Option.some.inj h
        trivial
      · exact hannounce _ rfl h
      · exact hannounce _ rfl h

theorem Sending.setHeader_openedBy (p p' : Sending) (key : Bytes) (value : Buf)
    (hp : p.transfer.OpenedBy P) (h : p.setHeader key value = some p') : p'.transfer.OpenedBy P := by
  rcases p.setHeader_cases p' key value h with ⟨rfl, -⟩ | ⟨-, set, -, -, rfl⟩
  · exact hp
  · trivial

theorem Sending.call_openedBy (ho : P o) (p p' : Sending) (c : OutgoingCall 64)
    (hp : p.transfer.OpenedBy P) (h : p.call build o c = some p') : p'.transfer.OpenedBy P := by
  rcases p.call_cases build o p' c h with ⟨rfl, -⟩ | ⟨-, -, t, hcall, rfl⟩
  · exact hp
  · exact Http.call_openedBy ho p.transfer t c hp hcall

end

/-- A line is cut at its first blank in one way. -/
theorem first_blank (word rest word' rest' : Bytes) (h : 0x20 ∉ word) (h' : 0x20 ∉ word')
    (heq : word ++ 0x20 :: rest = word' ++ 0x20 :: rest') : word = word' ∧ rest = rest' := by
  induction word generalizing word' with
  | nil =>
    cases word' with
    | nil => exact ⟨rfl, (List.cons.inj heq).2⟩
    | cons ch word' =>
      obtain ⟨rfl, -⟩ := List.cons.inj heq
      exact absurd List.mem_cons_self h'
  | cons ch word ih =>
    cases word' with
    | nil =>
      obtain ⟨rfl, -⟩ := List.cons.inj heq
      exact absurd List.mem_cons_self h
    | cons ch' word' =>
      obtain ⟨rfl, htail⟩ := List.cons.inj heq
      obtain ⟨rfl, hrest⟩ := ih word' (fun hin => h (List.mem_cons_of_mem _ hin))
        (fun hin => h' (List.mem_cons_of_mem _ hin)) htail
      exact ⟨rfl, hrest⟩

/-- A message is shown with its body in pieces, and with the headers that nothing else is spelled
like. -/
structure Shows (lib : HttpParser) (m : IncomingMessage) (d : Delivery) (a : Announcement)
    (body : Bytes) : Prop where
  header : ∀ name value, a.Alone name → firstSet a.set name = some value →
    (m.after lib d.head).header (name.map toLower) = some value.bytes
  own : ∀ line, a.Alone line.name → a.Shows line →
    (m.after lib d.head).header (line.name.map toLower) = some line.value
  shown : m.exposed lib d.labels = .headersComplete d.info.upgrade d.info.shouldKeepAlive ::
    ((d.body.map fun bs => .data (.view bs)) ++ [.ended])
  body : d.body.flatten = body

theorem shows_of_headers (lib : HttpParser) (m : IncomingMessage) (hm : Vacant m) (d : Delivery)
    (head : Head) (body : Bytes) (hd : d.Of head body) (a : Announcement) (h : a.HeadedBy head)
    (hheaders : (m.after lib d.head).headers = joinedHeaders (lowered head.fields)) :
    Shows lib m d a body where
  header := by
    intro name value halone hset
    rw [IncomingMessage.header, hheaders]
    exact h.joined (name, value.bytes) (h.set name value hset) halone
  own := by
    intro line halone hshown
    rw [IncomingMessage.header, hheaders]
    exact h.joined line.field (h.own line hshown) halone
  shown := exposed_labels lib m hm d head body hd
  body := hd.body

def Delivery.plain (url : List Bytes) (fields : List (Bytes × Bytes)) (h : ∀ f ∈ fields, f.1 ≠ [])
    (info : ParserInfo) (body : Bytes) : Delivery where
  url := url
  headers := fields.attach.map fun f => ⟨[f.1.1], [f.1.2], by simpa using h f.1 f.2, by simp⟩
  info := info
  body := [body]

theorem Delivery.plain_of (url : List Bytes) (head : Head) (h : ∀ f ∈ head.fields, f.1 ≠ [])
    (hvalue : ∀ f ∈ head.fields, f.2 ≠ []) (info : ParserInfo) (body : Bytes) :
    (Delivery.plain url head.fields h info body).Of head body where
  fields := by
    simp only [Delivery.plain, List.map_map]
    calc head.fields.attach.map _ = head.fields.attach.map Subtype.val := by
          apply List.map_congr_left
          intro f _
          simp
      _ = head.fields := List.attach_map_subtype_val _
  whole := by
    intro d hd
    obtain ⟨f, -, rfl⟩ := List.mem_map.mp hd
    have hne := hvalue f.1 f.2
    simp [DeliveredHeader.Whole, hne]
  body := by simp [Delivery.plain]

/-- A request that was sent to its end arrives as it was sent, whatever the pieces it comes in. -/
theorem request_arrives (build : Build) (order : Headers → List Bytes)
    (horder : ∀ set, Traverses (order (setHeaders set)) (setHeaders set)) (isChunked : Bool)
    (request : Request) (hr : request.Sendable) (hmethod : 0x20 ∉ request.method.bytes)
    (es : List RequestEvent) (a : Announcement) (body : Bytes) (live : Bool)
    (h : run (Sending.requestStep build (requestOpening request)) .init es =
      some ⟨.sent a body, live⟩) :
    ∃ r head, run (ClientRequest.step build order) ⟨request, .init isChunked⟩ es = some r ∧
      run (Reader.step requestFormat) (.start []) r.stream.message.handedOver =
        some (.done head body) ∧
      a.HeadedBy head ∧ ∀ lib m d, Vacant m → m.type = .request → d.OfRequest lib head body →
        ((m.after lib d.head).access lib .method).1 = .bytes (.view request.method.bytes) ∧
          ((m.after lib d.head).access lib .url).1 = .bytes (.view request.path.bytes) ∧
          Shows lib m d a body := by
  obtain ⟨r, reader, hrun, hread, has⟩ :=
    request_is_read build order horder isChunked request hr es _ h
  have hopening : a.opening = requestOpening request := by
    have hopened : (Transfer.sent a body).OpenedBy (· = requestOpening request) := by
      apply run_invariant (C := fun _ _ => True)
        (fun p : Sending => p.transfer.OpenedBy (· = requestOpening request)) _ es .init _ trivial
        (along_of_forall (fun _ _ => trivial) _ _) h
      intro p e p' hp _ hstep
      cases e with
      | setHeader key value => exact p.setHeader_openedBy p' key value hp hstep
      | call c => exact Sending.call_openedBy (P := (· = requestOpening request)) rfl p p' c hp hstep
      | endSocket =>
        obtain rfl := Option.some.inj hstep
        exact hp
      | destroy =>
        obtain rfl := Option.some.inj hstep
        exact hp
    exact hopened
  cases has with
  | sent a body head hhead =>
    refine ⟨r, head, hrun, hread, hhead, ?_⟩
    intro lib m d hm ht hd
    obtain ⟨hmethod', hurl, hheaders⟩ := request_head lib m hm ht d head body hd.toOf
    have hline : lib.methodMap d.info.method ++ 0x20 :: d.url.flatten =
        request.method.bytes ++ 0x20 :: request.path.bytes := by
      have hstart := hd.start
      rw [hhead.start, hopening] at hstart
      have hcancel := List.append_cancel_right hstart
      have hblank (bs cs : Bytes) : bs ++ ascii " " ++ cs = bs ++ 0x20 :: cs := by
        rw [List.append_assoc]
        rfl
      rw [hblank, hblank] at hcancel
      exact hcancel.symm
    obtain ⟨hsame, hpath⟩ := first_blank _ _ _ _ hd.method hmethod hline
    refine ⟨?_, ?_, shows_of_headers lib m hm d head body hd.toOf a hhead hheaders⟩
    · rw [← hsame, ← hmethod']
      rfl
    · rw [← hpath, ← hurl]
      rfl

set_option maxRecDepth 20000 in
/-- `GET /a` with an `ETag` and the body `abc` in two pieces. -/
theorem request_arrives_chunked :
    let request : Request := ⟨some (ascii "h"), some (ascii "GET"), some (ascii "/a")⟩
    let es : List RequestEvent := [.setHeader (ascii "ETag") (some (ascii "7")),
      .call (.body (.write [⟨some (ascii "ab"), by decide⟩])),
      .call (.endWith [⟨some (ascii "c"), by decide⟩])]
    let m := IncomingMessage.init .request ⟨fun _ => none, 0⟩ 0 0 0
    ∃ r head, ∃ d : Delivery,
      run (ClientRequest.step glibc someOrder) ⟨request, .init true⟩ es = some r ∧
      run (Reader.step requestFormat) (.start []) r.stream.message.handedOver =
        some (.done head (ascii "abc")) ∧
      d.OfRequest plainParser head (ascii "abc") ∧
      ((m.after plainParser d.head).access plainParser .method).1 = .bytes (some (ascii "GET")) ∧
      ((m.after plainParser d.head).access plainParser .url).1 = .bytes (some (ascii "/a")) ∧
      (m.after plainParser d.head).header (ascii "etag") = some (ascii "7") ∧
      (m.after plainParser d.head).header (ascii "host") = some (ascii "h") ∧
      d.body.flatten = ascii "abc" := by
  intro request es m
  obtain ⟨r, head, hrun, hread, hhead, harrives⟩ := request_arrives glibc someOrder
    someOrder_traverses true request
    ⟨by decide +kernel, by decide +kernel, by decide +kernel, by decide⟩ (by decide) es
    ⟨requestOpening request, [(ascii "ETag", some (ascii "7"))], none⟩ (ascii "abc") true rfl
  have honly (line : HeaderLine)
      (h : Announcement.Shows ⟨requestOpening request, [(ascii "ETag", some (ascii "7"))], none⟩ line) :
      line = hostLine request.host := by
    obtain ⟨l, hl, -, rfl⟩ := h
    obtain rfl : l = ⟨hostLine request.host, false⟩ := by simpa [requestOpening] using hl
    rfl
  have hset (key : Bytes) (value : Buf)
      (h : firstSet [(ascii "ETag", some (ascii "7"))] key = some value) :
      key = ascii "ETag" ∧ value = some (ascii "7") := by
    have hmem := firstSet_mem h
    simpa using hmem
  have hparts : ∀ f ∈ head.fields, f.1 ≠ [] ∧ f.2 ≠ [] := by
    intro f hf
    rcases hhead.only f hf with ⟨value, hvalue, heq⟩ | ⟨line, hshown, rfl⟩ | ⟨-, ⟨rfl, -⟩ | ⟨-, hno, -⟩⟩
    · obtain ⟨hkey, rfl⟩ := hset f.1 value hvalue
      rw [hkey, heq]
      decide
    · rw [honly line hshown]
      decide
    · decide
    · cases hno
  let d := Delivery.plain [ascii "/a"] head.fields (fun f hf => (hparts f hf).1)
    ⟨1, 1, 1, 0, false, true⟩ (ascii "abc")
  have hstart : head.start =
      ascii "GET" ++ ascii " " ++ [ascii "/a"].flatten ++ ascii " HTTP/1.1" := hhead.start
  have hget : (0x20 : UInt8) ∉ ascii "GET" := by decide
  have hd : d.OfRequest plainParser head (ascii "abc") :=
    { Delivery.plain_of [ascii "/a"] head (fun f hf => (hparts f hf).1) (fun f hf => (hparts f hf).2)
        ⟨1, 1, 1, 0, false, true⟩ (ascii "abc") with
      start := hstart
      method := hget }
  have hm : Vacant m := ⟨rfl, rfl, rfl, rfl, by simp [m, IncomingMessage.init]⟩
  obtain ⟨hmethod, hurl, hshows⟩ := harrives plainParser m d hm rfl hd
  have hetag := hshows.header (ascii "ETag") (some (ascii "7")) ⟨?_, ?_, by decide, by decide⟩ rfl
  · have hhost := hshows.own (hostLine request.host) ⟨?_, ?_, by decide, by decide⟩
      ⟨⟨hostLine request.host, false⟩, by simp [requestOpening], by simp, rfl⟩
    · exact ⟨r, head, d, hrun, hread, hd, hmethod, hurl, hetag, hhost, hshows.body⟩
    · intro key hkey hlike
      obtain ⟨value, hvalue⟩ := Option.isSome_iff_exists.mp hkey
      rw [(hset key value hvalue).1] at hlike
      exact absurd hlike (by decide)
    · intro line hshown _
      rw [honly line hshown]
      exact ⟨rfl, rfl⟩
  · intro key hkey _
    obtain ⟨value, hvalue⟩ := Option.isSome_iff_exists.mp hkey
    exact (hset key value hvalue).1
  · intro line hshown hlike
    rw [honly line hshown] at hlike
    exact absurd hlike (by decide)

/-- The code that a status stands for: that of the table, or 500. -/
def sentCode (code : UInt16) : Nat := if (strStatusCode code).2.isSome then code.toNat else 500

theorem status_decimal (code : UInt16) :
    Buf.decimal ((ServerResponse.status code).take 3) = some (sentCode code) := by
  rcases status_eq code with ⟨hstr, len, hmem⟩ | ⟨hstr, heq⟩
  · rw [sentCode, hstr]
    exact (statusCodes_text _ hmem _ rfl).2.1
  · have h500 : Buf.decimal ((ascii "500 Internal Server Error").take 3) = some 500 := by
      decide +kernel
    rw [sentCode, hstr, heq]
    exact h500

/-- A response that was ended arrives at its client as it was announced. -/
theorem response_arrives (build : Build) (order : Headers → List Bytes)
    (horder : ∀ set, Traverses (order (setHeaders set)) (setHeaders set)) (isChunked : Bool)
    (date : Tm) (hdate : date.Valid) (es : List ResponseEvent) (code : UInt16) (now : Tm)
    (a : Announcement) (body : Bytes) (live : Bool)
    (h : run (Reply.step build) (.init date) es = some ⟨code, now, .sent a body, live⟩) :
    ∃ r head status sent, run (ServerResponse.step build order) (.init isChunked date) es = some r ∧
      run (Reader.step responseFormat) (.start []) r.stream.message.handedOver =
        some (.done head body) ∧
      a.HeadedBy head ∧ a.opening = responseOpening status sent ∧
      ∀ lib m d, Vacant m → m.type = .response → d.OfResponse head body →
        ((m.after lib d.head).access lib .statusCode).1 = .number (sentCode status) ∧
          Shows lib m d a body := by
  obtain ⟨r, reader, hrun, hread, has⟩ :=
    response_is_read build order horder isChunked date hdate es _ h
  obtain ⟨status, sent, hopening⟩ : ∃ status sent, a.opening = responseOpening status sent := by
    have hopened : (Transfer.sent a body).OpenedBy fun o => ∃ code sent, o =
        responseOpening code sent := by
      apply run_invariant (C := fun _ _ => True) (fun p : Reply => p.sending.transfer.OpenedBy
        fun o => ∃ code sent, o = responseOpening code sent) _ es (.init date) _ trivial
        (along_of_forall (fun _ _ => trivial) _ _) h
      intro p e p' hp _ hstep
      cases e with
      | setStatusCode code =>
        obtain rfl := Option.some.inj hstep
        exact hp
      | setHeader key value =>
        obtain ⟨q, hq, rfl⟩ := Option.map_eq_some_iff.mp hstep
        exact p.sending.setHeader_openedBy q key value hp hq
      | call c =>
        obtain ⟨q, hq, rfl⟩ := Option.map_eq_some_iff.mp hstep
        exact Sending.call_openedBy ⟨p.statusCode, p.date, rfl⟩ p.sending q c hp hq
      | updateDate date =>
        simp only [Reply.step] at hstep
        split_ifs at hstep with hvalid
        obtain rfl := Option.some.inj hstep
        exact hp
      | endSocket =>
        obtain rfl := Option.some.inj hstep
        exact hp
      | destroy =>
        obtain rfl := Option.some.inj hstep
        exact hp
    exact hopened
  cases has with
  | sent a body head hhead =>
    refine ⟨r, head, status, sent, hrun, hread, hhead, hopening, ?_⟩
    intro lib m d hm ht hd
    obtain ⟨hstatus, hheaders⟩ := response_head lib m hm ht d head body hd.toOf
    have hnumber : some d.info.statusCode = some (sentCode status) := by
      rw [← hd.start, ← status_decimal status, hhead.start, hopening]
      rfl
    have hsmall : sentCode status < 2^16 := by
      unfold sentCode
      split_ifs
      · exact status.toNat_lt
      · decide
    refine ⟨?_, shows_of_headers lib m hm d head body hd.toOf a hhead hheaders⟩
    rw [Option.some.inj hnumber, Nat.mod_eq_of_lt hsmall] at hstatus
    rw [← hstatus]
    rfl

set_option maxRecDepth 20000 in
/-- A `404` with a date and the body `no`. -/
theorem response_arrives_length :
    let noon : Tm := ⟨0, 0, 12, 15, 10, 94, 2⟩
    let es : List ResponseEvent := [.setStatusCode 404,
      .call (.endWith [⟨some (ascii "no"), by decide⟩]), .destroy]
    let m := IncomingMessage.init .response ⟨fun _ => none, 0⟩ 0 0 0
    ∃ r head, ∃ d : Delivery, run (ServerResponse.step glibc someOrder) (.init true noon) es = some r ∧
      run (Reader.step responseFormat) (.start []) r.stream.message.handedOver =
        some (.done head (ascii "no")) ∧
      d.OfResponse head (ascii "no") ∧
      ((m.after plainParser d.head).access plainParser .statusCode).1 = .number 404 ∧
      (m.after plainParser d.head).header (ascii "date") =
        some (ascii "Tue, 15 Nov 1994 12:00:00 GMT") ∧
      d.body.flatten = ascii "no" := by
  intro noon es m
  obtain ⟨r, head, status, sent, hrun, hread, hhead, hopening, harrives⟩ :=
    response_arrives glibc someOrder someOrder_traverses true noon (by decide) es 404 noon
      ⟨responseOpening 404 noon, [], some 2⟩ (ascii "no") false rfl
  have honly (line : HeaderLine)
      (h : Announcement.Shows ⟨responseOpening 404 noon, [], some 2⟩ line) :
      line = dateLine noon.date ∨ line = connectionLine := by
    obtain ⟨l, hl, -, rfl⟩ := h
    simp only [responseOpening, List.singleton_append, List.mem_cons, List.not_mem_nil,
      or_false] at hl
    rcases hl with rfl | rfl
    · exact .inl rfl
    · exact .inr rfl
  have hparts : ∀ f ∈ head.fields, f.1 ≠ [] ∧ f.2 ≠ [] := by
    intro f hf
    rcases hhead.only f hf with ⟨value, hvalue, -⟩ | ⟨line, hshown, rfl⟩ |
      ⟨-, ⟨-, hno⟩ | ⟨hkey, -, hdecimal⟩⟩
    · cases hvalue
    · rcases honly line hshown with rfl | rfl
      · decide +kernel
      · decide +kernel
    · cases hno
    · refine ⟨?_, ?_⟩
      · rw [hkey]
        decide
      · rintro hnil
        rw [hnil] at hdecimal
        cases hdecimal
  let d := Delivery.plain [] head.fields (fun f hf => (hparts f hf).1)
    ⟨1, 1, 0, 404, false, false⟩ (ascii "no")
  have hnumber : sentCode 404 = 404 := by decide +kernel
  have hd : d.OfResponse head (ascii "no") :=
    { Delivery.plain_of [] head (fun f hf => (hparts f hf).1) (fun f hf => (hparts f hf).2)
        ⟨1, 1, 0, 404, false, false⟩ (ascii "no") with
      url := rfl
      start := by
        have hcode := status_decimal 404
        rw [hnumber] at hcode
        rw [hhead.start]
        exact hcode }
  have hm : Vacant m := ⟨rfl, rfl, rfl, rfl, by simp [m, IncomingMessage.init]⟩
  obtain ⟨hstatus, hshows⟩ := harrives plainParser m d hm rfl hd
  have hsame : sentCode status = 404 := by
    have hstart : ServerResponse.status 404 = ServerResponse.status status :=
      List.append_cancel_left (congrArg Opening.start hopening)
    have hcode := status_decimal 404
    rw [hstart, status_decimal, hnumber] at hcode
    exact Option.some.inj hcode
  rw [hsame] at hstatus
  have hdate := hshows.own (dateLine noon.date) ⟨?_, ?_, by decide +kernel, by decide +kernel⟩
    ⟨⟨dateLine noon.date, true⟩, by simp [responseOpening], by simp [firstSet], rfl⟩
  · have hvalue : (dateLine noon.date).value = ascii "Tue, 15 Nov 1994 12:00:00 GMT" := by
      decide +kernel
    rw [hvalue] at hdate
    exact ⟨r, head, d, hrun, hread, hd, hstatus, hdate, hshows.body⟩
  · intro key hkey
    cases hkey
  · intro line hshown hlike
    rcases honly line hshown with rfl | rfl
    · exact ⟨rfl, rfl⟩
    · exact absurd hlike (by decide +kernel)

end Libnodecc.Http
