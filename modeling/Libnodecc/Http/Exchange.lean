import Libnodecc.Http.MessageArrival

namespace Libnodecc.Http

open Util Wire

/-- The request and the response of a connection. `connected` tells whether the
`headers_complete_callback` still is, `listening` whether somebody listens for `request_event`, and
`emitted` counts how often it was emitted. -/
structure Exchange (ρ : Type*) where
  request : IncomingMessage
  response : ρ
  connected : Bool
  listening : Bool
  emitted : Nat

/-- The callbacks of the parser and the calls of the user in between, what happens to the response,
and listeners that come and go. -/
inductive ExchangeEvent where
  | message (l : MessageLabel)
  | response (e : ResponseEvent)
  | listen (listening : Bool)

def ResponseEvent.isDestroy : ResponseEvent → Bool
  | .destroy => true
  | _ => false

/-- The parser of a `headers_complete` callback. -/
def MessageLabel.completes : MessageLabel → Option ParserInfo
  | .onHeadersComplete parser => some parser
  | _ => none

def refusal (hasHost listening upgrade : Bool) : Option UInt16 :=
  if !hasHost then some 400
  else if !listening then some 500
  else if upgrade then some 501
  else none

namespace Exchange

section
variable {ρ : Type*} (lib : HttpParser) (respond : ρ → ResponseEvent → Option ρ)

/-- The listener for `connection_event`, with what uninitialised fields happen to hold. -/
def init (parser : HttpParserUrl) (statusCode major minor : Nat) (response : ρ) (listening : Bool) :
    Exchange ρ :=
  ⟨.init .request parser statusCode major minor, response, true, listening, 0⟩

/-- The `headers_complete_callback`. -/
def headersComplete (c : Exchange ρ) (upgrade : Bool) : Option (Exchange ρ) :=
  match refusal (c.request.headers (ascii "host")).isSome c.listening upgrade with
  | some code =>
    (respond c.response (.setStatusCode code)).bind fun response =>
      (respond response (.call (.endWith []))).map fun response => { c with response := response }
  | none => some { c with emitted := c.emitted + 1 }

def step (c : Exchange ρ) : ExchangeEvent → Option (Exchange ρ)
  | .message l =>
    let c := { c with request := c.request.step lib l }
    match l.completes with
    | some parser => if c.connected then c.headersComplete respond parser.upgrade else some c
    | none => some c
  | .response e =>
    (respond c.response e).map fun response =>
      { c with response := response, connected := c.connected && !e.isDestroy }
  | .listen listening => some { c with listening := listening }

end

end Exchange

/-- What the server does to a response that it answers itself with. -/
def answerEvents (code : UInt16) : List ResponseEvent := [.setStatusCode code, .call (.endWith [])]

section
variable {ρ : Type*} (respond : ρ → ResponseEvent → Option ρ) (c : Exchange ρ) (upgrade : Bool)

theorem headersComplete_answer (code : UInt16)
    (h : refusal (c.request.headers (ascii "host")).isSome c.listening upgrade = some code) :
    c.headersComplete respond upgrade =
      (run respond c.response (answerEvents code)).map fun r => { c with response := r } := by
  simp only [Exchange.headersComplete, h, answerEvents, run_cons, run_nil, Option.bind_fun_some,
    Option.map_bind, Function.comp_def]

theorem headersComplete_answered (code : UInt16) (r : ρ)
    (h : refusal (c.request.headers (ascii "host")).isSome c.listening upgrade = some code)
    (hr : run respond c.response (answerEvents code) = some r) :
    c.headersComplete respond upgrade = some { c with response := r } := by
  rw [headersComplete_answer respond c upgrade code h, hr]
  rfl

theorem headersComplete_emit
    (h : refusal (c.request.headers (ascii "host")).isSome c.listening upgrade = none) :
    c.headersComplete respond upgrade = some { c with emitted := c.emitted + 1 } := by
  simp only [Exchange.headersComplete, h]

end

section
variable {ρ σ : Type*} {lib : HttpParser} {respond : ρ → ResponseEvent → Option ρ}
  {spec : σ → ResponseEvent → Option σ}

def Exchange.withResponse (p : Exchange σ) (r : ρ) : Exchange ρ :=
  ⟨p.request, r, p.connected, p.listening, p.emitted⟩

inductive SameExchange (R : ρ → σ → Prop) : Exchange ρ → Exchange σ → Prop
  | mk (p : Exchange σ) (r : ρ) (h : R r p.response) : SameExchange R (p.withResponse r) p

theorem SameExchange.headersComplete {R : ρ → σ → Prop}
    (hR : ∀ r p e p', R r p → spec p e = some p' → ∃ r', respond r e = some r' ∧ R r' p')
    {c : Exchange ρ} {p p' : Exchange σ} (h : SameExchange R c p) (upgrade : Bool)
    (hp : p.headersComplete spec upgrade = some p') :
    ∃ c', c.headersComplete respond upgrade = some c' ∧ SameExchange R c' p' := by
  cases h with
  | mk p r h =>
    cases hcode : refusal (p.request.headers (ascii "host")).isSome p.listening upgrade with
    | none =>
      rw [headersComplete_emit spec p upgrade hcode] at hp
      obtain rfl := Option.some.inj hp
      exact ⟨_, headersComplete_emit respond (p.withResponse r) upgrade hcode,
        .mk { p with emitted := p.emitted + 1 } r h⟩
    | some code =>
      rw [headersComplete_answer spec p upgrade code hcode] at hp
      obtain ⟨q, hq, rfl⟩ := Option.map_eq_some_iff.mp hp
      obtain ⟨s, hs, hsq⟩ := run_simulates R hR (answerEvents code) r p.response q h hq
      exact ⟨_, headersComplete_answered respond (p.withResponse r) upgrade code s hcode hs,
        .mk { p with response := q } s hsq⟩

theorem SameExchange.step {R : ρ → σ → Prop}
    (hR : ∀ r p e p', R r p → spec p e = some p' → ∃ r', respond r e = some r' ∧ R r' p')
    {c : Exchange ρ} {p p' : Exchange σ} (h : SameExchange R c p) (e : ExchangeEvent)
    (hp : p.step lib spec e = some p') :
    ∃ c', c.step lib respond e = some c' ∧ SameExchange R c' p' := by
  cases h with
  | mk p r h =>
    cases e with
    | message l =>
      have hrequest : SameExchange R
          { p.withResponse r with request := p.request.step lib l }
          { p with request := p.request.step lib l } :=
        .mk { p with request := p.request.step lib l } r h
      simp only [Exchange.step] at hp ⊢
      cases hl : l.completes with
      | none =>
        simp only [hl] at hp
        obtain rfl := Option.some.inj hp
        exact ⟨_, rfl, hrequest⟩
      | some parser =>
        simp only [hl] at hp
        by_cases hconnected : p.connected = true
        · rw [if_pos hconnected] at hp
          obtain ⟨c', hc, hsame⟩ := hrequest.headersComplete hR parser.upgrade hp
          exact ⟨c', by rw [← hc]; exact if_pos hconnected, hsame⟩
        · rw [if_neg hconnected] at hp
          obtain rfl := Option.some.inj hp
          exact ⟨_, if_neg hconnected, hrequest⟩
    | response e =>
      obtain ⟨q, hq, rfl⟩ := Option.map_eq_some_iff.mp hp
      obtain ⟨s, hs, hsq⟩ := hR _ _ _ _ h hq
      have hstep : (p.withResponse r).step lib respond (.response e) =
          some ({ p with response := q, connected := p.connected && !e.isDestroy }.withResponse s) := by
        simp only [Exchange.step, Exchange.withResponse, hs, Option.map_some]
      exact ⟨_, hstep, .mk _ s hsq⟩
    | listen listening =>
      obtain rfl := Option.some.inj hp
      exact ⟨_, rfl, .mk { p with listening := listening } r h⟩

end

section
variable (lib : HttpParser) (build : Build) (order : Headers → List Bytes) (parser : HttpParserUrl)
  (statusCode major minor : Nat) (isChunked : Bool) (date : Tm) (listening : Bool)

/-- The run of a connection simulates that of its abstraction. -/
theorem exchange_simulates
    (horder : ∀ set, Traverses (order (setHeaders set)) (setHeaders set)) (hdate : date.Valid)
    (es : List ExchangeEvent) (p : Exchange Reply)
    (h : run (Exchange.step lib (Reply.step build))
      (.init parser statusCode major minor (.init date) listening) es = some p) :
    ∃ r, run (Exchange.step lib (ServerResponse.step build order))
      (.init parser statusCode major minor (.init isChunked date) listening) es =
        some (p.withResponse r) ∧ Responds r p.response := by
  obtain ⟨c, hc, hsame⟩ := run_simulates (SameExchange Responds)
    (fun c p e p' h hp => h.step (fun r p e p' hr hp => hr.step horder e hp) e hp) es
    (.init parser statusCode major minor (.init isChunked date) listening) _ p
    (.mk (.init parser statusCode major minor (Reply.init date) listening)
      (ServerResponse.init isChunked date)
      (responds_init isChunked date hdate)) h
  cases hsame with
  | mk p r hr => exact ⟨r, hc, hr⟩

/-- Whatever arrives on a connection and whatever its handler does, the client reads at most one
response, as far as it is. -/
theorem exchange_is_read
    (horder : ∀ set, Traverses (order (setHeaders set)) (setHeaders set)) (hdate : date.Valid)
    (es : List ExchangeEvent) (p : Exchange Reply)
    (h : run (Exchange.step lib (Reply.step build))
      (.init parser statusCode major minor (.init date) listening) es = some p) :
    ∃ c reader, run (Exchange.step lib (ServerResponse.step build order))
        (.init parser statusCode major minor (.init isChunked date) listening) es = some c ∧
      c.request = p.request ∧ c.emitted = p.emitted ∧
      run (Reader.step responseFormat) (.start []) c.response.stream.message.handedOver =
        some reader ∧
      p.response.sending.transfer.ReadAs reader := by
  obtain ⟨r, hrun, hr⟩ := exchange_simulates lib build order parser statusCode major minor isChunked
    date listening horder hdate es p h
  obtain ⟨reader, hread, has⟩ := hr.serves.read
  exact ⟨_, reader, hrun, rfl, rfl, hread, has⟩

end

set_option maxRecDepth 20000 in
/-- A connection that goes away while the response is under way. -/
theorem exchange_is_read_lost :
    let es : List ExchangeEvent := [.message (.onUrl (ascii "/")),
      .message (.onHeaderField (ascii "Host")), .message (.onHeaderValue (ascii "h")),
      .message (.onHeadersComplete ⟨1, 1, 1, 0, false, true⟩),
      .response (.call (.body (.write [⟨some (ascii "ab"), by decide⟩]))), .response .destroy,
      .message .onMessageComplete]
    ∃ c reader, run (Exchange.step plainParser (ServerResponse.step glibc someOrder))
        (.init ⟨fun _ => none, 0⟩ 0 0 0 (.init true ⟨0, 0, 12, 15, 10, 94, 2⟩) true) es = some c ∧
      c.emitted = 1 ∧
      run (Reader.step responseFormat) (.start []) c.response.stream.message.handedOver =
        some reader ∧
      Transfer.ReadAs (.sending ⟨responseOpening 200 ⟨0, 0, 12, 15, 10, 94, 2⟩, [], none⟩
        (ascii "ab")) reader := by
  intro es
  obtain ⟨c, reader, hrun, -, hemitted, hread, has⟩ := exchange_is_read plainParser glibc someOrder
    ⟨fun _ => none, 0⟩ 0 0 0 true ⟨0, 0, 12, 15, 10, 94, 2⟩ true someOrder_traverses (by decide)
    es _ rfl
  exact ⟨c, reader, hrun, hemitted, hread, has⟩

section
variable {lib : HttpParser} {build : Build} {order : Headers → List Bytes}

/-- Nothing is handed over behind the end. -/
theorem ended_step (r r' : ServerResponse) (e : ResponseEvent) (h : r.stream.isWritable = false)
    (hr : r.step build order e = some r') : r'.stream.isWritable = false ∧
      r'.stream.message.handedOver = r.stream.message.handedOver := by
  cases e with
  | setStatusCode code =>
    obtain rfl := Option.some.inj hr
    exact ⟨h, rfl⟩
  | setHeader key value =>
    obtain rfl := Option.some.inj hr
    exact ⟨h, rfl⟩
  | call c =>
    simp only [ServerResponse.step, ServerResponse.call, h] at hr
    obtain rfl := Option.some.inj hr
    exact ⟨h, rfl⟩
  | updateDate date =>
    obtain rfl := Option.some.inj hr
    exact ⟨h, rfl⟩
  | endSocket =>
    obtain rfl := Option.some.inj hr
    exact ⟨h, rfl⟩
  | destroy =>
    obtain rfl := Option.some.inj hr
    exact ⟨h, rfl⟩

/-- What a step of the connection does to its response is what events of the response do. -/
theorem exchange_response {ρ : Type*} {respond : ρ → ResponseEvent → Option ρ} (c c' : Exchange ρ)
    (e : ExchangeEvent) (hc : c.step lib respond e = some c') :
    ∃ es, run respond c.response es = some c'.response := by
  cases e with
  | message l =>
    simp only [Exchange.step] at hc
    cases hl : l.completes with
    | none =>
      simp only [hl] at hc
      obtain rfl := Option.some.inj hc
      exact ⟨[], rfl⟩
    | some parser =>
      simp only [hl] at hc
      by_cases hconnected : c.connected = true
      · rw [if_pos hconnected] at hc
        cases hcode : refusal ((c.request.step lib l).headers (ascii "host")).isSome c.listening
            parser.upgrade with
        | none =>
          rw [headersComplete_emit respond _ _ hcode] at hc
          obtain rfl := Option.some.inj hc
          exact ⟨[], rfl⟩
        | some code =>
          rw [headersComplete_answer respond _ _ code hcode] at hc
          obtain ⟨r, hr, rfl⟩ := Option.map_eq_some_iff.mp hc
          exact ⟨answerEvents code, hr⟩
      · rw [if_neg hconnected] at hc
        obtain rfl := Option.some.inj hc
        exact ⟨[], rfl⟩
  | response e =>
    obtain ⟨r, hr, rfl⟩ := Option.map_eq_some_iff.mp hc
    refine ⟨[e], ?_⟩
    rw [run_cons, hr]
    rfl
  | listen listening =>
    obtain rfl := Option.some.inj hc
    exact ⟨[], rfl⟩

theorem ended_run (es : List ResponseEvent) (r r' : ServerResponse)
    (h : r.stream.isWritable = false) (hr : run (ServerResponse.step build order) r es = some r') :
    r'.stream.isWritable = false ∧
      r'.stream.message.handedOver = r.stream.message.handedOver := by
  induction es generalizing r with
  | nil =>
    obtain rfl := Option.some.inj hr
    exact ⟨h, rfl⟩
  | cons e es ih =>
    obtain ⟨s, hs, hrest⟩ := Option.bind_eq_some_iff.mp hr
    obtain ⟨hended, hsame⟩ := ended_step r s e h hs
    obtain ⟨hended', hsame'⟩ := ih s hended hrest
    exact ⟨hended', hsame'.trans hsame⟩

/-- Whatever happens to its connection, a response that was ended stays as it is. -/
theorem exchange_ended (es : List ExchangeEvent) (c c' : Exchange ServerResponse)
    (h : c.response.stream.isWritable = false)
    (hc : run (Exchange.step lib (ServerResponse.step build order)) c es = some c') :
    c'.response.stream.isWritable = false ∧
      c'.response.stream.message.handedOver = c.response.stream.message.handedOver := by
  induction es generalizing c with
  | nil =>
    obtain rfl := Option.some.inj hc
    exact ⟨h, rfl⟩
  | cons e es ih =>
    obtain ⟨d, hd, hrest⟩ := Option.bind_eq_some_iff.mp hc
    obtain ⟨rs, hrs⟩ := exchange_response c d e hd
    obtain ⟨hended, hsame⟩ := ended_run rs c.response d.response h hrs
    obtain ⟨hended', hsame'⟩ := ih d hended hrest
    exact ⟨hended', hsame'.trans hsame⟩

end

theorem joinedHeaders_isSome (hs : List (Bytes × Bytes)) (key : Bytes) :
    (joinedHeaders hs key).isSome ↔ ∃ x ∈ hs, x.1 = key := by
  unfold joinedHeaders
  cases hvs : (hs.filter (·.1 = key)).map Prod.snd with
  | nil =>
    have hnil := List.filter_eq_nil_iff.mp (List.map_eq_nil_iff.mp hvs)
    refine iff_of_false Bool.false_ne_true ?_
    rintro ⟨x, hx, hkey⟩
    exact absurd (decide_eq_true hkey) (hnil x hx)
  | cons v vs =>
    have hne : hs.filter (·.1 = key) ≠ [] := by
      intro hnil
      rw [hnil] at hvs
      cases hvs
    obtain ⟨x, hx⟩ := List.exists_mem_of_ne_nil _ hne
    obtain ⟨hmem, hkey⟩ := List.mem_filter.mp hx
    exact iff_of_true rfl ⟨x, hmem, of_decide_eq_true hkey⟩

def hasHost (fields : List (Bytes × Bytes)) : Bool := fields.any fun f => Spells f.1 (ascii "host")

theorem hasHost_eq (fields : List (Bytes × Bytes)) :
    (joinedHeaders (lowered fields) (ascii "host")).isSome = hasHost fields := by
  rw [Bool.eq_iff_iff, joinedHeaders_isSome, hasHost, List.any_eq_true]
  constructor
  · rintro ⟨x, hx, hkey⟩
    obtain ⟨f, hf, rfl⟩ := List.mem_map.mp hx
    exact ⟨f, hf, decide_eq_true hkey⟩
  · rintro ⟨f, hf, hspells⟩
    exact ⟨_, List.mem_map.mpr ⟨f, hf, rfl⟩, of_decide_eq_true hspells⟩

section
variable {ρ : Type*} (lib : HttpParser) (respond : ρ → ResponseEvent → Option ρ)

/-- Callbacks before the headers are complete do not touch the response. -/
theorem run_quiet (ls : List MessageLabel) (c : Exchange ρ) (h : ∀ l ∈ ls, l.completes = none) :
    run (Exchange.step lib respond) c (ls.map .message) =
      some { c with request := c.request.after lib ls } := by
  induction ls generalizing c with
  | nil => rfl
  | cons l ls ih =>
    have hstep : c.step lib respond (.message l) =
        some { c with request := c.request.step lib l } := by
      simp only [Exchange.step, h l List.mem_cons_self]
    rw [List.map_cons, run_cons, hstep, Option.bind_some,
      ih _ fun k hk => h k (List.mem_cons_of_mem l hk)]
    rfl

/-- The headers of the first request, as the callback finds them. -/
theorem run_head (c : Exchange ρ) (hc : Vacant c.request) (ht : c.request.type = .request)
    (hconnected : c.connected = true) (d : Delivery) (head : Head) (body : Bytes)
    (hd : d.Of head body) : ∃ request : IncomingMessage,
      (request.headers (ascii "host")).isSome = hasHost head.fields ∧
      run (Exchange.step lib respond) c (d.head.map .message) =
        { c with request := request }.headersComplete respond d.info.upgrade := by
  refine ⟨c.request.after lib d.head, ?_, ?_⟩
  · rw [(request_head lib c.request hc ht d head body hd).2.2]
    exact hasHost_eq head.fields
  · let pre := d.url.map .onUrl ++ (d.headers.flatMap DeliveredHeader.pieces).map Piece.label
    have hquiet : ∀ l ∈ pre, l.completes = none := by
      intro l hl
      rcases List.mem_append.mp hl with hl | hl
      · obtain ⟨u, -, rfl⟩ := List.mem_map.mp hl
        rfl
      · obtain ⟨p, -, rfl⟩ := List.mem_map.mp hl
        cases p <;> rfl
    have hsplit : d.head = pre ++ [.onHeadersComplete d.info] := by
      rw [Delivery.head, deliver, List.append_assoc]
    have hlast : (c.request.after lib pre).step lib (.onHeadersComplete d.info) =
        c.request.after lib (pre ++ [.onHeadersComplete d.info]) :=
      (after_append lib c.request pre [.onHeadersComplete d.info]).symm
    rw [hsplit, List.map_append, run_append, run_quiet lib respond pre c hquiet, Option.bind_some,
      List.map_cons, run_cons]
    simp only [Exchange.step, MessageLabel.completes, hconnected, if_true, List.map_nil, run_nil,
      Option.bind_fun_some, hlast]

end

/-- An answer of the server: its status, without headers and without a body. -/
def Answer (code : UInt16) (date : Tm) : Announcement := ⟨responseOpening code date, [], some 0⟩

theorem call_answer (build : Build) (o : Opening) :
    Sending.init.call build o (.endWith []) = some ⟨.sent ⟨o, [], some 0⟩ [], true⟩ := by
  have hlength : setHeaders [] contentLengthKey = none := rfl
  have hchunks : ¬NeedsChunks [] (.endWith []) := by
    rintro (h | h | h)
    · cases h
    · cases h
    · simp [OutgoingCall.chunks, payload] at h
  have hexact : ExactLength build (payload (.endWith [] : OutgoingCall 64).chunks).length :=
    .inl (by decide)
  have hannounce : Announcement.announce ⟨o, [], some 0⟩ (.endWith []) =
      some (.sent ⟨o, [], some 0⟩ []) := by
    have hpermits : Announcement.Permits ⟨o, [], some 0⟩ [] (.endWith []) :=
      ⟨le_refl 0, fun _ => rfl⟩
    have hbody : ¬(o.bodiless = true ∧ some 0 ≠ some 0) := fun h => h.2 rfl
    rw [Announcement.announce, if_neg hbody, Announcement.add, if_pos hpermits]
    rfl
  have hcall : (Transfer.unsent []).call build o (.endWith []) =
      some (.sent ⟨o, [], some 0⟩ []) := by
    simp only [Transfer.call, hlength]
    rw [if_neg hchunks, if_pos hexact]
    exact hannounce
  change ((Transfer.unsent []).call build o (.endWith [])).map _ = _
  rw [hcall]
  rfl

section
variable {build : Build} {order : Headers → List Bytes} {r : ServerResponse} {p : Reply}

/-- An answer before anything was said is read whole. -/
theorem answer_fresh (horder : ∀ set, Traverses (order (setHeaders set)) (setHeaders set))
    (isChunked : Bool) (date : Tm) (hdate : date.Valid) (code : UInt16) :
    ∃ r, run (ServerResponse.step build order) (.init isChunked date) (answerEvents code) =
        some r ∧
      r.stream.isWritable = false ∧ r.stream.socket = .ended ∧
      ∃ answer, (Answer code date).HeadedBy answer ∧
        run (Reader.step responseFormat) (.start []) r.stream.message.handedOver =
          some (.done answer []) := by
  let p : Reply := { Reply.init date with statusCode := code }
  let r : ServerResponse := { ServerResponse.init isChunked date with statusCode := code }
  have hunder : UnderWay responseFormat r.stream p.sending := by
    rcases serves_init responseFormat isChunked with h | h
    · exact h
    · rcases h.done with hlive | ⟨a, body, ht⟩
      · cases hlive
      · cases ht
  obtain ⟨r', hr, -, hlast⟩ := hunder.respond ⟨rfl, rfl, hdate, rfl⟩ horder (.endWith [])
    (call_answer build (responseOpening code date))
  obtain ⟨hover, hsocket⟩ := hlast rfl
  refine ⟨r', ?_, hover.ended ⟨_, _, rfl⟩, hsocket, ?_⟩
  · simp only [answerEvents, run_cons, run_nil, ServerResponse.step, Option.bind_some,
      Option.bind_fun_some]
    exact hr
  · obtain ⟨reader, hread, has⟩ := hover.read
    cases has with
    | sent a body head hhead => exact ⟨head, hhead, hread⟩

/-- An answer behind the head of a response: a chunked body ends, and one of announced length does
not go on. -/
theorem answer_late (h : UnderWay responseFormat r.stream p.sending) (a : Announcement)
    (body : Bytes) (ht : p.sending.transfer = .sending a body) (code : UInt16) :
    ∃ r', run (ServerResponse.step build order) r (answerEvents code) = some r' ∧
      r'.stream.isWritable = false ∧
      ∃ head, a.HeadedBy head ∧
        run (Reader.step responseFormat) (.start []) r'.stream.message.handedOver =
          some (if a.length = none then .done head body else a.reader head body) := by
  have hcarries := h.carries
  rw [ht] at hcarries
  cases hcarries with
  | sending a body head hsent hmode hbody hhead hread =>
    let r₁ : ServerResponse := { r with statusCode := code }
    obtain ⟨m, hm, hmore⟩ : ∃ m, r.stream.message.step build (r₁.compileHeaders order) (.endWith []) =
        some m ∧ m.handedOver = r.stream.message.handedOver ++ framed a.length.isNone [] true := by
      have hnone : r.stream.message.isChunked = true →
          ∀ b ∈ (.endWith [] : OutgoingCall 64).chunks.tail, b.Filled := by simp [OutgoingCall.chunks]
      rw [step_sent build (r₁.compileHeaders order) r.stream.message (.endWith []) hsent,
        if_pos hnone]
      exact ⟨_, rfl, by rw [← hmode]; rfl⟩
    have htransfer : r.stream.transfer build (r₁.compileHeaders order) (.endWith []) =
        some ({ r.stream with message := m }, false) := by
      rw [transfer_works build (r₁.compileHeaders order) r.stream (.endWith []) h.socket, hm]
      rfl
    have hcall := response_call_eq build order r₁ (.endWith []) _ false h.writable htransfer
    refine ⟨ServerResponse.finish { r₁ with stream := { r.stream with message := m } }, ?_, rfl,
      head, hhead, ?_⟩
    · simp only [answerEvents, run_cons, run_nil, ServerResponse.step, Option.bind_some,
        Option.bind_fun_some]
      exact hcall
    · rw [finish_message]
      change run (Reader.step responseFormat) (.start []) m.handedOver = _
      rw [hmore]
      cases hlength : a.length with
      | none =>
        have hpermits : a.Permits body (.endWith []) := by
          simp [Announcement.Permits, hlength, OutgoingCall.chunks]
        have hbodies : ∀ n, a.length = some n → body.length ≤ n := by simp [hlength]
        have hframed := run_framed responseFormat a head body (.endWith []) hpermits hbodies
        have hnil : body ++ payload (.endWith [] : OutgoingCall 64).chunks = body :=
          List.append_nil body
        rw [hnil, hlength] at hframed
        exact run_append_eq_some _ _ _ _ _ _ hread hframed
      | some n =>
        rw [if_neg (by simp)]
        exact (congrArg _ (List.append_nil _)).trans hread

end

section
variable (lib : HttpParser) (build : Build) (order : Headers → List Bytes) (parser : HttpParserUrl)
  (statusCode major minor : Nat) (isChunked : Bool) (date : Tm) (listening : Bool)

/-- The first request of a connection is emitted, or answered for good: without a host with 400,
without a listener with 500, and with 501 where it asks for an upgrade. -/
theorem request_dispatch (horder : ∀ set, Traverses (order (setHeaders set)) (setHeaders set))
    (hdate : date.Valid) (d : Delivery) (head : Head) (body : Bytes) (hd : d.Of head body) :
    ∃ c, run (Exchange.step lib (ServerResponse.step build order))
        (.init parser statusCode major minor (.init isChunked date) listening)
        (d.head.map .message) = some c ∧
      (refusal (hasHost head.fields) listening d.info.upgrade = none →
        c.emitted = 1 ∧ c.response = .init isChunked date) ∧
      ∀ code, refusal (hasHost head.fields) listening d.info.upgrade = some code →
        c.emitted = 0 ∧ c.response.stream.socket = .ended ∧
        (∃ answer, (Answer code date).HeadedBy answer ∧
          run (Reader.step responseFormat) (.start []) c.response.stream.message.handedOver =
            some (.done answer [])) ∧
        ∀ es c', run (Exchange.step lib (ServerResponse.step build order)) c es = some c' →
          c'.response.stream.message.handedOver = c.response.stream.message.handedOver := by
  have hm : Vacant (IncomingMessage.init .request parser statusCode major minor) :=
    ⟨rfl, rfl, rfl, rfl, by simp [IncomingMessage.init]⟩
  let c : Exchange ServerResponse :=
    .init parser statusCode major minor (.init isChunked date) listening
  obtain ⟨request, hhost, hrun⟩ :=
    run_head lib (ServerResponse.step build order) c hm rfl rfl d head body hd
  rw [← hhost]
  cases hcode : refusal (request.headers (ascii "host")).isSome listening d.info.upgrade with
  | none =>
    have hemit := headersComplete_emit (ServerResponse.step build order) { c with request := request }
      d.info.upgrade hcode
    exact ⟨_, hrun.trans hemit, fun _ => ⟨rfl, rfl⟩, by simp⟩
  | some code =>
    obtain ⟨r, hr, hended, hsocket, hanswer⟩ := answer_fresh horder isChunked date hdate code
    have hrefuse := headersComplete_answered (ServerResponse.step build order)
      { c with request := request } d.info.upgrade code r hcode hr
    refine ⟨_, hrun.trans hrefuse, by simp, ?_⟩
    intro code' hcode'
    obtain rfl := Option.some.inj hcode'
    exact ⟨rfl, hsocket, hanswer, fun es c' hc => (exchange_ended es _ c' hended hc).2⟩

end

/-- `GET /` without any header. -/
theorem request_dispatch_hostless :
    ∃ c, run (Exchange.step plainParser (ServerResponse.step glibc someOrder))
        (.init ⟨fun _ => none, 0⟩ 0 0 0 (.init true ⟨0, 0, 12, 15, 10, 94, 2⟩) true)
        [.message (.onUrl (ascii "/")), .message (.onHeadersComplete ⟨1, 1, 1, 0, false, true⟩)] =
          some c ∧
      c.emitted = 0 ∧ ∃ answer, (Answer 400 ⟨0, 0, 12, 15, 10, 94, 2⟩).HeadedBy answer ∧
        run (Reader.step responseFormat) (.start []) c.response.stream.message.handedOver =
          some (.done answer []) := by
  obtain ⟨c, hrun, -, hanswer⟩ :=
    request_dispatch plainParser glibc someOrder ⟨fun _ => none, 0⟩ 0 0 0
    true ⟨0, 0, 12, 15, 10, 94, 2⟩ true someOrder_traverses (by decide)
    ⟨[ascii "/"], [], ⟨1, 1, 1, 0, false, true⟩, []⟩ ⟨ascii "GET / HTTP/1.1", []⟩ []
    ⟨rfl, by simp, rfl⟩
  obtain ⟨hemitted, -, hread, -⟩ := hanswer 400 rfl
  exact ⟨c, hrun, hemitted, hread⟩

section
variable (lib : HttpParser) (build : Build) (order : Headers → List Bytes) (parser : HttpParserUrl)
  (statusCode major minor : Nat) (isChunked : Bool) (date : Tm) (listening : Bool)

/-- A request that the server refuses while the response to the one before is under way: the client
takes what it read of a chunked body for the whole, and waits in vain for the rest of one of announced
length. -/
theorem late_refusal (horder : ∀ set, Traverses (order (setHeaders set)) (setHeaders set))
    (hdate : date.Valid) (es : List ExchangeEvent) (p : Exchange Reply) (a : Announcement)
    (body : Bytes) (info : ParserInfo) (code : UInt16)
    (h : run (Exchange.step lib (Reply.step build))
      (.init parser statusCode major minor (.init date) listening) es = some p)
    (hp : p.response.sending = ⟨.sending a body, true⟩) (hconnected : p.connected = true)
    (hcode : refusal ((p.request.step lib (.onHeadersComplete info)).headers (ascii "host")).isSome
      p.listening info.upgrade = some code) :
    ∃ c, run (Exchange.step lib (ServerResponse.step build order))
        (.init parser statusCode major minor (.init isChunked date) listening)
        (es ++ [.message (.onHeadersComplete info)]) = some c ∧
      (∃ head, a.HeadedBy head ∧
        run (Reader.step responseFormat) (.start []) c.response.stream.message.handedOver =
          some (if a.length = none then .done head body else a.reader head body)) ∧
      ∀ es' c', run (Exchange.step lib (ServerResponse.step build order)) c es' = some c' →
        c'.response.stream.message.handedOver = c.response.stream.message.handedOver := by
  obtain ⟨r, hrun, hr⟩ := exchange_simulates lib build order parser statusCode major minor isChunked
    date listening horder hdate es p h
  have hunder : UnderWay responseFormat r.stream p.response.sending := by
    rcases hr with hr | hr
    · exact hr.1
    · rw [hp] at hr
      rcases hr.done with hlive | ⟨b, rest, hsent⟩
      · cases hlive
      · cases hsent
  obtain ⟨r', hanswer, hended, head, hhead, hread⟩ :=
    answer_late hunder a body (by rw [hp]) code
  have hrefuse := headersComplete_answered (ServerResponse.step build order)
    { p.withResponse r with request := p.request.step lib (.onHeadersComplete info) } info.upgrade code
    r' hcode hanswer
  have hstep : (p.withResponse r).step lib (ServerResponse.step build order)
      (.message (.onHeadersComplete info)) = some { p.withResponse r with
        request := p.request.step lib (.onHeadersComplete info), response := r' } := by
    rw [← hrefuse]
    exact if_pos hconnected
  refine ⟨_, run_append_eq_some _ _ _ _ _ _ hrun (by rw [run_cons, hstep]; rfl),
    ⟨head, hhead, hread⟩, ?_⟩
  intro es' c' hc
  exact (exchange_ended es' _ c' hended hc).2

end

set_option maxRecDepth 20000 in
/-- Two bytes of a chunked body, and a second request without a host. -/
theorem late_refusal_chunked :
    let es : List ExchangeEvent := [.message (.onUrl (ascii "/")),
      .message (.onHeaderField (ascii "Host")), .message (.onHeaderValue (ascii "h")),
      .message (.onHeadersComplete ⟨1, 1, 1, 0, false, true⟩),
      .response (.call (.body (.write [⟨some (ascii "ab"), by decide⟩]))),
      .message .onMessageComplete, .message (.onUrl (ascii "/"))]
    ∃ c head, run (Exchange.step plainParser (ServerResponse.step glibc someOrder))
        (.init ⟨fun _ => none, 0⟩ 0 0 0 (.init true ⟨0, 0, 12, 15, 10, 94, 2⟩) true)
        (es ++ [.message (.onHeadersComplete ⟨1, 1, 1, 0, false, true⟩)]) = some c ∧
      run (Reader.step responseFormat) (.start []) c.response.stream.message.handedOver =
        some (.done head (ascii "ab")) := by
  intro es
  obtain ⟨c, hrun, ⟨head, -, hread⟩, -⟩ := late_refusal plainParser glibc someOrder
    ⟨fun _ => none, 0⟩ 0 0 0 true ⟨0, 0, 12, 15, 10, 94, 2⟩ true someOrder_traverses (by decide) es _
    ⟨responseOpening 200 ⟨0, 0, 12, 15, 10, 94, 2⟩, [], none⟩ (ascii "ab")
    ⟨1, 1, 1, 0, false, true⟩ 400 rfl rfl rfl rfl
  exact ⟨c, head, hrun, hread⟩

end Libnodecc.Http
