import Libnodecc.Http.ServerResponse

namespace Libnodecc.Http

open Util Wire

/-- The status line of a response, with the date and the announced end of the connection. -/
def responseOpening (statusCode : UInt16) (date : Tm) : Opening where
  start := ascii "HTTP/1.1 " ++ ServerResponse.status statusCode
  before := [⟨dateLine date.date, true⟩]
  after := [⟨connectionLine, true⟩]
  bodiless := bodiless (ascii "HTTP/1.1 " ++ ServerResponse.status statusCode)

structure Reply where
  statusCode : UInt16
  date : Tm
  sending : Sending

namespace Reply

def init (date : Tm) : Reply := ⟨200, date, .init⟩

/-- A handler that sets sendable headers, keeps to the length it announced and writes no empty
buffer in chunked mode, on a connection that may go away at any time. -/
def step (build : Build) (p : Reply) : ResponseEvent → Option Reply
  | .setStatusCode code => some { p with statusCode := code }
  | .setHeader key value => (p.sending.setHeader key value).map fun q => { p with sending := q }
  | .call c =>
    (p.sending.call build (responseOpening p.statusCode p.date) c).map fun q => { p with sending := q }
  | .updateDate date => if date.Valid then some { p with date := date } else none
  | .endSocket => some { p with sending := p.sending.lose }
  | .destroy => some { p with sending := p.sending.lose }

end Reply

theorem compileHeaders_block (r : ServerResponse) (order : Headers → List Bytes)
    (h : r.shutdownOnEnd = true) (hdate : r.date.Valid) :
    r.compileHeaders order = (responseOpening r.statusCode r.date).block order := by
  funext headers
  have hown (line : HeaderLine) : ownLines [⟨line, true⟩] headers =
      if (headers line.name).isNone then [line] else [] := by
    cases hset : headers line.name <;> simp [ownLines, hset]
  rw [ServerResponse.compileHeaders, (updateBuffer_line r.date hdate).1, responseHeaders_text, h]
  simp only [Opening.block, Opening.lines, responseOpening, hown, responseLines, dateLine,
    connectionLine, Bool.true_and]

theorem dateLine_plain (date : Tm) (h : date.Valid) : (dateLine date.date).Plain where
  ok := (updateBuffer_line date h).2.2
  coding := by
    have hname : ¬Spells (ascii "date") (ascii "transfer-encoding") := by decide
    exact hname
  length := by
    have hname : ¬Spells (ascii "date") (ascii "content-length") := by decide
    exact hname

theorem responseOpening_readBy (statusCode : UInt16) (date : Tm) (h : date.Valid) :
    (responseOpening statusCode date).ReadBy responseFormat where
  start := by
    have hversion : Unbroken (ascii "HTTP/1.1 ") := by decide +kernel
    exact hversion.append (status_unbroken statusCode)
  own := by
    intro l hl
    simp only [responseOpening, List.singleton_append, List.mem_cons, List.not_mem_nil,
      or_false] at hl
    rcases hl with rfl | rfl
    · exact dateLine_plain date h
    · decide +kernel
  distinct := by
    have hnames : ([ascii "date", ascii "connection"] : List Bytes).Nodup := by decide
    exact hnames
  field := rfl
  bodyEnd := by
    intro fields e he
    have hb : (responseOpening statusCode date).bodiless =
        bodiless (responseOpening statusCode date).start := rfl
    change (if bodiless (responseOpening statusCode date).start then some (BodyEnd.length 0)
      else delimited fields) = _
    rw [he, hb, apply_ite some]

/-- What the block of a response still takes from its fields. -/
structure Settings (r : ServerResponse) (p : Reply) : Prop where
  status : r.statusCode = p.statusCode
  date : r.date = p.date
  valid : p.date.Valid
  shutdown : r.shutdownOnEnd = true

/-- The response is as far as the reply; its fields do not matter any more once it is over. -/
def Responds (r : ServerResponse) (p : Reply) : Prop :=
  UnderWay responseFormat r.stream p.sending ∧ Settings r p ∨ Over responseFormat r.stream p.sending

theorem Responds.serves {r : ServerResponse} {p : Reply} (h : Responds r p) :
    Serves responseFormat r.stream p.sending :=
  h.imp And.left id

theorem Over.finish {r : ServerResponse} {q : Sending}
    (h : Over responseFormat { r.stream with isWritable := false } q) :
    Over responseFormat r.finish.stream q := by
  by_cases hshutdown : r.shutdownOnEnd = true
  · simp only [ServerResponse.finish, if_pos hshutdown]
    exact h.socket _ (endSocket_socket r.stream)
  · simp only [ServerResponse.finish, if_neg hshutdown]
    exact h

theorem finish_message (r : ServerResponse) : r.finish.stream.message = r.stream.message := by
  by_cases hshutdown : r.shutdownOnEnd = true
  · simp only [ServerResponse.finish, if_pos hshutdown, OutgoingStream.endSocket]
  · simp only [ServerResponse.finish, if_neg hshutdown]

theorem finish_socket (r : ServerResponse) (h : r.shutdownOnEnd = true)
    (hsocket : r.stream.socket = .writable) : r.finish.stream.socket = .ended := by
  simp only [ServerResponse.finish, if_pos h, OutgoingStream.endSocket, if_pos hsocket]

theorem response_call_eq (build : Build) (order : Headers → List Bytes) (r : ServerResponse)
    (c : OutgoingCall 64) (s : OutgoingStream) (threw : Bool) (hw : r.stream.isWritable = true)
    (hs : r.stream.transfer build (r.compileHeaders order) c = some (s, threw)) :
    (r.call build order c).map Prod.fst = some (if (c.last && !threw) = true
      then ServerResponse.finish { r with stream := s } else { r with stream := s }) := by
  rw [ServerResponse.call, if_pos hw, hs]
  rfl

section
variable {build : Build} {order : Headers → List Bytes} {r : ServerResponse} {p p' : Reply}

theorem Responds.setHeader (h : Responds r p) (key : Bytes) (value : Buf) {q : Sending}
    (hq : p.sending.setHeader key value = some q) :
    Responds { r with stream := r.stream.setHeader key value } { p with sending := q } := by
  rcases h with ⟨h, hset⟩ | h
  · exact .inl ⟨h.setHeader key value hq, hset.status, hset.date, hset.valid, hset.shutdown⟩
  · obtain ⟨rfl, hover⟩ := h.setHeader key value hq
    exact .inr hover

/-- A call on a response under way. -/
theorem UnderWay.respond (h : UnderWay responseFormat r.stream p.sending) (hset : Settings r p)
    (horder : ∀ set, Traverses (order (setHeaders set)) (setHeaders set)) (c : OutgoingCall 64)
    {q : Sending} (hq : p.sending.call build (responseOpening p.statusCode p.date) c = some q) :
    ∃ r', (r.call build order c).map Prod.fst = some r' ∧
      (c.last = false → UnderWay responseFormat r'.stream q ∧ Settings r' { p with sending := q }) ∧
      (c.last = true → Over responseFormat r'.stream q ∧ r'.stream.socket = .ended) := by
  have hblock : r.compileHeaders order = (responseOpening p.statusCode p.date).block order := by
    rw [compileHeaders_block r order hset.shutdown (by rw [hset.date]; exact hset.valid),
      hset.status, hset.date]
  obtain ⟨m, hm, hmore, hlast⟩ := h.call (responseOpening_readBy p.statusCode p.date hset.valid)
    horder c hq
  refine ⟨_, response_call_eq build order r c _ false h.writable (by rw [hblock]; exact hm), ?_, ?_⟩
  · intro hc
    rw [hc]
    exact ⟨hmore hc, hset.status, hset.date, hset.valid, hset.shutdown⟩
  · intro hc
    rw [hc]
    refine ⟨(hlast hc).finish, ?_⟩
    exact finish_socket { r with stream := { r.stream with message := m } } hset.shutdown h.socket

/-- `write` and `end`; the end of the response ends its socket. -/
theorem Responds.call (h : Responds r p)
    (horder : ∀ set, Traverses (order (setHeaders set)) (setHeaders set)) (c : OutgoingCall 64)
    {q : Sending}
    (hq : p.sending.call build (responseOpening p.statusCode p.date) c = some q) :
    ∃ r', (r.call build order c).map Prod.fst = some r' ∧ Responds r' { p with sending := q } := by
  rcases h with ⟨h, hset⟩ | h
  · obtain ⟨r', hr, hmore, hlast⟩ := h.respond hset horder c hq
    refine ⟨r', hr, ?_⟩
    cases hc : c.last with
    | false => exact .inl (hmore hc)
    | true => exact .inr (hlast hc).1
  · obtain ⟨rfl, hover⟩ := h.call build (r.compileHeaders order) c hq
    by_cases hw : r.stream.isWritable = true
    · obtain ⟨s, threw, hs, hopen, hclosed⟩ := hover hw
      refine ⟨_, response_call_eq build order r c s threw hw hs, .inr ?_⟩
      by_cases hend : (c.last && !threw) = true
      · rw [if_pos hend]
        exact hclosed.finish
      · rw [if_neg hend]
        exact hopen
    · rw [ServerResponse.call, if_neg hw]
      exact ⟨_, rfl, .inr h⟩

/-- One event of a response. -/
theorem Responds.step (horder : ∀ set, Traverses (order (setHeaders set)) (setHeaders set))
    (h : Responds r p) (e : ResponseEvent) (hp : p.step build e = some p') :
    ∃ r', r.step build order e = some r' ∧ Responds r' p' := by
  cases e with
  | setStatusCode code =>
    obtain rfl := Option.some.inj hp
    refine ⟨_, rfl, h.imp_left ?_⟩
    rintro ⟨h, hset⟩
    exact ⟨h, rfl, hset.date, hset.valid, hset.shutdown⟩
  | setHeader key value =>
    obtain ⟨q, hq, rfl⟩ := Option.map_eq_some_iff.mp hp
    exact ⟨_, rfl, h.setHeader key value hq⟩
  | call c =>
    obtain ⟨q, hq, rfl⟩ := Option.map_eq_some_iff.mp hp
    exact h.call horder c hq
  | updateDate date =>
    simp only [Reply.step] at hp
    split_ifs at hp with hvalid
    obtain rfl := Option.some.inj hp
    refine ⟨_, rfl, h.imp_left ?_⟩
    rintro ⟨h, hset⟩
    exact ⟨h, hset.status, rfl, hvalid, hset.shutdown⟩
  | endSocket =>
    obtain rfl := Option.some.inj hp
    exact ⟨_, rfl, .inr (h.serves.lose _ (endSocket_socket r.stream))⟩
  | destroy =>
    obtain rfl := Option.some.inj hp
    exact ⟨_, rfl, .inr (h.serves.lose .null (by decide))⟩

end

theorem responds_init (isChunked : Bool) (date : Tm) (h : date.Valid) :
    Responds (.init isChunked date) (.init date) := by
  rcases serves_init responseFormat isChunked with hunder | hover
  · exact .inl ⟨hunder, rfl, rfl, h, rfl⟩
  · exact .inr hover

/-- Whatever its handler does, and whatever happens to its connection, the bytes of a response are
read as far as it is: nothing, its head with the body so far, or its whole message. -/
theorem response_is_read (build : Build) (order : Headers → List Bytes)
    (horder : ∀ set, Traverses (order (setHeaders set)) (setHeaders set)) (isChunked : Bool)
    (date : Tm) (hdate : date.Valid) (es : List ResponseEvent) (p : Reply)
    (h : run (Reply.step build) (.init date) es = some p) :
    ∃ r reader, run (ServerResponse.step build order) (.init isChunked date) es = some r ∧
      run (Reader.step responseFormat) (.start []) r.stream.message.handedOver = some reader ∧
      p.sending.transfer.ReadAs reader := by
  obtain ⟨r, hr, hresponds⟩ := run_simulates Responds (fun r p e p' hs hp => hs.step horder e hp) es
    (.init isChunked date) (.init date) p (responds_init isChunked date hdate) h
  obtain ⟨reader, hread, has⟩ := hresponds.serves.read
  exact ⟨r, reader, hr, hread, has⟩

end Libnodecc.Http
