import Libnodecc.Http.IncomingMessage
import Libnodecc.Framework.Run

namespace Libnodecc.Http

/-- `v` is `u` but for an outdated parse, which the next use of the URL replaces. -/
structure UrlAgree (parse : ParseUrl) (u v : Url) : Prop where
  eq : v = { u with parser := v.parser }
  parser : v.parser = u.parser ∨
    u.state = .uninitialized ∧ ∃ url, u.url = some url ∧ Determined parse url

/-- `v` is `u` but for an outdated parse, and both are without a URL. -/
structure UrlBlank (u v : Url) : Prop where
  eq : v = { u with parser := v.parser }
  blank : u.url = none

section
variable {parse : ParseUrl} {u v : Url}

theorem UrlAgree.same (h : UrlAgree parse u v) (hp : v.parser = u.parser) : v = u := by
  rw [h.eq, hp]

theorem UrlAgree.parseUrl (h : UrlAgree parse u v) : v.parseUrl parse = u.parseUrl parse := by
  rcases h.parser with hp | ⟨hs, url, hu, hd⟩
  · rw [h.same hp]
  · rw [h.eq]
    have hr : UrlState.uninitialized.rank < UrlState.urlParsed.rank := by decide
    simp only [Url.parseUrl, hu, hs, if_pos hr]
    rw [hd v.parser u.parser]

theorem UrlAgree.get (h : UrlAgree parse u v) (type : UrlField) :
    v.get parse type = u.get parse type := by
  rw [Url.get, Url.get, h.parseUrl]

theorem UrlAgree.portNum (h : UrlAgree parse u v) : v.portNum parse = u.portNum parse := by
  rw [Url.portNum, Url.portNum, h.parseUrl]

theorem UrlAgree.parseParams (h : UrlAgree parse u v) :
    v.parseParams parse = u.parseParams parse := by
  rcases h.parser with hp | ⟨hs, -⟩
  · rw [h.same hp]
  · have hsv : v.state = .uninitialized := by rw [h.eq]; exact hs
    have hr : UrlState.uninitialized.rank < UrlState.paramsParsed.rank := by decide
    rw [Url.parseParams, Url.parseParams, h.parseUrl, hs, hsv, if_pos hr, if_pos hr]

theorem UrlBlank.parseParams (h : UrlBlank u v) :
    UrlBlank (u.parseParams parse) (v.parseParams parse) := by
  have hv : v.url = none := by rw [h.eq]; exact h.blank
  have hs : v.state = u.state := by rw [h.eq]
  rw [parseParams_none parse h.blank, parseParams_none parse hv, hs]
  split_ifs
  · refine ⟨?_, h.blank⟩
    rw [h.eq]
  · exact h

end

/-- The steps that keep one message apart from the next. -/
def Clean (lib : HttpParser) (m : IncomingMessage) : MessageLabel → Prop
  | .onHeadersComplete _ =>
    m.type = .request → ∃ url, m.genericValue = some url ∧ Determined lib.parseUrl url
  | .onMessageComplete =>
    m.partialHeaderField = none ∧ m.partialHeaderValue = none ∧ m.isWebsocket = none
  | .access .isWebsocketRequest => m.asksForWebsocket = false
  | _ => True

/-- From `headers_complete` on the two show the same. -/
inductive Settled (lib : HttpParser) (m : IncomingMessage) : IncomingMessage → Prop where
  | mk (url : Url) (isWebsocket : Option Bool) (hurl : UrlAgree lib.parseUrl m.url url)
      (hresponse : m.type = .response → url.parser = m.url.parser)
      (hm : m.isWebsocket ≠ some true) (hn : isWebsocket ≠ some true) :
      Settled lib m { m with url := url, isWebsocket := isWebsocket }

/-- Before, they may differ in whatever `headers_complete` will set. -/
inductive Unsettled (m : IncomingMessage) : IncomingMessage → Prop where
  | mk (upgrade : Bool) (url : Url) (statusCode httpVersionMajor httpVersionMinor : Nat)
      (isWebsocket : Option Bool) (hupgrade : upgrade = true → m.upgrade = true)
      (hurl : UrlBlank m.url url) (hrequest : m.type = .request → statusCode = m.statusCode)
      (hresponse : m.type = .response → httpVersionMajor = m.httpVersionMajor ∧
        httpVersionMinor = m.httpVersionMinor ∧ url.parser = m.url.parser)
      (hm : m.isWebsocket ≠ some true) (hn : isWebsocket ≠ some true) :
      Unsettled m { m with
        upgrade := upgrade, url := url, statusCode := statusCode
        httpVersionMajor := httpVersionMajor, httpVersionMinor := httpVersionMinor
        isWebsocket := isWebsocket }

theorem UrlAgree.refl (parse : ParseUrl) (u : Url) : UrlAgree parse u u := ⟨rfl, .inl rfl⟩

theorem isWebsocketRequest_clean (m : IncomingMessage) (hm : m.isWebsocket ≠ some true)
    (h : m.asksForWebsocket = false) :
    m.isWebsocketRequest = (false, { m with isWebsocket := some false }) := by
  unfold IncomingMessage.isWebsocketRequest
  cases hw : m.isWebsocket with
  | none => simp [h]
  | some b =>
    cases b with
    | true => exact absurd hw hm
    | false =>
      change (false, m) = _
      rw [← hw]

section
variable {lib : HttpParser} {m n : IncomingMessage}

theorem Settled.access (h : Settled lib m n) (a : Accessor) (hC : Clean lib m (.access a)) :
    Settled lib (m.access lib a).2 (n.access lib a).2 ∧ (m.access lib a).1 =
      (n.access lib a).1 := by
  obtain ⟨url, w, hu, hres, hm, hn⟩ := h
  cases a with
  | urlField type =>
    simp only [IncomingMessage.access, hu.get]
    exact ⟨.mk _ w (.refl _ _) (fun _ => rfl) hm hn, trivial⟩
  | portNum =>
    simp only [IncomingMessage.access, hu.portNum]
    exact ⟨.mk _ w (.refl _ _) (fun _ => rfl) hm hn, trivial⟩
  | hasParam key =>
    simp only [IncomingMessage.access, hu.parseParams]
    exact ⟨.mk _ w (.refl _ _) (fun _ => rfl) hm hn, trivial⟩
  | param key =>
    simp only [IncomingMessage.access, hu.parseParams]
    exact ⟨.mk _ w (.refl _ _) (fun _ => rfl) hm hn, trivial⟩
  | isWebsocketRequest =>
    have hask : m.asksForWebsocket = false := hC
    have hask' : ({ m with url := url, isWebsocket := w } : IncomingMessage).asksForWebsocket =
        false := hask
    simp only [IncomingMessage.access, isWebsocketRequest_clean m hm hask,
      isWebsocketRequest_clean _ hn hask']
    exact ⟨.mk url (some false) hu hres (by simp) (by simp), trivial⟩
  | url =>
    have hsame : url.url = m.url.url := by rw [hu.eq]
    simp only [IncomingMessage.access, hsame]
    exact ⟨.mk url w hu hres hm hn, trivial⟩
  | method => exact ⟨.mk url w hu hres hm hn, rfl⟩
  | hasHeader key => exact ⟨.mk url w hu hres hm hn, rfl⟩
  | header key => exact ⟨.mk url w hu hres hm hn, rfl⟩
  | statusCode => exact ⟨.mk url w hu hres hm hn, rfl⟩
  | httpVersionMajor => exact ⟨.mk url w hu hres hm hn, rfl⟩
  | httpVersionMinor => exact ⟨.mk url w hu hres hm hn, rfl⟩

/-- Flushing the partial buffers does not look at the fields in which the two differ. -/
theorem Settled.addHeaderPartials (h : Settled lib m n) :
    Settled lib m.addHeaderPartials n.addHeaderPartials := by
  obtain ⟨url, w, hu, hres, hm, hn⟩ := h
  have hp : ({ m with url := url, isWebsocket := w } : IncomingMessage).pendingHeader =
      m.pendingHeader := rfl
  unfold IncomingMessage.addHeaderPartials
  rw [hp]
  cases m.pendingHeader with
  | none => exact .mk url w hu hres hm hn
  | some x => exact .mk url w hu hres hm hn

theorem Unsettled.addHeaderPartials (h : Unsettled m n) :
    Unsettled m.addHeaderPartials n.addHeaderPartials := by
  obtain ⟨up, url, sc, maj, min, w, hup, hu, hreq, hres, hm, hn⟩ := h
  have hp : ({ m with
      upgrade := up, url := url, statusCode := sc, httpVersionMajor := maj
      httpVersionMinor := min, isWebsocket := w } : IncomingMessage).pendingHeader =
      m.pendingHeader := rfl
  unfold IncomingMessage.addHeaderPartials
  rw [hp]
  cases m.pendingHeader with
  | none => exact .mk up url sc maj min w hup hu hreq hres hm hn
  | some x => exact .mk up url sc maj min w hup hu hreq hres hm hn

theorem addHeaderPartials_genericValue (m : IncomingMessage) :
    m.addHeaderPartials.genericValue = m.genericValue := by
  unfold IncomingMessage.addHeaderPartials
  cases m.pendingHeader <;> rfl

theorem addHeaderPartials_type (m : IncomingMessage) : m.addHeaderPartials.type = m.type := by
  unfold IncomingMessage.addHeaderPartials
  cases m.pendingHeader <;> rfl

theorem urlAgree_setUrl (u v : Url) (url : Bytes) (hd : Determined lib.parseUrl url) :
    UrlAgree lib.parseUrl (u.setUrl (some url)) (v.setUrl (some url)) :=
  ⟨rfl, .inr ⟨rfl, url, rfl, hd⟩⟩

theorem Settled.headersComplete (h : Settled lib m n) (parser : ParserInfo)
    (hC : Clean lib m (.onHeadersComplete parser)) :
    Settled lib (m.parserOnHeadersComplete lib parser) (n.parserOnHeadersComplete lib parser) := by
  have hg := addHeaderPartials_genericValue m
  have ht := addHeaderPartials_type m
  unfold IncomingMessage.parserOnHeadersComplete
  have h := h.addHeaderPartials
  generalize n.addHeaderPartials = n' at h ⊢
  obtain ⟨url, w, hu, hres, hm, hn⟩ := h
  cases hty : m.type with
  | request =>
    obtain ⟨bs, hbs, hd⟩ := hC hty
    simp only [ht, hty, hg, hbs]
    exact .mk _ w (urlAgree_setUrl _ _ bs hd) (fun h => by cases h) hm hn
  | response =>
    simp only [ht, hty]
    exact .mk url w hu (fun _ => hres (ht.trans hty)) hm hn

theorem Unsettled.headersComplete (h : Unsettled m n) (parser : ParserInfo)
    (hC : Clean lib m (.onHeadersComplete parser)) :
    Settled lib (m.parserOnHeadersComplete lib parser) (n.parserOnHeadersComplete lib parser) := by
  have hg := addHeaderPartials_genericValue m
  have ht := addHeaderPartials_type m
  unfold IncomingMessage.parserOnHeadersComplete
  have h := h.addHeaderPartials
  generalize n.addHeaderPartials = n' at h ⊢
  obtain ⟨up, url, sc, maj, min, w, hup, hu, hreq, hres, hm, hn⟩ := h
  cases hty : m.type with
  | request =>
    obtain ⟨bs, hbs, hd⟩ := hC hty
    obtain rfl := hreq (ht.trans hty)
    simp only [ht, hty, hg, hbs]
    exact .mk _ w (urlAgree_setUrl _ _ bs hd) (fun h => by cases h) hm hn
  | response =>
    obtain ⟨rfl, rfl, hp⟩ := hres (ht.trans hty)
    simp only [ht, hty]
    exact .mk url w ⟨hu.eq, .inl hp⟩ (fun _ => hp) hm hn

/-- Within a message the two keep showing the same. -/
theorem Settled.step (h : Settled lib m n) (l : MessageLabel) (hl : l ≠ .onMessageComplete)
    (hC : Clean lib m l) :
    Settled lib (m.step lib l) (n.step lib l) ∧ m.exposes lib l = n.exposes lib l := by
  cases l with
  | onUrl bs =>
    obtain ⟨url, w, hu, hres, hm, hn⟩ := h
    exact ⟨.mk url w hu hres hm hn, rfl⟩
  | onHeaderField bs =>
    refine ⟨?_, rfl⟩
    simp only [IncomingMessage.step, IncomingMessage.parserOnHeaderField]
    have h := h.addHeaderPartials
    generalize n.addHeaderPartials = n' at h ⊢
    obtain ⟨url, w, hu, hres, hm, hn⟩ := h
    exact .mk url w hu hres hm hn
  | onHeaderValue bs =>
    refine ⟨?_, rfl⟩
    simp only [IncomingMessage.step, IncomingMessage.parserOnHeaderValue]
    have h := h.addHeaderPartials
    generalize n.addHeaderPartials = n' at h ⊢
    obtain ⟨url, w, hu, hres, hm, hn⟩ := h
    exact .mk url w hu hres hm hn
  | onHeadersComplete parser => exact ⟨h.headersComplete parser hC, rfl⟩
  | onBody bs => exact ⟨h, rfl⟩
  | onMessageComplete => exact absurd rfl hl
  | access a =>
    obtain ⟨hs, he⟩ := h.access a hC
    exact ⟨hs, congrArg some he⟩

theorem exposed_eq (ls : List MessageLabel) (h : Settled lib m n) (hls : .onMessageComplete ∉ ls)
    (hC : Along (fun m l => some (m.step lib l)) (Clean lib) m ls) :
    m.exposed lib ls = n.exposed lib ls := by
  induction ls generalizing m n with
  | nil => rfl
  | cons l ls ih =>
    simp only [List.mem_cons, not_or] at hls
    obtain ⟨hs, he⟩ := h.step l (Ne.symm hls.1) hC.1
    rw [IncomingMessage.exposed, IncomingMessage.exposed, he, ih hs hls.2 (hC.2 _ rfl)]

theorem Unsettled.access (h : Unsettled m n) (a : Accessor) (hC : Clean lib m (.access a)) :
    Unsettled (m.access lib a).2 (n.access lib a).2 := by
  obtain ⟨up, url, sc, maj, min, w, hup, hu, hreq, hres, hm, hn⟩ := h
  have hv : url.url = none := by rw [hu.eq]; exact hu.blank
  have hpu := parseUrl_none lib.parseUrl hu.blank
  have hpv := parseUrl_none lib.parseUrl hv
  have hparams : m.type = .response →
      maj = m.httpVersionMajor ∧ min = m.httpVersionMinor ∧
        (url.parseParams lib.parseUrl).parser = (m.url.parseParams lib.parseUrl).parser := by
    intro ht
    obtain ⟨h1, h2, h3⟩ := hres ht
    refine ⟨h1, h2, ?_⟩
    rw [parseParams_none lib.parseUrl hu.blank, parseParams_none lib.parseUrl hv]
    split_ifs <;> exact h3
  cases a with
  | urlField type =>
    simp only [IncomingMessage.access, get_none lib.parseUrl hu.blank, get_none lib.parseUrl hv]
    exact .mk up url sc maj min w hup hu hreq hres hm hn
  | portNum =>
    simp only [IncomingMessage.access, Url.portNum, hpu, hpv]
    exact .mk up url sc maj min w hup hu hreq hres hm hn
  | hasParam key => exact .mk up _ sc maj min w hup hu.parseParams hreq hparams hm hn
  | param key => exact .mk up _ sc maj min w hup hu.parseParams hreq hparams hm hn
  | isWebsocketRequest =>
    have hask : m.asksForWebsocket = false := hC
    have hask' : ({ m with
        upgrade := up, url := url, statusCode := sc, httpVersionMajor := maj
        httpVersionMinor := min, isWebsocket := w } : IncomingMessage).asksForWebsocket = false := by
      cases up with
      | false => rfl
      | true =>
        rw [← hask]
        simp only [IncomingMessage.asksForWebsocket, hup rfl]
        rfl
    simp only [IncomingMessage.access, isWebsocketRequest_clean m hm hask,
      isWebsocketRequest_clean _ hn hask']
    exact .mk up url sc maj min (some false) hup hu hreq hres (by simp) (by simp)
  | url => exact .mk up url sc maj min w hup hu hreq hres hm hn
  | method => exact .mk up url sc maj min w hup hu hreq hres hm hn
  | hasHeader key => exact .mk up url sc maj min w hup hu hreq hres hm hn
  | header key => exact .mk up url sc maj min w hup hu hreq hres hm hn
  | statusCode => exact .mk up url sc maj min w hup hu hreq hres hm hn
  | httpVersionMajor => exact .mk up url sc maj min w hup hu hreq hres hm hn
  | httpVersionMinor => exact .mk up url sc maj min w hup hu hreq hres hm hn

theorem urlBlank_clear (u v : Url) : UrlBlank u.clear v.clear := ⟨rfl, rfl⟩

/-- At any time, the two are related in one way or the other. -/
theorem related_step (h : Unsettled m n ∨ Settled lib m n) (l : MessageLabel) (hC : Clean lib m l) :
    Unsettled (m.step lib l) (n.step lib l) ∨ Settled lib (m.step lib l) (n.step lib l) := by
  rcases h with h | h
  · cases l with
    | onUrl bs =>
      obtain ⟨up, url, sc, maj, min, w, hup, hu, hreq, hres, hm, hn⟩ := h
      exact .inl (.mk up url sc maj min w hup hu hreq hres hm hn)
    | onHeaderField bs =>
      simp only [IncomingMessage.step, IncomingMessage.parserOnHeaderField]
      have h := h.addHeaderPartials
      generalize n.addHeaderPartials = n' at h ⊢
      obtain ⟨up, url, sc, maj, min, w, hup, hu, hreq, hres, hm, hn⟩ := h
      exact .inl (.mk up url sc maj min w hup hu hreq hres hm hn)
    | onHeaderValue bs =>
      simp only [IncomingMessage.step, IncomingMessage.parserOnHeaderValue]
      have h := h.addHeaderPartials
      generalize n.addHeaderPartials = n' at h ⊢
      obtain ⟨up, url, sc, maj, min, w, hup, hu, hreq, hres, hm, hn⟩ := h
      exact .inl (.mk up url sc maj min w hup hu hreq hres hm hn)
    | onHeadersComplete parser => exact .inr (h.headersComplete parser hC)
    | onBody bs => exact .inl h
    | onMessageComplete =>
      obtain ⟨up, url, sc, maj, min, w, hup, hu, hreq, hres, hm, hn⟩ := h
      simp only [IncomingMessage.step, IncomingMessage.parserOnMessageComplete, if_pos hm,
        if_pos hn]
      exact .inl (.mk up _ sc maj min w hup (urlBlank_clear _ _) hreq hres hm hn)
    | access a => exact .inl (h.access a hC)
  · by_cases hl : l = .onMessageComplete
    · subst hl
      obtain ⟨url, w, hu, hres, hm, hn⟩ := h
      simp only [IncomingMessage.step, IncomingMessage.parserOnMessageComplete, if_pos hm,
        if_pos hn]
      exact .inl (.mk m.upgrade _ m.statusCode m.httpVersionMajor m.httpVersionMinor w (fun h => h)
        (urlBlank_clear _ _) (fun _ => rfl) (fun h => ⟨rfl, rfl, hres h⟩) hm hn)
    · exact .inr (h.step l hl hC).1

theorem related_after (ls : List MessageLabel) (h : Unsettled m n ∨ Settled lib m n)
    (hC : Along (fun m l => some (m.step lib l)) (Clean lib) m ls) :
    Unsettled (m.after lib ls) (n.after lib ls) ∨
      Settled lib (m.after lib ls) (n.after lib ls) := by
  induction ls generalizing m n with
  | nil => exact h
  | cons l ls ih =>
    obtain ⟨hl, hls⟩ := (along_total_cons m l ls).mp hC
    exact ih (related_step h l hl) hls

end

structure Kept (m₀ m : IncomingMessage) : Prop where
  type : m.type = m₀.type
  request : m.type = .request → m.statusCode = m₀.statusCode
  response : m.type = .response → m.httpVersionMajor = m₀.httpVersionMajor ∧
    m.httpVersionMinor = m₀.httpVersionMinor ∧ m.url.parser = m₀.url.parser ∧ m.url.url = none
  websocket : m.isWebsocket ≠ some true

section
variable {lib : HttpParser} {m₀ m : IncomingMessage}

theorem Kept.addHeaderPartials (h : Kept m₀ m) : Kept m₀ m.addHeaderPartials := by
  unfold IncomingMessage.addHeaderPartials
  cases m.pendingHeader with
  | none => exact h
  | some x => exact ⟨h.type, h.request, h.response, h.websocket⟩

theorem Kept.withUrl (h : Kept m₀ m) (url : Url)
    (hurl : m.url.url = none → url.url = none ∧ url.parser = m.url.parser) :
    Kept m₀ { m with url := url } := by
  refine ⟨h.type, h.request, ?_, h.websocket⟩
  intro ht
  obtain ⟨h1, h2, h3, h4⟩ := h.response ht
  obtain ⟨h5, h6⟩ := hurl h4
  exact ⟨h1, h2, h6.trans h3, h5⟩

theorem step_kept (h : Kept m₀ m) (l : MessageLabel) (hC : Clean lib m l) :
    Kept m₀ (m.step lib l) := by
  have hparams (hu : m.url.url = none) : (m.url.parseParams lib.parseUrl).url = none ∧
      (m.url.parseParams lib.parseUrl).parser = m.url.parser := by
    rw [parseParams_none lib.parseUrl hu]
    split_ifs <;> exact ⟨hu, rfl⟩
  cases l with
  | onUrl bs => exact ⟨h.type, h.request, h.response, h.websocket⟩
  | onHeaderField bs =>
    have h := h.addHeaderPartials
    exact ⟨h.type, h.request, h.response, h.websocket⟩
  | onHeaderValue bs =>
    have h := h.addHeaderPartials
    exact ⟨h.type, h.request, h.response, h.websocket⟩
  | onHeadersComplete parser =>
    have h := h.addHeaderPartials
    simp only [IncomingMessage.step, IncomingMessage.parserOnHeadersComplete]
    cases ht : m.addHeaderPartials.type with
    | request =>
      exact ⟨ht.symm.trans h.type, fun _ => h.request ht, fun hr => (by cases hr), h.websocket⟩
    | response =>
      exact ⟨ht.symm.trans h.type, fun hr => (by cases hr), fun _ => h.response ht, h.websocket⟩
  | onBody bs => exact h
  | onMessageComplete =>
    simp only [IncomingMessage.step, IncomingMessage.parserOnMessageComplete, if_pos h.websocket]
    refine ⟨h.type, h.request, ?_, h.websocket⟩
    intro ht
    obtain ⟨h1, h2, h3, -⟩ := h.response ht
    exact ⟨h1, h2, h3, rfl⟩
  | access a =>
    cases a with
    | urlField type =>
      apply h.withUrl
      intro hu
      rw [parseUrl_none lib.parseUrl hu]
      exact ⟨hu, rfl⟩
    | portNum =>
      apply h.withUrl
      intro hu
      rw [parseUrl_none lib.parseUrl hu]
      exact ⟨hu, rfl⟩
    | hasParam key => exact h.withUrl _ hparams
    | param key => exact h.withUrl _ hparams
    | isWebsocketRequest =>
      have hask : m.asksForWebsocket = false := hC
      simp only [IncomingMessage.step, IncomingMessage.access,
        isWebsocketRequest_clean m h.websocket hask]
      exact ⟨h.type, h.request, h.response, by simp⟩
    | url => exact h
    | method => exact h
    | hasHeader key => exact h
    | header key => exact h
    | statusCode => exact h
    | httpVersionMajor => exact h
    | httpVersionMinor => exact h

theorem run_eq_after (m : IncomingMessage) (ls : List MessageLabel) :
    run (fun m l => some (m.step lib l)) m ls = some (m.after lib ls) := by
  induction ls generalizing m with
  | nil => rfl
  | cons l ls ih => exact ih (m.step lib l)

end

/-- Nothing of the messages before is left. -/
structure Forgotten (m : IncomingMessage) : Prop where
  headers : m.headers = fun _ => none
  field : m.partialHeaderField = none
  value : m.partialHeaderValue = none
  url : m.url.url = none ∧ m.url.params = fun _ => none
  generic : m.genericValue = none
  websocket : m.isWebsocket = none

section
variable {lib : HttpParser} {type : HttpParserType} {url : HttpParserUrl}
  {statusCode major minor : Nat} {s : IncomingMessage}

theorem step_complete (hs : s.isWebsocket ≠ some true) :
    s.step lib .onMessageComplete =
      { s with genericValue := none, headers := fun _ => none, url := s.url.clear } :=
  if_pos hs

/-- The end of a message forgets it exactly if the three members it does not reset are unset. -/
theorem forgotten_iff (hs : s.isWebsocket ≠ some true) :
    Forgotten (s.step lib .onMessageComplete) ↔
      s.partialHeaderField = none ∧ s.partialHeaderValue = none ∧ s.isWebsocket = none := by
  rw [step_complete hs]
  constructor
  · intro h
    exact ⟨h.field, h.value, h.websocket⟩
  · rintro ⟨hfield, hvalue, hwebsocket⟩
    exact ⟨rfl, hfield, hvalue, ⟨rfl, rfl⟩, rfl, hwebsocket⟩

/-- What is left then does not tell the object from a new one. -/
theorem Kept.unsettled (hs : Kept (.init type url statusCode major minor) s)
    (hfield : s.partialHeaderField = none) (hvalue : s.partialHeaderValue = none) :
    Unsettled (s.step lib .onMessageComplete) (.init type url statusCode major minor) := by
  rw [step_complete hs.websocket]
  have heq : IncomingMessage.init type url statusCode major minor =
      { { s with genericValue := none, headers := fun _ => none, url := s.url.clear } with
        upgrade := false, url := .uninitialized url, statusCode := statusCode
        httpVersionMajor := major, httpVersionMinor := minor, isWebsocket := none } := by
    rw [hfield, hvalue, hs.type]
    rfl
  rw [heq]
  refine .mk false _ statusCode major minor none (by simp) ⟨rfl, rfl⟩ ?_ ?_ hs.websocket (by simp)
  · intro ht
    exact (hs.request ht).symm
  · intro ht
    obtain ⟨h1, h2, h3, -⟩ := hs.response ht
    exact ⟨h1.symm, h2.symm, h3.symm⟩

end

/-- From its `headers_complete` on, a message shows what it would show on an object of its own. -/
theorem message_shows_only_itself (lib : HttpParser) (type : HttpParserType)
    (url : HttpParserUrl) (statusCode major minor : Nat) (before pre post : List MessageLabel)
    (parser : ParserInfo) (hpost : .onMessageComplete ∉ post)
    (hC : Along (fun m l => some (m.step lib l)) (Clean lib)
      (.init type url statusCode major minor)
      (before ++ [.onMessageComplete] ++ (pre ++ .onHeadersComplete parser :: post))) :
    let m₀ := IncomingMessage.init type url statusCode major minor
    let m₁ := m₀.after lib (before ++ [.onMessageComplete])
    Forgotten m₁ ∧ (m₁.after lib pre).exposed lib (.onHeadersComplete parser :: post) =
      (m₀.after lib pre).exposed lib (.onHeadersComplete parser :: post) := by
  intro m₀ m₁
  obtain ⟨hbefore, hrest⟩ := (along_append _ _ _).mp hC
  obtain ⟨hrun, hlast⟩ := (along_append _ _ _).mp hbefore
  have hrest := hrest m₁ (run_eq_after _ _)
  obtain ⟨hpre, hmsg⟩ := (along_append _ _ _).mp hrest
  obtain ⟨hhead, hpostC⟩ := (along_total_cons _ _ _).mp (hmsg _ (run_eq_after _ _))
  -- the state in which the messages before end
  let s := m₀.after lib before
  have hinit : Kept m₀ m₀ :=
    ⟨rfl, fun _ => rfl, fun _ => ⟨rfl, rfl, rfl, rfl⟩, by simp [m₀, IncomingMessage.init]⟩
  have hs : Kept m₀ s := by
    apply run_invariant (C := Clean lib) (Kept m₀) _ before m₀ s hinit hrun (run_eq_after _ _)
    intro m l t hm hl ht
    cases ht
    exact step_kept hm l hl
  have hclean : s.partialHeaderField = none ∧ s.partialHeaderValue = none ∧ s.isWebsocket = none :=
    (hlast s (run_eq_after _ _)).1
  have hm₁ : m₁ = s.step lib .onMessageComplete := List.foldl_append ..
  refine ⟨hm₁ ▸ (forgotten_iff hs.websocket).mpr hclean, ?_⟩
  have hrel : Unsettled m₁ m₀ := hm₁ ▸ hs.unsettled hclean.1 hclean.2.1
  have hsettled : Settled lib ((m₁.after lib pre).parserOnHeadersComplete lib parser)
      ((m₀.after lib pre).parserOnHeadersComplete lib parser) := by
    rcases related_after pre (.inl hrel) hpre with h | h
    · exact h.headersComplete parser hhead
    · exact h.headersComplete parser hhead
  have htail := exposed_eq post hsettled hpost hpostC
  rw [IncomingMessage.exposed, IncomingMessage.exposed]
  exact congrArg _ htail

/-- A parser that knows `GET` and URLs that are all path. -/
def plainParser : HttpParser where
  methodMap _ := ascii "GET"
  parseUrl url _ := (true, ⟨fun type => if type = .path then some (0, url.length) else none, 0⟩)

theorem message_shows_only_itself_second :
    let m₀ := IncomingMessage.init .request ⟨fun _ => none, 0⟩ 0 0 0
    let before := [.onUrl (ascii "/a"), .onHeaderField (ascii "A"), .onHeaderValue (ascii "1"),
      .onHeadersComplete ⟨1, 1, 1, 0, false, true⟩, .access .portNum]
    let pre := [.onUrl (ascii "/b"), .onHeaderField (ascii "B"), .onHeaderValue (ascii "2")]
    let post := [.access (.urlField .path), .access (.hasHeader (ascii "a")),
      .access (.header (ascii "b")), .access .isWebsocketRequest]
    let m₁ := m₀.after plainParser (before ++ [.onMessageComplete])
    m₁.isWebsocket = none ∧
      (m₁.after plainParser pre).exposed plainParser
          (.onHeadersComplete ⟨1, 1, 1, 0, false, true⟩ :: post) =
        [.headersComplete false true, .bytes (some (ascii "/b")), .flag false,
          .bytes (some (ascii "2")), .flag false] := by
  intro m₀ before pre post m₁
  have h := (message_shows_only_itself plainParser .request ⟨fun _ => none, 0⟩ 0 0 0 before pre post
    ⟨1, 1, 1, 0, false, true⟩ (by decide) (by
      simp only [before, pre, post, List.cons_append, List.nil_append, along_total_cons]
      refine ⟨trivial, trivial, trivial, fun _ => ⟨_, rfl, fun _ _ => rfl⟩, trivial,
        ⟨rfl, rfl, rfl⟩,
        trivial, trivial, trivial, fun _ => ⟨_, rfl, fun _ _ => rfl⟩, trivial, trivial, trivial, rfl,
        trivial⟩))
  refine ⟨h.1.websocket, ?_⟩
  rw [h.2]
  decide

/-- A trailer of the first message turns up among the headers of the second. -/
theorem trailer_reaches_next_message :
    let m₀ := IncomingMessage.init .request ⟨fun _ => none, 0⟩ 0 0 0
    let before := [.onUrl (ascii "/"), .onHeadersComplete ⟨1, 1, 1, 0, false, true⟩,
      .onHeaderField (ascii "T"), .onHeaderValue (ascii "v"), .onMessageComplete]
    let pre := [.onUrl (ascii "/"), .onHeaderField (ascii "A"), .onHeaderValue (ascii "b")]
    let post := [.onHeadersComplete ⟨1, 1, 1, 0, false, true⟩, .access (.header (ascii "t"))]
    ((m₀.after plainParser before).after plainParser pre).exposed plainParser post =
        [.headersComplete false true, .bytes (some (ascii "v"))] ∧
      (m₀.after plainParser pre).exposed plainParser post =
        [.headersComplete false true, .bytes none] := by
  decide

/-- Whatever is left of a message that was asked, its answer is. -/
theorem answer_not_forgotten (lib : HttpParser) (m : IncomingMessage) :
    ¬Forgotten ((m.step lib (.access .isWebsocketRequest)).step lib .onMessageComplete) := by
  intro h
  have hasked : (m.step lib (.access .isWebsocketRequest)).isWebsocket ≠ none := by
    change m.isWebsocketRequest.2.isWebsocket ≠ none
    unfold IncomingMessage.isWebsocketRequest
    cases hw : m.isWebsocket with
    | none => simp
    | some b => simp [hw]
  by_cases hs : (m.step lib (.access .isWebsocketRequest)).isWebsocket = some true
  · have hkept : (m.step lib (.access .isWebsocketRequest)).step lib .onMessageComplete =
        m.step lib (.access .isWebsocketRequest) := if_neg (not_not.mpr hs)
    rw [hkept] at h
    exact hasked h.websocket
  · exact hasked ((forgotten_iff hs).mp h).2.2

end Libnodecc.Http
