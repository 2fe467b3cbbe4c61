import Libnodecc.Http.OutgoingMessage
import Libnodecc.Framework.Run

namespace Libnodecc.Http

open Util

def headerLines (keys : List Bytes) (headers : Headers) : Bytes :=
  keys.flatMap fun key => key ++ ascii ": " ++ ((headers key).getD none).bytes ++ crlf

/-- `request::compile_headers`; `order` tells in which order the headers are iterated. -/
def requestHeaders (method path host : Buf) (order : Headers → List Bytes) (headers : Headers) :
    Bytes :=
  method.bytes ++ ascii " " ++ path.bytes ++ ascii " HTTP/1.1\r\nhost: " ++ host.bytes ++ crlf ++
    headerLines (order headers) headers ++ crlf

/-- `server_response::compile_headers`, with the texts of the status and the date. -/
def responseHeaders (status date : Bytes) (shutdownOnEnd : Bool) (order : Headers → List Bytes)
    (headers : Headers) : Bytes :=
  ascii "HTTP/1.1 " ++ status ++ crlf ++
    (if (headers (ascii "date")).isNone then date else []) ++ headerLines (order headers) headers ++
    (if shutdownOnEnd && (headers (ascii "connection")).isNone then ascii "connection: close\r\n"
      else []) ++ crlf

theorem requestHeaders_ne (method path host : Buf) (order : Headers → List Bytes)
    (headers : Headers) : requestHeaders method path host order headers ≠ [] :=
  List.append_ne_nil_of_right_ne_nil _ crlf_ne

theorem responseHeaders_ne (status date : Bytes) (shutdownOnEnd : Bool)
    (order : Headers → List Bytes) (headers : Headers) :
    responseHeaders status date shutdownOnEnd order headers ≠ [] :=
  List.append_ne_nil_of_right_ne_nil _ crlf_ne

def OutgoingMessage.init (headers : Headers) (isChunked : Bool) : OutgoingMessage :=
  ⟨headers, false, isChunked, []⟩

def firstCall {bits : Nat} : List (BodyCall bits) → List (Chunk bits) → OutgoingCall bits
  | [], chunks => .endWith chunks
  | call :: _, _ => .body call

/-- The headers that are compiled and the mode of a message: its first call settles them. -/
def messageFraming (p : Platform) (headers : Headers) (calls : List (BodyCall p.bits))
    (chunks : List (Chunk p.bits)) : Headers × Bool :=
  (chooseFraming p headers (firstCall calls chunks).chunks (firstCall calls chunks).last).getD
    (headers, false)

/-- Chunked mode: asked for by the caller, or chosen where the first call is not the final one, or
where the content is too long to be counted. -/
def InChunkedMode {bits : Nat} (headers : Headers) (calls : List (BodyCall bits))
    (chunks : List (Chunk bits)) : Prop :=
  headers (ascii "content-length") = none ∧
    match headers (ascii "transfer-encoding") with
    | some value => value = some (ascii "chunked")
    | none => calls = [] → 2^bits ≤ (chunks.map fun b => b.buf.size).sum

theorem messageFraming_spec (p : Platform) (headers : Headers) (calls : List (BodyCall p.bits))
    (chunks : List (Chunk p.bits)) : ∃ isChunked,
      chooseFraming p headers (firstCall calls chunks).chunks (firstCall calls chunks).last =
        some ((messageFraming p headers calls chunks).1, isChunked) ∧
      (isChunked = true ↔ InChunkedMode headers calls chunks) := by
  obtain ⟨⟨hs, isChunked⟩, hf⟩ := chooseFraming_defined p headers
    (firstCall calls chunks).chunks (firstCall calls chunks).last
  refine ⟨isChunked, by rw [messageFraming, hf]; rfl, ?_⟩
  rw [chooseFraming_isChunked p headers hs _ _ isChunked hf, InChunkedMode]
  have hlast : (firstCall calls chunks).last = true ↔ calls = [] := by
    cases calls with
    | nil => simp [firstCall, OutgoingCall.last]
    | cons call calls => simp [firstCall, OutgoingCall.last]
  have hchunks (hnil : calls = []) : (firstCall calls chunks).chunks = chunks := by
    rw [hnil]
    rfl
  cases headers (ascii "transfer-encoding") with
  | some value => rfl
  | none =>
    refine and_congr_right fun _ => ⟨fun h hnil => ?_, fun h hend => ?_⟩
    · rw [← hchunks hnil]
      exact h (hlast.mpr hnil)
    · rw [hchunks (hlast.mp hend)]
      exact h (hlast.mp hend)

/-- The header block `block` is handed over once, before everything else: without it, the same
calls hand over the same bytes. No `send_headers` leaves it for later. -/
structure HeadersFirst (p : Platform) (compileHeaders : Headers → Bytes) (m : OutgoingMessage)
    (calls : List (BodyCall p.bits)) (chunks : List (Chunk p.bits)) (block : Bytes) : Prop where
  once : ∃ t t₀, run (OutgoingMessage.step p compileHeaders) m (message calls chunks) = some t ∧
    run (OutgoingMessage.step p fun _ => []) m (message calls chunks) = some t₀ ∧
    t.handedOver = block ++ t₀.handedOver
  sent : ∀ pre post, calls = pre ++ post → .sendHeaders ∈ pre →
    ∃ s, run (OutgoingMessage.step p compileHeaders) m (pre.map .body) = some s ∧
      s.headersSent = true ∧ block <+: s.handedOver

/-- Of the buffers of each call, all but the first are filled. -/
def TailsFilled {bits : Nat} (isChunked : Bool) (calls : List (BodyCall bits))
    (chunks : List (Chunk bits)) : Prop :=
  isChunked = true →
    (∀ call ∈ calls, ∀ b ∈ call.chunks.tail, b.Filled) ∧ ∀ b ∈ chunks.tail, b.Filled

instance {bits : Nat} (isChunked : Bool) (calls : List (BodyCall bits))
    (chunks : List (Chunk bits)) : Decidable (TailsFilled isChunked calls chunks) := by
  unfold TailsFilled
  infer_instance

/-- In chunked mode the first call with buffers carries the header block: it has to come, no
`send_headers` may come before it, and all its buffers have to be filled. -/
def HeaderCarried {bits : Nat} : List (BodyCall bits) → List (Chunk bits) → Prop
  | [], chunks => chunks ≠ [] ∧ ∀ b ∈ chunks, b.Filled
  | call :: calls, chunks =>
    match call with
    | .sendHeaders => False
    | .write [] => HeaderCarried calls chunks
    | .write (b :: bufs) => (∀ c ∈ b :: bufs, c.Filled) ∧ TailsFilled true calls chunks

section
variable (p : Platform) (compileHeaders : Headers → Bytes)

theorem step_body (m : OutgoingMessage) (call : BodyCall p.bits) :
    m.step p compileHeaders (.body call) =
      m.httpWrite p compileHeaders call.chunks false := by
  cases call with
  | sendHeaders => rfl
  | write chunks => rfl

theorem step_endWith (m : OutgoingMessage) (chunks : List (Chunk p.bits)) :
    m.step p compileHeaders (.endWith chunks) =
      (m.httpWrite p compileHeaders chunks true).map fun m => { m with headers := noHeaders } :=
  rfl

theorem step_sent (m : OutgoingMessage) (c : OutgoingCall p.bits) (h : m.headersSent = true) :
    m.step p compileHeaders c =
      if m.isChunked = true → ∀ b ∈ c.chunks.tail, b.Filled then
        some { m with
          headers := if c.last then noHeaders else m.headers
          headersSent := !c.last
          handedOver := m.handedOver ++ framed m.isChunked c.chunks c.last }
      else none := by
  have hw := httpWrite_sent p compileHeaders m c.chunks c.last h
  cases c with
  | body call =>
    rw [step_body]
    exact hw
  | endWith chunks =>
    rw [step_endWith]
    change m.httpWrite p compileHeaders chunks true = _ at hw
    rw [hw]
    by_cases hc : m.isChunked = true → ∀ b ∈ (OutgoingCall.endWith chunks).chunks.tail, b.Filled
    · rw [if_pos hc, if_pos hc]
      rfl
    · rw [if_neg hc, if_neg hc]
      rfl

theorem tailsFilled_cons {bits : Nat} (isChunked : Bool) (call : BodyCall bits)
    (calls : List (BodyCall bits))
    (chunks : List (Chunk bits)) : TailsFilled isChunked (call :: calls) chunks ↔
      (isChunked = true → ∀ b ∈ call.chunks.tail, b.Filled) ∧
        TailsFilled isChunked calls chunks := by
  simp only [TailsFilled, List.forall_mem_cons]
  tauto

theorem tailsFilled_end {bits : Nat} (isChunked : Bool) (calls : List (BodyCall bits))
    (chunks : List (Chunk bits)) : TailsFilled isChunked calls chunks ↔
      TailsFilled isChunked calls [] ∧ (isChunked = true → ∀ b ∈ chunks.tail, b.Filled) := by
  simp only [TailsFilled, List.tail_nil, List.not_mem_nil]
  tauto

/-- The calls behind the header block. -/
theorem run_sent (calls : List (BodyCall p.bits)) (m : OutgoingMessage) (h : m.headersSent = true) :
    run (OutgoingMessage.step p compileHeaders) m (calls.map .body) =
      if TailsFilled m.isChunked calls [] then
        some { m with
          handedOver := m.handedOver ++
            calls.flatMap fun c : BodyCall p.bits => framed m.isChunked c.chunks false }
      else none := by
  induction calls generalizing m with
  | nil => simp [TailsFilled]
  | cons c calls ih =>
    rw [List.map_cons, run_cons, step_sent _ _ _ _ h]
    by_cases hc : m.isChunked = true → ∀ b ∈ c.chunks.tail, b.Filled
    · have hall : TailsFilled m.isChunked (c :: calls) [] ↔ TailsFilled m.isChunked calls [] := by
        rw [tailsFilled_cons, and_iff_right hc]
      change (if m.isChunked = true → ∀ b ∈ c.chunks.tail, b.Filled then some _ else none).bind _ =
        _
      rw [if_pos hc, Option.bind_some, ih _ rfl]
      simp only [hall, List.flatMap_cons, List.append_assoc, h]
      rfl
    · have hall : ¬TailsFilled m.isChunked (c :: calls) [] := by
        rw [tailsFilled_cons]
        exact fun ha => hc ha.1
      change (if m.isChunked = true → ∀ b ∈ c.chunks.tail, b.Filled then some _ else none).bind _ =
        _
      rw [if_neg hc, if_neg hall]
      rfl

/-- The rest of a message behind the header block. -/
theorem run_sent_message (calls : List (BodyCall p.bits)) (chunks : List (Chunk p.bits))
    (m : OutgoingMessage) (h : m.headersSent = true) :
    run (OutgoingMessage.step p compileHeaders) m (message calls chunks) =
      if TailsFilled m.isChunked calls chunks then
        some ⟨noHeaders, false, m.isChunked, m.handedOver ++
          ((calls.flatMap fun c : BodyCall p.bits => framed m.isChunked c.chunks false) ++
            framed m.isChunked chunks true)⟩
      else none := by
  rw [message, run_append, run_sent _ _ _ _ h]
  by_cases hr : TailsFilled m.isChunked calls []
  · have hall : TailsFilled m.isChunked calls chunks ↔
        (m.isChunked = true → ∀ b ∈ chunks.tail, b.Filled) := by
      rw [tailsFilled_end, and_iff_right hr]
    rw [if_pos hr, Option.bind_some, run_cons, step_sent _ _ _ _ (by simpa using h)]
    simp only [hall, OutgoingCall.chunks, OutgoingCall.last]
    split_ifs <;> simp
  · have hall : ¬TailsFilled m.isChunked calls chunks := by
      rw [tailsFilled_end]
      exact fun ha => hr ha.1
    rw [if_neg hr, if_neg hall]
    rfl

/-- The call that carries the header block. -/
theorem step_unsent (m : OutgoingMessage) (c : OutgoingCall p.bits) (isChunked : Bool)
    (headers : Headers) (h : m.headersSent = false)
    (hf : chooseFraming p m.headers c.chunks c.last = some (headers, isChunked))
    (hb : isChunked = true → c.chunks ≠ []) :
    m.step p compileHeaders c =
      if isChunked = true → ∀ b ∈ c.chunks, b.Filled then
        some ⟨noHeaders, !c.last, isChunked,
          m.handedOver ++ compileHeaders headers ++ framed isChunked c.chunks c.last⟩
      else none := by
  have hw := httpWrite_unsent p compileHeaders m c.chunks c.last isChunked headers h hf hb
  cases c with
  | body call =>
    rw [step_body]
    exact hw
  | endWith chunks =>
    rw [step_endWith]
    change m.httpWrite p compileHeaders chunks true = _ at hw
    rw [hw]
    by_cases hc : isChunked = true → ∀ b ∈ (OutgoingCall.endWith chunks).chunks, b.Filled
    · rw [if_pos hc]
      rfl
    · rw [if_neg hc]
      rfl

/-- In chunked mode a call without buffers leaves it for later. -/
theorem step_empty (m : OutgoingMessage) (c : OutgoingCall p.bits) (headers : Headers)
    (h : m.headersSent = false) (hc : c.chunks = [])
    (hf : chooseFraming p m.headers c.chunks c.last = some (headers, true)) :
    m.step p compileHeaders c = some { m with
      headers := if c.last then noHeaders else headers
      isChunked := true,
      handedOver := m.handedOver ++ framed true ([] : List (Chunk p.bits)) c.last } := by
  rw [hc] at hf
  have hw := httpWrite_empty p compileHeaders m c.last headers h hf
  cases c with
  | body call =>
    change call.chunks = [] at hc
    rw [step_body, hc]
    exact hw
  | endWith chunks =>
    change chunks = [] at hc
    rw [step_endWith, hc]
    change m.httpWrite p compileHeaders [] true = _ at hw
    rw [hw]
    rfl

/-- Once the header block is handed over, the message only has to run to its end. -/
theorem headersFirst_carried (m : OutgoingMessage) (call : BodyCall p.bits)
    (calls : List (BodyCall p.bits))
    (chunks : List (Chunk p.bits)) (block body : Bytes) (isChunked : Bool)
    (hreal : m.step p compileHeaders (.body call) =
      some ⟨noHeaders, true, isChunked, block ++ body⟩)
    (hplain : m.step p (fun _ => []) (.body call) = some ⟨noHeaders, true, isChunked, body⟩) :
    HeadersFirst p compileHeaders m (call :: calls) chunks block ↔
      TailsFilled isChunked calls chunks := by
  have hrun (compile : Headers → Bytes) (bs : Bytes)
      (hs : m.step p compile (.body call) = some ⟨noHeaders, true, isChunked, bs⟩) :
      run (OutgoingMessage.step p compile) m (message (call :: calls) chunks) =
        if TailsFilled isChunked calls chunks then
          some ⟨noHeaders, false, isChunked, bs ++
            ((calls.flatMap fun c : BodyCall p.bits => framed isChunked c.chunks false) ++
              framed isChunked chunks true)⟩
        else none := by
    change (m.step p compile (.body call)).bind _ = _
    rw [hs, Option.bind_some]
    exact run_sent_message p compile calls chunks _ rfl
  have h1 := hrun compileHeaders _ hreal
  have h2 := hrun (fun _ => []) _ hplain
  constructor
  · intro hfirst
    obtain ⟨t, t₀, ht, -, -⟩ := hfirst.once
    by_contra hn
    rw [h1, if_neg hn] at ht
    cases ht
  · intro htails
    rw [if_pos htails] at h1 h2
    refine ⟨⟨_, _, h1, h2, List.append_assoc ..⟩, ?_⟩
    intro pre post hpre hmem
    cases pre with
    | nil => cases hmem
    | cons c pre =>
      obtain ⟨rfl, hpost⟩ := List.cons.inj hpre
      have hsub : TailsFilled isChunked pre [] := by
        intro hc
        refine ⟨?_, by simp⟩
        intro x hx
        exact (htails hc).1 x (hpost ▸ List.mem_append_left post hx)
      have hsent := run_sent p compileHeaders pre ⟨noHeaders, true, isChunked, block ++ body⟩ rfl
      rw [if_pos hsub] at hsent
      have hpre : run (OutgoingMessage.step p compileHeaders) m ((call :: pre).map .body) =
          run (OutgoingMessage.step p compileHeaders) ⟨noHeaders, true, isChunked, block ++ body⟩
            (pre.map .body) := by
        rw [List.map_cons, run_cons, hreal, Option.bind_some]
      refine ⟨_, hpre.trans hsent, rfl,
        body ++ pre.flatMap fun c : BodyCall p.bits => framed isChunked c.chunks false, ?_⟩
      exact (List.append_assoc ..).symm

/-- A message that is over with its first call. -/
theorem headersFirst_end (m : OutgoingMessage) (chunks : List (Chunk p.bits)) (block : Bytes) :
    HeadersFirst p compileHeaders m [] chunks block ↔
      ∃ t t₀, m.step p compileHeaders (.endWith chunks) = some t ∧
        m.step p (fun _ => []) (.endWith chunks) = some t₀ ∧
          t.handedOver = block ++ t₀.handedOver := by
  have hrun (compile : Headers → Bytes) :
      run (OutgoingMessage.step p compile) m (message [] chunks) =
        m.step p compile (.endWith chunks) := by
    change (m.step p compile (.endWith chunks)).bind some = _
    cases m.step p compile (.endWith chunks) <;> rfl
  rw [← hrun, ← hrun]
  constructor
  · exact fun h => h.once
  · intro h
    refine ⟨h, ?_⟩
    intro pre post hpre hmem
    have hnil : pre = [] := (List.append_eq_nil_iff.mp hpre.symm).1
    rw [hnil] at hmem
    cases hmem

/-- A call that leaves no trace can be left out. -/
theorem headersFirst_skip (m m' : OutgoingMessage) (call : BodyCall p.bits)
    (calls : List (BodyCall p.bits))
    (chunks : List (Chunk p.bits)) (block : Bytes) (hcall : call ≠ .sendHeaders)
    (hreal : m.step p compileHeaders (.body call) = some m')
    (hplain : m.step p (fun _ => []) (.body call) = some m') :
    HeadersFirst p compileHeaders m (call :: calls) chunks block ↔
      HeadersFirst p compileHeaders m' calls chunks block := by
  have hrun (compile : Headers → Bytes) (as : List (OutgoingCall p.bits))
      (hs : m.step p compile (.body call) = some m') :
      run (OutgoingMessage.step p compile) m (.body call :: as) =
        run (OutgoingMessage.step p compile) m' as := by
    rw [run_cons, hs, Option.bind_some]
  constructor
  · intro h
    refine ⟨?_, ?_⟩
    · obtain ⟨t, t₀, ht, ht₀, heq⟩ := h.once
      exact ⟨t, t₀, (hrun _ _ hreal).symm.trans ht, (hrun _ _ hplain).symm.trans ht₀, heq⟩
    · intro pre post hpre hmem
      obtain ⟨s, hs, hsent⟩ := h.sent (call :: pre) post (by rw [hpre]; rfl) (by simp [hmem])
      exact ⟨s, (hrun _ _ hreal).symm.trans hs, hsent⟩
  · intro h
    refine ⟨?_, ?_⟩
    · obtain ⟨t, t₀, ht, ht₀, heq⟩ := h.once
      exact ⟨t, t₀, (hrun _ _ hreal).trans ht, (hrun _ _ hplain).trans ht₀, heq⟩
    · intro pre post hpre hmem
      cases pre with
      | nil => cases hmem
      | cons c pre =>
        obtain ⟨rfl, hpost⟩ := List.cons.inj hpre
        have hmem : .sendHeaders ∈ pre := by
          rcases List.mem_cons.mp hmem with hc | hmem
          · exact absurd hc.symm hcall
          · exact hmem
        obtain ⟨s, hs, hsent⟩ := h.sent pre post hpost hmem
        exact ⟨s, (hrun _ _ hreal).trans hs, hsent⟩

/-- Without chunks the first call carries the header block. -/
theorem headersFirst_plain (m : OutgoingMessage) (calls : List (BodyCall p.bits))
    (chunks : List (Chunk p.bits))
    (headers : Headers) (h : m.headersSent = false) (hm : m.handedOver = [])
    (hf : chooseFraming p m.headers (firstCall calls chunks).chunks
      (firstCall calls chunks).last = some (headers, false)) :
    HeadersFirst p compileHeaders m calls chunks (compileHeaders headers) := by
  have hstep (compile : Headers → Bytes) := step_unsent p compile m (firstCall calls chunks)
    false headers h hf (by simp)
  cases calls with
  | nil =>
    simp only [hm, Bool.false_eq_true, false_implies, if_true] at hstep
    rw [headersFirst_end]
    exact ⟨_, _, hstep compileHeaders, hstep fun _ => [], by simp⟩
  | cons call calls =>
    simp only [hm, Bool.false_eq_true, false_implies, if_true] at hstep
    refine (headersFirst_carried p compileHeaders m call calls chunks _ _ false
      (hstep compileHeaders) (hstep fun _ => [])).mpr ?_
    intro hc
    cases hc

/-- In chunked mode some call has to carry it: induction on the calls, as long as they are empty. -/
theorem headersFirst_chunked (calls : List (BodyCall p.bits)) (chunks : List (Chunk p.bits))
    (m : OutgoingMessage) (headers : Headers) (hne : compileHeaders headers ≠ [])
    (h : m.headersSent = false) (hm : m.handedOver = [])
    (hf : chooseFraming p m.headers (firstCall calls chunks).chunks
      (firstCall calls chunks).last = some (headers, true)) :
    HeadersFirst p compileHeaders m calls chunks (compileHeaders headers) ↔
      HeaderCarried calls chunks := by
  induction calls generalizing m with
  | nil =>
    rw [headersFirst_end]
    cases hch : chunks with
    | nil =>
      subst hch
      have hstep (compile : Headers → Bytes) := step_empty p compile m (.endWith []) headers h
        rfl hf
      simp only [HeaderCarried, ne_eq, not_true_eq_false, false_and, iff_false]
      rintro ⟨t, t₀, ht, ht₀, heq⟩
      rw [hstep] at ht ht₀
      obtain rfl := Option.some.inj (ht.symm.trans ht₀)
      exact hne (List.append_left_eq_self.mp heq.symm)
    | cons b bufs =>
      subst hch
      have hstep (compile : Headers → Bytes) := step_unsent p compile m (.endWith (b :: bufs))
        true headers h hf (by simp [OutgoingCall.chunks])
      simp only [forall_const, OutgoingCall.chunks, OutgoingCall.last, hm] at hstep
      rw [hstep, hstep]
      by_cases hfill : ∀ c ∈ b :: bufs, c.Filled
      · simp only [if_pos hfill, HeaderCarried]
        exact iff_of_true ⟨_, _, rfl, rfl, by simp⟩ ⟨by simp, hfill⟩
      · simp only [HeaderCarried, hfill, and_false, iff_false]
        rintro ⟨t, t₀, ht, -⟩
        cases ht
  | cons call calls ih =>
    cases call with
    | sendHeaders =>
      simp only [HeaderCarried, iff_false]
      intro hfirst
      have hstep := step_empty p compileHeaders m (.body .sendHeaders) headers h rfl hf
      obtain ⟨s, hs, hsent, -⟩ := hfirst.sent [.sendHeaders] calls rfl (by simp)
      change (m.step p compileHeaders (.body .sendHeaders)).bind some = some s at hs
      rw [hstep, Option.bind_some] at hs
      obtain rfl := Option.some.inj hs
      exact Bool.false_ne_true (h.symm.trans hsent)
    | write bufs =>
      cases bufs with
      | nil =>
        have hstep (compile : Headers → Bytes) := step_empty p compile m (.body (.write []))
          headers h rfl hf
        rw [headersFirst_skip p compileHeaders m _ _ calls chunks _ (by simp)
          (hstep compileHeaders) (hstep fun _ => [])]
        exact ih _ h (by simp [hm, framed, OutgoingCall.last])
          (chooseFraming_chunked p _ headers _ _ hf _ _)
      | cons b bufs =>
        have hstep (compile : Headers → Bytes) := step_unsent p compile m
          (.body (.write (b :: bufs))) true headers h hf
          (by simp [OutgoingCall.chunks, BodyCall.chunks])
        simp only [forall_const, OutgoingCall.chunks, BodyCall.chunks, OutgoingCall.last, hm,
          List.nil_append, Bool.not_false] at hstep
        by_cases hfill : ∀ c ∈ b :: bufs, c.Filled
        · simp only [if_pos hfill] at hstep
          rw [headersFirst_carried p compileHeaders m _ calls chunks _ _ true
            (hstep compileHeaders) (hstep fun _ => [])]
          exact (and_iff_right hfill).symm
        · simp only [if_neg hfill] at hstep
          simp only [HeaderCarried, hfill, false_and, iff_false]
          intro hfirst
          obtain ⟨t, t₀, ht, -, -⟩ := hfirst.once
          change (m.step p compileHeaders (.body (.write (b :: bufs)))).bind _ = some t at ht
          rw [hstep] at ht
          cases ht

end

/-- The header block comes first, and once, unless the message is chunked and no call carries it. -/
theorem header_block_first (p : Platform) (compileHeaders : Headers → Bytes)
    (hne : ∀ headers, compileHeaders headers ≠ []) (headers : Headers) (isChunked : Bool)
    (calls : List (BodyCall p.bits)) (chunks : List (Chunk p.bits)) :
    HeadersFirst p compileHeaders (.init headers isChunked) calls chunks
        (compileHeaders (messageFraming p headers calls chunks).1) ↔
      (InChunkedMode headers calls chunks → HeaderCarried calls chunks) := by
  obtain ⟨chunked, hf, hmode⟩ := messageFraming_spec p headers calls chunks
  rw [← hmode]
  cases chunked with
  | false =>
    refine iff_of_true ?_ (by simp)
    exact headersFirst_plain p compileHeaders (.init headers isChunked) calls chunks _ rfl rfl hf
  | true =>
    rw [headersFirst_chunked p compileHeaders calls chunks (.init headers isChunked) _ (hne _)
      rfl rfl hf]
    simp

theorem header_block_first_get :
    HeadersFirst glibc (requestHeaders (some (ascii "GET")) (some (ascii "/")) none fun _ => [])
      (.init noHeaders true) [.write []] [⟨some (ascii "a"), by decide⟩]
      (ascii "GET / HTTP/1.1\r\nhost: \r\n\r\n") := by
  have h := header_block_first glibc (requestHeaders (some (ascii "GET")) (some (ascii "/")) none
    fun _ => []) (requestHeaders_ne _ _ _ _) noHeaders true [.write []] [⟨some (ascii "a"), by decide⟩]
  apply h.mpr
  intro _
  exact ⟨by simp, by decide⟩

/-- A chunked message: `send_headers` sends nothing, and `end` without a body only the last
chunk. -/
theorem send_headers_hands_over_nothing :
    ¬HeadersFirst glibc (requestHeaders (some (ascii "GET")) (some (ascii "/")) none fun _ => [])
      (.init noHeaders true) [.sendHeaders] []
      (requestHeaders (some (ascii "GET")) (some (ascii "/")) none (fun _ => [])
        (messageFraming glibc noHeaders [.sendHeaders] []).1) := by
  rw [headersFirst_chunked glibc _ _ _ (.init noHeaders true) _ (requestHeaders_ne _ _ _ _ _) rfl rfl
    rfl]
  exact fun h => h

end Libnodecc.Http
