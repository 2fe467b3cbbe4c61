import Libnodecc.Http.HeaderBlock
import Libnodecc.Framework.ChunkedCoding

namespace Libnodecc.Http

open Util Chunked

def lastChunk : Bytes := ascii "0\r\n\r\n"

def asChunk {bits : Nat} (b : Chunk bits) : Bytes := sizeLine b ++ b.buf.bytes ++ crlf

def contents {bits : Nat} (calls : List (BodyCall bits)) : Bytes :=
    calls.flatMap fun c => payload c.chunks

/-- The body bytes are those handed over besides the header block, that is where it compiles to
nothing. A decoder reads them back as the buffers; up to the final `end` it stays between two
chunks, and with it the body is over. -/
structure ValidCoding (p : Platform) (compileHeaders : Headers → Bytes) (m : OutgoingMessage)
    (calls : List (BodyCall p.bits)) (chunks : List (Chunk p.bits)) (block : Bytes) : Prop where
  coded : ∃ t t₀, run (OutgoingMessage.step p compileHeaders) m (message calls chunks) = some t ∧
    run (OutgoingMessage.step p fun _ => []) m (message calls chunks) = some t₀ ∧
    (t.handedOver = t₀.handedOver ∨ t.handedOver = block ++ t₀.handedOver) ∧
    run Decoder.step (.start []) t₀.handedOver = some ⟨.done, contents calls ++ payload chunks⟩
  unfinished : ∀ pre post, calls = pre ++ post →
    ∃ s₀, run (OutgoingMessage.step p fun _ => []) m (pre.map .body) = some s₀ ∧
      run Decoder.step (.start []) s₀.handedOver = some (.start (contents pre))

/-- No buffer of the message is empty. -/
def AllFilled {bits : Nat} (calls : List (BodyCall bits)) (chunks : List (Chunk bits)) : Prop :=
  (∀ call ∈ calls, ∀ b ∈ call.chunks, b.Filled) ∧ ∀ b ∈ chunks, b.Filled

theorem hexValue_digitChar (d : Nat) (h : d < 16) : hexValue (Buf.digitChar d) = some d := by
  have hall : ∀ d : Fin 16, hexValue (Buf.digitChar d) = some d.val := by decide
  exact hall ⟨d, h⟩

section
variable {bits : Nat}

theorem framed_eq (bufs : List (Chunk bits)) (last : Bool) :
    framed true bufs last = bufs.flatMap asChunk ++ if last then lastChunk else [] := by
  cases bufs with
  | nil =>
    cases last with
    | false => rfl
    | true => rfl
  | cons b rest =>
    have hchunks : sizeLine b ++ b.buf.bytes ++ laterChunks rest ++ crlf =
        (b :: rest).flatMap asChunk := by
      induction rest generalizing b with
      | nil => simp [laterChunks, asChunk]
      | cons c rest ih =>
        have hlater : laterChunks (c :: rest) =
            crlf ++ (sizeLine c ++ c.buf.bytes ++ laterChunks rest) := by
          simp [laterChunks]
        rw [List.flatMap_cons, ← ih c, hlater, asChunk]
        simp only [List.append_assoc]
    have hclose : closing (b :: rest) last = crlf ++ if last then lastChunk else [] := by
      cases last with
      | false => rfl
      | true => rfl
    rw [framed, if_pos rfl, hclose, ← hchunks]
    simp only [List.append_assoc]

theorem decode_chunk (b : Chunk bits) (h : b.Filled) (body : Bytes) :
    run Decoder.step (.start body) (asChunk b) = some (.start (body ++ b.buf.bytes)) := by
  have hsize : b.buf.bytes.length ≠ 0 := h
  have hdata : b.buf.bytes ≠ [] := by simpa using hsize
  have hread := readDigits_numeral_of_lt 16 (Nat.log 2 b.buf.size / 4 + 1) b.buf.size
    (lt_pow_hex b.buf.size)
  have hrun := Decoder.run_chunk Buf.digitChar hexValue_digitChar (Buf.hexDigits b.buf.size)
    (numeral_lt 16 _ _ (by decide)) b.buf.bytes body hdata hread
  have hline : sizeLine b = (Buf.hexDigits b.buf.size).map Buf.digitChar ++ [13, 10] := by
    rw [sizeLine, if_neg h]
    rfl
  rw [asChunk, hline]
  exact hrun

theorem decode_chunks (bufs : List (Chunk bits)) (h : ∀ b ∈ bufs, b.Filled) (body : Bytes) :
    run Decoder.step (.start body) (bufs.flatMap asChunk) =
      some (.start (body ++ payload bufs)) := by
  induction bufs generalizing body with
  | nil => simp [payload]
  | cons b bufs ih =>
    rw [List.flatMap_cons]
    have hrest := ih (fun c hc => h c (by simp [hc])) (body ++ b.buf.bytes)
    have hbody : body ++ payload (b :: bufs) = body ++ b.buf.bytes ++ payload bufs := by
      simp [payload]
    rw [hbody]
    exact run_append_eq_some _ _ _ _ _ _ (decode_chunk b (h b (by simp)) body) hrest

theorem decode_last (body : Bytes) :
    run Decoder.step (.start body) lastChunk = some ⟨.done, body⟩ := Decoder.run_last body

theorem decode_unfilled (b : Chunk bits) (bufs : List (Chunk bits)) (last : Bool) (h : ¬b.Filled)
    (body : Bytes) : run Decoder.step (.start body) (framed true (b :: bufs) last) = none := by
  have hsize : b.buf.size = 0 := by simpa [Chunk.Filled] using h
  have hline : sizeLine b = 13 :: [10] := by
    rw [sizeLine, if_pos hsize]
    rfl
  rw [framed_eq, List.flatMap_cons, asChunk, hline]
  exact Decoder.run_cr _ _

def codedBody (calls : List (BodyCall bits)) (chunks : List (Chunk bits)) : Bytes :=
  (calls.flatMap fun c : BodyCall bits => framed true c.chunks false) ++ framed true chunks true

theorem decode_calls (calls : List (BodyCall bits))
    (h : ∀ call ∈ calls, ∀ b ∈ call.chunks, b.Filled) (body : Bytes) :
    run Decoder.step (.start body) (calls.flatMap fun c : BodyCall bits => framed true c.chunks false) =
      some (.start (body ++ contents calls)) := by
  induction calls generalizing body with
  | nil => simp [contents]
  | cons call calls ih =>
    have hcall := decode_chunks call.chunks (h call (by simp)) body
    have hrest := ih (fun c hc => h c (by simp [hc])) (body ++ payload call.chunks)
    have hbody : body ++ contents (call :: calls) =
        body ++ payload call.chunks ++ contents calls := by
      simp [contents]
    rw [List.flatMap_cons, hbody, framed_eq]
    simp only [Bool.false_eq_true, if_false, List.append_nil]
    exact run_append_eq_some _ _ _ _ _ _ hcall hrest

theorem decode_message (calls : List (BodyCall bits)) (chunks : List (Chunk bits))
    (h : AllFilled calls chunks) : run Decoder.step (.start []) (codedBody calls chunks) =
      some ⟨.done, contents calls ++ payload chunks⟩ := by
  have hcalls := decode_calls calls h.1 []
  have hend : run Decoder.step (.start (contents calls)) (framed true chunks true) =
      some ⟨.done, contents calls ++ payload chunks⟩ := by
    rw [framed_eq]
    exact run_append_eq_some _ _ _ _ _ _ (decode_chunks chunks h.2 _) (decode_last _)
  exact run_append_eq_some _ _ _ _ _ _ hcalls hend

theorem filled_of_decoded (bufs : List (Chunk bits)) (last : Bool) (body rest : Bytes) (d : Decoder)
    (htail : ∀ b ∈ bufs.tail, b.Filled)
    (h : run Decoder.step (.start body) (framed true bufs last ++ rest) = some d) :
    ∀ b ∈ bufs, b.Filled := by
  cases bufs with
  | nil => simp
  | cons b bufs =>
    by_contra hn
    have hb : ¬b.Filled := by
      intro hb
      exact hn (List.forall_mem_cons.mpr ⟨hb, htail⟩)
    rw [run_append, decode_unfilled b bufs last hb body] at h
    cases h

/-- Induction on the calls: the decoder reaches each of them between two chunks. -/
theorem allFilled_of_decoded (calls : List (BodyCall bits)) (chunks : List (Chunk bits))
    (body : Bytes) (d : Decoder) (htails : TailsFilled true calls chunks)
    (h : run Decoder.step (.start body) (codedBody calls chunks) = some d) :
    AllFilled calls chunks := by
  induction calls generalizing body with
  | nil =>
    refine ⟨by simp, ?_⟩
    refine filled_of_decoded chunks true body [] d (htails rfl).2 ?_
    rw [List.append_nil]
    exact h
  | cons call calls ih =>
    rw [tailsFilled_cons] at htails
    rw [codedBody, List.flatMap_cons, List.append_assoc] at h
    have hcall := filled_of_decoded call.chunks false body _ d (htails.1 rfl) h
    have hdecode := decode_chunks call.chunks hcall body
    rw [run_append, framed_eq] at h
    simp only [Bool.false_eq_true, if_false, List.append_nil, hdecode, Option.bind_some] at h
    obtain ⟨hcalls, hchunks⟩ := ih _ htails.2 h
    exact ⟨List.forall_mem_cons.mpr ⟨hcall, hcalls⟩, hchunks⟩

end

/-- A message in chunked mode before the call `c`, with `body` handed over of it. -/
inductive Chunking (p : Platform) (headers : Headers) (block body : Bytes) (c : OutgoingCall p.bits)
    (m : OutgoingMessage) : Prop
  | sent (h : m.headersSent = true) (hc : m.isChunked = true) (hm : m.handedOver = block ++ body)
  | unsent (h : m.headersSent = false) (hm : m.handedOver = []) (hb : body = [])
    (hf : chooseFraming p m.headers c.chunks c.last = some (headers, true))

section
variable (p : Platform) (compileHeaders : Headers → Bytes)

/-- A call with filled buffers always goes through. -/
theorem Chunking.defined (headers : Headers) (body : Bytes) (c : OutgoingCall p.bits)
    (m : OutgoingMessage)
    (hm : Chunking p headers (compileHeaders headers) body c m) (hc : ∀ b ∈ c.chunks, b.Filled) :
    ∃ m', m.step p compileHeaders c = some m' := by
  cases hm with
  | sent h hch hho =>
    have htail : m.isChunked = true → ∀ b ∈ c.chunks.tail, b.Filled :=
      fun _ b hb => hc b (List.mem_of_mem_tail hb)
    rw [step_sent p compileHeaders m c h, if_pos htail]
    exact ⟨_, rfl⟩
  | unsent h hho hb hf =>
    by_cases hnil : c.chunks = []
    · rw [step_empty p compileHeaders m c headers h hnil hf]
      exact ⟨_, rfl⟩
    · rw [step_unsent p compileHeaders m c true headers h hf fun _ => hnil, if_pos fun _ => hc]
      exact ⟨_, rfl⟩

/-- What one call adds to the body. -/
theorem Chunking.step (headers : Headers) (body : Bytes) (c : OutgoingCall p.bits)
    (m m' : OutgoingMessage) (hm : Chunking p headers (compileHeaders headers) body c m)
    (hs : m.step p compileHeaders c = some m') :
    (∀ b ∈ c.chunks.tail, b.Filled) ∧
      (m'.handedOver = body ++ framed true c.chunks c.last ∨
        m'.handedOver = compileHeaders headers ++ (body ++ framed true c.chunks c.last)) ∧
      (c.last = false → ∀ c', Chunking p headers (compileHeaders headers)
        (body ++ framed true c.chunks c.last) c' m') := by
  cases hm with
  | sent h hch hho =>
    rw [step_sent p compileHeaders m c h] at hs
    by_cases htail : m.isChunked = true → ∀ b ∈ c.chunks.tail, b.Filled
    · rw [if_pos htail] at hs
      cases hs
      have hout : m.handedOver ++ framed m.isChunked c.chunks c.last =
          compileHeaders headers ++ (body ++ framed true c.chunks c.last) := by
        rw [hho, hch, List.append_assoc]
      exact ⟨htail hch, .inr hout, fun hl c' => .sent (by simp [hl]) hch hout⟩
    · rw [if_neg htail] at hs
      cases hs
  | unsent h hho hb hf =>
    by_cases hnil : c.chunks = []
    · rw [step_empty p compileHeaders m c headers h hnil hf] at hs
      cases hs
      refine ⟨by simp [hnil], .inl (by simp [hho, hb, hnil]), ?_⟩
      intro hl c'
      have hempty : framed true ([] : List (Chunk p.bits)) false = [] := rfl
      refine .unsent h (by simp [hho, hl, hempty]) (by simp [hb, hnil, hl, hempty]) ?_
      simp only [hl, Bool.false_eq_true, if_false]
      exact chooseFraming_chunked p _ headers _ _ hf _ _
    · rw [step_unsent p compileHeaders m c true headers h hf fun _ => hnil] at hs
      by_cases hfill : (true = true → ∀ b ∈ c.chunks, b.Filled)
      · rw [if_pos hfill] at hs
        cases hs
        have hout : m.handedOver ++ compileHeaders headers ++ framed true c.chunks c.last =
            compileHeaders headers ++ (body ++ framed true c.chunks c.last) := by
          rw [hho, hb, List.nil_append, List.nil_append]
        refine ⟨fun b hb => hfill rfl b (List.mem_of_mem_tail hb), .inr hout, ?_⟩
        exact fun hl c' => .sent (by simp [hl]) rfl hout
      · rw [if_neg hfill] at hs
        cases hs

/-- The calls before the final `end`. -/
theorem Chunking.run_calls (headers : Headers) (calls : List (BodyCall p.bits))
    (chunks : List (Chunk p.bits))
    (body : Bytes) (m : OutgoingMessage) (hc : ∀ call ∈ calls, ∀ b ∈ call.chunks, b.Filled)
    (hm : Chunking p headers (compileHeaders headers) body (firstCall calls chunks) m) :
    ∃ s, run (OutgoingMessage.step p compileHeaders) m (calls.map .body) = some s ∧
      Chunking p headers (compileHeaders headers)
        (body ++ calls.flatMap fun c : BodyCall p.bits => framed true c.chunks false)
        (.endWith chunks) s := by
  induction calls generalizing m body with
  | nil =>
    refine ⟨m, rfl, ?_⟩
    rw [List.flatMap_nil, List.append_nil]
    exact hm
  | cons call calls ih =>
    obtain ⟨m', hm'⟩ := hm.defined p compileHeaders headers body _ m (hc call (by simp))
    obtain ⟨-, -, hnext⟩ := hm.step p compileHeaders headers body _ m m' hm'
    obtain ⟨s, hs, hfinal⟩ := ih _ m' (fun c h => hc c (by simp [h])) (hnext rfl _)
    refine ⟨s, ?_, ?_⟩
    · change (m.step p compileHeaders (.body call)).bind _ = some s
      rw [show m.step p compileHeaders (.body call) = some m' from hm', Option.bind_some]
      exact hs
    · rw [List.flatMap_cons, ← List.append_assoc]
      exact hfinal

/-- A message that goes through, by induction on its calls. -/
theorem Chunking.run_message (headers : Headers) (calls : List (BodyCall p.bits))
    (chunks : List (Chunk p.bits)) (body : Bytes) (m t : OutgoingMessage)
    (hm : Chunking p headers (compileHeaders headers) body (firstCall calls chunks) m)
    (ht : run (OutgoingMessage.step p compileHeaders) m (message calls chunks) = some t) :
    TailsFilled true calls chunks ∧
      (t.handedOver = body ++ codedBody calls chunks ∨
        t.handedOver = compileHeaders headers ++ (body ++ codedBody calls chunks)) := by
  induction calls generalizing m body with
  | nil =>
    obtain ⟨m', hs, hrun⟩ := Option.bind_eq_some_iff.mp ht
    cases hrun
    obtain ⟨htail, hout, -⟩ := hm.step p compileHeaders headers body _ m t hs
    exact ⟨fun _ => ⟨by simp, htail⟩, hout⟩
  | cons call calls ih =>
    obtain ⟨m', hs, hrun⟩ := Option.bind_eq_some_iff.mp ht
    obtain ⟨htail, -, hnext⟩ := hm.step p compileHeaders headers body _ m m' hs
    obtain ⟨htails, hout⟩ := ih _ m' (hnext rfl _) hrun
    have hbody : body ++ codedBody (call :: calls) chunks =
        body ++ framed true call.chunks false ++ codedBody calls chunks := by
      simp [codedBody]
    rw [tailsFilled_cons, hbody]
    exact ⟨⟨fun _ => htail, htails⟩, hout⟩

theorem chunking_init (headers : Headers) (isChunked : Bool) (calls : List (BodyCall p.bits))
    (chunks : List (Chunk p.bits)) (hmode : InChunkedMode headers calls chunks) (block : Bytes) :
    Chunking p (messageFraming p headers calls chunks).1 block [] (firstCall calls chunks)
      (.init headers isChunked) := by
  obtain ⟨chunked, hf, hchunked⟩ := messageFraming_spec p headers calls chunks
  rw [hchunked.mpr hmode] at hf
  exact .unsent rfl rfl rfl hf

theorem ValidCoding.allFilled (headers : Headers) (isChunked : Bool)
    (calls : List (BodyCall p.bits))
    (chunks : List (Chunk p.bits)) (block : Bytes) (hmode : InChunkedMode headers calls chunks)
    (h : ValidCoding p compileHeaders (.init headers isChunked) calls chunks block) :
    AllFilled calls chunks := by
  obtain ⟨t, t₀, -, ht₀, -, hd⟩ := h.coded
  obtain ⟨htails, hout⟩ := (chunking_init p headers isChunked calls chunks hmode []).run_message
    p (fun _ => []) _ calls chunks [] _ t₀ ht₀
  have hout : t₀.handedOver = codedBody calls chunks := by
    rcases hout with hout | hout
    · exact hout
    · exact hout
  rw [hout] at hd
  exact allFilled_of_decoded calls chunks [] _ htails hd

theorem validCoding_of_allFilled (headers : Headers) (isChunked : Bool)
    (calls : List (BodyCall p.bits))
    (chunks : List (Chunk p.bits)) (hmode : InChunkedMode headers calls chunks)
    (h : AllFilled calls chunks) :
    ValidCoding p compileHeaders (.init headers isChunked) calls chunks
      (compileHeaders (messageFraming p headers calls chunks).1) := by
  have hinit := chunking_init p headers isChunked calls chunks hmode
  -- both runs go through, with and without a header block
  have hdefined (compile : Headers → Bytes) : ∃ t, run (OutgoingMessage.step p compile)
      (.init headers isChunked) (message calls chunks) = some t := by
    obtain ⟨s, hs, hch⟩ := (hinit _).run_calls p compile _ calls chunks [] _ h.1
    obtain ⟨t, ht⟩ := hch.defined p compile _ _ _ s h.2
    refine ⟨t, run_append_eq_some _ _ _ _ _ _ hs ?_⟩
    rw [run_cons, ht]
    rfl
  refine ⟨?_, ?_⟩
  · obtain ⟨t, ht⟩ := hdefined compileHeaders
    obtain ⟨t₀, ht₀⟩ := hdefined fun _ => []
    obtain ⟨-, hout⟩ := (hinit _).run_message p compileHeaders _ calls chunks [] _ t ht
    obtain ⟨-, hout₀⟩ := (hinit []).run_message p (fun _ => []) _ calls chunks [] _ t₀ ht₀
    have hout₀ : t₀.handedOver = codedBody calls chunks := by
      rcases hout₀ with hout₀ | hout₀
      · exact hout₀
      · exact hout₀
    refine ⟨t, t₀, ht, ht₀, ?_, ?_⟩
    · rw [hout₀]
      exact hout
    · rw [hout₀]
      exact decode_message calls chunks h
  · intro pre post hpre
    have hfilled : ∀ call ∈ pre, ∀ b ∈ call.chunks, b.Filled := by
      intro call hcall
      exact h.1 call (hpre ▸ List.mem_append_left post hcall)
    have hfirst : ∃ rest, Chunking p (messageFraming p headers calls chunks).1 [] []
        (firstCall pre rest) (.init headers isChunked) ∨ pre = [] := by
      cases pre with
      | nil => exact ⟨[], .inr rfl⟩
      | cons call pre =>
        subst hpre
        exact ⟨[], .inl (hinit [])⟩
    obtain ⟨rest, hch | rfl⟩ := hfirst
    · obtain ⟨s, hs, hch⟩ := hch.run_calls p (fun _ => []) _ pre rest [] _ hfilled
      refine ⟨s, hs, ?_⟩
      have hout : s.handedOver =
          pre.flatMap fun c : BodyCall p.bits => framed true c.chunks false := by
        cases hch with
        | sent _ _ hm => exact hm
        | unsent _ hm hb _ => exact hm.trans hb.symm
      rw [hout]
      exact decode_calls pre hfilled []
    · exact ⟨_, rfl, rfl⟩

end

/-- In chunked mode the body is a valid coding of the buffers if and only if none is empty. -/
theorem body_is_valid_coding (p : Platform) (compileHeaders : Headers → Bytes) (headers : Headers)
    (isChunked : Bool) (calls : List (BodyCall p.bits)) (chunks : List (Chunk p.bits))
    (hmode : InChunkedMode headers calls chunks) :
    ValidCoding p compileHeaders (.init headers isChunked) calls chunks
        (compileHeaders (messageFraming p headers calls chunks).1) ↔
      AllFilled calls chunks := by
  constructor
  · exact ValidCoding.allFilled p compileHeaders headers isChunked calls chunks _ hmode
  · exact validCoding_of_allFilled p compileHeaders headers isChunked calls chunks hmode

theorem body_is_valid_coding_get :
    ValidCoding glibc (requestHeaders (some (ascii "GET")) (some (ascii "/")) none fun _ => [])
      (.init noHeaders true) [.write [⟨some (ascii "a"), by decide⟩]] []
      (ascii "GET / HTTP/1.1\r\nhost: \r\n\r\n") := by
  have h := body_is_valid_coding glibc (requestHeaders (some (ascii "GET")) (some (ascii "/")) none
    fun _ => []) noHeaders true [.write [⟨some (ascii "a"), by decide⟩]] []
    ⟨rfl, fun h => by cases h⟩
  apply h.mpr
  refine ⟨?_, by simp⟩
  intro call hcall b hb
  obtain rfl := List.mem_singleton.mp hcall
  obtain rfl := List.mem_singleton.mp hb
  decide

/-- An empty buffer on its own, behind the headers: its chunk has no size. -/
theorem empty_buffer_breaks_coding :
    ¬ValidCoding glibc (requestHeaders (some (ascii "GET")) (some (ascii "/")) none fun _ => [])
      (.init noHeaders true)
      [.write [⟨some (ascii "a"), by decide⟩], .write [⟨none, by decide⟩]] []
      (requestHeaders (some (ascii "GET")) (some (ascii "/")) none (fun _ => [])
        (messageFraming glibc noHeaders
          [.write [⟨some (ascii "a"), by decide⟩], .write [⟨none, by decide⟩]] []).1) := by
  intro h
  have hfilled := h.allFilled glibc _ noHeaders true _ _ _ ⟨rfl, fun h => by cases h⟩
  exact hfilled.1 (.write [⟨none, by decide⟩]) (by simp) ⟨none, by decide⟩
    (by simp [BodyCall.chunks]) rfl

end Libnodecc.Http
