import Libnodecc.Http.HeaderLines
import Libnodecc.Http.ChunkedBody

namespace Libnodecc.Http

open Util Chunked

def headerValue (headers : Headers) (key : Bytes) : Bytes := ((headers key).getD none).bytes

/-- Header names are the same in upper and lower case; `name` is in lower case. -/
def Spells (key name : Bytes) : Prop := key.map toLower = name

instance (key name : Bytes) : Decidable (Spells key name) :=
  inferInstanceAs (Decidable (key.map toLower = name))

def isOws (ch : UInt8) : Bool := ch == 0x20 || ch == 0x09

def trim (bs : Bytes) : Bytes := ((bs.dropWhile isOws).reverse.dropWhile isOws).reverse

/-- The entries of a `transfer-encoding` value: separated by commas, empty ones ignored. -/
def codings (value : Bytes) : List Bytes :=
  ((value.splitOn 0x2c).map fun entry => (trim entry).map toLower).filter fun entry => entry ≠ []

/-- The last transfer coding is chunked. -/
def EndsChunked (cs : List Bytes) : Prop := cs.getLast? = some (ascii "chunked")

instance (cs : List Bytes) : Decidable (EndsChunked cs) :=
  inferInstanceAs (Decidable (cs.getLast? = some (ascii "chunked")))

/-- The transfer codings of a header block, whose lines are one list. -/
def blockCodings (keys : List Bytes) (headers : Headers) : List Bytes :=
  (keys.filter fun key => Spells key (ascii "transfer-encoding")).flatMap fun key =>
    codings (headerValue headers key)

/-- The headers of a caller do not contradict each other: no two of them spell `transfer-encoding`,
and the one that does ends in chunked, or else there is a `content-length`. -/
structure Consistent (headers : Headers) : Prop where
  unique : ∀ key other, Spells key (ascii "transfer-encoding") →
    Spells other (ascii "transfer-encoding") → (headers key).isSome → (headers other).isSome →
      key = other
  either : ∀ key, Spells key (ascii "transfer-encoding") → (headers key).isSome →
    (EndsChunked (codings (headerValue headers key)) ↔
      ∀ other, Spells other (ascii "content-length") → headers other = none)

/-- A message on the wire: the header block, and behind it what the same calls hand over where the
block compiles to nothing. -/
structure OnWire (p : Platform) (compileHeaders : Headers → Bytes) (m : OutgoingMessage)
    (calls : List (BodyCall p.bits)) (chunks : List (Chunk p.bits)) (block coded : Bytes) : Prop where
  sent : ∃ t, run (OutgoingMessage.step p compileHeaders) m (message calls chunks) = some t ∧
    t.handedOver = block ++ coded
  behind : ∃ t, run (OutgoingMessage.step p fun _ => []) m (message calls chunks) = some t ∧
    t.handedOver = coded

/-- What stands behind the header block `headers'` is read as the body: as a chunked coding if the
last transfer coding is chunked, and otherwise by a content-length, on whose value all lines agree.
One that the caller did not set counts the bytes of the body. -/
structure Framed (headers headers' : Headers) (keys : List Bytes) (coded body : Bytes) : Prop where
  chunked : EndsChunked (blockCodings keys headers') →
    run Decoder.step (.start []) coded = some ⟨.done, body⟩
  plain : ¬EndsChunked (blockCodings keys headers') → coded = body
  length : ¬EndsChunked (blockCodings keys headers') →
    (∃ key ∈ keys, Spells key (ascii "content-length")) ∧
      ∀ key ∈ keys, Spells key (ascii "content-length") →
        Buf.decimal (headerValue headers' key) = some body.length
  added : headers (ascii "content-length") = none →
    ∀ buf, headers' (ascii "content-length") = some buf →
      Buf.decimal (Buf.bytes buf) = some body.length

/-- The keys behind the `transfer-encoding` that `http_write` looks up. -/
def behind (keys : List Bytes) : List Bytes :=
  (keys.dropWhile fun key => key ≠ ascii "transfer-encoding").tail

/-- The content-lengths of the caller, however they are spelled, count the body. -/
def CountsBody (headers : Headers) (n : Nat) : Prop :=
  ∀ key, Spells key (ascii "content-length") → (headers key).isSome →
    Buf.decimal (headerValue headers key) = some n

/-- Where the exact lookups and the number of digits do for the framing. -/
def LookupsDo (p : Platform) (headers : Headers) (keys : List Bytes)
    (calls : List (BodyCall p.bits)) (chunks : List (Chunk p.bits)) : Prop :=
  let n := (contents calls ++ payload chunks).length
  match headers (ascii "content-length") with
  | some _ => CountsBody headers n
  | none =>
    match headers (ascii "transfer-encoding") with
    | some value =>
      if EndsChunked (codings (Buf.bytes value)) then
        value = some (ascii "chunked") ∧ AllFilled calls chunks
      else CountsBody headers n
    | none =>
      if calls.isEmpty ∧ n < 2^p.bits then
        (∀ key, Spells key (ascii "transfer-encoding") →
          ¬EndsChunked (codings (headerValue headers key))) ∧
          CountsBody headers n ∧ (n < 10^10 ∨ p.build.sizeTMax = 2^64 - 1)
      else
        (∀ key ∈ behind keys, Spells key (ascii "transfer-encoding") →
          codings (headerValue headers key) = [] ∨
            EndsChunked (codings (headerValue headers key))) ∧
          AllFilled calls chunks

section
variable {headers headers' : Headers} {keys : List Bytes}

theorem payload_length {bits : Nat} (bufs : List (Chunk bits)) :
    (payload bufs).length = (bufs.map fun b => b.buf.size).sum := by
  rw [payload, List.length_flatMap]
  rfl

/-- Of keys that are all different, those that have to be equal are one or none. -/
theorem filter_unique (q : Bytes → Bool) (hnodup : keys.Nodup)
    (hunique : ∀ key ∈ keys, ∀ other ∈ keys, q key → q other → key = other) :
    keys.filter q = [] ∨ ∃ key ∈ keys, q key ∧ keys.filter q = [key] := by
  cases hfilter : keys.filter q with
  | nil => exact .inl rfl
  | cons key rest =>
    have hmem (other : Bytes) (hother : other ∈ key :: rest) : other ∈ keys ∧ q other := by
      rw [← hfilter] at hother
      exact List.mem_filter.mp hother
    obtain ⟨hkey, hq⟩ := hmem key List.mem_cons_self
    have hrest : rest = [] := by
      apply List.eq_nil_iff_forall_not_mem.mpr
      intro other hother
      obtain ⟨hin, hqo⟩ := hmem other (List.mem_cons_of_mem key hother)
      have hdistinct := hnodup.filter q
      rw [hfilter] at hdistinct
      rw [hunique other hin key hkey hqo hq] at hother
      exact (List.nodup_cons.mp hdistinct).1 hother
    exact .inr ⟨key, hkey, hq, by rw [hrest]⟩

/-- Where a single header can spell `transfer-encoding`, its codings are those of the block. -/
theorem blockCodings_unique (hkeys : Traverses keys headers)
    (hunique : ∀ key other, Spells key (ascii "transfer-encoding") →
      Spells other (ascii "transfer-encoding") → (headers key).isSome → (headers other).isSome →
        key = other) :
    EndsChunked (blockCodings keys headers) ↔
      ∃ key, Spells key (ascii "transfer-encoding") ∧ (headers key).isSome ∧
        EndsChunked (codings (headerValue headers key)) := by
  have honly := filter_unique (fun key => Spells key (ascii "transfer-encoding")) hkeys.nodup
    fun key hkey other hother hq hqo => hunique key other (of_decide_eq_true hq)
      (of_decide_eq_true hqo) ((hkeys.mem key).mp hkey) ((hkeys.mem other).mp hother)
  unfold blockCodings
  rcases honly with hnil | ⟨key, hkey, hq, hone⟩
  · rw [hnil]
    refine iff_of_false nofun ?_
    rintro ⟨key, hspells, hset, -⟩
    have h : key ∈ keys.filter fun key => Spells key (ascii "transfer-encoding") :=
      List.mem_filter.mpr ⟨(hkeys.mem key).mpr hset, decide_eq_true hspells⟩
    rw [hnil] at h
    cases h
  · rw [hone, List.flatMap_singleton]
    have hset := (hkeys.mem key).mp hkey
    constructor
    · intro h
      exact ⟨key, of_decide_eq_true hq, hset, h⟩
    · rintro ⟨other, hspells, hother, h⟩
      rw [hunique other key hspells (of_decide_eq_true hq) hother hset] at h
      exact h

/-- Lines that are empty or end in chunked leave a list that ends in chunked as it is. -/
theorem endsChunked_append (cs ds : List Bytes) (hcs : EndsChunked cs) :
    EndsChunked (cs ++ ds) ↔ ds = [] ∨ EndsChunked ds := by
  unfold EndsChunked at *
  rw [List.getLast?_append]
  cases hds : ds.getLast? with
  | none =>
    rw [List.getLast?_eq_none_iff.mp hds]
    exact iff_of_true hcs (.inl rfl)
  | some d =>
    have hne : ds ≠ [] := by
      rintro rfl
      cases hds
    simp [hne]

theorem behind_split (front back : List Bytes)
    (hfront : ascii "transfer-encoding" ∉ front) :
    behind (front ++ ascii "transfer-encoding" :: back) = back := by
  unfold behind
  rw [List.dropWhile_append_of_pos, List.dropWhile_cons_of_neg]
  · rfl
  · simp
  · intro key hkey
    have hne : key ≠ ascii "transfer-encoding" := fun heq => hfront (heq ▸ hkey)
    simpa using hne

/-- The `transfer-encoding` that the library adds is the last coding unless a line behind it has
others. -/
theorem blockCodings_added (hc : Consistent headers)
    (hadd : headers' = Function.update headers (ascii "transfer-encoding")
      (some (some (ascii "chunked")))) (hkeys : Traverses keys headers') :
    EndsChunked (blockCodings keys headers') ↔
      ∀ key ∈ behind keys, Spells key (ascii "transfer-encoding") →
        codings (headerValue headers key) = [] ∨
          EndsChunked (codings (headerValue headers key)) := by
  have hte : headers' (ascii "transfer-encoding") = some (some (ascii "chunked")) := by
    rw [hadd, Function.update_self]
  have hin : ascii "transfer-encoding" ∈ keys := by
    rw [hkeys.mem, hte]
    rfl
  obtain ⟨front, back, rfl⟩ := List.append_of_mem hin
  have hnodup := List.nodup_append.mp hkeys.nodup
  have hfront : ascii "transfer-encoding" ∉ front := fun h =>
    hnodup.2.2 _ h _ List.mem_cons_self rfl
  have hback : ascii "transfer-encoding" ∉ back := (List.nodup_cons.mp hnodup.2.1).1
  have hother (key : Bytes) (hkey : key ∈ back) : headers' key = headers key := by
    rw [hadd, Function.update_of_ne]
    rintro rfl
    exact hback hkey
  have hset (key : Bytes) (hkey : key ∈ back) : (headers key).isSome := by
    rw [← hother key hkey, ← hkeys.mem]
    exact List.mem_append_right _ (List.mem_cons_of_mem _ hkey)
  have hlibrary : codings (headerValue headers' (ascii "transfer-encoding")) = [ascii "chunked"] := by
    rw [headerValue, hte]
    decide
  have hspells : Spells (ascii "transfer-encoding") (ascii "transfer-encoding") := by decide
  -- the lines before the one of the library, its own, and those behind it
  have hblock : blockCodings (front ++ ascii "transfer-encoding" :: back) headers' =
      (blockCodings front headers' ++ [ascii "chunked"]) ++ blockCodings back headers' := by
    simp only [blockCodings, List.filter_append, List.filter_cons, hspells, decide_true, if_true,
      List.flatMap_append, List.flatMap_cons, hlibrary, List.append_assoc]
  have hends : EndsChunked (blockCodings front headers' ++ [ascii "chunked"]) := by
    simp [EndsChunked]
  rw [behind_split front back hfront, hblock, endsChunked_append _ _ hends]
  have honly := filter_unique (fun key => Spells key (ascii "transfer-encoding"))
    (List.nodup_cons.mp hnodup.2.1).2
    fun key hkey other hother hq hqo => hc.unique key other (of_decide_eq_true hq)
      (of_decide_eq_true hqo) (hset key hkey) (hset other hother)
  rcases honly with hnil | ⟨key, hkey, hq, hone⟩
  · refine iff_of_true (.inl ?_) ?_
    · rw [blockCodings, hnil]
      rfl
    · intro key hkey hkeySpells
      have h : key ∈ back.filter fun key => Spells key (ascii "transfer-encoding") :=
        List.mem_filter.mpr ⟨hkey, decide_eq_true hkeySpells⟩
      rw [hnil] at h
      cases h
  · have hback : blockCodings back headers' = codings (headerValue headers key) := by
      rw [blockCodings, hone, List.flatMap_singleton, headerValue, hother key hkey]
      rfl
    rw [hback]
    constructor
    · intro h other hotherIn hotherSpells
      rw [hc.unique other key hotherSpells (of_decide_eq_true hq) (hset other hotherIn)
        (hset key hkey)]
      exact h
    · intro h
      exact h key hkey (of_decide_eq_true hq)

/-- What `http_write` settles on, read off the caller's headers. -/
theorem chooseFraming_cases (p : Platform) (headers : Headers) (bufs : List (Chunk p.bits))
    (last : Bool) :
    (∃ value, headers (ascii "content-length") = some value ∧
      chooseFraming p headers bufs last = some (headers, false)) ∨
    (∃ value, headers (ascii "content-length") = none ∧
      headers (ascii "transfer-encoding") = some value ∧
      chooseFraming p headers bufs last = some (headers, value == some (ascii "chunked"))) ∨
    (headers (ascii "content-length") = none ∧ headers (ascii "transfer-encoding") = none ∧
      (last = true ∧ (payload bufs).length < 2^p.bits) ∧
      ∃ bs, chooseFraming p headers bufs last =
          some (Function.update headers (ascii "content-length") (some (some bs)), false) ∧
        (Buf.decimal bs = some (payload bufs).length ↔
          (payload bufs).length < 10^10 ∨ p.build.sizeTMax = 2^64 - 1)) ∨
    (headers (ascii "content-length") = none ∧ headers (ascii "transfer-encoding") = none ∧
      ¬ (last = true ∧ (payload bufs).length < 2^p.bits) ∧
      chooseFraming p headers bufs last = some (Function.update headers
        (ascii "transfer-encoding") (some (some (ascii "chunked"))), true)) := by
  unfold chooseFraming
  cases hcl : headers (ascii "content-length") with
  | some value => exact .inl ⟨value, rfl, rfl⟩
  | none =>
    cases hte : headers (ascii "transfer-encoding") with
    | some value => exact .inr (.inl ⟨value, rfl, rfl, rfl⟩)
    | none =>
      have hsum : contentLength bufs 0 =
          if (payload bufs).length < 2^p.bits then some (payload bufs).length else none := by
        rw [contentLength_eq bufs 0 (Nat.pow_pos (by decide)), Nat.zero_add, payload_length]
      by_cases hadd : last = true ∧ (payload bufs).length < 2^p.bits
      · obtain ⟨rfl, hfits⟩ := hadd
        have hlt : (payload bufs).length < 2^64 :=
          lt_of_lt_of_le hfits (Nat.pow_le_pow_right (by decide) p.bits_le)
        obtain ⟨bs, hbs, hread⟩ := Buf.appendNumber_decimal p none (payload bufs).length
        refine .inr (.inr (.inl ⟨rfl, rfl, ⟨rfl, hfits⟩, bs, ?_, hread hlt⟩))
        simp [hsum, hfits, hbs]
      · refine .inr (.inr (.inr ⟨rfl, rfl, hadd, ?_⟩))
        have hnone : (if last = true then contentLength bufs 0 else none) = none := by
          cases last with
          | false => rfl
          | true => rw [if_pos rfl, hsum, if_neg (by tauto)]
        simp only [hnone]
        rfl

end

section
variable {p : Platform} {compileHeaders : Headers → Bytes} {headers headers' : Headers}
  {isChunked : Bool} {calls : List (BodyCall p.bits)} {chunks : List (Chunk p.bits)}
  {keys : List Bytes} {block coded : Bytes}

/-- Without chunks, what the calls hand over is the body. -/
theorem run_plain (compileHeaders : Headers → Bytes) (m : OutgoingMessage)
    (calls : List (BodyCall p.bits)) (chunks : List (Chunk p.bits)) (headers : Headers)
    (h : m.headersSent = false) (hm : m.handedOver = [])
    (hf : chooseFraming p m.headers (firstCall calls chunks).chunks
      (firstCall calls chunks).last = some (headers, false)) :
    ∃ t, run (OutgoingMessage.step p compileHeaders) m (message calls chunks) = some t ∧
      t.handedOver = compileHeaders headers ++ (contents calls ++ payload chunks) := by
  have hstep := step_unsent p compileHeaders m (firstCall calls chunks) false headers h hf (by simp)
  simp only [hm, Bool.false_eq_true, false_implies, if_true, List.nil_append] at hstep
  cases calls with
  | nil =>
    refine ⟨⟨noHeaders, false, false, compileHeaders headers ++ payload chunks⟩, ?_, rfl⟩
    change (m.step p compileHeaders (.endWith chunks)).bind some = _
    rw [show m.step p compileHeaders (.endWith chunks) = _ from hstep]
    rfl
  | cons call calls =>
    have hrun : run (OutgoingMessage.step p compileHeaders) m (message (call :: calls) chunks) =
        run (OutgoingMessage.step p compileHeaders)
          ⟨noHeaders, true, false, compileHeaders headers ++ payload call.chunks⟩
          (message calls chunks) := by
      change (m.step p compileHeaders (.body call)).bind _ = _
      rw [show m.step p compileHeaders (.body call) = _ from hstep]
      rfl
    rw [hrun, run_sent_message p compileHeaders calls chunks _ rfl, if_pos (by simp [TailsFilled])]
    exact ⟨_, rfl, by simp [contents, framed]⟩

theorem OnWire.coded_chunked
    (h : OnWire p compileHeaders (.init headers isChunked) calls chunks block coded)
    (hmode : InChunkedMode headers calls chunks) :
    TailsFilled true calls chunks ∧ coded = codedBody calls chunks := by
  obtain ⟨t, ht, hcoded⟩ := h.behind
  obtain ⟨htails, hout⟩ := (chunking_init p headers isChunked calls chunks hmode []).run_message
    p (fun _ => []) _ calls chunks [] _ t ht
  rw [hcoded] at hout
  exact ⟨htails, hout.elim id id⟩

theorem OnWire.coded_plain
    (h : OnWire p compileHeaders (.init headers isChunked) calls chunks block coded)
    (hmode : ¬InChunkedMode headers calls chunks) : coded = contents calls ++ payload chunks := by
  obtain ⟨t, ht, hcoded⟩ := h.behind
  obtain ⟨chunked, hf, hchunked⟩ := messageFraming_spec p headers calls chunks
  obtain rfl : chunked = false := by simpa using hchunked.not.mpr hmode
  obtain ⟨t', ht', hbody⟩ := run_plain (fun _ => []) (.init headers isChunked) calls chunks _ rfl
    rfl hf
  obtain rfl := Option.some.inj (ht.symm.trans ht')
  rw [← hcoded, hbody, List.nil_append]

/-- Unchunked bytes are the body, which is not its own coding. -/
theorem framed_plain (body : Bytes) : Framed headers headers' keys body body ↔
    ¬EndsChunked (blockCodings keys headers') ∧
      (∃ key ∈ keys, Spells key (ascii "content-length")) ∧
      (∀ key ∈ keys, Spells key (ascii "content-length") →
        Buf.decimal (headerValue headers' key) = some body.length) ∧
      (headers (ascii "content-length") = none → ∀ buf, headers' (ascii "content-length") = some buf →
        Buf.decimal (Buf.bytes buf) = some body.length) := by
  constructor
  · intro h
    have hnot : ¬EndsChunked (blockCodings keys headers') := by
      intro hends
      exact absurd (Decoder.body_length_lt _ _ (h.chunked hends)) (lt_irrefl _)
    exact ⟨hnot, (h.length hnot).1, (h.length hnot).2, h.added⟩
  · rintro ⟨hnot, hsome, hall, hadded⟩
    exact ⟨fun hends => absurd hends hnot, fun _ => rfl, fun _ => ⟨hsome, hall⟩, hadded⟩

theorem payload_le (bufs : List (Chunk p.bits)) (last : Bool) :
    (payload bufs).length ≤ (framed true bufs last).length := by
  have hchunks : (payload bufs).length ≤ (bufs.flatMap asChunk).length := by
    induction bufs with
    | nil => exact Nat.le_refl _
    | cons b bufs ih =>
      simp only [payload, List.flatMap_cons, List.length_append, asChunk] at ih ⊢
      omega
  rw [framed_eq, List.length_append]
  omega

/-- The coding of a body is longer than the body, be its buffers filled or not. -/
theorem codedBody_length (calls : List (BodyCall p.bits)) (chunks : List (Chunk p.bits)) :
    (contents calls ++ payload chunks).length < (codedBody calls chunks).length := by
  have hcalls : (contents calls).length ≤
      (calls.flatMap fun c : BodyCall p.bits => framed true c.chunks false).length := by
    induction calls with
    | nil => exact Nat.le_refl _
    | cons call calls ih =>
      have hcall := payload_le call.chunks false
      simp only [contents, List.flatMap_cons, List.length_append] at ih ⊢
      omega
  have hlast : (payload chunks).length < (framed true chunks true).length := by
    have hchunks := payload_le chunks false
    simp only [framed_eq, List.length_append, Bool.false_eq_true, if_false, if_true,
      List.length_nil] at hchunks ⊢
    have hfive : lastChunk.length = 5 := by decide
    omega
  simp only [codedBody, List.length_append]
  omega

theorem framed_coded (htails : TailsFilled true calls chunks) :
    Framed headers headers' keys (codedBody calls chunks) (contents calls ++ payload chunks) ↔
      EndsChunked (blockCodings keys headers') ∧ AllFilled calls chunks ∧
      (headers (ascii "content-length") = none → ∀ buf, headers' (ascii "content-length") = some buf →
        Buf.decimal (Buf.bytes buf) = some (contents calls ++ payload chunks).length) := by
  constructor
  · intro h
    have hends : EndsChunked (blockCodings keys headers') := by
      by_contra hnot
      have hlonger := codedBody_length calls chunks
      rw [h.plain hnot] at hlonger
      exact lt_irrefl _ hlonger
    exact ⟨hends, allFilled_of_decoded calls chunks [] _ htails (h.chunked hends), h.added⟩
  · rintro ⟨hends, hfilled, hadded⟩
    exact ⟨fun _ => decode_message calls chunks hfilled, fun hnot => absurd hends hnot,
      fun hnot => absurd hends hnot, hadded⟩

theorem counted_iff (hkeys : Traverses keys headers) (n : Nat) :
    (∀ key ∈ keys, Spells key (ascii "content-length") →
      Buf.decimal (headerValue headers key) = some n) ↔ CountsBody headers n := by
  constructor
  · intro h key hspells hset
    exact h key ((hkeys.mem key).mpr hset) hspells
  · intro h key hkey hspells
    exact h key hspells ((hkeys.mem key).mp hkey)

/-- A `content-length` in the spelling that is looked up. -/
theorem framed_length (hc : Consistent headers) (value : Buf)
    (hcl : headers (ascii "content-length") = some value) (hkeys : Traverses keys headers)
    (body : Bytes) : Framed headers headers keys body body ↔ CountsBody headers body.length := by
  rw [framed_plain, counted_iff hkeys]
  constructor
  · rintro ⟨-, -, hcounts, -⟩
    exact hcounts
  · intro hcounts
    refine ⟨?_, ⟨ascii "content-length", ?_, by decide⟩, hcounts, ?_⟩
    · rw [blockCodings_unique hkeys hc.unique]
      rintro ⟨key, hspells, hset, hends⟩
      have h := (hc.either key hspells hset).mp hends (ascii "content-length") (by decide)
      rw [hcl] at h
      cases h
    · rw [hkeys.mem, hcl]
      rfl
    · intro hnone
      rw [hcl] at hnone
      cases hnone

/-- The codings of a block in which the caller's `transfer-encoding` is the only one. -/
theorem blockCodings_encoding (hc : Consistent headers) (value : Buf)
    (hte : headers (ascii "transfer-encoding") = some value) (hkeys : Traverses keys headers) :
    EndsChunked (blockCodings keys headers) ↔ EndsChunked (codings value.bytes) := by
  have hspells : Spells (ascii "transfer-encoding") (ascii "transfer-encoding") := by decide
  have hset : (headers (ascii "transfer-encoding")).isSome := by
    rw [hte]
    rfl
  have hvalue : headerValue headers (ascii "transfer-encoding") = value.bytes := by
    rw [headerValue, hte]
    rfl
  rw [blockCodings_unique hkeys hc.unique, ← hvalue]
  constructor
  · rintro ⟨key, hkey, hkeySet, hends⟩
    rw [← hc.unique key _ hkey hspells hkeySet hset]
    exact hends
  · intro hends
    exact ⟨_, hspells, hset, hends⟩

/-- A `transfer-encoding` that the caller set to `chunked`. -/
theorem framed_asked (hc : Consistent headers) (hcl : headers (ascii "content-length") = none)
    (hte : headers (ascii "transfer-encoding") = some (some (ascii "chunked")))
    (hkeys : Traverses keys headers) (htails : TailsFilled true calls chunks) :
    Framed headers headers keys (codedBody calls chunks) (contents calls ++ payload chunks) ↔
      AllFilled calls chunks := by
  have hends : EndsChunked (codings (Buf.bytes (some (ascii "chunked")))) := by decide
  rw [framed_coded htails, blockCodings_encoding hc _ hte hkeys]
  constructor
  · rintro ⟨-, hfilled, -⟩
    exact hfilled
  · intro hfilled
    refine ⟨hends, hfilled, ?_⟩
    intro _ buf hbuf
    rw [hcl] at hbuf
    cases hbuf

/-- Codings that do not end in chunked come with a content-length. -/
theorem framed_encoding (hc : Consistent headers) (value : Buf)
    (hcl : headers (ascii "content-length") = none)
    (hte : headers (ascii "transfer-encoding") = some value) (hkeys : Traverses keys headers)
    (hends : ¬EndsChunked (codings value.bytes)) (body : Bytes) :
    Framed headers headers keys body body ↔ CountsBody headers body.length := by
  rw [framed_plain, counted_iff hkeys, blockCodings_encoding hc value hte hkeys]
  constructor
  · rintro ⟨-, -, hcounts, -⟩
    exact hcounts
  · intro hcounts
    refine ⟨hends, ?_, hcounts, ?_⟩
    · have hvalue : headerValue headers (ascii "transfer-encoding") = value.bytes := by
        rw [headerValue, hte]
        rfl
      have hlength := (hc.either (ascii "transfer-encoding") (by decide)
        (by rw [hte]; rfl)).not.mp (hvalue ▸ hends)
      push Not at hlength
      obtain ⟨key, hkey, hkeySet⟩ := hlength
      exact ⟨key, (hkeys.mem key).mpr (Option.isSome_iff_ne_none.mpr hkeySet), hkey⟩
    · intro _ buf hbuf
      rw [hcl] at hbuf
      cases hbuf

theorem codings_nil : codings [] = [] := by decide

section
variable {bs : Bytes}
  (hadd : headers' = Function.update headers (ascii "content-length") (some (some bs)))
include hadd

theorem added_ne {key : Bytes} (hkey : key ≠ ascii "content-length") :
    headers' key = headers key := by
  rw [hadd, Function.update_of_ne hkey]

/-- The `content-length` that the library adds leaves the codings of the block alone. -/
theorem blockCodings_length (hc : Consistent headers) (hkeys : Traverses keys headers') :
    EndsChunked (blockCodings keys headers') ↔
      ∃ key, Spells key (ascii "transfer-encoding") ∧
        EndsChunked (codings (headerValue headers key)) := by
  have hother (key : Bytes) (hkey : Spells key (ascii "transfer-encoding")) :
      headers' key = headers key := by
    apply added_ne hadd
    rintro rfl
    revert hkey
    decide
  rw [blockCodings_unique hkeys fun key other hkey hkeyOther hset hsetOther =>
    hc.unique key other hkey hkeyOther (hother key hkey ▸ hset) (hother other hkeyOther ▸ hsetOther)]
  constructor
  · rintro ⟨key, hkey, -, hends⟩
    rw [headerValue, hother key hkey] at hends
    exact ⟨key, hkey, hends⟩
  · rintro ⟨key, hkey, hends⟩
    have hset : (headers key).isSome := by
      cases hnone : headers key with
      | some value => rfl
      | none =>
        rw [headerValue, hnone, show codings (Option.getD none none : Buf).bytes = []
          from codings_nil] at hends
        cases hends
    exact ⟨key, hkey, by rwa [hother key hkey], by rwa [headerValue, hother key hkey]⟩

theorem countsBody_length (hcl : headers (ascii "content-length") = none) (n : Nat) :
    CountsBody headers' n ↔ CountsBody headers n ∧ Buf.decimal bs = some n := by
  have hadded : headers' (ascii "content-length") = some (some bs) := by
    rw [hadd, Function.update_self]
  constructor
  · intro h
    refine ⟨?_, ?_⟩
    · intro key hspells hset
      have hne : key ≠ ascii "content-length" := by
        rintro rfl
        rw [hcl] at hset
        cases hset
      have hkey := h key hspells (by rwa [added_ne hadd hne])
      rwa [headerValue, added_ne hadd hne] at hkey
    · have hkey := h (ascii "content-length") (by decide) (by rw [hadded]; rfl)
      rwa [headerValue, hadded] at hkey
  · rintro ⟨hcounted, hread⟩ key hspells hset
    by_cases hne : key = ascii "content-length"
    · rw [hne, headerValue, hadded]
      exact hread
    · rw [headerValue, added_ne hadd hne]
      exact hcounted key hspells (by rwa [added_ne hadd hne] at hset)

/-- A `content-length` that the library adds. -/
theorem framed_added (hc : Consistent headers) (hcl : headers (ascii "content-length") = none)
    (hkeys : Traverses keys headers') (body : Bytes) :
    Framed headers headers' keys body body ↔
      (∀ key, Spells key (ascii "transfer-encoding") →
        ¬EndsChunked (codings (headerValue headers key))) ∧
        CountsBody headers body.length ∧ Buf.decimal bs = some body.length := by
  have hadded : headers' (ascii "content-length") = some (some bs) := by
    rw [hadd, Function.update_self]
  rw [framed_plain, counted_iff hkeys, countsBody_length hadd hcl, blockCodings_length hadd hc hkeys]
  constructor
  · rintro ⟨hnot, -, hcounts, -⟩
    exact ⟨fun key hkey hends => hnot ⟨key, hkey, hends⟩, hcounts⟩
  · rintro ⟨hnot, hcounts⟩
    refine ⟨?_, ⟨ascii "content-length", ?_, by decide⟩, hcounts, ?_⟩
    · rintro ⟨key, hkey, hends⟩
      exact hnot key hkey hends
    · rw [hkeys.mem, hadded]
      rfl
    · intro _ buf hbuf
      rw [hadded] at hbuf
      obtain rfl := Option.some.inj hbuf
      exact hcounts.2

end

/-- A `transfer-encoding` that the library adds. -/
theorem framed_chunked (hc : Consistent headers)
    (hcl : headers (ascii "content-length") = none)
    (hkeys : Traverses keys
      (Function.update headers (ascii "transfer-encoding") (some (some (ascii "chunked")))))
    (htails : TailsFilled true calls chunks) :
    Framed headers
        (Function.update headers (ascii "transfer-encoding") (some (some (ascii "chunked")))) keys
        (codedBody calls chunks) (contents calls ++ payload chunks) ↔
      (∀ key ∈ behind keys, Spells key (ascii "transfer-encoding") →
        codings (headerValue headers key) = [] ∨
          EndsChunked (codings (headerValue headers key))) ∧
        AllFilled calls chunks := by
  rw [framed_coded htails, ← blockCodings_added hc rfl hkeys]
  constructor
  · rintro ⟨hends, hfilled, -⟩
    exact ⟨hends, hfilled⟩
  · rintro ⟨hends, hfilled⟩
    refine ⟨hends, hfilled, ?_⟩
    intro _ buf hbuf
    have hne : ascii "content-length" ≠ ascii "transfer-encoding" := by decide
    rw [Function.update_of_ne hne, hcl] at hbuf
    cases hbuf

theorem messageFraming_eq {chunked : Bool}
    (hf : chooseFraming p headers (firstCall calls chunks).chunks (firstCall calls chunks).last =
      some (headers', chunked)) :
    (messageFraming p headers calls chunks).1 = headers' ∧
      (chunked = true ↔ InChunkedMode headers calls chunks) := by
  obtain ⟨chunked', hf', hmode⟩ := messageFraming_spec p headers calls chunks
  obtain ⟨rfl, rfl⟩ := Prod.mk.inj (Option.some.inj (hf.symm.trans hf'))
  exact ⟨rfl, hmode⟩

theorem adds_length_iff :
    ((firstCall calls chunks).last = true ∧
        (payload (firstCall calls chunks).chunks).length < 2^p.bits) ↔
      calls.isEmpty ∧ (contents calls ++ payload chunks).length < 2^p.bits := by
  cases calls with
  | nil => exact Iff.rfl
  | cons call calls => simp [firstCall, OutgoingCall.last]

/-- The header block of a message with consistent headers and the bytes behind it agree if and only
if the exact lookups do. -/
theorem framing_agrees (hc : Consistent headers)
    (hkeys : Traverses keys (messageFraming p headers calls chunks).1)
    (hwire : OnWire p compileHeaders (.init headers isChunked) calls chunks
      (compileHeaders (messageFraming p headers calls chunks).1) coded) :
    Framed headers (messageFraming p headers calls chunks).1 keys coded
        (contents calls ++ payload chunks) ↔
      LookupsDo p headers keys calls chunks := by
  rcases chooseFraming_cases p headers (firstCall calls chunks).chunks (firstCall calls chunks).last
    with ⟨value, hcl, hf⟩ | ⟨value, hcl, hte, hf⟩ | ⟨hcl, hte, hadd, bs, hf, hread⟩ |
      ⟨hcl, hte, hadd, hf⟩
  · obtain ⟨hheaders, hmode⟩ := messageFraming_eq hf
    rw [hheaders] at hkeys ⊢
    rw [hwire.coded_plain (hmode.not.mp (by simp)), framed_length hc value hcl hkeys, LookupsDo]
    simp only [hcl]
  · obtain ⟨hheaders, hmode⟩ := messageFraming_eq hf
    rw [beq_iff_eq] at hmode
    rw [hheaders] at hkeys ⊢
    rw [LookupsDo]
    simp only [hcl, hte]
    by_cases hvalue : value = some (ascii "chunked")
    · obtain ⟨htails, hcoded⟩ := hwire.coded_chunked (hmode.mp hvalue)
      have hends : EndsChunked (codings value.bytes) := by
        rw [hvalue]
        decide
      rw [hcoded, framed_asked hc hcl (by rw [hte, hvalue]) hkeys htails, if_pos hends]
      exact ⟨fun hfilled => ⟨hvalue, hfilled⟩, fun h => h.2⟩
    · rw [hwire.coded_plain (hmode.not.mp hvalue)]
      split_ifs with hends
      · refine iff_of_false ?_ fun h => hvalue h.1
        rw [framed_plain, blockCodings_encoding hc value hte hkeys]
        exact fun h => h.1 hends
      · exact framed_encoding hc value hcl hte hkeys hends _
  · obtain ⟨hheaders, hmode⟩ := messageFraming_eq hf
    have hcoded := hwire.coded_plain (hmode.not.mp (by simp))
    rw [hheaders] at hkeys ⊢
    have hempty := adds_length_iff.mp hadd
    obtain rfl : calls = [] := List.isEmpty_iff.mp hempty.1
    rw [hcoded, framed_added rfl hc hcl hkeys, LookupsDo]
    simp only [hcl, hte, if_pos hempty]
    exact and_congr_right fun _ => and_congr_right fun _ => hread
  · obtain ⟨hheaders, hmode⟩ := messageFraming_eq hf
    obtain ⟨htails, hcoded⟩ := hwire.coded_chunked (hmode.mp rfl)
    rw [hheaders] at hkeys ⊢
    rw [adds_length_iff] at hadd
    rw [hcoded, framed_chunked hc hcl hkeys htails, LookupsDo]
    simp only [hcl, hte, if_neg hadd]

end

/-- The headers of a caller who sets nothing but `transfer-encoding`. -/
def encodingOnly (value : Buf) : Headers := setHeaders [(ascii "transfer-encoding", value)]

theorem encodingOnly_apply (value : Buf) (key : Bytes) : encodingOnly value key =
    if ascii "transfer-encoding" = key then some value else none := by
  rw [encodingOnly, setHeaders_apply, firstSet]
  by_cases hkey : ascii "transfer-encoding" = key
  · simp [hkey]
  · simp [hkey]

theorem encodingOnly_consistent (value : Buf) (hends : EndsChunked (codings value.bytes)) :
    Consistent (encodingOnly value) := by
  have hkey (key : Bytes) (hset : (encodingOnly value key).isSome) :
      ascii "transfer-encoding" = key := by
    rw [encodingOnly_apply] at hset
    by_contra hne
    rw [if_neg hne] at hset
    cases hset
  constructor
  · intro key other _ _ hset hsetOther
    rw [← hkey key hset, ← hkey other hsetOther]
  · intro key _ hset
    rw [← hkey key hset, headerValue, encodingOnly_apply, if_pos rfl]
    refine iff_of_true hends ?_
    intro other hother
    rw [encodingOnly_apply, if_neg]
    rintro rfl
    revert hother
    decide

theorem encodingOnly_traverses (value : Buf) :
    Traverses [ascii "transfer-encoding"] (encodingOnly value) := by
  refine ⟨by decide, ?_⟩
  intro key
  rw [encodingOnly_apply, List.mem_singleton]
  by_cases hkey : ascii "transfer-encoding" = key
  · simp [hkey]
  · simp [hkey, Ne.symm hkey]

/-- `write("a")` and `end()` of a `GET` with `transfer-encoding: chunked`. -/
theorem framing_agrees_chunked :
    let compileHeaders := requestHeaders (some (ascii "GET")) (some (ascii "/")) (some (ascii "h"))
      fun _ => [ascii "transfer-encoding"]
    let headers := encodingOnly (some (ascii "chunked"))
    let coded := ascii "1\r\na\r\n0\r\n\r\n"
    OnWire glibc compileHeaders (.init headers false) [.write [⟨some (ascii "a"), by decide⟩]] []
        (ascii "GET / HTTP/1.1\r\nhost: h\r\ntransfer-encoding: chunked\r\n\r\n") coded ∧
      Framed headers headers [ascii "transfer-encoding"] coded (ascii "a") := by
  intro compileHeaders headers coded
  have hwire : OnWire glibc compileHeaders (.init headers false)
      [.write [⟨some (ascii "a"), by decide⟩]] []
      (ascii "GET / HTTP/1.1\r\nhost: h\r\ntransfer-encoding: chunked\r\n\r\n") coded :=
    ⟨⟨_, rfl, by decide +kernel⟩, ⟨_, rfl, by decide +kernel⟩⟩
  have h := framing_agrees (encodingOnly_consistent _ (by decide)) (encodingOnly_traverses _) hwire
  refine ⟨hwire, h.mpr ⟨rfl, ?_, by simp⟩⟩
  intro call hcall b hb
  obtain rfl := List.mem_singleton.mp hcall
  obtain rfl := List.mem_singleton.mp hb
  decide

/-- The body of a message that announces `gzip, chunked` is sent without chunks. -/
theorem coding_list_missed :
    let compileHeaders := requestHeaders (some (ascii "GET")) (some (ascii "/")) (some (ascii "h"))
      fun _ => [ascii "transfer-encoding"]
    let headers := encodingOnly (some (ascii "gzip, chunked"))
    let keys := [ascii "transfer-encoding"]
    Consistent headers ∧ Traverses keys headers ∧
      OnWire glibc compileHeaders (.init headers false) [.write [⟨some (ascii "x"), by decide⟩]] []
        (ascii "GET / HTTP/1.1\r\nhost: h\r\ntransfer-encoding: gzip, chunked\r\n\r\n")
        (ascii "x") ∧
      ¬Framed headers headers keys (ascii "x") (ascii "x") := by
  intro compileHeaders headers keys
  refine ⟨encodingOnly_consistent _ (by decide), encodingOnly_traverses _,
    ⟨⟨_, rfl, by decide +kernel⟩, ⟨_, rfl, by decide +kernel⟩⟩, ?_⟩
  intro h
  have hends : EndsChunked (blockCodings keys headers) := by decide
  have hread := h.chunked hends
  revert hread
  decide

end Libnodecc.Http
