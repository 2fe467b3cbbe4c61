import Libnodecc.Http.ChunkedBody
import Libnodecc.Http.WireFormat

namespace Libnodecc.Http

open Util Wire

def contentLengthKey : Bytes := ascii "content-length"

def transferEncodingKey : Bytes := ascii "transfer-encoding"

/-- What is announced of a message: its start line, the headers that were set, and the length of the
body where it is known in advance. -/
structure Announcement where
  opening : Opening
  set : List SetHeader
  length : Option Nat

inductive Transfer where
  | unsent (set : List SetHeader)
  | sending (a : Announcement) (body : Bytes)
  | sent (a : Announcement) (body : Bytes)

namespace Announcement

/-- A body of announced length is not exceeded, and complete with its end; in a chunked body no
buffer is empty. -/
def Permits (a : Announcement) (body : Bytes) (c : OutgoingCall 64) : Prop :=
  match a.length with
  | some n => (body ++ payload c.chunks).length ≤ n ∧
      (c.last = true → (body ++ payload c.chunks).length = n)
  | none => ∀ b ∈ c.chunks, b.Filled

instance (a : Announcement) (body : Bytes) (c : OutgoingCall 64) :
    Decidable (a.Permits body c) := by
  unfold Permits
  split <;> infer_instance

def add (a : Announcement) (body : Bytes) (c : OutgoingCall 64) : Option Transfer :=
  if a.Permits body c then
    some (if c.last then .sent a (body ++ payload c.chunks) else .sending a (body ++ payload c.chunks))
  else none

/-- A status without a body is announced together with an empty one. -/
def announce (a : Announcement) (c : OutgoingCall 64) : Option Transfer :=
  if a.opening.bodiless = true ∧ a.length ≠ some 0 then none else a.add [] c

end Announcement

/-- The lengths that `append_number` writes out. -/
def ExactLength (build : Build) (n : Nat) : Prop := n < 10^10 ∨ build.sizeTMax = 2^64 - 1

instance (build : Build) (n : Nat) : Decidable (ExactLength build n) :=
  inferInstanceAs (Decidable (_ ∨ _))

/-- The message has to be chunked: it was asked for, or the length is not known with the first
call. -/
def NeedsChunks (set : List SetHeader) (c : OutgoingCall 64) : Prop :=
  (setHeaders set transferEncodingKey).isSome ∨ c.last = false ∨ 2^64 ≤ (payload c.chunks).length

instance (set : List SetHeader) (c : OutgoingCall 64) : Decidable (NeedsChunks set c) :=
  inferInstanceAs (Decidable (_ ∨ _))

/-- One more call. `none` is a call that the sender of a message must not make: it contradicts what
was announced, or ends a chunked message whose head nothing carries. -/
def Transfer.call (build : Build) (o : Opening) : Transfer → OutgoingCall 64 → Option Transfer
  | unsent set, c =>
    match setHeaders set contentLengthKey with
    | some value => (Buf.decimal value.bytes).bind fun n => Announcement.announce ⟨o, set, some n⟩ c
    | none =>
      if NeedsChunks set c then
        if c.chunks = [] then
          if c.last then none
          else some (unsent (set ++ [(transferEncodingKey, some (ascii "chunked"))]))
        else Announcement.announce ⟨o, set, none⟩ c
      else if ExactLength build (payload c.chunks).length then
        Announcement.announce ⟨o, set, some (payload c.chunks).length⟩ c
      else none
  | sending a body, c => a.add body c
  | sent a body, _ => some (sent a body)

/-- A header may be set if it can be sent and speaks of the body the way the library reads it. -/
structure Settable (set : List SetHeader) (key : Bytes) (value : Buf) : Prop where
  ok : FieldOk key value.bytes
  coding : Spells key transferEncodingKey → key = transferEncodingKey ∧
    value = some (ascii "chunked") ∧ setHeaders set contentLengthKey = none
  length : Spells key contentLengthKey → key = contentLengthKey ∧
    (Buf.decimal value.bytes).isSome ∧ setHeaders set transferEncodingKey = none

instance (set : List SetHeader) (key : Bytes) (value : Buf) : Decidable (Settable set key value) :=
  decidable_of_iff (FieldOk key value.bytes ∧
    (Spells key transferEncodingKey → key = transferEncodingKey ∧ value = some (ascii "chunked") ∧
      setHeaders set contentLengthKey = none) ∧
    (Spells key contentLengthKey → key = contentLengthKey ∧ (Buf.decimal value.bytes).isSome ∧
      setHeaders set transferEncodingKey = none))
    ⟨fun ⟨a, b, c⟩ => ⟨a, b, c⟩, fun ⟨a, b, c⟩ => ⟨a, b, c⟩⟩

def Announcement.Shows (a : Announcement) (line : HeaderLine) : Prop :=
  ∃ l ∈ a.opening.before ++ a.opening.after,
    ¬(l.unlessSet = true ∧ (firstSet a.set l.line.name).isSome) ∧ l.line = line

/-- `head` is the head of an announcement: its start line, each header that was set with the value
it was first given, the lines of the library, and what it added to frame the body. No name comes
twice, unless a line of the library repeats a header that was set. -/
structure Announcement.HeadedBy (a : Announcement) (head : Head) : Prop where
  start : head.start = a.opening.start
  set : ∀ key value, firstSet a.set key = some value → (key, value.bytes) ∈ head.fields
  own : ∀ line, a.Shows line → line.field ∈ head.fields
  only : ∀ f ∈ head.fields, (∃ value, firstSet a.set f.1 = some value ∧ f.2 = value.bytes) ∨
    (∃ line, a.Shows line ∧ line.field = f) ∨
    (firstSet a.set f.1 = none ∧ (f = (transferEncodingKey, ascii "chunked") ∧ a.length = none ∨
      f.1 = contentLengthKey ∧ a.length.isSome ∧ Buf.decimal f.2 = a.length))
  once : ∀ name, (∀ line, a.Shows line → line.name = name → firstSet a.set name = none) →
    (head.fields.map Prod.fst).count name ≤ 1

def Announcement.reader (a : Announcement) (head : Head) (body : Bytes) : Reader :=
  match a.length with
  | some n => .awaiting head (n - body.length) body
  | none => .coded head (.start body)

def Transfer.IsSent (t : Transfer) : Prop := ∃ a body, t = .sent a body

/-- What the peer makes of a transfer: nothing yet, the head and the body so far, the message. -/
inductive Transfer.ReadAs : Transfer → Reader → Prop
  | unsent (set : List SetHeader) : ReadAs (.unsent set) (.start [])
  | sending (a : Announcement) (body : Bytes) (head : Head) (h : a.HeadedBy head) :
    ReadAs (.sending a body) (a.reader head body)
  | sent (a : Announcement) (body : Bytes) (head : Head) (h : a.HeadedBy head) :
    ReadAs (.sent a body) (.done head body)

structure SetsOk (set : List SetHeader) : Prop where
  fields : ∀ key value, setHeaders set key = some value → FieldOk key value.bytes
  frames : FramesBody (setHeaders set)

theorem setHeaders_snoc (set : List SetHeader) (key : Bytes) (value : Buf) :
    setHeaders (set ++ [(key, value)]) = emplace (setHeaders set) key value := by
  rw [setHeaders, emplaceAll, List.foldl_append]
  rfl

theorem setHeaders_update (set : List SetHeader) (key : Bytes) (value : Buf)
    (h : setHeaders set key = none) :
    setHeaders (set ++ [(key, value)]) = Function.update (setHeaders set) key (some value) := by
  rw [setHeaders_snoc, emplace, h]
  exact if_neg Bool.false_ne_true

noncomputable def someOrder (headers : Headers) : List Bytes :=
  open Classical in
  if h : ∃ set, setHeaders set = headers then (h.choose.map Prod.fst).dedup else []

theorem someOrder_traverses (set : List SetHeader) :
    Traverses (someOrder (setHeaders set)) (setHeaders set) := by
  have h : ∃ set', setHeaders set' = setHeaders set := ⟨set, rfl⟩
  rw [someOrder, dif_pos h]
  constructor
  · exact List.nodup_dedup _
  · intro key
    rw [List.mem_dedup, List.mem_map]
    conv_rhs => rw [← h.choose_spec, setHeaders_apply, firstSet_isSome]

theorem setsOk_nil : SetsOk [] := by
  have hnone (key : Bytes) : setHeaders [] key = none := rfl
  constructor
  · intro key value h
    rw [hnone] at h
    cases h
  · constructor
    · intro key value _ h
      rw [hnone] at h
      cases h
    · intro key value _ h
      rw [hnone] at h
      cases h
    · intro h
      exact hnone _

theorem SetsOk.snoc {set : List SetHeader} {key : Bytes} {value : Buf} (h : SetsOk set)
    (hc : Settable set key value) : SetsOk (set ++ [(key, value)]) := by
  have hold (k : Bytes) (v : Buf) (hk : setHeaders (set ++ [(key, value)]) k = some v) :
      setHeaders set k = some v ∨ setHeaders set k = none ∧ key = k ∧ value = v := by
    rw [setHeaders_snoc, emplace_apply] at hk
    cases hs : setHeaders set k with
    | some w =>
      rw [hs] at hk
      exact .inl hk
    | none =>
      rw [hs, Option.none_or] at hk
      by_cases heq : key = k
      · rw [if_pos heq] at hk
        exact .inr ⟨rfl, heq, Option.some.inj hk⟩
      · rw [if_neg heq] at hk
        cases hk
  refine ⟨?_, ?_, ?_, ?_⟩
  · intro k v hk
    rcases hold k v hk with hk | ⟨-, rfl, rfl⟩
    · exact h.fields k v hk
    · exact hc.ok
  · intro k v hspells hk
    rcases hold k v hk with hk | ⟨-, rfl, rfl⟩
    · exact h.frames.coding k v hspells hk
    · exact ⟨(hc.coding hspells).1, (hc.coding hspells).2.1⟩
  · intro k v hspells hk
    rcases hold k v hk with hk | ⟨-, rfl, rfl⟩
    · exact h.frames.length k v hspells hk
    · exact ⟨(hc.length hspells).1, (hc.length hspells).2.1⟩
  · -- a length and a coding are never set together
    intro hlength
    obtain ⟨v, hv⟩ := Option.isSome_iff_exists.mp hlength
    by_contra hcoding
    obtain ⟨w, hw⟩ := Option.ne_none_iff_exists'.mp hcoding
    rcases hold _ v hv with hv | ⟨-, hkey, -⟩
    · rcases hold _ w hw with hw | ⟨-, hkey, -⟩
      · have hnone := h.frames.either (by rw [hv]; rfl)
        rw [hw] at hnone
        cases hnone
      · have hnone := (hc.coding (by rw [hkey]; decide)).2.2
        rw [contentLengthKey, hv] at hnone
        cases hnone
    · rcases hold _ w hw with hw | ⟨-, hother, -⟩
      · have hnone := (hc.length (by rw [hkey]; decide)).2.2
        rw [transferEncodingKey, hw] at hnone
        cases hnone
      · rw [hkey] at hother
        revert hother
        decide

theorem firstSet_append (calls more : List SetHeader) (key : Bytes) :
    firstSet (calls ++ more) key = (firstSet calls key).or (firstSet more key) := by
  simp [firstSet, List.find?_append, Option.map_or]

/-- What the library sets to frame the body: nothing, the coding, or the length. -/
def FramingHeaders (length : Option Nat) (framing : List SetHeader) : Prop :=
  ∀ x ∈ framing, x = (transferEncodingKey, some (ascii "chunked")) ∧ length = none ∨
    x.1 = contentLengthKey ∧ length.isSome ∧ Buf.decimal x.2.bytes = length

theorem FramingHeaders.spells {length : Option Nat} {framing : List SetHeader}
    (h : FramingHeaders length framing) (x : SetHeader) (hx : x ∈ framing) :
    Spells x.1 transferEncodingKey ∨ Spells x.1 contentLengthKey := by
  rcases h x hx with ⟨rfl, -⟩ | ⟨hkey, -⟩
  · exact .inl (by decide)
  · exact .inr (by rw [hkey]; decide)

theorem firstSet_plain {length : Option Nat} {framing : List SetHeader}
    (h : FramingHeaders length framing)
    (set : List SetHeader) (name : Bytes) (hcoding : ¬Spells name transferEncodingKey)
    (hlength : ¬Spells name contentLengthKey) :
    firstSet (set ++ framing) name = firstSet set name := by
  have hnone : firstSet framing name = none := by
    by_contra hsome
    obtain ⟨value, hvalue⟩ := Option.ne_none_iff_exists'.mp hsome
    rcases h.spells _ (firstSet_mem hvalue) with hspells | hspells
    · exact hcoding hspells
    · exact hlength hspells
  rw [firstSet_append, hnone, Option.or_none]

section
variable {format : Format} {o : Opening} {order : Headers → List Bytes} {set framing : List SetHeader}
  {length : Option Nat}

theorem own_mem_iff (ho : o.ReadBy format) (hframing : FramingHeaders length framing)
    (set : List SetHeader) (own : List OwnLine) (hown : ∀ l ∈ own, l ∈ o.before ++ o.after)
    (line : HeaderLine) :
    line ∈ ownLines own (setHeaders (set ++ framing)) ↔
      ∃ l ∈ own, ¬(l.unlessSet = true ∧ (firstSet set l.line.name).isSome) ∧ l.line = line := by
  have hsame (l : OwnLine) (hl : l ∈ own) :
      (setHeaders (set ++ framing) l.line.name).isSome = (firstSet set l.line.name).isSome := by
    have hplain := ho.own l (hown l hl)
    rw [setHeaders_apply, firstSet_plain hframing set _ hplain.coding hplain.length]
  simp only [ownLines, List.mem_map, List.mem_filter, Bool.not_and, Bool.or_eq_true,
    Bool.not_eq_true', and_assoc]
  refine exists_congr fun l => and_congr_right fun hl => and_congr_left fun _ => ?_
  rw [hsame l hl]
  cases l.unlessSet with
  | false => simp
  | true => simp

/-- Where the library repeats no header that was set, every name comes once. -/
theorem lines_once (ho : o.ReadBy format) (hframing : FramingHeaders length framing)
    (horder : Traverses (order (setHeaders (set ++ framing))) (setHeaders (set ++ framing)))
    (name : Bytes) (hname : ∀ line, Announcement.Shows ⟨o, set, length⟩ line → line.name = name →
      firstSet set name = none) :
    (((o.lines order (setHeaders (set ++ framing))).map HeaderLine.field).map Prod.fst).count name
      ≤ 1 := by
  have hshows (own : List OwnLine) (hin : ∀ l ∈ own, l ∈ o.before ++ o.after)
      (hmem : name ∈ (ownLines own (setHeaders (set ++ framing))).map HeaderLine.name) :
      ∃ line, Announcement.Shows ⟨o, set, length⟩ line ∧ line.name = name := by
    obtain ⟨line, hline, hsame⟩ := List.mem_map.mp hmem
    obtain ⟨l, hl, hshown, hl'⟩ := (own_mem_iff ho hframing set own hin line).mp hline
    exact ⟨line, ⟨l, hin l hl, hshown, hl'⟩, hsame⟩
  have hnames : ((o.lines order (setHeaders (set ++ framing))).map HeaderLine.field).map Prod.fst =
      (ownLines o.before (setHeaders (set ++ framing))).map HeaderLine.name ++
        order (setHeaders (set ++ framing)) ++
        (ownLines o.after (setHeaders (set ++ framing))).map HeaderLine.name := by
    rw [List.map_map, Opening.lines, List.map_append, List.map_append]
    simp only [setLines, List.map_map]
    congr 2
    exact List.map_id _
  have hown : (ownLines o.before (setHeaders (set ++ framing))).map HeaderLine.name ++
      (ownLines o.after (setHeaders (set ++ framing))).map HeaderLine.name |>.Sublist
        ((o.before ++ o.after).map fun l => l.line.name) := by
    have hsub (own : List OwnLine) : ((ownLines own (setHeaders (set ++ framing))).map
        HeaderLine.name).Sublist (own.map fun l => l.line.name) := by
      rw [ownLines, List.map_map]
      exact List.filter_sublist.map _
    rw [List.map_append]
    exact (hsub o.before).append (hsub o.after)
  have hcount := List.nodup_iff_count_le_one.mp (ho.distinct.sublist hown) name
  rw [List.count_append] at hcount
  rw [hnames, List.count_append, List.count_append]
  by_cases hmem : name ∈ order (setHeaders (set ++ framing))
  · -- a name that is set has no line of the library
    have hno : ¬∃ line, Announcement.Shows ⟨o, set, length⟩ line ∧ line.name = name := by
      rintro ⟨line, ⟨l, hl, hshown, rfl⟩, rfl⟩
      have hnone := hname _ ⟨l, hl, hshown, rfl⟩ rfl
      have hplain := ho.own l hl
      have hsome := (horder.mem l.line.name).mp hmem
      rw [setHeaders_apply, firstSet_plain hframing set _ hplain.coding hplain.length,
        hnone] at hsome
      cases hsome
    have hbefore : name ∉ (ownLines o.before (setHeaders (set ++ framing))).map HeaderLine.name :=
      fun hin => hno (hshows o.before (fun l hl => List.mem_append_left _ hl) hin)
    have hafter : name ∉ (ownLines o.after (setHeaders (set ++ framing))).map HeaderLine.name :=
      fun hin => hno (hshows o.after (fun l hl => List.mem_append_right _ hl) hin)
    rw [List.count_eq_zero_of_not_mem hbefore, List.count_eq_zero_of_not_mem hafter, Nat.zero_add,
      Nat.add_zero]
    exact List.nodup_iff_count_le_one.mp horder.nodup name
  · rw [List.count_eq_zero_of_not_mem hmem, Nat.add_zero]
    exact hcount

theorem headedBy_lines (ho : o.ReadBy format) (hframing : FramingHeaders length framing)
    (horder : Traverses (order (setHeaders (set ++ framing))) (setHeaders (set ++ framing))) :
    Announcement.HeadedBy ⟨o, set, length⟩
      ⟨o.start, (o.lines order (setHeaders (set ++ framing))).map HeaderLine.field⟩ := by
  have hbefore := own_mem_iff ho hframing set o.before fun l hl => List.mem_append_left _ hl
  have hafter := own_mem_iff ho hframing set o.after fun l hl => List.mem_append_right _ hl
  have hlines (l : HeaderLine) : l ∈ o.lines order (setHeaders (set ++ framing)) ↔
      Announcement.Shows ⟨o, set, length⟩ l ∨
        l ∈ setLines (order (setHeaders (set ++ framing))) (setHeaders (set ++ framing)) := by
    simp only [Opening.lines, List.mem_append, hbefore, hafter, Announcement.Shows, or_and_right,
      exists_or]
    exact or_right_comm
  constructor
  · rfl
  · intro key value hset
    have hfirst : firstSet (set ++ framing) key = some value := by
      rw [firstSet_append, hset]
      rfl
    obtain ⟨c, hc, hkey⟩ := (firstSet_isSome (set ++ framing) key).mp (by rw [hfirst]; rfl)
    have hmem := setLine_mem horder c hc
    rw [hkey, hfirst] at hmem
    exact List.mem_map.mpr ⟨_, (hlines _).mpr (.inr hmem), rfl⟩
  · intro line hshown
    exact List.mem_map.mpr ⟨line, (hlines _).mpr (.inl hshown), rfl⟩
  · intro f hf
    obtain ⟨l, hl, rfl⟩ := List.mem_map.mp hf
    rcases (hlines l).mp hl with hshown | hl
    · exact .inr (.inl ⟨l, hshown, rfl⟩)
    · obtain ⟨key, hkey, rfl⟩ := List.mem_map.mp hl
      have hsome := (horder.mem key).mp hkey
      obtain ⟨value, hvalue⟩ := Option.isSome_iff_exists.mp hsome
      have hfirst := hvalue
      rw [setHeaders_apply, firstSet_append] at hfirst
      simp only [HeaderLine.field, hvalue, Option.getD_some]
      cases hold : firstSet set key with
      | some old =>
        rw [hold] at hfirst
        obtain rfl := Option.some.inj hfirst
        exact .inl ⟨old, rfl, rfl⟩
      | none =>
        rw [hold, Option.none_or] at hfirst
        refine .inr (.inr ⟨rfl, ?_⟩)
        rcases hframing _ (firstSet_mem hfirst) with ⟨heq, hlength⟩ | ⟨heq, hlength⟩
        · obtain ⟨rfl, rfl⟩ := Prod.mk.inj heq
          exact .inl ⟨rfl, hlength⟩
        · exact .inr ⟨heq, hlength⟩
  · exact lines_once ho hframing horder

end

section
variable (format : Format) (a : Announcement) (head : Head)

theorem run_framed (body : Bytes) (c : OutgoingCall 64) (h : a.Permits body c)
    (hbody : ∀ n, a.length = some n → body.length ≤ n) :
    run (Reader.step format) (a.reader head body) (framed a.length.isNone c.chunks c.last) =
      some (if c.last then .done head (body ++ payload c.chunks)
        else a.reader head (body ++ payload c.chunks)) := by
  cases hlength : a.length with
  | some n =>
    simp only [Announcement.Permits, hlength, List.length_append] at h
    have hle := hbody n hlength
    have hrun := Reader.run_counted format head (n - body.length) body (payload c.chunks) (by omega)
    simp only [Announcement.reader, hlength, Option.isNone_some, framed, Bool.false_eq_true,
      if_false, hrun, List.length_append, Nat.sub_sub]
    cases hlast : c.last with
    | false => rfl
    | true =>
      have hzero : n - (body.length + (payload c.chunks).length) = 0 := by
        have := h.2 hlast
        omega
      rw [hzero]
      rfl
  | none =>
    simp only [Announcement.Permits, hlength] at h
    have hchunks := decode_chunks c.chunks h body
    simp only [Announcement.reader, hlength, Option.isNone_none, framed_eq]
    cases c.last with
    | false =>
      simp only [Bool.false_eq_true, if_false, List.append_nil]
      exact Reader.run_coded format head _ _ _ hchunks
    | true =>
      simp only [if_true]
      have hlast := decode_last (body ++ payload c.chunks)
      exact Reader.run_coded format head _ _ _ (run_append_eq_some _ _ _ _ _ _ hchunks hlast)

end

/-- The object is as far as the transfer, and its peer reads the transfer from what it handed
over. -/
inductive Carries (format : Format) (m : OutgoingMessage) : Transfer → Prop
  | unsent (set : List SetHeader) (hsent : m.headersSent = false) (hnothing : m.handedOver = [])
    (hset : m.headers = setHeaders set) (hok : SetsOk set) : Carries format m (.unsent set)
  | sending (a : Announcement) (body : Bytes) (head : Head) (hsent : m.headersSent = true)
    (hmode : m.isChunked = a.length.isNone) (hbody : ∀ n, a.length = some n → body.length ≤ n)
    (hhead : a.HeadedBy head)
    (hread : run (Reader.step format) (.start []) m.handedOver = some (a.reader head body)) :
    Carries format m (.sending a body)
  | sent (a : Announcement) (body : Bytes) (head : Head) (hhead : a.HeadedBy head)
    (hread : run (Reader.step format) (.start []) m.handedOver = some (.done head body)) :
    Carries format m (.sent a body)

theorem Carries.read {format : Format} {m : OutgoingMessage} {t : Transfer}
    (h : Carries format m t) :
    ∃ reader, run (Reader.step format) (.start []) m.handedOver = some reader ∧
      t.ReadAs reader := by
  cases h with
  | unsent set hsent hnothing hset hok =>
    rw [hnothing]
    exact ⟨_, rfl, .unsent set⟩
  | sending a body head hsent hmode hbody hhead hread => exact ⟨_, hread, .sending a body head hhead⟩
  | sent a body head hhead hread => exact ⟨_, hread, .sent a body head hhead⟩

/-- A number can be sent as the value of a field. -/
theorem decimal_sendable (bs : Bytes) (n : Nat) (h : Buf.decimal bs = some n) :
    Unbroken bs ∧ trim bs = bs := by
  have hdigits : ∀ ch ∈ bs, 0x30 ≤ ch ∧ ch ≤ 0x39 := by
    by_contra hno
    rw [Buf.decimal, if_neg (by tauto)] at h
    cases h
  have hedge (ch : UInt8) (hch : ch ∈ bs) : isOws ch = false :=
    isOws_visible ch (UInt8.le_trans (by decide) (hdigits ch hch).1)
  constructor
  · intro ch hch
    have hle := (hdigits ch hch).1
    constructor
    · rintro rfl
      exact absurd hle (by decide)
    · rintro rfl
      exact absurd hle (by decide)
  · apply trim_edges
    · exact fun ch hch => hedge ch (List.mem_of_head? hch)
    · exact fun ch hch => hedge ch (List.mem_of_getLast? hch)

/-- How `http_write` settles an announcement: what it adds to the headers, and what a peer reads. -/
structure Settles (build : Build) (set : List SetHeader) (c : OutgoingCall 64) (length : Option Nat)
    (framing : List SetHeader) : Prop where
  framed : FramingHeaders length framing
  ok : SetsOk (set ++ framing)
  choice : chooseFraming build (setHeaders set) c.chunks c.last =
    some (setHeaders (set ++ framing), length.isNone)
  coding : length = none → (setHeaders (set ++ framing) transferEncodingKey).isSome
  declared : ∀ n, length = some n → ∃ value,
    setHeaders (set ++ framing) contentLengthKey = some value ∧ Buf.decimal value.bytes = some n

section
variable (build : Build)

theorem settles_declared (set : List SetHeader) (c : OutgoingCall 64) (value : Buf) (n : Nat)
    (hok : SetsOk set) (hvalue : setHeaders set contentLengthKey = some value)
    (hn : Buf.decimal value.bytes = some n) : Settles build set c (some n) [] where
  framed := by simp [FramingHeaders]
  ok := by rwa [List.append_nil]
  choice := by
    have hsome : (setHeaders set (ascii "content-length")).isSome := by
      rw [contentLengthKey] at hvalue
      rw [hvalue]
      rfl
    rw [chooseFraming, if_pos hsome, List.append_nil]
    rfl
  coding := by simp
  declared := by
    intro k hk
    obtain rfl := Option.some.inj hk
    rw [List.append_nil]
    exact ⟨value, hvalue, hn⟩

theorem settable_chunked (set : List SetHeader) (h : setHeaders set contentLengthKey = none) :
    Settable set transferEncodingKey (some (ascii "chunked")) where
  ok := ⟨by decide, by decide +kernel, by decide +kernel, by decide⟩
  coding _ := ⟨rfl, rfl, h⟩
  length hspells := absurd hspells (by decide)

theorem settles_chunked (set : List SetHeader) (c : OutgoingCall 64) (hok : SetsOk set)
    (hlength : setHeaders set contentLengthKey = none) (hneeds : NeedsChunks set c) :
    Settles build set c none [(transferEncodingKey, some (ascii "chunked"))] where
  framed := by simp [FramingHeaders]
  ok := hok.snoc (settable_chunked set hlength)
  choice := by
    rw [setHeaders_snoc, emplace, chooseFraming]
    rw [contentLengthKey] at hlength
    rw [hlength, if_neg (by simp)]
    cases hcoding : setHeaders set (ascii "transfer-encoding") with
    | some value =>
      obtain ⟨-, rfl⟩ := hok.frames.coding _ value (by decide) hcoding
      rw [transferEncodingKey, hcoding]
      rfl
    | none =>
      have hnone : (if c.last then contentLength c.chunks 0 else none) = none := by
        rcases hneeds with h | h | h
        · rw [transferEncodingKey, hcoding] at h
          cases h
        · rw [h]
          rfl
        · rw [payload_length] at h
          rw [contentLength_eq c.chunks 0 (by decide), Nat.zero_add, if_neg (Nat.not_lt.mpr h),
            ite_self]
      simp only [hnone, transferEncodingKey, hcoding, Option.isSome_none, Bool.false_eq_true,
        if_false]
      rfl
  coding _ := by
    rw [setHeaders_apply, firstSet_append]
    simp [firstSet]
  declared := by simp

theorem settles_length (set : List SetHeader) (c : OutgoingCall 64) (hok : SetsOk set)
    (hlength : setHeaders set contentLengthKey = none) (hneeds : ¬NeedsChunks set c)
    (hexact : ExactLength build (payload c.chunks).length) :
    ∃ framing, Settles build set c (some (payload c.chunks).length) framing := by
  simp only [NeedsChunks, not_or, Option.not_isSome_iff_eq_none, Bool.not_eq_false,
    not_le] at hneeds
  obtain ⟨hcoding, hlast, hfits⟩ := hneeds
  have hcases := chooseFraming_cases build (setHeaders set) c.chunks c.last
  rw [contentLengthKey] at hlength
  rw [transferEncodingKey] at hcoding
  simp only [hlength, hcoding] at hcases
  rcases hcases with h | h | h | h
  · simp at h
  · simp at h
  · obtain ⟨-, -, -, bs, hchoice, hdecimal⟩ := h
    have hread : Buf.decimal bs = some (payload c.chunks).length := hdecimal.mpr hexact
    have hsettable : Settable set contentLengthKey (some bs) := by
      refine ⟨?_, ?_, ?_⟩
      · obtain ⟨hunbroken, htrim⟩ := decimal_sendable bs _ hread
        exact ⟨by decide, by decide +kernel, hunbroken, htrim⟩
      · exact fun hspells => absurd hspells (by decide)
      · exact fun _ => ⟨rfl, by rw [Buf.bytes_some, hread]; rfl, hcoding⟩
    refine ⟨[(contentLengthKey, some bs)], ?_, hok.snoc hsettable, ?_, by simp, ?_⟩
    · simp [FramingHeaders, hread]
    · rw [setHeaders_update set contentLengthKey _ hlength]
      exact hchoice
    · intro k hk
      obtain rfl := Option.some.inj hk
      refine ⟨some bs, ?_, hread⟩
      rw [setHeaders_update set contentLengthKey _ hlength, Function.update_self]
  · exact absurd ⟨hlast, hfits⟩ h.2.2.1

end

section
variable (build : Build) {format : Format} {o : Opening} {order : Headers → List Bytes}

/-- The block of an announcement is read as its head, up to the body. -/
theorem run_announced (ho : o.ReadBy format) (set framing : List SetHeader) (c : OutgoingCall 64)
    (length : Option Nat) (hs : Settles build set c length framing)
    (horder : Traverses (order (setHeaders (set ++ framing))) (setHeaders (set ++ framing)))
    (hbodiless : o.bodiless = true → length = some 0) :
    ∃ head, Announcement.HeadedBy ⟨o, set, length⟩ head ∧
      run (Reader.step format) (.start []) (o.block order (setHeaders (set ++ framing))) =
        some (Announcement.reader ⟨o, set, length⟩ head []) := by
  refine ⟨_, headedBy_lines ho hs.framed horder, ?_⟩
  have hfields (key : Bytes) (hkey : key ∈ order (setHeaders (set ++ framing))) :
      FieldOk key (headerValue (setHeaders (set ++ framing)) key) := by
    obtain ⟨value, hvalue⟩ := Option.isSome_iff_exists.mp ((horder.mem key).mp hkey)
    have hok := hs.ok.fields key value hvalue
    rw [headerValue, hvalue]
    exact hok
  rw [run_block format o ho order _ hfields]
  cases length with
  | none =>
    have hplain : o.bodiless = false := by
      by_contra h
      have hzero := hbodiless (by simpa using h)
      cases hzero
    rw [ho.bodyEnd _ _ (delimited_chunked ho horder hs.ok.frames (hs.coding rfl)), hplain]
    rfl
  | some n =>
    obtain ⟨value, hvalue, hn⟩ := hs.declared n rfl
    rw [ho.bodyEnd _ _ (delimited_length ho horder hs.ok.frames value n hvalue hn)]
    by_cases hb : o.bodiless = true
    · obtain rfl := Option.some.inj (hbodiless hb)
      rw [if_pos hb]
      rfl
    · rw [if_neg hb]
      rfl

theorem announce_permits (a : Announcement) (c : OutgoingCall 64) (t : Transfer)
    (h : a.announce c = some t) : (a.opening.bodiless = true → a.length = some 0) ∧ a.Permits [] c ∧
      t = if c.last then .sent a (payload c.chunks) else .sending a (payload c.chunks) := by
  unfold Announcement.announce at h
  by_cases hb : a.opening.bodiless = true ∧ a.length ≠ some 0
  · rw [if_pos hb] at h
    cases h
  · rw [if_neg hb, Announcement.add] at h
    by_cases hp : a.Permits [] c
    · rw [if_pos hp] at h
      exact ⟨by tauto, hp, (Option.some.inj h).symm⟩
    · rw [if_neg hp] at h
      cases h

/-- A message is over with its end, and only then. -/
theorem call_isSent (o : Opening) (t t' : Transfer) (c : OutgoingCall 64) (ht : ¬t.IsSent)
    (h : t.call build o c = some t') : t'.IsSent ↔ c.last = true := by
  have hform (a : Announcement) (body : Bytes) :
      (if c.last then Transfer.sent a body else .sending a body).IsSent ↔ c.last = true := by
    cases c.last with
    | true => exact iff_of_true ⟨a, body, rfl⟩ rfl
    | false =>
      refine iff_of_false ?_ Bool.false_ne_true
      rintro ⟨b, rest, heq⟩
      cases heq
  have hannounce (a : Announcement) (ha : a.announce c = some t') : t'.IsSent ↔ c.last = true := by
    obtain ⟨-, -, rfl⟩ := announce_permits a c t' ha
    exact hform a _
  cases t with
  | sent a body => exact absurd ⟨a, body, rfl⟩ ht
  | sending a body =>
    simp only [Transfer.call, Announcement.add] at h
    by_cases hp : a.Permits body c
    · rw [if_pos hp] at h
      obtain rfl := Option.some.inj h
      exact hform a _
    · rw [if_neg hp] at h
      cases h
  | unsent set =>
    simp only [Transfer.call] at h
    cases hlength : setHeaders set contentLengthKey with
    | some value =>
      simp only [hlength] at h
      obtain ⟨n, -, h⟩ := Option.bind_eq_some_iff.mp h
      exact hannounce _ h
    | none =>
      simp only [hlength] at h
      split_ifs at h with hneeds hempty hlast hexact
      · obtain rfl := Option.some.inj h
        refine iff_of_false ?_ hlast
        rintro ⟨b, rest, heq⟩
        cases heq
      · exact hannounce _ h
      · exact hannounce _ h

theorem permits_length (a : Announcement) (body : Bytes) (c : OutgoingCall 64)
    (h : a.Permits body c)
    (n : Nat) (hn : a.length = some n) : (body ++ payload c.chunks).length ≤ n := by
  simp only [Announcement.Permits, hn] at h
  exact h.1

theorem permits_filled (a : Announcement) (body : Bytes) (c : OutgoingCall 64)
    (h : a.Permits body c) (hn : a.length.isNone = true) : ∀ b ∈ c.chunks, b.Filled := by
  rw [Option.isNone_iff_eq_none] at hn
  simp only [Announcement.Permits, hn] at h
  exact h

/-- The call that announces the message. -/
theorem announce_step (ho : o.ReadBy format)
    (horder : ∀ set, Traverses (order (setHeaders set)) (setHeaders set))
    (m : OutgoingMessage) (set framing : List SetHeader) (length : Option Nat) (c : OutgoingCall 64)
    (t : Transfer) (hsent : m.headersSent = false) (hnothing : m.handedOver = [])
    (hset : m.headers = setHeaders set) (hs : Settles build set c length framing)
    (hchunks : length = none → c.chunks ≠ [])
    (h : Announcement.announce ⟨o, set, length⟩ c = some t) :
    ∃ m', m.step build (o.block order) c = some m' ∧ Carries format m' t := by
  obtain ⟨hbodiless, hpermits, rfl⟩ := announce_permits _ c t h
  obtain ⟨head, hhead, hblock⟩ :=
    run_announced build ho set framing c length hs (horder _) hbodiless
  have hstep := step_unsent build (o.block order) m c length.isNone (setHeaders (set ++ framing)) hsent
    (by rw [hset]; exact hs.choice) fun hn => hchunks (Option.isNone_iff_eq_none.mp hn)
  rw [if_pos (permits_filled _ _ c hpermits), hnothing, List.nil_append] at hstep
  have hbody := run_framed format ⟨o, set, length⟩ head [] c hpermits (by simp)
  have hread := run_append_eq_some _ _ _ _ _ _ hblock hbody
  rw [List.nil_append] at hread
  refine ⟨_, hstep, ?_⟩
  cases hlast : c.last with
  | true =>
    rw [hlast] at hread
    exact .sent _ _ head hhead hread
  | false =>
    rw [hlast] at hread
    exact .sending _ _ head rfl rfl (permits_length _ _ c hpermits) hhead hread

/-- A call behind the head. -/
theorem sending_step (compileHeaders : Headers → Bytes) (m : OutgoingMessage) (a : Announcement)
    (body : Bytes) (c : OutgoingCall 64) (t : Transfer) (hm : Carries format m (.sending a body))
    (h : a.add body c = some t) :
    ∃ m', m.step build compileHeaders c = some m' ∧ Carries format m' t := by
  cases hm with
  | sending a body head hsent hmode hbody hhead hread =>
    unfold Announcement.add at h
    by_cases hpermits : a.Permits body c
    · rw [if_pos hpermits] at h
      obtain rfl := Option.some.inj h
      have hfilled : m.isChunked = true → ∀ b ∈ c.chunks.tail, b.Filled := by
        intro hchunked b hb
        rw [hmode] at hchunked
        exact permits_filled a body c hpermits hchunked b (List.mem_of_mem_tail hb)
      have hstep := step_sent build compileHeaders m c hsent
      rw [if_pos hfilled, hmode] at hstep
      have hrest := run_append_eq_some _ _ _ _ _ _ hread
        (run_framed format a head body c hpermits hbody)
      refine ⟨_, hstep, ?_⟩
      cases hlast : c.last with
      | true =>
        rw [hlast] at hrest
        exact .sent a _ head hhead hrest
      | false =>
        rw [hlast] at hrest
        exact .sending a _ head rfl rfl (permits_length a body c hpermits) hhead hrest
    · rw [if_neg hpermits] at h
      cases h

/-- One call of a message that is not over yet. -/
theorem transfer_step (ho : o.ReadBy format)
    (horder : ∀ set, Traverses (order (setHeaders set)) (setHeaders set)) (m : OutgoingMessage)
    (c : OutgoingCall 64) (t t' : Transfer) (hm : Carries format m t) (ht : ¬t.IsSent)
    (h : t.call build o c = some t') :
    ∃ m', m.step build (o.block order) c = some m' ∧ Carries format m' t' := by
  cases t with
  | sent a body => exact absurd ⟨a, body, rfl⟩ ht
  | sending a body => exact sending_step build _ m a body c t' hm h
  | unsent set =>
    obtain ⟨hsent, hnothing, hset, hok⟩ : m.headersSent = false ∧ m.handedOver = [] ∧
        m.headers = setHeaders set ∧ SetsOk set := by
      cases hm with
      | unsent set hsent hnothing hset hok => exact ⟨hsent, hnothing, hset, hok⟩
    simp only [Transfer.call] at h
    cases hlength : setHeaders set contentLengthKey with
    | some value =>
      simp only [hlength] at h
      obtain ⟨n, hn, h⟩ := Option.bind_eq_some_iff.mp h
      exact announce_step build ho horder m set [] (some n) c t' hsent hnothing hset
        (settles_declared build set c value n hok hlength hn) (by simp) h
    | none =>
      simp only [hlength] at h
      by_cases hneeds : NeedsChunks set c
      · have hs := settles_chunked build set c hok hlength hneeds
        rw [if_pos hneeds] at h
        by_cases hempty : c.chunks = []
        · rw [if_pos hempty] at h
          -- the head waits for a call with buffers
          cases hlast : c.last with
          | true =>
            rw [hlast] at h
            cases h
          | false =>
            rw [hlast] at h
            obtain rfl := Option.some.inj h
            have hstep := step_empty build (o.block order) m c _ hsent hempty
              (by rw [hset]; exact hs.choice)
            refine ⟨_, hstep, .unsent _ hsent ?_ ?_ hs.ok⟩
            · rw [hnothing, hlast]
              rfl
            · rw [hlast]
              rfl
        · rw [if_neg hempty] at h
          exact announce_step build ho horder m set _ none c t' hsent hnothing hset hs
            (fun _ => hempty) h
      · rw [if_neg hneeds] at h
        by_cases hexact : ExactLength build (payload c.chunks).length
        · rw [if_pos hexact] at h
          obtain ⟨framing, hs⟩ := settles_length build set c hok hlength hneeds hexact
          exact announce_step build ho horder m set framing _ c t' hsent hnothing hset hs (by simp) h
        · rw [if_neg hexact] at h
          cases h

end

end Libnodecc.Http
