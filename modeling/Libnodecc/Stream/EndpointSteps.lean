import Libnodecc.Buffer.Exclusive
import Libnodecc.Stream.Endpoint

namespace Libnodecc.Stream

open Buffer Util

/-- The writing side is closed for good, and so is the handle. -/
structure HalfClose.Goes (s t : HalfClose) : Prop where
  writable : s.isWritable = false → t.isWritable = false
  shut : (0 < s.inFlight → s.isWritable = false) → 0 < t.inFlight → t.isWritable = false
  destroyed : s.destroyed = true → t.destroyed = true

namespace HalfClose

theorem Goes.refl (s : HalfClose) : s.Goes s := ⟨id, id, id⟩

theorem goes_call (s : HalfClose) (c : LocalCall) : s.Goes (s.call c) := by
  obtain ⟨-, -, hwritable, hdestroyed⟩ := call_keeps s c
  refine ⟨hwritable, ?_, hdestroyed⟩
  cases c with
  | endStream written =>
    rw [call, endStream, endBufs]
    split_ifs
    · exact fun _ _ => rfl
    · exact fun _ _ => rfl
    · exact id
    · exact id
  | resume accepted =>
    rw [call, resume]
    split_ifs <;> exact id
  | pause =>
    rw [call, pause]
    split_ifs <;> exact id
  | destroy => exact id

theorem call_statuses (s : HalfClose) (c : LocalCall) : (s.call c).statuses = s.statuses := by
  cases c with
  | endStream written =>
    rw [call, endStream, endBufs]
    split_ifs <;> rfl
  | resume accepted =>
    rw [call, resume]
    split_ifs <;> rfl
  | pause =>
    rw [call, pause]
    split_ifs <;> rfl
  | destroy => rfl

theorem goes_hangUp (s : HalfClose) : s.Goes s.hangUp := ⟨id, id, fun _ => rfl⟩

theorem goes_onShutdown (s : HalfClose) (status : Int) : s.Goes (s.onShutdown status) := by
  rw [onShutdown]
  split_ifs
  · exact ⟨fun _ => rfl, fun _ _ => rfl, fun _ => rfl⟩
  · exact ⟨fun _ => rfl, fun _ _ => rfl, id⟩

theorem onShutdown_statuses (s : HalfClose) (status : Int) :
    (s.onShutdown status).statuses = s.statuses ++ [status] ∧
      (s.onShutdown status).readHasEnded = s.readHasEnded := by
  rw [onShutdown]
  split_ifs
  · exact ⟨rfl, rfl⟩
  · exact ⟨rfl, rfl⟩

theorem goes_setReadingEnded (s : HalfClose) : s.Goes (s.setReadingEnded []) := by
  rw [setReadingEnded]
  split_ifs
  · exact .refl s
  · exact ⟨id, id, id⟩

theorem setReadingEnded_statuses (s : HalfClose) :
    (s.setReadingEnded []).statuses = s.statuses := by
  rw [setReadingEnded]
  split_ifs
  · rfl
  · rfl

end HalfClose

namespace Endpoint

/-- The memory of what libuv holds is kept; what was sent, with what is pending, is what was
written; the chunks are what arrived, and the listeners see the last one. -/
structure Sound (e : Endpoint) : Prop where
  wf : e.memory.Wf []
  owned : ∀ k ∈ e.owned, k < e.memory.handles.length
  nodup : e.owned.Nodup
  anchored : ∀ r ∈ e.inFlight, ∀ u ∈ r.uvBufs, Anchored e.memory r.refList u
  sent : e.sent <+: e.written
  whole : e.broken = false → e.flags.destroyed = false → e.sent ++ e.pending = e.written
  shut : 0 < e.flags.inFlight → e.flags.isWritable = false
  finished : e.fin = true → e.sent = e.written ∧ e.flags.isWritable = false
  succeeded : (0 : Int) ∈ e.flags.statuses → e.fin = true
  arrived : e.chunks.flatten = e.arrived
  shows : ∀ chunk, e.callback = some (.data chunk) →
    ∃ bytes, e.chunks.getLast? = some bytes ∧ e.memory.shown chunk = some bytes

def Closed (e : Endpoint) : Prop := e.fin = true ∨ e.flags.destroyed = true

/-- What a step does that changes the handles `touched` of the program, as the rest of the program
and the peer see it. -/
structure Follows (touched : List Nat) (peer e e' : Endpoint) : Prop where
  sound : e'.Sound
  leaves : Leaves (e.owned ++ touched) e.memory e'.memory
  owned : ∀ k ∈ e'.owned, k ∈ e.owned ∨ e.memory.handles.length ≤ k
  sent : e.sent <+: e'.sent
  closed : e.Closed → e'.sent = e.sent ∧ e'.Closed
  arrived : e.arrived <+: e'.arrived
  reads : e'.arrived = e.arrived ∨ e'.arrived <+: peer.sent
  ended : e'.flags.readHasEnded = true →
    e.flags.readHasEnded = true ∨ e'.arrived = peer.sent ∧ peer.Closed

theorem init_sound : init.Sound where
  wf := ⟨⟨by simp [State.refs, init, Ref.null, Heap.Room],
    by simp [State.refs, init, Ref.null, Heap.owner], by simp [init]⟩, by simp [init]⟩
  owned := by simp [init, owned]
  nodup := by simp [init, owned]
  anchored := by simp [init]
  sent := List.prefix_rfl
  whole := by simp [init, pending]
  shut := by simp [init, HalfClose.init]
  finished := by simp [init]
  succeeded := by simp [init, HalfClose.init]
  arrived := rfl
  shows := by simp [init]

section
variable {e peer : Endpoint} {touched : List Nat}

theorem mem_owned_refList {r : PackedReq} {k : Nat} (hr : r ∈ e.inFlight) (hk : k ∈ r.refList) :
    k ∈ e.owned :=
  List.mem_cons_of_mem _ (List.mem_append_right _ (List.mem_flatMap.mpr ⟨r, hr, hk⟩))

theorem Sound.follows_refl (hs : e.Sound) (touched : List Nat) (peer : Endpoint) :
    Follows touched peer e e where
  sound := hs
  leaves := .refl _ hs.wf
  owned _ hk := .inl hk
  sent := List.prefix_rfl
  closed h := ⟨rfl, h⟩
  arrived := List.prefix_rfl
  reads := .inl rfl
  ended := .inl

/-- The flags change. -/
theorem Sound.withFlags (hs : e.Sound) {flags : HalfClose} (hgoes : e.flags.Goes flags)
    (hstatuses : (0 : Int) ∈ flags.statuses → e.fin = true) :
    Sound { e with flags := flags } where
  wf := hs.wf
  owned := hs.owned
  nodup := hs.nodup
  anchored := hs.anchored
  sent := hs.sent
  whole := by
    intro hbroken hdestroyed
    apply hs.whole hbroken
    by_contra h
    have hclosed := hgoes.destroyed (by simpa using h)
    rw [hclosed] at hdestroyed
    cases hdestroyed
  shut := hgoes.shut hs.shut
  finished hfin := ⟨(hs.finished hfin).1, hgoes.writable (hs.finished hfin).2⟩
  succeeded := hstatuses
  arrived := hs.arrived
  shows := hs.shows

theorem Follows.withFlags {e' : Endpoint} (h : Follows touched peer e e') {flags : HalfClose}
    (hgoes : e'.flags.Goes flags) (hstatuses : (0 : Int) ∈ flags.statuses → e'.fin = true)
    (hread : flags.readHasEnded = e'.flags.readHasEnded) :
    Follows touched peer e { e' with flags := flags } where
  sound := h.sound.withFlags hgoes hstatuses
  leaves := h.leaves
  owned := h.owned
  sent := h.sent
  closed hc := ⟨(h.closed hc).1, (h.closed hc).2.imp_right hgoes.destroyed⟩
  arrived := h.arrived
  reads := h.reads
  ended hr := h.ended (hread ▸ hr)

theorem Follows.call {e' : Endpoint} (h : Follows touched peer e e') (c : LocalCall) :
    Follows touched peer e { e' with flags := e'.flags.call c } := by
  apply h.withFlags (HalfClose.goes_call _ c)
  · rw [HalfClose.call_statuses]
    exact h.sound.succeeded
  · exact (HalfClose.call_keeps _ c).1

theorem pending_leaves {t : State} (hs : e.Sound) (hl : Leaves touched e.memory t)
    (haway : ∀ r ∈ e.inFlight, ∀ k ∈ r.refList, k ∉ touched) :
    e.inFlight.flatMap (PackedReq.rest t.heap) = e.pending := by
  apply List.flatMap_congr
  intro r hr
  exact rest_leaves (hs.anchored r hr) hs.wf hl (haway r hr)

/-- The memory changes where libuv holds nothing. -/
theorem Sound.relocate {memory : State} {callback : Option StreamCallback} (hs : e.Sound)
    (hl : Leaves touched e.memory memory)
    (haway : ∀ r ∈ e.inFlight, ∀ k ∈ r.refList, k ∉ touched)
    (howned : ∀ k ∈ ({ e with callback := callback } : Endpoint).owned, k < memory.handles.length)
    (hnodup : ({ e with callback := callback } : Endpoint).owned.Nodup)
    (hshows : ∀ chunk, callback = some (.data chunk) →
      ∃ bytes, e.chunks.getLast? = some bytes ∧ memory.shown chunk = some bytes) :
    Sound { e with memory := memory, callback := callback } where
  wf := hl.wf
  owned := howned
  nodup := hnodup
  anchored r hr u hu := ((hs.anchored r hr u hu).leaves hs.wf hl (haway r hr)).1
  sent := hs.sent
  whole hbroken hdestroyed := by
    have hpending := pending_leaves hs hl haway
    rw [← hs.whole hbroken hdestroyed, ← hpending]
    rfl
  shut := hs.shut
  finished := hs.finished
  succeeded := hs.succeeded
  arrived := hs.arrived
  shows := hshows

theorem Sound.shows_leaves {t : State} (hs : e.Sound) (hl : Leaves touched e.memory t)
    (haway : ∀ k ∈ touched, k ∉ e.owned) (chunk : Nat) (hchunk : e.callback = some (.data chunk)) :
    ∃ bytes, e.chunks.getLast? = some bytes ∧ t.shown chunk = some bytes := by
  have hmem : chunk ∈ e.owned := by
    simp [Endpoint.owned, hchunk, StreamCallback.handles]
  obtain ⟨bytes, hlast, hshown⟩ := hs.shows chunk hchunk
  refine ⟨bytes, hlast, ?_⟩
  rw [hl.shown chunk (hs.owned chunk hmem) fun hk => haway chunk hk hmem]
  exact hshown

/-- An operation of the program. -/
theorem memory_follows {build : Build} {malloc : Malloc} (hs : e.Sound) (op : Op)
    (hop : op.Separate build e.memory) (hforeign : ∀ k ∈ op.operands, k ∉ e.owned) :
    ∃ e', e.perform build malloc (.memory op) = .ok e' ∧ Follows op.operands peer e e' := by
  obtain ⟨t, ht, hl⟩ := step_leaves malloc op hs.wf hop
  refine ⟨{ e with memory := t }, ?_, ?_⟩
  · rw [perform, ht]
    rfl
  · have hsound : Sound { e with memory := t, callback := e.callback } := by
      apply hs.relocate hl
      · intro r hr k hk hk'
        exact hforeign k hk' (mem_owned_refList hr hk)
      · intro k hk
        exact hl.lt (hs.owned k hk) fun hk' => hforeign k hk' hk
      · exact hs.nodup
      · exact hs.shows_leaves hl hforeign
    exact {
      sound := hsound
      leaves := hl.mono fun k _ hk => List.mem_append_right _ hk
      owned := fun k hk => .inl hk
      sent := List.prefix_rfl
      closed := fun h => ⟨rfl, h⟩
      arrived := List.prefix_rfl
      reads := .inl rfl
      ended := .inl }

/-- The stream takes on `bytes ++ more`: `bytes` are sent, and `more` is in the requests `reqs`. -/
def accept (e : Endpoint) (memory : State) (bytes more : Bytes) (reqs : List PackedReq) :
    Endpoint :=
  { e with
    memory := memory
    sent := e.sent ++ bytes
    written := e.written ++ (bytes ++ more)
    inFlight := e.inFlight ++ reqs }

theorem accept_owned (memory : State) (bytes more : Bytes) (reqs : List PackedReq) :
    (e.accept memory bytes more reqs).owned = e.owned ++ reqs.flatMap PackedReq.refList := by
  simp [accept, owned]

theorem accept_follows (peer : Endpoint) {t : State} {bytes more : Bytes} (reqs : List PackedReq)
    (hs : e.Sound)
    (hopen : e.fin = false) (hbytes : bytes ≠ [] → e.Flows ∧ e.pending = [])
    (hl : Leaves [] e.memory t)
    (hmore : reqs.flatMap (PackedReq.rest t.heap) = more)
    (hanchored : ∀ r ∈ reqs, ∀ u ∈ r.uvBufs, Anchored t r.refList u)
    (hnew : ∀ k ∈ reqs.flatMap PackedReq.refList, e.memory.handles.length ≤ k ∧ k < t.handles.length)
    (hnodup : (reqs.flatMap PackedReq.refList).Nodup) :
    Follows [] peer e (e.accept t bytes more reqs) := by
  have howned := accept_owned (e := e) t bytes more reqs
  have hpending : (e.accept t bytes more reqs).pending = e.pending ++ more := by
    rw [← hmore, ← pending_leaves hs hl fun _ _ _ _ => List.not_mem_nil]
    exact List.flatMap_append
  -- either nothing is sent at once, or nothing waits before it
  have hfirst : bytes = [] ∨ e.sent = e.written ∧ e.pending = [] := by
    by_cases h : bytes = []
    · exact .inl h
    · obtain ⟨⟨hbroken, hdestroyed, -⟩, hnone⟩ := hbytes h
      have hwhole := hs.whole hbroken hdestroyed
      rw [hnone, List.append_nil] at hwhole
      exact .inr ⟨hwhole, hnone⟩
  refine ⟨⟨hl.wf, ?_, ?_, ?_, ?_, ?_, hs.shut, ?_, hs.succeeded, hs.arrived,
    hs.shows_leaves hl (by simp)⟩, ?_, ?_, ?_, ?_, List.prefix_rfl, .inl rfl, .inl⟩
  · intro k hk
    rw [howned] at hk
    rcases List.mem_append.mp hk with hk | hk
    · exact hl.lt (hs.owned k hk) List.not_mem_nil
    · exact (hnew k hk).2
  · rw [howned, List.nodup_append]
    refine ⟨hs.nodup, hnodup, ?_⟩
    rintro k hk _ hk' rfl
    have hold := hs.owned k hk
    have hfresh := (hnew k hk').1
    omega
  · intro r hr u hu
    rcases List.mem_append.mp hr with hr | hr
    · exact ((hs.anchored r hr u hu).leaves hs.wf hl fun _ _ => List.not_mem_nil).1
    · exact hanchored r hr u hu
  · change e.sent ++ bytes <+: e.written ++ (bytes ++ more)
    rcases hfirst with rfl | ⟨heq, -⟩
    · rw [List.append_nil]
      exact hs.sent.trans (List.prefix_append _ _)
    · rw [heq, ← List.append_assoc]
      exact List.prefix_append _ _
  · intro hbroken hdestroyed
    have hwhole := hs.whole hbroken hdestroyed
    rw [hpending]
    change e.sent ++ bytes ++ (e.pending ++ more) = e.written ++ (bytes ++ more)
    rcases hfirst with rfl | ⟨heq, hnone⟩
    · rw [List.append_nil, List.nil_append, ← hwhole, List.append_assoc]
    · rw [hnone, heq, List.nil_append, List.append_assoc]
  · intro hfin
    exact absurd (hopen.symm.trans hfin) (by decide)
  · apply hl.mono
    intro k _ hk
    exact absurd hk List.not_mem_nil
  · intro k hk
    rw [howned] at hk
    rcases List.mem_append.mp hk with hk | hk
    · exact .inl hk
    · exact .inr (hnew k hk).1
  · exact List.prefix_append _ _
  · intro hclosed
    have hnone : bytes = [] := by
      by_contra h
      obtain ⟨⟨-, hdestroyed, hfin⟩, -⟩ := hbytes h
      rcases hclosed with hc | hc
      · exact absurd (hfin.symm.trans hc) (by decide)
      · exact absurd (hdestroyed.symm.trans hc) (by decide)
    refine ⟨?_, hclosed⟩
    change e.sent ++ bytes = e.sent
    rw [hnone, List.append_nil]

/-- The copies in a `ref_list` hold on to what is queued. -/
theorem queued_anchored (build : Build) (malloc : Malloc) {js : List Nat} (wi : Int)
    {queued : Queued} (hw : e.memory.Wf []) (hjs : ∀ j ∈ js, j < e.memory.handles.length)
    (htotal : ((js.map e.memory.refOf).map Ref.size).sum < 2^64)
    (h : streamWrite (js.map e.memory.refOf) wi = some (some queued)) :
    ∃ t, copies build malloc e.memory (js.drop (js.length - queued.refList.length)) = .ok t ∧
      Leaves [] e.memory t ∧
      t.handles.length = e.memory.handles.length + queued.refList.length ∧
      queued.uvBufs.flatMap (UvBuf.shown t.heap) =
        queued.uvBufs.flatMap (UvBuf.shown e.memory.heap) ∧
      ∀ u ∈ queued.uvBufs,
        Anchored t (List.range' e.memory.handles.length queued.refList.length) u := by
  obtain ⟨kept, hkept⟩ : ∃ kept, kept = js.drop (js.length - queued.refList.length) := ⟨_, rfl⟩
  have hrefs : queued.refList = kept.map e.memory.refOf := by
    have hdrop := tryThenQueue_refList h
    rw [List.length_map] at hdrop
    rw [hkept, List.map_drop]
    exact hdrop
  obtain ⟨t, ht, hl, hhandles⟩ := copies_spec build malloc kept hw
    fun j hj => hjs j (List.mem_of_mem_drop (hkept ▸ hj))
  have hlength : queued.refList.length = kept.length := by rw [hrefs, List.length_map]
  -- each range lies in a buffer that was passed, and so in its copy
  have hboth : ∀ u ∈ queued.uvBufs, Anchored e.memory js u ∧
      Anchored t (List.range' e.memory.handles.length queued.refList.length) u := by
    intro u hu
    obtain ⟨b, hb, off, hbase, hle⟩ := tryThenQueue_retained htotal h u hu
    rw [hrefs] at hb
    obtain ⟨j, hj, rfl⟩ := List.mem_map.mp hb
    have hjs' : j ∈ js := List.mem_of_mem_drop (hkept ▸ hj)
    obtain ⟨x, hx⟩ := has_get (hjs j hjs')
    rw [refOf_get hx] at hbase hle
    refine ⟨⟨j, hjs', x, hx, off, hbase, hle⟩, ?_⟩
    obtain ⟨m, hm, hget⟩ := List.mem_iff_getElem.mp hj
    refine ⟨e.memory.handles.length + m, ?_, ⟨x.ref, none⟩, ?_, off, hbase, hle⟩
    · rw [List.mem_range'_1]
      omega
    · rw [hhandles, List.getElem?_append_right (by omega), Nat.add_sub_cancel_left,
        List.getElem?_map, List.getElem?_eq_getElem hm, Option.map_some, hget, refOf_get hx]
  refine ⟨t, by rw [← hkept]; exact ht, hl, ?_, ?_, fun u hu => (hboth u hu).2⟩
  · rw [hhandles, List.length_append, List.length_map, hlength]
  · apply List.flatMap_congr
    intro u hu
    exact ((hboth u hu).1.leaves hw hl fun _ _ => List.not_mem_nil).2

/-- `uv::stream::_write`: what is sent at once and what is queued are the bytes of the buffers; if
it throws, what is sent at once is all that was taken on. -/
theorem writeBufs_follows (build : Build) (malloc : Malloc) (peer : Endpoint) (hs : e.Sound)
    {js : List Nat} {wi : Int} (ret : Int) (hopen : e.fin = false)
    (hjs : ∀ j ∈ js, j < e.memory.handles.length)
    (hcount : js.length < 2^32) (htotal : ((js.map e.memory.refOf).map Ref.size).sum < 2^64)
    (htakes : 0 < wi →
      e.Flows ∧ e.pending = [] ∧ wi ≤ ((js.map e.memory.refOf).map Ref.size).sum) :
    ∃ e' returned, e.writeBufs build malloc js wi ret = .ok (e', returned) ∧
      Follows [] peer e e' ∧ e'.flags = e.flags ∧ e'.fin = e.fin := by
  obtain ⟨bufs, hbufs⟩ : ∃ bufs, bufs = js.map e.memory.refOf := ⟨_, rfl⟩
  have hroom : ∀ b ∈ bufs, e.memory.heap.Room b.data b.size := by
    intro b hb
    rw [hbufs] at hb
    obtain ⟨j, hj, rfl⟩ := List.mem_map.mp hb
    obtain ⟨x, hx⟩ := has_get (hjs j hj)
    rw [refOf_get hx]
    exact hs.wf.room hx
  have hwi : wi ≤ (bufs.map Ref.size).sum := by
    by_cases hpos : 0 < wi
    · rw [hbufs]
      exact (htakes hpos).2.2
    · omega
  have hcountable : Countable bufs wi :=
    countable_of_lt (by rw [hbufs, List.length_map]; exact hcount) hwi
  obtain ⟨result, hresult, hall⟩ :=
    (tryThenQueue_bytes hroom (by rw [hbufs]; exact htotal) hwi).mpr hcountable
  have hbytes : accepted e.memory.heap bufs wi ≠ [] → e.Flows ∧ e.pending = [] := by
    intro hne
    by_cases hpos : 0 < wi
    · exact ⟨(htakes hpos).1, (htakes hpos).2.1⟩
    · have hzero : wi.toNat = 0 := by omega
      exact absurd (by rw [accepted, hzero, List.take_zero]) hne
  have hvalid : ¬∃ j ∈ js, e.memory.handles.length ≤ j := by
    rintro ⟨j, hj, hle⟩
    exact absurd (hjs j hj) (Nat.not_lt.mpr hle)
  unfold writeBufs
  simp only [if_neg hvalid, ← hbufs, streamWrite, hresult, call_defined]
  cases result with
  | none =>
    have hnone : accepted e.memory.heap bufs wi =
        (uvBufs bufs).flatMap (UvBuf.shown e.memory.heap) := by
      rw [← hall]
      exact (List.append_nil _).symm
    have hfollows := accept_follows peer [] hs hopen hbytes (.refl [] hs.wf)
      rfl (by simp) (by simp) (by simp)
    refine ⟨_, true, rfl, ?_, rfl, rfl⟩
    simp only [accept, List.flatMap_nil, List.append_nil, hnone] at hfollows
    rw [hnone]
    exact hfollows
  | some queued =>
    obtain ⟨t, ht, hl, hlen, hsame, hanchored⟩ :=
      queued_anchored build malloc wi hs.wf hjs htotal
        (by rw [← hbufs]; exact hresult)
    simp only [ht, call_bind]
    have hfresh : ∀ k ∈ List.range' e.memory.handles.length queued.refList.length,
        e.memory.handles.length ≤ k ∧ k < t.handles.length := by
      intro k hk
      rw [List.mem_range'_1] at hk
      omega
    by_cases hret : ret < 0
    · obtain ⟨u, hu, hdropped, hlen'⟩ := destroyAll_spec build malloc
        (List.range' e.memory.handles.length queued.refList.length) hl.wf
        fun k hk => (hfresh k hk).2
      have hlu : Leaves [] e.memory u := by
        apply (hl.trans hdropped).mono
        intro k hk hmem
        rw [List.nil_append] at hmem
        have hge := (hfresh k hmem).1
        omega
      have hfollows := accept_follows peer [] hs hopen hbytes hlu
        rfl (by simp) (by simp) (by simp)
      simp only [if_pos hret, hu, call_bind]
      refine ⟨_, false, rfl, ?_, rfl, rfl⟩
      simp only [accept, List.flatMap_nil, List.append_nil] at hfollows
      exact hfollows
    · have hmore : PackedReq.rest t.heap
          ⟨queued.uvBufs, 0, List.range' e.memory.handles.length queued.refList.length⟩ =
          queuedBytes e.memory.heap (some queued) := by
        rw [PackedReq.rest, List.drop_zero]
        exact hsame
      have hfollows := accept_follows peer
        [⟨queued.uvBufs, 0, List.range' e.memory.handles.length queued.refList.length⟩]
        hs hopen hbytes hl (by rw [List.flatMap_singleton, hmore])
        (by simpa using hanchored) (by simpa using hfresh) (by simp [List.nodup_range'])
      simp only [if_neg hret]
      refine ⟨_, true, rfl, ?_, rfl, rfl⟩
      rw [accept, hall] at hfollows
      exact hfollows

theorem Sound.apart (hs : e.Sound) {k : Nat}
    (hk : k ∈ e.allocBuffer :: e.callback.elim [] StreamCallback.handles) :
    ∀ r ∈ e.inFlight, k ∉ r.refList := by
  intro r hr hk'
  have hnodup : ((e.allocBuffer :: e.callback.elim [] StreamCallback.handles) ++
      e.inFlight.flatMap PackedReq.refList).Nodup := hs.nodup
  rw [List.nodup_append] at hnodup
  exact hnodup.2.2 k hk k (List.mem_flatMap.mpr ⟨r, hr, hk'⟩) rfl

/-- The program sees nothing of a change of the handles of callbacks. -/
theorem Sound.relocate_follows {t : State} {callback : Option StreamCallback} (hs : e.Sound)
    (hl : Leaves touched e.memory t) (hlen : e.memory.handles.length ≤ t.handles.length)
    (htouched : ∀ k ∈ touched, k ∈ e.allocBuffer :: e.callback.elim [] StreamCallback.handles)
    (hnew : ∀ k ∈ callback.elim [] StreamCallback.handles,
      k ∈ e.callback.elim [] StreamCallback.handles ∨
        e.memory.handles.length ≤ k ∧ k < t.handles.length)
    (hnodup : (callback.elim [] StreamCallback.handles).Nodup)
    (hshows : ∀ chunk, callback = some (.data chunk) →
      ∃ bytes, e.chunks.getLast? = some bytes ∧ t.shown chunk = some bytes) :
    Follows [] peer e { e with memory := t, callback := callback } := by
  have howned (k : Nat) (hk : k ∈ ({ e with callback := callback } : Endpoint).owned) :
      k ∈ e.owned ∨ e.memory.handles.length ≤ k ∧ k < t.handles.length := by
    rcases List.mem_cons.mp hk with rfl | hk
    · exact .inl List.mem_cons_self
    · rcases List.mem_append.mp hk with hk | hk
      · rcases hnew k hk with hold | hfresh
        · exact .inl (List.mem_cons_of_mem _ (List.mem_append_left _ hold))
        · exact .inr hfresh
      · exact .inl (List.mem_cons_of_mem _ (List.mem_append_right _ hk))
  have hold : (e.allocBuffer :: (e.callback.elim [] StreamCallback.handles ++
      e.inFlight.flatMap PackedReq.refList)).Nodup := hs.nodup
  rw [List.nodup_cons, List.nodup_append] at hold
  have hsound : Sound { e with memory := t, callback := callback } := by
    apply hs.relocate hl
    · intro r hr k hk hk'
      exact hs.apart (htouched k hk') r hr hk
    · intro k hk
      rcases howned k hk with hk | hk
      · exact Nat.lt_of_lt_of_le (hs.owned k hk) hlen
      · exact hk.2
    · -- what is new is behind all handles there were
      have hlt (k : Nat) (hk : k ∈ e.owned) : ¬e.memory.handles.length ≤ k :=
        Nat.not_le.mpr (hs.owned k hk)
      change (e.allocBuffer :: (callback.elim [] StreamCallback.handles ++
        e.inFlight.flatMap PackedReq.refList)).Nodup
      rw [List.nodup_cons, List.nodup_append]
      refine ⟨?_, hnodup, hold.2.2.1, ?_⟩
      · intro hk
        rcases List.mem_append.mp hk with hk | hk
        · rcases hnew _ hk with hk | hk
          · exact hold.1 (List.mem_append_left _ hk)
          · exact hlt _ List.mem_cons_self hk.1
        · exact hold.1 (List.mem_append_right _ hk)
      · rintro k hk _ hk' rfl
        rcases hnew k hk with hk | hk
        · exact hold.2.2.2 k hk k hk' rfl
        · exact hlt k (List.mem_cons_of_mem _ (List.mem_append_right _ hk')) hk.1
    · exact hshows
  exact {
    sound := hsound
    leaves := by
      apply hl.mono
      intro k _ hk
      rw [List.append_nil]
      rcases List.mem_cons.mp (htouched k hk) with rfl | hk
      · exact List.mem_cons_self
      · exact List.mem_cons_of_mem _ (List.mem_append_left _ hk)
    owned := fun k hk => (howned k hk).imp_right And.left
    sent := List.prefix_rfl
    closed := fun h => ⟨rfl, h⟩
    arrived := List.prefix_rfl
    reads := .inl rfl
    ended := .inl }

/-- The allocation callback: a block that nothing else refers to. -/
theorem alloc_spec (build : Build) (malloc : Malloc) (hs : e.Sound) :
    e.alloc build malloc = .ok none ∨
      ∃ t, e.alloc build malloc = .ok (some { e with memory := t }) ∧
        Leaves [e.allocBuffer] e.memory t ∧ e.memory.handles.length ≤ t.handles.length ∧
        ∃ x, t.handles[e.allocBuffer]? = some x ∧
          x.ref = ⟨some ⟨e.memory.heap.length, 0⟩, 4000, some e.memory.heap.length⟩ := by
  have hi := hs.owned e.allocBuffer List.mem_cons_self
  unfold alloc
  cases hallocate : allocate malloc e.memory.heap 4000 [] with
  | error stop =>
    cases stop with
    | badAlloc =>
      left
      simp only [Buffer.call, hallocate, call_stop]
      rfl
    | undefined => exact absurd hallocate fine_allocate
  | ok served =>
    obtain ⟨heap, ref⟩ := served
    right
    obtain ⟨hw, hq, ⟨hzero, -⟩ | ⟨-, href⟩⟩ := allocate_spec hs.wf (Nat.zero_le 4000) hallocate
    · cases hzero
    have hcall : Buffer.call build malloc e.memory (.constructSize .buffer 4000) =
        .ok (({ e.memory with heap := heap } : State).push ref none) := by
      simp only [Buffer.call, hallocate, call_bind]
      rfl
    obtain ⟨huw, huq, hu⟩ := constructSize_spec hs.wf hcall
    have hlength : e.memory.handles.length + 1 =
        (({ e.memory with heap := heap } : State).push ref none).handles.length := by
      simp [State.push]
    obtain ⟨-, hget⟩ := hu
    have hy : (({ e.memory with heap := heap } : State).push ref none).handles[
        e.memory.handles.length]? = some ⟨ref, none⟩ := by
      rw [State.push_get, if_pos rfl]
    obtain ⟨t, ht, hl, hlen, x, hx, hxref⟩ := moveAssign_fine build malloc
      huw (i := e.allocBuffer) (by omega) hy (by omega)
    simp only [hcall, ht, call_bind]
    refine ⟨t, rfl, ?_, by omega, x, hx, by rw [hxref, href]⟩
    apply ((leaves_of_push hs.wf huw huq).trans hl).mono
    intro k hk hmem
    simp only [List.nil_append, List.mem_cons, List.not_mem_nil, or_false] at hmem ⊢
    omega

/-- What is read goes to a block that nothing else refers to. -/
theorem write_leaves {s t : State} {k : Nat} {x : Handle} {b n : Nat} {bytes : Bytes}
    (hw : s.Wf []) (hl : Leaves [k] s t) (hx : t.handles[k]? = some x)
    (hxref : x.ref = ⟨some ⟨s.heap.length, 0⟩, n, some b⟩) (hn : bytes.length ≤ n) :
    ∃ heap, t.heap.write ⟨s.heap.length, 0⟩ bytes = some heap ∧
      Leaves [k] s { t with heap := heap } ∧
      heap.cellsAt (some ⟨s.heap.length, 0⟩) bytes.length = bytes := by
  have hroom := hl.wf.room hx
  rw [hxref] at hroom
  obtain ⟨heap, hwrite⟩ : ∃ heap, t.heap.write ⟨s.heap.length, 0⟩ bytes = some heap :=
    ⟨_, if_pos (hroom.mono hn)⟩
  refine ⟨heap, hwrite, ⟨hl.wf.write hwrite, fun j hj hj' => hl.handle j hj hj', ?_⟩, ?_⟩
  · intro j hj hj'
    obtain ⟨y, hy⟩ := has_get hj
    have hty := hl.get hj' hy
    rw [← hl.shown j hj hj', shown_of_get hl.wf hty, shown_of_get (hl.wf.write hwrite) hty]
    rw [Heap.cellsAt_write hwrite (hl.wf.room hty)]
    intro p hp hblock
    have hlt := block_lt hw hy hp
    rw [hblock] at hlt
    exact absurd hlt (Nat.lt_irrefl _)
  · have hbehind : t.heap.write ⟨s.heap.length, 0 + 0⟩ bytes = some heap := hwrite
    have hcells := Heap.cellsAt_write_behind hbehind
    rw [Nat.zero_add, Heap.cellsAt_zero, List.nil_append] at hcells
    exact hcells

theorem slice_front {data : Option Ptr} {p : Option Nat} {n m : Nat} (hdata : data.isSome = true)
    (hm : 0 < m) (hle : m ≤ n) : Buffer.slice ⟨data, n, p⟩ 0 m = ⟨advance data 0, m, p⟩ := by
  have hpos : data.isSome = true ∧ min 0 n < min m n := ⟨hdata, by omega⟩
  rw [Buffer.slice, if_pos hpos, Nat.zero_min, Nat.min_eq_left hle, Nat.sub_zero]

/-- The read callback: its chunk shows the bytes that were read. -/
theorem fill_follows {build : Build} {malloc : Malloc} {t : State} {x : Handle} {bytes : Bytes}
    (hs : e.Sound) (hnone : e.callback = none) (hl : Leaves [e.allocBuffer] e.memory t)
    (hlen : e.memory.handles.length ≤ t.handles.length)
    (hx : t.handles[e.allocBuffer]? = some x)
    (hxref : x.ref = ⟨some ⟨e.memory.heap.length, 0⟩, 4000, some e.memory.heap.length⟩)
    (hbytes : bytes.length ≤ 4000) (hreads : e.arrived ++ bytes <+: peer.sent) :
    ∃ e', fill build malloc { e with memory := t } bytes = .ok e' ∧ Follows [] peer e e' := by
  obtain ⟨heap, hwrite, hfilled, hcells⟩ := write_leaves hs.wf hl hx hxref hbytes
  have hi : e.allocBuffer < t.handles.length := (List.getElem?_eq_some_iff.mp hx).1
  simp only [fill, State.handle, hx, call_defined, hxref, hwrite]
  by_cases hempty : bytes = []
  · obtain ⟨u, hu, hreset, hlen'⟩ := reset_fine build malloc hfilled.wf hi
    simp only [if_pos hempty, hu, call_bind]
    refine ⟨_, rfl, ?_⟩
    apply hs.relocate_follows (hfilled.trans hreset) (Nat.le_trans hlen hlen')
    · intro k hk
      simp only [List.cons_append, List.nil_append, List.mem_cons, List.not_mem_nil, or_false,
        or_self] at hk
      rw [hk]
      exact List.mem_cons_self
    · intro k hk
      exact .inl hk
    · simp [hnone]
    · simp [hnone]
  · have hpos : 0 < bytes.length := List.length_pos_iff.mpr hempty
    have hcall : Buffer.call build malloc { t with heap := heap }
        (.slice .buffer e.allocBuffer 0 bytes.length) =
        .ok ((({ t with heap := heap } : State).retain (Buffer.slice x.ref 0 bytes.length)).push
          (Buffer.slice x.ref 0 bytes.length) none) := by
      simp only [Buffer.call, State.handle, hx, call_defined]
      rfl
    obtain ⟨huw, huq, -⟩ := sliceOp_spec hfilled.wf hcall
    generalize hu : (({ t with heap := heap } : State).retain
      (Buffer.slice x.ref 0 bytes.length)).push (Buffer.slice x.ref 0 bytes.length) none = u
      at hcall huw huq
    have hlast : u.handles[t.handles.length]? = some ⟨Buffer.slice x.ref 0 bytes.length, none⟩ := by
      rw [← hu]
      exact (State.push_get ..).trans (if_pos rfl)
    have hulen : u.handles.length = t.handles.length + 1 := by
      rw [← hu]
      simp [State.push, State.retain]
    have hshown : u.shown t.handles.length = some bytes := by
      rw [shown_of_get huw hlast, hxref, slice_front rfl hpos hbytes]
      have hsame := Heap.cellsAt_sameCells huq.cells (hfilled.wf.room hx) bytes.length
      rw [hxref] at hsame
      exact congrArg some (hsame.trans hcells)
    have hleaves := hfilled.trans (leaves_of_push hfilled.wf huw huq)
    rw [List.append_nil] at hleaves
    simp only [if_neg hempty, hcall, call_bind, hshown, call_defined]
    -- the bytes have arrived, and then the callback shows them
    have hread : Sound { e with arrived := e.arrived ++ bytes, chunks := e.chunks ++ [bytes] } :=
      { hs with
        arrived := by rw [List.flatten_append, hs.arrived, List.flatten_singleton]
        shows := by simp [hnone] }
    have hfollows : Follows [] peer
        { e with arrived := e.arrived ++ bytes, chunks := e.chunks ++ [bytes] }
        { e with
          memory := u
          callback := some (.data t.handles.length)
          arrived := e.arrived ++ bytes
          chunks := e.chunks ++ [bytes] } := by
      apply hread.relocate_follows hleaves
      · change e.memory.handles.length ≤ u.handles.length
        omega
      · intro k hk
        rw [List.mem_singleton.mp hk]
        exact List.mem_cons_self
      · intro k hk
        rw [List.mem_singleton.mp hk]
        exact .inr ⟨hlen, by omega⟩
      · exact List.nodup_singleton _
      · intro chunk hchunk
        obtain rfl : t.handles.length = chunk := by simpa using hchunk
        exact ⟨bytes, List.getLast?_concat, hshown⟩
    exact ⟨_, rfl, { hfollows with
      arrived := List.prefix_append _ _
      reads := .inr hreads
      ended := .inl }⟩

/-- libuv reads, with memory or without. -/
theorem readWith_follows {build : Build} {malloc : Malloc} {then' : Endpoint → Call Endpoint}
    (hs : e.Sound)
    (hthen : ∀ t, Leaves [e.allocBuffer] e.memory t → e.memory.handles.length ≤ t.handles.length →
      ∀ x, t.handles[e.allocBuffer]? = some x →
        x.ref = ⟨some ⟨e.memory.heap.length, 0⟩, 4000, some e.memory.heap.length⟩ →
          ∃ e', then' { e with memory := t } = .ok e' ∧ Follows [] peer e e') :
    ∃ e', e.readWith build malloc then' = .ok e' ∧ Follows [] peer e e' := by
  unfold readWith
  rcases alloc_spec build malloc hs with hfail | ⟨t, ht, hl, hlen, x, hx, hxref⟩
  · simp only [hfail, call_bind]
    refine ⟨_, rfl, ?_⟩
    have hfollows : Follows [] peer e { e with memory := e.memory, callback := some .failed } :=
      hs.relocate_follows (.refl [] hs.wf) (Nat.le_refl _) (by simp) (by simp [StreamCallback.handles])
        (by simp [StreamCallback.handles]) (by simp)
    exact hfollows
  · simp only [ht, call_bind]
    exact hthen t hl hlen x hx hxref

/-- The network takes the next bytes. -/
theorem flush_follows {build : Build} {malloc : Malloc} (hs : e.Sound) (hflows : e.Flows)
    (n : Nat) : ∃ e', e.perform build malloc (.flush n) = .ok e' ∧ Follows [] peer e e' := by
  obtain ⟨hbytes, hsame⟩ := flushNext_spec e.memory.heap n e.inFlight
  refine ⟨_, rfl, ?_⟩
  generalize flushNext e.memory.heap n e.inFlight = next at hbytes hsame
  obtain ⟨bytes, reqs⟩ := next
  have hlists : reqs.flatMap PackedReq.refList = e.inFlight.flatMap PackedReq.refList := by
    have hmap := congrArg (List.flatMap Prod.snd) hsame
    rw [List.flatMap_map, List.flatMap_map] at hmap
    exact hmap
  have howned : ({ e with sent := e.sent ++ bytes, inFlight := reqs } : Endpoint).owned =
      e.owned := by
    simp only [owned, hlists]
  have hwhole := hs.whole hflows.1 hflows.2.1
  have hsent : e.sent ++ bytes ++ reqs.flatMap (PackedReq.rest e.memory.heap) = e.written := by
    rw [List.append_assoc, hbytes]
    exact hwhole
  refine ⟨⟨hs.wf, ?_, ?_, ?_, ⟨_, hsent⟩, fun _ _ => hsent, hs.shut, ?_, hs.succeeded, hs.arrived,
    hs.shows⟩, .refl _ hs.wf, ?_, List.prefix_append _ _, ?_, List.prefix_rfl, .inl rfl, .inl⟩
  · rw [howned]
    exact hs.owned
  · rw [howned]
    exact hs.nodup
  · intro r hr u hu
    have hmem := List.mem_map_of_mem (f := fun r : PackedReq => (r.uvBufs, r.refList)) hr
    rw [hsame] at hmem
    obtain ⟨r', hr', heq⟩ := List.mem_map.mp hmem
    obtain ⟨hbufs, hlist⟩ := Prod.mk.inj heq
    rw [← hlist]
    exact hs.anchored r' hr' u (by rw [hbufs]; exact hu)
  · intro hfin
    exact absurd (hflows.2.2.symm.trans hfin) (by decide)
  · intro k hk
    rw [howned] at hk
    exact .inl hk
  · rintro (hfin | hdestroyed)
    · exact absurd (hflows.2.2.symm.trans hfin) (by decide)
    · exact absurd (hflows.2.1.symm.trans hdestroyed) (by decide)

theorem flatMap_eraseIdx {α β : Type} (f : α → List β) (xs : List α) (k : Nat)
    (h : ∀ x ∈ xs[k]?, f x = []) : (xs.eraseIdx k).flatMap f = xs.flatMap f := by
  induction xs generalizing k with
  | nil => rfl
  | cons x xs ih =>
    cases k with
    | zero =>
      have hx : f x = [] := h x rfl
      rw [List.eraseIdx_zero, List.tail_cons, List.flatMap_cons, hx, List.nil_append]
    | succ k =>
      rw [List.eraseIdx_cons_succ, List.flatMap_cons, List.flatMap_cons, ih k h]

theorem writeDone_follows (hs : e.Sound) (hnone : e.callback = none) {k : Nat} {status : Int}
    (hdone : status = 0 → ∀ r ∈ e.inFlight[k]?, r.rest e.memory.heap = [])
    (hfails : status ≠ 0 → e.broken = true ∨ e.flags.destroyed = true) :
    Follows [] peer e (e.writeDone k status) := by
  unfold writeDone
  cases hget : e.inFlight[k]? with
  | none => exact hs.follows_refl _ _
  | some r =>
    obtain ⟨hk, hr⟩ := List.getElem?_eq_some_iff.mp hget
    have hperm : (r :: e.inFlight.eraseIdx k).Perm e.inFlight := by
      rw [← hr]
      exact List.getElem_cons_eraseIdx_perm hk
    have howned : List.Perm (owned { e with
        inFlight := e.inFlight.eraseIdx k
        callback := some (.wrote r.refList (status ≠ 0)) }) e.owned := by
      simp only [owned, hnone, Option.elim_some, Option.elim_none, StreamCallback.handles,
        List.nil_append]
      apply List.Perm.cons
      have hflat := hperm.flatMap_right PackedReq.refList
      rw [List.flatMap_cons] at hflat
      exact hflat
    refine ⟨⟨hs.wf, fun i hi => hs.owned i (howned.mem_iff.mp hi), howned.nodup_iff.mpr hs.nodup, ?_,
      hs.sent, ?_, hs.shut, hs.finished, hs.succeeded, hs.arrived, by simp⟩, .refl _ hs.wf,
      fun i hi => .inl (howned.mem_iff.mp hi), List.prefix_rfl, fun h => ⟨rfl, h⟩, List.prefix_rfl,
      .inl rfl, .inl⟩
    · intro r' hr'
      exact hs.anchored r' (List.mem_of_mem_eraseIdx hr')
    · intro hbroken hdestroyed
      have hzero : status = 0 := by
        by_contra hne
        rcases hfails hne with h | h
        · exact absurd (hbroken.symm.trans h) (by decide)
        · exact absurd (hdestroyed.symm.trans h) (by decide)
      have hwhole := hs.whole hbroken hdestroyed
      rw [pending, ← flatMap_eraseIdx _ _ k (hget ▸ hdone hzero)] at hwhole
      exact hwhole

theorem resets_follows (build : Build) (malloc : Malloc) (peer : Endpoint) (hs : e.Sound)
    (ks : List Nat)
    (hks : ∀ k ∈ ks, k ∈ e.allocBuffer :: e.callback.elim [] StreamCallback.handles) :
    ∃ t, destroyAll build malloc e.memory ks = .ok t ∧
      Follows [] peer e { e with memory := t, callback := none } := by
  have hlt : ∀ k ∈ ks, k < e.memory.handles.length := by
    intro k hk
    apply hs.owned
    have hmem := hks k hk
    exact List.mem_append_left (e.inFlight.flatMap PackedReq.refList) hmem
  obtain ⟨t, ht, hl, hlen⟩ := destroyAll_spec build malloc ks hs.wf hlt
  exact ⟨t, ht, hs.relocate_follows hl hlen hks (by simp) (by simp) (by simp)⟩

theorem callbackReturns_follows {build : Build} {malloc : Malloc} (hs : e.Sound) :
    ∃ e', e.callbackReturns build malloc = .ok e' ∧ Follows [] peer e e' := by
  unfold callbackReturns
  cases hcallback : e.callback with
  | none => exact ⟨e, rfl, hs.follows_refl _ _⟩
  | some callback =>
    cases callback with
    | data chunk =>
      obtain ⟨t, ht, hfollows⟩ := resets_follows build malloc peer hs
        [chunk, e.allocBuffer] (by simp [hcallback, StreamCallback.handles])
      simp only [ht, call_bind]
      exact ⟨_, rfl, hfollows⟩
    | ended =>
      obtain ⟨t, ht, hfollows⟩ := resets_follows build malloc peer hs
        [e.allocBuffer] (by simp)
      simp only [ht, call_bind]
      refine ⟨_, rfl, ?_⟩
      split_ifs
      · exact hfollows.withFlags (HalfClose.goes_hangUp _) hs.succeeded rfl
      · exact hfollows.call (.endStream true)
    | failed =>
      obtain ⟨t, ht, hfollows⟩ := resets_follows build malloc peer hs
        [e.allocBuffer] (by simp)
      simp only [ht, call_bind]
      exact ⟨_, rfl, hfollows.call .destroy⟩
    | wrote refList failed =>
      obtain ⟨t, ht, hfollows⟩ := resets_follows build malloc peer hs
        refList (by
          intro k hk
          rw [hcallback]
          exact List.mem_cons_of_mem _ hk)
      simp only [ht, call_bind]
      refine ⟨_, rfl, ?_⟩
      split_ifs
      · exact hfollows.call .destroy
      · exact hfollows

theorem Sound.open_of_writable (hs : e.Sound) (hw : e.flags.isWritable = true) : e.fin = false := by
  by_contra h
  have hclosed := (hs.finished (by simpa using h)).2
  exact absurd (hw.symm.trans hclosed) (by decide)

theorem write_follows {build : Build} {malloc : Malloc} (hs : e.Sound) {js : List Nat} {wi : Int}
    (ret : Int) (hadmits : e.Admits build (.write js wi ret))
    (hoccurs : e.Occurs peer (.write js wi ret)) :
    ∃ e', e.write build malloc js wi ret = .ok e' ∧ Follows [] peer e e' := by
  unfold write
  cases hw : e.flags.isWritable with
  | false => exact ⟨e, rfl, hs.follows_refl _ _⟩
  | true =>
    obtain ⟨hjs, hcount, htotal⟩ := hadmits
    obtain ⟨e', returned, hwrite, hfollows, -⟩ := writeBufs_follows build malloc peer
      hs ret (hs.open_of_writable hw) hjs hcount htotal hoccurs
    simp only [Bool.not_true, Bool.false_eq_true, if_false, hwrite, call_bind]
    exact ⟨e', rfl, hfollows⟩

theorem endStream_follows {build : Build} {malloc : Malloc} (hs : e.Sound) {js : List Nat}
    {wi : Int} (ret : Int) (hadmits : e.Admits build (.endStream js wi ret))
    (hoccurs : e.Occurs peer (.endStream js wi ret)) :
    ∃ e', e.endStream build malloc js wi ret = .ok e' ∧ Follows [] peer e e' := by
  unfold endStream
  cases hw : e.flags.isWritable with
  | false => exact ⟨e, rfl, hs.follows_refl _ _⟩
  | true =>
    simp only [Bool.not_true, Bool.false_eq_true, if_false]
    by_cases hskip : e.flags.destroyed = true ∨ js = []
    · simp only [if_pos hskip, pure_bind]
      exact ⟨_, rfl, (hs.follows_refl [] peer).call (.endStream true)⟩
    · obtain ⟨hjs, hcount, htotal⟩ := hadmits
      obtain ⟨e', returned, hwrite, hfollows, -⟩ := writeBufs_follows build malloc peer
        hs ret (hs.open_of_writable hw) hjs hcount htotal hoccurs
      simp only [if_neg hskip, hwrite, call_bind]
      exact ⟨_, rfl, hfollows.call (.endStream returned)⟩

theorem shutDown_follows {build : Build} {malloc : Malloc} (hs : e.Sound)
    (hoccurs : e.Occurs peer .shutDown) :
    ∃ e', e.perform build malloc .shutDown = .ok e' ∧ Follows [] peer e e' := by
  obtain ⟨⟨hbroken, hdestroyed, hopen⟩, hshut, hnone⟩ := hoccurs
  have hwhole := hs.whole hbroken hdestroyed
  rw [hnone, List.append_nil] at hwhole
  refine ⟨_, rfl, ⟨{ hs with
    finished := fun _ => ⟨hwhole, hs.shut hshut⟩
    succeeded := fun _ => rfl }, .refl _ hs.wf, fun _ hk => .inl hk, List.prefix_rfl, ?_,
    List.prefix_rfl, .inl rfl, .inl⟩⟩
  intro _
  exact ⟨rfl, .inl rfl⟩

theorem shutdownDone_follows {build : Build} {malloc : Malloc} (hs : e.Sound) {status : Int}
    (hoccurs : e.Occurs peer (.shutdownDone status)) :
    ∃ e', e.perform build malloc (.shutdownDone status) = .ok e' ∧ Follows [] peer e e' := by
  obtain ⟨-, -, hfin⟩ := hoccurs
  obtain ⟨hstatuses, hread⟩ := e.flags.onShutdown_statuses status
  refine ⟨_, rfl, (hs.follows_refl [] peer).withFlags (e.flags.goes_onShutdown status) ?_ hread⟩
  intro hzero
  rw [hstatuses] at hzero
  rcases List.mem_append.mp hzero with hzero | hzero
  · exact hs.succeeded hzero
  · exact hfin (List.mem_singleton.mp hzero).symm

/-- The end of the peer is behind all that it sent. -/
theorem eof_follows {build : Build} {malloc : Malloc} (hs : e.Sound)
    (hoccurs : e.Occurs peer .eof) :
    ∃ e', e.perform build malloc .eof = .ok e' ∧ Follows [] peer e e' := by
  obtain ⟨-, -, -, hclosed, harrived⟩ := hoccurs
  apply readWith_follows hs
  intro t hl hlen x _ _
  refine ⟨_, rfl, ?_⟩
  have hfollows : Follows [] peer e { e with memory := t, callback := some .ended } :=
    hs.relocate_follows hl hlen (by simp) (by simp [StreamCallback.handles])
      (by simp [StreamCallback.handles]) (by simp)
  have hgoes := e.flags.goes_setReadingEnded
  refine { hfollows with
    sound := hfollows.sound.withFlags hgoes ?_
    closed := fun h => ⟨rfl, h.imp_right hgoes.destroyed⟩
    ended := fun _ => .inr ⟨harrived, hclosed⟩ }
  rw [HalfClose.setReadingEnded_statuses]
  exact hs.succeeded

end

end Endpoint

def EndpointLabel.operands : EndpointLabel → List Nat
  | .memory op => op.operands
  | _ => []

namespace Endpoint

/-- Every admitted step is defined, and loses, doubles or changes no byte. -/
theorem step_follows (build : Build) (malloc : Malloc) {e : Endpoint} (peer : Endpoint)
    (l : EndpointLabel) (hs : e.Sound) (hl : e.Admits build l) :
    ∃ e', e.step build malloc peer l = some e' ∧ Follows l.operands peer e e' := by
  unfold step
  by_cases hoccurs : e.Occurs peer l
  · rw [if_pos hoccurs]
    suffices h : ∃ e', e.perform build malloc l = .ok e' ∧ Follows l.operands peer e e' by
      obtain ⟨e', he, hfollows⟩ := h
      exact ⟨e', by rw [he]; rfl, hfollows⟩
    cases l with
    | memory op => exact memory_follows hs op hl.1 hl.2
    | write js wi ret => exact write_follows hs ret hl hoccurs
    | endStream js wi ret => exact endStream_follows hs ret hl hoccurs
    | resume accepted => exact ⟨_, rfl, (hs.follows_refl [] peer).call (.resume accepted)⟩
    | pause => exact ⟨_, rfl, (hs.follows_refl [] peer).call .pause⟩
    | destroy => exact ⟨_, rfl, (hs.follows_refl [] peer).call .destroy⟩
    | flush n => exact flush_follows hs hoccurs n
    | lose =>
      refine ⟨_, rfl, { hs.follows_refl [] peer with
        sound := { hs with whole := ?_ }
        closed := fun h => ⟨rfl, h⟩ }⟩
      intro hbroken
      cases hbroken
    | shutDown => exact shutDown_follows hs hoccurs
    | writeDone k status =>
      obtain ⟨hnone, hdone, hfails⟩ := hoccurs
      exact ⟨_, rfl, writeDone_follows hs (Option.isNone_iff_eq_none.mp hnone) hdone hfails⟩
    | shutdownDone status => exact shutdownDone_follows hs hoccurs
    | read bytes =>
      obtain ⟨hnone, -, -, hlen, hreads⟩ := hoccurs
      apply readWith_follows hs
      intro t ht hgrows x hx hxref
      exact fill_follows hs (Option.isNone_iff_eq_none.mp hnone) ht hgrows hx hxref hlen hreads
    | eof => exact eof_follows hs hoccurs
    | readFails =>
      apply readWith_follows hs
      intro t ht hgrows x _ _
      exact ⟨_, rfl, hs.relocate_follows ht hgrows (by simp) (by simp [StreamCallback.handles])
        (by simp [StreamCallback.handles]) (by simp)⟩
    | callbackReturns => exact callbackReturns_follows hs
  · rw [if_neg hoccurs]
    exact ⟨e, rfl, hs.follows_refl _ _⟩

end Endpoint

end Libnodecc.Stream
