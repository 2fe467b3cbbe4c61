import Libnodecc.Framework.Run
import Libnodecc.Http.HeaderMemory

namespace Libnodecc.Http

open Buffer Util

namespace MessageMemory

/-- What `_partial_header_field` is, after that many pieces: a part of a chunk, or a block that no
other handle has a part of. -/
def Held (s : State) (chunks : List Nat) (ref : Ref) : Pieces → Prop
  | .none => ref.data = none
  | .one => 0 < ref.size ∧ ∃ p, ref.data = some p ∧ p.block ∈ chunks
  | .many => 0 < ref.size ∧ ∃ p, ref.data = some p ∧ p.block ∉ chunks ∧
      ∀ (k : Nat) (h : Handle) (q : Ptr), k ≠ partialHeaderField → s.handles[k]? = some h →
        h.ref.data = some q → q.block ≠ p.block

/-- The pointer is to new memory, or to the block of another handle than `_partial_header_field`. -/
def Elsewhere (s : State) (q : Ptr) : Prop :=
  s.heap.length ≤ q.block ∨ ∃ (j : Nat) (h : Handle) (p : Ptr), j ≠ partialHeaderField ∧
    s.handles[j]? = some h ∧ h.ref.data = some p ∧ p.block = q.block

/-- What is kept between the callbacks. -/
structure Collecting (w : Watched) : Prop where
  exclusive : w.message.memory.Exclusive w.chunks []
  members : url < w.message.memory.handles.length
  headers : ∀ header ∈ w.message.headers, 4 ≤ header.1 ∧ 4 ≤ header.2
  parser : ∀ b, w.message.parserBuffer = some b → 4 ≤ b ∧ ∃ h,
    w.message.memory.handles[b]? = some h ∧ h.capacity = none ∧
      ∀ p, h.ref.data = some p → p.block ∈ w.chunks
  field : ∃ h, w.message.memory.handles[partialHeaderField]? = some h ∧
    Held w.message.memory w.chunks h.ref w.pieces
  value : ∃ h, w.message.memory.handles[partialHeaderValue]? = some h ∧
    (h.ref.data.isSome ↔ w.valued = true)

/-- The chunks keep their bytes, and the handles that the message does not collect in either show
what they showed, or belong to a value that is another one now. -/
structure Leaves (chunks : List Nat) (s t : State) : Prop where
  cells : ∀ b ∈ chunks, t.cellsOf b = s.cellsOf b
  others : ∀ k < s.handles.length, k ≠ partialHeaderField → k ≠ partialHeaderValue →
    t.handles[k]? = s.handles[k]? ∧ t.shown k = s.shown k ∨
      4 ≤ k ∧ ∃ h h', s.handles[k]? = some h ∧ t.handles[k]? = some h' ∧ h ≠ h'

/-- What a part of a chunk makes of the handle that it is appended to: it is taken over as it is,
or copied behind what is there, in place or in a new block. -/
inductive Joins (s t : State) (chunks : List Nat) (i length : Nat) (this : Handle) : Prop
  | empty (hlength : length = 0) (ht : t.handles[i]? = some this)
  | adopted (hlength : 0 < length) (hthis : this.ref.size = 0) (h : Handle) (p : Ptr)
    (ht : t.handles[i]? = some h) (hsize : 0 < h.ref.size) (hp : h.ref.data = some p)
    (hchunk : p.block ∈ chunks) (helse : Elsewhere s p)
  | extended (hlength : 0 < length) (hthis : 0 < this.ref.size) (hloose : this.Loose) (h : Handle)
    (ht : t.handles[i]? = some h) (hsize : 0 < h.ref.size) (hdata : h.ref.data = this.ref.data)
  | moved (hlength : 0 < length) (hthis : 0 < this.ref.size) (h : Handle) (p : Ptr)
    (ht : t.handles[i]? = some h) (hsize : 0 < h.ref.size) (hp : h.ref.data = some p)
    (hnew : s.heap.length ≤ p.block)

/-- A part of a chunk was appended to the handle `i`. -/
structure Collected (w : Watched) (m : MessageMemory) (i length : Nat) : Prop where
  exclusive : m.memory.Exclusive w.chunks []
  spares : Spares w.chunks [i, w.message.memory.handles.length] w.message.memory m.memory
  members : url < m.memory.handles.length
  headers : ∀ header ∈ m.headers, 4 ≤ header.1 ∧ 4 ≤ header.2
  parser : ∀ b, m.parserBuffer = some b → 4 ≤ b ∧ ∃ h, m.memory.handles[b]? = some h ∧
    h.capacity = none ∧ ∀ p, h.ref.data = some p → p.block ∈ w.chunks
  others : ∀ k < w.message.memory.handles.length, k ≠ i →
    m.memory.handles[k]? = w.message.memory.handles[k]?
  parts : ∀ (k : Nat) (h : Handle) (q : Ptr), k ≠ i → m.memory.handles[k]? = some h →
    h.ref.data = some q → w.message.memory.handles[k]? = some h
  joins : ∃ this, w.message.memory.handles[i]? = some this ∧
    Joins w.message.memory m.memory w.chunks i length this

section
variable {build : Build} {malloc : Malloc} {s t u : State} {m : MessageMemory} {w : Watched}
  {chunks touched : List Nat} {pieces : Pieces}

theorem Held.keep {chunks' : List Nat} {h : Handle} (hheld : Held s chunks h.ref pieces)
    (hw : s.Wf []) (hs : s.handles[partialHeaderField]? = some h)
    (hchunks : ∀ b, b ∈ chunks → b ∈ chunks')
    (hchunks' : ∀ b ∈ chunks', b ∈ chunks ∨ s.heap.length ≤ b)
    (hothers : ∀ (k : Nat) (h : Handle) (q : Ptr), k ≠ partialHeaderField →
      t.handles[k]? = some h → h.ref.data = some q → Elsewhere s q) :
    Held t chunks' h.ref pieces := by
  cases pieces with
  | none => exact hheld
  | one =>
    obtain ⟨hpos, p, hp, hmem⟩ := hheld
    exact ⟨hpos, p, hp, hchunks _ hmem⟩
  | many =>
    obtain ⟨hpos, p, hp, hmem, halone⟩ := hheld
    have hlt := block_lt hw hs hp
    refine ⟨hpos, p, hp, ?_, ?_⟩
    · intro hmem'
      rcases hchunks' _ hmem' with hold | hnew
      · exact hmem hold
      · omega
    · intro k h' q hk hh' hq
      rcases hothers k h' q hk hh' hq with hnew | ⟨j, h'', p', hj, hh'', hp', hblock⟩
      · omega
      · rw [← hblock]
        exact halone j h'' p' hj hh'' hp'

theorem elsewhere_of_get {k : Nat} {h : Handle} {q : Ptr} (hk : k ≠ partialHeaderField)
    (hh : s.handles[k]? = some h) (hq : h.ref.data = some q) : Elsewhere s q :=
  .inr ⟨k, h, q, hk, hh, hq, rfl⟩

theorem lt_of_touches {k : Nat} (ht : Touches touched s t) (hk : k ∉ touched)
    (hlt : k < s.handles.length) : k < t.handles.length := by
  have hget := (ht.others k hk).trans (List.getElem?_eq_getElem hlt)
  exact (List.getElem?_eq_some_iff.mp hget).1

theorem lt_of_get {k : Nat} {h : Handle} (hh : s.handles[k]? = some h) : k < s.handles.length :=
  (List.getElem?_eq_some_iff.mp hh).1

/-- A change of handles that are not collected in; there may be a new chunk. -/
theorem Collecting.keep {chunks' : List Nat} (hw : Collecting w)
    (hm : m.memory.Exclusive chunks' []) (ht : Touches touched w.message.memory m.memory)
    (htouched : ∀ k ∈ touched, k ≠ partialHeaderField ∧ k ≠ partialHeaderValue)
    (helse : ∀ k ∈ touched, ∀ h q, m.memory.handles[k]? = some h → h.ref.data = some q →
      Elsewhere w.message.memory q)
    (hchunks : ∀ b, b ∈ w.chunks → b ∈ chunks')
    (hchunks' : ∀ b ∈ chunks', b ∈ w.chunks ∨ w.message.memory.heap.length ≤ b)
    (hmembers : url ∉ touched ∨ url < m.memory.handles.length)
    (hheaders : ∀ header ∈ m.headers, 4 ≤ header.1 ∧ 4 ≤ header.2)
    (hparser : ∀ b, m.parserBuffer = some b → 4 ≤ b ∧ ∃ h, m.memory.handles[b]? = some h ∧
      h.capacity = none ∧ ∀ p, h.ref.data = some p → p.block ∈ chunks') :
    Collecting { w with message := m, chunks := chunks' } := by
  obtain ⟨field, hfield, hheld⟩ := hw.field
  obtain ⟨value, hvalue, hvalued⟩ := hw.value
  have hfieldm := (ht.others partialHeaderField fun hk => (htouched _ hk).1 rfl).trans hfield
  have hvaluem := (ht.others partialHeaderValue fun hk => (htouched _ hk).2 rfl).trans hvalue
  refine ⟨hm, ?_, hheaders, hparser, ⟨field, hfieldm, ?_⟩, ⟨value, hvaluem, hvalued⟩⟩
  · exact hmembers.elim (fun hk => lt_of_touches ht hk hw.members) id
  · refine hheld.keep hw.exclusive.wf hfield hchunks hchunks' ?_
    intro k h q hk hh hq
    by_cases hk' : k ∈ touched
    · exact helse k hk' h q hh hq
    · exact elsewhere_of_get hk ((ht.others k hk').symm.trans hh) hq

theorem Collecting.parser_keep (hw : Collecting w) (ht : Touches touched w.message.memory t)
    (htouched : ∀ k < w.message.memory.handles.length, 4 ≤ k → k ∉ touched) (b : Nat)
    (hb : w.message.parserBuffer = some b) : 4 ≤ b ∧ ∃ h, t.handles[b]? = some h ∧
      h.capacity = none ∧ ∀ p, h.ref.data = some p → p.block ∈ w.chunks := by
  obtain ⟨hle, h, hh, hplain, hchunks⟩ := hw.parser b hb
  exact ⟨hle, h, (ht.others b (htouched b (lt_of_get hh) hle)).trans hh, hplain, hchunks⟩

/-- A new handle on something that is not `_partial_header_field`. -/
theorem Collecting.push {h : Handle} (hw : Collecting w) (ht : t.Exclusive w.chunks [])
    (htq : Quiet [w.message.memory.handles.length] w.message.memory t)
    (hnew : t.handles[w.message.memory.handles.length]? = some h)
    (helse : ∀ q, h.ref.data = some q → Elsewhere w.message.memory q) :
    Collecting { w with message := { w.message with memory := t } } := by
  have hlt := hw.members
  have hsmall : partialHeaderField < url ∧ partialHeaderValue < url := by decide
  refine hw.keep ht htq.toTouches ?_ ?_ (fun _ hb => hb) (fun _ hb => .inl hb) ?_ hw.headers ?_
  · intro k hk
    obtain rfl := List.mem_singleton.mp hk
    omega
  · intro k hk h' q hh' hq
    obtain rfl := List.mem_singleton.mp hk
    obtain rfl := Option.some.inj (hnew.symm.trans hh')
    exact helse q hq
  · left
    rw [List.mem_singleton]
    omega
  · refine hw.parser_keep htq.toTouches ?_
    intro k hk _
    rw [List.mem_singleton]
    omega

theorem Leaves.of_spares (h : Spares chunks touched s t)
    (htouched : ∀ k < s.handles.length, k ∈ touched →
      k = partialHeaderField ∨ k = partialHeaderValue) : Leaves chunks s t := by
  refine ⟨h.cells, ?_⟩
  intro k hk hfield hvalue
  refine .inl (h.others k hk fun hmem => ?_)
  exact (htouched k hk hmem).elim hfield hvalue

theorem Leaves.after_spares (h : Spares chunks touched s t) (hhandles : t.handles = s.handles)
    (htouched : ∀ k ∈ touched, k = partialHeaderField) (h' : Leaves chunks t u) :
    Leaves chunks s u := by
  refine ⟨fun b hb => (h'.cells b hb).trans (h.cells b hb), ?_⟩
  intro k hk hfield hvalue
  obtain ⟨-, hshown⟩ := h.others k hk fun hmem => hfield (htouched k hmem)
  rw [← hhandles] at hk ⊢
  rw [← hshown]
  exact h'.others k hk hfield hvalue

theorem Leaves.trans_spares (h : Leaves chunks s t) (h' : Spares chunks touched t u)
    (htouched : ∀ k < s.handles.length, k ∈ touched →
      k = partialHeaderField ∨ k = partialHeaderValue) : Leaves chunks s u := by
  refine ⟨fun b hb => (h'.cells b hb).trans (h.cells b hb), ?_⟩
  intro k hk hfield hvalue
  have hk' : k ∉ touched := fun hmem => (htouched k hk hmem).elim hfield hvalue
  rcases h.others k hk hfield hvalue with ⟨hget, hshown⟩ | ⟨hle, x, y, hx, hy, hxy⟩
  · have hlt := lt_of_get (hget.trans (List.getElem?_eq_getElem hk))
    obtain ⟨hget', hshown'⟩ := h'.others k hlt hk'
    exact .inl ⟨hget'.trans hget, hshown'.trans hshown⟩
  · obtain ⟨hget', -⟩ := h'.others k (lt_of_get hy) hk'
    exact .inr ⟨hle, x, y, hx, hget'.trans hy, hxy⟩

theorem Leaves.unharmed (h : Leaves chunks s t) : Watched.Unharmed chunks s t := by
  refine ⟨h.cells, ?_⟩
  intro k hk _ hfield hvalue hsame
  rcases h.others k hk hfield hvalue with ⟨-, hshown⟩ | ⟨-, x, y, hx, hy, hxy⟩
  · exact hshown
  · exact absurd (Option.some.inj (hx.symm.trans (hsame.symm.trans hy))) hxy

theorem unharmed_of_quiet (hs : s.Exclusive chunks []) (htw : t.Wf []) (htq : Quiet touched s t) :
    Watched.Unharmed chunks s t := by
  refine ⟨fun b hb => cellsOf_sameCells htq.cells (hs.there b hb), ?_⟩
  intro k hk _ _ _ hsame
  have hget := List.getElem?_eq_getElem hk
  exact shown_sameCells hs.wf htw htq.cells hget (hsame.trans hget)

theorem Leaves.unharmed_quiet (h : Leaves chunks s t) (ht : t.Exclusive chunks [])
    (huw : u.Wf []) (hq : Quiet touched t u)
    (htouched : ∀ k < t.handles.length, 4 ≤ k → k ∉ touched) : Watched.Unharmed chunks s u := by
  refine ⟨?_, ?_⟩
  · intro b hb
    exact (cellsOf_sameCells hq.cells (ht.there b hb)).trans (h.cells b hb)
  · intro k hk _ hfield hvalue hsame
    rcases h.others k hk hfield hvalue with ⟨hget, hshown⟩ | ⟨hle, x, y, hx, hy, hxy⟩
    · have htk := hget.trans (List.getElem?_eq_getElem hk)
      rw [← hshown]
      exact shown_sameCells ht.wf huw hq.cells htk (hsame.trans (List.getElem?_eq_getElem hk))
    · have huk := (hq.others k (htouched k (lt_of_get hy) hle)).trans hy
      exact absurd (Option.some.inj (hx.symm.trans (hsame.symm.trans huk))) hxy

theorem given_ok {start length b : Nat} {buf : Handle} : m.given start length = .ok (b, buf) ↔
    m.parserBuffer = some b ∧ m.memory.handles[b]? = some buf ∧ start + length ≤ buf.ref.size := by
  simp only [given, bind_ok, defined_ok, handle_ok]
  constructor
  · rintro ⟨b', hb, buf', hbuf, h⟩
    split_ifs at h with hle
    cases h
    exact ⟨hb, hbuf, hle⟩
  · rintro ⟨hb, hbuf, hle⟩
    refine ⟨b, hb, buf, hbuf, ?_⟩
    rw [if_pos hle]
    rfl

theorem slice_size {heap : Heap UInt8} {this : Ref} {start length : Nat}
    (hroom : heap.Room this.data this.size) (hle : start + length ≤ this.size) :
    (slice this start (start + length)).size = length := by
  unfold slice
  simp only
  split_ifs with hslice
  · simp only
    omega
  · -- there is nothing to slice
    cases hd : this.data with
    | some p =>
      rw [hd] at hslice
      simp only [Option.isSome_some, true_and] at hslice
      show 0 = length
      omega
    | none =>
      rw [hd] at hroom
      have hzero : this.size = 0 := hroom
      show 0 = length
      omega

/-- A part of the chunk that is parsed. -/
theorem Collecting.buffer (hw : Collecting w) {start length : Nat}
    (h : w.message.buffer build malloc start length = .ok t) : t.Exclusive w.chunks [] ∧
      Quiet [w.message.memory.handles.length] w.message.memory t ∧
      ∃ ref, t.handles[w.message.memory.handles.length]? = some ⟨ref, none⟩ ∧ ref.size = length ∧
        ∀ p, ref.data = some p → p.block ∈ w.chunks ∧ Elsewhere w.message.memory p := by
  simp only [MessageMemory.buffer, bind_ok] at h
  obtain ⟨⟨b, buf⟩, hgiven, h⟩ := h
  obtain ⟨hb, hbuf, hle⟩ := given_ok.mp hgiven
  obtain ⟨hb4, h', hh', -, hchunks⟩ := hw.parser b hb
  obtain rfl := Option.some.inj (hbuf.symm.trans hh')
  obtain ⟨hte, htq, this, hthis, hnew⟩ := hw.exclusive.slice h
  obtain rfl := Option.some.inj (hbuf.symm.trans hthis)
  refine ⟨hte, htq, _, hnew, slice_size (hw.exclusive.wf.room hbuf) hle, ?_⟩
  intro p hp
  obtain ⟨q, hq, hblock, -⟩ := slice_data hp
  refine ⟨hblock ▸ hchunks q hq, .inr ⟨b, buf, q, ?_, hbuf, hq, hblock⟩⟩
  have hfield : partialHeaderField < 4 := by decide
  omega

/-- A chunk that is read: its block is new, and so are the handles on it. -/
theorem Collecting.chunk (hw : Collecting w) {memory : Region} {nread : Nat}
    (h : w.message.perform build malloc (.chunk memory nread) = .ok m) :
    Collecting (w.after m (.chunk memory nread)) ∧
      Watched.Unharmed w.chunks w.message.memory m.memory := by
  simp only [perform, bind_ok, pure_ok] at h
  obtain ⟨u, hu, t, ht, rfl⟩ := h
  have hlt := hw.members
  have hsmall : partialHeaderField < url ∧ partialHeaderValue < url ∧ 3 ≤ url := by decide
  obtain ⟨hue, huq, hunew⟩ := hw.exclusive.fresh hu
  obtain ⟨hte, htq, whole, hwhole, htnew⟩ := hue.slice ht
  obtain rfl := Option.some.inj (hunew.symm.trans hwhole)
  have hulen : u.handles.length = w.message.memory.handles.length + 1 := by
    cases hu
    simp [State.push]
  rw [hulen] at htq htnew
  have hq : Quiet [w.message.memory.handles.length, w.message.memory.handles.length + 1]
      w.message.memory t := (huq.mono (by simp)).trans (htq.mono (by simp))
  have hblock (q : Ptr) (hq : (slice ⟨some ⟨w.message.memory.heap.length, 0⟩, memory.bytes.length,
      some w.message.memory.heap.length⟩ 0 nread).data = some q) :
      w.message.memory.heap.length = q.block := by
    obtain ⟨p, hp, hblock, -⟩ := slice_data hq
    obtain rfl := Option.some.inj hp
    exact hblock
  refine ⟨?_, unharmed_of_quiet hw.exclusive hte.wf hq⟩
  refine hw.keep hte hq.toTouches ?_ ?_ (fun _ hb => List.mem_cons_of_mem _ hb) ?_ ?_ hw.headers ?_
  · intro k hk
    simp only [List.mem_cons, List.not_mem_nil, or_false] at hk
    omega
  · intro k hk h q hh hq
    left
    simp only [List.mem_cons, List.not_mem_nil, or_false] at hk
    rcases hk with rfl | rfl
    · obtain rfl := Option.some.inj (((htq.others _ (by simp)).trans hunew).symm.trans hh)
      obtain rfl := Option.some.inj hq
      exact Nat.le_refl _
    · obtain rfl := Option.some.inj (htnew.symm.trans hh)
      exact Nat.le_of_eq (hblock q hq)
  · intro b hb
    rcases List.mem_cons.mp hb with rfl | hb
    · exact .inr (Nat.le_refl _)
    · exact .inl hb
  · left
    simp only [List.mem_cons, List.not_mem_nil, or_false]
    omega
  · intro b hb
    obtain rfl := Option.some.inj hb
    refine ⟨by omega, _, htnew, rfl, ?_⟩
    intro p hp
    rw [← hblock p hp]
    exact List.mem_cons_self ..

theorem Collecting.share (hw : Collecting w) {j : Nat}
    (h : w.message.perform build malloc (.share j) = .ok m) :
    Collecting { w with message := m } ∧ Watched.Unharmed w.chunks w.message.memory m.memory := by
  simp only [perform] at h
  split_ifs at h with hj
  simp only [bind_ok, pure_ok] at h
  obtain ⟨t, ht, rfl⟩ := h
  obtain ⟨hte, htq, other, hother, hnew⟩ := hw.exclusive.copy ht
  refine ⟨hw.push hte htq hnew ?_, unharmed_of_quiet hw.exclusive hte.wf htq⟩
  intro q hq
  exact elsewhere_of_get (fun hfield => hj (.inl hfield)) hother hq

theorem Collecting.slice (hw : Collecting w) {j first last : Nat}
    (h : w.message.perform build malloc (.slice j first last) = .ok m) :
    Collecting { w with message := m } ∧ Watched.Unharmed w.chunks w.message.memory m.memory := by
  simp only [perform] at h
  split_ifs at h with hj
  simp only [bind_ok, pure_ok] at h
  obtain ⟨t, ht, rfl⟩ := h
  obtain ⟨hte, htq, this, hthis, hnew⟩ := hw.exclusive.slice ht
  refine ⟨hw.push hte htq hnew ?_, unharmed_of_quiet hw.exclusive hte.wf htq⟩
  intro q hq
  obtain ⟨p, hp, hblock, -⟩ := slice_data hq
  exact .inr ⟨j, this, p, fun hfield => hj (.inl hfield), hthis, hp, hblock⟩

/-- Handles that are reset, other than those that are collected in. -/
theorem Collecting.cleared (hw : Collecting w) (hte : m.memory.Exclusive w.chunks [])
    (htq : Quiet touched w.message.memory m.memory)
    (htouched : ∀ k ∈ touched, k ≠ partialHeaderField ∧ k ≠ partialHeaderValue)
    (hnull : ∀ k ∈ touched, Emptied w.message.memory m.memory k)
    (hheaders : ∀ header ∈ m.headers, 4 ≤ header.1 ∧ 4 ≤ header.2)
    (hparser : m.parserBuffer = w.message.parserBuffer) : Collecting { w with message := m } := by
  refine hw.keep hte htq.toTouches htouched ?_ (fun _ hb => hb) (fun _ hb => .inl hb) ?_ hheaders ?_
  · intro k hk h q hh hq
    obtain ⟨capacity, hget, -⟩ := hnull k hk
    obtain rfl := Option.some.inj (hget.symm.trans hh)
    cases hq
  · by_cases hurl : url ∈ touched
    · obtain ⟨capacity, hget, -⟩ := hnull url hurl
      exact .inr (lt_of_get hget)
    · exact .inl hurl
  · intro b hb
    obtain ⟨hle, h, hh, hplain, hchunks⟩ := hw.parser b (hparser.symm.trans hb)
    refine ⟨hle, ?_⟩
    by_cases hmem : b ∈ touched
    · obtain ⟨capacity, hget, hcapacity⟩ := hnull b hmem
      exact ⟨_, hget, hcapacity h hh hplain, nofun⟩
    · exact ⟨h, (htq.others b hmem).trans hh, hplain, hchunks⟩

theorem Collecting.drop (hw : Collecting w) {k : Nat}
    (h : w.message.perform build malloc (.drop k) = .ok m) :
    Collecting { w with message := m } ∧ Watched.Unharmed w.chunks w.message.memory m.memory := by
  simp only [perform] at h
  split_ifs at h with hk
  simp only [bind_ok, pure_ok] at h
  obtain ⟨t, ht, rfl⟩ := h
  obtain ⟨hte, htq, hnull⟩ := hw.exclusive.reset (fun _ hi => .inl hi) ht
  refine ⟨hw.cleared hte htq ?_ ?_ hw.headers rfl, unharmed_of_quiet hw.exclusive hte.wf htq⟩
  · intro k' hk'
    obtain rfl := List.mem_singleton.mp hk'
    constructor
    · rintro rfl
      exact hk (by simp [own])
    · rintro rfl
      exact hk (by simp [own])
  · intro k' hk'
    obtain rfl := List.mem_singleton.mp hk'
    exact hnull

/-- All handles in a list are reset. -/
theorem resetAll_spec {ks : List Nat} (hs : s.Exclusive chunks [])
    (h : resetAll build malloc ks s = .ok t) : t.Exclusive chunks [] ∧ Quiet ks s t ∧
      ∀ k ∈ ks, Emptied s t k := by
  induction ks generalizing s with
  | nil =>
    cases h
    exact ⟨hs, Quiet.refl _ _, nofun⟩
  | cons k ks ih =>
    simp only [resetAll, List.foldlM_cons, bind_ok] at h
    obtain ⟨u, hu, h⟩ := h
    obtain ⟨hue, huq, capacity, hnull, hplain⟩ := hs.reset (fun _ hi => .inl hi) hu
    obtain ⟨hte, htq, hks⟩ := ih hue h
    refine ⟨hte, (huq.mono (by simp)).trans (htq.mono (by simp +contextual)), ?_⟩
    intro k' hk'
    by_cases hmem : k' ∈ ks
    · obtain ⟨capacity', hnull', hplain'⟩ := hks k' hmem
      refine ⟨capacity', hnull', ?_⟩
      intro x hx hxplain
      by_cases hkk : k' = k
      · subst hkk
        exact hplain' _ hnull (hplain x hx hxplain)
      · exact hplain' x ((huq.others k' (by simpa using hkk)).trans hx) hxplain
    · obtain rfl := (List.mem_cons.mp hk').resolve_right hmem
      exact ⟨capacity, (htq.others k' hmem).trans hnull, hplain⟩

theorem Collecting.messageComplete (hw : Collecting w) {isWebsocket : Bool}
    (h : w.message.perform build malloc (.onMessageComplete isWebsocket) = .ok m) :
    Collecting { w with message := m } ∧ Watched.Unharmed w.chunks w.message.memory m.memory := by
  cases isWebsocket with
  | true =>
    cases h
    exact ⟨hw, unharmed_of_quiet hw.exclusive hw.exclusive.wf (Quiet.refl [] _)⟩
  | false =>
    simp only [perform, Bool.false_eq_true, if_false, bind_ok, pure_ok] at h
    obtain ⟨t, ht, rfl⟩ := h
    obtain ⟨hte, htq, hnull⟩ := resetAll_spec hw.exclusive ht
    refine ⟨hw.cleared hte htq ?_ hnull nofun rfl, unharmed_of_quiet hw.exclusive hte.wf htq⟩
    intro k hk
    have hsmall : genericValue ≠ partialHeaderField ∧ genericValue ≠ partialHeaderValue ∧
        url ≠ partialHeaderField ∧ url ≠ partialHeaderValue ∧ partialHeaderField < 4 ∧
        partialHeaderValue < 4 := by decide
    simp only [List.cons_append, List.mem_cons, List.mem_append, List.mem_flatMap,
      List.not_mem_nil, or_false] at hk
    rcases hk with rfl | ⟨header, hheader, rfl | rfl⟩ | rfl
    · exact ⟨hsmall.1, hsmall.2.1⟩
    · have hle := (hw.headers header hheader).1
      omega
    · have hle := (hw.headers header hheader).2
      omega
    · exact ⟨hsmall.2.2.1, hsmall.2.2.2.1⟩

theorem Collecting.body (hw : Collecting w) {start length : Nat}
    (h : w.message.perform build malloc (.onBody start length) = .ok m) :
    Collecting { w with message := m } ∧ Watched.Unharmed w.chunks w.message.memory m.memory := by
  simp only [perform, bind_ok, pure_ok] at h
  obtain ⟨t, ht, rfl⟩ := h
  obtain ⟨hte, htq, ref, hnew, -, hparts⟩ := hw.buffer ht
  refine ⟨hw.push hte htq hnew fun q hq => (hparts q hq).2, ?_⟩
  exact unharmed_of_quiet hw.exclusive hte.wf htq

theorem Appended.elsewhere {i size : Nat} (happ : Appended s t i size)
    (hi : i ≠ partialHeaderField) (h : Handle) (q : Ptr) (hh : t.handles[i]? = some h)
    (hq : h.ref.data = some q) : Elsewhere s q := by
  cases happ with
  | inPlace this capacity hthis _ _ ht =>
    obtain rfl := Option.some.inj (ht.symm.trans hh)
    exact elsewhere_of_get hi hthis hq
  | moved capacity _ _ ht =>
    obtain rfl := Option.some.inj (ht.symm.trans hh)
    obtain rfl := Option.some.inj hq
    exact .inl (Nat.le_refl _)

theorem Appended.get {i size : Nat} (happ : Appended s t i size) :
    ∃ h, t.handles[i]? = some h ∧ h.ref.size = size := by
  cases happ with
  | inPlace this capacity _ _ _ ht => exact ⟨_, ht, rfl⟩
  | moved capacity _ _ ht => exact ⟨_, ht, rfl⟩

theorem read_length {data : Option Ptr} {n : Nat} (heap : Heap UInt8) (bytes : Bytes)
    (h : heap.read data n = some bytes) : bytes.length = n := by
  obtain ⟨hroom, rfl⟩ := Heap.read_eq_some.mp h
  exact hroom.cellsAt_length

theorem Collecting.onUrl (hw : Collecting w) {start length : Nat}
    (h : w.message.perform build malloc (.onUrl start length) = .ok m) :
    Collecting { w with message := m } ∧ Watched.Unharmed w.chunks w.message.memory m.memory := by
  simp only [perform, bind_ok, pure_ok] at h
  obtain ⟨⟨b, buf⟩, hgiven, t, ht, rfl⟩ := h
  obtain ⟨-, hbuf, hle⟩ := given_ok.mp hgiven
  have hsmall := size_lt hw.exclusive.wf hbuf
  have hne : genericValue ≠ partialHeaderField ∧ genericValue ≠ partialHeaderValue ∧
      url ≠ genericValue ∧ genericValue < 4 := by decide
  obtain ⟨hte, htouches, hspares, this, -, -, happ⟩ :=
    hw.exclusive.append (by omega) read_length ht
  refine ⟨?_, ⟨hspares.cells, ?_⟩⟩
  · refine hw.keep hte htouches ?_ ?_ (fun _ hb => hb) (fun _ hb => .inl hb) ?_ hw.headers ?_
    · intro k hk
      obtain rfl := List.mem_singleton.mp hk
      exact ⟨hne.1, hne.2.1⟩
    · intro k hk h q hh hq
      obtain rfl := List.mem_singleton.mp hk
      exact Appended.elsewhere happ hne.1 h q hh hq
    · exact .inl fun hmem => hne.2.2.1 (List.mem_singleton.mp hmem)
    · refine hw.parser_keep htouches ?_
      intro k _ hk hmem
      rw [List.mem_singleton] at hmem
      omega
  · intro k hk hgeneric _ _ _
    exact (hspares.others k hk fun hmem => hgeneric (List.mem_singleton.mp hmem)).2

theorem heap_length_le (ht : Touches touched s t) : s.heap.length ≤ t.heap.length := by
  rcases Nat.eq_zero_or_pos s.heap.length with hzero | hpos
  · omega
  · have hlt := ht.heap_length (Nat.sub_one_lt_of_lt hpos)
    omega

theorem Joins.congr {i length : Nat} {this : Handle} (h : Joins s t chunks i length this)
    (hget : u.handles[i]? = t.handles[i]?) : Joins s u chunks i length this := by
  cases h with
  | empty hlength ht => exact .empty hlength (hget.trans ht)
  | adopted hlength hthis h p ht hsize hp hchunk helse =>
    exact .adopted hlength hthis h p (hget.trans ht) hsize hp hchunk helse
  | extended hlength hthis hloose h ht hsize hdata =>
    exact .extended hlength hthis hloose h (hget.trans ht) hsize hdata
  | moved hlength hthis h p ht hsize hp hnew =>
    exact .moved hlength hthis h p (hget.trans ht) hsize hp hnew

/-- What an append of a whole buffer makes of the handle, if the buffer is a part of a chunk. -/
theorem Joined.joins {i length : Nat} {this : Handle} {ref : Ref}
    (hsu : s.heap.length ≤ t.heap.length)
    (hthis : t.handles[i]? = some this) (hlength : ref.size = length)
    (hparts : ∀ p, ref.data = some p → p.block ∈ chunks ∧ Elsewhere s p)
    (hjoined : Joined t u i this.ref ref) : Joins s u chunks i length this := by
  subst hlength
  cases hjoined with
  | nothing hempty hut =>
    subst hut
    exact .empty hempty hthis
  | adopted hzero hpos p hp hui =>
    obtain ⟨hchunk, helse⟩ := hparts p hp
    exact .adopted hpos hzero _ p hui hpos hp hchunk helse
  | added hfilled hpos happ =>
    have hsize : 0 < ref.size + this.ref.size := by omega
    cases happ with
    | inPlace this' capacity hthis' hcapacity hle hui =>
      obtain rfl := Option.some.inj (hthis.symm.trans hthis')
      exact .extended hpos hfilled ⟨capacity, hcapacity, by omega⟩ _ hui hsize rfl
    | moved capacity hle hroom hui => exact .moved hpos hfilled _ _ hui hsize rfl hsu

theorem Collecting.collect (hw : Collecting w) {i start length : Nat} (hi : i < url)
    (h : w.message.collect build malloc i start length = .ok m) : Collected w m i length := by
  simp only [MessageMemory.collect, bind_ok, pure_ok] at h
  obtain ⟨u, hu, v, hv, t, ht, rfl⟩ := h
  have hlt := hw.members
  have hurl : 3 ≤ url := by decide
  have hin : i ≠ w.message.memory.handles.length := by omega
  obtain ⟨hue, huq, ref, hunew, hlength, hparts⟩ := hw.buffer hu
  obtain ⟨this, hthis⟩ := has_get (show i < w.message.memory.handles.length by omega)
  have huthis := (huq.others i (by simpa using hin)).trans hthis
  have hcount : ref.size ≤ npos := by
    have hsmall := size_lt hue.wf hunew
    have hnpos : 2^63 ≤ npos := by decide
    exact Nat.le_trans (Nat.le_of_lt hsmall) hnpos
  obtain ⟨hve, hvt, hvspares, hjoined⟩ := hue.appendBuffer huthis hunew hcount hv
  obtain ⟨hte, htq, capacity, hnull, -⟩ := hve.reset (fun _ hk => .inl hk) ht
  have hget (k : Nat) (hk : k ≠ i) (hn : k ≠ w.message.memory.handles.length) :
      t.handles[k]? = w.message.memory.handles[k]? := by
    rw [htq.others k (by simpa using hn), hvt.others k (by simpa using hk),
      huq.others k (by simpa using hn)]
  have hothers (k : Nat) (hk : k < w.message.memory.handles.length) (hki : k ≠ i) :
      t.handles[k]? = w.message.memory.handles[k]? := hget k hki (by omega)
  refine ⟨hte, ?_, ?_, hw.headers, ?_, hothers, ?_, this, hthis, ?_⟩
  · have hfirst := hw.exclusive.spares_of_quiet hue.wf huq
    have hlast := hve.spares_of_quiet hte.wf htq
    refine ((hfirst.mono ?_).trans (hvspares.mono ?_)).trans (hlast.mono ?_)
    · exact fun k _ hk => List.mem_cons_of_mem _ hk
    · exact fun k _ hk => List.mem_cons.mpr (.inl (List.mem_singleton.mp hk))
    · exact fun k _ hk => List.mem_cons_of_mem _ hk
  · exact lt_of_get ((hothers url hlt (by omega)).trans (List.getElem?_eq_getElem hlt))
  · intro b hb
    obtain ⟨hle, x, hx, hplain, hchunk⟩ := hw.parser b hb
    have hne : b ≠ i := by
      have hfour : url < 4 := by decide
      omega
    exact ⟨hle, x, (hothers b (lt_of_get hx) hne).trans hx, hplain, hchunk⟩
  · intro k x q hk hx hq
    by_cases hn : k = w.message.memory.handles.length
    · rw [hn, hnull] at hx
      cases hx
      cases hq
    · exact (hget k hk hn).symm.trans hx
  · have hjoins := Joined.joins (heap_length_le huq.toTouches) huthis hlength hparts hjoined
    exact hjoins.congr (htq.others i (by simpa using hin))

/-- What a piece makes of the handle is elsewhere than `_partial_header_field`, if that is another
handle. -/
theorem Joins.elsewhere {i length : Nat} {this : Handle} (hjoins : Joins s t chunks i length this)
    (hi : i ≠ partialHeaderField) (hthis : s.handles[i]? = some this) (h : Handle) (q : Ptr)
    (hh : t.handles[i]? = some h) (hq : h.ref.data = some q) : Elsewhere s q := by
  cases hjoins with
  | empty _ ht =>
    obtain rfl := Option.some.inj (ht.symm.trans hh)
    exact elsewhere_of_get hi hthis hq
  | adopted _ _ h' p ht _ hp _ helse =>
    obtain rfl := Option.some.inj (ht.symm.trans hh)
    obtain rfl := Option.some.inj (hp.symm.trans hq)
    exact helse
  | extended _ _ _ h' ht _ hdata =>
    obtain rfl := Option.some.inj (ht.symm.trans hh)
    exact elsewhere_of_get hi hthis (hdata.symm.trans hq)
  | moved _ _ h' p ht _ hp hnew =>
    obtain rfl := Option.some.inj (ht.symm.trans hh)
    obtain rfl := Option.some.inj (hp.symm.trans hq)
    exact .inl hnew

/-- The name is a part of the chunk as long as it has come in one piece. -/
theorem Joins.held {length : Nat} {this : Handle} (hs : s.Exclusive chunks [])
    (hthis : s.handles[partialHeaderField]? = some this) (hheld : Held s chunks this.ref pieces)
    (hjoins : Joins s t chunks partialHeaderField length this)
    (hothers : ∀ (k : Nat) (h : Handle) (q : Ptr), k ≠ partialHeaderField →
      t.handles[k]? = some h → h.ref.data = some q → s.handles[k]? = some h) :
    ∃ h, t.handles[partialHeaderField]? = some h ∧ Held t chunks h.ref (pieces.add length) := by
  have hnone (hfilled : 0 < this.ref.size) : this.ref.data ≠ none := by
    intro hdata
    have hroom := hs.wf.room hthis
    rw [hdata] at hroom
    exact absurd hroom (Nat.ne_of_gt hfilled)
  cases hjoins with
  | empty hlength ht =>
    subst hlength
    refine ⟨this, ht, ?_⟩
    show Held t chunks this.ref pieces
    refine hheld.keep hs.wf hthis (fun _ hb => hb) (fun _ hb => .inl hb) ?_
    intro k h q hk hh hq
    exact elsewhere_of_get hk (hothers k h q hk hh hq) hq
  | adopted hlength hempty h p ht hsize hp hchunk _ =>
    obtain ⟨l, rfl⟩ := Nat.exists_eq_succ_of_ne_zero (Nat.ne_of_gt hlength)
    refine ⟨h, ht, ?_⟩
    cases pieces with
    | none => exact ⟨hsize, p, hp, hchunk⟩
    | one => exact absurd hempty (Nat.ne_of_gt hheld.1)
    | many => exact absurd hempty (Nat.ne_of_gt hheld.1)
  | extended hlength hfilled hloose h ht hsize hdata =>
    obtain ⟨l, rfl⟩ := Nat.exists_eq_succ_of_ne_zero (Nat.ne_of_gt hlength)
    refine ⟨h, ht, ?_⟩
    cases pieces with
    | none => exact absurd hheld (hnone hfilled)
    | one =>
      -- there is nothing behind a part of a chunk
      obtain ⟨-, p, hp, hchunk⟩ := hheld
      exact absurd hchunk (hs.away _ this p hthis hloose hp)
    | many =>
      obtain ⟨-, p, hp, hchunk, halone⟩ := hheld
      refine ⟨hsize, p, hdata.trans hp, hchunk, ?_⟩
      intro k h' q hk hh' hq
      exact halone k h' q hk (hothers k h' q hk hh' hq) hq
  | moved hlength hfilled h p ht hsize hp hnew =>
    obtain ⟨l, rfl⟩ := Nat.exists_eq_succ_of_ne_zero (Nat.ne_of_gt hlength)
    refine ⟨h, ht, ?_⟩
    have hown : Held t chunks h.ref .many := by
      refine ⟨hsize, p, hp, ?_, ?_⟩
      · intro hmem
        exact absurd (hs.there _ hmem) (Nat.not_lt.mpr hnew)
      · intro k h' q hk hh' hq hblock
        have hlt := block_lt hs.wf (hothers k h' q hk hh' hq) hq
        omega
    cases pieces with
    | none => exact absurd hheld (hnone hfilled)
    | one => exact hown
    | many => exact hown

theorem Collecting.collectField (hw : Collecting w) {start length : Nat}
    (h : w.message.collect build malloc partialHeaderField start length = .ok m) :
    Collecting { w with message := m, pieces := w.pieces.add length } ∧
      Spares w.chunks [partialHeaderField, w.message.memory.handles.length] w.message.memory
        m.memory := by
  have hne : partialHeaderValue ≠ partialHeaderField := by decide
  have hm := hw.collect (by decide) h
  obtain ⟨this, hthis, hjoins⟩ := hm.joins
  obtain ⟨field, hfield, hheld⟩ := hw.field
  obtain rfl := Option.some.inj (hthis.symm.trans hfield)
  obtain ⟨value, hvalue, hvalued⟩ := hw.value
  refine ⟨⟨hm.exclusive, hm.members, hm.headers, hm.parser, ?_, value, ?_, hvalued⟩, hm.spares⟩
  · exact hjoins.held hw.exclusive hthis hheld hm.parts
  · exact (hm.others _ (lt_of_get hvalue) hne).trans hvalue

theorem Collecting.collectValue (hw : Collecting w) {start length : Nat}
    (h : w.message.collect build malloc partialHeaderValue start length = .ok m) :
    Collecting { w with message := m, valued := w.valued || decide (0 < length) } ∧
      Spares w.chunks [partialHeaderValue, w.message.memory.handles.length] w.message.memory
        m.memory := by
  have hne : partialHeaderField ≠ partialHeaderValue := by decide
  have hm := hw.collect (by decide) h
  obtain ⟨this, hthis, hjoins⟩ := hm.joins
  obtain ⟨field, hfield, hheld⟩ := hw.field
  obtain ⟨value, hvalue, hvalued⟩ := hw.value
  obtain rfl := Option.some.inj (hthis.symm.trans hvalue)
  refine ⟨⟨hm.exclusive, hm.members, hm.headers, hm.parser, ⟨field, ?_, ?_⟩, ?_⟩, hm.spares⟩
  · exact (hm.others _ (lt_of_get hfield) hne).trans hfield
  · refine hheld.keep hw.exclusive.wf hfield (fun _ hb => hb) (fun _ hb => .inl hb) ?_
    intro k h' q hk hh' hq
    by_cases hkv : k = partialHeaderValue
    · subst hkv
      exact hjoins.elsewhere hk hthis h' q hh' hq
    · exact elsewhere_of_get hk (hm.parts k h' q hkv hh' hq) hq
  · cases hjoins with
    | empty hlength ht => exact ⟨this, ht, by simp [hlength, hvalued]⟩
    | adopted hlength _ h' p ht _ hp _ _ => exact ⟨h', ht, by simp [hlength, hp]⟩
    | extended hlength hfilled _ h' ht _ hdata =>
      refine ⟨h', ht, ?_⟩
      have hroom := hw.exclusive.wf.room hthis
      cases hd : this.ref.data with
      | none =>
        rw [hd] at hroom
        exact absurd hroom (Nat.ne_of_gt hfilled)
      | some p => simp [hlength, hdata, hd]
    | moved hlength _ h' p ht _ hp _ => exact ⟨h', ht, by simp [hlength, hp]⟩

theorem toLower_eq (ch : UInt8) : toLower ch = ch ↔ ¬(0x41 ≤ ch ∧ ch ≤ 0x5a) := by
  unfold toLower
  split_ifs with hupper
  · refine iff_of_false ?_ (fun h => h hupper)
    intro h
    have hnat := congrArg UInt8.toNat h
    rw [UInt8.toNat_add] at hnat
    have hlt := ch.toNat_lt
    have hshift : (0x20 : UInt8).toNat = 32 := rfl
    omega
  · exact iff_of_true rfl hupper

theorem map_toLower_eq (bytes : Bytes) :
    bytes.map toLower = bytes ↔ ∀ ch ∈ bytes, ¬(0x41 ≤ ch ∧ ch ≤ 0x5a) := by
  induction bytes with
  | nil => simp
  | cons ch bytes ih => simp only [List.map_cons, List.cons.injEq, ih, toLower_eq, List.forall_mem_cons]

theorem write_changes {p : Ptr} {n : Nat} {bytes : Bytes} {heap : Heap UInt8}
    (h : s.heap.write p bytes = some heap) (hlength : bytes.length = n)
    (hne : bytes ≠ s.heap.cellsAt (some p) n) :
    State.cellsOf { s with heap := heap } p.block ≠ s.cellsOf p.block := by
  intro hsame
  have hwritten : heap.cellsAt (some p) (0 + bytes.length) =
      s.heap.cellsAt (some p) 0 ++ bytes := Heap.cellsAt_write_behind h
  rw [Heap.cellsAt_zero, Nat.zero_add, hlength, List.nil_append] at hwritten
  have hcells : heap.cellsAt (some p) n = s.heap.cellsAt (some p) n := cellsAt_cellsOf hsame n
  exact hne (hwritten.symm.trans hcells)

theorem lowerCase_spec {field : Handle} {p : Ptr}
    (hfield : s.handles[partialHeaderField]? = some field) (hp : field.ref.data = some p)
    (h : lowerCase s = .ok u) : ∃ heap,
      s.heap.write p ((s.heap.cellsAt (some p) field.ref.size).map toLower) = some heap ∧
        u = { s with heap := heap } := by
  simp only [lowerCase, bind_ok, handle_ok] at h
  obtain ⟨field', hfield', h⟩ := h
  obtain rfl := Option.some.inj (hfield.symm.trans hfield')
  rw [hp] at h
  simp only [bind_ok, defined_ok, pure_ok] at h
  obtain ⟨bytes, hbytes, heap, hheap, rfl⟩ := h
  obtain ⟨-, rfl⟩ := Heap.read_eq_some.mp hbytes
  exact ⟨heap, hheap, rfl⟩

/-- The letters of a name that is a part of a chunk are overwritten in the chunk. -/
theorem lowered_cases {field : Handle} {p : Ptr} {heap : Heap UInt8}
    (hs : s.Exclusive chunks []) (hfield : s.handles[partialHeaderField]? = some field)
    (hp : field.ref.data = some p) (hchunk : p.block ∈ chunks)
    (hwrite : s.heap.write p ((s.heap.cellsAt (some p) field.ref.size).map toLower) = some heap) :
    Spares chunks [partialHeaderField] s { s with heap := heap } ∧
        (∀ bytes, s.shown partialHeaderField = some bytes →
          ∀ ch ∈ bytes, ¬(0x41 ≤ ch ∧ ch ≤ 0x5a)) ∨
      (∃ b ∈ chunks, State.cellsOf { s with heap := heap } b ≠ s.cellsOf b) ∧
        ∃ bytes, s.shown partialHeaderField = some bytes ∧
          ¬∀ ch ∈ bytes, ¬(0x41 ≤ ch ∧ ch ≤ 0x5a) := by
  have hroom := hs.wf.room hfield
  rw [hp] at hroom
  have hshown := shown_of_get hs.wf hfield
  rw [hp] at hshown
  by_cases hlower : (s.heap.cellsAt (some p) field.ref.size).map toLower =
      s.heap.cellsAt (some p) field.ref.size
  · left
    constructor
    · have hu := hs.write hwrite
      have hkeeps := Heap.write_keeps hwrite
      rw [hlower] at hwrite
      exact hs.spares_of_quiet hu.wf ⟨⟨fun _ _ => rfl, hkeeps⟩, write_same hwrite hroom⟩
    · intro bytes hbytes
      obtain rfl := Option.some.inj (hshown.symm.trans hbytes)
      exact (map_toLower_eq _).mp hlower
  · right
    constructor
    · refine ⟨p.block, hchunk, write_changes hwrite ?_ hlower⟩
      rw [List.length_map, hroom.cellsAt_length]
    · refine ⟨_, hshown, ?_⟩
      intro hclean
      exact hlower ((map_toLower_eq _).mpr hclean)

/-- A block that only `_partial_header_field` is on is written. -/
theorem spares_of_alone {p : Ptr} {bytes : Bytes} {heap : Heap UInt8} (hs : s.Exclusive chunks [])
    (hchunk : p.block ∉ chunks)
    (halone : ∀ (k : Nat) (h : Handle) (q : Ptr), k ≠ partialHeaderField →
      s.handles[k]? = some h → h.ref.data = some q → q.block ≠ p.block)
    (hwrite : s.heap.write p bytes = some heap) :
    Spares chunks [partialHeaderField] s { s with heap := heap } := by
  have hu := hs.write hwrite
  constructor
  · intro b hb
    refine write_cellsOf hwrite ?_
    rintro rfl
    exact hchunk hb
  · intro k hk hk'
    refine ⟨rfl, ?_⟩
    have hget := List.getElem?_eq_getElem hk
    rw [shown_of_get hu.wf hget, shown_of_get hs.wf hget]
    refine congrArg some (Heap.cellsAt_write hwrite (hs.wf.room hget) ?_)
    intro q hq hblock
    exact absurd hblock (halone k _ q (by simpa using hk') hget hq)

theorem Held.data {ref : Ref} (hheld : Held s chunks ref pieces) (hpieces : pieces ≠ .none) :
    ∃ p, ref.data = some p := by
  cases pieces with
  | none => exact absurd rfl hpieces
  | one =>
    obtain ⟨-, p, hp, -⟩ := hheld
    exact ⟨p, hp⟩
  | many =>
    obtain ⟨-, p, hp, -⟩ := hheld
    exact ⟨p, hp⟩

theorem Collecting.lowerCase (hw : Collecting w) (hfull : w.full)
    (h : lowerCase w.message.memory = .ok u) :
    u.Exclusive w.chunks [] ∧ u.handles = w.message.memory.handles ∧
      (Spares w.chunks [partialHeaderField] w.message.memory u ∧ w.Lower ∨
        (∃ b ∈ w.chunks, u.cellsOf b ≠ w.message.memory.cellsOf b) ∧ ¬w.Lower) := by
  obtain ⟨field, hfield, hheld⟩ := hw.field
  have hs := hw.exclusive
  obtain ⟨p, hp⟩ := hheld.data hfull.1
  obtain ⟨heap, hwrite, rfl⟩ := lowerCase_spec hfield hp h
  refine ⟨hs.write hwrite, rfl, ?_⟩
  cases hpieces : w.pieces with
  | none => exact absurd hpieces hfull.1
  | one =>
    rw [hpieces] at hheld
    obtain ⟨-, p', hp', hchunk⟩ := hheld
    obtain rfl := Option.some.inj (hp.symm.trans hp')
    rcases lowered_cases hs hfield hp hchunk hwrite with
      ⟨hspares, hlower⟩ | ⟨hchanged, bytes, hbytes, hupper⟩
    · exact .inl ⟨hspares, fun _ => hlower⟩
    · exact .inr ⟨hchanged, fun hclean => hupper (hclean hpieces bytes hbytes)⟩
  | many =>
    rw [hpieces] at hheld
    obtain ⟨-, p', hp', hchunk, halone⟩ := hheld
    obtain rfl := Option.some.inj (hp.symm.trans hp')
    left
    refine ⟨spares_of_alone hs hchunk halone hwrite, ?_⟩
    intro hone
    rw [hpieces] at hone
    cases hone

/-- An append to the value of a name that is there. -/
theorem extend_spec {value : Handle} {v : Nat} (hs : s.Exclusive chunks []) (hv : 4 ≤ v)
    (hvalue : s.handles[partialHeaderValue]? = some value)
    (hu : s.append malloc v separator.bytes.length (fun _ => some separator.bytes) = .ok u)
    (ht : call build malloc u (.appendBuffer v partialHeaderValue 0 npos) = .ok t) :
    t.Exclusive chunks [] ∧ Touches [v] s t ∧ Leaves chunks s t ∧
      ∃ this, s.handles[v]? = some this ∧ this.capacity ≠ none := by
  have hsep : separator.bytes.length < 2^63 := separator.length_lt
  obtain ⟨hue, hut, huspares, this, hthis, hmutable, happ⟩ :=
    hs.append hsep (fun _ bytes hb => by rw [← Option.some.inj hb]) hu
  obtain ⟨mid, hmid, hmidsize⟩ := Appended.get happ
  have hne : partialHeaderValue ≠ v := by
    have hlt : partialHeaderValue < 4 := by decide
    omega
  have huvalue := (hut.others partialHeaderValue (by simpa using hne)).trans hvalue
  have hcount : value.ref.size ≤ npos := by
    have hsmall := size_lt hs.wf hvalue
    have hnpos : 2^63 ≤ npos := by decide
    exact Nat.le_trans (Nat.le_of_lt hsmall) hnpos
  obtain ⟨hte, htt, htspares, hjoined⟩ := hue.appendBuffer hmid huvalue hcount ht
  have hgrown : ∃ last, t.handles[v]? = some last ∧ this.ref.size < last.ref.size := by
    have hpos : 0 < separator.bytes.length := by decide
    cases hjoined with
    | nothing _ htu =>
      subst htu
      exact ⟨mid, hmid, by omega⟩
    | adopted hzero => omega
    | added _ _ happ' =>
      obtain ⟨last, hlast, hlastsize⟩ := Appended.get happ'
      exact ⟨last, hlast, by omega⟩
  have hspares := huspares.trans htspares
  refine ⟨hte, hut.trans htt, ⟨hspares.cells, ?_⟩, this, hthis, hmutable⟩
  intro k hk _ _
  by_cases hkv : k = v
  · subst hkv
    obtain ⟨last, hlast, hlt⟩ := hgrown
    refine .inr ⟨hv, this, last, hthis, hlast, ?_⟩
    rintro rfl
    exact Nat.lt_irrefl _ hlt
  · exact .inl (hspares.others k hk (by simpa using hkv))

/-- The pair is copied into `_headers`, or the value is appended to the one that is there. -/
theorem emplace_spec {value : Handle} {headers headers' : List (Nat × Nat)}
    (hs : s.Exclusive chunks []) (hmembers : url < s.handles.length)
    (hheaders : ∀ header ∈ headers, 4 ≤ header.1 ∧ 4 ≤ header.2)
    (hvalue : s.handles[partialHeaderValue]? = some value)
    (h : emplace build malloc s headers = .ok (t, headers')) :
    t.Exclusive chunks [partialHeaderValue] ∧ Leaves chunks s t ∧
      (∀ header ∈ headers', 4 ≤ header.1 ∧ 4 ≤ header.2) ∧
      ∀ (k : Nat) (x : Handle), s.handles[k]? = some x → k < 4 ∨ x.capacity = none →
        t.handles[k]? = some x := by
  have hurl : 3 ≤ url := by decide
  unfold emplace at h
  split at h
  · simp only [bind_ok, pure_ok, Prod.mk.injEq] at h
    obtain ⟨u, hu, t', ht, rfl, rfl⟩ := h
    obtain ⟨hue, huq, other, -, hunew⟩ := hs.copy hu
    have hte := hue.share ht
    obtain ⟨-, htq, -⟩ := copyConstruct_spec hue.wf ht
    have hlt := lt_of_get hunew
    have hfirst := hs.spares_of_quiet hue.wf huq
    have hlast := hue.spares_of_quiet hte.wf htq
    refine ⟨hte, (Leaves.of_spares hfirst ?_).trans_spares hlast ?_, ?_, ?_⟩
    · intro k hk hmem
      rw [List.mem_singleton] at hmem
      omega
    · intro k hk hmem
      rw [List.mem_singleton] at hmem
      omega
    · intro header hmem
      rcases List.mem_append.mp hmem with hmem | hmem
      · exact hheaders header hmem
      · obtain rfl := List.mem_singleton.mp hmem
        constructor
        · show 4 ≤ s.handles.length
          omega
        · show 4 ≤ s.handles.length + 1
          omega
    · intro k x hx _
      have hk := lt_of_get hx
      rw [htq.others k (by simp only [List.mem_singleton]; omega),
        huq.others k (by simp only [List.mem_singleton]; omega), hx]
  · rename_i header existingValue hfind
    simp only [bind_ok, pure_ok, Prod.mk.injEq] at h
    obtain ⟨u, hu, t', ht, rfl, rfl⟩ := h
    have hv := (hheaders _ (List.mem_of_find?_eq_some hfind)).2
    obtain ⟨hte, htt, hleaves, this, hthis, hmutable⟩ := extend_spec hs hv hvalue hu ht
    refine ⟨hte.spend nofun, hleaves, hheaders, ?_⟩
    intro k x hx hk
    rw [htt.others k ?_, hx]
    rintro hmem
    obtain rfl := List.mem_singleton.mp hmem
    rcases hk with hk | hplain
    · exact absurd hk (Nat.not_lt.mpr hv)
    · obtain rfl := Option.some.inj (hthis.symm.trans hx)
      exact hmutable hplain

/-- A header that is complete is put away, and the next one can come. -/
theorem Collecting.putAway (hw : Collecting w) (hfull : w.full)
    (h : w.message.addHeaderPartials build malloc = .ok m) :
    Collecting ⟨m, w.chunks, .none, false⟩ ∧
      (Leaves w.chunks w.message.memory m.memory ∧ w.Lower ∨
        (∃ b ∈ w.chunks, m.memory.cellsOf b ≠ w.message.memory.cellsOf b) ∧ ¬w.Lower) := by
  obtain ⟨field, hfield, hheld⟩ := hw.field
  obtain ⟨value, hvalue, hvalued⟩ := hw.value
  have hsome : field.ref.data.isSome ∧ value.ref.data.isSome := by
    obtain ⟨p, hp⟩ := hheld.data hfull.1
    refine ⟨?_, hvalued.mpr hfull.2⟩
    rw [hp]
    rfl
  simp only [addHeaderPartials, bind_ok, handle_ok] at h
  obtain ⟨field', hfield', value', hvalue', h⟩ := h
  obtain rfl := Option.some.inj (hfield.symm.trans hfield')
  obtain rfl := Option.some.inj (hvalue.symm.trans hvalue')
  simp only [if_pos hsome, bind_ok, pure_ok] at h
  obtain ⟨u, hu, ⟨v, headers⟩, hv, x, hx, t, ht, rfl⟩ := h
  obtain ⟨hue, huhandles, hlower⟩ := hw.lowerCase hfull hu
  rw [← huhandles] at hvalue
  obtain ⟨hve, hleaves, hheaders, hkept⟩ :=
    emplace_spec hue (huhandles ▸ hw.members) hw.headers hvalue hv
  obtain ⟨hxe, hxq, capacity, hxnull, -⟩ := hve.reset (fun _ hk => .inl hk) hx
  have hspent : ∀ k ∈ [partialHeaderValue], k ∈ [] ∨ k = partialHeaderValue :=
    fun k hk => .inr (List.mem_singleton.mp hk)
  obtain ⟨hte, htq, capacity', htnull, -⟩ := hxe.reset hspent ht
  have hsmall : partialHeaderField ≠ partialHeaderValue ∧ url ≠ partialHeaderField ∧
      url ≠ partialHeaderValue ∧ partialHeaderField < 4 ∧ partialHeaderValue < 4 ∧ url < 4 := by decide
  have hget (k : Nat) (hkfield : k ≠ partialHeaderField) (hkvalue : k ≠ partialHeaderValue) (y : Handle)
      (hy : w.message.memory.handles[k]? = some y) (hk : k < 4 ∨ y.capacity = none) :
      t.handles[k]? = some y := by
    rw [htq.others k (by simpa using hkvalue), hxq.others k (by simpa using hkfield)]
    exact hkept k y (huhandles ▸ hy) hk
  have hrest : Leaves w.chunks u t := by
    have hfirst := hve.spares_of_quiet hxe.wf hxq
    have hlast := hxe.spares_of_quiet hte.wf htq
    refine (hleaves.trans_spares hfirst ?_).trans_spares hlast ?_
    · exact fun k _ hk => .inl (List.mem_singleton.mp hk)
    · exact fun k _ hk => .inr (List.mem_singleton.mp hk)
  refine ⟨⟨hte, ?_, hheaders, ?_, ⟨⟨.null, capacity⟩, ?_, rfl⟩, ⟨⟨.null, capacity'⟩, htnull, ?_⟩⟩,
    ?_⟩
  · obtain ⟨y, hy⟩ := has_get hw.members
    exact lt_of_get (hget url hsmall.2.1 hsmall.2.2.1 y hy (.inl hsmall.2.2.2.2.2))
  · intro b hb
    obtain ⟨hle, y, hy, hplain, hchunk⟩ := hw.parser b hb
    refine ⟨hle, y, hget b ?_ ?_ y hy (.inr hplain), hplain, hchunk⟩
    · omega
    · omega
  · exact (htq.others _ (by simpa using hsmall.1)).trans hxnull
  · exact iff_of_false Bool.false_ne_true Bool.false_ne_true
  · rcases hlower with ⟨hspares, hlower⟩ | ⟨⟨b, hb, hchanged⟩, hupper⟩
    · exact .inl ⟨hrest.after_spares hspares huhandles (fun k hk => List.mem_singleton.mp hk),
      hlower⟩
    · exact .inr ⟨⟨b, hb, (hrest.cells b hb).symm ▸ hchanged⟩, hupper⟩

theorem Collecting.incomplete (hw : Collecting w) (hfull : ¬w.full)
    (h : w.message.addHeaderPartials build malloc = .ok m) : m = w.message := by
  obtain ⟨field, hfield, hheld⟩ := hw.field
  obtain ⟨value, hvalue, hvalued⟩ := hw.value
  simp only [addHeaderPartials, bind_ok, handle_ok] at h
  obtain ⟨field', hfield', value', hvalue', h⟩ := h
  obtain rfl := Option.some.inj (hfield.symm.trans hfield')
  obtain rfl := Option.some.inj (hvalue.symm.trans hvalue')
  have hnone : ¬(field.ref.data.isSome ∧ value.ref.data.isSome) := by
    intro ⟨hsome, hvsome⟩
    refine hfull ⟨?_, hvalued.mp hvsome⟩
    intro hpieces
    rw [hpieces] at hheld
    have hdata : field.ref.data = none := hheld
    rw [hdata] at hsome
    cases hsome
  rw [if_neg hnone, pure_ok] at h
  exact h.symm

/-- What `_add_header_partials` does to the chunks. -/
theorem Collecting.addHeaderPartials (hw : Collecting w)
    (h : w.message.addHeaderPartials build malloc = .ok m) :
    Collecting (w.renewed m) ∧
      (Leaves w.chunks w.message.memory m.memory ∧ (w.full → w.Lower) ∨
        (∃ b ∈ w.chunks, m.memory.cellsOf b ≠ w.message.memory.cellsOf b) ∧ w.full ∧ ¬w.Lower) := by
  unfold Watched.renewed
  by_cases hfull : w.full
  · obtain ⟨hm, hcells⟩ := hw.putAway hfull h
    rw [if_pos hfull]
    refine ⟨hm, ?_⟩
    rcases hcells with ⟨hleaves, hlower⟩ | ⟨hchanged, hupper⟩
    · exact .inl ⟨hleaves, fun _ => hlower⟩
    · exact .inr ⟨hchanged, hfull, hupper⟩
  · obtain rfl := hw.incomplete hfull h
    rw [if_neg hfull]
    refine ⟨hw, .inl ⟨⟨fun _ _ => rfl, fun k _ _ _ => .inl ⟨rfl, rfl⟩⟩, ?_⟩⟩
    exact fun hf => absurd hf hfull

theorem renewed_message (w : Watched) (m : MessageMemory) : (w.renewed m).message = m := by
  unfold Watched.renewed
  split_ifs <;> rfl

theorem renewed_chunks (w : Watched) (m : MessageMemory) : (w.renewed m).chunks = w.chunks := by
  unfold Watched.renewed
  split_ifs <;> rfl

theorem renewed_renewed (w : Watched) (m m' : MessageMemory) :
    { w.renewed m with message := m' } = w.renewed m' := by
  unfold Watched.renewed
  split_ifs <;> rfl

theorem Leaves.lt {k : Nat} (h : Leaves chunks s t) (hk : k < s.handles.length)
    (hfield : k ≠ partialHeaderField) (hvalue : k ≠ partialHeaderValue) :
    k < t.handles.length := by
  rcases h.others k hk hfield hvalue with ⟨hget, -⟩ | ⟨-, x, y, -, hy, -⟩
  · exact lt_of_get (hget.trans (List.getElem?_eq_getElem hk))
  · exact lt_of_get hy

theorem unharmed_iff_clean {l : MemoryLabel} (hl : l.addsPartials = true)
    (h : Watched.Unharmed w.chunks s t ∧ (w.full → w.Lower) ∨
      (∃ b ∈ w.chunks, t.cellsOf b ≠ s.cellsOf b) ∧ w.full ∧ ¬w.Lower) :
    Watched.Unharmed w.chunks s t ↔ w.Clean l := by
  rcases h with ⟨hunharmed, hlower⟩ | ⟨⟨b, hb, hchanged⟩, hfull, hupper⟩
  · refine iff_of_true hunharmed ?_
    intro _ hvalued hone
    exact hlower ⟨by rw [hone]; nofun, hvalued⟩ hone
  · refine iff_of_false ?_ ?_
    · intro hunharmed
      exact hchanged (hunharmed.chunks b hb)
    · intro hclean
      exact hupper (hclean hl hfull.2)

theorem unharmed_of_clean {l : MemoryLabel} (hl : l.addsPartials = false)
    (h : Watched.Unharmed w.chunks s t) : Watched.Unharmed w.chunks s t ↔ w.Clean l := by
  refine iff_of_true h ?_
  intro hadds
  rw [hl] at hadds
  cases hadds

/-- A piece is collected after a complete header was put away. -/
theorem collected_iff {l : MemoryLabel} {i : Nat} (hl : l.addsPartials = true)
    (hi : i = partialHeaderField ∨ i = partialHeaderValue)
    (hcells : Leaves w.chunks s t ∧ (w.full → w.Lower) ∨
      (∃ b ∈ w.chunks, t.cellsOf b ≠ s.cellsOf b) ∧ w.full ∧ ¬w.Lower)
    (hspares : Spares w.chunks [i, t.handles.length] t u) :
    Watched.Unharmed w.chunks s u ↔ w.Clean l := by
  refine unharmed_iff_clean hl ?_
  rcases hcells with ⟨hleaves, hlower⟩ | ⟨⟨b, hb, hchanged⟩, hupper⟩
  · refine .inl ⟨(hleaves.trans_spares hspares ?_).unharmed, hlower⟩
    intro k hk hmem
    simp only [List.mem_cons, List.not_mem_nil, or_false] at hmem
    rcases hmem with rfl | rfl
    · exact hi
    · by_contra hne
      obtain ⟨hfield, hvalue⟩ := not_or.mp hne
      exact Nat.lt_irrefl _ (hleaves.lt hk hfield hvalue)
  · exact .inr ⟨⟨b, hb, (hspares.cells b hb).symm ▸ hchanged⟩, hupper⟩

theorem Collecting.headerField (hw : Collecting w) {start length : Nat}
    (h : w.message.perform build malloc (.onHeaderField start length) = .ok m) :
    Collecting (w.after m (.onHeaderField start length)) ∧
      (Watched.Unharmed w.chunks w.message.memory m.memory ↔
        w.Clean (.onHeaderField start length)) := by
  simp only [perform, bind_ok] at h
  obtain ⟨m₁, h₁, h⟩ := h
  obtain ⟨hw₁, hcells⟩ := hw.addHeaderPartials h₁
  rw [← renewed_message w m₁] at h
  obtain ⟨hm, hspares⟩ := hw₁.collectField h
  rw [renewed_chunks, renewed_message] at hspares
  refine ⟨?_, collected_iff rfl (.inl rfl) hcells hspares⟩
  show Collecting { w.renewed m with pieces := (w.renewed m).pieces.add length }
  rw [← renewed_renewed w m₁ m]
  exact hm

theorem Collecting.headerValue (hw : Collecting w) {start length : Nat}
    (h : w.message.perform build malloc (.onHeaderValue start length) = .ok m) :
    Collecting (w.after m (.onHeaderValue start length)) ∧
      (Watched.Unharmed w.chunks w.message.memory m.memory ↔
        w.Clean (.onHeaderValue start length)) := by
  simp only [perform, bind_ok] at h
  obtain ⟨m₁, h₁, h⟩ := h
  obtain ⟨hw₁, hcells⟩ := hw.addHeaderPartials h₁
  rw [← renewed_message w m₁] at h
  obtain ⟨hm, hspares⟩ := hw₁.collectValue h
  rw [renewed_chunks, renewed_message] at hspares
  refine ⟨?_, collected_iff rfl (.inr rfl) hcells hspares⟩
  show Collecting { w.renewed m with valued := (w.renewed m).valued || decide (0 < length) }
  rw [← renewed_renewed w m₁ m]
  exact hm

theorem callerView_block {heap : Heap UInt8} {block off size : Nat} {ref : Ref} {p : Ptr}
    (h : callerView heap block off size = .ok ref) (hp : ref.data = some p) : p.block = block := by
  unfold callerView at h
  split at h
  · cases h
  · split_ifs at h with hblock hsize
    · cases h
      cases hp
    · cases h
      obtain rfl := Option.some.inj hp
      rfl

/-- A handle on a string constant. -/
theorem constant_spec {method : Region} (hs : s.Exclusive chunks [])
    (hu : call build malloc s (.callerMemory method) = .ok u)
    (ht : call build malloc u (.constructWeak s.heap.length 0 method.bytes.length) = .ok t) :
    u.handles.length = s.handles.length ∧ t.Exclusive chunks [] ∧ Quiet [s.handles.length] s t ∧
      ∃ ref, t.handles[s.handles.length]? = some ⟨ref, none⟩ ∧
        ∀ p, ref.data = some p → s.heap.length = p.block := by
  obtain ⟨huw, huq⟩ := callerMemory_spec hs.wf hu
  have hlength : u.handles.length = s.handles.length := by
    cases hu
    rfl
  obtain ⟨htw, htq, -⟩ := constructWeak_spec huw ht
  rw [hlength] at htq
  simp only [call, bind_ok, pure_ok] at ht
  obtain ⟨ref, href, rfl⟩ := ht
  have hnew : (u.push ref none).handles[s.handles.length]? = some ⟨ref, none⟩ := by
    rw [State.push_get, if_pos hlength.symm]
  have hblock (p : Ptr) (hp : ref.data = some p) : s.heap.length = p.block :=
    (callerView_block href hp).symm
  have hq : Quiet [s.handles.length] s (u.push ref none) := (huq.mono (by simp)).trans htq
  refine ⟨hlength, ?_, hq, ref, hnew, hblock⟩
  refine hs.tame htw hq.toTouches ?_ (fun _ hb => .inl hb) (by simp)
  intro k hk h hh
  obtain rfl := List.mem_singleton.mp hk
  obtain rfl := Option.some.inj (hnew.symm.trans hh)
  exact ⟨Handle.not_loose_plain ref, fun p hp => .inl (Nat.le_of_eq (hblock p hp))⟩

/-- `url` gets the URL, which comes from `_generic_value`. -/
theorem Collecting.setUrl (hw : Collecting w)
    (h : call build malloc w.message.memory (.copyAssign url .buffer genericValue) = .ok t) :
    Collecting { w with message := { w.message with memory := t } } ∧
      Quiet [url] w.message.memory t := by
  have hne : url ≠ genericValue ∧ genericValue ≠ partialHeaderField ∧ url ≠ partialHeaderField ∧
      url ≠ partialHeaderValue ∧ url < 4 := by decide
  obtain ⟨htw, htq, this, other, capacity, hthis, hother, hcapacity, hti⟩ :=
    copyAssign_spec hw.exclusive.wf h
  rw [if_neg hne.1] at hcapacity hti
  obtain rfl := taken_buffer hcapacity
  refine ⟨?_, htq⟩
  refine hw.keep ?_ htq.toTouches ?_ ?_ (fun _ hb => hb) (fun _ hb => .inl hb) (.inr (lt_of_get hti))
    hw.headers ?_
  · refine hw.exclusive.tame htw htq.toTouches ?_ (fun _ hb => .inl hb) nofun
    intro k hk x hx
    obtain rfl := List.mem_singleton.mp hk
    obtain rfl := Option.some.inj (hti.symm.trans hx)
    exact tame_copy hother _ (Kind.not_loose _ _)
  · intro k hk
    obtain rfl := List.mem_singleton.mp hk
    exact ⟨hne.2.2.1, hne.2.2.2.1⟩
  · intro k hk x q hx hq
    obtain rfl := List.mem_singleton.mp hk
    obtain rfl := Option.some.inj (hti.symm.trans hx)
    exact elsewhere_of_get hne.2.1 hother hq
  · refine hw.parser_keep htq.toTouches ?_
    intro k _ hle hmem
    rw [List.mem_singleton] at hmem
    omega

/-- `_generic_value` gets what a new handle has. -/
theorem Collecting.setMethod (hw : Collecting w) {j : Nat} {ref : Ref} (hj : 4 ≤ j)
    (hget : w.message.memory.handles[j]? = some ⟨ref, none⟩)
    (hparser : ∀ b, w.message.parserBuffer = some b → b ≠ j)
    (h : call build malloc w.message.memory (.moveAssign genericValue .buffer j) = .ok t) :
    Collecting { w with message := { w.message with memory := t } } ∧
      Quiet [genericValue, j] w.message.memory t := by
  have hne : genericValue ≠ partialHeaderField ∧ genericValue ≠ partialHeaderValue ∧
      genericValue ≠ url ∧ genericValue < 4 ∧ partialHeaderField < 4 ∧ partialHeaderValue < 4 ∧
      url < 4 := by decide
  have hgj : genericValue ≠ j := by omega
  obtain ⟨htw, htq, this, other, capacity, hthis, hother, hcapacity, hti, htj⟩ :=
    moveAssign_spec hw.exclusive.wf h
  obtain rfl := Option.some.inj (hget.symm.trans hother)
  have htj := htj hgj
  rw [if_neg hgj] at hti
  obtain rfl := taken_buffer hcapacity
  have hcases (k : Nat) (hk : k ∈ [genericValue, j]) : k = genericValue ∨ k = j := by
    simpa using hk
  refine ⟨?_, htq⟩
  refine hw.keep ?_ htq.toTouches ?_ ?_ (fun _ hb => hb) (fun _ hb => .inl hb) (.inl ?_) hw.headers ?_
  · refine hw.exclusive.tame htw htq.toTouches ?_ (fun _ hb => .inl hb) nofun
    intro k hk x hx
    rcases hcases k hk with rfl | rfl
    · obtain rfl := Option.some.inj (hti.symm.trans hx)
      exact tame_copy hother _ (Kind.not_loose_zero _ _)
    · obtain rfl := Option.some.inj (htj.symm.trans hx)
      exact tame_null (Handle.not_loose_plain _)
  · intro k hk
    rcases hcases k hk with rfl | rfl
    · exact ⟨hne.1, hne.2.1⟩
    · omega
  · intro k hk x q hx hq
    rcases hcases k hk with rfl | rfl
    · obtain rfl := Option.some.inj (hti.symm.trans hx)
      exact elsewhere_of_get (by omega) hother hq
    · obtain rfl := Option.some.inj (htj.symm.trans hx)
      cases hq
  · intro hmem
    have hurl := hcases url hmem
    omega
  · intro b hb
    obtain ⟨hle, x, hx, hplain, hchunk⟩ := hw.parser b hb
    refine ⟨hle, x, (htq.others b ?_).trans hx, hplain, hchunk⟩
    intro hmem
    have hbj := hparser b hb
    have hb' := hcases b hmem
    omega

/-- The URL of a request is kept, and its method takes the place. -/
theorem Collecting.keepUrl (hw : Collecting w) {method : Region}
    (h : keepUrl build malloc method w.message.memory = .ok t) :
    Collecting { w with message := { w.message with memory := t } } ∧
      ∃ touched, Quiet touched w.message.memory t ∧
        ∀ k < w.message.memory.handles.length, 4 ≤ k → k ∉ touched := by
  have hurl : 3 ≤ url := by decide
  simp only [MessageMemory.keepUrl, bind_ok] at h
  obtain ⟨u, hu, x, hx, y, hy, ht⟩ := h
  obtain ⟨huw, huq⟩ := hw.setUrl hu
  obtain ⟨hlength, hye, hyq, ref, hynew, hfresh⟩ := constant_spec huw.exclusive hx hy
  rw [hlength] at ht
  have hyw := huw.push hye hyq hynew fun q hq => .inl (Nat.le_of_eq (hfresh q hq))
  have hlt : url < u.handles.length := huw.members
  have hle : 4 ≤ u.handles.length := by omega
  obtain ⟨htw, htq⟩ := hyw.setMethod hle hynew (by
    intro b hb
    obtain ⟨-, z, hz, -⟩ := huw.parser b hb
    exact Nat.ne_of_lt (lt_of_get hz)) ht
  refine ⟨htw, [url, genericValue, u.handles.length], ?_, ?_⟩
  · have hyq : Quiet [u.handles.length] u y := hyq
    have htq : Quiet [genericValue, u.handles.length] y t := htq
    exact ((huq.mono (by simp)).trans (hyq.mono (by simp))).trans (htq.mono (by simp))
  · intro k hk hle hmem
    have hku : k ≠ url ∧ k ≠ genericValue := by
      have hsmall : url < 4 ∧ genericValue < 4 := by decide
      omega
    have hklt := lt_of_touches huq.toTouches (by simpa using hku.1) hk
    simp only [List.mem_cons, List.not_mem_nil, or_false] at hmem
    rcases hmem with hmem | hmem | rfl
    · exact hku.1 hmem
    · exact hku.2 hmem
    · exact Nat.lt_irrefl _ hklt

theorem Collecting.headersComplete (hw : Collecting w) {method : Region}
    (h : w.message.perform build malloc (.onHeadersComplete method) = .ok m) :
    Collecting (w.after m (.onHeadersComplete method)) ∧
      (Watched.Unharmed w.chunks w.message.memory m.memory ↔
        w.Clean (.onHeadersComplete method)) := by
  simp only [perform, bind_ok] at h
  obtain ⟨m₁, h₁, h⟩ := h
  obtain ⟨hw₁, hcells⟩ := hw.addHeaderPartials h₁
  show Collecting (w.renewed m) ∧ _
  cases htype : m₁.type with
  | response =>
    simp only [htype, pure_ok] at h
    subst h
    refine ⟨hw₁, unharmed_iff_clean rfl ?_⟩
    rcases hcells with ⟨hleaves, hlower⟩ | hchanged
    · exact .inl ⟨hleaves.unharmed, hlower⟩
    · exact .inr hchanged
  | request =>
    simp only [htype, bind_ok, pure_ok] at h
    obtain ⟨t, ht, hmt⟩ := h
    rw [← htype] at hmt
    subst hmt
    have ht' : MessageMemory.keepUrl build malloc method (w.renewed m₁).message.memory = .ok t := by
      rw [renewed_message]
      exact ht
    obtain ⟨hm, touched, htq, htouched⟩ := hw₁.keepUrl ht'
    rw [renewed_message] at hm htq htouched
    rw [renewed_renewed] at hm
    have hexclusive : m₁.memory.Exclusive w.chunks [] := by
      have he := hw₁.exclusive
      rw [renewed_message, renewed_chunks] at he
      exact he
    have htw : t.Wf [] := by
      have hwf := hm.exclusive.wf
      rw [renewed_message] at hwf
      exact hwf
    refine ⟨hm, unharmed_iff_clean rfl ?_⟩
    rcases hcells with ⟨hleaves, hlower⟩ | ⟨⟨b, hb, hchanged⟩, hupper⟩
    · exact .inl ⟨hleaves.unharmed_quiet hexclusive htw htq htouched, hlower⟩
    · refine .inr ⟨⟨b, hb, ?_⟩, hupper⟩
      rw [cellsOf_sameCells htq.cells (hexclusive.there b hb)]
      exact hchanged

/-- What each label keeps, and when it leaves the chunks as they are. -/
theorem Collecting.perform (hw : Collecting w) (l : MemoryLabel)
    (h : w.message.perform build malloc l = .ok m) : Collecting (w.after m l) ∧
      (Watched.Unharmed w.chunks w.message.memory m.memory ↔ w.Clean l) := by
  have hquiet (l : MemoryLabel) (hl : l.addsPartials = false)
      (h : Collecting (w.after m l) ∧ Watched.Unharmed w.chunks w.message.memory m.memory) :
      Collecting (w.after m l) ∧
        (Watched.Unharmed w.chunks w.message.memory m.memory ↔ w.Clean l) :=
    ⟨h.1, unharmed_of_clean hl h.2⟩
  cases l with
  | chunk memory nread => exact hquiet _ rfl (hw.chunk h)
  | share j => exact hquiet _ rfl (hw.share h)
  | slice j first last => exact hquiet _ rfl (hw.slice h)
  | drop k => exact hquiet _ rfl (hw.drop h)
  | onUrl start length => exact hquiet _ rfl (hw.onUrl h)
  | onBody start length => exact hquiet _ rfl (hw.body h)
  | onMessageComplete isWebsocket => exact hquiet _ rfl (hw.messageComplete h)
  | onHeaderField start length => exact hw.headerField h
  | onHeaderValue start length => exact hw.headerValue h
  | onHeadersComplete method => exact hw.headersComplete h

theorem init_wf_members :
    State.Wf ⟨[], [⟨.null, some 0⟩, ⟨.null, some 0⟩, ⟨.null, some 0⟩, ⟨.null, none⟩]⟩ [] := by
  have h (s : State) (hs : s.Wf []) (capacity : Option Nat) : (s.push .null capacity).Wf [] :=
    hs.null.push capacity
  exact h _ (h _ (h _ (h _ init_wf (some 0)) (some 0)) (some 0)) none

theorem init_collecting (type : HttpParserType) : Collecting (.init type) := by
  have hnull (k : Nat) (h : Handle) (hh : (init type).memory.handles[k]? = some h) :
      h.ref = .null := by
    have hmem := List.mem_of_getElem? hh
    simp only [init, List.mem_cons, List.not_mem_nil, or_false] at hmem
    rcases hmem with rfl | rfl | rfl | rfl <;> rfl
  have hurl : url < 4 := by decide
  refine ⟨⟨init_wf_members, ?_, nofun, ?_, ?_⟩, hurl, nofun, nofun, ⟨_, rfl, rfl⟩,
    ⟨_, rfl, iff_of_false Bool.false_ne_true Bool.false_ne_true⟩⟩
  · intro k h n hh hn
    have hmem := List.mem_of_getElem? hh
    simp only [Watched.init, init, List.mem_cons, List.not_mem_nil, or_false] at hmem
    rcases hmem with rfl | rfl | rfl | rfl
    · exact (Option.some.inj hn).symm
    · exact (Option.some.inj hn).symm
    · exact (Option.some.inj hn).symm
    · cases hn
  · intro k h p hh _ hp
    rw [hnull k h hh] at hp
    cases hp
  · intro i j h h' p q hh _ _ _ _ hp
    rw [hnull i h hh] at hp
    cases hp

end

end MessageMemory

namespace Watched

/-- Along every run, a step leaves the chunks and the other buffers as they are if and only if it
does not put away a name with an upper-case letter that came in one piece. -/
theorem unharmed_along (build : Build) (malloc : Malloc) (type : HttpParserType)
    (ls : List MemoryLabel) :
    Along (step build malloc)
      (fun w l => ∀ t, w.step build malloc l = some t →
        (Unharmed w.chunks w.message.memory t.message.memory ↔ w.Clean l)) (init type) ls := by
  refine along_invariant MessageMemory.Collecting ?_ ls _ (MessageMemory.init_collecting type)
    (along_of_forall (fun _ _ => trivial) _ ls)
  intro w l hw _
  have hnext (t : Watched) (ht : w.step build malloc l = some t) : MessageMemory.Collecting t ∧
      (Unharmed w.chunks w.message.memory t.message.memory ↔ w.Clean l) := by
    obtain ⟨m, hm, rfl⟩ := Option.map_eq_some_iff.mp ht
    unfold MessageMemory.step at hm
    split at hm
    · cases hm
      rename_i hperform
      obtain ⟨hcollecting, hiff⟩ := hw.perform l hperform
      have hmessage : (w.after m l).message = m := by
        cases l <;> first | rfl | exact MessageMemory.renewed_message w m
      rw [hmessage]
      exact ⟨hcollecting, hiff⟩
    · cases hm
  exact ⟨fun t ht => (hnext t ht).2, fun t ht => (hnext t ht).1⟩

/-- A request with the headers `A: b` and `C: d`: when the second name comes, the `A` of the chunk
becomes an `a`. -/
theorem unharmed_upper :
    ¬Along (step glibc .zeroed)
      (fun w l => ∀ t, w.step glibc .zeroed l = some t →
        Unharmed w.chunks w.message.memory t.message.memory) (init .request)
      [.chunk ⟨ascii "GET / HTTP/1.1\r\nA: b\r\nC: d\r\n\r\n", by decide⟩ 30, .onUrl 4 1,
        .onHeaderField 16 1, .onHeaderValue 19 1, .onHeaderField 22 1] := by
  intro h
  have hunharmed := ((((h.2 _ rfl).2 _ rfl).2 _ rfl).2 _ rfl).1 _ rfl
  have hcells := hunharmed.chunks 0 (by decide)
  revert hcells
  decide

end Watched

end Libnodecc.Http
