import Libnodecc.Buffer.Bystanders
import Libnodecc.Buffer.Exclusive
import Libnodecc.Http.CompiledReferences

namespace Libnodecc.Http

open Buffer Util

/-- No other handle refers to the memory of the handle `i`. -/
def Alone (s : State) (i : Nat) : Prop :=
  ∀ (this other : Handle) (k : Nat) (p q : Ptr), s.handles[i]? = some this →
    s.handles[k]? = some other → k ≠ i → this.ref.data = some p → other.ref.data = some q →
      q.block ≠ p.block

section
variable {build : Build} {malloc : Malloc} {s t : State} {i n : Nat}

theorem alone_null {capacity : Option Nat} (hi : s.handles[i]? = some ⟨.null, capacity⟩) :
    Alone s i := by
  intro this other k p q hthis _ _ hp _
  obtain rfl := Option.some.inj (hi.symm.trans hthis)
  cases hp

theorem alone_fresh {this : Handle} {off : Nat} (hw : s.Wf []) (ht : Touches [i] s t)
    (hi : t.handles[i]? = some this) (hp : this.ref.data = some ⟨s.heap.length, off⟩) :
    Alone t i := by
  intro this' other k p q hthis hother hk hp' hq
  obtain rfl := Option.some.inj (hi.symm.trans hthis)
  obtain rfl := Option.some.inj (hp.symm.trans hp')
  have hbefore : s.handles[k]? = some other := by
    rw [← ht.others k (by simpa using hk)]
    exact hother
  exact Nat.ne_of_lt (block_lt hw hbefore hq)

theorem Alone.keep {this now : Handle} (halone : Alone s i) (ht : Touches [i] s t)
    (hthis : s.handles[i]? = some this) (hi : t.handles[i]? = some now)
    (hdata : now.ref.data = this.ref.data) : Alone t i := by
  intro this' other k p q hthis' hother hk hp hq
  obtain rfl := Option.some.inj (hi.symm.trans hthis')
  have hbefore : s.handles[k]? = some other := by
    rw [← ht.others k (by simpa using hk)]
    exact hother
  exact halone this other k p q hthis hbefore hk (hdata ▸ hp) hq

theorem shown_lt {k : Nat} {bytes : Bytes} (h : s.shown k = some bytes) : k < s.handles.length := by
  obtain ⟨this, hthis, -⟩ := Option.bind_eq_some_iff.mp h
  exact (List.getElem?_eq_some_iff.mp hthis).1

theorem appendData_ne_none {b : Buf} (h : b ≠ none) (bs : Bytes) : b.appendData bs ≠ none := by
  unfold Buf.appendData
  split_ifs
  · exact h
  · exact nofun

theorem null_of_data {this : Handle} (hw : s.Wf []) (hthis : s.handles[i]? = some this)
    (hdata : this.ref.data = none) : this.ref = .null := by
  have hroom := hw.room hthis
  have howned := hw.owned hthis
  obtain ⟨⟨data, size, p⟩, capacity⟩ := this
  cases hdata
  cases howned
  have hsize : size = 0 := hroom
  rw [hsize]
  rfl

/-- An append to memory that no other handle refers to shows in no other handle. -/
theorem append_others {data : Heap UInt8 → Option Bytes} {written : Nat} (hw : s.Wf [])
    (howns : s.Owns i) (halone : Alone s i)
    (hlen : ∀ heap bytes, data heap = some bytes → bytes.length = written)
    (h : s.append malloc i n data = .ok t) {k : Nat} (hk : k < s.handles.length) (hki : k ∉ [i]) :
    t.shown k = s.shown k := by
  have hki : k ≠ i := by simpa using hki
  have hbeside (this : Handle) (hthis : s.handles[i]? = some this)
      (_ : sizeT (n + this.ref.size) ≤ this.capacity.getD 0) (k : Nat)
      (_ : k < s.handles.length) (hki : k ≠ i) :
      s.At k fun other => Beside other.ref this.ref written := by
    intro other hother
    refine .inr (.inr ?_)
    intro q hq p hp hblock
    exact absurd hblock (halone this other k p q hthis hother hki hp hq)
  obtain ⟨bytes, hs, ht⟩ :=
    shown_append hw (fun this hthis => howns.grows hthis _) hbeside hlen h hk hki
  rw [hs, ht]

/-- The handle shows the bytes behind those it showed, and still is alone. -/
theorem append_alone {data : Heap UInt8 → Option Bytes} {old bytes : Bytes} (hw : s.Wf [])
    (howns : s.Owns i) (halone : Alone s i) (hlt : n < 2^63) (hlen : bytes.length = n)
    (hdata : ∀ heap, data heap = some bytes) (hold : s.shown i = some old)
    (h : s.append malloc i n data = .ok t) :
    t.shown i = some (old ++ bytes) ∧ Alone t i ∧
      ∀ k < s.handles.length, k ∉ [i] → t.shown k = s.shown k := by
  have hgrows (this : Handle) (hthis : s.handles[i]? = some this) :
      this.Grows s.heap (sizeT (n + this.ref.size)) := howns.grows hthis _
  obtain ⟨-, ht, this, hthis, happ⟩ := append_keeps hw hgrows h
  refine ⟨?_, ?_, ?_⟩
  · have hshown := append_shown hw hthis (hgrows this hthis) hlt hlen (fun u _ _ => hdata u.heap) h
    rw [shown_of_get hw hthis] at hold
    rw [hshown, Option.some.inj hold]
  · cases happ with
    | inPlace this' capacity hthis' hcapacity hle hi =>
      obtain rfl := Option.some.inj (hthis.symm.trans hthis')
      exact halone.keep ht hthis hi rfl
    | moved capacity hle hroom hi => exact alone_fresh hw ht hi rfl
  · intro k hk hki
    have hwritten (heap : Heap UInt8) (new : Bytes) (hnew : data heap = some new) :
        new.length = n := by
      obtain rfl := Option.some.inj ((hdata heap).symm.trans hnew)
      exact hlen
    exact append_others hw howns halone hwritten h hk hki

/-- Where bytes are appended, or there was memory, there is memory. -/
theorem append_data {data : Heap UInt8 → Option Bytes} {now : Handle} (hw : s.Wf [])
    (howns : s.Owns i) (hlt : n < 2^63)
    (hsome : 0 < n ∨ ∀ this, s.handles[i]? = some this → this.ref.data ≠ none)
    (h : s.append malloc i n data = .ok t) (hnow : t.handles[i]? = some now) :
    now.ref.data ≠ none := by
  intro hnone
  obtain ⟨htw, -, this, hthis, happ⟩ :=
    append_keeps hw (fun this hthis => howns.grows hthis (sizeT (n + this.ref.size))) h
  have hsmall := size_lt hw hthis
  have hnull := null_of_data htw hnow hnone
  cases happ with
  | inPlace this' capacity hthis' _ _ hi =>
    obtain rfl := Option.some.inj (hthis.symm.trans hthis')
    obtain rfl := Option.some.inj (hi.symm.trans hnow)
    rcases hsome with hpos | hdata
    · have hsize : sizeT (n + this.ref.size) = 0 := congrArg Ref.size hnull
      rw [sizeT_of_lt _ (by omega)] at hsize
      omega
    · exact hdata this hthis hnone
  | moved capacity _ _ hi =>
    obtain rfl := Option.some.inj (hi.symm.trans hnow)
    cases hnone

/-- The digits that are written of a size. -/
theorem hex_written (build : Build) (h : 0 < n) (hn : n < 2^64) :
    ipow 16 (subSizeT (digits build n 16) 1) ≠ 0 ∧
      Buf.digitLoop n 16 64 (ipow 16 (subSizeT (digits build n 16) 1)) =
        (Buf.hexDigits n).map Buf.digitChar := by
  have hlog : Nat.log 2 n < 64 := Nat.log_lt_of_lt_pow h.ne' hn
  have hpow : 16^(Nat.log 2 n / 4) < 2^64 := by
    calc 16^(Nat.log 2 n / 4) = 2^(4 * (Nat.log 2 n / 4)) := by
          rw [pow_mul]
          norm_num
      _ < 2^64 := Nat.pow_lt_pow_right (by decide) (by omega)
  have hsub : subSizeT (Nat.log 2 n / 4 + 1) 1 = Nat.log 2 n / 4 := by
    simp only [subSizeT, sizeT]
    omega
  rw [digits_hex build n h hn, hsub, ipow_eq 16 _ (by omega), Nat.mod_eq_of_lt hpow]
  exact ⟨(Nat.pow_pos (by decide)).ne', Buf.digitLoop_eq n 16 64 _ (by decide) (by omega)⟩

theorem hex_counted (build : Build) (h : 0 < n) (hn : n < 2^64) :
    0 < digits build n 16 ∧ digits build n 16 < 2^63 ∧
      ((Buf.hexDigits n).map Buf.digitChar).length = digits build n 16 := by
  have hlog : Nat.log 2 n < 64 := Nat.log_lt_of_lt_pow h.ne' hn
  have hdigits := digits_hex build n h hn
  refine ⟨by omega, by omega, ?_⟩
  rw [hdigits, List.length_map, Buf.hexDigits, numeral_length]

/-- A view that was assigned shows the memory it is on. -/
theorem assignView_shown {block off size : Nat} (hw : s.Wf [])
    (h : call build malloc s (.assignView i block off size) = .ok t) :
    t.shown i = some (s.heap.cellsAt (some ⟨block, off⟩) size) := by
  simp only [call, bind_ok, handle_ok] at h
  obtain ⟨this, -, ref, hview, h⟩ := h
  split_ifs at h with hplain
  obtain ⟨hp, hroom, howned⟩ := callerView_spec hview
  have hflying := hw.retain hroom howned
  rw [s.retain_uncounted hp] at hflying
  obtain ⟨htw, htq, this', -, hi⟩ := assignTemporary_spec hflying h
  rw [shown_of_get htw hi, Heap.cellsAt_sameCells htq.cells hroom]
  unfold callerView at hview
  split at hview
  · cases hview
  · split_ifs at hview with hthere hsize
    · cases hview
      rw [hsize, Heap.cellsAt_zero]
      rfl
    · cases hview
      rfl

theorem append_nothing {data : Heap UInt8 → Option Bytes} {capacity : Option Nat} (hw : s.Wf [])
    (hi : s.handles[i]? = some ⟨.null, capacity⟩) (h : s.append malloc i 0 data = .ok t) :
    Quiet [i] s t ∧ t.handles[i]? = some ⟨.null, capacity⟩ := by
  obtain ⟨u, p, hu, happ⟩ := append_spec h
  obtain ⟨this, n, hthis, -, ⟨-, rfl, rfl⟩ | ⟨hlt, -⟩⟩ := expandSize_spec hw hu
  · obtain rfl := Option.some.inj (hi.symm.trans hthis)
    rcases happ with ⟨-, rfl⟩ | ⟨ptr, bytes, heap, hptr, -⟩
    · refine ⟨s.resize_quiet i _, ?_⟩
      rw [State.resize_get, if_pos rfl, hi]
      rfl
    · cases hptr
  · obtain rfl := Option.some.inj (hi.symm.trans hthis)
    exact absurd hlt (Nat.not_lt_zero n)

theorem append_empty {this : Handle} (hw : s.Wf []) (howns : s.Owns i)
    (hthis : s.handles[i]? = some this) (h : s.append malloc i 0 (fun _ => none) = .ok t) :
    this.ref.data = none := by
  obtain ⟨u, p, hu, happ⟩ := append_spec h
  obtain ⟨-, -, this', hthis', -, hp⟩ :=
    expandSize_appended hw (fun h hh => howns.grows hh (sizeT (0 + h.ref.size))) hu
  obtain rfl := Option.some.inj (hthis.symm.trans hthis')
  rcases happ with ⟨rfl, -⟩ | ⟨ptr, bytes, heap, -, hnone, -⟩
  · rcases hp with ⟨-, -, hp⟩ | hp
    · exact Option.map_eq_none_iff.mp hp.symm
    · cases hp
  · cases hnone

end

/-- What `http_write` puts into `compiledBufs`, given the header block. -/
def compiledBytes (build : Build) (framing : Framing) (block : Bytes) (chunks : List (Chunk 64))
    (last : Bool) : Option Bytes :=
  let buf : Buf := if framing.headersSent then none else some block
  if framing.isChunked then (chunkLoop build buf true chunks).map (· ++ closing chunks last)
  else some (buf.bytes ++ payload chunks)

namespace Compilation

/-- The buffers of the call are other handles than the headers, and show the chunks. -/
structure Passes (c : Compilation) (s : State) (chunks : List (Chunk 64)) : Prop where
  shown : List.Forall₂ (fun j (b : Chunk 64) => s.shown j = some b.buf.bytes) c.bufs chunks
  there : ∀ j ∈ c.bufs, j < s.handles.length
  headers : ∀ i ∈ c.headers, i < s.handles.length
  apart : ∀ j ∈ c.bufs, j ∉ c.headers

end Compilation

namespace Frame

/-- The slots that are filled show `slots`. -/
structure Filled (s : State) (c : Compilation) (slots : List Bytes) (f : Frame) : Prop where
  running : f.Running s c
  shown : (List.range f.pos).map (fun i => f.state.shown (f.slot i)) = slots.map some
  bufs : ∀ j ∈ c.bufs, f.state.shown j = s.shown j

/-- Besides, `buf` shows the bytes of `buf`, and can be appended to. -/
structure Shows (s : State) (c : Compilation) (buf : Buf) (slots : List Bytes) (f : Frame) : Prop
    extends Filled s c slots f where
  buffer : f.state.shown f.base = some buf.bytes
  alone : Alone f.state f.base
  null : ∀ this, f.state.handles[f.base]? = some this → (this.ref.data = none ↔ buf = none)

section
variable {build : Build} {malloc : Malloc} {c : Compilation} {written : Written} {s t : State}
  {f g : Frame} {buf : Buf} {slots : List Bytes} {chunks : List (Chunk 64)}

/-- A move leaves the slots that are filled alone, and may fill the next one. -/
theorem Filled.next {m : Move} (hf : f.Filled s c slots) (hp : c.Passes s chunks) (hm : m.Fills)
    (h : f.exec build malloc c written m = .ok g)
    (hshown : ∀ k < f.state.handles.length, k ∉ touched c f m → g.state.shown k = f.state.shown k)
    (more : List Bytes) (hmore : m.stores = more.length)
    (hlast : ∀ bytes ∈ more, g.state.shown (f.slot f.pos) = some bytes) :
    g.Filled s c (slots ++ more) := by
  obtain ⟨hpos, hbase⟩ := exec_pos h
  have hslot (i : Nat) : g.slot i = f.slot i := by simp only [slot, hbase]
  refine ⟨(hf.running.exec_fills hm hp.headers h).1, ?_, ?_⟩
  · have hbefore : (List.range f.pos).map (fun i => g.state.shown (g.slot i)) = slots.map some := by
      rw [← hf.shown]
      apply List.map_congr_left
      intro i hi
      have hi : i < f.pos := List.mem_range.mp hi
      have hfilled : i < ((List.range f.pos).map fun i => f.state.shown (f.slot i)).length := by
        simpa using hi
      have hmem : f.state.shown (f.slot i) ∈ slots.map some := by
        rw [← hf.shown]
        exact List.mem_map.mpr ⟨i, List.mem_range.mpr hi, rfl⟩
      obtain ⟨bytes, -, hbytes⟩ := List.mem_map.mp hmem
      rw [hslot]
      exact hshown _ (shown_lt hbytes.symm) (hf.running.slot_untouched hp.headers hi)
    cases more with
    | nil =>
      rw [List.append_nil, hpos, hmore]
      exact hbefore
    | cons bytes rest =>
      obtain rfl : rest = [] := by
        apply List.eq_nil_of_length_eq_zero
        rw [List.length_cons] at hmore
        cases m <;> simp only [Move.stores] at hmore <;> omega
      rw [hpos, hmore, List.length_singleton, List.range_succ, List.map_append, hbefore,
        List.map_append, List.map_singleton, hslot, hlast bytes List.mem_cons_self]
      rfl
  · intro j hj
    have hsmall : j < f.base := by
      rw [hf.running.base]
      exact hp.there j hj
    have huntouched : j ∉ touched c f m := by
      have hheader := hp.apart j hj
      cases m <;> simp only [touched, slot, List.mem_append, List.mem_singleton, not_or] <;>
        first
        | omega
        | exact ⟨hheader, by omega⟩
    rw [← hf.bufs j hj]
    refine hshown j ?_ huntouched
    obtain ⟨this, hthis⟩ := has_get (hp.there j hj)
    have hget := hf.running.outer j hsmall
    rw [hthis] at hget
    exact (List.getElem?_eq_some_iff.mp hget).1

theorem Filled.next_quiet {m : Move} (hf : f.Filled s c slots) (hp : c.Passes s chunks)
    (hm : m.Fills) (h : f.exec build malloc c written m = .ok g)
    (hq : Quiet (touched c f m) f.state g.state) (more : List Bytes)
    (hmore : m.stores = more.length)
    (hlast : ∀ bytes ∈ more, g.state.shown (f.slot f.pos) = some bytes) :
    g.Filled s c (slots ++ more) := by
  have hgw := (hf.running.exec_fills hm hp.headers h).1.wf
  exact hf.next hp hm h (leaves_of_quiet hf.running.wf hgw hq).shown more hmore hlast

/-- A move that stores nothing. -/
theorem Filled.next_same {m : Move} (hf : f.Filled s c slots) (hp : c.Passes s chunks)
    (hm : m.Fills) (h : f.exec build malloc c written m = .ok g)
    (hshown : ∀ k < f.state.handles.length, k ∉ touched c f m → g.state.shown k = f.state.shown k)
    (hstores : m.stores = 0) : g.Filled s c slots := by
  have hfilled := hf.next hp hm h hshown [] hstores (by simp)
  rw [List.append_nil] at hfilled
  exact hfilled

theorem Filled.quiet_same {m : Move} (hf : f.Filled s c slots) (hp : c.Passes s chunks)
    (hm : m.Fills) (h : f.exec build malloc c written m = .ok g)
    (hq : Quiet (touched c f m) f.state g.state) (hstores : m.stores = 0) : g.Filled s c slots := by
  have hgw := (hf.running.exec_fills hm hp.headers h).1.wf
  exact hf.next_same hp hm h (leaves_of_quiet hf.running.wf hgw hq).shown hstores

/-- `buf` keeps its memory, and what it shows. -/
theorem Shows.keep {touched : List Nat} (hf : f.Shows s c buf slots) (hg : g.Filled s c slots)
    (hbase : g.base = f.base) (hq : Quiet touched f.state g.state) (hout : f.base ∉ touched)
    (hothers : ∀ k other, k ≠ f.base → g.state.handles[k]? = some other →
      other.ref.data = none ∨ f.state.handles[k]? = some other) : g.Shows s c buf slots := by
  have hsame : g.state.handles[f.base]? = f.state.handles[f.base]? := hq.others _ hout
  refine ⟨hg, ?_, ?_, ?_⟩
  · rw [hbase, ← hf.buffer]
    exact (leaves_of_quiet hf.running.wf hg.running.wf hq).shown _ (shown_lt hf.buffer) hout
  · rw [hbase]
    intro this other k p q hthis hother hk hp hq'
    rw [hsame] at hthis
    rcases hothers k other hk hother with hnone | hbefore
    · rw [hnone] at hq'
      cases hq'
    · exact hf.alone this other k p q hthis hbefore hk hp hq'
  · rw [hbase, hsame]
    exact hf.null

theorem Shows.append {text : Region} (hf : f.Shows s c buf slots) (hp : c.Passes s chunks)
    (htext : text.bytes ≠ [] ∨ buf ≠ none)
    (h : f.exec build malloc c written (.append text) = .ok g) :
    g.Shows s c (buf.appendData text.bytes) slots := by
  have hstep := h
  rw [exec] at h
  obtain ⟨t, ht, rfl⟩ := quietly_ok h
  have hread (heap : Heap UInt8) :
      (Source.caller text).read f.state 0 text.bytes.length heap = some text.bytes := by
    simp [Source.read]
  obtain ⟨hshown, halone, hothers⟩ := append_alone hf.running.wf hf.running.owns hf.alone
    text.length_lt rfl hread hf.buffer ht
  have hfills : Move.Fills (.append text) := trivial
  have hfilled := hf.next_same hp hfills hstep hothers rfl
  refine ⟨hfilled, ?_, halone, ?_⟩
  · rw [Buf.bytes_appendData]
    exact hshown
  · intro now hnow
    have hdata := append_data hf.running.wf hf.running.owns text.length_lt
      (htext.imp List.length_pos_iff.mpr fun hbuf this hthis => (hf.null this hthis).not.mpr hbuf) ht
      hnow
    refine iff_of_false hdata ?_
    unfold Buf.appendData
    split_ifs with hnothing
    · exact htext.resolve_left (not_not.mpr hnothing)
    · intro hnone
      cases hnone

/-- The size of a chunk is appended as in `chunkLoop`. -/
theorem Shows.appendSize {j : Nat} {b : Chunk 64} (hf : f.Shows s c buf slots)
    (hp : c.Passes s chunks) (hj : f.state.shown j = some b.buf.bytes)
    (h : f.exec build malloc c written (.appendSize j) = .ok g) :
    ∃ buf', buf.appendNumber build b.buf.size 16 = some buf' ∧ g.Shows s c buf' slots := by
  have hstep := h
  rw [exec] at h
  obtain ⟨t, ht, rfl⟩ := throwing_ok h
  obtain ⟨chunk, hchunk, ht⟩ := bind_ok.mp ht
  have hchunk := handle_ok.mp hchunk
  have hsize : chunk.ref.size = b.buf.size := by
    rw [shown_of_get hf.running.wf hchunk] at hj
    rw [← (hf.running.wf.room hchunk).cellsAt_length, Option.some.inj hj]
    rfl
  rw [hsize] at ht
  simp only [call, State.appendNumber, bind_ok] at ht
  obtain ⟨-, -, ht⟩ := ht
  rw [if_pos (by decide)] at ht
  obtain ⟨this, capacity, hthis, hcapacity, -⟩ := hf.running.owns
  have hfills : Move.Fills (.appendSize j) := trivial
  rcases Nat.eq_zero_or_pos b.buf.size with hzero | hpos
  · -- no digits are written, which goes well as long as `buf` is empty
    have hdiv : ipow 16 (subSizeT 0 1) = 0 := by decide +kernel
    rw [hzero, digits_zero_hex] at ht
    simp only [hdiv, if_true] at ht
    have hempty := append_empty hf.running.wf hf.running.owns hthis ht
    have hnull := null_of_data hf.running.wf hthis hempty
    obtain rfl := (hf.null this hthis).mp hempty
    obtain ⟨ref, capacity⟩ := this
    obtain rfl : ref = .null := hnull
    obtain ⟨hq, hi⟩ := append_nothing hf.running.wf hthis ht
    have hfilled := hf.quiet_same hp hfills hstep hq rfl
    refine ⟨none, ?_, hfilled, ?_, alone_null hi, ?_⟩
    · rw [hzero, Buf.appendNumber_zero_hex, if_pos rfl]
    · exact shown_of_get hfilled.running.wf hi
    · intro now hnow
      obtain rfl := Option.some.inj (hi.symm.trans hnow)
      exact iff_of_true rfl rfl
  · have hsmall : b.buf.size < 2^64 := b.size_lt
    obtain ⟨hdiv, hloop⟩ := hex_written build hpos hsmall
    obtain ⟨hsome, hdigits, hlength⟩ := hex_counted build hpos hsmall
    simp only [if_neg hdiv, hloop] at ht
    obtain ⟨hshown, halone, hothers⟩ := append_alone hf.running.wf hf.running.owns hf.alone
      hdigits hlength (fun _ => rfl) hf.buffer ht
    have hfilled := hf.next_same hp hfills hstep hothers rfl
    refine ⟨_, Buf.appendNumber_hex build buf b.buf.size hpos hsmall, hfilled, hshown, halone, ?_⟩
    intro now hnow
    have hdata := append_data hf.running.wf hf.running.owns hdigits (.inl hsome) ht hnow
    simp [hdata]

/-- The memory for the header block. -/
theorem Shows.setCapacity {n : Nat} (hf : f.Shows s c none slots) (hp : c.Passes s chunks)
    (hn : 0 < n) (h : f.exec build malloc c written (.setCapacity n) = .ok g) :
    g.Shows s c (some []) slots := by
  have hstep := h
  rw [exec] at h
  obtain ⟨t, ht, rfl⟩ := quietly_ok h
  obtain ⟨-, -, -, hrefers⟩ := setCapacity_owns hf.running.wf hf.running.owns ht
  obtain ⟨this, hthis, -, hcases⟩ := setCapacity_spec hf.running.wf ht
  have hnull := null_of_data hf.running.wf hthis ((hf.null this hthis).mpr rfl)
  have hfills : Move.Fills (.setCapacity n) := trivial
  rcases hcases with rfl | hmoved
  · -- a capacity comes with memory of its own
    obtain ⟨now, hnow, hcounted⟩ := hrefers hn
    rw [State.resize_get, if_pos rfl, hthis] at hnow
    obtain rfl := Option.some.inj hnow
    simp [hnull, Ref.null] at hcounted
  · obtain ⟨capacity, -, -, hi⟩ := hmoved.fresh
    have hfilled := hf.quiet_same hp hfills hstep hmoved.quiet rfl
    refine ⟨hfilled, ?_, alone_fresh hf.running.wf hmoved.quiet.toTouches hi rfl, ?_⟩
    · have hshown := shown_of_get hmoved.wf hi
      rw [hnull] at hshown
      exact hshown
    · intro now hnow
      obtain rfl := Option.some.inj (hi.symm.trans hnow)
      simp

/-- The slot shows what `buf` shows. -/
theorem Shows.storeBuf (hf : f.Shows s c buf slots) (hp : c.Passes s chunks)
    (h : f.exec build malloc c written .storeBuf = .ok g) :
    g.Filled s c (slots ++ [buf.bytes]) := by
  have hstep := h
  rw [exec] at h
  obtain ⟨-, t, ht, rfl⟩ := store_ok h
  obtain ⟨-, hq, -⟩ := copyAssign_spec hf.running.wf ht
  have hforeign : (Op.copyAssign (f.slot f.pos) .buffer f.base).Foreign f.state := by
    intro hsame
    simp only [slot] at hsame
    omega
  obtain ⟨bytes, hbytes, hslot⟩ := copyAssign_shown hf.running.wf hforeign ht
  obtain rfl := Option.some.inj (hf.buffer.symm.trans hbytes)
  have hfills : Move.Fills .storeBuf := trivial
  refine hf.next_quiet hp hfills hstep hq [buf.bytes] rfl ?_
  intro more hmore
  rw [List.mem_singleton.mp hmore]
  exact hslot

theorem Filled.storeChunk {j : Nat} {bytes : Bytes} (hf : f.Filled s c slots)
    (hp : c.Passes s chunks) (hmem : j ∈ c.bufs) (hj : s.shown j = some bytes)
    (h : f.exec build malloc c written (.storeChunk j) = .ok g) :
    g.Filled s c (slots ++ [bytes]) := by
  have hstep := h
  rw [exec] at h
  obtain ⟨-, t, ht, rfl⟩ := store_ok h
  obtain ⟨-, hq, -⟩ := copyAssign_spec hf.running.wf ht
  have hforeign : (Op.copyAssign (f.slot f.pos) .buffer j).Foreign f.state := by
    intro hsame
    have hsmall := hp.there j hmem
    rw [← hf.running.base] at hsmall
    simp only [slot] at hsame
    omega
  obtain ⟨bytes', hbytes, hslot⟩ := copyAssign_shown hf.running.wf hforeign ht
  rw [hf.bufs j hmem, hj] at hbytes
  obtain rfl := Option.some.inj hbytes
  have hfills : Move.Fills (.storeChunk j) := trivial
  refine hf.next_quiet hp hfills hstep hq [bytes] rfl ?_
  intro more hmore
  rw [List.mem_singleton.mp hmore]
  exact hslot

theorem Filled.storeView {text : Region} (hf : f.Filled s c slots) (hp : c.Passes s chunks)
    (h : f.exec build malloc c written (.storeView text) = .ok g) :
    g.Filled s c (slots ++ [text.bytes]) := by
  have hstep := h
  rw [exec] at h
  obtain ⟨-, t, ht, rfl⟩ := store_ok h
  obtain ⟨u, hu, ht⟩ := bind_ok.mp ht
  obtain ⟨huw, huq⟩ := callerMemory_spec hf.running.wf hu
  obtain ⟨-, hq, -⟩ := assignView_spec huw ht
  have hslot := assignView_shown huw ht
  have hboth : Quiet [f.slot f.pos] f.state t := (huq.mono (by simp)).trans hq
  have hfills : Move.Fills (.storeView text) := trivial
  refine hf.next_quiet hp hfills hstep hboth [text.bytes] rfl ?_
  intro more hmore
  rw [List.mem_singleton.mp hmore]
  cases hu
  simpa [Heap.cellsAt] using hslot

theorem Filled.reset (hf : f.Filled s c slots) (hp : c.Passes s chunks)
    (h : f.exec build malloc c written .reset = .ok g) : g.Shows s c none slots := by
  have hstep := h
  rw [exec] at h
  obtain ⟨t, ht, rfl⟩ := quietly_ok h
  obtain ⟨htw, hq, this, -, hi⟩ := reset_spec hf.running.wf ht
  have hfills : Move.Fills .reset := trivial
  have hfilled := hf.quiet_same hp hfills hstep hq rfl
  refine ⟨hfilled, shown_of_get htw hi, alone_null hi, ?_⟩
  intro now hnow
  obtain rfl := Option.some.inj (hi.symm.trans hnow)
  exact iff_of_true rfl rfl

theorem Filled.clearHeaders (hf : f.Filled s c slots) (hp : c.Passes s chunks)
    (h : f.exec build malloc c written .clearHeaders = .ok g) : g.Filled s c slots := by
  have hstep := h
  rw [exec] at h
  obtain ⟨t, ht, rfl⟩ := quietly_ok h
  obtain ⟨-, hq, -⟩ := releaseAll_spec _ hf.running.wf ht
  have hfills : Move.Fills .clearHeaders := trivial
  exact hf.quiet_same hp hfills hstep hq rfl

theorem Shows.clearHeaders (hf : f.Shows s c buf slots) (hp : c.Passes s chunks)
    (h : f.exec build malloc c written .clearHeaders = .ok g) : g.Shows s c buf slots := by
  have hfilled := hf.toFilled.clearHeaders hp h
  rw [exec] at h
  obtain ⟨t, ht, rfl⟩ := quietly_ok h
  obtain ⟨-, hq, hget⟩ := releaseAll_spec _ hf.running.wf ht
  have hheaders := hf.running.headers_lt hp.headers (Nat.le_refl f.base)
  refine hf.keep hfilled rfl hq (by simp [hheaders]) ?_
  intro k other _ hother
  have hother : t.handles[k]? = some other := hother
  rw [hget k] at hother
  obtain ⟨before, hbefore, rfl⟩ := Option.map_eq_some_iff.mp hother
  split_ifs
  · exact .inl rfl
  · exact .inr hbefore

/-- The texts of the header block, one behind the other. -/
theorem Shows.appendAll (texts : List Region) (hf : f.Shows s c buf slots) (hp : c.Passes s chunks)
    (hbuf : buf ≠ none)
    (h : (texts.map Move.append).foldlM (Frame.exec build malloc c written) f = .ok g) :
    g.Shows s c (some (buf.bytes ++ texts.flatMap Region.bytes)) slots := by
  induction texts generalizing f buf with
  | nil =>
    cases h
    obtain ⟨bytes, rfl⟩ := Option.ne_none_iff_exists'.mp hbuf
    rw [List.flatMap_nil, List.append_nil]
    exact hf
  | cons text texts ih =>
    obtain ⟨f', hstep, h⟩ := moves_cons h
    have hrest := ih (hf.append hp (.inr hbuf) hstep) (appendData_ne_none hbuf text.bytes) h
    rw [Buf.bytes_appendData, List.append_assoc] at hrest
    exact hrest

/-- The loop over the chunks fills the slots as `chunkLoop` has it. -/
theorem Shows.loop {bufs : List Nat} {bs : List (Chunk 64)} (first : Bool)
    (hbufs : List.Forall₂ (fun j (b : Chunk 64) => s.shown j = some b.buf.bytes) bufs bs)
    (hf : f.Shows s c buf slots) (hp : c.Passes s chunks) (hmem : ∀ j ∈ bufs, j ∈ c.bufs)
    (h : (Compilation.chunkMoves first bufs).foldlM (Frame.exec build malloc c written) f = .ok g) :
    ∃ buf' more, chunkLoop build buf first bs = some more.flatten ∧
      g.Shows s c buf' (slots ++ more) := by
  induction hbufs generalizing f buf slots first with
  | nil =>
    cases h
    exact ⟨buf, [], rfl, by rw [List.append_nil]; exact hf⟩
  | @cons j b bufs bs hj hbufs ih =>
    have hcrlf : Compilation.crlfText.bytes ≠ [] := by decide
    obtain ⟨f₁, hfirst, h⟩ : ∃ f₁, f₁.Shows s c (if first then buf else buf.appendData crlf) slots ∧
        (([.appendSize j, .append Compilation.crlfText, .storeBuf, .storeChunk j, .reset] :
          List Move) ++ Compilation.chunkMoves false bufs).foldlM
            (Frame.exec build malloc c written) f₁ = .ok g := by
      cases first with
      | true => exact ⟨f, hf, h⟩
      | false =>
        obtain ⟨f₁, hstep, h⟩ := moves_cons h
        exact ⟨f₁, hf.append hp (.inl hcrlf) hstep, h⟩
    have hjmem := hmem j List.mem_cons_self
    obtain ⟨f₂, hsize, h⟩ := moves_cons h
    obtain ⟨f₃, hline, h⟩ := moves_cons h
    obtain ⟨f₄, hbuf, h⟩ := moves_cons h
    obtain ⟨f₅, hchunk, h⟩ := moves_cons h
    obtain ⟨f₆, hreset, h⟩ := moves_cons h
    obtain ⟨buf₂, hnumber, hf₂⟩ :=
      hfirst.appendSize hp ((hfirst.bufs j hjmem).trans hj) hsize
    have hf₄ := (hf₂.append hp (.inl hcrlf) hline).storeBuf hp hbuf
    have hf₆ := (hf₄.storeChunk hp hjmem hj hchunk).reset hp hreset
    obtain ⟨buf', more, hloop, hg⟩ :=
      ih false hf₆ (fun k hk => hmem k (List.mem_cons_of_mem _ hk)) h
    refine ⟨buf', (buf₂.appendData crlf).bytes :: b.buf.bytes :: more, ?_, ?_⟩
    · simp only [chunkLoop, hnumber, Option.bind_some, hloop, Option.map_some, List.flatten_cons,
        List.append_assoc]
    · rw [List.append_assoc, List.append_assoc] at hg
      exact hg

/-- The chunks of a message that is not chunked. -/
theorem Filled.storeChunks {bufs : List Nat} {bs : List (Chunk 64)}
    (hbufs : List.Forall₂ (fun j (b : Chunk 64) => s.shown j = some b.buf.bytes) bufs bs)
    (hf : f.Filled s c slots) (hp : c.Passes s chunks) (hmem : ∀ j ∈ bufs, j ∈ c.bufs)
    (h : (bufs.map Move.storeChunk).foldlM (Frame.exec build malloc c written) f = .ok g) :
    g.Filled s c (slots ++ bs.map fun b => b.buf.bytes) := by
  induction hbufs generalizing f slots with
  | nil =>
    cases h
    rw [List.map_nil, List.append_nil]
    exact hf
  | @cons j b bufs bs hj hbufs ih =>
    obtain ⟨f', hstep, h⟩ := moves_cons h
    have hnext := hf.storeChunk hp (hmem j List.mem_cons_self) hj hstep
    have hrest := ih hnext (fun k hk => hmem k (List.mem_cons_of_mem _ hk)) h
    rw [List.append_assoc] at hrest
    exact hrest

/-- The headers, and what stands before the first chunk. -/
theorem Shows.headers (hf : f.Shows s c none []) (hp : c.Passes s chunks)
    (h : c.headerMoves.foldlM (Frame.exec build malloc c written) f = .ok g) :
    if c.framing.headersSent then g.Shows s c none []
    else if c.framing.isChunked then g.Shows s c (some (c.block.flatMap Region.bytes)) []
    else g.Filled s c [c.block.flatMap Region.bytes] := by
  unfold Compilation.headerMoves at h
  split_ifs at h ⊢ with hsent hchunked
  · cases h
    exact hf
  · simp only [List.append_assoc, List.cons_append, List.nil_append] at h
    obtain ⟨f₁, hcapacity, h⟩ := moves_cons h
    obtain ⟨f₂, hblock, h⟩ := moves_append h
    obtain ⟨f₃, hclear, h⟩ := moves_cons h
    cases h
    have hf₁ := hf.setCapacity hp (by decide) hcapacity
    exact (hf₁.appendAll c.block hp nofun hblock).clearHeaders hp hclear
  · simp only [List.append_assoc, List.cons_append, List.nil_append] at h
    obtain ⟨f₁, hcapacity, h⟩ := moves_cons h
    obtain ⟨f₂, hblock, h⟩ := moves_append h
    obtain ⟨f₃, hbuf, h⟩ := moves_cons h
    obtain ⟨f₄, hclear, h⟩ := moves_cons h
    cases h
    have hf₁ := hf.setCapacity hp (by decide) hcapacity
    exact ((hf₁.appendAll c.block hp nofun hblock).storeBuf hp hbuf).clearHeaders hp hclear

/-- The fill of the slots. -/
theorem Shows.fill (hf : f.Shows s c none []) (hp : c.Passes s chunks)
    (h : (c.headerMoves ++ c.bodyMoves).foldlM (Frame.exec build malloc c written) f = .ok g) :
    ∃ slots, g.Filled s c slots ∧
      compiledBytes build c.framing (c.block.flatMap Region.bytes) chunks c.last =
        some slots.flatten := by
  obtain ⟨f₁, hheaders, hbody⟩ := moves_append h
  have hf₁ := hf.headers hp hheaders
  have hmem : ∀ j ∈ c.bufs, j ∈ c.bufs := fun _ hj => hj
  unfold Compilation.bodyMoves at hbody
  unfold compiledBytes
  cases hchunked : c.framing.isChunked with
  | true =>
    rw [hchunked, if_pos rfl] at hbody
    obtain ⟨f₂, hloop, hclosing⟩ := moves_append hbody
    obtain ⟨f₃, hview, hend⟩ := moves_cons hclosing
    cases hend
    have hf₁ : f₁.Shows s c (if c.framing.headersSent then none
        else some (c.block.flatMap Region.bytes)) [] := by
      simp only [hchunked, if_true] at hf₁
      split_ifs at hf₁ ⊢ with hsent
      · exact hf₁
      · exact hf₁
    obtain ⟨buf', more, hbytes, hf₂⟩ := hf₁.loop true hp.shown hp hmem hloop
    refine ⟨_, hf₂.storeView hp hview, ?_⟩
    have hclosing : c.closingText.bytes = closing chunks c.last := by
      unfold Compilation.closingText closing
      rw [hp.shown.length_eq]
      split_ifs <;> rfl
    simp only [hbytes, if_true, Option.map_some, List.nil_append, List.flatten_append,
      List.flatten_singleton, hclosing]
  | false =>
    rw [hchunked] at hbody
    have hpayload : payload chunks = (chunks.map fun b => b.buf.bytes).flatten := rfl
    cases hsent : c.framing.headersSent with
    | true =>
      rw [hsent, if_pos rfl] at hf₁
      refine ⟨_, hf₁.storeChunks hp.shown hp hmem hbody, ?_⟩
      simp [hpayload]
    | false =>
      rw [hsent, hchunked] at hf₁
      have hf₁ : f₁.Filled s c [c.block.flatMap Region.bytes] := hf₁
      refine ⟨_, hf₁.storeChunks hp.shown hp hmem hbody, ?_⟩
      simp [hpayload]

end

end Frame

section
variable {build : Build} {malloc : Malloc} {c : Compilation} {written : Written} {s t u : State}
  {f g : Frame} {chunks : List (Chunk 64)} {flying refs : List Ref}

theorem enter_shown (c : Compilation) {j : Nat} (hj : j < s.handles.length) :
    (c.enter s).state.shown j = s.shown j := by
  show (((s.handles ++ _) ++ _)[j]?).bind _ = _
  rw [List.append_assoc, List.getElem?_append_left hj]
  rfl

theorem shows_of_null {capacity : Option Nat} (hf : f.Running s c) (hpos : f.pos = 0)
    (hbufs : ∀ j ∈ c.bufs, f.state.shown j = s.shown j)
    (hbuf : f.state.handles[f.base]? = some ⟨.null, capacity⟩) : f.Shows s c none [] := by
  refine ⟨⟨hf, by rw [hpos]; rfl, hbufs⟩, shown_of_get hf.wf hbuf, alone_null hbuf, ?_⟩
  intro this hthis
  obtain rfl := Option.some.inj (hbuf.symm.trans hthis)
  exact iff_of_true rfl rfl

/-- Setting a content-length shows in none of the buffers of the call. -/
theorem lengthMoves_shows (hs : s.Wf []) (hp : c.Passes s chunks)
    (h : c.lengthMoves.foldlM (Frame.exec build malloc c written) (c.enter s) = .ok f) :
    f.Shows s c none [] := by
  have hstart := enter_running c hs
  have hrunning := (enter_lengthMoves c hs h).1
  have hbuf : (c.enter s).state.handles[s.handles.length]? = some ⟨.null, some 0⟩ :=
    enter_get c s 0
  unfold Compilation.lengthMoves at h
  split at h
  · rename_i n _
    obtain ⟨f', hstep, hend⟩ := Frame.moves_cons h
    cases hend
    rw [Frame.exec] at hstep
    obtain ⟨t, ht, rfl⟩ := throwing_ok hstep
    have howns := enter_owns c s (show 1 < 2 by decide)
    have hlength : (c.enter s).state.handles[s.handles.length + 1]? = some ⟨.null, some 0⟩ :=
      enter_get c s 1
    have hdemand : (Op.appendNumber (s.handles.length + 1) n 10).demand build (c.enter s).state =
        some ⟨s.handles.length + 1, digits build n 10,
          (Buf.digitLoop n 10 64 (ipow 10 (subSizeT (digits build n 10) 1))).length⟩ := rfl
    obtain ⟨data, happend, hlen⟩ := call_demand hdemand ht
    obtain ⟨-, htouch, -⟩ := appendNumber_owns hstart.wf howns ht
    have hne : s.handles.length ∉ [s.handles.length + 1] := by simp
    refine shows_of_null hrunning rfl ?_ ((htouch.others _ hne).trans hbuf)
    intro j hj
    have hthere := hp.there j hj
    rw [← enter_shown c hthere]
    apply append_others hstart.wf howns (alone_null hlength) hlen happend
    · have hshown := shown_of_get hs (List.getElem?_eq_getElem hthere)
      exact shown_lt ((enter_shown c hthere).trans hshown)
    · simp only [List.mem_singleton]
      omega
  · cases h
    exact shows_of_null hstart rfl (fun j hj => enter_shown c (hp.there j hj)) hbuf

/-- The references that are kept are those of the handles. -/
theorem retainAll_refs (is : List Nat) (h : retainAll s is = .ok (t, refs)) :
    refs.map some = is.map (fun i => (s.handles[i]?).map Handle.ref) ∧
      s.heap.SameCells t.heap := by
  induction is generalizing s refs with
  | nil =>
    cases h
    exact ⟨rfl, .refl _⟩
  | cons i is ih =>
    simp only [retainAll, bind_ok, handle_ok, pure_ok] at h
    obtain ⟨this, hthis, ⟨u, more⟩, hu, heq⟩ := h
    cases heq
    obtain ⟨hmore, hcells⟩ := ih hu
    refine ⟨?_, (Heap.retain_sameCells s.heap this.ref.p).trans hcells⟩
    rw [List.map_cons, List.map_cons, hmore, hthis]
    rfl

/-- Retained references show what the handles showed as long as they are counted. -/
theorem kept_shown (is : List Nat) (hw : s.Wf []) (h : retainAll s is = .ok (t, refs))
    (huw : u.Wf refs) (hsame : t.heap.SameCells u.heap) :
    refs.map (fun r => u.heap.read r.data r.size) = is.map s.shown := by
  obtain ⟨hrefs, hcells⟩ := retainAll_refs is h
  have hread : is.map s.shown =
      (refs.map some).map fun ref => ref.bind fun r => s.heap.read r.data r.size := by
    rw [hrefs, List.map_map]
    apply List.map_congr_left
    intro i _
    show (s.handles[i]?).bind _ = ((s.handles[i]?).map Handle.ref).bind _
    cases s.handles[i]? <;> rfl
  rw [hread, List.map_map]
  apply List.map_congr_left
  intro r hr
  have hmem : some r ∈ is.map fun i => (s.handles[i]?).map Handle.ref := by
    rw [← hrefs]
    exact List.mem_map.mpr ⟨r, hr, rfl⟩
  obtain ⟨i, -, hi⟩ := List.mem_map.mp hmem
  obtain ⟨this, hthis, rfl⟩ := Option.map_eq_some_iff.mp hi
  have hroom := hw.room hthis
  have hlive := huw.counted.room _ (List.mem_append_left _ hr)
  have hbefore : s.heap.read this.ref.data this.ref.size =
      some (s.heap.cellsAt this.ref.data this.ref.size) := Heap.read_eq_some.mpr ⟨hroom, rfl⟩
  show _ = s.heap.read this.ref.data this.ref.size
  rw [hbefore]
  exact Heap.read_eq_some.mpr ⟨hlive, Heap.cellsAt_sameCells (hcells.trans hsame) hroom _⟩

theorem leave_shown {exit : Exit} (is : List Nat) (hw : f.state.Wf [])
    (h : retainAll f.state is = .ok (t, refs)) (hg : g.state.Wf refs)
    (hsame : t.heap.SameCells g.state.heap) (hkept : g.kept = refs)
    (hleave : g.leave false = some exit) :
    exit.kept.map (fun r => exit.state.heap.read r.data r.size) = is.map f.state.shown := by
  unfold Frame.leave at hleave
  split at hleave
  · rename_i u hrelease
    cases hleave
    obtain ⟨huw, huq, -⟩ := release_spec hg hrelease
    rw [hkept]
    exact kept_shown is hw h huw (hsame.trans huq.cells)
  · cases hleave

/-- What the socket keeps of a call that filled slots. -/
theorem filled_shown {exit : Exit} {first : Nat} {slots : List Bytes} (hf : f.Filled s c slots)
    (h : ([.write, .destroy] : List Move).foldlM (Frame.exec build malloc c (.kept first)) f = .ok g)
    (hleave : g.leave false = some exit) :
    exit.kept.map (fun r => exit.state.heap.read r.data r.size) = (slots.drop first).map some := by
  obtain ⟨f₁, hwrite, h⟩ := Frame.moves_cons h
  obtain ⟨f₂, hdestroy, hend⟩ := Frame.moves_cons h
  cases hend
  rw [Frame.exec] at hwrite
  obtain ⟨first', t, refs, hfirst, ht, rfl⟩ := keep_ok hwrite
  cases hfirst
  rw [Frame.exec] at hdestroy
  obtain ⟨u, hu, rfl⟩ := quietly_ok hdestroy
  have htw := (retainAll_spec _ hf.running.wf ht).1
  rw [List.append_nil] at htw
  obtain ⟨huw, huq, -⟩ := releaseAll_spec _ htw hu
  have hkept := leave_shown _ hf.running.wf ht huw huq.cells rfl hleave
  have hslots : ((List.range f.pos).map f.slot).map f.state.shown = slots.map some := by
    rw [List.map_map]
    exact hf.shown
  rw [hkept, List.map_drop, hslots, List.map_drop]

/-- What the socket keeps of a call whose buffers are passed on. -/
theorem passed_shown {exit : Exit} {first : Nat} (hs : s.Wf []) (hp : c.Passes s chunks)
    (h : ([.pass] : List Move).foldlM (Frame.exec build malloc c (.kept first)) (c.enter s) = .ok g)
    (hleave : g.leave false = some exit) :
    exit.kept.map (fun r => exit.state.heap.read r.data r.size) =
      ((chunks.map fun b => b.buf.bytes).drop first).map some := by
  obtain ⟨f₁, hpass, hend⟩ := Frame.moves_cons h
  cases hend
  rw [Frame.exec] at hpass
  obtain ⟨first', t, refs, hfirst, ht, rfl⟩ := keep_ok hpass
  cases hfirst
  have hstart := enter_running c hs
  have htw := (retainAll_spec _ hstart.wf ht).1
  rw [List.append_nil] at htw
  have hkept := leave_shown _ hstart.wf ht htw (.refl _) rfl hleave
  have hbufs : c.bufs.map (c.enter s).state.shown = (chunks.map fun b => b.buf.bytes).map some := by
    have hsame : c.bufs.map (c.enter s).state.shown = c.bufs.map s.shown :=
      List.map_congr_left fun j hj => enter_shown c (hp.there j hj)
    have hpairs := List.forall₂_map_left_iff.mpr (List.forall₂_map_right_iff.mpr hp.shown)
    rw [hsame, List.map_map]
    exact List.forall₂_eq_eq_eq ▸ hpairs
  rw [hkept, List.map_drop, hbufs, List.map_drop]

end

section
variable {build : Build} {c : Compilation} {m : OutgoingMessage} {chunks : List (Chunk 64)}

theorem settle_headersSent (m : OutgoingMessage) (chunks : List (Chunk 64)) (last : Bool) :
    (Framing.settle m chunks last).headersSent = m.headersSent := by
  unfold Framing.settle
  cases m.headersSent with
  | true => rfl
  | false =>
    rw [if_neg Bool.false_ne_true]
    by_cases hcl : (m.headers (ascii "content-length")).isSome
    · rw [if_pos hcl]
      rfl
    · rw [if_neg hcl]
      cases m.headers (ascii "transfer-encoding") with
      | some value => rfl
      | none =>
        generalize (if last then contentLength chunks 0 else none) = total
        cases total <;> rfl

/-- What a message hands over, by the number of slots. -/
theorem httpWrite_compiled (compileHeaders : Headers → Bytes) {block : Bytes} (sent : Bytes)
    (hframing : c.framing = .settle m chunks c.last) (hlength : c.bufs.length = chunks.length)
    (hblock : ∀ headers isChunked, chooseFraming build m.headers chunks c.last =
      some (headers, isChunked) → compileHeaders headers = block)
    (hsent : c.needed ≠ 0 → c.needed ≠ c.bufs.length →
      compiledBytes build c.framing block chunks c.last = some sent) :
    ∃ m', m.httpWrite build compileHeaders chunks c.last = some m' ∧
      m'.handedOver = m.handedOver ++ if c.needed = 0 then []
        else if c.needed = c.bufs.length then payload chunks else sent := by
  obtain ⟨headers, hsettled, hcompiled⟩ : ∃ headers,
      (if m.headersSent then some (m.headers, m.isChunked)
        else chooseFraming build m.headers chunks c.last) = some (headers, c.framing.isChunked) ∧
      (m.headersSent = false → compileHeaders headers = block) := by
    cases hm : m.headersSent with
    | true =>
      refine ⟨m.headers, ?_, nofun⟩
      rw [hframing, Framing.settle, hm]
      rfl
    | false =>
      obtain ⟨⟨headers, isChunked⟩, hchoice⟩ :=
        chooseFraming_defined build m.headers chunks c.last
      have hchunked := Framing.settle_isChunked build m chunks c.last hm
      rw [hchoice] at hchunked
      refine ⟨headers, ?_, fun _ => hblock headers isChunked hchoice⟩
      rw [hframing, ← Option.some.inj hchunked, ← hchoice]
      rfl
  have hheaders : c.framing.headersSent = m.headersSent := by
    rw [hframing]
    exact settle_headersSent m chunks c.last
  have hneeded : (if !m.headersSent && !c.framing.isChunked then 1 else 0) +
      (if 0 < chunks.length then if c.framing.isChunked then 2 * chunks.length + 1 else chunks.length
        else if c.last then 1 else 0) = c.needed := by
    rw [Compilation.needed, hheaders, hlength]
  unfold OutgoingMessage.httpWrite
  simp only [hsettled, Option.bind_some]
  rw [hneeded, ← hlength]
  by_cases hnone : c.needed = 0
  · rw [if_pos hnone, if_pos hnone]
    exact ⟨_, rfl, (List.append_nil _).symm⟩
  · rw [if_neg hnone, if_neg hnone]
    by_cases hpass : c.needed = c.bufs.length
    · rw [if_pos hpass, if_pos hpass]
      exact ⟨_, rfl, rfl⟩
    · rw [if_neg hpass, if_neg hpass]
      have hbytes := hsent hnone hpass
      unfold compiledBytes at hbytes
      rw [hheaders] at hbytes
      have hbuf : (if m.headersSent then none else some (compileHeaders headers) : Buf) =
          if m.headersSent then none else some block := by
        split_ifs with hm
        · rfl
        · rw [hcompiled (by simpa using hm)]
      rw [hbuf]
      exact ⟨_, congrArg (Option.map _) hbytes, rfl⟩

end

/-- The buffers that the socket keeps show, when the call has returned, what the message hands over;
of the first of them nothing is left to be sent. -/
theorem httpWrite_handedOver (build : Build) (malloc : Malloc) (c : Compilation) (first : Nat)
    (s : State) (exit : Exit) (compileHeaders : Headers → Bytes) (m : OutgoingMessage)
    (chunks : List (Chunk 64)) (hs : s.Wf []) (hp : c.Passes s chunks)
    (hframing : c.framing = .settle m chunks c.last)
    (hblock : ∀ headers isChunked, chooseFraming build m.headers chunks c.last =
      some (headers, isChunked) → compileHeaders headers = c.block.flatMap Region.bytes)
    (h : c.httpWrite build malloc (.kept first) s = some exit) (hreturned : exit.threw = false) :
    ∃ (m' : OutgoingMessage) (slots : List Bytes),
      m.httpWrite build compileHeaders chunks c.last = some m' ∧
      m'.handedOver = m.handedOver ++ slots.flatten ∧
      exit.kept.map (fun r => exit.state.heap.read r.data r.size) =
        (slots.drop first).map some := by
  obtain ⟨f, hrun, hleave⟩ := moves_of_returned h hreturned
  have hlength := hp.shown.length_eq
  unfold Compilation.moves at hrun
  rw [c.compiledBufcnt_eq] at hrun
  by_cases hnone : c.needed = 0
  · rw [if_pos hnone, List.append_nil] at hrun
    have hmoves : c.lengthMoves = [] := by
      by_contra hmoves
      exact (c.length_fill hmoves).2.2.2 hnone
    rw [hmoves] at hrun
    cases hrun
    obtain ⟨m', hm', hsent⟩ := httpWrite_compiled compileHeaders [] hframing hlength hblock
      (fun hsome => absurd hnone hsome)
    rw [if_pos hnone] at hsent
    refine ⟨m', [], hm', hsent, ?_⟩
    unfold Frame.leave at hleave
    split at hleave
    · cases hleave
      simp [Compilation.enter]
    · cases hleave
  · rw [if_neg hnone] at hrun
    by_cases hpass : c.needed = c.bufs.length
    · rw [if_pos hpass, lengthMoves_sent c (c.needed_eq_bufcnt hpass hnone).1] at hrun
      obtain ⟨m', hm', hsent⟩ := httpWrite_compiled compileHeaders [] hframing hlength hblock
        (fun _ hfill => absurd hpass hfill)
      rw [if_neg hnone, if_pos hpass] at hsent
      exact ⟨m', _, hm', hsent, passed_shown hs hp hrun hleave⟩
    · rw [if_neg hpass] at hrun
      obtain ⟨f₁, hstart, hrun⟩ := Frame.moves_append hrun
      obtain ⟨f₂, hfill, hrun⟩ := Frame.moves_append hrun
      obtain ⟨slots, hf₂, hbytes⟩ := (lengthMoves_shows hs hp hstart).fill hp hfill
      obtain ⟨m', hm', hsent⟩ := httpWrite_compiled compileHeaders _ hframing hlength hblock
        (fun _ _ => hbytes)
      rw [if_neg hnone, if_neg hpass] at hsent
      exact ⟨m', slots, hm', hsent, filled_shown hf₂ hrun hleave⟩

/-- The first of `twoBuffers`. -/
def oneMore : State := ⟨[⟨ascii "ab", some 1, false⟩], [⟨⟨some ⟨0, 0⟩, 2, some 0⟩, none⟩]⟩

/-- The message of `firstWrite`. -/
def chunkedMessage : OutgoingMessage where
  headers := fun key =>
    if key = ascii "transfer-encoding" then some (some (ascii "chunked")) else none
  headersSent := false
  isChunked := false
  handedOver := []

theorem httpWrite_handedOver_first : ∃ exit m',
    firstWrite.httpWrite glibc .zeroed (.kept 0) twoBuffers = some exit ∧ exit.threw = false ∧
      chunkedMessage.httpWrite glibc (fun _ => ascii "HTTP/1.1 200 OK\r\n\r\n")
        [⟨some (ascii "ab"), by decide⟩, ⟨some (ascii "c"), by decide⟩] false = some m' ∧
      m'.handedOver = ascii "HTTP/1.1 200 OK\r\n\r\n2\r\nab\r\n1\r\nc\r\n" ∧
      (exit.kept.map fun r => (exit.state.heap.read r.data r.size).getD []).flatten =
        m'.handedOver := by
  have hleft : (firstWrite.httpWrite glibc .zeroed (.kept 0) twoBuffers).map (fun exit => exit.threw) =
      some false := by
    decide +kernel
  obtain ⟨exit, hexit, hreturned⟩ := Option.map_eq_some_iff.mp hleft
  have hone : oneMore.Wf [] :=
    (constructDeleter_spec init_wf (show call glibc .zeroed State.init
      (.constructDeleter ⟨ascii "ab", by decide⟩) = .ok oneMore from rfl)).1
  have hbuffers : twoBuffers.Wf [] :=
    (constructDeleter_spec hone (show call glibc .zeroed oneMore
      (.constructDeleter ⟨ascii "c", by decide⟩) = .ok twoBuffers from rfl)).1
  have hpasses : firstWrite.Passes twoBuffers
      [⟨some (ascii "ab"), by decide⟩, ⟨some (ascii "c"), by decide⟩] :=
    ⟨.cons rfl (.cons rfl .nil), by decide, nofun, fun _ _ => nofun⟩
  obtain ⟨m', slots, hm', hsent, hkept⟩ :=
    httpWrite_handedOver glibc .zeroed firstWrite 0 twoBuffers
    exit (fun _ => ascii "HTTP/1.1 200 OK\r\n\r\n") chunkedMessage _ hbuffers hpasses rfl
    (fun _ _ _ => by decide) hexit hreturned
  have hbytes : (chunkedMessage.httpWrite glibc (fun _ => ascii "HTTP/1.1 200 OK\r\n\r\n")
      [⟨some (ascii "ab"), by decide⟩, ⟨some (ascii "c"), by decide⟩] false).map
        OutgoingMessage.handedOver =
      some (ascii "HTTP/1.1 200 OK\r\n\r\n2\r\nab\r\n1\r\nc\r\n") := by
    decide +kernel
  have hlast : firstWrite.last = false := rfl
  rw [hlast] at hm'
  rw [hm'] at hbytes
  refine ⟨exit, m', hexit, hreturned, hm', Option.some.inj hbytes, ?_⟩
  have hslots := congrArg (List.map fun b => b.getD []) hkept
  rw [List.map_map, List.map_map, List.drop_zero] at hslots
  rw [hsent]
  exact (congrArg List.flatten hslots).trans (by simp [chunkedMessage, Function.comp_def])

end Libnodecc.Http
