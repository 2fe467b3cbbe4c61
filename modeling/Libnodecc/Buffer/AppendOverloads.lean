import Libnodecc.Buffer.OwnBytes

namespace Libnodecc.Buffer

open Util

def Source.bytes (s : State) : Source → Option Bytes
  | caller region => some region.bytes
  | shown j => s.shown j

/-- The memory of the source is not that of the handle `i`. -/
def Source.Apart (s : State) (i : Nat) : Source → Prop
  | caller _ => True
  | shown j => s.At i fun this => s.At j fun other =>
      ∀ p ∈ this.ref.data, ∀ q ∈ other.ref.data, p.block = q.block →
        ∀ m < other.ref.size, q.off + m < p.off ∨ p.off + this.capacity.getD 0 ≤ q.off + m

instance (s : State) (i : Nat) (source : Source) : Decidable (source.Apart s i) := by
  cases source <;> unfold Source.Apart <;> infer_instance

inductive Append where
  | data (source : Source) (pos n : Nat)
  | view (source : Source) (pos count : Nat)
  | buffer (j pos count : Nat)
  | pushBack (ch : Region)

namespace Append

def op (i : Nat) : Append → Op
  | data source pos n => .append i source pos n
  | view source pos count => .appendView i source pos count
  | buffer j pos count => .appendBuffer i j pos count
  | pushBack ch => .pushBack i ch

def source : Append → Source
  | data source _ _ => source
  | view source _ _ => source
  | buffer j _ _ => .shown j
  | pushBack ch => .caller ch

def pos : Append → Nat
  | data _ pos _ => pos
  | view _ pos _ => pos
  | buffer _ pos _ => pos
  | pushBack _ => 0

def count : Append → Nat
  | data _ _ n => n
  | view _ _ count => count
  | buffer _ _ count => count
  | pushBack ch => ch.bytes.length

/-- The bytes `[pos, min(pos + count, size))` of the source. -/
def bytes (s : State) (a : Append) : Option Bytes :=
  (a.source.bytes s).map fun bytes => (bytes.drop a.pos).take a.count

/-- Nothing is asked for, or the handle is not empty; a slice of a `buffer` can also be taken over
if it starts at 0. -/
def Complete (s : State) (i : Nat) : Append → Prop
  | data _ _ _ => True
  | view source pos count =>
      (∃ size, source.size s = some size ∧ size ≤ pos) ∨ count = 0 ∨
        s.At i fun this => 0 < this.ref.size
  | buffer j pos count =>
      (s.At j fun buf => buf.ref.size ≤ pos) ∨ count = 0 ∨ (s.At i fun this => 0 < this.ref.size) ∨
        pos = 0
  | pushBack _ => True

end Append

def Appends (build : Build) (malloc : Malloc) (s : State) (i : Nat) (a : Append) : Prop :=
  ∃ t old new, call build malloc s (a.op i) = .ok t ∧ s.shown i = some old ∧
    a.bytes s = some new ∧ t.shown i = some (old ++ new)

section
variable {build : Build} {malloc : Malloc} {s t : State} {i n : Nat} {this : Handle}

/-- An append that gets the memory it needs. -/
theorem append_returns {data : Heap UInt8 → Option Bytes} {bytes : Bytes} (hs : s.WellFormed i)
    (hthis : s.handles[i]? = some this) (hlt : n < 2^63) (hlen : bytes.length = n)
    (hdata : ∀ u p, s.expandSize malloc i n = .ok (u, p) → data u.heap = some bytes)
    (hserved : s.append malloc i n data ≠ .error .badAlloc) :
    ∃ t, s.append malloc i n data = .ok t ∧
      t.shown i = some (s.heap.cellsAt this.ref.data this.ref.size ++ bytes) := by
  have hgrows : ∀ h, s.handles[i]? = some h → h.Grows s.heap (sizeT (n + h.ref.size)) :=
    fun h hh => hs.grows hh _
  have hfine : Fine (s.append malloc i n data) := by
    apply fine_append hs.wf hs.has
    intro u ptr hu
    refine ⟨bytes, hdata u _ hu, ?_⟩
    rw [hlen]
    exact expandSize_room hs.wf hgrows hlt hu
  obtain ⟨t, ht⟩ := returns_of_fine hfine hserved
  exact ⟨t, ht, append_shown hs.wf hthis (hs.grows hthis _) hlt hlen hdata ht⟩

/-- What another handle shows is read as it is once there is room for it. -/
theorem read_apart {j pos : Nat} {other : Handle} (hs : s.WellFormed i)
    (hthis : s.handles[i]? = some this) (hother : s.handles[j]? = some other)
    (hapart : (Source.shown j).Apart s i) (hn : pos + n ≤ other.ref.size) {u : State}
    {p : Option Ptr} (hu : s.expandSize malloc i n = .ok (u, p)) :
    u.heap.read (advance other.ref.data pos) n =
      some (((s.heap.cellsAt other.ref.data other.ref.size).drop pos).take n) := by
  have hgrows : ∀ h, s.handles[i]? = some h → h.Grows s.heap (sizeT (n + h.ref.size)) :=
    fun h hh => hs.grows hh _
  obtain ⟨-, huq, -⟩ := expandSize_appended hs.wf hgrows hu
  have hlives : j = i → sizeT (n + this.ref.size) ≤ this.capacity.getD 0 ∨
      (this.ref.p.bind fun b => (s.heap[b]?).bind Block.useCount) ≠ some 1 := by
    -- a handle whose own memory is none of its memory is empty
    intro hji
    subst hji
    obtain rfl := Option.some.inj (hthis.symm.trans hother)
    obtain ⟨this', capacity, hthis', hcapacity⟩ := has_mutable hs.has
    obtain rfl := Option.some.inj (hthis.symm.trans hthis')
    obtain ⟨hle, -⟩ := hs.covers this hthis capacity hcapacity
    have hempty : this.ref.size = 0 := by
      by_contra hne
      cases hd : this.ref.data with
      | none =>
        have hroom := hs.wf.room hthis
        rw [hd] at hroom
        exact hne hroom
      | some ptr =>
        have hbeside := hapart this hthis this hthis ptr hd ptr hd rfl 0 (by omega)
        rw [hcapacity] at hbeside
        simp only [Option.getD_some] at hbeside
        omega
    left
    rw [hcapacity, hempty, show n = 0 by omega]
    exact Nat.zero_le _
  have hroom := source_lives hs.wf hthis hother hn hlives hgrows hu
  refine Heap.read_eq_some.mpr ⟨hroom, ?_⟩
  cases hd : other.ref.data with
  | none => simp [advance, Heap.cellsAt]
  | some ptr =>
    have hlive : s.heap.Room (some ⟨ptr.block, ptr.off + pos⟩) n := by
      have hroom := hs.wf.room hother
      rw [hd] at hroom
      exact hroom.advance hn
    show u.heap.cellsAt (some ⟨ptr.block, ptr.off + pos⟩) n = _
    rw [Heap.cellsAt_sameCells huq.cells hlive]
    simp only [Heap.cellsAt, List.drop_take, List.drop_drop, List.take_take]
    rw [Nat.min_eq_left (by omega)]

/-- An append of bytes of a source. -/
theorem append_source {source : Source} {pos : Nat} {bytes : Bytes} (hs : s.WellFormed i)
    (hthis : s.handles[i]? = some this) (hvalid : source.Valid s pos n)
    (hapart : source.Apart s i) (hbytes : source.bytes s = some bytes)
    (hserved : s.append malloc i n (source.read s pos n) ≠ .error .badAlloc) :
    ∃ t, s.append malloc i n (source.read s pos n) = .ok t ∧
      t.shown i =
        some (s.heap.cellsAt this.ref.data this.ref.size ++ (bytes.drop pos).take n) := by
  obtain ⟨size, hsize, hle⟩ := hvalid
  cases source with
  | caller region =>
    obtain rfl : region.bytes = bytes := Option.some.inj hbytes
    obtain rfl : region.bytes.length = size := Option.some.inj hsize
    have hlt := region.length_lt
    have hlen : ((region.bytes.drop pos).take n).length = n := by
      rw [List.length_take, List.length_drop]
      omega
    exact append_returns hs hthis (by omega) hlen (fun u _ _ => if_pos hle) hserved
  | shown j =>
    obtain ⟨other, hother, rfl⟩ := Option.map_eq_some_iff.mp hsize
    obtain rfl := Option.some.inj ((shown_of_get hs.wf hother).symm.trans hbytes)
    have hlt := size_lt hs.wf hother
    have hlen : (((s.heap.cellsAt other.ref.data other.ref.size).drop pos).take n).length = n := by
      rw [List.length_take, List.length_drop, (hs.wf.room hother).cellsAt_length]
      omega
    refine append_returns hs hthis (by omega) hlen ?_ hserved
    intro u p hu
    simp only [Source.read, hother, Option.bind_some]
    exact read_apart hs hthis hother hapart hle hu

theorem take_clipped (bytes : Bytes) (pos count : Nat) :
    (bytes.drop pos).take (min count (bytes.length - pos)) = (bytes.drop pos).take count := by
  rw [List.take_eq_take_iff, List.length_drop]
  omega

theorem range_empty {bytes : Bytes} {pos count : Nat} :
    (bytes.drop pos).take count = [] ↔ bytes.length ≤ pos ∨ count = 0 := by
  rw [List.take_eq_nil_iff, List.drop_eq_nil_iff]
  exact or_comm

theorem source_bytes {source : Source} {size : Nat} (hw : s.Wf [])
    (hsize : source.size s = some size) :
    ∃ bytes, source.bytes s = some bytes ∧ bytes.length = size := by
  cases source with
  | caller region => exact ⟨region.bytes, rfl, Option.some.inj hsize⟩
  | shown j =>
    obtain ⟨other, hother, rfl⟩ := Option.map_eq_some_iff.mp hsize
    exact ⟨_, shown_of_get hw hother, (hw.room hother).cellsAt_length⟩

theorem appends_iff {a : Append} {old new : Bytes} (h : call build malloc s (a.op i) = .ok t)
    (hold : s.shown i = some old) (hnew : a.bytes s = some new) :
    Appends build malloc s i a ↔ t.shown i = some (old ++ new) := by
  constructor
  · intro ⟨t', old', new', ht, hold', hnew', hshown⟩
    obtain rfl : t = t' := Except.ok.inj (h.symm.trans ht)
    obtain rfl := Option.some.inj (hold.symm.trans hold')
    obtain rfl := Option.some.inj (hnew.symm.trans hnew')
    exact hshown
  · intro hshown
    exact ⟨t, old, new, h, hold, hnew, hshown⟩

theorem appends_of_idle {a : Append} {old new : Bytes}
    (h : call build malloc s (a.op i) = .ok s) (hold : s.shown i = some old)
    (hnew : a.bytes s = some new) : Appends build malloc s i a ↔ new = [] := by
  rw [appends_iff h hold hnew, hold, Option.some.injEq]
  exact List.self_eq_append_right

/-- `append(buffer_view)` to a handle that is not empty. -/
theorem appends_view {source : Source} {pos count : Nat} (hs : s.WellFormed i)
    (hvalid : (Op.appendView i source pos count).Valid s) (hapart : source.Apart s i)
    (hserved : call build malloc s (.appendView i source pos count) ≠ .error .badAlloc) :
    Appends build malloc s i (.view source pos count) ↔
      (Append.view source pos count).Complete s i := by
  obtain ⟨hmutable, size, hsize, -⟩ := hvalid
  obtain ⟨this, capacity, hthis, hcapacity⟩ := has_mutable hmutable
  obtain ⟨bytes, hbytes, hlength⟩ := source_bytes hs.wf hsize
  have hold := shown_of_get hs.wf hthis
  have hnew : (Append.view source pos count).bytes s = some ((bytes.drop pos).take count) := by
    simp only [Append.bytes, Append.source, hbytes, Option.map_some, Append.pos, Append.count]
  have hcall : call build malloc s (.appendView i source pos count) =
      if pos < size ∧ 0 < count then
        if 0 < this.ref.size then
          s.append malloc i (min count (size - pos)) (source.read s pos (min count (size - pos)))
        else .ok s
      else .ok s := by
    simp only [call, State.capacity, State.handle, hthis, call_defined, hcapacity, hsize]
    rfl
  have hcomplete : (Append.view source pos count).Complete s i ↔
      size ≤ pos ∨ count = 0 ∨ 0 < this.ref.size := by
    simp [Append.Complete, State.At, hsize, hthis]
  rw [hcomplete]
  by_cases hrange : pos < size ∧ 0 < count
  · by_cases hfilled : 0 < this.ref.size
    · refine ⟨fun _ => Or.inr (Or.inr hfilled), fun _ => ?_⟩
      rw [if_pos hrange, if_pos hfilled] at hcall
      rw [hcall] at hserved
      obtain ⟨t, ht, hshown⟩ :=
        append_source hs hthis ⟨size, hsize, by omega⟩ hapart hbytes hserved
      refine ⟨t, _, _, hcall.trans ht, hold, hnew, ?_⟩
      rw [hshown, ← hlength, take_clipped]
    · rw [if_pos hrange, if_neg hfilled] at hcall
      rw [appends_of_idle hcall hold hnew, range_empty]
      omega
  · rw [if_neg hrange] at hcall
    rw [appends_of_idle hcall hold hnew, range_empty]
    omega

/-- A slice shows the bytes `[first, last)`. -/
theorem cellsAt_slice {heap : Heap UInt8} {ref : Ref} (hroom : heap.Room ref.data ref.size)
    (first last : Nat) :
    heap.cellsAt (slice ref first last).data (slice ref first last).size =
      ((heap.cellsAt ref.data ref.size).take last).drop first := by
  have hlength := hroom.cellsAt_length
  by_cases hcut : ref.data.isSome ∧ min first ref.size < min last ref.size
  · rw [show slice ref first last = ⟨advance ref.data (min first ref.size),
      min last ref.size - min first ref.size, ref.p⟩ from if_pos hcut]
    obtain ⟨ptr, hptr⟩ := Option.isSome_iff_exists.mp hcut.1
    have hfirst : min first ref.size = first := by omega
    simp only [hptr, hfirst, advance, Option.map_some, Heap.cellsAt, List.take_take,
      List.drop_take, List.drop_drop]
  · rw [show slice ref first last = .null from if_neg hcut]
    symm
    show _ = []
    rw [List.drop_eq_nil_iff, List.length_take, hlength]
    cases hd : ref.data with
    | none =>
      have hzero : ref.size = 0 := by
        rw [hd] at hroom
        exact hroom
      omega
    | some ptr =>
      rw [hd] at hcut
      simp only [Option.isSome_some, true_and] at hcut
      omega

/-- A handle that takes over a slice shows that slice. -/
theorem adopt_slice {j : Nat} {buf : Handle} (hw : s.Wf []) (hthis : s.handles[i]? = some this)
    (hbuf : s.handles[j]? = some buf) (first last : Nat) :
    ∃ t, (do
        let u ← (s.retain (slice buf.ref first last)).assignTemporary i (slice buf.ref first last)
        pure (u.putCapacity i (some (slice buf.ref first last).size))) = .ok t ∧
      t.shown i = some (((s.heap.cellsAt buf.ref.data buf.ref.size).take last).drop first) := by
  obtain ⟨hroom, howner⟩ := slice_spec (hw.room hbuf) (hw.owned hbuf) first last
  have hretained := hw.retain hroom howner
  obtain ⟨u, hu⟩ : ∃ u, (s.retain (slice buf.ref first last)).assignTemporary i
      (slice buf.ref first last) = .ok u := by
    simp only [State.assignTemporary, State.release, State.handle, State.retain_handles, hthis,
      call_defined]
    exact ⟨_, rfl⟩
  obtain ⟨huw, huq, this', -, hui⟩ := assignTemporary_spec hretained hu
  refine ⟨_, congrArg (· >>= _) hu, ?_⟩
  have hget : (u.putCapacity i (some (slice buf.ref first last).size)).handles[i]? =
      some ⟨slice buf.ref first last, some (slice buf.ref first last).size⟩ := by
    rw [State.putCapacity_get, if_pos rfl, hui]
    rfl
  have hcells : s.heap.SameCells u.heap :=
    (Heap.retain_sameCells s.heap (slice buf.ref first last).p).trans huq.cells
  rw [shown_of_get (huw.putCapacity i _) hget]
  show some (u.heap.cellsAt _ _) = _
  rw [Heap.cellsAt_sameCells hcells hroom, cellsAt_slice (hw.room hbuf)]

theorem drop_take_eq_iff (bytes : Bytes) {pos n : Nat} (hpos : 0 < n)
    (hn : pos + n ≤ bytes.length) :
    (bytes.take n).drop pos = (bytes.drop pos).take n ↔ pos = 0 := by
  constructor
  · intro h
    have hlength := congrArg List.length h
    simp only [List.length_drop, List.length_take] at hlength
    omega
  · intro h
    rw [h, List.drop_zero, List.drop_zero]

/-- Where a slice is taken over, the range asked for is appended if it begins at 0 only. -/
theorem appends_adopted {j pos count : Nat} {bytes : Bytes}
    (hcall : call build malloc s (.appendBuffer i j pos count) = .ok t)
    (hold : s.shown i = some [])
    (hnew : (Append.buffer j pos count).bytes s = some ((bytes.drop pos).take count))
    (hshown : t.shown i = some ((bytes.take (min count (bytes.length - pos))).drop pos))
    (hpos : pos < bytes.length) (hcount : 0 < count) :
    Appends build malloc s i (.buffer j pos count) ↔ pos = 0 := by
  rw [← drop_take_eq_iff bytes (show 0 < min count (bytes.length - pos) by omega) (by omega),
    take_clipped bytes pos count, appends_iff hcall hold hnew, hshown, List.nil_append,
    Option.some.injEq]

/-- `append(buffer)`, which takes a slice over where there is nothing to append it to. -/
theorem appends_buffer {j pos count : Nat} (hs : s.WellFormed i)
    (hvalid : (Op.appendBuffer i j pos count).Valid s) (hapart : (Source.shown j).Apart s i)
    (hserved : call build malloc s (.appendBuffer i j pos count) ≠ .error .badAlloc) :
    Appends build malloc s i (.buffer j pos count) ↔ (Append.buffer j pos count).Complete s i := by
  obtain ⟨hmutable, hj⟩ := hvalid
  obtain ⟨this, capacity, hthis, hcapacity⟩ := has_mutable hmutable
  obtain ⟨buf, hbuf⟩ := has_get hj
  have hlength := (hs.wf.room hbuf).cellsAt_length
  have hold := shown_of_get hs.wf hthis
  have hbytes : (Source.shown j).bytes s = some (s.heap.cellsAt buf.ref.data buf.ref.size) :=
    shown_of_get hs.wf hbuf
  have hnew : (Append.buffer j pos count).bytes s =
      some (((s.heap.cellsAt buf.ref.data buf.ref.size).drop pos).take count) := by
    simp only [Append.bytes, Append.source, hbytes, Option.map_some, Append.pos, Append.count]
  have hread (n : Nat) : (Source.shown j).read s pos n =
      fun heap => heap.read (advance buf.ref.data pos) n := by
    funext heap
    simp only [Source.read, hbuf, Option.bind_some]
  have hcall : call build malloc s (.appendBuffer i j pos count) =
      if pos < buf.ref.size ∧ 0 < count then
        if 0 < this.ref.size then
          s.append malloc i (min count (buf.ref.size - pos))
            ((Source.shown j).read s pos (min count (buf.ref.size - pos)))
        else do
          let u ← (s.retain (slice buf.ref pos (min count (buf.ref.size - pos)))).assignTemporary i
            (slice buf.ref pos (min count (buf.ref.size - pos)))
          pure (u.putCapacity i (some (slice buf.ref pos (min count (buf.ref.size - pos))).size))
      else .ok s := by
    rw [hread]
    simp only [call, State.appendBuffer, State.capacity, State.handle, hthis, hbuf, call_defined,
      hcapacity]
    rfl
  have hcomplete : (Append.buffer j pos count).Complete s i ↔
      buf.ref.size ≤ pos ∨ count = 0 ∨ 0 < this.ref.size ∨ pos = 0 := by
    simp [Append.Complete, State.At, hthis, hbuf]
  rw [hcomplete]
  by_cases hrange : pos < buf.ref.size ∧ 0 < count
  · by_cases hfilled : 0 < this.ref.size
    · refine ⟨fun _ => Or.inr (Or.inr (Or.inl hfilled)), fun _ => ?_⟩
      rw [if_pos hrange, if_pos hfilled] at hcall
      rw [hcall] at hserved
      obtain ⟨t, ht, hshown⟩ := append_source hs hthis
        ⟨buf.ref.size, by simp [Source.size, hbuf], by omega⟩ hapart hbytes hserved
      refine ⟨t, _, _, hcall.trans ht, hold, hnew, ?_⟩
      rw [hshown, ← take_clipped _ pos count, hlength]
    · obtain ⟨t, ht, hshown⟩ :=
        adopt_slice hs.wf hthis hbuf pos (min count (buf.ref.size - pos))
      rw [if_pos hrange, if_neg hfilled] at hcall
      have hempty : s.heap.cellsAt this.ref.data this.ref.size = [] := by
        rw [show this.ref.size = 0 by omega, Heap.cellsAt_zero]
      rw [hempty] at hold
      have hiff : Appends build malloc s i (.buffer j pos count) ↔ pos = 0 := by
        refine appends_adopted (hcall.trans ht) hold hnew ?_ ?_ hrange.2
        · rw [hshown, hlength]
        · rw [hlength]
          exact hrange.1
      rw [hiff]
      omega
  · rw [if_neg hrange] at hcall
    rw [appends_of_idle hcall hold hnew, range_empty, hlength]
    omega

end

/-- The overloads of `append` and `push_back` append the range of their source, apart from those
that find the handle empty. -/
theorem append_iff (build : Build) (malloc : Malloc) (s : State) (i : Nat) (a : Append)
    (hs : s.WellFormed i) (hvalid : (a.op i).Valid s) (hapart : a.source.Apart s i)
    (hserved : call build malloc s (a.op i) ≠ .error .badAlloc) :
    Appends build malloc s i a ↔ a.Complete s i := by
  obtain ⟨this, capacity, hthis, hcapacity⟩ := has_mutable hs.has
  have hold := shown_of_get hs.wf hthis
  cases a with
  | data source pos n =>
    obtain ⟨-, size, hsize, hle⟩ := hvalid
    obtain ⟨bytes, hbytes, -⟩ := source_bytes hs.wf hsize
    obtain ⟨t, ht, hshown⟩ := append_source hs hthis ⟨size, hsize, hle⟩ hapart hbytes hserved
    refine ⟨fun _ => trivial, fun _ => ⟨t, _, _, ht, hold, ?_, hshown⟩⟩
    show ((source.bytes s).map fun bytes => (bytes.drop pos).take n) = _
    rw [hbytes, Option.map_some]
  | view source pos count => exact appends_view hs hvalid hapart hserved
  | buffer j pos count => exact appends_buffer hs hvalid hapart hserved
  | pushBack ch =>
    have hserved : s.append malloc i ch.bytes.length (fun _ => some ch.bytes) ≠
        .error .badAlloc := hserved
    obtain ⟨t, ht, hshown⟩ :=
      append_returns hs hthis ch.length_lt rfl (fun _ _ _ => rfl) hserved
    refine ⟨fun _ => trivial, fun _ => ⟨t, _, _, ht, hold, ?_, hshown⟩⟩
    show some ((ch.bytes.drop 0).take ch.bytes.length) = some ch.bytes
    rw [List.drop_zero, List.take_length]

/-- Seven bytes are asked for from the second of `WXYZ` on, and appended to `abc` in its 24
bytes. -/
theorem append_iff_clipped : ∃ s t,
    run (step glibc .zeroed) State.init [.construct .mutable, .setCapacity 0 24,
      .append 0 (.caller ⟨ascii "abc", by decide⟩) 0 3,
      .constructCopy ⟨ascii "WXYZ", by decide⟩] = some s ∧
    s.shown 0 = some (ascii "abc") ∧ s.capacity 0 = .ok 24 ∧
    call glibc .zeroed s (.appendBuffer 0 1 1 7) = .ok t ∧ t.shown 0 = some (ascii "abcXYZ") := by
  obtain ⟨s, hs⟩ : ∃ s : State, s = ⟨[⟨ascii "abc" ++ List.replicate 21 0, some 1, false⟩,
      ⟨ascii "WXYZ", some 1, false⟩],
    [⟨⟨some ⟨0, 0⟩, 3, some 0⟩, some 24⟩, ⟨⟨some ⟨1, 0⟩, 4, some 1⟩, none⟩]⟩ := ⟨_, rfl⟩
  have hrun : run (step glibc .zeroed) State.init [.construct .mutable, .setCapacity 0 24,
      .append 0 (.caller ⟨ascii "abc", by decide⟩) 0 3,
      .constructCopy ⟨ascii "WXYZ", by decide⟩] = some s := by
    rw [hs]
    rfl
  have hwellFormed : s.WellFormed 0 :=
    wellFormed_of_run _ (by decide +kernel) hrun (by rw [hs]; rfl)
  have hserved : call glibc .zeroed s ((Append.buffer 1 1 7).op 0) ≠ .error .badAlloc := by
    rw [hs]
    intro h
    cases h
  obtain ⟨t, old, new, ht, hold, hnew, hshown⟩ := (append_iff glibc .zeroed s 0 (.buffer 1 1 7)
    hwellFormed (by rw [hs]; decide) (by rw [hs]; decide +kernel) hserved).mpr
      (.inr (.inr (.inl (by rw [hs]; decide))))
  have hfirst : s.shown 0 = some (ascii "abc") := by
    rw [hs]
    decide
  have hsecond : Append.bytes s (.buffer 1 1 7) = some (ascii "XYZ") := by
    rw [hs]
    decide
  obtain rfl := Option.some.inj (hold.symm.trans hfirst)
  obtain rfl := Option.some.inj (hnew.symm.trans hsecond)
  exact ⟨s, t, hrun, hfirst, by rw [hs]; rfl, ht, hshown⟩

/-- A new handle ignores a view, and takes over too little of a buffer. -/
theorem append_to_empty_fails :
    (∃ build malloc s i a, s.WellFormed i ∧ (a.op i).Valid s ∧ a.source.Apart s i ∧
      call build malloc s (a.op i) ≠ .error .badAlloc ∧ ¬Appends build malloc s i a) ∧
    run (step glibc .zeroed) State.init [.constructCopy ⟨[0x61, 0x62], by decide⟩,
        .construct .mutable, .appendBuffer 1 0 1 1, .pushBack 1 ⟨[0x63], by decide⟩] =
      run (step glibc .zeroed) State.init [.constructCopy ⟨[0x61, 0x62], by decide⟩,
        .construct .mutable, .pushBack 1 ⟨[0x63], by decide⟩] := by
  refine ⟨⟨glibc, .zeroed, State.init.push .null (some 0), 0,
    .view (.caller ⟨[0x61], by decide⟩) 0 1, fresh_wellFormed, by decide, trivial, ?_, ?_⟩, rfl⟩
  · intro h
    cases h
  · intro ⟨t, old, new, ht, hold, hnew, hshown⟩
    cases ht
    cases hold
    cases hnew
    cases hshown

end Libnodecc.Buffer
