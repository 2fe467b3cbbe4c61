import Libnodecc.Buffer.ValueSemantics
import Libnodecc.Buffer.UseCounts

namespace Libnodecc.Buffer

open Util

structure Tally where
  useCount : Nat
  extent : Nat
  freed : Bool
  deriving DecidableEq

def Tally.ofBlock (blk : Block UInt8) : Option Tally :=
  blk.useCount.map fun k => ⟨k, blk.cells.length, blk.freed⟩

def Tally.ofControl (c : Shared Counting.Control) : Tally :=
  ⟨c.useCount, c.content.extent, !c.content.alive⟩

def tallies (heap : Heap UInt8) : List Tally := heap.filterMap Tally.ofBlock

/-- The place of the block `b` among those that are counted. -/
def rank (heap : Heap UInt8) (b : Nat) : Nat := (heap.take b).countP fun blk => blk.useCount.isSome

section
variable {heap heap' : Heap UInt8} {b k : Nat} {blk : Block UInt8}

theorem rank_succ (b : Nat) : rank (blk :: heap) (b + 1) =
    rank heap b + if blk.useCount.isSome then 1 else 0 := by
  rw [rank, List.take_succ_cons, List.countP_cons, rank]

theorem tallies_cons : tallies (blk :: heap) = (Tally.ofBlock blk).toList ++ tallies heap := by
  unfold tallies
  cases h : Tally.ofBlock blk with
  | none => simp [h]
  | some t => simp [h]

theorem tallies_append : tallies (heap ++ [blk]) = tallies heap ++ (Tally.ofBlock blk).toList := by
  unfold tallies
  cases h : Tally.ofBlock blk with
  | none => simp [h]
  | some t => simp [h]

theorem rank_keeps (hk : heap.Keeps heap') (hb : b ≤ heap.length) : rank heap' b = rank heap b := by
  have hsame : (heap'.take b).map (fun blk => blk.useCount.isSome) =
      (heap.take b).map fun blk => blk.useCount.isSome := by
    apply List.ext_getElem?
    intro a
    rw [List.getElem?_map, List.getElem?_map, List.getElem?_take, List.getElem?_take]
    split_ifs with hab
    · obtain ⟨blk', hget, -, hcounted⟩ := hk a _ (List.getElem?_eq_getElem (by omega))
      rw [hget, List.getElem?_eq_getElem (show a < heap.length by omega)]
      exact congrArg some hcounted
    · rfl
  have hcount := congrArg (List.countP id) hsame
  rw [List.countP_map, List.countP_map] at hcount
  exact hcount

theorem rank_length (heap : Heap UInt8) : rank heap heap.length = (tallies heap).length := by
  induction heap with
  | nil => rfl
  | cons blk heap ih =>
    rw [List.length_cons, rank_succ, ih, tallies_cons, List.length_append]
    cases h : blk.useCount <;> simp [Tally.ofBlock, h, Nat.add_comm]

theorem tallies_get {t : Tally} (hb : heap[b]? = some blk) (ht : Tally.ofBlock blk = some t) :
    (tallies heap)[rank heap b]? = some t := by
  induction heap generalizing b with
  | nil => cases hb
  | cons first heap ih =>
    rw [tallies_cons]
    cases b with
    | zero =>
      cases hb
      rw [ht]
      rfl
    | succ b =>
      have hrest := ih hb
      rw [rank_succ]
      cases h : first.useCount <;> simpa [Tally.ofBlock, h] using hrest

/-- A change of a counted block is one of its tally. -/
theorem tallies_modify {t : Tally} {f : Block UInt8 → Block UInt8} (hb : heap[b]? = some blk)
    (hcounted : blk.useCount.isSome) (ht : Tally.ofBlock (f blk) = some t) :
    tallies (heap.modify b f) = (tallies heap).set (rank heap b) t := by
  induction heap generalizing b with
  | nil => cases hb
  | cons first heap ih =>
    cases b with
    | zero =>
      cases hb
      obtain ⟨k, hk⟩ := Option.isSome_iff_exists.mp hcounted
      rw [List.modify_zero_cons, tallies_cons, tallies_cons, ht]
      simp [Tally.ofBlock, hk, rank]
    | succ b =>
      rw [List.modify_succ_cons, tallies_cons, tallies_cons, ih hb, rank_succ]
      cases h : first.useCount <;> simp [Tally.ofBlock, h]

end

def areaAt (heap : Heap UInt8) (b : Nat) : Counting.Area :=
  if ((heap[b]?).bind Block.useCount).isSome then .counted (rank heap b) else .caller b

def pointerAt (heap : Heap UInt8) (ptr : Ptr) : Counting.Pointer := ⟨areaAt heap ptr.block, ptr.off⟩

def fieldsAt (heap : Heap UInt8) (ref : Ref) : Counting.Fields :=
  ⟨ref.data.map (pointerAt heap), ref.size, ref.p.map (rank heap)⟩

def derivedOf (capacity : Option Nat) : Counting.Derived :=
  match capacity with
  | none => .buffer
  | some n => .mutable n

def handleAt (heap : Heap UInt8) (h : Handle) : Counting.Handle :=
  ⟨fieldsAt heap h.ref, derivedOf h.capacity⟩

section
variable {heap heap' : Heap UInt8} {ref : Ref}

theorem areaAt_keeps {b : Nat} (hk : heap.Keeps heap') (hb : b < heap.length) :
    areaAt heap' b = areaAt heap b := by
  obtain ⟨blk', hget, -, hcounted⟩ := hk b _ (List.getElem?_eq_getElem hb)
  unfold areaAt
  rw [hget, List.getElem?_eq_getElem hb, rank_keeps hk hb.le]
  simp only [Option.bind_some, hcounted]

/-- A live reference is the same one as long as no block goes away. -/
theorem fieldsAt_keeps (hk : heap.Keeps heap') (hroom : heap.Room ref.data ref.size)
    (howned : ref.p = heap.owner ref.data) : fieldsAt heap' ref = fieldsAt heap ref := by
  unfold fieldsAt
  rw [howned]
  cases hdata : ref.data with
  | none => rfl
  | some ptr =>
    rw [hdata] at hroom
    obtain ⟨blk, hblk, -, -⟩ := hroom
    have hlt : ptr.block < heap.length := (List.getElem?_eq_some_iff.mp hblk).1
    have hptr : pointerAt heap' ptr = pointerAt heap ptr := by
      unfold pointerAt
      rw [areaAt_keeps hk hlt]
    have howner : heap.owner (some ptr) = blk.useCount.map fun _ => ptr.block := by
      simp [Heap.owner, hblk]
    rw [howner, Option.map_some, Option.map_some, hptr]
    cases blk.useCount with
    | none => rfl
    | some k => simp [rank_keeps hk hlt.le]

theorem fieldsAt_slice (heap : Heap UInt8) (this : Ref) (first last : Nat) :
    fieldsAt heap (slice this first last) = (fieldsAt heap this).slice first last := by
  unfold slice Counting.Fields.slice fieldsAt
  cases this.data with
  | none => rfl
  | some ptr =>
    by_cases hlt : min first this.size < min last this.size
    · simp [hlt, advance, pointerAt]
    · simp [hlt, Ref.null, Counting.Fields.zero]

end

/-- The counting of references `c` is that of the memory and the handles in `s`, with `n` places for
handles. -/
structure Counts (n : Nat) (s : State) (c : Counting.State) : Prop where
  blocks : c.blocks.map Tally.ofControl = tallies s.heap
  places : c.objects.length = n
  room : n ≤ Counting.maxObjects
  few : s.handles.length ≤ n
  objects : ∀ i, i < n → c.objects[i]? = some (s.handles[i]?.map (handleAt s.heap))

namespace Counts

variable {n i : Nat} {s t : State} {c : Counting.State} {flying : List Ref} {ref : Ref} {h : Handle}

theorem lt (hc : Counts n s c) (hh : s.handles[i]? = some h) : i < n :=
  Nat.lt_of_lt_of_le (List.getElem?_eq_some_iff.mp hh).1 hc.few

theorem get (hc : Counts n s c) (hh : s.handles[i]? = some h) :
    c.get i = .ok (handleAt s.heap h) := by
  have hi := hc.objects i (hc.lt hh)
  rw [hh] at hi
  unfold Counting.State.get
  rw [hi]
  rfl

theorem put {o : Option Counting.Handle} (hc : Counts n s c) (hi : i < n) (hheap : t.heap = s.heap)
    (hfew : t.handles.length ≤ n) (hothers : ∀ k, k ≠ i → t.handles[k]? = s.handles[k]?)
    (ho : o = t.handles[i]?.map (handleAt s.heap)) : Counts n t (c.put i o) := by
  refine ⟨?_, ?_, hc.room, hfew, ?_⟩
  · rw [hheap]
    exact hc.blocks
  · rw [Counting.State.put, List.length_set]
    exact hc.places
  · intro k hk
    rw [Counting.State.put, List.getElem?_set, hc.places, hheap]
    split_ifs with hik
    · rw [ho, hik]
    · rw [hothers k (Ne.symm hik)]
      exact hc.objects k hk

theorem setRef (hc : Counts n s c) (hh : s.handles[i]? = some h) (ref : Ref) :
    Counts n (s.setRef i ref)
      (c.put i (some ⟨fieldsAt s.heap ref, derivedOf h.capacity⟩)) := by
  refine hc.put (hc.lt hh) rfl ?_ ?_ ?_
  · rw [State.setRef, List.length_modify]
    exact hc.few
  · intro k hk
    rw [State.setRef_get, if_neg (Ne.symm hk)]
  · rw [State.setRef_get, if_pos rfl, hh]
    rfl

theorem putCapacity (hc : Counts n s c) (hh : s.handles[i]? = some h) (capacity : Option Nat) :
    Counts n (s.putCapacity i capacity)
      (c.put i (some ⟨fieldsAt s.heap h.ref, derivedOf capacity⟩)) := by
  refine hc.put (hc.lt hh) rfl ?_ ?_ ?_
  · rw [State.putCapacity, List.length_modify]
    exact hc.few
  · intro k hk
    rw [State.putCapacity_get, if_neg (Ne.symm hk)]
  · rw [State.putCapacity_get, if_pos rfl, hh]
    rfl

theorem push (hc : Counts n s c) (hlt : s.handles.length < n) (ref : Ref)
    (capacity : Option Nat) : Counts n (s.push ref capacity)
      (c.put s.handles.length (some (handleAt s.heap ⟨ref, capacity⟩))) := by
  refine hc.put hlt rfl ?_ ?_ ?_
  · rw [State.push, List.length_append]
    exact hlt
  · intro k hk
    rw [State.push_get, if_neg hk]
  · rw [State.push_get, if_pos rfl]
    rfl

theorem withHeap {heap : Heap UInt8} {blocks : List (Shared Counting.Control)}
    (hc : Counts n s c) (hw : s.Wf flying) (hk : s.heap.Keeps heap)
    (hblocks : blocks.map Tally.ofControl = tallies heap) :
    Counts n { s with heap := heap } { c with blocks := blocks } := by
  refine ⟨hblocks, hc.places, hc.room, hc.few, ?_⟩
  intro k hk'
  rw [hc.objects k hk']
  cases hh : s.handles[k]? with
  | none => rfl
  | some h =>
    have hsame : handleAt heap h = handleAt s.heap h := by
      unfold handleAt
      rw [fieldsAt_keeps hk (hw.room hh) (hw.owned hh)]
    rw [Option.map_some, Option.map_some, hsame]

/-- The block a reference is counted in, in both models. -/
theorem counted {b : Nat} (hc : Counts n s c) (hw : s.Wf flying)
    (hroom : s.heap.Room ref.data ref.size) (howned : ref.p = s.heap.owner ref.data)
    (hp : ref.p = some b) : ∃ blk k control, s.heap[b]? = some blk ∧ blk.useCount = some k ∧
      k = (flying ++ s.refs).countP (fun r => r.p == some b) ∧ blk.freed = false ∧
      c.blocks[rank s.heap b]? = some control ∧ control.useCount = k ∧
      control.content.extent = blk.cells.length ∧ control.content.alive = true := by
  cases hdata : ref.data with
  | none =>
    rw [hdata] at howned
    rw [hp] at howned
    cases howned
  | some ptr =>
    rw [hdata] at hroom howned
    obtain ⟨blk, hblk, hlive, -⟩ := hroom
    rw [hp] at howned
    simp only [Heap.owner, Option.bind_some, hblk] at howned
    obtain ⟨k, hk, hb⟩ := Option.map_eq_some_iff.mp howned.symm
    rw [hb] at hblk
    have hcount := hw.counted.count b blk k hblk hk hlive
    have hblock : Tally.ofBlock blk = some ⟨k, blk.cells.length, blk.freed⟩ := by
      simp [Tally.ofBlock, hk]
    have htally := tallies_get hblk hblock
    rw [← hc.blocks, List.getElem?_map] at htally
    obtain ⟨control, hcontrol, hsame⟩ := Option.map_eq_some_iff.mp htally
    refine ⟨blk, k, control, hblk, hk, hcount, hlive, hcontrol, congrArg Tally.useCount hsame,
      congrArg Tally.extent hsame, ?_⟩
    have halive : (!control.content.alive) = blk.freed := congrArg Tally.freed hsame
    rw [hlive] at halive
    simpa using halive

theorem refs_length (s : State) : s.refs.length = s.handles.length := List.length_map _

theorem count_lt {k b : Nat} (hc : Counts n s c) (hfew : flying.length ≤ 1)
    (hk : k = (flying ++ s.refs).countP fun r => r.p == some b) : k + 1 < 2^64 := by
  have hle : k ≤ (flying ++ s.refs).length := by
    rw [hk]
    exact List.countP_le_length
  rw [List.length_append, refs_length] at hle
  have hmax : Counting.maxObjects + 2 < 2^64 := by decide
  have hfewer := hc.few
  have hroom := hc.room
  omega

/-- `buffer::_retain`. -/
theorem retain (hc : Counts n s c) (hw : s.Wf flying) (hfew : flying.length ≤ 1)
    (hroom : s.heap.Room ref.data ref.size) (howned : ref.p = s.heap.owner ref.data) :
    ∃ c', c.retain (fieldsAt s.heap ref) = .ok c' ∧ c'.objects = c.objects ∧
      Counts n (s.retain ref) c' := by
  cases hp : ref.p with
  | none =>
    refine ⟨c, ?_, rfl, ?_⟩
    · simp only [Counting.State.retain, fieldsAt, hp, Option.map_none, Disposal.retain]
      rfl
    · rw [s.retain_uncounted hp]
      exact hc
  | some b =>
    obtain ⟨blk, k, control, hblk, hk, hcount, hlive, hcontrol, huse, hextent, halive⟩ :=
      hc.counted hw hroom howned hp
    have hret : Counting.useCounting.retain c.blocks (fieldsAt s.heap ref).p =
        some (c.blocks.set (rank s.heap b) (Counting.useCounting.increment control)) := by
      simp [fieldsAt, hp, Disposal.retain, Disposal.update, hcontrol, Counting.useCounting, halive]
    refine ⟨{ c with blocks := c.blocks.set (rank s.heap b) (Counting.useCounting.increment control) },
      ?_, rfl, ?_⟩
    · rw [Counting.State.retain, hret]
      rfl
    · refine hc.withHeap hw (Heap.retain_keeps _ _) ?_
      rw [List.map_set, hc.blocks, hp]
      refine (tallies_modify hblk (by rw [hk]; rfl) ?_).symm
      have hsucc : (control.useCount + 1) % 2^64 = k + 1 := by
        rw [huse]
        exact Nat.mod_eq_of_lt (hc.count_lt hfew hcount)
      simp [Tally.ofBlock, Tally.ofControl, Disposal.increment, Counting.useCounting, hk, hlive,
        halive, hextent]
      exact hsucc.symm

/-- The count of a block with its reference released, and whether it was the last one. -/
theorem decrement_tally {k : Nat} {blk : Block UInt8} {control : Shared Counting.Control}
    (hk : blk.useCount = some k) (hlive : blk.freed = false) (hpos : 0 < k) (hlt : k < 2^64)
    (huse : control.useCount = k) (hextent : control.content.extent = blk.cells.length)
    (halive : control.content.alive = true) :
    Tally.ofBlock { blk with
      useCount := blk.useCount.map (· - 1)
      freed := blk.freed || blk.useCount == some 1 } =
      some (Tally.ofControl (Counting.useCounting.decrement control)) := by
  by_cases hlast : k = 1
  · have hfreed : control.content.free.alive = false := by
      unfold Counting.Control.free Counting.Control.alive
      split_ifs <;> simp
    simp [Tally.ofBlock, Tally.ofControl, Disposal.decrement, Counting.useCounting, huse, hk, hlast,
      hfreed, Counting.State.Wf.free_extent, hextent]
  · have hpred : (k + (2^64 - 1)) % 2^64 = k - 1 := by omega
    simp [Tally.ofBlock, Tally.ofControl, Disposal.decrement, Counting.useCounting, huse, hk, hlast,
      hlive, halive, hextent]
    omega

/-- `buffer::_release`. -/
theorem release (hc : Counts n s c) (hw : s.Wf flying) (hfew : flying.length ≤ 1)
    (h : s.release i = .ok t) : ∃ c', c.release i = .ok c' ∧ Counts n t c' := by
  simp only [State.release, bind_ok, handle_ok, pure_ok] at h
  obtain ⟨this, hthis, rfl⟩ := h
  have hblocks : ∃ blocks, Counting.useCounting.release c.blocks (fieldsAt s.heap this.ref).p =
      some blocks ∧ blocks.map Tally.ofControl = tallies (s.heap.release this.ref.p) := by
    cases hp : this.ref.p with
    | none =>
      refine ⟨c.blocks, ?_, hc.blocks⟩
      simp only [fieldsAt, hp, Option.map_none, Disposal.release]
    | some b =>
      obtain ⟨blk, k, control, hblk, hk, hcount, hlive, hcontrol, huse, hextent, halive⟩ :=
        hc.counted hw (hw.room hthis) (hw.owned hthis) hp
      have hpos : 0 < k := by
        rw [hcount]
        exact List.countP_pos_iff.mpr
          ⟨this.ref, List.mem_append_right _ (State.Wf.ref_mem hthis), by simp [hp]⟩
      have hlt := hc.count_lt hfew hcount
      refine ⟨c.blocks.set (rank s.heap b) (Counting.useCounting.decrement control), ?_, ?_⟩
      · simp [fieldsAt, hp, Disposal.release, Disposal.update, hcontrol, Counting.useCounting,
        halive]
      · rw [List.map_set, hc.blocks]
        refine (tallies_modify hblk (by rw [hk]; rfl) ?_).symm
        exact decrement_tally hk hlive hpos (by omega) huse hextent halive
  obtain ⟨blocks, hblocks, htallies⟩ := hblocks
  have hheap := hc.withHeap hw (Heap.release_keeps _ _) htallies
  refine ⟨_, ?_, hheap.setRef hthis .null⟩
  rw [Counting.State.release, hc.get hthis]
  change (Counting.touched (Counting.useCounting.release c.blocks (fieldsAt s.heap this.ref).p) >>=
    _) = _
  rw [hblocks]
  rfl

/-- A new block with one reference. -/
theorem fresh (hc : Counts n s c) (hw : s.Wf flying) (cells : Bytes) (isDefault : Bool)
    (size : Nat) : Counts n { s with heap := s.heap ++ [⟨cells, some 1, false⟩] }
        { c with blocks := c.blocks ++ [⟨1, ⟨isDefault, cells.length, 0, 0⟩⟩] } ∧
      fieldsAt (s.heap ++ [⟨cells, some 1, false⟩])
          ⟨some ⟨s.heap.length, 0⟩, size, some s.heap.length⟩ =
        ⟨some ⟨.counted c.blocks.length, 0⟩, size, some c.blocks.length⟩ := by
  have hkeeps := Heap.append_keeps s.heap ⟨cells, some 1, false⟩
  constructor
  · refine hc.withHeap hw hkeeps ?_
    rw [List.map_append, hc.blocks, tallies_append]
    rfl
  · have hrank : rank (s.heap ++ [⟨cells, some 1, false⟩]) s.heap.length = c.blocks.length := by
      rw [rank_keeps hkeeps (Nat.le_refl _), rank_length, ← hc.blocks, List.length_map]
    have harea : areaAt (s.heap ++ [⟨cells, some 1, false⟩]) s.heap.length =
        .counted c.blocks.length := by
      rw [areaAt, if_pos (by simp), hrank]
    simp [fieldsAt, pointerAt, harea, hrank]

/-- `buffer::_reset_unsafe` of an empty buffer. -/
theorem allocate {malloc : Malloc} {m : Nat} {content : Bytes} {heap : Heap UInt8}
    (hc : Counts n s c) (hw : s.Wf flying) (hcontent : content.length ≤ m)
    (h : allocate malloc s.heap m content = .ok (heap, ref)) :
    ∃ c', c.resetUnsafe m (malloc.serve s.heap.length m).isSome = .ok (c', fieldsAt heap ref) ∧
      Counts n { s with heap := heap } c' := by
  unfold Buffer.allocate at h
  unfold Counting.State.resetUnsafe
  split_ifs at h with hm
  · cases h
    rw [if_pos hm]
    exact ⟨c, rfl, hc⟩
  · rw [if_neg hm]
    cases hserve : malloc.serve s.heap.length m with
    | none =>
      rw [hserve] at h
      cases h
    | some bs =>
      rw [hserve] at h
      cases h
      obtain ⟨hlength, hlt⟩ := malloc.served _ _ _ hserve
      have hcells : (content ++ bs.drop content.length).length = m := by
        rw [List.length_append, List.length_drop, hlength]
        omega
      obtain ⟨hcounts, hfields⟩ := hc.fresh hw (content ++ bs.drop content.length) true m
      have hroom : m < sizeT (Counting.controlSize + m) := by
        have hsum : Counting.controlSize + m < 2^64 := by
          have : Counting.controlSize = 32 := rfl
          omega
        rw [sizeT_of_lt _ hsum]
        exact Nat.lt_add_of_pos_left (by decide)
      rw [if_pos ⟨hroom, rfl⟩, ← hfields]
      rw [hcells] at hcounts
      exact ⟨_, rfl, hcounts⟩

theorem allocate_refused {malloc : Malloc} {m : Nat} {content : Bytes} (c : Counting.State)
    (h : Buffer.allocate malloc s.heap m content = .error .badAlloc) :
    c.resetUnsafe m (malloc.serve s.heap.length m).isSome = .error .badAlloc := by
  unfold Buffer.allocate at h
  unfold Counting.State.resetUnsafe
  split_ifs at h with hm
  rw [if_neg hm]
  cases hserve : malloc.serve s.heap.length m with
  | none => rw [if_neg (by simp)]
  | some bs =>
    rw [hserve] at h
    cases h

/-- A constructor, on the place behind the last handle. -/
theorem construct {c' : Counting.State} {u : State} {source : Counting.Source}
    {capacity : Option Nat} (hc : Counts n s c) (hu : Counts n u c')
    (hlength : u.handles.length = s.handles.length) (hlt : s.handles.length < n)
    (hcall : c.construct source = .ok (c', handleAt u.heap ⟨ref, capacity⟩)) :
    ∃ d, c.call (.construct s.handles.length source) = .ok d ∧
      Counts n (u.push ref capacity) d := by
  have hnone : s.handles[s.handles.length]? = none := List.getElem?_eq_none (Nat.le_refl _)
  have hplace : c.objects[s.handles.length]? = some none := by
    rw [hc.objects _ hlt, hnone]
    rfl
  refine ⟨c'.put u.handles.length (some (handleAt u.heap ⟨ref, capacity⟩)), ?_,
    hu.push (hlength ▸ hlt) ref capacity⟩
  rw [Counting.State.call, hplace, hlength]
  simp only [hcall]
  rfl

end Counts

def kindOf : Kind → Counting.Kind
  | .buffer => .buffer
  | .mutable => .mutable

/-- The class of the handle `i`. -/
def State.kindAt (s : State) (i : Nat) : Counting.Kind :=
  match s.handles[i]? with
  | none => .buffer
  | some h => kindOf (State.kind h)

/-- An operation as one that counts references. There are none for what only changes bytes, and
for the appends, which are made of a copy and an assignment. -/
def countingOps (malloc : Malloc) (s : State) : Op → Option (List Counting.Op)
  | .callerMemory _ => some []
  | .construct kind => some [.construct s.handles.length (.empty (kindOf kind))]
  | .constructSize kind n => some [.construct s.handles.length
      (.sized (kindOf kind) n (malloc.serve s.heap.length n).isSome)]
  | .constructCopy region =>
    let n := region.bytes.length
    some [.construct s.handles.length (.memory .buffer (.memory (some ⟨.caller 0, 0⟩) n) true
      (malloc.serve s.heap.length n).isSome)]
  | .constructWeak block off size => some [.construct s.handles.length
      (.memory .buffer (.memory (some ⟨.caller block, off⟩) size) false false)]
  | .constructDeleter region => some [.construct s.handles.length
      (.deleter .buffer false region.bytes.length true)]
  | .copyConstruct kind passed j =>
    some [.construct s.handles.length (.copied (kindOf kind) (kindOf passed) j)]
  | .moveConstruct kind passed j =>
    some [.construct s.handles.length (.moved (kindOf kind) (kindOf passed) j)]
  | .copy j n => s.handles[j]?.map fun this =>
    let size := if n = 0 then this.ref.size else n
    [.construct s.handles.length (.copy j n (malloc.serve s.heap.length size).isSome)]
  | .slice .buffer j first last => some [.construct s.handles.length (.slice j first last)]
  | .slice .mutable j first last => some [.construct s.handles.length (.mutableSlice j first last)]
  | .assignView i block off size =>
    some [.assignView .buffer i (.memory (some ⟨.caller block, off⟩) size) 0]
  | .copyAssign i passed j => some [.copyAssign (s.kindAt i) i (kindOf passed) j]
  | .moveAssign i passed j => some [.moveAssign (s.kindAt i) i (kindOf passed) j]
  | .swap i passed j => some [.swap i (kindOf passed) j]
  | .reset i => some [.reset (s.kindAt i) i]
  | .append .. | .appendView .. | .appendBuffer .. | .pushBack .. | .appendNumber ..
  | .setSize .. | .setCapacity .. | .clear .. => none

theorem counting_bind {α β : Type} (a : α) (f : α → Counting.Call β) :
    ((.ok a : Counting.Call α) >>= f) = f a := rfl

theorem counting_need {stop : Counting.Stop} {p : Prop} [Decidable p] (h : p) :
    Counting.need stop p = .ok () := if_pos h

theorem derivedOf_kind (h : Handle) : (derivedOf h.capacity).kind = kindOf (State.kind h) := by
  unfold State.kind
  cases h.capacity <;> rfl

theorem plain_capacity {h : Handle} (hclass : State.kind h = .buffer) : h.capacity = none := by
  cases hcapacity : h.capacity with
  | none => rfl
  | some m => simp [State.kind, hcapacity] at hclass

theorem kindOf_ne_hashed (kind : Kind) : kindOf kind ≠ .hashed := by
  cases kind with
  | buffer => decide
  | mutable => decide

theorem accepted_kinds (kind passed : Kind) (fromMutable : Bool) :
    Counting.State.Accepted (kindOf kind) (kindOf passed) fromMutable := by
  cases kind <;> exact nofun

theorem taken_capacity {kind passed : Kind} {other : Handle} {capacity : Option Nat}
    (heap : Heap UInt8) (h : State.takenCapacity kind passed other = .ok capacity) :
    Counting.State.taken (kindOf kind) (kindOf passed) (handleAt heap other) =
      derivedOf capacity := by
  cases passed with
  | buffer =>
    cases h
    cases kind <;> rfl
  | mutable =>
    simp only [State.takenCapacity, bind_ok, defined_ok, pure_ok] at h
    obtain ⟨m, hm, rfl⟩ := h
    cases kind with
    | buffer => rfl
    | mutable => simp [Counting.State.taken, kindOf, handleAt, hm, derivedOf, Kind.capacity,
        Counting.Derived.capacity]

theorem passed_capacity {kind passed : Kind} {other : Handle} {capacity : Option Nat}
    (h : State.takenCapacity kind passed other = .ok capacity) :
    passed = .buffer ∨ other.capacity.isSome := by
  cases passed with
  | buffer => exact .inl rfl
  | mutable =>
    simp only [State.takenCapacity, bind_ok, defined_ok, pure_ok] at h
    obtain ⟨m, hm, -⟩ := h
    exact .inr (hm ▸ rfl)

namespace Counts

variable {n i j : Nat} {s t : State} {c : Counting.State} {h : Handle} {passed : Kind}

theorem getAs (hc : Counts n s c) (hh : s.handles[i]? = some h)
    (hpassed : passed = .buffer ∨ h.capacity.isSome) :
    c.getAs (kindOf passed) i = .ok (handleAt s.heap h) := by
  have hclass : kindOf passed = .buffer ∨ kindOf passed = (handleAt s.heap h).derived.kind := by
    rcases hpassed with rfl | hmutable
    · exact .inl rfl
    · cases passed with
      | buffer => exact .inl rfl
      | mutable =>
        right
        rw [handleAt, derivedOf_kind, State.kind, if_pos hmutable]
  rw [Counting.State.getAs, hc.get hh, counting_bind, counting_need hclass]
  rfl

theorem getClass (hc : Counts n s c) (hh : s.handles[i]? = some h) :
    c.getAs (s.kindAt i) i = .ok (handleAt s.heap h) := by
  have hclass : s.kindAt i = .buffer ∨ s.kindAt i = (handleAt s.heap h).derived.kind := by
    right
    rw [State.kindAt, hh, handleAt, derivedOf_kind]
  rw [Counting.State.getAs, hc.get hh, counting_bind, counting_need hclass]
  rfl

/-- `buffer::operator=(const buffer&)`. -/
theorem assign (hc : Counts n s c) (hw : s.Wf []) (h : s.assign i j = .ok t) :
    ∃ d, c.assign i j = .ok d ∧ Counts n t d := by
  simp only [State.assign, bind_ok, handle_ok, pure_ok] at h
  obtain ⟨u, hu, other, hother, rfl⟩ := h
  obtain ⟨c₁, hrelease, hc₁⟩ := hc.release hw (Nat.zero_le _) hu
  obtain ⟨huw, -, this, -, hthis⟩ := release_spec hw hu
  obtain ⟨c₂, hretain, -, hc₂⟩ :=
    hc₁.retain huw (Nat.zero_le _) (huw.room hother) (huw.owned hother)
  have hsame : fieldsAt (u.retain other.ref).heap other.ref = fieldsAt u.heap other.ref :=
    fieldsAt_keeps (Heap.retain_keeps _ _) (huw.room hother) (huw.owned hother)
  have hfinal := hc₂.setRef (s := u.retain other.ref) hthis other.ref
  rw [hsame] at hfinal
  refine ⟨_, ?_, hfinal⟩
  rw [Counting.State.assign, hrelease, counting_bind, hc₁.get hother, counting_bind]
  change (c₁.retain (fieldsAt u.heap other.ref) >>= _) = _
  rw [hretain, counting_bind, hc₂.get (s := u.retain other.ref) hthis]
  rfl

/-- `buffer::swap`. -/
theorem swapRefs (hc : Counts n s c) (h : s.swapRefs i j = .ok t) :
    ∃ d, c.swap i j = .ok d ∧ Counts n t d := by
  simp only [State.swapRefs, bind_ok, handle_ok, pure_ok] at h
  obtain ⟨this, hthis, other, hother, rfl⟩ := h
  have hfirst := hc.setRef hthis other.ref
  obtain ⟨next, hnext⟩ : ∃ next, (s.setRef i other.ref).handles[j]? = some next := by
    rw [State.setRef_get, hother]
    split_ifs
    · exact ⟨_, rfl⟩
    · exact ⟨_, rfl⟩
  refine ⟨_, ?_, hfirst.setRef hnext this.ref⟩
  rw [Counting.State.swap, hc.get hthis, counting_bind, hc.get hother, counting_bind]
  have hget := hfirst.get hnext
  simp only [handleAt] at hget ⊢
  rw [hget]
  rfl

theorem assignMoved (hc : Counts n s c) (hw : s.Wf []) (h : s.assignMoved i j = .ok t) :
    ∃ d, c.assignMoved i j = .ok d ∧ Counts n t d := by
  simp only [State.assignMoved, bind_ok] at h
  obtain ⟨u, hu, h⟩ := h
  obtain ⟨c₁, hrelease, hc₁⟩ := hc.release hw (Nat.zero_le _) hu
  obtain ⟨d, hswap, hd⟩ := hc₁.swapRefs h
  refine ⟨d, ?_, hd⟩
  rw [Counting.State.assignMoved, hrelease, counting_bind, hswap]

theorem setDerived (hc : Counts n s c) (hh : s.handles[i]? = some h) (capacity : Option Nat) :
    ∃ d, c.setDerived i (derivedOf capacity) = .ok d ∧ Counts n (s.putCapacity i capacity) d := by
  refine ⟨_, ?_, hc.putCapacity hh capacity⟩
  rw [Counting.State.setDerived, hc.get hh, counting_bind]
  rfl

theorem putCapacity_self (s : State) (hh : s.handles[i]? = some h) :
    s.putCapacity i h.capacity = s := by
  have hhandles : (s.putCapacity i h.capacity).handles = s.handles := by
    apply List.ext_getElem?
    intro k
    rw [State.putCapacity_get]
    split_ifs with hk
    · rw [← hk, hh]
      rfl
    · rfl
  exact congrArg (State.mk s.heap) hhandles

/-- What `mutable_buffer` does after `buffer`. -/
theorem takeCapacity (hc : Counts n s c) (h : s.takeCapacity i passed j = .ok t) :
    ∃ d, c.takeOver (s.kindAt i) i (kindOf passed) j = .ok d ∧ Counts n t d := by
  simp only [State.takeCapacity, bind_ok, handle_ok, pure_ok] at h
  obtain ⟨this, hthis, other, hother, capacity, htaken, rfl⟩ := h
  have htook := taken_capacity s.heap htaken
  have hkind : s.kindAt i = kindOf (State.kind this) := by rw [State.kindAt, hthis]
  rw [hkind]
  cases hclass : State.kind this with
  | buffer =>
    -- a `buffer` has nothing of its own
    have hnone : capacity = this.capacity := by
      have hplain := plain_capacity hclass
      rw [hclass] at htook
      rw [hplain]
      cases capacity with
      | none => rfl
      | some m => cases htook
    rw [hnone, putCapacity_self s hthis]
    exact ⟨c, rfl, hc⟩
  | mutable =>
    obtain ⟨d, hset, hd⟩ := hc.setDerived hthis capacity
    refine ⟨d, ?_, hd⟩
    rw [hclass] at htook
    rw [← hset, ← htook]
    change (c.get j >>= fun other => c.setDerived i
      (Counting.State.taken .mutable (kindOf passed) other)) = _
    rw [hc.get hother, counting_bind]
    rfl

theorem kindAt_eq {u : State} {this next : Handle} (hthis : s.handles[i]? = some this)
    (hnext : u.handles[i]? = some next) (hcapacity : next.capacity = this.capacity) :
    u.kindAt i = s.kindAt i := by
  rw [State.kindAt, State.kindAt, hthis, hnext]
  simp only [State.kind, hcapacity]

variable {build : Build} {malloc : Malloc}

theorem accepted_kindAt (s : State) (i : Nat) (passed : Kind) :
    Counting.State.Accepted (s.kindAt i) (kindOf passed) false := by
  unfold State.kindAt
  split
  · exact nofun
  · exact accepted_kinds _ passed false

theorem copyAssign (hc : Counts n s c) (hw : s.Wf [])
    (h : call build malloc s (.copyAssign i passed j) = .ok t) :
    ∃ d, c.call (.copyAssign (s.kindAt i) i (kindOf passed) j) = .ok d ∧ Counts n t d := by
  obtain ⟨-, -, this, other, capacity, hthis, hother, hcapacity, -⟩ := copyAssign_spec hw h
  have hpassed : passed = .buffer ∨ other.capacity.isSome := by
    have hpassed := passed_capacity hcapacity
    split_ifs at hpassed
    all_goals exact hpassed
  simp only [call, bind_ok] at h
  obtain ⟨u, hu, h⟩ := h
  obtain ⟨-, -, this', _, hthis', -, hui⟩ := assign_spec hw hu
  obtain ⟨c₁, hassign, hc₁⟩ := hc.assign hw hu
  obtain ⟨d, htake, hd⟩ := hc₁.takeCapacity h
  rw [kindAt_eq hthis' hui rfl] at htake
  refine ⟨d, ?_, hd⟩
  change c.copyAssign (s.kindAt i) i (kindOf passed) j = _
  rw [Counting.State.copyAssign, hc.getClass hthis, counting_bind, hc.getAs hother hpassed,
    counting_bind, counting_need (accepted_kindAt s i passed), counting_bind, hassign, counting_bind,
    htake]

theorem kindAt_ne_hashed (s : State) (i : Nat) : s.kindAt i ≠ .hashed := by
  unfold State.kindAt
  split
  · exact nofun
  · rename_i h _
    cases State.kind h <;> exact nofun

theorem moveAssign (hc : Counts n s c) (hw : s.Wf [])
    (h : call build malloc s (.moveAssign i passed j) = .ok t) :
    ∃ d, c.call (.moveAssign (s.kindAt i) i (kindOf passed) j) = .ok d ∧ Counts n t d := by
  obtain ⟨-, -, this, other, capacity, hthis, hother, hcapacity, -⟩ := moveAssign_spec hw h
  have hpassed := passed_capacity hcapacity
  change passed = .buffer ∨ other.capacity.isSome at hpassed
  simp only [call, bind_ok] at h
  obtain ⟨u, hu, h⟩ := h
  obtain ⟨-, -, this', _, hthis', -, hui, -⟩ := assignMoved_spec hw hu
  obtain ⟨c₁, hassign, hc₁⟩ := hc.assignMoved hw hu
  obtain ⟨d, htake, hd⟩ := hc₁.takeCapacity h
  rw [kindAt_eq hthis' hui rfl] at htake
  refine ⟨d, ?_, hd⟩
  change c.moveAssign (s.kindAt i) i (kindOf passed) j = _
  rw [Counting.State.moveAssign, if_neg (kindAt_ne_hashed s i), hc.getClass hthis, counting_bind,
    hc.getAs hother hpassed, counting_bind, counting_need (accepted_kindAt s i passed),
    counting_bind, hassign, counting_bind, htake]

theorem swap (hc : Counts n s c) (hw : s.Wf [])
    (h : call build malloc s (.swap i passed j) = .ok t) :
    ∃ d, c.call (.swap i (kindOf passed) j) = .ok d ∧ Counts n t d := by
  simp only [call, bind_ok] at h
  obtain ⟨u, hu, h⟩ := h
  obtain ⟨-, -, this, other, hthis, hother, -, huj⟩ := swapRefs_spec hw hu
  obtain ⟨c₁, hswap, hc₁⟩ := hc.swapRefs hu
  cases passed with
  | buffer =>
    cases h
    refine ⟨c₁, ?_, hc₁⟩
    change c.getAs (kindOf .buffer) j >>= _ = _
    rw [hc.getAs hother (.inl rfl), counting_bind, hswap]
    rfl
  | mutable =>
    simp only [bind_ok, handle_ok, capacity_ok, pure_ok] at h
    obtain ⟨other', hother', m, ⟨h', hh', hm⟩, rfl⟩ := h
    obtain rfl := Option.some.inj (huj.symm.trans hother')
    obtain rfl := Option.some.inj (huj.symm.trans hh')
    obtain ⟨d, hset, hd⟩ := hc₁.setDerived huj (some this.ref.size)
    refine ⟨d, ?_, hd⟩
    change c.getAs (kindOf .mutable) j >>= _ = _
    rw [hc.getAs hother (.inr (hm ▸ rfl)), counting_bind, hswap, counting_bind]
    change c₁.get j >>= _ = _
    rw [hc₁.get huj, counting_bind]
    exact hset

theorem reset (hc : Counts n s c) (hw : s.Wf []) (h : call build malloc s (.reset i) = .ok t) :
    ∃ d, c.call (.reset (s.kindAt i) i) = .ok d ∧ Counts n t d := by
  simp only [call, bind_ok, handle_ok, pure_ok] at h
  obtain ⟨u, hu, next, hnext, rfl⟩ := h
  obtain ⟨-, -, this, hthis, hui⟩ := release_spec hw hu
  obtain rfl := Option.some.inj (hui.symm.trans hnext)
  obtain ⟨c₁, hrelease, hc₁⟩ := hc.release hw (Nat.zero_le _) hu
  have hkind : s.kindAt i = kindOf (State.kind this) := by rw [State.kindAt, hthis]
  have hcall : c.call (.reset (s.kindAt i) i) =
      if s.kindAt i = .mutable then c₁.setDerived i (.mutable 0) else .ok c₁ := by
    change c.getAs (s.kindAt i) i >>= _ = _
    rw [hc.getClass hthis, counting_bind, hrelease, counting_bind]
    rfl
  rw [hcall, hkind]
  obtain ⟨d, hset, hd⟩ := hc₁.setDerived hui ((State.kind this).capacity 0)
  cases hclass : State.kind this with
  | buffer =>
    have hplain := plain_capacity hclass
    refine ⟨c₁, rfl, ?_⟩
    have hself := putCapacity_self u hui
    rw [hplain] at hself
    change Counts n (u.putCapacity i (State.kind { this with ref := .null } |>.capacity 0)) c₁
    have hkind' : State.kind { this with ref := .null } = .buffer := hclass
    rw [hkind']
    change Counts n (u.putCapacity i none) c₁
    rw [hself]
    exact hc₁
  | mutable =>
    rw [hclass] at hset hd
    refine ⟨d, hset, ?_⟩
    have hkind' : State.kind { this with ref := .null } = .mutable := hclass
    rw [hkind']
    exact hd

/-- A view of the caller's memory. -/
theorem callerView_fields {heap heap' : Heap UInt8} {block off size : Nat} {ref : Ref}
    (h : callerView heap block off size = .ok ref) (hk : heap.Keeps heap') :
    fieldsAt heap' ref = Counting.weak (some ⟨.caller block, off⟩) size := by
  unfold callerView at h
  split at h
  · cases h
  · rename_i blk hblk
    split_ifs at h with hfits hsize
    · cases h
      rw [hsize]
      rfl
    · cases h
      have harea : areaAt heap' block = .caller block := by
        rw [areaAt_keeps hk (List.getElem?_eq_some_iff.mp hblk).1, areaAt, hblk, if_neg]
        simp [hfits.1]
      simp [fieldsAt, pointerAt, harea, Counting.weak, hsize]

theorem weak_weak (data : Option Counting.Pointer) (size : Nat) :
    Counting.weak (Counting.weak data size).data (Counting.weak data size).size =
      Counting.weak data size := by
  unfold Counting.weak
  cases data with
  | none => simp
  | some ptr =>
    by_cases hsize : size = 0
    · simp [hsize]
    · simp [hsize]

theorem assignView {block off size : Nat} (hc : Counts n s c) (hw : s.Wf [])
    (h : call build malloc s (.assignView i block off size) = .ok t) :
    ∃ d, c.call (.assignView .buffer i (.memory (some ⟨.caller block, off⟩) size) 0) = .ok d ∧
      Counts n t d := by
  simp only [call, bind_ok, handle_ok] at h
  obtain ⟨this, hthis, ref, hview, h⟩ := h
  split_ifs at h with hplain
  simp only [State.assignTemporary, bind_ok, pure_ok] at h
  obtain ⟨u, hu, rfl⟩ := h
  obtain ⟨-, hquiet, this', hthis', hui⟩ := release_spec hw hu
  obtain ⟨c₁, hrelease, hc₁⟩ := hc.release hw (Nat.zero_le _) hu
  have hfinal := hc₁.setRef hui ref
  rw [callerView_fields hview hquiet.keeps] at hfinal
  refine ⟨_, ?_, hfinal⟩
  change c.getAs (kindOf .buffer) i >>= _ = _
  rw [hc.getAs hthis (.inl rfl), counting_bind]
  change c.assignView i _ = _
  rw [Counting.State.assignView, hrelease, counting_bind]
  change c₁.get i >>= _ = _
  rw [hc₁.get hui, counting_bind]
  rfl

theorem constructEmpty (hc : Counts n s c) (hlt : s.handles.length < n) (kind : Kind) :
    ∃ d, c.call (.construct s.handles.length (.empty (kindOf kind))) = .ok d ∧
      Counts n (s.push .null (kind.capacity 0)) d := by
  refine hc.construct hc rfl hlt ?_
  cases kind <;> rfl

theorem constructSize {m : Nat} {kind : Kind} (hc : Counts n s c) (hw : s.Wf [])
    (hlt : s.handles.length < n) (h : call build malloc s (.constructSize kind m) = .ok t) :
    ∃ d, c.call (.construct s.handles.length
        (.sized (kindOf kind) m (malloc.serve s.heap.length m).isSome)) = .ok d ∧ Counts n t d := by
  simp only [call, bind_ok, Prod.exists] at h
  obtain ⟨heap, ref, hallocate, h⟩ := h
  obtain ⟨c₁, hreset, hc₁⟩ := hc.allocate hw (Nat.zero_le _) hallocate
  cases kind with
  | buffer =>
    cases h
    refine hc.construct hc₁ rfl hlt ?_
    change c.resetUnsafe m _ >>= _ = _
    rw [hreset]
    rfl
  | mutable =>
    cases h
    refine hc.construct hc₁ rfl hlt ?_
    change c.resetUnsafe m _ >>= _ = _
    rw [hreset]
    rfl

theorem constructCopy {region : Region} (hc : Counts n s c) (hw : s.Wf [])
    (hlt : s.handles.length < n) (h : call build malloc s (.constructCopy region) = .ok t) :
    ∃ d, c.call (.construct s.handles.length (.memory .buffer
        (.memory (some ⟨.caller 0, 0⟩) region.bytes.length) true
        (malloc.serve s.heap.length region.bytes.length).isSome)) = .ok d ∧ Counts n t d := by
  simp only [call, bind_ok, pure_ok, Prod.exists] at h
  obtain ⟨heap, ref, hallocate, rfl⟩ := h
  obtain ⟨c₁, hreset, hc₁⟩ := hc.allocate hw (Nat.le_refl _) hallocate
  refine hc.construct hc₁ rfl hlt ?_
  have hcopy : c.copy (Counting.weak (some ⟨.caller 0, 0⟩) region.bytes.length) 0
      (malloc.serve s.heap.length region.bytes.length).isSome =
        .ok (c₁, fieldsAt heap ref) := by
    rw [Counting.State.copy, if_pos rfl]
    exact hreset
  change (c.copy (Counting.weak (Counting.weak _ _).data (Counting.weak _ _).size) 0 _ >>= _) = _
  rw [weak_weak, hcopy]
  rfl

theorem constructWeak {block off size : Nat} (hc : Counts n s c) (hlt : s.handles.length < n)
    (h : call build malloc s (.constructWeak block off size) = .ok t) :
    ∃ d, c.call (.construct s.handles.length
        (.memory .buffer (.memory (some ⟨.caller block, off⟩) size) false false)) = .ok d ∧
      Counts n t d := by
  simp only [call, bind_ok, pure_ok] at h
  obtain ⟨ref, hview, rfl⟩ := h
  refine hc.construct hc rfl hlt ?_
  rw [handleAt, callerView_fields hview (Heap.Keeps.refl _),
    ← weak_weak (some ⟨.caller block, off⟩) size]
  rfl

theorem constructDeleter {region : Region} (hc : Counts n s c) (hw : s.Wf [])
    (hlt : s.handles.length < n) (h : call build malloc s (.constructDeleter region) = .ok t) :
    ∃ d, c.call (.construct s.handles.length
        (.deleter .buffer false region.bytes.length true)) = .ok d ∧ Counts n t d := by
  cases h
  obtain ⟨hc₁, hfields⟩ :=
    hc.fresh hw region.bytes false region.bytes.length
  refine hc.construct hc₁ rfl hlt ?_
  rw [handleAt, hfields]
  rfl

theorem copyConstruct {kind : Kind} (hc : Counts n s c) (hw : s.Wf [])
    (hlt : s.handles.length < n)
    (h : call build malloc s (.copyConstruct kind passed j) = .ok t) :
    ∃ d, c.call (.construct s.handles.length (.copied (kindOf kind) (kindOf passed) j)) = .ok d ∧
      Counts n t d := by
  simp only [call, bind_ok, handle_ok, pure_ok] at h
  obtain ⟨other, hother, capacity, htaken, rfl⟩ := h
  obtain ⟨c₁, hretain, -, hc₁⟩ :=
    hc.retain hw (Nat.zero_le _) (hw.room hother) (hw.owned hother)
  have hsame : fieldsAt (s.retain other.ref).heap other.ref = fieldsAt s.heap other.ref :=
    fieldsAt_keeps (Heap.retain_keeps _ _) (hw.room hother) (hw.owned hother)
  refine hc.construct hc₁ rfl hlt ?_
  rw [handleAt, hsame, Counting.State.construct, Counting.State.constructCopied,
    hc.getAs hother (passed_capacity htaken), counting_bind,
    counting_need (accepted_kinds kind passed false), counting_bind]
  change c.retain (fieldsAt s.heap other.ref) >>= _ = _
  rw [hretain, counting_bind, taken_capacity s.heap htaken]
  rfl

theorem moveConstruct {kind : Kind} (hc : Counts n s c) (hlt : s.handles.length < n)
    (h : call build malloc s (.moveConstruct kind passed j) = .ok t) :
    ∃ d, c.call (.construct s.handles.length (.moved (kindOf kind) (kindOf passed) j)) = .ok d ∧
      Counts n t d := by
  simp only [call, bind_ok, handle_ok, pure_ok] at h
  obtain ⟨other, hother, moved, hmoved, capacity, htaken, rfl⟩ := h
  rw [State.setRef_get, if_pos rfl, hother] at hmoved
  cases hmoved
  have hpassed := passed_capacity htaken
  change passed = .buffer ∨ other.capacity.isSome at hpassed
  have hc₁ := hc.setRef hother .null
  refine hc.construct hc₁ (List.length_modify _ _ _) hlt ?_
  rw [Counting.State.construct, Counting.State.constructMoved, if_neg (kindOf_ne_hashed kind),
    hc.getAs hother hpassed, counting_bind, counting_need (accepted_kinds kind passed true),
    counting_bind]
  exact congrArg (fun derived => Except.ok (_, Counting.Handle.mk (fieldsAt s.heap other.ref)
    derived)) (taken_capacity s.heap htaken)

theorem copyBytes {m : Nat} {this : Handle} (hc : Counts n s c) (hw : s.Wf [])
    (hlt : s.handles.length < n) (hthis : s.handles[j]? = some this)
    (h : call build malloc s (.copy j m) = .ok t) :
    ∃ d, c.call (.construct s.handles.length (.copy j m
        (malloc.serve s.heap.length (if m = 0 then this.ref.size else m)).isSome)) = .ok d ∧
      Counts n t d := by
  simp only [call, bind_ok, handle_ok, pure_ok, Prod.exists] at h
  obtain ⟨this', hthis', heap, ref, hcopy, rfl⟩ := h
  obtain rfl := Option.some.inj (hthis.symm.trans hthis')
  obtain ⟨content, hlength, hallocate⟩ := copy_allocates hcopy
  obtain ⟨c₁, hreset, hc₁⟩ := hc.allocate hw hlength hallocate
  refine hc.construct hc₁ rfl hlt ?_
  change c.get j >>= _ = _
  rw [hc.get hthis, counting_bind]
  change c.resetUnsafe (if m = 0 then this.ref.size else m) _ >>= _ = _
  rw [hreset]
  rfl

theorem sliceBytes {first last : Nat} {kind : Kind} (hc : Counts n s c) (hw : s.Wf [])
    (hlt : s.handles.length < n) (h : call build malloc s (.slice kind j first last) = .ok t) :
    ∃ d, c.call (.construct s.handles.length (match kind with
        | .buffer => .slice j first last
        | .mutable => .mutableSlice j first last)) = .ok d ∧ Counts n t d := by
  simp only [call, bind_ok, handle_ok] at h
  obtain ⟨this, hthis, h⟩ := h
  obtain ⟨hroom, howned⟩ := slice_spec (hw.room hthis) (hw.owned hthis) first last
  obtain ⟨c₁, hretain, -, hc₁⟩ := hc.retain hw (Nat.zero_le _) hroom howned
  have hsame : fieldsAt (s.retain (slice this.ref first last)).heap (slice this.ref first last) =
      (fieldsAt s.heap this.ref).slice first last := by
    rw [← fieldsAt_slice]
    exact fieldsAt_keeps (Heap.retain_keeps _ _) hroom howned
  rw [fieldsAt_slice] at hretain
  cases kind with
  | buffer =>
    cases h
    refine hc.construct hc₁ rfl hlt ?_
    rw [handleAt, hsame, Counting.State.construct, hc.get hthis, counting_bind]
    change c.retain ((fieldsAt s.heap this.ref).slice first last) >>= _ = _
    rw [hretain]
    rfl
  | mutable =>
    simp only [bind_ok, capacity_ok, pure_ok] at h
    obtain ⟨m, ⟨this', hthis', hm⟩, rfl⟩ := h
    obtain rfl := Option.some.inj (hthis.symm.trans hthis')
    refine hc.construct hc₁ rfl hlt ?_
    rw [handleAt, hsame]
    change c.getAs (kindOf .mutable) j >>= _ = _
    rw [hc.getAs hthis (.inr (hm ▸ rfl)), counting_bind]
    change c.retain ((fieldsAt s.heap this.ref).slice first last) >>= _ = _
    rw [hretain, counting_bind]
    have hdata : ((fieldsAt s.heap this.ref).slice first last).data.isSome =
        (slice this.ref first last).data.isSome := by
      rw [← fieldsAt_slice]
      exact Option.isSome_map
    have hcapacity : (handleAt s.heap this).derived.capacity = m := by
      rw [handleAt, hm]
      rfl
    have hown : (if ((fieldsAt s.heap this.ref).slice first last).data.isSome then
          subSizeT (handleAt s.heap this).derived.capacity (min first this.ref.size) else 0) =
        if (slice this.ref first last).data.isSome then subSizeT m (min first this.ref.size)
          else 0 := by
      rw [hdata, hcapacity]
    exact congrArg (fun capacity => Except.ok (c₁, Counting.Handle.mk
      ((fieldsAt s.heap this.ref).slice first last) (.mutable capacity))) hown

end Counts

section
variable {build : Build} {malloc : Malloc} {n : Nat} {s t : State} {c : Counting.State} {op : Op}

theorem counting_step {op : Counting.Op} {d : Counting.State} (h : c.call op = .ok d) :
    run Counting.Program.step (.running c) [op] = some (.running d) := by
  rw [run_cons, Counting.Program.step, h]
  rfl

/-- An operation that returns is the one that counts references. -/
theorem call_counts {ops : List Counting.Op} (hc : Counts n s c) (hw : s.Wf [])
    (hlt : s.handles.length < n) (hop : countingOps malloc s op = some ops)
    (h : call build malloc s op = .ok t) : t.Wf [] ∧
    ∃ d, run Counting.Program.step (.running c) ops = some (.running d) ∧ Counts n t d := by
  have hstep {op' : Counting.Op} (hsame : ops = [op'])
      (hcall : ∃ d, c.call op' = .ok d ∧ Counts n t d) :
      ∃ d, run Counting.Program.step (.running c) ops = some (.running d) ∧ Counts n t d := by
    obtain ⟨d, hd, hcounts⟩ := hcall
    rw [hsame]
    exact ⟨d, counting_step hd, hcounts⟩
  cases op with
  | callerMemory region =>
    have hspec := callerMemory_spec hw h
    cases hop
    cases h
    refine ⟨hspec.1, c, rfl, hc.withHeap hw hspec.2.keeps ?_⟩
    rw [tallies_append, hc.blocks]
    exact (List.append_nil _).symm
  | construct kind =>
    have hspec := construct_spec hw h
    cases hop
    cases h
    exact ⟨hspec.1, hstep rfl (hc.constructEmpty hlt kind)⟩
  | constructSize kind m =>
    cases hop
    exact ⟨(constructSize_spec hw h).1, hstep rfl (hc.constructSize hw hlt h)⟩
  | constructCopy region =>
    cases hop
    exact ⟨(constructCopy_spec hw h).1, hstep rfl (hc.constructCopy hw hlt h)⟩
  | constructWeak block off size =>
    cases hop
    exact ⟨(constructWeak_spec hw h).1, hstep rfl (hc.constructWeak hlt h)⟩
  | constructDeleter region =>
    cases hop
    exact ⟨(constructDeleter_spec hw h).1, hstep rfl (hc.constructDeleter hw hlt h)⟩
  | copyConstruct kind passed j =>
    cases hop
    exact ⟨(copyConstruct_spec hw h).1, hstep rfl (hc.copyConstruct hw hlt h)⟩
  | moveConstruct kind passed j =>
    cases hop
    exact ⟨(moveConstruct_spec hw h).1, hstep rfl (hc.moveConstruct hlt h)⟩
  | copy j m =>
    obtain ⟨this, hthis, rfl⟩ := Option.map_eq_some_iff.mp hop
    exact ⟨(copyOp_spec hw h).1, hstep rfl (hc.copyBytes hw hlt hthis h)⟩
  | slice kind j first last =>
    refine ⟨(sliceOp_spec hw h).1, ?_⟩
    have hslice := hc.sliceBytes hw hlt h
    cases kind with
    | buffer =>
      cases hop
      exact hstep rfl hslice
    | mutable =>
      cases hop
      exact hstep rfl hslice
  | assignView i block off size =>
    cases hop
    exact ⟨(assignView_spec hw h).1, hstep rfl (hc.assignView hw h)⟩
  | copyAssign i passed j =>
    cases hop
    exact ⟨(copyAssign_spec hw h).1, hstep rfl (hc.copyAssign hw h)⟩
  | moveAssign i passed j =>
    cases hop
    exact ⟨(moveAssign_spec hw h).1, hstep rfl (hc.moveAssign hw h)⟩
  | swap i passed j =>
    cases hop
    exact ⟨(swap_spec hw h).1, hstep rfl (hc.swap hw h)⟩
  | reset i =>
    cases hop
    exact ⟨(reset_spec hw h).1, hstep rfl (hc.reset hw h)⟩
  | append | appendView | appendBuffer | pushBack | appendNumber | setSize | setCapacity | clear =>
    cases hop

theorem construct_refused {source : Counting.Source} (hc : Counts n s c)
    (hlt : s.handles.length < n) (h : c.construct source = .error .badAlloc) :
    run Counting.Program.step (.running c) [.construct s.handles.length source] =
      some (.running c) := by
  have hnone : s.handles[s.handles.length]? = none := List.getElem?_eq_none (Nat.le_refl _)
  have hplace : c.objects[s.handles.length]? = some none := by
    rw [hc.objects _ hlt, hnone]
    rfl
  have hcall : c.call (.construct s.handles.length source) = .error .badAlloc := by
    rw [Counting.State.call, hplace]
    simp only [h]
    rfl
  rw [run_cons, Counting.Program.step, hcall]
  rfl

/-- Where memory is refused to the one it is refused to the other. -/
theorem call_refused {ops : List Counting.Op} (hc : Counts n s c) (hlt : s.handles.length < n)
    (hop : countingOps malloc s op = some ops) (h : call build malloc s op = .error .badAlloc) :
    run Counting.Program.step (.running c) ops = some (.running c) := by
  cases op with
  | callerMemory region => cases h
  | construct kind => cases h
  | constructSize kind m =>
    cases hop
    have hallocate : allocate malloc s.heap m [] = .error .badAlloc := by
      rcases bind_refused.mp h with hallocate | ⟨a, -, hrest⟩
      · exact hallocate
      · cases hrest
    have hreset := Counts.allocate_refused c hallocate
    refine construct_refused hc hlt ?_
    cases kind with
    | buffer =>
      change c.resetUnsafe m _ >>= _ = _
      rw [hreset]
      rfl
    | mutable =>
      change c.resetUnsafe m _ >>= _ = _
      rw [hreset]
      rfl
  | constructCopy region =>
    cases hop
    have hallocate : allocate malloc s.heap region.bytes.length region.bytes =
        .error .badAlloc := by
      rcases bind_refused.mp h with hallocate | ⟨a, -, hrest⟩
      · exact hallocate
      · cases hrest
    refine construct_refused hc hlt ?_
    have hcopy : c.copy (Counting.weak (some ⟨.caller 0, 0⟩) region.bytes.length) 0
        (malloc.serve s.heap.length region.bytes.length).isSome = .error .badAlloc := by
      rw [Counting.State.copy, if_pos rfl]
      exact Counts.allocate_refused c hallocate
    change (c.copy (Counting.weak (Counting.weak _ _).data (Counting.weak _ _).size) 0 _ >>= _) = _
    rw [Counts.weak_weak, hcopy]
    rfl
  | copy j m =>
    obtain ⟨this, hthis, rfl⟩ := Option.map_eq_some_iff.mp hop
    refine construct_refused hc hlt ?_
    have hrefused : c.resetUnsafe (if m = 0 then this.ref.size else m)
        (malloc.serve s.heap.length (if m = 0 then this.ref.size else m)).isSome =
          .error .badAlloc := by
      rcases bind_refused.mp h with hhandle | ⟨this', hthis', hrest⟩
      · exact absurd hhandle (handle_thrifty s j)
      obtain rfl := Option.some.inj (hthis.symm.trans (handle_ok.mp hthis'))
      rcases bind_refused.mp hrest with hcopy | ⟨a, -, hrest⟩
      · rcases bind_refused.mp hcopy with hcontent | ⟨content, -, hallocate⟩
        · by_cases hdata : this.ref.data.isSome = true
          · rw [if_pos hdata] at hcontent
            exact absurd hcontent (thrifty_defined _)
          · rw [if_neg hdata] at hcontent
            cases hcontent
        · exact Counts.allocate_refused c hallocate
      · cases hrest
    change c.get j >>= _ = _
    rw [hc.get hthis, counting_bind]
    change c.resetUnsafe (if m = 0 then this.ref.size else m) _ >>= _ = _
    rw [hrefused]
    rfl
  | constructWeak | constructDeleter | copyConstruct | moveConstruct | slice | assignView
  | copyAssign | moveAssign | swap | reset => exact absurd h (call_thrifty _ id)
  | append | appendView | appendBuffer | pushBack | appendNumber | setSize | setCapacity | clear =>
    cases hop

theorem step_counts {ops : List Counting.Op} (hc : Counts n s c) (hw : s.Wf [])
    (hlt : s.handles.length < n) (hop : countingOps malloc s op = some ops)
    (h : step build malloc s op = some t) : t.Wf [] ∧
    ∃ d, run Counting.Program.step (.running c) ops = some (.running d) ∧ Counts n t d := by
  unfold step at h
  cases hcall : call build malloc s op with
  | ok u =>
    rw [hcall] at h
    cases h
    exact call_counts hc hw hlt hop hcall
  | error stop =>
    rw [hcall] at h
    cases stop with
    | undefined => cases h
    | badAlloc =>
      cases h
      exact ⟨hw, c, call_refused hc hlt hop hcall, hc⟩

end

/-- A run on bytes counts its references as the other model does: there the same run has the same
handles, use counts and freed blocks. -/
theorem run_counts (build : Build) (malloc : Malloc) (n : Fin (Counting.maxObjects + 1))
    (ops : List Op) (counting : List Counting.Op) (t : State)
    (hfew : Along (step build malloc) (fun s _ => s.handles.length < n) State.init ops)
    (hops : translation (step build malloc) (countingOps malloc) State.init ops = some counting)
    (h : run (step build malloc) State.init ops = some t) :
    ∃ d, run Counting.Program.step (.running (.init n)) counting = some (.running d) ∧
      Counts n t d := by
  have hinit : Counts n State.init (.init n) := by
    refine ⟨rfl, List.length_replicate, Nat.le_of_lt_succ n.isLt, Nat.zero_le _, ?_⟩
    intro i hi
    simp [Counting.State.init, hi, State.init]
  have hstep : ∀ (s : State) (p : Counting.Program) (op : Op) (first : List Counting.Op) (u : State),
      (s.Wf [] ∧ ∃ c, p = .running c ∧ Counts n s c) → s.handles.length < n →
      countingOps malloc s op = some first → step build malloc s op = some u →
      ∃ q, run Counting.Program.step p first = some q ∧
        (u.Wf [] ∧ ∃ d, q = .running d ∧ Counts n u d) := by
    rintro s p op first u ⟨hw, c, rfl, hc⟩ hlt hfirst hu
    obtain ⟨huw, d, hd, hcounts⟩ := step_counts hc hw hlt hfirst hu
    exact ⟨_, hd, huw, d, rfl, hcounts⟩
  obtain ⟨p, hp, -, d, rfl, hd⟩ := run_translation (countingOps malloc) _ hstep ops counting
    State.init t (.running (.init n)) ⟨init_wf, _, rfl, hinit⟩ hfew hops h
  exact ⟨d, hp, hd⟩

end Libnodecc.Buffer
