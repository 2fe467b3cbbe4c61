import Libnodecc.Buffer.AppendSpecs

namespace Libnodecc.Buffer

open Util

/-- There is a handle `i` that can be passed as a `kind`. -/
def State.Has (s : State) (kind : Kind) (i : Nat) : Prop :=
  match kind with
  | .buffer => i < s.handles.length
  | .mutable => ((s.handles[i]?).bind Handle.capacity).isSome

instance (s : State) (kind : Kind) (i : Nat) : Decidable (s.Has kind i) :=
  match kind with
  | .buffer => inferInstanceAs (Decidable (i < s.handles.length))
  | .mutable => inferInstanceAs (Decidable (_ = true))

def Source.Valid (s : State) (pos n : Nat) (source : Source) : Prop :=
  ∃ size, source.size s = some size ∧ pos + n ≤ size

instance (s : State) (pos n : Nat) (source : Source) : Decidable (source.Valid s pos n) :=
  match h : source.size s with
  | none => isFalse fun ⟨_, hs, _⟩ => by cases h.symm.trans hs
  | some size => decidable_of_iff (pos + n ≤ size) (by simp [Source.Valid, h])

def CallerBytes (heap : Heap UInt8) (block off size : Nat) : Prop :=
  ∃ ref, callerView heap block off size = .ok ref

instance (heap : Heap UInt8) (block off size : Nat) : Decidable (CallerBytes heap block off size) :=
  match h : callerView heap block off size with
  | .error _ => isFalse fun ⟨_, hs⟩ => by cases h.symm.trans hs
  | .ok ref => isTrue ⟨ref, h⟩

/-- The call exists, and the memory it is passed. -/
def Op.Valid (s : State) : Op → Prop
  | .callerMemory _ | .construct _ | .constructSize _ _ | .constructCopy _ | .constructDeleter _ => True
  | .constructWeak block off size => CallerBytes s.heap block off size
  | .copyConstruct _ passed j => s.Has passed j
  | .moveConstruct _ passed j => s.Has passed j
  | .copy j _ => s.Has .buffer j
  | .slice kind j _ _ => s.Has .buffer j ∧ s.Has kind j
  | .assignView i block off size =>
      s.Has .buffer i ∧ ¬s.Has .mutable i ∧ CallerBytes s.heap block off size
  | .copyAssign i passed j => s.Has .buffer i ∧ s.Has .buffer j ∧ s.Has passed j
  | .moveAssign i passed j => s.Has .buffer i ∧ s.Has .buffer j ∧ s.Has passed j
  | .swap i passed j => s.Has .buffer i ∧ s.Has .buffer j ∧ s.Has passed j
  | .reset i => s.Has .buffer i
  | .append i source pos n => s.Has .mutable i ∧ source.Valid s pos n
  | .appendView i source _ _ => s.Has .mutable i ∧ source.Valid s 0 0
  | .appendBuffer i j _ _ => s.Has .mutable i ∧ s.Has .buffer j
  | .pushBack i _ => s.Has .mutable i
  | .appendNumber i _ _ => s.Has .mutable i
  | .setSize i _ => s.Has .mutable i
  | .setCapacity i _ => s.Has .mutable i
  | .clear i => s.Has .mutable i

instance (s : State) (op : Op) : Decidable (op.Valid s) := by
  cases op <;> unfold Op.Valid <;> infer_instance

def Op.Grows (build : Build) (s : State) (op : Op) : Prop :=
  match op.demand build s with
  | none => True
  | some d => s.At d.i fun this => this.Grows s.heap (sizeT (d.n + this.ref.size))

instance (build : Build) (s : State) (op : Op) : Decidable (op.Grows build s) := by
  unfold Op.Grows
  cases op.demand build s <;> infer_instance

def Op.source : Op → Option Nat
  | .append _ (.shown j) _ _ => some j
  | .appendView _ (.shown j) _ _ => some j
  | .appendBuffer _ j _ _ => some j
  | _ => none

/-- Where a handle is appended to itself, its bytes are not freed before they are read: there is
room in place, or the block is not its alone. -/
def Op.Lives (build : Build) (s : State) (op : Op) : Prop :=
  match op.demand build s with
  | none => True
  | some d => op.source = some d.i → s.At d.i fun this =>
      sizeT (d.n + this.ref.size) ≤ this.capacity.getD 0 ∨
        (this.ref.p.bind fun b => (s.heap[b]?).bind Block.useCount) ≠ some 1

instance (build : Build) (s : State) (op : Op) : Decidable (op.Lives build s) := by
  unfold Op.Lives
  cases op.demand build s <;> infer_instance

/-- `append_number` makes room for the digits it writes, and does not divide by zero. -/
def Op.Counts (build : Build) (s : State) : Op → Prop
  | .appendNumber i n base => 2 ≤ base → base ≤ 36 → s.At i fun this =>
      this.ref.data = none ∧ digits build n base = 0 ∨
        ipow base (subSizeT (digits build n base) 1) ≠ 0 ∧
          (Buf.digitLoop n base 64 (ipow base (subSizeT (digits build n base) 1))).length =
            digits build n base
  | _ => True

instance (build : Build) (s : State) (op : Op) : Decidable (op.Counts build s) := by
  cases op <;> unfold Op.Counts <;> infer_instance

def Fine {α : Type} (x : Call α) : Prop := x ≠ .error .undefined

section
variable {α β : Type}

theorem fine_ok (a : α) : Fine (.ok a : Call α) := by
  intro h
  cases h

theorem fine_pure (a : α) : Fine (pure a : Call α) := fine_ok a

theorem fine_bind {x : Call α} {f : α → Call β} (hx : Fine x) (hf : ∀ a, x = .ok a → Fine (f a)) :
    Fine (x >>= f) := by
  cases x with
  | error stop =>
    cases stop with
    | undefined => exact absurd rfl hx
    | badAlloc =>
      intro h
      cases h
  | ok a => exact hf a rfl

theorem returns_of_fine {x : Call α} (h : Fine x) (hserved : x ≠ .error .badAlloc) :
    ∃ a, x = .ok a := by
  cases x with
  | ok a => exact ⟨a, rfl⟩
  | error e =>
    cases e with
    | undefined => exact absurd rfl h
    | badAlloc => exact absurd rfl hserved

theorem fine_pure_bind {a : α} {f : α → Call β} (h : Fine (f a)) : Fine (pure a >>= f) := h

theorem fine_defined {x : Option α} (h : x.isSome) : Fine (defined x) := by
  obtain ⟨a, rfl⟩ := Option.isSome_iff_exists.mp h
  exact fine_ok a

end

section
variable {build : Build} {malloc : Malloc} {s : State} {i j n : Nat}

theorem fine_handle (h : s.Has .buffer i) : Fine (s.handle i) :=
  fine_defined (by rw [List.getElem?_eq_getElem h]; rfl)

theorem has_get (h : s.Has .buffer i) : ∃ this, s.handles[i]? = some this :=
  ⟨_, List.getElem?_eq_getElem h⟩

theorem has_of_get {this : Handle} (h : s.handles[i]? = some this) : s.Has .buffer i :=
  (List.getElem?_eq_some_iff.mp h).1

theorem has_mutable (h : s.Has .mutable i) :
    ∃ this capacity, s.handles[i]? = some this ∧ this.capacity = some capacity := by
  obtain ⟨capacity, hc⟩ := Option.isSome_iff_exists.mp h
  obtain ⟨this, hthis, hc⟩ := Option.bind_eq_some_iff.mp hc
  exact ⟨this, capacity, hthis, hc⟩

theorem has_buffer {kind : Kind} (h : s.Has kind i) : s.Has .buffer i := by
  cases kind with
  | buffer => exact h
  | mutable =>
    obtain ⟨this, -, hthis, -⟩ := has_mutable h
    exact has_of_get hthis

theorem fine_capacity (h : s.Has .mutable i) : Fine (s.capacity i) := by
  obtain ⟨this, capacity, hthis, hc⟩ := has_mutable h
  refine fine_bind (fine_handle (has_of_get hthis)) ?_
  intro this' hthis'
  obtain rfl := Option.some.inj (hthis.symm.trans (handle_ok.mp hthis'))
  exact fine_defined (by rw [hc]; rfl)

theorem fine_taken {kind passed : Kind} {other : Handle}
    (h : passed = .mutable → other.capacity.isSome) :
    Fine (State.takenCapacity kind passed other) := by
  cases passed with
  | buffer => exact fine_ok _
  | mutable => exact fine_bind (fine_defined (h rfl)) fun n _ => fine_pure _

theorem has_passed {passed : Kind} {other : Handle} (h : s.Has passed j)
    (hother : s.handles[j]? = some other) : passed = .mutable → other.capacity.isSome := by
  rintro rfl
  obtain ⟨other', capacity, hother', hc⟩ := has_mutable h
  obtain rfl := Option.some.inj (hother.symm.trans hother')
  rw [hc]
  rfl

theorem fine_allocate {heap : Heap UInt8} {content : Bytes} :
    Fine (allocate malloc heap n content) := by
  unfold allocate
  split_ifs
  · exact fine_ok _
  · split
    · intro h
      cases h
    · exact fine_ok _

theorem fine_copy {heap : Heap UInt8} {this : Ref} (h : heap.Room this.data this.size) :
    Fine (copy malloc heap this n) := by
  refine fine_bind ?_ fun content _ => fine_allocate
  by_cases hdata : this.data.isSome = true
  · rw [if_pos hdata]
    apply fine_defined
    have hread := Heap.read_eq_some.mpr
      ⟨h.mono (Nat.min_le_right (if n = 0 then this.size else n) _), rfl⟩
    rw [hread]
    rfl
  · rw [if_neg hdata]
    exact fine_pure _

theorem fine_release (h : s.Has .buffer i) : Fine (s.release i) :=
  fine_bind (fine_handle h) fun _ _ => fine_pure _

theorem has_release {t : State} (h : s.release i = .ok t) (kind : Kind) (k : Nat) :
    t.Has kind k ↔ s.Has kind k := by
  simp only [State.release, bind_ok, handle_ok, pure_ok] at h
  obtain ⟨this, hthis, rfl⟩ := h
  cases kind with
  | buffer =>
    have hlen : (State.setRef { s with heap := s.heap.release this.ref.p } i .null).handles.length =
        s.handles.length := List.length_modify ..
    simp only [State.Has, hlen]
  | mutable =>
    simp only [State.Has, State.setRef_get]
    split_ifs
    · cases s.handles[k]? <;> rfl
    · rfl

theorem fine_assignTemporary {ref : Ref} (h : s.Has .buffer i) : Fine (s.assignTemporary i ref) :=
  fine_bind (fine_release h) fun _ _ => fine_pure _

theorem fine_swapRefs (hi : s.Has .buffer i) (hj : s.Has .buffer j) : Fine (s.swapRefs i j) :=
  fine_bind (fine_handle hi) fun _ _ => fine_bind (fine_handle hj) fun _ _ => fine_pure _

theorem fine_assign (hi : s.Has .buffer i) (hj : s.Has .buffer j) : Fine (s.assign i j) :=
  fine_bind (fine_release hi) fun _ hu =>
    fine_bind (fine_handle ((has_release hu .buffer j).mpr hj)) fun _ _ => fine_pure _

theorem fine_assignMoved (hi : s.Has .buffer i) (hj : s.Has .buffer j) : Fine (s.assignMoved i j) :=
  fine_bind (fine_release hi) fun _ hu =>
    fine_swapRefs ((has_release hu .buffer i).mpr hi) ((has_release hu .buffer j).mpr hj)

theorem fine_takeCapacity {passed : Kind} {other : Handle} (hi : s.Has .buffer i)
    (hother : s.handles[j]? = some other) (hc : passed = .mutable → other.capacity.isSome) :
    Fine (s.takeCapacity i passed j) := by
  refine fine_bind (fine_handle hi) fun this _ => fine_bind (fine_handle (has_of_get hother)) ?_
  intro other' hother'
  obtain rfl := Option.some.inj (hother.symm.trans (handle_ok.mp hother'))
  exact fine_bind (fine_taken hc) fun _ _ => fine_pure _

theorem fine_reallocate (hw : s.Wf []) (h : s.Has .buffer i) : Fine (s.reallocate malloc i n) := by
  refine fine_bind (fine_handle h) fun this hthis => ?_
  refine fine_bind (fine_copy (hw.room (handle_ok.mp hthis))) fun copied _ => ?_
  exact fine_bind (fine_assignTemporary h) fun _ _ => fine_pure _

theorem fine_expandSize (hw : s.Wf []) (h : s.Has .mutable i) : Fine (s.expandSize malloc i n) := by
  have hi := has_buffer h
  refine fine_bind (fine_handle hi) fun prev hprev => ?_
  rw [handle_ok] at hprev
  refine fine_bind (fine_capacity h) fun capacity _ => ?_
  by_cases hlt : capacity < sizeT (n + prev.ref.size)
  · simp only [if_pos hlt]
    refine fine_bind (fine_reallocate hw hi) fun u hu => ?_
    obtain ⟨-, -, hui⟩ := reallocate_spec hw (by omega) hu
    refine fine_bind (fine_handle (has_of_get hui)) fun this hthis => ?_
    obtain rfl := Option.some.inj (hui.symm.trans (handle_ok.mp hthis))
    exact fine_pure _
  · simp only [if_neg hlt]
    refine fine_pure_bind (fine_bind (fine_handle hi) fun this hthis => ?_)
    obtain rfl := Option.some.inj (hprev.symm.trans (handle_ok.mp hthis))
    have hroom := hw.room hprev
    cases hd : prev.ref.data with
    | some ptr => exact fine_pure _
    | none =>
      rw [hd] at hroom
      have hz : prev.ref.size = 0 := hroom
      simp only [hz, if_true]
      exact fine_pure _

theorem fine_setSize {size : Nat} (hw : s.Wf []) (h : s.Has .mutable i) :
    Fine (s.setSize malloc i size) := by
  have hi := has_buffer h
  refine fine_bind (fine_capacity h) fun capacity _ => ?_
  have hgrown (m : Nat) (hm : 0 < m) : ∀ u, s.reallocate malloc i m = .ok u →
      Fine (u.capacity i >>= fun capacity => pure (u.resize i (min capacity size))) := by
    intro u hu
    obtain ⟨-, -, hui⟩ := reallocate_spec hw hm hu
    have hmutable : u.Has .mutable i := by
      simp only [State.Has, hui]
      rfl
    exact fine_bind (fine_capacity hmutable) fun _ _ => fine_pure _
  split_ifs
  · exact fine_bind (fine_reallocate hw hi) (hgrown _ (by omega))
  · exact fine_bind (fine_reallocate hw hi) (hgrown _ (by omega))
  · exact fine_pure_bind (fine_bind (fine_capacity h) fun _ _ => fine_pure _)

theorem fine_setCapacity {capacity : Nat} (hw : s.Wf []) (h : s.Has .mutable i) :
    Fine (s.setCapacity malloc i capacity) := by
  refine fine_bind (fine_handle (has_buffer h)) fun prev hprev => ?_
  rw [handle_ok] at hprev
  refine fine_bind (fine_setSize hw h) fun u hu => ?_
  obtain ⟨this, n, hthis, hn, ⟨-, -, rfl⟩ | hmoved⟩ := setSize_spec hw hu
  · have hget : (s.resize i capacity).Has .buffer i := by
      have hlen : (s.resize i capacity).handles.length = s.handles.length := List.length_modify ..
      simp only [State.Has, hlen]
      exact has_buffer h
    exact fine_bind (fine_handle hget) fun _ _ => fine_pure _
  · obtain ⟨_, _, _, hui⟩ := hmoved.fresh
    exact fine_bind (fine_handle (has_of_get hui)) fun _ _ => fine_pure _

theorem room_lt {data : Option Ptr} {n : Nat} (hw : s.Wf []) (h : s.heap.Room data n) :
    n < 2^63 := by
  cases data with
  | none =>
    have hz : n = 0 := h
    rw [hz]
    decide
  | some ptr =>
    obtain ⟨blk, hblk, -, hle⟩ := h
    have hsmall := hw.small ptr.block blk hblk
    omega

theorem size_lt {this : Handle} (hw : s.Wf []) (h : s.handles[i]? = some this) :
    this.ref.size < 2^63 :=
  room_lt hw (hw.room h)

/-- There is room for the bytes that are to be written. -/
theorem expandSize_room {u : State} {ptr : Ptr} (hw : s.Wf [])
    (hg : ∀ this, s.handles[i]? = some this → this.Grows s.heap (sizeT (n + this.ref.size)))
    (hn : n < 2^63) (h : s.expandSize malloc i n = .ok (u, some ptr)) :
    u.heap.Room (some ptr) n := by
  obtain ⟨this, capacity, hthis, hcapacity, hgrown⟩ := expandSize_spec hw h
  have hsize := size_lt hw hthis
  have hsum : sizeT (n + this.ref.size) = n + this.ref.size := sizeT_of_lt _ (by omega)
  have hg := hg this hthis
  rw [hsum] at hgrown hg
  rcases hgrown with ⟨hle, rfl, hp⟩ | ⟨-, hmoved, hp⟩
  · have hroom := hg capacity hcapacity hle
    cases hd : this.ref.data with
    | none =>
      rw [hd] at hp
      cases hp
    | some q =>
      rw [hd] at hp hroom
      obtain rfl : ptr = ⟨q.block, q.off + this.ref.size⟩ := Option.some.inj hp
      exact hroom.advance (by omega)
  · obtain ⟨N, hN, hroom, -⟩ := hmoved.fresh
    obtain rfl := Option.some.inj hp
    have hadv := hroom.advance (k := this.ref.size) (m := n) (by omega)
    rw [Nat.zero_add] at hadv
    exact hadv

theorem allocate_heap {heap heap' : Heap UInt8} {content : Bytes} {ref : Ref}
    (h : allocate malloc heap n content = .ok (heap', ref)) :
    heap' = heap ∨ ∃ blk, heap' = heap ++ [blk] := by
  unfold allocate at h
  split_ifs at h
  · cases h
    exact .inl rfl
  · split at h
    · cases h
    · cases h
      exact .inr ⟨_, rfl⟩

theorem reallocate_shared {this : Handle} {u : State} {data : Option Ptr} {m : Nat}
    (hthis : s.handles[i]? = some this) (h : s.reallocate malloc i n = .ok u)
    (hshared : (this.ref.p.bind fun b => (s.heap[b]?).bind Block.useCount) ≠ some 1)
    (hlt : ∀ b, this.ref.p = some b → b < s.heap.length) (hroom : s.heap.Room data m) :
    u.heap.Room data m := by
  simp only [State.reallocate, bind_ok, handle_ok, pure_ok] at h
  obtain ⟨this', hthis', ⟨heap, temporary⟩, hcopy, v, hv, rfl⟩ := h
  obtain rfl := Option.some.inj (hthis.symm.trans hthis')
  simp only [State.assignTemporary, State.release, bind_ok, handle_ok, pure_ok] at hv
  obtain ⟨v', ⟨this', hthis', rfl⟩, rfl⟩ := hv
  obtain rfl := Option.some.inj (hthis.symm.trans hthis')
  have hheap : heap = s.heap ∨ ∃ blk, heap = s.heap ++ [blk] := by
    simp only [copy, bind_ok] at hcopy
    obtain ⟨content, -, hcopy⟩ := hcopy
    exact allocate_heap hcopy
  change (heap.release this.ref.p).Room data m
  rcases hheap with rfl | ⟨blk, rfl⟩
  · apply hroom.release_shared
    intro b hb
    rw [hb] at hshared
    exact hshared
  · apply (hroom.append_block blk).release_shared
    intro b hb
    rw [hb] at hshared
    rw [List.getElem?_append_left (hlt b hb)]
    exact hshared

/-- What a handle shows is still there once it has room for more, unless its block went with it. -/
theorem expandSize_own {u : State} {p : Option Ptr} {this : Handle} (hw : s.Wf [])
    (hthis : s.handles[i]? = some this)
    (hlives : sizeT (n + this.ref.size) ≤ this.capacity.getD 0 ∨
      (this.ref.p.bind fun b => (s.heap[b]?).bind Block.useCount) ≠ some 1)
    (h : s.expandSize malloc i n = .ok (u, p)) : u.heap.Room this.ref.data this.ref.size := by
  simp only [State.expandSize, bind_ok, handle_ok, capacity_ok] at h
  obtain ⟨prev, hprev, capacity, ⟨prev', hprev', hcapacity⟩, v, hv, now, hnow, h⟩ := h
  obtain rfl := Option.some.inj (hthis.symm.trans hprev)
  obtain rfl := Option.some.inj (hthis.symm.trans hprev')
  have hheap : u.heap = v.heap := by
    split at h
    · cases pure_ok.mp h
      rfl
    · split_ifs at h
      cases pure_ok.mp h
      rfl
  rw [hheap]
  by_cases hlt : capacity < sizeT (n + this.ref.size)
  · rw [if_pos hlt] at hv
    have hshared : (this.ref.p.bind fun b => (s.heap[b]?).bind Block.useCount) ≠ some 1 := by
      rcases hlives with hle | hshared
      · rw [hcapacity] at hle
        exact absurd hlt (Nat.not_lt.mpr hle)
      · exact hshared
    exact reallocate_shared hthis hv hshared
      (fun b hb => hw.counted.lt_length (State.Wf.ref_mem hthis) hb) (hw.room hthis)
  · rw [if_neg hlt, pure_ok] at hv
    subst hv
    exact hw.room hthis

/-- What a handle showed can still be read once there is room for more. -/
theorem source_lives {u : State} {p : Option Ptr} {this other : Handle} {pos m : Nat}
    (hw : s.Wf []) (hthis : s.handles[i]? = some this) (hother : s.handles[j]? = some other)
    (hm : pos + m ≤ other.ref.size)
    (hlives : j = i → sizeT (n + this.ref.size) ≤ this.capacity.getD 0 ∨
      (this.ref.p.bind fun b => (s.heap[b]?).bind Block.useCount) ≠ some 1)
    (hg : ∀ this, s.handles[i]? = some this → this.Grows s.heap (sizeT (n + this.ref.size)))
    (h : s.expandSize malloc i n = .ok (u, p)) :
    u.heap.Room (advance other.ref.data pos) m := by
  have hroom : u.heap.Room other.ref.data other.ref.size := by
    by_cases hij : j = i
    · subst hij
      obtain rfl := Option.some.inj (hthis.symm.trans hother)
      exact expandSize_own hw hthis (hlives rfl) h
    · obtain ⟨huw, huq, -⟩ := expandSize_appended hw hg h
      have hu : u.handles[j]? = some other := by
        rw [huq.others j (by simpa using hij)]
        exact hother
      exact huw.room hu
  cases hd : other.ref.data with
  | none =>
    rw [hd] at hroom
    have hz : other.ref.size = 0 := hroom
    have hm : m = 0 := by omega
    exact hm
  | some ptr =>
    rw [hd] at hroom
    exact hroom.advance hm

theorem fine_append {data : Heap UInt8 → Option Bytes} (hw : s.Wf []) (h : s.Has .mutable i)
    (hdata : ∀ u ptr, s.expandSize malloc i n = .ok (u, some ptr) →
      ∃ bytes, data u.heap = some bytes ∧ u.heap.Room (some ptr) bytes.length) :
    Fine (s.append malloc i n data) := by
  refine fine_bind (fine_expandSize hw h) fun (u, p) hu => ?_
  cases p with
  | none => exact fine_pure _
  | some ptr =>
    obtain ⟨bytes, hbytes, hroom⟩ := hdata u ptr hu
    refine fine_bind (fine_defined (by rw [hbytes]; rfl)) fun bytes' hbytes' => ?_
    obtain rfl := Option.some.inj (hbytes.symm.trans (defined_ok.mp hbytes'))
    refine fine_bind (fine_defined ?_) fun _ _ => fine_pure _
    rw [Heap.write, if_pos hroom]
    rfl

/-- Where the bytes that are appended to `i` are a handle's, they are not freed before. -/
def Spared (s : State) (i n j : Nat) : Prop :=
  j = i → ∀ this, s.handles[i]? = some this →
    sizeT (n + this.ref.size) ≤ this.capacity.getD 0 ∨
      (this.ref.p.bind fun b => (s.heap[b]?).bind Block.useCount) ≠ some 1

theorem fine_appendShown {other : Handle} {pos : Nat} (hw : s.Wf []) (h : s.Has .mutable i)
    (hother : s.handles[j]? = some other) (hn : pos + n ≤ other.ref.size)
    (hg : ∀ this, s.handles[i]? = some this → this.Grows s.heap (sizeT (n + this.ref.size)))
    (hl : Spared s i n j) {data : Heap UInt8 → Option Bytes}
    (hdata : ∀ heap, data heap = heap.read (advance other.ref.data pos) n) :
    Fine (s.append malloc i n data) := by
  obtain ⟨this, capacity, hthis, hcapacity⟩ := has_mutable h
  have hsize := size_lt hw hother
  apply fine_append hw h
  intro u ptr hu
  have hroom := source_lives hw hthis hother hn (fun hij => hl hij this hthis) hg hu
  refine ⟨_, (hdata u.heap).trans (Heap.read_eq_some.mpr ⟨hroom, rfl⟩), ?_⟩
  rw [hroom.cellsAt_length]
  exact expandSize_room hw hg (by omega) hu

theorem fine_appendBytes {bytes : Bytes} (hw : s.Wf []) (h : s.Has .mutable i)
    (hn : bytes.length = n) (hlt : n < 2^63)
    (hg : ∀ this, s.handles[i]? = some this → this.Grows s.heap (sizeT (n + this.ref.size)))
    {data : Heap UInt8 → Option Bytes} (hdata : ∀ heap, data heap = some bytes) :
    Fine (s.append malloc i n data) := by
  apply fine_append hw h
  intro u ptr hu
  refine ⟨bytes, hdata u.heap, ?_⟩
  rw [hn]
  exact expandSize_room hw hg hlt hu

theorem fine_appendSource {source : Source} {pos : Nat} (hw : s.Wf []) (h : s.Has .mutable i)
    (hv : source.Valid s pos n)
    (hg : ∀ this, s.handles[i]? = some this → this.Grows s.heap (sizeT (n + this.ref.size)))
    (hl : ∀ j, source = .shown j → Spared s i n j) :
    Fine (s.append malloc i n (source.read s pos n)) := by
  obtain ⟨size, hsize, hle⟩ := hv
  cases source with
  | caller region =>
    obtain rfl : region.bytes.length = size := Option.some.inj hsize
    have hlt := region.length_lt
    have hlen : ((region.bytes.drop pos).take n).length = n := by
      simp only [List.length_take, List.length_drop]
      omega
    exact fine_appendBytes hw h hlen (by omega) hg fun heap => if_pos hle
  | shown j =>
    obtain ⟨other, hother, rfl⟩ := Option.map_eq_some_iff.mp hsize
    apply fine_appendShown hw h hother hle hg (hl j rfl)
    intro heap
    simp only [Source.read, hother, Option.bind_some]

theorem digitLoop_length_le (n base fuel div : Nat) :
    (Buf.digitLoop n base fuel div).length ≤ fuel := by
  induction fuel generalizing div with
  | zero => exact Nat.le_refl 0
  | succ fuel ih =>
    rw [Buf.digitLoop, List.length_cons]
    split_ifs
    · exact Nat.succ_le_succ (ih _)
    · exact Nat.succ_le_succ (Nat.zero_le _)

theorem fine_appendNumber {m base : Nat} (hw : s.Wf []) (h : s.Has .mutable i)
    (hg : (Op.appendNumber i m base).Grows build s)
    (hc : (Op.appendNumber i m base).Counts build s) :
    Fine (s.appendNumber malloc build i m base) := by
  refine fine_bind (fine_capacity h) fun capacity _ => ?_
  by_cases hbase : 2 ≤ base ∧ base ≤ 36
  · simp only [if_pos hbase]
    have hgrows : ∀ this, s.handles[i]? = some this →
        this.Grows s.heap (sizeT (digits build m base + this.ref.size)) := by
      simp only [Op.Grows, Op.demand, if_pos hbase] at hg
      exact hg
    obtain ⟨this, n, hthis, hn⟩ := has_mutable h
    rcases hc hbase.1 hbase.2 this hthis with ⟨hdata, hzero⟩ | ⟨hdiv, hlen⟩
    · -- nothing is written through a null pointer
      apply fine_append hw h
      intro u ptr hu
      have hroom := hw.room hthis
      rw [hdata] at hroom
      have hz : this.ref.size = 0 := hroom
      obtain ⟨this', capacity', hthis', -, ⟨-, -, hp⟩ | ⟨hlt, -, -⟩⟩ := expandSize_spec hw hu
      · obtain rfl := Option.some.inj (hthis.symm.trans hthis')
        rw [hdata] at hp
        cases hp
      · obtain rfl := Option.some.inj (hthis.symm.trans hthis')
        have hsum : sizeT (digits build m base + this.ref.size) = 0 := by
          rw [hz, hzero]
          rfl
        omega
    · have hle := digitLoop_length_le m base 64 (ipow base (subSizeT (digits build m base) 1))
      exact fine_appendBytes hw h hlen (by omega) hgrows fun heap => if_neg hdiv
  · simp only [if_neg hbase]
    exact fine_pure _

theorem fine_copyAssign {passed : Kind} (hw : s.Wf []) (hv : (Op.copyAssign i passed j).Valid s) :
    Fine (call build malloc s (.copyAssign i passed j)) := by
  obtain ⟨hi, hj, hpassed⟩ := hv
  refine fine_bind (fine_assign hi hj) fun u hu => ?_
  obtain ⟨-, huq, this, other, hthis, hother, hui⟩ := assign_spec hw hu
  have hc := has_passed hpassed hother
  by_cases hij : i = j
  · subst hij
    obtain rfl := Option.some.inj (hthis.symm.trans hother)
    exact fine_takeCapacity (has_of_get hui) hui hc
  · have huj : u.handles[j]? = some other := by
      rw [huq.others j (by simpa using Ne.symm hij)]
      exact hother
    exact fine_takeCapacity (has_of_get hui) huj hc

theorem fine_moveAssign {passed : Kind} (hw : s.Wf []) (hv : (Op.moveAssign i passed j).Valid s) :
    Fine (call build malloc s (.moveAssign i passed j)) := by
  obtain ⟨hi, hj, hpassed⟩ := hv
  refine fine_bind (fine_assignMoved hi hj) fun u hu => ?_
  obtain ⟨-, -, this, other, hthis, hother, hui, huj⟩ := assignMoved_spec hw hu
  have hc := has_passed hpassed hother
  exact fine_takeCapacity (has_of_get hui) huj hc

theorem fine_swap {passed : Kind} (hw : s.Wf []) (hv : (Op.swap i passed j).Valid s) :
    Fine (call build malloc s (.swap i passed j)) := by
  obtain ⟨hi, hj, hpassed⟩ := hv
  refine fine_bind (fine_swapRefs hi hj) fun u hu => ?_
  obtain ⟨-, -, this, other, hthis, hother, hui, huj⟩ := swapRefs_spec hw hu
  cases passed with
  | buffer => exact fine_pure _
  | mutable =>
    refine fine_bind (fine_handle (has_of_get huj)) fun _ _ => ?_
    have hmutable : u.Has .mutable j := by
      simp only [State.Has, huj, Option.bind_some]
      exact has_passed hpassed hother rfl
    exact fine_bind (fine_capacity hmutable) fun _ _ => fine_pure _

theorem fine_appendView {source : Source} {pos count : Nat} (hw : s.Wf [])
    (hv : (Op.appendView i source pos count).Valid s)
    (hg : (Op.appendView i source pos count).Grows build s)
    (hl : (Op.appendView i source pos count).Lives build s) :
    Fine (call build malloc s (.appendView i source pos count)) := by
  obtain ⟨hmutable, size, hsize, -⟩ := hv
  refine fine_bind (fine_handle (has_buffer hmutable)) fun this hthis => ?_
  rw [handle_ok] at hthis
  refine fine_bind (fine_capacity hmutable) fun _ _ => ?_
  refine fine_bind (fine_defined (by rw [hsize]; rfl)) fun size' hsize' => ?_
  obtain rfl := Option.some.inj (hsize.symm.trans (defined_ok.mp hsize'))
  by_cases hcond : pos < size ∧ 0 < count
  · simp only [if_pos hcond]
    by_cases hfilled : 0 < this.ref.size
    · simp only [if_pos hfilled]
      have hd : (Op.appendView i source pos count).demand build s =
          some ⟨i, min count (size - pos), min count (size - pos)⟩ := by
        simp only [Op.demand, hthis, hsize, Option.bind_eq_bind, Option.bind_some]
        exact if_pos ⟨hcond, hfilled⟩
      simp only [Op.Grows, Op.Lives, hd] at hg hl
      refine fine_appendSource hw hmutable ⟨size, hsize, by omega⟩ hg ?_
      rintro j rfl rfl this' hthis'
      exact hl rfl this' hthis'
    · simp only [if_neg hfilled]
      exact fine_pure _
  · simp only [if_neg hcond]
    exact fine_pure _

theorem fine_appendBuffer {pos count : Nat} (hw : s.Wf [])
    (hv : (Op.appendBuffer i j pos count).Valid s)
    (hg : (Op.appendBuffer i j pos count).Grows build s)
    (hl : (Op.appendBuffer i j pos count).Lives build s) :
    Fine (call build malloc s (.appendBuffer i j pos count)) := by
  obtain ⟨hmutable, hj⟩ := hv
  refine fine_bind (fine_handle (has_buffer hmutable)) fun this hthis => ?_
  rw [handle_ok] at hthis
  refine fine_bind (fine_capacity hmutable) fun _ _ => ?_
  refine fine_bind (fine_handle hj) fun buf hbuf => ?_
  rw [handle_ok] at hbuf
  by_cases hcond : pos < buf.ref.size ∧ 0 < count
  · simp only [if_pos hcond]
    by_cases hfilled : 0 < this.ref.size
    · simp only [if_pos hfilled]
      have hd : (Op.appendBuffer i j pos count).demand build s =
          some ⟨i, min count (buf.ref.size - pos), min count (buf.ref.size - pos)⟩ := by
        simp only [Op.demand, hthis, hbuf, Option.bind_eq_bind, Option.bind_some]
        exact if_pos ⟨hcond, hfilled⟩
      simp only [Op.Grows, Op.Lives, hd] at hg hl
      refine fine_appendShown hw hmutable hbuf (by omega) hg ?_ fun heap => rfl
      rintro rfl this' hthis'
      exact hl rfl this' hthis'
    · simp only [if_neg hfilled]
      have hi := has_buffer hmutable
      exact fine_bind (fine_assignTemporary hi) fun _ _ => fine_pure _
  · simp only [if_neg hcond]
    exact fine_pure _

/-- A valid call returns, or throws. -/
theorem call_fine (op : Op) (hw : s.Wf []) (hv : op.Valid s) (hg : op.Grows build s)
    (hl : op.Lives build s) (hc : op.Counts build s) : Fine (call build malloc s op) := by
  cases op with
  | callerMemory region => exact fine_ok _
  | construct kind => exact fine_ok _
  | constructSize kind n => exact fine_bind fine_allocate fun _ _ => fine_pure _
  | constructCopy region => exact fine_bind fine_allocate fun _ _ => fine_pure _
  | constructWeak block off size =>
    obtain ⟨ref, href⟩ := hv
    refine fine_bind ?_ fun _ _ => fine_pure _
    rw [href]
    exact fine_ok _
  | constructDeleter region => exact fine_ok _
  | copyConstruct kind passed j =>
    refine fine_bind (fine_handle (has_buffer hv)) fun other hother => ?_
    exact fine_bind (fine_taken (has_passed hv (handle_ok.mp hother))) fun _ _ => fine_pure _
  | moveConstruct kind passed j =>
    refine fine_bind (fine_handle (has_buffer hv)) fun other hother => ?_
    rw [handle_ok] at hother
    have hj : (s.setRef j .null).handles[j]? = some { other with ref := .null } := by
      rw [State.setRef_get, if_pos rfl, hother]
      rfl
    refine fine_bind (fine_handle (has_of_get hj)) fun moved hmoved => ?_
    obtain rfl := Option.some.inj (hj.symm.trans (handle_ok.mp hmoved))
    have hc := has_passed hv hother
    exact fine_bind (fine_taken hc) fun _ _ => fine_pure _
  | copy j n =>
    refine fine_bind (fine_handle hv) fun this hthis => ?_
    exact fine_bind (fine_copy (hw.room (handle_ok.mp hthis))) fun _ _ => fine_pure _
  | slice kind j first last =>
    refine fine_bind (fine_handle hv.1) fun this _ => ?_
    cases kind with
    | buffer => exact fine_pure _
    | mutable => exact fine_bind (fine_capacity hv.2) fun _ _ => fine_pure _
  | assignView i block off size =>
    obtain ⟨hi, hplain, ref, href⟩ := hv
    refine fine_bind (fine_handle hi) fun this hthis => ?_
    rw [handle_ok] at hthis
    refine fine_bind (by rw [href]; exact fine_ok _) fun _ _ => ?_
    have hnone : this.capacity.isNone = true := by
      cases hcap : this.capacity with
      | none => rfl
      | some n =>
        refine absurd ?_ hplain
        simp only [State.Has, hthis, Option.bind_some, hcap]
        rfl
    rw [if_pos hnone]
    exact fine_assignTemporary hi
  | copyAssign i passed j => exact fine_copyAssign hw hv
  | moveAssign i passed j => exact fine_moveAssign hw hv
  | swap i passed j => exact fine_swap hw hv
  | reset i =>
    refine fine_bind (fine_release hv) fun u hu => ?_
    exact fine_bind (fine_handle ((has_release hu .buffer i).mpr hv)) fun _ _ => fine_pure _
  | append i source pos n =>
    refine fine_appendSource hw hv.1 hv.2 hg ?_
    rintro j rfl rfl this hthis
    exact hl rfl this hthis
  | appendView i source pos count => exact fine_appendView hw hv hg hl
  | appendBuffer i j pos count => exact fine_appendBuffer hw hv hg hl
  | pushBack i ch => exact fine_appendBytes hw hv rfl ch.length_lt hg fun heap => rfl
  | appendNumber i m base => exact fine_appendNumber hw hv hg hc
  | setSize i size => exact fine_setSize hw hv
  | setCapacity i capacity => exact fine_setCapacity hw hv
  | clear i => exact fine_bind (fine_capacity hv) fun _ _ => fine_pure _

end

end Libnodecc.Buffer
