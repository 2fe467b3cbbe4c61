import Libnodecc.Buffer.AppendSpecs
import Libnodecc.Framework.Run

namespace Libnodecc.Buffer

open Util

/-- The capacity covers the contents and lies in the block; without data it is zero. -/
def Covers (heap : Heap UInt8) (ref : Ref) (capacity : Option Nat) : Prop :=
  ∀ n, capacity = some n → ref.size ≤ n ∧ heap.Room ref.data n

instance (heap : Heap UInt8) (ref : Ref) (capacity : Option Nat) :
    Decidable (Covers heap ref capacity) :=
  match capacity with
  | none => isTrue fun _ h => by cases h
  | some n => decidable_of_iff (ref.size ≤ n ∧ heap.Room ref.data n) (by simp [Covers])

/-- The representation invariant of every `mutable_buffer`. -/
def State.Represents (s : State) : Prop :=
  ∀ (k : Nat) (h : Handle), s.handles[k]? = some h → Covers s.heap h.ref h.capacity

/-- Where the operations have to be kept from losing track of a capacity: a handle that is moved
from keeps its `_capacity`, one that takes a `buffer` over reads the size of the emptied one, a
handle assigned to itself loses its data, and `buffer::swap` leaves `_capacity` behind. -/
def Op.Tracks (s : State) : Op → Prop
  | .moveConstruct kind passed j => s.At j fun other =>
      other.capacity.getD 0 = 0 ∧ (kind = .mutable → passed = .buffer → other.ref.size = 0)
  | .copyAssign i passed j => i = j → passed = .mutable → s.At i fun this => this.capacity.getD 0 = 0
  | .moveAssign i passed j => s.At i fun this => s.At j fun other =>
      if i = j then passed = .mutable → this.capacity.getD 0 = 0
      else other.capacity.getD 0 = 0 ∧
        (this.capacity.isSome → passed = .buffer → other.ref.size = 0)
  | .swap i passed j => i ≠ j → s.At i fun this => s.At j fun other =>
      Covers s.heap other.ref this.capacity ∧
        (passed = .buffer → Covers s.heap this.ref other.capacity)
  | _ => True

instance (s : State) (op : Op) : Decidable (op.Tracks s) := by
  rcases op with _ | _ <;> unfold Op.Tracks <;> infer_instance

section
variable {build : Build} {malloc : Malloc} {s t : State}

theorem Covers.null (heap : Heap UInt8) (capacity : Option Nat)
    (h : capacity.getD 0 = 0) : Covers heap .null capacity := by
  rintro n rfl
  have hn : n = 0 := h
  exact ⟨Nat.zero_le n, hn⟩

theorem covers_buffer (heap : Heap UInt8) (ref : Ref) : Covers heap ref none := by
  intro n h
  cases h

theorem Covers.untouched {touched : List Nat} {k : Nat} {h : Handle} (hr : s.Represents)
    (htw : t.Wf []) (ht : Touches touched s t) (hk : k ∉ touched) (hh : t.handles[k]? = some h) :
    Covers t.heap h.ref h.capacity := by
  intro n hn
  have hs : s.handles[k]? = some h := (ht.others k hk).symm.trans hh
  obtain ⟨hle, hroom⟩ := hr k h hs n hn
  exact ⟨hle, hroom.keeps ht.keeps (htw.room hh)⟩

theorem represents_of_touches {i : Nat} {h : Handle} (hr : s.Represents) (htw : t.Wf [])
    (ht : Touches [i] s t) (hi : t.handles[i]? = some h) (hc : Covers t.heap h.ref h.capacity) :
    t.Represents := by
  intro k h' hh
  by_cases hk : k = i
  · subst hk
    obtain rfl := Option.some.inj (hi.symm.trans hh)
    exact hc
  · exact Covers.untouched hr htw ht (by simpa using hk) hh

theorem represents_of_touches_two {i j : Nat} {h h' : Handle} (hr : s.Represents) (htw : t.Wf [])
    (ht : Touches [i, j] s t) (hi : t.handles[i]? = some h) (hj : t.handles[j]? = some h')
    (hc : Covers t.heap h.ref h.capacity) (hc' : Covers t.heap h'.ref h'.capacity) :
    t.Represents := by
  intro k h'' hh
  by_cases hki : k = i
  · subst hki
    obtain rfl := Option.some.inj (hi.symm.trans hh)
    exact hc
  · by_cases hkj : k = j
    · subst hkj
      obtain rfl := Option.some.inj (hj.symm.trans hh)
      exact hc'
    · exact Covers.untouched hr htw ht (by simp [hki, hkj]) hh

theorem Covers.keeps {i : Nat} {h : Handle} {ref : Ref} {capacity : Option Nat}
    (hk : s.heap.Keeps t.heap) (hc : Covers s.heap ref capacity) (htw : t.Wf [])
    (hh : t.handles[i]? = some h) (href : h.ref = ref) : Covers t.heap ref capacity := by
  intro n hn
  obtain ⟨hle, hroom⟩ := hc n hn
  have hlive := htw.room hh
  rw [href] at hlive
  exact ⟨hle, hroom.keeps hk hlive⟩

theorem covers_size {i : Nat} {h : Handle} (htw : t.Wf []) (hh : t.handles[i]? = some h) :
    Covers t.heap h.ref (some h.ref.size) := by
  rintro n hn
  obtain rfl := Option.some.inj hn
  exact ⟨Nat.le_refl _, htw.room hh⟩

theorem Appended.covers {i size : Nat} {h : Handle} (happ : Appended s t i size)
    (hr : s.Represents) (htw : t.Wf []) (hk : s.heap.Keeps t.heap) (hh : t.handles[i]? = some h) :
    Covers t.heap h.ref h.capacity := by
  cases happ with
  | inPlace this capacity hthis hcapacity hle ht =>
    obtain rfl := Option.some.inj (ht.symm.trans hh)
    intro n hn
    obtain rfl := Option.some.inj (hcapacity.symm.trans hn)
    obtain ⟨-, hroom⟩ := hr i this hthis capacity hcapacity
    have hlive := htw.room ht
    exact ⟨hle, hroom.keeps hk hlive⟩
  | moved capacity hle hroom ht =>
    obtain rfl := Option.some.inj (ht.symm.trans hh)
    intro n hn
    obtain rfl := Option.some.inj hn
    exact ⟨hle, hroom⟩

theorem State.Represents.grows {i : Nat} (hr : s.Represents) {this : Handle}
    (hthis : s.handles[i]? = some this) (size : Nat) : this.Grows s.heap size := by
  intro capacity hcapacity hle
  exact (hr i this hthis capacity hcapacity).2.mono hle

theorem covers_taken {kind passed : Kind} {other : Handle} {capacity : Option Nat} {i k : Nat}
    {h : Handle} (hr : s.Represents) (hother : s.handles[k]? = some other) (htw : t.Wf [])
    (hk : s.heap.Keeps t.heap) (hh : t.handles[i]? = some h) (href : h.ref = other.ref)
    (hcapacity : State.takenCapacity kind passed other = .ok capacity) :
    Covers t.heap other.ref capacity := by
  cases kind with
  | buffer =>
    have hnone : capacity = none := by
      cases passed with
      | buffer => exact (Except.ok.inj hcapacity).symm
      | mutable =>
        simp only [State.takenCapacity, bind_ok, pure_ok] at hcapacity
        obtain ⟨-, -, rfl⟩ := hcapacity
        rfl
    rw [hnone]
    exact covers_buffer _ _
  | mutable =>
    cases passed with
    | buffer =>
      obtain rfl : some other.ref.size = capacity := Except.ok.inj hcapacity
      have hsize := covers_size htw hh
      rw [href] at hsize
      exact hsize
    | mutable =>
      simp only [State.takenCapacity, bind_ok, defined_ok, pure_ok] at hcapacity
      obtain ⟨n, hn, rfl⟩ := hcapacity
      have hcov := hr k other hother
      rw [hn] at hcov
      exact Covers.keeps hk hcov htw hh href

theorem represents_of_appended {i size : Nat} (hr : s.Represents) (htw : t.Wf [])
    (ht : Touches [i] s t) (happ : Appended s t i size) : t.Represents := by
  have hc {h : Handle} (hh : t.handles[i]? = some h) : Covers t.heap h.ref h.capacity :=
    happ.covers hr htw ht.keeps hh
  cases happ with
  | inPlace this capacity hthis hcapacity hle hi =>
    exact represents_of_touches hr htw ht hi (hc hi)
  | moved capacity hle hroom hi => exact represents_of_touches hr htw ht hi (hc hi)

theorem kind_eq_mutable {h : Handle} : State.kind h = .mutable ↔ h.capacity.isSome = true := by
  unfold State.kind
  split_ifs with hc
  · simp [hc]
  · simp [hc]

theorem taken_buffer {kind : Kind} {other : Handle} {capacity : Option Nat}
    (h : State.takenCapacity kind .buffer other = .ok capacity) :
    capacity = kind.capacity other.ref.size :=
  (Except.ok.inj h).symm

/-- What is taken over from a handle that records nothing. -/
theorem taken_spent {kind passed : Kind} {other : Handle} {capacity : Option Nat}
    (h : State.takenCapacity kind passed other = .ok capacity) (hsize : other.ref.size = 0)
    (hspent : passed = .mutable → other.capacity.getD 0 = 0) : capacity.getD 0 = 0 := by
  have hzero (kind : Kind) : (kind.capacity 0).getD 0 = 0 := by cases kind <;> rfl
  cases passed with
  | buffer =>
    rw [taken_buffer h, hsize]
    exact hzero kind
  | mutable =>
    simp only [State.takenCapacity, bind_ok, defined_ok, pure_ok] at h
    obtain ⟨n, hn, rfl⟩ := h
    have hn0 : n = 0 := by
      have hspent := hspent rfl
      rw [hn] at hspent
      exact hspent
    rw [hn0]
    exact hzero kind

/-- What is taken over from a handle that was moved from before. -/
theorem covers_moved {kind passed : Kind} {other : Handle} {capacity : Option Nat} {i k : Nat}
    {h : Handle} (hr : s.Represents) (hother : s.handles[k]? = some other) (htw : t.Wf [])
    (hk : s.heap.Keeps t.heap) (hh : t.handles[i]? = some h) (href : h.ref = other.ref)
    (hempty : kind = .mutable → passed = .buffer → other.ref.size = 0)
    (hcapacity : State.takenCapacity kind passed { other with ref := .null } = .ok capacity) :
    Covers t.heap other.ref capacity := by
  cases passed with
  | mutable =>
    have hcapacity : State.takenCapacity kind .mutable other = .ok capacity := hcapacity
    exact covers_taken hr hother htw hk hh href hcapacity
  | buffer =>
    rw [taken_buffer hcapacity]
    cases kind with
    | buffer => exact covers_buffer _ _
    | mutable =>
      have hsize := covers_size htw hh
      rw [href, hempty rfl rfl] at hsize
      exact hsize

/-- The capacity of a slice ends where that of the whole ends. -/
theorem covers_slice {this h : Handle} {i k n first last : Nat} (hw : s.Wf []) (hr : s.Represents)
    (hthis : s.handles[i]? = some this) (hn : this.capacity = some n) (htw : t.Wf [])
    (hk : s.heap.Keeps t.heap) (hh : t.handles[k]? = some h)
    (href : h.ref = slice this.ref first last) :
    Covers t.heap (slice this.ref first last)
      (some (if (slice this.ref first last).data.isSome then
        subSizeT n (min first this.ref.size) else 0)) := by
  obtain ⟨hsize, hroom⟩ := hr i this hthis n hn
  have hlive := htw.room hh
  rw [href] at hlive
  by_cases hcut : this.ref.data.isSome ∧ min first this.ref.size < min last this.ref.size
  · have hslice : slice this.ref first last = ⟨advance this.ref.data (min first this.ref.size),
        min last this.ref.size - min first this.ref.size, this.ref.p⟩ := if_pos hcut
    rw [hslice] at hlive ⊢
    obtain ⟨ptr, hptr⟩ := Option.isSome_iff_exists.mp hcut.1
    rw [hptr] at hroom hlive ⊢
    obtain ⟨blk, hblk, hfree, hle⟩ := hroom
    have hsmall := hw.small ptr.block blk hblk
    have hsub : subSizeT n (min first this.ref.size) = n - min first this.ref.size := by
      simp only [subSizeT, sizeT]
      omega
    intro m hm
    simp only [advance, Option.map_some, Option.isSome_some, if_true, hsub, Option.some.injEq] at hm
    subst hm
    refine ⟨by simp only; omega, ?_⟩
    have hrest : s.heap.Room (some ⟨ptr.block, ptr.off + min first this.ref.size⟩)
        (n - min first this.ref.size) := ⟨blk, hblk, hfree, by simp only; omega⟩
    exact hrest.keeps hk hlive
  · have hslice : slice this.ref first last = .null := if_neg hcut
    rw [hslice]
    exact Covers.null _ _ rfl

theorem demand_represents {op : Op} {d : Demand} (hw : s.Wf []) (hr : s.Represents)
    (hd : op.demand build s = some d) (h : call build malloc s op = .ok t) :
    t.Wf [] ∧ t.Represents := by
  obtain ⟨data, happend, -⟩ := call_demand hd h
  obtain ⟨htw, ht, this, -, happ⟩ := append_keeps hw (fun this hthis => hr.grows hthis _) happend
  exact ⟨htw, represents_of_appended hr htw ht happ⟩

theorem moved_represents {i size : Nat} (hr : s.Represents) (h : Moved s t i size) :
    t.Wf [] ∧ t.Represents :=
  ⟨h.wf, represents_of_appended hr h.wf h.quiet.toTouches h.appended⟩

theorem resize_represents {i size : Nat} {this : Handle} (hw : s.Wf []) (hr : s.Represents)
    (hthis : s.handles[i]? = some this)
    (hsize : ∃ n, this.capacity = some n ∧ size ≤ n) :
    (s.resize i size).Wf [] ∧ (s.resize i size).Represents := by
  obtain ⟨n, hn, hle⟩ := hsize
  have htw := hw.resize hthis (hr.grows hthis size n hn hle)
  refine ⟨htw, represents_of_appended hr htw (s.resize_quiet i size).toTouches
    (.inPlace this n hthis hn hle ?_)⟩
  rw [State.resize_get, if_pos rfl, hthis]
  rfl

theorem moveConstruct_represents {kind passed : Kind} {j : Nat} (hw : s.Wf [])
    (hr : s.Represents) (ht : (Op.moveConstruct kind passed j).Tracks s)
    (h : call build malloc s (.moveConstruct kind passed j) = .ok t) : t.Wf [] ∧ t.Represents := by
  obtain ⟨htw, htq, other, capacity, hother, hcapacity, hj, hh⟩ := moveConstruct_spec hw h
  obtain ⟨hspent, hempty⟩ := ht other hother
  have hc : Covers t.heap other.ref capacity :=
    covers_moved hr hother htw htq.keeps hh rfl hempty hcapacity
  exact ⟨htw, represents_of_touches_two hr htw htq.toTouches hj hh (Covers.null _ _ hspent) hc⟩

theorem copyAssign_represents {passed : Kind} {i j : Nat} (hw : s.Wf [])
    (hr : s.Represents) (ht : (Op.copyAssign i passed j).Tracks s)
    (h : call build malloc s (.copyAssign i passed j) = .ok t) : t.Wf [] ∧ t.Represents := by
  obtain ⟨htw, htq, this, other, capacity, hthis, hother, hcapacity, hh⟩ := copyAssign_spec hw h
  refine ⟨htw, represents_of_touches hr htw htq.toTouches hh ?_⟩
  by_cases hij : i = j
  · subst hij
    obtain rfl := Option.some.inj (hthis.symm.trans hother)
    simp only [if_true] at hcapacity ⊢
    exact Covers.null _ _ (taken_spent hcapacity rfl fun hp => ht rfl hp this hthis)
  · simp only [if_neg hij] at hcapacity hh ⊢
    exact covers_taken hr hother htw htq.keeps hh rfl hcapacity

theorem moveAssign_represents {passed : Kind} {i j : Nat} (hw : s.Wf [])
    (hr : s.Represents) (ht : (Op.moveAssign i passed j).Tracks s)
    (h : call build malloc s (.moveAssign i passed j) = .ok t) : t.Wf [] ∧ t.Represents := by
  obtain ⟨htw, htq, this, other, capacity, hthis, hother, hcapacity, hi, hj⟩ := moveAssign_spec hw h
  have ht := ht this hthis other hother
  by_cases hij : i = j
  · subst hij
    obtain rfl := Option.some.inj (hthis.symm.trans hother)
    simp only [if_true] at ht hi
    have hc : Covers t.heap .null capacity := Covers.null _ _ (taken_spent hcapacity rfl ht)
    exact ⟨htw, represents_of_touches_two hr htw htq.toTouches hi hi hc hc⟩
  · simp only [if_neg hij] at ht hi
    have hc : Covers t.heap other.ref capacity := covers_moved hr hother htw htq.keeps hi rfl
      (fun hkind => ht.2 (kind_eq_mutable.mp hkind)) hcapacity
    exact ⟨htw, represents_of_touches_two hr htw htq.toTouches hi (hj hij) hc
      (Covers.null _ _ ht.1)⟩

theorem swap_represents {passed : Kind} {i j : Nat} (hw : s.Wf [])
    (hr : s.Represents) (ht : (Op.swap i passed j).Tracks s)
    (h : call build malloc s (.swap i passed j) = .ok t) : t.Wf [] ∧ t.Represents := by
  obtain ⟨htw, htq, this, other, hthis, hother, hi, hj⟩ := swap_spec hw h
  have hright (hc : passed = .buffer → Covers s.heap this.ref other.capacity) :
      Covers t.heap this.ref (if passed = .mutable then some this.ref.size else other.capacity) := by
    cases passed with
    | mutable =>
      have hsize := covers_size htw hj
      exact hsize
    | buffer => exact Covers.keeps htq.keeps (hc rfl) htw hj rfl
  by_cases hij : i = j
  · subst hij
    obtain rfl := Option.some.inj (hthis.symm.trans hother)
    have hc := hright fun _ => hr i this hthis
    exact ⟨htw, represents_of_touches_two hr htw htq.toTouches hj hj hc hc⟩
  · have hi := hi hij
    obtain ⟨hleft, hbuffer⟩ := ht hij this hthis other hother
    have hc := Covers.keeps htq.keeps hleft htw hi rfl
    exact ⟨htw, represents_of_touches_two hr htw htq.toTouches hi hj hc (hright hbuffer)⟩

/-- What each operation keeps, where it keeps track of the capacities. -/
theorem call_represents (op : Op) (hw : s.Wf []) (hr : s.Represents) (ht : op.Tracks s)
    (h : call build malloc s op = .ok t) : t.Wf [] ∧ t.Represents := by
  cases op with
  | callerMemory region =>
    obtain ⟨htw, htq⟩ := callerMemory_spec hw h
    exact ⟨htw, fun k h hh => Covers.untouched hr htw htq.toTouches (by simp) hh⟩
  | construct kind =>
    obtain ⟨htw, htq, hh⟩ := construct_spec hw h
    refine ⟨htw, represents_of_touches hr htw htq.toTouches hh (Covers.null _ _ ?_)⟩
    cases kind <;> rfl
  | constructSize kind n =>
    obtain ⟨htw, htq, ref, hroom, hh⟩ := constructSize_spec hw h
    refine ⟨htw, represents_of_touches hr htw htq.toTouches hh ?_⟩
    cases kind with
    | buffer => exact covers_buffer _ _
    | mutable =>
      rintro m hm
      obtain rfl := Option.some.inj hm
      exact ⟨Nat.zero_le _, hroom⟩
  | constructCopy region =>
    obtain ⟨htw, htq, ref, hh⟩ := constructCopy_spec hw h
    exact ⟨htw, represents_of_touches hr htw htq.toTouches hh (covers_buffer _ _)⟩
  | constructWeak block off size =>
    obtain ⟨htw, htq, ref, hh⟩ := constructWeak_spec hw h
    exact ⟨htw, represents_of_touches hr htw htq.toTouches hh (covers_buffer _ _)⟩
  | constructDeleter region =>
    obtain ⟨htw, htq, ref, hh⟩ := constructDeleter_spec hw h
    exact ⟨htw, represents_of_touches hr htw htq.toTouches hh (covers_buffer _ _)⟩
  | copy j n =>
    obtain ⟨htw, htq, ref, hh⟩ := copyOp_spec hw h
    exact ⟨htw, represents_of_touches hr htw htq.toTouches hh (covers_buffer _ _)⟩
  | copyConstruct kind passed j =>
    obtain ⟨htw, htq, other, capacity, hother, hcapacity, hh⟩ := copyConstruct_spec hw h
    have hc : Covers t.heap other.ref capacity :=
      covers_taken hr hother htw htq.keeps hh rfl hcapacity
    exact ⟨htw, represents_of_touches hr htw htq.toTouches hh hc⟩
  | moveConstruct kind passed j => exact moveConstruct_represents hw hr ht h
  | slice kind j first last =>
    obtain ⟨htw, htq, this, capacity, hthis, hh, hcapacity⟩ := sliceOp_spec hw h
    refine ⟨htw, represents_of_touches hr htw htq.toTouches hh ?_⟩
    obtain ⟨-, rfl⟩ | ⟨-, n, hn, rfl⟩ := hcapacity
    · exact covers_buffer _ _
    · exact covers_slice hw hr hthis hn htw htq.keeps hh rfl
  | assignView i block off size =>
    obtain ⟨htw, htq, ref, -, hh⟩ := assignView_spec hw h
    exact ⟨htw, represents_of_touches hr htw htq.toTouches hh (covers_buffer _ _)⟩
  | copyAssign i passed j => exact copyAssign_represents hw hr ht h
  | moveAssign i passed j => exact moveAssign_represents hw hr ht h
  | swap i passed j => exact swap_represents hw hr ht h
  | reset i =>
    obtain ⟨htw, htq, this, -, hh⟩ := reset_spec hw h
    refine ⟨htw, represents_of_touches hr htw htq.toTouches hh (Covers.null _ _ ?_)⟩
    cases State.kind this <;> rfl
  | clear i =>
    obtain ⟨htw, htq, this, hthis, hh⟩ := clear_spec hw h
    refine ⟨htw, represents_of_touches hr htw htq.toTouches hh ?_⟩
    intro n hn
    obtain ⟨-, hroom⟩ := hr i this hthis n hn
    have hlive := htw.room hh
    exact ⟨Nat.zero_le _, hroom.keeps htq.keeps hlive⟩
  | setSize i size =>
    obtain ⟨this, n, hthis, hn, ⟨hle, -, rfl⟩ | hmoved⟩ := setSize_spec hw h
    · exact resize_represents hw hr hthis ⟨n, hn, hle⟩
    · exact moved_represents hr hmoved
  | setCapacity i capacity =>
    obtain ⟨this, hthis, hmutable, rfl | hmoved⟩ := setCapacity_spec hw h
    · obtain ⟨n, hn⟩ := Option.isSome_iff_exists.mp hmutable
      obtain ⟨hle, -⟩ := hr i this hthis n hn
      exact resize_represents hw hr hthis ⟨n, hn, by omega⟩
    · exact moved_represents hr hmoved
  | append i source pos n => exact demand_represents hw hr rfl h
  | pushBack i ch => exact demand_represents hw hr rfl h
  | appendView i source pos count =>
    cases hd : (Op.appendView i source pos count).demand build s with
    | some d => exact demand_represents hw hr hd h
    | none =>
      rw [appendView_idle hd h]
      exact ⟨hw, hr⟩
  | appendNumber i n base =>
    cases hd : (Op.appendNumber i n base).demand build s with
    | some d => exact demand_represents hw hr hd h
    | none =>
      rw [appendNumber_idle hd h]
      exact ⟨hw, hr⟩
  | appendBuffer i j pos count =>
    cases hd : (Op.appendBuffer i j pos count).demand build s with
    | some d => exact demand_represents hw hr hd h
    | none =>
      obtain rfl | ⟨htw, htq, ref, hh⟩ := appendBuffer_idle hw hd h
      · exact ⟨hw, hr⟩
      · exact ⟨htw, represents_of_touches hr htw htq.toTouches hh (covers_size htw hh)⟩

theorem spent_of_covers {heap : Heap UInt8} {capacity : Option Nat}
    (h : Covers heap .null capacity) : capacity.getD 0 = 0 := by
  cases capacity with
  | none => rfl
  | some n => exact (h n rfl).2

theorem taken_own {this : Handle} {ref : Ref} {capacity : Option Nat}
    (h : State.takenCapacity (State.kind this) .mutable { this with ref := ref } = .ok capacity) :
    capacity = this.capacity := by
  simp only [State.takenCapacity, bind_ok, defined_ok, pure_ok] at h
  obtain ⟨n, hn, rfl⟩ := h
  have hkind : State.kind this = .mutable := kind_eq_mutable.mpr (by rw [hn]; rfl)
  rw [hkind, hn]
  rfl

theorem empty_of_moved {heap : Heap UInt8} {kind passed : Kind} {ref : Ref} {other : Handle}
    {capacity : Option Nat}
    (hcapacity : State.takenCapacity kind passed { other with ref := .null } = .ok capacity)
    (h : Covers heap ref capacity) (hkind : kind = .mutable) (hpassed : passed = .buffer) :
    ref.size = 0 := by
  subst hkind
  subst hpassed
  rw [taken_buffer hcapacity] at h
  exact Nat.le_zero.mp (h 0 rfl).1

/-- An operation that loses track of a capacity breaks the representation at once. -/
theorem untracked_breaks (op : Op) (hw : s.Wf []) (ht : ¬op.Tracks s)
    (h : call build malloc s op = .ok t) : ¬t.Represents := by
  intro hr
  apply ht
  cases op with
  | moveConstruct kind passed j =>
    obtain ⟨-, -, other, capacity, hother, hcapacity, hj, hh⟩ := moveConstruct_spec hw h
    intro other' hother'
    obtain rfl := Option.some.inj (hother.symm.trans hother')
    exact ⟨spent_of_covers (hr j _ hj), empty_of_moved hcapacity (hr _ _ hh)⟩
  | copyAssign i passed j =>
    obtain ⟨-, -, this, other, capacity, hthis, hother, hcapacity, hh⟩ := copyAssign_spec hw h
    rintro rfl rfl this' hthis'
    obtain rfl := Option.some.inj (hthis.symm.trans hthis')
    obtain rfl := Option.some.inj (hthis.symm.trans hother)
    simp only [if_true] at hcapacity hh
    rw [← taken_own hcapacity]
    exact spent_of_covers (hr i _ hh)
  | moveAssign i passed j =>
    obtain ⟨-, -, this, other, capacity, hthis, hother, hcapacity, hi, hj⟩ := moveAssign_spec hw h
    intro this' hthis' other' hother'
    obtain rfl := Option.some.inj (hthis.symm.trans hthis')
    obtain rfl := Option.some.inj (hother.symm.trans hother')
    by_cases hij : i = j
    · subst hij
      obtain rfl := Option.some.inj (hthis.symm.trans hother)
      simp only [if_true] at hi ⊢
      rintro rfl
      rw [← taken_own hcapacity]
      exact spent_of_covers (hr i _ hi)
    · simp only [if_neg hij] at hi ⊢
      exact ⟨spent_of_covers (hr j _ (hj hij)),
        fun hmutable => empty_of_moved hcapacity (hr i _ hi) (kind_eq_mutable.mpr hmutable)⟩
  | swap i passed j =>
    obtain ⟨-, htq, this, other, hthis, hother, hi, hj⟩ := swap_spec hw h
    intro hij this' hthis' other' hother'
    obtain rfl := Option.some.inj (hthis.symm.trans hthis')
    obtain rfl := Option.some.inj (hother.symm.trans hother')
    -- the blocks stay as they are, so that the state before shows what the capacities are worth
    have hbefore {k : Nat} {h : Handle} {ref : Ref} {capacity : Option Nat}
        (hk : s.handles[k]? = some h) (href : h.ref = ref) (hc : Covers t.heap ref capacity) :
        Covers s.heap ref capacity := by
      intro n hn
      obtain ⟨hle, hroom⟩ := hc n hn
      have hlive := hw.room hk
      rw [href] at hlive
      exact ⟨hle, hroom.before htq.keeps hlive⟩
    refine ⟨hbefore hother rfl (hr i _ (hi hij)), ?_⟩
    rintro rfl
    exact hbefore hthis rfl (hr j _ hj)
  | _ => exact absurd trivial ht

theorem step_represents (op : Op) (hw : s.Wf []) (hr : s.Represents) (ht : op.Tracks s)
    (h : step build malloc s op = some t) : t.Wf [] ∧ t.Represents := by
  unfold step at h
  split at h
  · rename_i u hu
    cases h
    exact call_represents op hw hr ht hu
  · cases h
    exact ⟨hw, hr⟩
  · cases h

theorem init_represents : State.init.Represents := by
  intro k h hh
  cases hh

/-- What the operations of a run keep, by induction on them. -/
theorem run_represents (ops : List Op)
    (hops : Along (step build malloc) (fun s op => op.Tracks s) State.init ops)
    (ht : run (step build malloc) State.init ops = some t) : t.Wf [] ∧ t.Represents := by
  have hstep (s : State) (op : Op) (u : State) (hs : s.Wf [] ∧ s.Represents) (hop : op.Tracks s)
      (hu : step build malloc s op = some u) : u.Wf [] ∧ u.Represents :=
    step_represents op hs.1 hs.2 hop hu
  exact run_invariant _ hstep ops State.init t ⟨init_wf, init_represents⟩ hops ht

end

/-- Every run keeps the representation, as long as its operations keep track of the capacities. -/
theorem representation_kept (build : Build) (malloc : Malloc) (ops : List Op) (t : State)
    (hops : Along (step build malloc) (fun s op => op.Tracks s) State.init ops)
    (ht : run (step build malloc) State.init ops = some t) : t.Represents :=
  (run_represents ops hops ht).2

theorem representation_kept_slice : (State.mk
      [⟨0x61 :: List.replicate 15 0, some 2, false⟩]
      [⟨⟨some ⟨0, 0⟩, 1, some 0⟩, some 16⟩, ⟨⟨some ⟨0, 0⟩, 1, some 0⟩, some 16⟩]).Represents :=
  representation_kept glibc .zeroed
    [.constructSize .mutable 16, .pushBack 0 ⟨[0x61], by decide⟩, .slice .mutable 0 0 1] _
    (by decide +kernel) rfl

/-- The moved-from handle has no data any more, but all of its capacity. -/
theorem move_leaves_capacity :
    run (step glibc .zeroed) State.init
        [.constructSize .mutable 16, .moveConstruct .mutable .mutable 0] =
      some ⟨[⟨List.replicate 16 0, some 1, false⟩],
        [⟨⟨none, 0, none⟩, some 16⟩, ⟨⟨some ⟨0, 0⟩, 0, some 0⟩, some 16⟩]⟩ ∧
    ¬State.Represents ⟨[⟨List.replicate 16 0, some 1, false⟩],
      [⟨⟨none, 0, none⟩, some 16⟩, ⟨⟨some ⟨0, 0⟩, 0, some 0⟩, some 16⟩]⟩ := by
  refine ⟨rfl, ?_⟩
  intro h
  obtain ⟨-, hroom⟩ := h 0 _ rfl 16 rfl
  cases hroom

end Libnodecc.Buffer
