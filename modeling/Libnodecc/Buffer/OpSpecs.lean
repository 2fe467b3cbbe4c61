import Libnodecc.Buffer.CallSpecs

namespace Libnodecc.Buffer

open Util

theorem slice_spec {heap : Heap UInt8} {this : Ref} (hroom : heap.Room this.data this.size)
    (howned : this.p = heap.owner this.data) (first last : Nat) :
    heap.Room (slice this first last).data (slice this first last).size ∧
      (slice this first last).p = heap.owner (slice this first last).data := by
  by_cases h : this.data.isSome ∧ min first this.size < min last this.size
  · have hslice : slice this first last = ⟨advance this.data (min first this.size),
        min last this.size - min first this.size, this.p⟩ := if_pos h
    rw [hslice]
    obtain ⟨hdata, hlt⟩ := h
    obtain ⟨ptr, hptr⟩ := Option.isSome_iff_exists.mp hdata
    rw [hptr] at hroom howned
    obtain ⟨blk, hblk, hlive, hle⟩ := hroom
    refine ⟨?_, ?_⟩
    · rw [hptr]
      exact ⟨blk, hblk, hlive, by simp only; omega⟩
    · rw [howned, hptr]
      simp [advance, Heap.owner]
  · have hslice : slice this first last = .null := if_neg h
    rw [hslice]
    exact ⟨rfl, rfl⟩

theorem callerView_spec {heap : Heap UInt8} {block off size : Nat} {ref : Ref}
    (h : callerView heap block off size = .ok ref) :
    ref.p = none ∧ heap.Room ref.data ref.size ∧ ref.p = heap.owner ref.data := by
  unfold callerView at h
  split at h
  · cases h
  · rename_i blk hblk
    split_ifs at h with hblock hsize
    · cases h
      exact ⟨rfl, rfl, rfl⟩
    · cases h
      exact ⟨rfl, ⟨blk, hblk, hblock.2.1, hblock.2.2⟩, by simp [Heap.owner, hblk, hblock.1]⟩

theorem State.retain_uncounted (s : State) {ref : Ref} (h : ref.p = none) : s.retain ref = s := by
  rw [State.retain, h]
  rfl

section
variable {build : Build} {malloc : Malloc} {s t : State} {flying : List Ref}

theorem push_spec {ref : Ref} (hw : s.Wf (ref :: flying)) (capacity : Option Nat) :
    (s.push ref capacity).Wf flying ∧ Quiet [s.handles.length] s (s.push ref capacity) ∧
      (s.push ref capacity).handles[s.handles.length]? = some ⟨ref, capacity⟩ := by
  refine ⟨hw.push capacity, s.push_quiet ref capacity, ?_⟩
  rw [State.push_get, if_pos rfl]

theorem State.Wf.shrink {ref : Ref} {n : Nat} (hw : s.Wf (ref :: flying)) (hn : n ≤ ref.size) :
    s.Wf ({ ref with size := n } :: flying) :=
  ⟨hw.counted.resize rfl ((hw.counted.room ref (by simp)).mono hn) rfl, hw.small⟩

theorem callerMemory_spec {region : Region} (hw : s.Wf [])
    (h : call build malloc s (.callerMemory region) = .ok t) : t.Wf [] ∧ Quiet [] s t := by
  cases h
  refine ⟨⟨hw.counted.uncounted _, State.Wf.small_append hw.small region.length_lt⟩,
    ⟨fun _ _ => rfl, Heap.append_keeps _ _⟩, Heap.append_sameCells _ _⟩

theorem construct_spec {kind : Kind} (hw : s.Wf [])
    (h : call build malloc s (.construct kind) = .ok t) :
    t.Wf [] ∧ Quiet [s.handles.length] s t ∧
      t.handles[s.handles.length]? = some ⟨.null, kind.capacity 0⟩ := by
  cases h
  exact push_spec hw.null _

theorem constructSize_spec {kind : Kind} {n : Nat} (hw : s.Wf [])
    (h : call build malloc s (.constructSize kind n) = .ok t) :
    t.Wf [] ∧ Quiet [s.handles.length] s t ∧ ∃ ref, t.heap.Room ref.data ref.size ∧
      t.handles[s.handles.length]? = some (match kind with
        | .buffer => ⟨ref, none⟩
        | .mutable => ⟨{ ref with size := 0 }, some ref.size⟩) := by
  simp only [call, bind_ok, pure_ok] at h
  obtain ⟨⟨heap, ref⟩, hallocate, rfl⟩ := h
  obtain ⟨hw', hq, -⟩ := allocate_spec hw (Nat.zero_le n) hallocate
  have hroom : heap.Room ref.data ref.size := hw'.counted.room ref (by simp)
  cases kind with
  | buffer =>
    obtain ⟨htw, htq, ht⟩ := push_spec hw' none
    exact ⟨htw, (hq.mono (by simp)).trans htq, ref, hroom, ht⟩
  | mutable =>
    obtain ⟨htw, htq, ht⟩ := push_spec (hw'.shrink (Nat.zero_le _)) (some ref.size)
    exact ⟨htw, (hq.mono (by simp)).trans htq, ref, hroom, ht⟩

theorem constructCopy_spec {region : Region} (hw : s.Wf [])
    (h : call build malloc s (.constructCopy region) = .ok t) :
    t.Wf [] ∧ Quiet [s.handles.length] s t ∧
      ∃ ref, t.handles[s.handles.length]? = some ⟨ref, none⟩ := by
  simp only [call, bind_ok, pure_ok] at h
  obtain ⟨⟨heap, ref⟩, hallocate, rfl⟩ := h
  obtain ⟨hw', hq, -⟩ := allocate_spec hw (Nat.le_refl _) hallocate
  obtain ⟨htw, htq, ht⟩ := push_spec hw' none
  exact ⟨htw, (hq.mono (by simp)).trans htq, ref, ht⟩

theorem constructWeak_spec {block off size : Nat} (hw : s.Wf [])
    (h : call build malloc s (.constructWeak block off size) = .ok t) :
    t.Wf [] ∧ Quiet [s.handles.length] s t ∧
      ∃ ref, t.handles[s.handles.length]? = some ⟨ref, none⟩ := by
  simp only [call, bind_ok, pure_ok] at h
  obtain ⟨ref, hview, rfl⟩ := h
  obtain ⟨hp, hroom, howned⟩ := callerView_spec hview
  have hw' := hw.retain hroom howned
  rw [s.retain_uncounted hp] at hw'
  obtain ⟨htw, htq, ht⟩ := push_spec hw' none
  exact ⟨htw, htq, ref, ht⟩

theorem constructDeleter_spec {region : Region} (hw : s.Wf [])
    (h : call build malloc s (.constructDeleter region) = .ok t) :
    t.Wf [] ∧ Quiet [s.handles.length] s t ∧
      ∃ ref, t.handles[s.handles.length]? = some ⟨ref, none⟩ := by
  cases h
  have hw' : State.Wf { s with heap := s.heap ++ [⟨region.bytes, some 1, false⟩] }
      [⟨some ⟨s.heap.length, 0⟩, region.bytes.length, some s.heap.length⟩] :=
    ⟨hw.counted.fresh _ _ (Nat.le_refl _), State.Wf.small_append hw.small region.length_lt⟩
  have hq : Quiet [s.handles.length] s
      { s with heap := s.heap ++ [⟨region.bytes, some 1, false⟩] } :=
    ⟨⟨fun _ _ => rfl, Heap.append_keeps _ _⟩, Heap.append_sameCells _ _⟩
  obtain ⟨htw, htq, ht⟩ := push_spec hw' none
  exact ⟨htw, hq.trans htq, _, ht⟩

theorem copyConstruct_spec {kind passed : Kind} {j : Nat} (hw : s.Wf [])
    (h : call build malloc s (.copyConstruct kind passed j) = .ok t) :
    t.Wf [] ∧ Quiet [s.handles.length] s t ∧ ∃ other capacity, s.handles[j]? = some other ∧
      State.takenCapacity kind passed other = .ok capacity ∧
      t.handles[s.handles.length]? = some ⟨other.ref, capacity⟩ := by
  simp only [call, bind_ok, handle_ok, pure_ok] at h
  obtain ⟨other, hother, capacity, hcapacity, rfl⟩ := h
  have hw' := hw.retain (hw.room hother) (hw.owned hother)
  obtain ⟨htw, htq, ht⟩ := push_spec hw' capacity
  exact ⟨htw, ((s.retain_quiet _).mono (by simp)).trans htq, other, capacity, hother, hcapacity, ht⟩

theorem moveConstruct_spec {kind passed : Kind} {j : Nat} (hw : s.Wf [])
    (h : call build malloc s (.moveConstruct kind passed j) = .ok t) :
    t.Wf [] ∧ Quiet [j, s.handles.length] s t ∧ ∃ other capacity, s.handles[j]? = some other ∧
      State.takenCapacity kind passed { other with ref := .null } = .ok capacity ∧
      t.handles[j]? = some { other with ref := .null } ∧
      t.handles[s.handles.length]? = some ⟨other.ref, capacity⟩ := by
  simp only [call, bind_ok, handle_ok, pure_ok] at h
  obtain ⟨other, hother, moved, hmoved, capacity, hcapacity, rfl⟩ := h
  have hj : (s.setRef j .null).handles[j]? = some { other with ref := .null } := by
    rw [State.setRef_get, if_pos rfl, hother]
    rfl
  obtain rfl := Option.some.inj (hj.symm.trans hmoved)
  obtain ⟨htw, htq, ht⟩ := push_spec (hw.lift hother) capacity
  have hlen : (s.setRef j .null).handles.length = s.handles.length := List.length_modify ..
  rw [hlen] at htq ht
  have hlt := (List.getElem?_eq_some_iff.mp hother).1
  refine ⟨htw, ((s.setRef_quiet j _).mono (by simp)).trans (htq.mono (by simp)), other, capacity,
    hother, hcapacity, ?_, ht⟩
  rw [htq.others j (by simp; omega)]
  exact hj

theorem copyOp_spec {j n : Nat} (hw : s.Wf []) (h : call build malloc s (.copy j n) = .ok t) :
    t.Wf [] ∧ Quiet [s.handles.length] s t ∧
      ∃ ref, t.handles[s.handles.length]? = some ⟨ref, none⟩ := by
  simp only [call, bind_ok, pure_ok] at h
  obtain ⟨this, -, ⟨heap, ref⟩, hcopy, rfl⟩ := h
  obtain ⟨hw', hq, -⟩ := copy_spec hw hcopy
  obtain ⟨htw, htq, ht⟩ := push_spec hw' none
  exact ⟨htw, (hq.mono (by simp)).trans htq, ref, ht⟩

theorem sliceOp_spec {kind : Kind} {j first last : Nat} (hw : s.Wf [])
    (h : call build malloc s (.slice kind j first last) = .ok t) :
    t.Wf [] ∧ Quiet [s.handles.length] s t ∧ ∃ this capacity, s.handles[j]? = some this ∧
      t.handles[s.handles.length]? = some ⟨slice this.ref first last, capacity⟩ ∧
      (kind = .buffer ∧ capacity = none ∨ kind = .mutable ∧ ∃ n, this.capacity = some n ∧
        capacity = some (if (slice this.ref first last).data.isSome then
          subSizeT n (min first this.ref.size) else 0)) := by
  simp only [call, bind_ok, handle_ok] at h
  obtain ⟨this, hthis, h⟩ := h
  obtain ⟨hroom, howned⟩ := slice_spec (hw.room hthis) (hw.owned hthis) first last
  have hw' := hw.retain hroom howned
  have hq : Quiet [s.handles.length] s (s.retain (slice this.ref first last)) :=
    (s.retain_quiet _).mono (by simp)
  cases kind with
  | buffer =>
    simp only [pure_ok] at h
    subst h
    obtain ⟨htw, htq, ht⟩ := push_spec hw' none
    exact ⟨htw, hq.trans htq, this, none, hthis, ht, .inl ⟨rfl, rfl⟩⟩
  | mutable =>
    simp only [bind_ok, capacity_ok, pure_ok] at h
    obtain ⟨n, ⟨this', hthis', hn⟩, rfl⟩ := h
    obtain rfl := Option.some.inj (hthis.symm.trans hthis')
    obtain ⟨htw, htq, ht⟩ := push_spec hw' (some (if (slice this.ref first last).data.isSome then
      subSizeT n (min first this.ref.size) else 0))
    exact ⟨htw, hq.trans htq, this, _, hthis, ht, .inr ⟨rfl, n, hn, rfl⟩⟩

theorem assignView_spec {i block off size : Nat} (hw : s.Wf [])
    (h : call build malloc s (.assignView i block off size) = .ok t) :
    t.Wf [] ∧ Quiet [i] s t ∧ ∃ ref, ref.p = none ∧ t.handles[i]? = some ⟨ref, none⟩ := by
  simp only [call, bind_ok, handle_ok] at h
  obtain ⟨this, hthis, ref, hview, h⟩ := h
  split_ifs at h with hplain
  · obtain ⟨hp, hroom, howned⟩ := callerView_spec hview
    have hw' := hw.retain hroom howned
    rw [s.retain_uncounted hp] at hw'
    obtain ⟨htw, htq, this', hthis', ht⟩ := assignTemporary_spec hw' h
    obtain rfl := Option.some.inj (hthis.symm.trans hthis')
    refine ⟨htw, htq, ref, hp, ?_⟩
    rw [ht, Option.isNone_iff_eq_none.mp hplain]

theorem copyAssign_spec {i j : Nat} {passed : Kind} (hw : s.Wf [])
    (h : call build malloc s (.copyAssign i passed j) = .ok t) :
    t.Wf [] ∧ Quiet [i] s t ∧ ∃ this other capacity, s.handles[i]? = some this ∧
      s.handles[j]? = some other ∧
      State.takenCapacity (State.kind this) passed
        (if i = j then { other with ref := .null } else other) = .ok capacity ∧
      t.handles[i]? = some ⟨if i = j then .null else other.ref, capacity⟩ := by
  simp only [call, bind_ok] at h
  obtain ⟨u, hu, h⟩ := h
  obtain ⟨huw, huq, this, other, hthis, hother, hui⟩ := assign_spec hw hu
  obtain ⟨this', other', capacity, hthis', hother', hcapacity, rfl⟩ := takeCapacity_spec h
  obtain rfl := Option.some.inj (hui.symm.trans hthis')
  refine ⟨huw.putCapacity i _, huq.trans (u.putCapacity_quiet i _), this, other, capacity, hthis,
    hother, ?_, ?_⟩
  · by_cases hij : i = j
    · subst hij
      obtain rfl := Option.some.inj (hthis.symm.trans hother)
      obtain rfl := Option.some.inj (hui.symm.trans hother')
      rw [if_pos rfl] at hcapacity ⊢
      exact hcapacity
    · rw [if_neg hij]
      have hj : u.handles[j]? = some other := by
        rw [huq.others j (by simpa using Ne.symm hij)]
        exact hother
      obtain rfl := Option.some.inj (hj.symm.trans hother')
      exact hcapacity
  · rw [State.putCapacity_get, if_pos rfl, hui]
    rfl

theorem moveAssign_spec {i j : Nat} {passed : Kind} (hw : s.Wf [])
    (h : call build malloc s (.moveAssign i passed j) = .ok t) :
    t.Wf [] ∧ Quiet [i, j] s t ∧ ∃ this other capacity, s.handles[i]? = some this ∧
      s.handles[j]? = some other ∧
      State.takenCapacity (State.kind this) passed { other with ref := .null } = .ok capacity ∧
      t.handles[i]? = some ⟨if i = j then .null else other.ref, capacity⟩ ∧
      (i ≠ j → t.handles[j]? = some { other with ref := .null }) := by
  simp only [call, bind_ok] at h
  obtain ⟨u, hu, h⟩ := h
  obtain ⟨huw, huq, this, other, hthis, hother, hui, huj⟩ := assignMoved_spec hw hu
  obtain ⟨this', other', capacity, hthis', hother', hcapacity, rfl⟩ := takeCapacity_spec h
  obtain rfl := Option.some.inj (hui.symm.trans hthis')
  obtain rfl := Option.some.inj (huj.symm.trans hother')
  refine ⟨huw.putCapacity i _, huq.trans ((u.putCapacity_quiet i _).mono (by simp)), this, other,
    capacity, hthis, hother, hcapacity, ?_, ?_⟩
  · rw [State.putCapacity_get, if_pos rfl, hui]
    rfl
  · intro hij
    rw [State.putCapacity_get, if_neg hij]
    exact huj

theorem swap_spec {i j : Nat} {passed : Kind} (hw : s.Wf [])
    (h : call build malloc s (.swap i passed j) = .ok t) :
    t.Wf [] ∧ Quiet [i, j] s t ∧ ∃ this other, s.handles[i]? = some this ∧
      s.handles[j]? = some other ∧
      (i ≠ j → t.handles[i]? = some { this with ref := other.ref }) ∧
      t.handles[j]? = some
        ⟨this.ref, if passed = .mutable then some this.ref.size else other.capacity⟩ := by
  simp only [call, bind_ok] at h
  obtain ⟨u, hu, h⟩ := h
  obtain ⟨huw, huq, this, other, hthis, hother, hui, huj⟩ := swapRefs_spec hw hu
  cases passed with
  | buffer =>
    simp only [pure_ok] at h
    subst h
    exact ⟨huw, huq, this, other, hthis, hother, fun _ => hui, huj⟩
  | mutable =>
    simp only [bind_ok, handle_ok, pure_ok] at h
    obtain ⟨other', hother', -, -, rfl⟩ := h
    obtain rfl := Option.some.inj (huj.symm.trans hother')
    refine ⟨huw.putCapacity j _, huq.trans ((u.putCapacity_quiet j _).mono (by simp)), this, other,
      hthis, hother, ?_, ?_⟩
    · intro hij
      rw [State.putCapacity_get, if_neg (Ne.symm hij)]
      exact hui
    · rw [State.putCapacity_get, if_pos rfl, huj]
      rfl

theorem reset_spec {i : Nat} (hw : s.Wf []) (h : call build malloc s (.reset i) = .ok t) :
    t.Wf [] ∧ Quiet [i] s t ∧ ∃ this, s.handles[i]? = some this ∧
      t.handles[i]? = some ⟨.null, (State.kind this).capacity 0⟩ := by
  simp only [call, bind_ok, handle_ok, pure_ok] at h
  obtain ⟨u, hu, this', hthis', rfl⟩ := h
  obtain ⟨huw, huq, this, hthis, hui⟩ := release_spec hw hu
  obtain rfl := Option.some.inj (hui.symm.trans hthis')
  refine ⟨huw.putCapacity i _, huq.trans (u.putCapacity_quiet i _), this, hthis, ?_⟩
  rw [State.putCapacity_get, if_pos rfl, hui]
  rfl

theorem clear_spec {i : Nat} (hw : s.Wf []) (h : call build malloc s (.clear i) = .ok t) :
    t.Wf [] ∧ Quiet [i] s t ∧ ∃ this, s.handles[i]? = some this ∧
      t.handles[i]? = some { this with ref := { this.ref with size := 0 } } := by
  simp only [call, bind_ok, capacity_ok, pure_ok] at h
  obtain ⟨-, ⟨this, hthis, -⟩, rfl⟩ := h
  refine ⟨hw.resize hthis ((hw.room hthis).mono (Nat.zero_le _)), s.resize_quiet i 0, this, hthis,
    ?_⟩
  rw [State.resize_get, if_pos rfl, hthis]
  rfl

end

end Libnodecc.Buffer
