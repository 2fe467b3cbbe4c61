import Libnodecc.Buffer.HandleSpecs

namespace Libnodecc.Buffer

open Util

section
variable {s t : State} {flying : List Ref} {i j : Nat}

theorem release_spec (hw : s.Wf flying) (h : s.release i = .ok t) :
    t.Wf flying ∧ Quiet [i] s t ∧
      ∃ this, s.handles[i]? = some this ∧ t.handles[i]? = some { this with ref := .null } := by
  simp only [State.release, bind_ok, handle_ok, pure_ok] at h
  obtain ⟨this, hthis, rfl⟩ := h
  refine ⟨(hw.lift hthis).drop, ⟨⟨?_, Heap.release_keeps _ _⟩, Heap.release_sameCells _ _⟩, this,
    hthis, ?_⟩
  · exact (s.setRef_quiet i .null).others
  · rw [State.setRef_get, if_pos rfl, hthis]
    rfl

theorem assignTemporary_spec {ref : Ref} (hw : s.Wf (ref :: flying))
    (h : s.assignTemporary i ref = .ok t) :
    t.Wf flying ∧ Quiet [i] s t ∧
      ∃ this, s.handles[i]? = some this ∧ t.handles[i]? = some { this with ref := ref } := by
  simp only [State.assignTemporary, bind_ok, pure_ok] at h
  obtain ⟨u, hu, rfl⟩ := h
  obtain ⟨huw, huq, this, hthis, hu⟩ := release_spec hw hu
  refine ⟨huw.land hu rfl, huq.trans (u.setRef_quiet i ref), this, hthis, ?_⟩
  rw [State.setRef_get, if_pos rfl, hu]
  rfl

theorem assign_spec (hw : s.Wf flying) (h : s.assign i j = .ok t) :
    t.Wf flying ∧ Quiet [i] s t ∧
      ∃ this other, s.handles[i]? = some this ∧ s.handles[j]? = some other ∧
        t.handles[i]? = some { this with ref := if i = j then .null else other.ref } := by
  simp only [State.assign, bind_ok, handle_ok, pure_ok] at h
  obtain ⟨u, hu, other, hother, rfl⟩ := h
  obtain ⟨huw, huq, this, hthis, hu⟩ := release_spec hw hu
  have hret := huw.retain (huw.room hother) (huw.owned hother)
  refine ⟨hret.land hu rfl, ?_, ?_⟩
  · exact (huq.trans ((u.retain_quiet _).mono (by simp))).trans (State.setRef_quiet _ i _)
  · by_cases hij : i = j
    · subst hij
      obtain rfl := Option.some.inj (hu.symm.trans hother)
      refine ⟨this, this, hthis, hthis, ?_⟩
      rw [State.setRef_get, if_pos rfl, State.retain_handles, hu, if_pos rfl]
      rfl
    · have hj : s.handles[j]? = some other := by
        rw [← huq.others j (by simpa using Ne.symm hij)]
        exact hother
      refine ⟨this, other, hthis, hj, ?_⟩
      rw [State.setRef_get, if_pos rfl, State.retain_handles, hu, if_neg hij]
      rfl

theorem setRef_null_setRef (s : State) (i j : Nat) (hij : i ≠ j) (ref ref' : Ref) :
    (((s.setRef i .null).setRef j .null).setRef i ref).setRef j ref' =
      (s.setRef i ref).setRef j ref' := by
  have hhandles : ((((s.setRef i .null).setRef j .null).setRef i ref).setRef j ref').handles =
      ((s.setRef i ref).setRef j ref').handles := by
    apply List.ext_getElem?
    intro k
    simp only [State.setRef_get]
    by_cases hi : i = k
    · have hj : j ≠ k := fun hj => hij (hi.trans hj.symm)
      simp only [if_pos hi, if_neg hj]
      cases s.handles[k]? <;> rfl
    · simp only [if_neg hi]
      split_ifs
      · cases s.handles[k]? <;> rfl
      · rfl
  exact congrArg (State.mk s.heap) hhandles

theorem setRef_self (s : State) {i : Nat} {h : Handle} (hh : s.handles[i]? = some h) :
    s.setRef i h.ref = s := by
  have hhandles : (s.setRef i h.ref).handles = s.handles := by
    apply List.ext_getElem?
    intro k
    rw [State.setRef_get]
    split_ifs with hk
    · rw [← hk, hh]
      rfl
    · rfl
  exact congrArg (State.mk s.heap) hhandles

theorem swapRefs_spec (hw : s.Wf flying) (h : s.swapRefs i j = .ok t) :
    t.Wf flying ∧ Quiet [i, j] s t ∧
      ∃ this other, s.handles[i]? = some this ∧ s.handles[j]? = some other ∧
        t.handles[i]? = some { this with ref := other.ref } ∧
        t.handles[j]? = some { other with ref := this.ref } := by
  simp only [State.swapRefs, bind_ok, handle_ok, pure_ok] at h
  obtain ⟨this, hthis, other, hother, rfl⟩ := h
  have hquiet : Quiet [i, j] s ((s.setRef i other.ref).setRef j this.ref) :=
    ((s.setRef_quiet i _).mono (by simp)).trans ((State.setRef_quiet _ j _).mono (by simp))
  by_cases hij : i = j
  · subst hij
    obtain rfl := Option.some.inj (hthis.symm.trans hother)
    rw [setRef_self s hthis, setRef_self s hthis]
    exact ⟨hw, Quiet.refl _ _, this, this, hthis, hthis, hthis, hthis⟩
  · refine ⟨?_, hquiet, this, other, hthis, hother, ?_, ?_⟩
    · have h1 := hw.lift hthis
      have hj : (s.setRef i .null).handles[j]? = some other := by
        rw [State.setRef_get, if_neg hij, hother]
      have h2 := h1.lift hj
      have hi : ((s.setRef i .null).setRef j .null).handles[i]? =
          some { this with ref := .null } := by
        rw [State.setRef_get, if_neg (Ne.symm hij), State.setRef_get, if_pos rfl, hthis]
        rfl
      have h3 := h2.land hi rfl
      have hj' : (((s.setRef i .null).setRef j .null).setRef i other.ref).handles[j]? =
          some { other with ref := .null } := by
        rw [State.setRef_get, if_neg hij, State.setRef_get, if_pos rfl, hj]
        rfl
      have h4 := h3.land hj' rfl
      rw [setRef_null_setRef s i j hij] at h4
      exact h4
    · rw [State.setRef_get, if_neg (Ne.symm hij), State.setRef_get, if_pos rfl, hthis]
      rfl
    · rw [State.setRef_get, if_pos rfl, State.setRef_get, if_neg hij, hother]
      rfl

theorem assignMoved_spec (hw : s.Wf flying) (h : s.assignMoved i j = .ok t) :
    t.Wf flying ∧ Quiet [i, j] s t ∧
      ∃ this other, s.handles[i]? = some this ∧ s.handles[j]? = some other ∧
        t.handles[i]? = some { this with ref := if i = j then .null else other.ref } ∧
        t.handles[j]? = some { other with ref := .null } := by
  simp only [State.assignMoved, bind_ok] at h
  obtain ⟨u, hu, h⟩ := h
  obtain ⟨huw, huq, this, hthis, hui⟩ := release_spec hw hu
  obtain ⟨htw, htq, this', other, hthis', hother, hti, htj⟩ := swapRefs_spec huw h
  obtain rfl := Option.some.inj (hui.symm.trans hthis')
  have huq' : Quiet [i, j] s u := huq.mono (by simp)
  have hquiet := huq'.trans htq
  by_cases hij : i = j
  · subst hij
    obtain rfl := Option.some.inj (hui.symm.trans hother)
    exact ⟨htw, hquiet, this, this, hthis, hthis, by rw [if_pos rfl]; exact hti, htj⟩
  · have hj : s.handles[j]? = some other := by
      rw [← huq.others j (by simpa using Ne.symm hij)]
      exact hother
    exact ⟨htw, hquiet, this, other, hthis, hj, by rw [if_neg hij]; exact hti, htj⟩

theorem takeCapacity_spec {passed : Kind} (h : s.takeCapacity i passed j = .ok t) :
    ∃ this other capacity, s.handles[i]? = some this ∧ s.handles[j]? = some other ∧
      State.takenCapacity (State.kind this) passed other = .ok capacity ∧
      t = s.putCapacity i capacity := by
  simp only [State.takeCapacity, bind_ok, handle_ok, pure_ok] at h
  obtain ⟨this, hthis, other, hother, capacity, hcapacity, rfl⟩ := h
  exact ⟨this, other, capacity, hthis, hother, hcapacity, rfl⟩

variable {malloc : Malloc} {heap : Heap UInt8} {ref : Ref} {n : Nat}

theorem allocate_spec {content : Bytes} (hw : s.Wf flying) (hc : content.length ≤ n)
    (h : allocate malloc s.heap n content = .ok (heap, ref)) :
    ({ s with heap := heap } : State).Wf (ref :: flying) ∧
      Quiet [] s { s with heap := heap } ∧
      (n = 0 ∧ ref = .null ∨
        0 < n ∧ ref = ⟨some ⟨s.heap.length, 0⟩, n, some s.heap.length⟩) := by
  unfold allocate at h
  split_ifs at h with hn
  · cases h
    exact ⟨hw.null, Quiet.refl _ _, .inl ⟨hn, rfl⟩⟩
  · split at h
    · cases h
    · rename_i bs hserve
      obtain ⟨hlen, hlt⟩ := malloc.served _ _ _ hserve
      cases h
      have hcells : (content ++ bs.drop content.length).length = n := by
        simp only [List.length_append, List.length_drop]
        omega
      refine ⟨⟨hw.counted.fresh _ n hcells.ge, ?_⟩,
        ⟨⟨fun _ _ => rfl, Heap.append_keeps _ _⟩, Heap.append_sameCells _ _⟩,
        .inr ⟨Nat.pos_of_ne_zero hn, rfl⟩⟩
      exact State.Wf.small_append hw.small (hcells ▸ hlt)

theorem copy_allocates {heap heap' : Heap UInt8} {this : Ref}
    (h : copy malloc heap this n = .ok (heap', ref)) :
    ∃ content : Bytes, content.length ≤ (if n = 0 then this.size else n) ∧
      allocate malloc heap (if n = 0 then this.size else n) content = .ok (heap', ref) := by
  simp only [copy, bind_ok] at h
  obtain ⟨content, hcontent, h⟩ := h
  refine ⟨content, ?_, h⟩
  by_cases hdata : this.data.isSome = true
  · rw [if_pos hdata, defined_ok, Heap.read_eq_some] at hcontent
    rw [← hcontent.2, hcontent.1.cellsAt_length]
    exact Nat.min_le_left _ _
  · rw [if_neg hdata, pure_ok] at hcontent
    rw [← hcontent]
    exact Nat.zero_le _

theorem copy_spec {this : Ref} (hw : s.Wf flying)
    (h : copy malloc s.heap this n = .ok (heap, ref)) :
    ({ s with heap := heap } : State).Wf (ref :: flying) ∧
      Quiet [] s { s with heap := heap } ∧
      (ref = .null ∨ ∃ m, 0 < m ∧ (n ≠ 0 → m = n) ∧
        ref = ⟨some ⟨s.heap.length, 0⟩, m, some s.heap.length⟩) := by
  obtain ⟨content, hlen, h⟩ := copy_allocates h
  obtain ⟨htw, htq, ⟨-, rfl⟩ | ⟨hpos, rfl⟩⟩ := allocate_spec hw hlen h
  · exact ⟨htw, htq, .inl rfl⟩
  · refine ⟨htw, htq, .inr ⟨_, hpos, ?_, rfl⟩⟩
    intro hn
    rw [if_neg hn]

theorem reallocate_spec (hw : s.Wf flying) (hn : 0 < n) (h : s.reallocate malloc i n = .ok t) :
    t.Wf flying ∧ Quiet [i] s t ∧
      t.handles[i]? = some ⟨⟨some ⟨s.heap.length, 0⟩, n, some s.heap.length⟩, some n⟩ := by
  simp only [State.reallocate, bind_ok, handle_ok, pure_ok] at h
  obtain ⟨this, hthis, ⟨heap, temporary⟩, hcopy, u, hu, rfl⟩ := h
  obtain ⟨hcw, hcq, htemp⟩ := copy_spec hw hcopy
  obtain ⟨huw, huq, this', -, hui⟩ := assignTemporary_spec hcw hu
  have hquiet : Quiet [i] s (u.putCapacity i (some temporary.size)) :=
    ((hcq.mono (by simp)).trans huq).trans (u.putCapacity_quiet i _)
  refine ⟨huw.putCapacity i _, hquiet, ?_⟩
  rw [State.putCapacity_get, if_pos rfl, hui]
  rcases htemp with rfl | ⟨m, hm, hmn, rfl⟩
  · -- a copy of `n` bytes is never empty
    simp only [copy, bind_ok, if_neg (Nat.pos_iff_ne_zero.mp hn)] at hcopy
    obtain ⟨content, -, hcopy⟩ := hcopy
    unfold allocate at hcopy
    rw [if_neg (Nat.pos_iff_ne_zero.mp hn)] at hcopy
    split at hcopy
    · cases hcopy
    · cases hcopy
  · obtain rfl := hmn (Nat.pos_iff_ne_zero.mp hn)
    rfl

/-- The state after the contents of a handle were moved to a block of their own. -/
structure Moved (s t : State) (i size : Nat) : Prop where
  wf : t.Wf []
  quiet : Quiet [i] s t
  fresh : ∃ capacity, size ≤ capacity ∧ t.heap.Room (some ⟨s.heap.length, 0⟩) capacity ∧
    t.handles[i]? = some ⟨⟨some ⟨s.heap.length, 0⟩, size, some s.heap.length⟩, some capacity⟩

theorem moved_of_reallocate {u : State} {capacity size : Nat} (hw : s.Wf []) (hpos : 0 < capacity)
    (hsize : size ≤ capacity) (h : s.reallocate malloc i capacity = .ok u) :
    Moved s (u.resize i size) i size := by
  obtain ⟨huw, huq, hui⟩ := reallocate_spec hw hpos h
  have hroom : u.heap.Room (some ⟨s.heap.length, 0⟩) capacity := huw.room hui
  refine ⟨huw.resize hui (hroom.mono hsize), huq.trans (u.resize_quiet i size), capacity, hsize,
    hroom, ?_⟩
  rw [State.resize_get, if_pos rfl, hui]
  rfl

/-- Room for `n` more bytes: within the capacity, or in a new block. -/
theorem expandSize_spec {p : Option Ptr} (hw : s.Wf []) (h : s.expandSize malloc i n = .ok (t, p)) :
    ∃ this capacity, s.handles[i]? = some this ∧ this.capacity = some capacity ∧
      (sizeT (n + this.ref.size) ≤ capacity ∧ t = s.resize i (sizeT (n + this.ref.size)) ∧
          p = advance this.ref.data this.ref.size ∨
        capacity < sizeT (n + this.ref.size) ∧ Moved s t i (sizeT (n + this.ref.size)) ∧
          p = some ⟨s.heap.length, this.ref.size⟩) := by
  simp only [State.expandSize, bind_ok, handle_ok, capacity_ok] at h
  obtain ⟨prev, hprev, capacity, ⟨prev', hprev', hcapacity⟩, u, hu, this, hthis, h⟩ := h
  obtain rfl := Option.some.inj (hprev.symm.trans hprev')
  refine ⟨prev, capacity, hprev, hcapacity, ?_⟩
  by_cases hlt : capacity < sizeT (n + prev.ref.size)
  · rw [if_pos hlt] at hu
    right
    have hmax : sizeT (n + prev.ref.size) ≤
        max 16 (max (sizeT (n + prev.ref.size)) (sizeT (capacity + capacity / 2))) := by omega
    have hmoved : Moved s (u.resize i (sizeT (n + prev.ref.size))) i (sizeT (n + prev.ref.size)) :=
      moved_of_reallocate hw (by omega) hmax hu
    obtain ⟨-, -, hui⟩ := reallocate_spec hw (by omega) hu
    obtain rfl := Option.some.inj (hui.symm.trans hthis)
    simp only [pure_ok, Prod.mk.injEq] at h
    obtain ⟨rfl, rfl⟩ := h
    refine ⟨hlt, hmoved, ?_⟩
    simp [advance]
  · rw [if_neg hlt, pure_ok] at hu
    subst hu
    obtain rfl := Option.some.inj (hprev.symm.trans hthis)
    left
    cases hd : prev.ref.data with
    | some ptr =>
      rw [hd] at h
      simp only [pure_ok, Prod.mk.injEq] at h
      obtain ⟨rfl, rfl⟩ := h
      exact ⟨Nat.le_of_not_lt hlt, rfl, rfl⟩
    | none =>
      rw [hd] at h
      by_cases hz : prev.ref.size = 0
      · simp only [hz, if_true, pure_ok, Prod.mk.injEq] at h
        obtain ⟨rfl, rfl⟩ := h
        rw [hz] at hlt ⊢
        exact ⟨Nat.le_of_not_lt hlt, rfl, rfl⟩
      · simp only [hz, if_false] at h
        cases h

theorem append_spec {data : Heap UInt8 → Option Bytes} (h : s.append malloc i n data = .ok t) :
    ∃ u p, s.expandSize malloc i n = .ok (u, p) ∧
      (p = none ∧ t = u ∨ ∃ ptr bytes heap, p = some ptr ∧ data u.heap = some bytes ∧
        u.heap.write ptr bytes = some heap ∧ t = { u with heap := heap }) := by
  simp only [State.append, bind_ok] at h
  obtain ⟨⟨u, p⟩, hu, h⟩ := h
  refine ⟨u, p, hu, ?_⟩
  cases p with
  | none => exact .inl ⟨rfl, (pure_ok.mp h).symm⟩
  | some ptr =>
    simp only [bind_ok, defined_ok, pure_ok] at h
    obtain ⟨bytes, hbytes, heap, hheap, rfl⟩ := h
    exact .inr ⟨ptr, bytes, heap, rfl, hbytes, hheap, rfl⟩

theorem setSize_spec {size : Nat} (hw : s.Wf []) (h : s.setSize malloc i size = .ok t) :
    ∃ this capacity, s.handles[i]? = some this ∧ this.capacity = some capacity ∧
      (size ≤ capacity ∧ capacity < sizeT (size + size / 2) ∧ t = s.resize i size ∨
        Moved s t i size) := by
  simp only [State.setSize, bind_ok, capacity_ok, pure_ok] at h
  obtain ⟨capacity, ⟨this, hthis, hcapacity⟩, u, hu, capacity', ⟨this', hthis', hcapacity'⟩, rfl⟩ :=
    h
  refine ⟨this, capacity, hthis, hcapacity, ?_⟩
  have hmoved (n : Nat) (hn : 16 ≤ n) (hsize : size ≤ n) (hu : s.reallocate malloc i n = .ok u) :
      Moved s (u.resize i (min capacity' size)) i size := by
    obtain ⟨-, -, hui⟩ := reallocate_spec hw (by omega) hu
    obtain rfl := Option.some.inj (hui.symm.trans hthis')
    obtain rfl := Option.some.inj hcapacity'
    rw [Nat.min_eq_right hsize]
    exact moved_of_reallocate hw (by omega) hsize hu
  by_cases hlt : capacity < size
  · rw [if_pos hlt] at hu
    exact .inr (hmoved _ (by omega) (by omega) hu)
  · rw [if_neg hlt] at hu
    by_cases hmuch : sizeT (size + size / 2) ≤ capacity
    · rw [if_pos hmuch] at hu
      exact .inr (hmoved _ (by omega) (by omega) hu)
    · rw [if_neg hmuch, pure_ok] at hu
      subst hu
      obtain rfl := Option.some.inj (hthis.symm.trans hthis')
      obtain rfl := Option.some.inj (hcapacity.symm.trans hcapacity')
      rw [Nat.min_eq_right (by omega)]
      exact .inl ⟨by omega, by omega, rfl⟩

theorem resize_resize (s : State) (i size size' : Nat) :
    (s.resize i size).resize i size' = s.resize i size' := by
  have hhandles : ((s.resize i size).resize i size').handles = (s.resize i size').handles := by
    apply List.ext_getElem?
    intro k
    simp only [State.resize_get]
    split_ifs
    · cases s.handles[k]? <;> rfl
    · rfl
  exact congrArg (State.mk s.heap) hhandles

/-- `set_capacity` keeps the contents, or cuts them. -/
theorem setCapacity_spec {capacity : Nat} (hw : s.Wf [])
    (h : s.setCapacity malloc i capacity = .ok t) :
    ∃ this, s.handles[i]? = some this ∧ this.capacity.isSome ∧
      (t = s.resize i (min this.ref.size capacity) ∨
        Moved s t i (min this.ref.size capacity)) := by
  simp only [State.setCapacity, bind_ok, handle_ok, pure_ok] at h
  obtain ⟨prev, hprev, u, hu, this, hthis, rfl⟩ := h
  obtain ⟨prev', capacity', hprev', hcapacity', hu⟩ := setSize_spec hw hu
  obtain rfl := Option.some.inj (hprev.symm.trans hprev')
  refine ⟨prev, hprev, by simp [hcapacity'], ?_⟩
  rcases hu with ⟨-, -, rfl⟩ | hmoved
  · left
    rw [State.resize_get, if_pos rfl, hprev] at hthis
    obtain rfl := Option.some.inj hthis
    simp only [resize_resize]
    split_ifs with hlt
    · rw [Nat.min_eq_left (Nat.le_of_lt hlt)]
    · rw [Nat.min_eq_right (Nat.le_of_not_lt hlt)]
  · right
    obtain ⟨n, hn, hroom, hui⟩ := hmoved.fresh
    obtain rfl := Option.some.inj (hui.symm.trans hthis)
    simp only
    split_ifs with hlt
    · rw [Nat.min_eq_left (Nat.le_of_lt hlt)]
      refine ⟨hmoved.wf.resize hui (hroom.mono (by omega)),
        hmoved.quiet.trans (u.resize_quiet i _), n, by omega, hroom, ?_⟩
      rw [State.resize_get, if_pos rfl, hui]
      rfl
    · rw [Nat.min_eq_right (Nat.le_of_not_lt hlt)]
      exact hmoved

end

end Libnodecc.Buffer
