import Libnodecc.Buffer.Definedness
import Libnodecc.Buffer.Representation
import Libnodecc.Buffer.ValueSemantics

namespace Libnodecc.Buffer

open Util

/-- A `mutable_buffer` whose capacity lies in its block. -/
structure State.WellFormed (s : State) (i : Nat) : Prop where
  wf : s.Wf []
  has : s.Has .mutable i
  covers : s.At i fun this => Covers s.heap this.ref this.capacity

section
variable {malloc : Malloc} {s t : State} {i n : Nat} {this : Handle}

theorem State.WellFormed.grows (hs : s.WellFormed i) (hthis : s.handles[i]? = some this) (m : Nat) :
    this.Grows s.heap m :=
  fun c hc hle => (hs.covers this hthis c hc).2.mono hle

theorem fresh_wellFormed : (State.init.push .null (some 0)).WellFormed 0 := by
  refine ⟨init_wf.null.push (some 0), rfl, ?_⟩
  intro this hthis
  cases hthis
  exact Covers.null [] (some 0) rfl

theorem wellFormed_of_run {build : Build} (ops : List Op)
    (hops : Along (step build malloc) (fun s op => op.Tracks s) State.init ops)
    (ht : run (step build malloc) State.init ops = some t) (hi : t.Has .mutable i) :
    t.WellFormed i := by
  obtain ⟨htw, hr⟩ := run_represents ops hops ht
  exact ⟨htw, hi, fun this hthis => hr i this hthis⟩

theorem allocate_cells {heap heap' : Heap UInt8} {content : Bytes} {ref : Ref} (hn : n ≠ 0)
    (h : allocate malloc heap n content = .ok (heap', ref)) :
    heap'.cellsAt (some ⟨heap.length, 0⟩) content.length = content := by
  unfold allocate at h
  rw [if_neg hn] at h
  split at h
  · cases h
  · cases h
    simp [Heap.cellsAt]

theorem cellsAt_take {heap : Heap UInt8} {data : Option Ptr} {m : Nat} (hm : m ≤ n) :
    (heap.cellsAt data n).take m = heap.cellsAt data m := by
  cases data with
  | none => exact List.take_nil
  | some ptr =>
    simp only [Heap.cellsAt, List.take_take]
    rw [Nat.min_eq_left hm]

/-- A new block starts with what the handle showed, as far as there is room for it. -/
theorem reallocate_cells {m : Nat} (hw : s.Wf []) (hthis : s.handles[i]? = some this)
    (hn : n ≠ 0) (hmn : m ≤ n) (hm : m ≤ this.ref.size) (h : s.reallocate malloc i n = .ok t) :
    t.heap.cellsAt (some ⟨s.heap.length, 0⟩) m = s.heap.cellsAt this.ref.data m := by
  simp only [State.reallocate, bind_ok, handle_ok, pure_ok] at h
  obtain ⟨this', hthis', ⟨heap, temporary⟩, hcopy, v, hv, rfl⟩ := h
  obtain rfl := Option.some.inj (hthis.symm.trans hthis')
  simp only [State.assignTemporary, State.release, bind_ok, handle_ok, pure_ok] at hv
  obtain ⟨v', ⟨this', hthis', rfl⟩, rfl⟩ := hv
  obtain rfl := Option.some.inj (hthis.symm.trans hthis')
  have hroom := (hw.room hthis).mono (Nat.min_le_right n this.ref.size)
  have hlen := hroom.cellsAt_length
  have hcontent : allocate malloc s.heap n
      (s.heap.cellsAt this.ref.data (min n this.ref.size)) = .ok (heap, temporary) := by
    simp only [copy, bind_ok, if_neg hn] at hcopy
    obtain ⟨content, hcontent, hcopy⟩ := hcopy
    cases hd : this.ref.data with
    | none =>
      rw [hd] at hcontent
      cases pure_ok.mp hcontent
      exact hcopy
    | some ptr =>
      rw [hd] at hcontent
      obtain ⟨-, rfl⟩ := Heap.read_eq_some.mp (defined_ok.mp hcontent)
      exact hcopy
  have hcells := allocate_cells hn hcontent
  rw [hlen] at hcells
  have hnew : heap.Room (some ⟨s.heap.length, 0⟩) m := by
    obtain ⟨hsw, -, ⟨hz, -⟩ | ⟨-, rfl⟩⟩ := allocate_spec hw (by omega) hcontent
    · exact absurd hz hn
    · have hfresh : heap.Room (some ⟨s.heap.length, 0⟩) n :=
        hsw.counted.room _ (List.mem_cons_self ..)
      exact hfresh.mono hmn
  have hle : m ≤ min n this.ref.size := by omega
  change (heap.release this.ref.p).cellsAt _ _ = _
  rw [Heap.cellsAt_sameCells (Heap.release_sameCells heap this.ref.p) hnew, ← cellsAt_take hle,
    hcells, cellsAt_take hle]

theorem reallocate_resized {N size : Nat} (hw : s.Wf []) (hthis : s.handles[i]? = some this)
    (hN : N ≠ 0) (hsize : size ≤ N) (h : s.reallocate malloc i N = .ok t) :
    (t.resize i size).Wf [] ∧
      ∃ data p, (t.resize i size).handles[i]? = some ⟨⟨data, size, p⟩, some N⟩ ∧
        t.heap.Room data N ∧
        ∀ m ≤ this.ref.size, m ≤ N → t.heap.cellsAt data m = s.heap.cellsAt this.ref.data m := by
  have hmoved := moved_of_reallocate hw (Nat.pos_of_ne_zero hN) hsize h
  obtain ⟨htw, -, hti⟩ := reallocate_spec hw (Nat.pos_of_ne_zero hN) h
  refine ⟨hmoved.wf, some ⟨s.heap.length, 0⟩, some s.heap.length, ?_, htw.room hti,
    fun m hm hmN => ?_⟩
  · rw [State.resize_get, if_pos rfl, hti]
    rfl
  · exact reallocate_cells hw hthis hN hmN hm h

/-- `set_size` in one statement: the new size, the capacity, and the bytes that stay. -/
theorem setSize_resized {size : Nat} (hs : s.WellFormed i) (hthis : s.handles[i]? = some this)
    (h : s.setSize malloc i size = .ok t) :
    t.Wf [] ∧ ∃ data p capacity, t.handles[i]? = some ⟨⟨data, size, p⟩, some capacity⟩ ∧
      t.heap.Room data capacity ∧ size ≤ capacity ∧ capacity ≤ max 16 (size + size / 2) ∧
      ∀ m ≤ min this.ref.size size, t.heap.cellsAt data m = s.heap.cellsAt this.ref.data m := by
  simp only [State.setSize, bind_ok, capacity_ok, pure_ok] at h
  obtain ⟨capacity, ⟨this', hthis', hcapacity⟩, u, hu, capacity', ⟨now, hnow, hcapacity'⟩, rfl⟩ := h
  obtain rfl := Option.some.inj (hthis.symm.trans hthis')
  obtain ⟨hle, hroom⟩ := hs.covers this hthis capacity hcapacity
  have hsmall := room_lt hs.wf hroom
  have hmoved (N : Nat) (hN : N ≠ 0) (hsize : size ≤ N) (hbound : N ≤ max 16 (size + size / 2))
      (hu : s.reallocate malloc i N = .ok u) : (u.resize i (min capacity' size)).Wf [] ∧
      ∃ data p capacity, (u.resize i (min capacity' size)).handles[i]? =
          some ⟨⟨data, size, p⟩, some capacity⟩ ∧ u.heap.Room data capacity ∧ size ≤ capacity ∧
        capacity ≤ max 16 (size + size / 2) ∧ ∀ m ≤ min this.ref.size size,
          (u.resize i (min capacity' size)).heap.cellsAt data m =
            s.heap.cellsAt this.ref.data m := by
    obtain ⟨-, -, hui⟩ := reallocate_spec hs.wf (Nat.pos_of_ne_zero hN) hu
    obtain rfl := Option.some.inj (hui.symm.trans hnow)
    obtain rfl := Option.some.inj hcapacity'
    rw [Nat.min_eq_right hsize]
    obtain ⟨htw, data, p, hget, hroom, hcells⟩ := reallocate_resized hs.wf hthis hN hsize hu
    exact ⟨htw, data, p, N, hget, hroom, hsize, hbound, fun m hm => hcells m (by omega) (by omega)⟩
  by_cases hlt : capacity < size
  · rw [if_pos hlt] at hu
    have hgrowth : sizeT (capacity + capacity / 2) = capacity + capacity / 2 :=
      sizeT_of_lt _ (by omega)
    rw [hgrowth] at hu
    exact hmoved _ (by omega) (by omega) (by omega) hu
  · rw [if_neg hlt] at hu
    have hhalf : sizeT (size + size / 2) = size + size / 2 := sizeT_of_lt _ (by omega)
    rw [hhalf] at hu
    by_cases hmuch : size + size / 2 ≤ capacity
    · rw [if_pos hmuch] at hu
      exact hmoved _ (by omega) (by omega) (by omega) hu
    · rw [if_neg hmuch, pure_ok] at hu
      subst hu
      obtain rfl := Option.some.inj (hthis.symm.trans hnow)
      obtain rfl := Option.some.inj (hcapacity.symm.trans hcapacity')
      rw [Nat.min_eq_right (by omega)]
      refine ⟨hs.wf.resize hthis (hroom.mono (by omega)), this.ref.data, this.ref.p, capacity, ?_,
        hroom, by omega, by omega, fun m _ => rfl⟩
      rw [State.resize_get, if_pos rfl, hthis, ← hcapacity]
      rfl

theorem setSize_cut {size : Nat} (hs : s.WellFormed i) (hthis : s.handles[i]? = some this)
    (hsize : size ≤ this.ref.size) (h : s.setSize malloc i size = .ok t) :
    t.shown i = some ((s.heap.cellsAt this.ref.data this.ref.size).take size) := by
  obtain ⟨htw, data, p, capacity, hti, -, -, -, hcells⟩ := setSize_resized hs hthis h
  rw [shown_of_get htw hti, cellsAt_take hsize]
  exact congrArg some (hcells size (by omega))

/-- More room for a handle: it shows what it showed, and the new bytes come right behind. -/
theorem expandSize_own_cells {u : State} {p : Option Ptr} (hw : s.Wf [])
    (hthis : s.handles[i]? = some this) (hn : this.ref.size ≤ sizeT (n + this.ref.size))
    (h : s.expandSize malloc i n = .ok (u, p)) :
    ∃ h', u.handles[i]? = some h' ∧ h'.ref.size = sizeT (n + this.ref.size) ∧
      p = advance h'.ref.data this.ref.size ∧
      u.heap.cellsAt h'.ref.data this.ref.size =
        s.heap.cellsAt this.ref.data this.ref.size := by
  obtain ⟨this', capacity, hthis', hcapacity, ⟨-, rfl, rfl⟩ | ⟨hlt, hmoved, rfl⟩⟩ :=
    expandSize_spec hw h
  · obtain rfl := Option.some.inj (hthis.symm.trans hthis')
    have hget : (s.resize i (sizeT (n + this.ref.size))).handles[i]? =
        some { this with ref := { this.ref with size := sizeT (n + this.ref.size) } } := by
      rw [State.resize_get, if_pos rfl, hthis]
      rfl
    exact ⟨_, hget, rfl, rfl, rfl⟩
  · obtain rfl := Option.some.inj (hthis.symm.trans hthis')
    obtain ⟨N, -, -, hui⟩ := hmoved.fresh
    refine ⟨_, hui, rfl, ?_, ?_⟩
    · simp [advance]
    · simp only [State.expandSize, bind_ok, handle_ok, capacity_ok] at h
      obtain ⟨prev, hprev, capacity', ⟨prev', hprev', hcapacity'⟩, v, hv, now, hnow, h⟩ := h
      obtain rfl := Option.some.inj (hthis.symm.trans hprev)
      obtain rfl := Option.some.inj (hthis.symm.trans hprev')
      obtain rfl := Option.some.inj (hcapacity.symm.trans hcapacity')
      rw [if_pos hlt] at hv
      have hcells := reallocate_cells hw hthis (by omega) (by omega) (Nat.le_refl _) hv
      have hheap : u.heap = v.heap := by
        split at h
        · obtain ⟨rfl, -⟩ := Prod.mk.inj (pure_ok.mp h)
          rfl
        · split_ifs at h
          obtain ⟨rfl, -⟩ := Prod.mk.inj (pure_ok.mp h)
          rfl
      rw [hheap]
      exact hcells

/-- An append of bytes to a handle puts them behind what it shows. -/
theorem append_shown {data : Heap UInt8 → Option Bytes} {bytes : Bytes} (hw : s.Wf [])
    (hthis : s.handles[i]? = some this)
    (hg : this.Grows s.heap (sizeT (n + this.ref.size))) (hlt : n < 2^63)
    (hlen : bytes.length = n)
    (hdata : ∀ u p, s.expandSize malloc i n = .ok (u, p) → data u.heap = some bytes)
    (h : s.append malloc i n data = .ok t) :
    t.shown i = some (s.heap.cellsAt this.ref.data this.ref.size ++ bytes) := by
  have hsize := size_lt hw hthis
  have hsum : sizeT (n + this.ref.size) = n + this.ref.size := sizeT_of_lt _ (by omega)
  have hgrows : ∀ h, s.handles[i]? = some h → h.Grows s.heap (sizeT (n + h.ref.size)) := by
    intro h hh
    obtain rfl := Option.some.inj (hthis.symm.trans hh)
    exact hg
  obtain ⟨u, p, hu, happ⟩ := append_spec h
  obtain ⟨huw, -, -⟩ := expandSize_appended hw hgrows hu
  obtain ⟨h', hh', hsize', hp, hcells⟩ := expandSize_own_cells hw hthis (by omega) hu
  have hroom := huw.room hh'
  rw [hsize', hsum] at hroom
  cases hd : h'.ref.data with
  | none =>
    -- nothing is written through a null pointer
    rw [hd] at hroom hp
    have hz : n + this.ref.size = 0 := hroom
    obtain rfl : bytes = [] := List.eq_nil_of_length_eq_zero (by omega)
    rcases happ with ⟨-, rfl⟩ | ⟨ptr, bytes', heap, hptr, -⟩
    · rw [shown_of_get huw hh', hd, hsize', hsum, hz, List.append_nil,
        show this.ref.size = 0 by omega, Heap.cellsAt_zero, Heap.cellsAt_zero]
    · cases hptr.symm.trans hp
  | some q =>
    rw [hd] at hp hcells
    rcases happ with ⟨hnone, -⟩ | ⟨ptr, bytes', heap, hptr, hbytes', hwrite, rfl⟩
    · rw [hp] at hnone
      cases hnone
    · obtain rfl := Option.some.inj ((hdata u p hu).symm.trans hbytes')
      obtain rfl : ptr = ⟨q.block, q.off + this.ref.size⟩ :=
        Option.some.inj (hptr.symm.trans hp)
      have hbehind := Heap.cellsAt_write_behind hwrite
      rw [shown_of_get (huw.write hwrite) hh', hd, hsize', hsum, Nat.add_comm, ← hlen, hbehind,
        ← hcells]

/-- The handle has as many bytes more as there was room made for. -/
theorem append_size {data : Heap UInt8 → Option Bytes} {bytes : Bytes} (hw : s.Wf [])
    (hthis : s.handles[i]? = some this)
    (hg : this.Grows s.heap (sizeT (n + this.ref.size))) (hlt : n < 2^63)
    (h : s.append malloc i n data = .ok t) (hbytes : t.shown i = some bytes) :
    bytes.length = this.ref.size + n := by
  have hsize := size_lt hw hthis
  have hsum : sizeT (n + this.ref.size) = n + this.ref.size := sizeT_of_lt _ (by omega)
  have hgrows : ∀ h, s.handles[i]? = some h → h.Grows s.heap (sizeT (n + h.ref.size)) := by
    intro h hh
    obtain rfl := Option.some.inj (hthis.symm.trans hh)
    exact hg
  obtain ⟨htw, -, this', hthis', happ⟩ := append_keeps hw hgrows h
  obtain rfl := Option.some.inj (hthis.symm.trans hthis')
  obtain ⟨h', hh', hsize'⟩ : ∃ h', t.handles[i]? = some h' ∧
      h'.ref.size = sizeT (n + this.ref.size) := by
    cases happ with
    | inPlace _ _ _ _ _ ht => exact ⟨_, ht, rfl⟩
    | moved _ _ _ ht => exact ⟨_, ht, rfl⟩
  rw [shown_of_get htw hh'] at hbytes
  rw [← Option.some.inj hbytes, (htw.room hh').cellsAt_length, hsize', hsum, Nat.add_comm]

end

def State.Owns (s : State) (i : Nat) : Prop :=
  ∃ h capacity, s.handles[i]? = some h ∧ h.capacity = some capacity ∧ h.ref.size ≤ capacity ∧
    s.heap.Room h.ref.data capacity ∧ (h.ref.p = none → h.ref.data = none)

def State.Refers (s : State) (i : Nat) : Prop :=
  ∃ h, s.handles[i]? = some h ∧ h.ref.p.isSome

section
variable {build : Build} {malloc : Malloc} {s t : State} {i n : Nat} {flying : List Ref}

theorem State.Owns.keep {touched : List Nat} (hs : s.Owns i) (htw : t.Wf flying)
    (ht : Touches touched s t) (hi : i ∉ touched) : t.Owns i := by
  obtain ⟨h, capacity, hh, hcapacity, hsize, hroom, hp⟩ := hs
  have hht : t.handles[i]? = some h := (ht.others i hi).trans hh
  exact ⟨h, capacity, hht, hcapacity, hsize, hroom.keeps ht.keeps (htw.room hht), hp⟩

theorem State.Refers.keep {touched : List Nat} (hs : s.Refers i) (ht : Touches touched s t)
    (hi : i ∉ touched) : t.Refers i := by
  obtain ⟨h, hh, hp⟩ := hs
  exact ⟨h, (ht.others i hi).trans hh, hp⟩

theorem State.Owns.grows (hs : s.Owns i) {this : Handle} (hthis : s.handles[i]? = some this)
    (m : Nat) : this.Grows s.heap m := by
  obtain ⟨h, capacity, hh, hcapacity, -, hroom, -⟩ := hs
  obtain rfl := Option.some.inj (hh.symm.trans hthis)
  intro k hk hm
  obtain rfl := Option.some.inj (hcapacity.symm.trans hk)
  exact hroom.mono hm

theorem Moved.owns {size : Nat} (h : Moved s t i size) : t.Owns i ∧ t.Refers i := by
  obtain ⟨capacity, hle, hroom, ht⟩ := h.fresh
  exact ⟨⟨_, capacity, ht, rfl, hle, hroom, nofun⟩, ⟨_, ht, rfl⟩⟩

theorem State.Owns.refers (hs : s.Owns i) {this : Handle} {capacity : Nat}
    (hthis : s.handles[i]? = some this) (hcapacity : this.capacity = some capacity)
    (hpos : 0 < capacity) : s.Refers i := by
  obtain ⟨h, capacity', hh, hcapacity', -, hroom, hp⟩ := hs
  obtain rfl := Option.some.inj (hh.symm.trans hthis)
  obtain rfl := Option.some.inj (hcapacity.symm.trans hcapacity')
  refine ⟨h, hh, ?_⟩
  cases hcase : h.ref.p with
  | some b => rfl
  | none =>
    rw [hp hcase] at hroom
    have hzero : capacity = 0 := hroom
    omega

theorem append_owns {data : Heap UInt8 → Option Bytes} (hw : s.Wf []) (hs : s.Owns i)
    (h : s.append malloc i n data = .ok t) :
    t.Wf [] ∧ Touches [i] s t ∧ t.Owns i ∧ (s.Refers i ∨ 0 < n ∧ n < 2^64 → t.Refers i) := by
  obtain ⟨htw, ht, this, hthis, happ⟩ := append_keeps hw (fun _ hthis => hs.grows hthis _) h
  refine ⟨htw, ht, ?_⟩
  have howns := hs
  obtain ⟨this', capacity, hthis', hcapacity, hsize, hroom, hp⟩ := hs
  obtain rfl := Option.some.inj (hthis.symm.trans hthis')
  cases happ with
  | inPlace this' capacity' hthis' hcapacity' hle hi =>
    obtain rfl := Option.some.inj (hthis.symm.trans hthis')
    obtain rfl := Option.some.inj (hcapacity.symm.trans hcapacity')
    have hlive := htw.room hi
    refine ⟨⟨_, capacity, hi, hcapacity, hle, hroom.keeps ht.keeps hlive, hp⟩, ?_⟩
    intro hmore
    have hrefers : s.Refers i := by
      rcases hmore with hrefers | ⟨hpos, hlt⟩
      · exact hrefers
      · refine howns.refers hthis hcapacity (Nat.pos_of_ne_zero ?_)
        rintro rfl
        rw [Nat.le_zero.mp hsize, Nat.add_zero, sizeT, Nat.mod_eq_of_lt hlt] at hle
        omega
    obtain ⟨h, hh, hcounted⟩ := hrefers
    obtain rfl := Option.some.inj (hthis.symm.trans hh)
    exact ⟨_, hi, hcounted⟩
  | moved capacity' hle hroom' hi =>
    exact ⟨⟨_, capacity', hi, rfl, hle, hroom', by simp⟩, fun _ => ⟨_, hi, rfl⟩⟩

theorem appendNumber_owns {m base : Nat} (hw : s.Wf []) (hs : s.Owns i)
    (h : call build malloc s (.appendNumber i m base) = .ok t) :
    t.Wf [] ∧ Touches [i] s t ∧ t.Owns i ∧ (s.Refers i → t.Refers i) := by
  cases hd : (Op.appendNumber i m base).demand build s with
  | none =>
    rw [appendNumber_idle hd h]
    exact ⟨hw, (Quiet.refl [i] s).toTouches, hs, id⟩
  | some d =>
    have hi : d.i = i := by
      simp only [Op.demand] at hd
      split_ifs at hd
      cases hd
      rfl
    obtain ⟨data, happend, -⟩ := call_demand hd h
    rw [hi] at happend
    obtain ⟨htw, ht, howns, hrefers⟩ := append_owns hw hs happend
    exact ⟨htw, ht, howns, fun h => hrefers (.inl h)⟩

theorem setCapacity_owns {capacity : Nat} (hw : s.Wf []) (hs : s.Owns i)
    (h : s.setCapacity malloc i capacity = .ok t) :
    t.Wf [] ∧ Touches [i] s t ∧ t.Owns i ∧ (0 < capacity → t.Refers i) := by
  simp only [State.setCapacity, bind_ok, handle_ok, pure_ok] at h
  obtain ⟨prev, hprev, u, hu, this, hthis, rfl⟩ := h
  have hset : u.Wf [] ∧ Touches [i] s u ∧ u.Owns i ∧ (0 < capacity → u.Refers i) := by
    obtain ⟨prev', n, hprev', hn, ⟨hle, -, rfl⟩ | hmoved⟩ := setSize_spec hw hu
    · have hgrows := hs.grows hprev' capacity n hn hle
      have htw := hw.resize hprev' hgrows
      have howns := hs
      obtain ⟨h, k, hh, hk, -, hroom, hp⟩ := hs
      obtain rfl := Option.some.inj (hprev'.symm.trans hh)
      obtain rfl := Option.some.inj (hn.symm.trans hk)
      have hi : (s.resize i capacity).handles[i]? =
          some { prev' with ref := { prev'.ref with size := capacity } } := by
        rw [State.resize_get, if_pos rfl, hprev']
        rfl
      refine ⟨htw, (s.resize_quiet i capacity).toTouches, ⟨_, n, hi, hn, hle, hroom, hp⟩, ?_⟩
      intro hpos
      obtain ⟨h, hh, hcounted⟩ := howns.refers hprev' hn (by omega)
      obtain rfl := Option.some.inj (hprev'.symm.trans hh)
      exact ⟨_, hi, hcounted⟩
    · exact ⟨hmoved.wf, hmoved.quiet.toTouches, hmoved.owns.1, fun _ => hmoved.owns.2⟩
  obtain ⟨huw, hut, howns, hrefers⟩ := hset
  split_ifs with hcut
  · obtain ⟨h, n, hh, hn, hsize, hroom, hp⟩ := howns
    obtain rfl := Option.some.inj (hthis.symm.trans hh)
    have hi : (u.resize i prev.ref.size).handles[i]? =
        some { this with ref := { this.ref with size := prev.ref.size } } := by
      rw [State.resize_get, if_pos rfl, hthis]
      rfl
    have htw := huw.resize hthis (hroom.mono (show prev.ref.size ≤ n by omega))
    refine ⟨htw, hut.trans (u.resize_quiet i _).toTouches,
      ⟨_, n, hi, hn, by simp only; omega, hroom, hp⟩, ?_⟩
    intro hpos
    obtain ⟨h, hh, hcounted⟩ := hrefers hpos
    obtain rfl := Option.some.inj (hthis.symm.trans hh)
    exact ⟨_, hi, hcounted⟩
  · exact ⟨huw, hut, howns, hrefers⟩

end

end Libnodecc.Buffer
