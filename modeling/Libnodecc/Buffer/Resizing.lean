import Libnodecc.Buffer.OwnBytes

namespace Libnodecc.Buffer

open Util

/-- The handle `i` got `size` bytes, the first of them as they were, and room for `n`. -/
structure State.Resized (s t : State) (i size n : Nat) : Prop where
  wellFormed : t.WellFormed i
  shown : ∃ bytes bytes', s.shown i = some bytes ∧ t.shown i = some bytes' ∧
    bytes'.length = size ∧ bytes'.take (min bytes.length n) = bytes.take n
  capacity : ∃ capacity, t.capacity i = .ok capacity ∧ n ≤ capacity ∧ capacity ≤ max 16 (n + n / 2)

section
variable {malloc : Malloc} {s t : State} {i n : Nat}

/-- A handle is resized if it was given the first bytes of another reference. -/
theorem resized_of_get {this : Handle} {data : Option Ptr} {p : Option Nat} {size capacity : Nat}
    (hs : s.WellFormed i) (hthis : s.handles[i]? = some this) (htw : t.Wf [])
    (hti : t.handles[i]? = some ⟨⟨data, size, p⟩, some capacity⟩)
    (hroom : t.heap.Room data capacity) (hsize : size ≤ n) (hn : n ≤ capacity)
    (hcapacity : capacity ≤ max 16 (n + n / 2)) (hmin : min this.ref.size n ≤ size)
    (hcells : ∀ m ≤ min this.ref.size n,
      t.heap.cellsAt data m = s.heap.cellsAt this.ref.data m) : s.Resized t i size n := by
  have hlength := (hs.wf.room hthis).cellsAt_length
  refine ⟨⟨htw, ?_, ?_⟩, ?_, capacity, capacity_ok.mpr ⟨_, hti, rfl⟩, hn, hcapacity⟩
  · simp [State.Has, hti]
  · intro h hh
    obtain rfl := Option.some.inj (hti.symm.trans hh)
    intro c hc
    obtain rfl := Option.some.inj hc
    exact ⟨hsize.trans hn, hroom⟩
  · refine ⟨_, _, shown_of_get hs.wf hthis, shown_of_get htw hti,
      (hroom.mono (hsize.trans hn)).cellsAt_length, ?_⟩
    rw [hlength, cellsAt_take hmin, hcells _ (Nat.le_refl _)]
    have hcut : (s.heap.cellsAt this.ref.data this.ref.size).take n =
        (s.heap.cellsAt this.ref.data this.ref.size).take (min this.ref.size n) := by
      rw [List.take_eq_take_iff, hlength]
      omega
    rw [hcut, cellsAt_take (Nat.min_le_left _ _)]

theorem setSize_resizes (hs : s.WellFormed i) (h : s.setSize malloc i n = .ok t) :
    s.Resized t i n n := by
  obtain ⟨this, -, hthis, -⟩ := has_mutable hs.has
  obtain ⟨htw, data, p, capacity, hti, hroom, hn, hcapacity, hcells⟩ := setSize_resized hs hthis h
  exact resized_of_get hs hthis htw hti hroom (Nat.le_refl n) hn hcapacity
    (Nat.min_le_right _ _) hcells

/-- `set_capacity` is `set_size`, and takes the growth of the size back. -/
theorem setCapacity_resizes {this : Handle} (hs : s.WellFormed i)
    (hthis : s.handles[i]? = some this) (h : s.setCapacity malloc i n = .ok t) :
    s.Resized t i (min this.ref.size n) n := by
  simp only [State.setCapacity, bind_ok, handle_ok, pure_ok] at h
  obtain ⟨prev, hprev, u, hu, now, hnow, rfl⟩ := h
  obtain rfl := Option.some.inj (hthis.symm.trans hprev)
  obtain ⟨huw, data, p, capacity, hui, hroom, hn, hcapacity, hcells⟩ := setSize_resized hs hthis hu
  obtain rfl := Option.some.inj (hui.symm.trans hnow)
  by_cases hgrown : this.ref.size < n
  · rw [if_pos hgrown, Nat.min_eq_left (Nat.le_of_lt hgrown)]
    have htw : (u.resize i this.ref.size).Wf [] := huw.resize hui (hroom.mono (by omega))
    have hti : (u.resize i this.ref.size).handles[i]? =
        some ⟨⟨data, this.ref.size, p⟩, some capacity⟩ := by
      rw [State.resize_get, if_pos rfl, hui]
      rfl
    exact resized_of_get hs hthis htw hti hroom (by omega) hn hcapacity (by omega) hcells
  · rw [if_neg hgrown, Nat.min_eq_right (Nat.le_of_not_lt hgrown)]
    exact resized_of_get hs hthis huw hui hroom (Nat.le_refl n) hn hcapacity (by omega) hcells

end

/-- `set_size` and `set_capacity` of any handle whose contents lie in its block, as long as there
is memory. -/
theorem resizing_keeps (malloc : Malloc) (s : State) (i n : Nat) (hs : s.WellFormed i) :
    (s.setSize malloc i n ≠ .error .badAlloc →
      ∃ t, s.setSize malloc i n = .ok t ∧ s.Resized t i n n) ∧
    (s.setCapacity malloc i n ≠ .error .badAlloc →
      ∃ t bytes, s.setCapacity malloc i n = .ok t ∧ s.shown i = some bytes ∧
        s.Resized t i (min bytes.length n) n) := by
  constructor
  · intro hserved
    obtain ⟨t, ht⟩ := returns_of_fine (fine_setSize hs.wf hs.has) hserved
    exact ⟨t, ht, setSize_resizes hs ht⟩
  · intro hserved
    obtain ⟨t, ht⟩ := returns_of_fine (fine_setCapacity hs.wf hs.has) hserved
    obtain ⟨this, -, hthis, -⟩ := has_mutable hs.has
    refine ⟨t, _, ht, shown_of_get hs.wf hthis, ?_⟩
    rw [(hs.wf.room hthis).cellsAt_length]
    exact setCapacity_resizes hs hthis ht

/-- `abcdefghij` in 24 bytes is given 40, or only room for 4. -/
theorem resizing_keeps_ten : ∃ s t u bytes,
    run (step glibc .zeroed) State.init [.construct .mutable, .setCapacity 0 24,
      .append 0 (.caller ⟨ascii "abcdefghij", by decide⟩) 0 10] = some s ∧ s.capacity 0 = .ok 24 ∧
    s.setSize .zeroed 0 40 = .ok t ∧ t.shown 0 = some bytes ∧ bytes.length = 40 ∧
    bytes.take 10 = ascii "abcdefghij" ∧
    s.setCapacity .zeroed 0 4 = .ok u ∧ u.shown 0 = some (ascii "abcd") := by
  obtain ⟨s, hs⟩ : ∃ s : State, s = ⟨[⟨ascii "abcdefghij" ++ List.replicate 14 0, some 1, false⟩],
    [⟨⟨some ⟨0, 0⟩, 10, some 0⟩, some 24⟩]⟩ := ⟨_, rfl⟩
  have hrun : run (step glibc .zeroed) State.init [.construct .mutable, .setCapacity 0 24,
      .append 0 (.caller ⟨ascii "abcdefghij", by decide⟩) 0 10] = some s := by
    rw [hs]
    rfl
  have hwellFormed : s.WellFormed 0 :=
    wellFormed_of_run _ (by decide +kernel) hrun (by rw [hs]; rfl)
  have hshown : s.shown 0 = some (ascii "abcdefghij") := by
    rw [hs]
    decide
  obtain ⟨hgrow, -⟩ := resizing_keeps .zeroed s 0 40 hwellFormed
  obtain ⟨-, hcut⟩ := resizing_keeps .zeroed s 0 4 hwellFormed
  obtain ⟨t, ht, hgrown⟩ := hgrow (by rw [hs]; intro h; cases h)
  obtain ⟨u, old, hu, hold, hshrunk⟩ := hcut (by rw [hs]; intro h; cases h)
  obtain ⟨old', bytes, hold', hbytes, hlength, htake⟩ := hgrown.shown
  obtain ⟨old'', bytes', hold'', hbytes', hlength', htake'⟩ := hshrunk.shown
  obtain rfl := Option.some.inj (hshown.symm.trans hold)
  obtain rfl := Option.some.inj (hshown.symm.trans hold')
  obtain rfl := Option.some.inj (hshown.symm.trans hold'')
  have hfirst : bytes' = ascii "abcd" :=
    (List.take_of_length_le (Nat.le_of_eq hlength')).symm.trans htake'
  refine ⟨s, t, u, bytes, hrun, by rw [hs]; rfl, ht, hbytes, hlength, htake, hu, ?_⟩
  rw [hbytes', hfirst]

end Libnodecc.Buffer
