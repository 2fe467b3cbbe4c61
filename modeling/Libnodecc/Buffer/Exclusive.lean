import Libnodecc.Buffer.OwnBytes

namespace Libnodecc.Buffer

open Util

def State.cellsOf (s : State) (b : Nat) : Option Bytes := (s.heap[b]?).map Block.cells

/-- There is memory behind the contents that an append goes to. -/
def Handle.Loose (h : Handle) : Prop := ∃ n, h.capacity = some n ∧ h.ref.size < n

/-- The memory behind the contents of a handle is its own, and is not in one of the `foreign`
blocks; a handle that is `spent` is not appended to any more. -/
structure State.Exclusive (s : State) (foreign spent : List Nat) : Prop where
  wf : s.Wf []
  covers : ∀ (i : Nat) (h : Handle) (n : Nat), s.handles[i]? = some h → h.capacity = some n →
    s.heap.Room h.ref.data n
  there : ∀ b ∈ foreign, b < s.heap.length
  away : ∀ (i : Nat) (h : Handle) (p : Ptr), s.handles[i]? = some h → h.Loose →
    h.ref.data = some p → p.block ∉ foreign
  alone : ∀ (i j : Nat) (h h' : Handle) (p q : Ptr), s.handles[i]? = some h →
    s.handles[j]? = some h' → i ≠ j → i ∉ spent → h.Loose → h.ref.data = some p →
    h'.ref.data = some q → p.block = q.block →
    q.off + h'.ref.size ≤ p.off + h.ref.size ∧ (j ∉ spent → ¬h'.Loose)

/-- A handle with nothing behind its contents; they are new, or the end of another handle's
contents comes behind them. -/
structure Tame (s : State) (h : Handle) : Prop where
  tight : ¬h.Loose
  part : ∀ p, h.ref.data = some p → s.heap.length ≤ p.block ∨
    ∃ (j : Nat) (h' : Handle) (q : Ptr), s.handles[j]? = some h' ∧ h'.ref.data = some q ∧
      q.block = p.block ∧ p.off + h.ref.size ≤ q.off + h'.ref.size

/-- The foreign blocks stay as they are, and so does what the untouched handles show. -/
structure Spares (foreign touched : List Nat) (s t : State) : Prop where
  cells : ∀ b ∈ foreign, t.cellsOf b = s.cellsOf b
  others : ∀ k < s.handles.length, k ∉ touched →
    t.handles[k]? = s.handles[k]? ∧ t.shown k = s.shown k

/-- The handle `i` is reset. -/
def Emptied (s t : State) (i : Nat) : Prop :=
  ∃ capacity, t.handles[i]? = some ⟨.null, capacity⟩ ∧
    ∀ h, s.handles[i]? = some h → h.capacity = none → capacity = none

/-- What an append of all of `buf` makes of the handle, which showed `this`. -/
inductive Joined (s t : State) (i : Nat) (this buf : Ref) : Prop
  | nothing (hbuf : buf.size = 0) (ht : t = s)
  | adopted (hthis : this.size = 0) (hbuf : 0 < buf.size) (p : Ptr) (hp : buf.data = some p)
    (ht : t.handles[i]? = some ⟨buf, some buf.size⟩)
  | added (hthis : 0 < this.size) (hbuf : 0 < buf.size)
    (happ : Appended s t i (buf.size + this.size))

section
variable {malloc : Malloc} {build : Build} {s t u : State} {foreign spent touched : List Nat}
  {i j k n : Nat}

theorem Handle.not_loose_size (ref : Ref) : ¬Handle.Loose ⟨ref, some ref.size⟩ := by
  intro ⟨n, hn, hlt⟩
  obtain rfl := Option.some.inj hn
  exact Nat.lt_irrefl _ hlt

theorem Handle.not_loose_plain (ref : Ref) : ¬Handle.Loose ⟨ref, none⟩ := by
  intro ⟨n, hn, _⟩
  cases hn

theorem Handle.not_loose_zero (ref : Ref) : ¬Handle.Loose ⟨ref, some 0⟩ := by
  intro ⟨n, hn, hlt⟩
  obtain rfl := Option.some.inj hn
  exact absurd hlt (Nat.not_lt_zero _)

theorem tame_null {capacity : Option Nat} (h : ¬Handle.Loose ⟨.null, capacity⟩) :
    Tame s ⟨.null, capacity⟩ := ⟨h, nofun⟩

theorem tame_copy {h : Handle} (hh : s.handles[j]? = some h) (capacity : Option Nat)
    (htight : ¬Handle.Loose ⟨h.ref, capacity⟩) : Tame s ⟨h.ref, capacity⟩ :=
  ⟨htight, fun p hp => .inr ⟨j, h, p, hh, hp, rfl, Nat.le_refl _⟩⟩

theorem slice_data {this : Ref} {first last : Nat} {p : Ptr}
    (h : (slice this first last).data = some p) :
    ∃ q, this.data = some q ∧ q.block = p.block ∧
      p.off + (slice this first last).size ≤ q.off + this.size := by
  unfold slice at h ⊢
  simp only at h ⊢
  split_ifs at h with hslice
  · rw [if_pos hslice]
    obtain ⟨q, hq, rfl⟩ := Option.map_eq_some_iff.mp h
    refine ⟨q, hq, rfl, ?_⟩
    simp only
    omega
  · cases h

theorem tame_slice {h : Handle} {first last : Nat} (hh : s.handles[j]? = some h)
    (capacity : Option Nat) (htight : ¬Handle.Loose ⟨slice h.ref first last, capacity⟩) :
    Tame s ⟨slice h.ref first last, capacity⟩ := by
  refine ⟨htight, ?_⟩
  intro p hp
  obtain ⟨q, hq, hblock, hle⟩ := slice_data hp
  exact .inr ⟨j, h, q, hh, hq, hblock, hle⟩

theorem block_lt {h : Handle} {p : Ptr} (hw : s.Wf []) (hh : s.handles[i]? = some h)
    (hp : h.ref.data = some p) : p.block < s.heap.length := by
  have hroom := hw.room hh
  rw [hp] at hroom
  obtain ⟨blk, hblk, -, -⟩ := hroom
  exact (List.getElem?_eq_some_iff.mp hblk).1

theorem Touches.mono {touched' : List Nat} (h : Touches touched s t)
    (hsub : ∀ k ∈ touched, k ∈ touched') : Touches touched' s t :=
  ⟨fun k hk => h.others k fun hk' => hk (hsub k hk'), h.keeps⟩

theorem Touches.heap_length (h : Touches touched s t) {b : Nat} (hb : b < s.heap.length) :
    b < t.heap.length := by
  obtain ⟨blk, hblk, -, -⟩ := h.keeps b _ (List.getElem?_eq_getElem hb)
  exact (List.getElem?_eq_some_iff.mp hblk).1

/-- What an operation leaves behind that makes tame handles only. -/
theorem State.Exclusive.tame {foreign' spent' : List Nat} (hs : s.Exclusive foreign spent)
    (htw : t.Wf []) (ht : Touches touched s t)
    (htame : ∀ i ∈ touched, ∀ h, t.handles[i]? = some h → Tame s h)
    (hforeign : ∀ b ∈ foreign', b ∈ foreign ∨ s.heap.length ≤ b ∧ b < t.heap.length)
    (hspent : ∀ i ∈ spent, i ∈ spent' ∨ i ∈ touched) : t.Exclusive foreign' spent' := by
  have hloose (i : Nat) (h : Handle) (hh : t.handles[i]? = some h) (hl : h.Loose) :
      i ∉ touched ∧ s.handles[i]? = some h := by
    have hi : i ∉ touched := fun hi => (htame i hi h hh).tight hl
    exact ⟨hi, (ht.others i hi).symm.trans hh⟩
  refine ⟨htw, ?_, ?_, ?_, ?_⟩
  · intro i h n hh hn
    by_cases hl : h.ref.size < n
    · obtain ⟨-, hsh⟩ := hloose i h hh ⟨n, hn, hl⟩
      exact (hs.covers i h n hsh hn).keeps ht.keeps (htw.room hh)
    · exact (htw.room hh).mono (Nat.le_of_not_lt hl)
  · intro b hb
    rcases hforeign b hb with hb | ⟨-, hlt⟩
    · exact ht.heap_length (hs.there b hb)
    · exact hlt
  · intro i h p hh hl hp hb
    obtain ⟨-, hsh⟩ := hloose i h hh hl
    rcases hforeign p.block hb with hb | ⟨hle, -⟩
    · exact hs.away i h p hsh hl hp hb
    · exact absurd (block_lt hs.wf hsh hp) (Nat.not_lt.mpr hle)
  · intro i j h h' p q hh hh' hij hi hl hp hq hblock
    obtain ⟨hi', hsh⟩ := hloose i h hh hl
    have hispent : i ∉ spent := fun hmem => (hspent i hmem).elim hi hi'
    by_cases hj : j ∈ touched
    · have htj := htame j hj h' hh'
      refine ⟨?_, fun _ => htj.tight⟩
      rcases htj.part q hq with hnew | ⟨k, h'', q'', hk, hq'', hblock'', hle⟩
      · have hlt := block_lt hs.wf hsh hp
        omega
      · -- the contents `h'` were taken from end before those of `h`
        by_cases hki : i = k
        · subst hki
          obtain rfl := Option.some.inj (hsh.symm.trans hk)
          obtain rfl := Option.some.inj (hp.symm.trans hq'')
          exact hle
        · have hbefore := (hs.alone i k h h'' p q'' hsh hk hki hispent hl hp hq''
            (hblock.trans hblock''.symm)).1
          exact Nat.le_trans hle hbefore
    · have hsh' := (ht.others j hj).symm.trans hh'
      obtain ⟨hle, hother⟩ := hs.alone i j h h' p q hsh hsh' hij hispent hl hp hq hblock
      exact ⟨hle, fun hj' => hother fun hmem => (hspent j hmem).elim hj' hj⟩

theorem Spares.trans (h : Spares foreign touched s t) (h' : Spares foreign touched t u) :
    Spares foreign touched s u := by
  refine ⟨fun b hb => (h'.cells b hb).trans (h.cells b hb), ?_⟩
  intro k hk hk'
  obtain ⟨hget, hshown⟩ := h.others k hk hk'
  have hlt : k < t.handles.length := by
    rw [List.getElem?_eq_getElem hk] at hget
    exact (List.getElem?_eq_some_iff.mp hget).1
  obtain ⟨hget', hshown'⟩ := h'.others k hlt hk'
  exact ⟨hget'.trans hget, hshown'.trans hshown⟩

theorem Spares.mono {touched' : List Nat} (h : Spares foreign touched s t)
    (hsub : ∀ k < s.handles.length, k ∈ touched → k ∈ touched') : Spares foreign touched' s t :=
  ⟨h.cells, fun k hk hk' => h.others k hk fun hmem => hk' (hsub k hk hmem)⟩

theorem cellsOf_sameCells (h : s.heap.SameCells t.heap) {b : Nat} (hb : b < s.heap.length) :
    t.cellsOf b = s.cellsOf b := by
  obtain ⟨blk, hblk, hcells⟩ := h b _ (List.getElem?_eq_getElem hb)
  simp only [State.cellsOf, hblk, List.getElem?_eq_getElem hb, Option.map_some, hcells]

theorem shown_sameCells {h : Handle} (hw : s.Wf []) (htw : t.Wf [])
    (hcells : s.heap.SameCells t.heap) (hs : s.handles[k]? = some h)
    (ht : t.handles[k]? = some h) : t.shown k = s.shown k := by
  rw [shown_of_get hw hs, shown_of_get htw ht, Heap.cellsAt_sameCells hcells (hw.room hs)]

theorem State.Exclusive.spares_of_quiet (hs : s.Exclusive foreign spent) (htw : t.Wf [])
    (hq : Quiet touched s t) : Spares foreign touched s t := by
  refine ⟨fun b hb => cellsOf_sameCells hq.cells (hs.there b hb), ?_⟩
  intro k hk hk'
  have hget := List.getElem?_eq_getElem hk
  have ht := (hq.others k hk').trans hget
  exact ⟨hq.others k hk', shown_sameCells hs.wf htw hq.cells hget ht⟩

/-- The original of a copy that has the same memory behind its contents is spent. -/
theorem State.Exclusive.share (hs : s.Exclusive foreign [])
    (h : call build malloc s (.copyConstruct .mutable .mutable j) = .ok t) :
    t.Exclusive foreign [j] := by
  obtain ⟨htw, htq, other, capacity, hother, hcapacity, hnew⟩ := copyConstruct_spec hs.wf h
  simp only [State.takenCapacity, bind_ok, defined_ok, pure_ok] at hcapacity
  obtain ⟨m, hm, rfl⟩ := hcapacity
  -- every handle of `t` is one of `s`, the new one being `other` again
  have hold (i : Nat) (h : Handle) (hh : t.handles[i]? = some h) :
      s.handles[i]? = some h ∨ i = s.handles.length ∧ h = other := by
    by_cases hi : i = s.handles.length
    · rw [hi, hnew] at hh
      refine .inr ⟨hi, ?_⟩
      rw [← Option.some.inj hh]
      exact congrArg (Handle.mk other.ref) hm.symm
    · exact .inl ((htq.others i (by simpa using hi)).symm.trans hh)
  have hsource (i : Nat) (h : Handle) (hh : t.handles[i]? = some h) :
      ∃ k : Nat, s.handles[k]? = some h := by
    rcases hold i h hh with hh | ⟨-, rfl⟩
    · exact ⟨i, hh⟩
    · exact ⟨j, hother⟩
  refine ⟨htw, ?_, fun b hb => htq.heap_length (hs.there b hb), ?_, ?_⟩
  · intro i h n hh hn
    obtain ⟨k, hk⟩ := hsource i h hh
    exact (hs.covers k h n hk hn).keeps htq.keeps (htw.room hh)
  · intro i h p hh hl hp
    obtain ⟨k, hk⟩ := hsource i h hh
    exact hs.away k h p hk hl hp
  · intro i i' h h' p q hh hh' hii' hi hl hp hq hblock
    rw [List.mem_singleton] at hi
    rcases hold i h hh with hh | ⟨rfl, rfl⟩
    · rcases hold i' h' hh' with hh' | ⟨rfl, rfl⟩
      · obtain ⟨hle, htight⟩ := hs.alone i i' h h' p q hh hh' hii' List.not_mem_nil hl hp hq hblock
        exact ⟨hle, fun _ => htight List.not_mem_nil⟩
      · obtain ⟨hle, htight⟩ := hs.alone i j h h' p q hh hother hi List.not_mem_nil hl hp hq hblock
        exact ⟨hle, fun _ => htight List.not_mem_nil⟩
    · rcases hold i' h' hh' with hh' | ⟨rfl, -⟩
      · by_cases hj : i' = j
        · subst hj
          obtain rfl := Option.some.inj (hother.symm.trans hh')
          obtain rfl := Option.some.inj (hp.symm.trans hq)
          exact ⟨Nat.le_refl _, fun hspent => absurd (List.mem_singleton_self _) hspent⟩
        · obtain ⟨hle, htight⟩ :=
            hs.alone j i' h h' p q hother hh' (Ne.symm hj) List.not_mem_nil hl hp hq hblock
          exact ⟨hle, fun _ => htight List.not_mem_nil⟩
      · exact absurd rfl hii'

theorem State.Exclusive.grows (hs : s.Exclusive foreign spent) {this : Handle}
    (hthis : s.handles[i]? = some this) (size : Nat) : this.Grows s.heap size :=
  fun m hm hle => (hs.covers i this m hthis hm).mono hle

theorem write_cellsOf {ptr : Ptr} {bytes : Bytes} {heap : Heap UInt8} {b : Nat}
    (h : s.heap.write ptr bytes = some heap) (hb : b ≠ ptr.block) :
    State.cellsOf { s with heap := heap } b = s.cellsOf b := by
  obtain ⟨-, rfl⟩ := Heap.write_eq_some h
  simp only [State.cellsOf, List.getElem?_modify, if_neg (Ne.symm hb), Option.map_eq_map,
    Option.map_id']

theorem untouched_get {h : Handle} (ht : Touches [i] s t) (hk : k ≠ i)
    (hh : t.handles[k]? = some h) : s.handles[k]? = some h :=
  (ht.others k (by simpa using hk)).symm.trans hh

/-- More of the memory behind its contents is shown by the handle. -/
theorem State.Exclusive.grown {size capacity : Nat} {this : Handle} (hs : s.Exclusive foreign [])
    (htw : t.Wf []) (ht : Touches [i] s t) (hthis : s.handles[i]? = some this)
    (hcapacity : this.capacity = some capacity) (hsize : this.ref.size ≤ size)
    (hle : size ≤ capacity)
    (hti : t.handles[i]? = some { this with ref := { this.ref with size := size } }) :
    t.Exclusive foreign [] := by
  have hloose (h : Handle) (hh : t.handles[i]? = some h) :
      h.ref.data = this.ref.data ∧ h.ref.size = size ∧ (h.Loose → this.Loose) := by
    obtain rfl := Option.some.inj (hti.symm.trans hh)
    refine ⟨rfl, rfl, ?_⟩
    intro ⟨n, hn, hlt⟩
    exact ⟨n, hn, Nat.lt_of_le_of_lt hsize hlt⟩
  refine ⟨htw, ?_, fun b hb => ht.heap_length (hs.there b hb), ?_, ?_⟩
  · intro k h n hh hn
    by_cases hk : k = i
    · subst hk
      obtain rfl := Option.some.inj (hti.symm.trans hh)
      have hlive := htw.room hti
      exact (hs.covers k this n hthis hn).keeps ht.keeps hlive
    · exact (hs.covers k h n (untouched_get ht hk hh) hn).keeps ht.keeps (htw.room hh)
  · intro k h p hh hl hp
    by_cases hk : k = i
    · subst hk
      obtain ⟨hdata, -, hl'⟩ := hloose h hh
      exact hs.away k this p hthis (hl' hl) (hdata.symm.trans hp)
    · exact hs.away k h p (untouched_get ht hk hh) hl hp
  · intro k j h h' p q hh hh' hkj _ hl hp hq hblock
    by_cases hk : k = i
    · subst hk
      obtain ⟨hdata, hsz, hl'⟩ := hloose h hh
      obtain ⟨hend, htight⟩ := hs.alone k j this h' p q hthis (untouched_get ht (Ne.symm hkj) hh')
        hkj List.not_mem_nil (hl' hl) (hdata.symm.trans hp) hq hblock
      exact ⟨by omega, htight⟩
    · by_cases hj : j = i
      · -- nothing was behind the contents, so nothing was added to them
        subst hj
        obtain ⟨hdata, hsz, hl'⟩ := hloose h' hh'
        obtain ⟨hend, htight⟩ := hs.alone k j h this p q (untouched_get ht hk hh) hthis hkj
          List.not_mem_nil hl hp (hdata.symm.trans hq) hblock
        have htight := htight List.not_mem_nil
        have hfull : capacity ≤ this.ref.size :=
          Nat.le_of_not_lt fun hlt => htight ⟨capacity, hcapacity, hlt⟩
        exact ⟨by omega, fun _ hl'' => htight (hl' hl'')⟩
      · exact hs.alone k j h h' p q (untouched_get ht hk hh) (untouched_get ht hj hh') hkj
          List.not_mem_nil hl hp hq hblock

/-- The contents of the handle are in a new block. -/
theorem State.Exclusive.relocated {size capacity : Nat} (hs : s.Exclusive foreign [])
    (htw : t.Wf []) (ht : Touches [i] s t)
    (hroom : t.heap.Room (some ⟨s.heap.length, 0⟩) capacity)
    (hti : t.handles[i]? =
      some ⟨⟨some ⟨s.heap.length, 0⟩, size, some s.heap.length⟩, some capacity⟩) :
    t.Exclusive foreign [] := by
  have hnew (k : Nat) (hk : k ≠ i) (h : Handle) (p : Ptr) (hh : t.handles[k]? = some h)
      (hp : h.ref.data = some p) : p.block ≠ s.heap.length :=
    Nat.ne_of_lt (block_lt hs.wf (untouched_get ht hk hh) hp)
  refine ⟨htw, ?_, fun b hb => ht.heap_length (hs.there b hb), ?_, ?_⟩
  · intro k h n hh hn
    by_cases hk : k = i
    · subst hk
      obtain rfl := Option.some.inj (hti.symm.trans hh)
      obtain rfl := Option.some.inj hn
      exact hroom
    · exact (hs.covers k h n (untouched_get ht hk hh) hn).keeps ht.keeps (htw.room hh)
  · intro k h p hh hl hp
    by_cases hk : k = i
    · subst hk
      obtain rfl := Option.some.inj (hti.symm.trans hh)
      obtain rfl := Option.some.inj hp
      exact fun hmem => Nat.lt_irrefl _ (hs.there _ hmem)
    · exact hs.away k h p (untouched_get ht hk hh) hl hp
  · intro k j h h' p q hh hh' hkj _ hl hp hq hblock
    by_cases hk : k = i
    · subst hk
      obtain rfl := Option.some.inj (hti.symm.trans hh)
      obtain rfl := Option.some.inj hp
      exact absurd hblock.symm (hnew j (Ne.symm hkj) h' q hh' hq)
    · by_cases hj : j = i
      · subst hj
        obtain rfl := Option.some.inj (hti.symm.trans hh')
        obtain rfl := Option.some.inj hq
        exact absurd hblock (hnew k hk h p hh hp)
      · exact hs.alone k j h h' p q (untouched_get ht hk hh) (untouched_get ht hj hh') hkj
          List.not_mem_nil hl hp hq hblock

theorem State.Exclusive.appended {size : Nat} {this : Handle} (hs : s.Exclusive foreign [])
    (htw : t.Wf []) (ht : Touches [i] s t) (hthis : s.handles[i]? = some this)
    (hsize : this.ref.size ≤ size) (happ : Appended s t i size) : t.Exclusive foreign [] := by
  cases happ with
  | inPlace this' capacity hthis' hcapacity hle hti =>
    obtain rfl := Option.some.inj (hthis.symm.trans hthis')
    exact hs.grown htw ht hthis hcapacity hsize hle hti
  | moved capacity hle hroom hti => exact hs.relocated htw ht hroom hti

/-- What an append within the capacity writes is beside what the others show. -/
theorem State.Exclusive.apart {this : Handle} (hs : s.Exclusive foreign [])
    (hthis : s.handles[i]? = some this) (hle : n + this.ref.size ≤ this.capacity.getD 0) (hk : k ≠ i) :
    s.At k fun other => Beside other.ref this.ref n := by
  intro other hother
  rcases Nat.eq_zero_or_pos n with hzero | hpos
  · exact .inr (.inl hzero)
  · refine .inr (.inr ?_)
    intro q hq p hp hblock
    have hloose : this.Loose := by
      cases hc : this.capacity with
      | none =>
        rw [hc] at hle
        have hempty : n + this.ref.size ≤ 0 := hle
        omega
      | some c =>
        rw [hc] at hle
        have hfits : n + this.ref.size ≤ c := hle
        exact ⟨c, hc, by omega⟩
    exact .inl (hs.alone i k this other p q hthis hother (Ne.symm hk) List.not_mem_nil hloose hp hq
      hblock.symm).1

/-- An append does not write to a foreign block. -/
theorem State.Exclusive.append_cellsOf {data : Heap UInt8 → Option Bytes} {b : Nat}
    (hs : s.Exclusive foreign []) (hn : n < 2^63)
    (hlen : ∀ heap bytes, data heap = some bytes → bytes.length = n)
    (h : s.append malloc i n data = .ok t) (hb : b ∈ foreign) : t.cellsOf b = s.cellsOf b := by
  obtain ⟨u, p, hu, hwrite⟩ := append_spec h
  obtain ⟨-, huq, this, hthis, -, hp⟩ :=
    expandSize_appended hs.wf (fun this hthis => hs.grows hthis _) hu
  have hsize := size_lt hs.wf hthis
  have hsame := cellsOf_sameCells huq.cells (hs.there b hb)
  rcases hwrite with ⟨-, rfl⟩ | ⟨ptr, bytes, heap, rfl, hbytes, hwrite, rfl⟩
  · exact hsame
  rcases Nat.eq_zero_or_pos n with hzero | hpos
  · -- nothing is written
    obtain rfl : bytes = [] := List.eq_nil_of_length_eq_zero (by rw [hlen _ _ hbytes, hzero])
    have hub := huq.heap_length (hs.there b hb)
    rw [cellsOf_sameCells (s := u) (t := { u with heap := heap }) (Heap.write_nil hwrite) hub]
    exact hsame
  · rw [write_cellsOf hwrite, hsame]
    rintro rfl
    rcases hp with ⟨⟨c, hc, hle⟩, -, hp⟩ | hp
    · rw [sizeT_of_lt _ (by omega)] at hle
      obtain ⟨q, hq, rfl⟩ := Option.map_eq_some_iff.mp hp.symm
      exact hs.away i this q hthis ⟨c, hc, by omega⟩ hq hb
    · cases hp
      exact Nat.lt_irrefl _ (hs.there _ hb)

/-- An append writes to memory of its own, in place or not. -/
theorem State.Exclusive.append {data : Heap UInt8 → Option Bytes} (hs : s.Exclusive foreign [])
    (hn : n < 2^63) (hlen : ∀ heap bytes, data heap = some bytes → bytes.length = n)
    (h : s.append malloc i n data = .ok t) :
    t.Exclusive foreign [] ∧ Touches [i] s t ∧ Spares foreign [i] s t ∧
      ∃ this, s.handles[i]? = some this ∧ this.capacity ≠ none ∧
        Appended s t i (n + this.ref.size) := by
  have hg : ∀ this, s.handles[i]? = some this → this.Grows s.heap (sizeT (n + this.ref.size)) :=
    fun this hthis => hs.grows hthis _
  obtain ⟨htw, ht, this, hthis, happ⟩ := append_keeps hs.wf hg h
  have hsize := size_lt hs.wf hthis
  have hsum : sizeT (n + this.ref.size) = n + this.ref.size := sizeT_of_lt _ (by omega)
  rw [hsum] at happ
  have hmutable : this.capacity ≠ none := by
    obtain ⟨u, p, hu, -⟩ := append_spec h
    obtain ⟨this', capacity, hthis', hcapacity, -⟩ := expandSize_spec hs.wf hu
    obtain rfl := Option.some.inj (hthis.symm.trans hthis')
    rw [hcapacity]
    exact Option.some_ne_none capacity
  have hapart : ∀ this, s.handles[i]? = some this →
      sizeT (n + this.ref.size) ≤ this.capacity.getD 0 → ∀ k < s.handles.length, k ≠ i →
        s.At k fun other => Beside other.ref this.ref n := by
    intro this' hthis' hle k _ hk
    obtain rfl := Option.some.inj (hthis.symm.trans hthis')
    rw [hsum] at hle
    exact hs.apart hthis hle hk
  refine ⟨hs.appended htw ht hthis (by omega) happ, ht,
    ⟨fun b hb => hs.append_cellsOf hn hlen h hb, ?_⟩, this, hthis, hmutable, happ⟩
  intro k hk hki
  rw [List.mem_singleton] at hki
  obtain ⟨bytes, hbefore, hafter⟩ := shown_append hs.wf hg hapart hlen h hk hki
  exact ⟨ht.others k (by simpa using hki), hafter.trans hbefore.symm⟩

theorem slice_whole {ref : Ref} {p : Ptr} (hp : ref.data = some p) (hpos : 0 < ref.size) :
    slice ref 0 ref.size = ref := by
  have hslice : ref.data.isSome ∧ min 0 ref.size < min ref.size ref.size := by
    rw [hp, Nat.zero_min, Nat.min_self]
    exact ⟨rfl, hpos⟩
  unfold slice
  rw [if_pos hslice, Nat.zero_min, Nat.min_self, Nat.sub_zero]
  have hadvance : advance ref.data 0 = ref.data := by
    rw [hp]
    rfl
  rw [hadvance]

/-- An append of a whole buffer copies it, or takes it over. -/
theorem State.Exclusive.appendBuffer {this buf : Handle} (hs : s.Exclusive foreign [])
    (hthis : s.handles[i]? = some this) (hbuf : s.handles[j]? = some buf)
    (hcount : buf.ref.size ≤ n) (h : s.appendBuffer malloc i j 0 n = .ok t) :
    t.Exclusive foreign [] ∧ Touches [i] s t ∧ Spares foreign [i] s t ∧
      Joined s t i this.ref buf.ref := by
  simp only [State.appendBuffer, bind_ok, handle_ok] at h
  obtain ⟨this', hthis', -, -, buf', hbuf', h⟩ := h
  obtain rfl := Option.some.inj (hthis.symm.trans hthis')
  obtain rfl := Option.some.inj (hbuf.symm.trans hbuf')
  rcases Nat.eq_zero_or_pos buf.ref.size with hzero | hpos
  · have hcond : ¬(0 < buf.ref.size ∧ 0 < n) := by omega
    rw [if_neg hcond, pure_ok] at h
    subst h
    have hq : Quiet [i] s s := Quiet.refl _ _
    exact ⟨hs, hq.toTouches, hs.spares_of_quiet hs.wf hq, .nothing hzero rfl⟩
  have hcond : 0 < buf.ref.size ∧ 0 < n := by omega
  have hmin : min n (buf.ref.size - 0) = buf.ref.size := by omega
  simp only [if_pos hcond, hmin] at h
  obtain ⟨p, hp⟩ : ∃ p, buf.ref.data = some p := by
    cases hd : buf.ref.data with
    | some p => exact ⟨p, rfl⟩
    | none =>
      have hroom := hs.wf.room hbuf
      rw [hd] at hroom
      exact absurd hroom (Nat.ne_of_gt hpos)
  by_cases hfilled : 0 < this.ref.size
  · rw [if_pos hfilled] at h
    have hread : ∀ (heap : Heap UInt8) (bytes : Bytes),
        heap.read (advance buf.ref.data 0) buf.ref.size = some bytes →
        bytes.length = buf.ref.size := by
      intro heap bytes hb
      obtain ⟨hroom, rfl⟩ := Heap.read_eq_some.mp hb
      exact hroom.cellsAt_length
    obtain ⟨hte, ht, hspares, this', hthis', -, happ⟩ := hs.append (size_lt hs.wf hbuf) hread h
    obtain rfl := Option.some.inj (hthis.symm.trans hthis')
    exact ⟨hte, ht, hspares, .added hfilled hpos happ⟩
  · simp only [if_neg hfilled, slice_whole hp hpos, bind_ok, pure_ok] at h
    obtain ⟨u, hu, rfl⟩ := h
    obtain ⟨huw, huq, this', -, hui⟩ :=
      assignTemporary_spec (hs.wf.retain (hs.wf.room hbuf) (hs.wf.owned hbuf)) hu
    have htw := huw.putCapacity i (some buf.ref.size)
    have htq : Quiet [i] s (u.putCapacity i (some buf.ref.size)) :=
      (((s.retain_quiet _).mono (by simp)).trans huq).trans (u.putCapacity_quiet i _)
    have hti : (u.putCapacity i (some buf.ref.size)).handles[i]? =
        some ⟨buf.ref, some buf.ref.size⟩ := by
      rw [State.putCapacity_get, if_pos rfl, hui]
      rfl
    refine ⟨?_, htq.toTouches, hs.spares_of_quiet htw htq,
      .adopted (Nat.eq_zero_of_not_pos hfilled) hpos p hp hti⟩
    refine hs.tame htw htq.toTouches ?_ (fun _ hb => .inl hb) (by simp)
    intro k hk h hh
    obtain rfl := List.mem_singleton.mp hk
    obtain rfl := Option.some.inj (hti.symm.trans hh)
    exact tame_copy hbuf _ (Handle.not_loose_size _)

theorem State.Exclusive.slice {first last : Nat} (hs : s.Exclusive foreign spent)
    (h : call build malloc s (.slice .buffer j first last) = .ok t) :
    t.Exclusive foreign spent ∧ Quiet [s.handles.length] s t ∧ ∃ this, s.handles[j]? = some this ∧
      t.handles[s.handles.length]? = some ⟨Buffer.slice this.ref first last, none⟩ := by
  obtain ⟨htw, htq, this, capacity, hthis, hnew, ⟨-, rfl⟩ | ⟨hkind, -⟩⟩ := sliceOp_spec hs.wf h
  · refine ⟨?_, htq, this, hthis, hnew⟩
    refine hs.tame htw htq.toTouches ?_ (fun _ hb => .inl hb) (fun _ hi => .inl hi)
    intro k hk h hh
    obtain rfl := List.mem_singleton.mp hk
    obtain rfl := Option.some.inj (hnew.symm.trans hh)
    exact tame_slice hthis none (Handle.not_loose_plain _)
  · cases hkind

theorem State.Exclusive.copy (hs : s.Exclusive foreign spent)
    (h : call build malloc s (.copyConstruct .buffer .buffer j) = .ok t) :
    t.Exclusive foreign spent ∧ Quiet [s.handles.length] s t ∧ ∃ other, s.handles[j]? = some other ∧
      t.handles[s.handles.length]? = some ⟨other.ref, none⟩ := by
  obtain ⟨htw, htq, other, capacity, hother, hcapacity, hnew⟩ := copyConstruct_spec hs.wf h
  obtain rfl : none = capacity := Except.ok.inj hcapacity
  refine ⟨?_, htq, other, hother, hnew⟩
  refine hs.tame htw htq.toTouches ?_ (fun _ hb => .inl hb) (fun _ hi => .inl hi)
  intro k hk h hh
  obtain rfl := List.mem_singleton.mp hk
  obtain rfl := Option.some.inj (hnew.symm.trans hh)
  exact tame_copy hother none (Handle.not_loose_plain _)

theorem Kind.not_loose (kind : Kind) (ref : Ref) : ¬Handle.Loose ⟨ref, kind.capacity ref.size⟩ := by
  cases kind with
  | buffer => exact Handle.not_loose_plain ref
  | mutable => exact Handle.not_loose_size ref

theorem Kind.not_loose_zero (kind : Kind) (ref : Ref) : ¬Handle.Loose ⟨ref, kind.capacity 0⟩ := by
  cases kind with
  | buffer => exact Handle.not_loose_plain ref
  | mutable => exact Handle.not_loose_zero ref

/-- A handle that is reset is not spent any more. -/
theorem State.Exclusive.reset {spent' : List Nat} (hs : s.Exclusive foreign spent)
    (hspent : ∀ k ∈ spent, k ∈ spent' ∨ k = i) (h : call build malloc s (.reset i) = .ok t) :
    t.Exclusive foreign spent' ∧ Quiet [i] s t ∧ Emptied s t i := by
  obtain ⟨htw, htq, this, hthis, hti⟩ := reset_spec hs.wf h
  refine ⟨?_, htq, _, hti, ?_⟩
  · refine hs.tame htw htq.toTouches ?_ (fun _ hb => .inl hb) ?_
    · intro k hk h hh
      obtain rfl := List.mem_singleton.mp hk
      obtain rfl := Option.some.inj (hti.symm.trans hh)
      exact tame_null (Kind.not_loose_zero _ _)
    · intro k hk
      exact (hspent k hk).imp_right fun hki => List.mem_singleton.mpr hki
  · intro h hh hplain
    obtain rfl := Option.some.inj (hthis.symm.trans hh)
    show (State.kind this).capacity 0 = none
    rw [State.kind, hplain]
    rfl

theorem State.Exclusive.spend {spent' : List Nat} (hs : s.Exclusive foreign spent)
    (hsub : ∀ k ∈ spent, k ∈ spent') : s.Exclusive foreign spent' :=
  hs.tame hs.wf (Quiet.refl [] s).toTouches nofun (fun _ hb => .inl hb)
    (fun k hk => .inl (hsub k hk))

theorem State.Exclusive.write {ptr : Ptr} {bytes : Bytes} {heap : Heap UInt8}
    (hs : s.Exclusive foreign spent) (h : s.heap.write ptr bytes = some heap) :
    State.Exclusive { s with heap := heap } foreign spent := by
  have ht : Touches [] s { s with heap := heap } := ⟨fun _ _ => rfl, Heap.write_keeps h⟩
  exact hs.tame (hs.wf.write h) ht nofun (fun _ hb => .inl hb) (fun _ hk => .inl hk)

theorem cellsAt_cellsOf {p : Ptr} (h : t.cellsOf p.block = s.cellsOf p.block) (n : Nat) :
    t.heap.cellsAt (some p) n = s.heap.cellsAt (some p) n := by
  show ((((t.cellsOf p.block)).getD []).drop p.off).take n = _
  rw [h]
  rfl

/-- Bytes that are written as they are. -/
theorem write_same {p : Ptr} {heap : Heap UInt8}
    (h : s.heap.write p (s.heap.cellsAt (some p) n) = some heap) (hroom : s.heap.Room (some p) n) :
    s.heap.SameCells heap := by
  obtain ⟨-, rfl⟩ := Heap.write_eq_some h
  obtain ⟨blk, hblk, -, hle⟩ := hroom
  intro b blk' hb
  rw [List.getElem?_modify, hb]
  by_cases hpb : p.block = b
  · subst hpb
    obtain rfl := Option.some.inj (hblk.symm.trans hb)
    simp only [if_true, Option.map_eq_map, Option.map_some, Option.some.injEq, exists_eq_left']
    have hcells : s.heap.cellsAt (some p) n = (blk.cells.drop p.off).take n := by
      simp only [Heap.cellsAt, hblk, Option.map_some, Option.getD_some]
    have hlength : ((blk.cells.drop p.off).take n).length = n := by
      rw [List.length_take, List.length_drop]
      omega
    rw [hcells, hlength, ← List.drop_drop, List.append_assoc, List.take_append_drop,
      List.take_append_drop]
  · simp only [if_neg hpb]
    exact ⟨blk', rfl, rfl⟩

/-- Memory that is given to a `buffer` may become foreign. -/
theorem State.Exclusive.fresh {region : Region} (hs : s.Exclusive foreign spent)
    (h : call build malloc s (.constructDeleter region) = .ok t) :
    t.Exclusive (s.heap.length :: foreign) spent ∧ Quiet [s.handles.length] s t ∧
      t.handles[s.handles.length]? = some
        ⟨⟨some ⟨s.heap.length, 0⟩, region.bytes.length, some s.heap.length⟩, none⟩ := by
  obtain ⟨htw, htq, -⟩ := constructDeleter_spec hs.wf h
  have hnew : t.handles[s.handles.length]? = some
      ⟨⟨some ⟨s.heap.length, 0⟩, region.bytes.length, some s.heap.length⟩, none⟩ := by
    cases h
    rw [State.push_get, if_pos rfl]
  refine ⟨?_, htq, hnew⟩
  refine hs.tame htw htq.toTouches ?_ ?_ (fun _ hi => .inl hi)
  · intro k hk h hh
    obtain rfl := List.mem_singleton.mp hk
    obtain rfl := Option.some.inj (hnew.symm.trans hh)
    refine ⟨Handle.not_loose_plain _, fun p hp => .inl ?_⟩
    obtain rfl := Option.some.inj hp
    exact Nat.le_refl _
  · intro b hb
    rcases List.mem_cons.mp hb with rfl | hb
    · exact .inr ⟨Nat.le_refl _, block_lt htw hnew rfl⟩
    · exact .inl hb

end

end Libnodecc.Buffer
