import Libnodecc.Buffer.OpSpecs

namespace Libnodecc.Buffer

open Util

/-- What holds of the handle `i`, if there is one. -/
def State.At (s : State) (i : Nat) (P : Handle → Prop) : Prop :=
  ∀ this, s.handles[i]? = some this → P this

instance (s : State) (i : Nat) (P : Handle → Prop) [DecidablePred P] : Decidable (s.At i P) :=
  match hs : s.handles[i]? with
  | none => isTrue fun _ h => by cases hs.symm.trans h
  | some h => decidable_of_iff (P h) (by simp [State.At, hs])

/-- Where the recorded capacity allows `size` bytes, they lie in the block. -/
def Handle.Grows (heap : Heap UInt8) (size : Nat) (h : Handle) : Prop :=
  ∀ n, h.capacity = some n → size ≤ n → heap.Room h.ref.data size

instance (heap : Heap UInt8) (size : Nat) (h : Handle) : Decidable (h.Grows heap size) :=
  match hc : h.capacity with
  | none => isTrue fun _ hn => by cases hc.symm.trans hn
  | some n => decidable_of_iff (size ≤ n → heap.Room h.ref.data size) (by simp [Handle.Grows, hc])

/-- An append by `n` bytes, of which `written` are written: which handle, and which numbers. -/
structure Demand where
  i : Nat
  n : Nat
  written : Nat

/-- The append an operation comes down to, if it does. -/
def Op.demand (build : Build) (s : State) : Op → Option Demand
  | .append i _ _ n => some ⟨i, n, n⟩
  | .appendView i source pos count => do
    let this ← s.handles[i]?
    let size ← source.size s
    if (pos < size ∧ 0 < count) ∧ 0 < this.ref.size then
      some ⟨i, min count (size - pos), min count (size - pos)⟩
    else none
  | .appendBuffer i j pos count => do
    let this ← s.handles[i]?
    let buf ← s.handles[j]?
    if (pos < buf.ref.size ∧ 0 < count) ∧ 0 < this.ref.size then
      some ⟨i, min count (buf.ref.size - pos), min count (buf.ref.size - pos)⟩
    else none
  | .pushBack i ch => some ⟨i, ch.bytes.length, ch.bytes.length⟩
  | .appendNumber i n base =>
    if 2 ≤ base ∧ base ≤ 36 then
      some ⟨i, digits build n base,
        (Buf.digitLoop n base 64 (ipow base (subSizeT (digits build n base) 1))).length⟩
    else none
  | _ => none

section
variable {build : Build} {malloc : Malloc} {s t : State} {i n : Nat}

/-- What an append does to the handle, in place or in a new block. -/
inductive Appended (s t : State) (i size : Nat) : Prop
  | inPlace (this : Handle) (capacity : Nat) (hthis : s.handles[i]? = some this)
    (hcapacity : this.capacity = some capacity) (hle : size ≤ capacity)
    (ht : t.handles[i]? = some { this with ref := { this.ref with size := size } })
  | moved (capacity : Nat) (hle : size ≤ capacity)
    (hroom : t.heap.Room (some ⟨s.heap.length, 0⟩) capacity)
    (ht : t.handles[i]? = some ⟨⟨some ⟨s.heap.length, 0⟩, size, some s.heap.length⟩, some capacity⟩)

theorem Moved.appended {size : Nat} (h : Moved s t i size) : Appended s t i size := by
  obtain ⟨capacity, hle, hroom, ht⟩ := h.fresh
  exact .moved capacity hle hroom ht

/-- The bytes are written behind the handle's contents; `ptr` is where. -/
theorem expandSize_appended {u : State} {p : Option Ptr} (hw : s.Wf [])
    (hg : ∀ this, s.handles[i]? = some this →
      this.Grows s.heap (sizeT (n + this.ref.size)))
    (h : s.expandSize malloc i n = .ok (u, p)) :
    u.Wf [] ∧ Quiet [i] s u ∧ ∃ this, s.handles[i]? = some this ∧
      Appended s u i (sizeT (n + this.ref.size)) ∧
      ((∃ capacity, this.capacity = some capacity ∧ sizeT (n + this.ref.size) ≤ capacity) ∧
          u.heap = s.heap ∧ p = advance this.ref.data this.ref.size ∨
        p = some ⟨s.heap.length, this.ref.size⟩) := by
  obtain ⟨this, capacity, hthis, hcapacity, ⟨hle, rfl, rfl⟩ | ⟨-, hmoved, rfl⟩⟩ :=
    expandSize_spec hw h
  · refine ⟨hw.resize hthis (hg this hthis capacity hcapacity hle), s.resize_quiet i _, this, hthis,
      ?_, .inl ⟨⟨capacity, hcapacity, hle⟩, rfl, rfl⟩⟩
    refine .inPlace this capacity hthis hcapacity hle ?_
    rw [State.resize_get, if_pos rfl, hthis]
    rfl
  · exact ⟨hmoved.wf, hmoved.quiet, this, hthis, hmoved.appended, .inr rfl⟩

/-- An append keeps the references counted and touches its handle alone. -/
theorem append_keeps {data : Heap UInt8 → Option Bytes} (hw : s.Wf [])
    (hg : ∀ this, s.handles[i]? = some this → this.Grows s.heap (sizeT (n + this.ref.size)))
    (h : s.append malloc i n data = .ok t) :
    t.Wf [] ∧ Touches [i] s t ∧ ∃ this, s.handles[i]? = some this ∧
      Appended s t i (sizeT (n + this.ref.size)) := by
  obtain ⟨u, p, hu, h⟩ := append_spec h
  obtain ⟨huw, huq, this, hthis, happ, -⟩ := expandSize_appended hw hg hu
  rcases h with ⟨-, rfl⟩ | ⟨ptr, bytes, heap, -, -, hwrite, rfl⟩
  · exact ⟨huw, huq.toTouches, this, hthis, happ⟩
  · have htw := huw.write hwrite
    refine ⟨htw, ⟨huq.others, huq.keeps.trans (Heap.write_keeps hwrite)⟩, this, hthis, ?_⟩
    cases happ with
    | inPlace this' capacity hthis' hcapacity hle ht =>
      exact .inPlace this' capacity hthis' hcapacity hle ht
    | moved capacity hle hroom ht =>
      exact .moved capacity hle (hroom.keeps (Heap.write_keeps hwrite) (htw.room ht)) ht

theorem source_read_length {source : Source} {pos : Nat} {heap : Heap UInt8} {bytes : Bytes}
    (h : source.read s pos n heap = some bytes) : bytes.length = n := by
  cases source with
  | caller region =>
    simp only [Source.read] at h
    split_ifs at h with hle
    cases h
    simp only [List.length_take, List.length_drop]
    omega
  | shown j =>
    obtain ⟨other, -, h⟩ := Option.bind_eq_some_iff.mp h
    obtain ⟨hroom, rfl⟩ := Heap.read_eq_some.mp h
    exact hroom.cellsAt_length

/-- An operation with a demand is the append it demands. -/
theorem call_demand {op : Op} {d : Demand} (hd : op.demand build s = some d)
    (h : call build malloc s op = .ok t) :
    ∃ data, s.append malloc d.i d.n data = .ok t ∧
      ∀ heap bytes, data heap = some bytes → bytes.length = d.written := by
  cases op with
  | append i source pos n =>
    cases hd
    exact ⟨_, h, fun heap bytes hb => source_read_length hb⟩
  | pushBack i ch =>
    cases hd
    exact ⟨fun _ => some ch.bytes, h, fun heap bytes hb => by rw [← Option.some.inj hb]⟩
  | appendNumber i n base =>
    simp only [Op.demand] at hd
    split_ifs at hd with hbase
    cases hd
    simp only [call, State.appendNumber, bind_ok, if_pos hbase] at h
    obtain ⟨-, -, h⟩ := h
    refine ⟨_, h, ?_⟩
    intro heap bytes hb
    split_ifs at hb
    cases hb
    rfl
  | appendView i source pos count =>
    simp only [Op.demand, Option.bind_eq_bind, Option.bind_eq_some_iff] at hd
    obtain ⟨this, hthis, size, hsize, hd⟩ := hd
    split_ifs at hd with hcond
    cases hd
    simp only [call, bind_ok, handle_ok, defined_ok] at h
    obtain ⟨this', hthis', -, -, size', hsize', h⟩ := h
    obtain rfl := Option.some.inj (hthis.symm.trans hthis')
    obtain rfl := Option.some.inj (hsize.symm.trans hsize')
    rw [if_pos hcond.1, if_pos hcond.2] at h
    exact ⟨_, h, fun heap bytes hb => source_read_length hb⟩
  | appendBuffer i j pos count =>
    simp only [Op.demand, Option.bind_eq_bind, Option.bind_eq_some_iff] at hd
    obtain ⟨this, hthis, buf, hbuf, hd⟩ := hd
    split_ifs at hd with hcond
    cases hd
    simp only [call, State.appendBuffer, bind_ok, handle_ok] at h
    obtain ⟨this', hthis', -, -, buf', hbuf', h⟩ := h
    obtain rfl := Option.some.inj (hthis.symm.trans hthis')
    obtain rfl := Option.some.inj (hbuf.symm.trans hbuf')
    rw [if_pos hcond.1, if_pos hcond.2] at h
    refine ⟨_, h, ?_⟩
    intro heap bytes hb
    obtain ⟨hroom, rfl⟩ := Heap.read_eq_some.mp hb
    exact hroom.cellsAt_length
  | _ => cases hd

theorem appendView_idle {source : Source} {pos count : Nat}
    (hd : (Op.appendView i source pos count).demand build s = none)
    (h : call build malloc s (.appendView i source pos count) = .ok t) : t = s := by
  simp only [call, bind_ok, handle_ok, defined_ok] at h
  obtain ⟨this, hthis, -, -, size, hsize, h⟩ := h
  simp only [Op.demand, hthis, hsize, Option.bind_eq_bind, Option.bind_some] at hd
  by_cases hcond : pos < size ∧ 0 < count
  · rw [if_pos hcond] at h
    by_cases hfilled : 0 < this.ref.size
    · rw [if_pos ⟨hcond, hfilled⟩] at hd
      cases hd
    · rw [if_neg hfilled, pure_ok] at h
      exact h.symm
  · rw [if_neg hcond, pure_ok] at h
    exact h.symm

theorem appendNumber_idle {m base : Nat}
    (hd : (Op.appendNumber i m base).demand build s = none)
    (h : call build malloc s (.appendNumber i m base) = .ok t) : t = s := by
  simp only [Op.demand] at hd
  split_ifs at hd with hbase
  simp only [call, State.appendNumber, bind_ok, if_neg hbase, pure_ok] at h
  obtain ⟨-, -, rfl⟩ := h
  rfl

/-- An empty handle takes over the slice it is to append. -/
theorem appendBuffer_idle {j pos count : Nat} (hw : s.Wf [])
    (hd : (Op.appendBuffer i j pos count).demand build s = none)
    (h : call build malloc s (.appendBuffer i j pos count) = .ok t) :
    t = s ∨ t.Wf [] ∧ Quiet [i] s t ∧
      ∃ ref, t.handles[i]? = some ⟨ref, some ref.size⟩ := by
  simp only [call, State.appendBuffer, bind_ok, handle_ok] at h
  obtain ⟨this, hthis, -, -, buf, hbuf, h⟩ := h
  simp only [Op.demand, hthis, hbuf, Option.bind_eq_bind, Option.bind_some] at hd
  by_cases hcond : pos < buf.ref.size ∧ 0 < count
  · rw [if_pos hcond] at h
    by_cases hfilled : 0 < this.ref.size
    · rw [if_pos ⟨hcond, hfilled⟩] at hd
      cases hd
    · simp only [if_neg hfilled, bind_ok, pure_ok] at h
      obtain ⟨u, hu, rfl⟩ := h
      obtain ⟨hroom, howned⟩ := slice_spec (hw.room hbuf) (hw.owned hbuf) pos
        (min count (buf.ref.size - pos))
      obtain ⟨huw, huq, this', -, hui⟩ := assignTemporary_spec (hw.retain hroom howned) hu
      refine .inr ⟨huw.putCapacity i _,
        (((s.retain_quiet _).mono (by simp)).trans huq).trans (u.putCapacity_quiet i _),
        slice buf.ref pos (min count (buf.ref.size - pos)), ?_⟩
      rw [State.putCapacity_get, if_pos rfl, hui]
      rfl
  · rw [if_neg hcond, pure_ok] at h
    exact .inl h.symm

end

end Libnodecc.Buffer
