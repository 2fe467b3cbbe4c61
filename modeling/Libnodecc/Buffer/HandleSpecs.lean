import Libnodecc.Buffer.Handles

namespace Libnodecc.Buffer

open Util

theorem bind_ok {α β : Type} {x : Call α} {f : α → Call β} {b : β} :
    (x >>= f) = .ok b ↔ ∃ a, x = .ok a ∧ f a = .ok b := by
  cases x with
  | error stop => simp [bind, Except.bind]
  | ok a => simp [bind, Except.bind]

theorem bind_refused {α β : Type} {x : Call α} {f : α → Call β} :
    (x >>= f) = .error .badAlloc ↔
      x = .error .badAlloc ∨ ∃ a, x = .ok a ∧ f a = .error .badAlloc := by
  cases x with
  | error stop => simp [bind, Except.bind]
  | ok a => simp [bind, Except.bind]

theorem call_bind {α β : Type} (a : α) (f : α → Call β) : ((.ok a : Call α) >>= f) = f a := rfl

theorem call_stop {α β : Type} (e : Stop) (f : α → Call β) :
    ((.error e : Call α) >>= f) = .error e := rfl

theorem call_defined {α β : Type} (a : α) (f : α → Call β) : (defined (some a) >>= f) = f a := rfl

theorem call_undefined {α β : Type} (f : α → Call β) :
    (defined none >>= f) = .error .undefined := rfl

theorem pure_ok {α : Type} {a b : α} : (pure a : Call α) = .ok b ↔ a = b := by
  simp [pure, Except.pure]

theorem defined_ok {α : Type} {x : Option α} {a : α} : defined x = .ok a ↔ x = some a := by
  cases x with
  | none => simp [defined]
  | some b => simp [defined]

theorem handle_ok {s : State} {i : Nat} {h : Handle} :
    s.handle i = .ok h ↔ s.handles[i]? = some h := defined_ok

theorem capacity_ok {s : State} {i n : Nat} :
    s.capacity i = .ok n ↔ ∃ h, s.handles[i]? = some h ∧ h.capacity = some n := by
  simp only [State.capacity, bind_ok, handle_ok, defined_ok]

namespace State

variable (s : State) (i k : Nat)

@[simp] theorem retain_handles (ref : Ref) : (s.retain ref).handles = s.handles := rfl

@[simp] theorem retain_heap (ref : Ref) : (s.retain ref).heap = s.heap.retain ref.p := rfl

theorem setRef_get (ref : Ref) : (s.setRef i ref).handles[k]? =
    if i = k then (s.handles[k]?).map fun h => { h with ref := ref } else s.handles[k]? := by
  simp only [setRef, List.getElem?_modify]
  split_ifs <;> simp

theorem resize_get (size : Nat) : (s.resize i size).handles[k]? =
    if i = k then (s.handles[k]?).map fun h => { h with ref := { h.ref with size := size } }
    else s.handles[k]? := by
  simp only [resize, List.getElem?_modify]
  split_ifs <;> simp

theorem putCapacity_get (capacity : Option Nat) : (s.putCapacity i capacity).handles[k]? =
    if i = k then (s.handles[k]?).map fun h => { h with capacity := capacity }
    else s.handles[k]? := by
  simp only [putCapacity, List.getElem?_modify]
  split_ifs <;> simp

theorem push_get (ref : Ref) (capacity : Option Nat) : (s.push ref capacity).handles[k]? =
    if k = s.handles.length then some ⟨ref, capacity⟩ else s.handles[k]? := by
  rw [push]
  by_cases hlt : k < s.handles.length
  · have hne : k ≠ s.handles.length := by omega
    rw [if_neg hne, List.getElem?_append_left hlt]
  · by_cases hk : k = s.handles.length
    · simp [hk]
    · rw [if_neg hk, List.getElem?_eq_none_iff.mpr (by simp; omega),
        List.getElem?_eq_none_iff.mpr (by omega)]

end State

/-- Only the handles in `touched` change, and no memory goes away but by being freed. -/
structure Touches (touched : List Nat) (s t : State) : Prop where
  others : ∀ k, k ∉ touched → t.handles[k]? = s.handles[k]?
  keeps : s.heap.Keeps t.heap

structure Quiet (touched : List Nat) (s t : State) : Prop extends Touches touched s t where
  cells : s.heap.SameCells t.heap

theorem Touches.trans {touched : List Nat} {s t u : State} (h : Touches touched s t)
    (h' : Touches touched t u) : Touches touched s u :=
  ⟨fun k hk => (h'.others k hk).trans (h.others k hk), h.keeps.trans h'.keeps⟩

theorem Quiet.refl (touched : List Nat) (s : State) : Quiet touched s s :=
  ⟨⟨fun _ _ => rfl, Heap.Keeps.refl _⟩, Heap.SameCells.refl _⟩

theorem Quiet.trans {touched : List Nat} {s t u : State} (h : Quiet touched s t)
    (h' : Quiet touched t u) : Quiet touched s u :=
  ⟨h.toTouches.trans h'.toTouches, h.cells.trans h'.cells⟩

theorem Quiet.mono {touched touched' : List Nat} {s t : State} (h : Quiet touched s t)
    (hsub : ∀ k ∈ touched, k ∈ touched') : Quiet touched' s t :=
  ⟨⟨fun k hk => h.others k fun hk' => hk (hsub k hk'), h.keeps⟩, h.cells⟩

theorem Quiet.of_handles {touched : List Nat} {s t : State} (hheap : t.heap = s.heap)
    (h : ∀ k, k ∉ touched → t.handles[k]? = s.handles[k]?) : Quiet touched s t :=
  ⟨⟨h, hheap ▸ Heap.Keeps.refl _⟩, hheap ▸ Heap.SameCells.refl _⟩

namespace State

variable (s : State) (i : Nat)

theorem setRef_quiet (ref : Ref) : Quiet [i] s (s.setRef i ref) := by
  refine Quiet.of_handles rfl ?_
  intro k hk
  rw [setRef_get, if_neg (by rintro rfl; simp at hk)]

theorem resize_quiet (size : Nat) : Quiet [i] s (s.resize i size) := by
  refine Quiet.of_handles rfl ?_
  intro k hk
  rw [resize_get, if_neg (by rintro rfl; simp at hk)]

theorem putCapacity_quiet (capacity : Option Nat) : Quiet [i] s (s.putCapacity i capacity) := by
  refine Quiet.of_handles rfl ?_
  intro k hk
  rw [putCapacity_get, if_neg (by rintro rfl; simp at hk)]

theorem push_quiet (ref : Ref) (capacity : Option Nat) :
    Quiet [s.handles.length] s (s.push ref capacity) := by
  refine Quiet.of_handles rfl ?_
  intro k hk
  rw [push_get, if_neg (by rintro rfl; simp at hk)]

theorem retain_quiet (ref : Ref) : Quiet [] s (s.retain ref) :=
  ⟨⟨fun _ _ => rfl, Heap.retain_keeps _ _⟩, Heap.retain_sameCells _ _⟩

end State

def State.refs (s : State) : List Ref := s.handles.map Handle.ref

/-- The references of the handles, and those in flight, are live and counted. -/
structure State.Wf (s : State) (flying : List Ref) : Prop where
  counted : s.heap.Counted (flying ++ s.refs)
  small : ∀ (b : Nat) (blk : Block UInt8), s.heap[b]? = some blk → blk.cells.length < 2^63

namespace State.Wf

variable {s : State} {flying : List Ref}

theorem small_modify {heap : Heap UInt8} {b : Nat} {f : Block UInt8 → Block UInt8}
    (h : ∀ (b : Nat) (blk : Block UInt8), heap[b]? = some blk → blk.cells.length < 2^63)
    (hf : ∀ blk, (f blk).cells = blk.cells) (c : Nat) (blk : Block UInt8)
    (hc : (heap.modify b f)[c]? = some blk) : blk.cells.length < 2^63 := by
  simp only [List.getElem?_modify, Option.map_eq_map, Option.map_eq_some_iff] at hc
  obtain ⟨blk₀, hblk₀, rfl⟩ := hc
  split_ifs
  · rw [hf]
    exact h c blk₀ hblk₀
  · exact h c blk₀ hblk₀

theorem small_append {heap : Heap UInt8} {new : Block UInt8}
    (h : ∀ (b : Nat) (blk : Block UInt8), heap[b]? = some blk → blk.cells.length < 2^63)
    (hnew : new.cells.length < 2^63) (c : Nat) (blk : Block UInt8)
    (hc : (heap ++ [new])[c]? = some blk) : blk.cells.length < 2^63 := by
  rcases List.mem_append.mp (List.mem_of_getElem? hc) with hmem | hmem
  · obtain ⟨b, hb⟩ := List.getElem?_of_mem hmem
    exact h b blk hb
  · obtain rfl := List.mem_singleton.mp hmem
    exact hnew

/-- A handle is one reference among the others. -/
theorem refs_perm {i : Nat} {h : Handle} (hh : s.handles[i]? = some h) :
    ∃ rest, s.refs.Perm (h.ref :: rest) ∧
      ∀ f : Handle → Handle, ((s.handles.modify i f).map Handle.ref).Perm ((f h).ref :: rest) := by
  obtain ⟨hi, rfl⟩ := List.getElem?_eq_some_iff.mp hh
  refine ⟨(s.handles.eraseIdx i).map Handle.ref, ?_, ?_⟩
  · exact (List.getElem_cons_eraseIdx_perm hi).symm.map Handle.ref
  · intro f
    have hset : s.handles.modify i f = s.handles.set i (f s.handles[i]) := by
      apply List.ext_getElem?
      intro k
      rw [List.getElem?_modify, List.getElem?_set]
      by_cases hk : i = k
      · subst hk
        simp [hi]
      · simp [hk]
    rw [hset]
    exact (List.set_perm_cons_eraseIdx hi _).map Handle.ref

theorem null (h : s.Wf flying) : s.Wf (.null :: flying) :=
  ⟨Heap.Counted.null_iff.mpr h.counted, h.small⟩

theorem lift {i : Nat} {h : Handle} (hw : s.Wf flying) (hh : s.handles[i]? = some h) :
    (s.setRef i .null).Wf (h.ref :: flying) := by
  obtain ⟨rest, hrefs, hmod⟩ := refs_perm hh
  refine ⟨?_, hw.small⟩
  have h1 : s.heap.Counted (flying ++ (h.ref :: rest)) := hw.counted.perm (hrefs.append_left flying)
  have h2 : s.heap.Counted (.null :: (h.ref :: flying ++ rest)) :=
    Heap.Counted.null_iff.mpr (h1.perm List.perm_middle)
  refine h2.perm ?_
  calc (Ref.null :: (h.ref :: flying ++ rest)).Perm (h.ref :: flying ++ Ref.null :: rest) :=
        List.perm_middle.symm
    _ |>.Perm (h.ref :: flying ++ (s.setRef i .null).refs) :=
        (hmod fun h => { h with ref := .null }).symm.append_left _

theorem land {i : Nat} {h : Handle} {ref : Ref} (hw : s.Wf (ref :: flying))
    (hh : s.handles[i]? = some h) (hnull : h.ref = .null) : (s.setRef i ref).Wf flying := by
  obtain ⟨rest, hrefs, hmod⟩ := refs_perm hh
  rw [hnull] at hrefs
  refine ⟨?_, hw.small⟩
  have h1 : s.heap.Counted (ref :: flying ++ Ref.null :: rest) :=
    hw.counted.perm (hrefs.append_left _)
  have h2 : s.heap.Counted (ref :: flying ++ rest) :=
    Heap.Counted.null_iff.mp (h1.perm List.perm_middle)
  refine h2.perm ?_
  calc (ref :: flying ++ rest).Perm (flying ++ ref :: rest) := List.perm_middle.symm
    _ |>.Perm (flying ++ (s.setRef i ref).refs) :=
        (hmod fun h => { h with ref := ref }).symm.append_left _

theorem drop {ref : Ref} (hw : s.Wf (ref :: flying)) :
    ({ s with heap := s.heap.release ref.p } : State).Wf flying := by
  refine ⟨hw.counted.release, ?_⟩
  cases ref.p with
  | none => exact hw.small
  | some b => exact small_modify hw.small fun blk => rfl

theorem retain {ref : Ref} (hw : s.Wf flying) (hroom : s.heap.Room ref.data ref.size)
    (howner : ref.p = s.heap.owner ref.data) : (s.retain ref).Wf (ref :: flying) := by
  refine ⟨hw.counted.retain hroom howner, ?_⟩
  rw [retain_heap]
  cases ref.p with
  | none => exact hw.small
  | some b => exact small_modify hw.small fun blk => rfl

theorem push {ref : Ref} (hw : s.Wf (ref :: flying)) (capacity : Option Nat) :
    (s.push ref capacity).Wf flying := by
  refine ⟨hw.counted.perm ?_, hw.small⟩
  have hrefs : (s.push ref capacity).refs = s.refs ++ [ref] := by
    simp [refs, State.push]
  rw [hrefs]
  calc (ref :: flying ++ s.refs).Perm (flying ++ s.refs ++ [ref]) :=
        (List.perm_append_singleton _ _).symm
    _ |>.Perm (flying ++ (s.refs ++ [ref])) := List.Perm.of_eq (List.append_assoc ..)

theorem resize {i size : Nat} {h : Handle} (hw : s.Wf flying) (hh : s.handles[i]? = some h)
    (hroom : s.heap.Room h.ref.data size) : (s.resize i size).Wf flying := by
  obtain ⟨rest, hrefs, hmod⟩ := refs_perm hh
  refine ⟨?_, hw.small⟩
  have h1 : s.heap.Counted (h.ref :: (flying ++ rest)) :=
    (hw.counted.perm (hrefs.append_left flying)).perm List.perm_middle
  have h2 : s.heap.Counted ({ h.ref with size := size } :: (flying ++ rest)) :=
    h1.resize rfl hroom rfl
  refine h2.perm ?_
  calc ({ h.ref with size := size } :: (flying ++ rest)).Perm
        (flying ++ { h.ref with size := size } :: rest) := List.perm_middle.symm
    _ |>.Perm (flying ++ (s.resize i size).refs) :=
        (hmod fun h => { h with ref := { h.ref with size := size } }).symm.append_left _

theorem putCapacity (hw : s.Wf flying) (i : Nat) (capacity : Option Nat) :
    (s.putCapacity i capacity).Wf flying := by
  have hrefs : (s.putCapacity i capacity).refs = s.refs := by
    apply List.ext_getElem?
    intro k
    simp only [refs, List.getElem?_map, putCapacity_get]
    split_ifs
    · cases s.handles[k]? <;> rfl
    · rfl
  exact ⟨hrefs ▸ hw.counted, hw.small⟩

theorem write {ptr : Ptr} {bytes : Bytes} {heap : Heap UInt8} (hw : s.Wf flying)
    (h : s.heap.write ptr bytes = some heap) : ({ s with heap := heap } : State).Wf flying := by
  refine ⟨hw.counted.write h, ?_⟩
  intro b blk' hb
  have hlen : heap.length = s.heap.length := by
    obtain ⟨-, rfl⟩ := Heap.write_eq_some h
    exact List.length_modify ..
  have hlt := (List.getElem?_eq_some_iff.mp hb).1
  obtain ⟨blk, hblk⟩ : ∃ blk, s.heap[b]? = some blk := ⟨_, List.getElem?_eq_getElem (hlen ▸ hlt)⟩
  obtain ⟨blk'', hblk'', hcells, -⟩ := Heap.write_keeps h b blk hblk
  obtain rfl := Option.some.inj (hb.symm.trans hblk'')
  rw [hcells]
  exact hw.small b blk hblk

theorem ref_mem {i : Nat} {h : Handle} (hh : s.handles[i]? = some h) : h.ref ∈ s.refs :=
  List.mem_map.mpr ⟨h, List.mem_of_getElem? hh, rfl⟩

theorem room {i : Nat} {h : Handle} (hw : s.Wf flying) (hh : s.handles[i]? = some h) :
    s.heap.Room h.ref.data h.ref.size :=
  hw.counted.room _ (List.mem_append_right _ (ref_mem hh))

theorem owned {i : Nat} {h : Handle} (hw : s.Wf flying) (hh : s.handles[i]? = some h) :
    h.ref.p = s.heap.owner h.ref.data :=
  hw.counted.owned _ (List.mem_append_right _ (ref_mem hh))

end State.Wf

theorem init_wf : State.init.Wf [] :=
  ⟨Heap.Counted.empty, fun b blk h => by cases h⟩

end Libnodecc.Buffer
