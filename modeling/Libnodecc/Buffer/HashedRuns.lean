import Libnodecc.Buffer.HashedEquality
import Libnodecc.Buffer.ValueSemantics

namespace Libnodecc.Buffer

open Util

def uncounted (heap : Heap UInt8) : Heap UInt8 := heap.map fun blk => ⟨blk.cells, none, false⟩

def areaOf (ref : Ref) : Area := ⟨ref.data, ref.size⟩

/-- The objects with a hash that are the handles of `s`, each with some hash. -/
structure Hashes (s : State) (v : HashedState) : Prop where
  heap : v.heap = uncounted s.heap
  values : v.values.map Hashed.area = s.handles.map fun h => areaOf h.ref
  classes : ∀ x ∈ v.values, x.cls = .hashedBuffer

/-- Memory at `block` with a buffer for it. -/
def memoryOps (block : Nat) (region : Region) : List HashedOp :=
  [.callerMemory region.bytes, .constructPlain .hashedBuffer ⟨some ⟨block, 0⟩, region.bytes.length⟩]

def copyOps (malloc : Malloc) (block : Nat) (region : Region) : List HashedOp :=
  if region.bytes.length = 0 then [.default .hashedBuffer]
  else if (malloc.serve block region.bytes.length).isSome then memoryOps block region
  else []

/-- An operation on handles that are a `hashed_buffer`. -/
def hashedOps (malloc : Malloc) (s : State) : Op → Option (List HashedOp)
  | .callerMemory region => some [.callerMemory region.bytes]
  | .construct .buffer => some [.default .hashedBuffer]
  | .constructCopy region => some (copyOps malloc s.heap.length region)
  | .constructWeak block off size =>
    some [.constructPlain .hashedBuffer (.view (some ⟨block, off⟩) size)]
  | .constructDeleter region => some (memoryOps s.heap.length region)
  | .copyConstruct .buffer .buffer j => some [.copyConstruct j]
  | .slice .buffer j first last => (s.handles[j]?).map fun this =>
    [.constructPlain .hashedBuffer (areaOf (slice this.ref first last))]
  | .assignView i block off size => some [.assignPlain i (.view (some ⟨block, off⟩) size)]
  | .copyAssign i .buffer j => some [.copyAssign i j]
  | .swap i .buffer j => some [.swap i j]
  | .reset i => some [.reset i]
  | _ => none

section
variable {heap heap' : Heap UInt8}

theorem uncounted_room {data : Option Ptr} {n : Nat} (h : heap.Room data n) :
    (uncounted heap).Room data n := by
  cases data with
  | none => exact h
  | some ptr =>
    obtain ⟨blk, hblk, -, hle⟩ := h
    exact ⟨⟨blk.cells, none, false⟩, by simp [uncounted, hblk], rfl, hle⟩

theorem uncounted_cellsAt (data : Option Ptr) (n : Nat) :
    (uncounted heap).cellsAt data n = heap.cellsAt data n := by
  cases data with
  | none => rfl
  | some ptr => simp [Heap.cellsAt, uncounted, Function.comp_def]

theorem uncounted_append (blk : Block UInt8) :
    uncounted (heap ++ [blk]) = uncounted heap ++ [⟨blk.cells, none, false⟩] :=
  List.map_append

theorem uncounted_modify (b : Nat) (f : Block UInt8 → Block UInt8)
    (hf : ∀ blk, (f blk).cells = blk.cells) : uncounted (heap.modify b f) = uncounted heap := by
  apply List.ext_getElem?
  intro a
  rw [uncounted, uncounted, List.getElem?_map, List.getElem?_map, List.getElem?_modify]
  cases heap[a]? with
  | none => rfl
  | some blk =>
    split_ifs
    · simp [hf]
    · rfl

theorem uncounted_retain (p : Option Nat) : uncounted (heap.retain p) = uncounted heap := by
  cases p with
  | none => rfl
  | some b => exact uncounted_modify b _ fun _ => rfl

theorem uncounted_release (p : Option Nat) : uncounted (heap.release p) = uncounted heap := by
  cases p with
  | none => rfl
  | some b => exact uncounted_modify b _ fun _ => rfl

end

namespace Hashes

variable {s t : State} {v : HashedState} {i j : Nat} {h : Handle} {ref : Ref}

theorem get (hv : Hashes s v) (hh : s.handles[i]? = some h) :
    ∃ hash, v.values[i]? = some ⟨.hashedBuffer, areaOf h.ref, hash⟩ := by
  have hi := congrArg (·[i]?) hv.values
  simp only [List.getElem?_map, hh, Option.map_some] at hi
  obtain ⟨x, hx, harea⟩ := Option.map_eq_some_iff.mp hi
  obtain ⟨cls, area, hash⟩ := x
  have hcls : cls = .hashedBuffer := hv.classes _ (List.mem_of_getElem? hx)
  rw [hx, hcls, ← harea]
  exact ⟨hash, rfl⟩

theorem put (hv : Hashes s v) (hh : s.handles[i]? = some h) (ref : Ref) (hash : Nat) :
    Hashes (s.setRef i ref) (v.put i ⟨.hashedBuffer, areaOf ref, hash⟩) := by
  refine ⟨hv.heap, ?_, ?_⟩
  · apply List.ext_getElem?
    intro k
    have hk := congrArg (·[k]?) hv.values
    simp only [List.getElem?_map] at hk
    obtain ⟨was, hi⟩ := hv.get hh
    have hlt := (List.getElem?_eq_some_iff.mp hi).1
    rw [HashedState.put, List.getElem?_map, List.getElem?_map, List.getElem?_set, State.setRef_get]
    split_ifs with hik
    · rw [← hik, hh]
      rfl
    · exact hk
  · intro x hx
    rcases List.mem_or_eq_of_mem_set hx with hx | rfl
    · exact hv.classes x hx
    · rfl

theorem put_put (v : HashedState) (i : Nat) (x y : Hashed) : (v.put i x).put i y = v.put i y := by
  rw [HashedState.put, HashedState.put, HashedState.put, List.set_set]

theorem push (hv : Hashes s v) (ref : Ref) (capacity : Option Nat) (hash : Nat) :
    Hashes (s.push ref capacity) (v.push ⟨.hashedBuffer, areaOf ref, hash⟩) := by
  refine ⟨hv.heap, ?_, ?_⟩
  · rw [HashedState.push, State.push, List.map_append, List.map_append, hv.values]
    rfl
  · intro x hx
    rcases List.mem_append.mp hx with hx | hx
    · exact hv.classes x hx
    · rw [List.mem_singleton.mp hx]

theorem putCapacity (hv : Hashes s v) (i : Nat) (capacity : Option Nat) :
    Hashes (s.putCapacity i capacity) v := by
  refine ⟨hv.heap, ?_, hv.classes⟩
  rw [hv.values]
  apply List.ext_getElem?
  intro k
  rw [List.getElem?_map, List.getElem?_map, State.putCapacity_get]
  split_ifs
  · cases s.handles[k]? <;> rfl
  · rfl

theorem withHeap {heap : Heap UInt8} (hv : Hashes s v) (h : uncounted heap = uncounted s.heap) :
    Hashes { s with heap := heap } v :=
  ⟨hv.heap.trans h.symm, hv.values, hv.classes⟩

theorem grow (hv : Hashes s v) (blk : Block UInt8) {bytes : Bytes} (h : blk.cells = bytes) :
    Hashes { s with heap := s.heap ++ [blk] } (v.grow bytes) := by
  refine ⟨?_, hv.values, hv.classes⟩
  rw [HashedState.grow, uncounted_append, hv.heap, h]

theorem retain (hv : Hashes s v) (ref : Ref) : Hashes (s.retain ref) v :=
  hv.withHeap (uncounted_retain _)

theorem live (hv : Hashes s v) (h : s.heap.Room ref.data ref.size) : (areaOf ref).Live v.heap := by
  rw [hv.heap]
  exact uncounted_room h

theorem release (hv : Hashes s v) (h : s.release i = .ok t) :
    ∃ this, v.values[i]? = some this ∧ this.cls = .hashedBuffer ∧
      Hashes t (v.put i this.release) := by
  simp only [State.release, bind_ok, handle_ok, pure_ok] at h
  obtain ⟨this, hthis, rfl⟩ := h
  obtain ⟨hash, hi⟩ := hv.get hthis
  exact ⟨_, hi, rfl, (hv.withHeap (uncounted_release _)).put hthis .null hash⟩

end Hashes

theorem callerView_area {heap : Heap UInt8} {block off size : Nat} {ref : Ref}
    (h : callerView heap block off size = .ok ref) :
    areaOf ref = .view (some ⟨block, off⟩) size := by
  unfold callerView at h
  split at h
  · cases h
  · split_ifs at h with hfits hsize
    · cases h
      rw [hsize]
      rfl
    · cases h
      simp [areaOf, Area.view, hsize]

section
variable {build : Build} {malloc : Malloc} {s t : State} {v : HashedState} {op : Op}

theorem constructPlain_run {ref : Ref} (hv : Hashes s v) (h : s.heap.Room ref.data ref.size) :
    run hashedStep v [.constructPlain .hashedBuffer (areaOf ref)] =
      some (v.push ⟨.hashedBuffer, areaOf ref, 0⟩) := by
  rw [run_cons]
  change ((if (areaOf ref).Live v.heap then _ else none : Option HashedState).bind _) = _
  rw [if_pos (hv.live h)]
  rfl

theorem fresh_run {region : Region} (hv : Hashes s v) :
    ∃ w, run hashedStep v (memoryOps s.heap.length region) = some w ∧
      Hashes (State.push { s with heap := s.heap ++ [⟨region.bytes, some 1, false⟩] }
        ⟨some ⟨s.heap.length, 0⟩, region.bytes.length, some s.heap.length⟩ none) w := by
  have hgrow := hv.grow ⟨region.bytes, some 1, false⟩ rfl
  have hroom : Heap.Room (s.heap ++ [⟨region.bytes, some 1, false⟩]) (some ⟨s.heap.length, 0⟩)
      region.bytes.length := ⟨_, List.getElem?_concat_length .., rfl, (Nat.zero_add _).le⟩
  let ref : Ref := ⟨some ⟨s.heap.length, 0⟩, region.bytes.length, some s.heap.length⟩
  exact ⟨_, @constructPlain_run _ _ ref hgrow hroom, hgrow.push ref none 0⟩

namespace Hashes

theorem constructCopy {region : Region} (hv : Hashes s v)
    (h : call build malloc s (.constructCopy region) = .ok t) :
    ∃ w, run hashedStep v (copyOps malloc s.heap.length region) = some w ∧ Hashes t w := by
  simp only [call, bind_ok, pure_ok, Prod.exists] at h
  obtain ⟨heap, ref, hallocate, rfl⟩ := h
  unfold allocate at hallocate
  unfold copyOps
  by_cases hempty : region.bytes.length = 0
  · rw [if_pos hempty] at hallocate ⊢
    cases hallocate
    exact ⟨_, rfl, hv.push .null none 0⟩
  · rw [if_neg hempty] at hallocate ⊢
    cases hserve : malloc.serve s.heap.length region.bytes.length with
    | none =>
      rw [hserve] at hallocate
      cases hallocate
    | some bs =>
      rw [hserve] at hallocate
      cases hallocate
      have hrest : bs.drop region.bytes.length = [] := by
        rw [← (malloc.served _ _ _ hserve).1]
        exact List.drop_length
      rw [hrest, List.append_nil, if_pos (Option.isSome_some)]
      exact fresh_run hv

theorem constructWeak {block off size : Nat} (hv : Hashes s v)
    (h : call build malloc s (.constructWeak block off size) = .ok t) :
    ∃ w, run hashedStep v [.constructPlain .hashedBuffer (.view (some ⟨block, off⟩) size)] = some w ∧
      Hashes t w := by
  simp only [call, bind_ok, pure_ok] at h
  obtain ⟨ref, hview, rfl⟩ := h
  obtain ⟨-, hroom, -⟩ := callerView_spec hview
  rw [← callerView_area hview]
  exact ⟨_, constructPlain_run hv hroom, hv.push ref none 0⟩

theorem copyConstruct {kind passed : Kind} {j : Nat} (hv : Hashes s v)
    (h : call build malloc s (.copyConstruct kind passed j) = .ok t) :
    ∃ w, run hashedStep v [.copyConstruct j] = some w ∧ Hashes t w := by
  simp only [call, bind_ok, handle_ok, pure_ok] at h
  obtain ⟨other, hother, capacity, -, rfl⟩ := h
  obtain ⟨hash, hj⟩ := hv.get hother
  refine ⟨_, ?_, (hv.retain other.ref).push other.ref capacity hash⟩
  simp [hashedStep, hj, Hashed.copy]

theorem sliced {j first last : Nat} {this : Handle} (hv : Hashes s v) (hw : s.Wf [])
    (hthis : s.handles[j]? = some this)
    (h : call build malloc s (.slice .buffer j first last) = .ok t) :
    ∃ w, run hashedStep v [.constructPlain .hashedBuffer (areaOf (slice this.ref first last))] =
      some w ∧ Hashes t w := by
  obtain ⟨hroom, -⟩ := slice_spec (hw.room hthis) (hw.owned hthis) first last
  simp only [call, bind_ok, handle_ok] at h
  obtain ⟨this', hthis', h⟩ := h
  obtain rfl := Option.some.inj (hthis.symm.trans hthis')
  cases h
  exact ⟨_, constructPlain_run hv hroom, (hv.retain _).push _ none 0⟩

theorem assignView {i block off size : Nat} (hv : Hashes s v) (hw : s.Wf [])
    (h : call build malloc s (.assignView i block off size) = .ok t) :
    ∃ w, run hashedStep v [.assignPlain i (.view (some ⟨block, off⟩) size)] = some w ∧
      Hashes t w := by
  simp only [call, bind_ok, handle_ok] at h
  obtain ⟨this, hthis, ref, hview, h⟩ := h
  split_ifs at h with hplain
  simp only [State.assignTemporary, bind_ok, pure_ok] at h
  obtain ⟨u, hu, rfl⟩ := h
  obtain ⟨-, hroom, -⟩ := callerView_spec hview
  obtain ⟨-, -, was, -, hui⟩ := release_spec hw hu
  obtain ⟨this, hthis, hcls, hrelease⟩ := hv.release hu
  have hfinal := hrelease.put hui ref 0
  rw [put_put] at hfinal
  refine ⟨_, ?_, hfinal⟩
  rw [← callerView_area hview]
  have hlive : (areaOf ref).Live v.heap := hv.live hroom
  simp [hashedStep, hthis, hlive, Hashed.assignPlain, hcls]

theorem copyAssign {i j : Nat} {passed : Kind} (hv : Hashes s v) (hw : s.Wf [])
    (h : call build malloc s (.copyAssign i passed j) = .ok t) :
    ∃ w, run hashedStep v [.copyAssign i j] = some w ∧ Hashes t w := by
  simp only [call, State.assign, bind_ok, handle_ok, pure_ok] at h
  obtain ⟨t, ⟨u, hu, other, hother, rfl⟩, h⟩ := h
  obtain ⟨_, _, _, -, -, -, rfl⟩ := takeCapacity_spec h
  obtain ⟨-, -, was, -, hui⟩ := release_spec hw hu
  obtain ⟨this, hthis, hcls, hrelease⟩ := hv.release hu
  -- after the release the target is read again, as it may be the source
  obtain ⟨hash, hi⟩ := hrelease.get hui
  obtain ⟨hash', hj⟩ := hrelease.get hother
  have hfinal := (hrelease.retain other.ref).put (s := u.retain other.ref) hui other.ref hash'
  refine ⟨_, ?_, hfinal.putCapacity i _⟩
  have howns : this.Owns := .inl hcls
  simp [hashedStep, hthis, howns, hi, hj, Hashed.assign]

theorem swap {i j : Nat} (hv : Hashes s v)
    (h : call build malloc s (.swap i .buffer j) = .ok t) :
    ∃ w, run hashedStep v [.swap i j] = some w ∧ Hashes t w := by
  simp only [call, State.swapRefs, bind_ok, handle_ok] at h
  obtain ⟨u, ⟨this, hthis, other, hother, hu⟩, h⟩ := h
  cases hu
  cases h
  obtain ⟨hash, hi⟩ := hv.get hthis
  obtain ⟨hash', hj⟩ := hv.get hother
  have hnext : ∃ next, (s.setRef i other.ref).handles[j]? = some next := by
    rw [State.setRef_get, hother]
    split_ifs
    · exact ⟨_, rfl⟩
    · exact ⟨_, rfl⟩
  obtain ⟨next, hnext⟩ := hnext
  refine ⟨_, ?_, (hv.put hthis other.ref hash).put hnext this.ref hash'⟩
  simp [hashedStep, hi, hj, Hashed.Owns]

theorem reset {i : Nat} (hv : Hashes s v) (h : call build malloc s (.reset i) = .ok t) :
    ∃ w, run hashedStep v [.reset i] = some w ∧ Hashes t w := by
  simp only [call, bind_ok, handle_ok, pure_ok] at h
  obtain ⟨u, hu, next, hnext, rfl⟩ := h
  obtain ⟨this, hthis, hcls, hrelease⟩ := hv.release hu
  refine ⟨_, ?_, hrelease.putCapacity i _⟩
  simp [hashedStep, hthis, Hashed.Owns, hcls]

end Hashes

/-- An operation that returns refers to the memory that the object with a hash refers to. -/
theorem call_hashes {ops : List HashedOp} (hv : Hashes s v) (hw : s.Wf [])
    (hop : hashedOps malloc s op = some ops) (h : call build malloc s op = .ok t) :
    t.Wf [] ∧ ∃ w, run hashedStep v ops = some w ∧ Hashes t w := by
  cases op with
  | callerMemory region =>
    have hspec := callerMemory_spec hw h
    cases hop
    cases h
    exact ⟨hspec.1, _, rfl, hv.grow _ rfl⟩
  | construct kind =>
    have hspec := construct_spec hw h
    cases kind with
    | buffer =>
      cases hop
      cases h
      exact ⟨hspec.1, _, rfl, hv.push .null none 0⟩
    | mutable => cases hop
  | constructCopy region =>
    cases hop
    exact ⟨(constructCopy_spec hw h).1, hv.constructCopy h⟩
  | constructWeak block off size =>
    cases hop
    exact ⟨(constructWeak_spec hw h).1, hv.constructWeak h⟩
  | constructDeleter region =>
    have hspec := constructDeleter_spec hw h
    cases hop
    cases h
    exact ⟨hspec.1, fresh_run hv⟩
  | copyConstruct kind passed j =>
    refine ⟨(copyConstruct_spec hw h).1, ?_⟩
    cases kind <;> cases passed <;> cases hop
    exact hv.copyConstruct h
  | slice kind j first last =>
    refine ⟨(sliceOp_spec hw h).1, ?_⟩
    cases kind with
    | buffer =>
      obtain ⟨this, hthis, rfl⟩ := Option.map_eq_some_iff.mp hop
      exact hv.sliced hw hthis h
    | mutable => cases hop
  | assignView i block off size =>
    cases hop
    exact ⟨(assignView_spec hw h).1, hv.assignView hw h⟩
  | copyAssign i passed j =>
    refine ⟨(copyAssign_spec hw h).1, ?_⟩
    cases passed <;> cases hop
    exact hv.copyAssign hw h
  | swap i passed j =>
    refine ⟨(swap_spec hw h).1, ?_⟩
    cases passed <;> cases hop
    exact hv.swap h
  | reset i =>
    cases hop
    exact ⟨(reset_spec hw h).1, hv.reset h⟩
  | moveConstruct | constructSize | copy | moveAssign | append | appendView | appendBuffer
  | pushBack | appendNumber | setSize | setCapacity | clear => cases hop

/-- Memory is only asked for by the constructor that copies. -/
theorem call_refused_hashes {ops : List HashedOp} (hop : hashedOps malloc s op = some ops)
    (h : call build malloc s op = .error .badAlloc) : ops = [] := by
  cases op with
  | constructCopy region =>
    cases hop
    rcases bind_refused.mp h with hallocate | ⟨a, -, hrest⟩
    · unfold allocate at hallocate
      unfold copyOps
      split_ifs at hallocate ⊢ with hempty hserve
      · obtain ⟨bs, hbs⟩ := Option.isSome_iff_exists.mp hserve
        rw [hbs] at hallocate
        cases hallocate
      · rfl
    · cases hrest
  | callerMemory | construct | constructDeleter | constructWeak | copyConstruct | slice | assignView
  | copyAssign | swap | reset => exact absurd h (call_thrifty _ id)
  | moveConstruct | constructSize | copy | moveAssign | append | appendView | appendBuffer
  | pushBack | appendNumber | setSize | setCapacity | clear => cases hop

theorem step_hashes {ops : List HashedOp} {u : State} (hv : Hashes s v) (hw : s.Wf [])
    (hop : hashedOps malloc s op = some ops) (h : step build malloc s op = some u) :
    u.Wf [] ∧ ∃ w, run hashedStep v ops = some w ∧ Hashes u w := by
  unfold step at h
  cases hcall : call build malloc s op with
  | ok t =>
    rw [hcall] at h
    cases h
    exact call_hashes hv hw hop hcall
  | error stop =>
    rw [hcall] at h
    cases stop with
    | undefined => cases h
    | badAlloc =>
      cases h
      rw [call_refused_hashes hop hcall]
      exact ⟨hw, v, rfl, hv⟩

end

theorem Hashes.bytes {s : State} {v : HashedState} {i : Nat} {x : Hashed} {bytes : Bytes}
    (hv : Hashes s v) (hx : v.values[i]? = some x) (hs : s.shown i = some bytes) :
    x.area.bytes v.heap = bytes := by
  obtain ⟨h, hh, hread⟩ := Option.bind_eq_some_iff.mp hs
  obtain ⟨hash, hi⟩ := hv.get hh
  obtain rfl := Option.some.inj (hx.symm.trans hi)
  rw [hv.heap, ← (Heap.read_eq_some.mp hread).2]
  exact uncounted_cellsAt _ _

/-- A run on handles that are a `hashed_buffer` is one of the objects with a hash, which show the
same bytes. -/
theorem run_hashes (build : Build) (malloc : Malloc) (ops : List Op) (hashed : List HashedOp)
    (t : State)
    (hops : translation (step build malloc) (hashedOps malloc) State.init ops = some hashed)
    (h : run (step build malloc) State.init ops = some t) :
    ∃ w, run hashedStep .init hashed = some w ∧ w.values.length = t.handles.length ∧
      ∀ i x bytes, w.values[i]? = some x → t.shown i = some bytes →
        x.area.bytes w.heap = bytes := by
  have hinit : Hashes State.init .init := ⟨rfl, rfl, nofun⟩
  have hstep : ∀ (s : State) (v : HashedState) (op : Op) (first : List HashedOp) (u : State),
      s.Wf [] ∧ Hashes s v → True → hashedOps malloc s op = some first →
      step build malloc s op = some u → ∃ w, run hashedStep v first = some w ∧ u.Wf [] ∧
        Hashes u w := by
    rintro s v op first u ⟨hw, hv⟩ - hfirst hu
    obtain ⟨huw, w, hrun, hnext⟩ := step_hashes hv hw hfirst hu
    exact ⟨w, hrun, huw, hnext⟩
  obtain ⟨w, hrun, -, hw⟩ := run_translation (hashedOps malloc) _ hstep ops hashed State.init t
    .init ⟨init_wf, hinit⟩ (along_of_forall (fun _ _ => trivial) _ _) hops h
  have hlength := congrArg List.length hw.values
  rw [List.length_map, List.length_map] at hlength
  exact ⟨w, hrun, hlength, fun i x bytes hx hs => hw.bytes hx hs⟩

end Libnodecc.Buffer
