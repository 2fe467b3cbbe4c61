import Libnodecc.Buffer.StringMemory
import Libnodecc.Framework.Outcome

namespace Libnodecc.Buffer

open Util

structure Strings where
  buffers : State
  strings : List Nat

/-- The operations of `string`, those it inherits included. -/
inductive StringOp where
  | construct
  | constructSize (n : Nat)
  | constructView (data : Option Ptr) (size : Nat)
  | constructData (data : Option Ptr) (size : Nat)
  | constructLiteral (block off size : Nat)
  | constructWeak (block off size : Nat)
  | constructCopy (data : Option Ptr) (size : Nat)
  | constructDeleter (region : Region) (size : Nat)
  | constructMutable (j : Nat)
  | copyConstruct (j : Nat)
  | moveConstruct (j : Nat)
  | copy (j n : Nat)
  | reset (i : Nat)
  | resetSize (i n : Nat)
  | copyAssign (i j : Nat)
  | moveAssign (i j : Nat)
  | swap (i : Nat) (passed : Kind) (j : Nat)

namespace Strings

def add (s : Strings) (heap : Heap UInt8) (ref : Ref) : Strings :=
  ⟨State.push { s.buffers with heap := heap } ref none, s.buffers.handles.length :: s.strings⟩

/-- The same strings after an operation of `buffer`. -/
def keep (s : Strings) (buffers : State) : Strings := ⟨buffers, s.strings⟩

/-- The new handle of an operation of `buffer` is a string. -/
def grow (s : Strings) (buffers : State) : Strings :=
  ⟨buffers, s.buffers.handles.length :: s.strings⟩

def need (c : Prop) [Decidable c] : Call Unit := if c then .ok () else .error .undefined

def call (build : Build) (malloc : Malloc) (s : Strings) : StringOp → Call Strings
  | .construct => .ok (s.add s.buffers.heap .null)
  | .constructSize n => do
    let (heap, str) ← stringReset malloc s.buffers.heap n
    pure (s.add heap str)
  | .constructView data size => do
    let (heap, str) ← stringOfView malloc s.buffers.heap (weakView data size)
    pure (s.add heap str)
  | .constructData data size => do
    let (heap, str) ← stringCopy malloc s.buffers.heap (weakView data size) 0
    pure (s.add heap str)
  | .constructLiteral block off size => do
    let ref ← callerView s.buffers.heap block off size
    pure (s.add s.buffers.heap ref)
  | .constructWeak block off size => do
    let ref ← callerView s.buffers.heap block off size
    pure (s.add s.buffers.heap ref)
  | .constructCopy data size => do
    let (heap, ref) ← Buffer.copy malloc s.buffers.heap (weakView data size) 0
    pure (s.add heap ref)
  | .constructDeleter region size => do
    need (size ≤ region.bytes.length)
    pure (s.add (newHeap s.buffers.heap region.bytes) (newRef s.buffers.heap size))
  | .constructMutable j => do
    let t ← Buffer.call build malloc s.buffers (.moveConstruct .buffer .mutable j)
    pure (s.grow t)
  | .copyConstruct j => do
    need (j ∈ s.strings)
    let t ← Buffer.call build malloc s.buffers (.copyConstruct .buffer .buffer j)
    pure (s.grow t)
  | .moveConstruct j => do
    need (j ∈ s.strings)
    let t ← Buffer.call build malloc s.buffers (.moveConstruct .buffer .buffer j)
    pure (s.grow t)
  | .copy j n => do
    need (j ∈ s.strings)
    let this ← s.buffers.handle j
    let (heap, str) ← stringCopy malloc s.buffers.heap this.ref n
    pure (s.add heap str)
  | .reset i => do
    need (i ∈ s.strings)
    let t ← Buffer.call build malloc s.buffers (.reset i)
    pure (s.keep t)
  | .resetSize i n => do
    need (i ∈ s.strings)
    let u ← s.buffers.release i
    let (heap, str) ← stringReset malloc u.heap n
    pure (s.keep (State.setRef { u with heap := heap } i str))
  | .copyAssign i j => do
    need (i ∈ s.strings ∧ j ∈ s.strings)
    let t ← Buffer.call build malloc s.buffers (.copyAssign i .buffer j)
    pure (s.keep t)
  | .moveAssign i j => do
    need (i ∈ s.strings ∧ j ∈ s.strings)
    let t ← Buffer.call build malloc s.buffers (.moveAssign i .buffer j)
    pure (s.keep t)
  | .swap i passed j => do
    need (i ∈ s.strings ∨ j ∈ s.strings)
    let t ← Buffer.call build malloc s.buffers (.swap i passed j)
    pure (s.keep t)

/-- `none` is a call that does not exist or whose behaviour is undefined. An allocation that fails
leaves everything as it was, apart from a string that was released before. -/
def step (build : Build) (malloc : Malloc) (s : Strings) (op : StringOp) : Option Strings :=
  match s.call build malloc op with
  | .ok t => some t
  | .error .undefined => none
  | .error .badAlloc =>
    match op with
    | .resetSize i _ => (s.buffers.release i).toOption.map s.keep
    | _ => some s

/-- Every string that is not null ends with a NUL in its own memory. -/
def Terminated (s : Strings) : Prop :=
  ∀ k ∈ s.strings, s.buffers.At k fun h => Buffer.Terminated s.buffers.heap h.ref

/-- The call exists: its operands, and the memory it is to read. -/
def Valid (s : Strings) : StringOp → Prop
  | .construct => True
  | .constructSize n => n < 2^64
  | .constructView data size => s.buffers.heap.Room (weakView data size).data (weakView data size).size
  | .constructData data size => s.buffers.heap.Room (weakView data size).data (weakView data size).size
  | .constructLiteral block off size => CallerBytes s.buffers.heap block off size
  | .constructWeak block off size => CallerBytes s.buffers.heap block off size
  | .constructCopy data size => s.buffers.heap.Room (weakView data size).data (weakView data size).size
  | .constructDeleter region size => size ≤ region.bytes.length
  | .constructMutable j => s.buffers.Has .mutable j
  | .copyConstruct j => j ∈ s.strings
  | .moveConstruct j => j ∈ s.strings
  | .copy j n => j ∈ s.strings ∧ n < 2^64
  | .reset i => i ∈ s.strings
  | .resetSize i n => i ∈ s.strings ∧ n < 2^64
  | .copyAssign i j => i ∈ s.strings ∧ j ∈ s.strings
  | .moveAssign i j => i ∈ s.strings ∧ j ∈ s.strings
  | .swap i passed j =>
      (i ∈ s.strings ∨ j ∈ s.strings) ∧ s.buffers.Has .buffer i ∧ s.buffers.Has passed j

/-- Where a string gets its terminator. What it takes over has to have one already, `string(data,
size)` reads one byte behind the bytes it is given, and a copy is neither of nothing nor of as many
bytes as can be counted. -/
def Terminates (s : Strings) : StringOp → Prop
  | .constructData data size => 0 < size ∧ data.isSome ∧ s.buffers.heap.Room data (size + 1)
  | .constructLiteral block off size => size = 0 ∨
      Buffer.Terminated s.buffers.heap ⟨some ⟨block, off⟩, size, none⟩
  | .constructWeak block off size => size = 0 ∨
      Buffer.Terminated s.buffers.heap ⟨some ⟨block, off⟩, size, none⟩
  | .constructCopy data size => size = 0 ∨ data = none
  | .constructDeleter region size => region.bytes[size]? = some 0
  | .constructMutable j => s.buffers.At j fun other => Buffer.Terminated s.buffers.heap other.ref
  | .copy j n => s.buffers.At j fun this =>
      (n = 0 → 0 < this.ref.size) ∧ n ≠ 2^64 - 1
  | .swap i _ j => s.buffers.At i fun this => s.buffers.At j fun other =>
      (i ∈ s.strings → Buffer.Terminated s.buffers.heap other.ref) ∧
        (j ∈ s.strings → Buffer.Terminated s.buffers.heap this.ref)
  | _ => True

instance (s : Strings) (op : StringOp) : Decidable (s.Valid op) := by
  cases op <;> unfold Valid <;> infer_instance

instance (s : Strings) (op : StringOp) : Decidable (s.Terminates op) := by
  cases op <;> unfold Terminates <;> infer_instance

/-- A copy has as many bytes as are asked for, or all, and starts with those of its source, unless
there is no memory for it. -/
def Copies (build : Build) (malloc : Malloc) (s : Strings) : StringOp → Prop
  | .copy j n =>
    (∃ this, s.buffers.handles[j]? = some this ∧ malloc.serve s.buffers.heap.length
      ((if n = 0 then this.ref.size else n) + 1) = none ∧
        s.call build malloc (.copy j n) = .error .badAlloc) ∨
      ∃ t bytes copied, s.call build malloc (.copy j n) = .ok t ∧ s.buffers.shown j = some bytes ∧
        t.buffers.shown s.buffers.handles.length = some copied ∧
        copied.length = (if n = 0 then bytes.length else n) ∧
        bytes.take copied.length <+: copied
  | _ => True

structure Inv (s : Strings) : Prop where
  wf : s.buffers.Wf []
  strings : ∀ k ∈ s.strings, ∃ h, s.buffers.handles[k]? = some h ∧
    Buffer.Terminated s.buffers.heap h.ref

section
variable {build : Build} {malloc : Malloc} {s t : Strings}

theorem Inv.get (hs : s.Inv) {k : Nat} (hk : k ∈ s.strings) :
    ∃ h, s.buffers.handles[k]? = some h ∧ Buffer.Terminated s.buffers.heap h.ref ∧
      s.buffers.Has .buffer k := by
  obtain ⟨h, hh, hterminated⟩ := hs.strings k hk
  exact ⟨h, hh, hterminated, has_of_get hh⟩

theorem Inv.terminated (hs : s.Inv) : s.Terminated := by
  intro k hk h hh
  obtain ⟨h', hh', hterminated⟩ := hs.strings k hk
  obtain rfl := Option.some.inj (hh'.symm.trans hh)
  exact hterminated

theorem Inv.quiet {touched : List Nat} (hs : s.Inv) (htw : t.buffers.Wf [])
    (hq : Quiet touched s.buffers t.buffers)
    (hsub : ∀ k ∈ t.strings, k ∉ touched → k ∈ s.strings)
    (htouched : ∀ k ∈ t.strings, k ∈ touched → ∃ h, t.buffers.handles[k]? = some h ∧
      Buffer.Terminated t.buffers.heap h.ref) : t.Inv := by
  refine ⟨htw, fun k hk => ?_⟩
  by_cases hin : k ∈ touched
  · exact htouched k hk hin
  · obtain ⟨h, hh, hterminated⟩ := hs.strings k (hsub k hk hin)
    have hh' : t.buffers.handles[k]? = some h := (hq.others k hin).trans hh
    exact ⟨h, hh', hterminated.keeps hq.cells (htw.room hh')⟩

theorem Inv.add {heap : Heap UInt8} {ref : Ref} (hs : s.Inv)
    (hw : State.Wf { s.buffers with heap := heap } [ref])
    (hq : Quiet [] s.buffers { s.buffers with heap := heap })
    (hterminated : Buffer.Terminated heap ref) : (s.add heap ref).Inv := by
  obtain ⟨htw, hpush, hnew⟩ := push_spec hw none
  refine hs.quiet htw ((hq.mono (by simp)).trans hpush) ?_ ?_
  · intro k hk hnot
    exact (List.mem_cons.mp hk).resolve_left (by simpa using hnot)
  · intro k _ hin
    obtain rfl := List.mem_singleton.mp hin
    exact ⟨_, hnew, hterminated⟩

theorem Inv.add_null (hs : s.Inv) : (s.add s.buffers.heap .null).Inv :=
  hs.add hs.wf.null (Quiet.refl _ _) (Terminated.null _)

theorem newHeap_wf {b : State} {flying : List Ref} {cells : Bytes} {n : Nat} (hw : b.Wf flying)
    (hn : n ≤ cells.length) (hsmall : cells.length < 2^63) :
    State.Wf { b with heap := newHeap b.heap cells } (newRef b.heap n :: flying) ∧
      Quiet [] b { b with heap := newHeap b.heap cells } :=
  ⟨⟨hw.counted.fresh _ _ hn, State.Wf.small_append hw.small hsmall⟩,
    ⟨fun _ _ => rfl, Heap.append_keeps _ _⟩, Heap.append_sameCells _ _⟩

theorem Inv.add_new {cells : Bytes} {n : Nat} (hs : s.Inv) (hcells : StringCells n cells) :
    (s.add (newHeap s.buffers.heap cells) (newRef s.buffers.heap n)).Inv := by
  obtain ⟨hw, hq⟩ := newHeap_wf hs.wf (show n ≤ cells.length by rw [hcells.length]; omega)
    (by rw [hcells.length]; exact hcells.small)
  exact hs.add hw hq hcells.terminated

/-- The call keeps the invariant, or throws for want of memory. -/
abbrev Keeps (x : Call Strings) : Prop := Ends (· = Stop.badAlloc) Inv x

theorem keeps_add {x : Call (Heap UInt8 × Ref)}
    (h : Ends (· = Stop.badAlloc) (fun a => (s.add a.1 a.2).Inv) x) :
    Keeps (x >>= fun a => pure (s.add a.1 a.2)) :=
  h.bind fun _ ha => ha

theorem keeps_of_fine {x : Call State} {f : State → Strings} (hfine : Fine x)
    (hok : ∀ t, x = .ok t → (f t).Inv) : Keeps (x >>= fun t => pure (f t)) := by
  cases x with
  | ok t => exact hok t rfl
  | error e =>
    cases e with
    | undefined => exact absurd rfl hfine
    | badAlloc => exact rfl

theorem keeps_need {c : Prop} [Decidable c] {x : Call Strings} (hc : c) (h : Keeps x) :
    Keeps (need c >>= fun _ => x) := by
  rw [need, if_pos hc]
  exact h

theorem keeps_constructSize {n : Nat} (hs : s.Inv) (hn : n < 2^64) :
    Keeps (s.call build malloc (.constructSize n)) := by
  apply keeps_add
  rcases stringReset_cases malloc s.buffers.heap hn with
    ⟨-, h⟩ | ⟨-, h⟩ | ⟨-, cells, hcells, h⟩
  · rw [h]
    exact hs.add_null
  · rw [h]
    exact rfl
  · rw [h]
    exact hs.add_new hcells

theorem keeps_constructView {data : Option Ptr} {size : Nat} (hs : s.Inv)
    (hroom : s.buffers.heap.Room (weakView data size).data (weakView data size).size) :
    Keeps (s.call build malloc (.constructView data size)) := by
  apply keeps_add
  rcases stringOfView_cases malloc (room_lt hs.wf hroom) hroom with
    h | h | ⟨cells, hcells, h⟩
  · rw [h]
    exact hs.add_null
  · rw [h]
    exact rfl
  · rw [h]
    exact hs.add_new hcells

theorem keeps_constructData {data : Option Ptr} {size : Nat} (hs : s.Inv)
    (hpos : 0 < size) (hdata : data.isSome) (hroom : s.buffers.heap.Room data (size + 1)) :
    Keeps (s.call build malloc (.constructData data size)) := by
  have hview : weakView data size = ⟨data, size, none⟩ := by
    rw [weakView, if_neg (by omega), if_pos hdata]
  have hread : (weakView data size).data.isSome → s.buffers.heap.Room (weakView data size).data
      (min size (weakView data size).size + 1) := by
    intro _
    rw [hview, Nat.min_self]
    exact hroom
  apply keeps_add
  have hsmall := room_lt hs.wf hroom
  rcases stringCopy_cases malloc (show size = if 0 = 0 then (weakView data size).size else 0 by
      rw [hview]; rfl) hpos (by omega) hread with ⟨-, h⟩ | ⟨cells, hcells, -, h⟩
  · rw [h]
    exact rfl
  · rw [h]
    exact hs.add_new hcells

/-- A reference to memory of the caller. -/
theorem keeps_callerView {block off size : Nat} (hs : s.Inv)
    (hbytes : CallerBytes s.buffers.heap block off size)
    (hterminated : size = 0 ∨ Buffer.Terminated s.buffers.heap ⟨some ⟨block, off⟩, size, none⟩) :
    Keeps (callerView s.buffers.heap block off size >>= fun ref =>
      pure (s.add s.buffers.heap ref)) := by
  obtain ⟨ref, href⟩ := hbytes
  rw [href]
  obtain ⟨hp, hroom, howned⟩ := callerView_spec href
  have hw := hs.wf.retain hroom howned
  rw [s.buffers.retain_uncounted hp] at hw
  refine hs.add hw (Quiet.refl _ _) ?_
  unfold callerView at href
  split at href
  · cases href
  · split_ifs at href with hlive hzero
    · cases href
      exact Terminated.null _
    · cases href
      exact hterminated.resolve_left hzero

theorem keeps_constructCopy {data : Option Ptr} {size : Nat} (hs : s.Inv)
    (hempty : size = 0 ∨ data = none) :
    Keeps (s.call build malloc (.constructCopy data size)) := by
  have hview : weakView data size = .null := by
    rcases hempty with rfl | rfl
    · cases data <;> rfl
    · simp [weakView, Ref.null]
  show Keeps (Buffer.copy malloc s.buffers.heap (weakView data size) 0 >>= _)
  rw [hview]
  exact hs.add_null

theorem keeps_constructDeleter {region : Region} {size : Nat} (hs : s.Inv)
    (hsize : size ≤ region.bytes.length) (hlast : region.bytes[size]? = some 0) :
    Keeps (s.call build malloc (.constructDeleter region size)) := by
  obtain ⟨hw, hq⟩ := newHeap_wf hs.wf hsize region.length_lt
  refine keeps_need hsize (hs.add hw hq ?_)
  intro ptr hptr
  obtain rfl : ⟨s.buffers.heap.length, 0⟩ = ptr := Option.some.inj hptr
  exact ⟨_, List.getElem?_concat_length .., rfl,
    (congrArg (region.bytes[·]?) (Nat.zero_add size)).trans hlast⟩

/-- What is taken over from another handle has a terminator already. -/
theorem keeps_moveConstruct {passed : Kind} {j : Nat} (hs : s.Inv) (hj : s.buffers.Has passed j)
    (hterminated : s.buffers.At j fun other => Buffer.Terminated s.buffers.heap other.ref) :
    Keeps (Buffer.call build malloc s.buffers (.moveConstruct .buffer passed j) >>= fun t =>
      pure (s.grow t)) := by
  refine keeps_of_fine (call_fine (.moveConstruct .buffer passed j) hs.wf hj trivial trivial trivial)
    fun t ht => ?_
  obtain ⟨htw, hq, other, capacity, hother, -, hmoved, hnew⟩ := moveConstruct_spec hs.wf ht
  have hlive := htw.room hnew
  refine hs.quiet htw hq ?_ ?_
  · intro k hk hnot
    simp only [List.mem_cons, List.not_mem_nil, or_false, not_or] at hnot
    exact (List.mem_cons.mp hk).resolve_left hnot.2
  · intro k _ hin
    simp only [List.mem_cons, List.not_mem_nil, or_false] at hin
    rcases hin with rfl | rfl
    · exact ⟨_, hmoved, Terminated.null _⟩
    · exact ⟨_, hnew, (hterminated other hother).keeps hq.cells hlive⟩

theorem keeps_copyConstruct {j : Nat} (hs : s.Inv) (hj : j ∈ s.strings) :
    Keeps (s.call build malloc (.copyConstruct j)) := by
  obtain ⟨this, hthis, hterminated, hhas⟩ := hs.get hj
  refine keeps_need hj (keeps_of_fine (call_fine (.copyConstruct .buffer .buffer j) hs.wf hhas
    trivial trivial trivial) fun t ht => ?_)
  obtain ⟨htw, hq, other, capacity, hother, -, hnew⟩ := copyConstruct_spec hs.wf ht
  have hlive := htw.room hnew
  obtain rfl := Option.some.inj (hthis.symm.trans hother)
  refine hs.quiet htw hq ?_ ?_
  · intro k hk hnot
    exact (List.mem_cons.mp hk).resolve_left (by simpa using hnot)
  · intro k _ hin
    obtain rfl := List.mem_singleton.mp hin
    exact ⟨_, hnew, hterminated.keeps hq.cells hlive⟩

theorem keeps_reset {i : Nat} (hs : s.Inv) (hi : i ∈ s.strings) :
    Keeps (s.call build malloc (.reset i)) := by
  obtain ⟨this, hthis, -, hhas⟩ := hs.get hi
  refine keeps_need hi (keeps_of_fine (call_fine (.reset i) hs.wf hhas trivial trivial trivial)
    fun t ht => ?_)
  obtain ⟨htw, hq, this', -, hnull⟩ := reset_spec hs.wf ht
  refine hs.quiet htw hq (fun k hk _ => hk) ?_
  intro k _ hin
  obtain rfl := List.mem_singleton.mp hin
  exact ⟨_, hnull, Terminated.null _⟩

theorem Inv.release {i : Nat} {u : State} (hs : s.Inv) (h : s.buffers.release i = .ok u) :
    (s.keep u).Inv := by
  obtain ⟨huw, hq, this, -, hnull⟩ := release_spec hs.wf h
  refine hs.quiet huw hq (fun k hk _ => hk) ?_
  intro k _ hin
  obtain rfl := List.mem_singleton.mp hin
  exact ⟨_, hnull, Terminated.null _⟩

theorem release_ok {i : Nat} {h : Handle} (hh : s.buffers.handles[i]? = some h) :
    ∃ u, s.buffers.release i = .ok u := by
  simp only [State.release, State.handle, hh, call_defined]
  exact ⟨_, rfl⟩

theorem keeps_resetSize {i n : Nat} (hs : s.Inv) (hi : i ∈ s.strings) (hn : n < 2^64) :
    Keeps (s.call build malloc (.resetSize i n)) := by
  obtain ⟨this, hthis, -, -⟩ := hs.get hi
  obtain ⟨u, hu⟩ := release_ok hthis
  obtain ⟨huw, hq, this', -, hnull⟩ := release_spec hs.wf hu
  have hnew {heap : Heap UInt8} {str : Ref} (hw : State.Wf { u with heap := heap } [str])
      (hquiet : Quiet [] u { u with heap := heap }) (hterminated : Buffer.Terminated heap str) :
      (s.keep (State.setRef { u with heap := heap } i str)).Inv := by
    refine hs.quiet (hw.land hnull rfl)
      ((hq.trans (hquiet.mono (by simp))).trans (State.setRef_quiet _ i str))
      (fun k hk _ => hk) ?_
    intro k _ hin
    obtain rfl := List.mem_singleton.mp hin
    refine ⟨{ this' with ref := str }, ?_, hterminated⟩
    show (State.setRef { u with heap := heap } k str).handles[k]? = _
    rw [State.setRef_get, if_pos rfl, hnull]
    rfl
  refine keeps_need hi ?_
  rw [hu, call_bind]
  rcases stringReset_cases malloc u.heap hn with
    ⟨-, h⟩ | ⟨-, h⟩ | ⟨-, cells, hcells, h⟩
  · rw [h]
    exact hnew huw.null (Quiet.refl _ _) (Terminated.null _)
  · rw [h]
    exact rfl
  · rw [h]
    obtain ⟨hw, hquiet⟩ := newHeap_wf huw (show n ≤ cells.length by rw [hcells.length]; omega)
      (by rw [hcells.length]; exact hcells.small)
    exact hnew hw hquiet hcells.terminated

theorem keeps_copyAssign {i j : Nat} (hs : s.Inv) (hi : i ∈ s.strings) (hj : j ∈ s.strings) :
    Keeps (s.call build malloc (.copyAssign i j)) := by
  obtain ⟨-, -, -, hihas⟩ := hs.get hi
  obtain ⟨other, hother, hterminated, hjhas⟩ := hs.get hj
  refine keeps_need ⟨hi, hj⟩ (keeps_of_fine (call_fine (.copyAssign i .buffer j) hs.wf
    ⟨hihas, hjhas, hjhas⟩ trivial trivial trivial) fun t ht => ?_)
  obtain ⟨htw, hq, this, other', capacity, -, hother', -, hassigned⟩ := copyAssign_spec hs.wf ht
  obtain rfl := Option.some.inj (hother.symm.trans hother')
  have hlive := htw.room hassigned
  refine hs.quiet htw hq (fun k hk _ => hk) ?_
  intro k _ hin
  obtain rfl := List.mem_singleton.mp hin
  refine ⟨_, hassigned, ?_⟩
  by_cases hkj : k = j
  · simp only [if_pos hkj]
    exact Terminated.null _
  · simp only [if_neg hkj] at hlive ⊢
    exact hterminated.keeps hq.cells hlive

theorem keeps_moveAssign {i j : Nat} (hs : s.Inv) (hi : i ∈ s.strings) (hj : j ∈ s.strings) :
    Keeps (s.call build malloc (.moveAssign i j)) := by
  obtain ⟨-, -, -, hihas⟩ := hs.get hi
  obtain ⟨other, hother, hterminated, hjhas⟩ := hs.get hj
  refine keeps_need ⟨hi, hj⟩ (keeps_of_fine (call_fine (.moveAssign i .buffer j) hs.wf
    ⟨hihas, hjhas, hjhas⟩ trivial trivial trivial) fun t ht => ?_)
  obtain ⟨htw, hq, this, other', capacity, -, hother', -, hassigned, hmoved⟩ :=
    moveAssign_spec hs.wf ht
  obtain rfl := Option.some.inj (hother.symm.trans hother')
  have hlive := htw.room hassigned
  refine hs.quiet htw hq (fun k hk _ => hk) ?_
  intro k _ hin
  by_cases hki : k = i
  · subst hki
    refine ⟨_, hassigned, ?_⟩
    by_cases hkj : k = j
    · simp only [if_pos hkj]
      exact Terminated.null _
    · simp only [if_neg hkj] at hlive ⊢
      exact hterminated.keeps hq.cells hlive
  · obtain rfl : k = j := by
      simp only [List.mem_cons, List.not_mem_nil, or_false] at hin
      exact hin.resolve_left hki
    exact ⟨_, hmoved (Ne.symm hki), Terminated.null _⟩

theorem keeps_swap {i j : Nat} {passed : Kind} (hs : s.Inv)
    (hv : s.Valid (.swap i passed j)) (ht : s.Terminates (.swap i passed j)) :
    Keeps (s.call build malloc (.swap i passed j)) := by
  obtain ⟨hstring, hihas, hjhas⟩ := hv
  refine keeps_need hstring (keeps_of_fine (call_fine (.swap i passed j) hs.wf
    ⟨hihas, has_buffer hjhas, hjhas⟩ trivial trivial trivial) fun t hcall => ?_)
  obtain ⟨htw, hq, this, other, hthis, hother, hi, hj⟩ := swap_spec hs.wf hcall
  obtain ⟨hileft, hright⟩ := ht this hthis other hother
  have hjlive := htw.room hj
  refine hs.quiet htw hq (fun k hk _ => hk) ?_
  intro k hk hin
  by_cases hkj : k = j
  · subst hkj
    exact ⟨_, hj, (hright hk).keeps hq.cells hjlive⟩
  · obtain rfl : k = i := by
      simp only [List.mem_cons, List.not_mem_nil, or_false] at hin
      exact hin.resolve_right hkj
    have hilive := htw.room (hi hkj)
    exact ⟨_, hi hkj, (hileft hk).keeps hq.cells hilive⟩

theorem cellsAt_newHeap (heap : Heap UInt8) (cells : Bytes) (n : Nat) :
    (newHeap heap cells).cellsAt (newRef heap n).data n = cells.take n := by
  simp [newHeap, newRef, Heap.cellsAt]

/-- A copy of a string reads its terminator, but nothing behind it. -/
theorem copy_copies {j n : Nat} (hs : s.Inv) (hv : s.Valid (.copy j n))
    (ht : s.Terminates (.copy j n)) :
    Keeps (s.call build malloc (.copy j n)) ∧ s.Copies build malloc (.copy j n) := by
  obtain ⟨hj, hn⟩ := hv
  obtain ⟨this, hthis, hterminated, -⟩ := hs.get hj
  obtain ⟨hsome, hmax⟩ := ht this hthis
  have hcall : s.call build malloc (.copy j n) =
      stringCopy malloc s.buffers.heap this.ref n >>= fun a => pure (s.add a.1 a.2) := by
    simp only [call, need, if_pos hj, State.handle, hthis, call_defined]
    rfl
  have hsmall := size_lt hs.wf hthis
  have hroom : this.ref.data.isSome →
      s.buffers.heap.Room this.ref.data
        (min (if n = 0 then this.ref.size else n) this.ref.size + 1) := by
    intro hdata
    obtain ⟨ptr, hptr⟩ := Option.isSome_iff_exists.mp hdata
    obtain ⟨blk, hblk, hfree, hlast⟩ := hterminated ptr hptr
    obtain ⟨hlt, -⟩ := List.getElem?_eq_some_iff.mp hlast
    rw [hptr]
    exact ⟨blk, hblk, hfree, by omega⟩
  have hpos : 0 < if n = 0 then this.ref.size else n := by
    split_ifs with hzero
    · exact hsome hzero
    · omega
  have hlt : (if n = 0 then this.ref.size else n) < 2^64 - 1 := by
    split_ifs <;> omega
  rw [hcall]
  rcases stringCopy_cases malloc rfl hpos hlt hroom with ⟨hserve, h⟩ | ⟨cells, hcells, hstart, h⟩
  · rw [h]
    exact ⟨rfl, .inl ⟨this, hthis, hserve, by rw [hcall, h]; rfl⟩⟩
  · have hinv := hs.add_new hcells
    have hnew : (s.add (newHeap s.buffers.heap cells) (newRef s.buffers.heap
        (if n = 0 then this.ref.size else n))).buffers.handles[s.buffers.handles.length]? =
          some ⟨newRef s.buffers.heap (if n = 0 then this.ref.size else n), none⟩ :=
      List.getElem?_concat_length ..
    have hshown := shown_of_get hinv.wf hnew
    have hlength := (hs.wf.room hthis).cellsAt_length
    have hcopied := congrArg some (cellsAt_newHeap s.buffers.heap cells
      (if n = 0 then this.ref.size else n))
    rw [h]
    refine ⟨hinv, .inr ⟨_, _, _, by rw [hcall, h]; rfl, shown_of_get hs.wf hthis,
      hshown.trans hcopied, ?_, ?_⟩⟩
    · rw [List.length_take, hcells.length, hlength]
      omega
    · rw [List.prefix_take_iff, List.length_take, hcells.length]
      have hbytes : (s.buffers.heap.cellsAt this.ref.data this.ref.size).take
          (min (if n = 0 then this.ref.size else n) ((if n = 0 then this.ref.size else n) + 1)) =
            s.buffers.heap.cellsAt this.ref.data
              (min (if n = 0 then this.ref.size else n) this.ref.size) := by
        rw [Nat.min_eq_left (Nat.le_succ _), ← cellsAt_take (Nat.min_le_right _ _),
          List.take_eq_take_iff, hlength]
        omega
      rw [hbytes]
      refine ⟨hstart, ?_⟩
      rw [((hs.wf.room hthis).mono (Nat.min_le_right _ _)).cellsAt_length]
      exact Nat.min_le_left _ _

/-- Every operation that meets the condition keeps the invariant. -/
theorem call_keeps (build : Build) (malloc : Malloc) (hs : s.Inv) (op : StringOp) (hv : s.Valid op)
    (ht : s.Terminates op) : Keeps (s.call build malloc op) ∧ s.Copies build malloc op := by
  cases op with
  | construct => exact ⟨hs.add_null, trivial⟩
  | constructSize n => exact ⟨keeps_constructSize hs hv, trivial⟩
  | constructView data size => exact ⟨keeps_constructView hs hv, trivial⟩
  | constructData data size => exact ⟨keeps_constructData hs ht.1 ht.2.1 ht.2.2, trivial⟩
  | constructLiteral block off size => exact ⟨keeps_callerView hs hv ht, trivial⟩
  | constructWeak block off size => exact ⟨keeps_callerView hs hv ht, trivial⟩
  | constructCopy data size => exact ⟨keeps_constructCopy hs ht, trivial⟩
  | constructDeleter region size => exact ⟨keeps_constructDeleter hs hv ht, trivial⟩
  | constructMutable j => exact ⟨keeps_moveConstruct hs hv ht, trivial⟩
  | copyConstruct j => exact ⟨keeps_copyConstruct hs hv, trivial⟩
  | moveConstruct j =>
    obtain ⟨-, -, -, hhas⟩ := hs.get hv
    exact ⟨keeps_need hv (keeps_moveConstruct hs hhas (hs.terminated j hv)), trivial⟩
  | copy j n => exact copy_copies hs hv ht
  | reset i => exact ⟨keeps_reset hs hv, trivial⟩
  | resetSize i n => exact ⟨keeps_resetSize hs hv.1 hv.2, trivial⟩
  | copyAssign i j => exact ⟨keeps_copyAssign hs hv.1 hv.2, trivial⟩
  | moveAssign i j => exact ⟨keeps_moveAssign hs hv.1 hv.2, trivial⟩
  | swap i passed j => exact ⟨keeps_swap hs hv ht, trivial⟩

/-- What a call that throws leaves. -/
theorem step_inv (build : Build) (malloc : Malloc) (hs : s.Inv) (op : StringOp) (hv : s.Valid op)
    (ht : s.Terminates op) : ∃ t, s.step build malloc op = some t ∧ t.Inv := by
  obtain ⟨hkeeps, -⟩ := call_keeps build malloc hs op hv ht
  unfold step
  cases hcall : s.call build malloc op with
  | ok t =>
    rw [hcall] at hkeeps
    exact ⟨t, rfl, hkeeps⟩
  | error e =>
    rw [hcall] at hkeeps
    obtain rfl : e = .badAlloc := hkeeps
    cases op with
    | resetSize i n =>
      obtain ⟨this, hthis, -, -⟩ := hs.get hv.1
      obtain ⟨u, hu⟩ := release_ok hthis
      exact ⟨s.keep u, by simp [hu, Except.toOption], hs.release hu⟩
    | _ => exact ⟨s, rfl, hs⟩

end

/-- Wherever operations on strings start, all strings end with a NUL and copies come out right, as
long as what is taken over has a terminator and no copy is of nothing. -/
theorem strings_terminated (build : Build) (malloc : Malloc) (b : State) (hb : b.Wf [])
    (ops : List StringOp)
    (hops : Along (step build malloc) (fun s op => s.Valid op ∧ s.Terminates op) ⟨b, []⟩ ops) :
    Along (step build malloc)
      (fun s op => s.Copies build malloc op ∧
        ∃ t, s.step build malloc op = some t ∧ t.Terminated) ⟨b, []⟩ ops := by
  refine along_invariant Inv ?_ ops ⟨b, []⟩ ⟨hb, nofun⟩ hops
  intro s op hs ⟨hvalid, hterminates⟩
  obtain ⟨t, ht, hinv⟩ := step_inv build malloc hs op hvalid hterminates
  obtain ⟨-, hcopies⟩ := call_keeps build malloc hs op hvalid hterminates
  refine ⟨⟨hcopies, t, ht, hinv.terminated⟩, fun u hu => ?_⟩
  obtain rfl := Option.some.inj (ht.symm.trans hu)
  exact hinv

theorem strings_terminated_copies : Along (step glibc .zeroed)
    (fun s op => s.Copies glibc .zeroed op ∧
      ∃ t, s.step glibc .zeroed op = some t ∧ t.Terminated) ⟨.init, []⟩
    [.constructDeleter ⟨[0x61, 0x62, 0], by decide⟩ 2, .copyConstruct 0, .copy 1 1, .copy 1 7,
      .constructView (some ⟨0, 0⟩) 1, .constructData (some ⟨0, 0⟩) 2, .resetSize 1 3, .swap 0 .buffer 2,
      .moveAssign 1 0, .copyAssign 1 3] :=
  strings_terminated glibc .zeroed .init init_wf _ (by decide +kernel)

/-- The constructor that copies for a `buffer` leaves no room for a terminator, and the copy of an
empty string writes one through a null pointer. -/
theorem inherited_unterminated :
    (Along (step glibc .zeroed) Valid ⟨.init, []⟩
        [.constructSize 1, .constructCopy (some ⟨0, 0⟩) 1] ∧
      ¬Along (step glibc .zeroed)
        (fun s op => ∃ t, s.step glibc .zeroed op = some t ∧ t.Terminated) ⟨.init, []⟩
        [.constructSize 1, .constructCopy (some ⟨0, 0⟩) 1]) ∧
    Along (step glibc .zeroed) Valid ⟨.init, []⟩ [.construct, .copy 0 0] ∧
      ¬Along (step glibc .zeroed)
        (fun s op => ∃ t, s.step glibc .zeroed op = some t ∧ t.Terminated) ⟨.init, []⟩
        [.construct, .copy 0 0] := by
  refine ⟨⟨by decide +kernel, ?_⟩, by decide +kernel, ?_⟩
  · intro h
    obtain ⟨⟨t, ht, hterminated⟩, -⟩ := h.2 _ rfl
    cases ht
    obtain ⟨blk, hblk, -, hlast⟩ := hterminated 1 (by decide) _ rfl _ rfl
    cases hblk
    cases hlast
  · intro h
    obtain ⟨⟨t, ht, -⟩, -⟩ := h.2 _ rfl
    cases ht

end Strings

end Libnodecc.Buffer
