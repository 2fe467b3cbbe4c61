import Libnodecc.Buffer.Definedness
import Libnodecc.Framework.Run

namespace Libnodecc.Buffer

open Util

/-- The visible bytes of a handle; none where they are not there any more. -/
def State.shown (s : State) (k : Nat) : Option Bytes :=
  (s.handles[k]?).bind fun h => s.heap.read h.ref.data h.ref.size

/-- The handles an operation is on. -/
def Op.operands : Op → List Nat
  | .callerMemory _ | .construct _ | .constructSize _ _ | .constructCopy _ => []
  | .constructWeak _ _ _ | .constructDeleter _ | .copyConstruct _ _ _ => []
  | .copy _ _ | .slice _ _ _ _ => []
  | .moveConstruct _ _ j => [j]
  | .moveAssign i _ j | .swap i _ j => [i, j]
  | .assignView i _ _ _ | .copyAssign i _ _ | .reset i | .clear i => [i]
  | .append i _ _ _ | .appendView i _ _ _ | .appendBuffer i _ _ _ | .pushBack i _ => [i]
  | .appendNumber i _ _ | .setSize i _ | .setCapacity i _ => [i]

/-- What value semantics asks of an operation that leads from `s` to `t`: all other handles show
what they showed, and a copy-assigned handle shows what its source showed. -/
structure ActsOnValues (op : Op) (s t : State) : Prop where
  others : ∀ k, k < s.handles.length → k ∉ op.operands →
    ∃ bytes, s.shown k = some bytes ∧ t.shown k = some bytes
  copied : ∀ i passed j, op = .copyAssign i passed j →
    ∃ bytes, s.shown j = some bytes ∧ t.shown i = some bytes

/-- `other` shows none of the `written` bytes behind those that `this` shows. -/
def Beside (other this : Ref) (written : Nat) : Prop :=
  other.size = 0 ∨ written = 0 ∨ ∀ p ∈ other.data, ∀ q ∈ this.data, p.block = q.block →
    p.off + other.size ≤ q.off + this.size ∨ q.off + this.size + written ≤ p.off

instance (other this : Ref) (written : Nat) : Decidable (Beside other this written) := by
  unfold Beside
  infer_instance

/-- An append within the capacity goes to bytes that no other handle shows. -/
def Op.Apart (build : Build) (s : State) (op : Op) : Prop :=
  match op.demand build s with
  | none => True
  | some d => s.At d.i fun this => sizeT (d.n + this.ref.size) ≤ this.capacity.getD 0 →
      ∀ k < s.handles.length, k ≠ d.i → s.At k fun other => Beside other.ref this.ref d.written

instance (build : Build) (s : State) (op : Op) : Decidable (op.Apart build s) := by
  unfold Op.Apart
  generalize op.demand build s = demand
  rcases demand with _ | d <;> infer_instance

/-- `set_size` within the capacity stays in the block. -/
def Op.Resizes (s : State) : Op → Prop
  | .setSize i size => s.At i fun this =>
      this.capacity.getD 0 < sizeT (size + size / 2) → this.Grows s.heap size
  | _ => True

instance (s : State) (op : Op) : Decidable (op.Resizes s) := by
  rcases op with _ | _ <;> unfold Op.Resizes <;> infer_instance

/-- A handle is not assigned to itself, unless it shows nothing. -/
def Op.Foreign (s : State) : Op → Prop
  | .copyAssign i _ j => i = j → s.At i fun this => this.ref.size = 0
  | _ => True

instance (s : State) (op : Op) : Decidable (op.Foreign s) := by
  rcases op with _ | _ <;> unfold Op.Foreign <;> infer_instance

/-- Where operations on shared blocks keep out of each other's way. -/
structure Op.Separate (build : Build) (s : State) (op : Op) : Prop where
  valid : op.Valid s
  grows : op.Grows build s
  resizes : op.Resizes s
  apart : op.Apart build s
  lives : op.Lives build s
  counts : op.Counts build s
  foreign : op.Foreign s

instance (build : Build) (s : State) (op : Op) : Decidable (op.Separate build s) :=
  decidable_of_iff (op.Valid s ∧ op.Grows build s ∧ op.Resizes s ∧ op.Apart build s ∧
      op.Lives build s ∧ op.Counts build s ∧ op.Foreign s)
    ⟨fun ⟨a, b, c, d, e, f, g⟩ => ⟨a, b, c, d, e, f, g⟩,
      fun ⟨a, b, c, d, e, f, g⟩ => ⟨a, b, c, d, e, f, g⟩⟩

section
variable {build : Build} {malloc : Malloc} {s t : State} {i k n : Nat}

theorem shown_of_get {h : Handle} (hw : s.Wf []) (hh : s.handles[k]? = some h) :
    s.shown k = some (s.heap.cellsAt h.ref.data h.ref.size) := by
  rw [State.shown, hh]
  exact Heap.read_eq_some.mpr ⟨hw.room hh, rfl⟩

theorem shown_quiet {touched : List Nat} (hw : s.Wf []) (htw : t.Wf []) (hq : Quiet touched s t)
    (hk : k < s.handles.length) (hk' : k ∉ touched) :
    ∃ bytes, s.shown k = some bytes ∧ t.shown k = some bytes := by
  obtain ⟨h, hh⟩ := has_get hk
  have ht : t.handles[k]? = some h := (hq.others k hk').trans hh
  refine ⟨_, shown_of_get hw hh, ?_⟩
  rw [shown_of_get htw ht, Heap.cellsAt_sameCells hq.cells (hw.room hh)]

theorem shown_refl (hw : s.Wf []) (hk : k < s.handles.length) :
    ∃ bytes, s.shown k = some bytes ∧ s.shown k = some bytes := by
  obtain ⟨h, hh⟩ := has_get hk
  exact ⟨_, shown_of_get hw hh, shown_of_get hw hh⟩

theorem cellsAt_beside {other this : Ref} {heap heap' : Heap UInt8} {ptr : Ptr} {new : Bytes}
    (hwrite : heap.write ptr new = some heap') (hptr : some ptr = advance this.data this.size)
    (hroom : heap.Room other.data other.size) (hbeside : Beside other this new.length) :
    heap'.cellsAt other.data other.size = heap.cellsAt other.data other.size := by
  rcases hbeside with hz | hz | hbeside
  · rw [hz, Heap.cellsAt_zero, Heap.cellsAt_zero]
  · rw [List.eq_nil_of_length_eq_zero hz] at hwrite
    exact Heap.cellsAt_sameCells (Heap.write_nil hwrite) hroom _
  · obtain ⟨ptr', hptr', rfl⟩ := Option.map_eq_some_iff.mp hptr.symm
    apply Heap.cellsAt_write hwrite hroom
    intro q hq hblock
    exact hbeside q hq ptr' hptr' hblock

/-- An append leaves the bytes of the others alone, in place or not. -/
theorem shown_append {data : Heap UInt8 → Option Bytes} {written : Nat} (hw : s.Wf [])
    (hg : ∀ this, s.handles[i]? = some this → this.Grows s.heap (sizeT (n + this.ref.size)))
    (ha : ∀ this, s.handles[i]? = some this →
      sizeT (n + this.ref.size) ≤ this.capacity.getD 0 →
      ∀ k < s.handles.length, k ≠ i → s.At k fun other => Beside other.ref this.ref written)
    (hlen : ∀ heap bytes, data heap = some bytes → bytes.length = written)
    (h : s.append malloc i n data = .ok t) (hk : k < s.handles.length) (hki : k ≠ i) :
    ∃ bytes, s.shown k = some bytes ∧ t.shown k = some bytes := by
  obtain ⟨u, p, hu, h⟩ := append_spec h
  obtain ⟨huw, huq, this, hthis, -, hp⟩ := expandSize_appended hw hg hu
  have hk' : k ∉ [i] := by simpa using hki
  obtain ⟨bytes, hbytes, hubytes⟩ := shown_quiet hw huw huq hk hk'
  rcases h with ⟨-, rfl⟩ | ⟨ptr, new, heap, rfl, hnew, hwrite, rfl⟩
  · exact ⟨bytes, hbytes, hubytes⟩
  · refine ⟨bytes, hbytes, ?_⟩
    obtain ⟨other, hother⟩ := has_get hk
    have huother : u.handles[k]? = some other := (huq.others k hk').trans hother
    have hroom := hw.room hother
    have huroom := huw.room huother
    have hsame : heap.cellsAt other.ref.data other.ref.size =
        u.heap.cellsAt other.ref.data other.ref.size := by
      rcases hp with ⟨⟨c, hc, hle⟩, -, hp⟩ | hp
      · -- in place, behind what `this` shows
        have hcapacity : sizeT (n + this.ref.size) ≤ this.capacity.getD 0 := by
          rw [hc]
          exact hle
        have hbeside := ha this hthis hcapacity k hk hki other hother
        rw [← hlen _ _ hnew] at hbeside
        exact cellsAt_beside hwrite hp huroom hbeside
      · -- in a block that was not there before
        cases hp
        apply Heap.cellsAt_write hwrite huroom
        intro q hq hblock
        rw [hq] at hroom
        obtain ⟨blk, hblk, -, -⟩ := hroom
        have hlt := (List.getElem?_eq_some_iff.mp hblk).1
        exact absurd hblock (Nat.ne_of_lt hlt)
    rw [shown_of_get (huw.write hwrite) huother, hsame, ← shown_of_get huw huother]
    exact hubytes

theorem demand_operands {op : Op} {d : Demand} (hd : op.demand build s = some d) :
    op.operands = [d.i] := by
  cases op with
  | append i source pos n =>
    cases hd
    rfl
  | pushBack i ch =>
    cases hd
    rfl
  | appendView i source pos count =>
    simp only [Op.demand, Option.bind_eq_bind, Option.bind_eq_some_iff] at hd
    obtain ⟨this, -, size, -, hd⟩ := hd
    split_ifs at hd
    cases hd
    rfl
  | appendBuffer i j pos count =>
    simp only [Op.demand, Option.bind_eq_bind, Option.bind_eq_some_iff] at hd
    obtain ⟨this, -, buf, -, hd⟩ := hd
    split_ifs at hd
    cases hd
    rfl
  | appendNumber i n base =>
    simp only [Op.demand] at hd
    split_ifs at hd
    cases hd
    rfl
  | _ => cases hd

/-- All references stay counted, and the handles that an operation is not on show what they
showed. -/
structure Frames (op : Op) (s t : State) : Prop where
  wf : t.Wf []
  others : ∀ k, k < s.handles.length → k ∉ op.operands →
    ∃ bytes, s.shown k = some bytes ∧ t.shown k = some bytes

theorem frames_of_quiet {op : Op} {touched : List Nat} (hw : s.Wf []) (htw : t.Wf [])
    (hq : Quiet touched s t)
    (htouched : ∀ k, k < s.handles.length → k ∉ op.operands → k ∉ touched) : Frames op s t :=
  ⟨htw, fun k hk hk' => shown_quiet hw htw hq hk (htouched k hk hk')⟩

theorem frames_refl (op : Op) (hw : s.Wf []) : Frames op s s :=
  ⟨hw, fun _ hk _ => shown_refl hw hk⟩

theorem frames_of_push {op : Op} (hw : s.Wf []) (htw : t.Wf [])
    (hq : Quiet [s.handles.length] s t) : Frames op s t := by
  apply frames_of_quiet hw htw hq
  intro k hk _
  simp only [List.mem_singleton]
  omega

theorem frames_of_demand {op : Op} {d : Demand} (hw : s.Wf []) (hop : op.Separate build s)
    (hd : op.demand build s = some d) (h : call build malloc s op = .ok t) : Frames op s t := by
  have hg := hop.grows
  have ha := hop.apart
  simp only [Op.Grows, Op.Apart, hd] at hg ha
  obtain ⟨data, happend, hlen⟩ := call_demand hd h
  refine ⟨(append_keeps hw hg happend).1, ?_⟩
  intro k hk hk'
  rw [demand_operands hd, List.mem_singleton] at hk'
  exact shown_append hw hg ha hlen happend hk hk'

theorem call_frames (op : Op) (hw : s.Wf []) (hop : op.Separate build s)
    (h : call build malloc s op = .ok t) : Frames op s t := by
  cases op with
  | callerMemory region =>
    obtain ⟨htw, htq⟩ := callerMemory_spec hw h
    exact frames_of_quiet hw htw htq fun _ _ _ => List.not_mem_nil
  | construct kind =>
    obtain ⟨htw, htq, -⟩ := construct_spec hw h
    exact frames_of_push hw htw htq
  | constructSize kind n =>
    obtain ⟨htw, htq, -⟩ := constructSize_spec hw h
    exact frames_of_push hw htw htq
  | constructCopy region =>
    obtain ⟨htw, htq, -⟩ := constructCopy_spec hw h
    exact frames_of_push hw htw htq
  | constructWeak block off size =>
    obtain ⟨htw, htq, -⟩ := constructWeak_spec hw h
    exact frames_of_push hw htw htq
  | constructDeleter region =>
    obtain ⟨htw, htq, -⟩ := constructDeleter_spec hw h
    exact frames_of_push hw htw htq
  | copyConstruct kind passed j =>
    obtain ⟨htw, htq, -⟩ := copyConstruct_spec hw h
    exact frames_of_push hw htw htq
  | moveConstruct kind passed j =>
    obtain ⟨htw, htq, -⟩ := moveConstruct_spec hw h
    apply frames_of_quiet hw htw htq
    intro k hk hk'
    simp only [Op.operands, List.mem_singleton] at hk'
    simp only [List.mem_cons, List.not_mem_nil, or_false]
    omega
  | copy j n =>
    obtain ⟨htw, htq, -⟩ := copyOp_spec hw h
    exact frames_of_push hw htw htq
  | slice kind j first last =>
    obtain ⟨htw, htq, -⟩ := sliceOp_spec hw h
    exact frames_of_push hw htw htq
  | assignView i block off size =>
    obtain ⟨htw, htq, -⟩ := assignView_spec hw h
    exact frames_of_quiet hw htw htq fun _ _ hk' => hk'
  | copyAssign i passed j =>
    obtain ⟨htw, htq, -⟩ := copyAssign_spec hw h
    exact frames_of_quiet hw htw htq fun _ _ hk' => hk'
  | moveAssign i passed j =>
    obtain ⟨htw, htq, -⟩ := moveAssign_spec hw h
    exact frames_of_quiet hw htw htq fun _ _ hk' => hk'
  | swap i passed j =>
    obtain ⟨htw, htq, -⟩ := swap_spec hw h
    exact frames_of_quiet hw htw htq fun _ _ hk' => hk'
  | reset i =>
    obtain ⟨htw, htq, -⟩ := reset_spec hw h
    exact frames_of_quiet hw htw htq fun _ _ hk' => hk'
  | clear i =>
    obtain ⟨htw, htq, -⟩ := clear_spec hw h
    exact frames_of_quiet hw htw htq fun _ _ hk' => hk'
  | setSize i size =>
    obtain ⟨this, n, hthis, hn, ⟨hle, hlt, rfl⟩ | hmoved⟩ := setSize_spec hw h
    · have hlt' : this.capacity.getD 0 < sizeT (size + size / 2) := by
        rw [hn]
        exact hlt
      have hroom := hop.resizes this hthis hlt' n hn hle
      exact frames_of_quiet hw (hw.resize hthis hroom) (s.resize_quiet i size) fun _ _ hk' => hk'
    · exact frames_of_quiet hw hmoved.wf hmoved.quiet fun _ _ hk' => hk'
  | setCapacity i capacity =>
    obtain ⟨this, hthis, -, rfl | hmoved⟩ := setCapacity_spec hw h
    · have hroom := (hw.room hthis).mono (Nat.min_le_left this.ref.size capacity)
      exact frames_of_quiet hw (hw.resize hthis hroom) (s.resize_quiet i _) fun _ _ hk' => hk'
    · exact frames_of_quiet hw hmoved.wf hmoved.quiet fun _ _ hk' => hk'
  | append i source pos n => exact frames_of_demand hw hop rfl h
  | pushBack i ch => exact frames_of_demand hw hop rfl h
  | appendView i source pos count =>
    cases hd : (Op.appendView i source pos count).demand build s with
    | some d => exact frames_of_demand hw hop hd h
    | none =>
      rw [appendView_idle hd h]
      exact frames_refl _ hw
  | appendNumber i n base =>
    cases hd : (Op.appendNumber i n base).demand build s with
    | some d => exact frames_of_demand hw hop hd h
    | none =>
      rw [appendNumber_idle hd h]
      exact frames_refl _ hw
  | appendBuffer i j pos count =>
    cases hd : (Op.appendBuffer i j pos count).demand build s with
    | some d => exact frames_of_demand hw hop hd h
    | none =>
      obtain rfl | ⟨htw, htq, -⟩ := appendBuffer_idle hw hd h
      · exact frames_refl _ hw
      · exact frames_of_quiet hw htw htq fun _ _ hk' => hk'

theorem copyAssign_shown {passed : Kind} (hw : s.Wf [])
    (hforeign : (Op.copyAssign i passed k).Foreign s)
    (h : call build malloc s (.copyAssign i passed k) = .ok t) :
    ∃ bytes, s.shown k = some bytes ∧ t.shown i = some bytes := by
  obtain ⟨htw, htq, this, other, capacity, hthis, hother, -, hh⟩ := copyAssign_spec hw h
  refine ⟨_, shown_of_get hw hother, ?_⟩
  rw [shown_of_get htw hh]
  by_cases hik : i = k
  · subst hik
    obtain rfl := Option.some.inj (hthis.symm.trans hother)
    have hempty : this.ref.size = 0 := hforeign rfl this hthis
    rw [if_pos rfl, hempty, Heap.cellsAt_zero]
    rfl
  · rw [if_neg hik, Heap.cellsAt_sameCells htq.cells (hw.room hother)]

/-- What is appended in place shows up in every handle that shows these bytes. -/
theorem append_overwrites {data : Heap UInt8 → Option Bytes} {new : Bytes} {this other : Handle}
    {p q : Ptr} {m : Nat} (hw : s.Wf []) (hthis : s.handles[i]? = some this)
    (hother : s.handles[k]? = some other) (hki : k ≠ i)
    (hg : this.Grows s.heap (sizeT (n + this.ref.size)))
    (hle : sizeT (n + this.ref.size) ≤ this.capacity.getD 0) (hp : this.ref.data = some p)
    (hq : other.ref.data = some q) (hblock : q.block = p.block) (hnew : data s.heap = some new)
    (hm : m < new.length) (hfirst : q.off ≤ p.off + this.ref.size + m)
    (hlast : p.off + this.ref.size + m < q.off + other.ref.size)
    (h : s.append malloc i n data = .ok t) :
    ∃ bytes, t.shown k = some bytes ∧ bytes[p.off + this.ref.size + m - q.off]? = new[m]? := by
  obtain ⟨u, ptr, hu, h⟩ := append_spec h
  obtain ⟨this', capacity, hthis', hcapacity, ⟨hle', rfl, rfl⟩ | ⟨hlt, -, -⟩⟩ :=
    expandSize_spec hw hu
  · obtain rfl := Option.some.inj (hthis.symm.trans hthis')
    have huw := hw.resize hthis (hg capacity hcapacity hle')
    have huother : (s.resize i (sizeT (n + this.ref.size))).handles[k]? = some other := by
      rw [State.resize_get, if_neg (Ne.symm hki)]
      exact hother
    rw [hp] at h
    rcases h with ⟨hnone, -⟩ | ⟨ptr, new', heap, hptr, hnew', hwrite, rfl⟩
    · cases hnone
    · obtain rfl := Option.some.inj (hnew.symm.trans hnew')
      obtain rfl := Option.some.inj hptr
      refine ⟨_, shown_of_get (huw.write hwrite) huother, ?_⟩
      rw [hq]
      exact Heap.cellsAt_written hwrite hblock hm hfirst hlast
  · obtain rfl := Option.some.inj (hthis.symm.trans hthis')
    rw [hcapacity] at hle
    exact absurd hlt (Nat.not_lt.mpr hle)

theorem copyAssign_self {passed : Kind} (hw : s.Wf [])
    (h : call build malloc s (.copyAssign i passed i) = .ok t) : t.shown i = some [] := by
  obtain ⟨htw, -, this, other, capacity, -, -, -, hh⟩ := copyAssign_spec hw h
  rw [if_pos rfl] at hh
  exact shown_of_get htw hh

def Thrifty {α : Type} (x : Call α) : Prop := x ≠ .error .badAlloc

theorem thrifty_ok {α : Type} (a : α) : Thrifty (.ok a : Call α) := by
  intro h
  cases h

theorem thrifty_defined {α : Type} (x : Option α) : Thrifty (defined x) := by
  cases x with
  | none =>
    intro h
    cases h
  | some a => exact thrifty_ok a

theorem thrifty_bind {α β : Type} {x : Call α} {f : α → Call β} (hx : Thrifty x)
    (hf : ∀ a, Thrifty (f a)) : Thrifty (x >>= f) := by
  cases x with
  | error stop =>
    cases stop with
    | undefined =>
      intro h
      cases h
    | badAlloc => exact absurd rfl hx
  | ok a => exact hf a

theorem handle_thrifty (s : State) (i : Nat) : Thrifty (s.handle i) := thrifty_defined _

theorem capacity_thrifty (s : State) (i : Nat) : Thrifty (s.capacity i) :=
  thrifty_bind (handle_thrifty s i) fun _ => thrifty_defined _

theorem taken_thrifty (kind passed : Kind) (other : Handle) :
    Thrifty (State.takenCapacity kind passed other) := by
  cases passed with
  | buffer => exact thrifty_ok _
  | mutable => exact thrifty_bind (thrifty_defined _) fun _ => thrifty_ok _

theorem callerView_thrifty (heap : Heap UInt8) (block off size : Nat) :
    Thrifty (callerView heap block off size) := by
  unfold callerView
  split
  · exact nofun
  · split_ifs
    all_goals exact nofun

theorem release_thrifty (s : State) (i : Nat) : Thrifty (s.release i) :=
  thrifty_bind (handle_thrifty s i) fun _ => thrifty_ok _

theorem swapRefs_thrifty (s : State) (i j : Nat) : Thrifty (s.swapRefs i j) :=
  thrifty_bind (handle_thrifty s i) fun _ => thrifty_bind (handle_thrifty s j) fun _ => thrifty_ok _

theorem takeCapacity_thrifty (s : State) (i : Nat) (passed : Kind) (j : Nat) :
    Thrifty (s.takeCapacity i passed j) :=
  thrifty_bind (handle_thrifty s i) fun _ => thrifty_bind (handle_thrifty s j) fun _ =>
    thrifty_bind (taken_thrifty _ _ _) fun _ => thrifty_ok _

def Op.Asks : Op → Prop
  | .constructSize .. | .constructCopy .. | .copy .. | .append .. | .appendView .. | .appendBuffer ..
  | .pushBack .. | .appendNumber .. | .setSize .. | .setCapacity .. => True
  | _ => False

theorem call_thrifty (op : Op) (hop : ¬op.Asks) : Thrifty (call build malloc s op) := by
  cases op with
  | callerMemory region => exact thrifty_ok _
  | construct kind => exact thrifty_ok _
  | constructDeleter region => exact thrifty_ok _
  | constructWeak block off size =>
    exact thrifty_bind (callerView_thrifty _ _ _ _) fun _ => thrifty_ok _
  | copyConstruct kind passed j =>
    exact thrifty_bind (handle_thrifty s j) fun _ =>
      thrifty_bind (taken_thrifty _ _ _) fun _ => thrifty_ok _
  | moveConstruct kind passed j =>
    exact thrifty_bind (handle_thrifty s j) fun _ => thrifty_bind (handle_thrifty _ j) fun _ =>
      thrifty_bind (taken_thrifty _ _ _) fun _ => thrifty_ok _
  | slice kind j first last =>
    refine thrifty_bind (handle_thrifty s j) fun _ => ?_
    cases kind with
    | buffer => exact thrifty_ok _
    | mutable => exact thrifty_bind (capacity_thrifty s j) fun _ => thrifty_ok _
  | assignView i block off size =>
    refine thrifty_bind (handle_thrifty s i) fun _ =>
      thrifty_bind (callerView_thrifty _ _ _ _) fun _ => ?_
    split_ifs
    · exact thrifty_bind (release_thrifty s i) fun _ => thrifty_ok _
    · exact nofun
  | copyAssign i passed j =>
    refine thrifty_bind (thrifty_bind (release_thrifty s i) fun u => ?_) fun u => ?_
    · exact thrifty_bind (handle_thrifty u j) fun _ => thrifty_ok _
    · exact takeCapacity_thrifty u i passed j
  | moveAssign i passed j =>
    refine thrifty_bind (thrifty_bind (release_thrifty s i) fun u => ?_) fun u => ?_
    · exact swapRefs_thrifty u i j
    · exact takeCapacity_thrifty u i passed j
  | swap i passed j =>
    refine thrifty_bind (swapRefs_thrifty s i j) fun u => ?_
    cases passed with
    | buffer => exact thrifty_ok _
    | mutable => exact thrifty_bind (handle_thrifty u j) fun _ =>
        thrifty_bind (capacity_thrifty u j) fun _ => thrifty_ok _
  | reset i =>
    exact thrifty_bind (release_thrifty s i) fun u =>
      thrifty_bind (handle_thrifty u i) fun _ => thrifty_ok _
  | clear i => exact thrifty_bind (capacity_thrifty s i) fun _ => thrifty_ok _
  | constructSize | constructCopy | copy | append | appendView | appendBuffer | pushBack
  | appendNumber | setSize | setCapacity => exact absurd trivial hop

theorem step_separate (op : Op) (hw : s.Wf []) (hop : op.Separate build s) :
    ∃ t, step build malloc s op = some t ∧ ActsOnValues op s t ∧ t.Wf [] := by
  have hfine : Fine (call build malloc s op) :=
    call_fine op hw hop.valid hop.grows hop.lives hop.counts
  unfold step
  cases h : call build malloc s op with
  | ok t =>
    have hframes := call_frames op hw hop h
    refine ⟨t, rfl, ⟨hframes.others, ?_⟩, hframes.wf⟩
    rintro i passed j rfl
    exact copyAssign_shown hw hop.foreign h
  | error stop =>
    cases stop with
    | undefined => exact absurd h hfine
    | badAlloc =>
      refine ⟨s, rfl, ⟨(frames_refl op hw).others, ?_⟩, hw⟩
      rintro i passed j rfl
      exact absurd h (call_thrifty _ id)

end

/-- Value semantics along every run whose operations keep out of each other's way. -/
theorem values_kept (build : Build) (malloc : Malloc) (ops : List Op)
    (hops : Along (step build malloc) (fun s op => op.Separate build s) State.init ops) :
    Along (step build malloc)
      (fun s op => ∃ t, step build malloc s op = some t ∧ ActsOnValues op s t) State.init ops := by
  refine along_invariant (fun s => s.Wf []) ?_ ops State.init init_wf hops
  intro s op hw hop
  obtain ⟨t, ht, hacts, htw⟩ : ∃ t, step build malloc s op = some t ∧ ActsOnValues op s t ∧
      t.Wf [] :=
    step_separate op hw hop
  refine ⟨⟨t, ht, hacts⟩, ?_⟩
  intro u hu
  obtain rfl := Option.some.inj (ht.symm.trans hu)
  exact htw

theorem values_kept_copy : Along (step glibc .zeroed)
    (fun s op => ∃ t, step glibc .zeroed s op = some t ∧ ActsOnValues op s t) State.init
    [.constructSize .mutable 16, .pushBack 0 ⟨[0x61], by decide⟩,
      .copyConstruct .mutable .mutable 0, .pushBack 1 ⟨[0x62], by decide⟩, .setCapacity 0 64,
      .append 0 (.shown 1) 0 2, .construct .mutable, .copyAssign 2 .mutable 0] :=
  values_kept glibc .zeroed _ (by decide +kernel)

/-- What is appended to a copy shows up in the original; and a handle that is assigned to itself
is empty afterwards. -/
theorem append_overwrites_original :
    (¬Along (step glibc .zeroed)
      (fun s op => ∃ t, step glibc .zeroed s op = some t ∧ ActsOnValues op s t) State.init
      [.constructSize .mutable 16, .pushBack 0 ⟨[0x61], by decide⟩,
        .copyConstruct .mutable .mutable 0, .pushBack 0 ⟨[0x62], by decide⟩,
        .pushBack 1 ⟨[0x63], by decide⟩]) ∧
    ¬Along (step glibc .zeroed)
      (fun s op => ∃ t, step glibc .zeroed s op = some t ∧ ActsOnValues op s t) State.init
      [.constructCopy ⟨[0x61], by decide⟩, .copyAssign 0 .buffer 0] := by
  constructor
  · intro h
    obtain ⟨⟨t, ht, hacts⟩, -⟩ := (((h.2 _ rfl).2 _ rfl).2 _ rfl).2 _ rfl
    cases ht
    obtain ⟨bytes, hbefore, hafter⟩ := hacts.others 0 (by decide) (by decide)
    have hab : [0x61, 0x62] = bytes := Option.some.inj hbefore
    have hac : [0x61, 0x63] = bytes := Option.some.inj hafter
    exact absurd (hab.trans hac.symm) (by decide)
  · intro h
    obtain ⟨⟨t, ht, hacts⟩, -⟩ := h.2 _ rfl
    cases ht
    obtain ⟨bytes, hbefore, hafter⟩ := hacts.copied 0 .buffer 0 rfl
    have ha : [0x61] = bytes := Option.some.inj hbefore
    have hnone : [] = bytes := Option.some.inj hafter
    exact absurd (ha.trans hnone.symm) (by decide)

end Libnodecc.Buffer
