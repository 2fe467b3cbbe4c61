import Libnodecc.Framework.Run
import Libnodecc.Framework.Slots
import Libnodecc.Object.Counter

namespace Libnodecc.Object

/-- An `object`. `held` are the references that user code has yet to give back, and `finalised` the
counts it was found with when it was deleted or dropped its responsible object. -/
structure Node where
  counter : Counter
  responsible : Option Nat
  held : Nat
  destroyRuns : Nat
  finalised : List Nat
  deriving DecidableEq

/-- What is left to do on the C++ stack. -/
inductive Frame where
  /-- `release()` behind its call of `_destroy()`. -/
  | releasing (k : Nat)
  /-- `destroy()` behind its call of `_destroy()`. -/
  | destroying (k : Nat)
  /-- A call of `release()`. -/
  | releaseCall (k : Nat)
  deriving DecidableEq

def Frame.object : Frame → Nat
  | .releasing k | .destroying k | .releaseCall k => k

structure Forest where
  nodes : List Node
  stack : List Frame
  deriving DecidableEq

/-- What user code calls, the listeners of `destroy_event` included; `proceed` goes on with the
innermost frame. -/
inductive ObjectCall where
  | create
  | setResponsibleObject (k p : Nat)
  | retain (k : Nat)
  | release (k : Nat)
  | destroy (k : Nat)
  | proceed
  deriving DecidableEq

namespace Node

def isFinalised (x : Node) : Bool := !x.finalised.isEmpty

/-- An object without a responsible object is finalised by `delete this`. -/
def isDeleted (x : Node) : Bool := x.isFinalised && x.responsible.isNone

def retain (x : Node) : Node := { x with counter := x.counter.retain }

/-- With its first responsible object an object leaves the reference it was made with to
`destroy()`. -/
def withResponsible (x : Node) (p : Nat) : Node :=
  { x with responsible := some p, held := x.held - if x.responsible.isNone then 1 else 0 }

/-- The reference that a child holds on its responsible object. -/
def holds (x : Node) : Option Nat := if x.isFinalised then none else x.responsible

end Node

namespace Forest

def init : Forest := ⟨[], []⟩

def set (s : Forest) (k : Nat) (x : Node) : Forest := { s with nodes := s.nodes.set k x }

def push (s : Forest) (f : Frame) : Forest := { s with stack := f :: s.stack }

/-- `if (_responsible_object) _responsible_object->release(); else delete this;` -/
def finalise (s : Forest) (k : Nat) (x : Node) : Forest :=
  let s := s.set k { x with finalised := x.finalised ++ [x.counter.useCount] }
  match x.responsible with
  | some p => s.push (.releaseCall p)
  | none => s

/-- `object::destroy` up to its call of `_destroy()`. -/
def destroy (s : Forest) (k : Nat) (x : Node) : Forest :=
  if x.counter.isDestroyed then s
  else
    let counter := { x.counter with isDestroyed := true }
    (s.set k { x with counter := counter, destroyRuns := x.destroyRuns + 1 }).push (.destroying k)

/-- `object::release` up to its call of `_destroy()`. -/
def release (s : Forest) (k : Nat) (x : Node) : Option Forest :=
  x.counter.release.map fun (counter, released) =>
    let x := { x with counter := counter }
    match released with
    | .referenced => s.set k x
    | .destroys => (s.set k { x with destroyRuns := x.destroyRuns + 1 }).push (.releasing k)
    | .finalises => s.finalise k x

/-- `object::set_responsible_object`. -/
def setResponsibleObject (s : Forest) (k p : Nat) (x y : Node) : Forest :=
  let s := (s.set k (x.withResponsible p)).set p y.retain
  match x.responsible with
  | some parent => s.push (.releaseCall parent)
  | none => s

/-- The frame `f`, with the others below it. `none` is a member access on a deleted object or a
failed assertion. -/
def proceed (s : Forest) : Frame → Option Forest
  | .releasing k =>
    s.nodes[k]?.bind fun x =>
      if x.isDeleted then none
      else if x.counter.useCount > 0 then some s
      else some (s.finalise k x)
  | .destroying k =>
    s.nodes[k]?.bind fun x =>
      if x.isDeleted then none
      else if x.responsible.isSome then some (s.push (.releaseCall k))
      else some s
  | .releaseCall k =>
    s.nodes[k]?.bind fun x => if x.isDeleted then none else s.release k x

/-- The object of a call of user code, which makes no calls on finalised objects and none while
`release()` calls itself. -/
def callee (s : Forest) (k : Nat) : Option Node :=
  match s.stack with
  | .releaseCall _ :: _ => none
  | _ => s.nodes[k]?.filter fun x => !x.isFinalised

/-- User code gives back only what it holds, and an object gets its first responsible object before
it is destroyed. Other calls change nothing. -/
def step (s : Forest) : ObjectCall → Option Forest
  | .create => some { s with nodes := s.nodes ++ [⟨.fresh, none, 1, 0, []⟩] }
  | .setResponsibleObject k p =>
    match s.callee k, s.callee p with
    | some x, some y =>
      if k ≠ p ∧ (x.responsible = none → 0 < x.held ∧ x.counter.isDestroyed = false) then
        some (s.setResponsibleObject k p x y)
      else some s
    | _, _ => some s
  | .retain k =>
    match s.callee k with
    | some x => some (s.set k { x.retain with held := x.held + 1 })
    | none => some s
  | .release k =>
    match s.callee k with
    | some x =>
      if 0 < x.held then some ((s.set k { x with held := x.held - 1 }).push (.releaseCall k))
      else some s
    | none => some s
  | .destroy k =>
    match s.callee k with
    | some x => some (s.destroy k x)
    | none => some s
  | .proceed =>
    match s.stack with
    | f :: stack => { s with stack := stack }.proceed f
    | [] => some s

/-- The references other than those of user code: children and calls of `release()` to come. -/
def refs (s : Forest) (k : Nat) : Nat :=
  holders (s.nodes.map Node.holds) k + s.stack.count (.releaseCall k)

def destroying (s : Forest) (k : Nat) : Nat := s.stack.count (.destroying k)

/-- How many frames wait for `_destroy()` of the object. -/
def running (s : Forest) (k : Nat) : Nat := s.stack.count (.releasing k) + s.destroying k

/-- No reference is dropped as the last one while `_destroy()` of its object is running, and none
is added to a count at its limit. -/
def Admitted (s : Forest) : ObjectCall → Prop
  | .setResponsibleObject k p =>
    ∀ x ∈ s.callee k, ∀ y ∈ s.callee p,
      k ≠ p ∧ (x.responsible = none → 0 < x.held ∧ x.counter.isDestroyed = false) →
        y.counter.useCount + 1 < useCountLimit
  | .retain k => ∀ x ∈ s.callee k, x.counter.useCount + 1 < useCountLimit
  | .proceed =>
    match s.stack with
    | .releaseCall k :: _ => ∀ x ∈ s.nodes[k]?, x.counter.useCount = 1 → s.running k = 0
    | _ => True
  | _ => True

instance (s : Forest) : ∀ call, Decidable (s.Admitted call)
  | .setResponsibleObject k p =>
    inferInstanceAs (Decidable (∀ x ∈ s.callee k, ∀ y ∈ s.callee p, _))
  | .retain k => inferInstanceAs (Decidable (∀ x ∈ s.callee k, _))
  | .proceed =>
    match h : s.stack with
    | .releaseCall k :: stack =>
      decidable_of_iff (∀ x ∈ s.nodes[k]?, x.counter.useCount = 1 → s.running k = 0)
        (by simp only [Admitted, h])
    | .releasing k :: stack => isTrue (by simp only [Admitted, h])
    | .destroying k :: stack => isTrue (by simp only [Admitted, h])
    | [] => isTrue (by simp only [Admitted, h])
  | .create | .release _ | .destroy _ => isTrue trivial

/-- The promise of the reference counts, for every object: it was finalised at most once, with a
count of zero, its `_destroy()` ran at most once, and it is not deleted while a child holds it. -/
def Sound (s : Forest) : Prop :=
  ∀ (k : Nat) (x : Node), s.nodes[k]? = some x →
    (x.finalised = [] ∨ x.finalised = [0]) ∧ x.destroyRuns ≤ 1 ∧
      (x.isDeleted → x.counter.useCount = 0 ∧
        ∀ (c : Nat) (y : Node), s.nodes[c]? = some y → y.responsible = some k →
          y.isFinalised ∧ .releaseCall k ∉ s.stack)

end Forest

/-- The reference an object with a responsible object was made with, until `destroy()` drops it. -/
def Node.owed (x : Node) (destroying : Nat) : Nat :=
  if x.responsible.isSome ∧ (x.counter.isDestroyed = false ∨ destroying ≠ 0) then 1 else 0

/-- What the fields of an object say about the references to it and the frames that wait for it. -/
structure Node.Fits (x : Node) (refs running destroying : Nat) : Prop where
  count : x.counter.useCount = x.held + refs + x.owed destroying
  runs : x.destroyRuns = x.counter.isDestroyed.toNat
  waits : running ≤ x.counter.isDestroyed.toNat
  final : x.isFinalised → x.finalised = [0] ∧ x.counter = ⟨0, true⟩ ∧ running = 0

namespace Forest

def FitsAt (s : Forest) (a : Nat) : Prop :=
  (s.nodes[a]? = none → s.refs a = 0 ∧ s.running a = 0) ∧
    ∀ x, s.nodes[a]? = some x → x.Fits (s.refs a) (s.running a) (s.destroying a)

def Accounted (s : Forest) : Prop := ∀ a, s.FitsAt a

section
variable {s t : Forest} {k : Nat} {x y : Node}

theorem FitsAt.congr {a : Nat} (h : s.FitsAt a) (hnode : t.nodes[a]? = s.nodes[a]?)
    (hrefs : t.refs a = s.refs a) (hrun : t.running a = s.running a)
    (hdes : t.destroying a = s.destroying a) : t.FitsAt a := by
  rw [FitsAt, hnode, hrefs, hrun, hdes]
  exact h

@[simp] theorem set_running (a : Nat) : (s.set k x).running a = s.running a := rfl

@[simp] theorem set_destroying (a : Nat) : (s.set k x).destroying a = s.destroying a := rfl

theorem push_refs (f : Frame) (a : Nat) :
    (s.push f).refs a = s.refs a + if f = .releaseCall a then 1 else 0 := by
  simp only [push, refs, List.count_cons, beq_iff_eq]
  omega

theorem push_destroying (f : Frame) (a : Nat) :
    (s.push f).destroying a = s.destroying a + if f = .destroying a then 1 else 0 := by
  simp only [push, destroying, List.count_cons, beq_iff_eq]

theorem push_running (f : Frame) (a : Nat) :
    (s.push f).running a =
      s.running a + (if f = .releasing a then 1 else 0) + if f = .destroying a then 1 else 0 := by
  rw [running, push_destroying, running]
  simp only [push, List.count_cons, beq_iff_eq]
  omega

theorem set_refs (hx : s.nodes[k]? = some x) (a : Nat) :
    (s.set k y).refs a + (if x.holds = some a then 1 else 0) =
      s.refs a + if y.holds = some a then 1 else 0 := by
  have h := holders_set (s.nodes.map Node.holds) k x.holds y.holds a (by simp [hx])
  rw [← List.map_set] at h
  simp only [refs, set]
  omega

theorem set_node_ne (a : Nat) (ha : a ≠ k) : (s.set k x).nodes[a]? = s.nodes[a]? :=
  List.getElem?_set_ne ha.symm

theorem set_node_self (hx : s.nodes[k]? = some x) : (s.set k y).nodes[k]? = some y :=
  List.getElem?_set_self (List.getElem?_eq_some_iff.mp hx).1

theorem fitsAt_of_fits (hx : s.nodes[k]? = some x)
    (hfit : x.Fits (s.refs k) (s.running k) (s.destroying k)) : s.FitsAt k := by
  constructor
  · intro hnone
    rw [hx] at hnone
    cases hnone
  · intro z hz
    rw [hx] at hz
    cases hz
    exact hfit

theorem accounted_at (hx : s.nodes[k]? = some x)
    (hfit : x.Fits (s.refs k) (s.running k) (s.destroying k))
    (hother : ∀ a, a ≠ k → s.FitsAt a) : s.Accounted := by
  intro a
  by_cases ha : a = k
  · rw [ha]
    exact fitsAt_of_fits hx hfit
  · exact hother a ha

theorem accounted_set (hx : s.nodes[k]? = some x) (ht : t.nodes = s.nodes.set k y)
    (hother : ∀ a, a ≠ k → s.FitsAt a ∧ t.refs a = s.refs a ∧ t.running a = s.running a ∧
      t.destroying a = s.destroying a)
    (hfit : y.Fits (t.refs k) (t.running k) (t.destroying k)) : t.Accounted := by
  have hy : t.nodes[k]? = some y := by
    rw [ht]
    exact set_node_self hx
  apply accounted_at hy hfit
  intro a ha
  obtain ⟨hs, hrefs, hrun, hdes⟩ := hother a ha
  refine hs.congr ?_ hrefs hrun hdes
  rw [ht]
  exact set_node_ne a ha

/-- Storing an object anew that holds what it held. -/
theorem accounted_update (hx : s.nodes[k]? = some x) (hother : ∀ a, a ≠ k → s.FitsAt a)
    (hfit : y.Fits (s.refs k) (s.running k) (s.destroying k))
    (hr : y.responsible = x.responsible) (hf : y.finalised = x.finalised) :
    (s.set k y).Accounted := by
  have hrefs (a : Nat) : (s.set k y).refs a = s.refs a := by
    have hholds : y.holds = x.holds := by
      rw [Node.holds, Node.holds, Node.isFinalised, Node.isFinalised, hf, hr]
    have h := set_refs (y := y) hx a
    rw [hholds] at h
    omega
  apply accounted_set hx rfl
  · intro a ha
    exact ⟨hother a ha, hrefs a, rfl, rfl⟩
  · rw [hrefs]
    exact hfit

theorem fitsAt_push (f : Frame) (a : Nat) (ha : a ≠ f.object) :
    (s.push f).FitsAt a ↔ s.FitsAt a := by
  have hrefs : (s.push f).refs a = s.refs a := by
    rw [push_refs, if_neg (by rintro rfl; exact ha rfl)]
    rfl
  have hdes : (s.push f).destroying a = s.destroying a := by
    rw [push_destroying, if_neg (by rintro rfl; exact ha rfl)]
    rfl
  have hrun : (s.push f).running a = s.running a := by
    rw [push_running, if_neg (by rintro rfl; exact ha rfl), if_neg (by rintro rfl; exact ha rfl)]
    rfl
  rw [FitsAt, hrefs, hrun, hdes]
  rfl

theorem accounted_push (f : Frame) (hx : s.nodes[f.object]? = some x)
    (hother : ∀ a, a ≠ f.object → s.FitsAt a)
    (hfit : y.Fits ((s.push f).refs f.object) ((s.push f).running f.object)
      ((s.push f).destroying f.object))
    (hr : y.responsible = x.responsible) (hf : y.finalised = x.finalised) :
    ((s.set f.object y).push f).Accounted := by
  change ((s.push f).set f.object y).Accounted
  refine accounted_update (s := s.push f) hx ?_ hfit hr hf
  intro a ha
  exact (fitsAt_push f a ha).mpr (hother a ha)

theorem Node.fits_live {refs running destroying : Nat} (hlive : x.isFinalised = false)
    (hcount : x.counter.useCount = x.held + refs + x.owed destroying)
    (hruns : x.destroyRuns = x.counter.isDestroyed.toNat)
    (hwaits : running ≤ x.counter.isDestroyed.toNat) : x.Fits refs running destroying := by
  refine ⟨hcount, hruns, hwaits, ?_⟩
  intro hfin
  exact absurd (hlive.symm.trans hfin) Bool.false_ne_true

/-- Finalising an object turns the reference it holds into a call of `release()` to come. -/
theorem finalise_refs (hx : s.nodes[k]? = some y) (hy : y.holds = x.responsible) (a : Nat) :
    (s.finalise k x).refs a = s.refs a := by
  have h := set_refs (y := { x with finalised := x.finalised ++ [x.counter.useCount] }) hx a
  have hnew : ({ x with finalised := x.finalised ++ [x.counter.useCount] } : Node).holds =
      none := by
    simp [Node.holds, Node.isFinalised]
  rw [hy, hnew] at h
  cases hr : x.responsible with
  | none =>
    simp only [finalise, hr]
    simpa [hr] using h
  | some p =>
    simp only [finalise, hr, push_refs]
    simpa [hr] using h

theorem finalise_nodes :
    (s.finalise k x).nodes =
      s.nodes.set k { x with finalised := x.finalised ++ [x.counter.useCount] } := by
  unfold finalise
  split <;> rfl

theorem finalise_stack (f : Frame) (hf : f ∈ s.stack) : f ∈ (s.finalise k x).stack := by
  unfold finalise
  split
  · exact List.mem_cons_of_mem _ hf
  · exact hf

theorem finalise_destroying (a : Nat) : (s.finalise k x).destroying a = s.destroying a := by
  unfold finalise
  split
  · simp [push_destroying]
  · rfl

theorem finalise_running (a : Nat) : (s.finalise k x).running a = s.running a := by
  unfold finalise
  split
  · simp [push_running]
  · rfl

theorem destroying_le (a : Nat) : s.destroying a ≤ s.running a := Nat.le_add_left _ _

theorem finalise_accounted (hx : s.nodes[k]? = some y) (hy : y.holds = x.responsible)
    (hother : ∀ a, a ≠ k → s.FitsAt a) (hlive : x.finalised = [])
    (hcounter : x.counter = ⟨0, true⟩) (hruns : x.destroyRuns = 1) (hheld : x.held = 0)
    (hrefs : s.refs k = 0) (hrun : s.running k = 0) : (s.finalise k x).Accounted := by
  have hdes : s.destroying k = 0 := Nat.le_zero.mp (hrun ▸ destroying_le k)
  apply accounted_set hx finalise_nodes
  · intro a ha
    exact ⟨hother a ha, finalise_refs hx hy a, finalise_running a, finalise_destroying a⟩
  · rw [finalise_refs hx hy, finalise_running, finalise_destroying, hrefs, hrun, hdes]
    constructor
    · simp [hcounter, hheld, Node.owed]
    · simp [hcounter, hruns]
    · exact Nat.zero_le _
    · intro _
      simp [hcounter, hlive]

/-- The object of a frame is there and not finalised. -/
theorem Accounted.framed (f : Frame) (hs : (s.push f).Accounted) :
    ∃ x, s.nodes[f.object]? = some x ∧ x.isFinalised = false ∧
      x.Fits ((s.push f).refs f.object) ((s.push f).running f.object)
        ((s.push f).destroying f.object) := by
  have hpos : 0 < (s.push f).refs f.object + (s.push f).running f.object := by
    rw [push_refs, push_running]
    cases f with
    | releasing a =>
      simp only [Frame.object, if_true]
      omega
    | destroying a =>
      simp only [Frame.object, if_true]
      omega
    | releaseCall a =>
      simp only [Frame.object, if_true]
      omega
  obtain ⟨hnone, hsome⟩ := hs f.object
  cases hx : s.nodes[f.object]? with
  | none =>
    have h := hnone hx
    omega
  | some x =>
    have hfit := hsome x hx
    refine ⟨x, rfl, ?_, hfit⟩
    cases hfin : x.isFinalised with
    | false => rfl
    | true =>
      obtain ⟨-, hcounter, hrun⟩ := hfit.final hfin
      have hcount := hfit.count
      rw [hcounter] at hcount
      change 0 = _ at hcount
      omega

theorem Node.not_deleted (hlive : x.isFinalised = false) : x.isDeleted = false := by
  simp [Node.isDeleted, hlive]

/-- An object whose frame waits for `_destroy()`; the other objects do without the frame. -/
theorem Accounted.waiting (f : Frame) (hf : f = .releasing k ∨ f = .destroying k)
    (hs : (s.push f).Accounted) :
    ∃ x, s.nodes[k]? = some x ∧ x.isFinalised = false ∧ x.counter.isDestroyed = true ∧
      x.destroyRuns = 1 ∧ s.running k = 0 ∧ s.destroying k = 0 ∧
      x.counter.useCount = x.held + s.refs k + x.owed (if f = .destroying k then 1 else 0) ∧
      ∀ a, a ≠ k → s.FitsAt a := by
  have hobject : f.object = k := by
    rcases hf with rfl | rfl <;> rfl
  obtain ⟨x, hx, hlive, hfit⟩ := hs.framed
  rw [hobject] at hx hfit
  have hrefs : (s.push f).refs k = s.refs k := by
    rw [push_refs]
    rcases hf with rfl | rfl <;> simp
  have hrunning : (s.push f).running k = s.running k + 1 := by
    rw [push_running]
    rcases hf with rfl | rfl <;> simp
  have hwaits := hfit.waits
  rw [hrunning] at hwaits
  have hdestroyed : x.counter.isDestroyed = true := by
    cases hd : x.counter.isDestroyed with
    | true => rfl
    | false =>
      rw [hd] at hwaits
      simp at hwaits
  have hrun : s.running k = 0 := by
    rw [hdestroyed] at hwaits
    simpa using hwaits
  have hdes : s.destroying k = 0 := Nat.le_zero.mp (hrun ▸ destroying_le k)
  have hcount := hfit.count
  rw [hrefs, push_destroying, hdes, Nat.zero_add] at hcount
  refine ⟨x, hx, hlive, hdestroyed, ?_, hrun, hdes, hcount, ?_⟩
  · rw [hfit.runs, hdestroyed]
    rfl
  · intro a ha
    exact (fitsAt_push f a (hobject ▸ ha)).mp (hs a)

theorem Node.fits_destroyed (hlive : x.isFinalised = false)
    (hdestroyed : x.counter.isDestroyed = true) (hruns : x.destroyRuns = 1) (refs : Nat)
    (hcount : x.counter.useCount = x.held + refs) : x.Fits refs 0 0 := by
  refine Node.fits_live hlive ?_ ?_ (Nat.zero_le _)
  · simp [Node.owed, hdestroyed, hcount]
  · simp [hruns, hdestroyed]

theorem proceed_releasing (hs : (s.push (.releasing k)).Accounted) :
    ∃ t, s.proceed (.releasing k) = some t ∧ t.Accounted := by
  obtain ⟨x, hx, hlive, hdestroyed, hruns, hrun, hdes, hcount, hother⟩ := hs.waiting _ (.inl rfl)
  have howed : x.owed 0 = 0 := by simp [Node.owed, hdestroyed]
  rw [if_neg (by simp), howed, Nat.add_zero] at hcount
  rw [proceed, hx, Option.bind_some, Node.not_deleted hlive, if_neg Bool.false_ne_true]
  by_cases hpos : x.counter.useCount > 0
  · refine ⟨s, if_pos hpos, accounted_at hx ?_ hother⟩
    rw [hrun, hdes]
    exact Node.fits_destroyed hlive hdestroyed hruns _ hcount
  · refine ⟨_, if_neg hpos, ?_⟩
    apply finalise_accounted hx (by simp [Node.holds, hlive]) hother
    · simpa [Node.isFinalised] using hlive
    · have hzero : x.counter.useCount = 0 := by omega
      rw [← hdestroyed, ← hzero]
    · exact hruns
    · omega
    · omega
    · exact hrun

theorem proceed_destroying (hs : (s.push (.destroying k)).Accounted) :
    ∃ t, s.proceed (.destroying k) = some t ∧ t.Accounted := by
  obtain ⟨x, hx, hlive, hdestroyed, hruns, hrun, hdes, hcount, hother⟩ := hs.waiting _ (.inr rfl)
  rw [if_pos rfl] at hcount
  rw [proceed, hx, Option.bind_some, Node.not_deleted hlive, if_neg Bool.false_ne_true]
  by_cases hr : x.responsible.isSome
  · have howed : x.owed 1 = 1 := by simp [Node.owed, hr]
    rw [howed] at hcount
    refine ⟨_, if_pos hr, accounted_at (x := x) hx ?_ ?_⟩
    · simp only [push_refs, push_running, push_destroying, reduceCtorEq, if_true, if_false,
        Nat.add_zero, hrun, hdes]
      exact Node.fits_destroyed hlive hdestroyed hruns _ hcount
    · intro a ha
      exact (fitsAt_push (.releaseCall k) a ha).mpr (hother a ha)
  · have howed : x.owed 1 = 0 := by simp [Node.owed, hr]
    rw [howed] at hcount
    refine ⟨_, if_neg hr, accounted_at hx ?_ hother⟩
    rw [hrun, hdes]
    exact Node.fits_destroyed hlive hdestroyed hruns _ hcount

theorem release_referenced (hmore : 1 < x.counter.useCount) :
    s.release k x = some (s.set k
      { x with counter := { x.counter with useCount := x.counter.useCount - 1 } }) := by
  rw [release, Counter.release_referenced _ hmore]
  rfl

theorem release_destroys (hlast : x.counter.useCount = 1) (hd : x.counter.isDestroyed = false) :
    s.release k x = some ((s.set k
      { x with counter := ⟨0, true⟩, destroyRuns := x.destroyRuns + 1 }).push (.releasing k)) := by
  rw [release, Counter.release_last _ hlast, hd]
  rfl

theorem release_finalises (hlast : x.counter.useCount = 1) (hd : x.counter.isDestroyed = true) :
    s.release k x = some (s.finalise k { x with counter := ⟨0, true⟩ }) := by
  rw [release, Counter.release_last _ hlast, hd]
  rfl

/-- A call of `release()` keeps the counts unless it drops the last reference while `_destroy()` is
running: then the object is finalised and the frame that waits for `_destroy()` finds it so. -/
theorem proceed_release (hs : (s.push (.releaseCall k)).Accounted) :
    (∀ x ∈ s.nodes[k]?, x.counter.useCount = 1 → s.running k = 0) ↔
      ∃ t, s.proceed (.releaseCall k) = some t ∧ t.Accounted := by
  obtain ⟨x, hx, hlive, hfit⟩ := hs.framed
  change s.nodes[k]? = some x at hx
  change x.Fits ((s.push (.releaseCall k)).refs k) ((s.push (.releaseCall k)).running k)
    ((s.push (.releaseCall k)).destroying k) at hfit
  simp only [push_refs, push_running, push_destroying, reduceCtorEq, if_true, if_false,
    Nat.add_zero] at hfit
  obtain ⟨hcount, hruns, hwaits, -⟩ := hfit
  have hother (a : Nat) (ha : a ≠ k) : s.FitsAt a := (fitsAt_push (.releaseCall k) a ha).mp (hs a)
  have hholds : x.holds = x.responsible := by simp [Node.holds, hlive]
  rw [proceed, hx, Option.bind_some, Node.not_deleted hlive, if_neg Bool.false_ne_true]
  simp only [Option.mem_def, Option.some.injEq, forall_eq']
  by_cases hlast : x.counter.useCount = 1
  · have hdrop : x.held = 0 ∧ s.refs k = 0 ∧ x.owed (s.destroying k) = 0 := by omega
    cases hd : x.counter.isDestroyed with
    | false =>
      have hrun : s.running k = 0 := by
        rw [hd] at hwaits
        simpa using hwaits
      have hunowned : x.responsible = none := by
        have howed := hdrop.2.2
        simpa [Node.owed, hd] using howed
      refine iff_of_true (fun _ => hrun) ⟨_, release_destroys hlast hd, ?_⟩
      apply accounted_push (.releasing k) hx hother
      · simp only [Frame.object, push_refs, push_running, push_destroying, reduceCtorEq, if_true,
          if_false, Nat.add_zero, hrun]
        refine Node.fits_live hlive ?_ ?_ ?_
        · simp [Node.owed, hunowned, hdrop]
        · simp [hruns, hd]
        · simp
      · rfl
      · rfl
    | true =>
      constructor
      · intro hrun
        refine ⟨_, release_finalises hlast hd, ?_⟩
        have hdestroyRuns : x.destroyRuns = 1 := by simp [hruns, hd]
        exact finalise_accounted hx hholds hother (by simpa [Node.isFinalised] using hlive) rfl
          hdestroyRuns hdrop.1 hdrop.2.1 (hrun hlast)
      · rintro ⟨t, ht, hacc⟩ -
        obtain rfl := Option.some.inj ((release_finalises hlast hd).symm.trans ht)
        have hfin := ((hacc k).2 _ (by rw [finalise_nodes]; exact set_node_self hx)).final
        have hzero := (hfin (by simp [Node.isFinalised])).2.2
        rwa [finalise_running] at hzero
  · have hmore : 1 < x.counter.useCount := by omega
    refine iff_of_true (fun h => absurd h hlast) ⟨_, release_referenced hmore, ?_⟩
    apply accounted_update hx hother
    · refine Node.fits_live hlive ?_ hruns hwaits
      change x.counter.useCount - 1 = x.held + s.refs k + x.owed (s.destroying k)
      omega
    · rfl
    · rfl

theorem callee_spec (hx : s.callee k = some x) :
    s.nodes[k]? = some x ∧ x.isFinalised = false := by
  have hfilter : (s.nodes[k]?.filter fun x => !x.isFinalised) = some x := by
    unfold callee at hx
    split at hx
    · cases hx
    · exact hx
  obtain ⟨hget, hlive⟩ := Option.filter_eq_some_iff.mp hfilter
  exact ⟨hget, by simpa using hlive⟩

theorem Accounted.callee (hs : s.Accounted) (hx : s.callee k = some x) :
    s.nodes[k]? = some x ∧ x.isFinalised = false ∧
      x.Fits (s.refs k) (s.running k) (s.destroying k) := by
  obtain ⟨hget, hlive⟩ := callee_spec hx
  exact ⟨hget, hlive, (hs k).2 x hget⟩

theorem create_accounted (hs : s.Accounted) :
    ({ s with nodes := s.nodes ++ [⟨.fresh, none, 1, 0, []⟩] } : Forest).Accounted := by
  intro a
  have hrefs : ({ s with nodes := s.nodes ++ [⟨.fresh, none, 1, 0, []⟩] } : Forest).refs a =
      s.refs a := by
    simp [refs, holders_push, Node.holds]
  obtain ⟨hnone, hsome⟩ := hs a
  rw [FitsAt, hrefs]
  change (((s.nodes ++ [⟨.fresh, none, 1, 0, []⟩])[a]? = none → s.refs a = 0 ∧ s.running a = 0) ∧
    ∀ x, (s.nodes ++ [⟨.fresh, none, 1, 0, []⟩])[a]? = some x →
      x.Fits (s.refs a) (s.running a) (s.destroying a))
  rcases Nat.lt_trichotomy a s.nodes.length with hlt | heq | hgt
  · rw [List.getElem?_append_left hlt]
    exact ⟨hnone, hsome⟩
  · have hempty := hnone (List.getElem?_eq_none (by omega))
    have hdes : s.destroying a = 0 := Nat.le_zero.mp (hempty.2 ▸ destroying_le a)
    subst heq
    rw [List.getElem?_concat_length]
    constructor
    · intro h
      cases h
    · intro x hx
      obtain rfl := Option.some.inj hx
      rw [hempty.1, hempty.2, hdes]
      constructor
      · rfl
      · rfl
      · exact Nat.zero_le _
      · intro hfin
        cases hfin
  · have hout : (s.nodes ++ [⟨.fresh, none, 1, 0, []⟩])[a]? = none := by
      apply List.getElem?_eq_none
      rw [List.length_append, List.length_singleton]
      omega
    rw [hout]
    refine ⟨fun _ => hnone (List.getElem?_eq_none (by omega)), ?_⟩
    intro x hx
    cases hx

theorem retain_accounted (hs : s.Accounted) (hx : s.callee k = some x) :
    x.counter.useCount + 1 < useCountLimit ↔
      (s.set k { x.retain with held := x.held + 1 }).Accounted := by
  obtain ⟨hget, hlive, hfit⟩ := hs.callee hx
  have hcount := hfit.count
  constructor
  · intro hlt
    apply accounted_update hget fun a _ => hs a
    · refine Node.fits_live hlive ?_ hfit.runs hfit.waits
      change x.counter.retain.useCount = x.held + 1 + s.refs k + x.owed (s.destroying k)
      rw [Counter.retain_useCount _ hlt]
      omega
    · rfl
    · rfl
  · intro hacc
    have hnew := ((hacc k).2 _ (set_node_self hget)).count
    have hmod : x.counter.retain.useCount < useCountLimit := Nat.mod_lt _ (by decide)
    have hrefs : (s.set k { x.retain with held := x.held + 1 }).refs k = s.refs k := by
      have h := set_refs (y := { x.retain with held := x.held + 1 }) hget k
      have hholds : ({ x.retain with held := x.held + 1 } : Node).holds = x.holds := rfl
      rw [hholds] at h
      omega
    rw [hrefs] at hnew
    change x.counter.retain.useCount = x.held + 1 + _ + x.owed (s.destroying k) at hnew
    omega

theorem giveBack_accounted (hs : s.Accounted) (hx : s.callee k = some x) (hheld : 0 < x.held) :
    ((s.set k { x with held := x.held - 1 }).push (.releaseCall k)).Accounted := by
  obtain ⟨hget, hlive, hfit⟩ := hs.callee hx
  have hcount := hfit.count
  apply accounted_push (.releaseCall k) hget (fun a _ => hs a)
  · simp only [Frame.object, push_refs, push_running, push_destroying, reduceCtorEq, if_true,
      if_false, Nat.add_zero]
    refine Node.fits_live hlive ?_ hfit.runs hfit.waits
    change x.counter.useCount = x.held - 1 + (s.refs k + 1) + x.owed (s.destroying k)
    omega
  · rfl
  · rfl

theorem destroy_accounted (hs : s.Accounted) (hx : s.callee k = some x) :
    (s.destroy k x).Accounted := by
  obtain ⟨hget, hlive, hfit⟩ := hs.callee hx
  rw [Forest.destroy]
  cases hd : x.counter.isDestroyed with
  | true => exact hs
  | false =>
    have hrun : s.running k = 0 := by
      have hwaits := hfit.waits
      rw [hd] at hwaits
      simpa using hwaits
    have hdes : s.destroying k = 0 := Nat.le_zero.mp (hrun ▸ destroying_le k)
    have hcount := hfit.count
    rw [if_neg Bool.false_ne_true]
    apply accounted_push (.destroying k) hget (fun a _ => hs a)
    · simp only [Frame.object, push_refs, push_running, push_destroying, reduceCtorEq, if_true,
        if_false, Nat.add_zero, hrun, hdes]
      refine Node.fits_live hlive ?_ ?_ ?_
      · rw [hcount]
        simp [Node.owed, hd]
      · simp [hfit.runs, hd]
      · simp
    · rfl
    · rfl

/-- The reference of the new responsible object; the old one waits for its `release()`. -/
theorem setResponsibleObject_refs (p : Nat) (hx : s.nodes[k]? = some x) (hy : s.nodes[p]? = some y)
    (hkp : k ≠ p) (hlive : x.isFinalised = false) (a : Nat) :
    (s.setResponsibleObject k p x y).refs a = s.refs a + if p = a then 1 else 0 := by
  have hold : x.holds = x.responsible := by simp [Node.holds, hlive]
  have hnew : (x.withResponsible p).holds = some p := by
    change (if x.isFinalised then none else some p) = some p
    rw [hlive, if_neg Bool.false_ne_true]
  have hsame : y.retain.holds = y.holds := rfl
  have h1 := set_refs (y := x.withResponsible p) hx a
  have h2 := set_refs (s := s.set k (x.withResponsible p)) (y := y.retain)
    ((set_node_ne p hkp.symm).trans hy) a
  rw [hold, hnew] at h1
  rw [hsame] at h2
  unfold setResponsibleObject
  cases hr : x.responsible with
  | none =>
    simp only [hr, reduceCtorEq, if_false, Nat.add_zero, Option.some.injEq] at h1 ⊢
    omega
  | some q =>
    simp only [hr, push_refs, Option.some.injEq, Frame.releaseCall.injEq] at h1 ⊢
    omega

theorem setResponsibleObject_frames (p a : Nat) :
    (s.setResponsibleObject k p x y).running a = s.running a ∧
      (s.setResponsibleObject k p x y).destroying a = s.destroying a := by
  unfold setResponsibleObject
  cases x.responsible with
  | none => exact ⟨rfl, rfl⟩
  | some q => simp [push_running, push_destroying]

theorem setResponsibleObject_nodes (p : Nat) :
    (s.setResponsibleObject k p x y).nodes =
      (s.nodes.set k (x.withResponsible p)).set p y.retain := by
  unfold setResponsibleObject
  cases x.responsible <;> rfl

theorem setResponsibleObject_accounted (p : Nat) (hs : s.Accounted) (hx : s.callee k = some x)
    (hy : s.callee p = some y) (hkp : k ≠ p)
    (hfirst : x.responsible = none → 0 < x.held ∧ x.counter.isDestroyed = false) :
    y.counter.useCount + 1 < useCountLimit ↔ (s.setResponsibleObject k p x y).Accounted := by
  obtain ⟨hgetx, hlivex, hfitx⟩ := hs.callee hx
  obtain ⟨hgety, hlivey, hfity⟩ := hs.callee hy
  have hrefs := setResponsibleObject_refs p hgetx hgety hkp hlivex
  have hframes := setResponsibleObject_frames (s := s) (k := k) (x := x) (y := y) p
  have hnodes := setResponsibleObject_nodes (s := s) (k := k) (x := x) (y := y) p
  obtain ⟨t, ht⟩ : ∃ t, t = s.setResponsibleObject k p x y := ⟨_, rfl⟩
  rw [← ht] at hrefs hframes hnodes ⊢
  have hltk := (List.getElem?_eq_some_iff.mp hgetx).1
  have hltp := (List.getElem?_eq_some_iff.mp hgety).1
  have hnodep : t.nodes[p]? = some y.retain := by
    rw [hnodes, List.getElem?_set_self (by rwa [List.length_set])]
  have hnodek : t.nodes[k]? = some (x.withResponsible p) := by
    rw [hnodes, List.getElem?_set_ne hkp.symm, List.getElem?_set_self hltk]
  have hcountx := hfitx.count
  have hcounty := hfity.count
  constructor
  · intro hlt
    apply accounted_at hnodep
    · rw [hrefs, (hframes p).1, (hframes p).2, if_pos rfl]
      refine Node.fits_live hlivey ?_ hfity.runs hfity.waits
      change y.counter.retain.useCount = y.held + (s.refs p + 1) + y.owed (s.destroying p)
      rw [Counter.retain_useCount _ hlt]
      omega
    · intro a hap
      by_cases hak : a = k
      · subst hak
        apply fitsAt_of_fits hnodek
        rw [hrefs, (hframes a).1, (hframes a).2, if_neg hap.symm]
        refine Node.fits_live hlivex ?_ hfitx.runs hfitx.waits
        change x.counter.useCount = _
        rw [hcountx]
        cases hr : x.responsible with
        | none =>
          obtain ⟨hheld, hd⟩ := hfirst hr
          simp [Node.owed, Node.withResponsible, hr, hd]
          omega
        | some q => simp [Node.owed, Node.withResponsible, hr]
      · apply (hs a).congr
        · rw [hnodes, List.getElem?_set_ne (Ne.symm hap), List.getElem?_set_ne (Ne.symm hak)]
        · rw [hrefs, if_neg (Ne.symm hap), Nat.add_zero]
        · exact (hframes a).1
        · exact (hframes a).2
  · intro hacc
    have hnew := ((hacc p).2 _ hnodep).count
    rw [hrefs, (hframes p).2, if_pos rfl] at hnew
    change y.counter.retain.useCount = y.held + _ + y.owed (s.destroying p) at hnew
    have hmod : y.counter.retain.useCount < useCountLimit := Nat.mod_lt _ (by decide)
    omega

/-- Exactly the admitted calls are defined and keep every account. -/
theorem step_accounted (hs : s.Accounted) (call : ObjectCall) :
    s.Admitted call ↔ ∃ t, s.step call = some t ∧ t.Accounted := by
  have hstays : ∃ t, some s = some t ∧ t.Accounted := ⟨s, rfl, hs⟩
  cases call with
  | create => exact iff_of_true trivial ⟨_, rfl, create_accounted hs⟩
  | setResponsibleObject k p =>
    simp only [Admitted, step]
    cases hx : s.callee k with
    | none => exact iff_of_true (by simp) hstays
    | some x =>
      cases hy : s.callee p with
      | none => exact iff_of_true (by simp) hstays
      | some y =>
        simp only [Option.mem_def, Option.some.injEq, forall_eq']
        by_cases hallowed : k ≠ p ∧ (x.responsible = none → 0 < x.held ∧
            x.counter.isDestroyed = false)
        · rw [if_pos hallowed]
          have h := setResponsibleObject_accounted p hs hx hy hallowed.1 hallowed.2
          simp only [Option.some.injEq, exists_eq_left', ← h]
          exact ⟨fun hroom => hroom hallowed, fun hroom _ => hroom⟩
        · rw [if_neg hallowed]
          exact iff_of_true (fun h => absurd h hallowed) hstays
  | retain k =>
    simp only [Admitted, step]
    cases hx : s.callee k with
    | none => exact iff_of_true nofun hstays
    | some x => simp [retain_accounted hs hx]
  | release k =>
    refine iff_of_true trivial ?_
    simp only [step]
    cases hx : s.callee k with
    | none => exact hstays
    | some x =>
      by_cases hheld : 0 < x.held
      · exact ⟨_, if_pos hheld, giveBack_accounted hs hx hheld⟩
      · exact ⟨s, if_neg hheld, hs⟩
  | destroy k =>
    refine iff_of_true trivial ?_
    simp only [step]
    cases hx : s.callee k with
    | none => exact hstays
    | some x => exact ⟨_, rfl, destroy_accounted hs hx⟩
  | proceed =>
    cases hstack : s.stack with
    | nil =>
      simp only [Admitted, step, hstack]
      exact iff_of_true trivial hstays
    | cons f stack =>
      have hpop : s = ({ s with stack := stack } : Forest).push f := by
        rw [push, ← hstack]
      have hs' : (({ s with stack := stack } : Forest).push f).Accounted := hpop ▸ hs
      simp only [Admitted, step, hstack]
      cases f with
      | releasing k => exact iff_of_true trivial (proceed_releasing hs')
      | destroying k => exact iff_of_true trivial (proceed_destroying hs')
      | releaseCall k =>
        have hrun : s.running k = ({ s with stack := stack } : Forest).running k := by
          conv_lhs => rw [hpop, push_running]
          simp
        rw [← proceed_release hs']
        simp only [hrun]

theorem Accounted.sound (hs : s.Accounted) : s.Sound := by
  intro k x hx
  have hfit := (hs k).2 x hx
  have hruns : x.destroyRuns ≤ 1 := by
    rw [hfit.runs]
    exact Bool.toNat_le _
  refine ⟨?_, hruns, ?_⟩
  · cases hfin : x.isFinalised with
    | false => exact .inl (by simpa [Node.isFinalised] using hfin)
    | true => exact .inr (hfit.final hfin).1
  · intro hdel
    have hfin : x.isFinalised = true := (Bool.and_eq_true_iff.mp hdel).1
    obtain ⟨-, hcounter, -⟩ := hfit.final hfin
    have hcount := hfit.count
    rw [hcounter] at hcount
    have hrefs : s.refs k = 0 := by
      change 0 = _ at hcount
      omega
    refine ⟨by rw [hcounter], ?_⟩
    intro c y hy hr
    constructor
    · cases hlive : y.isFinalised with
      | true => rfl
      | false =>
        have hholds : (s.nodes.map Node.holds)[c]? = some (some k) := by
          simp [hy, Node.holds, hlive, hr]
        have hpos := holders_pos _ c k hholds
        unfold refs at hrefs
        omega
    · intro hmem
      have hpos := List.count_pos_iff.mpr hmem
      unfold refs at hrefs
      omega

theorem init_accounted : init.Accounted := by
  intro a
  refine ⟨fun _ => ⟨rfl, rfl⟩, ?_⟩
  intro x hx
  cases hx

end

section
variable {s t u : Forest} {k a : Nat} {x y : Node}

theorem release_other (ha : a ≠ k) (ht : s.release k x = some t) :
    t.nodes[a]? = s.nodes[a]? ∧ ∀ f ∈ s.stack, f ∈ t.stack := by
  obtain ⟨⟨counter, released⟩, -, hres⟩ := Option.map_eq_some_iff.mp ht
  subst hres
  cases released with
  | referenced => exact ⟨set_node_ne a ha, fun f hf => hf⟩
  | destroys => exact ⟨set_node_ne a ha, fun f hf => List.mem_cons_of_mem _ hf⟩
  | finalises =>
    refine ⟨?_, finalise_stack⟩
    rw [finalise_nodes]
    exact set_node_ne a ha

theorem proceed_deleted (g : Frame) (hx : s.nodes[g.object]? = some x) (hdel : x.isDeleted) :
    s.proceed g = none := by
  cases g with
  | releasing k | destroying k | releaseCall k =>
    change s.nodes[k]? = some x at hx
    rw [proceed, hx, Option.bind_some, if_pos hdel]

/-- A frame leaves alone the deleted objects and what is below it. -/
theorem proceed_other (g : Frame) (hx : s.nodes[k]? = some x) (hdel : x.isDeleted)
    (ht : s.proceed g = some t) : t.nodes[k]? = some x ∧ ∀ f ∈ s.stack, f ∈ t.stack := by
  have hne : k ≠ g.object := by
    rintro rfl
    rw [proceed_deleted g hx hdel] at ht
    cases ht
  have hstays : s.nodes[k]? = some x ∧ ∀ f ∈ s.stack, f ∈ s.stack := ⟨hx, fun f hf => hf⟩
  cases g with
  | releasing c =>
    obtain ⟨y, hy, ht⟩ := Option.bind_eq_some_iff.mp ht
    split_ifs at ht with h1 h2
    · obtain rfl := Option.some.inj ht
      exact hstays
    · obtain rfl := Option.some.inj ht
      refine ⟨?_, finalise_stack⟩
      rw [finalise_nodes]
      exact (set_node_ne k hne).trans hx
  | destroying c =>
    obtain ⟨y, hy, ht⟩ := Option.bind_eq_some_iff.mp ht
    split_ifs at ht with h1 h2
    · obtain rfl := Option.some.inj ht
      exact ⟨hx, fun f hf => List.mem_cons_of_mem _ hf⟩
    · obtain rfl := Option.some.inj ht
      exact hstays
  | releaseCall c =>
    obtain ⟨y, hy, ht⟩ := Option.bind_eq_some_iff.mp ht
    split_ifs at ht with h1
    obtain ⟨hnode, hstack⟩ := release_other hne ht
    exact ⟨hnode.trans hx, hstack⟩

/-- Nothing happens any more to a deleted object, and a frame that waits for its `_destroy()` stays
on the stack: the call that deleted an object under it never comes back. -/
theorem deleted_never_returns (hx : s.nodes[k]? = some x) (hdel : x.isDeleted) (f : Frame)
    (hf : f ∈ s.stack) (hfk : f = .releasing k ∨ f = .destroying k) (call : ObjectCall)
    (ht : s.step call = some t) : t.nodes[k]? = some x ∧ f ∈ t.stack := by
  have hfin : x.isFinalised = true := (Bool.and_eq_true_iff.mp hdel).1
  have hne (c : Nat) (y : Node) (hy : s.callee c = some y) : k ≠ c := by
    rintro rfl
    obtain ⟨hget, hlive⟩ := callee_spec hy
    obtain rfl := Option.some.inj (hx.symm.trans hget)
    rw [hfin] at hlive
    cases hlive
  have hset (c : Nat) (y : Node) (hc : k ≠ c) : (s.set c y).nodes[k]? = some x :=
    (set_node_ne k hc).trans hx
  have hstays (h : some s = some t) : t.nodes[k]? = some x ∧ f ∈ t.stack :=
    Option.some.inj h ▸ ⟨hx, hf⟩
  cases call with
  | create =>
    obtain rfl := Option.some.inj ht
    exact ⟨(List.getElem?_append_left (List.getElem?_eq_some_iff.mp hx).1).trans hx, hf⟩
  | setResponsibleObject c p =>
    simp only [step] at ht
    cases hc : s.callee c with
    | none =>
      rw [hc] at ht
      exact hstays ht
    | some y =>
      cases hp : s.callee p with
      | none =>
        rw [hc, hp] at ht
        exact hstays ht
      | some z =>
        simp only [hc, hp] at ht
        split at ht
        · obtain rfl := Option.some.inj ht
          constructor
          · rw [setResponsibleObject_nodes, List.getElem?_set_ne (hne p z hp).symm,
              List.getElem?_set_ne (hne c y hc).symm, hx]
          · unfold setResponsibleObject
            split
            · exact List.mem_cons_of_mem _ hf
            · exact hf
        · obtain rfl := Option.some.inj ht
          exact ⟨hx, hf⟩
  | retain c =>
    simp only [step] at ht
    cases hc : s.callee c with
    | none =>
      rw [hc] at ht
      exact hstays ht
    | some y =>
      rw [hc] at ht
      obtain rfl := Option.some.inj ht
      exact ⟨hset c _ (hne c y hc), hf⟩
  | release c =>
    simp only [step] at ht
    cases hc : s.callee c with
    | none =>
      rw [hc] at ht
      exact hstays ht
    | some y =>
      simp only [hc] at ht
      split at ht
      · obtain rfl := Option.some.inj ht
        exact ⟨hset c _ (hne c y hc), List.mem_cons_of_mem _ hf⟩
      · exact hstays ht
  | destroy c =>
    simp only [step] at ht
    cases hc : s.callee c with
    | none =>
      rw [hc] at ht
      exact hstays ht
    | some y =>
      rw [hc] at ht
      obtain rfl := Option.some.inj ht
      unfold Forest.destroy
      split
      · exact ⟨hx, hf⟩
      · exact ⟨hset c _ (hne c y hc), List.mem_cons_of_mem _ hf⟩
  | proceed =>
    cases hstack : s.stack with
    | nil =>
      rw [hstack] at hf
      cases hf
    | cons g stack =>
      simp only [step, hstack] at ht
      have hg : g ≠ f := by
        rintro rfl
        have hobject : g.object = k := by
          rcases hfk with rfl | rfl <;> rfl
        rw [proceed_deleted (s := { s with stack := stack }) g (hobject ▸ hx) hdel] at ht
        cases ht
      obtain ⟨hnode, hkept⟩ := proceed_other (s := { s with stack := stack }) g hx hdel ht
      rw [hstack] at hf
      exact ⟨hnode, hkept f ((List.mem_cons.mp hf).resolve_left hg.symm)⟩

end

/-- In every run whose calls are admitted, all calls are defined and the counts keep their promise
in every state. -/
theorem objects_finalised_once (calls : List ObjectCall) (hC : Along step Admitted init calls)
    (n : Nat) : ∃ s, run step init (calls.take n) = some s ∧ s.Sound := by
  obtain ⟨s, hs, hacc⟩ :=
    (along_iff_reached Accounted (fun _ call hs => step_accounted hs call) calls init
      init_accounted).mp hC n
  exact ⟨s, hs, hacc.sound⟩

/-- A child and its responsible object, both destroyed; the child is retained and released by a
listener of its `destroy_event`. -/
theorem objects_finalised_once_child :
    ∃ s, run step init ([.create, .create, .setResponsibleObject 1 0, .release 0, .proceed,
      .destroy 1, .retain 1, .release 1, .proceed, .proceed, .proceed, .proceed, .proceed].take 13) =
        some s ∧ s.Sound :=
  objects_finalised_once _ (by decide) 13

/-- A listener that retains and releases an object during its last `release()` deletes it; when
`_destroy()` returns, `release()` reads the count of the deleted object and deletes it again. -/
theorem listener_deletes_object :
    run step init [.create, .release 0, .proceed, .retain 0, .release 0, .proceed] =
      some ⟨[⟨⟨0, true⟩, none, 0, 1, [0]⟩], [.releasing 0]⟩ ∧
    run step init [.create, .release 0, .proceed, .retain 0, .release 0, .proceed, .proceed] =
      none := by
  decide

end Forest

end Libnodecc.Object
