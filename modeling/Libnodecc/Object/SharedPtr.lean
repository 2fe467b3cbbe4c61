import Libnodecc.Framework.Run
import Libnodecc.Framework.Slots
import Libnodecc.Object.Counter

namespace Libnodecc.Object

/-- An object that only `shared_ptr`s retain; `deletes` counts how often it was deleted. -/
structure Pointee where
  counter : Counter
  deletes : Nat
  deriving DecidableEq

/-- The objects and the `shared_ptr`s, a destroyed one being like one that was reset. -/
structure SharedPtrs where
  objects : List Pointee
  pointers : List (Option Nat)
  deriving DecidableEq

/-- The operations of `shared_ptr`, on pointers by their number. -/
inductive SharedPtrOp where
  | makeShared
  | construct
  | copyConstruct (j : Nat)
  | moveConstruct (j : Nat)
  | copyAssign (i j : Nat)
  | moveAssign (i j : Nat)
  | assignNull (i : Nat)
  | reset (i : Nat)
  | destruct (i : Nat)
  deriving DecidableEq

namespace SharedPtrs

def init : SharedPtrs := ⟨[], []⟩

/-- A call on the object `o`, which has to be there. -/
def update (s : SharedPtrs) (o : Nat) (f : Pointee → Option Pointee) : Option SharedPtrs :=
  s.objects[o]?.bind fun obj =>
    if obj.deletes = 0 then
      (f obj).map fun obj => { s with objects := s.objects.set o obj }
    else none

/-- `if (_ptr) _ptr->retain()`. -/
def retain (s : SharedPtrs) : Option Nat → Option SharedPtrs
  | none => some s
  | some o => s.update o fun obj => some { obj with counter := obj.counter.retain }

/-- `release` with a `_destroy()` that nobody listens to, which leaves the count at zero. -/
def releasePointee (obj : Pointee) : Option Pointee :=
  obj.counter.release.map fun (counter, released) =>
    match released with
    | .referenced => { obj with counter := counter }
    | _ => { obj with counter := counter, deletes := obj.deletes + 1 }

/-- `if (_ptr) _ptr->release()`. -/
def release (s : SharedPtrs) : Option Nat → Option SharedPtrs
  | none => some s
  | some o => s.update o releasePointee

def store (s : SharedPtrs) (i : Nat) (p : Option Nat) : SharedPtrs :=
  { s with pointers := s.pointers.set i p }

def push (s : SharedPtrs) (p : Option Nat) : SharedPtrs :=
  { s with pointers := s.pointers ++ [p] }

/-- `shared_ptr::reset`, which is all that assigning `nullptr` and the destructor do. -/
def resetPtr (s : SharedPtrs) (i : Nat) (p : Option Nat) : Option SharedPtrs :=
  (s.release p).map fun s => s.store i none

/-- `none` is a call on a deleted object or a failed assertion. A label with a pointer that does
not exist changes nothing. -/
def step (s : SharedPtrs) : SharedPtrOp → Option SharedPtrs
  | .makeShared =>
    let o : Pointee := ⟨.fresh, 0⟩
    some ({ s with objects := s.objects ++ [o] }.push (some s.objects.length))
  | .construct => some (s.push none)
  | .copyConstruct j =>
    match s.pointers[j]? with
    | none => some s
    | some other => (s.push other).retain other
  | .moveConstruct j =>
    match s.pointers[j]? with
    | none => some s
    | some other => some ((s.store j none).push other)
  | .copyAssign i j =>
    match s.pointers[i]?, s.pointers[j]? with
    | some _, some other => (s.store i other).retain other
    | _, _ => some s
  | .moveAssign i j =>
    match s.pointers[i]?, s.pointers[j]? with
    | some _, some other => some ((s.store i other).store j none)
    | _, _ => some s
  | .assignNull i | .reset i | .destruct i =>
    match s.pointers[i]? with
    | none => some s
    | some this => s.resetPtr i this

/-- A live object has as many references as there are pointers to it; one without pointers was
deleted, once. -/
def Fits (obj : Pointee) (n : Nat) : Prop :=
  obj.deletes = 0 ∧ 0 < n ∧ obj.counter.useCount = n ∨ obj.deletes = 1 ∧ n = 0

def FitAll (s : SharedPtrs) (n : Nat → Nat) : Prop :=
  ∀ o obj, s.objects[o]? = some obj → Fits obj (n o)

structure Counted (s : SharedPtrs) : Prop where
  valid : ∀ o, some o ∈ s.pointers → o < s.objects.length
  fits : s.FitAll (holders s.pointers)

def Retainable (s : SharedPtrs) (p : Option Nat) : Prop :=
  ∀ o ∈ p, ∀ obj ∈ s.objects[o]?, obj.counter.useCount + 1 < useCountLimit

/-- An assignment is to a pointer that holds nothing, and no count is at its limit. -/
def Admitted (s : SharedPtrs) : SharedPtrOp → Prop
  | .copyConstruct j => ∀ other ∈ s.pointers[j]?, s.Retainable other
  | .copyAssign i j =>
    ∀ this ∈ s.pointers[i]?, ∀ other ∈ s.pointers[j]?, this = none ∧ s.Retainable other
  | .moveAssign i j => ∀ this ∈ s.pointers[i]?, ∀ _other ∈ s.pointers[j]?, this = none
  | _ => True

instance (s : SharedPtrs) (p : Option Nat) : Decidable (s.Retainable p) :=
  inferInstanceAs (Decidable (∀ o ∈ p, ∀ obj ∈ s.objects[o]?, _))

instance (s : SharedPtrs) : ∀ op, Decidable (s.Admitted op)
  | .copyConstruct j => inferInstanceAs (Decidable (∀ other ∈ s.pointers[j]?, _))
  | .copyAssign i j =>
    inferInstanceAs (Decidable (∀ this ∈ s.pointers[i]?, ∀ other ∈ s.pointers[j]?, _))
  | .moveAssign i j =>
    inferInstanceAs (Decidable (∀ this ∈ s.pointers[i]?, ∀ _other ∈ s.pointers[j]?, _))
  | .makeShared | .construct | .moveConstruct _ | .assignNull _ | .reset _ | .destruct _ =>
    isTrue trivial

section
variable {s : SharedPtrs} {n : Nat → Nat}

theorem update_live (hs : s.FitAll n) (o : Nat) (ho : o < s.objects.length) (hpos : 0 < n o)
    (f : Pointee → Option Pointee) :
    ∃ obj, s.objects[o]? = some obj ∧ obj.deletes = 0 ∧ obj.counter.useCount = n o ∧
      ∀ obj', f obj = some obj' →
        s.update o f = some { s with objects := s.objects.set o obj' } := by
  have hget : s.objects[o]? = some s.objects[o] := List.getElem?_eq_getElem ho
  rcases hs o _ hget with ⟨hlive, -, hcount⟩ | ⟨-, hz⟩
  · refine ⟨s.objects[o], hget, hlive, hcount, ?_⟩
    intro obj' hf
    rw [update, hget, Option.bind_some, if_pos hlive, hf]
    rfl
  · omega

theorem fitAll_set (hs : s.FitAll n) (o : Nat) (obj : Pointee) (m : Nat → Nat)
    (hfit : Fits obj (m o)) (hother : ∀ a, a ≠ o → m a = n a) :
    ({ s with objects := s.objects.set o obj } : SharedPtrs).FitAll m := by
  intro a x hx
  rw [List.getElem?_set] at hx
  split_ifs at hx with hao hlt
  · cases hx
    rw [← hao]
    exact hfit
  · rw [hother a (Ne.symm hao)]
    exact hs a x hx

/-- `retain` counts one more reference, unless the count is at its limit. -/
theorem retain_spec (hs : s.FitAll n) (p : Option Nat)
    (hp : ∀ o, p = some o → o < s.objects.length ∧ 0 < n o) :
    ∃ t, s.retain p = some t ∧ t.pointers = s.pointers ∧
      t.objects.length = s.objects.length ∧
      (∀ a obj, s.objects[a]? = some obj → p ≠ some a → t.objects[a]? = some obj) ∧
      (s.Retainable p → t.FitAll fun a => n a + if p = some a then 1 else 0) ∧
      ∀ o, p = some o → ∃ obj, t.objects[o]? = some obj ∧ obj.deletes = 0 ∧
        obj.counter.useCount = (n o + 1) % useCountLimit := by
  cases p with
  | none => exact ⟨s, rfl, rfl, rfl, fun a obj h _ => h, fun _ => by simpa using hs, by simp⟩
  | some o =>
    obtain ⟨ho, hpos⟩ := hp o rfl
    obtain ⟨obj, hget, hlive, hcount, hup⟩ := update_live hs o ho hpos
      fun obj => some { obj with counter := obj.counter.retain }
    refine ⟨_, hup _ rfl, rfl, List.length_set, ?_, ?_, ?_⟩
    · intro a x hx ha
      rw [List.getElem?_set_ne (fun h => ha (by rw [h]))]
      exact hx
    · intro hr
      have hlt := hr o rfl obj hget
      refine fitAll_set hs o _ _ (.inl ⟨hlive, ?_, ?_⟩) ?_
      · simp
      · rw [Counter.retain_useCount _ hlt, hcount]
        simp
      · intro a ha
        simp [Ne.symm ha]
    · rintro o' ho'
      obtain rfl := Option.some.inj ho'
      refine ⟨_, List.getElem?_set_self ho, hlive, ?_⟩
      rw [Counter.retain, hcount]

/-- `release` counts one reference less, and deletes the object with the last one. -/
theorem release_spec (hs : s.FitAll n) (p : Option Nat)
    (hp : ∀ o, p = some o → o < s.objects.length ∧ 0 < n o) :
    ∃ t, s.release p = some t ∧ t.pointers = s.pointers ∧
      t.objects.length = s.objects.length ∧
      t.FitAll fun a => n a - if p = some a then 1 else 0 := by
  cases p with
  | none => exact ⟨s, rfl, rfl, rfl, by simpa using hs⟩
  | some o =>
    obtain ⟨ho, hpos⟩ := hp o rfl
    obtain ⟨obj, hget, hlive, hcount, hup⟩ := update_live hs o ho hpos releasePointee
    have hother (a : Nat) (ha : a ≠ o) : n a - (if some o = some a then 1 else 0) = n a := by
      simp [Ne.symm ha]
    by_cases hlast : n o = 1
    · have hrel : releasePointee obj = some ⟨⟨0, true⟩, obj.deletes + 1⟩ := by
        rw [releasePointee, Counter.release_last _ (hcount.trans hlast)]
        cases obj.counter.isDestroyed <;> rfl
      refine ⟨_, hup _ hrel, rfl, List.length_set, ?_⟩
      refine fitAll_set hs o _ _ (.inr ⟨?_, ?_⟩) hother
      · change obj.deletes + 1 = 1
        rw [hlive]
      · simp [hlast]
    · have hrel : releasePointee obj =
          some ⟨{ obj.counter with useCount := obj.counter.useCount - 1 }, obj.deletes⟩ := by
        rw [releasePointee, Counter.release_referenced _ (by omega)]
        rfl
      refine ⟨_, hup _ hrel, rfl, List.length_set, ?_⟩
      refine fitAll_set hs o _ _ (.inl ⟨hlive, ?_, ?_⟩) hother
      · simp only [if_true]
        omega
      · simp only [if_true]
        rw [hcount]

theorem Counted.pointee (hs : s.Counted) (i o : Nat) (hi : s.pointers[i]? = some (some o)) :
    o < s.objects.length ∧ 0 < holders s.pointers o :=
  ⟨hs.valid o (List.mem_of_getElem? hi), holders_pos s.pointers i o hi⟩

/-- The pointers after a slot was overwritten point to what they did before, or to `q`. -/
theorem Counted.valid_set (hs : s.Counted) (i : Nat) (q : Option Nat)
    (hq : ∀ o, q = some o → o < s.objects.length) (o : Nat) (ho : some o ∈ s.pointers.set i q) :
    o < s.objects.length := by
  rcases List.mem_or_eq_of_mem_set ho with ho | ho
  · exact hs.valid o ho
  · exact hq o ho.symm

theorem makeShared_counted (hs : s.Counted) : ∃ t, s.step .makeShared = some t ∧ t.Counted := by
  refine ⟨_, rfl, ?_, ?_⟩
  · intro o ho
    change o < (s.objects ++ [(⟨.fresh, 0⟩ : Pointee)]).length
    rw [List.length_append]
    rcases List.mem_append.mp ho with ho | ho
    · exact Nat.lt_add_right 1 (hs.valid o ho)
    · obtain rfl : o = s.objects.length := by simpa using ho
      exact Nat.lt_add_one _
  · intro o obj hobj
    change (s.objects ++ [(⟨.fresh, 0⟩ : Pointee)])[o]? = some obj at hobj
    change Fits obj (holders (s.pointers ++ [some s.objects.length]) o)
    rw [holders_push]
    rcases getElem?_concat_cases hobj with ⟨hlt, hobj⟩ | ⟨rfl, rfl⟩
    · have hne : ¬ some s.objects.length = some o := by
        simp only [Option.some.injEq]
        omega
      rw [if_neg hne]
      exact hs.fits o obj hobj
    · -- nobody points to an object that is not there yet
      have hnone : holders s.pointers s.objects.length = 0 :=
        List.count_eq_zero.mpr fun hm => absurd (hs.valid _ hm) (Nat.lt_irrefl _)
      rw [hnone, if_pos rfl]
      exact .inl ⟨rfl, by decide, rfl⟩

/-- A copy into a slot that held nothing. -/
theorem copied_counted {t : SharedPtrs} (hs : s.Counted) (other : Option Nat)
    (hother : ∀ o, other = some o → o < s.objects.length ∧ 0 < holders s.pointers o)
    (hvalid : ∀ o, some o ∈ t.pointers → o < s.objects.length)
    (hheld : ∀ o, holders t.pointers o = holders s.pointers o + if other = some o then 1 else 0)
    (hobj : t.objects = s.objects) :
    t.Retainable other ↔ ∃ u, t.retain other = some u ∧ u.Counted := by
  have ht : t.FitAll (holders s.pointers) := by
    intro o obj h
    rw [hobj] at h
    exact hs.fits o obj h
  obtain ⟨u, hu, hpointers, hlen, -, hfit, hget⟩ := retain_spec ht other
    (fun o ho => by rw [hobj]; exact hother o ho)
  constructor
  · intro hr
    refine ⟨u, hu, ?_, ?_⟩
    · intro o ho
      rw [hpointers] at ho
      rw [hlen, hobj]
      exact hvalid o ho
    · intro o obj h
      rw [hpointers, hheld]
      exact hfit hr o obj h
  · rintro ⟨u', hu', hcount⟩ o ho obj h
    obtain rfl : u = u' := Option.some.inj (hu.symm.trans hu')
    have ho : other = some o := ho
    obtain ⟨obj', hobj', hlive, hmod⟩ := hget o ho
    have hfits := hcount.fits o obj' hobj'
    rw [hpointers, hheld, if_pos ho] at hfits
    obtain ⟨-, hpos⟩ := hother o ho
    rcases ht o obj h with ⟨-, -, hold⟩ | ⟨-, hz⟩
    · rcases hfits with ⟨-, -, hnew⟩ | ⟨hdel, -⟩
      · -- the new count was not reduced
        rw [hold, ← hnew, hmod]
        exact Nat.mod_lt _ (by decide)
      · omega
    · omega

/-- A pointer that is overwritten without a release leaves its object with a reference too many. -/
theorem overwritten_breaks (t : SharedPtrs) (a n : Nat) (extra : Bool)
    (hheld : holders t.pointers a + 1 = n + extra.toNat)
    (hobj : ∃ obj, t.objects[a]? = some obj ∧ obj.deletes = 0 ∧
      obj.counter.useCount = if extra then (n + 1) % useCountLimit else n) : ¬ t.Counted := by
  intro hcount
  obtain ⟨obj, hget, hlive, hnew⟩ := hobj
  rcases hcount.fits a obj hget with ⟨-, hpos, huse⟩ | ⟨hdel, -⟩
  · cases extra with
    | false =>
      simp only [Bool.false_eq_true, if_false, Bool.toNat_false] at hnew hheld
      omega
    | true =>
      simp only [if_true, Bool.toNat_true, useCountLimit] at hnew hheld
      omega
  · omega

theorem copyConstruct_counted (hs : s.Counted) (j : Nat) :
    s.Admitted (.copyConstruct j) ↔ ∃ t, s.step (.copyConstruct j) = some t ∧ t.Counted := by
  simp only [Admitted, step]
  cases hj : s.pointers[j]? with
  | none => exact iff_of_true (by simp) ⟨s, rfl, hs⟩
  | some other =>
    have hother (o : Nat) (ho : other = some o) := hs.pointee j o (ho ▸ hj)
    have h := copied_counted (t := s.push other) hs other hother ?_ (holders_push s.pointers other) rfl
    · exact Iff.trans (by simp [Retainable, push]) h
    · intro o ho
      rcases List.mem_append.mp ho with ho | ho
      · exact hs.valid o ho
      · exact (hother o (List.mem_singleton.mp ho).symm).1

theorem copyAssign_counted (hs : s.Counted) (i j : Nat) :
    s.Admitted (.copyAssign i j) ↔ ∃ t, s.step (.copyAssign i j) = some t ∧ t.Counted := by
  simp only [Admitted, step]
  cases hi : s.pointers[i]? with
  | none => exact iff_of_true (by simp) ⟨s, rfl, hs⟩
  | some this =>
    cases hj : s.pointers[j]? with
    | none => exact iff_of_true (by simp) ⟨s, rfl, hs⟩
    | some other =>
      have hother (o : Nat) (ho : other = some o) := hs.pointee j o (ho ▸ hj)
      have hheld (o : Nat) := holders_set s.pointers i this other o hi
      simp only [Option.mem_def, Option.some.injEq, forall_eq']
      cases this with
      | none =>
        have h := copied_counted (t := s.store i other) hs other hother
          (hs.valid_set i other fun o ho => (hother o ho).1)
          (fun o => by simpa [store] using hheld o) rfl
        exact Iff.trans (by simp [Retainable, store]) h
      | some a =>
        apply iff_of_false
        · simp
        · rintro ⟨t, ht, hcount⟩
          have hfit : (s.store i other).FitAll (holders s.pointers) := hs.fits
          obtain ⟨u, hu, hpointers, -, hkeep, -, hget⟩ := retain_spec hfit other hother
          obtain rfl : u = t := Option.some.inj (hu.symm.trans ht)
          have ha := hs.pointee i a hi
          have hheld := hheld a
          simp only [if_true] at hheld
          refine overwritten_breaks u a (holders s.pointers a) (decide (other = some a)) ?_ ?_ hcount
          · rw [hpointers]
            change holders (s.pointers.set i other) a + 1 = _
            rw [hheld]
            by_cases ho : other = some a <;> simp [ho]
          · by_cases ho : other = some a
            · obtain ⟨obj, hobj, hlive, huse⟩ := hget a ho
              exact ⟨obj, hobj, hlive, by simpa [ho] using huse⟩
            · obtain ⟨obj, hobj, hlive, huse, -⟩ := update_live hs.fits a ha.1 ha.2 some
              exact ⟨obj, hkeep a obj hobj ho, hlive, by simpa [ho] using huse⟩

theorem moved_holders (i j : Nat) (this other : Option Nat) (a : Nat)
    (hi : s.pointers[i]? = some this) (hj : s.pointers[j]? = some other) :
    holders ((s.pointers.set i other).set j none) a + (if this = some a then 1 else 0) =
      holders s.pointers a := by
  have h1 := holders_set s.pointers i this other a hi
  have hj' : (s.pointers.set i other)[j]? = some other := by
    rw [List.getElem?_set]
    split_ifs with hij hlt
    · rfl
    · rw [hij] at hlt
      exact absurd (List.getElem?_eq_some_iff.mp hj).1 hlt
    · exact hj
  have h2 := holders_set_none (s.pointers.set i other) j other a hj'
  omega

theorem moveAssign_counted (hs : s.Counted) (i j : Nat) :
    s.Admitted (.moveAssign i j) ↔ ∃ t, s.step (.moveAssign i j) = some t ∧ t.Counted := by
  simp only [Admitted, step]
  cases hi : s.pointers[i]? with
  | none => exact iff_of_true (by simp) ⟨s, rfl, hs⟩
  | some this =>
    cases hj : s.pointers[j]? with
    | none => exact iff_of_true (by simp) ⟨s, rfl, hs⟩
    | some other =>
      have hheld (a : Nat) := moved_holders (s := s) i j this other a hi hj
      simp only [Option.mem_def, Option.some.injEq, forall_eq']
      cases this with
      | none =>
        refine iff_of_true rfl ⟨_, rfl, ?_, ?_⟩
        · intro o ho
          rcases List.mem_or_eq_of_mem_set ho with ho | ho
          · exact hs.valid_set i other (fun o ho => (hs.pointee j o (ho ▸ hj)).1) o ho
          · cases ho
        · intro o obj hobj
          have h := hheld o
          simp only [reduceCtorEq, if_false, Nat.add_zero] at h
          change Fits obj (holders ((s.pointers.set i other).set j none) o)
          rw [h]
          exact hs.fits o obj hobj
      | some a =>
        apply iff_of_false
        · simp
        · rintro ⟨t, ht, hcount⟩
          subst ht
          have ha := hs.pointee i a hi
          have h := hheld a
          simp only [if_true] at h
          obtain ⟨obj, hobj, hlive, huse, -⟩ := update_live hs.fits a ha.1 ha.2 some
          exact overwritten_breaks ((s.store i other).store j none) a (holders s.pointers a) false
            (by simpa [store] using h) ⟨obj, hobj, hlive, huse⟩ hcount

theorem moveConstruct_counted (hs : s.Counted) (j : Nat) :
    ∃ t, s.step (.moveConstruct j) = some t ∧ t.Counted := by
  simp only [step]
  cases hj : s.pointers[j]? with
  | none => exact ⟨s, rfl, hs⟩
  | some other =>
    refine ⟨_, rfl, ?_, ?_⟩
    · intro o ho
      rcases List.mem_append.mp ho with ho | ho
      · exact hs.valid_set j none nofun o ho
      · exact (hs.pointee j o ((List.mem_singleton.mp ho) ▸ hj)).1
    · intro o obj hobj
      have h := holders_set_none s.pointers j other o hj
      change Fits obj (holders (s.pointers.set j none ++ [other]) o)
      rw [holders_push, h]
      exact hs.fits o obj hobj

/-- `reset`, `= nullptr` and the destructor give the reference back. -/
theorem resetPtr_counted (hs : s.Counted) (i : Nat) (this : Option Nat)
    (hi : s.pointers[i]? = some this) : ∃ t, s.resetPtr i this = some t ∧ t.Counted := by
  obtain ⟨t, ht, hpointers, hlen, hfit⟩ := release_spec hs.fits this
    fun o ho => hs.pointee i o (ho ▸ hi)
  refine ⟨t.store i none, by rw [resetPtr, ht]; rfl, ?_, ?_⟩
  · intro o ho
    change o < t.objects.length
    rw [hlen]
    change some o ∈ t.pointers.set i none at ho
    rw [hpointers] at ho
    exact hs.valid_set i none nofun o ho
  · intro o obj hobj
    have h := holders_set_none s.pointers i this o hi
    change Fits obj (holders (t.pointers.set i none) o)
    rw [hpointers, ← Nat.add_sub_cancel (n := holders _ o), h]
    exact hfit o obj hobj

/-- Exactly the admitted operations are defined and keep every count. -/
theorem step_counted (hs : s.Counted) (op : SharedPtrOp) :
    s.Admitted op ↔ ∃ t, s.step op = some t ∧ t.Counted := by
  have hreset (i : Nat) : ∃ t, (match s.pointers[i]? with
      | none => some s
      | some this => s.resetPtr i this) = some t ∧ t.Counted := by
    cases hi : s.pointers[i]? with
    | none => exact ⟨s, rfl, hs⟩
    | some this => exact resetPtr_counted hs i this hi
  cases op with
  | makeShared => exact iff_of_true trivial (makeShared_counted hs)
  | construct =>
    refine iff_of_true trivial ⟨_, rfl, ?_, ?_⟩
    · intro o ho
      exact hs.valid o (by simpa [push] using ho)
    · intro o obj hobj
      change Fits obj (holders (s.pointers ++ [none]) o)
      rw [holders_push]
      exact hs.fits o obj hobj
  | copyConstruct j => exact copyConstruct_counted hs j
  | moveConstruct j => exact iff_of_true trivial (moveConstruct_counted hs j)
  | copyAssign i j => exact copyAssign_counted hs i j
  | moveAssign i j => exact moveAssign_counted hs i j
  | assignNull i => exact iff_of_true trivial (hreset i)
  | reset i => exact iff_of_true trivial (hreset i)
  | destruct i => exact iff_of_true trivial (hreset i)

end

theorem init_counted : init.Counted := by
  constructor
  · intro o ho
    simp [init] at ho
  · intro o obj hobj
    simp [init] at hobj

/-- In every state a run of operations reaches, each live object has as many references as there
are `shared_ptr`s to it and one without any was deleted once, if and only if no assignment is to a
pointer that holds something and no copy is made of one at the limit of the count. -/
theorem shared_ptr_counts (ops : List SharedPtrOp) :
    Along step Admitted init ops ↔ ∀ n, ∃ s, run step init (ops.take n) = some s ∧ s.Counted :=
  along_iff_reached Counted (fun _ op hs => step_counted hs op) ops init init_counted

/-- The object of a pointer that is assigned to is never deleted. -/
theorem assignment_leaks :
    ∃ s, run step init [.makeShared, .makeShared, .copyAssign 0 1, .destruct 0, .destruct 1] =
      some s ∧ (∀ o, holders s.pointers o = 0) ∧
      s.objects[0]? = some ⟨⟨1, false⟩, 0⟩ := by
  refine ⟨⟨[⟨⟨1, false⟩, 0⟩, ⟨⟨0, true⟩, 1⟩], [none, none]⟩, by decide, ?_, rfl⟩
  intro o
  simp [holders]

end SharedPtrs

end Libnodecc.Object
