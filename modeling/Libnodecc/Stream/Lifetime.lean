import Libnodecc.Framework.Run
import Libnodecc.Object.Counter

namespace Libnodecc.Stream
open Libnodecc.Object

/-- Where libuv is with the handle: `is_closing()` is true from `uv_close` on. -/
inductive CloseState where
  | opened
  | closing
  | closed
  deriving DecidableEq

/-- What is left to do on the C++ stack. -/
inductive HandleFrame where
  /-- `destroy()` behind its call of `_destroy()`. -/
  | destroying
  /-- `release()` behind its call of `_destroy()`. -/
  | releasing
  /-- The end of a callback: `destroy()`, for one that failed, and `release()`. -/
  | callback (destroys : Bool)
  /-- The end of the read callback, which holds no reference. -/
  | reading (destroys : Bool)
  deriving DecidableEq

/-- A stream handle that `shared_ptr`s hold: `refs` are these, then the requests libuv has yet to
call back. -/
structure StreamHandle where
  counter : Counter
  refs : Nat
  writes : Nat
  shutdowns : Nat
  connects : Nat
  closeState : CloseState
  stack : List HandleFrame
  deletes : Nat
  deriving DecidableEq

/-- Calls of user code, in a listener or outside, and what libuv calls back. `submitted` tells
whether libuv accepted a request. -/
inductive HandleLabel where
  | copy
  | drop
  | destroy
  | write (submitted : Bool)
  | endStream (submitted : Bool)
  | connect (submitted : Bool)
  | writeDone (failed : Bool)
  | shutdownDone (destroys : Bool)
  | connectDone (failed : Bool)
  | read (destroys : Bool)
  | closeDone
  | proceed
  deriving DecidableEq

def CloseState.refs : CloseState → Nat
  | .closing => 1
  | _ => 0

def HandleFrame.isCallback : HandleFrame → Bool
  | .callback _ => true
  | _ => false

namespace StreamHandle

def init : StreamHandle := ⟨.fresh, 1, 0, 0, 0, .opened, [], 0⟩

def retain (s : StreamHandle) : StreamHandle := { s with counter := s.counter.retain }

def push (s : StreamHandle) (f : HandleFrame) : StreamHandle := { s with stack := f :: s.stack }

/-- `handle::_destroy` up to its `destroy_event`. -/
def closeHandle (s : StreamHandle) : StreamHandle :=
  if s.closeState = .opened then { s.retain with closeState := .closing } else s

/-- `object::destroy` up to the `destroy_event`. -/
def destroy (s : StreamHandle) : StreamHandle :=
  if s.counter.isDestroyed then s
  else
    let counter := { s.counter with isDestroyed := true }
    { s with counter := counter }.closeHandle.push .destroying

/-- `object::release` up to the `destroy_event`. -/
def release (s : StreamHandle) : Option StreamHandle :=
  s.counter.release.map fun (counter, released) =>
    let s := { s with counter := counter }
    match released with
    | .referenced => s
    | .destroys => s.closeHandle.push .releasing
    | .finalises => { s with deletes := s.deletes + 1 }

/-- Goes on with the innermost frame. -/
def proceed (s : StreamHandle) : Option StreamHandle :=
  match s.stack with
  | [] => some s
  | .destroying :: stack => some { s with stack := stack }
  | .releasing :: stack =>
    let s := { s with stack := stack }
    if s.counter.useCount > 0 then some s else some { s with deletes := s.deletes + 1 }
  | .callback true :: stack => some ({ s with stack := stack }.push (.callback false)).destroy
  | .callback false :: stack => { s with stack := stack }.release
  | .reading true :: stack => some ({ s with stack := stack }.push (.reading false)).destroy
  | .reading false :: stack => some { s with stack := stack }

/-- User code gets at a handle through a `shared_ptr` or from inside of a call of the handle; libuv
calls back from its loop only, and the close callback last. -/
def Occurs (s : StreamHandle) : HandleLabel → Prop
  | .copy | .drop => 0 < s.refs
  | .destroy | .write _ | .endStream _ | .connect _ => 0 < s.refs ∨ s.stack ≠ []
  | .writeDone _ => s.stack = [] ∧ 0 < s.writes
  | .shutdownDone _ => s.stack = [] ∧ 0 < s.shutdowns
  | .connectDone _ => s.stack = [] ∧ 0 < s.connects
  | .read _ => s.stack = [] ∧ s.closeState = .opened
  | .closeDone =>
    s.stack = [] ∧ s.closeState = .closing ∧ s.writes = 0 ∧ s.shutdowns = 0 ∧ s.connects = 0
  | .proceed => s.stack ≠ []

instance (s : StreamHandle) : ∀ label, Decidable (s.Occurs label)
  | .copy | .drop => inferInstanceAs (Decidable (0 < s.refs))
  | .destroy | .write _ | .endStream _ | .connect _ =>
    inferInstanceAs (Decidable (0 < s.refs ∨ s.stack ≠ []))
  | .writeDone _ => inferInstanceAs (Decidable (s.stack = [] ∧ 0 < s.writes))
  | .shutdownDone _ => inferInstanceAs (Decidable (s.stack = [] ∧ 0 < s.shutdowns))
  | .connectDone _ => inferInstanceAs (Decidable (s.stack = [] ∧ 0 < s.connects))
  | .read _ => inferInstanceAs (Decidable (s.stack = [] ∧ s.closeState = .opened))
  | .closeDone => inferInstanceAs (Decidable (s.stack = [] ∧ s.closeState = .closing ∧
      s.writes = 0 ∧ s.shutdowns = 0 ∧ s.connects = 0))
  | .proceed => inferInstanceAs (Decidable (s.stack ≠ []))

def perform (s : StreamHandle) : HandleLabel → Option StreamHandle
  | .copy => some { s.retain with refs := s.refs + 1 }
  | .drop => { s with refs := s.refs - 1 }.release
  | .destroy => some s.destroy
  | .write submitted =>
    if submitted ∧ s.closeState ≠ .closed then some { s.retain with writes := s.writes + 1 }
    else some s
  | .endStream submitted =>
    if submitted ∧ s.closeState = .opened then some { s.retain with shutdowns := s.shutdowns + 1 }
    else some s
  | .connect submitted =>
    if submitted ∧ s.closeState ≠ .closed then some { s.retain with connects := s.connects + 1 }
    else some s
  | .writeDone failed => some ({ s with writes := s.writes - 1 }.push (.callback failed))
  | .shutdownDone destroys => some ({ s with shutdowns := s.shutdowns - 1 }.push (.callback destroys))
  | .connectDone failed => some ({ s with connects := s.connects - 1 }.push (.callback failed))
  | .read destroys => some (s.push (.reading destroys))
  | .closeDone => some ({ s with closeState := .closed }.push (.callback false))
  | .proceed => s.proceed

/-- `none` is a use of the deleted handle or a failed assertion. -/
def step (s : StreamHandle) (label : HandleLabel) : Option StreamHandle :=
  if s.Occurs label then
    if s.deletes = 0 then s.perform label else none
  else some s

/-- The references to the handle: its `shared_ptr`s, and one for each callback to come or
running. -/
def total (s : StreamHandle) : Nat :=
  s.refs + s.writes + s.shutdowns + s.connects + s.closeState.refs +
    s.stack.countP HandleFrame.isCallback

def Pending (s : StreamHandle) : Prop :=
  0 < s.writes ∨ 0 < s.shutdowns ∨ 0 < s.connects ∨ s.closeState = .closing

/-- A handle that is open or has pending callbacks is there; one without references and callbacks,
to come or running, was deleted; and none is deleted twice. -/
def Outlives (s : StreamHandle) : Prop :=
  (s.closeState = .opened ∨ s.Pending → s.deletes = 0) ∧
    (s.refs = 0 → ¬ s.Pending → s.stack = [] → s.deletes = 1) ∧ s.deletes ≤ 1

def Allows (c : CloseState) : HandleFrame → Prop
  | .destroying | .releasing => c = .closing
  | .callback _ => True
  | .reading _ => c ≠ .closed

/-- A handle that is there, with `loose` references that are about to be dropped. -/
structure Held (s : StreamHandle) (loose : Nat) : Prop where
  live : s.deletes = 0
  count : s.counter.useCount = s.total + loose
  destroyed : s.counter.isDestroyed = true ↔ s.closeState ≠ .opened
  frames : ∀ f ∈ s.stack, Allows s.closeState f

structure Gone (s : StreamHandle) : Prop where
  deleted : s.deletes = 1
  total : s.total = 0
  closed : s.closeState = .closed
  stack : s.stack = []

def Counted (s : StreamHandle) : Prop := s.Held 0 ∧ 0 < s.total ∨ s.Gone

section
variable {s : StreamHandle}

theorem Allows.closing (f : HandleFrame) (h : Allows .opened f) : Allows .closing f := by
  cases f with
  | destroying | releasing => rfl
  | callback => trivial
  | reading => exact nofun

theorem Held.retained (hs : s.Held 0) (t : StreamHandle) (hcounter : t.counter = s.counter.retain)
    (hclose : t.closeState = s.closeState) (hstack : t.stack = s.stack)
    (hdeletes : t.deletes = s.deletes) (htotal : t.total = s.total + 1)
    (hroom : t.total < useCountLimit) : t.Counted := by
  have hcount := hs.count
  refine .inl ⟨⟨?_, ?_, ?_, ?_⟩, by omega⟩
  · rw [hdeletes, hs.live]
  · rw [hcounter, Counter.retain_useCount _ (by omega)]
    omega
  · rw [hcounter, hclose]
    exact hs.destroyed
  · rw [hstack, hclose]
    exact hs.frames

/-- `_destroy()` takes the reference of the close callback before anything else can happen. -/
theorem closeHandle_counted (hlive : s.deletes = 0) (hcount : s.counter.useCount = s.total)
    (hdestroyed : s.counter.isDestroyed = true) (hopen : s.closeState = .opened)
    (hframes : ∀ f ∈ s.stack, Allows .opened f) (f : HandleFrame)
    (hf : f = .destroying ∨ f = .releasing)
    (hroom : (s.closeHandle.push f).total < useCountLimit) : (s.closeHandle.push f).Counted := by
  have hstate : s.closeHandle.push f =
      { s.retain with closeState := .closing, stack := f :: s.stack } := by
    rw [closeHandle, if_pos hopen]
    rfl
  have htotal : (s.closeHandle.push f).total = s.total + 1 := by
    rw [hstate]
    rcases hf with rfl | rfl <;>
      simp [total, hopen, retain, HandleFrame.isCallback, CloseState.refs] <;> omega
  refine .inl ⟨⟨?_, ?_, ?_, ?_⟩, by omega⟩
  · rw [hstate]
    exact hlive
  · rw [htotal, hstate]
    change s.counter.retain.useCount = _
    rw [Counter.retain_useCount _ (by omega), hcount]
  · rw [hstate]
    exact iff_of_true hdestroyed nofun
  · rw [hstate]
    intro g hg
    rcases List.mem_cons.mp hg with rfl | hg
    · rcases hf with rfl | rfl <;> rfl
    · exact (hframes g hg).closing

theorem Held.opened {loose : Nat} (hs : s.Held loose) (hd : s.counter.isDestroyed = false) :
    s.closeState = .opened := by
  by_contra hne
  rw [hs.destroyed.mpr hne] at hd
  cases hd

theorem destroy_counted (hs : s.Held 0) (hpos : 0 < s.total)
    (hroom : s.destroy.total < useCountLimit) : s.destroy.Counted := by
  unfold destroy at hroom ⊢
  cases hd : s.counter.isDestroyed with
  | true => exact .inl ⟨hs, hpos⟩
  | false =>
    have hopen := hs.opened hd
    simp only [hd, Bool.false_eq_true, if_false] at hroom ⊢
    exact closeHandle_counted (s := { s with counter := { s.counter with isDestroyed := true } })
      hs.live hs.count rfl hopen (fun f hf => hopen ▸ hs.frames f hf) _ (.inl rfl) hroom

/-- Without references nothing of the handle runs. -/
theorem Held.unreferenced {loose : Nat} (hs : s.Held loose) (htotal : s.total = 0)
    (hd : s.counter.isDestroyed = true) : s.closeState = .closed ∧ s.stack = [] := by
  have hnot : s.closeState ≠ .closing := by
    intro h
    simp [total, h, CloseState.refs] at htotal
  have hclosed : s.closeState = .closed := by
    cases h : s.closeState with
    | opened => exact absurd h (hs.destroyed.mp hd)
    | closing => exact absurd h hnot
    | closed => rfl
  refine ⟨hclosed, ?_⟩
  apply List.eq_nil_iff_forall_not_mem.mpr
  intro f hf
  have hallows := hs.frames f hf
  rw [hclosed] at hallows
  cases f with
  | destroying | releasing => cases hallows
  | reading => exact hallows rfl
  | callback b =>
    have hcallback : 0 < s.stack.countP HandleFrame.isCallback :=
      List.countP_pos_iff.mpr ⟨.callback b, hf, rfl⟩
    unfold total at htotal
    omega

/-- A `release` drops the loose reference; the last one closes or deletes the handle. -/
theorem release_counted (hs : s.Held 1)
    (hroom : ∀ t, s.release = some t → t.total < useCountLimit) :
    ∃ t, s.release = some t ∧ t.Counted := by
  have hcount := hs.count
  by_cases hpos : 0 < s.total
  · have hrel : s.release = some { s with
        counter := { s.counter with useCount := s.counter.useCount - 1 } } := by
      rw [release, Counter.release_referenced _ (by omega)]
      rfl
    refine ⟨_, hrel, .inl ⟨⟨hs.live, ?_, hs.destroyed, hs.frames⟩, hpos⟩⟩
    change s.counter.useCount - 1 = s.total + 0
    omega
  · have hlast : s.counter.useCount = 1 := by omega
    have hnone : s.total = 0 := by omega
    cases hd : s.counter.isDestroyed with
    | false =>
      have hrel : s.release =
          some (({ s with counter := ⟨0, true⟩ } : StreamHandle).closeHandle.push .releasing) := by
        rw [release, Counter.release_last _ hlast, hd]
        rfl
      have hopen := hs.opened hd
      refine ⟨_, hrel, ?_⟩
      exact closeHandle_counted (s := { s with counter := ⟨0, true⟩ }) hs.live hnone.symm rfl hopen
        (fun f hf => hopen ▸ hs.frames f hf) _ (.inr rfl) (hroom _ hrel)
    | true =>
      have hrel : s.release = some { s with counter := ⟨0, true⟩, deletes := s.deletes + 1 } := by
        rw [release, Counter.release_last _ hlast, hd]
        rfl
      obtain ⟨hclosed, hstack⟩ := hs.unreferenced hnone hd
      refine ⟨_, hrel, .inr ⟨?_, hnone, hclosed, hstack⟩⟩
      change s.deletes + 1 = 1
      rw [hs.live]

/-- A deleted handle is called by nobody any more. -/
theorem Gone.quiet (hs : s.Gone) (label : HandleLabel) : ¬ s.Occurs label := by
  have htotal := hs.total
  unfold StreamHandle.total at htotal
  cases label with
  | copy | drop =>
    simp only [Occurs]
    omega
  | destroy | write | endStream | connect =>
    simp only [Occurs, hs.stack, ne_eq, not_true_eq_false, or_false]
    omega
  | writeDone | shutdownDone | connectDone =>
    simp only [Occurs]
    omega
  | read | closeDone => simp [Occurs, hs.closed]
  | proceed => simp [Occurs, hs.stack]

theorem Held.pop {loose : Nat} (hs : s.Held 0) (f : HandleFrame) (stack : List HandleFrame)
    (hstack : s.stack = f :: stack)
    (hloose : s.total = ({ s with stack := stack } : StreamHandle).total + loose) :
    ({ s with stack := stack } : StreamHandle).Held loose := by
  refine ⟨hs.live, ?_, hs.destroyed, ?_⟩
  · exact hs.count.trans hloose
  · intro g hg
    exact hs.frames g (hstack ▸ List.mem_cons_of_mem f hg)

theorem total_pop (f : HandleFrame) (stack : List HandleFrame) (hstack : s.stack = f :: stack) :
    s.total = ({ s with stack := stack } : StreamHandle).total + f.isCallback.toNat := by
  unfold total
  rw [hstack, List.countP_cons]
  cases f.isCallback with
  | false => rfl
  | true =>
    simp only [if_true, Bool.toNat_true]
    omega

theorem total_push (f : HandleFrame) : (s.push f).total = s.total + f.isCallback.toNat := by
  exact total_pop f s.stack rfl

theorem Held.push {loose : Nat} (f : HandleFrame) (hs : s.Held (loose + f.isCallback.toNat))
    (hf : Allows s.closeState f) : (s.push f).Held loose := by
  have hcount := hs.count
  refine ⟨hs.live, ?_, hs.destroyed, ?_⟩
  · show s.counter.useCount = (s.push f).total + loose
    rw [total_push]
    omega
  · intro g hg
    rcases List.mem_cons.mp hg with rfl | hg
    · exact hf
    · exact hs.frames g hg

theorem proceed_counted (hs : s.Held 0) (hpos : 0 < s.total)
    (hroom : ∀ t, s.proceed = some t → t.total < useCountLimit) :
    ∃ t, s.proceed = some t ∧ t.Counted := by
  unfold proceed at hroom ⊢
  cases hstack : s.stack with
  | nil => exact ⟨s, rfl, .inl ⟨hs, hpos⟩⟩
  | cons f stack =>
    have htotal := total_pop f stack hstack
    have hallows := hs.frames f (hstack ▸ List.mem_cons_self)
    simp only [hstack] at hroom ⊢
    cases f with
    | destroying =>
      rw [htotal] at hpos
      exact ⟨_, rfl, .inl ⟨hs.pop _ stack hstack htotal, hpos⟩⟩
    | releasing =>
      have hused : s.counter.useCount > 0 := by
        rw [hs.count]
        exact hpos
      rw [htotal] at hpos
      exact ⟨_, if_pos hused, .inl ⟨hs.pop _ stack hstack htotal, hpos⟩⟩
    | reading destroys =>
      have hpop := hs.pop _ stack hstack htotal
      rw [htotal] at hpos
      cases destroys with
      | false => exact ⟨_, rfl, .inl ⟨hpop, hpos⟩⟩
      | true =>
        refine ⟨_, rfl, destroy_counted (hpop.push (.reading false) hallows) ?_ (hroom _ rfl)⟩
        rw [total_push]
        exact hpos
    | callback destroys =>
      cases destroys with
      | false => exact release_counted (hs.pop _ stack hstack htotal) hroom
      | true =>
        have hpop := hs.pop _ stack hstack htotal
        refine ⟨_, rfl, destroy_counted (hpop.push (.callback false) trivial) ?_ (hroom _ rfl)⟩
        rw [total_push]
        exact Nat.succ_pos _

theorem requested_counted (hs : s.Held 0) (hpos : 0 < s.total) (accepted : Prop)
    [Decidable accepted] (t : StreamHandle)
    (hroom : ∀ u, (if accepted then some t else some s) = some u → u.total < useCountLimit)
    (hcounter : t.counter = s.counter.retain) (hclose : t.closeState = s.closeState)
    (hstack : t.stack = s.stack) (hdeletes : t.deletes = s.deletes)
    (htotal : t.total = s.total + 1) :
    ∃ u, (if accepted then some t else some s) = some u ∧ u.Counted := by
  by_cases haccepted : accepted
  · rw [if_pos haccepted] at hroom ⊢
    exact ⟨t, rfl, hs.retained t hcounter hclose hstack hdeletes htotal (hroom t rfl)⟩
  · rw [if_neg haccepted]
    exact ⟨s, rfl, .inl ⟨hs, hpos⟩⟩

theorem called_counted (hs : s.Held 0) (t : StreamHandle) (destroys : Bool)
    (hcounter : t.counter = s.counter) (hclose : t.closeState = s.closeState)
    (hstack : t.stack = s.stack) (hdeletes : t.deletes = s.deletes)
    (htotal : s.total = t.total + 1) : (t.push (.callback destroys)).Counted := by
  refine .inl ⟨Held.push _ ⟨?_, ?_, ?_, ?_⟩ trivial, ?_⟩
  · rw [hdeletes, hs.live]
  · rw [hcounter]
    exact hs.count.trans htotal
  · rw [hcounter, hclose]
    exact hs.destroyed
  · rw [hstack, hclose]
    exact hs.frames
  · rw [total_push]
    exact Nat.succ_pos _

/-- What can occur to a handle that is there is defined and keeps the count. -/
theorem perform_counted (hs : s.Held 0) (hpos : 0 < s.total) (label : HandleLabel)
    (hoccurs : s.Occurs label)
    (hroom : ∀ t, s.perform label = some t → t.total < useCountLimit) :
    ∃ t, s.perform label = some t ∧ t.Counted := by
  cases label with
  | copy =>
    refine ⟨_, rfl, hs.retained _ rfl rfl rfl rfl ?_ (hroom _ rfl)⟩
    simp only [total, retain]
    omega
  | drop =>
    have hrefs : 0 < s.refs := hoccurs
    refine release_counted ⟨hs.live, ?_, hs.destroyed, hs.frames⟩ hroom
    have hcount := hs.count
    simp only [total] at hcount ⊢
    omega
  | destroy => exact ⟨_, rfl, destroy_counted hs hpos (hroom _ rfl)⟩
  | write submitted =>
    refine requested_counted hs hpos _ _ hroom rfl rfl rfl rfl ?_
    simp only [total, retain]
    omega
  | endStream submitted =>
    refine requested_counted hs hpos _ _ hroom rfl rfl rfl rfl ?_
    simp only [total, retain]
    omega
  | connect submitted =>
    refine requested_counted hs hpos _ _ hroom rfl rfl rfl rfl ?_
    simp only [total, retain]
    omega
  | writeDone failed =>
    have hwrites := hoccurs.2
    refine ⟨_, rfl, called_counted hs _ failed rfl rfl rfl rfl ?_⟩
    simp only [total]
    omega
  | shutdownDone destroys =>
    have hshutdowns := hoccurs.2
    refine ⟨_, rfl, called_counted hs _ destroys rfl rfl rfl rfl ?_⟩
    simp only [total]
    omega
  | connectDone failed =>
    have hconnects := hoccurs.2
    refine ⟨_, rfl, called_counted hs _ failed rfl rfl rfl rfl ?_⟩
    simp only [total]
    omega
  | read destroys =>
    refine ⟨_, rfl, .inl ⟨Held.push (.reading destroys) hs ?_, ?_⟩⟩
    · show s.closeState ≠ .closed
      rw [hoccurs.2]
      exact nofun
    · rw [total_push]
      omega
  | closeDone =>
    obtain ⟨hstack, hclosing, -⟩ := hoccurs
    refine ⟨_, rfl, .inl ⟨Held.push _ ⟨hs.live, ?_, ?_, ?_⟩ trivial, ?_⟩⟩
    · have hcount := hs.count
      simp only [total, hclosing, CloseState.refs] at hcount
      simp only [total, HandleFrame.isCallback, CloseState.refs, Bool.toNat_true]
      omega
    · refine iff_of_true (hs.destroyed.mpr ?_) nofun
      rw [hclosing]
      exact nofun
    · intro f hf
      have hmem : f ∈ s.stack := hf
      rw [hstack] at hmem
      cases hmem
    · rw [total_push]
      exact Nat.succ_pos _
  | proceed => exact proceed_counted hs hpos hroom

/-- The references a step leaves can be counted in the 31 bits of `_use_count`. -/
def Countable (s : StreamHandle) (label : HandleLabel) : Prop :=
  ∀ t ∈ s.step label, t.total < useCountLimit

instance (s : StreamHandle) (label : HandleLabel) : Decidable (s.Countable label) :=
  inferInstanceAs (Decidable (∀ t ∈ s.step label, _))

theorem step_counted (hs : s.Counted) (label : HandleLabel) (hroom : s.Countable label) :
    ∃ t, s.step label = some t ∧ t.Counted := by
  unfold Countable at hroom
  unfold step at hroom ⊢
  by_cases hoccurs : s.Occurs label
  · rcases hs with ⟨hheld, hpos⟩ | hgone
    · simp only [if_pos hoccurs, if_pos hheld.live] at hroom ⊢
      exact perform_counted hheld hpos label hoccurs hroom
    · exact absurd hoccurs (hgone.quiet label)
  · exact ⟨s, if_neg hoccurs, hs⟩

theorem Counted.outlives (hs : s.Counted) : s.Outlives := by
  rcases hs with ⟨hheld, hpos⟩ | hgone
  · refine ⟨fun _ => hheld.live, ?_, ?_⟩
    · intro hrefs hpending hstack
      obtain ⟨hwrites, hshutdowns, hconnects, hclosing⟩ := by
        simpa only [Pending, not_or] using hpending
      have hclose : s.closeState.refs = 0 := by
        cases h : s.closeState with
        | closing => exact absurd h hclosing
        | opened | closed => rfl
      simp only [total, hrefs, hstack, hclose, List.countP_nil] at hpos
      omega
    · rw [hheld.live]
      exact Nat.zero_le 1
  · have htotal := hgone.total
    refine ⟨?_, fun _ _ _ => hgone.deleted, Nat.le_of_eq hgone.deleted⟩
    rintro (hopen | hpending)
    · rw [hgone.closed] at hopen
      cases hopen
    · simp only [Pending, hgone.closed, reduceCtorEq, or_false] at hpending
      simp only [total] at htotal
      omega

theorem init_counted : init.Counted := by
  refine .inl ⟨⟨rfl, rfl, ?_, ?_⟩, Nat.one_pos⟩
  · exact iff_of_false nofun (fun h => h rfl)
  · exact nofun

/-- As long as its references are fewer than `2^31`, a stream handle outlives its callbacks, and
goes with the last reference. -/
theorem handle_outlives_callbacks (labels : List HandleLabel)
    (hroom : Along step Countable init labels) :
    ∃ s, run step init labels = some s ∧ s.Outlives := by
  obtain ⟨s, hrun, hs⟩ :=
    run_total Counted (fun _ label hs hC => step_counted hs label hC) labels init init_counted hroom
  exact ⟨s, hrun, hs.outlives⟩

end

/-- A connect that fails while user code copies the reference and ends the stream. -/
theorem handle_outlives_callbacks_connect :
    ∃ s, run step init [.connect true, .copy, .endStream true, .drop, .connectDone true, .proceed,
      .drop, .proceed, .proceed, .shutdownDone true, .proceed, .proceed, .closeDone, .proceed] =
        some s ∧ s.Outlives :=
  handle_outlives_callbacks _ (by decide)

theorem run_copies (s : StreamHandle) (hlive : s.deletes = 0) (hrefs : 0 < s.refs) (n : Nat)
    (hcount : s.counter.useCount < useCountLimit) :
    run step s (List.replicate n .copy) = some { s with
      counter := ⟨(s.counter.useCount + n) % useCountLimit, s.counter.isDestroyed⟩
      refs := s.refs + n } := by
  induction n generalizing s with
  | zero => simp [Nat.mod_eq_of_lt hcount]
  | succ n ih =>
    have hoccurs : s.Occurs .copy := hrefs
    have hstep : s.step .copy = some { s.retain with refs := s.refs + 1 } := by
      rw [step, if_pos hoccurs, if_pos hlive]
      rfl
    have huse : ((s.counter.useCount + 1) % useCountLimit + n) % useCountLimit =
        (s.counter.useCount + (n + 1)) % useCountLimit := by
      rw [Nat.mod_add_mod, Nat.add_assoc, Nat.add_comm 1 n]
    have hrest := ih { s.retain with refs := s.refs + 1 } hlive (Nat.succ_pos _)
      (Nat.mod_lt _ (by decide))
    rw [List.replicate_succ, run_cons, hstep, Option.bind_some, hrest]
    simp only [retain, Counter.retain, huse]
    rw [Nat.add_assoc, Nat.add_comm 1 n]

/-- With `2^31` `shared_ptr`s the count starts again: a pending write and one dropped reference
delete the handle that all the others hold and libuv is about to close. -/
theorem count_wraps : ∃ s,
    run step init (List.replicate (useCountLimit - 1) .copy ++
      [.write true, .drop, .proceed, .writeDone false, .proceed]) = some s ∧
      s.Pending ∧ 0 < s.refs ∧ s.deletes = 1 := by
  obtain ⟨n, hn⟩ : ∃ n, n = useCountLimit - 1 := ⟨_, rfl⟩
  have hpos : 0 < n := by
    rw [hn]
    decide
  have hwrap : (init.counter.useCount + n) % useCountLimit = 0 := by
    rw [hn]
    decide
  have hcopies := run_copies init rfl Nat.one_pos n (by decide)
  rw [hwrap] at hcopies
  have hrest : run step ⟨⟨0, false⟩, n + 1, 0, 0, 0, .opened, [], 0⟩
      [.write true, .drop, .proceed, .writeDone false, .proceed] =
        some ⟨⟨0, true⟩, n, 0, 0, 0, .closing, [], 1⟩ := by
    rfl
  refine ⟨⟨⟨0, true⟩, n, 0, 0, 0, .closing, [], 1⟩, ?_, ?_, hpos, rfl⟩
  · rw [← hn]
    apply run_append_eq_some step init _ _ _ _ hcopies
    rw [show init.refs + n = n + 1 from Nat.add_comm 1 n]
    exact hrest
  · exact .inr (.inr (.inr rfl))

end StreamHandle

end Libnodecc.Stream
