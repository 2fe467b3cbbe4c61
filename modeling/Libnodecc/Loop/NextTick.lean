import Libnodecc.Framework.Run
import Mathlib.Data.List.Range

namespace Libnodecc.Loop

/-- What `std::vector` leaves to the implementation: the capacity a reallocation picks (at least
one more element always fits), and the one `shrink_to_fit` leaves for a size and a capacity. -/
structure VectorImpl where
  grow : Nat → Nat
  shrink : Nat → Nat → Nat

/-- A `loop` seen from its tick queue. Callbacks are numbered in the order of their registration.
`pass` is the position of the running callback and the end the range-for captured. -/
structure TickLoop where
  tickCallbacks : List Nat
  capacity : Nat
  stopFlag : Bool
  asyncPending : Bool
  pass : Option (Nat × Nat)
  registered : Nat
  executed : List Nat
  deriving DecidableEq

def TickLoop.init : TickLoop := ⟨[], 0, false, false, none, 0, []⟩

/-- `emplace_back` and `uv_async_send`. Inside a pass a reallocation leaves the running callback
and both iterators of `_on_async` dangling. -/
def TickLoop.nextTick (impl : VectorImpl) (s : TickLoop) : Option TickLoop :=
  let t := { s with
    tickCallbacks := s.tickCallbacks ++ [s.registered]
    asyncPending := true
    registered := s.registered + 1 }
  if s.tickCallbacks.length < s.capacity then some t
  else if s.pass.isSome then none
  else some { t with capacity := max (s.tickCallbacks.length + 1) (impl.grow s.capacity) }

/-- The tail of `_on_async`: `shrink_to_fit` and `clear`. -/
def TickLoop.clear (impl : VectorImpl) (s : TickLoop) : TickLoop :=
  { s with
    tickCallbacks := []
    capacity := impl.shrink s.tickCallbacks.length s.capacity
    pass := none }

/-- The head of the range-for: call the callback at position `i`, or leave the loop. -/
def TickLoop.enter (impl : VectorImpl) (s : TickLoop) (i stop : Nat) : TickLoop :=
  if i = stop then s.clear impl
  else { s with pass := some (i, stop), executed := s.executed ++ (s.tickCallbacks[i]?).toList }

/-- libuv invokes `_on_async`. -/
def TickLoop.onAsync (impl : VectorImpl) (s : TickLoop) : TickLoop :=
  { s with asyncPending := false }.enter impl 0 s.tickCallbacks.length

/-- The callback at position `i` returns to `_on_async`. -/
def TickLoop.callbackReturns (impl : VectorImpl) (s : TickLoop) (i stop : Nat) : TickLoop :=
  if s.stopFlag then { s with pass := none }
  else s.enter impl (i + 1) stop

/-- `nextTick` and `stop` are calls from wherever control is: the running tick callback, another
callback of the loop, or outside of `run()`. `runReturns` is the end of a `uv_run`. -/
inductive TickLabel where
  | nextTick
  | stop
  | onAsync
  | callbackReturns
  | runReturns
  deriving DecidableEq

/-- A label that cannot occur in a state changes nothing: passes do not nest, a callback only
returns from inside a pass, and `uv_run` only returns outside of one. -/
def TickLoop.step (impl : VectorImpl) (s : TickLoop) : TickLabel → Option TickLoop
  | .nextTick => s.nextTick impl
  | .stop => some { s with stopFlag := true }
  | .onAsync => some (if s.pass.isSome then s else s.onAsync impl)
  | .callbackReturns =>
    match s.pass with
    | none => some s
    | some (i, stop) => some (s.callbackReturns impl i stop)
  | .runReturns => some (if s.pass.isSome then s else { s with stopFlag := false })

/-- No callback ran twice, none left the queue without having run, and they ran in order. -/
structure TicksKept (s : TickLoop) : Prop where
  once : s.executed.Nodup
  kept : ∀ id, id < s.registered → id ∈ s.executed ∨ id ∈ s.tickCallbacks
  ordered : s.executed.Pairwise (· < ·)

/-- Nothing is registered from inside a tick callback, and none returns with the stop flag set. -/
def KeepsQueue (s : TickLoop) : TickLabel → Prop
  | .nextTick => s.pass = none
  | .callbackReturns => s.pass ≠ none → s.stopFlag = false
  | .stop => True
  | .onAsync => True
  | .runReturns => True

instance (s : TickLoop) (a : TickLabel) : Decidable (KeepsQueue s a) := by
  cases a <;> unfold KeepsQueue <;> infer_instance

/-- How many of the callbacks in the queue the running pass has called. -/
def TickLoop.called (s : TickLoop) : Nat :=
  match s.pass with
  | none => 0
  | some (i, _) => i + 1

/-- The first `k` callbacks have left the queue, and exactly they and those the running pass has
called were executed. -/
structure QueuedFrom (k : Nat) (s : TickLoop) : Prop where
  bound : k ≤ s.registered
  queue : s.tickCallbacks = List.range' k (s.registered - k)
  ran : s.executed = List.range (k + s.called)
  inPass : ∀ i stop, s.pass = some (i, stop) → i < stop ∧ stop = s.tickCallbacks.length

theorem QueuedFrom.ticksKept (k : Nat) (s : TickLoop) (h : QueuedFrom k s) : TicksKept s := by
  refine ⟨?_, ?_, ?_⟩
  · rw [h.ran]
    exact List.nodup_range
  · intro id hid
    rw [h.ran, h.queue, List.mem_range, List.mem_range'_1]
    have hb := h.bound
    omega
  · rw [h.ran]
    exact List.pairwise_lt_range

/-- Entering position `i` after the `i` callbacks before it. -/
theorem enter_queuedFrom (impl : VectorImpl) (k i : Nat) (s : TickLoop) (hb : k ≤ s.registered)
    (hq : s.tickCallbacks = List.range' k (s.registered - k))
    (hr : s.executed = List.range (k + i)) (hi : i ≤ s.tickCallbacks.length) :
    ∃ k', QueuedFrom k' (s.enter impl i s.tickCallbacks.length) := by
  have hl : s.tickCallbacks.length = s.registered - k := by rw [hq, List.length_range']
  unfold TickLoop.enter
  split_ifs with he
  · refine ⟨s.registered, le_refl _, ?_, ?_, ?_⟩
    · simp [TickLoop.clear]
    · have hk : k + i = s.registered := by omega
      simp [TickLoop.clear, TickLoop.called, hr, hk]
    · intro i stop hp
      simp [TickLoop.clear] at hp
  · refine ⟨k, hb, hq, ?_, ?_⟩
    · have hlt : i < s.registered - k := by omega
      simp only [TickLoop.called, hr]
      rw [hq, List.getElem?_range' hlt, ← Nat.add_assoc, List.range_succ]
      simp
    · intro j stop hp
      cases hp
      exact ⟨by omega, rfl⟩

theorem step_callbackReturns (impl : VectorImpl) (s : TickLoop) (i stop : Nat)
    (hp : s.pass = some (i, stop)) (hf : s.stopFlag = false) :
    s.step impl .callbackReturns = some (s.enter impl (i + 1) stop) := by
  simp [TickLoop.step, TickLoop.callbackReturns, hp, hf]

/-- One admitted step is defined and keeps the queue in line with the registrations. -/
theorem step_queuedFrom (impl : VectorImpl) (s : TickLoop) (a : TickLabel)
    (h : ∃ k, QueuedFrom k s) (ha : KeepsQueue s a) :
    ∃ t, s.step impl a = some t ∧ ∃ k, QueuedFrom k t := by
  obtain ⟨k, h⟩ := h
  cases a with
  | nextTick =>
    have hp : s.pass = none := ha
    have hc : s.called = 0 := by simp [TickLoop.called, hp]
    have hq : s.tickCallbacks ++ [s.registered] = List.range' k (s.registered + 1 - k) := by
      have hb := h.bound
      rw [h.queue, show s.registered + 1 - k = s.registered - k + 1 by omega, List.range'_concat]
      simp only [Nat.one_mul, List.append_cancel_left_eq, List.cons.injEq, and_true]
      omega
    have hr : s.executed = List.range k := by rw [h.ran, hc, Nat.add_zero]
    simp only [TickLoop.step, TickLoop.nextTick, hp, Option.isSome_none, Bool.false_eq_true,
      if_false]
    split_ifs with hroom
    all_goals
      refine ⟨_, rfl, k, Nat.le_succ_of_le h.bound, hq, ?_, ?_⟩
      · simpa [TickLoop.called, hp] using hr
      · intro i stop hp'
        simp at hp'
  | stop => exact ⟨_, rfl, k, h.bound, h.queue, h.ran, h.inPass⟩
  | onAsync =>
    refine ⟨_, rfl, ?_⟩
    cases hp : s.pass with
    | some p => exact ⟨k, by simpa [hp] using h⟩
    | none =>
      have hr : s.executed = List.range (k + 0) := by
        rw [h.ran]
        simp [TickLoop.called, hp]
      exact enter_queuedFrom impl k 0 { s with asyncPending := false } h.bound h.queue hr
        (Nat.zero_le _)
  | callbackReturns =>
    cases hp : s.pass with
    | none => exact ⟨s, by simp [TickLoop.step, hp], k, h⟩
    | some p =>
      obtain ⟨i, stop⟩ := p
      obtain ⟨hi, hs⟩ := h.inPass i stop hp
      have hf : s.stopFlag = false := ha (by simp [hp])
      have hr : s.executed = List.range (k + (i + 1)) := by
        rw [h.ran]
        simp [TickLoop.called, hp]
      refine ⟨_, step_callbackReturns impl s i stop hp hf, ?_⟩
      rw [hs]
      exact enter_queuedFrom impl k (i + 1) s h.bound h.queue hr (by omega)
  | runReturns =>
    refine ⟨_, rfl, k, ?_⟩
    cases hp : s.pass with
    | some p => simpa [hp] using h
    | none => exact ⟨h.bound, h.queue, by simpa [TickLoop.called, hp] using h.ran, by simp⟩

/-- Every run whose ticks stay out of the running pass and that never stops inside one. -/
theorem next_tick_runs_once (impl : VectorImpl) (as : List TickLabel)
    (h : Along (TickLoop.step impl) KeepsQueue TickLoop.init as) :
    ∃ s, run (TickLoop.step impl) TickLoop.init as = some s ∧ TicksKept s := by
  have hinit : ∃ k, QueuedFrom k TickLoop.init :=
    ⟨0, le_refl 0, rfl, rfl, fun i stop hp => by simp [TickLoop.init] at hp⟩
  obtain ⟨s, hs, k, hk⟩ := run_total (fun s => ∃ k, QueuedFrom k s)
    (fun s a hI ha => step_queuedFrom impl s a hI ha) as TickLoop.init hinit h
  exact ⟨s, hs, hk.ticksKept⟩

/-- libstdc++: capacities double, and `shrink_to_fit` shrinks to the size. -/
def doubling : VectorImpl := ⟨fun n => 2 * n, fun size _ => size⟩

/-- Two ticks, a stop from outside of a pass, a second `run()` and a third tick between passes. -/
theorem next_tick_runs_once_two_passes :
    ∃ s, run (TickLoop.step doubling) TickLoop.init
      [.nextTick, .nextTick, .onAsync, .callbackReturns, .callbackReturns, .stop, .runReturns,
        .nextTick, .onAsync, .callbackReturns] = some s ∧ TicksKept s :=
  next_tick_runs_once doubling _ (by decide)

/-- The first of two ticks stops the loop; the pass of the next run calls it a second time. -/
theorem next_tick_runs_twice_after_stop :
    ¬∀ (impl : VectorImpl) (as : List TickLabel) (s : TickLoop),
      run (TickLoop.step impl) TickLoop.init as = some s → TicksKept s := by
  intro h
  have bad := h doubling
    [.nextTick, .nextTick, .onAsync, .stop, .callbackReturns, .runReturns, .nextTick, .onAsync]
    ⟨[0, 1, 2], 4, false, false, some (0, 3), 3, [0, 0]⟩ (by decide)
  exact absurd bad.once (by decide)

/-- Both halves of the condition are needed. A tick callback that returns with the stop flag set
leaves itself in the queue, and the next pass begins with what has already run. -/
theorem stop_repeats_callback (impl : VectorImpl) (k i stop : Nat) (s : TickLoop)
    (h : QueuedFrom k s) (hp : s.pass = some (i, stop)) (hf : s.stopFlag = true) :
    ∃ t, run (TickLoop.step impl) s [.callbackReturns, .runReturns, .onAsync] = some t ∧
      ¬TicksKept t := by
  obtain ⟨hi, hs⟩ := h.inPass i stop hp
  have hl : 0 < s.registered - k := by
    rw [h.queue, List.length_range'] at hs
    omega
  have hne : ¬0 = s.tickCallbacks.length := by omega
  simp only [run_cons, run_nil, TickLoop.step, hp, TickLoop.callbackReturns, hf, if_true,
    Option.bind_some, Option.isSome_none, Bool.false_eq_true, if_false, TickLoop.onAsync,
    TickLoop.enter, hne]
  refine ⟨_, rfl, ?_⟩
  intro kept
  have hn := kept.once
  simp only [h.ran, h.queue, List.getElem?_range' hl, Nat.mul_zero, Nat.add_zero,
    Option.toList_some] at hn
  have hk : k < k + s.called := by simp [TickLoop.called, hp]
  exact (List.nodup_append.mp hn).2.2 k (List.mem_range.mpr hk) k (by simp) rfl

/-- A pass runs to its captured end and then empties the queue, whatever was added meanwhile. -/
private theorem pass_finishes (impl : VectorImpl) (n i stop : Nat) (s : TickLoop)
    (hp : s.pass = some (i, stop)) (hf : s.stopFlag = false) (hn : i + n + 1 = stop) :
    ∃ t, run (TickLoop.step impl) s (List.replicate (n + 1) .callbackReturns) = some t ∧
      t.tickCallbacks = [] ∧ t.registered = s.registered ∧
      ∀ id ∈ t.executed, id ∈ s.executed ∨ id ∈ s.tickCallbacks.take stop := by
  induction n generalizing i s with
  | zero =>
    have he : i + 1 = stop := by omega
    refine ⟨s.clear impl, ?_, rfl, rfl, fun id hid => .inl hid⟩
    rw [List.replicate_one, run_cons, step_callbackReturns impl s i stop hp hf]
    simp [TickLoop.enter, he]
  | succ n ih =>
    have he : ¬i + 1 = stop := by omega
    obtain ⟨t, ht, hq, hr, hx⟩ := ih (i + 1)
      { s with
        pass := some (i + 1, stop)
        executed := s.executed ++ (s.tickCallbacks[i + 1]?).toList }
      rfl hf (by omega)
    refine ⟨t, ?_, hq, hr, ?_⟩
    · rw [List.replicate_succ, run_cons, step_callbackReturns impl s i stop hp hf]
      simpa only [TickLoop.enter, if_neg he, Option.bind_some] using ht
    · intro id hid
      rcases hx id hid with h | h
      · rcases List.mem_append.mp h with h | h
        · exact .inl h
        · right
          obtain ⟨hl, hg⟩ := List.getElem?_eq_some_iff.mp (Option.mem_toList.mp h)
          exact List.mem_take_iff_getElem.mpr ⟨i + 1, by omega, hg⟩
      · exact .inr h

/-- And a callback registered from inside a pass is destroyed unexecuted when the pass ends. -/
theorem reentrant_tick_is_dropped (impl : VectorImpl) (k i stop : Nat) (s : TickLoop)
    (h : QueuedFrom k s) (hp : s.pass = some (i, stop)) (hf : s.stopFlag = false)
    (hroom : s.tickCallbacks.length < s.capacity) :
    ∃ t, run (TickLoop.step impl) s
      (.nextTick :: List.replicate (stop - i) .callbackReturns) = some t ∧ ¬TicksKept t := by
  obtain ⟨hi, hs⟩ := h.inPass i stop hp
  obtain ⟨n, hn⟩ : ∃ n, i + n + 1 = stop := ⟨stop - i - 1, by omega⟩
  let u : TickLoop := { s with
    tickCallbacks := s.tickCallbacks ++ [s.registered]
    asyncPending := true
    registered := s.registered + 1 }
  have hstep : s.step impl .nextTick = some u := by
    simp [TickLoop.step, TickLoop.nextTick, hroom, u]
  obtain ⟨t, ht, hq, hr, hx⟩ := pass_finishes impl n i stop u hp hf hn
  have hid : s.registered < t.registered := by
    rw [hr]
    exact Nat.lt_succ_self _
  refine ⟨t, ?_, ?_⟩
  · rw [show stop - i = n + 1 by omega, run_cons, hstep]
    exact ht
  · intro kept
    rcases kept.kept s.registered hid with hm | hm
    · rcases hx _ hm with hm | hm
      · have hc : s.called = i + 1 := by simp [TickLoop.called, hp]
        have hb := h.bound
        change s.registered ∈ s.executed at hm
        rw [h.ran, List.mem_range] at hm
        rw [h.queue, List.length_range'] at hs
        omega
      · change s.registered ∈ (s.tickCallbacks ++ [s.registered]).take stop at hm
        rw [hs, List.take_left, h.queue, List.mem_range'_1] at hm
        have hb := h.bound
        omega
    · rw [hq] at hm
      cases hm

end Libnodecc.Loop
