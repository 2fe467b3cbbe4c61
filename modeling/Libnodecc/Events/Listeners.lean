import Libnodecc.Events.Dispatch
import Libnodecc.Framework.Loop
import Libnodecc.Util.SizeT

namespace Libnodecc.Events

def Emitter.tailOf (em : Emitter) (symbol : Nat) : Option Nat :=
  (em.events.lookup symbol).bind Root.tail

/-- `emitter::has_listener`. -/
def Emitter.hasListener (em : Emitter) (symbol : Nat) : Bool := (em.events.lookup symbol).isSome

/-- The variables of the loop in `listener_count`. -/
structure Counting where
  rit : Option Nat
  count : Nat
  deriving DecidableEq

/-- `emitter::listener_count`, for at most `fuel` passes. The loop does not advance `rit`. -/
def Emitter.listenerCount (em : Emitter) (symbol fuel : Nat) : Option Nat :=
  match em.events.lookup symbol with
  | none => some 0
  | some r =>
    (whileSome (fun s : Counting => s.rit ≠ none)
      (fun s => some { s with count := sizeT (s.count + 1) }) fuel ⟨r.head, 0⟩).map Counting.count

/-- The plain map from symbols to handlers, which are numbered by the calls of `on`. -/
structure Listeners where
  handlers : Nat → List Nat
  created : Nat

namespace Listeners

def empty : Listeners := ⟨fun _ => [], 0⟩

def call (m : Listeners) : EmitterLabel → Listeners
  | .on symbol =>
    ⟨Function.update m.handlers symbol (m.handlers symbol ++ [m.created]), m.created + 1⟩
  | .off symbol iter =>
    { m with
      handlers := Function.update m.handlers symbol ((m.handlers symbol).filter (· ≠ iter)) }
  | .removeAllListeners symbol => { m with handlers := Function.update m.handlers symbol [] }
  | .clear => { m with handlers := fun _ => [] }
  | .emit _ | .handlerReturns => m

end Listeners

structure Emitter.Represents (em : Emitter) (m : Listeners) : Prop where
  created : em.created = m.created
  order : ∀ symbol, Chain em.next (em.headOf symbol) (m.handlers symbol)
  tail : ∀ symbol, em.tailOf symbol = (m.handlers symbol).getLast?
  listens : ∀ symbol, em.hasListener symbol = true ↔ m.handlers symbol ≠ []

/-- The count comes to an end, with the number of handlers, and agrees with `has_listener`. -/
def Emitter.Counts (em : Emitter) (m : Listeners) (symbol : Nat) : Prop :=
  ∃ fuel n, em.listenerCount symbol fuel = some n ∧ n = (m.handlers symbol).length ∧
    (n ≠ 0 ↔ em.hasListener symbol = true)

def Dispatch.listeners (d : Dispatch) : Listeners := ⟨d.registry, d.created⟩

theorem advance_listeners (d : Dispatch) (f : Emission) (symbol : Nat) (p : Option Nat) :
    (d.advance f symbol p).listeners = d.listeners := by
  cases p <;> rfl

/-- A call on the list view does to its lists what it does to the map. -/
theorem step_listeners (d : Dispatch) (hn : ∀ symbol, (d.registry symbol).Nodup)
    (l : EmitterLabel) : (d.step l).listeners = d.listeners.call l := by
  cases l with
  | on symbol => rfl
  | off symbol iter =>
    rw [Dispatch.step]
    split_ifs with hk
    · have herase : (d.registry symbol).erase iter = (d.registry symbol).filter (· ≠ iter) := by
        rw [(hn symbol).erase_eq_filter]
        refine List.filter_congr fun a _ => ?_
        rw [Bool.eq_iff_iff]
        simp
      simp only [Dispatch.listeners, Listeners.call, herase]
    · have hkeep : (d.registry symbol).filter (· ≠ iter) = d.registry symbol := by
        apply List.filter_eq_self.mpr
        intro a ha
        have hne : a ≠ iter := fun he => hk (he ▸ ha)
        simpa using hne
      simp only [Dispatch.listeners, Listeners.call, hkeep, Function.update_eq_self]
  | removeAllListeners symbol => rfl
  | clear => rfl
  | emit symbol =>
    rw [Dispatch.step]
    split_ifs
    · exact advance_listeners _ _ _ _
    · rfl
  | handlerReturns =>
    rw [Dispatch.step]
    split
    · rfl
    · exact advance_listeners _ _ _ _

theorem Safe.represents {s : Machine} (hs : Safe s) : s.em.Represents s.dispatch.listeners := by
  have habsent (symbol : Nat) (hr : s.em.events.lookup symbol = none) :
      s.dispatch.listeners.handlers symbol = [] := hs.linked.empty_of_absent symbol hr
  refine ⟨rfl, hs.linked.chain, ?_, ?_⟩
  · intro symbol
    cases hr : s.em.events.lookup symbol with
    | none =>
      rw [Emitter.tailOf, hr, habsent symbol hr]
      rfl
    | some r =>
      rw [Emitter.tailOf, hr]
      exact hs.linked.tail symbol r hr
  · intro symbol
    cases hr : s.em.events.lookup symbol with
    | none => simp [Emitter.hasListener, hr, habsent symbol hr]
    | some r =>
      refine iff_of_true ?_ (hs.linked.entry symbol r hr)
      rw [Emitter.hasListener, hr]
      rfl

/-- The lists after a run are those of the map after its calls. -/
theorem run_represents (ls : List EmitterLabel) (s : Machine) (hs : Safe s) :
    ∃ t, run Machine.step s ls = some t ∧
      t.em.Represents (ls.foldl Listeners.call s.dispatch.listeners) := by
  induction ls generalizing s with
  | nil => exact ⟨s, rfl, hs.represents⟩
  | cons l ls ih =>
    obtain ⟨u, hu, hsu, hd⟩ := step_refines hs l
    obtain ⟨t, ht, hrepresents⟩ := ih u hsu
    refine ⟨t, ?_, ?_⟩
    · rw [run_cons, hu]
      exact ht
    · rw [List.foldl_cons, ← step_listeners _ hs.linked.nodup, ← hd]
      exact hrepresents

/-- In every state of every run, the intrusive lists of the emitter are the handlers that a plain
map has after the same calls. -/
theorem lists_represent_map (ls : List EmitterLabel) :
    ∃ s, run Machine.step Machine.init ls = some s ∧
      s.em.Represents (ls.foldl Listeners.call Listeners.empty) :=
  run_represents ls Machine.init init_safe

theorem listenerCount_endless {em : Emitter} {symbol c : Nat} (h : em.headOf symbol = some c)
    (fuel : Nat) : em.listenerCount symbol fuel = none := by
  obtain ⟨r, hr, hhead⟩ := Option.bind_eq_some_iff.mp h
  have hloop : whileSome (fun s : Counting => s.rit ≠ none)
      (fun s => some { s with count := sizeT (s.count + 1) }) fuel ⟨r.head, 0⟩ = none := by
    refine whileSome_endless (fun s => s.rit = some c) fuel _ ?_ hhead
    intro s hs
    refine ⟨by simp [hs], ?_⟩
    intro t ht
    cases ht
    exact hs
  simp only [Emitter.listenerCount, hr, hloop, Option.map_none]

theorem Emitter.Represents.counts_iff {em : Emitter} {m : Listeners} (h : em.Represents m)
    (symbol : Nat) : em.Counts m symbol ↔ m.handlers symbol = [] := by
  constructor
  · intro hcounts
    obtain ⟨fuel, n, hn, -, -⟩ := hcounts
    by_contra hne
    obtain ⟨c, hc⟩ := Option.isSome_iff_exists.mp (List.isSome_head?.mpr hne)
    have hhead : em.headOf symbol = some c := (chain_head _ _ (h.order symbol)).trans hc
    rw [listenerCount_endless hhead fuel] at hn
    cases hn
  · intro hnil
    have hlistens := (h.listens symbol).not.mpr (not_not.mpr hnil)
    have habsent : em.events.lookup symbol = none := by
      simpa [Emitter.hasListener] using hlistens
    refine ⟨0, 0, ?_, ?_, ?_⟩
    · rw [Emitter.listenerCount, habsent]
    · rw [hnil]
      rfl
    · simp [hlistens]

/-- In every state of every run, `listener_count` returns if and only if no handler is registered
for the symbol. -/
theorem listener_count_iff (ls : List EmitterLabel) (symbol : Nat) :
    ∃ s, run Machine.step Machine.init ls = some s ∧
      (s.em.Counts (ls.foldl Listeners.call Listeners.empty) symbol ↔
        (ls.foldl Listeners.call Listeners.empty).handlers symbol = []) := by
  obtain ⟨s, hrun, hrepresents⟩ := run_represents ls Machine.init init_safe
  exact ⟨s, hrun, hrepresents.counts_iff symbol⟩

/-- With one handler, the loop does not come to an end. -/
theorem listener_count_hangs :
    ¬ ∀ (ls : List EmitterLabel) (symbol : Nat) (s : Machine),
      run Machine.step Machine.init ls = some s →
        s.em.Counts (ls.foldl Listeners.call Listeners.empty) symbol := by
  intro h
  obtain ⟨fuel, n, hn, -, -⟩ := h [.on 0] 0 _ rfl
  rw [listenerCount_endless (c := 0) rfl fuel] at hn
  cases hn

end Libnodecc.Events
