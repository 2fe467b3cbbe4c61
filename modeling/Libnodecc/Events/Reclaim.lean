import Libnodecc.Events.Dispatch

namespace Libnodecc.Events

/-- Handler `k` is found by following the pointers of the list of `symbol`. -/
def Emitter.Lists (em : Emitter) (symbol k : Nat) : Prop :=
  ∃ l, Chain em.next (em.headOf symbol) l ∧ k ∈ l

/-- Every handler ever created is in exactly one event list or has been deleted. -/
def Emitter.Accounted (em : Emitter) : Prop :=
  ∀ k < em.created, (∃! symbol, em.Lists symbol k) ∨ em.handlers k = none

def EmitterLabel.takenOff (s : Machine) : EmitterLabel → List Nat
  | .off symbol iter => if iter ∈ s.registry symbol then [iter] else []
  | .removeAllListeners symbol => s.registry symbol
  | .clear => s.em.events.keys.flatMap s.registry
  | _ => []

def EmitterLabel.added (s : Machine) : EmitterLabel → List Nat
  | .on _ => [s.em.created]
  | _ => []

/-- The call takes off no handler that an active emit is in. -/
def TakesOffIdle (s : Machine) (l : EmitterLabel) : Prop := ∀ a ∈ l.takenOff s, a ∉ s.currs

instance (s : Machine) (l : EmitterLabel) : Decidable (TakesOffIdle s l) :=
  inferInstanceAs (Decidable (∀ a ∈ l.takenOff s, a ∉ s.currs))

def Machine.Registered (s : Machine) (a : Nat) : Prop := ∃ symbol, a ∈ s.registry symbol

def Machine.Allocated (s : Machine) (a : Nat) : Prop := (s.em.guards a).isSome

theorem lists_iff {em : Emitter} {registry : Nat → List Nat} (hl : Linked em registry)
    (symbol k : Nat) : em.Lists symbol k ↔ k ∈ registry symbol := by
  constructor
  · rintro ⟨l, hc, hk⟩
    rwa [chain_unique _ l _ hc (hl.chain symbol)] at hk
  · intro hk
    exact ⟨registry symbol, hl.chain symbol, hk⟩

section
variable {s t : Machine}

theorem Safe.registered_allocated (hs : Safe s) (a : Nat) (ha : s.Registered a) :
    s.Allocated a := by
  obtain ⟨symbol, ha⟩ := ha
  obtain ⟨h, hh⟩ := hs.linked.allocated symbol a ha
  simp [Machine.Allocated, Emitter.guards, hh]

theorem Safe.allocated_lt (hs : Safe s) (a : Nat) (ha : s.Allocated a) : a < s.em.created := by
  by_contra hge
  have hf := hs.linked.fresh a (by omega)
  simp [Machine.Allocated, Emitter.guards, hf] at ha

theorem Safe.guards_zero_iff (hs : Safe s) (a : Nat) :
    s.em.guards a = some 0 ↔ s.Allocated a ∧ a ∉ s.currs := by
  constructor
  · intro hz
    refine ⟨by simp [Machine.Allocated, hz], ?_⟩
    intro ha
    have hpos := List.count_pos_iff.mpr ha
    have hc := Option.some.inj ((hs.active a ha).symm.trans hz)
    omega
  · rintro ⟨ha, hout⟩
    obtain ⟨n, hn⟩ := Option.isSome_iff_exists.mp ha
    rw [hn, hs.idle a n hout hn]

/-- All handlers are accounted for when every allocated one is registered. -/
theorem Safe.accounted_iff (hs : Safe s) :
    s.em.Accounted ↔ ∀ a, s.Allocated a → s.Registered a := by
  constructor
  · intro h a ha
    rcases h a (hs.allocated_lt a ha) with ⟨symbol, hsym, -⟩ | hnone
    · exact ⟨symbol, (lists_iff hs.linked symbol a).mp hsym⟩
    · simp [Machine.Allocated, Emitter.guards, hnone] at ha
  · intro h a _
    by_cases ha : s.Allocated a
    · left
      obtain ⟨symbol, hsym⟩ := h a ha
      refine ⟨symbol, (lists_iff hs.linked symbol a).mpr hsym, ?_⟩
      intro t ht
      exact hs.linked.owner a t symbol ((lists_iff hs.linked t a).mp ht) hsym
    · right
      simpa [Machine.Allocated, Emitter.guards] using ha

theorem Safe.allocated_removes (hs : Safe s) (ks : List Nat) (h : Removes s.em t.em ks) (a : Nat) :
    t.Allocated a ↔ s.Allocated a ∧ (a ∈ ks → a ∈ s.currs) := by
  by_cases hk : a ∈ ks
  · rw [Machine.Allocated, h.gone a hk]
    have hz := hs.guards_zero_iff a
    cases hg : s.em.guards a with
    | none => simp [Machine.Allocated, hg]
    | some n =>
      simp only [Machine.Allocated, hg, Option.isSome_some, true_and, Option.some.injEq] at hz
      simp [Machine.Allocated, hg, Option.filter_some, hk, hz]
  · simp [Machine.Allocated, h.kept a hk, hk]

theorem setRefCount_allocated (em em' : Emitter) (k n a : Nat)
    (h : em.setRefCount k n = some em') : (em'.guards a).isSome ↔ (em.guards a).isSome := by
  obtain ⟨x, hx, rfl⟩ := Option.map_eq_some_iff.mp h
  by_cases ha : a = k
  · subst ha
    simp [Emitter.guards, hx]
  · simp [Emitter.guards, ha]

theorem advance_allocated (f : Emission) (symbol : Nat) (p : Option Nat) (a : Nat)
    (h : s.advance f symbol p = some t) : t.Allocated a ↔ s.Allocated a := by
  cases p with
  | none =>
    cases h
    exact Iff.rfl
  | some c =>
    obtain ⟨x, -, h⟩ := Option.bind_eq_some_iff.mp h
    obtain ⟨em, hem, rfl⟩ := Option.map_eq_some_iff.mp h
    exact setRefCount_allocated _ _ _ _ a hem

theorem handlerReturns_allocated (hs : Safe s) (f : Frame) (rest : List Frame)
    (hst : s.stack = f :: rest) (a : Nat) (h : s.handlerReturns f rest = some t) :
    t.Allocated a ↔ s.Allocated a := by
  obtain ⟨x, hx, h⟩ := Option.bind_eq_some_iff.mp h
  obtain ⟨em, hem, h⟩ := Option.bind_eq_some_iff.mp h
  rw [if_neg (hs.unmarked f rest hst x hx).2.2, Option.bind_some] at h
  rw [advance_allocated _ _ _ a h]
  exact setRefCount_allocated _ _ _ _ a hem

theorem init_registered (a : Nat) (ha : Machine.init.Allocated a) : Machine.init.Registered a := by
  simp [Machine.Allocated, Machine.init, Emitter.guards] at ha

theorem takenOff_registered (l : EmitterLabel) (a : Nat) (h : a ∈ l.takenOff s) :
    s.Registered a := by
  cases l with
  | off symbol iter =>
    simp only [EmitterLabel.takenOff] at h
    split_ifs at h with hk
    · obtain rfl := List.mem_singleton.mp h
      exact ⟨symbol, hk⟩
    · cases h
  | removeAllListeners symbol => exact ⟨symbol, h⟩
  | clear =>
    obtain ⟨symbol, -, h⟩ := List.mem_flatMap.mp h
    exact ⟨symbol, h⟩
  | _ => cases h

theorem added_eq (l : EmitterLabel) (a : Nat) (h : a ∈ l.added s) : a = s.em.created := by
  cases l with
  | on symbol => exact List.mem_singleton.mp h
  | _ => cases h

/-- What a call leaves allocated: what was, without the handlers it takes off while no emit is in
them, and with the one it creates. -/
theorem step_allocated (hs : Safe s) (l : EmitterLabel) (ht : s.step l = some t) (a : Nat) :
    t.Allocated a ↔ a ∈ l.added s ∨ s.Allocated a ∧ (a ∈ l.takenOff s → a ∈ s.currs) := by
  cases l with
  | on symbol =>
    obtain ⟨em, hem, -, -, -, hg⟩ := on_spec hs.linked symbol
    simp only [Machine.step, hem, Option.map_some, Option.some.injEq] at ht
    subst ht
    by_cases ha : a = s.em.created
    · simp [Machine.Allocated, hg, EmitterLabel.added, ha]
    · simp [Machine.Allocated, hg, EmitterLabel.added, EmitterLabel.takenOff, ha]
  | off symbol iter =>
    by_cases hk : iter ∈ s.registry symbol
    · obtain ⟨em, hem, -, hrem⟩ := off_spec hs.linked symbol iter hk
      simp only [Machine.step, hem, Option.map_some, if_pos hk, Option.some.injEq] at ht
      subst ht
      rw [hs.allocated_removes [iter] hrem a]
      simp [EmitterLabel.added, EmitterLabel.takenOff, hk]
    · rw [Machine.step, off_absent hs.linked symbol iter hk, Option.map_some, if_neg hk] at ht
      cases ht
      simp [EmitterLabel.added, EmitterLabel.takenOff, hk]
  | removeAllListeners symbol =>
    obtain ⟨em, hem, -, hrem⟩ := removeAllListeners_spec hs.linked symbol
    simp only [Machine.step, hem, Option.map_some, Option.some.injEq] at ht
    subst ht
    rw [hs.allocated_removes _ hrem a]
    simp [EmitterLabel.added, EmitterLabel.takenOff]
  | clear =>
    obtain ⟨em, hem, -, hrem, -⟩ := clear_spec hs.linked
    simp only [Machine.step, hem, Option.map_some, Option.some.injEq] at ht
    subst ht
    rw [hs.allocated_removes _ hrem a]
    simp only [EmitterLabel.added, EmitterLabel.takenOff, List.not_mem_nil, false_or]
  | emit symbol =>
    have hsame : t.Allocated a ↔ s.Allocated a := by
      rw [Machine.step] at ht
      split_ifs at ht
      · exact advance_allocated _ _ _ a ht
      · cases ht
        exact Iff.rfl
    simp [hsame, EmitterLabel.added, EmitterLabel.takenOff]
  | handlerReturns =>
    have hsame : t.Allocated a ↔ s.Allocated a := by
      cases hst : s.stack with
      | nil =>
        simp only [Machine.step, hst] at ht
        cases ht
        exact Iff.rfl
      | cons f rest =>
        simp only [Machine.step, hst] at ht
        exact handlerReturns_allocated hs f rest hst a ht
    simp [hsame, EmitterLabel.added, EmitterLabel.takenOff]

/-- What a call leaves registered. -/
theorem step_registered (hs : Safe s) (l : EmitterLabel) (ht : s.step l = some t) (a : Nat) :
    t.Registered a ↔ a ∈ l.added s ∨ s.Registered a ∧ a ∉ l.takenOff s := by
  obtain ⟨u, hu, -, hd⟩ := step_refines hs l
  obtain rfl : t = u := Option.some.inj (ht.symm.trans hu)
  have hreg : t.registry = (s.dispatch.step l).registry := congrArg Dispatch.registry hd
  have hmem (symbol symbol' : Nat) (v : List Nat) :
      a ∈ Function.update s.registry symbol v symbol' ↔
        if symbol' = symbol then a ∈ v else a ∈ s.registry symbol' := by
    by_cases he : symbol' = symbol
    · subst he
      simp
    · simp [he]
  have hadv (d : Dispatch) (f : Emission) (symbol : Nat) (p : Option Nat) :
      (d.advance f symbol p).registry = d.registry := by
    cases p <;> rfl
  cases l with
  | on symbol =>
    simp only [Machine.Registered, hreg, Dispatch.step, Machine.dispatch, hmem,
      EmitterLabel.added, EmitterLabel.takenOff, List.mem_singleton, List.not_mem_nil,
      not_false_eq_true, and_true]
    constructor
    · rintro ⟨symbol', h⟩
      split_ifs at h with he
      · rcases List.mem_append.mp h with h | h
        · exact .inr ⟨symbol, h⟩
        · exact .inl (by simpa using h)
      · exact .inr ⟨symbol', h⟩
    · rintro (rfl | ⟨symbol', h⟩)
      · exact ⟨symbol, by simp⟩
      · refine ⟨symbol', ?_⟩
        split_ifs with he
        · subst he
          exact List.mem_append_left _ h
        · exact h
  | off symbol iter =>
    by_cases hk : iter ∈ s.registry symbol
    · rw [Dispatch.step, if_pos (show iter ∈ s.dispatch.registry symbol from hk)] at hreg
      simp only [Machine.Registered, hreg, Machine.dispatch, hmem, if_pos hk,
        EmitterLabel.added, EmitterLabel.takenOff, List.not_mem_nil, false_or,
        List.mem_singleton, (hs.linked.nodup symbol).mem_erase_iff]
      constructor
      · rintro ⟨symbol', h⟩
        split_ifs at h with he
        · exact ⟨⟨symbol, h.2⟩, h.1⟩
        · exact ⟨⟨symbol', h⟩, fun hi => he (hs.linked.owner a symbol' symbol h (hi ▸ hk))⟩
      · rintro ⟨⟨symbol', h⟩, hi⟩
        refine ⟨symbol', ?_⟩
        split_ifs with he
        · subst he
          exact ⟨hi, h⟩
        · exact h
    · simp [Machine.Registered, hreg, Dispatch.step, Machine.dispatch, hk, EmitterLabel.added,
        EmitterLabel.takenOff]
  | removeAllListeners symbol =>
    simp only [Machine.Registered, hreg, Dispatch.step, Machine.dispatch, hmem,
      EmitterLabel.added, EmitterLabel.takenOff, List.not_mem_nil, false_or]
    constructor
    · rintro ⟨symbol', h⟩
      split_ifs at h with he
      exact ⟨⟨symbol', h⟩, fun hm => he (hs.linked.owner a symbol' symbol h hm)⟩
    · rintro ⟨⟨symbol', h⟩, hi⟩
      refine ⟨symbol', ?_⟩
      split_ifs with he
      · subst he
        exact absurd h hi
      · exact h
  | clear =>
    obtain ⟨-, -, -, -, hall⟩ := clear_spec hs.linked
    simp only [Machine.Registered, hreg, Dispatch.step, EmitterLabel.added,
      EmitterLabel.takenOff, List.not_mem_nil, exists_false, false_or, false_iff, not_and, not_not]
    rintro ⟨symbol, h⟩
    exact hall symbol a h
  | emit symbol =>
    have hsame : t.registry = s.registry := by
      rw [hreg, Dispatch.step]
      split_ifs
      · exact hadv _ _ _ _
      · rfl
    simp [Machine.Registered, hsame, EmitterLabel.added, EmitterLabel.takenOff]
  | handlerReturns =>
    have hsame : t.registry = s.registry := by
      rw [hreg, Dispatch.step]
      split
      · rfl
      · exact hadv _ _ _ _
    simp [Machine.Registered, hsame, EmitterLabel.added, EmitterLabel.takenOff]

/-- As long as no call takes off a handler in use, every allocated handler stays registered. -/
theorem step_allocated_registered (hs : Safe s) (l : EmitterLabel) (ht : s.step l = some t)
    (hidle : TakesOffIdle s l) (h : ∀ a, s.Allocated a → s.Registered a) (a : Nat)
    (ha : t.Allocated a) : t.Registered a := by
  rw [step_registered hs l ht a]
  rcases (step_allocated hs l ht a).mp ha with ha | ⟨ha, hcurr⟩
  · exact .inl ha
  · exact .inr ⟨h a ha, fun hoff => hidle a hoff (hcurr hoff)⟩

/-- A handler that is allocated and in no list is never deleted, by whatever calls follow. -/
theorem run_leaked (ls : List EmitterLabel) (a : Nat) (hs : Safe s) (ha : s.Allocated a)
    (hout : ¬ s.Registered a) (ht : run Machine.step s ls = some t) :
    t.Allocated a ∧ ¬ t.Registered a := by
  induction ls generalizing s with
  | nil =>
    cases ht
    exact ⟨ha, hout⟩
  | cons l ls ih =>
    obtain ⟨u, hu, ht⟩ := Option.bind_eq_some_iff.mp ht
    obtain ⟨u', hu', hsu, -⟩ := step_refines hs l
    obtain rfl : u = u' := Option.some.inj (hu.symm.trans hu')
    have hoff : a ∉ l.takenOff s := by
      intro hoff
      exact hout (takenOff_registered l a hoff)
    have hnew : a ∉ l.added s := by
      intro hnew
      have hlt := hs.allocated_lt a ha
      rw [added_eq l a hnew] at hlt
      omega
    apply ih hsu _ _ ht
    · rw [step_allocated hs l hu a]
      exact .inr ⟨ha, fun h => absurd h hoff⟩
    · rw [step_registered hs l hu a]
      rintro (h | h)
      · exact hnew h
      · exact hout h.1

/-- A handler taken off while an emit is in it is leaked. -/
theorem step_leaks (hs : Safe s) (l : EmitterLabel) (ht : s.step l = some t) (a : Nat)
    (hoff : a ∈ l.takenOff s) (hcurr : a ∈ s.currs) : t.Allocated a ∧ ¬ t.Registered a := by
  have hreg := takenOff_registered l a hoff
  constructor
  · rw [step_allocated hs l ht a]
    exact .inr ⟨hs.registered_allocated a hreg, fun _ => hcurr⟩
  · rw [step_registered hs l ht a]
    rintro (h | h)
    · have hlt := hs.allocated_lt a (hs.registered_allocated a hreg)
      rw [added_eq l a h] at hlt
      omega
    · exact h.2 hoff

/-- A run leaves every handler accounted for if and only if no call of it took off a handler an
emit was in. -/
theorem run_accounted_iff (ls : List EmitterLabel) (hs : Safe s)
    (h : ∀ a, s.Allocated a → s.Registered a) (ht : run Machine.step s ls = some t) :
    t.em.Accounted ↔ Along Machine.step TakesOffIdle s ls := by
  induction ls generalizing s with
  | nil =>
    cases ht
    exact iff_of_true (hs.accounted_iff.mpr h) trivial
  | cons l ls ih =>
    obtain ⟨u, hu, ht⟩ := Option.bind_eq_some_iff.mp ht
    obtain ⟨u', hu', hsu, -⟩ := step_refines hs l
    obtain rfl : u = u' := Option.some.inj (hu.symm.trans hu')
    by_cases hidle : TakesOffIdle s l
    · rw [ih hsu (step_allocated_registered hs l hu hidle h) ht]
      simp [Along, hidle, hu]
    · obtain ⟨a, hoff, hcurr⟩ : ∃ a ∈ l.takenOff s, a ∈ s.currs := by
        simpa [TakesOffIdle] using hidle
      obtain ⟨hall, hout⟩ := step_leaks hs l hu a hoff hcurr
      obtain ⟨htall, htout⟩ := run_leaked ls a hsu hall hout ht
      have hst : Safe t := by
        obtain ⟨t', ht', hst, -⟩ := run_refines ls u hsu
        obtain rfl : t = t' := Option.some.inj (ht.symm.trans ht')
        exact hst
      apply iff_of_false
      · intro hacc
        exact htout (hst.accounted_iff.mp hacc a htall)
      · exact fun hal => hidle hal.1

end

/-- Whenever no emit is active, every handler ever created by `on` is in exactly one event list or
deleted, if and only if no handler was taken off while an emit was in it. -/
theorem handlers_reclaimed (ls : List EmitterLabel) :
    ∃ s, run Machine.step Machine.init ls = some s ∧
      (s.stack = [] → (s.em.Accounted ↔ Along Machine.step TakesOffIdle Machine.init ls)) := by
  obtain ⟨s, hrun, -, -⟩ := run_refines ls Machine.init init_safe
  refine ⟨s, hrun, ?_⟩
  intro _
  exact run_accounted_iff ls init_safe init_registered hrun

/-- A handler that takes itself off is never deleted. -/
theorem self_removal_leaks :
    ∃ s, run Machine.step Machine.init [.on 0, .emit 0, .off 0 0, .handlerReturns] = some s ∧
      s.stack = [] ∧ ¬ s.em.Accounted := by
  refine ⟨_, rfl, rfl, ?_⟩
  rw [run_accounted_iff [.on 0, .emit 0, .off 0 0, .handlerReturns] init_safe init_registered rfl]
  decide

end Libnodecc.Events
