import Libnodecc.Events.Links

namespace Libnodecc.Events

/-- What is registered behind `a`. -/
def following (l : List Nat) (a : Nat) : List Nat := (l.dropWhile (· ≠ a)).tail

/-- The emitter without its pointers: each symbol has a list of handlers, and an emit goes from
a handler to the one registered behind it, if it is still registered itself. -/
structure Dispatch where
  registry : Nat → List Nat
  created : Nat
  stack : List Frame
  finished : List Emission

def Dispatch.init : Dispatch := ⟨fun _ => [], 0, [], []⟩

def Dispatch.advance (d : Dispatch) (f : Emission) (symbol : Nat) : Option Nat → Dispatch
  | none => { d with finished := d.finished ++ [f] }
  | some c => { d with stack := ⟨{ f with called := f.called ++ [c] }, symbol, c⟩ :: d.stack }

def Dispatch.step (d : Dispatch) : EmitterLabel → Dispatch
  | .on symbol =>
    { d with
      registry := Function.update d.registry symbol (d.registry symbol ++ [d.created])
      created := d.created + 1 }
  | .off symbol iter =>
    if iter ∈ d.registry symbol then
      { d with
        registry := Function.update d.registry symbol ((d.registry symbol).erase iter)
        stack := d.stack.map fun f => (f.forget symbol [iter]).detach iter }
    else d
  | .removeAllListeners symbol =>
    { d with
      registry := Function.update d.registry symbol []
      stack := d.stack.map (Frame.forget symbol (d.registry symbol)) }
  | .clear =>
    { d with
      registry := fun _ => []
      stack := d.stack.map fun f => f.forget f.symbol (d.registry f.symbol) }
  | .emit symbol =>
    if d.stack.length < deleteFlag then
      d.advance ⟨d.registry symbol, [], [], false⟩ symbol (d.registry symbol).head?
    else d
  | .handlerReturns =>
    match d.stack with
    | [] => d
    | f :: rest =>
      { d with stack := rest }.advance f.toEmission f.symbol
        (following (d.registry f.symbol) f.curr).head?

theorem following_split (pre post : List Nat) (a : Nat) (ha : a ∉ pre) :
    following (pre ++ a :: post) a = post := by
  have hpre : ∀ b ∈ pre, decide (b ≠ a) = true := by
    intro b hb
    have hne : b ≠ a := fun he => ha (he ▸ hb)
    simpa using hne
  rw [following, List.dropWhile_append_of_pos hpre, List.dropWhile_cons_of_neg (by simp)]
  rfl

theorem following_absent (l : List Nat) (a : Nat) (ha : a ∉ l) : following l a = [] := by
  have hall : ∀ b ∈ l, decide (b ≠ a) = true := by
    intro b hb
    have hne : b ≠ a := fun he => ha (he ▸ hb)
    simpa using hne
  have h : (l ++ []).dropWhile (· ≠ a) = [].dropWhile (· ≠ a) :=
    List.dropWhile_append_of_pos hall
  rw [List.append_nil, List.dropWhile_nil] at h
  rw [following, h]
  rfl

def Machine.dispatch (s : Machine) : Dispatch := ⟨s.registry, s.em.created, s.stack, s.finished⟩

def Machine.currs (s : Machine) : List Nat := s.stack.map Frame.curr

@[simp] theorem Frame.forget_curr (symbol : Nat) (ks : List Nat) (f : Frame) :
    (f.forget symbol ks).curr = f.curr := by
  unfold Frame.forget
  split_ifs <;> rfl

@[simp] theorem Frame.forget_symbol (symbol : Nat) (ks : List Nat) (f : Frame) :
    (f.forget symbol ks).symbol = f.symbol := by
  unfold Frame.forget
  split_ifs <;> rfl

@[simp] theorem Frame.detach_curr (k : Nat) (f : Frame) : (f.detach k).curr = f.curr := by
  unfold Frame.detach
  split_ifs <;> rfl

@[simp] theorem Frame.detach_symbol (k : Nat) (f : Frame) : (f.detach k).symbol = f.symbol := by
  unfold Frame.detach
  split_ifs <;> rfl

/-- The guard count of a handler is the number of active emits that are in it, and nothing with
a guard was ever deleted. -/
structure Safe (s : Machine) : Prop where
  linked : Linked s.em s.registry
  active : ∀ a ∈ s.currs, s.em.guards a = some (s.currs.count a)
  idle : ∀ a n, a ∉ s.currs → s.em.guards a = some n → n = 0
  home : ∀ f ∈ s.stack, ∀ symbol, f.curr ∈ s.registry symbol → symbol = f.symbol
  depth : s.stack.length ≤ deleteFlag
  deleted : ∀ d ∈ s.em.deleted, d.2 = 0 ∧ d.1 < s.em.created ∧ s.em.guards d.1 = none
  once : (s.em.deleted.map Prod.fst).Nodup

theorem init_dispatch : Machine.init.dispatch = Dispatch.init := rfl

theorem init_safe : Safe Machine.init := by
  refine ⟨⟨?_, ?_, ?_, ?_, ?_, ?_, ?_⟩, ?_, ?_, ?_, ?_, ?_, ?_⟩ <;>
    simp [Machine.init, Machine.currs, Emitter.headOf, Emitter.guards]

theorem guards_eq_some (em : Emitter) (a n : Nat) (h : em.guards a = some n) :
    ∃ x, em.handlers a = some x ∧ x.refCount = n := Option.map_eq_some_iff.mp h

section
variable {s : Machine}

theorem Safe.guarded (hs : Safe s) (f : Frame) (hf : f ∈ s.stack) :
    ∃ x, s.em.handlers f.curr = some x ∧ x.refCount = s.currs.count f.curr ∧ 0 < x.refCount := by
  have hm : f.curr ∈ s.currs := List.mem_map_of_mem hf
  obtain ⟨x, hx, hn⟩ := guards_eq_some s.em f.curr _ (hs.active f.curr hm)
  exact ⟨x, hx, hn, by rw [hn]; exact List.count_pos_iff.mpr hm⟩

/-- The pointer an emit follows next is the one behind its handler in the registry. -/
theorem Safe.next_eq (hs : Safe s) (f : Frame) (hf : f ∈ s.stack) (x : Handler)
    (hx : s.em.handlers f.curr = some x) :
    x.next = (following (s.registry f.symbol) f.curr).head? := by
  by_cases hm : f.curr ∈ s.registry f.symbol
  · obtain ⟨pre, post, hreg⟩ := List.append_of_mem hm
    have hn := hs.linked.nodup f.symbol
    have hc := hs.linked.chain f.symbol
    rw [hreg] at hn hc
    have hpre : f.curr ∉ pre := by
      rw [List.nodup_append] at hn
      exact fun hm => hn.2.2 f.curr hm f.curr (by simp) rfl
    rw [hreg, following_split pre post f.curr hpre]
    simpa [Emitter.next, hx] using chain_next _ pre post f.curr hc
  · rw [following_absent _ _ hm]
    apply hs.linked.loose f.curr x hx
    intro t ht
    exact hm (hs.home f hf t ht ▸ ht)

theorem Safe.next_allocated (hs : Safe s) (symbol c : Nat) (l : List Nat)
    (hl : l ⊆ s.registry symbol) (hc : l.head? = some c) :
    ∃ h, s.em.handlers c = some h :=
  hs.linked.allocated symbol c (hl (List.mem_of_mem_head? hc))

end

theorem following_subset (l : List Nat) (a : Nat) : following l a ⊆ l :=
  fun _ hb => (List.dropWhile_sublist _).subset (List.mem_of_mem_tail hb)

/-- Changing a guard changes no list. -/
theorem Linked.congr {em em' : Emitter} {registry : Nat → List Nat} (hl : Linked em registry)
    (hnext : ∀ a, em'.next a = em.next a) (hev : em'.events = em.events)
    (hcr : em'.created = em.created) : Linked em' registry := by
  refine ⟨?_, ?_, ?_, hl.nodup, hl.owner, ?_, ?_⟩
  · intro t
    rw [Emitter.headOf, hev]
    exact segment_congr _ _ _ (fun a _ => hnext a) (hl.chain t)
  · rw [hev]
    exact hl.tail
  · rw [hev]
    exact hl.entry
  · intro a h ha hout
    have hn := hnext a
    simp only [Emitter.next, ha, Option.map_some] at hn
    obtain ⟨x, hx, hxn⟩ := Option.map_eq_some_iff.mp hn.symm
    rw [← hxn]
    exact hl.loose a x hx hout
  · intro a ha
    have hn := hnext a
    rw [hcr] at ha
    simpa [Emitter.next, hl.fresh a ha] using hn

theorem setRefCount_spec (em : Emitter) (k n : Nat) (h : Handler) (hk : em.handlers k = some h) :
    em.setRefCount k n = some { em with
      handlers := Function.update em.handlers k (some ⟨h.next, n⟩) } := by
  simp [Emitter.setRefCount, Emitter.update, hk]

/-- The guard of `k` is set to `n`, the emits now in a handler are those of `stack`. -/
theorem Safe.setRefCount {s : Machine} (hs : Safe s) (k n : Nat) (h : Handler)
    (hk : s.em.handlers k = some h) (stack : List Frame)
    (hn : n = (stack.map Frame.curr).count k)
    (hother : ∀ a, a ≠ k → (stack.map Frame.curr).count a = s.currs.count a)
    (hhome : ∀ f ∈ stack, ∀ symbol, f.curr ∈ s.registry symbol → symbol = f.symbol)
    (hdepth : stack.length ≤ deleteFlag) :
    Safe { s with
      em := { s.em with handlers := Function.update s.em.handlers k (some ⟨h.next, n⟩) }
      stack := stack } := by
  have hguard (a : Nat) : (Function.update s.em.handlers k (some ⟨h.next, n⟩) a).map
      Handler.refCount = if a = k then some n else s.em.guards a := by
    by_cases ha : a = k
    · subst ha
      simp
    · simp [Emitter.guards, ha]
  refine ⟨?_, ?_, ?_, hhome, hdepth, ?_, hs.once⟩
  · apply hs.linked.congr
    · intro a
      by_cases ha : a = k
      · subst ha
        simp [Emitter.next, hk]
      · simp [Emitter.next, ha]
    · rfl
    · rfl
  · intro a ha
    simp only [Machine.currs, Emitter.guards, hguard a]
    split_ifs with hak
    · rw [hak, hn]
    · rw [hother a hak]
      apply hs.active
      exact List.count_pos_iff.mp (by rw [← hother a hak]; exact List.count_pos_iff.mpr ha)
  · intro a m ha hm
    simp only [Machine.currs] at ha
    simp only [Emitter.guards, hguard a] at hm
    split_ifs at hm with hak
    · cases hm
      rw [hn, ← hak]
      exact List.count_eq_zero.mpr ha
    · apply hs.idle a m ?_ hm
      exact List.count_eq_zero.mp (by rw [← hother a hak]; exact List.count_eq_zero.mpr ha)
  · intro d hd
    obtain ⟨hz, hlt, hnone⟩ := hs.deleted d hd
    refine ⟨hz, hlt, ?_⟩
    have hdk : d.1 ≠ k := by
      intro he
      simp [Emitter.guards, he, hk] at hnone
    simpa [Emitter.guards, hdk] using hnone

/-- Discarding handlers keeps every guarded one. -/
theorem Safe.removes {s : Machine} (hs : Safe s) (em : Emitter) (ks : List Nat)
    (registry : Nat → List Nat) (stack : List Frame) (hl : Linked em registry)
    (hrem : Removes s.em em ks) (hcurr : stack.map Frame.curr = s.currs)
    (hhome : ∀ f ∈ stack, ∀ symbol, f.curr ∈ registry symbol → symbol = f.symbol) :
    Safe { s with em := em, registry := registry, stack := stack } := by
  obtain ⟨ds, hds, hdn, hdm⟩ := hrem.deleted
  have hlen : stack.length = s.stack.length := by
    have h := congrArg List.length hcurr
    simpa [Machine.currs] using h
  have hnone (a : Nat) (ha : s.em.guards a = none) : em.guards a = none := by
    by_cases hm : a ∈ ks
    · rw [hrem.gone a hm, ha]
      rfl
    · rw [hrem.kept a hm, ha]
  refine ⟨hl, ?_, ?_, hhome, by rw [hlen]; exact hs.depth, ?_, ?_⟩
  · change ∀ a ∈ stack.map Frame.curr, em.guards a = some ((stack.map Frame.curr).count a)
    rw [hcurr]
    intro a ha
    have hg := hs.active a ha
    have hpos : s.currs.count a ≠ 0 := Nat.pos_iff_ne_zero.mp (List.count_pos_iff.mpr ha)
    by_cases hm : a ∈ ks
    · rw [hrem.gone a hm, hg, Option.filter_some, if_pos (by simpa using hpos)]
    · rw [hrem.kept a hm, hg]
  · change ∀ a n, a ∉ stack.map Frame.curr → em.guards a = some n → n = 0
    rw [hcurr]
    intro a n ha hn
    by_cases hm : a ∈ ks
    · rw [hrem.gone a hm, Option.filter_eq_some_iff] at hn
      exact hs.idle a n ha hn.1
    · rw [hrem.kept a hm] at hn
      exact hs.idle a n ha hn
  · intro d hd
    simp only [hds, List.mem_append, List.mem_map] at hd
    rcases hd with hd | ⟨a, ha, rfl⟩
    · obtain ⟨hz, hlt, hg⟩ := hs.deleted d hd
      exact ⟨hz, by rw [hrem.created]; exact hlt, hnone d.1 hg⟩
    · obtain ⟨hak, hg⟩ := hdm a ha
      refine ⟨rfl, ?_, ?_⟩
      · rw [hrem.created]
        by_contra hge
        have hf := hs.linked.fresh a (by omega)
        simp [Emitter.guards, hf] at hg
      · rw [hrem.gone a hak, hg]
        rfl
  · have hfst : (ds.map fun a => (a, 0)).map Prod.fst = ds := by simp [Function.comp_def]
    rw [hds, List.map_append, hfst]
    refine List.nodup_append.mpr ⟨hs.once, hdn, ?_⟩
    intro a ha b hb hab
    subst hab
    obtain ⟨d, hd, rfl⟩ := List.mem_map.mp ha
    have hg := (hs.deleted d hd).2.2
    rw [(hdm d.1 hb).2] at hg
    cases hg

/-- The machine takes the step of the list view, and stays safe. -/
def Refines (t : Option Machine) (d : Dispatch) : Prop :=
  ∃ s, t = some s ∧ Safe s ∧ s.dispatch = d

section
variable {s : Machine}

theorem advance_refines (hs : Safe s) (hdepth : s.stack.length < deleteFlag) (f : Emission)
    (symbol : Nat) (l : List Nat) (hl : l ⊆ s.registry symbol) :
    Refines (s.advance f symbol l.head?) (s.dispatch.advance f symbol l.head?) := by
  cases hc : l.head? with
  | none =>
    exact ⟨_, rfl, ⟨hs.linked, hs.active, hs.idle, hs.home, hs.depth, hs.deleted, hs.once⟩, rfl⟩
  | some c =>
    obtain ⟨h, hh⟩ := hs.next_allocated symbol c l hl hc
    have hcount : h.refCount = s.currs.count c := by
      have hg : s.em.guards c = some h.refCount := by simp [Emitter.guards, hh]
      by_cases hm : c ∈ s.currs
      · rw [hs.active c hm] at hg
        exact (Option.some.inj hg).symm
      · rw [hs.idle c _ hm hg, List.count_eq_zero.mpr hm]
    refine ⟨_, ?_, hs.setRefCount c (h.refCount + 1) h hh
      (⟨{ f with called := f.called ++ [c] }, symbol, c⟩ :: s.stack) ?_ ?_ ?_ ?_, rfl⟩
    · simp only [Machine.advance, Machine.enter, hh, Option.bind_some,
        setRefCount_spec s.em c (h.refCount + 1) h hh, Option.map_some]
    · rw [hcount]
      simp [Machine.currs]
    · intro a ha
      simp [Machine.currs, Ne.symm ha]
    · intro g hg t ht
      rcases List.mem_cons.mp hg with rfl | hg
      · exact hs.linked.owner c t symbol ht (hl (List.mem_of_mem_head? hc))
      · exact hs.home g hg t ht
    · rw [List.length_cons]
      exact hdepth

/-- The handler an emit leaves was guarded by the active emits in it, too few to look like a
mark. -/
theorem Safe.unmarked (hs : Safe s) (f : Frame) (rest : List Frame) (hst : s.stack = f :: rest)
    (x : Handler) (hx : s.em.handlers f.curr = some x) :
    x.refCount - 1 = (rest.map Frame.curr).count f.curr ∧ rest.length < deleteFlag ∧
      x.refCount - 1 ≠ deleteFlag := by
  obtain ⟨y, hy, hn, -⟩ := hs.guarded f (by simp [hst])
  obtain rfl : x = y := Option.some.inj (hx.symm.trans hy)
  have hcount : x.refCount - 1 = (rest.map Frame.curr).count f.curr := by
    rw [hn]
    simp [Machine.currs, hst]
  have hlen : rest.length < deleteFlag := by
    have h := hs.depth
    rw [hst, List.length_cons] at h
    omega
  have h := List.count_le_length (a := f.curr) (l := rest.map Frame.curr)
  rw [List.length_map] at h
  exact ⟨hcount, hlen, by omega⟩

theorem handlerReturns_refines (hs : Safe s) (f : Frame) (rest : List Frame)
    (hst : s.stack = f :: rest) :
    Refines (s.handlerReturns f rest) (s.dispatch.step .handlerReturns) := by
  have hf : f ∈ s.stack := by simp [hst]
  obtain ⟨x, hx, -, -⟩ := hs.guarded f hf
  obtain ⟨hcount, hlen, hflag⟩ := hs.unmarked f rest hst x hx
  have hs' := hs.setRefCount f.curr (x.refCount - 1) x hx rest hcount
    (fun a ha => by simp [Machine.currs, hst, Ne.symm ha])
    (fun g hg => hs.home g (by simp [hst, hg])) (Nat.le_of_lt hlen)
  have h := advance_refines hs' hlen f.toEmission f.symbol _
    (following_subset (s.registry f.symbol) f.curr)
  rw [← hs.next_eq f hf x hx] at h
  simp only [Machine.handlerReturns, hx, Option.bind_some,
    setRefCount_spec s.em f.curr (x.refCount - 1) x hx, if_neg hflag]
  simpa only [Dispatch.step, Machine.dispatch, hst, ← hs.next_eq f hf x hx] using h

/-- Every call on the emitter is defined and does what the list view says. -/
theorem step_refines (hs : Safe s) (l : EmitterLabel) :
    Refines (s.step l) (s.dispatch.step l) := by
  cases l with
  | on symbol =>
    obtain ⟨em, hem, hl, hcr, hdel, hg⟩ := on_spec hs.linked symbol
    have hlt (a : Nat) (n : Nat) (ha : s.em.guards a = some n) : a ≠ s.em.created := by
      rintro rfl
      simp [Emitter.guards, hs.linked.fresh _ le_rfl] at ha
    let s' : Machine := ⟨em, Function.update s.registry symbol (s.registry symbol ++ [s.em.created]),
      s.stack, s.finished⟩
    refine ⟨s', by simp [Machine.step, hem, s'], ⟨hl, ?_, ?_, ?_, hs.depth, ?_, ?_⟩, ?_⟩
    · intro a ha
      have hga := hs.active a ha
      rw [hg a, if_neg (hlt a _ hga), hga]
      rfl
    · intro a n ha hn
      rw [hg a] at hn
      split_ifs at hn with hac
      · exact (Option.some.inj hn).symm
      · exact hs.idle a n ha hn
    · intro f hf t ht
      obtain ⟨x, hx, -, -⟩ := hs.guarded f hf
      have hfc := hlt f.curr x.refCount (by simp [Emitter.guards, hx])
      simp only [s'] at ht
      by_cases hts : t = symbol
      · subst hts
        rw [Function.update_self, List.mem_append, List.mem_singleton] at ht
        exact hs.home f hf t (ht.resolve_right hfc)
      · rw [Function.update_of_ne hts] at ht
        exact hs.home f hf t ht
    · intro d hd
      rw [hdel] at hd
      obtain ⟨hz, hlt', hnone⟩ := hs.deleted d hd
      refine ⟨hz, by rw [hcr]; omega, ?_⟩
      rw [hg d.1, if_neg (by omega)]
      exact hnone
    · rw [hdel]
      exact hs.once
    · simp [Machine.dispatch, Dispatch.step, hcr, s']
  | off symbol iter =>
    by_cases hk : iter ∈ s.registry symbol
    · obtain ⟨em, hem, hl, hrem⟩ := off_spec hs.linked symbol iter hk
      refine ⟨_, by simp only [Machine.step, hem, Option.map_some, if_pos hk],
        hs.removes em [iter] _ (s.stack.map fun f => (f.forget symbol [iter]).detach iter) hl hrem
          ?_ ?_, ?_⟩
      · simp [Machine.currs, Function.comp_def]
      · intro f hf t ht
        obtain ⟨g, hg, rfl⟩ := List.mem_map.mp hf
        simp only [Frame.detach_curr, Frame.forget_curr, Frame.detach_symbol,
          Frame.forget_symbol] at ht ⊢
        apply hs.home g hg t
        by_cases hts : t = symbol
        · subst hts
          rw [Function.update_self] at ht
          exact List.mem_of_mem_erase ht
        · rwa [Function.update_of_ne hts] at ht
      · simp [Machine.dispatch, Dispatch.step, hk, hrem.created]
    · exact ⟨s, by simp [Machine.step, off_absent hs.linked symbol iter hk, hk], hs,
        by simp [Machine.dispatch, Dispatch.step, hk]⟩
  | removeAllListeners symbol =>
    obtain ⟨em, hem, hl, hrem⟩ := removeAllListeners_spec hs.linked symbol
    refine ⟨_, by simp only [Machine.step, hem, Option.map_some],
      hs.removes em _ _ (s.stack.map (Frame.forget symbol (s.registry symbol))) hl hrem
        ?_ ?_, ?_⟩
    · simp [Machine.currs, Function.comp_def]
    · intro f hf t ht
      obtain ⟨g, hg, rfl⟩ := List.mem_map.mp hf
      simp only [Frame.forget_curr, Frame.forget_symbol] at ht ⊢
      apply hs.home g hg t
      by_cases hts : t = symbol
      · subst hts
        simp at ht
      · rwa [Function.update_of_ne hts] at ht
    · simp [Machine.dispatch, Dispatch.step, hrem.created]
  | clear =>
    obtain ⟨em, hem, hl, hrem, -⟩ := clear_spec hs.linked
    refine ⟨_, by simp only [Machine.step, hem, Option.map_some],
      hs.removes em _ _ (s.stack.map fun f => f.forget f.symbol (s.registry f.symbol)) hl hrem
        ?_ ?_, ?_⟩
    · simp [Machine.currs, Function.comp_def]
    · intro f _ t ht
      simp at ht
    · simp [Machine.dispatch, Dispatch.step, hrem.created]
  | emit symbol =>
    by_cases hd : s.stack.length < deleteFlag
    · have h := advance_refines hs hd ⟨s.registry symbol, [], [], false⟩ symbol
        (s.registry symbol) (fun _ h => h)
      have hhead : (s.em.events.lookup symbol).bind Root.head = (s.registry symbol).head? :=
        chain_head _ _ (hs.linked.chain symbol)
      have hd' : s.dispatch.stack.length < deleteFlag := hd
      simp only [Machine.step, Dispatch.step, if_pos hd, if_pos hd', Machine.emit, hhead]
      exact h
    · exact ⟨s, by simp [Machine.step, hd], hs, by simp [Machine.dispatch, Dispatch.step, hd]⟩
  | handlerReturns =>
    cases hst : s.stack with
    | nil => exact ⟨s, by simp [Machine.step, hst], hs, by simp [Machine.dispatch, Dispatch.step, hst]⟩
    | cons f rest =>
      simp only [Machine.step, hst]
      exact handlerReturns_refines hs f rest hst

end

/-- The pointer machine refines the list view over every run. -/
theorem run_refines (ls : List EmitterLabel) (s : Machine) (hs : Safe s) :
    Refines (run Machine.step s ls) (ls.foldl Dispatch.step s.dispatch) := by
  induction ls generalizing s with
  | nil => exact ⟨s, rfl, hs, rfl⟩
  | cons l ls ih =>
    obtain ⟨t, ht, hst, hd⟩ := step_refines hs l
    rw [run_cons, ht, List.foldl_cons, ← hd]
    exact ih t hst

/-- No call on an emitter ever touches a deleted handler. Each active emit is in an allocated
handler with a guard, and so is whatever it goes to next; nothing with a guard was deleted, and
nothing twice. -/
theorem active_handlers_stay_allocated (ls : List EmitterLabel) :
    ∃ s, run Machine.step Machine.init ls = some s ∧
      (∀ f ∈ s.stack, ∃ h, s.em.handlers f.curr = some h ∧ 0 < h.refCount ∧
        ∀ n, h.next = some n → ∃ h', s.em.handlers n = some h') ∧
      (∀ d ∈ s.em.deleted, d.2 = 0 ∧ s.em.handlers d.1 = none) ∧
      (s.em.deleted.map Prod.fst).Nodup := by
  obtain ⟨s, hrun, hs, -⟩ := run_refines ls Machine.init init_safe
  refine ⟨s, hrun, ?_, ?_, hs.once⟩
  · intro f hf
    obtain ⟨x, hx, -, hpos⟩ := hs.guarded f hf
    refine ⟨x, hx, hpos, ?_⟩
    intro n hn
    rw [hs.next_eq f hf x hx] at hn
    exact hs.next_allocated f.symbol n _ (following_subset _ _) hn
  · intro d hd
    obtain ⟨hz, -, hnone⟩ := hs.deleted d hd
    exact ⟨hz, Option.map_eq_none_iff.mp hnone⟩

end Libnodecc.Events
