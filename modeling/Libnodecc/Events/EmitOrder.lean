import Libnodecc.Events.Dispatch

namespace Libnodecc.Events

/-- The handlers an emit owes a call: registered when it started and not removed before. -/
def Emission.due (e : Emission) : List Nat := e.start.filter (· ∉ e.removed)

def Emission.served (e : Emission) : List Nat := e.called.filter (· ∈ e.start)

/-- An emit that still has the handlers `l` before it. -/
structure Pending (e : Emission) (l : List Nat) (created : Nat) : Prop where
  nodup : e.called.Nodup
  known : ∀ a, a ∈ e.start ∨ a ∈ e.called → a < created
  ahead : ∀ a ∈ l, a ∉ e.called
  order : e.detached = false → e.due = e.served ++ l.filter (· ∈ e.start)
  cut : e.detached = true → l = [] ∧ e.served <+: e.due

structure Done (e : Emission) : Prop where
  nodup : e.called.Nodup
  complete : e.detached = false → e.served = e.due
  ordered : e.served <+: e.due

section
variable {e : Emission} {l : List Nat} {created : Nat}

theorem Pending.finish (h : Pending e [] created) : Done e := by
  have hc (hd : e.detached = false) : e.served = e.due := by simpa using (h.order hd).symm
  refine ⟨h.nodup, hc, ?_⟩
  cases hd : e.detached with
  | false => exact ⟨[], by simpa using hc hd⟩
  | true => exact (h.cut hd).2

theorem Pending.call (c : Nat) (h : Pending e (c :: l) created) (hcl : c ∉ l) (hc : c < created) :
    Pending { e with called := e.called ++ [c] } l created := by
  have hnew : c ∉ e.called := h.ahead c (by simp)
  refine ⟨?_, ?_, ?_, ?_, ?_⟩
  · refine List.nodup_append.mpr ⟨h.nodup, by simp, ?_⟩
    intro a ha b hb hab
    obtain rfl : b = c := by simpa using hb
    exact hnew (hab ▸ ha)
  · intro a ha
    rcases ha with ha | ha
    · exact h.known a (.inl ha)
    · rcases List.mem_append.mp ha with ha | ha
      · exact h.known a (.inr ha)
      · obtain rfl : a = c := by simpa using ha
        exact hc
  · intro a ha hm
    rcases List.mem_append.mp hm with hm | hm
    · exact h.ahead a (by simp [ha]) hm
    · obtain rfl : a = c := by simpa using hm
      exact hcl ha
  · intro hd
    have ho := h.order hd
    simp only [Emission.due, Emission.served] at ho ⊢
    rw [← List.singleton_append, List.filter_append] at ho
    rw [ho, List.filter_append, List.append_assoc]
  · intro hd
    exact absurd (h.cut hd).1 (by simp)

/-- Handlers that are removed before their turn are owed no call any more. -/
theorem Pending.forget (ks : List Nat) (h : Pending e l created) :
    Pending { e with removed := e.removed ++ ks.filter (· ∉ e.called) } (l.filter (· ∉ ks))
      created := by
  let keep (a : Nat) : Bool := decide (a ∉ ks ∨ a ∈ e.called)
  let e' : Emission := { e with removed := e.removed ++ ks.filter (· ∉ e.called) }
  have hdue : e'.due = e.due.filter keep := by
    rw [Emission.due, Emission.due, List.filter_filter]
    apply List.filter_congr
    intro a _
    by_cases h1 : a ∈ ks <;> by_cases h2 : a ∈ e.called <;> by_cases h3 : a ∈ e.removed <;>
      simp [keep, e', h1, h2, h3]
  have hserved : e.served.filter keep = e.served := by
    apply List.filter_eq_self.mpr
    intro a ha
    have hm := List.mem_of_mem_filter ha
    simp [keep, hm]
  have hahead : (l.filter (· ∈ e.start)).filter keep =
      (l.filter (· ∉ ks)).filter (· ∈ e.start) := by
    rw [List.filter_filter, List.filter_filter]
    apply List.filter_congr
    intro a ha
    have hn := h.ahead a ha
    by_cases h1 : a ∈ ks <;> by_cases h2 : a ∈ e.start <;> simp [keep, h1, h2, hn]
  refine ⟨h.nodup, h.known, ?_, ?_, ?_⟩
  · intro a ha
    exact h.ahead a (List.mem_of_mem_filter ha)
  · intro hd
    change e'.due = e.served ++ _
    rw [hdue, h.order hd, List.filter_append, hserved, hahead]
  · intro hd
    obtain ⟨hnil, hpre⟩ := h.cut hd
    refine ⟨by rw [hnil]; rfl, ?_⟩
    change e.served <+: e'.due
    rw [hdue, ← hserved]
    exact hpre.filter keep

/-- A handler registered meanwhile is not one the emit started with. -/
theorem Pending.push (h : Pending e l created) (hd : e.detached = false) :
    Pending e (l ++ [created]) (created + 1) := by
  refine ⟨h.nodup, fun a ha => Nat.lt_succ_of_lt (h.known a ha), ?_, ?_, ?_⟩
  · intro a ha hm
    rcases List.mem_append.mp ha with ha | ha
    · exact h.ahead a ha hm
    · obtain rfl : a = created := by simpa using ha
      exact Nat.lt_irrefl _ (h.known a (.inr hm))
  · intro hd
    have hnew : created ∉ e.start := fun hm => Nat.lt_irrefl _ (h.known created (.inl hm))
    rw [h.order hd, List.filter_append]
    simp [hnew]
  · intro hd'
    rw [hd] at hd'
    cases hd'

theorem Pending.mono (h : Pending e l created) (created' : Nat) (hc : created ≤ created') :
    Pending e l created' :=
  ⟨h.nodup, fun a ha => Nat.lt_of_lt_of_le (h.known a ha) hc, h.ahead, h.order, h.cut⟩

theorem Pending.detach (h : Pending e l created) :
    Pending { e with detached := true } [] created := by
  refine ⟨h.nodup, h.known, by simp, by simp, ?_⟩
  intro _
  refine ⟨rfl, ?_⟩
  cases hd : e.detached with
  | false =>
    change e.served <+: e.due
    rw [h.order hd]
    exact List.prefix_append _ _
  | true => exact (h.cut hd).2

end

theorem following_push (l : List Nat) (a n : Nat) (ha : a ∈ l) :
    following (l ++ [n]) a = following l a ++ [n] := by
  induction l with
  | nil => cases ha
  | cons b l ih =>
    by_cases hb : b = a
    · simp [following, hb]
    · have hm : a ∈ l := by
        rcases List.mem_cons.mp ha with he | hm
        · exact absurd he.symm hb
        · exact hm
      simpa [following, hb] using ih hm

theorem following_filter (l : List Nat) (a : Nat) (p : Nat → Bool) (hn : l.Nodup)
    (hp : p a = true) : following (l.filter p) a = (following l a).filter p := by
  by_cases ha : a ∈ l
  · obtain ⟨pre, post, rfl⟩ := List.append_of_mem ha
    have hpre : a ∉ pre := fun hm => (List.nodup_append.mp hn).2.2 a hm a (by simp) rfl
    rw [following_split pre post a hpre, List.filter_append, List.filter_cons_of_pos hp]
    exact following_split _ _ a (fun hm => hpre (List.mem_of_mem_filter hm))
  · rw [following_absent l a ha]
    exact following_absent _ a (fun hm => ha (List.mem_of_mem_filter hm))

structure Orderly (d : Dispatch) (f : Frame) : Prop where
  called : f.curr ∈ f.called
  pending : Pending f.toEmission (following (d.registry f.symbol) f.curr) d.created
  apart : f.detached = true → f.curr ∉ d.registry f.symbol

/-- The order every emit keeps, at any depth. -/
structure Ordered (d : Dispatch) : Prop where
  active : ∀ f ∈ d.stack, Orderly d f
  done : ∀ e ∈ d.finished, Done e

/-- What the pointer lists promise to the list view. -/
structure Regular (d : Dispatch) : Prop where
  nodup : ∀ symbol, (d.registry symbol).Nodup
  known : ∀ symbol, ∀ a ∈ d.registry symbol, a < d.created
  home : ∀ f ∈ d.stack, ∀ symbol, f.curr ∈ d.registry symbol → symbol = f.symbol

theorem Safe.regular {s : Machine} (hs : Safe s) : Regular s.dispatch :=
  ⟨hs.linked.nodup, hs.linked.lt_created, hs.home⟩

section
variable {d d' : Dispatch} {f : Frame}

theorem Orderly.congr (h : Orderly d f) (hreg : d'.registry f.symbol = d.registry f.symbol)
    (hc : d.created ≤ d'.created) : Orderly d' f := by
  refine ⟨h.called, ?_, ?_⟩
  · rw [hreg]
    exact h.pending.mono d'.created hc
  · rw [hreg]
    exact h.apart

theorem Orderly.forget (h : Orderly d f) (ks : List Nat) (hc : d'.created = d.created)
    (hreg : d'.registry f.symbol = (d.registry f.symbol).filter (· ∉ ks))
    (hfol : following (d'.registry f.symbol) f.curr =
      (following (d.registry f.symbol) f.curr).filter (· ∉ ks)) :
    Orderly d' (f.forget f.symbol ks) := by
  rw [Frame.forget, if_pos rfl]
  refine ⟨h.called, ?_, ?_⟩
  · simp only [hfol, hc]
    exact h.pending.forget ks
  · intro hd hm
    rw [hreg] at hm
    exact h.apart hd (List.mem_of_mem_filter hm)

/-- `off` as one emit sees it. -/
theorem Orderly.off (h : Orderly d f) (symbol k : Nat) (hn : (d.registry symbol).Nodup)
    (hhome : ∀ t, f.curr ∈ d.registry t → t = f.symbol) (hk : k ∈ d.registry symbol)
    (hc : d'.created = d.created)
    (hreg : d'.registry = Function.update d.registry symbol ((d.registry symbol).erase k)) :
    Orderly d' ((f.forget symbol [k]).detach k) := by
  by_cases hs : f.symbol = symbol
  · subst hs
    have hreg' : d'.registry f.symbol = (d.registry f.symbol).filter (· ∉ [k]) := by
      rw [hreg, Function.update_self, hn.erase_eq_filter]
      apply List.filter_congr
      intro a _
      by_cases ha : a = k <;> simp [ha]
    by_cases hfk : f.curr = k
    · -- the emit is in the handler: it is not removed before its turn, but cut off
      subst hfk
      have hself : f.forget f.symbol [f.curr] = f := by
        rw [Frame.forget, if_pos rfl, List.filter_cons_of_neg (by simpa using h.called)]
        simp
      have hgone : f.curr ∉ d'.registry f.symbol := by simp [hreg']
      rw [hself, Frame.detach, if_pos rfl]
      refine ⟨h.called, ?_, fun _ => hgone⟩
      simp only [following_absent _ _ hgone, hc]
      exact h.pending.detach
    · have hf := h.forget [k] hc hreg' (by
        rw [hreg']
        exact following_filter _ _ _ hn (by simpa using hfk))
      rwa [Frame.detach, if_neg (by simpa using hfk)]
  · have hfk : f.curr ≠ k := fun he => hs (hhome symbol (he ▸ hk)).symm
    rw [Frame.forget, if_neg hs, Frame.detach, if_neg hfk]
    apply h.congr _ (Nat.le_of_eq hc.symm)
    rw [hreg, Function.update_of_ne hs]

/-- The next handler is called, or the emit is done. -/
theorem Ordered.advance (h : Ordered d) (hr : Regular d) (e : Emission) (symbol : Nat)
    (pre l : List Nat) (hreg : d.registry symbol = pre ++ l) (hp : Pending e l d.created) :
    Ordered (d.advance e symbol l.head?) := by
  have keep (g : Frame) (d' : Dispatch) (hg : g ∈ d.stack) (h1 : d'.registry = d.registry)
      (h2 : d'.created = d.created) : Orderly d' g :=
    (h.active g hg).congr (by rw [h1]) (Nat.le_of_eq h2.symm)
  cases l with
  | nil =>
    refine ⟨fun g hg => keep g _ hg rfl rfl, ?_⟩
    intro x hx
    rcases List.mem_append.mp hx with hx | hx
    · exact h.done x hx
    · obtain rfl : x = e := by simpa using hx
      exact hp.finish
  | cons c l =>
    refine ⟨?_, h.done⟩
    intro g hg
    rcases List.mem_cons.mp hg with rfl | hg
    · have hn := hr.nodup symbol
      rw [hreg, List.nodup_append, List.nodup_cons] at hn
      have hpre : c ∉ pre := fun hm => hn.2.2 c hm c (by simp) rfl
      have hlt := hr.known symbol c (by simp [hreg])
      refine ⟨by simp, ?_, ?_⟩
      · simp only [Dispatch.advance, List.head?_cons, hreg, following_split pre l c hpre]
        exact hp.call c hn.2.1.1 hlt
      · intro hd
        exact absurd (hp.cut hd).1 (by simp)
    · exact keep g _ hg rfl rfl

theorem Orderly.forget_all (h : Orderly d f) (hc : d'.created = d.created)
    (hreg : d'.registry f.symbol = []) :
    Orderly d' (f.forget f.symbol (d.registry f.symbol)) := by
  have hnil (l : List Nat) (hl : l ⊆ d.registry f.symbol) :
      l.filter (· ∉ d.registry f.symbol) = [] := by
    apply List.filter_eq_nil_iff.mpr
    intro a ha
    simpa using hl ha
  apply h.forget (d.registry f.symbol) hc
  · rw [hreg, hnil _ (fun _ ha => ha)]
  · rw [hreg, hnil _ (following_subset _ _)]
    rfl

/-- `on` as one emit sees it. -/
theorem Orderly.on (h : Orderly d f) (symbol : Nat) : Orderly (d.step (.on symbol)) f := by
  by_cases hsym : f.symbol = symbol
  · subst hsym
    have hreg : (d.step (.on f.symbol)).registry f.symbol = d.registry f.symbol ++ [d.created] :=
      Function.update_self _ _ _
    by_cases hm : f.curr ∈ d.registry f.symbol
    · have hd : f.detached = false := by
        by_contra hne
        exact h.apart (by simpa using hne) hm
      refine ⟨h.called, ?_, fun hne => absurd hd (by simp [hne])⟩
      rw [hreg, following_push _ _ _ hm]
      exact h.pending.push hd
    · have hne : f.curr ≠ d.created := Nat.ne_of_lt (h.pending.known f.curr (.inr h.called))
      have hm' : f.curr ∉ (d.step (.on f.symbol)).registry f.symbol := by
        rw [hreg]
        simp [hm, hne]
      have hp := h.pending.mono (d.created + 1) (Nat.le_succ _)
      rw [following_absent _ _ hm] at hp
      refine ⟨h.called, ?_, fun _ => hm'⟩
      rw [following_absent _ _ hm']
      exact hp
  · apply h.congr
    · simp [Dispatch.step, hsym]
    · exact Nat.le_succ _

/-- Each call on the emitter keeps the order of every active emit. -/
theorem step_ordered (h : Ordered d) (hr : Regular d) (l : EmitterLabel) :
    Ordered (d.step l) := by
  cases l with
  | on symbol => exact ⟨fun f hf => (h.active f hf).on symbol, h.done⟩
  | off symbol iter =>
    by_cases hk : iter ∈ d.registry symbol
    · simp only [Dispatch.step, if_pos hk]
      refine ⟨?_, h.done⟩
      intro f hf
      obtain ⟨g, hg, rfl⟩ := List.mem_map.mp hf
      exact (h.active g hg).off symbol iter (hr.nodup symbol) (hr.home g hg) hk rfl rfl
    · simp only [Dispatch.step, if_neg hk]
      exact h
  | removeAllListeners symbol =>
    refine ⟨?_, h.done⟩
    intro f hf
    obtain ⟨g, hg, rfl⟩ := List.mem_map.mp hf
    by_cases hsym : g.symbol = symbol
    · subst hsym
      exact (h.active g hg).forget_all rfl (Function.update_self _ _ _)
    · rw [Frame.forget, if_neg hsym]
      exact (h.active g hg).congr (Function.update_of_ne hsym _ _) (Nat.le_refl _)
  | clear =>
    refine ⟨?_, h.done⟩
    intro f hf
    obtain ⟨g, hg, rfl⟩ := List.mem_map.mp hf
    exact (h.active g hg).forget_all rfl rfl
  | emit symbol =>
    by_cases hd : d.stack.length < deleteFlag
    · simp only [Dispatch.step, if_pos hd]
      apply h.advance hr _ symbol [] _ rfl
      refine ⟨by simp, ?_, by simp, ?_, by simp⟩
      · intro a ha
        exact hr.known symbol a (ha.resolve_right (by simp))
      · intro _
        have hall : (d.registry symbol).filter (· ∈ d.registry symbol) = d.registry symbol :=
          List.filter_eq_self.mpr (by simp)
        simpa [Emission.due, Emission.served] using hall.symm
    · simp only [Dispatch.step, if_neg hd]
      exact h
  | handlerReturns =>
    cases hst : d.stack with
    | nil =>
      simp only [Dispatch.step, hst]
      exact h
    | cons f rest =>
      have hsub (g : Frame) (hg : g ∈ rest) : g ∈ d.stack := by simp [hst, hg]
      have hrest : Ordered { d with stack := rest } :=
        ⟨fun g hg => (h.active g (hsub g hg)).congr rfl (Nat.le_refl _), h.done⟩
      have hr' : Regular { d with stack := rest } :=
        ⟨hr.nodup, hr.known, fun g hg => hr.home g (hsub g hg)⟩
      obtain ⟨pre, hpre⟩ : ∃ pre, pre ++ following (d.registry f.symbol) f.curr =
          d.registry f.symbol :=
        (List.tail_suffix _).trans (List.dropWhile_suffix _)
      simp only [Dispatch.step, hst]
      exact hrest.advance hr' f.toEmission f.symbol pre _ hpre.symm
        (h.active f (by simp [hst])).pending

end

theorem run_ordered (ls : List EmitterLabel) (s : Machine) (hs : Safe s)
    (h : Ordered s.dispatch) :
    ∃ t, run Machine.step s ls = some t ∧ Safe t ∧ Ordered t.dispatch := by
  induction ls generalizing s with
  | nil => exact ⟨s, rfl, hs, h⟩
  | cons l ls ih =>
    obtain ⟨t, ht, hst, hd⟩ := step_refines hs l
    obtain ⟨u, hu, hsu, ho⟩ := ih t hst (by rw [hd]; exact step_ordered h hs.regular l)
    exact ⟨u, by rw [run_cons, ht]; exact hu, hsu, ho⟩

/-- An emit calls the handlers it started with and that are not removed before their turn, each
once and in registration order. Only when the handler it is in is itself taken off does it end
early, with that handler. -/
theorem emit_calls_in_registration_order (ls : List EmitterLabel) :
    ∃ s, run Machine.step Machine.init ls = some s ∧
      (∀ e ∈ s.finished, e.called.Nodup ∧ (e.detached = false → e.served = e.due) ∧
        e.served <+: e.due) ∧
      ∀ f ∈ s.stack, f.detached = true → ∀ h, s.em.handlers f.curr = some h → h.next = none := by
  have hinit : Ordered Machine.init.dispatch := by
    rw [init_dispatch]
    exact ⟨by simp [Dispatch.init], by simp [Dispatch.init]⟩
  obtain ⟨s, hrun, hs, ho⟩ := run_ordered ls Machine.init init_safe hinit
  refine ⟨s, hrun, ?_, ?_⟩
  · intro e he
    have hd := ho.done e he
    exact ⟨hd.nodup, hd.complete, hd.ordered⟩
  · intro f hf hd h hh
    have hgone : f.curr ∉ s.registry f.symbol := (ho.active f hf).apart hd
    rw [hs.next_eq f hf h hh, following_absent _ _ hgone]
    rfl

/-- A handler that takes itself off ends the emit: the one behind it is not called. -/
theorem emit_ends_after_self_removal :
    ∃ s, run Machine.step Machine.init [.on 0, .on 0, .emit 0, .off 0 0, .handlerReturns] = some s ∧
      ∃ e ∈ s.finished, e.start = [0, 1] ∧ e.removed = [] ∧ e.called = [0] ∧ e.served ≠ e.due := by
  refine ⟨_, rfl, ⟨[0, 1], [0], [], true⟩, ?_, rfl, rfl, rfl, by decide⟩
  decide

end Libnodecc.Events
