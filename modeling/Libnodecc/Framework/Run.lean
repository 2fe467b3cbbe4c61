import Mathlib.Data.List.Basic

namespace Libnodecc

variable {σ α : Type*}

/-- Runs a machine over a sequence of labels. `none` is a step whose behaviour is undefined. -/
def run (step : σ → α → Option σ) : σ → List α → Option σ
  | s, [] => some s
  | s, a :: as => (step s a).bind fun t => run step t as

/-- Every step of the run is taken in a state and with a label that satisfy `C`. -/
def Along (step : σ → α → Option σ) (C : σ → α → Prop) : σ → List α → Prop
  | _, [] => True
  | s, a :: as => C s a ∧ ∀ t, step s a = some t → Along step C t as

instance decidableAlong (step : σ → α → Option σ) (C : σ → α → Prop)
    [hC : ∀ s a, Decidable (C s a)] : ∀ (s : σ) (as : List α), Decidable (Along step C s as)
  | _, [] => isTrue trivial
  | s, a :: as =>
    match h : step s a with
    | none => decidable_of_iff (C s a) (by simp [Along, h])
    | some t =>
      have := decidableAlong step C t as
      decidable_of_iff (C s a ∧ Along step C t as) (by simp [Along, h])

section
variable (step : σ → α → Option σ)

@[simp] theorem run_nil (s : σ) : run step s [] = some s := rfl

@[simp] theorem run_cons (s : σ) (a : α) (as : List α) :
    run step s (a :: as) = (step s a).bind fun t => run step t as := rfl

theorem run_append (s : σ) (as bs : List α) :
    run step s (as ++ bs) = (run step s as).bind fun t => run step t bs := by
  induction as generalizing s with
  | nil => rfl
  | cons a as ih =>
    rw [List.cons_append, run_cons, run_cons, Option.bind_assoc]
    cases h : step s a with
    | none => rfl
    | some t => exact ih t

theorem run_append_eq_some (s t u : σ) (as bs : List α) (ha : run step s as = some t)
    (hb : run step t bs = some u) : run step s (as ++ bs) = some u := by
  rw [run_append, ha]
  exact hb

end

section
variable {step : σ → α → Option σ} {C D : σ → α → Prop}

theorem along_append (s : σ) (as bs : List α) :
    Along step C s (as ++ bs) ↔
      Along step C s as ∧ ∀ t, run step s as = some t → Along step C t bs := by
  induction as generalizing s with
  | nil => simp [Along]
  | cons a as ih =>
    simp only [List.cons_append, Along, run_cons]
    cases h : step s a with
    | none => simp
    | some t => simp [ih t, and_assoc]

theorem along_of_forall (h : ∀ s a, C s a) (s : σ) (as : List α) : Along step C s as := by
  induction as generalizing s with
  | nil => trivial
  | cons a as ih => exact ⟨h s a, fun t _ => ih t⟩

theorem along_total_cons {f : σ → α → σ} (s : σ) (a : α) (as : List α) :
    Along (fun s a => some (f s a)) C s (a :: as) ↔
      C s a ∧ Along (fun s a => some (f s a)) C (f s a) as := by
  simp [Along]

/-- The induction every safety result goes through: what each admitted step keeps, a run keeps. -/
theorem run_invariant (I : σ → Prop)
    (hI : ∀ s a t, I s → C s a → step s a = some t → I t)
    (as : List α) (s t : σ) (hs : I s) (hC : Along step C s as)
    (ht : run step s as = some t) : I t := by
  induction as generalizing s with
  | nil =>
    cases ht
    exact hs
  | cons a as ih =>
    obtain ⟨u, hu, ht⟩ := Option.bind_eq_some_iff.mp ht
    exact ih u (hI s a u hs hC.1 hu) (hC.2 u hu) ht

theorem along_invariant (I : σ → Prop)
    (hI : ∀ s a, I s → C s a → D s a ∧ ∀ t, step s a = some t → I t)
    (as : List α) (s : σ) (hs : I s) (hC : Along step C s as) : Along step D s as := by
  induction as generalizing s with
  | nil => trivial
  | cons a as ih =>
    obtain ⟨hD, hnext⟩ := hI s a hs hC.1
    exact ⟨hD, fun t ht => ih t (hnext t ht) (hC.2 t ht)⟩

/-- When `C` is exactly what a step needs to be defined and to keep `I`, a run meets `C` all along
if and only if everything it reaches is defined and in `I`. -/
theorem along_iff_reached (I : σ → Prop)
    (hI : ∀ s a, I s → (C s a ↔ ∃ t, step s a = some t ∧ I t))
    (as : List α) (s : σ) (hs : I s) :
    Along step C s as ↔ ∀ n, ∃ t, run step s (as.take n) = some t ∧ I t := by
  induction as generalizing s with
  | nil => exact iff_of_true trivial fun n => ⟨s, by simp, hs⟩
  | cons a as ih =>
    constructor
    · rintro ⟨hC, hnext⟩ n
      obtain ⟨t, ht, hIt⟩ := (hI s a hs).mp hC
      cases n with
      | zero => exact ⟨s, rfl, hs⟩
      | succ n =>
        obtain ⟨u, hu, hIu⟩ := (ih t hIt).mp (hnext t ht) n
        exact ⟨u, by simpa [ht] using hu, hIu⟩
    · intro h
      obtain ⟨t, ht, hIt⟩ := h 1
      simp only [List.take_succ_cons, List.take_zero, run_cons] at ht
      obtain ⟨u, hu, hut⟩ := Option.bind_eq_some_iff.mp ht
      obtain rfl : u = t := by simpa using hut
      refine ⟨(hI s a hs).mpr ⟨u, hu, hIt⟩, ?_⟩
      intro v hv
      obtain rfl : u = v := Option.some.inj (hu.symm.trans hv)
      refine (ih u hIt).mpr fun n => ?_
      obtain ⟨w, hw, hIw⟩ := h (n + 1)
      exact ⟨w, by simpa [hu] using hw, hIw⟩

/-- A run whose admitted steps are all defined is defined, and ends in the invariant. -/
theorem run_total (I : σ → Prop)
    (hI : ∀ s a, I s → C s a → ∃ t, step s a = some t ∧ I t)
    (as : List α) (s : σ) (hs : I s) (hC : Along step C s as) :
    ∃ t, run step s as = some t ∧ I t := by
  induction as generalizing s with
  | nil => exact ⟨s, rfl, hs⟩
  | cons a as ih =>
    obtain ⟨u, hu, hIu⟩ := hI s a hs hC.1
    obtain ⟨t, ht, hIt⟩ := ih u hIu (hC.2 u hu)
    exact ⟨t, by rw [run_cons, hu]; exact ht, hIt⟩

/-- A forward simulation: where each step of `spec` is matched by a step, each run of it is. -/
theorem run_simulates {τ : Type*} {spec : τ → α → Option τ} (R : σ → τ → Prop)
    (hR : ∀ s t a t', R s t → spec t a = some t' → ∃ s', step s a = some s' ∧ R s' t')
    (as : List α) (s : σ) (t t' : τ) (h : R s t) (ht : run spec t as = some t') :
    ∃ s', run step s as = some s' ∧ R s' t' := by
  induction as generalizing s t with
  | nil =>
    cases ht
    exact ⟨s, rfl, h⟩
  | cons a as ih =>
    obtain ⟨u, hu, hrest⟩ := Option.bind_eq_some_iff.mp ht
    obtain ⟨v, hv, hvu⟩ := hR s t a u h hu
    obtain ⟨s', hs', hend⟩ := ih v u hvu hrest
    exact ⟨s', by rw [run_cons, hv]; exact hs', hend⟩

end

section
variable {τ β : Type*}

/-- A run in the labels of another machine; there is none if a label has no counterpart. -/
def translation (step : σ → α → Option σ) (f : σ → α → Option (List β)) :
    σ → List α → Option (List β)
  | _, [] => some []
  | s, a :: as => (f s a).bind fun first =>
    (step s a).bind fun t => (translation step f t as).map fun rest => first ++ rest

/-- A simulation in other labels: where each admitted step is matched by a run, each run is. -/
theorem run_translation {step : σ → α → Option σ} {step' : τ → β → Option τ} {C : σ → α → Prop}
    (f : σ → α → Option (List β)) (R : σ → τ → Prop)
    (hR : ∀ s t a bs s', R s t → C s a → f s a = some bs → step s a = some s' →
      ∃ t', run step' t bs = some t' ∧ R s' t')
    (as : List α) (bs : List β) (s s' : σ) (t : τ) (h : R s t) (hC : Along step C s as)
    (hbs : translation step f s as = some bs) (hs' : run step s as = some s') :
    ∃ t', run step' t bs = some t' ∧ R s' t' := by
  induction as generalizing s t bs with
  | nil =>
    cases hbs
    cases hs'
    exact ⟨t, rfl, h⟩
  | cons a as ih =>
    obtain ⟨first, hfirst, hbs⟩ := Option.bind_eq_some_iff.mp hbs
    obtain ⟨u, hu, hbs⟩ := Option.bind_eq_some_iff.mp hbs
    obtain ⟨rest, hrest, rfl⟩ := Option.map_eq_some_iff.mp hbs
    rw [run_cons, hu, Option.bind_some] at hs'
    obtain ⟨v, hv, hnext⟩ := hR s t a first u h hC.1 hfirst hu
    obtain ⟨t', ht', hend⟩ := ih rest u v hnext (hC.2 u hu) hrest hs'
    exact ⟨t', run_append_eq_some _ _ _ _ _ _ hv ht', hend⟩

end

end Libnodecc
