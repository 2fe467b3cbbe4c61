import Mathlib.Data.Nat.Basic

namespace Libnodecc

section
variable {σ : Type*} (cond : σ → Prop) [DecidablePred cond] (body : σ → Option σ)

/-- `while (cond) body`, for at most `fuel - 1` passes; `none` also stands for a body that fails. -/
def whileSome : Nat → σ → Option σ
  | 0, _ => none
  | fuel + 1, s => if cond s then (body s).bind (whileSome fuel) else some s

variable {cond body}

theorem whileSome_done (I : Nat → σ → Prop) (n k fuel : Nat) (s : σ) (hk : k ≤ n)
    (hpass : ∀ j < n, ∀ s, I j s → cond s ∧ ∃ t, body s = some t ∧ I (j + 1) t)
    (hend : ∀ s, I n s → ¬ cond s) (hfuel : n - k < fuel) (hs : I k s) :
    ∃ t, whileSome cond body fuel s = some t ∧ I n t := by
  induction fuel generalizing k s with
  | zero => omega
  | succ fuel ih =>
    rw [whileSome]
    by_cases hkn : k = n
    · subst hkn
      exact ⟨s, if_neg (hend s hs), hs⟩
    · obtain ⟨hcond, t, ht, hI⟩ := hpass k (by omega) s hs
      rw [if_pos hcond, ht, Option.bind_some]
      exact ih (k + 1) t (by omega) (by omega) hI

theorem whileSome_endless (I : σ → Prop) (fuel : Nat) (s : σ)
    (hpass : ∀ s, I s → cond s ∧ ∀ t, body s = some t → I t) (hs : I s) :
    whileSome cond body fuel s = none := by
  induction fuel generalizing s with
  | zero => rfl
  | succ fuel ih =>
    obtain ⟨hcond, hnext⟩ := hpass s hs
    rw [whileSome, if_pos hcond]
    cases hbody : body s with
    | none => rfl
    | some t => exact ih t (hnext t hbody)

/-- A loop that comes to a pass that fails has no result, whatever the fuel. -/
theorem whileSome_stuck (I : Nat → σ → Prop) (n k fuel : Nat) (s : σ) (hk : k ≤ n)
    (hpass : ∀ j < n, ∀ s, I j s → cond s ∧ ∃ t, body s = some t ∧ I (j + 1) t)
    (hstuck : ∀ s, I n s → cond s ∧ body s = none) (hs : I k s) :
    whileSome cond body fuel s = none := by
  induction fuel generalizing k s with
  | zero => rfl
  | succ fuel ih =>
    rw [whileSome]
    by_cases hkn : k = n
    · subst hkn
      obtain ⟨hcond, hbody⟩ := hstuck s hs
      rw [if_pos hcond, hbody]
      rfl
    · obtain ⟨hcond, t, ht, hI⟩ := hpass k (by omega) s hs
      rw [if_pos hcond, ht, Option.bind_some]
      exact ih (k + 1) t (by omega) hI

end

end Libnodecc
