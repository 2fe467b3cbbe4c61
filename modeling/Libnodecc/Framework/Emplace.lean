import Mathlib.Data.List.Basic
import Mathlib.Logic.Function.Basic

namespace Libnodecc

variable {κ ν ι : Type*}

section
variable [DecidableEq κ]

/-- `unordered_map::emplace`: a key that is there keeps its value. -/
def emplace (m : κ → Option ν) (k : κ) (v : ν) : κ → Option ν :=
  if (m k).isSome then m else Function.update m k (some v)

def emplaceAll (m : κ → Option ν) (calls : List (κ × ν)) : κ → Option ν :=
  calls.foldl (fun m c => emplace m c.1 c.2) m

def firstSet (calls : List (κ × ν)) (k : κ) : Option ν :=
  (calls.find? fun c => c.1 = k).map Prod.snd

theorem emplace_apply (m : κ → Option ν) (k a : κ) (v : ν) :
    emplace m k v a = (m a).or (if k = a then some v else none) := by
  unfold emplace
  cases hk : m k with
  | some w =>
    rw [Option.isSome_some, if_pos rfl]
    by_cases ha : k = a
    · rw [← ha, hk]
      rfl
    · rw [if_neg ha, Option.or_none]
  | none =>
    rw [Option.isSome_none, if_neg Bool.false_ne_true]
    by_cases ha : k = a
    · rw [← ha, Function.update_self, hk, if_pos rfl]
      rfl
    · rw [Function.update_of_ne (Ne.symm ha), if_neg ha, Option.or_none]

theorem emplaceAll_apply (calls : List (κ × ν)) (m : κ → Option ν) (a : κ) :
    emplaceAll m calls a = (m a).or (firstSet calls a) := by
  induction calls generalizing m with
  | nil => simp [emplaceAll, firstSet]
  | cons c calls ih =>
    show emplaceAll (emplace m c.1 c.2) calls a = _
    rw [ih, emplace_apply, Option.or_assoc]
    by_cases hc : c.1 = a
    · simp [firstSet, hc]
    · simp [firstSet, hc]

theorem emplaceAll_empty (calls : List (κ × ν)) (a : κ) :
    emplaceAll (fun _ => none) calls a = firstSet calls a := by
  rw [emplaceAll_apply, Option.none_or]

theorem firstSet_cons (c : κ × ν) (calls : List (κ × ν)) (k : κ) :
    firstSet (c :: calls) k = if c.1 = k then some c.2 else firstSet calls k := by
  unfold firstSet
  by_cases hk : c.1 = k
  · rw [if_pos hk, List.find?_cons_of_pos (by simpa using hk)]
    rfl
  · rw [if_neg hk, List.find?_cons_of_neg (by simpa using hk)]

theorem firstSet_mem {calls : List (κ × ν)} {k : κ} {v : ν} (h : firstSet calls k = some v) :
    (k, v) ∈ calls := by
  obtain ⟨c, hc, rfl⟩ := Option.map_eq_some_iff.mp h
  obtain rfl : c.1 = k := by simpa using List.find?_some hc
  exact List.mem_of_find?_eq_some hc

theorem firstSet_isSome (calls : List (κ × ν)) (k : κ) :
    (firstSet calls k).isSome ↔ ∃ c ∈ calls, c.1 = k := by
  simp [firstSet]

section
variable {α : Type*} (call : α → κ × ν) (own : α → Bool)

/-- Besides `wanted` there are calls of others; each of those comes after a call with its key, or
gives the key the value it has in `wanted`. -/
def Harmless (wanted : List (κ × ν)) : List κ → List α → Prop
  | _, [] => True
  | seen, a :: as =>
    (own a ∨ (call a).1 ∈ seen ∨ firstSet wanted (call a).1 = some (call a).2) ∧
      Harmless wanted ((call a).1 :: seen) as

instance decidableHarmless [DecidableEq ν] (wanted : List (κ × ν)) :
    ∀ (seen : List κ) (as : List α), Decidable (Harmless call own wanted seen as)
  | _, [] => isTrue trivial
  | seen, a :: as =>
    have := decidableHarmless wanted ((call a).1 :: seen) as
    inferInstanceAs (Decidable (_ ∧ _))

/-- The calls of others do not show if and only if they are harmless. -/
theorem harmless_iff (wanted : List (κ × ν)) (seen : List κ) (as : List α)
    (h : ∀ k ∉ seen, firstSet wanted k = firstSet ((as.filter own).map call) k) :
    Harmless call own wanted seen as ↔
      ∀ k ∉ seen, firstSet (as.map call) k = firstSet wanted k := by
  induction as generalizing seen with
  | nil =>
    refine iff_of_true trivial fun k hk => ?_
    rw [h k hk]
    rfl
  | cons a as ih =>
    have hrest : ∀ k ∉ (call a).1 :: seen,
        firstSet wanted k = firstSet ((as.filter own).map call) k := by
      intro k hk
      obtain ⟨hne, hk⟩ := not_or.mp (fun hor => hk (List.mem_cons.mpr hor))
      rw [h k hk, List.filter_cons]
      split_ifs with hown
      · rw [List.map_cons, firstSet_cons, if_neg (Ne.symm hne)]
      · rfl
    rw [Harmless, ih ((call a).1 :: seen) hrest]
    have hown (ho : own a = true) (hnew : (call a).1 ∉ seen) :
        firstSet wanted (call a).1 = some (call a).2 := by
      rw [h _ hnew, List.filter_cons, if_pos ho, List.map_cons, firstSet_cons, if_pos rfl]
    constructor
    · intro ⟨hfirst, hall⟩ k hk
      rw [List.map_cons, firstSet_cons]
      split_ifs with hkey
      · subst hkey
        rcases hfirst with ho | hseen | hsame
        · exact (hown ho hk).symm
        · exact absurd hseen hk
        · exact hsame.symm
      · exact hall k (by simp [Ne.symm hkey, hk])
    · intro hall
      refine ⟨?_, fun k hk => ?_⟩
      · by_cases hseen : (call a).1 ∈ seen
        · exact .inr (.inl hseen)
        · have hfirst := hall _ hseen
          rw [List.map_cons, firstSet_cons, if_pos rfl] at hfirst
          exact .inr (.inr hfirst.symm)
      · obtain ⟨hne, hk⟩ := not_or.mp (fun hor => hk (List.mem_cons.mpr hor))
        rw [← hall k hk, List.map_cons, firstSet_cons, if_neg (Ne.symm hne)]

end

end

section
variable [DecidableEq ι]

/-- The value of the last call whose key goes by the name `i`. -/
def lastSet (name : κ → ι) (calls : List (κ × ν)) (i : ι) : Option ν :=
  (calls.reverse.find? fun c => name c.1 = i).map Prod.snd

theorem lastSet_eq_none (name : κ → ι) (calls : List (κ × ν)) (i : ι) :
    lastSet name calls i = none ↔ ∀ c ∈ calls, name c.1 ≠ i := by
  simp [lastSet]

theorem lastSet_mem (name : κ → ι) (calls : List (κ × ν)) (i : ι) (v : ν)
    (h : lastSet name calls i = some v) : ∃ c ∈ calls, name c.1 = i := by
  by_contra hnone
  push Not at hnone
  rw [(lastSet_eq_none name calls i).mpr hnone] at h
  cases h

end

end Libnodecc
