import Mathlib.Data.List.Perm.Basic
import Libnodecc.Framework.Slots

namespace Libnodecc

variable {κ : Type*}

structure Shared (κ : Type*) where
  useCount : Nat
  content : κ
  deriving DecidableEq

/-- How a shared thing is counted, and what is done to it with its last reference. -/
structure Disposal (κ : Type*) where
  limit : Nat
  alive : κ → Bool
  dispose : κ → κ

namespace Disposal

variable (d : Disposal κ)

/-- A call on the shared thing `b`; `none` is one that is not there or was disposed of. -/
def update (cells : List (Shared κ)) (b : Nat) (f : Shared κ → Shared κ) :
    Option (List (Shared κ)) :=
  cells[b]?.bind fun c => if d.alive c.content then some (cells.set b (f c)) else none

def increment (c : Shared κ) : Shared κ := { c with useCount := (c.useCount + 1) % d.limit }

def decrement (c : Shared κ) : Shared κ :=
  if c.useCount = 1 then ⟨0, d.dispose c.content⟩
  else { c with useCount := (c.useCount + (d.limit - 1)) % d.limit }

def retain (cells : List (Shared κ)) : Option Nat → Option (List (Shared κ))
  | none => some cells
  | some b => d.update cells b d.increment

def release (cells : List (Shared κ)) : Option Nat → Option (List (Shared κ))
  | none => some cells
  | some b => d.update cells b d.decrement

/-- With references a thing is alive and counts them; without any it was disposed of, once. -/
def Fits (c : Shared κ) (n : Nat) : Prop :=
  c.useCount = n ∧ if n = 0 then ∃ k, d.alive k ∧ c.content = d.dispose k else d.alive c.content

/-- The references in `owners` are all there are. -/
structure Balanced (cells : List (Shared κ)) (owners : List (Option Nat)) : Prop where
  valid : ∀ b, some b ∈ owners → b < cells.length
  fits : ∀ b c, cells[b]? = some c → d.Fits c (holders owners b)

namespace Balanced

variable {d} {cells : List (Shared κ)} {owners : List (Option Nat)}

theorem perm {owners' : List (Option Nat)} (h : d.Balanced cells owners)
    (hp : owners.Perm owners') : d.Balanced cells owners' := by
  constructor
  · intro b hb
    exact h.valid b (hp.mem_iff.mpr hb)
  · intro b c hc
    have hcount : holders owners' b = holders owners b := (hp.count_eq (some b)).symm
    rw [hcount]
    exact h.fits b c hc

theorem none_cons : d.Balanced cells (none :: owners) ↔ d.Balanced cells owners := by
  constructor
  · intro h
    refine ⟨fun b hb => h.valid b (List.mem_cons_of_mem _ hb), ?_⟩
    intro b c hc
    have hfits := h.fits b c hc
    rw [holders_cons] at hfits
    exact hfits
  · intro h
    refine ⟨fun b hb => h.valid b (by simpa using hb), ?_⟩
    intro b c hc
    rw [holders_cons]
    exact h.fits b c hc

theorem held (h : d.Balanced cells owners) (b : Nat) (hb : some b ∈ owners) :
    ∃ c, cells[b]? = some c ∧ c.useCount = holders owners b ∧ d.alive c.content ∧
      ∀ f, d.update cells b f = some (cells.set b (f c)) := by
  have hlt := h.valid b hb
  have hget : cells[b]? = some cells[b] := List.getElem?_eq_getElem hlt
  have hpos : 0 < holders owners b := List.count_pos_iff.mpr hb
  obtain ⟨hcount, halive⟩ := h.fits b cells[b] hget
  rw [if_neg (by omega)] at halive
  refine ⟨cells[b], hget, hcount, halive, ?_⟩
  intro f
  rw [update, hget, Option.bind_some, if_pos halive]

/-- Storing back a thing whose references are now those in `owners'`. -/
theorem set (h : d.Balanced cells owners) (b : Nat) (c : Shared κ) (owners' : List (Option Nat))
    (hvalid : ∀ a, some a ∈ owners' → a < cells.length) (hfit : d.Fits c (holders owners' b))
    (hother : ∀ a, a ≠ b → holders owners' a = holders owners a) :
    d.Balanced (cells.set b c) owners' := by
  constructor
  · intro a ha
    rw [List.length_set]
    exact hvalid a ha
  · intro a x hx
    rw [List.getElem?_set] at hx
    split_ifs at hx with hba hlt
    · cases hx
      rw [← hba]
      exact hfit
    · rw [hother a (Ne.symm hba)]
      exact h.fits a x hx

/-- One more reference, copied from one that is there. -/
theorem retain (h : d.Balanced cells owners) (p : Option Nat) (hp : p.isSome → p ∈ owners)
    (hroom : owners.length + 1 < d.limit) :
    ∃ cells', d.retain cells p = some cells' ∧ d.Balanced cells' (p :: owners) := by
  cases p with
  | none => exact ⟨cells, rfl, none_cons.mpr h⟩
  | some b =>
    have hb : some b ∈ owners := hp rfl
    obtain ⟨c, hget, hcount, halive, hup⟩ := h.held b hb
    refine ⟨_, hup d.increment, h.set b _ _ ?_ ?_ ?_⟩
    · intro a ha
      rcases List.mem_cons.mp ha with ha | ha
      · exact h.valid a (ha ▸ hb)
      · exact h.valid a ha
    · have hle : holders owners b ≤ owners.length := List.count_le_length
      rw [holders_cons, if_pos rfl]
      constructor
      · change (c.useCount + 1) % d.limit = holders owners b + 1
        rw [hcount]
        exact Nat.mod_eq_of_lt (by omega)
      · rw [if_neg (by omega)]
        exact halive
    · intro a ha
      simp [holders_cons, Ne.symm ha]

/-- One reference less; nothing else is disposed of than what it was the last reference to. -/
theorem release {p : Option Nat} (h : d.Balanced cells (p :: owners))
    (hroom : owners.length + 1 < d.limit) :
    ∃ cells', d.release cells p = some cells' ∧ d.Balanced cells' owners := by
  cases p with
  | none => exact ⟨cells, rfl, none_cons.mp h⟩
  | some b =>
    obtain ⟨c, hget, hcount, halive, hup⟩ := h.held b (by simp)
    rw [holders_cons, if_pos rfl] at hcount
    refine ⟨_, hup d.decrement, h.set b _ _ ?_ ?_ ?_⟩
    · intro a ha
      exact h.valid a (List.mem_cons_of_mem _ ha)
    · by_cases hlast : holders owners b = 0
      · rw [hlast] at hcount
        rw [decrement, if_pos hcount, hlast]
        exact ⟨rfl, c.content, halive, rfl⟩
      · have hle : holders owners b ≤ owners.length := List.count_le_length
        rw [decrement, if_neg (by omega)]
        constructor
        · change (c.useCount + (d.limit - 1)) % d.limit = holders owners b
          have hsum : c.useCount + (d.limit - 1) = holders owners b + d.limit := by omega
          rw [hsum, Nat.add_mod_right]
          exact Nat.mod_eq_of_lt (by omega)
        · rw [if_neg hlast]
          exact halive
    · intro a ha
      simp [holders_cons, Ne.symm ha]

/-- A new thing and the first reference to it. -/
theorem fresh (h : d.Balanced cells owners) (k : κ) (hk : d.alive k) :
    d.Balanced (cells ++ [⟨1, k⟩]) (some cells.length :: owners) := by
  constructor
  · intro b hb
    rw [List.length_append, List.length_singleton]
    rcases List.mem_cons.mp hb with hb | hb
    · cases hb
      exact Nat.lt_add_one _
    · exact Nat.lt_add_right 1 (h.valid b hb)
  · intro b c hc
    rw [holders_cons]
    rcases getElem?_concat_cases hc with ⟨hlt, hc⟩ | ⟨rfl, rfl⟩
    · have hne : some cells.length ≠ some b := by
        simp only [ne_eq, Option.some.injEq]
        omega
      rw [if_neg hne]
      exact h.fits b c hc
    · -- nobody refers to a thing that is not there yet
      have hnone : holders owners cells.length = 0 :=
        List.count_eq_zero.mpr fun hm => absurd (h.valid _ hm) (Nat.lt_irrefl _)
      rw [hnone, if_pos rfl]
      exact ⟨rfl, hk⟩

end Balanced

section
variable {d} {ι : Type*} {f : κ → ι} {cells cells' : List (Shared κ)} {p : Option Nat}

theorem update_map (b : Nat) (g : Shared κ → Shared κ) (hg : ∀ c, f (g c).content = f c.content)
    (h : d.update cells b g = some cells') :
    cells'.map (fun c => f c.content) = cells.map fun c => f c.content := by
  obtain ⟨c, hget, hset⟩ := Option.bind_eq_some_iff.mp h
  split_ifs at hset
  cases hset
  rw [List.map_set, hg]
  apply List.ext_getElem?
  intro a
  rw [List.getElem?_set]
  split_ifs with hba hlt
  · subst hba
    simp [hget]
  · subst hba
    rw [List.length_map] at hlt
    simp [hlt]
  · rfl

theorem retain_map (h : d.retain cells p = some cells') :
    cells'.map (fun c => f c.content) = cells.map fun c => f c.content := by
  cases p with
  | none =>
    cases h
    rfl
  | some b => exact update_map b d.increment (fun _ => rfl) h

theorem release_map (hf : ∀ k, f (d.dispose k) = f k) (h : d.release cells p = some cells') :
    cells'.map (fun c => f c.content) = cells.map fun c => f c.content := by
  cases p with
  | none =>
    cases h
    rfl
  | some b =>
    refine update_map b d.decrement ?_ h
    intro c
    rw [decrement]
    split_ifs
    · exact hf c.content
    · rfl

end

end Disposal

end Libnodecc
