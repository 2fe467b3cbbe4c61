import Mathlib.Data.List.Basic
import Mathlib.Data.List.Nodup

namespace Libnodecc

variable {α : Type*}

/-- The cells `l` lie one after another from pointer `p` up to pointer `q`. `next a` is the
successor stored in cell `a`, and `none` where there is no such cell. -/
def Segment (next : α → Option (Option α)) : Option α → List α → Option α → Prop
  | p, [], q => p = q
  | p, a :: l, q => p = some a ∧ ∃ r, next a = some r ∧ Segment next r l q

abbrev Chain (next : α → Option (Option α)) (p : Option α) (l : List α) : Prop :=
  Segment next p l none

section
variable {next next' : α → Option (Option α)}

@[simp] theorem segment_nil (p q : Option α) : Segment next p [] q ↔ p = q := Iff.rfl

theorem segment_append (p q : Option α) (l m : List α) :
    Segment next p (l ++ m) q ↔ ∃ r, Segment next p l r ∧ Segment next r m q := by
  induction l generalizing p with
  | nil => simp
  | cons a l ih =>
    constructor
    · rintro ⟨hp, r, hr, h⟩
      obtain ⟨u, hl, hm⟩ := (ih r).mp h
      exact ⟨u, ⟨hp, r, hr, hl⟩, hm⟩
    · rintro ⟨u, ⟨hp, r, hr, hl⟩, hm⟩
      exact ⟨hp, r, hr, (ih r).mpr ⟨u, hl, hm⟩⟩

theorem segment_congr (p q : Option α) (l : List α) (h : ∀ a ∈ l, next' a = next a)
    (hl : Segment next p l q) : Segment next' p l q := by
  induction l generalizing p with
  | nil => exact hl
  | cons a l ih =>
    obtain ⟨hp, r, hr, hl⟩ := hl
    exact ⟨hp, r, (h a (by simp)).trans hr, ih r (fun b hb => h b (by simp [hb])) hl⟩

theorem chain_head (p : Option α) (l : List α) (h : Chain next p l) : p = l.head? := by
  cases l with
  | nil => exact h
  | cons a l => exact h.1

/-- A pointer is the start of at most one null-terminated list. -/
theorem chain_unique (p : Option α) (l m : List α) (hl : Chain next p l) (hm : Chain next p m) :
    l = m := by
  induction l generalizing p m with
  | nil =>
    cases m with
    | nil => rfl
    | cons b m => cases hl.symm.trans hm.1
  | cons a l ih =>
    cases m with
    | nil => cases hm.symm.trans hl.1
    | cons b m =>
      obtain ⟨hp, r, hr, hl⟩ := hl
      obtain ⟨hp', r', hr', hm⟩ := hm
      obtain rfl : a = b := Option.some.inj (hp.symm.trans hp')
      obtain rfl : r = r' := Option.some.inj (hr.symm.trans hr')
      rw [ih r m hl hm]

theorem chain_next (p : Option α) (pre post : List α) (a : α)
    (h : Chain next p (pre ++ a :: post)) : next a = some post.head? := by
  obtain ⟨r, -, -, q, hq, hpost⟩ := (segment_append p none pre (a :: post)).mp h
  rw [hq, chain_head q post hpost]

theorem chain_mem (p : Option α) (l : List α) (a : α) (h : Chain next p l) (ha : a ∈ l) :
    ∃ q, next a = some q ∧ ∀ b, q = some b → b ∈ l := by
  obtain ⟨pre, post, rfl⟩ := List.append_of_mem ha
  refine ⟨post.head?, chain_next p pre post a h, ?_⟩
  intro b hb
  have hm := List.mem_of_mem_head? hb
  simp [hm]

theorem chain_push (p : Option α) (l : List α) (a n : α)
    (h : Chain next p (l ++ [a])) (hother : ∀ b ∈ l, next' b = next b)
    (ha : next' a = some (some n)) (hnew : next' n = some none) :
    Chain next' p (l ++ [a] ++ [n]) := by
  obtain ⟨r, hl, hr, -⟩ := (segment_append p none l [a]).mp h
  rw [List.append_assoc]
  refine (segment_append p none l _).mpr ⟨r, segment_congr p r l hother hl, hr, ?_⟩
  exact ⟨some n, ha, rfl, none, hnew, rfl⟩

theorem chain_unlink (p : Option α) (pre post : List α) (a b : α)
    (h : Chain next p (pre ++ b :: a :: post)) (hb : next' b = some post.head?)
    (hpre : ∀ c ∈ pre, next' c = next c) (hpost : ∀ c ∈ post, next' c = next c) :
    Chain next' p (pre ++ b :: post) := by
  obtain ⟨r, hl, hr, q, -, hq, u, -, hu⟩ := (segment_append p none pre _).mp h
  refine (segment_append p none pre _).mpr ⟨r, segment_congr p r pre hpre hl, hr, ?_⟩
  refine ⟨post.head?, hb, ?_⟩
  rw [← chain_head u post hu]
  exact segment_congr u none post hpost hu

theorem chain_unlink_head (p : Option α) (post : List α) (a : α)
    (h : Chain next p (a :: post)) (hpost : ∀ c ∈ post, next' c = next c) :
    Chain next' post.head? post := by
  obtain ⟨-, u, -, hu⟩ := h
  rw [← chain_head u post hu]
  exact segment_congr u none post hpost hu

end

end Libnodecc
