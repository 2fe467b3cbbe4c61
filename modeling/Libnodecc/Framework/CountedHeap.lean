import Mathlib.Data.List.Perm.Basic
import Libnodecc.Framework.Slots

namespace Libnodecc

variable {β : Type*}

/-- A block of memory; one with a use count is freed with its last reference. -/
structure Block (β : Type*) where
  cells : List β
  useCount : Option Nat
  freed : Bool

structure Ptr where
  block : Nat
  off : Nat
  deriving DecidableEq

/-- A reference to the `size` cells from `data` on; `p` is the block it is counted in. -/
structure Ref where
  data : Option Ptr
  size : Nat
  p : Option Nat
  deriving DecidableEq

def Ref.null : Ref := ⟨none, 0, none⟩

abbrev Heap (β : Type*) := List (Block β)

namespace Heap

def retain (heap : Heap β) (p : Option Nat) : Heap β :=
  match p with
  | none => heap
  | some b => heap.modify b fun blk => { blk with useCount := blk.useCount.map (· + 1) }

def release (heap : Heap β) (p : Option Nat) : Heap β :=
  match p with
  | none => heap
  | some b => heap.modify b fun blk =>
      { blk with
        useCount := blk.useCount.map (· - 1)
        freed := blk.freed || blk.useCount == some 1 }

/-- There are `n` live cells from `data` on. -/
def Room (heap : Heap β) (data : Option Ptr) (n : Nat) : Prop :=
  match data with
  | none => n = 0
  | some ptr => ∃ blk, heap[ptr.block]? = some blk ∧ blk.freed = false ∧
      ptr.off + n ≤ blk.cells.length

instance (heap : Heap β) (data : Option Ptr) (n : Nat) : Decidable (heap.Room data n) :=
  match data with
  | none => inferInstanceAs (Decidable (n = 0))
  | some ptr =>
    match h : heap[ptr.block]? with
    | none => isFalse fun ⟨_, hblk, _⟩ => by cases h.symm.trans hblk
    | some blk => decidable_of_iff (blk.freed = false ∧ ptr.off + n ≤ blk.cells.length)
        (by simp [Room, h])

/-- The cells `data` points to, whether they are live or not. -/
def cellsAt (heap : Heap β) (data : Option Ptr) (n : Nat) : List β :=
  match data with
  | none => []
  | some ptr => ((((heap[ptr.block]?).map Block.cells).getD []).drop ptr.off).take n

def read (heap : Heap β) (data : Option Ptr) (n : Nat) : Option (List β) :=
  if heap.Room data n then some (heap.cellsAt data n) else none

def write (heap : Heap β) (ptr : Ptr) (cells : List β) : Option (Heap β) :=
  if heap.Room (some ptr) cells.length then
    some (heap.modify ptr.block fun blk =>
      { blk with
        cells := blk.cells.take ptr.off ++ cells ++ blk.cells.drop (ptr.off + cells.length) })
  else none

/-- The block in which a reference to `data` has to be counted. -/
def owner (heap : Heap β) (data : Option Ptr) : Option Nat :=
  data.bind fun ptr => (heap[ptr.block]?).bind fun blk => blk.useCount.map fun _ => ptr.block

structure Counted (heap : Heap β) (refs : List Ref) : Prop where
  room : ∀ r ∈ refs, heap.Room r.data r.size
  owned : ∀ r ∈ refs, r.p = heap.owner r.data
  count : ∀ (b : Nat) (blk : Block β) (k : Nat), heap[b]? = some blk → blk.useCount = some k →
    blk.freed = false → k = refs.countP fun r => r.p == some b

/-- No block goes away, gets shorter, or starts or stops being counted. -/
def Keeps (heap heap' : Heap β) : Prop :=
  ∀ (b : Nat) (blk : Block β), heap[b]? = some blk → ∃ blk' : Block β, heap'[b]? = some blk' ∧
    blk'.cells.length = blk.cells.length ∧ blk'.useCount.isSome = blk.useCount.isSome

def SameCells (heap heap' : Heap β) : Prop :=
  ∀ (b : Nat) (blk : Block β), heap[b]? = some blk →
    ∃ blk' : Block β, heap'[b]? = some blk' ∧ blk'.cells = blk.cells

theorem Keeps.refl (heap : Heap β) : Keeps heap heap := fun _ blk h => ⟨blk, h, rfl, rfl⟩

theorem Keeps.trans {heap heap' heap'' : Heap β} (h : Keeps heap heap') (h' : Keeps heap' heap'') :
    Keeps heap heap'' := by
  intro b blk hb
  obtain ⟨blk', hb', hl, hc⟩ := h b blk hb
  obtain ⟨blk'', hb'', hl', hc'⟩ := h' b blk' hb'
  exact ⟨blk'', hb'', hl'.trans hl, hc'.trans hc⟩

theorem SameCells.refl (heap : Heap β) : SameCells heap heap := fun _ blk h => ⟨blk, h, rfl⟩

theorem SameCells.trans {heap heap' heap'' : Heap β} (h : SameCells heap heap')
    (h' : SameCells heap' heap'') : SameCells heap heap'' := by
  intro b blk hb
  obtain ⟨blk', hb', hl⟩ := h b blk hb
  obtain ⟨blk'', hb'', hl'⟩ := h' b blk' hb'
  exact ⟨blk'', hb'', hl'.trans hl⟩

theorem modify_keeps (heap : Heap β) (b : Nat) (f : Block β → Block β)
    (hf : ∀ blk, heap[b]? = some blk → (f blk).cells.length = blk.cells.length ∧
      (f blk).useCount.isSome = blk.useCount.isSome) : Keeps heap (heap.modify b f) := by
  intro c blk hc
  rw [List.getElem?_modify, hc]
  by_cases hbc : b = c
  · subst hbc
    exact ⟨f blk, by simp, hf blk hc⟩
  · exact ⟨blk, by simp [hbc], rfl, rfl⟩

theorem modify_sameCells (heap : Heap β) (b : Nat) (f : Block β → Block β)
    (hf : ∀ blk, (f blk).cells = blk.cells) : SameCells heap (heap.modify b f) := by
  intro c blk hc
  rw [List.getElem?_modify, hc]
  by_cases hbc : b = c
  · exact ⟨f blk, by simp [hbc], hf blk⟩
  · exact ⟨blk, by simp [hbc], rfl⟩

theorem retain_keeps (heap : Heap β) (p : Option Nat) : Keeps heap (heap.retain p) := by
  cases p with
  | none => exact Keeps.refl heap
  | some b => exact modify_keeps heap b _ fun blk _ => ⟨rfl, by simp⟩

theorem release_keeps (heap : Heap β) (p : Option Nat) : Keeps heap (heap.release p) := by
  cases p with
  | none => exact Keeps.refl heap
  | some b => exact modify_keeps heap b _ fun blk _ => ⟨rfl, by simp⟩

theorem retain_sameCells (heap : Heap β) (p : Option Nat) : SameCells heap (heap.retain p) := by
  cases p with
  | none => exact SameCells.refl heap
  | some b => exact modify_sameCells heap b _ fun blk => rfl

theorem release_sameCells (heap : Heap β) (p : Option Nat) : SameCells heap (heap.release p) := by
  cases p with
  | none => exact SameCells.refl heap
  | some b => exact modify_sameCells heap b _ fun blk => rfl

theorem append_keeps (heap : Heap β) (blk : Block β) : Keeps heap (heap ++ [blk]) := by
  intro b blk' hb
  have hlt := (List.getElem?_eq_some_iff.mp hb).1
  exact ⟨blk', by rw [List.getElem?_append_left hlt, hb], rfl, rfl⟩

theorem append_sameCells (heap : Heap β) (blk : Block β) : SameCells heap (heap ++ [blk]) := by
  intro b blk' hb
  have hlt := (List.getElem?_eq_some_iff.mp hb).1
  exact ⟨blk', by rw [List.getElem?_append_left hlt, hb], rfl⟩

theorem write_eq_some {heap heap' : Heap β} {ptr : Ptr} {cells : List β}
    (h : heap.write ptr cells = some heap') : heap.Room (some ptr) cells.length ∧
      heap' = heap.modify ptr.block fun blk =>
        { blk with
          cells := blk.cells.take ptr.off ++ cells ++ blk.cells.drop (ptr.off + cells.length) } := by
  unfold write at h
  split_ifs at h with hroom
  exact ⟨hroom, (Option.some.inj h).symm⟩

theorem write_keeps {heap heap' : Heap β} {ptr : Ptr} {cells : List β}
    (h : heap.write ptr cells = some heap') : Keeps heap heap' := by
  obtain ⟨⟨blk₀, hblk₀, -, hlen⟩, rfl⟩ := write_eq_some h
  apply modify_keeps
  intro blk hblk
  obtain rfl := Option.some.inj (hblk₀.symm.trans hblk)
  refine ⟨?_, rfl⟩
  simp only [List.length_append, List.length_take, List.length_drop]
  omega

theorem write_newest (heap : Heap β) (cells new : List β) (useCount : Option Nat) (off : Nat)
    (h : off + new.length ≤ cells.length) :
    Heap.write (heap ++ [⟨cells, useCount, false⟩]) ⟨heap.length, off⟩ new =
      some (heap ++ [⟨cells.take off ++ new ++ cells.drop (off + new.length), useCount, false⟩]) := by
  have hroom : Heap.Room (heap ++ [⟨cells, useCount, false⟩]) (some ⟨heap.length, off⟩)
      new.length := ⟨_, List.getElem?_concat_length .., rfl, h⟩
  rw [Heap.write, if_pos hroom, List.modify_eq_take_drop, List.take_left, List.drop_left]
  rfl

theorem Room.mono {heap : Heap β} {data : Option Ptr} {n m : Nat} (h : heap.Room data n)
    (hm : m ≤ n) : heap.Room data m := by
  cases data with
  | none =>
    have hn : n = 0 := h
    exact Nat.le_zero.mp (hn ▸ hm)
  | some ptr =>
    obtain ⟨blk, hblk, hlive, hle⟩ := h
    exact ⟨blk, hblk, hlive, by omega⟩

theorem Room.keeps {heap heap' : Heap β} (hk : Keeps heap heap') {data : Option Ptr} {n m : Nat}
    (h : heap.Room data n) (hlive : heap'.Room data m) : heap'.Room data n := by
  cases data with
  | none => exact h
  | some ptr =>
    obtain ⟨blk, hblk, -, hle⟩ := h
    obtain ⟨blk', hblk', hfree, -⟩ := hlive
    obtain ⟨blk'', hblk'', hlen, -⟩ := hk ptr.block blk hblk
    obtain rfl := Option.some.inj (hblk'.symm.trans hblk'')
    exact ⟨blk', hblk', hfree, by omega⟩

theorem Room.before {heap heap' : Heap β} (hk : Keeps heap heap') {data : Option Ptr} {n m : Nat}
    (h : heap'.Room data n) (hlive : heap.Room data m) : heap.Room data n := by
  cases data with
  | none => exact h
  | some ptr =>
    obtain ⟨blk, hblk, hfree, -⟩ := hlive
    obtain ⟨blk', hblk', -, hle⟩ := h
    obtain ⟨blk'', hblk'', hlen, -⟩ := hk ptr.block blk hblk
    obtain rfl := Option.some.inj (hblk'.symm.trans hblk'')
    exact ⟨blk, hblk, hfree, by omega⟩

theorem Room.append_block {heap : Heap β} {data : Option Ptr} {n : Nat} (h : heap.Room data n)
    (blk : Block β) :
    Room (heap ++ [blk]) data n := by
  cases data with
  | none => exact h
  | some ptr =>
    obtain ⟨blk', hblk', hfree, hle⟩ := h
    have hlt := (List.getElem?_eq_some_iff.mp hblk').1
    exact ⟨blk', by rw [List.getElem?_append_left hlt, hblk'], hfree, hle⟩

/-- A block that has other references survives the release of one. -/
theorem Room.release_shared {heap : Heap β} {data : Option Ptr} {n : Nat} {p : Option Nat}
    (h : heap.Room data n) (hp : ∀ b, p = some b → (heap[b]?).bind Block.useCount ≠ some 1) :
    (heap.release p).Room data n := by
  cases p with
  | none => exact h
  | some b =>
    cases data with
    | none => exact h
    | some ptr =>
      obtain ⟨blk, hblk, hfree, hle⟩ := h
      by_cases hb : b = ptr.block
      · have hcount := hp b rfl
        rw [hb, hblk, Option.bind_some] at hcount
        have hbeq : (blk.useCount == some 1) = false := by simpa using hcount
        refine ⟨{ blk with useCount := blk.useCount.map (· - 1), freed := false }, ?_, rfl, hle⟩
        simp [Heap.release, hb, hblk, hfree, hbeq]
      · refine ⟨blk, ?_, hfree, hle⟩
        simp [Heap.release, hb, hblk]

theorem Room.advance {heap : Heap β} {ptr : Ptr} {n m k : Nat} (h : heap.Room (some ptr) n)
    (hk : k + m ≤ n) : heap.Room (some ⟨ptr.block, ptr.off + k⟩) m := by
  obtain ⟨blk, hblk, hfree, hle⟩ := h
  exact ⟨blk, hblk, hfree, by simp only; omega⟩

theorem Room.cellsAt_length {heap : Heap β} {data : Option Ptr} {n : Nat} (h : heap.Room data n) :
    (heap.cellsAt data n).length = n := by
  cases data with
  | none =>
    have hn : n = 0 := h
    rw [hn]
    rfl
  | some ptr =>
    obtain ⟨blk, hblk, -, hle⟩ := h
    simp only [cellsAt, hblk, Option.map_some, Option.getD_some, List.length_take, List.length_drop]
    omega

theorem cellsAt_zero (heap : Heap β) (data : Option Ptr) : heap.cellsAt data 0 = [] := by
  cases data with
  | none => rfl
  | some ptr => rfl

theorem read_eq_some {heap : Heap β} {data : Option Ptr} {n : Nat} {cells : List β} :
    heap.read data n = some cells ↔ heap.Room data n ∧ heap.cellsAt data n = cells := by
  unfold read
  split_ifs with h
  · simp [h]
  · simp [h]

theorem owner_keeps {heap heap' : Heap β} (hk : Keeps heap heap') {data : Option Ptr} {n : Nat}
    (h : heap.Room data n) : heap'.owner data = heap.owner data := by
  cases data with
  | none => rfl
  | some ptr =>
    obtain ⟨blk, hblk, -, -⟩ := h
    obtain ⟨blk', hblk', -, hc⟩ := hk ptr.block blk hblk
    simp only [owner, Option.bind_some, hblk, hblk']
    cases hu : blk.useCount with
    | none =>
      rw [hu] at hc
      have hnone : blk'.useCount = none := by simpa using hc
      simp [hnone]
    | some k =>
      rw [hu] at hc
      obtain ⟨k', hk'⟩ := Option.isSome_iff_exists.mp hc
      simp [hk']

theorem cellsAt_sameCells {heap heap' : Heap β} (hs : SameCells heap heap') {data : Option Ptr}
    {n : Nat} (h : heap.Room data n) (m : Nat) : heap'.cellsAt data m = heap.cellsAt data m := by
  cases data with
  | none => rfl
  | some ptr =>
    obtain ⟨blk, hblk, -, -⟩ := h
    obtain ⟨blk', hblk', hcells⟩ := hs ptr.block blk hblk
    simp only [cellsAt, hblk, hblk', Option.map_some, hcells]

theorem write_nil {heap heap' : Heap β} {ptr : Ptr} (h : heap.write ptr [] = some heap') :
    SameCells heap heap' := by
  obtain ⟨-, rfl⟩ := write_eq_some h
  exact modify_sameCells heap _ _ fun blk => by simp

/-- Cells beside the written ones. -/
theorem cellsAt_write {heap heap' : Heap β} {ptr : Ptr} {cells : List β}
    (h : heap.write ptr cells = some heap') {data : Option Ptr} {n : Nat} (hroom : heap.Room data n)
    (haway : ∀ ptr', data = some ptr' → ptr'.block = ptr.block →
      ptr'.off + n ≤ ptr.off ∨ ptr.off + cells.length ≤ ptr'.off) :
    heap'.cellsAt data n = heap.cellsAt data n := by
  obtain ⟨⟨blk₀, hblk₀, -, hlen⟩, rfl⟩ := write_eq_some h
  cases data with
  | none => rfl
  | some ptr' =>
    obtain ⟨blk, hblk, -, hle⟩ := hroom
    simp only [cellsAt, List.getElem?_modify, hblk]
    by_cases hb : ptr.block = ptr'.block
    · rw [hb] at hblk₀
      obtain rfl := Option.some.inj (hblk₀.symm.trans hblk)
      simp only [hb, if_true, Option.map_eq_map, Option.map_some, Option.getD_some]
      apply List.ext_getElem?
      intro k
      simp only [List.getElem?_take, List.getElem?_drop]
      by_cases hk : k < n
      · simp only [if_pos hk]
        rcases haway ptr' rfl hb.symm with hleft | hright
        · rw [List.append_assoc, List.getElem?_append_left (by rw [List.length_take]; omega),
            List.getElem?_take, if_pos (by omega)]
        · rw [List.getElem?_append_right
            (by simp only [List.length_append, List.length_take]; omega),
            List.getElem?_drop]
          congr 1
          simp only [List.length_append, List.length_take]
          omega
      · simp only [if_neg hk]
    · simp [hb]

/-- What is written behind some cells follows them. -/
theorem cellsAt_write_behind {heap heap' : Heap β} {b off n : Nat} {cells : List β}
    (h : heap.write ⟨b, off + n⟩ cells = some heap') :
    heap'.cellsAt (some ⟨b, off⟩) (n + cells.length) =
      heap.cellsAt (some ⟨b, off⟩) n ++ cells := by
  obtain ⟨⟨blk, hblk, -, hlen⟩, rfl⟩ := write_eq_some h
  simp only at hblk hlen
  have htake : (blk.cells.take (off + n)).length = off + n := by
    rw [List.length_take]
    omega
  have hfront : ((blk.cells.take (off + n)).drop off ++ cells).length = n + cells.length := by
    rw [List.length_append, List.length_drop, htake]
    omega
  simp only [cellsAt, List.getElem?_modify, hblk, if_true, Option.map_eq_map, Option.map_some,
    Option.getD_some]
  rw [List.append_assoc, List.drop_append_of_le_length (by omega), ← List.append_assoc, ← hfront,
    List.take_left, List.drop_take, Nat.add_sub_cancel_left]

theorem cellsAt_written {heap heap' : Heap β} {ptr ptr' : Ptr} {cells : List β} {n m : Nat}
    (h : heap.write ptr cells = some heap') (hblock : ptr'.block = ptr.block)
    (hm : m < cells.length) (hfirst : ptr'.off ≤ ptr.off + m) (hlast : ptr.off + m < ptr'.off + n) :
    (heap'.cellsAt (some ptr') n)[ptr.off + m - ptr'.off]? = cells[m]? := by
  obtain ⟨⟨blk, hblk, -, hlen⟩, rfl⟩ := write_eq_some h
  have htake : (blk.cells.take ptr.off).length = ptr.off := by
    rw [List.length_take]
    omega
  simp only [cellsAt, List.getElem?_modify, hblock, if_true, hblk, Option.map_eq_map,
    Option.map_some, Option.getD_some, List.getElem?_take, List.getElem?_drop, List.append_assoc]
  rw [if_pos (by omega), List.getElem?_append_right (by rw [htake]; omega), htake,
    List.getElem?_append_left (by omega)]
  congr 1
  omega

namespace Counted

variable {heap : Heap β} {refs : List Ref}

theorem empty : Counted ([] : Heap β) [] := ⟨by simp, by simp, by simp⟩

theorem perm {refs' : List Ref} (h : Counted heap refs) (hp : refs.Perm refs') :
    Counted heap refs' := by
  refine ⟨fun r hr => h.room r (hp.mem_iff.mpr hr), fun r hr => h.owned r (hp.mem_iff.mpr hr), ?_⟩
  intro b blk k hb hk hlive
  rw [h.count b blk k hb hk hlive]
  exact hp.countP_eq _

theorem null_iff : Counted heap (.null :: refs) ↔ Counted heap refs := by
  constructor
  · intro h
    refine ⟨fun r hr => h.room r (by simp [hr]), fun r hr => h.owned r (by simp [hr]), ?_⟩
    intro b blk k hb hk hlive
    have hcount := h.count b blk k hb hk hlive
    rw [List.countP_cons_of_neg (by simp [Ref.null])] at hcount
    exact hcount
  · intro h
    refine ⟨List.forall_mem_cons.mpr ⟨rfl, h.room⟩, List.forall_mem_cons.mpr ⟨rfl, h.owned⟩, ?_⟩
    intro b blk k hb hk hlive
    rw [List.countP_cons_of_neg (by simp [Ref.null])]
    exact h.count b blk k hb hk hlive

theorem resize {r r' : Ref} (h : Counted heap (r :: refs)) (hp : r'.p = r.p)
    (hroom : heap.Room r'.data r'.size) (howner : heap.owner r'.data = heap.owner r.data) :
    Counted heap (r' :: refs) := by
  refine ⟨List.forall_mem_cons.mpr ⟨hroom, fun x hx => h.room x (by simp [hx])⟩,
    List.forall_mem_cons.mpr ⟨?_, fun x hx => h.owned x (by simp [hx])⟩, ?_⟩
  · rw [hp, howner]
    exact h.owned r (by simp)
  · intro b blk k hb hk hlive
    rw [h.count b blk k hb hk hlive]
    simp only [List.countP_cons, hp]

theorem owner_live {r : Ref} (h : Counted heap refs) (hr : r ∈ refs) {b : Nat} (hp : r.p = some b) :
    ∃ blk k ptr, r.data = some ptr ∧ ptr.block = b ∧ heap[b]? = some blk ∧ blk.freed = false ∧
      blk.useCount = some k := by
  have howned := h.owned r hr
  have hroom := h.room r hr
  rw [hp] at howned
  cases hd : r.data with
  | none =>
    rw [hd] at howned
    cases howned
  | some ptr =>
    rw [hd] at howned hroom
    obtain ⟨blk, hblk, hlive, -⟩ := hroom
    simp only [owner, Option.bind_some, hblk] at howned
    cases hu : blk.useCount with
    | none =>
      rw [hu] at howned
      cases howned
    | some k =>
      rw [hu] at howned
      obtain rfl : ptr.block = b := (Option.some.inj howned).symm
      exact ⟨blk, k, ptr, rfl, rfl, hblk, hlive, hu⟩

/-- A new reference, counted if its block is. -/
theorem retain {r : Ref} (h : Counted heap refs) (hroom : heap.Room r.data r.size)
    (howned : r.p = heap.owner r.data) : Counted (heap.retain r.p) (r :: refs) := by
  have hlive (data : Option Ptr) (n : Nat) (hd : heap.Room data n) :
      (heap.retain r.p).Room data n := by
    cases hp : r.p with
    | none => exact hd
    | some c =>
      cases data with
      | none => exact hd
      | some ptr =>
        obtain ⟨blk, hblk, hfree, hle⟩ := hd
        by_cases hc : c = ptr.block
        · refine ⟨{ blk with useCount := blk.useCount.map (· + 1) }, ?_, hfree, hle⟩
          simp [Heap.retain, hc, hblk]
        · refine ⟨blk, ?_, hfree, hle⟩
          simp [Heap.retain, hc, hblk]
  have hkeeps := retain_keeps heap r.p
  have hall : ∀ x ∈ r :: refs, heap.Room x.data x.size ∧ x.p = heap.owner x.data :=
    List.forall_mem_cons.mpr ⟨⟨hroom, howned⟩, fun x hx => ⟨h.room x hx, h.owned x hx⟩⟩
  refine ⟨fun x hx => hlive _ _ (hall x hx).1, ?_, ?_⟩
  · intro x hx
    rw [owner_keeps hkeeps (hall x hx).1]
    exact (hall x hx).2
  · intro b blk k hb hk hfree
    cases hp : r.p with
    | none =>
      rw [hp] at hb
      rw [List.countP_cons_of_neg (by simp [hp])]
      exact h.count b blk k hb hk hfree
    | some c =>
      rw [hp] at hb
      simp only [Heap.retain, List.getElem?_modify, Option.map_eq_map, Option.map_eq_some_iff] at hb
      obtain ⟨blk₀, hb, rfl⟩ := hb
      by_cases hc : c = b
      · simp only [if_pos hc, Option.map_eq_some_iff] at hk hfree
        obtain ⟨k₀, hk₀, rfl⟩ := hk
        rw [List.countP_cons_of_pos (by simp [hp, hc]), ← h.count b blk₀ k₀ hb hk₀ hfree]
      · simp only [if_neg hc] at hk hfree
        rw [List.countP_cons_of_neg (by simp [hp, hc])]
        exact h.count b blk₀ k hb hk hfree

/-- The last reference to a block frees it; no other reference is to that block. -/
theorem release {r : Ref} (h : Counted heap (r :: refs)) : Counted (heap.release r.p) refs := by
  have hlive (x : Ref) (hx : x ∈ refs) : (heap.release r.p).Room x.data x.size := by
    have hroom := h.room x (by simp [hx])
    cases hp : r.p with
    | none => exact hroom
    | some c =>
      cases hd : x.data with
      | none =>
        rw [hd] at hroom
        exact hroom
      | some ptr =>
        rw [hd] at hroom
        obtain ⟨blk, hblk, hfree, hle⟩ := hroom
        by_cases hc : c = ptr.block
        · subst hc
          obtain ⟨blk', k, -, -, -, hblk', -, hk⟩ := h.owner_live (by simp) hp
          obtain rfl := Option.some.inj (hblk.symm.trans hblk')
          have hxp : x.p = some ptr.block := by
            rw [h.owned x (by simp [hx]), hd]
            simp [owner, hblk, hk]
          -- both references count
          have hcount := h.count ptr.block blk k hblk hk hfree
          rw [List.countP_cons_of_pos (by simp [hp])] at hcount
          have hpos : 0 < refs.countP fun r => r.p == some ptr.block :=
            List.countP_pos_iff.mpr ⟨x, hx, by simp [hxp]⟩
          refine ⟨{ blk with useCount := some (k - 1), freed := false }, ?_, rfl, hle⟩
          have hk1 : k ≠ 1 := by omega
          simp [Heap.release, hblk, hk, hfree, hk1]
        · refine ⟨blk, ?_, hfree, hle⟩
          simp [Heap.release, hc, hblk]
  have hkeeps := release_keeps heap r.p
  refine ⟨hlive, ?_, ?_⟩
  · intro x hx
    rw [owner_keeps hkeeps (h.room x (by simp [hx]))]
    exact h.owned x (by simp [hx])
  · intro b blk k hb hk hfree
    cases hp : r.p with
    | none =>
      rw [hp] at hb
      have hcount := h.count b blk k hb hk hfree
      rw [List.countP_cons_of_neg (by simp [hp])] at hcount
      exact hcount
    | some c =>
      rw [hp] at hb
      simp only [Heap.release, List.getElem?_modify, Option.map_eq_map,
        Option.map_eq_some_iff] at hb
      obtain ⟨blk₀, hb, rfl⟩ := hb
      by_cases hc : c = b
      · simp only [if_pos hc, Option.map_eq_some_iff, Bool.or_eq_false_iff] at hk hfree
        obtain ⟨k₀, hk₀, rfl⟩ := hk
        have hcount := h.count b blk₀ k₀ hb hk₀ hfree.1
        rw [List.countP_cons_of_pos (by simp [hp, hc])] at hcount
        omega
      · simp only [if_neg hc] at hk hfree
        have hcount := h.count b blk₀ k hb hk hfree
        rw [List.countP_cons_of_neg (by simp [hp, hc])] at hcount
        exact hcount

theorem lt_length {r : Ref} (h : Counted heap refs) (hr : r ∈ refs) {b : Nat} (hp : r.p = some b) :
    b < heap.length := by
  obtain ⟨blk, -, -, -, -, hblk, -, -⟩ := h.owner_live hr hp
  exact (List.getElem?_eq_some_iff.mp hblk).1

theorem uncounted (h : Counted heap refs) (cells : List β) :
    Counted (heap ++ [⟨cells, none, false⟩]) refs := by
  refine ⟨fun r hr => (h.room r hr).append_block _, ?_, ?_⟩
  · intro r hr
    rw [owner_keeps (append_keeps heap _) (h.room r hr)]
    exact h.owned r hr
  · intro b blk k hb hk hfree
    rcases getElem?_concat_cases hb with ⟨-, hb⟩ | ⟨-, rfl⟩
    · exact h.count b blk k hb hk hfree
    · cases hk

/-- A fresh block and the first reference to it. -/
theorem fresh (h : Counted heap refs) (cells : List β) (n : Nat) (hn : n ≤ cells.length) :
    Counted (heap ++ [⟨cells, some 1, false⟩])
      (⟨some ⟨heap.length, 0⟩, n, some heap.length⟩ :: refs) := by
  have hnew : (heap ++ [(⟨cells, some 1, false⟩ : Block β)])[heap.length]? =
      some ⟨cells, some 1, false⟩ := by simp
  refine ⟨List.forall_mem_cons.mpr ⟨⟨_, hnew, rfl, by simpa using hn⟩,
    fun r hr => (h.room r hr).append_block _⟩, List.forall_mem_cons.mpr ⟨?_, ?_⟩, ?_⟩
  · simp [owner]
  · intro r hr
    rw [owner_keeps (append_keeps heap _) (h.room r hr)]
    exact h.owned r hr
  · intro b blk k hb hk hfree
    rcases getElem?_concat_cases hb with ⟨hlt, hb⟩ | ⟨rfl, rfl⟩
    · rw [List.countP_cons_of_neg (by simp; omega)]
      exact h.count b blk k hb hk hfree
    · obtain rfl := Option.some.inj hk
      have hnone : (refs.countP fun r => r.p == some heap.length) = 0 := by
        rw [List.countP_eq_zero]
        intro r hr hp
        exact absurd (h.lt_length hr (by simpa using hp)) (Nat.lt_irrefl _)
      rw [List.countP_cons_of_pos (by simp), hnone]

theorem write {heap' : Heap β} {ptr : Ptr} {cells : List β} (h : Counted heap refs)
    (hw : heap.write ptr cells = some heap') : Counted heap' refs := by
  have hkeeps := write_keeps hw
  obtain ⟨-, rfl⟩ := write_eq_some hw
  refine ⟨?_, ?_, ?_⟩
  · intro r hr
    have hroom := h.room r hr
    cases hd : r.data with
    | none =>
      rw [hd] at hroom
      exact hroom
    | some ptr' =>
      rw [hd] at hroom
      obtain ⟨blk, hblk, hfree, hle⟩ := hroom
      obtain ⟨blk', hblk', hlen, -⟩ := hkeeps ptr'.block blk hblk
      refine ⟨blk', hblk', ?_, by omega⟩
      rw [List.getElem?_modify, hblk] at hblk'
      obtain rfl := Option.some.inj hblk'
      split_ifs
      · exact hfree
      · exact hfree
  · intro r hr
    rw [owner_keeps hkeeps (h.room r hr)]
    exact h.owned r hr
  · intro b blk k hb hk hfree
    simp only [List.getElem?_modify, Option.map_eq_map, Option.map_eq_some_iff] at hb
    obtain ⟨blk₀, hb, rfl⟩ := hb
    apply h.count b blk₀ k hb
    · split_ifs at hk
      · exact hk
      · exact hk
    · split_ifs at hfree
      · exact hfree
      · exact hfree

end Counted

end Heap

end Libnodecc
