import Libnodecc.Buffer.OwnBytes

namespace Libnodecc.Util.Base64

open Buffer

/-- A `mutable_buffer` of `n` bytes in a block of its own. -/
def owned (room : Bytes) (n : Nat) : State :=
  ⟨[⟨room, some 1, false⟩], [⟨⟨some ⟨0, 0⟩, n, some 0⟩, some (max 16 n)⟩]⟩

def Refuses (malloc : Malloc) : Prop := ∃ id n, n < 2^63 ∧ malloc.serve id n = none

theorem zeroed_serves : ¬ Refuses .zeroed := by
  intro ⟨_, n, hn, hnone⟩
  have hsome : Malloc.zeroed.serve 0 n = some (List.replicate n 0) := if_pos hn
  cases hsome.symm.trans hnone

/-- A handle gets its new block, or `malloc` refuses it. -/
theorem reallocate_refused {malloc : Malloc} {s : State} {i n : Nat} (hpos : n ≠ 0)
    (h : s.reallocate malloc i n = .error .badAlloc) : ∃ id, malloc.serve id n = none := by
  simp only [State.reallocate, bind_refused] at h
  rcases h with h | ⟨this, -, h | ⟨⟨heap, temporary⟩, -, h | ⟨_, -, h⟩⟩⟩
  · exact absurd h (thrifty_defined _)
  · simp only [copy, if_neg hpos, bind_refused] at h
    rcases h with h | ⟨content, -, h⟩
    · split_ifs at h
      · exact absurd h (thrifty_defined _)
      · cases h
    · unfold allocate at h
      rw [if_neg hpos] at h
      split at h
      · next hnone => exact ⟨_, hnone⟩
      · cases h
  · simp only [State.assignTemporary, State.release, bind_refused] at h
    rcases h with (h | ⟨_, -, h⟩) | ⟨_, -, h⟩
    · exact absurd h (thrifty_defined _)
    · cases h
    · cases h
  · cases h

section
variable {malloc : Malloc} {room result : Bytes} {n out : Nat}

theorem owned_wf (hroom : room.length = max 16 n) (hn : n < 2^63) : (owned room n).Wf [] := by
  constructor
  · constructor
    · intro r hr
      obtain rfl := List.mem_singleton.mp hr
      exact ⟨_, rfl, rfl, by simp only [Nat.zero_add]; omega⟩
    · intro r hr
      obtain rfl := List.mem_singleton.mp hr
      rfl
    · intro b blk k hb hk _
      match b, hb with
      | 0, hb =>
        cases hb
        cases hk
        rfl
      | b + 1, hb => cases hb
  · intro b blk hb
    match b, hb with
    | 0, hb =>
      cases hb
      change room.length < 2^63
      omega
    | b + 1, hb => cases hb

theorem owned_wellFormed (hroom : room.length = max 16 n) (hn : n < 2^63) :
    (owned room n).WellFormed 0 := by
  refine ⟨owned_wf hroom hn, rfl, ?_⟩
  intro this hthis capacity hcapacity
  cases hthis
  cases hcapacity
  refine ⟨Nat.le_max_right 16 n, _, rfl, rfl, ?_⟩
  change 0 + max 16 n ≤ room.length
  omega

theorem owned_capacity : (owned room n).capacity 0 = .ok (max 16 n) := rfl

theorem owned_read (hroom : room.length = max 16 n) :
    (owned room n).heap.read (some ⟨0, 0⟩) (max 16 n) = some room := by
  have hin : (owned room n).heap.Room (some ⟨0, 0⟩) (max 16 n) :=
    ⟨_, rfl, rfl, by simp only [Nat.zero_add]; omega⟩
  rw [Heap.read, if_pos hin]
  simp [Heap.cellsAt, owned, ← hroom]

theorem owned_write (hroom : room.length = max 16 n) (hresult : result.length = room.length) :
    (owned room n).heap.write ⟨0, 0⟩ result = some (owned result n).heap := by
  have hfits : (owned room n).heap.Room (some ⟨0, 0⟩) result.length :=
    ⟨_, rfl, rfl, by simp only [Nat.zero_add]; omega⟩
  rw [Heap.write, if_pos hfits]
  simp [owned, ← hresult]

theorem owned_refused (hn : n < 2^63) (hout : out ≤ n)
    (h : (owned room n).setSize malloc 0 out = .error .badAlloc) : Refuses malloc := by
  have hcapacity (s : State) : s.capacity 0 ≠ .error .badAlloc := by
    rw [State.capacity, Ne, bind_refused]
    rintro (h | ⟨_, -, h⟩)
    · exact thrifty_defined _ h
    · exact thrifty_defined _ h
  rw [State.setSize, owned_capacity, call_bind, if_neg (by omega), bind_refused] at h
  rcases h with h | ⟨u, -, h⟩
  · split_ifs at h
    · obtain ⟨id, hnone⟩ := reallocate_refused (by omega) h
      exact ⟨id, max 16 out, by omega, hnone⟩
    · cases h
  · rw [bind_refused] at h
    rcases h with h | ⟨_, -, h⟩
    · exact absurd h (hcapacity u)
    · cases h

theorem owned_setSize (hroom : room.length = max 16 n) (hn : n < 2^63) (hout : out ≤ n) :
    Refuses malloc ∧ (owned room n).setSize malloc 0 out = .error .badAlloc ∨
      ∃ t, (owned room n).setSize malloc 0 out = .ok t ∧ t.shown 0 = some (room.take out) := by
  have hs := owned_wellFormed hroom hn
  have hthis : (owned room n).handles[0]? = some ⟨⟨some ⟨0, 0⟩, n, some 0⟩, some (max 16 n)⟩ := rfl
  have hfine : Fine ((owned room n).setSize malloc 0 out) := fine_setSize hs.wf hs.has
  cases hset : (owned room n).setSize malloc 0 out with
  | error stop =>
    cases stop with
    | undefined => exact absurd hset hfine
    | badAlloc => exact Or.inl ⟨owned_refused hn hout hset, rfl⟩
  | ok t =>
    have hcut := setSize_cut hs hthis hout hset
    refine Or.inr ⟨t, rfl, hcut.trans ?_⟩
    simp only [Heap.cellsAt, owned, List.getElem?_cons_zero, Option.map_some, Option.getD_some,
      List.drop_zero, List.take_take, Nat.min_eq_left hout]

end

theorem setSize_new (malloc : Malloc) (n : Nat) :
    (State.init.push .null (some 0)).setSize malloc 0 n =
      ((State.init.push .null (some 0)).reallocate malloc 0 (max 16 n) >>= fun s =>
        s.capacity 0 >>= fun capacity => pure (s.resize 0 (min capacity n))) := by
  have hcapacity : (State.init.push .null (some 0)).capacity 0 = .ok 0 := rfl
  rw [State.setSize, hcapacity, call_bind]
  by_cases hpos : 0 < n
  · have hmax : max 16 (max n (sizeT (0 + 0 / 2))) = max 16 n := by
      simp only [sizeT]
      omega
    rw [if_pos hpos, hmax]
  · obtain rfl : n = 0 := by omega
    rw [if_neg hpos, if_pos (by decide)]

theorem reallocate_fresh (malloc : Malloc) (n : Nat) (bs : Bytes) (hn : n ≠ 0)
    (hserve : malloc.serve 0 n = some bs) :
    (State.init.push .null (some 0)).reallocate malloc 0 n =
      .ok ⟨[⟨bs, some 1, false⟩], [⟨⟨some ⟨0, 0⟩, n, some 0⟩, some n⟩]⟩ := by
  have hcopy : copy malloc [] .null n =
      .ok ([⟨bs, some 1, false⟩], ⟨some ⟨0, 0⟩, n, some 0⟩) := by
    simp only [copy, Ref.null, hn, Option.isSome_none, Bool.false_eq_true, if_false, pure_bind,
      allocate, List.length_nil, hserve, List.drop_zero, List.nil_append]
  simp only [State.reallocate, State.handle, State.init, State.push, defined, List.nil_append,
    List.getElem?_cons_zero]
  change (copy malloc [] .null n >>= _) = _
  rw [hcopy]
  rfl

theorem setSize_fresh (malloc : Malloc) (n : Nat) (bs : Bytes)
    (hserve : malloc.serve 0 (max 16 n) = some bs) :
    (State.init.push .null (some 0)).setSize malloc 0 n = .ok (owned bs n) := by
  have hmin : min (max 16 n) n = n := by omega
  rw [setSize_new, reallocate_fresh malloc (max 16 n) bs (by omega) hserve, call_bind]
  change Except.ok (State.resize _ 0 (min (max 16 n) n)) = _
  rw [hmin]
  rfl

theorem setSize_refused (malloc : Malloc) (n : Nat) (hserve : malloc.serve 0 (max 16 n) = none) :
    (State.init.push .null (some 0)).setSize malloc 0 n = .error .badAlloc := by
  have hcopy : copy malloc [] .null (max 16 n) = .error .badAlloc := by
    have hpos : max 16 n ≠ 0 := by omega
    simp only [copy, Ref.null, hpos, Option.isSome_none, Bool.false_eq_true, if_false, pure_bind,
      allocate, List.length_nil, hserve]
  have hhandle : (State.init.push .null (some 0)).handle 0 = .ok ⟨.null, some 0⟩ := rfl
  have hheap : (State.init.push .null (some 0)).heap = [] := rfl
  rw [setSize_new, State.reallocate, hhandle, call_bind, hheap, hcopy, call_stop, call_stop]

end Libnodecc.Util.Base64
