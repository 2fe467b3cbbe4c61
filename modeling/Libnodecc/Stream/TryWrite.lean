import Libnodecc.Buffer.Handles
import Libnodecc.Framework.Gather
import Libnodecc.Stream.Watermark
import Mathlib.Algebra.Order.BigOperators.Group.List

namespace Libnodecc.Stream

open Buffer

/-- `uv_buf_t`. -/
structure UvBuf where
  base : Option Ptr
  len : Nat

/-- What is passed to `uv_write`, and what `packed_req` holds on to. -/
structure Queued where
  uvBufs : List UvBuf
  refList : List Ref

/-- `static_cast<unsigned int>`. -/
def unsignedInt (n : Nat) : Nat := n % 2^32

def uvBufs (bufs : List Ref) : List UvBuf := bufs.map fun b => ⟨b.data, b.size⟩

/-- `uv_write` of the buffers that are left. -/
def queue (uvBufs : List UvBuf) (bufs : List Ref) : Queued :=
  ⟨uvBufs.take (unsignedInt bufs.length), bufs⟩

/-- Writes what can be written at once, and queues the rest; `wi` is what the attempt to write
answered. `none` is an access behind `uv_bufs`. -/
def tryThenQueue (bufs : List Ref) (wi : Int) : Option (Option Queued) :=
  if writtenAtOnce (bufs.map Ref.size) wi then some none
  else if 0 < wi then
    let (i, wu) := Gather.split (bufs.map Ref.size) wi.toNat
    match (uvBufs bufs).drop i with
    | [] => none
    | first :: rest =>
      some (queue (⟨advance first.base wu, subSizeT first.len wu⟩ :: rest) (bufs.drop i))
  else some (queue (uvBufs bufs) bufs)

/-- `uv::stream::_write`. -/
def streamWrite (bufs : List Ref) (wi : Int) : Option (Option Queued) := tryThenQueue bufs wi

/-- `udp::socket::write`; all goes to the one address. -/
def socketWrite (bufs : List Ref) (wi : Int) : Option (Option Queued) := tryThenQueue bufs wi

section
variable (heap : Heap UInt8)

def UvBuf.shown (u : UvBuf) : Bytes := heap.cellsAt u.base u.len

/-- The bytes that `uv_try_write` took. -/
def accepted (bufs : List Ref) (wi : Int) : Bytes :=
  (((uvBufs bufs).take (unsignedInt bufs.length)).flatMap (UvBuf.shown heap)).take wi.toNat

def queuedBytes : Option Queued → Bytes
  | none => []
  | some queued => queued.uvBufs.flatMap (UvBuf.shown heap)

/-- All bytes are sent once and in order, from memory that stays. -/
structure Sends (bufs : List Ref) (wi : Int) (result : Option (Option Queued)) : Prop where
  bytes : ∃ queued, result = some queued ∧
    accepted heap bufs wi ++ queuedBytes heap queued = (uvBufs bufs).flatMap (UvBuf.shown heap)
  stops : 0 < wi → wi.toNat < total (bufs.map Ref.size) →
    ∃ first, bufs[(Gather.split (bufs.map Ref.size) wi.toNat).1]? = some first ∧
      (Gather.split (bufs.map Ref.size) wi.toNat).2 ≤ first.size
  complete : 0 < wi → wi.toNat = total (bufs.map Ref.size) → result = some none
  retained : ∀ queued, result = some (some queued) → ∀ u ∈ queued.uvBufs, ∃ b ∈ queued.refList,
    ∃ off, u.base = advance b.data off ∧ off + u.len ≤ b.size

end

def wholeWritten (sizes : List Nat) (wi : Int) : Nat :=
  if 0 < wi then (List.range sizes.length).countP fun i => (sizes.take (i + 1)).sum ≤ wi.toNat else 0

/-- The buffers that do not count as an `unsigned int` are empty. -/
def Countable (bufs : List Ref) (wi : Int) : Prop :=
  wi ≤ ((bufs.take (unsignedInt bufs.length)).map Ref.size).sum ∧
    ∀ b ∈ bufs.drop (wholeWritten (bufs.map Ref.size) wi +
      unsignedInt (bufs.length - wholeWritten (bufs.map Ref.size) wi)), b.size = 0

section
variable {heap : Heap UInt8} {bufs : List Ref} {wi : Int}

theorem total_of_lt (sizes : List Nat) (h : sizes.sum < 2^64) : total sizes = sizes.sum := by
  rw [total_eq, sizeT_of_lt _ h]

theorem shown_length {b : Ref} (hroom : heap.Room b.data b.size) :
    (heap.cellsAt b.data b.size).length = b.size := hroom.cellsAt_length

theorem shown_advance (b : Ref) (n : Nat) :
    heap.cellsAt (advance b.data n) (b.size - n) = (heap.cellsAt b.data b.size).drop n := by
  cases hdata : b.data with
  | none => simp [advance, Heap.cellsAt]
  | some ptr => simp only [advance, Option.map_some, Heap.cellsAt, List.drop_take, List.drop_drop]

theorem uvBufs_flatMap (bufs : List Ref) : (uvBufs bufs).flatMap (UvBuf.shown heap) =
    bufs.flatMap fun b => heap.cellsAt b.data b.size := by
  rw [uvBufs, List.flatMap_map]
  rfl

theorem sizes_eq (hroom : ∀ b ∈ bufs, heap.Room b.data b.size) :
    bufs.map Ref.size = bufs.map fun b => (heap.cellsAt b.data b.size).length :=
  List.map_congr_left fun b hb => (shown_length (hroom b hb)).symm

theorem wholeWritten_eq (bufs : List Ref) (hpos : 0 < wi) : wholeWritten (bufs.map Ref.size) wi =
    (Gather.split (bufs.map Ref.size) wi.toNat).1 := by
  rw [wholeWritten, if_pos hpos, Gather.split_fst]

/-- What is taken from the front and what is queued are all bytes if and only if none is left out
in either. -/
theorem append_eq_iff {all given taken rest : Bytes} {n : Nat} (hgiven : given <+: all)
    (hrest : all.drop n = rest) (hn : n ≤ all.length) (htaken : taken.length ≤ rest.length) :
    given.take n ++ taken = all ↔ n ≤ given.length ∧ taken = rest := by
  obtain ⟨more, rfl⟩ := hgiven
  have hsplit := List.take_append_drop n (given ++ more)
  rw [hrest] at hsplit
  have hfront (hle : n ≤ given.length) : given.take n = (given ++ more).take n :=
    (List.take_append_of_le_length hle).symm
  constructor
  · intro heq
    have hlength := congrArg List.length (heq.trans hsplit.symm)
    simp only [List.length_append, List.length_take] at hlength hn
    have hle : n ≤ given.length := by omega
    refine ⟨hle, ?_⟩
    have hboth := heq.trans hsplit.symm
    rw [hfront hle] at hboth
    exact List.append_cancel_left hboth
  · intro ⟨hle, htaken⟩
    rw [hfront hle, htaken]
    exact hsplit

theorem split_within (h : wi.toNat < (bufs.map Ref.size).sum) :
    ∃ first, bufs[(Gather.split (bufs.map Ref.size) wi.toNat).1]? = some first ∧
      (Gather.split (bufs.map Ref.size) wi.toNat).2 < first.size := by
  obtain ⟨len, hlen, hlt⟩ := Gather.split_lt _ _ h
  rw [List.getElem?_map] at hlen
  obtain ⟨first, hfirst, rfl⟩ := Option.map_eq_some_iff.mp hlen
  exact ⟨first, hfirst, hlt⟩

theorem drop_of_get {i : Nat} {first : Ref} (h : bufs[i]? = some first) :
    bufs.drop i = first :: bufs.drop (i + 1) := by
  obtain ⟨hlt, hfirst⟩ := List.getElem?_eq_some_iff.mp h
  rw [List.drop_eq_getElem_cons hlt, hfirst]

/-- What is queued after a write in part. -/
theorem tryThenQueue_cut {i r : Nat} {first : Ref}
    (hsplit : Gather.split (bufs.map Ref.size) wi.toNat = (i, r))
    (hpos : 0 < wi) (hpart : wi.toNat < (bufs.map Ref.size).sum)
    (htotal : (bufs.map Ref.size).sum < 2^64) (hfirst : bufs[i]? = some first)
    (hr : r < first.size) : tryThenQueue bufs wi =
      some (some (queue (⟨advance first.data r, first.size - r⟩ :: uvBufs (bufs.drop (i + 1)))
        (bufs.drop i))) := by
  have honce : ¬writtenAtOnce (bufs.map Ref.size) wi := by
    rw [writtenAtOnce, total_of_lt _ htotal]
    rintro (hnil | ⟨-, heq | hlt⟩)
    · rw [hnil] at hpart
      cases hpart
    · omega
    · omega
  have hsize : first.size ≤ (bufs.map Ref.size).sum :=
    List.le_sum_of_mem (List.mem_map_of_mem (List.mem_of_getElem? hfirst))
  have hsub : subSizeT first.size r = first.size - r := by
    simp only [subSizeT, sizeT]
    omega
  have hdrop : (uvBufs bufs).drop i =
      ⟨first.data, first.size⟩ :: uvBufs (bufs.drop (i + 1)) := by
    rw [uvBufs, ← List.map_drop, drop_of_get hfirst]
    rfl
  simp only [tryThenQueue, if_neg honce, if_pos hpos, hsplit, hdrop, hsub]

theorem tryThenQueue_nothing (hbufs : bufs ≠ []) (hpos : ¬0 < wi) :
    tryThenQueue bufs wi = some (some (queue (uvBufs bufs) bufs)) := by
  have honce : ¬writtenAtOnce (bufs.map Ref.size) wi := by
    rintro (hnil | ⟨hwi, -⟩)
    · exact hbufs (List.map_eq_nil_iff.mp hnil)
    · exact hpos hwi
  rw [tryThenQueue, if_neg honce, if_neg hpos]

/-- Where what is queued lies. -/
theorem tryThenQueue_retained (htotal : (bufs.map Ref.size).sum < 2^64) {queued : Queued}
    (h : tryThenQueue bufs wi = some (some queued)) : ∀ u ∈ queued.uvBufs,
      ∃ b ∈ queued.refList, ∃ off, u.base = advance b.data off ∧ off + u.len ≤ b.size := by
  have hwhole {us : List Ref} {u : UvBuf} (hu : u ∈ uvBufs us) :
      ∃ b ∈ us, ∃ off, u.base = advance b.data off ∧ off + u.len ≤ b.size := by
    obtain ⟨b, hb, rfl⟩ := List.mem_map.mp hu
    refine ⟨b, hb, 0, ?_, by simp⟩
    cases b.data <;> rfl
  by_cases hbufs : bufs = []
  · subst hbufs
    cases h
  · by_cases hpos : 0 < wi
    · by_cases hpart : wi.toNat < (bufs.map Ref.size).sum
      · obtain ⟨first, hfirst, hr⟩ := split_within hpart
        rw [tryThenQueue_cut rfl hpos hpart htotal hfirst hr] at h
        cases h
        intro u hu
        rw [drop_of_get hfirst]
        rcases List.mem_cons.mp (List.mem_of_mem_take hu) with rfl | hu
        · exact ⟨first, List.mem_cons_self, _, rfl, by simp only; omega⟩
        · obtain ⟨b, hb, hoff⟩ := hwhole hu
          exact ⟨b, List.mem_cons_of_mem _ hb, hoff⟩
      · have honce : writtenAtOnce (bufs.map Ref.size) wi := by
          rw [writtenAtOnce, total_of_lt _ htotal]
          exact .inr ⟨hpos, by omega⟩
        rw [tryThenQueue, if_pos honce] at h
        cases h
    · rw [tryThenQueue_nothing hbufs hpos] at h
      cases h
      intro u hu
      exact hwhole (List.mem_of_mem_take hu)

/-- What is queued is complete if and only if the buffers that are left out show nothing. -/
theorem queue_bytes {all given : Bytes} {us : List UvBuf} {refs : List Ref} {n : Nat}
    (hgiven : given <+: all) (hn : n ≤ all.length)
    (hus : all.drop n = us.flatMap (UvBuf.shown heap)) :
    (∃ queued, some (some (queue us refs)) = some queued ∧
      given.take n ++ queuedBytes heap queued = all) ↔
      n ≤ given.length ∧ ∀ u ∈ us.drop (unsignedInt refs.length), u.shown heap = [] := by
  have hshort : ((us.take (unsignedInt refs.length)).flatMap (UvBuf.shown heap)).length ≤
      (us.flatMap (UvBuf.shown heap)).length := by
    have hsplit := congrArg (List.flatMap (UvBuf.shown heap))
      (List.take_append_drop (unsignedInt refs.length) us)
    rw [List.flatMap_append] at hsplit
    rw [← hsplit, List.length_append]
    exact Nat.le_add_right _ _
  rw [← Gather.flatMap_take, ← append_eq_iff hgiven hus hn hshort]
  constructor
  · intro ⟨queued, hqueued, heq⟩
    cases hqueued
    exact heq
  · intro heq
    exact ⟨_, rfl, heq⟩

theorem uvBufs_empty {bs : List Ref} (hroom : ∀ b ∈ bs, heap.Room b.data b.size) :
    (∀ u ∈ uvBufs bs, u.shown heap = []) ↔ ∀ b ∈ bs, b.size = 0 := by
  rw [uvBufs, List.forall_mem_map]
  refine forall₂_congr fun b hb => ?_
  show heap.cellsAt b.data b.size = [] ↔ b.size = 0
  rw [← List.length_eq_zero_iff, shown_length (hroom b hb)]

/-- The bytes are complete if and only if no count is cut where it matters. -/
theorem tryThenQueue_bytes (hroom : ∀ b ∈ bufs, heap.Room b.data b.size)
    (htotal : (bufs.map Ref.size).sum < 2^64) (hwi : wi ≤ (bufs.map Ref.size).sum) :
    (∃ queued, tryThenQueue bufs wi = some queued ∧
      accepted heap bufs wi ++ queuedBytes heap queued = (uvBufs bufs).flatMap (UvBuf.shown heap)) ↔
      Countable bufs wi := by
  -- the bytes, and those of the buffers that were passed first
  obtain ⟨shown, hshown⟩ : ∃ shown : Ref → Bytes, shown = fun b => heap.cellsAt b.data b.size :=
    ⟨_, rfl⟩
  have hlens (bs : List Ref) (hbs : ∀ b ∈ bs, b ∈ bufs) :
      (bs.flatMap shown).length = (bs.map Ref.size).sum := by
    rw [List.length_flatMap, hshown]
    exact congrArg List.sum (sizes_eq fun b hb => hroom b (hbs b hb)).symm
  have hall : (uvBufs bufs).flatMap (UvBuf.shown heap) = bufs.flatMap shown := by
    rw [uvBufs_flatMap, hshown]
  have hgiven : accepted heap bufs wi =
      ((bufs.take (unsignedInt bufs.length)).flatMap shown).take wi.toNat := by
    rw [accepted, uvBufs, ← List.map_take, ← uvBufs, uvBufs_flatMap, hshown]
  have hstart : (bufs.take (unsignedInt bufs.length)).flatMap shown <+: bufs.flatMap shown := by
    refine ⟨(bufs.drop (unsignedInt bufs.length)).flatMap shown, ?_⟩
    rw [← List.flatMap_append, List.take_append_drop]
  have hfront : wi.toNat ≤ ((bufs.take (unsignedInt bufs.length)).flatMap shown).length ↔
      wi ≤ ((bufs.take (unsignedInt bufs.length)).map Ref.size).sum := by
    rw [hlens _ fun b hb => List.mem_of_mem_take hb]
    omega
  have hn : wi.toNat ≤ (bufs.flatMap shown).length := by
    rw [hlens bufs fun b hb => hb]
    omega
  rw [hall, hgiven, Countable, ← hfront]
  by_cases hbufs : bufs = []
  · subst hbufs
    have hqueue : tryThenQueue [] wi = some none := if_pos (.inl rfl)
    rw [hqueue]
    refine iff_of_true ⟨none, rfl, by simp [queuedBytes]⟩ ⟨?_, by simp⟩
    simpa using hn
  · by_cases hpos : 0 < wi
    · by_cases hpart : wi.toNat < (bufs.map Ref.size).sum
      · obtain ⟨first, hfirst, hr⟩ := split_within hpart
        rw [tryThenQueue_cut rfl hpos hpart htotal hfirst hr, wholeWritten_eq bufs hpos]
        have hrest := Gather.drop_flatMap shown bufs wi.toNat
        rw [hshown, ← sizes_eq hroom, ← hshown] at hrest
        generalize (Gather.split (bufs.map Ref.size) wi.toNat).1 = i at hfirst hr hrest ⊢
        generalize (Gather.split (bufs.map Ref.size) wi.toNat).2 = r at hr hrest ⊢
        have hdrop := drop_of_get hfirst
        have htrimmed : UvBuf.shown heap ⟨advance first.data r, first.size - r⟩ =
            (shown first).drop r := by
          rw [hshown]
          exact shown_advance first r
        have hlength : (shown first).length = first.size := by
          rw [hshown]
          exact shown_length (hroom first (List.mem_of_getElem? hfirst))
        have hus : (bufs.flatMap shown).drop wi.toNat =
            (⟨advance first.data r, first.size - r⟩ :: uvBufs (bufs.drop (i + 1))).flatMap
              (UvBuf.shown heap) := by
          rw [hrest, hdrop, List.flatMap_cons, List.flatMap_cons, htrimmed, uvBufs_flatMap, hshown,
            List.drop_append_of_le_length (by rw [← hshown, hlength]; omega)]
        rw [queue_bytes hstart hn hus, List.length_drop]
        refine and_congr_right fun _ => ?_
        cases hcount : unsignedInt (bufs.length - i) with
        | zero =>
          -- nothing is queued: the rest of the first buffer is lost
          refine iff_of_false ?_ ?_
          · intro hempty
            have hnil := hempty _ List.mem_cons_self
            rw [htrimmed] at hnil
            have hzero := congrArg List.length hnil
            rw [List.length_drop, hlength, List.length_nil] at hzero
            omega
          · intro hempty
            have hzero := hempty first (by rw [Nat.add_zero, hdrop]; exact List.mem_cons_self)
            omega
        | succ k =>
          rw [List.drop_succ_cons, uvBufs, ← List.map_drop, ← uvBufs, List.drop_drop,
            uvBufs_empty fun b hb => hroom b (List.mem_of_mem_drop hb), Nat.add_assoc,
            Nat.add_comm 1 k]
      · have honce : writtenAtOnce (bufs.map Ref.size) wi := by
          rw [writtenAtOnce, total_of_lt _ htotal]
          exact .inr ⟨hpos, by omega⟩
        have hrest : (bufs.flatMap shown).drop wi.toNat = [] := by
          refine List.drop_eq_nil_of_le ?_
          rw [hlens bufs fun b hb => hb]
          omega
        rw [tryThenQueue, if_pos honce, wholeWritten_eq bufs hpos,
          Gather.split_all _ _ (Nat.not_lt.mp hpart), List.length_map]
        have hnone : bufs.drop (bufs.length + unsignedInt (bufs.length - bufs.length)) = [] :=
          List.drop_eq_nil_of_le (Nat.le_add_right _ _)
        rw [hnone]
        have hiff : ((bufs.take (unsignedInt bufs.length)).flatMap shown).take wi.toNat ++ [] =
            bufs.flatMap shown ↔
            wi.toNat ≤ ((bufs.take (unsignedInt bufs.length)).flatMap shown).length ∧ [] = [] :=
          append_eq_iff hstart hrest hn (Nat.le_refl 0)
        constructor
        · intro ⟨queued, hqueued, heq⟩
          cases hqueued
          exact ⟨(hiff.mp heq).1, nofun⟩
        · intro ⟨hle, _⟩
          exact ⟨none, rfl, hiff.mpr ⟨hle, rfl⟩⟩
    · have hzero : wi.toNat = 0 := by omega
      rw [tryThenQueue_nothing hbufs hpos, wholeWritten, if_neg hpos, Nat.zero_add, Nat.sub_zero]
      have hrest : (bufs.flatMap shown).drop wi.toNat =
          (uvBufs bufs).flatMap (UvBuf.shown heap) := by
        rw [hzero, List.drop_zero, hall]
      rw [queue_bytes hstart hn hrest, uvBufs, ← List.map_drop, ← uvBufs,
        uvBufs_empty fun b hb => hroom b (List.mem_of_mem_drop hb)]

/-- With fewer than `2^32` buffers nothing is cut, if the attempt to write took no more than there
is. -/
theorem countable_of_lt (hlength : bufs.length < 2^32) (hwi : wi ≤ (bufs.map Ref.size).sum) :
    Countable bufs wi := by
  have hall : unsignedInt bufs.length = bufs.length := Nat.mod_eq_of_lt hlength
  refine ⟨by rw [hall, List.take_length]; exact hwi, ?_⟩
  have hrest : unsignedInt (bufs.length - wholeWritten (bufs.map Ref.size) wi) =
      bufs.length - wholeWritten (bufs.map Ref.size) wi := Nat.mod_eq_of_lt (by omega)
  rw [hrest, List.drop_eq_nil_of_le (by omega)]
  nofun

theorem tryThenQueue_sends (hroom : ∀ b ∈ bufs, heap.Room b.data b.size)
    (htotal : (bufs.map Ref.size).sum < 2^31) (hwi : wi ≤ (bufs.map Ref.size).sum) :
    Sends heap bufs wi (tryThenQueue bufs wi) ↔ Countable bufs wi := by
  have hsum : total (bufs.map Ref.size) = (bufs.map Ref.size).sum := total_of_lt _ (by omega)
  rw [← tryThenQueue_bytes hroom (by omega) hwi]
  constructor
  · intro h
    exact h.bytes
  · intro h
    refine ⟨h, ?_, ?_, fun queued => tryThenQueue_retained (by omega)⟩
    · intro _ hpart
      rw [hsum] at hpart
      obtain ⟨first, hfirst, hr⟩ := split_within hpart
      exact ⟨first, hfirst, Nat.le_of_lt hr⟩
    · intro hpos hcomplete
      exact if_pos (.inr ⟨hpos, .inl hcomplete⟩)

end

/-- What is taken at once and what is queued are all bytes of the buffers, unless some that are not
empty are cut off by the conversion of their number to an `unsigned int`. -/
theorem write_sends_iff (heap : Heap UInt8) (bufs : List Ref) (wi : Int)
    (hroom : ∀ b ∈ bufs, heap.Room b.data b.size) (htotal : (bufs.map Ref.size).sum < 2^31)
    (hwi : wi ≤ (bufs.map Ref.size).sum) :
    (Sends heap bufs wi (streamWrite bufs wi) ↔ Countable bufs wi) ∧
      (Sends heap bufs wi (socketWrite bufs wi) ↔ Countable bufs wi) :=
  ⟨tryThenQueue_sends hroom htotal hwi, tryThenQueue_sends hroom htotal hwi⟩

/-- Three bytes in two buffers with an empty one between them. -/
def threeBytes : Heap UInt8 := [⟨[0x61, 0x62, 0x63], none, false⟩]

def threeBytesBufs : List Ref := [⟨some ⟨0, 0⟩, 2, none⟩, .null, ⟨some ⟨0, 2⟩, 1, none⟩]

theorem write_sends_iff_part :
    Sends threeBytes threeBytesBufs 1 (streamWrite threeBytesBufs 1) ∧
      Sends threeBytes threeBytesBufs 1 (socketWrite threeBytesBufs 1) := by
  obtain ⟨hstream, hsocket⟩ := write_sends_iff threeBytes threeBytesBufs 1 (by decide) (by decide)
    (by decide)
  have hcount : Countable threeBytesBufs 1 := countable_of_lt (by decide) (by decide)
  exact ⟨hstream.mpr hcount, hsocket.mpr hcount⟩

/-- A byte behind an empty buffer, with `n` empty ones behind it. -/
def manyBufs (n : Nat) : List Ref := .null :: ⟨some ⟨0, 0⟩, 1, none⟩ :: List.replicate n .null

theorem manyBufs_room (n : Nat) : ∀ b ∈ manyBufs n, threeBytes.Room b.data b.size := by
  intro b hb
  simp only [manyBufs, List.mem_cons, List.mem_replicate] at hb
  rcases hb with rfl | rfl | ⟨-, rfl⟩ <;> decide

theorem manyBufs_sum (n : Nat) : ((manyBufs n).map Ref.size).sum = 1 := by
  simp [manyBufs, Ref.null]

theorem manyBufs_cut (n : Nat) (hn : unsignedInt (n + 2) = 1) : ¬Countable (manyBufs n) (-11) := by
  intro ⟨_, hempty⟩
  have hlength : (manyBufs n).length = n + 2 := by simp [manyBufs]
  have hnone : wholeWritten ((manyBufs n).map Ref.size) (-11) = 0 := if_neg (by decide)
  rw [hnone, Nat.sub_zero, hlength, hn] at hempty
  have hbyte : (⟨some ⟨0, 0⟩, 1, none⟩ : Ref) ∈ (manyBufs n).drop (0 + 1) := List.mem_cons_self
  exact absurd (hempty _ hbyte) (by decide)

/-- Of `2^32 + 1` buffers only the empty one is queued. -/
theorem write_cut : (∀ b ∈ manyBufs (2^32 - 1), threeBytes.Room b.data b.size) ∧
    ((manyBufs (2^32 - 1)).map Ref.size).sum = 1 ∧
    ¬Sends threeBytes (manyBufs (2^32 - 1)) (-11) (streamWrite (manyBufs (2^32 - 1)) (-11)) := by
  refine ⟨manyBufs_room _, manyBufs_sum _, ?_⟩
  intro hsends
  have hsum := manyBufs_sum (2^32 - 1)
  refine manyBufs_cut (2^32 - 1) (by decide) ?_
  exact (tryThenQueue_sends (manyBufs_room _) (by omega) (by omega)).mp hsends

end Libnodecc.Stream
