import Mathlib.Data.FinEnum
import Libnodecc.Buffer.Hashed

namespace Libnodecc.Buffer

open Util

def Area.Proper (a : Area) : Prop := a.size = 0 → a.data = none

/-- The hash that is kept is not known, or that of these bytes. -/
def Hashed.Right (this : Hashed) (bs : Bytes) : Prop :=
  this.constHash = 0 ∨ this.constHash = Hashed.hashOf bs

def HashedState.At (s : HashedState) (i : Nat) (P : Hashed → Prop) : Prop :=
  ∀ this, s.values[i]? = some this → P this

instance (a : Area) : Decidable a.Proper := inferInstanceAs (Decidable (a.size = 0 → a.data = none))

instance (this : Hashed) (bs : Bytes) : Decidable (this.Right bs) :=
  inferInstanceAs (Decidable (_ ∨ _))

instance (s : HashedState) (i : Nat) (P : Hashed → Prop) [DecidablePred P] : Decidable (s.At i P) :=
  match h : s.values[i]? with
  | none => isTrue fun this hthis => by cases h.symm.trans hthis
  | some v => decidable_of_iff (P v) (by simp [HashedState.At, h])

/-- What keeps hashes and bytes together: literals have no negative characters, no object gets an
empty area that has a data pointer, and `reset`, `swap` and the assignment of a buffer to itself
are on objects whose hash is not known, or stays that of their bytes. -/
def HashedOp.Careful (s : HashedState) : HashedOp → Prop
  | .literal str => ∀ c ∈ str.bytes s.heap, c.toNat < 2^7
  | .constructPlain cls other => cls ≠ .hashedBufferView → other.Proper
  | .assignPlain _ other => other.Proper
  | .copyAssign i j => i = j → s.At i fun this => this.Owns → this.Right []
  | .reset i => s.At i fun this => this.Right []
  | .resetSize i content => s.At i fun this => this.Right content
  | .swap i j => s.At i fun this => s.At j fun other =>
      this.Right (other.area.bytes s.heap) ∧ other.Right (this.area.bytes s.heap)
  | .swapPlain i other => other.Proper ∧ s.At i fun this => this.Right (other.bytes s.heap)
  | _ => True

instance (s : HashedState) (op : HashedOp) : Decidable (op.Careful s) := by
  rcases op with _ | _ <;> unfold HashedOp.Careful <;> infer_instance

/-- An object whose bytes are there, and whose hash is right. -/
structure Hashed.Sound (heap : Heap UInt8) (this : Hashed) : Prop where
  live : this.area.Live heap
  proper : this.area.Proper
  right : this.Right (this.area.bytes heap)

def HashedState.Sound (s : HashedState) : Prop := ∀ v ∈ s.values, v.Sound s.heap

namespace Area

variable {heap : Heap UInt8} {a : Area}

theorem null_bytes : null.bytes heap = [] := rfl

theorem null_live : null.Live heap := rfl

theorem null_proper : null.Proper := fun _ => rfl

theorem Live.length (h : a.Live heap) : (a.bytes heap).length = a.size :=
  Heap.Room.cellsAt_length h

theorem Live.append (h : a.Live heap) (blk : Block UInt8) :
    a.Live (heap ++ [blk]) ∧ a.bytes (heap ++ [blk]) = a.bytes heap :=
  ⟨Heap.Room.append_block h blk, Heap.cellsAt_sameCells (Heap.append_sameCells heap blk) h _⟩

theorem view_proper (data : Option Ptr) (size : Nat) : (view data size).Proper := by
  intro hsize
  cases data with
  | none => simp [view]
  | some ptr =>
    have hz : size = 0 := hsize
    simp [view, hz]

/-- A view refers to the same bytes as the area it is made from. -/
theorem Live.view (h : a.Live heap) :
    (view a.data a.size).Live heap ∧ (view a.data a.size).bytes heap = a.bytes heap := by
  have hlen := h.length
  by_cases hz : a.size = 0
  · have hnull : Area.view a.data a.size = null := by simp [Area.view, hz, null]
    have hnone : a.bytes heap = [] := List.eq_nil_of_length_eq_zero (hlen.trans hz)
    rw [hnull, hnone]
    exact ⟨null_live, null_bytes⟩
  · have hsome : a.data.isSome := by
      cases hd : a.data with
      | some ptr => rfl
      | none =>
        unfold Live at h
        rw [hd] at h
        exact absurd h hz
    have hview : Area.view a.data a.size = a := by simp [Area.view, hz, hsome]
    rw [hview]
    exact ⟨h, rfl⟩

end Area

namespace Hashed

variable {heap : Heap UInt8} {this other : Hashed}

theorem right_unknown (bs : Bytes) (h : this.constHash = 0) : this.Right bs := Or.inl h

theorem Sound.hash_eq (h : this.Sound heap) : this.hash heap = hashOf (this.area.bytes heap) := by
  unfold hash
  split_ifs with hz
  · rfl
  · exact h.right.resolve_left hz

theorem Sound.cached (h : this.Sound heap) : (this.cached heap).Sound heap :=
  ⟨h.live, h.proper, Or.inr h.hash_eq⟩

theorem Sound.append (h : this.Sound heap) (blk : Block UInt8) : this.Sound (heap ++ [blk]) := by
  obtain ⟨hlive, hbytes⟩ := h.live.append blk
  refine ⟨hlive, h.proper, ?_⟩
  rw [hbytes]
  exact h.right

theorem Sound.take (hother : other.Sound heap) (harea : this.area = other.area)
    (hhash : this.constHash = other.constHash) : this.Sound heap := by
  refine ⟨harea ▸ hother.live, harea ▸ hother.proper, ?_⟩
  have hright := hother.right
  unfold Right at hright ⊢
  rwa [harea, hhash]

theorem Sound.view (hother : other.Sound heap)
    (harea : this.area = Area.view other.area.data other.area.size)
    (hhash : this.constHash = other.constHash) : this.Sound heap := by
  obtain ⟨hlive, hbytes⟩ := hother.live.view
  refine ⟨harea ▸ hlive, harea ▸ Area.view_proper _ _, ?_⟩
  have hright := hother.right
  unfold Right at hright ⊢
  rwa [harea, hbytes, hhash]

/-- Sound objects are equal if and only if their bytes are. -/
theorem Sound.equals_iff (h : this.Sound heap) (hother : other.Sound heap) :
    this.equals heap other = true ↔ this.area.bytes heap = other.area.bytes heap := by
  have hlen := h.live.length
  have hlen' := hother.live.length
  constructor
  · intro heq
    simp only [equals, Bool.and_eq_true, Bool.or_eq_true, beq_iff_eq] at heq
    obtain ⟨hsize, hdata | ⟨-, hbytes⟩⟩ := heq
    · simp only [Area.bytes, hsize, hdata]
    · exact hbytes
  · intro hbytes
    have hsize : this.area.size = other.area.size := by rw [← hlen, ← hlen', hbytes]
    have hhash : this.hash heap = other.hash heap := by rw [h.hash_eq, hother.hash_eq, hbytes]
    by_cases hz : this.area.size = 0
    · have hdata : this.area.data = other.area.data := by
        rw [h.proper hz, hother.proper (hsize ▸ hz)]
      simp [equals, hsize, hdata]
    · have hsome (v : Hashed) (hv : v.Sound heap) (hpos : v.area.size ≠ 0) :
          v.area.data.isSome = true := by
        cases hd : v.area.data with
        | some ptr => rfl
        | none =>
          have hlive : heap.Room v.area.data v.area.size := hv.live
          rw [hd] at hlive
          exact absurd hlive hpos
      simp [equals, hsize, hhash, hbytes, hsome this h hz, hsome other hother (hsize ▸ hz)]

end Hashed

namespace HashedState

variable {s : HashedState}

theorem Sound.push (hs : s.Sound) {v : Hashed} (hv : v.Sound s.heap) : (s.push v).Sound := by
  intro w hw
  rcases List.mem_append.mp hw with hw | hw
  · exact hs w hw
  · obtain rfl := List.mem_singleton.mp hw
    exact hv

theorem Sound.put (hs : s.Sound) {v : Hashed} (hv : v.Sound s.heap) (i : Nat) :
    (s.put i v).Sound := by
  intro w hw
  rcases List.mem_or_eq_of_mem_set hw with hw | rfl
  · exact hs w hw
  · exact hv

theorem Sound.grow (hs : s.Sound) (cells : Bytes) : (s.grow cells).Sound :=
  fun v hv => (hs v hv).append _

theorem Sound.get (hs : s.Sound) {i : Nat} {v : Hashed} (hv : s.values[i]? = some v) :
    v.Sound s.heap :=
  hs v (List.mem_of_getElem? hv)

theorem newArea_spec (content slack : Bytes) :
    (s.newArea content).Live (s.grow (content ++ slack)).heap ∧ (s.newArea content).Proper ∧
      (s.newArea content).bytes (s.grow (content ++ slack)).heap = content := by
  by_cases hnil : content = []
  · rw [newArea, if_pos hnil, hnil]
    exact ⟨Area.null_live, Area.null_proper, rfl⟩
  · rw [newArea, if_neg hnil]
    refine ⟨⟨⟨content ++ slack, none, false⟩, ?_, rfl, ?_⟩, ?_, ?_⟩
    · simp [grow]
    · simp
    · exact fun hz => absurd (List.eq_nil_of_length_eq_zero hz) hnil
    · simp [Area.bytes, Heap.cellsAt, grow]

end HashedState

open Hashed HashedState

section
variable {s t : HashedState}

theorem default_sound {cls : HashedClass} {v : Hashed} (h : Hashed.default cls = some v)
    (heap : Heap UInt8) : v.Sound heap := by
  cases cls with
  | literalString => cases h
  | _ =>
    cases h
    exact ⟨Area.null_live, Area.null_proper, right_unknown _ rfl⟩

theorem copy_sound {heap : Heap UInt8} {other : Hashed} (h : other.Sound heap) :
    (copy other).Sound heap := by
  obtain ⟨cls, area, constHash⟩ := other
  cases cls with
  | hashedBuffer => exact h.take rfl rfl
  | hashedString => exact h.take rfl rfl
  | hashedBufferView => exact h.view rfl rfl
  | literalString => exact h.view rfl rfl

theorem ofPlain_sound {heap : Heap UInt8} {cls : HashedClass} {other : Area} {v : Hashed}
    (hlive : other.Live heap) (hproper : cls ≠ .hashedBufferView → other.Proper)
    (h : ofPlain cls other = some v) : v.Sound heap := by
  cases cls with
  | hashedBuffer =>
    cases h
    exact ⟨hlive, hproper (by decide), right_unknown _ rfl⟩
  | hashedString =>
    cases h
    exact ⟨hlive, hproper (by decide), right_unknown _ rfl⟩
  | hashedBufferView =>
    cases h
    exact ⟨hlive.view.1, Area.view_proper _ _, right_unknown _ rfl⟩
  | literalString => cases h

theorem literal_sound {heap : Heap UInt8} {str : Area} (hlive : str.Live heap)
    (h : ∀ c ∈ str.bytes heap, c.toNat < 2^7) : (Hashed.literal heap str).Sound heap := by
  have hview : (Area.view str.data str.size).bytes heap = str.bytes heap := hlive.view.2
  refine ⟨hlive.view.1, Area.view_proper _ _, ?_⟩
  have hconst : (Hashed.literal heap str).constHash = Fnv1a.hash .u64 (str.bytes heap) :=
    Fnv1a.constHash_ascii .u64 (str.bytes heap) h
  unfold Right
  rw [hconst]
  change _ ∨ _ = hashOf ((Area.view str.data str.size).bytes heap)
  rw [hview]
  by_cases hz : Fnv1a.hash .u64 (str.bytes heap) = 0
  · exact Or.inl hz
  · exact Or.inr (by simp only [hashOf, if_neg hz])

/-- An object of an own class that refers to other memory, and keeps a hash that is right for it. -/
theorem area_sound {heap : Heap UInt8} {this : Hashed} {other : Area} (hlive : other.Live heap)
    (hproper : other.Proper) (hright : this.Right (other.bytes heap)) :
    ({ this with area := other } : Hashed).Sound heap :=
  ⟨hlive, hproper, hright⟩

theorem release_sound {heap : Heap UInt8} {this : Hashed} (hright : this.Right []) :
    this.release.Sound heap :=
  area_sound Area.null_live Area.null_proper hright

theorem assign_sound {heap : Heap UInt8} {other : Hashed} (this : Hashed) (h : other.Sound heap) :
    (this.assign other).Sound heap :=
  h.take rfl rfl

theorem put_put (i : Nat) (v w : Hashed) : (s.put i v).put i w = s.put i w := by
  simp [put]

/-- The assignment of a buffer to itself leaves it empty, with the hash it had. -/
theorem copyAssign_sound {i j : Nat} (hs : s.Sound) (hop : (HashedOp.copyAssign i j).Careful s)
    (h : hashedStep s (.copyAssign i j) = some t) : t.Sound := by
  simp only [hashedStep, Option.bind_eq_bind, Option.bind_eq_some_iff,
    Option.ite_none_right_eq_some, Option.some.injEq] at h
  obtain ⟨this, hthis, this', hthis', other, hother, -, rfl⟩ := h
  by_cases howns : this.Owns
  · simp only [if_pos howns] at hthis' hother ⊢
    rw [put_put]
    by_cases hij : i = j
    · subst hij
      obtain rfl := Option.some.inj (hthis'.symm.trans hother)
      have hlt := (List.getElem?_eq_some_iff.mp hthis).1
      have hself : this' = this.release := by
        rw [put, List.getElem?_set_self hlt] at hthis'
        exact (Option.some.inj hthis').symm
      rw [hself]
      exact hs.put (release_sound (hop rfl this hthis howns)) i
    · rw [put, List.getElem?_set_ne hij] at hother
      exact hs.put (assign_sound _ (hs.get hother)) i
  · simp only [if_neg howns] at hthis' hother ⊢
    exact hs.put (assign_sound _ (hs.get hother)) i

/-- What is done with care leaves all objects sound. -/
theorem hashedStep_sound (op : HashedOp) (hs : s.Sound) (hop : op.Careful s)
    (h : hashedStep s op = some t) : t.Sound := by
  cases op with
  | copyAssign i j => exact copyAssign_sound hs hop h
  | callerMemory bytes =>
    cases h
    exact hs.grow bytes
  | literal str =>
    simp only [hashedStep, Option.ite_none_right_eq_some, Option.some.injEq] at h
    obtain ⟨hlive, rfl⟩ := h
    exact hs.push (literal_sound hlive hop)
  | default cls =>
    obtain ⟨v, hv, h⟩ := Option.bind_eq_some_iff.mp h
    cases h
    exact hs.push (default_sound hv _)
  | copyConstruct j =>
    obtain ⟨other, hother, h⟩ := Option.bind_eq_some_iff.mp h
    cases h
    exact hs.push (copy_sound (hs.get hother))
  | constructLiteral cls j =>
    obtain ⟨other, hother, h⟩ := Option.bind_eq_some_iff.mp h
    obtain ⟨v, hv, h⟩ := Option.bind_eq_some_iff.mp h
    cases h
    unfold ofLiteral at hv
    split_ifs at hv
    cases hv
    exact hs.push ((hs.get hother).view rfl rfl)
  | bufferOfMemory data size =>
    simp only [hashedStep, Option.ite_none_right_eq_some, Option.some.injEq] at h
    obtain ⟨-, rfl⟩ := h
    obtain ⟨hlive, hproper, -⟩ := newArea_spec (s := s) ((Area.view data size).bytes s.heap) []
    rw [List.append_nil] at hlive
    exact (hs.grow _).push ⟨hlive, hproper, right_unknown _ rfl⟩
  | viewOfMemory data size =>
    simp only [hashedStep, Option.ite_none_right_eq_some, Option.some.injEq] at h
    obtain ⟨hlive, rfl⟩ := h
    exact hs.push ⟨hlive, Area.view_proper _ _, right_unknown _ rfl⟩
  | constructPlain cls other =>
    obtain ⟨v, hv, h⟩ := Option.bind_eq_some_iff.mp h
    simp only [Option.ite_none_right_eq_some, Option.some.injEq] at h
    obtain ⟨hlive, rfl⟩ := h
    exact hs.push (ofPlain_sound hlive hop hv)
  | assignPlain i other =>
    obtain ⟨this, hthis, h⟩ := Option.bind_eq_some_iff.mp h
    simp only [Option.ite_none_right_eq_some, Option.some.injEq] at h
    obtain ⟨hlive, rfl⟩ := h
    have hproper : other.Proper := hop
    exact hs.put ⟨hlive, hproper, right_unknown _ rfl⟩ i
  | assignView i j =>
    obtain ⟨this, hthis, h⟩ := Option.bind_eq_some_iff.mp h
    obtain ⟨other, hother, h⟩ := Option.bind_eq_some_iff.mp h
    simp only [Option.ite_none_right_eq_some, Option.some.injEq] at h
    obtain ⟨-, rfl⟩ := h
    exact hs.put (assign_sound _ (hs.get hother)) i
  | reset i =>
    obtain ⟨this, hthis, h⟩ := Option.bind_eq_some_iff.mp h
    simp only [Option.ite_none_right_eq_some, Option.some.injEq] at h
    obtain ⟨-, rfl⟩ := h
    exact hs.put (release_sound (hop this hthis)) i
  | resetSize i content =>
    obtain ⟨this, hthis, h⟩ := Option.bind_eq_some_iff.mp h
    simp only [Option.ite_none_right_eq_some, Option.some.injEq] at h
    obtain ⟨-, rfl⟩ := h
    obtain ⟨hlive, hproper, hbytes⟩ := newArea_spec (s := s) content [0]
    refine (hs.grow _).put (area_sound hlive hproper ?_) i
    rw [hbytes]
    exact hop this hthis
  | swap i j =>
    obtain ⟨this, hthis, h⟩ := Option.bind_eq_some_iff.mp h
    obtain ⟨other, hother, h⟩ := Option.bind_eq_some_iff.mp h
    simp only [Option.ite_none_right_eq_some, Option.some.injEq] at h
    obtain ⟨-, rfl⟩ := h
    obtain ⟨hright, hright'⟩ := hop this hthis other hother
    have hthis := hs.get hthis
    have hother := hs.get hother
    have hfirst := hs.put (area_sound hother.live hother.proper hright) i
    exact hfirst.put (area_sound hthis.live hthis.proper hright') j
  | swapPlain i other =>
    obtain ⟨this, hthis, h⟩ := Option.bind_eq_some_iff.mp h
    simp only [Option.ite_none_right_eq_some, Option.some.injEq] at h
    obtain ⟨⟨-, hlive⟩, rfl⟩ := h
    exact hs.put (area_sound hlive hop.1 (hop.2 this hthis)) i
  | hash i =>
    obtain ⟨this, hthis, h⟩ := Option.bind_eq_some_iff.mp h
    cases h
    exact hs.put (hs.get hthis).cached i
  | equals i j =>
    obtain ⟨this, hthis, h⟩ := Option.bind_eq_some_iff.mp h
    obtain ⟨other, hother, h⟩ := Option.bind_eq_some_iff.mp h
    have hfirst := hs.put (hs.get hthis).cached i
    by_cases hcompares : this.Compares other
    · rw [if_pos hcompares] at h
      cases h
      exact hfirst.put (v := other.cached s.heap) (hs.get hother).cached j
    · rw [if_neg hcompares] at h
      cases h
      exact hs

end

/-- `std::unordered_map::find`: the keys with the same hash are compared. -/
def findKey (heap : Heap UInt8) (keys : List Hashed) (key : Hashed) : Option Hashed :=
  keys.find? fun k => k.hash heap == key.hash heap && k.equals heap key

/-- In every state of a run in which all is done with care, objects are equal if and only if they
denote the same bytes, and then have the same hash; and every key with the same bytes is found. -/
theorem equals_iff_bytes (ops : List HashedOp) (s : HashedState)
    (hcareful : Along hashedStep (fun s op => op.Careful s) HashedState.init ops)
    (hrun : run hashedStep HashedState.init ops = some s) (a b : Hashed) (ha : a ∈ s.values)
    (hb : b ∈ s.values) :
    (a.equals s.heap b = true ↔ a.area.bytes s.heap = b.area.bytes s.heap) ∧
      (a.equals s.heap b = true → a.hash s.heap = b.hash s.heap) ∧
      ∀ keys, b ∈ keys → a.area.bytes s.heap = b.area.bytes s.heap →
        (findKey s.heap keys a).isSome = true := by
  have hs : s.Sound := run_invariant HashedState.Sound
    (fun s op t hs hop ht => hashedStep_sound op hs hop ht) ops _ s (fun v hv => by cases hv)
    hcareful hrun
  have hiff := (hs a ha).equals_iff (hs b hb)
  have hhash (hbytes : a.area.bytes s.heap = b.area.bytes s.heap) :
      a.hash s.heap = b.hash s.heap := by
    rw [(hs a ha).hash_eq, (hs b hb).hash_eq, hbytes]
  refine ⟨hiff, fun heq => hhash (hiff.mp heq), fun keys hkeys hbytes => ?_⟩
  have heq := ((hs b hb).equals_iff (hs a ha)).mpr hbytes.symm
  rw [findKey, List.find?_isSome]
  exact ⟨b, hkeys, by rw [heq, hhash hbytes, Bool.and_true, beq_self_eq_true]⟩

/-- A buffer and a literal of the same bytes, and a buffer that is reset before it is hashed. -/
def foobarRun : List HashedOp :=
  [.callerMemory (ascii "foobar"), .bufferOfMemory (some ⟨0, 0⟩) 6, .literal ⟨some ⟨0, 0⟩, 6⟩,
    .copyConstruct 0, .reset 2, .equals 0 1]

theorem equals_iff_bytes_foobar : ∃ s a b c, run hashedStep HashedState.init foobarRun = some s ∧
    s.values = [a, b, c] ∧
    (a.equals s.heap b = true ↔ a.area.bytes s.heap = b.area.bytes s.heap) := by
  have hsome : (run hashedStep HashedState.init foobarRun).isSome = true := by decide +kernel
  obtain ⟨s, hs⟩ := Option.isSome_iff_exists.mp hsome
  have hlen : (run hashedStep HashedState.init foobarRun).map (fun s => s.values.length) =
      some 3 := by
    decide +kernel
  rw [hs, Option.map_some, Option.some.injEq] at hlen
  obtain ⟨a, b, c, hv⟩ := List.length_eq_three.mp hlen
  have hiff := (equals_iff_bytes foobarRun s (by decide +kernel) hs a b (by simp [hv])
    (by simp [hv])).1
  exact ⟨s, a, b, c, hs, hv, hiff⟩

/-- Whether the first two objects have the same bytes, are equal, and have the same hash. -/
def compared (ops : List HashedOp) : Option (Bool × Bool × Bool) :=
  (run hashedStep HashedState.init ops).bind fun s =>
    match s.values with
    | a :: b :: _ => some (a.area.bytes s.heap == b.area.bytes s.heap, a.equals s.heap b,
        a.hash s.heap == b.hash s.heap)
    | _ => none

/-- A literal with a negative character is not equal to its bytes; what was hashed before a `swap`,
a `reset` or an assignment to itself keeps the hash; and two empty buffers are not equal where one
has a data pointer. -/
theorem equals_fails :
    compared [.callerMemory [0xff], .bufferOfMemory (some ⟨0, 0⟩) 1, .literal ⟨some ⟨0, 0⟩, 1⟩] =
      some (true, false, false) ∧
    compared [.callerMemory (ascii "aba"), .viewOfMemory (some ⟨0, 0⟩) 1,
      .bufferOfMemory (some ⟨0, 1⟩) 1, .hash 1, .swapPlain 1 ⟨some ⟨0, 2⟩, 1⟩] =
      some (true, false, false) ∧
    compared [.callerMemory (ascii "a"), .bufferOfMemory (some ⟨0, 0⟩) 1, .default .hashedBuffer,
      .hash 0, .reset 0] = some (true, true, false) ∧
    compared [.callerMemory (ascii "a"), .bufferOfMemory (some ⟨0, 0⟩) 1, .default .hashedBuffer,
      .hash 0, .copyAssign 0 0] = some (true, true, false) ∧
    compared [.callerMemory (ascii "a"), .default .hashedBuffer,
      .constructPlain .hashedBuffer ⟨some ⟨0, 0⟩, 0⟩] = some (true, false, true) := by
  decide +kernel

end Libnodecc.Buffer
