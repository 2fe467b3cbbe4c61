import Libnodecc.Buffer.ControlBlocks
import Libnodecc.Framework.Outcome
import Libnodecc.Framework.Run

namespace Libnodecc.Buffer.Counting

/-- How many of the live handles point to the control block `b`. -/
def State.handlesTo (s : State) (b : Nat) : Nat :=
  s.objects.countP fun o => o.any fun h => h.base.p == some b

/-- Every control block counts the handles that point to it, and was freed once if there are none;
a handle with a control block points into memory that was not freed. -/
structure State.Counted (s : State) : Prop where
  counts : ∀ (b : Nat) (c : Shared Control), s.blocks[b]? = some c → c.useCount = s.handlesTo b
  freed : ∀ (b : Nat) (c : Shared Control), s.blocks[b]? = some c →
    c.content.frees = (if s.handlesTo b = 0 then 1 else 0) ∧
      c.content.deleterCalls = if s.handlesTo b = 0 ∧ c.content.isDefault = false then 1 else 0
  points : ∀ (i b : Nat) (h : Handle), s.objects[i]? = some (some h) → h.base.p = some b →
    ∃ c, s.blocks[b]? = some c ∧ c.content.frees = 0 ∧ c.content.deleterCalls = 0 ∧
      ∀ ptr, h.base.data = some ptr →
        ptr.area = .counted b ∧ ptr.off + h.base.size ≤ c.content.extent

/-- What a buffer shows is in the memory of its control block. -/
def Fields.Points (extents : List Nat) (r : Fields) : Prop :=
  ∀ b ptr, r.p = some b → r.data = some ptr →
    ptr.area = .counted b ∧ ∃ n, extents[b]? = some n ∧ ptr.off + r.size ≤ n

def fieldsOf : Option Handle → Fields
  | none => .zero
  | some h => h.base

namespace State

def extents (s : State) : List Nat := s.blocks.map fun c => c.content.extent

def refs (s : State) : List Fields := s.objects.map fieldsOf

/-- The references of the handles and those in `flying` are all there are. -/
structure Wf (s : State) (flying : List Fields) : Prop where
  balanced : useCounting.Balanced s.blocks ((flying ++ s.refs).map Fields.p)
  points : ∀ r ∈ flying ++ s.refs, r.Points s.extents
  room : s.objects.length ≤ maxObjects

/-- The handle at `i` shows nothing. -/
def Empty (s : State) (i : Nat) : Prop := ∃ h, s.objects[i]? = some (some h) ∧ h.base = .zero

end State

theorem State.Empty.congr {s t : State} {i : Nat} (h : s.Empty i)
    (hobjects : t.objects = s.objects) : t.Empty i := by
  rw [Empty, hobjects]
  exact h

abbrev Safe {α : Type} (Q : α → Prop) (x : Call α) : Prop := Ends (· ≠ .freed) Q x

theorem need_safe (stop : Stop) (hstop : stop ≠ .freed) (c : Prop) [Decidable c] :
    Safe (fun _ => c) (need stop c) := by
  rw [need]
  split_ifs with hc
  · exact hc
  · exact hstop

theorem Fields.zero_points (extents : List Nat) : Fields.zero.Points extents := nofun

theorem Fields.points_append {extents : List Nat} {r : Fields} (h : r.Points extents)
    (more : List Nat) : r.Points (extents ++ more) := by
  intro b ptr hp hd
  obtain ⟨harea, n, hn, hle⟩ := h b ptr hp hd
  have hlt := (List.getElem?_eq_some_iff.mp hn).1
  exact ⟨harea, n, by rw [List.getElem?_append_left hlt]; exact hn, hle⟩

/-- A slice shows nothing, or a section of what is sliced. -/
theorem Fields.slice_cases (this : Fields) (first last : Nat) :
    this.slice first last = .zero ∨
      ∃ ptr cbeg cend, this.data = some ptr ∧ cbeg < cend ∧ cend ≤ this.size ∧
        this.slice first last = ⟨some { ptr with off := ptr.off + cbeg }, cend - cbeg, this.p⟩ := by
  cases hdata : this.data with
  | none =>
    left
    rw [Fields.slice, hdata]
  | some ptr =>
    rw [Fields.slice, hdata]
    by_cases hlt : min first this.size < min last this.size
    · right
      exact ⟨ptr, _, _, rfl, hlt, Nat.min_le_right last this.size, if_pos hlt⟩
    · left
      exact if_neg hlt

theorem Fields.slice_points {extents : List Nat} {this : Fields} (h : this.Points extents)
    (first last : Nat) : (this.slice first last).Points extents := by
  rcases this.slice_cases first last with hslice | ⟨ptr₀, cbeg, cend, hdata, hlt, hle, hslice⟩
  · rw [hslice]
    exact Fields.zero_points extents
  · rw [hslice]
    intro b ptr hp hd
    cases hd
    obtain ⟨harea, n, hn, hroom⟩ := h b ptr₀ hp hdata
    refine ⟨harea, n, hn, ?_⟩
    change ptr₀.off + cbeg + (cend - cbeg) ≤ n
    omega

theorem Fields.slice_p (this : Fields) (first last : Nat)
    (h : (this.slice first last).p.isSome) : (this.slice first last).p = this.p := by
  rcases this.slice_cases first last with hslice | ⟨ptr₀, cbeg, cend, -, -, -, hslice⟩
  · rw [hslice] at h
    cases h
  · rw [hslice]

namespace State

variable {s : State} {flying : List Fields}

theorem get_safe (s : State) (i : Nat) :
    Safe (fun h => s.objects[i]? = some (some h)) (s.get i) := by
  rw [get]
  split
  · assumption
  · exact Ends.throw nofun

theorem getAs_safe (s : State) (kind : Kind) (i : Nat) :
    Safe (fun h => s.objects[i]? = some (some h)) (s.getAs kind i) := by
  apply Ends.bind (get_safe s i)
  intro h hh
  apply Ends.bind (need_safe .absent nofun _)
  intro _ _
  exact hh

namespace Wf

theorem of_perm {t : State} {flying' : List Fields} (hw : s.Wf flying)
    (hblocks : t.blocks = s.blocks) (hroom : t.objects.length = s.objects.length)
    (hperm : (flying ++ s.refs).Perm (flying' ++ t.refs)) : t.Wf flying' := by
  refine ⟨?_, ?_, ?_⟩
  · rw [hblocks]
    exact hw.balanced.perm (hperm.map Fields.p)
  · intro r hr
    have hext : t.extents = s.extents := by rw [extents, hblocks, extents]
    rw [hext]
    exact hw.points r (hperm.mem_iff.mpr hr)
  · rw [hroom]
    exact hw.room

theorem zero_cons : s.Wf (.zero :: flying) ↔ s.Wf flying := by
  constructor
  · intro hw
    refine ⟨Disposal.Balanced.none_cons.mp hw.balanced, ?_, hw.room⟩
    intro r hr
    exact hw.points r (List.mem_cons_of_mem _ hr)
  · intro hw
    refine ⟨Disposal.Balanced.none_cons.mpr hw.balanced, ?_, hw.room⟩
    intro r hr
    rcases List.mem_cons.mp hr with rfl | hr
    · exact Fields.zero_points _
    · exact hw.points r hr

/-- A place gets the reference in flight, and gives away the one it had. -/
theorem exchange {i : Nat} {o x : Option Handle} (hw : s.Wf (fieldsOf x :: flying))
    (ho : s.objects[i]? = some o) : (s.put i x).Wf (fieldsOf o :: flying) := by
  obtain ⟨hi, rfl⟩ := List.getElem?_eq_some_iff.mp ho
  let rest := (s.objects.eraseIdx i).map fieldsOf
  have hold : s.refs.Perm (fieldsOf s.objects[i] :: rest) :=
    (List.getElem_cons_eraseIdx_perm hi).symm.map fieldsOf
  have hnew : (s.put i x).refs.Perm (fieldsOf x :: rest) :=
    (List.set_perm_cons_eraseIdx hi x).map fieldsOf
  refine hw.of_perm rfl List.length_set ?_
  calc (fieldsOf x :: flying ++ s.refs).Perm
        (fieldsOf x :: flying ++ (fieldsOf s.objects[i] :: rest)) := hold.append_left _
    _ |>.Perm (fieldsOf s.objects[i] :: (fieldsOf x :: flying ++ rest)) := List.perm_middle
    _ |>.Perm (fieldsOf s.objects[i] :: (flying ++ fieldsOf x :: rest)) :=
        (List.perm_middle.symm).cons _
    _ |>.Perm (fieldsOf s.objects[i] :: flying ++ (s.put i x).refs) :=
        ((hnew.symm).append_left flying).cons _

theorem land {i : Nat} {o x : Option Handle} (hw : s.Wf (fieldsOf x :: flying))
    (ho : s.objects[i]? = some o) (hzero : fieldsOf o = .zero) : (s.put i x).Wf flying := by
  have h := hw.exchange ho
  rw [hzero] at h
  exact zero_cons.mp h

theorem land_empty {i : Nat} {o : Option Handle} (hw : s.Wf (fieldsOf o :: flying))
    (hi : s.Empty i) : (s.put i o).Wf flying := by
  obtain ⟨h, hh, hzero⟩ := hi
  exact hw.land hh hzero

theorem lift {i : Nat} {o x : Option Handle} (hw : s.Wf flying) (ho : s.objects[i]? = some o)
    (hzero : fieldsOf x = .zero) : (s.put i x).Wf (fieldsOf o :: flying) := by
  apply exchange _ ho
  rw [hzero]
  exact zero_cons.mpr hw

theorem keep {i : Nat} {o x : Option Handle} (hw : s.Wf flying) (ho : s.objects[i]? = some o)
    (hsame : fieldsOf x = fieldsOf o) : (s.put i x).Wf flying := by
  obtain ⟨hi, rfl⟩ := List.getElem?_eq_some_iff.mp ho
  refine hw.of_perm rfl List.length_set (List.Perm.append_left _ (List.Perm.of_eq ?_))
  change s.objects.map fieldsOf = (s.objects.set i x).map fieldsOf
  rw [List.map_set, hsame, ← List.map_set, List.set_getElem_self]

theorem shrink {r r' : Fields} (hw : s.Wf (r :: flying)) (hp : r'.p = r.p)
    (hdata : r'.data = r.data) (hsize : r'.size ≤ r.size) : s.Wf (r' :: flying) := by
  refine ⟨?_, ?_, hw.room⟩
  · have h := hw.balanced
    simp only [List.cons_append, List.map_cons] at h ⊢
    rw [hp]
    exact h
  · intro x hx
    rcases List.mem_cons.mp hx with rfl | hx
    · intro b ptr hb hd
      obtain ⟨harea, n, hn, hle⟩ :=
        hw.points r (by simp) b ptr (hp.symm.trans hb) (hdata.symm.trans hd)
      exact ⟨harea, n, hn, by omega⟩
    · exact hw.points x (List.mem_cons_of_mem _ hx)

theorem owners_lt (hw : s.Wf flying) (hfew : flying.length ≤ 2) :
    ((flying ++ s.refs).map Fields.p).length + 1 < useCounting.limit := by
  have hlen : ((flying ++ s.refs).map Fields.p).length = flying.length + s.objects.length := by
    simp [refs]
  have hroom := hw.room
  simp only [maxObjects] at hroom
  rw [hlen]
  change _ < 2^64
  omega

theorem of_blocks {blocks : List (Shared Control)} {flying' : List Fields} (hw : s.Wf flying)
    (hbalanced : useCounting.Balanced blocks ((flying' ++ s.refs).map Fields.p))
    (hext : blocks.map (fun c => c.content.extent) = s.extents)
    (hpoints : ∀ r ∈ flying', r ∈ flying ++ s.refs ∨ r.Points s.extents) :
    ({ s with blocks := blocks } : State).Wf flying' := by
  refine ⟨hbalanced, ?_, hw.room⟩
  intro r hr
  change r.Points (blocks.map fun c => c.content.extent)
  rw [hext]
  rcases List.mem_append.mp hr with hr | hr
  · rcases hpoints r hr with hr | hr
    · exact hw.points r hr
    · exact hr
  · exact hw.points r (List.mem_append_right _ hr)

theorem retain_safe (hw : s.Wf flying) (hfew : flying.length ≤ 1) (r r₀ : Fields)
    (hr₀ : r₀ ∈ flying ++ s.refs) (hp : r.p.isSome → r.p = r₀.p) (hpoints : r.Points s.extents) :
    Safe (fun t => t.Wf (r :: flying) ∧ t.objects = s.objects) (s.retain r) := by
  obtain ⟨blocks, hblocks, hbalanced⟩ := hw.balanced.retain r.p
    (fun h => List.mem_map.mpr ⟨r₀, hr₀, (hp h).symm⟩) (hw.owners_lt (by omega))
  have hcall : s.retain r = .ok { s with blocks := blocks } := by
    rw [State.retain, hblocks]
    rfl
  rw [hcall]
  refine ⟨hw.of_blocks hbalanced (Disposal.retain_map (f := Control.extent) hblocks) ?_, rfl⟩
  intro x hx
  rcases List.mem_cons.mp hx with rfl | hx
  · exact .inr hpoints
  · exact .inl (List.mem_append_left _ hx)

theorem free_extent (c : Control) : c.free.extent = c.extent := by
  rw [Control.free]
  split_ifs <;> rfl

/-- A handle gives its reference back. -/
theorem release_safe (hw : s.Wf flying) (hfew : flying.length ≤ 1) (i : Nat) :
    Safe (fun t => t.Wf flying ∧ t.Empty i) (s.release i) := by
  apply Ends.bind (get_safe s i)
  intro this hthis
  have hlift : (s.put i (some { this with base := .zero })).Wf (this.base :: flying) :=
    hw.lift hthis rfl
  have hlt := hlift.owners_lt (by simp only [List.length_cons]; omega)
  obtain ⟨blocks, hblocks, hbalanced⟩ := hlift.balanced.release (Nat.lt_of_succ_lt hlt)
  change useCounting.release s.blocks this.base.p = some blocks at hblocks
  rw [hblocks]
  constructor
  · apply hlift.of_blocks hbalanced
    · exact Disposal.release_map (f := Control.extent) free_extent hblocks
    · intro r hr
      exact .inl (List.mem_cons_of_mem _ (List.mem_append_left _ hr))
  · have hi := (List.getElem?_eq_some_iff.mp hthis).1
    exact ⟨{ this with base := .zero }, List.getElem?_set_self hi, rfl⟩

/-- A new control block, and the first reference to it. -/
theorem fresh (hw : s.Wf flying) (isDefault : Bool) (extent : Nat) (r : Fields)
    (hp : r.p = some s.blocks.length)
    (hdata : ∀ ptr, r.data = some ptr →
      ptr.area = .counted s.blocks.length ∧ ptr.off + r.size ≤ extent) :
    ({ s with blocks := s.blocks ++ [⟨1, ⟨isDefault, extent, 0, 0⟩⟩] } : State).Wf
      (r :: flying) := by
  refine ⟨?_, ?_, hw.room⟩
  · change useCounting.Balanced _ (r.p :: (flying ++ s.refs).map Fields.p)
    rw [hp]
    exact hw.balanced.fresh _ rfl
  · intro x hx
    have hext : ({ s with blocks := s.blocks ++ [⟨1, ⟨isDefault, extent, 0, 0⟩⟩] } : State).extents =
        s.extents ++ [extent] := by simp [extents]
    rw [hext]
    rcases List.mem_cons.mp hx with rfl | hx
    · intro b ptr hb hd
      rw [hp] at hb
      cases hb
      obtain ⟨harea, hle⟩ := hdata ptr hd
      refine ⟨harea, extent, ?_, hle⟩
      have hlen : s.blocks.length = s.extents.length := by simp [extents]
      rw [hlen, List.getElem?_concat_length]
    · exact Fields.points_append (hw.points x hx) _

theorem uncounted {r : Fields} (hw : s.Wf flying) (hp : r.p = none) : s.Wf (r :: flying) := by
  refine ⟨?_, ?_, hw.room⟩
  · change useCounting.Balanced _ (r.p :: (flying ++ s.refs).map Fields.p)
    rw [hp]
    exact Disposal.Balanced.none_cons.mpr hw.balanced
  · intro x hx
    rcases List.mem_cons.mp hx with rfl | hx
    · intro b ptr hb
      rw [hp] at hb
      cases hb
    · exact hw.points x hx

theorem base_mem {i : Nat} {h : Handle} (hh : s.objects[i]? = some (some h)) :
    h.base ∈ flying ++ s.refs :=
  List.mem_append_right _ (List.mem_map.mpr ⟨some h, List.mem_of_getElem? hh, rfl⟩)

theorem resetUnsafe_safe (hw : s.Wf flying) (n : Nat) (served : Bool) :
    Safe (fun x => x.1.Wf (x.2 :: flying) ∧ x.1.objects = s.objects ∧ x.2.size = n)
      (s.resetUnsafe n served) := by
  rw [State.resetUnsafe]
  split_ifs with hn hserved
  · exact ⟨zero_cons.mpr hw, rfl, hn.symm⟩
  · refine ⟨hw.fresh true n _ rfl ?_, rfl, rfl⟩
    intro ptr hptr
    cases hptr
    exact ⟨rfl, Nat.le_of_eq (Nat.zero_add n)⟩
  · exact Ends.throw nofun

theorem stringResetUnsafe_safe (hw : s.Wf flying) (n : Nat) (served : Bool) :
    Safe (fun x => x.1.Wf (x.2 :: flying) ∧ x.1.objects = s.objects)
      (s.stringResetUnsafe n served) := by
  rw [State.stringResetUnsafe]
  split_ifs with hn
  · exact ⟨zero_cons.mpr hw, rfl⟩
  · apply Ends.bind (hw.resetUnsafe_safe (sizeT (n + 1)) served)
    rintro ⟨t, str⟩ ⟨ht, hobjects, hsize⟩
    refine ⟨?_, hobjects⟩
    change t.Wf ((if str.size = 0 then str else { str with size := sizeT n }) :: flying)
    by_cases hzero : str.size = 0
    · rw [if_pos hzero]
      exact ht
    · rw [if_neg hzero]
      refine ht.shrink rfl rfl ?_
      -- the terminator is behind what the string shows
      change sizeT n ≤ str.size
      change str.size = sizeT (n + 1) at hsize
      rw [hsize] at hzero ⊢
      simp only [sizeT] at hzero ⊢
      omega

theorem stringCopy_safe (hw : s.Wf flying) (this : Fields) (n : Nat) (served : Bool) :
    Safe (fun x => x.1.Wf (x.2 :: flying) ∧ x.1.objects = s.objects)
      (s.stringCopy this n served) := by
  apply Ends.bind (hw.stringResetUnsafe_safe _ served)
  rintro ⟨t, str⟩ ht
  dsimp only
  cases str.data with
  | none => exact Ends.throw nofun
  | some _ => exact ht

theorem setDerived_safe (hw : s.Wf flying) (i : Nat) (derived : Derived) :
    Safe (fun t => t.Wf flying) (s.setDerived i derived) := by
  apply Ends.bind (get_safe s i)
  intro this hthis
  exact hw.keep hthis rfl

theorem view_safe (s : State) (v : View) : Safe (fun r => r.p = none) (s.view v) := by
  cases v with
  | memory data size => rfl
  | handle j =>
    apply Ends.bind (get_safe s j)
    intro other _
    rfl

/-- A handle was made for the place `i`. -/
def Made (i : Nat) (x : State × Handle) : Prop := x.1.Wf [x.2.base] ∧ x.1.objects[i]? = some none

theorem made_beside {i : Nat} {t : State} {h : Handle} (hi : s.objects[i]? = some none)
    (ht : t.Wf [h.base]) (hobjects : t.objects = s.objects) : Made i (t, h) := by
  refine ⟨ht, ?_⟩
  change t.objects[i]? = some none
  rw [hobjects]
  exact hi

section
variable {i : Nat} (hw : s.Wf []) (hi : s.objects[i]? = some none)
include hw hi

theorem made_uncounted (h : Handle) (hp : h.base.p = none) : Made i (s, h) :=
  ⟨hw.uncounted hp, hi⟩

theorem retain_made {j : Nat} {other : Handle} (hother : s.objects[j]? = some (some other))
    (r : Fields) (derived : Derived) (hp : r.p.isSome → r.p = other.base.p)
    (hpoints : r.Points s.extents) :
    Safe (Made i) (do
      let t ← s.retain r
      pure (t, ⟨r, derived⟩)) := by
  apply Ends.bind (hw.retain_safe (by simp) r other.base (base_mem hother) hp hpoints)
  rintro t ⟨ht, hobjects⟩
  exact made_beside hi ht hobjects

theorem constructCopied_safe (kind passed : Kind) (j : Nat) :
    Safe (Made i) (s.constructCopied kind passed j) := by
  apply Ends.bind (getAs_safe s passed j)
  intro other hother
  apply Ends.bind (need_safe .absent nofun _)
  intro _ _
  exact retain_made hw hi hother _ _ (fun _ => rfl) (hw.points _ (base_mem hother))

theorem constructMoved_safe (kind passed : Kind) (j : Nat) :
    Safe (Made i) (s.constructMoved kind passed j) := by
  rw [State.constructMoved]
  split_ifs with hkind
  · exact constructCopied_safe hw hi kind passed j
  · apply Ends.bind (getAs_safe s passed j)
    intro other hother
    apply Ends.bind (need_safe .absent nofun _)
    intro _ _
    have hne : j ≠ i := by
      rintro rfl
      rw [hother] at hi
      cases hi
    refine ⟨hw.lift hother rfl, ?_⟩
    change (s.objects.set j _)[i]? = some none
    rw [List.getElem?_set_ne hne]
    exact hi

theorem sized_made (n : Nat) (served : Bool) (f : Fields → Handle)
    (hp : ∀ r, (f r).base.p = r.p) (hdata : ∀ r, (f r).base.data = r.data)
    (hsize : ∀ r, (f r).base.size ≤ r.size) :
    Safe (Made i) (do
      let (t, r) ← s.resetUnsafe n served
      pure (t, f r)) := by
  apply Ends.bind (hw.resetUnsafe_safe n served)
  rintro ⟨t, r⟩ ⟨ht, hobjects, -⟩
  exact made_beside hi (ht.shrink (hp r) (hdata r) (hsize r)) hobjects

theorem construct_safe (source : Source) : Safe (Made i) (s.construct source) := by
  cases source with
  | empty kind => exact made_uncounted hw hi _ rfl
  | sized kind n served =>
    cases kind with
    | buffer =>
      exact sized_made hw hi n served (fun r => ⟨r, .buffer⟩) (fun _ => rfl) (fun _ => rfl)
        fun _ => Nat.le_refl _
    | mutable =>
      exact sized_made hw hi n served (fun r => ⟨{ r with size := 0 }, .mutable r.size⟩)
        (fun _ => rfl) (fun _ => rfl) fun _ => Nat.zero_le _
    | string =>
      apply Ends.bind (hw.stringResetUnsafe_safe n served)
      rintro ⟨t, str⟩ ⟨ht, hobjects⟩
      exact made_beside hi ht hobjects
    | hashed => exact Ends.throw nofun
  | copied kind passed j => exact constructCopied_safe hw hi kind passed j
  | moved kind passed j => exact constructMoved_safe hw hi kind passed j
  | memory kind view copy served =>
    have hview : Safe (Made i) (do
        let other ← s.view view
        pure (s, ⟨weak other.data other.size, taken kind .buffer ⟨other, .buffer⟩⟩)) := by
      apply Ends.bind (view_safe s view)
      intro other _
      exact made_uncounted hw hi _ rfl
    have hcopy : Safe (Made i) (do
        let other ← s.view view
        let (s, r) ← s.copy (weak other.data other.size) 0 served
        pure (s, ⟨r, taken kind .buffer ⟨r, .buffer⟩⟩)) := by
      apply Ends.bind (view_safe s view)
      intro other _
      exact sized_made hw hi _ served (fun r => ⟨r, taken kind .buffer ⟨r, .buffer⟩⟩)
        (fun _ => rfl) (fun _ => rfl) fun _ => Nat.le_refl _
    cases kind with
    | mutable => exact Ends.throw nofun
    | buffer => cases copy with
      | true => exact hcopy
      | false => exact hview
    | string => cases copy with
      | true => exact hcopy
      | false => exact hview
    | hashed => cases copy with
      | true => exact hcopy
      | false => exact Ends.throw nofun
  | literal kind data size hash =>
    cases kind with
    | mutable => exact Ends.throw nofun
    | buffer => exact made_uncounted hw hi _ rfl
    | string => exact made_uncounted hw hi _ rfl
    | hashed => exact made_uncounted hw hi _ rfl
  | stringOfView view served =>
    apply Ends.bind (view_safe s view)
    intro other _
    apply Ends.bind (hw.stringResetUnsafe_safe other.size served)
    rintro ⟨t, str⟩ ⟨ht, hobjects⟩
    apply Ends.bind (need_safe .nullAccess nofun _)
    intro _ _
    exact made_beside hi ht hobjects
  | stringOfMemory data size served =>
    apply Ends.bind (hw.stringCopy_safe _ 0 served)
    rintro ⟨t, str⟩ ⟨ht, hobjects⟩
    exact made_beside hi ht hobjects
  | deleter kind isNull size served =>
    apply Ends.bind (need_safe .absent nofun _)
    intro _ _
    apply Ends.bind (need_safe .badAlloc nofun _)
    intro _ _
    refine ⟨hw.fresh false size _ rfl ?_, hi⟩
    intro ptr hptr
    change (if isNull = true then none else some _) = some ptr at hptr
    split_ifs at hptr
    cases hptr
    exact ⟨rfl, Nat.le_of_eq (Nat.zero_add size)⟩
  | copy j n served =>
    apply Ends.bind (get_safe s j)
    intro this _
    exact sized_made hw hi _ served (fun r => ⟨r, .buffer⟩) (fun _ => rfl) (fun _ => rfl)
      fun _ => Nat.le_refl _
  | stringCopy j n served =>
    apply Ends.bind (getAs_safe s .string j)
    intro this _
    apply Ends.bind (hw.stringCopy_safe this.base n served)
    rintro ⟨t, str⟩ ⟨ht, hobjects⟩
    exact made_beside hi ht hobjects
  | slice j first last =>
    apply Ends.bind (get_safe s j)
    intro this hthis
    exact retain_made hw hi hthis _ _ (this.base.slice_p first last)
      (Fields.slice_points (hw.points _ (base_mem hthis)) first last)
  | mutableSlice j first last =>
    apply Ends.bind (getAs_safe s .mutable j)
    intro this hthis
    exact retain_made hw hi hthis _ _ (this.base.slice_p first last)
      (Fields.slice_points (hw.points _ (base_mem hthis)) first last)

end

theorem swap_safe (hw : s.Wf []) (i j : Nat) : Safe (fun t => t.Wf []) (s.swap i j) := by
  apply Ends.bind (get_safe s i)
  intro this hthis
  apply Ends.bind (get_safe s j)
  intro other hother
  apply Ends.bind (get_safe _ j)
  intro other' hother'
  change ((s.put i (some { this with base := other.base })).put j
    (some { other' with base := this.base })).Wf []
  have hi := (List.getElem?_eq_some_iff.mp hthis).1
  by_cases hij : i = j
  · subst hij
    obtain rfl : this = other := by
      rw [hthis] at hother
      cases hother
      rfl
    have hput : (s.put i (some { this with base := this.base })).Wf [] := hw.keep hthis rfl
    apply hput.keep hother'
    change (s.objects.set i _)[i]? = _ at hother'
    rw [List.getElem?_set_self hi] at hother'
    cases hother'
    rfl
  · -- the reference of `other` takes off, lands at `i`, and that of `this` lands at `j`
    have hlift : (s.put j (some { other with base := .zero })).Wf [other.base] :=
      hw.lift hother rfl
    have hthis' : (s.put j (some { other with base := .zero })).objects[i]? = some (some this) := by
      change (s.objects.set j _)[i]? = _
      rw [List.getElem?_set_ne (Ne.symm hij)]
      exact hthis
    have hturn := hlift.exchange (x := some { this with base := other.base }) hthis'
    have hzero : ((s.put j (some { other with base := .zero })).put i
        (some { this with base := other.base })).objects[j]? =
          some (some { other with base := .zero }) := by
      change ((s.objects.set j _).set i _)[j]? = _
      rw [List.getElem?_set_ne hij, List.getElem?_set_self]
      exact (List.getElem?_eq_some_iff.mp hother).1
    have hland := hturn.land (x := some { other' with base := this.base }) hzero rfl
    have hsame : ((s.put j (some { other with base := .zero })).put i
        (some { this with base := other.base })).put j (some { other' with base := this.base }) =
          (s.put i (some { this with base := other.base })).put j
            (some { other' with base := this.base }) := by
      simp only [put, State.mk.injEq, true_and]
      rw [List.set_comm _ _ (Ne.symm hij), List.set_set]
    rw [hsame] at hland
    exact hland

theorem assign_safe (hw : s.Wf []) (i j : Nat) : Safe (fun t => t.Wf []) (s.assign i j) := by
  apply Ends.bind (hw.release_safe (by simp) i)
  rintro t ⟨ht, hempty⟩
  apply Ends.bind (get_safe t j)
  intro other hother
  apply Ends.bind (ht.retain_safe (by simp) other.base other.base (base_mem hother) (fun _ => rfl)
    (ht.points _ (base_mem hother)))
  rintro u ⟨hu, hobjects⟩
  apply Ends.bind (get_safe u i)
  intro this _
  exact hu.land_empty (o := some { this with base := other.base }) (hempty.congr hobjects)

theorem assignMoved_safe (hw : s.Wf []) (i j : Nat) :
    Safe (fun t => t.Wf []) (s.assignMoved i j) := by
  apply Ends.bind (hw.release_safe (by simp) i)
  rintro t ⟨ht, -⟩
  exact ht.swap_safe i j

theorem assignView_safe (hw : s.Wf []) (i : Nat) (v : View) :
    Safe (fun t => t.Wf []) (s.assignView i v) := by
  apply Ends.bind (hw.release_safe (by simp) i)
  rintro t ⟨ht, hempty⟩
  apply Ends.bind (view_safe t v)
  intro other hp
  apply Ends.bind (get_safe t i)
  intro this _
  exact (ht.uncounted hp).land_empty (o := some { this with base := other }) hempty

theorem takeOver_safe (hw : s.Wf []) (this : Kind) (i : Nat) (passed : Kind) (j : Nat) :
    Safe (fun t => t.Wf []) (s.takeOver this i passed j) := by
  have hderived : Safe (fun t => t.Wf []) (do
      let other ← s.get j
      s.setDerived i (taken this passed other)) := by
    apply Ends.bind (get_safe s j)
    intro other _
    exact hw.setDerived_safe i _
  cases this with
  | buffer => exact hw
  | string => exact hw
  | mutable => exact hderived
  | hashed => exact hderived

theorem copyAssign_safe (hw : s.Wf []) (this : Kind) (i : Nat) (passed : Kind) (j : Nat) :
    Safe (fun t => t.Wf []) (s.copyAssign this i passed j) := by
  apply Ends.bind (getAs_safe s this i)
  intro _ _
  apply Ends.bind (getAs_safe s passed j)
  intro _ _
  apply Ends.bind (need_safe .absent nofun _)
  intro _ _
  apply Ends.bind (hw.assign_safe i j)
  intro t ht
  exact ht.takeOver_safe this i passed j

theorem moveAssign_safe (hw : s.Wf []) (this : Kind) (i : Nat) (passed : Kind) (j : Nat) :
    Safe (fun t => t.Wf []) (s.moveAssign this i passed j) := by
  rw [State.moveAssign]
  split_ifs with hthis
  · exact hw.copyAssign_safe this i passed j
  · apply Ends.bind (getAs_safe s this i)
    intro _ _
    apply Ends.bind (getAs_safe s passed j)
    intro _ _
    apply Ends.bind (need_safe .absent nofun _)
    intro _ _
    apply Ends.bind (hw.assignMoved_safe i j)
    intro t ht
    exact ht.takeOver_safe this i passed j

/-- No operation touches a freed block, and each keeps the counts. -/
theorem call_safe (hw : s.Wf []) (op : Op) : Safe (fun t => t.Wf []) (s.call op) := by
  cases op with
  | construct i source =>
    rw [State.call]
    split
    · rename_i hi
      apply Ends.bind (construct_safe hw hi source)
      rintro ⟨t, h⟩ ⟨ht, hfree⟩
      exact ht.land (x := some h) hfree rfl
    · exact Ends.throw nofun
  | copyAssign this i passed j => exact hw.copyAssign_safe this i passed j
  | moveAssign this i passed j => exact hw.moveAssign_safe this i passed j
  | assignView this i view hash =>
    apply Ends.bind (getAs_safe s this i)
    intro _ _
    cases this with
    | buffer => exact hw.assignView_safe i view
    | hashed =>
      apply Ends.bind (hw.assignView_safe i view)
      intro t ht
      exact ht.setDerived_safe i _
    | mutable => exact Ends.throw nofun
    | string => exact Ends.throw nofun
  | swap i passed j =>
    apply Ends.bind (getAs_safe s passed j)
    intro _ _
    apply Ends.bind (hw.swap_safe i j)
    intro t ht
    cases passed with
    | mutable =>
      apply Ends.bind (get_safe t j)
      intro other _
      exact ht.setDerived_safe j _
    | buffer => exact ht
    | string => exact ht
    | hashed => exact ht
  | reset this i =>
    apply Ends.bind (getAs_safe s this i)
    intro _ _
    apply Ends.bind (hw.release_safe (by simp) i)
    rintro t ⟨ht, -⟩
    split_ifs with hthis
    · exact ht.setDerived_safe i _
    · exact ht
  | resetString i n served =>
    apply Ends.bind (getAs_safe s .string i)
    intro this hthis
    apply Ends.bind (hw.release_safe (by simp) i)
    rintro t ⟨ht, hempty⟩
    have hreset := ht.stringResetUnsafe_safe n served
    cases hstr : t.stringResetUnsafe n served with
    | ok x =>
      rw [hstr] at hreset
      exact hreset.1.land_empty (o := some ⟨x.2, .string⟩) (hempty.congr hreset.2)
    | error stop =>
      rw [hstr] at hreset
      cases stop with
      | freed => exact absurd rfl hreset
      | badAlloc => exact ht
      | nullAccess => exact Ends.throw nofun
      | absent => exact Ends.throw nofun
  | destroy i =>
    apply Ends.bind (hw.release_safe (by simp) i)
    rintro t ⟨ht, hempty⟩
    exact (zero_cons.mpr ht).land_empty (o := none) hempty

theorem init (n : Fin (maxObjects + 1)) : (State.init n).Wf [] := by
  refine ⟨⟨?_, nofun⟩, ?_, ?_⟩
  · intro b hb
    simp [refs, State.init, fieldsOf, Fields.zero] at hb
  · intro r hr
    simp only [refs, State.init, List.nil_append, List.map_replicate, List.mem_replicate] at hr
    rw [hr.2]
    exact Fields.zero_points _
  · simp only [State.init, List.length_replicate]
    omega

theorem holders_eq (s : State) (b : Nat) :
    holders (([] ++ s.refs).map Fields.p) b = s.handlesTo b := by
  simp only [holders, refs, List.nil_append, List.map_map, List.count_eq_countP, List.countP_map,
    handlesTo]
  apply List.countP_congr
  rintro (_ | h) _ <;> simp [fieldsOf, Fields.zero]

/-- What it means that the references of the handles are all there are. -/
theorem counted (hw : s.Wf []) : s.Counted := by
  have hfits (b : Nat) (c : Shared Control) (hc : s.blocks[b]? = some c) := hw.balanced.fits b c hc
  simp only [holders_eq, Disposal.Fits] at hfits
  refine ⟨fun b c hc => (hfits b c hc).1, ?_, ?_⟩
  · intro b c hc
    obtain ⟨-, hlive⟩ := hfits b c hc
    by_cases hnone : s.handlesTo b = 0
    · rw [if_pos hnone] at hlive
      obtain ⟨k, hk, hcontent⟩ := hlive
      simp only [useCounting, Control.alive, Bool.and_eq_true, beq_iff_eq] at hk
      rw [hcontent]
      cases hdefault : k.isDefault <;> simp [useCounting, Control.free, hdefault, hk, hnone]
    · rw [if_neg hnone] at hlive
      simp only [useCounting, Control.alive, Bool.and_eq_true, beq_iff_eq] at hlive
      simp [hlive, hnone]
  · intro i b h hh hp
    have hmem : h.base ∈ [] ++ s.refs := base_mem hh
    obtain ⟨c, hc, -, halive, -⟩ := hw.balanced.held b (List.mem_map.mpr ⟨h.base, hmem, hp⟩)
    simp only [useCounting, Control.alive, Bool.and_eq_true, beq_iff_eq] at halive
    refine ⟨c, hc, halive.1, halive.2, ?_⟩
    intro ptr hdata
    obtain ⟨harea, n, hn, hle⟩ := hw.points h.base hmem b ptr hp hdata
    simp only [extents, List.getElem?_map, hc, Option.map_some, Option.some.injEq] at hn
    exact ⟨harea, hn ▸ hle⟩

end Wf

end State

def Program.Wf (p : Program) : Prop := ∀ s, p = .running s → s.Wf []

theorem Program.running_wf {s : State} (hw : s.Wf []) : (Program.running s).Wf := by
  rintro t ht
  cases ht
  exact hw

theorem Program.step_wf (p : Program) (op : Op) (hp : p.Wf) :
    ∃ q, p.step op = some q ∧ q.Wf := by
  cases p with
  | crashed => exact ⟨.crashed, rfl, nofun⟩
  | running s =>
    have hcall := (hp s rfl).call_safe op
    rw [step]
    cases hs : s.call op with
    | ok t =>
      rw [hs] at hcall
      exact ⟨_, rfl, running_wf hcall⟩
    | error stop =>
      rw [hs] at hcall
      cases stop with
      | freed => exact absurd rfl hcall
      | nullAccess => exact ⟨.crashed, rfl, nofun⟩
      | badAlloc => exact ⟨_, rfl, hp⟩
      | absent => exact ⟨_, rfl, hp⟩

/-- No sequence of operations touches a control block that was freed, and in every state one leads
to, every control block counts the handles that point to it and was freed once if there are none,
and every handle with a control block points into memory that was not freed. -/
theorem blocks_counted (n : Fin (maxObjects + 1)) (ops : List Op) :
    ∃ p, run Program.step (.running (.init n)) ops = some p ∧ ∀ s, p = .running s → s.Counted := by
  obtain ⟨p, hp, hwf⟩ := run_total Program.Wf (fun p op hp _ => p.step_wf op hp) ops
    (.running (.init n)) (Program.running_wf (State.Wf.init n))
    (along_of_forall (fun _ _ => trivial) _ ops)
  exact ⟨p, hp, fun s hs => (hwf s hs).counted⟩

/-- A handle that is assigned to itself is the last one of its block. -/
example : run Program.step (.running (.init 3))
    [.construct 0 (.sized .buffer 8 true), .construct 1 (.copied .mutable .buffer 0), .destroy 1,
      .copyAssign .buffer 0 .buffer 0, .construct 1 (.deleter .string false 3 true),
      .construct 2 (.slice 1 1 2), .moveAssign .buffer 0 .buffer 2] =
    some (.running
      ⟨[⟨0, ⟨true, 8, 1, 0⟩⟩, ⟨2, ⟨false, 3, 0, 0⟩⟩],
        [some ⟨⟨some ⟨.counted 1, 1⟩, 1, some 1⟩, .buffer⟩,
          some ⟨⟨some ⟨.counted 1, 0⟩, 3, some 1⟩, .string⟩, some ⟨.zero, .buffer⟩]⟩) := by
  decide

end Libnodecc.Buffer.Counting
