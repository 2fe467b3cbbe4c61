import Libnodecc.Buffer.OwnBytes
import Libnodecc.Http.CompiledBufs

namespace Libnodecc.Http

open Buffer Util

/-- `use_count` of a block; there is none of one that is not counted or was freed. -/
def uses (s : State) (b : Nat) : Nat :=
  match s.heap[b]? with
  | some ⟨_, some k, false⟩ => k
  | _ => 0

/-- How many of the handles refer to `b`. -/
def given (s : State) (handles : List Nat) (b : Nat) : Nat :=
  handles.countP fun i => (s.handles[i]?).any fun h => h.ref.p == some b

/-- Every `use_count` is as it was before the call, but for the headers that were destroyed and for
what the socket keeps. -/
def Exit.Settled (s : State) (exit : Exit) : Prop :=
  ∀ b, uses exit.state b + given s exit.cleared b =
    uses s b + exit.kept.countP fun r => r.p == some b

/-- After the moves `pre`, `m` throws. -/
def Compilation.Throws (build : Build) (malloc : Malloc) (c : Compilation) (written : Written)
    (s : State) (pre : List Move) (m : Move) : Prop :=
  ∃ f g, pre.foldlM (Frame.exec build malloc c written) (c.enter s) = .ok f ∧
    f.exec build malloc c written m = .error (.threw g)

/-- Whether `buf` has memory of its own after a move. -/
def Move.loads (full : Bool) : Move → Bool
  | .setCapacity n => decide (0 < n)
  | .append text => full || decide (0 < text.bytes.length)
  | .reset => false
  | _ => full

/-- `buf` has memory wherever it is stored. -/
def Loaded : Bool → List Move → Prop
  | _, [] => True
  | full, m :: ms => (m = .storeBuf → full = true) ∧ Loaded (m.loads full) ms

theorem uses_eq {s : State} {flying : List Ref} (hw : s.Wf flying) (b : Nat) :
    uses s b = (flying ++ s.refs).countP fun r => r.p == some b := by
  have hnone (hdead : ∀ blk k, s.heap[b]? = some blk → blk.useCount = some k → blk.freed = true) :
      (flying ++ s.refs).countP (fun r => r.p == some b) = 0 := by
    refine List.countP_eq_zero.mpr ?_
    intro r hr hp
    obtain ⟨blk, k, ptr, -, -, hblk, hlive, hk⟩ := hw.counted.owner_live hr (beq_iff_eq.mp hp)
    rw [hdead blk k hblk hk] at hlive
    cases hlive
  unfold uses
  split
  · rename_i cells k hblk
    exact hw.counted.count b _ k hblk rfl rfl
  · rename_i hblk
    refine (hnone ?_).symm
    intro blk k hb hk
    obtain ⟨cells, useCount, freed⟩ := blk
    cases freed with
    | true => rfl
    | false =>
      cases hk
      exact absurd hb (hblk cells k)

def destroyed (handles : List Handle) : List Nat → List Handle
  | [] => handles
  | i :: is => destroyed (handles.modify i fun h => { h with ref := .null }) is

theorem destroyed_get (handles : List Handle) (is : List Nat) (k : Nat) :
    (destroyed handles is)[k]? =
      (handles[k]?).map fun h => if k ∈ is then { h with ref := .null } else h := by
  induction is generalizing handles with
  | nil => simp [destroyed]
  | cons i is ih =>
    rw [destroyed, ih, List.getElem?_modify]
    by_cases hik : i = k
    · subst hik
      cases handles[i]? <;> simp
    · have hki : ¬k = i := fun h => hik h.symm
      cases handles[k]? <;> simp [hik, hki]

theorem modify_count (b i : Nat) (handles : List Handle) (hi : i < handles.length) :
    (handles.modify i fun h => { h with ref := .null }).countP (fun h => h.ref.p == some b) +
      (if (handles[i]?).any (fun h => h.ref.p == some b) then 1 else 0) =
      handles.countP fun h => h.ref.p == some b := by
  induction handles generalizing i with
  | nil => cases hi
  | cons h handles ih =>
    cases i with
    | zero => simp [List.countP_cons, Ref.null]
    | succ i =>
      have hrest := ih i (Nat.lt_of_succ_lt_succ hi)
      simp only [List.modify_succ_cons, List.countP_cons, List.getElem?_cons_succ]
      omega

/-- The references that were given up. -/
theorem destroyed_count (b : Nat) (s : State) (is : List Nat) (hnodup : is.Nodup)
    (hlt : ∀ i ∈ is, i < s.handles.length) :
    (destroyed s.handles is).countP (fun h => h.ref.p == some b) + given s is b =
      s.handles.countP fun h => h.ref.p == some b := by
  induction is generalizing s with
  | nil => rfl
  | cons i is ih =>
    obtain ⟨hi, hnodup⟩ := List.nodup_cons.mp hnodup
    let t : State := { s with handles := s.handles.modify i fun h => { h with ref := .null } }
    have hrest := ih t hnodup fun k hk => by
      rw [List.length_modify]
      exact hlt k (List.mem_cons_of_mem i hk)
    have hsame : given t is b = given s is b := by
      refine List.countP_congr fun k hk => ?_
      have hik : ¬i = k := fun h => hi (h ▸ hk)
      have hget : t.handles[k]? = s.handles[k]? := by simp [t, hik]
      rw [hget]
    have hfirst : t.handles.countP (fun h => h.ref.p == some b) +
        (if (s.handles[i]?).any (fun h => h.ref.p == some b) then 1 else 0) =
        s.handles.countP fun h => h.ref.p == some b :=
      modify_count b i s.handles (hlt i List.mem_cons_self)
    have hgiven : given s (i :: is) b = given s is b +
        if (s.handles[i]?).any (fun h => h.ref.p == some b) then 1 else 0 := List.countP_cons
    show (destroyed t.handles is).countP _ + _ = _
    rw [hsame] at hrest
    omega

theorem releaseAll_spec {s t : State} {flying : List Ref} (is : List Nat) (hw : s.Wf flying)
    (h : releaseAll s is = .ok t) : t.Wf flying ∧ Quiet is s t ∧
      ∀ k, t.handles[k]? =
        (s.handles[k]?).map fun h => if k ∈ is then { h with ref := .null } else h := by
  induction is generalizing s with
  | nil =>
    cases h
    exact ⟨hw, Quiet.refl [] _, fun k => by simp⟩
  | cons i is ih =>
    obtain ⟨u, hu, h⟩ := bind_ok.mp h
    obtain ⟨huw, huq, this, hthis, hi⟩ := release_spec hw hu
    obtain ⟨htw, htq, hget⟩ := ih huw h
    have hsub : Quiet (i :: is) s u := huq.mono fun k hk => by simp at hk; simp [hk]
    refine ⟨htw, hsub.trans (htq.mono fun k hk => List.mem_cons_of_mem i hk), ?_⟩
    intro k
    rw [hget k]
    by_cases hk : k = i
    · subst hk
      simp [hi, hthis]
    · rw [huq.others k (by simpa using hk)]
      simp [hk]

theorem retainAll_spec {s t : State} {flying refs : List Ref} (is : List Nat) (hw : s.Wf flying)
    (h : retainAll s is = .ok (t, refs)) : t.Wf (refs ++ flying) ∧ t.handles = s.handles := by
  induction is generalizing s flying refs with
  | nil =>
    cases h
    exact ⟨hw, rfl⟩
  | cons i is ih =>
    simp only [retainAll, bind_ok, handle_ok, pure_ok] at h
    obtain ⟨this, hthis, ⟨u, more⟩, hu, heq⟩ := h
    cases heq
    obtain ⟨htw, hhandles⟩ := ih (hw.retain (hw.room hthis) (hw.owned hthis)) hu
    refine ⟨?_, hhandles⟩
    exact ⟨htw.counted.perm (List.perm_middle.append_right _), htw.small⟩

namespace Frame

/-- A frame that fills its slots. -/
structure Running (s : State) (c : Compilation) (f : Frame) : Prop where
  wf : f.state.Wf []
  kept : f.kept = []
  base : f.base = s.handles.length
  outer : ∀ k < f.base, f.state.handles[k]? =
    (s.handles[k]?).map fun h => if k ∈ f.cleared then { h with ref := .null } else h
  cleared : f.cleared = [] ∨ f.cleared = c.headers
  owns : f.state.Owns f.base
  spare : ∀ i, f.pos ≤ i → ∀ h, f.state.handles[f.slot i]? = some h → h = ⟨.null, none⟩

structure Ready (s : State) (c : Compilation) (f : Frame) : Prop where
  wf : f.state.Wf f.kept
  base : f.base = s.handles.length
  outer : ∀ k < f.base, f.state.handles[k]? =
    (s.handles[k]?).map fun h => if k ∈ f.cleared then { h with ref := .null } else h
  cleared : f.cleared = [] ∨ f.cleared = c.headers

/-- The value of the content-length is not there yet, or was destroyed. -/
def LengthNull (f : Frame) : Prop :=
  ∀ h, f.state.handles[f.base + 1]? = some h → h.ref = .null

def Holds (f : Frame) : Prop := ∃ i < f.pos, f.state.Refers (f.slot i)

/-- Besides `buf`, no local refers to a block that is counted. -/
def Loose (f : Frame) : Prop :=
  ∀ k, f.base < k → ∀ h, f.state.handles[k]? = some h → h.ref.p = none

def touched (c : Compilation) (f : Frame) : Move → List Nat
  | .storeBuf | .storeChunk _ | .storeView _ => [f.slot f.pos]
  | .clearHeaders => c.headers ++ [f.base + 1]
  | _ => [f.base]

section
variable {build : Build} {malloc : Malloc} {c : Compilation} {written : Written} {s t : State}
  {f g : Frame}

theorem Running.ready (hf : f.Running s c) : f.Ready s c :=
  ⟨by rw [hf.kept]; exact hf.wf, hf.base, hf.outer, hf.cleared⟩

theorem Running.keep_base (hf : f.Running s c) (htw : t.Wf []) (ht : Touches [f.base] f.state t)
    (howns : t.Owns f.base) : ({ f with state := t } : Frame).Running s c := by
  refine ⟨htw, hf.kept, hf.base, ?_, hf.cleared, howns, ?_⟩
  · intro k hk
    have hne : k ∉ [f.base] := by simpa using Nat.ne_of_lt hk
    exact (ht.others k hne).trans (hf.outer k hk)
  · intro i hi h hh
    have hne : f.slot i ∉ [f.base] := by
      simp only [slot, List.mem_singleton]
      omega
    exact hf.spare i hi h ((ht.others _ hne).symm.trans hh)

theorem Running.keep_store (hf : f.Running s c) (htw : t.Wf [])
    (ht : Touches [f.slot f.pos] f.state t) :
    ({ f with state := t, pos := f.pos + 1 } : Frame).Running s c := by
  refine ⟨htw, hf.kept, hf.base, ?_, hf.cleared, ?_, ?_⟩
  · intro k hk
    have hlt : k < f.base := hk
    have hne : k ∉ [f.slot f.pos] := by
      simp only [slot, List.mem_singleton]
      omega
    exact (ht.others k hne).trans (hf.outer k hk)
  · refine hf.owns.keep htw ht ?_
    simp only [slot, List.mem_singleton]
    omega
  · intro i hi h hh
    have hlt : f.pos + 1 ≤ i := hi
    have hne : f.slot i ∉ [f.slot f.pos] := by
      simp only [slot, List.mem_singleton]
      omega
    exact hf.spare i (by omega) h ((ht.others _ hne).symm.trans hh)

theorem Running.keep_clear (hf : f.Running s c) (hlt : ∀ i ∈ c.headers, i < s.handles.length)
    (h : releaseAll f.state (c.headers ++ [f.base + 1]) = .ok t) :
    ({ f with state := t, cleared := c.headers } : Frame).Running s c := by
  obtain ⟨htw, htq, hget⟩ := releaseAll_spec _ hf.wf h
  have hout (k : Nat) (hk : f.base ≤ k) (hne : k ≠ f.base + 1) : k ∉ c.headers ++ [f.base + 1] := by
    have hbase := hf.base
    intro hmem
    rcases List.mem_append.mp hmem with hheader | hlength
    · have hsmall := hlt k hheader
      omega
    · exact hne (List.mem_singleton.mp hlength)
  refine ⟨htw, hf.kept, hf.base, ?_, .inr rfl, ?_, ?_⟩
  · intro k hk
    have hsmall : k < f.base := hk
    have hmem : k ∈ c.headers ++ [f.base + 1] ↔ k ∈ c.headers := by
      rw [List.mem_append, List.mem_singleton, or_iff_left (Nat.ne_of_lt (by omega))]
    show t.handles[k]? = _
    rw [hget k, hf.outer k hsmall, Option.map_map]
    refine congrArg (fun f => Option.map f _) (funext fun h => ?_)
    rcases hf.cleared with hnone | hall
    · simp [hnone, hmem]
    · by_cases hk : k ∈ c.headers <;> simp [hall, hmem, hk]
  · exact hf.owns.keep htw htq.toTouches
      (hout f.base (Nat.le_refl _) (Nat.ne_of_lt (Nat.lt_succ_self _)))
  · intro i hi h hh
    have hne : f.slot i ∉ c.headers ++ [f.base + 1] := by
      apply hout
      · simp only [slot]
        omega
      · simp only [slot]
        omega
    exact hf.spare i hi h ((htq.others _ hne).symm.trans hh)

/-- What a move of the fill changes, and that it keeps the frame in order. -/
theorem Running.exec_fills {m : Move} (hf : f.Running s c) (hm : m.Fills)
    (hlt : ∀ i ∈ c.headers, i < s.handles.length)
    (h : f.exec build malloc c written m = .ok g) :
    g.Running s c ∧ Touches (touched c f m) f.state g.state := by
  cases m with
  | contentLength n => cases hm
  | pass => cases hm
  | write => cases hm
  | destroy => cases hm
  | setCapacity n =>
    rw [exec] at h
    obtain ⟨t, ht, rfl⟩ := quietly_ok h
    obtain ⟨htw, htq, howns, -⟩ := setCapacity_owns hf.wf hf.owns ht
    exact ⟨hf.keep_base htw htq howns, htq⟩
  | append text =>
    rw [exec] at h
    obtain ⟨t, ht, rfl⟩ := quietly_ok h
    obtain ⟨htw, htq, howns, -⟩ := append_owns hf.wf hf.owns ht
    exact ⟨hf.keep_base htw htq howns, htq⟩
  | appendSize j =>
    rw [exec] at h
    obtain ⟨t, ht, rfl⟩ := throwing_ok h
    obtain ⟨chunk, -, ht⟩ := bind_ok.mp ht
    obtain ⟨htw, htq, howns, -⟩ := appendNumber_owns hf.wf hf.owns ht
    exact ⟨hf.keep_base htw htq howns, htq⟩
  | reset =>
    rw [exec] at h
    obtain ⟨t, ht, rfl⟩ := quietly_ok h
    obtain ⟨htw, htq, this, hthis, hi⟩ := reset_spec hf.wf ht
    obtain ⟨h, capacity, hh, hcapacity, -⟩ := hf.owns
    obtain rfl := Option.some.inj (hthis.symm.trans hh)
    have hkind : (State.kind this).capacity 0 = some 0 := by
      rw [State.kind, hcapacity]
      rfl
    rw [hkind] at hi
    exact ⟨hf.keep_base htw htq.toTouches ⟨_, 0, hi, rfl, Nat.le_refl 0, rfl, fun _ => rfl⟩,
      htq.toTouches⟩
  | storeBuf =>
    rw [exec] at h
    obtain ⟨-, t, ht, rfl⟩ := store_ok h
    obtain ⟨htw, htq, -⟩ := copyAssign_spec hf.wf ht
    exact ⟨hf.keep_store htw htq.toTouches, htq.toTouches⟩
  | storeChunk j =>
    rw [exec] at h
    obtain ⟨-, t, ht, rfl⟩ := store_ok h
    obtain ⟨htw, htq, -⟩ := copyAssign_spec hf.wf ht
    exact ⟨hf.keep_store htw htq.toTouches, htq.toTouches⟩
  | storeView text =>
    rw [exec] at h
    obtain ⟨-, t, ht, rfl⟩ := store_ok h
    obtain ⟨u, hu, ht⟩ := bind_ok.mp ht
    obtain ⟨huw, huq⟩ := callerMemory_spec hf.wf hu
    obtain ⟨htw, htq, -⟩ := assignView_spec huw ht
    have hboth : Quiet [f.slot f.pos] f.state t := (huq.mono (by simp)).trans htq
    exact ⟨hf.keep_store htw hboth.toTouches, hboth.toTouches⟩
  | clearHeaders =>
    rw [exec] at h
    obtain ⟨t, ht, rfl⟩ := quietly_ok h
    obtain ⟨-, htq, -⟩ := releaseAll_spec _ hf.wf ht
    exact ⟨hf.keep_clear hlt ht, htq.toTouches⟩

theorem Running.headers_lt (hf : f.Running s c) (hlt : ∀ i ∈ c.headers, i < s.handles.length)
    {k : Nat} (hk : f.base ≤ k) : k ∉ c.headers := by
  intro hmem
  have hsmall := hlt k hmem
  rw [← hf.base] at hsmall
  omega

theorem Running.slot_untouched {m : Move} (hf : f.Running s c)
    (hlt : ∀ i ∈ c.headers, i < s.handles.length) {i : Nat} (hi : i < f.pos) :
    f.slot i ∉ touched c f m := by
  have hheader : f.slot i ∉ c.headers := hf.headers_lt hlt (by simp only [slot]; omega)
  cases m <;> simp only [touched, slot, List.mem_append, List.mem_singleton, not_or] at hheader ⊢ <;>
    first
    | omega
    | exact ⟨hheader, by omega⟩

theorem Running.exec_loads {m : Move} (hf : f.Running s c) (hm : m.Fills)
    (hlt : ∀ i ∈ c.headers, i < s.handles.length) {full : Bool}
    (hfull : full = true → f.state.Refers f.base)
    (h : f.exec build malloc c written m = .ok g) (hloads : m.loads full = true) :
    g.state.Refers g.base := by
  have hbase := (exec_pos h).2
  obtain ⟨-, htouch⟩ := hf.exec_fills hm hlt h
  rw [hbase]
  cases m with
  | contentLength n => cases hm
  | pass => cases hm
  | write => cases hm
  | destroy => cases hm
  | setCapacity n =>
    rw [exec] at h
    obtain ⟨t, ht, rfl⟩ := quietly_ok h
    obtain ⟨-, -, -, hrefers⟩ := setCapacity_owns hf.wf hf.owns ht
    exact hrefers (of_decide_eq_true hloads)
  | append text =>
    rw [exec] at h
    obtain ⟨t, ht, rfl⟩ := quietly_ok h
    obtain ⟨-, -, -, hrefers⟩ := append_owns hf.wf hf.owns ht
    apply hrefers
    rcases Bool.or_eq_true_iff.mp hloads with hbefore | hpos
    · exact .inl (hfull hbefore)
    · have hlength := text.length_lt
      exact .inr ⟨of_decide_eq_true hpos, by omega⟩
  | appendSize j =>
    rw [exec] at h
    obtain ⟨t, ht, rfl⟩ := throwing_ok h
    obtain ⟨chunk, -, ht⟩ := bind_ok.mp ht
    obtain ⟨-, -, -, hrefers⟩ := appendNumber_owns hf.wf hf.owns ht
    exact hrefers (hfull hloads)
  | reset => cases hloads
  | storeBuf | storeChunk | storeView =>
    refine (hfull hloads).keep htouch ?_
    simp only [touched, slot, List.mem_singleton]
    omega
  | clearHeaders =>
    refine (hfull hloads).keep htouch ?_
    simp only [touched, List.mem_append, List.mem_singleton, not_or]
    exact ⟨hf.headers_lt hlt (Nat.le_refl _), by omega⟩

/-- A stored `buf` stays in its slot. -/
theorem Running.exec_holds {m : Move} (hf : f.Running s c) (hm : m.Fills)
    (hlt : ∀ i ∈ c.headers, i < s.handles.length)
    (hfull : m = .storeBuf → f.state.Refers f.base)
    (h : f.exec build malloc c written m = .ok g) (hstored : f.Holds ∨ m = .storeBuf) : g.Holds := by
  obtain ⟨hpos, hbase⟩ := exec_pos h
  have hslot (i : Nat) : g.slot i = f.slot i := by simp only [slot, hbase]
  obtain ⟨-, htouch⟩ := hf.exec_fills hm hlt h
  rcases hstored with ⟨i, hi, hrefers⟩ | rfl
  · refine ⟨i, by omega, ?_⟩
    rw [hslot]
    exact hrefers.keep htouch (hf.slot_untouched hlt hi)
  · obtain ⟨buf, hbuf, hcounted⟩ := hfull rfl
    refine ⟨f.pos, by simp only [hpos, Move.stores]; omega, ?_⟩
    rw [hslot]
    rw [exec] at h
    obtain ⟨-, t, ht, rfl⟩ := store_ok h
    obtain ⟨-, -, this, other, capacity, -, hother, -, hi⟩ := copyAssign_spec hf.wf ht
    obtain rfl := Option.some.inj (hbuf.symm.trans hother)
    have hne : f.slot f.pos ≠ f.base := by
      simp only [slot]
      omega
    rw [if_neg hne] at hi
    exact ⟨_, hi, hcounted⟩

/-- The other moves give no counted reference to a slot. -/
theorem Running.exec_loose {m : Move} (hf : f.Running s c) (hm : m.Fills)
    (hlt : ∀ i ∈ c.headers, i < s.handles.length) (hbuf : m ≠ .storeBuf)
    (hchunk : ∀ j, m ≠ .storeChunk j) (hloose : f.Loose)
    (h : f.exec build malloc c written m = .ok g) : g.Loose := by
  have hbase := (exec_pos h).2
  obtain ⟨-, htouch⟩ := hf.exec_fills hm hlt h
  intro k hk this hthis
  rw [hbase] at hk
  cases m with
  | contentLength n => cases hm
  | pass => cases hm
  | write => cases hm
  | destroy => cases hm
  | storeBuf => exact absurd rfl hbuf
  | storeChunk j => exact absurd rfl (hchunk j)
  | setCapacity | append | appendSize | reset =>
    have hne : k ∉ [f.base] := by simpa using Nat.ne_of_gt hk
    exact hloose k hk this ((htouch.others k hne).symm.trans hthis)
  | storeView text =>
    by_cases hslot : k = f.slot f.pos
    · subst hslot
      rw [exec] at h
      obtain ⟨-, t, ht, rfl⟩ := store_ok h
      obtain ⟨u, hu, ht⟩ := bind_ok.mp ht
      obtain ⟨huw, -⟩ := callerMemory_spec hf.wf hu
      obtain ⟨-, -, ref, hp, hi⟩ := assignView_spec huw ht
      obtain rfl := Option.some.inj (hi.symm.trans hthis)
      exact hp
    · have hne : k ∉ [f.slot f.pos] := by simpa using hslot
      exact hloose k hk this ((htouch.others k hne).symm.trans hthis)
  | clearHeaders =>
    rw [exec] at h
    obtain ⟨t, ht, rfl⟩ := quietly_ok h
    obtain ⟨-, -, hget⟩ := releaseAll_spec _ hf.wf ht
    have hthis : t.handles[k]? = some this := hthis
    rw [hget k] at hthis
    obtain ⟨before, hbefore, rfl⟩ := Option.map_eq_some_iff.mp hthis
    have hp := hloose k hk before hbefore
    split_ifs
    · rfl
    · exact hp

/-- Destroying the headers destroys the content-length that was set. -/
theorem Running.exec_lengthNull {m : Move} (hf : f.Running s c) (hm : m.Fills)
    (hlt : ∀ i ∈ c.headers, i < s.handles.length)
    (h : f.exec build malloc c written m = .ok g) (hnull : f.LengthNull ∨ m = .clearHeaders) :
    g.LengthNull := by
  have hbase := (exec_pos h).2
  obtain ⟨-, htouch⟩ := hf.exec_fills hm hlt h
  intro this hthis
  rw [hbase] at hthis
  by_cases hclear : m = .clearHeaders
  · subst hclear
    rw [exec] at h
    obtain ⟨t, ht, rfl⟩ := quietly_ok h
    obtain ⟨-, -, hget⟩ := releaseAll_spec _ hf.wf ht
    have hthis : t.handles[f.base + 1]? = some this := hthis
    rw [hget] at hthis
    obtain ⟨before, -, rfl⟩ := Option.map_eq_some_iff.mp hthis
    have hmem : f.base + 1 ∈ c.headers ++ [f.base + 1] := by simp
    rw [if_pos hmem]
  · have hne : f.base + 1 ∉ touched c f m := by
      cases m with
      | clearHeaders => exact absurd rfl hclear
      | storeBuf | storeChunk | storeView =>
        simp only [touched, slot, List.mem_singleton]
        omega
      | _ => simp [touched]
    rcases hnull with hnull | hclear'
    · exact hnull this ((htouch.others _ hne).symm.trans hthis)
    · exact absurd hclear' hclear

theorem moves_cons {m : Move} {ms : List Move}
    (h : (m :: ms).foldlM (Frame.exec build malloc c written) f = .ok g) :
    ∃ f', f.exec build malloc c written m = .ok f' ∧
      ms.foldlM (Frame.exec build malloc c written) f' = .ok g := by
  rw [List.foldlM_cons] at h
  cases hstep : f.exec build malloc c written m with
  | error halt =>
    rw [hstep] at h
    cases h
  | ok f' =>
    rw [hstep] at h
    exact ⟨f', rfl, h⟩

theorem moves_append {pre ms : List Move}
    (h : (pre ++ ms).foldlM (Frame.exec build malloc c written) f = .ok g) :
    ∃ f', pre.foldlM (Frame.exec build malloc c written) f = .ok f' ∧
      ms.foldlM (Frame.exec build malloc c written) f' = .ok g := by
  rw [List.foldlM_append] at h
  cases hpre : pre.foldlM (Frame.exec build malloc c written) f with
  | error halt =>
    rw [hpre] at h
    cases h
  | ok f' =>
    rw [hpre] at h
    exact ⟨f', rfl, h⟩

/-- What is left of a fill, or of the part of it that was done. -/
theorem Running.run_fills (ms : List Move) {full : Bool} (hf : f.Running s c)
    (hms : ∀ m ∈ ms, m.Fills) (hlt : ∀ i ∈ c.headers, i < s.handles.length)
    (hloaded : Loaded full ms) (hfull : full = true → f.state.Refers f.base)
    (h : ms.foldlM (Frame.exec build malloc c written) f = .ok g) :
    g.Running s c ∧ (f.Holds ∨ .storeBuf ∈ ms → g.Holds) ∧
      (f.Loose → .storeBuf ∉ ms → (∀ j, .storeChunk j ∉ ms) → g.Loose) ∧
      (f.LengthNull ∨ .clearHeaders ∈ ms → g.LengthNull) := by
  induction ms generalizing f full with
  | nil =>
    cases h
    exact ⟨hf, fun h => h.resolve_right nofun, fun h _ _ => h, fun h => h.resolve_right nofun⟩
  | cons m ms ih =>
    obtain ⟨f', hstep, h⟩ := moves_cons h
    have hm := hms m List.mem_cons_self
    obtain ⟨hf', -⟩ := hf.exec_fills hm hlt hstep
    obtain ⟨hbuf, hrest⟩ := hloaded
    obtain ⟨hg, hholds, hloose, hnull⟩ := ih hf' (fun m hm => hms m (List.mem_cons_of_mem _ hm))
      hrest (hf.exec_loads hm hlt hfull hstep) h
    refine ⟨hg, ?_, ?_, ?_⟩
    · intro hstored
      apply hholds
      rcases hstored with hholds | hmem
      · exact .inl (hf.exec_holds hm hlt (fun h => hfull (hbuf h)) hstep (.inl hholds))
      · rcases List.mem_cons.mp hmem with heq | hmem
        · exact .inl (hf.exec_holds hm hlt (fun h => hfull (hbuf h)) hstep (.inr heq.symm))
        · exact .inr hmem
    · intro hstart hnobuf hnochunk
      have hnext : f'.Loose := hf.exec_loose hm hlt (fun h => hnobuf (h ▸ List.mem_cons_self))
        (fun j h => hnochunk j (h ▸ List.mem_cons_self)) hstart hstep
      exact hloose hnext (fun h => hnobuf (List.mem_cons_of_mem _ h))
        fun j h => hnochunk j (List.mem_cons_of_mem _ h)
    · intro hcleared
      apply hnull
      rcases hcleared with hstart | hmem
      · exact .inl (hf.exec_lengthNull hm hlt hstep (.inl hstart))
      · rcases List.mem_cons.mp hmem with heq | hmem
        · exact .inl (hf.exec_lengthNull hm hlt hstep (.inr heq.symm))
        · exact .inr hmem

theorem Ready.take (hf : f.Ready s c) (hq : Quiet [f.base] f.state t) :
    t.handles.take f.base = destroyed s.handles f.cleared := by
  apply List.ext_getElem?
  intro k
  rw [destroyed_get]
  have hbase := hf.base
  by_cases hk : k < f.base
  · have hne : k ∉ [f.base] := by simpa using Nat.ne_of_lt hk
    rw [List.getElem?_take_of_lt hk, hq.others k hne, hf.outer k hk]
  · rw [List.getElem?_eq_none (by rw [List.length_take]; omega),
      List.getElem?_eq_none (show s.handles.length ≤ k by omega)]
    rfl

/-- A count at the end of a call: what the caller still refers to, what the pack keeps and what the
locals refer to. -/
theorem Ready.count (hf : f.Ready s c) (hs : s.Wf []) (hnodup : c.headers.Nodup)
    (hlt : ∀ i ∈ c.headers, i < s.handles.length) (htw : t.Wf f.kept)
    (hq : Quiet [f.base] f.state t) (b : Nat) :
    uses t b + given s f.cleared b = uses s b + f.kept.countP (fun r => r.p == some b) +
      (t.handles.drop f.base).countP fun h => h.ref.p == some b := by
  have hgiven : (destroyed s.handles f.cleared).countP (fun h => h.ref.p == some b) +
      given s f.cleared b = s.handles.countP fun h => h.ref.p == some b := by
    rcases hf.cleared with hc | hc
    · rw [hc]
      exact destroyed_count b s [] List.nodup_nil nofun
    · rw [hc]
      exact destroyed_count b s c.headers hnodup hlt
  have hsplit : t.handles.countP (fun h => h.ref.p == some b) =
      (destroyed s.handles f.cleared).countP (fun h => h.ref.p == some b) +
        (t.handles.drop f.base).countP fun h => h.ref.p == some b := by
    rw [← hf.take hq, ← List.countP_append, List.take_append_drop]
  rw [uses_eq htw, uses_eq hs, List.countP_append, List.nil_append, State.refs, State.refs,
    List.countP_map, List.countP_map]
  show _ + t.handles.countP (fun h => h.ref.p == some b) + _ =
    s.handles.countP (fun h => h.ref.p == some b) + _ + _
  omega

/-- What `Loose` says of the handles once `buf` is destroyed. -/
theorem loose_iff {buf : Handle} (hq : Quiet [f.base] f.state t)
    (hbuf : t.handles[f.base]? = some buf) (hnull : buf.ref.p = none) :
    f.Loose ↔ ∀ h ∈ t.handles.drop f.base, h.ref.p = none := by
  constructor
  · intro hloose h hh
    obtain ⟨k, hk⟩ := List.mem_iff_getElem?.mp hh
    rw [List.getElem?_drop] at hk
    cases k with
    | zero =>
      obtain rfl := Option.some.inj (hbuf.symm.trans hk)
      exact hnull
    | succ k =>
      have hne : f.base + (k + 1) ∉ [f.base] := by simp
      exact hloose _ (by omega) h ((hq.others _ hne).symm.trans hk)
  · intro hall k hk h hh
    have hne : k ∉ [f.base] := by simpa using Nat.ne_of_gt hk
    have hget : t.handles[k]? = some h := (hq.others k hne).trans hh
    refine hall h (List.mem_iff_getElem?.mpr ⟨k - f.base, ?_⟩)
    rw [List.getElem?_drop, Nat.add_sub_of_le (Nat.le_of_lt hk)]
    exact hget

/-- The counts at the end of a call. -/
theorem leave_settled {threw : Bool} {exit : Exit} (hs : s.Wf []) (hf : f.Ready s c)
    (hnodup : c.headers.Nodup) (hlt : ∀ i ∈ c.headers, i < s.handles.length)
    (hleave : f.leave threw = some exit) : exit.Settled s ↔ f.Loose := by
  unfold leave at hleave
  cases hrelease : f.state.release f.base with
  | error stop =>
    rw [hrelease] at hleave
    cases hleave
  | ok u =>
    rw [hrelease] at hleave
    cases hleave
    obtain ⟨huw, huq, this, -, hbuf⟩ := release_spec hf.wf hrelease
    have hcount := hf.count hs hnodup hlt huw huq
    rw [loose_iff huq hbuf rfl]
    constructor
    · intro hsettled h hh
      cases hp : h.ref.p with
      | none => rfl
      | some b =>
        have hzero : (u.handles.drop f.base).countP (fun h => h.ref.p == some b) = 0 := by
          have hb := hsettled b
          have hc := hcount b
          simp only at hb
          omega
        exact absurd (beq_iff_eq.mpr hp) (List.countP_eq_zero.mp hzero h hh)
    · intro hall b
      have hzero : (u.handles.drop f.base).countP (fun h => h.ref.p == some b) = 0 := by
        refine List.countP_eq_zero.mpr fun h hh => ?_
        rw [hall h hh]
        exact Bool.false_ne_true
      have hc := hcount b
      rw [hzero] at hc
      exact hc

end

end Frame

section
variable {build : Build} {malloc : Malloc} {c : Compilation} {written : Written} {s t : State}
  {f g : Frame}

theorem wf_append_null (extra : List Handle) (hnull : ∀ h ∈ extra, h.ref = .null) (hs : s.Wf []) :
    (⟨s.heap, s.handles ++ extra⟩ : State).Wf [] := by
  induction extra generalizing s with
  | nil =>
    rw [List.append_nil]
    exact hs
  | cons h extra ih =>
    obtain ⟨ref, capacity⟩ := h
    obtain rfl : ref = .null := hnull _ List.mem_cons_self
    have hpush := hs.null.push capacity
    have hrest := ih (fun h hh => hnull h (List.mem_cons_of_mem _ hh)) hpush
    rw [← List.singleton_append, ← List.append_assoc]
    exact hrest

theorem enter_get (c : Compilation) (s : State) (k : Nat) :
    (c.enter s).state.handles[s.handles.length + k]? =
      ([⟨.null, some 0⟩, ⟨.null, some 0⟩] ++ List.replicate c.slots ⟨.null, none⟩)[k]? := by
  show (s.handles ++ [⟨.null, some 0⟩, ⟨.null, some 0⟩] ++ List.replicate c.slots ⟨.null, none⟩)[_]? = _
  rw [List.append_assoc, List.getElem?_append_right (Nat.le_add_right _ k), Nat.add_sub_cancel_left]

theorem enter_null (c : Compilation) (s : State) {k : Nat} {h : Handle} (hk : s.handles.length ≤ k)
    (hh : (c.enter s).state.handles[k]? = some h) : h.ref = .null := by
  obtain ⟨i, rfl⟩ := Nat.exists_eq_add_of_le hk
  rw [enter_get] at hh
  have hmem := List.mem_of_getElem? hh
  simp only [List.mem_append, List.mem_cons, List.not_mem_nil, or_false, or_self,
    List.mem_replicate] at hmem
  rcases hmem with rfl | ⟨-, rfl⟩ <;> rfl

theorem enter_loose (c : Compilation) (s : State) : (c.enter s).Loose := by
  intro k hk h hh
  rw [enter_null c s (Nat.le_of_lt hk) hh]
  rfl

theorem enter_lengthNull (c : Compilation) (s : State) : (c.enter s).LengthNull :=
  fun _ hh => enter_null c s (Nat.le_succ _) hh

theorem enter_owns (c : Compilation) (s : State) {k : Nat} (hk : k < 2) :
    (c.enter s).state.Owns (s.handles.length + k) := by
  have hget : (c.enter s).state.handles[s.handles.length + k]? = some ⟨.null, some 0⟩ := by
    rw [enter_get]
    match k with
    | 0 => rfl
    | 1 => rfl
  exact ⟨_, 0, hget, rfl, Nat.le_refl 0, rfl, fun _ => rfl⟩

theorem enter_running (c : Compilation) (hs : s.Wf []) : (c.enter s).Running s c := by
  have hwf : (c.enter s).state.Wf [] := by
    unfold Compilation.enter
    rw [List.append_assoc]
    refine wf_append_null _ ?_ hs
    intro h hh
    simp only [List.mem_append, List.mem_cons, List.not_mem_nil, or_false, or_self,
      List.mem_replicate] at hh
    rcases hh with rfl | ⟨-, rfl⟩ <;> rfl
  refine ⟨hwf, rfl, rfl, ?_, .inl rfl, enter_owns c s (k := 0) (by decide), ?_⟩
  · intro k hk
    have hlt : k < s.handles.length := hk
    show (s.handles ++ _ ++ _)[k]? = (s.handles[k]?).map fun h => h
    rw [List.append_assoc, List.getElem?_append_left hlt, Option.map_id']
  · intro i _ h hh
    have hslot : (c.enter s).slot i = s.handles.length + (2 + i) := by
      show s.handles.length + 2 + i = _
      omega
    rw [hslot, enter_get, List.getElem?_append_right (by simp)] at hh
    simp only [List.length_cons, List.length_nil, List.getElem?_replicate] at hh
    split_ifs at hh
    exact (Option.some.inj hh).symm

/-- Before the slots are counted, a content-length may be set. -/
theorem enter_lengthMoves (c : Compilation) (hs : s.Wf [])
    (h : c.lengthMoves.foldlM (Frame.exec build malloc c written) (c.enter s) = .ok f) :
    f.Running s c ∧ (c.lengthMoves = [] → f = c.enter s) := by
  have hstart := enter_running c hs
  unfold Compilation.lengthMoves at h ⊢
  cases hframing : c.framing with
  | sent isChunked =>
    rw [hframing] at h
    cases h
    exact ⟨hstart, fun _ => rfl⟩
  | unsent isChunked =>
    rw [hframing] at h
    cases h
    exact ⟨hstart, fun _ => rfl⟩
  | length n =>
    rw [hframing] at h
    refine ⟨?_, nofun⟩
    obtain ⟨g, hstep, h⟩ := Frame.moves_cons h
    cases h
    rw [Frame.exec] at hstep
    obtain ⟨t, ht, rfl⟩ := throwing_ok hstep
    obtain ⟨htw, htq, -⟩ := appendNumber_owns hstart.wf (enter_owns c s (by decide)) ht
    have htq : Touches [(c.enter s).base + 1] (c.enter s).state t := htq
    have hother (k : Nat) (hk : k ≠ (c.enter s).base + 1) :
        t.handles[k]? = (c.enter s).state.handles[k]? := htq.others k (by simpa using hk)
    refine ⟨htw, rfl, rfl, ?_, .inl rfl, hstart.owns.keep htw htq (by simp), ?_⟩
    · intro k hk
      exact (hother k (Nat.ne_of_lt (Nat.lt_succ_of_lt hk))).trans (hstart.outer k hk)
    · intro i hi h hh
      have hne : (c.enter s).slot i ≠ (c.enter s).base + 1 := by
        simp only [Frame.slot]
        omega
      exact hstart.spare i hi h ((hother _ hne).symm.trans hh)

end

theorem mem_of_prefix {α : Type} {pre xs ys : List α} {x y : α} (h : pre <+: xs ++ x :: ys)
    (hy : y ∈ pre) (hxs : y ∉ xs) : x ∈ pre := by
  obtain ⟨rest, hrest⟩ := h
  rcases List.append_eq_append_iff.mp hrest with ⟨more, rfl, -⟩ | ⟨more, rfl, hmore⟩
  · exact absurd (List.mem_append_left more hy) hxs
  · cases more with
    | nil =>
      rw [List.append_nil] at hy
      exact absurd hy hxs
    | cons a more =>
      cases hmore
      exact List.mem_append_right xs List.mem_cons_self

theorem loaded_append (full : Bool) (ms ms' : List Move) : Loaded full (ms ++ ms') ↔
    Loaded full ms ∧ Loaded (ms.foldl Move.loads full) ms' := by
  induction ms generalizing full with
  | nil => simp [Loaded]
  | cons m ms ih => simp [Loaded, ih, and_assoc]

theorem loaded_map (full : Bool) (block : List Region) :
    Loaded full (block.map .append) ∧
      (full = true → (block.map Move.append).foldl (fun full m => m.loads full) full = true) := by
  induction block generalizing full with
  | nil => exact ⟨trivial, id⟩
  | cons text block ih =>
    obtain ⟨hloaded, -⟩ := ih (Move.loads full (.append text))
    refine ⟨⟨nofun, hloaded⟩, ?_⟩
    rintro rfl
    exact (ih true).2 rfl

namespace Compilation

theorem chunkMoves_loaded (full first : Bool) (bufs : List Nat) :
    Loaded full (chunkMoves first bufs) := by
  induction bufs generalizing full first with
  | nil => trivial
  | cons j bufs ih =>
    have hcrlf : 0 < crlfText.bytes.length := by decide
    cases first <;> simp [chunkMoves, Loaded, Move.loads, hcrlf, ih]

theorem fill_loaded (c : Compilation) : Loaded false (c.headerMoves ++ c.bodyMoves) := by
  have hbody (full : Bool) : Loaded full c.bodyMoves := by
    unfold bodyMoves
    split_ifs
    · exact (loaded_append _ _ _).mpr ⟨chunkMoves_loaded _ _ _, nofun, trivial⟩
    · induction c.bufs generalizing full with
      | nil => trivial
      | cons j bufs ih => exact ⟨nofun, ih _⟩
  refine (loaded_append _ _ _).mpr ⟨?_, hbody _⟩
  unfold headerMoves
  split_ifs with hsent hchunked
  · trivial
  · obtain ⟨hloaded, -⟩ := loaded_map true c.block
    simp [Loaded, Move.loads, loaded_append, hloaded]
  · obtain ⟨hloaded, hfull⟩ := loaded_map true c.block
    simp [Loaded, Move.loads, loaded_append, hloaded, hfull]

theorem headerMoves_chunk (c : Compilation) (j : Nat) : Move.storeChunk j ∉ c.headerMoves := by
  unfold headerMoves
  cases c.framing.headersSent <;> cases c.framing.isChunked <;> simp

/-- Where slots are filled, `buf` is the first that is stored. -/
theorem chunk_after_buf (c : Compilation) (hpass : c.needed ≠ c.bufs.length)
    {pre : List Move} (hpre : pre <+: c.headerMoves ++ c.bodyMoves) {j : Nat}
    (hj : Move.storeChunk j ∈ pre) : Move.storeBuf ∈ pre := by
  have hheader := c.headerMoves_chunk j
  cases hchunked : c.framing.isChunked with
  | true =>
    cases hbufs : c.bufs with
    | nil =>
      have hmem := hpre.subset hj
      simp [bodyMoves, hchunked, hbufs, chunkMoves, hheader] at hmem
    | cons i bufs =>
      have heq : c.headerMoves ++ c.bodyMoves =
          (c.headerMoves ++ [.appendSize i, .append crlfText]) ++ .storeBuf ::
            ([.storeChunk i, .reset] ++ chunkMoves false bufs ++ [.storeView c.closingText]) := by
        simp [bodyMoves, hchunked, hbufs, chunkMoves]
      rw [heq] at hpre
      exact mem_of_prefix hpre hj (by simp [hheader])
  | false =>
    cases hsent : c.framing.headersSent with
    | true =>
      have hbufs : c.bufs = [] := by
        unfold needed at hpass
        rw [hchunked, hsent] at hpass
        by_contra hbufs
        exact hpass (by simp [List.length_pos_iff.mpr hbufs])
      have hmem := hpre.subset hj
      simp [bodyMoves, hchunked, hbufs, hheader] at hmem
    | false =>
      have heq : c.headerMoves ++ c.bodyMoves =
          ([.setCapacity 800] ++ c.block.map .append) ++ .storeBuf ::
            ([.clearHeaders] ++ c.bufs.map .storeChunk) := by
        simp [headerMoves, bodyMoves, hchunked, hsent]
      rw [heq] at hpre
      exact mem_of_prefix hpre hj (by simp)

theorem length_fill (c : Compilation) (hlength : c.lengthMoves ≠ []) :
    Move.storeBuf ∈ c.headerMoves ++ c.bodyMoves ∧
      Move.clearHeaders ∈ c.headerMoves ++ c.bodyMoves ∧
      (∀ j, Move.appendSize j ∉ c.headerMoves ++ c.bodyMoves) ∧ c.needed ≠ 0 := by
  unfold lengthMoves at hlength
  cases hframing : c.framing with
  | sent isChunked =>
    rw [hframing] at hlength
    exact absurd rfl hlength
  | unsent isChunked =>
    rw [hframing] at hlength
    exact absurd rfl hlength
  | length n =>
    simp [headerMoves, bodyMoves, needed, hframing, Framing.headersSent, Framing.isChunked]

end Compilation

section
variable {build : Build} {malloc : Malloc} {c : Compilation} {written : Written} {s : State}
  {f g : Frame}

/-- What throws leaves the frame as it was. -/
theorem exec_threw {m : Move} (h : f.exec build malloc c written m = .error (.threw g)) :
    g = f ∧ (m.Fills → ∃ j, m = .appendSize j) ∧ m ≠ .destroy := by
  cases m with
  | contentLength n =>
    rcases throwing_halt h with heq | ⟨heq, -⟩
    · cases heq
    · cases heq
      exact ⟨rfl, False.elim, by simp⟩
  | appendSize j =>
    rcases throwing_halt h with heq | ⟨heq, -⟩
    · cases heq
    · cases heq
      exact ⟨rfl, fun _ => ⟨j, rfl⟩, by simp⟩
  | pass | write =>
    rw [Frame.exec] at h
    rcases keep_halt h with heq | heq | ⟨heq, -⟩
    · cases heq
    · cases heq
    · cases heq
      exact ⟨rfl, False.elim, by simp⟩
  | storeBuf | storeChunk | storeView =>
    rw [Frame.exec, Frame.store] at h
    split_ifs at h
    · rcases quietly_halt h with heq | heq <;> cases heq
    · cases h
  | setCapacity | append | reset | clearHeaders | destroy =>
    rw [Frame.exec] at h
    rcases quietly_halt h with heq | heq <;> cases heq

theorem foldlM_halt {ms : List Move} {halt : Halt}
    (h : ms.foldlM (Frame.exec build malloc c written) f = .error halt) :
    ∃ pre m post g, ms = pre ++ m :: post ∧
      pre.foldlM (Frame.exec build malloc c written) f = .ok g ∧
      g.exec build malloc c written m = .error halt := by
  induction ms generalizing f with
  | nil => cases h
  | cons m ms ih =>
    rw [List.foldlM_cons] at h
    cases hstep : f.exec build malloc c written m with
    | error halt' =>
      rw [hstep] at h
      cases h
      exact ⟨[], m, ms, f, rfl, rfl, hstep⟩
    | ok f' =>
      rw [hstep] at h
      obtain ⟨pre, m', post, g, rfl, hpre, hm'⟩ := ih h
      refine ⟨m :: pre, m', post, g, rfl, ?_, hm'⟩
      rw [List.foldlM_cons, hstep]
      exact hpre

/-- A run stops at the first move that does not return. -/
theorem throws_unique {pre pre' : List Move} {m m' : Move} {post post' : List Move} {f' : Frame}
    {halt : Halt} (heq : pre ++ m :: post = pre' ++ m' :: post')
    (hpre : pre.foldlM (Frame.exec build malloc c written) f = .ok g)
    (hm : g.exec build malloc c written m = .error halt)
    (hpre' : pre'.foldlM (Frame.exec build malloc c written) f = .ok f')
    {halt' : Halt} (hm' : f'.exec build malloc c written m' = .error halt') : pre = pre' := by
  have hstop {xs ys : List Move} {x : Move} {f₁ f₂ : Frame} {e : Halt}
      (hxs : xs.foldlM (Frame.exec build malloc c written) f = .ok f₁)
      (hx : f₁.exec build malloc c written x = .error e)
      (hys : (xs ++ x :: ys).foldlM (Frame.exec build malloc c written) f = .ok f₂) : False := by
    obtain ⟨f₃, h₃, hrest⟩ := Frame.moves_append hys
    obtain rfl := Except.ok.inj (hxs.symm.trans h₃)
    obtain ⟨f₄, hstep, -⟩ := Frame.moves_cons hrest
    rw [hx] at hstep
    cases hstep
  rcases List.append_eq_append_iff.mp heq with ⟨more, rfl, hmore⟩ | ⟨more, rfl, hmore⟩
  · cases more with
    | nil => exact (List.append_nil pre).symm
    | cons a more =>
      cases hmore
      exact (hstop hpre hm hpre').elim
  · cases more with
    | nil => exact List.append_nil pre'
    | cons a more =>
      cases hmore
      exact (hstop hpre' hm' hpre).elim

theorem lengthMoves_length (c : Compilation) : c.lengthMoves.length ≤ 1 := by
  unfold Compilation.lengthMoves
  cases c.framing <;> simp

theorem lengthMoves_sent (c : Compilation) (h : c.framing.headersSent = true) :
    c.lengthMoves = [] := by
  unfold Compilation.lengthMoves
  cases hframing : c.framing with
  | sent isChunked => rfl
  | unsent isChunked => rfl
  | length n =>
    rw [hframing] at h
    cases h

/-- The calls that fill slots, and the others. -/
theorem moves_cases (c : Compilation) : c.moves = [] ∨ c.moves = [.pass] ∨
    c.needed ≠ c.bufs.length ∧
      c.moves = c.lengthMoves ++ (c.headerMoves ++ c.bodyMoves ++ [.write, .destroy]) := by
  unfold Compilation.moves
  rw [c.compiledBufcnt_eq]
  split_ifs with hnone hpass
  · left
    by_contra hmoves
    rw [List.append_nil] at hmoves
    exact (c.length_fill hmoves).2.2.2 hnone
  · right
    left
    rw [lengthMoves_sent c (c.needed_eq_bufcnt hpass hnone).1]
    rfl
  · right
    right
    exact ⟨hpass, rfl⟩

/-- The moves before an exception: those of the framing, and some of the fill. -/
theorem thrown_split {pre post : List Move} {m : Move} (hstart : pre ≠ []) (hm : m ≠ .destroy)
    (h : c.lengthMoves ++ (c.headerMoves ++ c.bodyMoves ++ [.write, .destroy]) = pre ++ m :: post) :
    ∃ pre' rest, pre = c.lengthMoves ++ pre' ∧ c.headerMoves ++ c.bodyMoves = pre' ++ rest ∧
      (rest = [] ∨ m ∈ c.headerMoves ++ c.bodyMoves) := by
  obtain ⟨pre', rfl, hrest⟩ : ∃ pre', pre = c.lengthMoves ++ pre' ∧
      c.headerMoves ++ c.bodyMoves ++ [.write, .destroy] = pre' ++ m :: post := by
    rcases List.append_eq_append_iff.mp h with ⟨more, hpre', hmore⟩ | ⟨more, hlength, hmore⟩
    · exact ⟨more, hpre', hmore⟩
    · have hone := lengthMoves_length c
      cases more with
      | nil => exact ⟨[], by simpa using hlength.symm, hmore.symm⟩
      | cons a more =>
        rw [hlength] at hone
        cases pre with
        | nil => exact absurd rfl hstart
        | cons b pre => simp at hone
  refine ⟨pre', ?_⟩
  rcases List.append_eq_append_iff.mp hrest with ⟨more, hpre', hmore⟩ | ⟨more, hfill, hmore⟩
  · cases more with
    | nil => exact ⟨[], rfl, by simpa using hpre'.symm, .inl rfl⟩
    | cons a more =>
      cases more with
      | nil =>
        cases hmore
        exact absurd rfl hm
      | cons b more => simp at hmore
  · cases more with
    | nil => exact ⟨[], rfl, hfill, .inl rfl⟩
    | cons a more =>
      cases hmore
      exact ⟨_, rfl, hfill, .inr (hfill ▸ List.mem_append_right _ List.mem_cons_self)⟩

/-- Where an exception leaves a call, the slots hold a counted reference if `buf` was stored. -/
theorem thrown_frame (hs : s.Wf []) (hlt : ∀ i ∈ c.headers, i < s.handles.length)
    {pre post : List Move} {m : Move} (hsplit : c.moves = pre ++ m :: post)
    (hpre : pre.foldlM (Frame.exec build malloc c written) (c.enter s) = .ok f)
    (hm : f.exec build malloc c written m = .error (.threw g)) :
    f.Running s c ∧ (f.Loose ↔ Move.storeBuf ∉ pre) := by
  by_cases hstart : pre = []
  · subst hstart
    cases hpre
    exact ⟨enter_running c hs, iff_of_true (enter_loose c s) nofun⟩
  · obtain ⟨-, hfills, hdestroy⟩ := exec_threw hm
    rcases moves_cases c with hmoves | hmoves | ⟨hpass, hmoves⟩
    · simp [hmoves] at hsplit
    · rw [hmoves] at hsplit
      cases pre with
      | nil => exact absurd rfl hstart
      | cons a pre => simp at hsplit
    · obtain ⟨pre', rest, rfl, hfill, hlast⟩ :=
        thrown_split hstart hdestroy (hmoves.symm.trans hsplit)
      obtain ⟨f₁, hlength, hrun⟩ := Frame.moves_append hpre
      obtain ⟨hf₁, hsame⟩ := enter_lengthMoves c hs hlength
      have hfill_mem : ∀ m ∈ pre', m.Fills := fun m hm =>
        c.fill_fills m (hfill ▸ List.mem_append_left rest hm)
      have hloaded : Loaded false pre' := ((loaded_append _ _ _).mp (hfill ▸ c.fill_loaded)).1
      obtain ⟨hf, hholds, hloose, -⟩ := hf₁.run_fills pre' hfill_mem hlt hloaded nofun hrun
      have hmem : Move.storeBuf ∈ c.lengthMoves ++ pre' ↔ Move.storeBuf ∈ pre' := by
        unfold Compilation.lengthMoves
        cases c.framing <;> simp
      refine ⟨hf, ?_⟩
      rw [hmem]
      constructor
      · intro hl hbuf
        obtain ⟨i, -, h, hh, hcounted⟩ := hholds (.inr hbuf)
        have hgt : f.base < f.slot i := by
          simp only [Frame.slot]
          omega
        rw [hl _ hgt h hh] at hcounted
        cases hcounted
      · intro hbuf
        refine hloose ?_ hbuf fun j hj => hbuf (c.chunk_after_buf hpass ⟨rest, hfill.symm⟩ hj)
        by_cases hnolength : c.lengthMoves = []
        · rw [hsame hnolength]
          exact enter_loose c s
        · obtain ⟨hstored, -, hsize, -⟩ := c.length_fill hnolength
          rcases hlast with rfl | hmem
          · rw [List.append_nil] at hfill
            exact absurd (hfill ▸ hstored) hbuf
          · obtain ⟨j, rfl⟩ := hfills (c.fill_fills m hmem)
            exact absurd hmem (hsize j)

theorem keep_ready {handles : List Nat} (hf : f.Running s c)
    (h : f.keep written handles = .ok g) :
    g.Ready s c ∧ g.state.handles = f.state.handles ∧ g.pos = f.pos ∧ g.base = f.base := by
  obtain ⟨first, t, refs, -, ht, rfl⟩ := keep_ok h
  obtain ⟨htw, hhandles⟩ := retainAll_spec _ hf.wf ht
  rw [List.append_nil] at htw
  refine ⟨⟨htw, hf.base, ?_, hf.cleared⟩, hhandles, rfl, rfl⟩
  intro k hk
  show t.handles[k]? = _
  rw [hhandles]
  exact hf.outer k hk

/-- The loop over the slots leaves nothing behind the members of the caller that is counted. -/
theorem destroyed_frame {before after : Frame} (hf : before.Running s c) (hnull : before.LengthNull)
    (hg : g.Ready s c) (hhandles : g.state.handles = before.state.handles)
    (hpos : g.pos = before.pos) (hbase : g.base = before.base)
    (h : g.exec build malloc c written .destroy = .ok after) : after.Ready s c ∧ after.Loose := by
  rw [Frame.exec] at h
  obtain ⟨t, ht, rfl⟩ := quietly_ok h
  obtain ⟨htw, -, hget⟩ := releaseAll_spec _ hg.wf ht
  have hslots (k : Nat) : k ∈ (List.range g.pos).map g.slot ↔
      ∃ i < before.pos, before.slot i = k := by
    simp [Frame.slot, hpos, hbase]
  refine ⟨⟨htw, hg.base, ?_, hg.cleared⟩, ?_⟩
  · intro k hk
    have hk : k < g.base := hk
    have hne : k ∉ (List.range g.pos).map g.slot := by
      rw [hslots]
      rintro ⟨i, -, hi⟩
      simp only [Frame.slot] at hi
      omega
    show t.handles[k]? = _
    rw [hget k, hg.outer k hk]
    simp only [hne, if_false, Option.map_id']
  · intro k hk this hthis
    have hk : g.base < k := hk
    have hthis : t.handles[k]? = some this := hthis
    rw [hget k, hhandles] at hthis
    obtain ⟨earlier, hearlier, rfl⟩ := Option.map_eq_some_iff.mp hthis
    by_cases hslot : k ∈ (List.range g.pos).map g.slot
    · rw [if_pos hslot]
      rfl
    · rw [if_neg hslot]
      by_cases hvalue : k = before.base + 1
      · rw [hnull earlier (hvalue ▸ hearlier)]
        rfl
      · obtain ⟨i, rfl⟩ : ∃ i, k = before.slot i :=
          ⟨k - (before.base + 2), by simp only [Frame.slot]; omega⟩
        have hspare : before.pos ≤ i := by
          rw [hslots] at hslot
          by_contra hi
          exact hslot ⟨i, by omega, rfl⟩
        rw [hf.spare i hspare earlier hearlier]
        rfl

/-- A call that returns has destroyed what it stored. -/
theorem returned_frame (hs : s.Wf []) (hlt : ∀ i ∈ c.headers, i < s.handles.length)
    (h : c.moves.foldlM (Frame.exec build malloc c written) (c.enter s) = .ok f) :
    f.Ready s c ∧ f.Loose := by
  have hstart := enter_running c hs
  rcases moves_cases c with hmoves | hmoves | ⟨-, hmoves⟩
  · rw [hmoves] at h
    cases h
    exact ⟨hstart.ready, enter_loose c s⟩
  · rw [hmoves] at h
    obtain ⟨g, hpass, h⟩ := Frame.moves_cons h
    cases h
    obtain ⟨hready, hhandles, -, hbase⟩ := keep_ready hstart hpass
    refine ⟨hready, ?_⟩
    intro k hk this hthis
    rw [hhandles] at hthis
    rw [hbase] at hk
    exact enter_loose c s k hk this hthis
  · rw [hmoves] at h
    obtain ⟨f₁, hlength, h⟩ := Frame.moves_append h
    obtain ⟨f₂, hfill, h⟩ := Frame.moves_append h
    obtain ⟨hf₁, hsame⟩ := enter_lengthMoves c hs hlength
    obtain ⟨hf₂, -, -, hnull⟩ := hf₁.run_fills _ c.fill_fills hlt c.fill_loaded nofun hfill
    have hlengthNull : f₂.LengthNull := by
      apply hnull
      by_cases hnolength : c.lengthMoves = []
      · rw [hsame hnolength]
        exact .inl (enter_lengthNull c s)
      · exact .inr (c.length_fill hnolength).2.1
    obtain ⟨f₃, hwrite, h⟩ := Frame.moves_cons h
    obtain ⟨f₄, hdestroy, h⟩ := Frame.moves_cons h
    cases h
    obtain ⟨hf₃, hhandles, hpos, hbase⟩ := keep_ready hf₂ hwrite
    exact destroyed_frame hf₂ hlengthNull hf₃ hhandles hpos hbase hdestroy

theorem returned_not_throws
    (h : c.moves.foldlM (Frame.exec build malloc c written) (c.enter s) = .ok f) {pre post : List Move}
    {m : Move} (hsplit : c.moves = pre ++ m :: post) : ¬c.Throws build malloc written s pre m := by
  intro ⟨f', g, hpre, hm⟩
  rw [hsplit] at h
  obtain ⟨f'', hpre', hrest⟩ := Frame.moves_append h
  obtain rfl := Except.ok.inj (hpre.symm.trans hpre')
  obtain ⟨g', hstep, -⟩ := Frame.moves_cons hrest
  rw [hm] at hstep
  cases hstep

/-- A call that is not left by an exception has made all its moves. -/
theorem moves_of_returned {exit : Exit} (h : c.httpWrite build malloc written s = some exit)
    (hthrew : exit.threw = false) :
    ∃ f, c.moves.foldlM (Frame.exec build malloc c written) (c.enter s) = .ok f ∧
      f.leave false = some exit := by
  unfold Compilation.httpWrite at h
  split at h
  · rename_i f hrun
    exact ⟨f, hrun, h⟩
  · rename_i f hrun
    unfold Frame.leave at h
    split at h
    · cases h
      cases hthrew
    · cases h
  · cases h

end

/-- The references of a call are dropped unless an exception leaves it after `buf` was stored: the
header block or the size of a chunk. -/
theorem httpWrite_settled (build : Build) (malloc : Malloc) (c : Compilation) (written : Written)
    (s : State) (exit : Exit) (hs : s.Wf []) (hnodup : c.headers.Nodup)
    (hlt : ∀ i ∈ c.headers, i < s.handles.length)
    (h : c.httpWrite build malloc written s = some exit) :
    exit.Settled s ↔ ∀ pre m post, c.moves = pre ++ m :: post → Move.storeBuf ∈ pre →
      ¬c.Throws build malloc written s pre m := by
  unfold Compilation.httpWrite at h
  split at h
  · rename_i f hrun
    obtain ⟨hf, hloose⟩ := returned_frame hs hlt hrun
    refine iff_of_true ((Frame.leave_settled hs hf hnodup hlt h).mpr hloose) ?_
    intro pre m post hsplit _
    exact returned_not_throws hrun hsplit
  · rename_i f hrun
    obtain ⟨pre, m, post, g, hsplit, hpre, hm⟩ := foldlM_halt hrun
    obtain ⟨rfl, -⟩ := exec_threw hm
    obtain ⟨hf, hloose⟩ := thrown_frame hs hlt hsplit hpre hm
    rw [Frame.leave_settled hs hf.ready hnodup hlt h, hloose]
    constructor
    · intro hbuf pre' m' post' hsplit' hbuf' ⟨f', g, hpre', hm'⟩
      have heq := throws_unique (hsplit.symm.trans hsplit') hpre hm hpre' hm'
      exact hbuf (heq ▸ hbuf')
    · intro hall hbuf
      exact hall pre m post hsplit hbuf ⟨f, f, hpre, hm⟩
  · cases h

def oneBuffer : State := ⟨[⟨[0x61], some 1, false⟩], [⟨⟨some ⟨0, 0⟩, 1, some 0⟩, none⟩]⟩

def closingCall : Compilation := ⟨.sent true, [0], by decide, true, [], []⟩

theorem httpWrite_settled_chunk : ∃ exit,
    closingCall.httpWrite glibc .zeroed (.kept 0) oneBuffer = some exit ∧ exit.threw = false ∧
      exit.Settled oneBuffer := by
  have hleft : (closingCall.httpWrite glibc .zeroed (.kept 0) oneBuffer).map (fun exit => exit.threw) =
      some false := by
    decide +kernel
  obtain ⟨exit, hexit, hthrew⟩ := Option.map_eq_some_iff.mp hleft
  obtain ⟨f, hrun, -⟩ := moves_of_returned hexit hthrew
  have hbuffer : oneBuffer.Wf [] :=
    (constructDeleter_spec init_wf (show call glibc .zeroed State.init
      (.constructDeleter ⟨[0x61], by decide⟩) = .ok oneBuffer from rfl)).1
  refine ⟨exit, hexit, hthrew, ?_⟩
  apply (httpWrite_settled glibc .zeroed closingCall (.kept 0) oneBuffer exit hbuffer
    List.nodup_nil nofun hexit).mpr
  intro pre m post hsplit _
  exact returned_not_throws hrun hsplit

/-- When the peer has closed the connection, the reference in the slot stays. -/
theorem httpWrite_leaks : ∃ exit,
    closingCall.httpWrite glibc .zeroed .threw oneBuffer = some exit ∧ exit.threw = true ∧
      ¬exit.Settled oneBuffer := by
  have hleft : (closingCall.httpWrite glibc .zeroed .threw oneBuffer).map
      (fun exit => (exit.threw, uses exit.state 0, exit.cleared, exit.kept.length)) =
        some (true, 2, [], 0) := by
    decide +kernel
  obtain ⟨exit, hexit, hcounts⟩ := Option.map_eq_some_iff.mp hleft
  simp only [Prod.mk.injEq, List.length_eq_zero_iff] at hcounts
  obtain ⟨hthrew, huses, hcleared, hkept⟩ := hcounts
  refine ⟨exit, hexit, hthrew, ?_⟩
  intro hsettled
  have hfirst := hsettled 0
  rw [huses, hcleared, hkept] at hfirst
  exact absurd hfirst (by decide)

end Libnodecc.Http
