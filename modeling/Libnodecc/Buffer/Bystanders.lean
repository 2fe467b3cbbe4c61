import Libnodecc.Buffer.ValueSemantics

namespace Libnodecc.Buffer

open Util

section
variable {build : Build} {malloc : Malloc} {s t u : State} {touched touched' : List Nat} {k : Nat}

/-- References stay counted, and all handles but those in `touched` are as they were, and show what
they showed. -/
structure Leaves (touched : List Nat) (s t : State) : Prop where
  wf : t.Wf []
  handle : ∀ k < s.handles.length, k ∉ touched → t.handles[k]? = s.handles[k]?
  shown : ∀ k < s.handles.length, k ∉ touched → t.shown k = s.shown k

namespace Leaves

theorem refl (touched : List Nat) (hw : s.Wf []) : Leaves touched s s :=
  ⟨hw, fun _ _ _ => rfl, fun _ _ _ => rfl⟩

theorem get (h : Leaves touched s t) (hk' : k ∉ touched) {x : Handle}
    (hx : s.handles[k]? = some x) : t.handles[k]? = some x := by
  rw [h.handle k (List.getElem?_eq_some_iff.mp hx).1 hk']
  exact hx

theorem lt (h : Leaves touched s t) (hk : k < s.handles.length) (hk' : k ∉ touched) :
    k < t.handles.length := by
  obtain ⟨x, hx⟩ := has_get hk
  exact (List.getElem?_eq_some_iff.mp (h.get hk' hx)).1

theorem trans (h : Leaves touched s t) (h' : Leaves touched' t u) :
    Leaves (touched ++ touched') s u := by
  refine ⟨h'.wf, ?_, ?_⟩
  · intro k hk hkt
    rw [List.mem_append, not_or] at hkt
    rw [h'.handle k (h.lt hk hkt.1) hkt.2, h.handle k hk hkt.1]
  · intro k hk hkt
    rw [List.mem_append, not_or] at hkt
    rw [h'.shown k (h.lt hk hkt.1) hkt.2, h.shown k hk hkt.1]

theorem mono (h : Leaves touched s t)
    (hsub : ∀ k < s.handles.length, k ∈ touched → k ∈ touched') : Leaves touched' s t :=
  ⟨h.wf, fun k hk hkt => h.handle k hk fun hk' => hkt (hsub k hk hk'),
    fun k hk hkt => h.shown k hk fun hk' => hkt (hsub k hk hk')⟩

end Leaves

theorem leaves_of_quiet (hw : s.Wf []) (htw : t.Wf []) (hq : Quiet touched s t) :
    Leaves touched s t := by
  refine ⟨htw, fun k _ hk' => hq.others k hk', ?_⟩
  intro k hk hk'
  obtain ⟨bytes, hs, ht⟩ := shown_quiet hw htw hq hk hk'
  rw [hs, ht]

theorem leaves_of_push (hw : s.Wf []) (htw : t.Wf []) (hq : Quiet [s.handles.length] s t) :
    Leaves [] s t := by
  apply (leaves_of_quiet hw htw hq).mono
  intro k hk hk'
  rw [List.mem_singleton] at hk'
  omega

theorem demand_handle {op : Op} {d : Demand} (hw : s.Wf []) (hop : op.Separate build s)
    (hd : op.demand build s = some d) (h : call build malloc s op = .ok t) (hk : k ∉ op.operands) :
    t.handles[k]? = s.handles[k]? := by
  have hg := hop.grows
  simp only [Op.Grows, hd] at hg
  obtain ⟨data, happend, -⟩ := call_demand hd h
  rw [demand_operands hd] at hk
  exact (append_keeps hw hg happend).2.1.others k hk

/-- An operation changes the handles it is on, and may make a new one. -/
theorem call_handle (op : Op) (hw : s.Wf []) (hop : op.Separate build s)
    (h : call build malloc s op = .ok t) (hk : k < s.handles.length) (hk' : k ∉ op.operands) :
    t.handles[k]? = s.handles[k]? := by
  have hnew : k ∉ [s.handles.length] := by
    rw [List.mem_singleton]
    omega
  cases op with
  | callerMemory region => exact (callerMemory_spec hw h).2.others k List.not_mem_nil
  | construct kind => exact (construct_spec hw h).2.1.others k hnew
  | constructSize kind n => exact (constructSize_spec hw h).2.1.others k hnew
  | constructCopy region => exact (constructCopy_spec hw h).2.1.others k hnew
  | constructWeak block off size => exact (constructWeak_spec hw h).2.1.others k hnew
  | constructDeleter region => exact (constructDeleter_spec hw h).2.1.others k hnew
  | copyConstruct kind passed j => exact (copyConstruct_spec hw h).2.1.others k hnew
  | moveConstruct kind passed j =>
    apply (moveConstruct_spec hw h).2.1.others k
    rw [List.mem_cons, not_or]
    exact ⟨fun hkj => hk' (by simp [Op.operands, hkj]), hnew⟩
  | copy j n => exact (copyOp_spec hw h).2.1.others k hnew
  | slice kind j first last => exact (sliceOp_spec hw h).2.1.others k hnew
  | assignView i block off size => exact (assignView_spec hw h).2.1.others k hk'
  | copyAssign i passed j => exact (copyAssign_spec hw h).2.1.others k hk'
  | moveAssign i passed j => exact (moveAssign_spec hw h).2.1.others k hk'
  | swap i passed j => exact (swap_spec hw h).2.1.others k hk'
  | reset i => exact (reset_spec hw h).2.1.others k hk'
  | clear i => exact (clear_spec hw h).2.1.others k hk'
  | setSize i size =>
    obtain ⟨this, n, -, -, ⟨-, -, rfl⟩ | hmoved⟩ := setSize_spec hw h
    · exact (s.resize_quiet i size).others k hk'
    · exact hmoved.quiet.others k hk'
  | setCapacity i capacity =>
    obtain ⟨this, -, -, rfl | hmoved⟩ := setCapacity_spec hw h
    · exact (s.resize_quiet i _).others k hk'
    · exact hmoved.quiet.others k hk'
  | append i source pos n => exact demand_handle hw hop rfl h hk'
  | pushBack i ch => exact demand_handle hw hop rfl h hk'
  | appendView i source pos count =>
    cases hd : (Op.appendView i source pos count).demand build s with
    | some d => exact demand_handle hw hop hd h hk'
    | none => rw [appendView_idle hd h]
  | appendNumber i n base =>
    cases hd : (Op.appendNumber i n base).demand build s with
    | some d => exact demand_handle hw hop hd h hk'
    | none => rw [appendNumber_idle hd h]
  | appendBuffer i j pos count =>
    cases hd : (Op.appendBuffer i j pos count).demand build s with
    | some d => exact demand_handle hw hop hd h hk'
    | none =>
      obtain rfl | ⟨-, htq, -⟩ := appendBuffer_idle hw hd h
      · rfl
      · exact htq.others k hk'

theorem call_leaves (op : Op) (hw : s.Wf []) (hop : op.Separate build s)
    (h : call build malloc s op = .ok t) : Leaves op.operands s t := by
  have hframes := call_frames op hw hop h
  refine ⟨hframes.wf, fun k hk hk' => call_handle op hw hop h hk hk', ?_⟩
  intro k hk hk'
  obtain ⟨bytes, hs, ht⟩ := hframes.others k hk hk'
  rw [hs, ht]

/-- An operation leaves the handles it is not on alone, whether it finds memory or not. -/
theorem step_leaves (malloc : Malloc) (op : Op) (hw : s.Wf []) (hop : op.Separate build s) :
    ∃ t, step build malloc s op = some t ∧ Leaves op.operands s t := by
  have hfine : Fine (call build malloc s op) :=
    call_fine op hw hop.valid hop.grows hop.lives hop.counts
  unfold step
  cases h : call build malloc s op with
  | ok t => exact ⟨t, rfl, call_leaves op hw hop h⟩
  | error stop =>
    cases stop with
    | undefined => exact absurd h hfine
    | badAlloc => exact ⟨s, rfl, .refl _ hw⟩

end

section
variable (build : Build) (malloc : Malloc)

/-- A `std::vector<node::buffer>` of copies. -/
def copies (s : State) (js : List Nat) : Call State :=
  js.foldlM (fun s j => call build malloc s (.copyConstruct .buffer .buffer j)) s

def destroyAll (s : State) (ks : List Nat) : Call State :=
  ks.foldlM (fun s k => call build malloc s (.reset k)) s

end

def State.refOf (s : State) (j : Nat) : Ref := (s.handles[j]?).elim .null Handle.ref

section
variable (build : Build) (malloc : Malloc) {s : State}

theorem refOf_get {j : Nat} {x : Handle} (hx : s.handles[j]? = some x) : s.refOf j = x.ref := by
  rw [State.refOf, hx]
  rfl

theorem copyConstruct_get {j : Nat} {x : Handle} (hx : s.handles[j]? = some x) :
    call build malloc s (.copyConstruct .buffer .buffer j) =
      .ok ((s.retain x.ref).push x.ref none) := by
  simp only [call, State.handle, hx, call_defined]
  rfl

theorem copies_spec (js : List Nat) (hw : s.Wf []) (hjs : ∀ j ∈ js, j < s.handles.length) :
    ∃ t, copies build malloc s js = .ok t ∧ Leaves [] s t ∧
      t.handles = s.handles ++ js.map fun j => ⟨s.refOf j, none⟩ := by
  induction js generalizing s with
  | nil => exact ⟨s, rfl, .refl _ hw, by simp⟩
  | cons j js ih =>
    obtain ⟨x, hx⟩ := has_get (hjs j List.mem_cons_self)
    have hcopy := copyConstruct_get build malloc hx
    obtain ⟨huw, huq, -⟩ := copyConstruct_spec hw hcopy
    have hold (i : Nat) (hi : i < s.handles.length) :
        ((s.retain x.ref).push x.ref none).refOf i = s.refOf i := by
      rw [State.refOf, State.refOf, huq.others i (by rw [List.mem_singleton]; omega)]
    obtain ⟨t, ht, hleaves, hhandles⟩ := ih huw (by
      intro i hi
      have hlt := hjs i (List.mem_cons_of_mem _ hi)
      simp only [State.push, State.retain, List.length_append]
      omega)
    refine ⟨t, ?_, (leaves_of_push hw huw huq).trans hleaves, ?_⟩
    · rw [copies, List.foldlM_cons, hcopy, call_bind]
      exact ht
    · have hrest : (js.map fun j => (⟨((s.retain x.ref).push x.ref none).refOf j, none⟩ : Handle)) =
          js.map fun j => ⟨s.refOf j, none⟩ :=
        List.map_congr_left fun i hi => by rw [hold i (hjs i (List.mem_cons_of_mem _ hi))]
      rw [hhandles, hrest, List.map_cons, refOf_get hx]
      simp [State.push, State.retain]

theorem handles_le {t : State} {touched : List Nat}
    (hothers : ∀ k, k ∉ touched → t.handles[k]? = s.handles[k]?)
    (hthere : ∀ k ∈ touched, ∃ x, t.handles[k]? = some x) :
    s.handles.length ≤ t.handles.length := by
  by_contra hlt
  have hgone : t.handles[t.handles.length]? = none := List.getElem?_eq_none (Nat.le_refl _)
  by_cases hk : t.handles.length ∈ touched
  · obtain ⟨x, hx⟩ := hthere _ hk
    cases hgone.symm.trans hx
  · rw [hothers _ hk, List.getElem?_eq_none_iff] at hgone
    exact hlt hgone

theorem reset_fine {k : Nat} (hw : s.Wf []) (hk : k < s.handles.length) :
    ∃ t, call build malloc s (.reset k) = .ok t ∧ Leaves [k] s t ∧
      s.handles.length ≤ t.handles.length := by
  obtain ⟨x, hx⟩ := has_get hk
  obtain ⟨t, ht⟩ : ∃ t, call build malloc s (.reset k) = .ok t := by
    simp only [call, State.release, State.handle, hx, call_defined, State.setRef, pure_bind,
      List.getElem?_modify]
    exact ⟨_, rfl⟩
  obtain ⟨htw, htq, this, -, htk⟩ := reset_spec hw ht
  refine ⟨t, ht, leaves_of_quiet hw htw htq, handles_le htq.others ?_⟩
  intro j hj
  rw [List.mem_singleton.mp hj]
  exact ⟨_, htk⟩

/-- A move from another handle takes over what that refers to. -/
theorem moveAssign_fine {i j : Nat} {y : Handle} (hw : s.Wf []) (hi : i < s.handles.length)
    (hy : s.handles[j]? = some y) (hij : i ≠ j) :
    ∃ t, call build malloc s (.moveAssign i .buffer j) = .ok t ∧ Leaves [i, j] s t ∧
      s.handles.length ≤ t.handles.length ∧ ∃ x, t.handles[i]? = some x ∧ x.ref = y.ref := by
  obtain ⟨x, hx⟩ := has_get hi
  obtain ⟨t, ht⟩ : ∃ t, call build malloc s (.moveAssign i .buffer j) = .ok t := by
    simp only [call, State.assignMoved, State.release, State.swapRefs, State.takeCapacity,
      State.takenCapacity, State.handle, State.setRef, hx, hy, if_neg hij, if_true, call_defined,
      pure_bind, List.getElem?_modify, Option.map_eq_map, Option.map_some]
    exact ⟨_, rfl⟩
  obtain ⟨htw, htq, this, other, capacity, -, hother, -, hti, htj⟩ := moveAssign_spec hw ht
  obtain rfl := Option.some.inj (hy.symm.trans hother)
  rw [if_neg hij] at hti
  refine ⟨t, ht, leaves_of_quiet hw htw htq, handles_le htq.others ?_, _, hti, rfl⟩
  intro k hk
  rcases List.mem_cons.mp hk with rfl | hk
  · exact ⟨_, hti⟩
  · rw [List.mem_singleton.mp hk]
    exact ⟨_, htj hij⟩

theorem destroyAll_spec (ks : List Nat) (hw : s.Wf []) (hks : ∀ k ∈ ks, k < s.handles.length) :
    ∃ t, destroyAll build malloc s ks = .ok t ∧ Leaves ks s t ∧
      s.handles.length ≤ t.handles.length := by
  induction ks generalizing s with
  | nil => exact ⟨s, rfl, .refl _ hw, Nat.le_refl _⟩
  | cons k ks ih =>
    obtain ⟨u, hu, hleaves, hle⟩ :=
      reset_fine build malloc hw (hks k List.mem_cons_self)
    obtain ⟨t, ht, hrest, hle'⟩ := ih hleaves.wf fun i hi =>
      Nat.lt_of_lt_of_le (hks i (List.mem_cons_of_mem _ hi)) hle
    refine ⟨t, ?_, hleaves.trans hrest, Nat.le_trans hle hle'⟩
    rw [destroyAll, List.foldlM_cons, hu, call_bind]
    exact ht

end

end Libnodecc.Buffer
