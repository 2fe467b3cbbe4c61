import Libnodecc.Stream.Watermark
import Mathlib.Algebra.Order.BigOperators.Group.List

namespace Libnodecc.Stream

/-- What user code and libuv do to a stream. The watermarks can be set at any time. -/
inductive WriterLabel where
  | stream (label : StreamLabel)
  | setHighwatermark (hwm : Nat)
  | setLowwatermark (lwm : Nat)
  deriving DecidableEq

/-- The total that `_write` makes a `packed_req` of. -/
def packed (sizes : List Nat) (wi : Int) : Option Nat :=
  if writtenAtOnce sizes wi then none else some (total sizes)

namespace UvStream

def writerStep (s : UvStream) : WriterLabel → Option UvStream
  | .stream label => s.step label
  | .setHighwatermark hwm => some { s with hwm := hwm }
  | .setLowwatermark lwm => some { s with lwm := lwm }

/-- The total of the `packed_req` that a call makes. -/
def packs (s : UvStream) : WriterLabel → Option Nat
  | .stream (.write sizes wi _) => if s.isWritable then packed sizes wi else none
  | .stream (.endStream closing sizes wi _ _) =>
    if s.isWritable && !closing then packed sizes wi else none
  | _ => none

/-- The watermark that `~packed_req` finds, and what it takes off it. -/
def decreases (s : UvStream) (label : WriterLabel) : Option (Nat × Nat) :=
  match label with
  | .stream (.write _ _ ret) | .stream (.endStream _ _ _ ret _) =>
    if ret < 0 then (s.packs label).map fun n => ((s.increaseWatermark n).wm, n) else none
  | .stream (.complete k) => (s.inFlight[k]?).map fun n => (s.wm, n)
  | _ => none

/-- A decrease from `wm` by `n` emits a `drain_event`. -/
def emits (s : UvStream) (wm n : Nat) : Bool := !s.isRegularLevel && decide (wm - n ≤ s.lwm)

def drains (s : UvStream) (label : WriterLabel) : Bool :=
  match s.decreases label with
  | some (wm, n) => s.emits wm n
  | none => false

/-- The totals in flight and that of the request in the making can be counted. -/
def Fits (s : UvStream) (label : WriterLabel) : Prop :=
  ∀ n, s.packs label = some n → s.inFlight.sum + n < 2^64

/-- The clamp is not taken, and the watermark is the sum of the totals in flight. -/
def Exact (s : UvStream) (label : WriterLabel) : Prop :=
  (∀ wm n, s.decreases label = some (wm, n) → n ≤ wm) ∧
    ∀ t, s.writerStep label = some t → t.wm = t.inFlight.sum

end UvStream

/-- A call or a callback, with what the listeners call if it emits a `drain_event`. -/
inductive WriterCall where
  | mk (label : WriterLabel) (listeners : List WriterCall)

namespace UvStream

section
variable (listeners : UvStream → Option UvStream)

def decreaseWith (s : UvStream) (n : Nat) : Option UvStream :=
  let s := { s with wm := if s.wm > n then s.wm - n else 0 }
  if !s.isRegularLevel ∧ s.wm ≤ s.lwm then
    listeners { s with isRegularLevel := true, trace := s.trace ++ [.drain] }
  else some s

def writeBufsWith (s : UvStream) (sizes : List Nat) (wi ret : Int) : Option (UvStream × Bool) :=
  if writtenAtOnce sizes wi then some (s, true)
  else
    let t := s.increaseWatermark (total sizes)
    if ret < 0 then (t.decreaseWith listeners (total sizes)).map fun t => (t, false)
    else some ({ t with inFlight := t.inFlight ++ [total sizes] }, true)

def writeWith (s : UvStream) (sizes : List Nat) (wi ret : Int) : Option UvStream :=
  if !s.isWritable then some s
  else
    (s.writeBufsWith listeners sizes wi ret).map fun
      | (t, false) => t
      | (t, true) =>
        let level : Bool := t.wm < t.hwm
        { t with isRegularLevel := level, trace := t.trace ++ [.wrote level] }

def endBufsWith (s : UvStream) (closing : Bool) (sizes : List Nat) (wi ret shut : Int) :
    Option (UvStream × Bool) :=
  if closing then some (s, true)
  else
    (s.writeBufsWith listeners sizes wi ret).map fun
      | (t, false) => (t, false)
      | (t, true) => (t, decide (0 ≤ shut))

def endStreamWith (s : UvStream) (closing : Bool) (sizes : List Nat) (wi ret shut : Int) :
    Option UvStream :=
  if !s.isWritable then some s
  else
    (s.endBufsWith listeners closing sizes wi ret shut).map fun
      | (t, false) => t
      | (t, true) => { t with isRegularLevel := t.wm < t.hwm, isWritable := false }

def writerStepWith (s : UvStream) : WriterLabel → Option UvStream
  | .stream (.write sizes wi ret) => s.writeWith listeners sizes wi ret
  | .stream (.endStream closing sizes wi ret shut) =>
    s.endStreamWith listeners closing sizes wi ret shut
  | .stream (.complete k) =>
    (s.inFlight[k]?).bind fun n =>
      { s with inFlight := s.inFlight.eraseIdx k }.decreaseWith listeners n
  | label => s.writerStep label

end

mutual

def exec : WriterCall → UvStream → Option UvStream
  | .mk label listeners, s => s.writerStepWith (execAll listeners) label

def execAll : List WriterCall → UvStream → Option UvStream
  | [], s => some s
  | call :: calls, s => (exec call s).bind (execAll calls)

end

mutual

/-- The steps of a call, those of its listeners behind the one that emits the event. -/
def labels : WriterCall → UvStream → List WriterLabel
  | .mk label listeners, s =>
    label :: if s.drains label then (s.writerStep label).elim [] (labelsAll listeners) else []

def labelsAll : List WriterCall → UvStream → List WriterLabel
  | [], _ => []
  | call :: calls, s => labels call s ++ (exec call s).elim [] (labelsAll calls)

end

section
variable {s t : UvStream} {label : WriterLabel} (listeners : UvStream → Option UvStream)

theorem decreaseWith_eq (s : UvStream) (n : Nat) : s.decreaseWith listeners n =
    if s.emits s.wm n then listeners (s.decreaseWatermark n) else some (s.decreaseWatermark n) := by
  have hwm : (if s.wm > n then s.wm - n else 0) = s.wm - n := by split_ifs <;> omega
  unfold decreaseWith decreaseWatermark emits
  simp only [hwm, Bool.and_eq_true, decide_eq_true_eq]
  split_ifs <;> rfl

/-- The listeners are the last that happens to the stream in `_write`. -/
theorem writeBufsWith_eq (s : UvStream) (sizes : List Nat) (wi ret : Int) :
    s.writeBufsWith listeners sizes wi ret =
      if refused sizes wi ret ∧
          s.emits (s.increaseWatermark (total sizes)).wm (total sizes) = true then
        (listeners (s.writeBufs sizes wi ret).1).map fun t => (t, false)
      else some (s.writeBufs sizes wi ret) := by
  have hemits (n : Nat) : (s.increaseWatermark n).emits (s.increaseWatermark n).wm n =
      s.emits (s.increaseWatermark n).wm n := rfl
  unfold writeBufsWith writeBufs refused
  by_cases hnow : writtenAtOnce sizes wi
  · simp [hnow]
  · by_cases hret : ret < 0
    · simp only [hnow, hret, decreaseWith_eq, hemits, if_true, if_false, not_false_eq_true,
        true_and]
      split_ifs <;> rfl
    · simp [hnow, hret]

theorem drains_write (s : UvStream) (sizes : List Nat) (wi ret : Int) :
    s.drains (.stream (.write sizes wi ret)) = true ↔ s.isWritable = true ∧
      refused sizes wi ret ∧ s.emits (s.increaseWatermark (total sizes)).wm (total sizes) =
        true := by
  unfold drains decreases packs packed refused
  by_cases hret : ret < 0
  · cases s.isWritable <;> by_cases hnow : writtenAtOnce sizes wi <;> simp [hret, hnow]
  · simp [hret]

theorem drains_endStream (s : UvStream) (closing : Bool) (sizes : List Nat) (wi ret shut : Int) :
    s.drains (.stream (.endStream closing sizes wi ret shut)) = true ↔
      s.isWritable = true ∧ closing = false ∧ refused sizes wi ret ∧
        s.emits (s.increaseWatermark (total sizes)).wm (total sizes) = true := by
  unfold drains decreases packs packed refused
  by_cases hret : ret < 0
  · cases s.isWritable <;> cases closing <;> by_cases hnow : writtenAtOnce sizes wi <;>
      simp [hret, hnow]
  · simp [hret]

theorem writeBufs_refused {sizes : List Nat} {wi ret : Int} (h : refused sizes wi ret) :
    s.writeBufs sizes wi ret = ((s.writeBufs sizes wi ret).1, false) := by
  obtain ⟨hnow, hret⟩ := h
  simp [writeBufs, hnow, hret]

theorem writeWith_eq (s : UvStream) (sizes : List Nat) (wi ret : Int) :
    s.writeWith listeners sizes wi ret =
      if s.drains (.stream (.write sizes wi ret)) then listeners (s.write sizes wi ret)
      else some (s.write sizes wi ret) := by
  have hdrains := drains_write s sizes wi ret
  unfold writeWith write
  cases hw : s.isWritable with
  | false =>
    have hquiet : ¬s.drains (.stream (.write sizes wi ret)) = true := by simp [hdrains, hw]
    rw [if_neg hquiet]
    rfl
  | true =>
    simp only [Bool.not_true, Bool.false_eq_true, if_false, writeBufsWith_eq]
    by_cases hemit : refused sizes wi ret ∧
        s.emits (s.increaseWatermark (total sizes)).wm (total sizes) = true
    · rw [if_pos hemit, if_pos (hdrains.mpr ⟨hw, hemit⟩), writeBufs_refused hemit.1]
      cases listeners (s.writeBufs sizes wi ret).1 <;> rfl
    · have hquiet : ¬s.drains (.stream (.write sizes wi ret)) = true :=
        fun h => hemit (hdrains.mp h).2
      rw [if_neg hemit, if_neg hquiet]
      rfl

theorem endStreamWith_eq (s : UvStream) (closing : Bool) (sizes : List Nat) (wi ret shut : Int) :
    s.endStreamWith listeners closing sizes wi ret shut =
      if s.drains (.stream (.endStream closing sizes wi ret shut)) then
        listeners (s.endStream closing sizes wi ret shut)
      else some (s.endStream closing sizes wi ret shut) := by
  have hdrains := drains_endStream s closing sizes wi ret shut
  unfold endStreamWith endStream endBufsWith endBufs
  cases hw : s.isWritable with
  | false =>
    have hquiet : ¬s.drains (.stream (.endStream closing sizes wi ret shut)) = true := by
      simp [hdrains, hw]
    rw [if_neg hquiet]
    rfl
  | true =>
    simp only [Bool.not_true, Bool.false_eq_true, if_false, writeBufsWith_eq]
    by_cases hemit : closing = false ∧ refused sizes wi ret ∧
        s.emits (s.increaseWatermark (total sizes)).wm (total sizes) = true
    · obtain ⟨rfl, hemit⟩ := hemit
      rw [if_pos (hdrains.mpr ⟨hw, rfl, hemit⟩)]
      simp only [Bool.false_eq_true, if_false]
      rw [if_pos hemit, writeBufs_refused hemit.1]
      cases listeners (s.writeBufs sizes wi ret).1 <;> rfl
    · have hquiet : ¬s.drains (.stream (.endStream closing sizes wi ret shut)) = true :=
        fun h => hemit (hdrains.mp h).2
      rw [if_neg hquiet]
      cases closing with
      | true => rfl
      | false =>
        simp only [Bool.false_eq_true, if_false]
        rw [if_neg fun h => hemit ⟨rfl, h⟩]
        rfl

/-- A step with its listeners is the step, and then the listeners if it emits the event. -/
theorem writerStepWith_eq (s : UvStream) (label : WriterLabel) :
    s.writerStepWith listeners label =
      (s.writerStep label).bind fun t => if s.drains label then listeners t else some t := by
  cases label with
  | setHighwatermark hwm => rfl
  | setLowwatermark lwm => rfl
  | stream label =>
    cases label with
    | write sizes wi ret => exact writeWith_eq listeners s sizes wi ret
    | endStream closing sizes wi ret shut =>
      exact endStreamWith_eq listeners s closing sizes wi ret shut
    | complete k =>
      cases hk : s.inFlight[k]? with
      | none => simp only [writerStepWith, writerStep, step, hk, Option.bind_none, Option.map_none]
      | some n =>
        simp only [writerStepWith, writerStep, step, drains, decreases, hk, Option.bind_some,
          Option.map_some]
        exact decreaseWith_eq listeners _ n
    | shutdownDone => rfl

end

mutual

theorem exec_eq_run (call : WriterCall) (s : UvStream) :
    exec call s = run writerStep s (labels call s) := by
  cases call with
  | mk label listeners =>
    rw [exec, labels, run_cons, writerStepWith_eq]
    cases s.writerStep label with
    | none => rfl
    | some t =>
      simp only [Option.bind_some, Option.elim_some]
      split_ifs
      · exact execAll_eq_run listeners t
      · rfl

theorem execAll_eq_run (calls : List WriterCall) (s : UvStream) :
    execAll calls s = run writerStep s (labelsAll calls s) := by
  cases calls with
  | nil => rw [execAll, labelsAll, run_nil]
  | cons call calls =>
    rw [execAll, labelsAll, run_append, ← exec_eq_run call s]
    cases exec call s with
    | none => rfl
    | some t =>
      simp only [Option.bind_some, Option.elim_some]
      exact execAll_eq_run calls t

end

structure Summed (s : UvStream) : Prop where
  sum : s.wm = s.inFlight.sum
  lt : s.wm < 2^64

/-- What a step does to the watermark and the requests in flight, by what it packs and takes off. -/
inductive Moves (s : UvStream) : Option Nat → Option (Nat × Nat) → Nat → List Nat → Prop
  | idle : Moves s none none s.wm s.inFlight
  | queued (n : Nat) : Moves s (some n) none (sizeT (s.wm + n)) (s.inFlight ++ [n])
  | refused (n : Nat) :
    Moves s (some n) (some (sizeT (s.wm + n), n)) (sizeT (s.wm + n) - n) s.inFlight
  | completed (k n : Nat) (h : s.inFlight[k]? = some n) :
    Moves s none (some (s.wm, n)) (s.wm - n) (s.inFlight.eraseIdx k)

section
variable {s t : UvStream} {label : WriterLabel}

theorem total_lt (sizes : List Nat) : total sizes < 2^64 := by
  rw [total_eq]
  exact Nat.mod_lt _ (by decide)

theorem writeBufs_moves (s : UvStream) (sizes : List Nat) (wi ret : Int) :
    s.Moves (packed sizes wi)
      (if ret < 0 then (packed sizes wi).map fun n => ((s.increaseWatermark n).wm, n) else none)
      (s.writeBufs sizes wi ret).1.wm (s.writeBufs sizes wi ret).1.inFlight := by
  unfold writeBufs packed
  by_cases hnow : writtenAtOnce sizes wi
  · simpa [hnow] using Moves.idle
  · by_cases hret : ret < 0
    · simpa [hnow, hret, increaseWatermark] using Moves.refused (s := s) (total sizes)
    · simpa [hnow, hret, increaseWatermark] using Moves.queued (s := s) (total sizes)

theorem write_moves (s : UvStream) (sizes : List Nat) (wi ret : Int) :
    s.Moves (s.packs (.stream (.write sizes wi ret))) (s.decreases (.stream (.write sizes wi ret)))
      (s.write sizes wi ret).wm (s.write sizes wi ret).inFlight := by
  have hmoves := s.writeBufs_moves sizes wi ret
  unfold decreases packs write
  cases s.isWritable with
  | false => simpa using Moves.idle
  | true =>
    simp only [if_true, Bool.not_true, Bool.false_eq_true, if_false]
    cases hbufs : s.writeBufs sizes wi ret with
    | mk t returned =>
      rw [hbufs] at hmoves
      cases returned <;> exact hmoves

theorem endStream_moves (s : UvStream) (closing : Bool) (sizes : List Nat) (wi ret shut : Int) :
    s.Moves (s.packs (.stream (.endStream closing sizes wi ret shut)))
      (s.decreases (.stream (.endStream closing sizes wi ret shut)))
      (s.endStream closing sizes wi ret shut).wm
      (s.endStream closing sizes wi ret shut).inFlight := by
  have hmoves := s.writeBufs_moves sizes wi ret
  unfold decreases packs endStream endBufs
  cases s.isWritable with
  | false => simpa using Moves.idle
  | true =>
    cases closing with
    | true => simpa using Moves.idle
    | false =>
      simp only [Bool.not_true, Bool.not_false, Bool.and_self, if_true, Bool.false_eq_true,
        if_false]
      cases hbufs : s.writeBufs sizes wi ret with
      | mk t returned =>
        rw [hbufs] at hmoves
        cases returned with
        | false => exact hmoves
        | true =>
          cases decide (0 ≤ shut) <;> exact hmoves

/-- Every step moves the watermark and the requests in one of these ways. -/
theorem writerStep_moves (h : s.writerStep label = some t) :
    s.Moves (s.packs label) (s.decreases label) t.wm t.inFlight := by
  cases label with
  | setHighwatermark hwm =>
    cases h
    exact .idle
  | setLowwatermark lwm =>
    cases h
    exact .idle
  | stream label =>
    cases label with
    | write sizes wi ret =>
      cases h
      exact s.write_moves sizes wi ret
    | endStream closing sizes wi ret shut =>
      cases h
      exact s.endStream_moves closing sizes wi ret shut
    | complete k =>
      obtain ⟨n, hn, rfl⟩ := Option.map_eq_some_iff.mp h
      simpa [packs, decreases, hn] using Moves.completed (s := s) k n hn
    | shutdownDone =>
      cases h
      exact .idle

theorem packs_lt {n : Nat} (h : s.packs label = some n) : n < 2^64 := by
  have hpacked (sizes : List Nat) (wi : Int) (hn : packed sizes wi = some n) : n < 2^64 := by
    unfold packed at hn
    split_ifs at hn
    cases hn
    exact total_lt sizes
  unfold packs at h
  split at h
  · split_ifs at h
    exact hpacked _ _ h
  · split_ifs at h
    exact hpacked _ _ h
  · cases h

theorem Moves.wm_lt {pack : Option Nat} {decrease : Option (Nat × Nat)} {wm : Nat}
    {inFlight : List Nat} (h : s.Moves pack decrease wm inFlight) (hlt : s.wm < 2^64) :
    wm < 2^64 := by
  cases h with
  | idle => exact hlt
  | queued n => exact Nat.mod_lt _ (by decide)
  | refused n => exact Nat.lt_of_le_of_lt (Nat.sub_le _ _) (Nat.mod_lt _ (by decide))
  | completed k n hk => exact Nat.lt_of_le_of_lt (Nat.sub_le _ _) hlt

/-- A watermark that is the sum stays the sum, without a clamp, if and only if the sum can be
counted with the request that is made. -/
theorem Moves.exact_iff {pack : Option Nat} {decrease : Option (Nat × Nat)} {wm : Nat}
    {inFlight : List Nat} (h : s.Moves pack decrease wm inFlight)
    (hsum : s.wm = s.inFlight.sum) (hlt : s.wm < 2^64) (hpack : ∀ n, pack = some n → n < 2^64) :
    ((∀ w n, decrease = some (w, n) → n ≤ w) ∧ wm = inFlight.sum) ↔
      ∀ n, pack = some n → s.inFlight.sum + n < 2^64 := by
  cases h with
  | idle => exact iff_of_true ⟨nofun, hsum⟩ nofun
  | queued n =>
    have hn := hpack n rfl
    simp only [reduceCtorEq, false_implies, implies_true, true_and, Option.some.injEq,
      List.sum_append, List.sum_singleton, forall_eq', sizeT, hsum] at hlt ⊢
    omega
  | refused n =>
    have hn := hpack n rfl
    have hclamp : (∀ w m, some (sizeT (s.wm + n), n) = some (w, m) → m ≤ w) ↔
        n ≤ sizeT (s.wm + n) := by
      constructor
      · intro h
        exact h _ _ rfl
      · intro h w m hm
        cases hm
        exact h
    rw [hclamp]
    simp only [Option.some.injEq, forall_eq', sizeT, hsum] at hlt ⊢
    omega
  | completed k n hk =>
    obtain ⟨hlength, rfl⟩ := List.getElem?_eq_some_iff.mp hk
    have herase := List.CommMonoid.add_sum_eraseIdx hlength
    refine iff_of_true ⟨?_, ?_⟩ nofun
    · intro w m hm
      cases hm
      omega
    · omega

theorem Summed.exact_iff (hs : s.Summed) : s.Exact label ↔ s.Fits label := by
  cases ht : s.writerStep label with
  | some t =>
    rw [Exact, Fits, ← (writerStep_moves ht).exact_iff hs.sum hs.lt fun n => packs_lt]
    simp only [ht, Option.some.injEq, forall_eq']
  | none =>
    obtain ⟨k, rfl, hk⟩ : ∃ k, label = .stream (.complete k) ∧ s.inFlight[k]? = none := by
      cases label with
      | setHighwatermark | setLowwatermark => cases ht
      | stream label =>
        cases label with
        | complete k => exact ⟨k, rfl, Option.map_eq_none_iff.mp ht⟩
        | write | endStream | shutdownDone => cases ht
    refine iff_of_true ⟨?_, fun t h => ?_⟩ nofun
    · simp [decreases, hk]
    · rw [ht] at h
      cases h

theorem Summed.step (hs : s.Summed) (hexact : s.Exact label) (h : s.writerStep label = some t) :
    t.Summed :=
  ⟨hexact.2 t h, (writerStep_moves h).wm_lt hs.lt⟩

theorem init_summed (hwm lwm : Nat) : (init hwm lwm).Summed := ⟨rfl, Nat.two_pow_pos 64⟩

end

end UvStream

/-- In a run of calls and callbacks whose listeners call again, the watermark is the sum of the
totals in flight after every step and the clamp is never taken, if and only if that sum can be
counted all along. -/
theorem watermark_exact_iff (hwm lwm : Nat) (calls : List WriterCall) :
    UvStream.execAll calls (.init hwm lwm) =
        run UvStream.writerStep (.init hwm lwm) (UvStream.labelsAll calls (.init hwm lwm)) ∧
      (Along UvStream.writerStep UvStream.Exact (.init hwm lwm)
          (UvStream.labelsAll calls (.init hwm lwm)) ↔
        Along UvStream.writerStep UvStream.Fits (.init hwm lwm)
          (UvStream.labelsAll calls (.init hwm lwm))) := by
  have hinit := UvStream.init_summed hwm lwm
  refine ⟨UvStream.execAll_eq_run _ _, ?_, ?_⟩
  · refine along_invariant UvStream.Summed ?_ _ _ hinit
    intro s label hs hexact
    exact ⟨hs.exact_iff.mp hexact, fun t ht => hs.step hexact ht⟩
  · refine along_invariant UvStream.Summed ?_ _ _ hinit
    intro s label hs hfits
    have hexact := hs.exact_iff.mpr hfits
    exact ⟨hexact, fun t ht => hs.step hexact ht⟩

/-- A second request of `2^63` bytes is not counted. -/
theorem second_uncounted {sizes : List Nat} (htotal : total sizes = 2^63)
    (hqueued : ¬writtenAtOnce sizes (-11)) : ¬Along UvStream.writerStep UvStream.Exact
      (.init 16384 4096) (UvStream.labelsAll [.mk (.stream (.write sizes (-11) 0)) [],
        .mk (.stream (.write sizes (-11) 0)) []] (.init 16384 4096)) := by
  have hwrite (s : UvStream) (hs : s.isWritable = true) :
      (s.write sizes (-11) 0).wm = sizeT (s.wm + total sizes) ∧
        (s.write sizes (-11) 0).inFlight = s.inFlight ++ [total sizes] ∧
        (s.write sizes (-11) 0).isWritable = true := by
    simp [UvStream.write, UvStream.writeBufs, UvStream.increaseWatermark, hs, hqueued]
  have hquiet (s : UvStream) : s.drains (.stream (.write sizes (-11) 0)) = false := by
    simp [UvStream.drains, UvStream.decreases]
  have hstep (s : UvStream) :
      s.writerStep (.stream (.write sizes (-11) 0)) = some (s.write sizes (-11) 0) := by
    rfl
  have hlabels (s : UvStream) : UvStream.labelsAll [.mk (.stream (.write sizes (-11) 0)) [],
      .mk (.stream (.write sizes (-11) 0)) []] s =
        [.stream (.write sizes (-11) 0), .stream (.write sizes (-11) 0)] := by
    simp [UvStream.labelsAll, UvStream.labels, UvStream.exec, UvStream.writerStepWith_eq, hquiet,
      hstep]
  obtain ⟨hwm, hinFlight, hwritable⟩ := hwrite (.init 16384 4096) rfl
  obtain ⟨hwm', hinFlight', -⟩ := hwrite _ hwritable
  rw [hlabels]
  intro hwrap
  have hsecond := (hwrap.2 _ (hstep _)).1.2 _ (hstep _)
  rw [hwm', hinFlight', hwm, hinFlight, htotal] at hsecond
  revert hsecond
  decide

/-- The sizes of an array of buffers over the same `2^46` bytes. -/
def sameMemory : List Nat := List.replicate (2^17) (2^46)

theorem sameMemory_total : total sameMemory = 2^63 := by
  rw [total_eq, sameMemory, List.sum_replicate]
  decide

/-- Two requests of `2^63` bytes. -/
theorem watermark_wraps :
    ¬ ∀ (hwm lwm : Nat) (calls : List WriterCall),
      Along UvStream.writerStep UvStream.Exact (.init hwm lwm)
        (UvStream.labelsAll calls (.init hwm lwm)) := by
  intro h
  refine second_uncounted sameMemory_total ?_ (h 16384 4096 _)
  rintro (hnone | ⟨hpos, -⟩)
  · have htotal := sameMemory_total
    rw [hnone] at htotal
    exact absurd htotal (by decide)
  · exact absurd hpos (by decide)

end Libnodecc.Stream
