import Libnodecc.Framework.Run
import Libnodecc.Util.SizeT
import Mathlib.Algebra.BigOperators.Group.List.Basic

namespace Libnodecc.Stream

/-- The fields of `writable_base`. -/
structure WritableBase where
  hwm : Nat
  lwm : Nat
  wm : Nat
  isRegularLevel : Bool
  isWritable : Bool
  hasEnded : Bool
  deriving DecidableEq

/-- What a producer sees: the result of a `write()` that returned, or a `drain_event`. -/
inductive StreamEvent where
  | wrote (regular : Bool)
  | drain
  deriving DecidableEq

/-- A `uv::stream` seen from its watermark: `inFlight` lists the totals of the `packed_req`s
libuv still holds, `trace` what the producers have seen so far. -/
structure UvStream extends WritableBase where
  inFlight : List Nat
  trace : List StreamEvent
  deriving DecidableEq

def UvStream.init (hwm lwm : Nat) : UvStream :=
  ⟨⟨hwm, lwm, 0, true, true, false⟩, [], []⟩

def UvStream.increaseWatermark (s : UvStream) (n : Nat) : UvStream :=
  { s with wm := sizeT (s.wm + n) }

def UvStream.decreaseWatermark (s : UvStream) (n : Nat) : UvStream :=
  let s := { s with wm := if s.wm > n then s.wm - n else 0 }
  if !s.isRegularLevel ∧ s.wm ≤ s.lwm then
    { s with isRegularLevel := true, trace := s.trace ++ [.drain] }
  else s

/-- Sum of the buffer sizes, as the loop of `_write` accumulates it. -/
def total (sizes : List Nat) : Nat := sizes.foldl (fun t n => sizeT (t + n)) 0

theorem total_eq (sizes : List Nat) : total sizes = sizeT sizes.sum := by
  have hfold (start : Nat) : sizes.foldl (fun t n => sizeT (t + n)) (sizeT start) =
      sizeT (start + sizes.sum) := by
    induction sizes generalizing start with
    | nil => rfl
    | cons n sizes ih =>
      have hmod : sizeT (sizeT start + n) = sizeT (start + n) := Nat.mod_add_mod start (2^64) n
      rw [List.foldl_cons, hmod, ih, List.sum_cons, Nat.add_assoc]
  have hzero := hfold 0
  rw [Nat.zero_add] at hzero
  exact hzero

/-- `wi` is what `uv_try_write` answered: the two early returns behind it, and the one for no
buffers. -/
def writtenAtOnce (sizes : List Nat) (wi : Int) : Prop :=
  sizes = [] ∨ 0 < wi ∧ (wi.toNat = total sizes ∨ total sizes < wi.toNat)

instance (sizes : List Nat) (wi : Int) : Decidable (writtenAtOnce sizes wi) :=
  inferInstanceAs (Decidable (_ ∨ _))

/-- `uv::stream::_write`. `ret` is what `uv_write` answered; a negative one makes `uv::check`
throw, which destroys the `packed_req` again. The flag tells whether the call returned. -/
def UvStream.writeBufs (s : UvStream) (sizes : List Nat) (wi ret : Int) : UvStream × Bool :=
  if writtenAtOnce sizes wi then (s, true)
  else
    let t := s.increaseWatermark (total sizes)
    if ret < 0 then (t.decreaseWatermark (total sizes), false)
    else ({ t with inFlight := t.inFlight ++ [total sizes] }, true)

/-- `writable::write`. On a stream that has ended it throws. -/
def UvStream.write (s : UvStream) (sizes : List Nat) (wi ret : Int) : UvStream :=
  if !s.isWritable then s
  else
    match s.writeBufs sizes wi ret with
    | (t, false) => t
    | (t, true) =>
      let level : Bool := t.wm < t.hwm
      { t with isRegularLevel := level, trace := t.trace ++ [.wrote level] }

/-- `uv::stream::_end`. `closing` is what `is_closing()` answers, `shut` what `uv_shutdown` does. -/
def UvStream.endBufs (s : UvStream) (closing : Bool) (sizes : List Nat) (wi ret shut : Int) :
    UvStream × Bool :=
  if closing then (s, true)
  else
    match s.writeBufs sizes wi ret with
    | (t, false) => (t, false)
    | (t, true) => (t, decide (0 ≤ shut))

/-- `writable::end`. -/
def UvStream.endStream (s : UvStream) (closing : Bool) (sizes : List Nat) (wi ret shut : Int) :
    UvStream :=
  if !s.isWritable then s
  else
    match s.endBufs closing sizes wi ret shut with
    | (t, false) => t
    | (t, true) => { t with isRegularLevel := t.wm < t.hwm, isWritable := false }

/-- One thing that can happen to the stream. A `drain_event` listener that writes is a
`write` label right after the label that emitted the event. -/
inductive StreamLabel where
  | write (sizes : List Nat) (wi ret : Int)
  | endStream (closing : Bool) (sizes : List Nat) (wi ret shut : Int)
  | complete (k : Nat)
  | shutdownDone
  deriving DecidableEq

/-- `complete k` is the write callback of the k-th request in flight; there is none past the end. -/
def UvStream.step (s : UvStream) : StreamLabel → Option UvStream
  | .write sizes wi ret => some (s.write sizes wi ret)
  | .endStream closing sizes wi ret shut => some (s.endStream closing sizes wi ret shut)
  | .complete k =>
    (s.inFlight[k]?).map fun n =>
      { s with inFlight := s.inFlight.eraseIdx k }.decreaseWatermark n
  | .shutdownDone => some { s with isWritable := false, hasEnded := true }

/-- Each `write()` that returned false was followed by a `drain_event`. -/
def Drained (trace : List StreamEvent) : Prop :=
  ∀ before after, trace = before ++ .wrote false :: after → .drain ∈ after

theorem drained_nil : Drained [] := by
  intro before after h
  simp at h

theorem drained_snoc_drain (trace : List StreamEvent) : Drained (trace ++ [.drain]) := by
  intro before after h
  rcases List.eq_nil_or_concat after with rfl | ⟨rest, e, rfl⟩
  · have last := congrArg List.getLast? h
    simp at last
  · have last := congrArg List.getLast? h
    simp only [List.concat_eq_append, List.getLast?_append, List.getLast?_cons] at last
    simp at last
    simp [← last]

theorem drained_snoc_regular (trace : List StreamEvent) :
    Drained (trace ++ [.wrote true]) ↔ Drained trace := by
  constructor
  · intro h before after he
    have hm := h before (after ++ [.wrote true]) (by simp [he])
    simpa using hm
  · intro h before after he
    rcases List.eq_nil_or_concat after with rfl | ⟨rest, e, rfl⟩
    · have last := congrArg List.getLast? he
      simp at last
    · have hcut : trace ++ [.wrote true] = (before ++ .wrote false :: rest) ++ [e] := by
        simpa using he
      obtain ⟨ht, -⟩ := List.append_inj' hcut rfl
      have hm := h before rest ht
      simp [hm]

structure Balanced (s : UvStream) : Prop where
  order : s.lwm < s.hwm
  covered : s.wm ≤ s.inFlight.sum
  flooded : s.isRegularLevel = false → s.inFlight ≠ []

theorem balanced_init (hwm lwm : Nat) (h : lwm < hwm) : Balanced (UvStream.init hwm lwm) :=
  ⟨h, Nat.le_refl 0, fun hf => by simp [UvStream.init] at hf⟩

theorem Balanced.regular_of_idle (s : UvStream) (hs : Balanced s) (h : s.inFlight = []) :
    s.isRegularLevel = true := by
  cases hr : s.isRegularLevel with
  | true => rfl
  | false => exact absurd h (hs.flooded hr)

@[simp] theorem decreaseWatermark_lwm (s : UvStream) (n : Nat) :
    (s.decreaseWatermark n).lwm = s.lwm := by
  unfold UvStream.decreaseWatermark
  dsimp only
  split_ifs <;> rfl

@[simp] theorem decreaseWatermark_hwm (s : UvStream) (n : Nat) :
    (s.decreaseWatermark n).hwm = s.hwm := by
  unfold UvStream.decreaseWatermark
  dsimp only
  split_ifs <;> rfl

@[simp] theorem decreaseWatermark_inFlight (s : UvStream) (n : Nat) :
    (s.decreaseWatermark n).inFlight = s.inFlight := by
  unfold UvStream.decreaseWatermark
  dsimp only
  split_ifs <;> rfl

@[simp] theorem decreaseWatermark_wm (s : UvStream) (n : Nat) :
    (s.decreaseWatermark n).wm = s.wm - n := by
  unfold UvStream.decreaseWatermark
  dsimp only
  split_ifs <;> dsimp only <;> omega

/-- A decrease either wakes the producers or leaves flag and trace alone. -/
theorem decreaseWatermark_cases (s : UvStream) (n : Nat) :
    (s.isRegularLevel = false ∧ (s.decreaseWatermark n).isRegularLevel = true ∧
      (s.decreaseWatermark n).trace = s.trace ++ [.drain]) ∨
    ((s.isRegularLevel = false → s.lwm < s.wm - n) ∧
      (s.decreaseWatermark n).isRegularLevel = s.isRegularLevel ∧
      (s.decreaseWatermark n).trace = s.trace) := by
  have hw : (if s.wm > n then s.wm - n else 0) = s.wm - n := by split_ifs <;> omega
  unfold UvStream.decreaseWatermark
  simp only [hw]
  split_ifs with h
  · left
    simpa using h.1
  · right
    refine ⟨?_, rfl, rfl⟩
    intro hf
    by_contra hle
    exact h ⟨by simp [hf], by simpa using hle⟩

theorem balanced_decrease (s : UvStream) (n : Nat) (ho : s.lwm < s.hwm)
    (hc : s.wm ≤ s.inFlight.sum + n) : Balanced (s.decreaseWatermark n) := by
  refine ⟨by simpa using ho, by simp; omega, ?_⟩
  intro hf he
  rw [decreaseWatermark_inFlight] at he
  rcases decreaseWatermark_cases s n with ⟨-, hr, -⟩ | ⟨hlow, hr, -⟩
  · rw [hr] at hf
    cases hf
  · rw [hr] at hf
    have hl := hlow hf
    rw [he, List.sum_nil] at hc
    omega

theorem drained_decrease (s : UvStream) (n : Nat)
    (hd : s.isRegularLevel = true → Drained s.trace) :
    (s.decreaseWatermark n).isRegularLevel = true → Drained (s.decreaseWatermark n).trace := by
  intro hr
  rcases decreaseWatermark_cases s n with ⟨-, -, ht⟩ | ⟨-, hk, ht⟩
  · rw [ht]
    exact drained_snoc_drain s.trace
  · rw [ht]
    exact hd (hk ▸ hr)

/-- The level a returning `write()` or `end()` compares with the high watermark. -/
def levelAfter (s : UvStream) (sizes : List Nat) (wi : Int) : Nat :=
  if writtenAtOnce sizes wi then s.wm else sizeT (s.wm + total sizes)

/-- The request of this call, if it needs one, is refused by `uv_write`. -/
def refused (sizes : List Nat) (wi ret : Int) : Prop := ¬writtenAtOnce sizes wi ∧ ret < 0

instance (sizes : List Nat) (wi ret : Int) : Decidable (refused sizes wi ret) :=
  inferInstanceAs (Decidable (_ ∧ _))

/-- `_write` in one statement: it returns with the new level and the request queued, or it
threw and has undone the increase. -/
theorem writeBufs_cases (s : UvStream) (sizes : List Nat) (wi ret : Int) :
    (¬refused sizes wi ret ∧ ∃ queued, s.writeBufs sizes wi ret =
        ({ s with wm := levelAfter s sizes wi, inFlight := s.inFlight ++ queued }, true) ∧
      levelAfter s sizes wi ≤ s.wm + queued.sum) ∨
    (refused sizes wi ret ∧ s.writeBufs sizes wi ret =
        ((s.increaseWatermark (total sizes)).decreaseWatermark (total sizes), false)) := by
  unfold UvStream.writeBufs levelAfter refused
  by_cases ho : writtenAtOnce sizes wi
  · left
    refine ⟨by simp [ho], [], ?_, ?_⟩ <;> simp [ho]
  · by_cases hr : ret < 0
    · right
      simp [ho, hr]
    · left
      refine ⟨by simp [hr], [total sizes], ?_, ?_⟩
      · simp [ho, hr, UvStream.increaseWatermark]
      · simpa [ho] using sizeT_le (s.wm + total sizes)

/-- While the stream is flooded, no `write()` or `end()` that returns leaves the level below
the high watermark. -/
def KeepsFlood (s : UvStream) : StreamLabel → Prop
  | .write sizes wi ret =>
    s.isRegularLevel = false → s.isWritable = true → ¬refused sizes wi ret →
      s.hwm ≤ levelAfter s sizes wi
  | .endStream closing sizes wi ret shut =>
    s.isRegularLevel = false → s.isWritable = true →
      if closing then s.hwm ≤ s.wm
      else ¬refused sizes wi ret → 0 ≤ shut → s.hwm ≤ levelAfter s sizes wi
  | .complete _ => True
  | .shutdownDone => True

instance (s : UvStream) (a : StreamLabel) : Decidable (KeepsFlood s a) := by
  cases a <;> unfold KeepsFlood <;> infer_instance

private theorem balanced_queue (s : UvStream) (queued : List Nat) (level : Nat) (regular w e : Bool)
    (trace : List StreamEvent) (hs : Balanced s) (hl : level ≤ s.wm + queued.sum)
    (hr : regular = false → s.isRegularLevel = false ∨ s.hwm ≤ level) :
    Balanced ⟨⟨s.hwm, s.lwm, level, regular, w, e⟩, s.inFlight ++ queued, trace⟩ := by
  have hc := hs.covered
  have ho := hs.order
  refine ⟨ho, by simp only [List.sum_append]; omega, ?_⟩
  intro hf he
  obtain ⟨he, hq⟩ := List.append_eq_nil_iff.mp he
  rcases hr hf with hr | hr
  · exact hs.flooded hr he
  · rw [he, List.sum_nil] at hc
    rw [hq, List.sum_nil] at hl
    omega

private theorem balanced_refused (s : UvStream) (n : Nat) (hs : Balanced s) :
    Balanced ((s.increaseWatermark n).decreaseWatermark n) := by
  apply balanced_decrease
  · exact hs.order
  · have hc := hs.covered
    have hw := sizeT_le (s.wm + n)
    simp only [UvStream.increaseWatermark]
    omega

private theorem balanced_complete (s : UvStream) (k n : Nat) (hs : Balanced s)
    (hn : s.inFlight[k]? = some n) :
    Balanced ({ s with inFlight := s.inFlight.eraseIdx k }.decreaseWatermark n) := by
  apply balanced_decrease
  · exact hs.order
  · obtain ⟨hk, rfl⟩ := List.getElem?_eq_some_iff.mp hn
    have hsum := List.CommMonoid.add_sum_eraseIdx hk
    have hc := hs.covered
    dsimp only
    omega

/-- Every step of every run keeps the level covered by the requests in flight. -/
theorem step_balanced (s t : UvStream) (a : StreamLabel) (hs : Balanced s)
    (h : s.step a = some t) : Balanced t := by
  cases a with
  | write sizes wi ret =>
    cases h
    unfold UvStream.write
    split_ifs with hw
    · exact hs
    · rcases writeBufs_cases s sizes wi ret with ⟨-, queued, he, hl⟩ | ⟨-, he⟩
      · rw [he]
        exact balanced_queue s queued _ _ _ _ _ hs hl (fun hr => .inr (by simpa using hr))
      · rw [he]
        exact balanced_refused s _ hs
  | endStream closing sizes wi ret shut =>
    cases h
    unfold UvStream.endStream UvStream.endBufs
    split_ifs with hw hc
    · exact hs
    · simpa using balanced_queue s [] s.wm _ false s.hasEnded s.trace hs (by simp)
        (fun hr => .inr (by simpa using hr))
    · rcases writeBufs_cases s sizes wi ret with ⟨-, queued, he, hl⟩ | ⟨-, he⟩
      · rw [he]
        dsimp only
        cases hd : decide (0 ≤ shut) with
        | true => exact balanced_queue s queued _ _ _ _ _ hs hl (fun hr => .inr (by simpa using hr))
        | false => exact balanced_queue s queued _ _ _ _ _ hs hl (fun hr => .inl hr)
      · rw [he]
        exact balanced_refused s _ hs
  | complete k =>
    obtain ⟨n, hn, rfl⟩ := Option.map_eq_some_iff.mp h
    exact balanced_complete s k n hs hn
  | shutdownDone =>
    cases h
    exact ⟨hs.order, hs.covered, hs.flooded⟩

/-- A step that keeps the flood keeps this: on the regular level nothing is owed a drain. -/
theorem step_drained (s t : UvStream) (a : StreamLabel)
    (hd : s.isRegularLevel = true → Drained s.trace) (ha : KeepsFlood s a)
    (h : s.step a = some t) : t.isRegularLevel = true → Drained t.trace := by
  cases a with
  | write sizes wi ret =>
    cases h
    unfold UvStream.write
    split_ifs with hw
    · exact hd
    · rcases writeBufs_cases s sizes wi ret with ⟨hq, queued, he, -⟩ | ⟨-, he⟩
      · rw [he]
        dsimp only
        intro hr
        rw [hr, drained_snoc_regular]
        apply hd
        by_contra hf
        have hl := ha (by simpa using hf) (by simpa using hw) hq
        simp only [decide_eq_true_eq] at hr
        omega
      · rw [he]
        exact drained_decrease _ _ hd
  | endStream closing sizes wi ret shut =>
    cases h
    unfold UvStream.endStream UvStream.endBufs
    split_ifs with hw hc
    · exact hd
    · intro hr
      apply hd
      by_contra hf
      have hl := ha (by simpa using hf) (by simpa using hw)
      rw [if_pos hc] at hl
      simp only [decide_eq_true_eq] at hr
      omega
    · rcases writeBufs_cases s sizes wi ret with ⟨hq, queued, he, -⟩ | ⟨-, he⟩
      · rw [he]
        dsimp only
        cases hs : decide (0 ≤ shut) with
        | true =>
          intro hr
          apply hd
          by_contra hf
          have hl := ha (by simpa using hf) (by simpa using hw)
          rw [if_neg hc] at hl
          have hl := hl hq (by simpa using hs)
          simp only [decide_eq_true_eq] at hr
          omega
        | false => exact hd
      · rw [he]
        exact drained_decrease _ _ hd
  | complete k =>
    obtain ⟨n, hn, rfl⟩ := Option.map_eq_some_iff.mp h
    exact drained_decrease _ _ hd
  | shutdownDone =>
    cases h
    exact hd

/-- No lost drain, for every interleaving that keeps the flood. -/
theorem drain_follows_write (hwm lwm : Nat) (as : List StreamLabel) (s : UvStream)
    (h : lwm < hwm) (hk : Along UvStream.step KeepsFlood (UvStream.init hwm lwm) as)
    (hs : run UvStream.step (UvStream.init hwm lwm) as = some s) (hi : s.inFlight = []) :
    Drained s.trace := by
  have inv := run_invariant (C := KeepsFlood)
    (fun s => Balanced s ∧ (s.isRegularLevel = true → Drained s.trace))
    (fun s a t hI ha ht => ⟨step_balanced s t a hI.1 ht, step_drained s t a hI.2 ha ht⟩)
    as (UvStream.init hwm lwm) s ⟨balanced_init hwm lwm h, fun _ => drained_nil⟩ hk hs
  exact inv.2 (inv.1.regular_of_idle s hi)

/-- A flood of 20 bytes over marks of 16 and 4, and its completion. -/
theorem drain_follows_write_flood :
    Drained [.wrote false, .drain] :=
  drain_follows_write 16 4 [.write [12, 8] (-11) 0, .complete 0]
    ⟨⟨16, 4, 0, true, true, false⟩, [], [.wrote false, .drain]⟩ (by decide) (by decide) (by decide)
    rfl

/-- Two queued writes flood the stream, the first completes, and a third small one resets the flag:
the completions that follow find a regular level and stay silent. -/
theorem drain_lost_by_small_write :
    ¬∀ (hwm lwm : Nat) (as : List StreamLabel) (s : UvStream), lwm < hwm →
      run UvStream.step (UvStream.init hwm lwm) as = some s → s.inFlight = [] →
      Drained s.trace := by
  intro h
  have bad := h 10 2 [.write [8] (-11) 0, .write [4] (-11) 0, .complete 0, .write [1] (-11) 0,
      .complete 0, .complete 0]
    ⟨⟨10, 2, 0, true, true, false⟩, [], [.wrote true, .wrote false, .wrote true]⟩ (by decide)
    (by decide) rfl [.wrote true] [.wrote true] rfl
  simp at bad

/-- The condition is needed: a step against it leaves the regular flag set with a drain owed. -/
theorem step_loses_drain (s t : UvStream) (a : StreamLabel) (hd : ¬Drained s.trace)
    (ha : ¬KeepsFlood s a) (h : s.step a = some t) :
    t.isRegularLevel = true ∧ ¬Drained t.trace := by
  cases a with
  | write sizes wi ret =>
    cases h
    simp only [KeepsFlood, Classical.not_imp, Nat.not_le] at ha
    obtain ⟨-, hw, hq, hl⟩ := ha
    rcases writeBufs_cases s sizes wi ret with ⟨-, queued, he, -⟩ | ⟨hr, -⟩
    · have hlow : decide (levelAfter s sizes wi < s.hwm) = true := by simpa using hl
      simp only [UvStream.write, hw, Bool.not_true, Bool.false_eq_true, if_false, he, hlow]
      exact ⟨trivial, fun hn => hd ((drained_snoc_regular s.trace).mp hn)⟩
    · exact absurd hr hq
  | endStream closing sizes wi ret shut =>
    cases h
    simp only [KeepsFlood, Classical.not_imp] at ha
    obtain ⟨-, hw, ha⟩ := ha
    simp only [UvStream.endStream, UvStream.endBufs, hw, Bool.not_true, Bool.false_eq_true,
      if_false]
    cases closing with
    | true =>
      have hlow : s.wm < s.hwm := by simpa using ha
      simpa [hlow] using hd
    | false =>
      simp only [Bool.false_eq_true, if_false, Classical.not_imp, Nat.not_le] at ha
      obtain ⟨hq, hs, hl⟩ := ha
      rcases writeBufs_cases s sizes wi ret with ⟨-, queued, he, -⟩ | ⟨hr, -⟩
      · simpa [he, hs, hl] using hd
      · exact absurd hr hq
  | complete k => exact absurd trivial ha
  | shutdownDone => exact absurd trivial ha

/-- And no completion makes up for it: the requests in flight run out in silence. -/
theorem completions_stay_silent (ks : List Nat) (s t : UvStream) (hr : s.isRegularLevel = true)
    (hd : ¬Drained s.trace) (h : run UvStream.step s (ks.map .complete) = some t) :
    t.isRegularLevel = true ∧ ¬Drained t.trace := by
  induction ks generalizing s with
  | nil =>
    cases h
    exact ⟨hr, hd⟩
  | cons k ks ih =>
    obtain ⟨u, hu, h⟩ := Option.bind_eq_some_iff.mp h
    obtain ⟨n, -, rfl⟩ := Option.map_eq_some_iff.mp hu
    rcases decreaseWatermark_cases { s with inFlight := s.inFlight.eraseIdx k } n with
      ⟨hf, -, -⟩ | ⟨-, hk, ht⟩
    · rw [hr] at hf
      cases hf
    · exact ih _ (hk.trans hr) (by rw [ht]; exact hd) h

end Libnodecc.Stream
