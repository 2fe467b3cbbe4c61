import Mathlib.Data.List.Basic
import Mathlib.Logic.Function.Basic

namespace Libnodecc.Util

/-- `node::channel`. -/
structure Channel (α : Type*) where
  q : List α

def Channel.send {α : Type*} (c : Channel α) (value : α) : Channel α := ⟨c.q ++ [value]⟩

def Channel.recv {α : Type*} (c : Channel α) : List α × Channel α := (c.q, ⟨[]⟩)

/-- How far a sender thread is in `async_channel::send`. -/
inductive SenderAt where
  | outside
  | appended
  | tested
  deriving DecidableEq

/-- How far the loop thread is in `init`, or in the callback of the `uv::async`. -/
inductive LoopAt (α : Type*) where
  | outside
  | stored
  | called
  | received (queue : List α)

/-- An `async_channel` with its threads. `wakeUp` is the flag `uv_async_send` sets and the loop
clears when it calls back; `sent` are the values in the order in which the mutex was taken. -/
structure AsyncChannel (ι α : Type*) where
  channel : Channel α
  async : Bool
  wakeUp : Bool
  senders : ι → SenderAt
  loopThread : LoopAt α
  recvEvents : List (List α)
  sent : List α

/-- The steps of the threads: sender `i` appends, tests `_async` and wakes the loop; the loop
thread calls `init`, which stores `_async` unless `uv_async_init` fails and wakes the loop, and is
called back, receives and emits. -/
inductive ChannelLabel (ι α : Type*) where
  | append (i : ι) (value : α)
  | test (i : ι)
  | wake (i : ι)
  | init (accepted : Bool)
  | initWakes
  | callback
  | recv
  | emit

namespace AsyncChannel

variable {ι α : Type*}

def init : AsyncChannel ι α := ⟨⟨[]⟩, false, false, fun _ => .outside, .outside, [], []⟩

/-- A label that cannot occur changes nothing. The loop may also call back without a wake-up. -/
def step [DecidableEq ι] (s : AsyncChannel ι α) : ChannelLabel ι α → AsyncChannel ι α
  | .append i value =>
    match s.senders i with
    | .outside =>
      { s with
        channel := s.channel.send value
        senders := Function.update s.senders i .appended
        sent := s.sent ++ [value] }
    | _ => s
  | .test i =>
    match s.senders i with
    | .appended =>
      { s with senders := Function.update s.senders i (if s.async then .tested else .outside) }
    | _ => s
  | .wake i =>
    match s.senders i with
    | .tested => { s with wakeUp := true, senders := Function.update s.senders i .outside }
    | _ => s
  | .init accepted =>
    match s.loopThread with
    -- a second `init` throws
    | .outside =>
      if s.async = false ∧ accepted then { s with async := true, loopThread := .stored } else s
    | _ => s
  | .initWakes =>
    match s.loopThread with
    | .stored => { s with wakeUp := true, loopThread := .outside }
    | _ => s
  | .callback =>
    match s.loopThread with
    | .outside => if s.async then { s with wakeUp := false, loopThread := .called } else s
    | _ => s
  | .recv =>
    match s.loopThread with
    | .called =>
      { s with channel := s.channel.recv.2, loopThread := .received s.channel.recv.1 }
    | _ => s
  | .emit =>
    match s.loopThread with
    | .received queue =>
      { s with
        recvEvents := if queue = [] then s.recvEvents else s.recvEvents ++ [queue]
        loopThread := .outside }
    | _ => s

/-- The queue the callback has received and not yet emitted. -/
def received (s : AsyncChannel ι α) : List α :=
  match s.loopThread with
  | .received queue => queue
  | _ => []

def WakeUpPending (s : AsyncChannel ι α) : Prop := s.wakeUp = true ∨ s.loopThread = .called

/-- Sender `i` has appended a value and has not woken the loop for it. -/
def Unsignalled (s : AsyncChannel ι α) (i : ι) : Prop := s.senders i ≠ .outside

/-- What every step keeps: no value is lost, and one that waits is known to somebody who wakes the
loop or has done so. -/
structure Delivers (s : AsyncChannel ι α) : Prop where
  order : s.recvEvents.flatten ++ s.received ++ s.channel.q = s.sent
  awake : s.async = true → s.channel.q ≠ [] →
    s.WakeUpPending ∨ s.loopThread = .stored ∨ ∃ i, s.Unsignalled i

theorem init_delivers : (init : AsyncChannel ι α).Delivers := by
  constructor
  · rfl
  · intro h
    cases h

variable [DecidableEq ι]

theorem append_delivers (s : AsyncChannel ι α) (hs : s.Delivers) (i : ι) (value : α) :
    (s.step (.append i value)).Delivers := by
  cases hi : s.senders i with
  | outside =>
    simp only [step, hi]
    constructor
    · change s.recvEvents.flatten ++ s.received ++ (s.channel.q ++ [value]) = s.sent ++ [value]
      rw [← List.append_assoc, hs.order]
    · intro _ _
      right; right
      refine ⟨i, ?_⟩
      simp [Unsignalled]
  | appended =>
    simp only [step, hi]
    exact hs
  | tested =>
    simp only [step, hi]
    exact hs

/-- A sender that does not see `_async` leaves before `init` wakes the loop. -/
theorem test_delivers (s : AsyncChannel ι α) (hs : s.Delivers) (i : ι) :
    (s.step (.test i)).Delivers := by
  cases hi : s.senders i with
  | outside =>
    simp only [step, hi]
    exact hs
  | appended =>
    simp only [step, hi]
    constructor
    · exact hs.order
    · intro ha _
      have ha : s.async = true := ha
      right; right
      refine ⟨i, ?_⟩
      simp [Unsignalled, ha]
  | tested =>
    simp only [step, hi]
    exact hs

theorem wake_delivers (s : AsyncChannel ι α) (hs : s.Delivers) (i : ι) :
    (s.step (.wake i)).Delivers := by
  cases hi : s.senders i with
  | outside =>
    simp only [step, hi]
    exact hs
  | appended =>
    simp only [step, hi]
    exact hs
  | tested =>
    simp only [step, hi]
    exact ⟨hs.order, fun _ _ => .inl (.inl rfl)⟩

/-- Every step of every thread keeps the invariant. -/
theorem step_delivers (s : AsyncChannel ι α) (hs : s.Delivers) (l : ChannelLabel ι α) :
    (s.step l).Delivers := by
  have horder := hs.order
  cases l with
  | append i value => exact append_delivers s hs i value
  | test i => exact test_delivers s hs i
  | wake i => exact wake_delivers s hs i
  | init accepted =>
    cases hl : s.loopThread with
    | outside =>
      simp only [step, hl]
      split_ifs with ha
      · simp only [received, hl] at horder
        exact ⟨horder, fun _ _ => .inr (.inl rfl)⟩
      · exact hs
    | _ =>
      simp only [step, hl]
      exact hs
  | initWakes =>
    cases hl : s.loopThread with
    | stored =>
      simp only [step, hl]
      simp only [received, hl] at horder
      exact ⟨horder, fun _ _ => .inl (.inl rfl)⟩
    | _ =>
      simp only [step, hl]
      exact hs
  | callback =>
    cases hl : s.loopThread with
    | outside =>
      simp only [step, hl]
      split_ifs with ha
      · simp only [received, hl] at horder
        exact ⟨horder, fun _ _ => .inl (.inr rfl)⟩
      · exact hs
    | _ =>
      simp only [step, hl]
      exact hs
  | recv =>
    cases hl : s.loopThread with
    | called =>
      simp only [step, hl]
      simp only [received, hl, List.append_nil] at horder
      constructor
      · change s.recvEvents.flatten ++ s.channel.q ++ [] = s.sent
        rw [List.append_nil]
        exact horder
      · intro _ hq
        exact absurd rfl hq
    | _ =>
      simp only [step, hl]
      exact hs
  | emit =>
    cases hl : s.loopThread with
    | received queue =>
      simp only [step, hl]
      simp only [received, hl] at horder
      constructor
      · change (if queue = [] then s.recvEvents else s.recvEvents ++ [queue]).flatten ++ [] ++
          s.channel.q = s.sent
        rw [← horder, List.append_nil]
        split_ifs with hq
        · rw [hq, List.append_nil]
        · simp
      · intro ha hq
        rcases hs.awake ha hq with (hw | hw) | hw | ⟨i, hi⟩
        · exact .inl (.inl hw)
        · rw [hl] at hw
          cases hw
        · rw [hl] at hw
          cases hw
        · exact .inr (.inr ⟨i, hi⟩)
    | _ =>
      simp only [step, hl]
      exact hs

theorem run_delivers (ls : List (ChannelLabel ι α)) (s : AsyncChannel ι α) (hs : s.Delivers) :
    (ls.foldl step s).Delivers := by
  induction ls generalizing s with
  | nil => exact hs
  | cons l ls ih => exact ih (s.step l) (step_delivers s hs l)

/-- When all threads are outside of the channel and no wake-up is pending, everything sent was
emitted. -/
theorem quiet_emitted (ls : List (ChannelLabel ι α)) (s : AsyncChannel ι α)
    (hrun : ls.foldl step init = s) (ha : s.async = true) (hw : s.wakeUp = false)
    (hl : s.loopThread = .outside) (hout : ∀ i, s.senders i = .outside) :
    s.recvEvents.flatten = s.sent := by
  have h : s.Delivers := by
    rw [← hrun]
    exact run_delivers ls init init_delivers
  have hempty : s.channel.q = [] := by
    by_contra hq
    rcases h.awake ha hq with (hw' | hc) | hstored | ⟨i, hi⟩
    · rw [hw] at hw'
      cases hw'
    · rw [hl] at hc
      cases hc
    · rw [hl] at hstored
      cases hstored
    · exact hi (hout i)
  have horder := h.order
  simp only [received, hl, hempty, List.append_nil] at horder
  exact horder

end AsyncChannel

end Libnodecc.Util
