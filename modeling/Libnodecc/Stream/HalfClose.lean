import Mathlib.Data.List.Basic

namespace Libnodecc.Stream

/-- What the EOF and shutdown logic knew when it called `destroy()`. -/
structure Hangup where
  readEnded : Bool
  statuses : List Int

/-- The read side had ended and the shutdown callback had run, or the shutdown had failed. -/
def Hangup.Due (h : Hangup) : Prop :=
  h.readEnded = true ∧ h.statuses ≠ [] ∨ ∃ status ∈ h.statuses, status ≠ 0

/-- A `uv::stream` seen from its two ends: the flags of `readable_base` and `writable_base`, and
`destroyed`, which is `is_closing()`. `submitted` and `inFlight` count the requests `uv_shutdown`
accepted and those libuv still holds, `statuses` are what the shutdown callbacks reported. -/
structure HalfClose where
  isConsuming : Bool
  readHasEnded : Bool
  isWritable : Bool
  writeHasEnded : Bool
  destroyed : Bool
  submitted : Nat
  inFlight : Nat
  statuses : List Int
  endEvents : Nat
  hangups : List Hangup

def HalfClose.init : HalfClose := ⟨false, false, true, false, false, 0, 0, [], 0, []⟩

namespace HalfClose

/-- `object::destroy`, which closes the handle. -/
def destroy (s : HalfClose) : HalfClose := { s with destroyed := true }

/-- `destroy()` called by the EOF or shutdown logic. -/
def hangUp (s : HalfClose) : HalfClose :=
  let hangup : Hangup := ⟨s.readHasEnded, s.statuses⟩
  { s with hangups := s.hangups ++ [hangup] }.destroy

/-- `uv::stream::_end`; `written` tells whether the `_write` in it returned, when there is one.
`none` is an exception. -/
def endBufs (s : HalfClose) (written : Bool) : Option HalfClose :=
  if s.destroyed then some s
  else if written then some { s with submitted := s.submitted + 1, inFlight := s.inFlight + 1 }
  else none

/-- `writable::end`. -/
def endStream (s : HalfClose) (written : Bool) : HalfClose :=
  if s.isWritable then
    match s.endBufs written with
    | none => s
    | some t => { t with isWritable := false }
  else s

def resume (s : HalfClose) (accepted : Bool) : HalfClose :=
  if !s.isConsuming ∧ accepted then { s with isConsuming := true } else s

def pause (s : HalfClose) : HalfClose :=
    if s.isConsuming then { s with isConsuming := false } else s

end HalfClose

/-- What the user of a stream calls, in a listener or outside. A `destroy` may also be a failed
read, write or connect, or the last reference that goes. -/
inductive LocalCall where
  | endStream (written : Bool)
  | resume (accepted : Bool)
  | pause
  | destroy
  deriving DecidableEq

/-- A call, the read callback with `UV_EOF`, with what the listeners of `end_event` call, or the
callback of a shutdown request. -/
inductive HalfCloseLabel where
  | call (c : LocalCall)
  | eof (listeners : List LocalCall)
  | shutdownDone (status : Int)
  deriving DecidableEq

namespace HalfClose

def call (s : HalfClose) : LocalCall → HalfClose
  | .endStream written => s.endStream written
  | .resume accepted => s.resume accepted
  | .pause => s.pause
  | .destroy => s.destroy

/-- `readable::_set_reading_ended`. -/
def setReadingEnded (s : HalfClose) (listeners : List LocalCall) : HalfClose :=
  if s.readHasEnded then s
  else listeners.foldl call { s with readHasEnded := true, endEvents := s.endEvents + 1 }

/-- The read callback of `_resume` with `UV_EOF`. -/
def onEof (s : HalfClose) (listeners : List LocalCall) : HalfClose :=
  let s := s.setReadingEnded listeners
  if s.writeHasEnded then s.hangUp else s.endStream true

/-- The shutdown callback of `_end`. -/
def onShutdown (s : HalfClose) (status : Int) : HalfClose :=
  let s := { s with
    inFlight := s.inFlight - 1
    statuses := s.statuses ++ [status]
    isWritable := false
    writeHasEnded := true }
  if status ≠ 0 ∨ s.readHasEnded then s.hangUp else s

/-- libuv reads only while the stream is consuming and not closing, and calls back once for each
shutdown request. A label that cannot occur changes nothing. -/
def step (s : HalfClose) : HalfCloseLabel → HalfClose
  | .call c => s.call c
  | .eof listeners => if s.isConsuming ∧ !s.destroyed then s.onEof listeners else s
  | .shutdownDone status => if 0 < s.inFlight then s.onShutdown status else s

end HalfClose

namespace HalfClose

/-- What holds also inside of the EOF callback. -/
structure Tracked (s : HalfClose) : Prop where
  count : s.submitted = s.inFlight + s.statuses.length
  once : s.submitted ≤ 1
  unsent : s.isWritable = true → s.submitted = 0
  closed : s.isWritable = false → s.submitted = 0 → s.destroyed = true
  ran : s.writeHasEnded = true ↔ s.statuses ≠ []
  failed : ∀ status ∈ s.statuses, status ≠ 0 → s.destroyed = true
  ended : s.endEvents = if s.readHasEnded then 1 else 0
  due : ∀ h ∈ s.hangups, h.Due

/-- What holds between the callbacks: the write side follows the read side. -/
structure Settled (s : HalfClose) : Prop extends Tracked s where
  answered : s.readHasEnded = true → s.isWritable = false
  both : s.readHasEnded = true → s.writeHasEnded = true → s.destroyed = true

theorem Tracked.destroy (s : HalfClose) (hs : s.Tracked) : s.destroy.Tracked :=
  ⟨hs.count, hs.once, hs.unsent, fun _ _ => rfl, hs.ran, fun _ _ _ => rfl, hs.ended, hs.due⟩

theorem Tracked.endStream (s : HalfClose) (hs : s.Tracked) (written : Bool) :
    (s.endStream written).Tracked := by
  by_cases hw : s.isWritable = true
  · have hnone := hs.unsent hw
    have hcount := hs.count
    by_cases hd : s.destroyed = true
    · rw [HalfClose.endStream, if_pos hw, endBufs, if_pos hd]
      exact ⟨hs.count, hs.once, nofun, fun _ _ => hd, hs.ran, hs.failed, hs.ended,
        hs.due⟩
    · by_cases hwritten : written = true
      · rw [HalfClose.endStream, if_pos hw, endBufs, if_neg hd, if_pos hwritten]
        refine ⟨?_, ?_, nofun, ?_, hs.ran, hs.failed, hs.ended, hs.due⟩
        · change s.submitted + 1 = s.inFlight + 1 + s.statuses.length
          omega
        · change s.submitted + 1 ≤ 1
          omega
        · intro _ h
          change s.submitted + 1 = 0 at h
          omega
      · rw [HalfClose.endStream, if_pos hw, endBufs, if_neg hd, if_neg hwritten]
        exact hs
  · rw [HalfClose.endStream, if_neg hw]
    exact hs

theorem Tracked.call (s : HalfClose) (hs : s.Tracked) (c : LocalCall) : (s.call c).Tracked := by
  cases c with
  | endStream written => exact hs.endStream s written
  | resume accepted =>
    rw [HalfClose.call, HalfClose.resume]
    split_ifs
    · exact ⟨hs.count, hs.once, hs.unsent, hs.closed, hs.ran, hs.failed, hs.ended, hs.due⟩
    · exact hs
  | pause =>
    rw [HalfClose.call, HalfClose.pause]
    split_ifs
    · exact ⟨hs.count, hs.once, hs.unsent, hs.closed, hs.ran, hs.failed, hs.ended, hs.due⟩
    · exact hs
  | destroy => exact hs.destroy s

theorem call_keeps (s : HalfClose) (c : LocalCall) :
    (s.call c).readHasEnded = s.readHasEnded ∧ (s.call c).writeHasEnded = s.writeHasEnded ∧
      (s.isWritable = false → (s.call c).isWritable = false) ∧
      (s.destroyed = true → (s.call c).destroyed = true) := by
  cases c with
  | endStream written =>
    rw [call, endStream, endBufs]
    split_ifs <;> simp_all
  | resume accepted =>
    rw [call, resume]
    split_ifs <;> simp
  | pause =>
    rw [call, pause]
    split_ifs <;> simp
  | destroy => simp [call, destroy]

/-- `destroy()` from the EOF or shutdown logic, with both ends done or after a failure. -/
theorem Tracked.hangUp (s : HalfClose) (hs : s.Tracked)
    (hdue : s.readHasEnded = true ∧ s.statuses ≠ [] ∨ ∃ status ∈ s.statuses, status ≠ 0) :
    s.hangUp.Tracked := by
  refine ⟨hs.count, hs.once, hs.unsent, fun _ _ => rfl, hs.ran, fun _ _ _ => rfl, hs.ended, ?_⟩
  intro h hh
  rcases List.mem_append.mp hh with hh | hh
  · exact hs.due h hh
  · rw [List.mem_singleton.mp hh]
    exact hdue

end HalfClose

end Libnodecc.Stream
