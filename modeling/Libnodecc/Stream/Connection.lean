import Libnodecc.Framework.Run
import Libnodecc.Stream.EndpointSteps

namespace Libnodecc.Stream

open Buffer Util

/-- Two streams that are connected to each other. -/
structure Connection where
  left : Endpoint
  right : Endpoint

inductive ConnectionLabel where
  | left (l : EndpointLabel)
  | right (l : EndpointLabel)

/-- What `writer` writes gets to `reader`: in order, all that was sent when `reader` has read the
end, and all that was written when the shutdown of `writer` has succeeded. -/
structure Delivers (writer reader : Endpoint) : Prop where
  arrived : reader.chunks.flatten <+: writer.sent
  sent : writer.sent <+: writer.written
  ended : reader.flags.readHasEnded = true → reader.chunks.flatten = writer.sent
  shut : (0 : Int) ∈ writer.flags.statuses → writer.sent = writer.written

/-- What libuv was given and has not called back for can be read. -/
def Readable (e : Endpoint) : Prop :=
  ∀ r ∈ e.inFlight, ∀ u ∈ r.uvBufs, e.memory.heap.Room u.base u.len

namespace Connection

def init : Connection := ⟨.init, .init⟩

section
variable (build : Build) (malloc malloc' : Malloc)

def step (c : Connection) : ConnectionLabel → Option Connection
  | .left l => (c.left.step build malloc c.right l).map fun e => { c with left := e }
  | .right l => (c.right.step build malloc' c.left l).map fun e => { c with right := e }

def Admits (c : Connection) : ConnectionLabel → Prop
  | .left l => c.left.Admits build l
  | .right l => c.right.Admits build l

instance (c : Connection) (l : ConnectionLabel) : Decidable (c.Admits build l) := by
  cases l <;> unfold Admits <;> infer_instance

end

structure Trails (writer reader : Endpoint) : Prop where
  arrived : reader.arrived <+: writer.sent
  ended : reader.flags.readHasEnded = true → reader.arrived = writer.sent ∧ writer.Closed

structure Sound (c : Connection) : Prop where
  left : c.left.Sound
  right : c.right.Sound
  toRight : Trails c.left c.right
  toLeft : Trails c.right c.left

theorem init_sound : init.Sound where
  left := Endpoint.init_sound
  right := Endpoint.init_sound
  toRight := ⟨List.prefix_rfl, by simp [init, Endpoint.init, HalfClose.init]⟩
  toLeft := ⟨List.prefix_rfl, by simp [init, Endpoint.init, HalfClose.init]⟩

section
variable {e e' peer : Endpoint} {touched : List Nat}

theorem Trails.sends (h : Trails e peer) (hf : Endpoint.Follows touched peer e e') :
    Trails e' peer := by
  refine ⟨h.arrived.trans hf.sent, ?_⟩
  intro hended
  obtain ⟨harrived, hclosed⟩ := h.ended hended
  obtain ⟨hsent, hclosed'⟩ := hf.closed hclosed
  exact ⟨harrived.trans hsent.symm, hclosed'⟩

theorem Trails.receives (h : Trails peer e) (hf : Endpoint.Follows touched peer e e') :
    Trails peer e' := by
  have harrived : e'.arrived <+: peer.sent := by
    rcases hf.reads with hsame | hle
    · rw [hsame]
      exact h.arrived
    · exact hle
  refine ⟨harrived, ?_⟩
  intro hended
  rcases hf.ended hended with hbefore | hnow
  · -- nothing arrives behind the end
    obtain ⟨hall, hclosed⟩ := h.ended hbefore
    have hle := hf.arrived
    rw [hall] at hle
    exact ⟨harrived.eq_of_length_le hle.length_le, hclosed⟩
  · exact hnow

theorem Trails.delivers (h : Trails e peer) (hs : e.Sound) (hpeer : peer.Sound) :
    Delivers e peer where
  arrived := by
    rw [hpeer.arrived]
    exact h.arrived
  sent := hs.sent
  ended hended := by
    rw [hpeer.arrived]
    exact (h.ended hended).1
  shut hzero := (hs.finished (hs.succeeded hzero)).1

theorem readable_of_sound (hs : e.Sound) : Readable e :=
  fun r hr u hu => (hs.anchored r hr u hu).room hs.wf

end

section
variable (build : Build) (malloc malloc' : Malloc)

/-- A step of either side. -/
theorem step_sound (c : Connection) (l : ConnectionLabel) (hs : c.Sound) (hl : c.Admits build l) :
    ∃ c', c.step build malloc malloc' l = some c' ∧ c'.Sound := by
  cases l with
  | left l =>
    obtain ⟨e, he, hf⟩ := Endpoint.step_follows build malloc c.right l hs.left hl
    refine ⟨{ c with left := e }, ?_, hf.sound, hs.right, hs.toRight.sends hf,
      hs.toLeft.receives hf⟩
    rw [step, he]
    rfl
  | right l =>
    obtain ⟨e, he, hf⟩ := Endpoint.step_follows build malloc' c.left l hs.right hl
    refine ⟨{ c with right := e }, ?_, hs.left, hf.sound, hs.toRight.receives hf,
      hs.toLeft.sends hf⟩
    rw [step, he]
    rfl

theorem run_sound (ls : List ConnectionLabel)
    (h : Along (step build malloc malloc') (fun c l => c.Admits build l) init ls) :
    ∃ c, run (step build malloc malloc') init ls = some c ∧ c.Sound :=
  run_total Sound (fun c l hs hl => step_sound build malloc malloc' c l hs hl) ls init init_sound h

/-- Whatever the two programs do with their own buffers, and however writes, reads and completions
interleave, what arrives on either side is what was written on the other. -/
theorem connection_delivers (ls : List ConnectionLabel)
    (h : Along (step build malloc malloc') (fun c l => c.Admits build l) init ls) :
    ∃ c, run (step build malloc malloc') init ls = some c ∧
      Delivers c.left c.right ∧ Delivers c.right c.left ∧ Readable c.left ∧ Readable c.right := by
  obtain ⟨c, hrun, hs⟩ := run_sound build malloc malloc' ls h
  exact ⟨c, hrun, hs.toRight.delivers hs.left hs.right, hs.toLeft.delivers hs.right hs.left,
    readable_of_sound hs.left, readable_of_sound hs.right⟩

end

/-- `abc` is written and the stream ended: one byte is sent at once, the others out of the queue,
after the writer has dropped its buffer. The reader keeps a copy of the first chunk. -/
def script : List ConnectionLabel :=
  [.left (.memory (.constructCopy ⟨ascii "abc", by decide⟩)), .left (.write [1] 1 0),
    .right (.resume true), .right (.read (ascii "a")),
    .right (.memory (.copyConstruct .buffer .buffer 2)), .left (.memory (.reset 1)),
    .left (.endStream [] 0 0), .left (.flush 2), .left .shutDown, .left (.shutdownDone 0),
    .left (.writeDone 0 0), .left .callbackReturns, .right .callbackReturns,
    .right (.read (ascii "bc")), .right .callbackReturns, .right .eof, .right .callbackReturns]

theorem connection_delivers_script : ∃ c, run (step glibc .zeroed .zeroed) init script = some c ∧
    c.left.written = ascii "abc" ∧ c.right.flags.readHasEnded = true ∧
    c.right.chunks.flatten = ascii "abc" := by
  have hends : (run (step glibc .zeroed .zeroed) init script).map (fun c =>
      (c.left.written, c.left.flags.statuses, c.right.flags.readHasEnded)) =
        some (ascii "abc", [0], true) := by
    decide +kernel
  obtain ⟨c, hrun, hdelivers, -⟩ :=
    connection_delivers glibc .zeroed .zeroed script (by decide +kernel)
  rw [hrun, Option.map_some, Option.some.injEq, Prod.mk.injEq, Prod.mk.injEq] at hends
  obtain ⟨hwritten, hstatuses, hended⟩ := hends
  have hsent : c.left.sent = c.left.written := hdelivers.shut (by rw [hstatuses]; decide)
  refine ⟨c, hrun, hwritten, hended, ?_⟩
  rw [hdelivers.ended hended, hsent, hwritten]

end Connection

end Libnodecc.Stream
