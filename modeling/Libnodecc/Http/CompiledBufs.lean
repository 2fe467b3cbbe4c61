import Libnodecc.Buffer.Handles
import Libnodecc.Http.OutgoingMessage

namespace Libnodecc.Http

open Buffer Util

/-- What `http_write` knows of the headers when it counts the slots. With `length`, it has just set
a content-length. -/
inductive Framing where
  | sent (isChunked : Bool)
  | unsent (isChunked : Bool)
  | length (n : Nat)

namespace Framing

def headersSent : Framing → Bool
  | sent _ => true
  | _ => false

def isChunked : Framing → Bool
  | sent isChunked | unsent isChunked => isChunked
  | length _ => false

/-- How the headers and the buffers of a call settle it. -/
def settle (m : OutgoingMessage) (bufs : List (Chunk 64)) (last : Bool) : Framing :=
  if m.headersSent then sent m.isChunked
  else if (m.headers (ascii "content-length")).isSome then unsent false
  else
    match m.headers (ascii "transfer-encoding") with
    | some value => unsent (value == some (ascii "chunked"))
    | none =>
      match if last then contentLength bufs 0 else none with
      | some n => length n
      | none => unsent true

/-- The call is settled as the message is framed. -/
theorem settle_isChunked (build : Build) (m : OutgoingMessage) (bufs : List (Chunk 64))
    (last : Bool) (hm : m.headersSent = false) :
    (chooseFraming build m.headers bufs last).map Prod.snd =
      some (settle m bufs last).isChunked := by
  unfold chooseFraming settle
  rw [hm, if_neg Bool.false_ne_true]
  by_cases hcl : (m.headers (ascii "content-length")).isSome
  · rw [if_pos hcl, if_pos hcl]
    rfl
  · rw [if_neg hcl, if_neg hcl]
    cases m.headers (ascii "transfer-encoding") with
    | some value => rfl
    | none =>
      generalize (if last then contentLength bufs 0 else none) = total
      cases total with
      | none => rfl
      | some n =>
        obtain ⟨ds, hds⟩ := Buf.appendNumber_decimal build none n
        simp only [hds, Option.map_some, Option.isSome_some, if_true]
        rfl

end Framing

/-- A call of `http_write`: the handles of `bufs` and of `_headers`, and what `compile_headers`
appends. -/
structure Compilation where
  framing : Framing
  bufs : List Nat
  /-- The array of the caller is not larger than `PTRDIFF_MAX`. -/
  bufcnt_lt : bufs.length * 24 < 2^63
  last : Bool
  headers : List Nat
  block : List Region

/-- What a call does to buffers, one after the other. -/
inductive Move where
  | contentLength (n : Nat)
  | setCapacity (n : Nat)
  | append (text : Region)
  | appendSize (j : Nat)
  | storeBuf
  | storeChunk (j : Nat)
  | storeView (text : Region)
  | reset
  | clearHeaders
  | pass
  | write
  | destroy

namespace Compilation

def crlfText : Region := ⟨crlf, by decide⟩

/-- `end_chunk`, or the part of it that is sent. -/
def closingText (c : Compilation) : Region :=
  if c.last then
    if 0 < c.bufs.length then ⟨ascii "\r\n0\r\n\r\n", by decide⟩ else ⟨ascii "0\r\n\r\n", by decide⟩
  else crlfText

/-- The number of slots, as the branches of `http_write` add it up. -/
def needed (c : Compilation) : Nat :=
  (if !c.framing.headersSent && !c.framing.isChunked then 1 else 0) +
    if 0 < c.bufs.length then
      if c.framing.isChunked then 2 * c.bufs.length + 1 else c.bufs.length
    else if c.last then 1 else 0

def compiledBufcnt (c : Compilation) : Nat := sizeT c.needed

/-- The slots that fit into the memory from `alloca`. -/
def slots (c : Compilation) : Nat := sizeT (c.compiledBufcnt * 24) / 24

/-- The loop over the chunks. -/
def chunkMoves : Bool → List Nat → List Move
  | _, [] => []
  | first, j :: bufs =>
    (if first then [] else [.append crlfText]) ++
      [.appendSize j, .append crlfText, .storeBuf, .storeChunk j, .reset] ++ chunkMoves false bufs

def headerMoves (c : Compilation) : List Move :=
  if c.framing.headersSent then []
  else
    [.setCapacity 800] ++ c.block.map .append ++
      (if c.framing.isChunked then [] else [.storeBuf]) ++ [.clearHeaders]

def bodyMoves (c : Compilation) : List Move :=
  if c.framing.isChunked then chunkMoves true c.bufs ++ [.storeView c.closingText]
  else c.bufs.map .storeChunk

def lengthMoves (c : Compilation) : List Move :=
  match c.framing with
  | .length n => [.contentLength n]
  | _ => []

def moves (c : Compilation) : List Move :=
  c.lengthMoves ++
    if c.compiledBufcnt = 0 then []
    else if c.compiledBufcnt = c.bufs.length then [.pass]
    else c.headerMoves ++ c.bodyMoves ++ [.write, .destroy]

end Compilation

/-- How `write` of the socket ends; what is not written at once is kept, from some buffer on. -/
inductive Written where
  | threw
  | kept (first : Nat)

/-- The locals of a call. From the handle `base` on there are `buf`, the content-length and the
slots; `cleared` are the headers that were destroyed, `kept` what the socket holds. -/
structure Frame where
  state : State
  base : Nat
  pos : Nat
  cleared : List Nat
  kept : List Ref

/-- Why the moves do not go on; `terminated` is an exception in a function that is `noexcept`. -/
inductive Halt where
  | undefined
  | outOfBounds
  | terminated
  | threw (f : Frame)

def releaseAll (s : State) : List Nat → Buffer.Call State
  | [] => .ok s
  | i :: is => do
    let s ← s.release i
    releaseAll s is

/-- The copies in `ref_list`. -/
def retainAll (s : State) : List Nat → Buffer.Call (State × List Ref)
  | [] => .ok (s, [])
  | i :: is => do
    let h ← s.handle i
    let (s, refs) ← retainAll (s.retain h.ref) is
    pure (s, h.ref :: refs)

namespace Frame

def slot (f : Frame) (i : Nat) : Nat := f.base + 2 + i

/-- A call that is `noexcept`. -/
def quietly {α : Type} (f : α → Frame) (x : Buffer.Call α) : Except Halt Frame :=
  match x with
  | .ok a => .ok (f a)
  | .error .undefined => .error .undefined
  | .error .badAlloc => .error .terminated

def throwing (f : Frame) (x : Buffer.Call State) : Except Halt Frame :=
  match x with
  | .ok s => .ok { f with state := s }
  | .error .undefined => .error .undefined
  | .error .badAlloc => .error (.threw f)

/-- `compiledBufs[compiledBufsPos++] = …`. -/
def store (f : Frame) (slots : Nat) (assign : Nat → Buffer.Call State) : Except Halt Frame :=
  if f.pos < slots then
    quietly (fun s => { f with state := s, pos := f.pos + 1 }) (assign (f.slot f.pos))
  else .error .outOfBounds

def keep (f : Frame) (written : Written) (handles : List Nat) : Except Halt Frame :=
  match written with
  | .threw => .error (.threw f)
  | .kept first =>
    quietly (fun (s, refs) => { f with state := s, kept := refs })
      (retainAll f.state (handles.drop first))

section
variable (build : Build) (malloc : Malloc) (c : Compilation) (written : Written)

def exec (f : Frame) : Move → Except Halt Frame
  | .contentLength n => f.throwing (call build malloc f.state (.appendNumber (f.base + 1) n 10))
  | .setCapacity n =>
    quietly (fun s => { f with state := s }) (call build malloc f.state (.setCapacity f.base n))
  | .append text =>
    quietly (fun s => { f with state := s })
      (call build malloc f.state (.append f.base (.caller text) 0 text.bytes.length))
  | .appendSize j => f.throwing do
    let chunk ← f.state.handle j
    call build malloc f.state (.appendNumber f.base chunk.ref.size 16)
  | .storeBuf =>
    f.store c.slots fun slot => call build malloc f.state (.copyAssign slot .buffer f.base)
  | .storeChunk j =>
    f.store c.slots fun slot => call build malloc f.state (.copyAssign slot .buffer j)
  | .storeView text =>
    f.store c.slots fun slot => do
      let s ← call build malloc f.state (.callerMemory text)
      call build malloc s (.assignView slot f.state.heap.length 0 text.bytes.length)
  | .reset => quietly (fun s => { f with state := s }) (call build malloc f.state (.reset f.base))
  | .clearHeaders =>
    quietly (fun s => { f with state := s, cleared := c.headers })
      (releaseAll f.state (c.headers ++ [f.base + 1]))
  | .pass => f.keep written c.bufs
  | .write => f.keep written ((List.range f.pos).map f.slot)
  | .destroy =>
    quietly (fun s => { f with state := s }) (releaseAll f.state ((List.range f.pos).map f.slot))

end

end Frame

/-- The frame of a call, with `compiledBufs` set to zero. -/
def Compilation.enter (c : Compilation) (s : State) : Frame :=
  ⟨⟨s.heap, s.handles ++ [⟨.null, some 0⟩, ⟨.null, some 0⟩] ++ List.replicate c.slots ⟨.null, none⟩⟩,
    s.handles.length, 0, [], []⟩

/-- A call that was left, by an exception or not; `buf` is destroyed in any case. -/
structure Exit where
  state : State
  cleared : List Nat
  kept : List Ref
  threw : Bool

def Frame.leave (f : Frame) (threw : Bool) : Option Exit :=
  match f.state.release f.base with
  | .ok s => some ⟨s, f.cleared, f.kept, threw⟩
  | .error _ => none

/-- `http_write` on the buffers of a program; `none` is a call that is not left. -/
def Compilation.httpWrite (build : Build) (malloc : Malloc) (c : Compilation) (written : Written)
    (s : State) : Option Exit :=
  match c.moves.foldlM (Frame.exec build malloc c written) (c.enter s) with
  | .ok f => f.leave false
  | .error (.threw f) => f.leave true
  | .error _ => none

def Move.stores : Move → Nat
  | .storeBuf | .storeChunk _ | .storeView _ => 1
  | _ => 0

def Move.Fills : Move → Prop
  | .contentLength _ | .pass | .write | .destroy => False
  | _ => True

section
variable {build : Build} {malloc : Malloc} {c : Compilation} {written : Written} {f g : Frame}

theorem quietly_ok {α : Type} {k : α → Frame} {x : Buffer.Call α}
    (h : Frame.quietly k x = .ok g) : ∃ a, x = .ok a ∧ g = k a := by
  unfold Frame.quietly at h
  split at h
  · cases h
    exact ⟨_, rfl, rfl⟩
  · cases h
  · cases h

theorem quietly_halt {α : Type} {k : α → Frame} {x : Buffer.Call α} {halt : Halt}
    (h : Frame.quietly k x = .error halt) : halt = .undefined ∨ halt = .terminated := by
  unfold Frame.quietly at h
  split at h
  · cases h
  · cases h
    exact .inl rfl
  · cases h
    exact .inr rfl

theorem throwing_ok {x : Buffer.Call State} (h : f.throwing x = .ok g) :
    ∃ s, x = .ok s ∧ g = { f with state := s } := by
  unfold Frame.throwing at h
  split at h
  · cases h
    exact ⟨_, rfl, rfl⟩
  · cases h
  · cases h

theorem throwing_halt {x : Buffer.Call State} {halt : Halt} (h : f.throwing x = .error halt) :
    halt = .undefined ∨ halt = .threw f ∧ x = .error .badAlloc := by
  unfold Frame.throwing at h
  split at h
  · cases h
  · cases h
    exact .inl rfl
  · cases h
    exact .inr ⟨rfl, rfl⟩

theorem store_ok {slots : Nat} {assign : Nat → Buffer.Call State}
    (h : f.store slots assign = .ok g) : f.pos < slots ∧ ∃ s, assign (f.slot f.pos) = .ok s ∧
      g = { f with state := s, pos := f.pos + 1 } := by
  unfold Frame.store at h
  split_ifs at h with hpos
  exact ⟨hpos, quietly_ok h⟩

theorem store_halt {slots : Nat} {assign : Nat → Buffer.Call State} {halt : Halt}
    (hpos : f.pos < slots) (h : f.store slots assign = .error halt) :
    halt = .undefined ∨ halt = .terminated := by
  unfold Frame.store at h
  rw [if_pos hpos] at h
  exact quietly_halt h

theorem keep_ok {handles : List Nat} (h : f.keep written handles = .ok g) :
    ∃ first s refs, written = .kept first ∧ retainAll f.state (handles.drop first) = .ok (s, refs) ∧
      g = { f with state := s, kept := refs } := by
  cases written with
  | threw => cases h
  | kept first =>
    obtain ⟨⟨s, refs⟩, hs, rfl⟩ := quietly_ok h
    exact ⟨first, s, refs, rfl, hs, rfl⟩

theorem keep_halt {handles : List Nat} {halt : Halt} (h : f.keep written handles = .error halt) :
    halt = .undefined ∨ halt = .terminated ∨ halt = .threw f ∧ written = .threw := by
  cases written with
  | threw =>
    cases h
    exact .inr (.inr ⟨rfl, rfl⟩)
  | kept first =>
    rcases quietly_halt h with rfl | rfl
    · exact .inl rfl
    · exact .inr (.inl rfl)

/-- `compiledBufsPos` counts the stores. -/
theorem exec_pos {m : Move} (h : f.exec build malloc c written m = .ok g) :
    g.pos = f.pos + m.stores ∧ g.base = f.base := by
  cases m with
  | contentLength n =>
    obtain ⟨s, -, rfl⟩ := throwing_ok h
    exact ⟨rfl, rfl⟩
  | appendSize j =>
    obtain ⟨s, -, rfl⟩ := throwing_ok h
    exact ⟨rfl, rfl⟩
  | storeBuf | storeChunk | storeView =>
    rw [Frame.exec] at h
    obtain ⟨-, s, -, rfl⟩ := store_ok h
    exact ⟨rfl, rfl⟩
  | pass | write =>
    rw [Frame.exec] at h
    obtain ⟨first, s, refs, -, -, rfl⟩ := keep_ok h
    exact ⟨rfl, rfl⟩
  | setCapacity | append | reset | clearHeaders | destroy =>
    rw [Frame.exec] at h
    obtain ⟨s, -, rfl⟩ := quietly_ok h
    exact ⟨rfl, rfl⟩

theorem exec_inBounds {m : Move} (hroom : f.pos + m.stores ≤ c.slots) :
    f.exec build malloc c written m ≠ .error .outOfBounds := by
  intro h
  cases m with
  | contentLength n => rcases throwing_halt h with h | ⟨h, -⟩ <;> cases h
  | appendSize j => rcases throwing_halt h with h | ⟨h, -⟩ <;> cases h
  | storeBuf | storeChunk | storeView =>
    rw [Frame.exec] at h
    rcases store_halt hroom h with h | h <;> cases h
  | pass | write =>
    rw [Frame.exec] at h
    rcases keep_halt h with h | h | ⟨h, -⟩ <;> cases h
  | setCapacity | append | reset | clearHeaders | destroy =>
    rw [Frame.exec] at h
    rcases quietly_halt h with h | h <;> cases h

theorem moves_inBounds (ms : List Move) (f : Frame)
    (hroom : f.pos + (ms.map Move.stores).sum ≤ c.slots) :
    ms.foldlM (Frame.exec build malloc c written) f ≠ .error .outOfBounds := by
  induction ms generalizing f with
  | nil => nofun
  | cons m ms ih =>
    rw [List.map_cons, List.sum_cons, ← Nat.add_assoc] at hroom
    rw [List.foldlM_cons]
    cases hm : f.exec build malloc c written m with
    | error halt =>
      intro h
      cases h
      exact exec_inBounds (by omega) hm
    | ok g =>
      obtain ⟨hpos, -⟩ := exec_pos hm
      exact ih g (by omega)

end

namespace Compilation

theorem chunkMoves_stores (first : Bool) (bufs : List Nat) :
    ((chunkMoves first bufs).map Move.stores).sum = 2 * bufs.length := by
  induction bufs generalizing first with
  | nil => rfl
  | cons j bufs ih =>
    have hrest := ih false
    cases first <;> simp [chunkMoves, Move.stores, hrest] <;> omega

theorem headerMoves_stores (c : Compilation) : (c.headerMoves.map Move.stores).sum =
    if !c.framing.headersSent && !c.framing.isChunked then 1 else 0 := by
  unfold headerMoves
  cases c.framing.headersSent <;> cases c.framing.isChunked <;> simp [Move.stores, Function.comp_def]

theorem bodyMoves_stores (c : Compilation) : (c.bodyMoves.map Move.stores).sum =
    if c.framing.isChunked then 2 * c.bufs.length + 1 else c.bufs.length := by
  unfold bodyMoves
  cases c.framing.isChunked with
  | true => simp [chunkMoves_stores, Move.stores]
  | false => simp [Move.stores, Function.comp_def]

theorem lengthMoves_stores (c : Compilation) : (c.lengthMoves.map Move.stores).sum = 0 := by
  unfold lengthMoves
  cases c.framing <;> rfl

theorem fill_stores (c : Compilation) (h : c.needed ≠ 0) :
    ((c.headerMoves ++ c.bodyMoves).map Move.stores).sum ≤ c.needed := by
  rw [List.map_append, List.sum_append, headerMoves_stores, bodyMoves_stores]
  unfold needed at h ⊢
  generalize c.framing.headersSent = headersSent at h ⊢
  generalize c.framing.isChunked = isChunked at h ⊢
  generalize c.last = last at h ⊢
  generalize c.bufs.length = bufcnt at h ⊢
  cases headersSent <;> cases isChunked <;> cases last <;> cases bufcnt <;> simp at h ⊢

/-- As many slots as buffers means that the headers are sent and the buffers are all there is. -/
theorem needed_eq_bufcnt (c : Compilation) (h : c.needed = c.bufs.length) (hpos : c.needed ≠ 0) :
    c.framing.headersSent = true ∧ c.framing.isChunked = false := by
  unfold needed at h hpos
  generalize c.framing.headersSent = headersSent at h hpos ⊢
  generalize c.framing.isChunked = isChunked at h hpos ⊢
  generalize c.last = last at h hpos
  generalize c.bufs.length = bufcnt at h hpos
  cases headersSent <;> cases isChunked <;> cases last <;> cases bufcnt <;> simp at h hpos ⊢ <;>
    omega

theorem chunkMoves_fills (first : Bool) (bufs : List Nat) :
    ∀ m ∈ chunkMoves first bufs, m.Fills := by
  induction bufs generalizing first with
  | nil => nofun
  | cons j bufs ih =>
    intro m hm
    have hrest := ih false m
    cases first <;> simp only [chunkMoves, List.mem_append, List.mem_cons, List.not_mem_nil] at hm <;>
      grind [Move.Fills]

theorem fill_fills (c : Compilation) : ∀ m ∈ c.headerMoves ++ c.bodyMoves, m.Fills := by
  intro m hm
  have hchunk := chunkMoves_fills true c.bufs m
  unfold headerMoves bodyMoves at hm
  grind [Move.Fills]

theorem compiledBufcnt_eq (c : Compilation) : c.compiledBufcnt = c.needed := by
  have hfit := c.bufcnt_lt
  refine Nat.mod_eq_of_lt ?_
  unfold needed
  split_ifs <;> omega

theorem slots_eq (c : Compilation) (h : c.needed * 24 < 2^64) : c.slots = c.needed := by
  unfold slots
  rw [c.compiledBufcnt_eq, sizeT, Nat.mod_eq_of_lt h, Nat.mul_div_cancel c.needed (by decide)]

end Compilation

/-- No buffer is stored behind the slots, and the array of the caller is passed on only where the
slots would hold the same buffers. -/
theorem httpWrite_slots (build : Build) (malloc : Malloc) (c : Compilation) (written : Written)
    (s : State) (hsize : c.needed * 24 < 2^64) :
    c.slots = c.compiledBufcnt ∧
      c.moves.foldlM (Frame.exec build malloc c written) (c.enter s) ≠ .error .outOfBounds ∧
      (Move.pass ∈ c.moves → c.framing.headersSent = true ∧
        c.headerMoves ++ c.bodyMoves = c.bufs.map .storeChunk) := by
  have hcount := c.compiledBufcnt_eq
  have hslots := c.slots_eq hsize
  refine ⟨hslots.trans hcount.symm, ?_, ?_⟩
  · apply moves_inBounds
    show 0 + _ ≤ c.slots
    rw [Nat.zero_add, hslots, Compilation.moves, hcount, List.map_append, List.sum_append,
      Compilation.lengthMoves_stores, Nat.zero_add]
    split_ifs with hnone hpass
    · exact Nat.zero_le _
    · exact Nat.zero_le _
    · have hfill := c.fill_stores hnone
      rw [List.map_append, List.sum_append]
      exact hfill
  · intro hpass
    unfold Compilation.moves at hpass
    rw [hcount] at hpass
    rcases List.mem_append.mp hpass with hlength | hpass
    · unfold Compilation.lengthMoves at hlength
      split at hlength
      · simp at hlength
      · simp at hlength
    · split_ifs at hpass with hnone hall
      · simp at hpass
      · obtain ⟨hsent, hchunked⟩ := c.needed_eq_bufcnt hall hnone
        refine ⟨hsent, ?_⟩
        simp [Compilation.headerMoves, Compilation.bodyMoves, hsent, hchunked]
      · rcases List.mem_append.mp hpass with hfill | hafter
        · exact absurd (c.fill_fills _ hfill) id
        · simp at hafter

def twoBuffers : State :=
  ⟨[⟨ascii "ab", some 1, false⟩, ⟨ascii "c", some 1, false⟩],
    [⟨⟨some ⟨0, 0⟩, 2, some 0⟩, none⟩, ⟨⟨some ⟨1, 0⟩, 1, some 1⟩, none⟩]⟩

def firstWrite : Compilation :=
  ⟨.unsent true, [0, 1], by decide, false, [], [⟨ascii "HTTP/1.1 200 OK\r\n\r\n", by decide⟩]⟩

theorem httpWrite_slots_first : firstWrite.slots = 5 ∧
    firstWrite.moves.foldlM (Frame.exec glibc .zeroed firstWrite (.kept 0))
      (firstWrite.enter twoBuffers) ≠ .error .outOfBounds ∧
    (firstWrite.moves.foldlM (Frame.exec glibc .zeroed firstWrite (.kept 0))
      (firstWrite.enter twoBuffers)).toOption.map (fun f => (f.pos, f.kept.length)) = some (5, 5) := by
  obtain ⟨hslots, hbounds, -⟩ :=
    httpWrite_slots glibc .zeroed firstWrite (.kept 0) twoBuffers (by decide)
  exact ⟨hslots.trans (by decide), hbounds, by decide +kernel⟩

end Libnodecc.Http
