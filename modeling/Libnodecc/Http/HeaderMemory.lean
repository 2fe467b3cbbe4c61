import Libnodecc.Buffer.Exclusive
import Libnodecc.Http.IncomingMessage

namespace Libnodecc.Http

open Buffer Util

/-- The memory of an `incoming_message`; `headers` are the handles of the names and the values,
`parserBuffer` is that of the chunk which is parsed. -/
structure MessageMemory where
  type : HttpParserType
  memory : State
  headers : List (Nat × Nat)
  parserBuffer : Option Nat

/-- What happens to that memory: a chunk is read, the user copies, slices or drops a buffer, and
the callbacks of the parser, which are given parts of the chunk. -/
inductive MemoryLabel where
  | chunk (memory : Region) (nread : Nat)
  | share (j : Nat)
  | slice (j first last : Nat)
  | drop (k : Nat)
  | onUrl (start length : Nat)
  | onHeaderField (start length : Nat)
  | onHeaderValue (start length : Nat)
  | onHeadersComplete (method : Region)
  | onBody (start length : Nat)
  | onMessageComplete (isWebsocket : Bool)

namespace MessageMemory

def genericValue : Nat := 0

def partialHeaderField : Nat := 1

def partialHeaderValue : Nat := 2

def url : Nat := 3

def init (type : HttpParserType) : MessageMemory :=
  ⟨type, ⟨[], [⟨.null, some 0⟩, ⟨.null, some 0⟩, ⟨.null, some 0⟩, ⟨.null, none⟩]⟩, [], none⟩

def own (m : MessageMemory) : List Nat :=
  [genericValue, partialHeaderField, partialHeaderValue, url] ++
    m.headers.flatMap fun header => [header.1, header.2]

def npos : Nat := 2^64 - 1

def separator : Region := ⟨ascii ", ", by decide⟩

/-- The parser only passes parts of the chunk that it was given. -/
def given (m : MessageMemory) (start length : Nat) : Call (Nat × Handle) := do
  let parserBuffer ← defined m.parserBuffer
  let buf ← m.memory.handle parserBuffer
  if start + length ≤ buf.ref.size then pure (parserBuffer, buf) else throw .undefined

section
variable (build : Build) (malloc : Malloc)

/-- `incoming_message::_buffer`, as a new handle. -/
def buffer (m : MessageMemory) (start length : Nat) : Call State := do
  let (parserBuffer, _) ← m.given start length
  call build malloc m.memory (.slice .buffer parserBuffer start (start + length))

/-- `append(self->_buffer(at, length))`. -/
def collect (m : MessageMemory) (i start length : Nat) : Call MessageMemory := do
  let temporary := m.memory.handles.length
  let s ← m.buffer build malloc start length
  let s ← call build malloc s (.appendBuffer i temporary 0 npos)
  let s ← call build malloc s (.reset temporary)
  pure { m with memory := s }

/-- The loop over `_partial_header_field`. It writes back what is not upper-case, too. -/
def lowerCase (s : State) : Call State := do
  let field ← s.handle partialHeaderField
  match field.ref.data with
  | none => pure s
  | some ptr =>
    let bytes ← defined (s.heap.read field.ref.data field.ref.size)
    let heap ← defined (s.heap.write ptr (bytes.map toLower))
    pure { s with heap := heap }

/-- `_headers.emplace`, and the append to the value of a name that is there already. -/
def emplace (s : State) (headers : List (Nat × Nat)) : Call (State × List (Nat × Nat)) :=
  match headers.find? fun header => s.shown header.1 == s.shown partialHeaderField with
  | none => do
    let key := s.handles.length
    let s ← call build malloc s (.copyConstruct .buffer .buffer partialHeaderField)
    let s ← call build malloc s (.copyConstruct .mutable .mutable partialHeaderValue)
    pure (s, headers ++ [(key, key + 1)])
  | some (_, existingValue) => do
    let s ← s.append malloc existingValue separator.bytes.length fun _ => some separator.bytes
    let s ← call build malloc s (.appendBuffer existingValue partialHeaderValue 0 npos)
    pure (s, headers)

def addHeaderPartials (m : MessageMemory) : Call MessageMemory := do
  let field ← m.memory.handle partialHeaderField
  let value ← m.memory.handle partialHeaderValue
  if field.ref.data.isSome ∧ value.ref.data.isSome then
    let s ← lowerCase m.memory
    let (s, headers) ← emplace build malloc s m.headers
    let s ← call build malloc s (.reset partialHeaderField)
    let s ← call build malloc s (.reset partialHeaderValue)
    pure { m with memory := s, headers := headers }
  else pure m

/-- `url.set_url(_generic_value)`, and the name of the method in place of the URL; it is a string
constant. -/
def keepUrl (method : Region) (s : State) : Call State := do
  let s ← call build malloc s (.copyAssign url .buffer genericValue)
  let constant := s.heap.length
  let s ← call build malloc s (.callerMemory method)
  let temporary := s.handles.length
  let s ← call build malloc s (.constructWeak constant 0 method.bytes.length)
  call build malloc s (.moveAssign genericValue .buffer temporary)

def resetAll (ks : List Nat) (s : State) : Call State :=
  ks.foldlM (fun s k => call build malloc s (.reset k)) s

def perform (m : MessageMemory) : MemoryLabel → Call MessageMemory
  | .chunk memory nread => do
    let whole := m.memory.handles.length
    let s ← call build malloc m.memory (.constructDeleter memory)
    let s ← call build malloc s (.slice .buffer whole 0 nread)
    pure { m with memory := s, parserBuffer := some (whole + 1) }
  | .share j =>
    if j = partialHeaderField ∨ j = partialHeaderValue then throw .undefined
    else do
      let s ← call build malloc m.memory (.copyConstruct .buffer .buffer j)
      pure { m with memory := s }
  | .slice j first last =>
    if j = partialHeaderField ∨ j = partialHeaderValue then throw .undefined
    else do
      let s ← call build malloc m.memory (.slice .buffer j first last)
      pure { m with memory := s }
  | .drop k =>
    if k ∈ m.own then throw .undefined
    else do
      let s ← call build malloc m.memory (.reset k)
      pure { m with memory := s }
  | .onUrl start length => do
    let (_, buf) ← m.given start length
    let s ← m.memory.append malloc genericValue length fun heap =>
      heap.read (advance buf.ref.data start) length
    pure { m with memory := s }
  | .onHeaderField start length => do
    let m ← m.addHeaderPartials build malloc
    m.collect build malloc partialHeaderField start length
  | .onHeaderValue start length => do
    let m ← m.addHeaderPartials build malloc
    m.collect build malloc partialHeaderValue start length
  | .onHeadersComplete method => do
    let m ← m.addHeaderPartials build malloc
    match m.type with
    | .request =>
      let s ← keepUrl build malloc method m.memory
      pure { m with memory := s }
    | .response => pure m
  | .onBody start length => do
    -- the user gets to keep the new handle
    let s ← m.buffer build malloc start length
    pure { m with memory := s }
  | .onMessageComplete isWebsocket =>
    if isWebsocket then pure m
    else do
      let s ← resetAll build malloc
        (genericValue :: m.headers.flatMap (fun header => [header.1, header.2]) ++ [url]) m.memory
      pure { m with memory := s, headers := [] }

/-- The functions are `noexcept`, so that an allocation that fails ends the program. -/
def step (m : MessageMemory) (l : MemoryLabel) : Option MessageMemory :=
  match m.perform build malloc l with
  | .ok m => some m
  | .error _ => none

end

end MessageMemory

/-- The parts that a name has come in so far, empty ones apart. -/
inductive Pieces where
  | none
  | one
  | many
  deriving DecidableEq

def Pieces.add : Pieces → Nat → Pieces
  | pieces, 0 => pieces
  | .none, _ + 1 => .one
  | _, _ + 1 => .many

/-- A message, the blocks of the chunks so far, and what came of the current header. -/
structure Watched where
  message : MessageMemory
  chunks : List Nat
  pieces : Pieces
  valued : Bool

/-- The callbacks that begin with `_add_header_partials`. -/
def MemoryLabel.addsPartials : MemoryLabel → Bool
  | .onHeaderField _ _ | .onHeaderValue _ _ | .onHeadersComplete _ => true
  | _ => false

namespace Watched

def init (type : HttpParserType) : Watched := ⟨.init type, [], .none, false⟩

/-- The current header is complete, should the next callback be about another one. -/
def full (w : Watched) : Prop := w.pieces ≠ .none ∧ w.valued = true

instance (w : Watched) : Decidable w.full := inferInstanceAs (Decidable (_ ∧ _))

def renewed (w : Watched) (message : MessageMemory) : Watched :=
  if w.full then ⟨message, w.chunks, .none, false⟩ else { w with message := message }

def after (w : Watched) (m : MessageMemory) : MemoryLabel → Watched
  | .chunk _ _ => { w with message := m, chunks := w.message.memory.heap.length :: w.chunks }
  | .onHeaderField _ length =>
    let w := w.renewed m
    { w with pieces := w.pieces.add length }
  | .onHeaderValue _ length =>
    let w := w.renewed m
    { w with valued := w.valued || decide (0 < length) }
  | .onHeadersComplete _ => w.renewed m
  | _ => { w with message := m }

def step (build : Build) (malloc : Malloc) (w : Watched) (l : MemoryLabel) : Option Watched :=
  (w.message.step build malloc l).map fun m => w.after m l

/-- The blocks of the chunks have the bytes they had, and every handle but those that the message
collects in shows what it showed, unless it is another one now. -/
structure Unharmed (chunks : List Nat) (s t : State) : Prop where
  chunks : ∀ b ∈ chunks, t.cellsOf b = s.cellsOf b
  others : ∀ k < s.handles.length, k ≠ MessageMemory.genericValue →
    k ≠ MessageMemory.partialHeaderField → k ≠ MessageMemory.partialHeaderValue →
    t.handles[k]? = s.handles[k]? → t.shown k = s.shown k

def Lower (w : Watched) : Prop :=
  w.pieces = .one → ∀ bytes, w.message.memory.shown MessageMemory.partialHeaderField = some bytes →
    ∀ ch ∈ bytes, ¬(0x41 ≤ ch ∧ ch ≤ 0x5a)

/-- What it takes for a chunk to stay as it is when a header is put away. -/
def Clean (w : Watched) (l : MemoryLabel) : Prop :=
  l.addsPartials = true → w.valued = true → w.Lower

end Watched

end Libnodecc.Http
