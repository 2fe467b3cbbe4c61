import Libnodecc.Framework.Run
import Mathlib.Algebra.GroupWithZero.Nat
import Mathlib.Data.List.AList

namespace Libnodecc.Events

/-- `event_handler_base`. Handlers are named by the allocation that made them, so a name is
never used again; an `off` with a stale pointer to reused memory is an `off` of the new owner. -/
structure Handler where
  next : Option Nat
  refCount : Nat
  deriving DecidableEq

/-- `event_handler_root`. -/
structure Root where
  head : Option Nat
  tail : Option Nat
  deriving DecidableEq

/-- An `emitter` with the heap of its handlers. `deleted` logs each deleted handler with the
`ref_count` it had. -/
structure Emitter where
  handlers : Nat → Option Handler
  created : Nat
  events : AList (fun _ : Nat => Root)
  deleted : List (Nat × Nat)

def deleteFlag : Nat := 2^63

def Emitter.update (em : Emitter) (k : Nat) (f : Handler → Handler) : Option Emitter :=
  (em.handlers k).map fun h => { em with handlers := Function.update em.handlers k (some (f h)) }

def Emitter.setNext (em : Emitter) (k : Nat) (p : Option Nat) : Option Emitter :=
  em.update k fun h => { h with next := p }

def Emitter.setRefCount (em : Emitter) (k n : Nat) : Option Emitter :=
  em.update k fun h => { h with refCount := n }

def Emitter.delete (em : Emitter) (k : Nat) : Option Emitter :=
  (em.handlers k).map fun h =>
    { em with
      handlers := Function.update em.handlers k none
      deleted := em.deleted ++ [(k, h.refCount)] }

/-- `event_handler_root::push_back`. -/
def Emitter.pushBack (em : Emitter) (r : Root) (ptr : Nat) : Option (Emitter × Root) :=
  match r.tail with
  | some t => (em.setNext t (some ptr)).map fun em => (em, { r with tail := some ptr })
  | none => some (em, ⟨some ptr, some ptr⟩)

/-- What `erase` and the destructor of the root do with a handler they have unlinked: delete it,
or, when an emit is at it, prevent that emit from advancing. -/
def Emitter.discard (em : Emitter) (k : Nat) : Option Emitter :=
  (em.handlers k).bind fun h => if h.refCount = 0 then em.delete k else em.setNext k none

/-- The unlinking half of `event_handler_root::erase`. -/
def Emitter.unlink (em : Emitter) (r : Root) (prev next : Option Nat) : Option (Emitter × Root) :=
  match prev with
  | some p => (em.setNext p next).map fun em =>
      (em, if next.isNone then { r with tail := some p } else r)
  | none => some (em, ⟨next, if next.isNone then none else r.tail⟩)

/-- `event_handler_root::erase`. -/
def Emitter.eraseHandler (em : Emitter) (r : Root) (curr : Nat) (prev : Option Nat) :
    Option (Emitter × Root) :=
  (em.handlers curr).bind fun h =>
    (em.unlink r prev h.next).bind fun (em, r) => (em.discard curr).map fun em => (em, r)

/-- The loop of `off`: the iterator's `_prev` once `_curr` is `iter`, or `none` at the end. -/
def Emitter.seek (em : Emitter) (iter : Nat) :
    Nat → Option Nat → Option Nat → Option (Option (Option Nat))
  | _, none, _ => some none
  | 0, some _, _ => none
  | fuel + 1, some c, prev =>
    if c = iter then some (some prev)
    else (em.handlers c).bind fun h => em.seek iter fuel h.next (some c)

/-- The loop of `~event_handler_root`. -/
def Emitter.destroyRoot (em : Emitter) : Nat → Option Nat → Option Emitter
  | _, none => some em
  | 0, some _ => none
  | fuel + 1, some c =>
    (em.handlers c).bind fun h => (em.discard c).bind fun em => em.destroyRoot fuel h.next

/-- `emitter::on`; the new handler is number `created`. -/
def Emitter.on (em : Emitter) (symbol : Nat) : Option Emitter :=
  let r := (em.events.lookup symbol).getD ⟨none, none⟩
  let ptr := em.created
  let em := { em with
    handlers := Function.update em.handlers ptr (some ⟨none, 0⟩)
    created := ptr + 1 }
  (em.pushBack r ptr).map fun (em, r) => { em with events := em.events.insert symbol r }

/-- `emitter::off`. A list without a cycle has fewer cells than handlers were ever created. -/
def Emitter.off (em : Emitter) (symbol iter : Nat) : Option Emitter :=
  match em.events.lookup symbol with
  | none => some em
  | some r =>
    (em.seek iter em.created r.head none).bind fun
      | none => some em
      | some prev => (em.eraseHandler r iter prev).map fun (em, r) =>
          { em with events :=
              if r.head.isNone then em.events.erase symbol else em.events.insert symbol r }

/-- `emitter::removeAllListeners(symbol)`. -/
def Emitter.removeAllListeners (em : Emitter) (symbol : Nat) : Option Emitter :=
  match em.events.lookup symbol with
  | none => some em
  | some r => (em.destroyRoot em.created r.head).map fun em =>
      { em with events := em.events.erase symbol }

/-- `emitter::removeAllListeners()`. -/
def Emitter.clear (em : Emitter) : Option Emitter :=
  em.events.keys.foldlM Emitter.removeAllListeners em

/-- What an emit is measured by: the handlers registered for the symbol when it started, the
ones it has called, the ones removed before their turn, and whether the handler it is at was
taken off while it ran. -/
structure Emission where
  start : List Nat
  called : List Nat
  removed : List Nat
  detached : Bool
  deriving DecidableEq

/-- An active emit: its symbol and the handler it is in, `rit._curr`. -/
structure Frame extends Emission where
  symbol : Nat
  curr : Nat
  deriving DecidableEq

/-- The emitter with the stack of its active emits, innermost first. `registry` is the plain map
from symbols to handlers that the callers of `on` and `off` have in mind. -/
structure Machine where
  em : Emitter
  registry : Nat → List Nat
  stack : List Frame
  finished : List Emission

def Machine.init : Machine := ⟨⟨fun _ => none, 0, ∅, []⟩, fun _ => [], [], []⟩

/-- The handlers `ks` of `symbol` are no longer registered. -/
def Frame.forget (symbol : Nat) (ks : List Nat) (f : Frame) : Frame :=
  if f.symbol = symbol then { f with removed := f.removed ++ ks.filter (· ∉ f.called) } else f

/-- Handler `k` is taken off. -/
def Frame.detach (k : Nat) (f : Frame) : Frame :=
  if f.curr = k then { f with detached := true } else f

/-- The head of the loop of `emit`, at a non-null `rit`: guard the handler and call it. -/
def Machine.enter (s : Machine) (f : Emission) (symbol c : Nat) : Option Machine :=
  (s.em.handlers c).bind fun h => (s.em.setRefCount c (h.refCount + 1)).map fun em =>
    { s with
      em := em
      stack := ⟨{ f with called := f.called ++ [c] }, symbol, c⟩ :: s.stack }

/-- The loop condition of `emit`. -/
def Machine.advance (s : Machine) (f : Emission) (symbol : Nat) : Option Nat → Option Machine
  | none => some { s with finished := s.finished ++ [f] }
  | some c => s.enter f symbol c

/-- `emitter::emit` up to the first handler. -/
def Machine.emit (s : Machine) (symbol : Nat) : Option Machine :=
  s.advance ⟨s.registry symbol, [], [], false⟩ symbol
    ((s.em.events.lookup symbol).bind Root.head)

/-- The handler of the innermost emit returns: advance the iterator, drop the guard, delete the
handler if it was marked, and go on. -/
def Machine.handlerReturns (s : Machine) (f : Frame) (rest : List Frame) : Option Machine :=
  (s.em.handlers f.curr).bind fun h =>
    (s.em.setRefCount f.curr (h.refCount - 1)).bind fun em =>
      (if h.refCount - 1 = deleteFlag then em.delete f.curr else some em).bind fun em =>
        { s with em := em, stack := rest }.advance f.toEmission f.symbol h.next

/-- Calls on the emitter, from the innermost running handler or from outside of any emit. -/
inductive EmitterLabel where
  | on (symbol : Nat)
  | off (symbol iter : Nat)
  | removeAllListeners (symbol : Nat)
  | clear
  | emit (symbol : Nat)
  | handlerReturns
  deriving DecidableEq

/-- A label that cannot occur changes nothing: no handler returns outside of an emit, and a
call stack of `2^63` emits does not fit into memory. -/
def Machine.step (s : Machine) : EmitterLabel → Option Machine
  | .on symbol => (s.em.on symbol).map fun em =>
      { s with
        em := em
        registry := Function.update s.registry symbol (s.registry symbol ++ [s.em.created]) }
  | .off symbol iter => (s.em.off symbol iter).map fun em =>
      if iter ∈ s.registry symbol then
        { s with
          em := em
          registry := Function.update s.registry symbol ((s.registry symbol).erase iter)
          stack := s.stack.map fun f => (f.forget symbol [iter]).detach iter }
      else { s with em := em }
  | .removeAllListeners symbol => (s.em.removeAllListeners symbol).map fun em =>
      { s with
        em := em
        registry := Function.update s.registry symbol []
        stack := s.stack.map (Frame.forget symbol (s.registry symbol)) }
  | .clear => s.em.clear.map fun em =>
      { s with
        em := em
        registry := fun _ => []
        stack := s.stack.map fun f => f.forget f.symbol (s.registry f.symbol) }
  | .emit symbol => if s.stack.length < deleteFlag then s.emit symbol else some s
  | .handlerReturns =>
    match s.stack with
    | [] => some s
    | f :: rest => s.handlerReturns f rest

end Libnodecc.Events
