import Libnodecc.Stream.Lifetime
import Mathlib.Data.List.Range
import Mathlib.Logic.Function.Iterate

namespace Libnodecc.Tcp

open Libnodecc.Object Libnodecc.Stream

/-- A `tcp::socket` that a `connect_pack` makes. `refs` are the `shared_ptr`s of the user. -/
structure Socket where
  counter : Counter
  closeState : CloseState
  refs : Nat
  deletes : Nat
  deriving DecidableEq

namespace Socket

/-- `make_shared<tcp::socket>(loop)`. -/
def init : Socket := ⟨.fresh, .opened, 0, 0⟩

def retain (s : Socket) : Socket := { s with counter := s.counter.retain }

/-- `handle::_destroy`; nothing listens to the `destroy_event`. -/
def closeHandle (s : Socket) : Socket :=
  if s.closeState = .opened then { s.retain with closeState := .closing } else s

/-- `object::destroy`. -/
def destroy (s : Socket) : Socket :=
  if s.counter.isDestroyed then s
  else ({ s with counter := { s.counter with isDestroyed := true } } : Socket).closeHandle

/-- `object::release`. -/
def release (s : Socket) : Option Socket :=
  s.counter.release.map fun (counter, released) =>
    let s := { s with counter := counter }
    match released with
    | .referenced => s
    | .destroys =>
      let s := s.closeHandle
      if s.counter.useCount > 0 then s else { s with deletes := s.deletes + 1 }
    | .finalises => { s with deletes := s.deletes + 1 }

/-- The user copies his `shared_ptr`. -/
def copy (s : Socket) : Socket := { s.retain with refs := s.refs + 1 }

end Socket

/-- What the user callback does with a connected socket: it copies the `shared_ptr`, as often as
`_use_count` has room for, and may call `destroy()`. -/
structure UserCallback where
  copies : Nat
  destroys : Bool
  room : copies + 2 < useCountLimit

def UserCallback.use (user : UserCallback) (s : Socket) : Socket :=
  let s := Socket.copy^[user.copies] s
  if user.destroys then s.destroy else s

/-- The outcome of an attempt: what `uv_tcp_connect` returns, and the status its callback gets. -/
structure Attempt where
  ret : Int
  status : Int

def Attempt.code (a : Attempt) : Int := if a.ret ≠ 0 then a.ret else a.status

inductive ConnectError where
  | lookup (status : Int)
  | connect (code : Int)
  deriving DecidableEq

/-- `connect_pack`; `ai` are the addresses from `current_ai` on, and `socket` is a number of
`Connecting.sockets`. -/
structure ConnectPack (α : Type) where
  ai : List α
  socket : Option Nat
  deriving DecidableEq

/-- A call of `socket::connect`: its pack, as long as it is not deleted, what libuv has yet to call
back, the sockets and calls so far. -/
structure Connecting (α : Type) where
  pack : Option (ConnectPack α)
  packDeletes : Nat
  lookup : Bool
  request : Option Nat
  sockets : List Socket
  tried : List α
  calls : List (Except ConnectError Nat)

namespace Connecting

variable {α : Type}

/-- After `socket::connect`. -/
def init : Connecting α := ⟨some ⟨[], none⟩, 0, true, none, [], [], []⟩

/-- `none` is a use of a deleted socket. -/
def onSocket (s : Connecting α) (k : Nat) (f : Socket → Option Socket) : Option (Connecting α) := do
  let socket ← s.sockets[k]?
  if socket.deletes = 0 then
    let socket ← f socket
    some { s with sockets := s.sockets.set k socket }
  else none

/-- `none` is a use of the deleted pack, or of its null `socket`. -/
def onPackSocket (s : Connecting α) (f : Socket → Option Socket) : Option (Connecting α) := do
  let pack ← s.pack
  let k ← pack.socket
  s.onSocket k f

/-- `this->socket.reset()`. -/
def resetSocket (s : Connecting α) : Option (Connecting α) := do
  let pack ← s.pack
  match pack.socket with
  | some k =>
    let s ← s.onSocket k Socket.release
    some { s with pack := some { pack with socket := none } }
  | none => some s

/-- `delete this`. -/
def deletePack (s : Connecting α) : Option (Connecting α) := do
  let s ← s.resetSocket
  some { s with pack := none, packDeletes := s.packDeletes + 1 }

/-- `this->cb(err, socket)`. -/
def call (s : Connecting α) (result : Except ConnectError Nat) : Option (Connecting α) := do
  let _ ← s.pack
  some { s with calls := s.calls ++ [result] }

/-- `connect_pack::next`. -/
def next (s : Connecting α) : Option (Connecting α) := do
  let pack ← s.pack
  some { s with pack := some { pack with ai := pack.ai.tail } }

/-- `connect_pack::connect` as far as `uv_tcp_connect`. -/
def prepare (s : Connecting α) (addr : α) : Option (Connecting α) := do
  let s ← s.resetSocket
  let pack ← s.pack
  let s :=
    { s with
      sockets := s.sockets ++ [Socket.init]
      pack := some { pack with socket := some s.sockets.length }
      tried := s.tried ++ [addr] }
  s.onPackSocket fun socket => some socket.retain

section
variable (attempts : Nat → Attempt) (user : UserCallback)

/-- `connect_pack::connect`, with `current_ai` at the first of the addresses. -/
def connect : List α → Connecting α → Option (Connecting α)
  | [], _ => none
  | addr :: rest, s => do
    let k := s.sockets.length
    let s ← s.prepare addr
    if (attempts k).ret = 0 then some { s with request := some k }
    else
      let s ← s.onPackSocket Socket.release
      let s ← s.next
      match rest with
      | _ :: _ => connect rest s
      | [] =>
        let s ← s.call (.error (.connect (attempts k).ret))
        s.deletePack

/-- The callback of `dns::lookup`. -/
def lookupDone (s : Connecting α) (result : Except Int (List α)) : Option (Connecting α) := do
  let s := { s with lookup := false }
  match result with
  | .error status =>
    let s ← s.call (.error (.lookup status))
    s.deletePack
  | .ok addresses =>
    let pack ← s.pack
    connect attempts addresses { s with pack := some { pack with ai := addresses } }

/-- The callback of `uv_tcp_connect`, for attempt `k`. -/
def connectDone (s : Connecting α) (k : Nat) : Option (Connecting α) := do
  let s ← ({ s with request := none } : Connecting α).onPackSocket Socket.release
  if (attempts k).status = 0 then
    let s ← s.call (.ok k)
    let s ← s.onPackSocket fun socket => some (user.use socket)
    s.deletePack
  else
    let s ← s.next
    let pack ← s.pack
    match pack.ai with
    | _ :: _ => connect attempts pack.ai s
    | [] =>
      let s ← s.call (.error (.connect (attempts k).status))
      s.deletePack

end

/-- What libuv calls back, and `drop`, where the user drops a `shared_ptr` he kept. -/
inductive Label (α : Type) where
  | lookupDone (result : Except Int (List α))
  | connectDone
  | closeDone (k : Nat)
  | drop (k : Nat)

def Label.isConnectDone : Label α → Bool
  | .connectDone => true
  | _ => false

/-- The socket `k` is there and has the property `p`. -/
def socketIs (s : Connecting α) (k : Nat) (p : Socket → Bool) : Bool := s.sockets[k]?.any p

/-- What cannot occur changes nothing; libuv calls a close callback after the one of the request. -/
def step (attempts : Nat → Attempt) (user : UserCallback) (s : Connecting α) :
    Label α → Option (Connecting α)
  | .lookupDone result => if s.lookup then s.lookupDone attempts result else some s
  | .connectDone =>
    match s.request with
    | some k => s.connectDone attempts user k
    | none => some s
  | .closeDone k =>
    if s.socketIs k (·.closeState = .closing) ∧ s.request ≠ some k then
      s.onSocket k fun socket => ({ socket with closeState := .closed } : Socket).release
    else some s
  | .drop k =>
    if s.socketIs k (0 < ·.refs) then
      s.onSocket k fun socket => ({ socket with refs := socket.refs - 1 } : Socket).release
    else some s

end Connecting

/-- The first attempt that connects, of `n`. -/
def firstConnected (attempts : Nat → Attempt) (n : Nat) : Option Nat :=
  (List.range n).find? fun k => (attempts k).code = 0

/-- How many of `n` addresses are to be tried. -/
def attempted (attempts : Nat → Attempt) (n : Nat) : Nat :=
  match firstConnected attempts n with
  | some k => k + 1
  | none => n

/-- What the user is to be told: the socket that connected, or the last error. -/
def outcome (attempts : Nat → Attempt) (n : Nat) : Except ConnectError Nat :=
  match firstConnected attempts n with
  | some k => .ok k
  | none => .error (.connect (attempts (n - 1)).code)

namespace Connecting

variable {α : Type}

/-- The addresses are tried in order, and the user is called when no request is pending any more:
then the pack is gone, and the close callback is all that refers to the sockets that failed. -/
structure Settles (attempts : Nat → Attempt) (addresses : List α) (s : Connecting α) : Prop where
  inOrder : s.tried <+: addresses.take (attempted attempts addresses.length)
  waits : s.request ≠ none → s.calls = [] ∧ s.packDeletes = 0
  once : s.request = none → s.tried = addresses.take (attempted attempts addresses.length) ∧
    s.calls = [outcome attempts addresses.length] ∧ s.packDeletes = 1
  released : ∀ k socket, s.sockets[k]? = some socket → (attempts k).code ≠ 0 →
    s.request ≠ some k → socket.closeState ≠ .opened ∧
      socket.counter.useCount = socket.closeState.refs

end Connecting

namespace Socket

/-- A socket that is there, with `n` references besides those of the user and of the close
callback. -/
structure Held (s : Socket) (n : Nat) : Prop where
  live : s.deletes = 0
  count : s.counter.useCount = s.refs + s.closeState.refs + n
  destroyed : s.counter.isDestroyed = true ↔ s.closeState ≠ .opened

structure Gone (s : Socket) : Prop where
  deleted : s.deletes = 1
  closed : s.closeState = .closed
  refs : s.refs = 0
  count : s.counter.useCount = 0

def Dropped (s : Socket) : Prop := s.Held 0 ∧ 0 < s.counter.useCount ∨ s.Gone

/-- The last of the references besides the user's and the close callback's is dropped. -/
theorem release_dropped (s : Socket) (hs : s.Held 1) :
    ∃ t, s.release = some t ∧ t.Dropped ∧ t.refs = s.refs := by
  have hcount := hs.count
  by_cases hpos : 1 < s.counter.useCount
  · have hrel : s.release = some { s with
        counter := { s.counter with useCount := s.counter.useCount - 1 } } := by
      rw [release, Counter.release_referenced _ hpos]
      rfl
    refine ⟨_, hrel, .inl ⟨⟨hs.live, ?_, hs.destroyed⟩, Nat.sub_pos_of_lt hpos⟩, rfl⟩
    change s.counter.useCount - 1 = s.refs + s.closeState.refs + 0
    omega
  · have hlast : s.counter.useCount = 1 := by omega
    have hrefs : s.refs = 0 := by omega
    have hclose : s.closeState.refs = 0 := by omega
    cases hd : s.counter.isDestroyed with
    | false =>
      have hopen : s.closeState = .opened := by
        by_contra h
        rw [hs.destroyed.mpr h] at hd
        cases hd
      have hrel : s.release = some { s with counter := ⟨1, true⟩, closeState := .closing } := by
        rw [release, Counter.release_last _ hlast, hd]
        simp [closeHandle, hopen, retain, Counter.retain, useCountLimit]
      refine ⟨_, hrel, .inl ⟨⟨hs.live, ?_, ?_⟩, Nat.one_pos⟩, rfl⟩
      · change 1 = s.refs + 1 + 0
        rw [hrefs]
      · exact iff_of_true rfl (by simp)
    | true =>
      have hclosed : s.closeState = .closed := by
        cases h : s.closeState with
        | opened => exact absurd h (hs.destroyed.mp hd)
        | closing =>
          rw [h] at hclose
          cases hclose
        | closed => rfl
      have hrel : s.release = some { s with counter := ⟨0, true⟩, deletes := s.deletes + 1 } := by
        rw [release, Counter.release_last _ hlast, hd]
        rfl
      refine ⟨_, hrel, .inr ⟨?_, hclosed, hrefs, rfl⟩, rfl⟩
      change s.deletes + 1 = 1
      rw [hs.live]

theorem closed_dropped (s : Socket) (hs : s.Dropped) (hclosing : s.closeState = .closing) :
    s.deletes = 0 ∧ ∃ t, ({ s with closeState := .closed } : Socket).release = some t ∧
      t.Dropped ∧ t.refs = s.refs := by
  rcases hs with ⟨hheld, -⟩ | hgone
  · refine ⟨hheld.live, release_dropped _ ⟨hheld.live, ?_, ?_⟩⟩
    · have hcount := hheld.count
      rw [hclosing] at hcount
      exact hcount
    · refine iff_of_true (hheld.destroyed.mpr ?_) nofun
      rw [hclosing]
      exact nofun
  · rw [hgone.closed] at hclosing
    cases hclosing

theorem refDropped (s : Socket) (hs : s.Dropped) (hrefs : 0 < s.refs) :
    s.deletes = 0 ∧ ∃ t, ({ s with refs := s.refs - 1 } : Socket).release = some t ∧
      t.Dropped ∧ t.refs = s.refs - 1 := by
  rcases hs with ⟨hheld, -⟩ | hgone
  · refine ⟨hheld.live, release_dropped _ ⟨hheld.live, ?_, hheld.destroyed⟩⟩
    have hcount := hheld.count
    change s.counter.useCount = s.refs - 1 + s.closeState.refs + 1
    omega
  · rw [hgone.refs] at hrefs
    cases hrefs

theorem copies_eq (n : Nat) (h : n + 1 < useCountLimit) :
    copy^[n] init = ⟨⟨n + 1, false⟩, .opened, n, 0⟩ := by
  induction n with
  | zero => rfl
  | succ n ih =>
    rw [Function.iterate_succ_apply', ih (by omega), copy, retain, Counter.retain_of_lt _ h]

theorem use_held (user : UserCallback) : (user.use init).Held 1 := by
  have hroom := user.room
  rw [UserCallback.use, copies_eq user.copies (by omega)]
  cases user.destroys with
  | false => exact ⟨rfl, rfl, iff_of_false nofun fun h => h rfl⟩
  | true =>
    refine ⟨rfl, ?_, iff_of_true rfl nofun⟩
    change (user.copies + 1 + 1) % useCountLimit = user.copies + 1 + 1
    exact Nat.mod_eq_of_lt hroom

end Socket

section
variable {attempts : Nat → Attempt} {n k : Nat}

theorem firstConnected_eq_some (hk : k < n) (hfailed : ∀ j < k, (attempts j).code ≠ 0)
    (hcode : (attempts k).code = 0) : firstConnected attempts n = some k := by
  rw [firstConnected, List.find?_range_eq_some]
  refine ⟨by simpa using hcode, List.mem_range.mpr hk, ?_⟩
  intro j hj
  simpa using hfailed j hj

theorem firstConnected_eq_none (hfailed : ∀ j < n, (attempts j).code ≠ 0) :
    firstConnected attempts n = none := by
  rw [firstConnected, List.find?_range_eq_none]
  intro j hj
  simpa using hfailed j hj

theorem lt_attempted (hk : k < n) (hfailed : ∀ j < k, (attempts j).code ≠ 0) :
    k < attempted attempts n := by
  unfold attempted
  cases h : firstConnected attempts n with
  | none => exact hk
  | some i =>
    have hcode : (attempts i).code = 0 := by simpa using List.find?_some h
    have hle : k ≤ i := Nat.le_of_not_lt fun hi => hfailed i hi hcode
    exact Nat.lt_succ_of_le hle

end

namespace Connecting

variable {α : Type} (attempts : Nat → Attempt) (user : UserCallback) (addresses : List α)

/-- The pack has no reference to any of the sockets, nor the user to one that failed. -/
def Left (sockets : List Socket) : Prop :=
  ∀ k socket, sockets[k]? = some socket →
    socket.Dropped ∧ ((attempts k).code ≠ 0 → socket.refs = 0)

/-- Before attempt `k`, or behind the last one, with the socket of the attempt before in the
pack. -/
def starting (k : Nat) (sockets : List Socket) (socket : Option Nat)
    (calls : List (Except ConnectError Nat)) : Connecting α :=
  ⟨some ⟨addresses.drop k, socket⟩, 0, false, none, sockets, addresses.take k, calls⟩

/-- Attempt `k` waits for its callback. -/
def waiting (k : Nat) (old : List Socket) : Connecting α :=
  ⟨some ⟨addresses.drop k, some k⟩, 0, false, some k, old ++ [Socket.init.retain],
    addresses.take (k + 1), []⟩

/-- The user was called after `k` attempts. -/
def finished (k : Nat) (sockets : List Socket) (result : Except ConnectError Nat) : Connecting α :=
  ⟨none, 1, false, none, sockets, addresses.take k, [result]⟩

/-- The sockets before attempt `k`: the last one, if any, is the pack's. -/
def Ready (k : Nat) (sockets : List Socket) (socket : Option Nat) : Prop :=
  k = 0 ∧ sockets = [] ∧ socket = none ∨
    ∃ old, Left attempts old ∧ sockets = old ++ [Socket.init] ∧ socket = some old.length ∧
      old.length + 1 = k

/-- A run is at an attempt from `k` on that waits, all before it having failed. -/
def Waits (k : Nat) (s : Connecting α) : Prop :=
  ∃ i old, k ≤ i ∧ s = waiting addresses i old ∧ Left attempts old ∧ old.length = i ∧
    i < addresses.length ∧ (attempts i).ret = 0 ∧ ∀ j < i, (attempts j).code ≠ 0

def Finished (s : Connecting α) : Prop :=
  ∃ sockets, s = finished addresses (attempted attempts addresses.length) sockets
    (outcome attempts addresses.length) ∧ Left attempts sockets

variable {attempts addresses}

theorem Waits.mono {j k : Nat} {s : Connecting α} (hs : Waits attempts addresses k s)
    (hle : j ≤ k) : Waits attempts addresses j s := by
  obtain ⟨i, old, hi, hw⟩ := hs
  exact ⟨i, old, Nat.le_trans hle hi, hw⟩

theorem left_append {old : List Socket} {socket : Socket} (hold : Left attempts old)
    (hsocket : socket.Dropped) (hrefs : (attempts old.length).code ≠ 0 → socket.refs = 0) :
    Left attempts (old ++ [socket]) := by
  intro k t ht
  rw [List.getElem?_append] at ht
  split_ifs at ht with hk
  · exact hold k t ht
  · rw [List.getElem?_singleton] at ht
    split_ifs at ht with hlast
    cases ht
    obtain rfl : k = old.length := by omega
    exact ⟨hsocket, hrefs⟩

theorem left_set {sockets : List Socket} {socket : Socket} (k : Nat) (h : Left attempts sockets)
    (hsocket : socket.Dropped) (hrefs : (attempts k).code ≠ 0 → socket.refs = 0) :
    Left attempts (sockets.set k socket) := by
  intro j t ht
  rw [List.getElem?_set] at ht
  split_ifs at ht with hj hk
  · cases ht
    rw [← hj]
    exact ⟨hsocket, hrefs⟩
  · exact h j t ht

theorem onSocket_last (s : Connecting α) (old : List Socket) (socket t : Socket)
    (f : Socket → Option Socket) (hs : s.sockets = old ++ [socket]) (hlive : socket.deletes = 0)
    (hf : f socket = some t) :
    s.onSocket old.length f = some { s with sockets := old ++ [t] } := by
  simp [onSocket, hs, hlive, hf]

theorem init_dropped : ∃ t, Socket.init.release = some t ∧ t.Dropped ∧ t.refs = 0 :=
  Socket.release_dropped Socket.init ⟨rfl, rfl, iff_of_false nofun fun h => h rfl⟩

theorem reset_spec (addresses : List α) {k : Nat} {sockets : List Socket} {socket : Option Nat}
    (h : Ready attempts k sockets socket) (calls : List (Except ConnectError Nat)) :
    ∃ left, (starting addresses k sockets socket calls).resetSocket =
      some (starting addresses k left none calls) ∧ Left attempts left ∧ left.length = k := by
  obtain ⟨rfl, rfl, rfl⟩ | ⟨old, hold, rfl, rfl, rfl⟩ := h
  · exact ⟨[], rfl, nofun, rfl⟩
  · obtain ⟨t, ht, hdropped, hrefs⟩ := init_dropped
    refine ⟨old ++ [t], ?_, left_append hold hdropped fun _ => hrefs, by simp⟩
    have hrelease := onSocket_last (starting addresses (old.length + 1) (old ++ [Socket.init])
      (some old.length) calls) old _ _ _ rfl rfl ht
    simp only [resetSocket, starting, Option.bind_eq_bind, Option.bind_some] at hrelease ⊢
    rw [hrelease]
    rfl

/-- The user is called once, and the pack deleted. -/
theorem call_deletePack (addresses : List α) {k : Nat} {sockets : List Socket} {socket : Option Nat}
    (h : Ready attempts k sockets socket) (result : Except ConnectError Nat) :
    ∃ left, ((starting addresses k sockets socket []).call result).bind deletePack =
      some (finished addresses k left result) ∧ Left attempts left := by
  obtain ⟨left, hreset, hleft, -⟩ := reset_spec addresses h [result]
  refine ⟨left, ?_, hleft⟩
  change deletePack (starting addresses k sockets socket [result]) = _
  rw [deletePack, hreset]
  rfl

theorem finished_failed (left : List Socket) (hleft : Left attempts left) (k : Nat)
    (hk : k + 1 = addresses.length) (hfailed : ∀ j < k + 1, (attempts j).code ≠ 0) :
    Finished attempts addresses
      (finished addresses (k + 1) left (.error (.connect (attempts k).code))) := by
  have hnone := firstConnected_eq_none (hk ▸ hfailed)
  refine ⟨left, ?_, hleft⟩
  rw [attempted, outcome, hnone, ← hk]
  rfl

theorem finished_connected (left : List Socket) (hleft : Left attempts left) (k : Nat)
    (hk : k < addresses.length) (hfailed : ∀ j < k, (attempts j).code ≠ 0)
    (hcode : (attempts k).code = 0) :
    Finished attempts addresses (finished addresses (k + 1) left (.ok k)) := by
  refine ⟨left, ?_, hleft⟩
  rw [attempted, outcome, firstConnected_eq_some hk hfailed hcode]

theorem drop_next {k : Nat} {addr : α} {rest : List α} (h : addresses.drop k = addr :: rest) :
    k < addresses.length ∧ addresses.take (k + 1) = addresses.take k ++ [addr] ∧
      addresses.drop (k + 1) = rest := by
  refine ⟨?_, ?_, ?_⟩
  · by_contra hle
    rw [List.drop_eq_nil_of_le (Nat.le_of_not_lt hle)] at h
    cases h
  · have hget : addresses[k]? = some addr := by rw [← List.head?_drop, h]; rfl
    rw [List.take_add_one, hget]
    rfl
  · rw [← List.tail_drop, h]
    rfl

theorem prepare_spec {k : Nat} {addr : α} {rest : List α} {sockets : List Socket}
    {socket : Option Nat} (h : Ready attempts k sockets socket)
    (hdrop : addresses.drop k = addr :: rest) :
    ∃ old, (starting addresses k sockets socket []).prepare addr =
      some { waiting addresses k old with request := none } ∧ Left attempts old ∧
        old.length = k := by
  obtain ⟨old, hreset, hold, rfl⟩ := reset_spec addresses h []
  refine ⟨old, ?_, hold, rfl⟩
  obtain ⟨-, htake, -⟩ := drop_next hdrop
  have hretain := onSocket_last
    { waiting addresses old.length old with request := none, sockets := old ++ [Socket.init] }
    old _ _ (fun socket => some socket.retain) rfl rfl rfl
  simp only [prepare, hreset, Option.bind_eq_bind, Option.bind_some]
  simp only [onPackSocket, starting, Option.bind_eq_bind, Option.bind_some, ← htake]
  exact hretain

theorem release_spec (addresses : List α) {k : Nat} {old : List Socket} (hk : old.length = k) :
    ({ waiting addresses k old with request := none } : Connecting α).onPackSocket Socket.release =
      some { waiting addresses k old with
        request := none, sockets := old ++ [Socket.init] } := by
  subst hk
  exact onSocket_last { waiting addresses old.length old with request := none } old _ _ _ rfl rfl rfl

theorem retry_spec (addresses : List α) {k : Nat} {old : List Socket} (hold : Left attempts old)
    (hk : old.length = k) :
    (({ waiting addresses k old with request := none } : Connecting α).onPackSocket
        Socket.release).bind next =
      some (starting addresses (k + 1) (old ++ [Socket.init]) (some k) []) ∧
      Ready attempts (k + 1) (old ++ [Socket.init]) (some k) := by
  refine ⟨?_, .inr ⟨old, hold, rfl, congrArg some hk.symm, congrArg (· + 1) hk⟩⟩
  rw [release_spec addresses hk]
  simp [next, waiting, starting]

/-- From any attempt on, `connect` comes to one that waits, or calls the user. -/
theorem connect_spec (ai : List α) (k : Nat) (sockets : List Socket) (socket : Option Nat)
    (h : Ready attempts k sockets socket) (hai : addresses.drop k = ai) (hne : ai ≠ [])
    (hfailed : ∀ j < k, (attempts j).code ≠ 0) :
    ∃ t, connect attempts ai (starting addresses k sockets socket []) = some t ∧
      (Waits attempts addresses k t ∨ Finished attempts addresses t) := by
  induction ai generalizing k sockets socket with
  | nil => exact absurd rfl hne
  | cons addr rest ih =>
    have hmade : (starting addresses k sockets socket []).sockets.length = k := by
      obtain ⟨rfl, rfl, -⟩ | ⟨old, -, rfl, -, rfl⟩ := h
      · rfl
      · simp [starting]
    obtain ⟨old, hprepare, hold, hlen⟩ := prepare_spec h hai
    obtain ⟨hk, -, hrest⟩ := drop_next hai
    rw [connect]
    simp only [hmade, hprepare, Option.bind_eq_bind, Option.bind_some]
    by_cases hret : (attempts k).ret = 0
    · rw [if_pos hret]
      exact ⟨_, rfl, .inl ⟨k, old, Nat.le_refl k, rfl, hold, hlen, hk, hret, hfailed⟩⟩
    · rw [if_neg hret]
      have hcode : (attempts k).code = (attempts k).ret := if_pos hret
      have hfailed' : ∀ j < k + 1, (attempts j).code ≠ 0 :=
        Nat.forall_lt_succ_right.mpr ⟨hfailed, by rwa [hcode]⟩
      obtain ⟨hretry, hready⟩ := retry_spec addresses hold hlen
      obtain ⟨released, hrelease, hnext⟩ := Option.bind_eq_some_iff.mp hretry
      simp only [hrelease, hnext, Option.bind_some]
      cases rest with
      | nil =>
        obtain ⟨left, hcall, hleft⟩ := call_deletePack addresses hready
          (.error (.connect (attempts k).ret))
        refine ⟨_, hcall, .inr ?_⟩
        rw [← hcode]
        have hlast : k + 1 = addresses.length :=
          Nat.le_antisymm hk (List.drop_eq_nil_iff.mp hrest)
        exact finished_failed left hleft k hlast hfailed'
      | cons next rest =>
        obtain ⟨t, ht, hreached⟩ := ih (k + 1) _ _ hready hrest (by simp) hfailed'
        exact ⟨t, ht, hreached.imp_left fun hwaits => hwaits.mono (Nat.le_succ k)⟩

/-- The socket that connected goes to the user, who may keep it. -/
theorem connected_spec (addresses : List α) {k : Nat} {old : List Socket} (hold : Left attempts old)
    (hlen : old.length = k) (hcode : (attempts k).code = 0) :
    ∃ left, (((({ waiting addresses k old with
        request := none, sockets := old ++ [Socket.init] } : Connecting α).call (.ok k)).bind
        (onPackSocket · fun socket => some (user.use socket))).bind deletePack) =
      some (finished addresses (k + 1) left (.ok k)) ∧ Left attempts left := by
  subst hlen
  obtain ⟨t, ht, hdropped, -⟩ := Socket.release_dropped _ (Socket.use_held user)
  refine ⟨old ++ [t], ?_, left_append hold hdropped fun h => absurd hcode h⟩
  have huse := onSocket_last { waiting addresses old.length old with
    request := none, sockets := old ++ [Socket.init], calls := [.ok old.length] }
    old _ _ (fun socket => some (user.use socket)) rfl rfl rfl
  have hrelease := onSocket_last { waiting addresses old.length old with
    request := none, sockets := old ++ [user.use Socket.init], calls := [.ok old.length] }
    old _ _ Socket.release rfl (Socket.use_held user).live ht
  simp only [call, waiting, onPackSocket, Option.bind_eq_bind, Option.bind_some, List.nil_append]
    at huse hrelease ⊢
  rw [huse, Option.bind_some, deletePack]
  simp only [resetSocket, Option.bind_eq_bind, Option.bind_some, hrelease]
  rfl

/-- The callback of an attempt comes to a later one that waits, or calls the user. -/
theorem connectDone_spec (addresses : List α) {k : Nat} {old : List Socket}
    (hold : Left attempts old)
    (hlen : old.length = k) (hk : k < addresses.length) (hret : (attempts k).ret = 0)
    (hfailed : ∀ j < k, (attempts j).code ≠ 0) :
    ∃ t, (waiting addresses k old).connectDone attempts user k = some t ∧
      (Waits attempts addresses (k + 1) t ∨ Finished attempts addresses t) := by
  have hcode : (attempts k).code = (attempts k).status := if_neg (not_not.mpr hret)
  have hrelease := release_spec addresses hlen
  simp only [connectDone, hrelease, Option.bind_eq_bind, Option.bind_some]
  by_cases hstatus : (attempts k).status = 0
  · rw [if_pos hstatus]
    obtain ⟨left, hcall, hleft⟩ :=
      connected_spec user addresses hold hlen (hcode.trans hstatus)
    rw [Option.bind_assoc] at hcall
    exact ⟨_, hcall, .inr (finished_connected left hleft k hk hfailed (hcode.trans hstatus))⟩
  · rw [if_neg hstatus]
    have hfailed' : ∀ j < k + 1, (attempts j).code ≠ 0 :=
      Nat.forall_lt_succ_right.mpr ⟨hfailed, by rwa [hcode]⟩
    obtain ⟨hretry, hready⟩ := retry_spec addresses hold hlen
    rw [hrelease, Option.bind_some] at hretry
    rw [hretry]
    cases hrest : addresses.drop (k + 1) with
    | nil =>
      obtain ⟨left, hcall, hleft⟩ := call_deletePack addresses hready
        (.error (.connect (attempts k).status))
      simp only [Option.bind_some, starting, hrest] at hcall ⊢
      refine ⟨_, hcall, .inr ?_⟩
      rw [← hcode]
      exact finished_failed left hleft k (Nat.le_antisymm hk (List.drop_eq_nil_iff.mp hrest)) hfailed'
    | cons addr rest =>
      obtain ⟨t, ht, hreached⟩ := connect_spec (addr :: rest) (k + 1) _ _ hready hrest (by simp)
        hfailed'
      simp only [Option.bind_some, starting, hrest] at ht ⊢
      exact ⟨t, ht, hreached⟩

/-- A close callback, or the user dropping a reference, only concerns the socket itself. -/
theorem onSocket_left (s : Connecting α) (k : Nat) (sockets after : List Socket)
    (f : Socket → Option Socket) (socket : Socket) (hs : s.sockets = sockets ++ after)
    (hleft : Left attempts sockets) (hk : sockets[k]? = some socket)
    (hf : socket.deletes = 0 ∧ ∃ t, f socket = some t ∧ t.Dropped ∧ t.refs ≤ socket.refs) :
    ∃ left, s.onSocket k f = some { s with sockets := left ++ after } ∧ Left attempts left ∧
      left.length = sockets.length := by
  obtain ⟨hlive, t, ht, hdropped, hrefs⟩ := hf
  obtain ⟨hlt, -⟩ := List.getElem?_eq_some_iff.mp hk
  refine ⟨sockets.set k t, ?_, left_set k hleft hdropped ?_, List.length_set⟩
  · have hget : s.sockets[k]? = some socket := by rw [hs, List.getElem?_append_left hlt, hk]
    simp only [onSocket, hget, hlive, ht, Option.bind_eq_bind, Option.bind_some, if_true]
    rw [hs, List.set_append_left k t hlt]
  · intro hfailed
    have hnone := (hleft k socket hk).2 hfailed
    omega

theorem socketIs_left {s : Connecting α} {sockets after : List Socket} {k : Nat} {p : Socket → Bool}
    (hs : s.sockets = sockets ++ after) (hafter : ∀ socket ∈ after, p socket = false)
    (h : s.socketIs k p = true) : ∃ socket, sockets[k]? = some socket ∧ p socket = true := by
  obtain ⟨socket, hget, hp⟩ : ∃ socket, s.sockets[k]? = some socket ∧ p socket = true := by
    simpa [socketIs, Option.any_eq_true] using h
  rw [hs, List.getElem?_append] at hget
  split_ifs at hget with hk
  · exact ⟨socket, hget, hp⟩
  · rw [hafter socket (List.mem_of_getElem? hget)] at hp
    cases hp

/-- Where no request calls back, the sockets of the attempts before are all that changes. -/
theorem step_left (s : Connecting α) (sockets after : List Socket) (label : Label α)
    (hs : s.sockets = sockets ++ after) (hleft : Left attempts sockets)
    (hafter : ∀ socket ∈ after, socket.closeState = .opened ∧ socket.refs = 0)
    (hlookup : s.lookup = false) (hrequest : s.request = none ∨ ¬label.isConnectDone) :
    ∃ left, s.step attempts user label = some { s with sockets := left ++ after } ∧
      Left attempts left ∧ left.length = sockets.length := by
  have hsame : s = { s with sockets := sockets ++ after } := by rw [← hs]
  cases label with
  | lookupDone result =>
    refine ⟨sockets, ?_, hleft, rfl⟩
    rw [← hsame, step, hlookup]
    rfl
  | connectDone =>
    refine ⟨sockets, ?_, hleft, rfl⟩
    rw [← hsame, step, hrequest.resolve_right (not_not.mpr rfl)]
  | closeDone k =>
    rw [step]
    split_ifs with hoccurs
    · obtain ⟨socket, hget, hclosing⟩ := socketIs_left hs
        (by intro socket hmem; simp [(hafter socket hmem).1]) hoccurs.1
      obtain ⟨hlive, t, ht, hdropped, hrefs⟩ :=
        socket.closed_dropped (hleft k socket hget).1 (by simpa using hclosing)
      exact onSocket_left s k sockets after _ socket hs hleft hget
        ⟨hlive, t, ht, hdropped, hrefs.le⟩
    · exact ⟨sockets, by rw [← hsame], hleft, rfl⟩
  | drop k =>
    rw [step]
    split_ifs with hoccurs
    · obtain ⟨socket, hget, hpos⟩ := socketIs_left hs
        (by intro socket hmem; simp [(hafter socket hmem).2]) hoccurs
      obtain ⟨hlive, t, ht, hdropped, hrefs⟩ :=
        socket.refDropped (hleft k socket hget).1 (by simpa using hpos)
      exact onSocket_left s k sockets after _ socket hs hleft hget
        ⟨hlive, t, ht, hdropped, by omega⟩
    · exact ⟨sockets, by rw [← hsame], hleft, rfl⟩

/-- Each callback of a request takes a run to the next attempt that waits, or to its end. -/
theorem step_waits {s : Connecting α} {k : Nat} (hs : Waits attempts addresses k s)
    (label : Label α) : ∃ t, s.step attempts user label = some t ∧
      (Waits attempts addresses (k + label.isConnectDone.toNat) t ∨
        Finished attempts addresses t) := by
  obtain ⟨i, old, hi, rfl, hold, hlen, hlt, hret, hfailed⟩ := hs
  by_cases hlabel : label.isConnectDone
  · obtain rfl : label = .connectDone := by
      cases label with
      | connectDone => rfl
      | lookupDone | closeDone | drop => cases hlabel
    obtain ⟨t, ht, hreached⟩ :=
      connectDone_spec user addresses hold hlen hlt hret hfailed
    exact ⟨t, ht, hreached.imp_left fun hwaits => hwaits.mono (Nat.succ_le_succ hi)⟩
  · obtain ⟨left, hstep, hleft, hlen'⟩ := step_left user (waiting addresses i old) old
      [Socket.init.retain] label rfl hold (by simp [Socket.init, Socket.retain]) rfl (.inr hlabel)
    refine ⟨_, hstep, .inl ⟨i, left, ?_, rfl, hleft, hlen'.trans hlen, hlt, hret, hfailed⟩⟩
    rw [(Bool.not_eq_true _).mp hlabel]
    exact hi

theorem step_finished {s : Connecting α} (hs : Finished attempts addresses s) (label : Label α) :
    ∃ t, s.step attempts user label = some t ∧ Finished attempts addresses t := by
  obtain ⟨sockets, rfl, hleft⟩ := hs
  obtain ⟨left, hstep, hleft', -⟩ := step_left user
    (finished addresses (attempted attempts addresses.length) sockets
      (outcome attempts addresses.length)) sockets [] label (List.append_nil _).symm hleft nofun rfl
    (.inl rfl)
  refine ⟨_, hstep, left, ?_, hleft'⟩
  rw [List.append_nil]
  rfl

/-- A run is at its end after as many callbacks as there are addresses. -/
theorem run_waits (labels : List (Label α)) (s : Connecting α) (k : Nat)
    (hs : Waits attempts addresses k s ∨ Finished attempts addresses s) :
    ∃ t, run (step attempts user) s labels = some t ∧
      (Waits attempts addresses (k + labels.countP Label.isConnectDone) t ∨
        Finished attempts addresses t) := by
  induction labels generalizing s k with
  | nil => exact ⟨s, rfl, hs⟩
  | cons label labels ih =>
    have hstep : ∃ t, s.step attempts user label = some t ∧
        (Waits attempts addresses (k + label.isConnectDone.toNat) t ∨
          Finished attempts addresses t) := by
      rcases hs with hwaits | hfinished
      · exact step_waits user hwaits label
      · obtain ⟨t, ht, hfinished⟩ := step_finished user hfinished label
        exact ⟨t, ht, .inr hfinished⟩
    obtain ⟨t, ht, hreached⟩ := hstep
    obtain ⟨u, hu, hreached⟩ := ih t _ hreached
    refine ⟨u, by rw [run_cons, ht]; exact hu, ?_⟩
    have hcount : k + (label :: labels).countP Label.isConnectDone =
        k + label.isConnectDone.toNat + labels.countP Label.isConnectDone := by
      rw [List.countP_cons]
      cases label.isConnectDone with
      | false => rfl
      | true =>
        simp only [if_true, Bool.toNat_true]
        omega
    rwa [hcount]

/-- A socket that the pack and the user have dropped is closed, and has no other reference. -/
theorem dropped_closed {socket : Socket} (h : socket.Dropped) (hrefs : socket.refs = 0) :
    socket.closeState ≠ .opened ∧ socket.counter.useCount = socket.closeState.refs := by
  rcases h with ⟨hheld, hpos⟩ | hgone
  · have hcount := hheld.count
    rw [hrefs, Nat.zero_add, Nat.add_zero] at hcount
    refine ⟨?_, hcount⟩
    intro hopen
    rw [hcount, hopen] at hpos
    cases hpos
  · rw [hgone.count, hgone.closed]
    exact ⟨nofun, rfl⟩

theorem Waits.settles {s : Connecting α} {k : Nat} (hs : Waits attempts addresses k s) :
    s.Settles attempts addresses := by
  obtain ⟨i, old, -, rfl, hold, hlen, hlt, -, hfailed⟩ := hs
  refine ⟨?_, fun _ => ⟨rfl, rfl⟩, nofun, ?_⟩
  · exact List.take_prefix_take_left (lt_attempted hlt hfailed)
  · intro j socket hget hcode hj
    rw [waiting, List.getElem?_append] at hget
    split_ifs at hget with hlt
    · obtain ⟨hdropped, hrefs⟩ := hold j socket hget
      exact dropped_closed hdropped (hrefs hcode)
    · rw [List.getElem?_singleton] at hget
      split_ifs at hget with hlast
      have hji : j = i := by omega
      exact absurd (congrArg some hji.symm) hj

theorem Finished.settles {s : Connecting α} (hs : Finished attempts addresses s) :
    s.Settles attempts addresses := by
  obtain ⟨sockets, rfl, hleft⟩ := hs
  refine ⟨List.prefix_rfl, fun h => absurd rfl h, fun _ => ⟨rfl, rfl, rfl⟩, ?_⟩
  intro j socket hget hcode _
  obtain ⟨hdropped, hrefs⟩ := hleft j socket hget
  exact dropped_closed hdropped (hrefs hcode)

/-- However the attempts end and whenever libuv calls back, nothing deleted is used, and after as
many callbacks as there are addresses the user has been called. -/
theorem connect_calls_once (hne : addresses ≠ []) (labels : List (Label α)) :
    ∃ s, run (step attempts user) init (.lookupDone (.ok addresses) :: labels) = some s ∧
      s.Settles attempts addresses ∧
      (addresses.length ≤ labels.countP Label.isConnectDone → s.request = none) := by
  have hready : Ready attempts 0 [] none := .inl ⟨rfl, rfl, rfl⟩
  obtain ⟨s, hs, hreached⟩ := connect_spec addresses 0 [] none hready rfl hne nofun
  obtain ⟨t, ht, hreached⟩ := run_waits user labels s 0 hreached
  have hlookup : (init : Connecting α).step attempts user (.lookupDone (.ok addresses)) = some s :=
    hs
  refine ⟨t, by rw [run_cons, hlookup]; exact ht, ?_⟩
  rcases hreached with hwaits | hfinished
  · refine ⟨hwaits.settles, ?_⟩
    intro hcount
    obtain ⟨i, old, hi, -, -, -, hlt, -⟩ := hwaits
    omega
  · refine ⟨hfinished.settles, ?_⟩
    intro _
    obtain ⟨sockets, rfl, -⟩ := hfinished
    rfl

/-- When the lookup fails, the user is told its error, and the pack is deleted as well. -/
theorem lookup_failed (attempts : Nat → Attempt) (status : Int) (labels : List (Label α)) :
    run (step attempts user) init (.lookupDone (.error status) :: labels) =
      some ⟨none, 1, false, none, [], [], [.error (.lookup status)]⟩ := by
  have hend (s : Connecting α) (hs : s = ⟨none, 1, false, none, [], [], s.calls⟩) :
      run (step attempts user) s labels = some s := by
    induction labels with
    | nil => rfl
    | cons label labels ih =>
      have hstep : s.step attempts user label = some s := by
        rw [hs]
        cases label <;> rfl
      rw [run_cons, hstep]
      exact ih
  exact hend ⟨none, 1, false, none, [], [], [.error (.lookup status)]⟩ rfl

def thirdConnects (k : Nat) : Attempt := ⟨0, if k = 0 then -101 else if k = 1 then -111 else 0⟩

theorem connect_calls_once_third :
    ∃ s, run (step thirdConnects ⟨1, false, by decide⟩) init
      [.lookupDone (.ok [10, 20, 30]), .connectDone, .closeDone 0, .connectDone, .closeDone 1,
        .connectDone, .drop 2, .closeDone 2] = some s ∧
      s.Settles thirdConnects [10, 20, 30] ∧ s.request = none ∧ s.calls = [.ok 2] := by
  obtain ⟨s, hrun, hsettles, hrequest⟩ := @connect_calls_once Nat thirdConnects
    ⟨1, false, by decide⟩ [10, 20, 30] (by decide)
    [.connectDone, .closeDone 0, .connectDone, .closeDone 1, .connectDone, .drop 2, .closeDone 2]
  have hnone : s.request = none := hrequest (by decide)
  obtain ⟨-, hcalls, -⟩ := hsettles.once hnone
  refine ⟨s, hrun, hsettles, hnone, hcalls.trans ?_⟩
  decide

end Connecting

end Libnodecc.Tcp
