import Libnodecc.Stream.Lifetime
import Mathlib.Data.List.Nodup

namespace Libnodecc.Http

open Libnodecc.Object Libnodecc.Stream

/-- What is left to do on the C++ stack. -/
inductive ServerFrame where
  /-- The server's listener for the `destroy_event` of client `k`, behind `res->destroy()`. -/
  | listener (k : Nat)
  /-- `destroy()` of client `k`, behind the server's listener. -/
  | client (k : Nat)
  /-- The loop of `server::_destroy`, behind its call of `destroy()` for client `k`. -/
  | loop (k : Nat)
  /-- `destroy()` of the server behind its call of `_destroy()`. -/
  | destroying
  /-- `release()` of the server behind its call of `_destroy()`. -/
  | releasing
  deriving DecidableEq

def ServerFrame.isLoop : ServerFrame → Bool
  | .loop _ => true
  | _ => false

/-- The frames of a call of `destroy()` for a client. -/
def ServerFrame.isClient : ServerFrame → Bool
  | .listener _ | .client _ => true
  | _ => false

/-- An `http::server`. `refs` are its `shared_ptr`s, and `isDestroyed` is the flag that it shares
with the listeners of its clients. The clients are numbered as they are accepted, and so are the
nodes of the list. `destroyed` and `erased` tell for which clients `destroy()` and `erase` ran. -/
structure HttpServer where
  counter : Counter
  refs : Nat
  closeState : CloseState
  deletes : Nat
  isDestroyed : Bool
  clients : List Nat
  accepted : Nat
  destroyed : List Nat
  erased : List Nat
  stack : List ServerFrame
  deriving DecidableEq

/-- What libuv calls back, and what user code calls, in a listener or outside. A client is destroyed
by its peer, too. -/
inductive ServerLabel where
  | accept
  | destroyClient (k : Nat)
  | copy
  | drop
  | destroy
  | closeDone
  | proceed
  deriving DecidableEq

namespace HttpServer

def init : HttpServer := ⟨.fresh, 1, .opened, 0, false, [], 0, [], [], []⟩

def push (s : HttpServer) (f : ServerFrame) : HttpServer := { s with stack := f :: s.stack }

/-- The listener for `connection_event`. -/
def accept (s : HttpServer) : HttpServer :=
  { s with clients := s.accepted :: s.clients, accepted := s.accepted + 1 }

/-- `object::destroy` of a client, as far as the server's listener for its `destroy_event`. -/
def destroyClient (s : HttpServer) (k : Nat) : HttpServer :=
  if k ∈ s.destroyed then s
  else { s with destroyed := s.destroyed ++ [k] }.push (.listener k)

/-- The end of that listener. `none` is an `erase` without the server or without the node. -/
def eraseClient (s : HttpServer) (k : Nat) : Option HttpServer :=
  if s.isDestroyed then some s
  else if s.deletes = 0 ∧ k ∈ s.clients then
    some { s with clients := s.clients.erase k, erased := s.erased ++ [k] }
  else none

/-- `handle::_destroy` up to the `destroy_event`. -/
def closeHandle (s : HttpServer) : HttpServer :=
  if s.closeState = .opened then { s with counter := s.counter.retain, closeState := .closing }
  else s

/-- The loop of `server::_destroy` from the first of the nodes `rest` on, and what is behind it. -/
def loopFrom (s : HttpServer) : List Nat → HttpServer
  | k :: _ => (s.push (.loop k)).destroyClient k
  | [] => { s with clients := [] }.closeHandle

/-- `server::_destroy`. -/
def destroyClients (s : HttpServer) : HttpServer :=
    { s with isDestroyed := true }.loopFrom s.clients

/-- `object::destroy` of the server. -/
def destroy (s : HttpServer) : HttpServer :=
  if s.counter.isDestroyed then s
  else
    let counter := { s.counter with isDestroyed := true }
    ({ s with counter := counter }.push .destroying).destroyClients

/-- `object::release` of the server. -/
def release (s : HttpServer) : Option HttpServer :=
  s.counter.release.map fun (counter, released) =>
    let s := { s with counter := counter }
    match released with
    | .referenced => s
    | .destroys => (s.push .releasing).destroyClients
    | .finalises => { s with deletes := s.deletes + 1 }

/-- The nodes behind that of client `k`. -/
def nodesAfter (s : HttpServer) (k : Nat) : List Nat := (s.clients.dropWhile (· ≠ k)).tail

/-- Goes on with the innermost frame. `none` is a use of the deleted server or of a node that is not
in the list. -/
def proceed (s : HttpServer) : Option HttpServer :=
  match s.stack with
  | [] => some s
  | .listener k :: stack => { s with stack := .client k :: stack }.eraseClient k
  | .client _ :: stack => some { s with stack := stack }
  | .loop k :: stack =>
    if s.deletes = 0 ∧ k ∈ s.clients then some ({ s with stack := stack }.loopFrom (s.nodesAfter k))
    else none
  | .destroying :: stack => if s.deletes = 0 then some { s with stack := stack } else none
  | .releasing :: stack =>
    if s.deletes = 0 then
      if s.counter.useCount > 0 then some { s with stack := stack }
      else some { s with stack := stack, deletes := s.deletes + 1 }
    else none

/-- User code runs outside of the library, or in a listener. -/
def userRuns (s : HttpServer) : Bool :=
  match s.stack with
  | .loop _ :: _ => false
  | _ => true

/-- libuv calls back from its loop only; user code gets at the server through a `shared_ptr`. -/
def Occurs (s : HttpServer) : ServerLabel → Prop
  | .accept => s.stack = [] ∧ s.closeState = .opened
  | .destroyClient k => s.userRuns ∧ k < s.accepted
  | .copy | .drop | .destroy => s.userRuns ∧ 0 < s.refs
  | .closeDone => s.stack = [] ∧ s.closeState = .closing
  | .proceed => s.stack ≠ []

instance (s : HttpServer) : ∀ label, Decidable (s.Occurs label)
  | .accept => inferInstanceAs (Decidable (s.stack = [] ∧ s.closeState = .opened))
  | .destroyClient k => inferInstanceAs (Decidable (s.userRuns ∧ k < s.accepted))
  | .copy | .drop | .destroy => inferInstanceAs (Decidable (s.userRuns ∧ 0 < s.refs))
  | .closeDone => inferInstanceAs (Decidable (s.stack = [] ∧ s.closeState = .closing))
  | .proceed => inferInstanceAs (Decidable (s.stack ≠ []))

def perform (s : HttpServer) : ServerLabel → Option HttpServer
  | .accept => if s.deletes = 0 then some s.accept else none
  | .destroyClient k => some (s.destroyClient k)
  | .copy =>
    if s.deletes = 0 then some { s with counter := s.counter.retain, refs := s.refs + 1 } else none
  | .drop => if s.deletes = 0 then { s with refs := s.refs - 1 }.release else none
  | .destroy => if s.deletes = 0 then some s.destroy else none
  | .closeDone => if s.deletes = 0 then { s with closeState := .closed }.release else none
  | .proceed => s.proceed

def step (s : HttpServer) (label : ServerLabel) : Option HttpServer :=
  if s.Occurs label then s.perform label else some s

/-- The step retains the server, for a `shared_ptr` or for `uv_close`. -/
def retains (s : HttpServer) : ServerLabel → Bool
  | .copy => true
  | .destroy => !s.counter.isDestroyed && s.clients.isEmpty
  | .proceed =>
    match s.stack with
    | .loop k :: _ => (s.nodesAfter k).isEmpty
    | _ => false
  | _ => false

/-- The last `shared_ptr` is not dropped while the loop of `server::_destroy` runs, and no reference
is added to a count at its limit. -/
def Admitted (s : HttpServer) (label : ServerLabel) : Prop :=
  (label = .drop → s.counter.useCount = 1 → ¬ s.stack.any ServerFrame.isLoop) ∧
    (s.retains label → s.counter.useCount + 1 < useCountLimit)

instance (s : HttpServer) (label : ServerLabel) : Decidable (s.Admitted label) := by
  unfold Admitted
  infer_instance

/-- `_clients` has the accepted sockets that are not destroyed; one that is being destroyed leaves
it in the server's listener, once. No client survives the server. -/
structure Consistent (s : HttpServer) : Prop where
  serving : s.counter.isDestroyed = false → s.clients.Nodup ∧
    ∀ k, k ∈ s.clients ↔ k < s.accepted ∧ (k ∉ s.destroyed ∨ .listener k ∈ s.stack)
  settled : s.stack = [] → s.deletes = 0 → s.clients.Nodup ∧
    ∀ k, k ∈ s.clients ↔ k < s.accepted ∧ k ∉ s.destroyed
  erased : s.erased.Nodup
  remaining : s.stack = [] → s.counter.isDestroyed = true → ∀ k < s.accepted, k ∈ s.destroyed

/-- What the list and the logs have to do with the frames, whether the server is there or not. -/
structure Tracks (s : HttpServer) : Prop where
  bound : ∀ k ∈ s.destroyed, k < s.accepted
  listed : ∀ k ∈ s.clients, k < s.accepted
  once : ∀ k, s.stack.count (.listener k) ≤ 1
  pending : ∀ k, .listener k ∈ s.stack → k ∈ s.destroyed
  nodup : s.clients.Nodup
  erasedNodup : s.erased.Nodup
  erased : ∀ k ∈ s.erased, k ∈ s.destroyed ∧ .listener k ∉ s.stack
  serving : s.isDestroyed = false →
    ∀ k, k ∈ s.clients ↔ k < s.accepted ∧ (k ∉ s.destroyed ∨ .listener k ∈ s.stack)

/-- Before the server is destroyed. -/
structure Serving (s : HttpServer) : Prop where
  live : s.deletes = 0
  counter : s.counter = ⟨s.refs, false⟩
  refs : 0 < s.refs
  flag : s.isDestroyed = false
  opened : s.closeState = .opened
  frames : ∀ f ∈ s.stack, f.isLoop = false

/-- While the loop of `server::_destroy` is at client `k`. -/
structure Looping (s : HttpServer) (k : Nat) (done rest : List Nat) : Prop where
  live : s.deletes = 0
  counter : s.counter = ⟨s.refs, true⟩
  flag : s.isDestroyed = true
  opened : s.closeState = .opened
  frames : ∃ above below, s.stack = above ++ .loop k :: below ∧
    (∀ f ∈ above, f.isClient = true) ∧ ∀ f ∈ below, f.isLoop = false
  clients : s.clients = done ++ k :: rest
  done : ∀ j ∈ done ++ [k], j ∈ s.destroyed
  remaining : ∀ j < s.accepted, j ∉ s.destroyed → j ∈ s.clients

/-- Behind that loop. -/
structure Closed (s : HttpServer) : Prop where
  live : s.deletes = 0
  counter : s.counter = ⟨s.refs + s.closeState.refs, true⟩
  refs : 0 < s.refs + s.closeState.refs
  flag : s.isDestroyed = true
  closing : s.closeState ≠ .opened
  closed : s.closeState = .closed → s.stack = []
  clients : s.clients = []
  destroyed : ∀ k < s.accepted, k ∈ s.destroyed
  frames : ∀ f ∈ s.stack, f.isLoop = false

structure Gone (s : HttpServer) : Prop where
  deleted : s.deletes = 1
  counter : s.counter = ⟨0, true⟩
  refs : s.refs = 0
  flag : s.isDestroyed = true
  closed : s.closeState = .closed
  stack : s.stack = []
  destroyed : ∀ k < s.accepted, k ∈ s.destroyed

def Staged (s : HttpServer) : Prop :=
  s.Serving ∨ (∃ k done rest, s.Looping k done rest) ∨ s.Closed ∨ s.Gone

def Sound (s : HttpServer) : Prop := s.Tracks ∧ s.Staged

section
variable {s t : HttpServer} {k : Nat}

theorem mem_listener_iff (stack : List ServerFrame) (k : Nat) :
    .listener k ∈ stack ↔ 0 < stack.count (.listener k) := List.count_pos_iff.symm

theorem count_cons {f : ServerFrame} {stack : List ServerFrame} (hf : ∀ k, f ≠ .listener k)
    (k : Nat) : (f :: stack).count (.listener k) = stack.count (.listener k) :=
  List.count_cons_of_ne (hf k)

/-- Frames other than those of the server's listeners do not matter. -/
theorem Tracks.congr (hs : s.Tracks) (hbound : t.accepted = s.accepted)
    (hdestroyed : t.destroyed = s.destroyed) (hclients : t.clients = s.clients)
    (herased : t.erased = s.erased) (hflag : t.isDestroyed = false → s.isDestroyed = false)
    (hcount : ∀ k, t.stack.count (.listener k) = s.stack.count (.listener k)) : t.Tracks := by
  have hmem (k : Nat) : .listener k ∈ t.stack ↔ .listener k ∈ s.stack := by
    rw [mem_listener_iff, mem_listener_iff, hcount]
  constructor
  · rw [hdestroyed, hbound]
    exact hs.bound
  · rw [hclients, hbound]
    exact hs.listed
  · intro k
    rw [hcount]
    exact hs.once k
  · intro k hk
    rw [hdestroyed]
    exact hs.pending k ((hmem k).mp hk)
  · rw [hclients]
    exact hs.nodup
  · rw [herased]
    exact hs.erasedNodup
  · intro k hk
    rw [hdestroyed, hmem]
    exact hs.erased k (herased ▸ hk)
  · intro h k
    rw [hclients, hbound, hdestroyed, hmem]
    exact hs.serving (hflag h) k

theorem Tracks.keep (hs : s.Tracks) (counter : Counter) (refs : Nat) (closeState : CloseState)
    (deletes : Nat) : ({ s with
      counter := counter, refs := refs, closeState := closeState, deletes := deletes } :
        HttpServer).Tracks :=
  hs.congr rfl rfl rfl rfl id fun _ => rfl

theorem Tracks.pop {f : ServerFrame} {stack : List ServerFrame} (hs : s.Tracks)
    (hstack : s.stack = f :: stack) (hf : ∀ k, f ≠ .listener k) :
    ({ s with stack := stack } : HttpServer).Tracks := by
  refine hs.congr rfl rfl rfl rfl id ?_
  intro k
  rw [hstack]
  exact (count_cons hf k).symm

theorem accept_tracks (hs : s.Tracks) (hflag : s.isDestroyed = false) : s.accept.Tracks := by
  have hnew : s.accepted ∉ s.destroyed := fun h => Nat.lt_irrefl _ (hs.bound _ h)
  refine ⟨?_, ?_, hs.once, hs.pending, ?_, hs.erasedNodup, hs.erased, ?_⟩
  · intro k hk
    exact Nat.lt_succ_of_lt (hs.bound k hk)
  · intro k hk
    rcases List.mem_cons.mp hk with rfl | hk
    · exact Nat.lt_succ_self _
    · exact Nat.lt_succ_of_lt (hs.listed k hk)
  · exact List.nodup_cons.mpr ⟨fun h => Nat.lt_irrefl _ (hs.listed _ h), hs.nodup⟩
  · intro _ k
    have hk := hs.serving hflag k
    simp only [accept, List.mem_cons, hk]
    constructor
    · rintro (rfl | ⟨hlt, hd⟩)
      · exact ⟨Nat.lt_succ_self _, .inl hnew⟩
      · exact ⟨Nat.lt_succ_of_lt hlt, hd⟩
    · rintro ⟨hlt, hd⟩
      rcases Nat.lt_succ_iff_lt_or_eq.mp hlt with hlt | rfl
      · exact .inr ⟨hlt, hd⟩
      · exact .inl rfl

theorem destroy_again (h : s.counter.isDestroyed = true) : s.destroy = s := if_pos h

theorem destroyClient_again (h : k ∈ s.destroyed) : s.destroyClient k = s := if_pos h

theorem destroyClient_tracks (hs : s.Tracks) (hk : k < s.accepted) :
    (s.destroyClient k).Tracks := by
  unfold destroyClient
  split_ifs with hd
  · exact hs
  · have hnone : ServerFrame.listener k ∉ s.stack := fun h => hd (hs.pending k h)
    have hmem (j : Nat) : ServerFrame.listener j ∈ ServerFrame.listener k :: s.stack ↔
        j = k ∨ ServerFrame.listener j ∈ s.stack := by simp
    refine ⟨?_, hs.listed, ?_, ?_, hs.nodup, hs.erasedNodup, ?_, ?_⟩
    · intro j hj
      rcases List.mem_append.mp hj with hj | hj
      · exact hs.bound j hj
      · rwa [List.mem_singleton.mp hj]
    · intro j
      by_cases hj : k = j
      · subst hj
        simp [push, List.count_eq_zero_of_not_mem hnone]
      · have hne : ServerFrame.listener k ≠ .listener j := fun h => hj (ServerFrame.listener.inj h)
        simp only [push, List.count_cons_of_ne hne]
        exact hs.once j
    · intro j hj
      rcases (hmem j).mp hj with rfl | hj
      · exact List.mem_append_right _ (List.mem_singleton_self j)
      · exact List.mem_append_left _ (hs.pending j hj)
    · intro j hj
      obtain ⟨hdestroyed, hstack⟩ := hs.erased j hj
      refine ⟨List.mem_append_left _ hdestroyed, ?_⟩
      intro h
      rcases (hmem j).mp h with rfl | h
      · exact hd hdestroyed
      · exact hstack h
    · intro hflag j
      have hj := hs.serving hflag j
      simp only [push, hmem, List.mem_append, List.mem_singleton]
      rw [hj]
      by_cases h : j = k
      · subst h
        simp [hd]
      · simp [h]

/-- The server's listener ends: where the server is not destroyed, the node is there to be
erased. -/
theorem eraseClient_tracks {stack : List ServerFrame} (hs : s.Tracks)
    (hstack : s.stack = .listener k :: stack) (hlive : s.isDestroyed = false → s.deletes = 0) :
    ∃ t, ({ s with stack := .client k :: stack } : HttpServer).eraseClient k = some t ∧ t.Tracks ∧
      t = { s with stack := .client k :: stack, clients := t.clients, erased := t.erased } ∧
      (s.isDestroyed = true → t.clients = s.clients) := by
  have hgone : ServerFrame.listener k ∉ stack := by
    intro h
    have honce := hs.once k
    rw [hstack, List.count_cons_self] at honce
    have hpos := List.count_pos_iff.mpr h
    omega
  have hfront : ServerFrame.listener k ∈ s.stack := by simp [hstack]
  have hmem (j : Nat) : ServerFrame.listener j ∈ ServerFrame.client k :: stack ↔
      j ≠ k ∧ ServerFrame.listener j ∈ s.stack := by
    rw [hstack]
    by_cases hj : j = k
    · subst hj
      simp [hgone]
    · simp [hj]
  have honce (j : Nat) : (ServerFrame.client k :: stack).count (.listener j) ≤ 1 := by
    refine Nat.le_trans ?_ (hs.once j)
    have hne : ServerFrame.client k ≠ .listener j := by simp
    rw [hstack, List.count_cons_of_ne hne]
    exact List.count_le_count_cons
  unfold eraseClient
  cases hflag : s.isDestroyed with
  | true =>
    simp only [if_true]
    refine ⟨_, rfl, ⟨hs.bound, hs.listed, honce, ?_, hs.nodup, hs.erasedNodup, ?_, ?_⟩, rfl,
      fun _ => rfl⟩
    · intro j hj
      exact hs.pending j ((hmem j).mp hj).2
    · intro j hj
      obtain ⟨hdestroyed, hnot⟩ := hs.erased j hj
      exact ⟨hdestroyed, fun h => hnot ((hmem j).mp h).2⟩
    · simp
  | false =>
    have hd := hs.pending k hfront
    have hlisted : k ∈ s.clients := (hs.serving hflag k).mpr ⟨hs.bound k hd, .inr hfront⟩
    simp only [Bool.false_eq_true, if_false, hlive hflag, hlisted, and_self, if_true]
    refine ⟨_, rfl, ⟨hs.bound, ?_, honce, ?_, hs.nodup.erase k, ?_, ?_, ?_⟩, rfl, by simp⟩
    · intro j hj
      exact hs.listed j (List.mem_of_mem_erase hj)
    · intro j hj
      exact hs.pending j ((hmem j).mp hj).2
    · refine List.Nodup.append hs.erasedNodup (List.nodup_singleton k) ?_
      intro j hj hjk
      rw [List.mem_singleton.mp hjk] at hj
      exact (hs.erased k hj).2 hfront
    · intro j hj
      rcases List.mem_append.mp hj with hj | hj
      · obtain ⟨hdestroyed, hnot⟩ := hs.erased j hj
        exact ⟨hdestroyed, fun h => hnot ((hmem j).mp h).2⟩
      · rw [List.mem_singleton.mp hj]
        exact ⟨hd, fun h => ((hmem k).mp h).1 rfl⟩
    · intro _ j
      have hj := hs.serving hflag j
      simp only [hs.nodup.mem_erase_iff, hj, hmem]
      by_cases h : j = k
      · subst h
        simp [hd]
      · simp [h]

theorem nodesAfter_eq {done rest : List Nat} (hs : s.Tracks)
    (hclients : s.clients = done ++ k :: rest) : s.nodesAfter k = rest := by
  have hnodup := hs.nodup
  rw [hclients] at hnodup
  have hdone (j : Nat) (hj : j ∈ done) : decide (j ≠ k) = true := by
    have hne := (List.nodup_append.mp hnodup).2.2 j hj k List.mem_cons_self
    simpa using hne
  rw [nodesAfter, hclients, List.dropWhile_append_of_pos hdone]
  simp

/-- From any node on, the loop comes to a client, or closes the server. -/
theorem loopFrom_sound (done rest : List Nat) (hs : s.Tracks) (hlive : s.deletes = 0)
    (hcounter : s.counter = ⟨s.refs, true⟩) (hflag : s.isDestroyed = true)
    (hopen : s.closeState = .opened) (hframes : ∀ f ∈ s.stack, f.isLoop = false)
    (hclients : s.clients = done ++ rest) (hdone : ∀ j ∈ done, j ∈ s.destroyed)
    (hremaining : ∀ j < s.accepted, j ∉ s.destroyed → j ∈ s.clients)
    (hroom : rest = [] → s.refs + 1 < useCountLimit) : (s.loopFrom rest).Sound := by
  cases rest with
  | nil =>
    rw [List.append_nil] at hclients
    have hretain : s.counter.retain = ⟨s.refs + 1, true⟩ := by
      rw [hcounter]
      exact Counter.retain_of_lt _ (hroom rfl)
    have hclosed : s.loopFrom [] =
        { s with clients := [], counter := ⟨s.refs + 1, true⟩, closeState := .closing } := by
      simp [loopFrom, closeHandle, hopen, hretain]
    rw [hclosed]
    refine ⟨⟨hs.bound, by simp, hs.once, hs.pending, List.nodup_nil, hs.erasedNodup, hs.erased, ?_⟩,
      .inr (.inr (.inl ⟨hlive, rfl, Nat.succ_pos _, hflag, by simp, by simp, rfl, ?_, hframes⟩))⟩
    · intro h
      cases hflag.symm.trans h
    · intro j hj
      by_contra hd
      exact hd (hdone j (hclients ▸ hremaining j hj hd))
  | cons k rest =>
    have hk : k < s.accepted := hs.listed k (by simp [hclients])
    have htracks : (s.push (.loop k)).Tracks :=
      hs.congr rfl rfl rfl rfl id (count_cons (by simp))
    refine ⟨destroyClient_tracks htracks hk, .inr (.inl ⟨k, done, rest, ?_⟩)⟩
    change ((s.push (.loop k)).destroyClient k).Looping k done rest
    unfold destroyClient
    split_ifs with hd
    · refine ⟨hlive, hcounter, hflag, hopen, ⟨[], s.stack, rfl, by simp, hframes⟩, hclients, ?_,
        hremaining⟩
      intro j hj
      rcases List.mem_append.mp hj with hj | hj
      · exact hdone j hj
      · rwa [List.mem_singleton.mp hj]
    · refine ⟨hlive, hcounter, hflag, hopen, ⟨[.listener k], s.stack, rfl, ?_, hframes⟩, hclients,
        ?_, ?_⟩
      · intro f hf
        rw [List.mem_singleton.mp hf]
        rfl
      · intro j hj
        rcases List.mem_append.mp hj with hj | hj
        · exact List.mem_append_left _ (hdone j hj)
        · exact List.mem_append_right _ hj
      · intro j hj hnot
        exact hremaining j hj fun h => hnot (List.mem_append_left _ h)

/-- A server that is destroyed begins with its first client. -/
theorem destroyClients_sound (hs : s.Tracks) (hlive : s.deletes = 0) (hflag : s.isDestroyed = false)
    (hopen : s.closeState = .opened) (hframes : ∀ f ∈ s.stack, f.isLoop = false) (f : ServerFrame)
    (hf : f = .destroying ∨ f = .releasing) (hroom : s.clients = [] → s.refs + 1 < useCountLimit) :
    (({ s with counter := ⟨s.refs, true⟩ } : HttpServer).push f).destroyClients.Sound := by
  have hother (k : Nat) : f ≠ .listener k := by
    rcases hf with rfl | rfl <;> simp
  have hloop : f.isLoop = false := by
    rcases hf with rfl | rfl <;> rfl
  have htracks : ({ s with
      counter := ⟨s.refs, true⟩, stack := f :: s.stack, isDestroyed := true } : HttpServer).Tracks :=
    hs.congr rfl rfl rfl rfl (by simp) (count_cons hother)
  refine loopFrom_sound [] _ htracks hlive rfl rfl hopen ?_ rfl (by simp) ?_ hroom
  · exact List.forall_mem_cons.mpr ⟨hloop, hframes⟩
  · intro j hj hd
    exact (hs.serving hflag j).mpr ⟨hj, .inl hd⟩

theorem Serving.sound (hs : s.Serving) (htracks : s.Tracks) : s.Sound := ⟨htracks, .inl hs⟩

theorem Looping.sound (k : Nat) (done rest : List Nat) (hs : s.Looping k done rest)
    (htracks : s.Tracks) : s.Sound := ⟨htracks, .inr (.inl ⟨k, done, rest, hs⟩)⟩

theorem Closed.sound (hs : s.Closed) (htracks : s.Tracks) : s.Sound :=
  ⟨htracks, .inr (.inr (.inl hs))⟩

theorem Gone.sound (hs : s.Gone) (htracks : s.Tracks) : s.Sound :=
  ⟨htracks, .inr (.inr (.inr hs))⟩

/-- Other frames of a server that is not destroyed, which has lost or erased clients. -/
theorem Serving.frames_congr (hs : s.Serving) (hlive : t.deletes = s.deletes)
    (hcounter : t.counter = s.counter) (hrefs : t.refs = s.refs) (hflag : t.isDestroyed = s.isDestroyed)
    (hclose : t.closeState = s.closeState) (hframes : ∀ f ∈ t.stack, f.isLoop = false) :
    t.Serving := by
  refine ⟨?_, ?_, ?_, ?_, ?_, hframes⟩
  · rw [hlive, hs.live]
  · rw [hcounter, hrefs, hs.counter]
  · rw [hrefs]
    exact hs.refs
  · rw [hflag, hs.flag]
  · rw [hclose, hs.opened]

theorem Serving.drop (hs : s.Serving) (htracks : s.Tracks) :
    ∃ t, ({ s with refs := s.refs - 1 } : HttpServer).release = some t ∧ t.Sound := by
  have hrefs := hs.refs
  by_cases hlast : s.refs = 1
  · have hrel : ({ s with refs := s.refs - 1 } : HttpServer).release =
        some (({ s with refs := 0, counter := ⟨0, true⟩ } : HttpServer).push
          .releasing).destroyClients := by
      rw [release, Counter.release_last _ (by rw [hs.counter]; exact hlast), hs.counter, hlast]
      rfl
    refine ⟨_, hrel, ?_⟩
    exact destroyClients_sound (s := { s with refs := 0 })
      (htracks.keep _ _ _ _) hs.live hs.flag hs.opened hs.frames _ (.inr rfl)
      fun _ => (by decide : 0 + 1 < useCountLimit)
  · have hrel : ({ s with refs := s.refs - 1 } : HttpServer).release =
        some { s with refs := s.refs - 1, counter := ⟨s.refs - 1, false⟩ } := by
      rw [release, Counter.release_referenced _ (by rw [hs.counter]; change 1 < s.refs; omega),
        hs.counter]
      rfl
    refine ⟨_, hrel, Serving.sound ?_ (htracks.keep _ _ _ _)⟩
    exact ⟨hs.live, rfl, by change 0 < s.refs - 1; omega, hs.flag, hs.opened, hs.frames⟩

theorem Serving.proceed (hs : s.Serving) (htracks : s.Tracks) :
    ∃ t, s.proceed = some t ∧ t.Sound := by
  have hframes := hs.frames
  unfold HttpServer.proceed
  cases hstack : s.stack with
  | nil => exact ⟨s, rfl, hs.sound htracks⟩
  | cons f stack =>
    rw [hstack] at hframes
    obtain ⟨hf, hbelow⟩ := List.forall_mem_cons.mp hframes
    have hpop (hother : ∀ k, f ≠ .listener k) : ({ s with stack := stack } : HttpServer).Sound := by
      have hserving : ({ s with stack := stack } : HttpServer).Serving :=
        hs.frames_congr rfl rfl rfl rfl rfl hbelow
      exact hserving.sound (htracks.pop hstack hother)
    cases f with
    | listener k =>
      obtain ⟨t, ht, htracks', heq, -⟩ := eraseClient_tracks htracks hstack fun _ => hs.live
      refine ⟨t, ht, Serving.sound ?_ htracks'⟩
      rw [heq]
      exact hs.frames_congr rfl rfl rfl rfl rfl (List.forall_mem_cons.mpr ⟨rfl, hbelow⟩)
    | client k => exact ⟨_, rfl, hpop (by simp)⟩
    | loop k => cases hf
    | destroying => exact ⟨_, if_pos hs.live, hpop (by simp)⟩
    | releasing =>
      have hused : s.counter.useCount > 0 := by
        rw [hs.counter]
        exact hs.refs
      simp only [if_pos hs.live, if_pos hused]
      exact ⟨_, rfl, hpop (by simp)⟩

theorem Serving.perform (hs : s.Serving) (htracks : s.Tracks) (label : ServerLabel)
    (hoccurs : s.Occurs label) (hadmitted : s.Admitted label) :
    ∃ t, s.perform label = some t ∧ t.Sound := by
  have hcounter := hs.counter
  cases label with
  | accept =>
    refine ⟨s.accept, if_pos hs.live, Serving.sound ?_ (accept_tracks htracks hs.flag)⟩
    exact hs.frames_congr rfl rfl rfl rfl rfl hs.frames
  | destroyClient k =>
    refine ⟨s.destroyClient k, rfl, Serving.sound ?_ (destroyClient_tracks htracks hoccurs.2)⟩
    unfold destroyClient
    split_ifs with hd
    · exact hs
    · exact hs.frames_congr rfl rfl rfl rfl rfl (List.forall_mem_cons.mpr ⟨rfl, hs.frames⟩)
  | copy =>
    refine ⟨_, if_pos hs.live, Serving.sound ?_ (htracks.keep _ _ _ _)⟩
    refine ⟨hs.live, ?_, Nat.succ_pos _, hs.flag, hs.opened, hs.frames⟩
    rw [Counter.retain_of_lt _ (hadmitted.2 rfl), hcounter]
  | drop =>
    obtain ⟨t, ht, hsound⟩ := hs.drop htracks
    exact ⟨t, (if_pos hs.live).trans ht, hsound⟩
  | destroy =>
    have hdestroy : s.destroy = (({ s with counter := ⟨s.refs, true⟩ } : HttpServer).push
        .destroying).destroyClients := by
      simp [destroy, hcounter]
    refine ⟨s.destroy, if_pos hs.live, ?_⟩
    rw [hdestroy]
    refine destroyClients_sound htracks hs.live hs.flag hs.opened hs.frames _ (.inl rfl) ?_
    intro hnil
    have hroom := hadmitted.2 (by simp [retains, hcounter, hnil])
    rwa [hcounter] at hroom
  | closeDone =>
    have hclosing := hoccurs.2
    rw [hs.opened] at hclosing
    cases hclosing
  | proceed => exact hs.proceed htracks

theorem Looping.stack_ne {done rest : List Nat} (hs : s.Looping k done rest) : s.stack ≠ [] := by
  obtain ⟨above, below, hstack, -⟩ := hs.frames
  simp [hstack]

/-- While the loop runs, all the frames above it belong to clients. -/
theorem Looping.proceed {done rest : List Nat} (hs : s.Looping k done rest) (htracks : s.Tracks)
    (hadmitted : s.Admitted .proceed) : ∃ t, s.proceed = some t ∧ t.Sound := by
  obtain ⟨above, below, hstack, habove, hbelow⟩ := hs.frames
  unfold HttpServer.proceed
  cases above with
  | nil =>
    have hlisted : k ∈ s.clients := by simp [hs.clients]
    have hafter := nodesAfter_eq htracks hs.clients
    rw [List.nil_append] at hstack
    rw [hstack]
    refine ⟨_, if_pos ⟨hs.live, hlisted⟩, ?_⟩
    rw [hafter]
    have htracks' : ({ s with stack := below } : HttpServer).Tracks := htracks.pop hstack (by simp)
    refine loopFrom_sound (done ++ [k]) rest htracks' hs.live hs.counter hs.flag hs.opened hbelow
      ?_ hs.done hs.remaining ?_
    · rw [List.append_assoc]
      exact hs.clients
    · intro hnil
      have hroom := hadmitted.2 (by simp [retains, hstack, hafter, hnil])
      rwa [hs.counter] at hroom
  | cons f above =>
    obtain ⟨hf, hclient⟩ := List.forall_mem_cons.mp habove
    rw [List.cons_append] at hstack
    cases f with
    | listener j =>
      rw [hstack]
      obtain ⟨t, ht, htracks', heq, hclients⟩ := eraseClient_tracks htracks hstack fun _ => hs.live
      refine ⟨t, ht, Looping.sound k done rest ?_ htracks'⟩
      have hsame := hclients hs.flag
      rw [heq]
      refine ⟨hs.live, hs.counter, hs.flag, hs.opened, ⟨.client j :: above, below, rfl, ?_, hbelow⟩,
        hsame.trans hs.clients, hs.done, ?_⟩
      · exact List.forall_mem_cons.mpr ⟨rfl, hclient⟩
      · change ∀ j < s.accepted, j ∉ s.destroyed → j ∈ t.clients
        rw [hsame]
        exact hs.remaining
    | client j =>
      rw [hstack]
      refine ⟨_, rfl, Looping.sound k done rest ?_ (htracks.pop hstack (by simp))⟩
      exact ⟨hs.live, hs.counter, hs.flag, hs.opened, ⟨above, below, rfl, hclient, hbelow⟩,
        hs.clients, hs.done, hs.remaining⟩
    | loop | destroying | releasing => cases hf

theorem Looping.perform {done rest : List Nat} (hs : s.Looping k done rest) (htracks : s.Tracks)
    (label : ServerLabel) (hoccurs : s.Occurs label) (hadmitted : s.Admitted label) :
    ∃ t, s.perform label = some t ∧ t.Sound := by
  have hcounter := hs.counter
  have hloops : s.stack.any ServerFrame.isLoop = true := by
    obtain ⟨above, below, hstack, -⟩ := hs.frames
    simp [hstack, ServerFrame.isLoop]
  cases label with
  | accept => exact absurd hoccurs.1 hs.stack_ne
  | closeDone => exact absurd hoccurs.1 hs.stack_ne
  | destroyClient j =>
    refine ⟨s.destroyClient j, rfl,
      Looping.sound k done rest ?_ (destroyClient_tracks htracks hoccurs.2)⟩
    obtain ⟨above, below, hstack, habove, hbelow⟩ := hs.frames
    unfold destroyClient
    split_ifs with hd
    · exact hs
    · refine ⟨hs.live, hcounter, hs.flag, hs.opened,
        ⟨.listener j :: above, below, congrArg (ServerFrame.listener j :: ·) hstack, ?_, hbelow⟩,
        hs.clients, ?_, ?_⟩
      · exact List.forall_mem_cons.mpr ⟨rfl, habove⟩
      · intro i hi
        exact List.mem_append_left _ (hs.done i hi)
      · intro i hi hnot
        exact hs.remaining i hi fun h => hnot (List.mem_append_left _ h)
  | copy =>
    refine ⟨_, if_pos hs.live, Looping.sound k done rest ?_ (htracks.keep _ _ _ _)⟩
    refine ⟨hs.live, ?_, hs.flag, hs.opened, hs.frames, hs.clients, hs.done, hs.remaining⟩
    rw [Counter.retain_of_lt _ (hadmitted.2 rfl), hcounter]
  | drop =>
    have hrefs : 0 < s.refs := hoccurs.2
    have hmore : s.refs ≠ 1 := by
      intro h
      exact hadmitted.1 rfl (by rw [hcounter]; exact h) hloops
    have hrel : ({ s with refs := s.refs - 1 } : HttpServer).release =
        some { s with refs := s.refs - 1, counter := ⟨s.refs - 1, true⟩ } := by
      rw [release, Counter.release_referenced _ (by rw [hcounter]; change 1 < s.refs; omega),
        hcounter]
      rfl
    refine ⟨_, (if_pos hs.live).trans hrel, Looping.sound k done rest ?_ (htracks.keep _ _ _ _)⟩
    exact ⟨hs.live, rfl, hs.flag, hs.opened, hs.frames, hs.clients, hs.done, hs.remaining⟩
  | destroy =>
    have hdestroy : s.destroy = s := destroy_again (by rw [hcounter])
    exact ⟨s, (if_pos hs.live).trans (by rw [hdestroy]), hs.sound k done rest htracks⟩
  | proceed => exact hs.proceed htracks hadmitted

/-- The last release deletes a server that is closed. -/
theorem Closed.release (hs : s.Tracks) (hlive : s.deletes = 0)
    (hcounter : s.counter = ⟨s.refs + s.closeState.refs + 1, true⟩) (hflag : s.isDestroyed = true)
    (hclosing : s.closeState ≠ .opened) (hclosed : s.closeState = .closed → s.stack = [])
    (hclients : s.clients = []) (hdestroyed : ∀ k < s.accepted, k ∈ s.destroyed)
    (hframes : ∀ f ∈ s.stack, f.isLoop = false) : ∃ t, s.release = some t ∧ t.Sound := by
  by_cases hpos : 0 < s.refs + s.closeState.refs
  · have hrel : s.release = some { s with counter := ⟨s.refs + s.closeState.refs, true⟩ } := by
      rw [HttpServer.release,
        Counter.release_referenced _ (by rw [hcounter]; exact Nat.succ_lt_succ hpos), hcounter]
      rfl
    refine ⟨_, hrel, Closed.sound ?_ (hs.keep _ _ _ _)⟩
    exact ⟨hlive, rfl, hpos, hflag, hclosing, hclosed, hclients, hdestroyed, hframes⟩
  · have hrefs : s.refs = 0 := by omega
    have hclose : s.closeState = .closed := by
      cases h : s.closeState with
      | opened => exact absurd h hclosing
      | closing => simp [h, CloseState.refs] at hpos
      | closed => rfl
    have hlast : s.counter.useCount = 1 := by
      rw [hcounter, hrefs, hclose]
      rfl
    have hrel : s.release = some { s with counter := ⟨0, true⟩, deletes := s.deletes + 1 } := by
      rw [HttpServer.release, Counter.release_last _ hlast, hcounter]
      rfl
    refine ⟨_, hrel, Gone.sound ?_ (hs.keep _ _ _ _)⟩
    exact ⟨congrArg (· + 1) hlive, rfl, hrefs, hflag, hclose, hclosed hclose, hdestroyed⟩

theorem Closed.proceed (hs : s.Closed) (htracks : s.Tracks) :
    ∃ t, s.proceed = some t ∧ t.Sound := by
  have hframes := hs.frames
  unfold HttpServer.proceed
  cases hstack : s.stack with
  | nil => exact ⟨s, rfl, hs.sound htracks⟩
  | cons f stack =>
    rw [hstack] at hframes
    obtain ⟨hf, hbelow⟩ := List.forall_mem_cons.mp hframes
    have hclosing : s.closeState ≠ .closed := by
      intro h
      rw [hs.closed h] at hstack
      cases hstack
    have hpop (hother : ∀ k, f ≠ .listener k) : ({ s with stack := stack } : HttpServer).Sound := by
      refine Closed.sound ?_ (htracks.pop hstack hother)
      exact ⟨hs.live, hs.counter, hs.refs, hs.flag, hs.closing, fun h => absurd h hclosing,
        hs.clients, hs.destroyed, hbelow⟩
    cases f with
    | listener k =>
      obtain ⟨t, ht, htracks', heq, hclients⟩ := eraseClient_tracks htracks hstack fun _ => hs.live
      refine ⟨t, ht, Closed.sound ?_ htracks'⟩
      have hsame := hclients hs.flag
      rw [heq]
      exact ⟨hs.live, hs.counter, hs.refs, hs.flag, hs.closing, fun h => absurd h hclosing,
        hsame.trans hs.clients, hs.destroyed, List.forall_mem_cons.mpr ⟨rfl, hbelow⟩⟩
    | client k => exact ⟨_, rfl, hpop (by simp)⟩
    | loop k => cases hf
    | destroying => exact ⟨_, if_pos hs.live, hpop (by simp)⟩
    | releasing =>
      have hused : s.counter.useCount > 0 := by
        rw [hs.counter]
        exact hs.refs
      simp only [if_pos hs.live, if_pos hused]
      exact ⟨_, rfl, hpop (by simp)⟩

theorem Closed.perform (hs : s.Closed) (htracks : s.Tracks) (label : ServerLabel)
    (hoccurs : s.Occurs label) (hadmitted : s.Admitted label) :
    ∃ t, s.perform label = some t ∧ t.Sound := by
  have hcounter := hs.counter
  cases label with
  | accept => exact absurd hoccurs.2 hs.closing
  | destroyClient k =>
    have hsame : s.destroyClient k = s := destroyClient_again (hs.destroyed k hoccurs.2)
    exact ⟨s, congrArg some hsame, hs.sound htracks⟩
  | copy =>
    refine ⟨_, if_pos hs.live, Closed.sound ?_ (htracks.keep _ _ _ _)⟩
    refine ⟨hs.live, ?_, ?_, hs.flag, hs.closing, hs.closed, hs.clients, hs.destroyed, hs.frames⟩
    · change s.counter.retain = ⟨s.refs + 1 + s.closeState.refs, true⟩
      rw [Counter.retain_of_lt _ (hadmitted.2 rfl), hcounter, Nat.add_right_comm s.refs 1]
    · change 0 < s.refs + 1 + s.closeState.refs
      omega
  | drop =>
    have hrefs : 0 < s.refs := hoccurs.2
    have hrel : ∃ t, ({ s with refs := s.refs - 1 } : HttpServer).release = some t ∧ t.Sound := by
      refine Closed.release (htracks.keep _ _ _ _) hs.live ?_ hs.flag hs.closing
        hs.closed hs.clients hs.destroyed hs.frames
      change s.counter = ⟨s.refs - 1 + s.closeState.refs + 1, true⟩
      rw [hcounter]
      congr 1
      omega
    obtain ⟨t, ht, hsound⟩ := hrel
    exact ⟨t, (if_pos hs.live).trans ht, hsound⟩
  | destroy =>
    have hdestroy : s.destroy = s := destroy_again (by rw [hcounter])
    exact ⟨s, (if_pos hs.live).trans (by rw [hdestroy]), hs.sound htracks⟩
  | closeDone =>
    obtain ⟨hstack, hclosing⟩ := hoccurs
    have hrel : ∃ t, ({ s with closeState := .closed } : HttpServer).release = some t ∧
        t.Sound := by
      refine Closed.release (htracks.keep _ _ _ _) hs.live ?_ hs.flag (by simp)
        (fun _ => hstack) hs.clients hs.destroyed hs.frames
      rw [hclosing] at hcounter
      exact hcounter
    obtain ⟨t, ht, hsound⟩ := hrel
    exact ⟨t, (if_pos hs.live).trans ht, hsound⟩
  | proceed => exact hs.proceed htracks

/-- Nothing calls a server that is gone. -/
theorem Gone.perform (hs : s.Gone) (htracks : s.Tracks) (label : ServerLabel)
    (hoccurs : s.Occurs label) : ∃ t, s.perform label = some t ∧ t.Sound := by
  have hrefs (h : 0 < s.refs) : False := by
    rw [hs.refs] at h
    cases h
  cases label with
  | accept =>
    have hopen := hoccurs.2
    rw [hs.closed] at hopen
    cases hopen
  | destroyClient k =>
    have hsame : s.destroyClient k = s := destroyClient_again (hs.destroyed k hoccurs.2)
    exact ⟨s, congrArg some hsame, hs.sound htracks⟩
  | copy | drop | destroy => exact (hrefs hoccurs.2).elim
  | closeDone =>
    have hclosing := hoccurs.2
    rw [hs.closed] at hclosing
    cases hclosing
  | proceed => exact absurd hs.stack hoccurs

theorem step_sound (hs : s.Sound) (label : ServerLabel) (hadmitted : s.Admitted label) :
    ∃ t, s.step label = some t ∧ t.Sound := by
  unfold step
  by_cases hoccurs : s.Occurs label
  · rw [if_pos hoccurs]
    obtain ⟨htracks, hserving | ⟨k, done, rest, hlooping⟩ | hclosed | hgone⟩ := hs
    · exact hserving.perform htracks label hoccurs hadmitted
    · exact hlooping.perform htracks label hoccurs hadmitted
    · exact hclosed.perform htracks label hoccurs hadmitted
    · exact hgone.perform htracks label hoccurs
  · exact ⟨s, if_neg hoccurs, hs⟩

theorem init_sound : init.Sound := by
  refine Serving.sound ?_ ?_
  · exact ⟨rfl, rfl, Nat.one_pos, rfl, rfl, by simp [init]⟩
  · exact ⟨by simp [init], by simp [init], fun _ => Nat.zero_le 1, by simp [init], List.nodup_nil,
      List.nodup_nil, by simp [init], by simp [init]⟩

theorem Sound.consistent (hs : s.Sound) : s.Consistent := by
  obtain ⟨htracks, hstaged⟩ := hs
  refine ⟨?_, ?_, htracks.erasedNodup, ?_⟩
  · intro hd
    obtain hserving | ⟨k, done, rest, hlooping⟩ | hclosed | hgone := hstaged
    · exact ⟨htracks.nodup, htracks.serving hserving.flag⟩
    · rw [hlooping.counter] at hd
      cases hd
    · rw [hclosed.counter] at hd
      cases hd
    · rw [hgone.counter] at hd
      cases hd
  · intro hstack hlive
    refine ⟨htracks.nodup, ?_⟩
    intro j
    obtain hserving | ⟨k, done, rest, hlooping⟩ | hclosed | hgone := hstaged
    · have hj := htracks.serving hserving.flag j
      simpa [hstack] using hj
    · exact absurd hstack hlooping.stack_ne
    · rw [hclosed.clients]
      exact iff_of_false (by simp) fun h => h.2 (hclosed.destroyed j h.1)
    · rw [hgone.deleted] at hlive
      cases hlive
  · intro hstack hd
    obtain hserving | ⟨k, done, rest, hlooping⟩ | hclosed | hgone := hstaged
    · rw [hserving.counter] at hd
      cases hd
    · exact absurd hstack hlooping.stack_ne
    · exact hclosed.destroyed
    · exact hgone.destroyed

/-- Along every run in which the last `shared_ptr` is not dropped under the loop, all steps are
defined: no node is erased twice, nor from a list that was cleared or deleted. -/
theorem clients_consistent (labels : List ServerLabel) (h : Along step Admitted init labels) :
    ∃ s, run step init labels = some s ∧ s.Consistent := by
  obtain ⟨s, hrun, hs⟩ :=
    run_total Sound (fun _ label hs hC => step_sound hs label hC) labels init init_sound h
  exact ⟨s, hrun, hs.consistent⟩

end

/-- A client is destroyed, whose listener destroys another one and then the server. -/
theorem clients_consistent_nested :
    ∃ s, run step init [.accept, .accept, .accept, .destroyClient 1, .destroyClient 2, .proceed,
      .destroy, .proceed, .proceed, .proceed, .proceed, .proceed, .proceed, .proceed, .drop,
      .closeDone] = some s ∧ s.Consistent :=
  clients_consistent _ (by decide)

/-- A listener drops the last `shared_ptr` while the server destroys its clients: the server is
deleted under the loop, which goes on with the deleted list, and the other client is left. -/
theorem loop_outlives_server :
    ∃ s, run step init [.accept, .accept, .destroy, .drop, .proceed, .proceed] = some s ∧
      s.deletes = 1 ∧ s.stack = [.loop 1, .destroying] ∧ 0 ∉ s.destroyed ∧
      run step init [.accept, .accept, .destroy, .drop, .proceed, .proceed, .proceed] = none := by
  exact ⟨_, rfl, rfl, rfl, by decide, rfl⟩

end HttpServer

end Libnodecc.Http
