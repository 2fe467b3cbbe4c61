import Libnodecc.Buffer.Value
import Mathlib.Data.FinEnum
import Mathlib.Data.Set.List

namespace Libnodecc.Os

namespace Af

def ipv4 : UInt32 := 0x00000001
def ipv6 : UInt32 := 0x00000002

end Af

namespace Iff

def up : UInt32 := 0x00000001
def running : UInt32 := 0x00000002
def loopback : UInt32 := 0x00000004
def broadcast : UInt32 := 0x00000008
def multicast : UInt32 := 0x00000010
def linklocal : UInt32 := 0x00010000
def tentative : UInt32 := 0x00020000
def duplicated : UInt32 := 0x00040000
def detached : UInt32 := 0x00080000
def deprecated : UInt32 := 0x00100000
def temporary : UInt32 := 0x00200000
def notready : UInt32 := 0x00400000

end Iff

/-- What the headers of the system define. -/
structure System where
  afInet : Nat
  afInet6 : Nat
  iffUp : UInt32
  iffRunning : UInt32
  iffLoopback : UInt32
  iffBroadcast : UInt32
  iffMulticast : UInt32
  distinct : afInet ≠ afInet6

/-- `sockaddr` and the bytes behind its family: at least those of a `sockaddr_in` or of a
`sockaddr_in6` if it is one. -/
structure Sockaddr (sys : System) where
  family : Nat
  data : Bytes
  inet : family = sys.afInet → 14 ≤ data.length
  inet6 : family = sys.afInet6 → 26 ≤ data.length

structure Ifaddrs (sys : System) where
  name : Bytes
  flags : UInt32
  addr : Option (Sockaddr sys)
  netmask : Option (Sockaddr sys)

/-- In a build with `NODE_IFF_BSD`: its flags, and what `socket` and `ioctl` answer. -/
structure In6System where
  tentative : UInt32
  duplicated : UInt32
  detached : UInt32
  deprecated : UInt32
  temporary : UInt32
  notready : UInt32
  socket : Bool
  ioctl : Bytes → Bytes → Option UInt32

/-- The member of the unions in `interface_address` that was written. -/
inductive InetUnion where
  | in4 (family : Nat) (data : Bytes)
  | in6 (family : Nat) (data : Bytes)
  deriving DecidableEq

structure InterfaceAddress where
  name : Bytes
  isIpv6 : Bool
  address : InetUnion
  netmask : InetUnion
  deriving DecidableEq

inductive Failure where
  | nullDereference
  | overrun
  | errno
  deriving DecidableEq

def deref {α : Type} : Option α → Except Failure α
  | some a => .ok a
  | none => .error .nullDereference

def hasFlag (flags flag : UInt32) : Bool := flags &&& flag != 0

def iffFilter (wl bl flag : UInt32) (cond : Bool) : Bool :=
  (!hasFlag wl flag || cond) && (!hasFlag bl flag || !cond)

section
variable {sys : System}

def Ifaddrs.generalFlags (ifa : Ifaddrs sys) : List (UInt32 × Bool) :=
  [(Iff.up, hasFlag ifa.flags sys.iffUp), (Iff.running, hasFlag ifa.flags sys.iffRunning),
    (Iff.loopback, hasFlag ifa.flags sys.iffLoopback),
    (Iff.broadcast, hasFlag ifa.flags sys.iffBroadcast),
    (Iff.multicast, hasFlag ifa.flags sys.iffMulticast)]

/-- The flags of an IPv6 address; `sin6_scope_id` is the end of a `sockaddr_in6`. -/
def In6System.flags (bsd : In6System) (addr : Sockaddr sys) (flags6 : UInt32) :
    List (UInt32 × Bool) :=
  [(Iff.linklocal, ((addr.data.drop 22).take 4).any (· ≠ 0)),
    (Iff.tentative, hasFlag flags6 bsd.tentative), (Iff.duplicated, hasFlag flags6 bsd.duplicated),
    (Iff.detached, hasFlag flags6 bsd.detached), (Iff.deprecated, hasFlag flags6 bsd.deprecated),
    (Iff.temporary, hasFlag flags6 bsd.temporary), (Iff.notready, hasFlag flags6 bsd.notready)]

def filters (wl bl : UInt32) (flags : List (UInt32 × Bool)) : Bool :=
  flags.all fun (flag, cond) => iffFilter wl bl flag cond

/-- `check_in6_iff_bsd`. The socket is opened by the first call that needs it. -/
def checkIn6IffBsd (bsd : In6System) (wl bl : UInt32) (ifa : Ifaddrs sys) : Except Failure Bool := do
  let addr ← deref ifa.addr
  if addr.family ≠ sys.afInet6 then return true
  if !bsd.socket then throw .errno
  match bsd.ioctl ifa.name addr.data with
  | none => throw .errno
  | some flags6 => return filters wl bl (bsd.flags addr flags6)

/-- The last operand of the condition in `interface_addresses`. -/
def checksIn6 (build : Option In6System) (wl bl : UInt32) (ifa : Ifaddrs sys) :
    Except Failure Bool :=
  match build with
  | none => return true
  | some bsd =>
    if (wl ||| bl) &&& 0xffff0000 = 0 then return true else checkIn6IffBsd bsd wl bl ifa

/-- `if4` and `if6`. -/
def isFamily (type bit : UInt32) (family : Nat) (ifa : Ifaddrs sys) : Except Failure Bool :=
  if hasFlag type bit then do
    let addr ← deref ifa.addr
    return addr.family == family
  else return false

/-- A copy as the struct of its family; all but `AF_INET` is taken for a `sockaddr_in6`. -/
def Sockaddr.copy (sa : Sockaddr sys) : Except Failure InetUnion :=
  if sa.family = sys.afInet then return .in4 sa.family (sa.data.take 14)
  else if 26 ≤ sa.data.length then return .in6 sa.family (sa.data.take 26)
  else throw .overrun

/-- The body of the loop in `interface_addresses`. -/
def visit (build : Option In6System) (type wl bl : UInt32) (ifa : Ifaddrs sys) :
    Except Failure (Option InterfaceAddress) := do
  let if4 ← isFamily type Af.ipv4 sys.afInet ifa
  let if6 ← isFamily type Af.ipv6 sys.afInet6 ifa
  if ifa.addr.isSome && (if4 || if6) && filters wl bl ifa.generalFlags then
    if ← checksIn6 build wl bl ifa then
      let addr ← deref ifa.addr
      let address ← addr.copy
      let mask ← deref ifa.netmask
      let netmask ← mask.copy
      return some ⟨ifa.name, addr.family == sys.afInet6, address, netmask⟩
    else return none
  else return none

def visitAll (build : Option In6System) (type wl bl : UInt32) (addresses : List InterfaceAddress) :
    List (Ifaddrs sys) → Except Failure (List InterfaceAddress)
  | [] => .ok addresses
  | ifa :: rest => do
    let address ← visit build type wl bl ifa
    visitAll build type wl bl (addresses ++ address.toList) rest

/-- `interface_addresses`, of what `getifaddrs` returned. -/
def interfaceAddresses (build : Option In6System) (type wl bl : UInt32)
    (ifas : List (Ifaddrs sys)) : Except Failure (List InterfaceAddress) :=
  visitAll build type wl bl [] ifas

def Satisfies (wl bl : UInt32) (flags : List (UInt32 × Bool)) : Prop :=
  ∀ f ∈ flags, (hasFlag wl f.1 = true → f.2 = true) ∧ (hasFlag bl f.1 = true → f.2 = false)

instance (wl bl : UInt32) (flags : List (UInt32 × Bool)) : Decidable (Satisfies wl bl flags) :=
  inferInstanceAs (Decidable (∀ f ∈ flags, _))

def Requested (sys : System) (type : UInt32) (family : Nat) : Prop :=
  hasFlag type Af.ipv4 = true ∧ family = sys.afInet ∨
    hasFlag type Af.ipv6 = true ∧ family = sys.afInet6

instance (type : UInt32) (family : Nat) : Decidable (Requested sys type family) :=
  inferInstanceAs (Decidable (_ ∨ _))

/-- The entry is of a requested family and has the general flags. -/
def General (type wl bl : UInt32) (ifa : Ifaddrs sys) : Prop :=
  ∃ addr ∈ ifa.addr, Requested sys type addr.family ∧ Satisfies wl bl ifa.generalFlags

instance (type wl bl : UInt32) (ifa : Ifaddrs sys) : Decidable (General type wl bl ifa) :=
  inferInstanceAs (Decidable (∃ addr ∈ ifa.addr, _))

/-- What holds of the address if the build looks at its IPv6 flags. -/
def ForIn6 (build : Option In6System) (wl bl : UInt32) (ifa : Ifaddrs sys)
    (P : In6System → Sockaddr sys → Prop) : Prop :=
  ∀ bsd ∈ build, (wl ||| bl) &&& 0xffff0000 ≠ 0 →
    ∀ addr ∈ ifa.addr, addr.family = sys.afInet6 → P bsd addr

instance (build : Option In6System) (wl bl : UInt32) (ifa : Ifaddrs sys)
    (P : In6System → Sockaddr sys → Prop) [∀ bsd addr, Decidable (P bsd addr)] :
    Decidable (ForIn6 build wl bl ifa P) :=
  inferInstanceAs (Decidable (∀ bsd ∈ build, _))

def Wanted (build : Option In6System) (type wl bl : UInt32) (ifa : Ifaddrs sys) : Prop :=
  General type wl bl ifa ∧ ForIn6 build wl bl ifa fun bsd addr =>
    ∀ flags6 ∈ bsd.ioctl ifa.name addr.data, Satisfies wl bl (bsd.flags addr flags6)

instance (build : Option In6System) (type wl bl : UInt32) (ifa : Ifaddrs sys) :
    Decidable (Wanted build type wl bl ifa) :=
  inferInstanceAs (Decidable (_ ∧ _))

/-- A `sockaddr` as the struct of its family. -/
def Sockaddr.asInet (sa : Sockaddr sys) : InetUnion :=
  if sa.family = sys.afInet then .in4 sa.family (sa.data.take 14)
  else .in6 sa.family (sa.data.take 26)

def Ifaddrs.own (ifa : Ifaddrs sys) : Option InterfaceAddress :=
  ifa.addr.bind fun addr => ifa.netmask.map fun mask =>
    ⟨ifa.name, addr.family == sys.afInet6, addr.asInet, mask.asInet⟩

def Reports (build : Option In6System) (type wl bl : UInt32) (ifas : List (Ifaddrs sys)) : Prop :=
  ∃ addresses, interfaceAddresses build type wl bl ifas = .ok addresses ∧
    addresses.map some = (ifas.filter (Wanted build type wl bl ·)).map Ifaddrs.own

/-- What the entry has to have for its pass through the loop: an address where a family is
requested, and a netmask that can be read where it is wanted. -/
structure Readable (build : Option In6System) (type wl bl : UInt32) (ifa : Ifaddrs sys) : Prop where
  addr : hasFlag type Af.ipv4 = true ∨ hasFlag type Af.ipv6 = true → ifa.addr ≠ none
  answers : General type wl bl ifa → ForIn6 build wl bl ifa fun bsd addr =>
    bsd.socket = true ∧ bsd.ioctl ifa.name addr.data ≠ none
  netmask : Wanted build type wl bl ifa →
    ∃ mask, ifa.netmask = some mask ∧ (mask.family = sys.afInet ∨ 26 ≤ mask.data.length)

section
variable {build : Option In6System} {type wl bl : UInt32} {ifa : Ifaddrs sys}

theorem filters_iff (flags : List (UInt32 × Bool)) :
    filters wl bl flags = true ↔ Satisfies wl bl flags := by
  rw [filters, List.all_eq_true]
  refine forall₂_congr fun f _ => ?_
  obtain ⟨flag, cond⟩ := f
  show iffFilter wl bl flag cond = true ↔ _
  unfold iffFilter
  cases hasFlag wl flag <;> cases hasFlag bl flag <;> cases cond <;> simp

theorem isFamily_some {addr : Sockaddr sys} (h : ifa.addr = some addr) (bit : UInt32)
    (family : Nat) :
    isFamily type bit family ifa = .ok (hasFlag type bit && addr.family == family) := by
  unfold isFamily
  cases hasFlag type bit with
  | false => rfl
  | true =>
    rw [h]
    rfl

theorem isFamily_none (h : ifa.addr = none) (bit : UInt32) (family : Nat) :
    isFamily type bit family ifa =
      if hasFlag type bit then .error .nullDereference else .ok false := by
  unfold isFamily
  cases hasFlag type bit with
  | false => rfl
  | true =>
    rw [h]
    rfl

theorem copy_eq (sa : Sockaddr sys) : sa.copy =
    if sa.family = sys.afInet ∨ 26 ≤ sa.data.length then .ok sa.asInet else .error .overrun := by
  unfold Sockaddr.copy Sockaddr.asInet
  by_cases hinet : sa.family = sys.afInet
  · simp only [hinet, if_true, true_or]
    rfl
  · by_cases hlength : 26 ≤ sa.data.length
    · simp only [hinet, hlength, if_true, if_false, or_true]
      rfl
    · simp only [hinet, hlength, if_false, or_self]
      rfl

theorem forIn6_some {bsd : In6System} {addr : Sockaddr sys} (h : ifa.addr = some addr)
    (P : In6System → Sockaddr sys → Prop) : ForIn6 (some bsd) wl bl ifa P ↔
      ((wl ||| bl) &&& 0xffff0000 ≠ 0 → addr.family = sys.afInet6 → P bsd addr) := by
  simp only [ForIn6, h, Option.mem_some_iff, forall_eq']

/-- The check of the IPv6 flags returns if the system answers. -/
theorem checksIn6_eq {addr : Sockaddr sys} (h : ifa.addr = some addr) :
    checksIn6 build wl bl ifa =
      if ForIn6 build wl bl ifa fun bsd addr =>
          bsd.socket = true ∧ bsd.ioctl ifa.name addr.data ≠ none then
        .ok (decide (ForIn6 build wl bl ifa fun bsd addr =>
          ∀ flags6 ∈ bsd.ioctl ifa.name addr.data, Satisfies wl bl (bsd.flags addr flags6)))
      else .error .errno := by
  cases build with
  | none =>
    have hvacuous (P : In6System → Sockaddr sys → Prop) : ForIn6 none wl bl ifa P := nofun
    simp only [hvacuous, if_true, decide_true]
    rfl
  | some bsd =>
    simp only [forIn6_some h, checksIn6, checkIn6IffBsd, h, deref]
    by_cases hasked : (wl ||| bl) &&& 0xffff0000 = 0
    · simp only [hasked, if_true, ne_eq, not_true_eq_false, false_implies, decide_true]
      rfl
    · by_cases hfamily : addr.family = sys.afInet6
      · cases hsocket : bsd.socket with
        | false => simp [hasked, hfamily, bind, Except.bind, throw, throwThe, MonadExceptOf.throw]
        | true =>
          cases hioctl : bsd.ioctl ifa.name addr.data with
          | none =>
            simp [hasked, hfamily, hioctl, bind, Except.bind, throw, throwThe, MonadExceptOf.throw]
          | some flags6 =>
            simp [hasked, hfamily, hioctl, bind, Except.bind, pure, Except.pure, ← filters_iff]
      · simp [hasked, hfamily, bind, Except.bind, pure, Except.pure]

theorem general_iff {addr : Sockaddr sys} (h : ifa.addr = some addr) :
    General type wl bl ifa ↔ Requested sys type addr.family ∧ Satisfies wl bl ifa.generalFlags := by
  simp only [General, h, Option.mem_some_iff, exists_eq_left']

theorem visit_none (h : ifa.addr = none) : visit build type wl bl ifa =
    if hasFlag type Af.ipv4 = true ∨ hasFlag type Af.ipv6 = true then .error .nullDereference
    else .ok none := by
  unfold visit
  rw [isFamily_none h, isFamily_none h, h]
  cases hasFlag type Af.ipv4 <;> cases hasFlag type Af.ipv6 <;> rfl

/-- The pass of an entry that has an address. -/
theorem visit_some {addr : Sockaddr sys} (h : ifa.addr = some addr) :
    visit build type wl bl ifa =
      if General type wl bl ifa then do
        if ← checksIn6 build wl bl ifa then
          let address ← addr.copy
          let mask ← deref ifa.netmask
          let netmask ← mask.copy
          return some ⟨ifa.name, addr.family == sys.afInet6, address, netmask⟩
        else return none
      else .ok none := by
  have hcond : (ifa.addr.isSome && (hasFlag type Af.ipv4 && addr.family == sys.afInet ||
      hasFlag type Af.ipv6 && addr.family == sys.afInet6) && filters wl bl ifa.generalFlags) = true ↔
        General type wl bl ifa := by
    rw [general_iff h, h, Bool.and_eq_true, filters_iff]
    simp [Requested]
  unfold visit
  rw [isFamily_some h, isFamily_some h]
  by_cases hgeneral : General type wl bl ifa
  · rw [if_pos hgeneral]
    simp only [bind, Except.bind]
    rw [if_pos (hcond.mpr hgeneral), h]
    rfl
  · rw [if_neg hgeneral]
    simp only [bind, Except.bind]
    rw [if_neg (hcond.not.mpr hgeneral)]
    rfl

/-- The netmask of a wanted entry is read as it is. -/
theorem readable_netmask {addr : Sockaddr sys} (h : ifa.addr = some addr)
    (hfamily : addr.family = sys.afInet ∨ addr.family = sys.afInet6)
    (r : Option InterfaceAddress) :
    (do
      let address ← addr.copy
      let mask ← deref ifa.netmask
      let netmask ← mask.copy
      return some (⟨ifa.name, addr.family == sys.afInet6, address, netmask⟩ : InterfaceAddress)) =
        Except.ok r ↔
      (∃ mask, ifa.netmask = some mask ∧ (mask.family = sys.afInet ∨ 26 ≤ mask.data.length)) ∧
        r = ifa.own := by
  have haddr : addr.copy = .ok addr.asInet := by
    rw [copy_eq, if_pos]
    exact hfamily.imp_right addr.inet6
  rw [haddr]
  cases hmask : ifa.netmask with
  | none => simp [deref, bind, Except.bind]
  | some mask =>
    by_cases hread : mask.family = sys.afInet ∨ 26 ≤ mask.data.length
    · simp only [deref, bind, Except.bind, copy_eq, hread, if_true, pure, Except.pure,
        Ifaddrs.own, h, hmask, Option.bind_some, Option.map_some, Except.ok.injEq,
        Option.some.injEq, exists_eq_left', true_and]
      exact eq_comm
    · simp [deref, bind, Except.bind, copy_eq, hread]

theorem Wanted.general (h : Wanted build type wl bl ifa) : General type wl bl ifa := h.1

/-- The pass of an entry returns if and only if it is readable, and then with what is wanted. -/
theorem visit_ok (r : Option InterfaceAddress) : visit build type wl bl ifa = .ok r ↔
    Readable build type wl bl ifa ∧
      r = if Wanted build type wl bl ifa then ifa.own else none := by
  cases haddr : ifa.addr with
  | none =>
    have hgeneral : ¬General type wl bl ifa := by simp [General, haddr]
    have hwanted : ¬Wanted build type wl bl ifa := fun h => hgeneral h.general
    rw [visit_none haddr, if_neg hwanted]
    by_cases hasked : hasFlag type Af.ipv4 = true ∨ hasFlag type Af.ipv6 = true
    · rw [if_pos hasked]
      exact iff_of_false nofun fun h => h.1.addr hasked haddr
    · rw [if_neg hasked]
      have hreadable : Readable build type wl bl ifa :=
        ⟨fun h => absurd h hasked, fun h => absurd h hgeneral, fun h => absurd h hwanted⟩
      simp [hreadable, eq_comm]
  | some addr =>
    have hread (hnot : ¬Wanted build type wl bl ifa)
        (hanswers : General type wl bl ifa → ForIn6 build wl bl ifa fun bsd addr =>
          bsd.socket = true ∧ bsd.ioctl ifa.name addr.data ≠ none) :
        Readable build type wl bl ifa :=
      ⟨fun _ => by rw [haddr]; exact nofun, hanswers, fun h => absurd h hnot⟩
    rw [visit_some haddr]
    by_cases hgeneral : General type wl bl ifa
    · rw [if_pos hgeneral, checksIn6_eq haddr]
      by_cases hanswers : ForIn6 build wl bl ifa fun bsd addr =>
          bsd.socket = true ∧ bsd.ioctl ifa.name addr.data ≠ none
      · rw [if_pos hanswers]
        by_cases hin6 : ForIn6 build wl bl ifa fun bsd addr =>
            ∀ flags6 ∈ bsd.ioctl ifa.name addr.data, Satisfies wl bl (bsd.flags addr flags6)
        · have hwanted : Wanted build type wl bl ifa := ⟨hgeneral, hin6⟩
          have hfamily : addr.family = sys.afInet ∨ addr.family = sys.afInet6 :=
            ((general_iff haddr).mp hgeneral).1.imp And.right And.right
          rw [if_pos hwanted, decide_eq_true hin6]
          refine (readable_netmask haddr hfamily r).trans (and_congr_left' ?_)
          constructor
          · intro hmask
            exact ⟨fun _ => by rw [haddr]; exact nofun, fun _ => hanswers, fun _ => hmask⟩
          · intro hreadable
            exact hreadable.netmask hwanted
        · have hwanted : ¬Wanted build type wl bl ifa := fun h => hin6 h.2
          rw [if_neg hwanted, decide_eq_false hin6]
          simp [hread hwanted (fun _ => hanswers), bind, Except.bind, pure, Except.pure, eq_comm]
      · rw [if_neg hanswers]
        exact iff_of_false nofun fun h => hanswers (h.1.answers hgeneral)
    · have hwanted : ¬Wanted build type wl bl ifa := fun h => hgeneral h.general
      rw [if_neg hgeneral, if_neg hwanted]
      simp [hread hwanted (fun h => absurd h hgeneral), eq_comm]

theorem Readable.own_isSome (h : Readable build type wl bl ifa)
    (hwanted : Wanted build type wl bl ifa) : ∃ address, ifa.own = some address := by
  obtain ⟨addr, haddr, -⟩ := hwanted.general
  obtain ⟨mask, hmask, -⟩ := h.netmask hwanted
  rw [Option.mem_def] at haddr
  simp [Ifaddrs.own, haddr, hmask]

/-- The loop returns if and only if all its passes do. -/
theorem visitAll_ok (ifas : List (Ifaddrs sys)) (before addresses : List InterfaceAddress) :
    visitAll build type wl bl before ifas = .ok addresses ↔
      (∀ ifa ∈ ifas, Readable build type wl bl ifa) ∧ ∃ rest, addresses = before ++ rest ∧
        rest.map some = (ifas.filter (Wanted build type wl bl ·)).map Ifaddrs.own := by
  induction ifas generalizing before with
  | nil =>
    constructor
    · intro h
      cases h
      exact ⟨nofun, [], (List.append_nil _).symm, rfl⟩
    · intro h
      obtain ⟨-, rest, rfl, hmap⟩ := h
      rw [List.map_eq_nil_iff.mp hmap, List.append_nil]
      rfl
  | cons ifa ifas ih =>
    rw [visitAll]
    cases hvisit : visit build type wl bl ifa with
    | error failure =>
      refine iff_of_false nofun fun h => ?_
      have hreadable := h.1 ifa List.mem_cons_self
      have hok := (visit_ok _).mpr ⟨hreadable, rfl⟩
      rw [hvisit] at hok
      cases hok
    | ok address =>
      obtain ⟨hreadable, rfl⟩ := (visit_ok _).mp hvisit
      refine (ih _).trans ?_
      rw [List.forall_mem_cons, and_iff_right hreadable]
      by_cases hwanted : Wanted build type wl bl ifa
      · obtain ⟨address, hown⟩ := hreadable.own_isSome hwanted
        rw [if_pos hwanted, hown, List.filter_cons_of_pos (by simpa using hwanted), List.map_cons,
          hown]
        refine and_congr_right fun _ => ?_
        constructor
        · intro hrest
          obtain ⟨rest, rfl, hmap⟩ := hrest
          exact ⟨address :: rest, by simp, by rw [List.map_cons, hmap]⟩
        · intro hrest
          obtain ⟨rest, rfl, hmap⟩ := hrest
          cases rest with
          | nil => cases hmap
          | cons first rest =>
            rw [List.map_cons, List.cons.injEq, Option.some.injEq] at hmap
            obtain ⟨rfl, hmap⟩ := hmap
            exact ⟨rest, by simp, hmap⟩
      · rw [if_neg hwanted, List.filter_cons_of_neg (by simpa using hwanted), Option.toList_none,
          List.append_nil]

end

/-- Exactly the wanted entries are returned, each with its own address and netmask, if and only if
every entry is readable. -/
theorem interface_addresses_iff (build : Option In6System) (type wl bl : UInt32)
    (ifas : List (Ifaddrs sys)) :
    Reports build type wl bl ifas ↔ ∀ ifa ∈ ifas, Readable build type wl bl ifa := by
  constructor
  · intro hreports
    obtain ⟨addresses, hok, -⟩ := hreports
    exact ((visitAll_ok ifas [] addresses).mp hok).1
  · intro hreadable
    have hown : (ifas.filter (Wanted build type wl bl ·)).map Ifaddrs.own ∈
        Set.range (List.map some) := by
      rw [Set.range_list_map]
      intro own hmem
      obtain ⟨ifa, hifa, rfl⟩ := List.mem_map.mp hmem
      obtain ⟨hifa, hwanted⟩ := List.mem_filter.mp hifa
      obtain ⟨address, haddress⟩ := (hreadable ifa hifa).own_isSome (by simpa using hwanted)
      exact ⟨address, haddress.symm⟩
    obtain ⟨addresses, hmap⟩ := hown
    exact ⟨addresses, (visitAll_ok ifas [] addresses).mpr ⟨hreadable, addresses, rfl, hmap⟩, hmap⟩

end

def linux : System := ⟨2, 10, 0x1, 0x40, 0x8, 0x2, 0x1000, by decide⟩

/-- An interface that has no address. -/
theorem interface_addresses_null :
    ¬ ∀ (sys : System) (build : Option In6System) (type wl bl : UInt32)
      (ifas : List (Ifaddrs sys)), Reports build type wl bl ifas := by
  intro h
  obtain ⟨addresses, hok, -⟩ := h linux none 3 3 4 [⟨ascii "tun0", 0x1043, none, none⟩]
  cases hok

end Libnodecc.Os
