import Libnodecc.Buffer.Value
import Mathlib.Algebra.GroupWithZero.Nat

namespace Libnodecc.Util.Fnv1a

/-- The integers `fnv1a` is for. -/
inductive Word where
  | u32
  | u64

def Word.bits : Word → Nat
  | .u32 => 32
  | .u64 => 64

def basis : Word → Nat
  | .u32 => 2166136261
  | .u64 => 14695981039346656037

def prime : Word → Nat
  | .u32 => 16777619
  | .u64 => 1099511628211

/-- `fnv1a::hash`, over unsigned bytes. -/
def hash (t : Word) (view : Bytes) : Nat :=
  view.foldl (fun hash c => (hash ^^^ c.toNat) * prime t % 2^t.bits) (basis t)

/-- `static_cast<T>` of a `char`, which is signed. -/
def castChar (t : Word) (c : UInt8) : Nat :=
  if c.toNat < 2^7 then c.toNat else c.toNat + 2^t.bits - 2^8

/-- `fnv1a::const_hash`, over characters. -/
def constHash (t : Word) (hash : Nat) : Bytes → Nat
  | [] => hash
  | c :: str => constHash t ((hash ^^^ castChar t c) * prime t % 2^t.bits) str

theorem constHash_ascii (t : Word) (str : Bytes) (h : ∀ c ∈ str, c.toNat < 2^7) :
    constHash t (basis t) str = hash t str := by
  unfold hash
  generalize basis t = acc
  induction str generalizing acc with
  | nil => rfl
  | cons c str ih =>
    have hc : castChar t c = c.toNat := if_pos (h c (by simp))
    rw [constHash, List.foldl_cons, hc]
    exact ih (fun d hd => h d (by simp [hd])) _

example : hash .u32 (ascii "foobar") = 0xbf9cf968 ∧
    hash .u64 (ascii "foobar") = 0x85944171f73967e8 := by
  decide +kernel

end Libnodecc.Util.Fnv1a
