import Titun.Basic
import Titun.Lib.Endian
import Mathlib.Data.Finset.Sort
import Mathlib.Data.Prod.Lex

/-! Addresses, identifiers, keys and times. -/
namespace Titun

open Endian

/-- `Id`: sender index or receiver index. -/
abbrev WgId := U8Array 4

abbrev X25519Key := U8Array 32
abbrev X25519Pubkey := U8Array 32
abbrev SecretKey := U8Array 32
abbrev Cookie := U8Array 16

/-- A point in time, in nanoseconds since the clock started. -/
abbrev Instant := Nat

def NANOS_PER_SEC : Nat := 1000000000

def secs (n : Nat) : Nat := n * NANOS_PER_SEC

inductive IpAddr where
  | v4 (addr : BitVec 32)
  | v6 (addr : BitVec 128)
  deriving DecidableEq, Repr

def IpAddr.width : IpAddr → Nat
  | v4 _ => 32
  | v6 _ => 128

structure SocketAddrV6 where
  ip : BitVec 128
  port : BitVec 16
  flowinfo : BitVec 32
  scopeId : BitVec 32
  deriving DecidableEq, Repr

inductive SocketAddr where
  | v4 (ip : BitVec 32) (port : BitVec 16)
  | v6 (addr : SocketAddrV6)
  deriving DecidableEq, Repr

def SocketAddrV6.octets (a : SocketAddrV6) : Bytes := (leBytes 16 a.ip.toNat).reverse

structure TAI64N where
  secs : Nat
  nanos : Nat
  deriving DecidableEq, Repr

namespace TAI64N

def Lt (a b : TAI64N) : Prop := a.secs < b.secs ∨ a.secs = b.secs ∧ a.nanos < b.nanos

instance (a b : TAI64N) : Decidable (Lt a b) := inferInstanceAs (Decidable (_ ∨ _))

/-- `Some(t) > last`, where `None` is smaller than every time. -/
def newer (t : TAI64N) : Option TAI64N → Bool
  | none => true
  | some last => Lt last t

/-- Parsing fails when the nanoseconds are out of range. -/
def ofBytes (b : U8Array 12) : Option TAI64N :=
  let nanos := ofBeBytes (b.val.drop 8)
  if nanos ≤ 999999999 then some ⟨ofBeBytes (b.val.take 8), nanos⟩ else none

def toBytes (t : TAI64N) : U8Array 12 :=
  ⟨(leBytes 8 t.secs).reverse ++ (leBytes 4 t.nanos).reverse, by simp⟩

theorem newer_trans {t u : TAI64N} {last : Option TAI64N} (stale : newer t last = false)
    (later : newer u last = true) : newer t (some u) = false := by
  cases last with
  | none => cases stale
  | some last =>
    have old : ¬ Lt last t := of_decide_eq_false stale
    have new : Lt last u := of_decide_eq_true later
    apply decide_eq_false
    unfold Lt at *
    omega

theorem newer_self (t : TAI64N) : newer t (some t) = false := by
  simp [newer, Lt]

end TAI64N

/-- An entry of a peer's allowed IPs: an address and a prefix length. -/
abbrev AllowedIp := IpAddr × Nat

/-- The order of `(IpAddr, u32)`: the family, the address, the prefix length. -/
def allowedIpKey : AllowedIp → ℕ ×ₗ ℕ ×ₗ ℕ
  | (.v4 a, len) => toLex (0, toLex (a.toNat, len))
  | (.v6 a, len) => toLex (1, toLex (a.toNat, len))

theorem allowedIpKey_injective : Function.Injective allowedIpKey := by
  rintro ⟨a, m⟩ ⟨b, n⟩ h
  cases a <;> cases b <;> simp_all [allowedIpKey, BitVec.toNat_inj]

def AllowedIp.Le (x y : AllowedIp) : Prop := allowedIpKey x ≤ allowedIpKey y

instance : DecidableRel AllowedIp.Le := fun x y =>
  inferInstanceAs (Decidable (allowedIpKey x ≤ allowedIpKey y))

instance : IsTrans AllowedIp AllowedIp.Le where
  trans _ _ _ := le_trans

instance : Std.Antisymm AllowedIp.Le where
  antisymm _ _ h k := allowedIpKey_injective (le_antisymm h k)

instance : Std.Total AllowedIp.Le where
  total x y := le_total (allowedIpKey x) (allowedIpKey y)

def iterAllowedIps (s : Finset AllowedIp) : List AllowedIp := s.sort AllowedIp.Le

@[simp] theorem mem_iterAllowedIps {s : Finset AllowedIp} {x : AllowedIp} :
    x ∈ iterAllowedIps s ↔ x ∈ s := Finset.mem_sort _

theorem iterAllowedIps_nodup (s : Finset AllowedIp) : (iterAllowedIps s).Nodup :=
  Finset.sort_nodup s _

end Titun
