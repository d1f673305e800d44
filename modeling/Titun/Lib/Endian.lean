import Mathlib.Tactic

/-! Numbers as byte strings of a given length, least or most significant byte first. -/
namespace Endian

/-- The `count` lowest base-256 digits, least significant first. -/
def leBytes : Nat → Nat → List UInt8
  | 0, _ => []
  | count + 1, n => UInt8.ofNat (n % 256) :: leBytes count (n / 256)

def ofLeBytes : List UInt8 → Nat
  | [] => 0
  | b :: rest => b.toNat + 256 * ofLeBytes rest

def ofBeBytes (bytes : List UInt8) : Nat := ofLeBytes bytes.reverse

@[simp] theorem leBytes_length (count n : Nat) : (leBytes count n).length = count := by
  induction count generalizing n with
  | zero => rfl
  | succ count ih => simp [leBytes, ih]

theorem ofLeBytes_lt (bytes : List UInt8) : ofLeBytes bytes < 256 ^ bytes.length := by
  induction bytes with
  | nil => simp [ofLeBytes]
  | cons b rest ih =>
    have digit : b.toNat < 256 := b.toNat_lt
    simp only [ofLeBytes, List.length_cons, pow_succ]
    omega

theorem ofLeBytes_leBytes (count n : Nat) : ofLeBytes (leBytes count n) = n % 256 ^ count := by
  induction count generalizing n with
  | zero => simp [leBytes, ofLeBytes, Nat.mod_one]
  | succ count ih =>
    have digit : (UInt8.ofNat (n % 256)).toNat = n % 256 := by
      rw [UInt8.toNat_ofNat']
      exact Nat.mod_eq_of_lt (Nat.mod_lt _ (by decide))
    rw [leBytes, ofLeBytes, ih, digit, pow_succ, Nat.mul_comm, Nat.mul_comm (256 ^ count),
      Nat.mod_mul, Nat.mul_comm]

theorem ofLeBytes_leBytes_of_lt (fits : n < 256 ^ count) : ofLeBytes (leBytes count n) = n := by
  rw [ofLeBytes_leBytes, Nat.mod_eq_of_lt fits]

theorem leBytes_injective (hm : m < 256 ^ count) (hn : n < 256 ^ count)
    (same : leBytes count m = leBytes count n) : m = n := by
  rw [← ofLeBytes_leBytes_of_lt hm, same, ofLeBytes_leBytes_of_lt hn]

theorem ofLeBytes_injective {xs ys : List UInt8} (len : xs.length = ys.length)
    (same : ofLeBytes xs = ofLeBytes ys) : xs = ys := by
  induction xs generalizing ys with
  | nil => exact (List.length_eq_zero_iff.mp len.symm).symm
  | cons x xs ih =>
    cases ys with
    | nil => cases len
    | cons y ys =>
      have hx : x.toNat < 256 := x.toNat_lt
      have hy : y.toNat < 256 := y.toNat_lt
      simp only [ofLeBytes] at same
      have head : x = y := UInt8.toNat_inj.mp (by omega)
      rw [head, ih (by simpa using len) (by omega)]

end Endian
