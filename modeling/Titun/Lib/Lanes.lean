import Mathlib
import Titun.Lib.Endian

/-! Vectors as lanes of equal width, least significant first. -/
namespace Lanes

open Endian

/-- Lane `i` of width `w`. -/
def lane (w : Nat) (v : BitVec n) (i : Nat) : BitVec w := v.extractLsb' (w * i) w

/-- The vector with the given lanes. -/
def ofLanes (n w : Nat) (lanes : Nat → BitVec w) : BitVec n :=
  BitVec.ofFnLE fun i => (lanes (i / w)).getLsbD (i % w)

theorem getLsbD_lane {v : BitVec n} (inside : j < w) : (lane w v i).getLsbD j = v.getLsbD (w * i + j) := by
  rw [lane, BitVec.getLsbD_extractLsb']
  simp [inside]

theorem getLsbD_ofLanes {lanes : Nat → BitVec w} (inside : i < n) :
    (ofLanes n w lanes).getLsbD i = (lanes (i / w)).getLsbD (i % w) := by
  rw [BitVec.getLsbD_eq_getElem inside, ofLanes, BitVec.getElem_ofFnLE]

theorem lane_ofLanes {lanes : Nat → BitVec w} (inside : w * i + w ≤ n) : lane w (ofLanes n w lanes) i = lanes i := by
  apply BitVec.eq_of_getLsbD_eq
  intro j bound
  have quotient : (w * i + j) / w = i := by
    rw [Nat.mul_add_div (by omega), Nat.div_eq_of_lt bound, Nat.add_zero]
  have rest : (w * i + j) % w = j := by
    rw [Nat.mul_add_mod, Nat.mod_eq_of_lt bound]
  rw [getLsbD_lane bound, getLsbD_ofLanes (by omega), quotient, rest]

theorem lane_xor (x y : BitVec n) : lane w (x ^^^ y) i = lane w x i ^^^ lane w y i := BitVec.extractLsb'_xor

theorem lane_or (x y : BitVec n) : lane w (x ||| y) i = lane w x i ||| lane w y i := BitVec.extractLsb'_or

theorem eq_of_lanes {x y : BitVec n} (size : n = w * k) (same : ∀ i < k, lane w x i = lane w y i) : x = y := by
  apply BitVec.eq_of_getLsbD_eq
  intro j bound
  subst size
  have pos : 0 < w := Nat.pos_of_mul_pos_right (Nat.zero_lt_of_lt bound)
  have inside : j % w < w := Nat.mod_lt j pos
  have index : j / w < k := Nat.div_lt_of_lt_mul bound
  have bits := congrArg (fun v => v.getLsbD (j % w)) (same (j / w) index)
  simp only [getLsbD_lane inside, Nat.div_add_mod] at bits
  exact bits

theorem lane_lane {v : BitVec n} (size : u = w * k) (inside : j < k) :
    lane w (lane u v i) j = lane w v (k * i + j) := by
  subst size
  apply BitVec.eq_of_getLsbD_eq
  intro l bound
  have narrow : w * j + l < w * k := by
    calc w * j + l < w * j + w := by omega
      _ = w * (j + 1) := by ring
      _ ≤ w * k := Nat.mul_le_mul_left w inside
  rw [getLsbD_lane bound, getLsbD_lane narrow, getLsbD_lane bound]
  congr 1
  ring

/-- Rotating by whole lanes moves the lanes around. -/
theorem lane_rotateLeft {v : BitVec n} (size : n = w * k) (amount : r < k) (inside : i < k) :
    lane w (v.rotateLeft (w * r)) i = lane w v ((i + (k - r)) % k) := by
  subst size
  apply BitVec.eq_of_getLsbD_eq
  intro j bound
  have short : w * r < w * k := Nat.mul_lt_mul_of_pos_left amount (by omega)
  have upTo (m : Nat) (below : m < k) : w * m + j < w * k := by
    calc w * m + j < w * m + w := by omega
      _ = w * (m + 1) := by ring
      _ ≤ w * k := Nat.mul_le_mul_left w below
  rw [getLsbD_lane bound, getLsbD_lane bound, BitVec.getLsbD_rotateLeft, Nat.mod_eq_of_lt short]
  by_cases early : i < r
  · have low : w * i + j < w * r := by
      calc w * i + j < w * i + w := by omega
        _ = w * (i + 1) := by ring
        _ ≤ w * r := Nat.mul_le_mul_left w early
    have wraps : (i + (k - r)) % k = k - r + i := by
      rw [Nat.add_comm, Nat.mod_eq_of_lt (by omega)]
    rw [decide_eq_true low, cond_true, wraps, Nat.mul_add, Nat.mul_sub]
    congr 1
    omega
  · have high : ¬ w * i + j < w * r := by
      have := Nat.mul_le_mul_left w (Nat.le_of_not_lt early)
      omega
    have wraps : (i + (k - r)) % k = i - r := by
      rw [show i + (k - r) = (i - r) + k by omega, Nat.add_mod_right, Nat.mod_eq_of_lt (by omega)]
    rw [decide_eq_false high, cond_false, wraps, Nat.mul_sub, decide_eq_true (upTo i inside), Bool.true_and]
    have := Nat.mul_le_mul_left w (Nat.le_of_not_lt early)
    congr 1
    omega

section bytes

theorem leBytes_getElem {count n : Nat} (inside : i < (leBytes count n).length) :
    (leBytes count n)[i] = UInt8.ofNat (n / 256 ^ i % 256) := by
  induction count generalizing n i with
  | zero => simp [leBytes] at inside
  | succ count ih =>
    cases i with
    | zero => simp [leBytes]
    | succ i =>
      have later := ih (n := n / 256) (i := i) (by simpa [leBytes] using inside)
      simp only [leBytes, List.getElem_cons_succ, later, Nat.div_div_eq_div_mul]
      rw [pow_succ, Nat.mul_comm 256]

theorem toNat_lane {v : BitVec n} : (lane w v i).toNat = v.toNat / 2 ^ (w * i) % 2 ^ w := by
  rw [lane, BitVec.extractLsb'_toNat, Nat.shiftRight_eq_div_pow]

theorem leBytes_toNat (v : BitVec n) (count : Nat) :
    leBytes count v.toNat = (List.range count).map fun i => UInt8.ofBitVec (lane 8 v i) := by
  apply List.ext_getElem
  · simp
  · intro i first second
    rw [leBytes_getElem first, List.getElem_map, List.getElem_range]
    apply UInt8.toNat_inj.mp
    have power : (256 : Nat) ^ i = 2 ^ (8 * i) := by
      rw [pow_mul]
      norm_num
    rw [UInt8.toNat_ofNat', UInt8.toNat_ofBitVec, toNat_lane, power]
    omega

theorem ofLeBytes_digit {bytes : List UInt8} (inside : i < bytes.length) :
    ofLeBytes bytes / 256 ^ i % 256 = bytes[i].toNat := by
  induction bytes generalizing i with
  | nil => cases inside
  | cons b rest ih =>
    have digit : b.toNat < 256 := b.toNat_lt
    cases i with
    | zero =>
      simp only [ofLeBytes, pow_zero, Nat.div_one, List.getElem_cons_zero]
      omega
    | succ i =>
      have later := ih (i := i) (by simpa using inside)
      rw [List.getElem_cons_succ, ← later, ofLeBytes, pow_succ, Nat.mul_comm (256 ^ i), ← Nat.div_div_eq_div_mul]
      congr 2
      omega

theorem lane_ofLeBytes {bytes : List UInt8} (inside : i < bytes.length) (wide : 8 * i + 8 ≤ n) :
    lane 8 (BitVec.ofNat n (ofLeBytes bytes)) i = bytes[i].toBitVec := by
  apply BitVec.eq_of_toNat_eq
  have digit := ofLeBytes_digit inside
  have power : (256 : Nat) ^ i = 2 ^ (8 * i) := by
    rw [pow_mul]
    norm_num
  have range : 2 ^ n = 2 ^ (8 * i) * (2 ^ 8 * 2 ^ (n - (8 * i + 8))) := by
    rw [← pow_add, ← pow_add]
    congr 1
    omega
  rw [power] at digit
  rw [toNat_lane, BitVec.toNat_ofNat, UInt8.toNat_toBitVec, ← digit, range, Nat.mod_mul_right_div_self,
    Nat.mod_mul_right_mod]
  norm_num

end bytes

end Lanes
