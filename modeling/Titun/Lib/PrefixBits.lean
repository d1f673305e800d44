import Mathlib.Data.Nat.Bitwise
import Mathlib.Tactic

/-! Prefixes of fixed-width words. Bit positions are counted from the most
significant end, so that a prefix of length `n` is the bits `0 … n - 1`. -/
namespace PrefixBits

/-- The first `n` bits of the two words are the same. -/
def SamePrefix (n : Nat) (a b : BitVec w) : Prop := ∀ i < n, a.getMsbD i = b.getMsbD i

instance (n : Nat) (a b : BitVec w) : Decidable (SamePrefix n a b) :=
  inferInstanceAs (Decidable (∀ i < n, a.getMsbD i = b.getMsbD i))

@[simp] theorem SamePrefix.zero (a b : BitVec w) : SamePrefix 0 a b := by
  intro i h; omega

theorem SamePrefix.refl (n : Nat) (a : BitVec w) : SamePrefix n a a := fun _ _ => rfl

theorem SamePrefix.symm {a b : BitVec w} (h : SamePrefix n a b) : SamePrefix n b a :=
  fun i hi => (h i hi).symm

theorem SamePrefix.trans {a b c : BitVec w} (h : SamePrefix n a b) (k : SamePrefix n b c) :
    SamePrefix n a c := fun i hi => (h i hi).trans (k i hi)

theorem SamePrefix.mono {a b : BitVec w} (h : SamePrefix n a b) (le : m ≤ n) : SamePrefix m a b :=
  fun i hi => h i (by omega)

theorem SamePrefix.eq {a b : BitVec w} (h : SamePrefix n a b) (full : w ≤ n) : a = b :=
  BitVec.eq_of_getMsbD_eq fun i hi => h i (by omega)

/-- The mask that keeps the first `n` bits. -/
def highMask (n : Nat) : BitVec w := BitVec.allOnes w <<< (w - n)

@[simp] theorem getMsbD_highMask (n i : Nat) :
    (highMask n : BitVec w).getMsbD i = decide (i < n ∧ i < w) := by
  simp only [highMask, BitVec.getMsbD_shiftLeft, BitVec.getMsbD_allOnes, decide_eq_decide]
  omega

@[simp] theorem highMask_zero : (highMask 0 : BitVec w) = 0 := by
  apply BitVec.eq_of_getMsbD_eq
  intro i hi
  simp

theorem highMask_full : (highMask w : BitVec w) = BitVec.allOnes w := by
  apply BitVec.eq_of_getMsbD_eq
  intro i hi
  simp [hi]

theorem highMask_injective {m n : Nat} (hm : m ≤ w) (hn : n ≤ w)
    (same : (highMask m : BitVec w) = highMask n) : m = n := by
  have low := congrArg (fun x : BitVec w => x.getMsbD m) same
  have high := congrArg (fun x : BitVec w => x.getMsbD n) same
  simp only [getMsbD_highMask, decide_eq_decide] at low high
  omega

theorem and_highMask_eq_iff {a b : BitVec w} :
    a &&& highMask n = b &&& highMask n ↔ SamePrefix n a b := by
  constructor
  · intro h i hi
    have bit := congrArg (fun x : BitVec w => x.getMsbD i) h
    by_cases inside : i < w
    · simpa [hi, inside] using bit
    · rw [BitVec.getMsbD_of_ge _ _ (by omega), BitVec.getMsbD_of_ge _ _ (by omega)]
  · intro h
    apply BitVec.eq_of_getMsbD_eq
    intro i hi
    by_cases kept : i < n
    · simp [kept, hi, h i kept]
    · simp [kept]

theorem samePrefix_and_highMask (a : BitVec w) (le : m ≤ n) :
    SamePrefix m (a &&& highMask n) a := by
  intro i hi
  by_cases inside : i < w
  · simp [show i < n by omega, inside]
  · rw [BitVec.getMsbD_of_ge _ _ (by omega), BitVec.getMsbD_of_ge _ _ (by omega)]

@[simp] theorem and_highMask_idem (a : BitVec w) :
    a &&& highMask n &&& highMask n = a &&& highMask n :=
  and_highMask_eq_iff.mpr (samePrefix_and_highMask a (Nat.le_refl n))

theorem SamePrefix.eq_of_masked {a b : BitVec w} (h : SamePrefix n a b)
    (ha : a &&& highMask n = a) (hb : b &&& highMask n = b) : a = b := by
  rw [← ha, ← hb]
  exact and_highMask_eq_iff.mpr h

/-- The word with only bit `n` set. -/
def probe (n : Nat) : BitVec w := (1#w).rotateRight 1 >>> n

theorem getMsbD_probe (n i : Nat) :
    (probe n : BitVec w).getMsbD i = decide (i = n ∧ i < w) := by
  simp only [probe, BitVec.getMsbD_ushiftRight, BitVec.getMsbD_rotateRight, BitVec.getMsbD_one]
  by_cases wide : w ≤ 1
  · obtain rfl | rfl : w = 0 ∨ w = 1 := by omega
    · simp
    · by_cases h : i < 1 <;> by_cases k : i < n <;> simp [h, k] <;> omega
  · have one : 1 % w = 1 := Nat.mod_eq_of_lt (by omega)
    by_cases inside : i < w
    · by_cases before : i < n
      · simp [before]; omega
      · by_cases here : i - n < 1
        · have at_n : i = n := by omega
          subst at_n
          simp only [one, inside, Nat.sub_self, Nat.lt_irrefl, Nat.zero_lt_one, if_true, and_self,
            Nat.add_zero, Nat.mod_eq_of_lt (show w - 1 < w by omega)]
          simp; omega
        · have shifted : ¬ (i - n - 1 = w - 1) := by omega
          simp [one, here, before, shifted]; omega
    · simp [inside]

theorem and_probe_ne_zero_iff {a : BitVec w} : a &&& probe n ≠ 0 ↔ a.getMsbD n = true := by
  constructor
  · intro h
    by_contra unset
    apply h
    apply BitVec.eq_of_getMsbD_eq
    intro i hi
    by_cases here : i = n
    · subst i; simp [unset]
    · simp [getMsbD_probe, here]
  · intro h zero
    have bit := congrArg (fun x : BitVec w => x.getMsbD n) zero
    have inside := BitVec.lt_of_getMsbD h
    simp [getMsbD_probe, h, inside] at bit

/-- How many leading bits of the two words agree. -/
def agreement (a b : BitVec w) : Nat := (a ^^^ b).clz.toNat

@[simp] theorem agreement_self (a : BitVec w) : agreement a a = w := by
  have zero : (a ^^^ a).clz = BitVec.ofNat w w :=
    BitVec.clz_eq_iff_eq_zero.mpr BitVec.xor_self
  rw [agreement, zero, BitVec.toNat_ofNat, Nat.mod_eq_of_lt Nat.lt_two_pow_self]

theorem samePrefix_agreement (a b : BitVec w) : SamePrefix (agreement a b) a b := by
  intro i hi
  by_cases inside : i < w
  · have bound : (a ^^^ b).toNat < 2 ^ (w - agreement a b) := BitVec.toNat_lt_two_pow_sub_clz
    have zero : (a ^^^ b).getLsbD (w - 1 - i) = false :=
      Nat.testBit_eq_false_of_lt (bound.trans_le (Nat.pow_le_pow_right (by omega) (by omega)))
    have bit : (a ^^^ b).getMsbD i = false := by
      rw [BitVec.getMsbD_eq_getLsbD]; simp [zero]
    simpa using bit
  · rw [BitVec.getMsbD_of_ge _ _ (by omega), BitVec.getMsbD_of_ge _ _ (by omega)]

theorem getMsbD_agreement {a b : BitVec w} (different : a ≠ b) :
    a.getMsbD (agreement a b) ≠ b.getMsbD (agreement a b) := by
  have nonzero : a ^^^ b ≠ 0#w := by simpa [BitVec.xor_eq_zero_iff] using different
  have wide : 0 < w := by
    apply Nat.pos_of_ne_zero
    rintro rfl
    exact different (BitVec.eq_of_zero_length rfl)
  have bit := BitVec.getLsbD_true_clz_of_ne_zero wide nonzero
  have inside : agreement a b < w := by
    have less := BitVec.clz_lt_iff_ne_zero.mpr nonzero
    have le : (a ^^^ b).clz.toNat < (BitVec.ofNat w w).toNat := less
    rw [BitVec.toNat_ofNat, Nat.mod_eq_of_lt Nat.lt_two_pow_self] at le
    exact le
  have set : (a ^^^ b).getMsbD (agreement a b) = true := by
    rw [BitVec.getMsbD_eq_getLsbD, decide_eq_true inside, Bool.true_and]
    exact bit
  simpa only [BitVec.getMsbD_xor, ne_eq, bne_iff_ne] using set

/-- Words are ordered by the first bit in which they differ. -/
theorem SamePrefix.toNat_lt {a b : BitVec w} (same : SamePrefix n a b) (left : a.getMsbD n = false)
    (right : b.getMsbD n = true) : a.toNat < b.toNat := by
  have inside : n < w := by
    by_contra outside
    simp [BitVec.getMsbD, outside] at right
  have lsb (c : BitVec w) (i : Nat) (small : i < w) : c.toNat.testBit (w - 1 - i) = c.getMsbD i := by
    rw [BitVec.testBit_toNat, BitVec.getMsbD_eq_getLsbD]
    simp [small]
  apply Nat.lt_of_testBit (w - 1 - n)
  · rw [lsb a n inside, left]
  · rw [lsb b n inside, right]
  · intro j above
    by_cases small : j < w
    · have position : w - 1 - (w - 1 - j) = j := by omega
      rw [← position, lsb a _ (by omega), lsb b _ (by omega)]
      exact same _ (by omega)
    · rw [BitVec.testBit_toNat, BitVec.testBit_toNat, BitVec.getLsbD_of_ge a j (by omega),
        BitVec.getLsbD_of_ge b j (by omega)]

theorem toNat_le_of_masked {a k : BitVec w} (masked : k &&& highMask n = k) (same : SamePrefix n a k) :
    k.toNat ≤ a.toNat := by
  rw [← masked, ← and_highMask_eq_iff.mpr same, BitVec.toNat_and]
  exact Nat.and_le_left

end PrefixBits
