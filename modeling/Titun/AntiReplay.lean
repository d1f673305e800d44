import Titun.Basic
import Titun.Lib.ReplayWindow

/-! The anti-replay bitmap (RFC 6479): 64 words of 32 bits, used as a ring indexed
by the upper bits of the sequence number. -/
namespace Titun

def BITMAP_BITLEN : Nat := 2048
def SIZE_OF_INTEGER : Nat := 32
def BITMAP_LEN : Nat := BITMAP_BITLEN / SIZE_OF_INTEGER
def BITMAP_INDEX_MASK : BitVec 64 := BitVec.ofNat 64 (BITMAP_LEN - 1)
def REDUNDANT_BIT_SHIFTS : Nat := 5
def BITMAP_LOC_MASK : BitVec 64 := BitVec.ofNat 64 (SIZE_OF_INTEGER - 1)
def WINDOW_SIZE : Nat := BITMAP_BITLEN - SIZE_OF_INTEGER

structure AntiReplay where
  bitmap : Vector (BitVec 32) BITMAP_LEN
  last : BitVec 64
  deriving DecidableEq

namespace AntiReplay

theorem index_lt (index : BitVec 64) : (index &&& BITMAP_INDEX_MASK).toNat < BITMAP_LEN := by
  rw [BitVec.toNat_and]
  exact Nat.lt_of_le_of_lt Nat.and_le_right (by decide)

/-- The word of the bitmap that an index falls on. -/
def slot (index : BitVec 64) : Fin BITMAP_LEN := ⟨(index &&& BITMAP_INDEX_MASK).toNat, index_lt index⟩

def getWord (bitmap : Vector (BitVec 32) BITMAP_LEN) (i : Fin BITMAP_LEN) : BitVec 32 := bitmap[i]

def setWord (bitmap : Vector (BitVec 32) BITMAP_LEN) (i : Fin BITMAP_LEN) (word : BitVec 32) :
    Vector (BitVec 32) BITMAP_LEN := bitmap.set i word

@[simp] theorem getWord_setWord (bitmap : Vector (BitVec 32) BITMAP_LEN) (i j : Fin BITMAP_LEN)
    (word : BitVec 32) :
    getWord (setWord bitmap i word) j = if j = i then word else getWord bitmap j := by
  simp only [getWord, setWord, Fin.getElem_fin, Vector.getElem_set, eq_comm, Fin.ext_iff]

@[simp] theorem getWord_replicate (i : Fin BITMAP_LEN) :
    getWord (Vector.replicate BITMAP_LEN 0#32) i = 0#32 := by simp [getWord]

def new : AntiReplay := ⟨Vector.replicate BITMAP_LEN 0, 0⟩

/-- Returns true if check is passed, i.e., not a replay or too old. -/
def check (ar : AntiReplay) (seq : BitVec 64) : Bool :=
  -- Larger is always good.
  if seq > ar.last then true
  else if ar.last - seq > BitVec.ofNat 64 WINDOW_SIZE then false
  else
    let bitLocation := seq &&& BITMAP_LOC_MASK
    let index := seq >>> REDUNDANT_BIT_SHIFTS
    getWord ar.bitmap (slot index) &&& (1#32 <<< bitLocation.toNat) == 0

/-- The loop that zeroes the words between the old and the new index. -/
def clearWords (indexCur : BitVec 64) (diff : Nat) (bitmap : Vector (BitVec 32) BITMAP_LEN) :
    Vector (BitVec 32) BITMAP_LEN :=
  (List.range diff).foldl (fun bitmap i => setWord bitmap (slot (indexCur + BitVec.ofNat 64 i + 1)) 0) bitmap

/-- Should only be called if check returns true. -/
def update (ar : AntiReplay) (seq : BitVec 64) : AntiReplay :=
  let index := seq >>> REDUNDANT_BIT_SHIFTS
  let ar :=
    if seq > ar.last then
      let indexCur := ar.last >>> REDUNDANT_BIT_SHIFTS
      let diff := index - indexCur
      if diff ≥ BitVec.ofNat 64 BITMAP_LEN then ⟨Vector.replicate BITMAP_LEN 0, seq⟩
      else ⟨clearWords indexCur diff.toNat ar.bitmap, seq⟩
    else ar
  let bitLocation := seq &&& BITMAP_LOC_MASK
  { ar with
    bitmap := setWord ar.bitmap (slot index) (getWord ar.bitmap (slot index) ||| (1#32 <<< bitLocation.toNat)) }

def checkAndUpdate (ar : AntiReplay) (seq : BitVec 64) : Bool × AntiReplay :=
  if ar.check seq then (true, ar.update seq) else (false, ar)

/-- The numbers accepted by a sequence of calls, in order, and the state they leave. -/
def run (ar : AntiReplay) : List (BitVec 64) → List (BitVec 64) × AntiReplay
  | [] => ([], ar)
  | seq :: seqs =>
    let (ok, next) := ar.checkAndUpdate seq
    let (accepted, last) := next.run seqs
    (if ok then seq :: accepted else accepted, last)

/-! The bitmap read as bits of sequence numbers. -/

/-- The word that holds a number, whichever cycle of the ring it belongs to. -/
def wordOf (n : Nat) : Fin BITMAP_LEN := ⟨n / 32 % 64, Nat.mod_lt _ (by decide)⟩

def bit (bitmap : Vector (BitVec 32) BITMAP_LEN) (n : Nat) : Bool :=
  (getWord bitmap (wordOf n)).getLsbD (n % 32)

theorem index_toNat (seq : BitVec 64) : (seq >>> REDUNDANT_BIT_SHIFTS).toNat = seq.toNat / 32 := by
  rw [BitVec.toNat_ushiftRight, Nat.shiftRight_eq_div_pow]
  rfl

theorem slot_val (index : BitVec 64) : (slot index).val = index.toNat % 64 := by
  simp only [slot, BitVec.toNat_and]
  exact Nat.and_two_pow_sub_one_eq_mod index.toNat 6

theorem slot_index (seq : BitVec 64) : slot (seq >>> REDUNDANT_BIT_SHIFTS) = wordOf seq.toNat := by
  apply Fin.ext
  rw [slot_val, index_toNat]
  rfl

theorem location_toNat (seq : BitVec 64) : (seq &&& BITMAP_LOC_MASK).toNat = seq.toNat % 32 := by
  rw [BitVec.toNat_and]
  exact Nat.and_two_pow_sub_one_eq_mod seq.toNat 5

theorem and_one_shift_eq_zero (word : BitVec 32) (i : Nat) (h : i < 32) :
    (word &&& (1#32 <<< i) == 0) = !word.getLsbD i := by
  rw [Bool.eq_iff_iff, beq_iff_eq, Bool.not_eq_true']
  constructor
  · intro zero
    have := congrArg (fun x : BitVec 32 => x.getLsbD i) zero
    simpa [h] using this
  · intro unset
    apply BitVec.eq_of_getLsbD_eq
    intro j hj
    by_cases at_bit : j = i
    · subst j; simp [unset]
    · by_cases below : j < i
      · simp [below]
      · simp [show ¬ j - i = 0 by omega]

theorem check_iff (ar : AntiReplay) (seq : BitVec 64) :
    ar.check seq = true ↔ ar.last.toNat < seq.toNat ∨
      (ar.last.toNat - seq.toNat ≤ WINDOW_SIZE ∧ bit ar.bitmap seq.toNat = false) := by
  unfold check
  split_ifs with above far
  · have : ar.last.toNat < seq.toNat := above
    simp [this]
  · have le : seq.toNat ≤ ar.last.toNat := Nat.le_of_not_lt above
    have far : (BitVec.ofNat 64 WINDOW_SIZE).toNat < (ar.last - seq).toNat := far
    rw [BitVec.toNat_sub_of_le le] at far
    have wide : WINDOW_SIZE < ar.last.toNat - seq.toNat := far
    simp only [false_iff, not_or, not_and]
    omega
  · have le : seq.toNat ≤ ar.last.toNat := Nat.le_of_not_lt above
    have near : ¬ (BitVec.ofNat 64 WINDOW_SIZE).toNat < (ar.last - seq).toNat := far
    rw [BitVec.toNat_sub_of_le le] at near
    have inside : ar.last.toNat - seq.toNat ≤ WINDOW_SIZE := Nat.le_of_not_lt near
    simp only [location_toNat, slot_index, inside, Nat.not_lt.mpr le, false_or, true_and]
    rw [and_one_shift_eq_zero _ _ (Nat.mod_lt _ (by decide))]
    simp [bit]

theorem bit_setWord_of_ne {bitmap : Vector (BitVec 32) BITMAP_LEN} {i : Fin BITMAP_LEN}
    (apart : wordOf n ≠ i) : bit (setWord bitmap i word) n = bit bitmap n := by
  simp [bit, apart]

theorem bit_setWord_of_eq {bitmap : Vector (BitVec 32) BITMAP_LEN} {i : Fin BITMAP_LEN}
    (same : wordOf n = i) : bit (setWord bitmap i word) n = word.getLsbD (n % 32) := by
  simp [bit, same]

/-- Marking a number sets its own bit and leaves every other bit. -/
theorem bit_mark (bitmap : Vector (BitVec 32) BITMAP_LEN) (seq : BitVec 64) (n : Nat) :
    bit (setWord bitmap (slot (seq >>> REDUNDANT_BIT_SHIFTS))
        (getWord bitmap (slot (seq >>> REDUNDANT_BIT_SHIFTS)) ||| (1#32 <<< (seq &&& BITMAP_LOC_MASK).toNat))) n =
      (decide (n % 2048 = seq.toNat % 2048) || bit bitmap n) := by
  rw [slot_index, location_toNat]
  by_cases same : wordOf n = wordOf seq.toNat
  · rw [bit_setWord_of_eq same, BitVec.getLsbD_or, Bool.or_comm, ← same]
    have words : n / 32 % 64 = seq.toNat / 32 % 64 := congrArg Fin.val same
    have loc : n % 32 < 32 := Nat.mod_lt _ (by decide)
    congr 1
    by_cases at_bit : n % 32 = seq.toNat % 32
    · have : n % 2048 = seq.toNat % 2048 := by omega
      simp [at_bit, this]
      omega
    · have : n % 2048 ≠ seq.toNat % 2048 := by omega
      simp only [this, decide_false]
      by_cases below : n % 32 < seq.toNat % 32
      · simp [below]
      · simp [show ¬ n % 32 - seq.toNat % 32 = 0 by omega]
  · rw [bit_setWord_of_ne same]
    have : n % 2048 ≠ seq.toNat % 2048 := fun eq => same (Fin.ext (by simp only [wordOf]; omega))
    simp [this]

/-- Zeroing `diff` words after the current one clears exactly the numbers on them. -/
theorem bit_clearWords (indexCur : BitVec 64) (diff : Nat)
    (bitmap : Vector (BitVec 32) BITMAP_LEN) (noWrap : indexCur.toNat + diff < 2 ^ 64) (n : Nat) :
    bit (clearWords indexCur diff bitmap) n =
      (bit bitmap n && !decide (∃ i < diff, n / 32 % 64 = (indexCur.toNat + i + 1) % 64)) := by
  induction diff with
  | zero => simp [clearWords]
  | succ diff ih =>
    have unfolded : clearWords indexCur (diff + 1) bitmap =
        setWord (clearWords indexCur diff bitmap) (slot (indexCur + BitVec.ofNat 64 diff + 1)) 0 := by
      simp [clearWords, List.range_succ]
    have place : (slot (indexCur + BitVec.ofNat 64 diff + 1)).val = (indexCur.toNat + diff + 1) % 64 := by
      rw [slot_val]
      congr 1
      rw [BitVec.toNat_add, BitVec.toNat_add, BitVec.toNat_ofNat]
      have : (1 : BitVec 64).toNat = 1 := rfl
      omega
    rw [unfolded]
    by_cases same : wordOf n = slot (indexCur + BitVec.ofNat 64 diff + 1)
    · have word : n / 32 % 64 = (indexCur.toNat + diff + 1) % 64 := by
        rw [← place, ← same]
        rfl
      rw [bit_setWord_of_eq same]
      have hit : ∃ i < diff + 1, n / 32 % 64 = (indexCur.toNat + i + 1) % 64 :=
        ⟨diff, Nat.lt_succ_self diff, word⟩
      rw [decide_eq_true hit]
      simp
    · have word : n / 32 % 64 ≠ (indexCur.toNat + diff + 1) % 64 := by
        rw [← place]
        exact fun eq => same (Fin.ext eq)
      rw [bit_setWord_of_ne same, ih (by omega)]
      congr 2
      rw [decide_eq_decide]
      constructor
      · rintro ⟨i, lt, eq⟩
        exact ⟨i, by omega, eq⟩
      · rintro ⟨i, lt, eq⟩
        by_cases at_end : i = diff
        · subst i; exact absurd eq word
        · exact ⟨i, by omega, eq⟩

/-- What an update does to the words of the window it leaves: it adds the number,
keeps the old words that are still in the window and clears the new ones. -/
theorem update_spec (ar : AntiReplay) (seq : BitVec 64)
    (near : ar.last.toNat - seq.toNat ≤ WINDOW_SIZE) :
    (ar.update seq).last.toNat = max ar.last.toNat seq.toNat ∧
    ∀ n, (ar.update seq).last.toNat / 32 < n / 32 + 64 → n / 32 ≤ (ar.update seq).last.toNat / 32 →
      bit (ar.update seq).bitmap n =
        (decide (n = seq.toNat) || (decide (n / 32 ≤ ar.last.toNat / 32) && bit ar.bitmap n)) := by
  have wide : WINDOW_SIZE = 2016 := rfl
  have range := seq.isLt
  by_cases above : seq > ar.last
  · have lt : ar.last.toNat < seq.toNat := above
    have diff : (seq >>> REDUNDANT_BIT_SHIFTS - ar.last >>> REDUNDANT_BIT_SHIFTS).toNat =
        seq.toNat / 32 - ar.last.toNat / 32 := by
      rw [BitVec.toNat_sub_of_le, index_toNat, index_toNat]
      rw [BitVec.le_def, index_toNat, index_toNat]
      exact Nat.div_le_div_right (Nat.le_of_lt lt)
    have full : seq >>> REDUNDANT_BIT_SHIFTS - ar.last >>> REDUNDANT_BIT_SHIFTS ≥
        BitVec.ofNat 64 BITMAP_LEN ↔ 64 ≤ seq.toNat / 32 - ar.last.toNat / 32 := by
      rw [← diff]
      exact Iff.rfl
    simp only [update, if_pos above]
    by_cases jump : 64 ≤ seq.toNat / 32 - ar.last.toNat / 32
    · simp only [if_pos (full.mpr jump)]
      refine ⟨by omega, fun n inWindow le => ?_⟩
      rw [bit_mark]
      have fresh : ¬ n / 32 ≤ ar.last.toNat / 32 := by omega
      have same : n % 2048 = seq.toNat % 2048 ↔ n = seq.toNat := by omega
      simp [same, fresh, bit]
    · simp only [if_neg (full.not.mpr jump)]
      refine ⟨by omega, fun n inWindow le => ?_⟩
      rw [bit_mark, bit_clearWords _ _ _ (by rw [index_toNat, diff]; omega), index_toNat, diff]
      have same : n % 2048 = seq.toNat % 2048 ↔ n = seq.toNat := by omega
      have cleared : (∃ i < seq.toNat / 32 - ar.last.toNat / 32,
          n / 32 % 64 = (ar.last.toNat / 32 + i + 1) % 64) ↔ ¬ n / 32 ≤ ar.last.toNat / 32 := by
        constructor
        · rintro ⟨i, lt, eq⟩ old
          omega
        · intro new
          exact ⟨n / 32 - ar.last.toNat / 32 - 1, by omega, by congr 1; omega⟩
      simp only [same, cleared, decide_not, Bool.not_not]
      rw [Bool.and_comm]
  · have le : seq.toNat ≤ ar.last.toNat := Nat.le_of_not_lt above
    simp only [update, if_neg above]
    refine ⟨by omega, fun n inWindow inside => ?_⟩
    rw [bit_mark]
    have same : n % 2048 = seq.toNat % 2048 ↔ n = seq.toNat := by omega
    simp [same, inside]

theorem near_of_check {ar : AntiReplay} {seq : BitVec 64} (ok : ar.check seq = true) :
    ar.last.toNat - seq.toNat ≤ WINDOW_SIZE := by
  rcases (check_iff ar seq).mp ok with above | ⟨near, _⟩
  · omega
  · exact near

theorem checkAndUpdate_eq (ar : AntiReplay) (seq : BitVec 64) :
    ar.checkAndUpdate seq = (ar.check seq, if ar.check seq then ar.update seq else ar) := by
  unfold checkAndUpdate
  split_ifs with ok <;> simp [ok]

theorem checkAndUpdate_refused {ar : AntiReplay} {seq : BitVec 64}
    (refused : (ar.checkAndUpdate seq).1 = false) : (ar.checkAndUpdate seq).2 = ar := by
  rw [checkAndUpdate_eq] at refused ⊢
  simp only at refused
  simp [refused]

theorem check_self (ar : AntiReplay) (seq : BitVec 64) :
    (ar.checkAndUpdate seq).2.check seq = false := by
  rw [checkAndUpdate_eq]
  by_cases ok : ar.check seq = true
  · simp only [ok, if_true]
    obtain ⟨last, bits⟩ := update_spec ar seq (near_of_check ok)
    have near := near_of_check ok
    have wide : WINDOW_SIZE = 2016 := rfl
    have set := bits seq.toNat (by omega) (by omega)
    rw [Bool.eq_false_iff, Ne, check_iff, set, last]
    simp
  · simp [ok]

theorem check_stays_refused {ar : AntiReplay} {seq : BitVec 64} (refused : ar.check seq = false)
    (other : BitVec 64) : (ar.checkAndUpdate other).2.check seq = false := by
  rw [checkAndUpdate_eq]
  by_cases ok : ar.check other = true
  swap
  · simp [ok, refused]
  simp only [ok, if_true]
  obtain ⟨last, bits⟩ := update_spec ar other (near_of_check ok)
  have wide : WINDOW_SIZE = 2016 := rfl
  rw [Bool.eq_false_iff, Ne, check_iff, not_or, not_and, Bool.not_eq_false] at refused ⊢
  obtain ⟨below, set⟩ := refused
  refine ⟨by omega, fun near => ?_⟩
  rw [bits seq.toNat (by omega) (by omega), set (by omega)]
  have old : seq.toNat / 32 ≤ ar.last.toNat / 32 := by omega
  simp [old]

/-- The state stands for the list of accepted numbers: `last` is the largest, and
the bits of the words in the ring are exactly the accepted numbers on them. -/
structure Represents (ar : AntiReplay) (accepted : List (BitVec 64)) : Prop where
  last : ar.last.toNat = ReplayWindow.largest (accepted.map BitVec.toNat)
  bits : ∀ n, ar.last.toNat / 32 < n / 32 + 64 → n / 32 ≤ ar.last.toNat / 32 →
    (bit ar.bitmap n = true ↔ n ∈ accepted.map BitVec.toNat)

theorem new_represents : Represents new [] where
  last := rfl
  bits := fun n _ _ => by simp [new, bit]

theorem Represents.check_iff (r : Represents ar accepted) (seq : BitVec 64) :
    ar.check seq = true ↔ ReplayWindow.Accepts WINDOW_SIZE (accepted.map BitVec.toNat) seq.toNat := by
  have wide : WINDOW_SIZE = 2016 := rfl
  rw [AntiReplay.check_iff, ReplayWindow.accepts_iff, ← r.last]
  by_cases above : ar.last.toNat < seq.toNat
  · have new : seq.toNat ∉ accepted.map BitVec.toNat := by
      intro member
      have := ReplayWindow.le_largest member
      rw [← r.last] at this
      omega
    simp only [above, true_or, new, not_false_eq_true, true_and, true_iff]
    omega
  · simp only [above, false_or]
    rw [and_comm]
    apply and_congr_left
    intro near
    rw [← Bool.not_eq_true, r.bits seq.toNat (by omega) (by omega)]

theorem Represents.update (r : Represents ar accepted) {seq : BitVec 64} (ok : ar.check seq = true) :
    Represents (ar.update seq) (accepted ++ [seq]) := by
  obtain ⟨last, bits⟩ := update_spec ar seq (near_of_check ok)
  refine ⟨by rw [last, r.last]; simp, fun n inWindow inside => ?_⟩
  rw [bits n inWindow inside]
  have wide : WINDOW_SIZE = 2016 := rfl
  by_cases old : n / 32 ≤ ar.last.toNat / 32
  · have known := r.bits n (by omega) old
    simp only [List.map_append, List.mem_append, ← known]
    simp [old, or_comm]
  · have new : n ∉ accepted.map BitVec.toNat := by
      intro member
      have := ReplayWindow.le_largest member
      rw [← r.last] at this
      omega
    simp only [List.map_append, List.mem_append, new, false_or]
    simp [old]

/-- One call keeps the representation and accepts by the rule of the replay window. -/
theorem Represents.checkAndUpdate (r : Represents ar accepted) (seq : BitVec 64) :
    Represents (ar.checkAndUpdate seq).2
      (if (ar.checkAndUpdate seq).1 then accepted ++ [seq] else accepted) := by
  rw [checkAndUpdate_eq]
  by_cases ok : ar.check seq = true
  · simpa [ok] using r.update ok
  · simpa [ok] using r

theorem run_represents (r : Represents ar accepted) (seqs : List (BitVec 64)) :
    Represents (ar.run seqs).2 (accepted ++ (ar.run seqs).1) := by
  induction seqs generalizing ar accepted with
  | nil => simpa [run] using r
  | cons seq seqs ih =>
    have next := ih (r.checkAndUpdate seq)
    simp only [run]
    cases ok : (ar.checkAndUpdate seq).1 <;> simpa [ok] using next

theorem run_nodup (r : Represents ar accepted) (distinct : accepted.Nodup) (seqs : List (BitVec 64)) :
    (accepted ++ (ar.run seqs).1).Nodup := by
  induction seqs generalizing ar accepted with
  | nil => simpa [run] using distinct
  | cons seq seqs ih =>
    have next := r.checkAndUpdate seq
    simp only [run]
    cases ok : (ar.checkAndUpdate seq).1 with
    | false =>
      rw [ok] at next
      simpa [ok] using ih next distinct
    | true =>
      rw [ok] at next
      have passed : ar.check seq = true := by rw [checkAndUpdate_eq] at ok; exact ok
      have new : seq ∉ accepted := fun member =>
        ((r.check_iff seq).mp passed).1 (List.mem_map_of_mem member)
      have extended : (accepted ++ [seq]).Nodup := by
        rw [List.nodup_append]
        refine ⟨distinct, by simp, fun a member b at_end => ?_⟩
        rw [List.mem_singleton.mp at_end]
        rintro rfl
        exact new member
      simpa [ok] using ih next extended

/-- After any calls, the next one is accepted exactly when its number was not
accepted before and is above every accepted number or within the window below the
largest. No number is accepted twice. -/
theorem checkAndUpdate_exact (seqs : List (BitVec 64)) (seq : BitVec 64) :
    (((new.run seqs).2.checkAndUpdate seq).1 = true ↔ seq ∉ (new.run seqs).1 ∧
      ((∀ a ∈ (new.run seqs).1, a < seq) ∨
        ReplayWindow.largest ((new.run seqs).1.map BitVec.toNat) - seq.toNat ≤ WINDOW_SIZE)) ∧
    (new.run seqs).1.Nodup := by
  have r : Represents (new.run seqs).2 (new.run seqs).1 := run_represents new_represents seqs
  refine ⟨?_, run_nodup new_represents List.nodup_nil seqs⟩
  rw [checkAndUpdate_eq, r.check_iff, ReplayWindow.Accepts]
  have member : seq.toNat ∈ (new.run seqs).1.map BitVec.toNat ↔ seq ∈ (new.run seqs).1 := by
    simp [BitVec.toNat_inj]
  rw [member]
  simp [BitVec.lt_def]

end AntiReplay
end Titun
