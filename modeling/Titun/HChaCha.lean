import Titun.Lib.ChaCha20
import Titun.Simd

/-! HChaCha20 on vectors of four words. -/
namespace Titun

open ChaCha20

/-- The state: a vector for each row. -/
structure Rows (V : Type) where
  r0 : V
  r1 : V
  r2 : V
  r3 : V

namespace U32x4

variable {V : Type} (simd : U32x4 V)

def round (state : Rows V) : Exec (Rows V) := do
  let state := { state with r0 := simd.add state.r0 state.r1 }
  let state := { state with r3 := simd.xor state.r3 state.r0 }
  let state := { state with r3 := ← simd.rotateLeftConst state.r3 16 }
  let state := { state with r2 := simd.add state.r2 state.r3 }
  let state := { state with r1 := simd.xor state.r1 state.r2 }
  let state := { state with r1 := ← simd.rotateLeftConst state.r1 12 }
  let state := { state with r0 := simd.add state.r0 state.r1 }
  let state := { state with r3 := simd.xor state.r3 state.r0 }
  let state := { state with r3 := ← simd.rotateLeftConst state.r3 8 }
  let state := { state with r2 := simd.add state.r2 state.r3 }
  let state := { state with r1 := simd.xor state.r1 state.r2 }
  let state := { state with r1 := ← simd.rotateLeftConst state.r1 7 }
  return state

def shuffle (state : Rows V) : Exec (Rows V) := do
  let state := { state with r0 := ← simd.shuffleLeft state.r0 1 }
  let state := { state with r1 := ← simd.shuffleLeft state.r1 2 }
  let state := { state with r2 := ← simd.shuffleLeft state.r2 3 }
  return state

def unshuffle (state : Rows V) : Exec (Rows V) := do
  let state := { state with r0 := ← simd.shuffleRight state.r0 1 }
  let state := { state with r1 := ← simd.shuffleRight state.r1 2 }
  let state := { state with r2 := ← simd.shuffleRight state.r2 3 }
  return state

def roundPair (state : Rows V) : Exec (Rows V) := do
  let state ← simd.round state
  let state ← simd.shuffle state
  let state ← simd.round state
  simd.unshuffle state

/-- The loop of `hchacha_real`. -/
def roundPairs : Nat → Rows V → Exec (Rows V)
  | 0, state => return state
  | n + 1, state => do
    let state ← simd.roundPair state
    roundPairs n state

def hchachaReal (key : U8Array 32) (nonce : U8Array 16) : Exec (U8Array 32) := do
  let state : Rows V :=
    ⟨simd.new 0x61707865 0x3320646e 0x79622d32 0x6b206574,
      simd.loadLe ⟨key.val.take 16, by simp⟩,
      simd.loadLe ⟨key.val.drop 16, by simp⟩,
      simd.loadLe nonce⟩
  let state ← simd.roundPairs 10 state
  return ⟨(simd.storeLe state.r0).val ++ (simd.storeLe state.r3).val, by simp⟩

variable {simd} {word : V → Fin 4 → BitVec 32}

/-- The words of the rows in one column. -/
def quad (word : V → Fin 4 → BitVec 32) (state : Rows V) (j : Fin 4) : Quad :=
  ⟨word state.r0 j, word state.r1 j, word state.r2 j, word state.r3 j⟩

/-- The rows hold a state of ChaCha20. -/
def Represents (word : V → Fin 4 → BitVec 32) (state : Rows V) (s : State) : Prop :=
  ∀ j, quad word state j = column s j

/-- A round is a quarter round in every column. -/
theorem round_quarters (lawful : simd.Lawful word) (state : Rows V) : ∃ next, simd.round state = .ok next ∧
    ∀ j, quad word next j = quarter (quad word state j) := by
  obtain ⟨d, rotated, first⟩ := lawful.rotateLeft (simd.xor state.r3 (simd.add state.r0 state.r1)) 16
    (by decide) (by decide)
  obtain ⟨b, rotated', second⟩ := lawful.rotateLeft (simd.xor state.r1 (simd.add state.r2 d)) 12
    (by decide) (by decide)
  obtain ⟨d', rotated'', third⟩ := lawful.rotateLeft
    (simd.xor d (simd.add (simd.add state.r0 state.r1) b)) 8 (by decide) (by decide)
  obtain ⟨b', rotated''', fourth⟩ := lawful.rotateLeft (simd.xor b (simd.add (simd.add state.r2 d) d')) 7
    (by decide) (by decide)
  refine ⟨⟨simd.add (simd.add state.r0 state.r1) b, b', simd.add (simd.add state.r2 d) d', d'⟩, ?_, fun j => ?_⟩
  · simp only [round, rotated, rotated', rotated'', rotated''', ok_bind]
    rfl
  · simp only [quad, quarter, lawful.add, lawful.xor, first, second, third, fourth]

theorem shuffle_turns (lawful : simd.Lawful word) (state : Rows V) : ∃ next, simd.shuffle state = .ok next ∧
    ∀ j, quad word next j =
      ⟨word state.r0 (j + 1), word state.r1 (j + 2), word state.r2 (j + 3), word state.r3 j⟩ := by
  obtain ⟨a, turned, first⟩ := lawful.shuffleLeft state.r0 1 (by decide)
  obtain ⟨b, turned', second⟩ := lawful.shuffleLeft state.r1 2 (by decide)
  obtain ⟨c, turned'', third⟩ := lawful.shuffleLeft state.r2 3 (by decide)
  refine ⟨⟨a, b, c, state.r3⟩, ?_, fun j => ?_⟩
  · have one : simd.shuffleLeft state.r0 1 = .ok a := turned
    have two : simd.shuffleLeft state.r1 2 = .ok b := turned'
    have three : simd.shuffleLeft state.r2 3 = .ok c := turned''
    simp only [shuffle, one, two, three, ok_bind]
    rfl
  · simp only [quad, first, second, third]

theorem unshuffle_turns (lawful : simd.Lawful word) (state : Rows V) : ∃ next, simd.unshuffle state = .ok next ∧
    ∀ j, quad word next j =
      ⟨word state.r0 (j - 1), word state.r1 (j - 2), word state.r2 (j - 3), word state.r3 j⟩ := by
  obtain ⟨a, turned, first⟩ := lawful.shuffleRight state.r0 1 (by decide)
  obtain ⟨b, turned', second⟩ := lawful.shuffleRight state.r1 2 (by decide)
  obtain ⟨c, turned'', third⟩ := lawful.shuffleRight state.r2 3 (by decide)
  refine ⟨⟨a, b, c, state.r3⟩, ?_, fun j => ?_⟩
  · have one : simd.shuffleRight state.r0 1 = .ok a := turned
    have two : simd.shuffleRight state.r1 2 = .ok b := turned'
    have three : simd.shuffleRight state.r2 3 = .ok c := turned''
    simp only [unshuffle, one, two, three, ok_bind]
    rfl
  · simp only [quad, first, second, third]

/-- Where the rows have been turned, the columns are the diagonals, from the second one on. -/
theorem turned_column (s : State) (j : Fin 4) :
    (⟨s (cell 0 (j + 1)), s (cell 1 (j + 2)), s (cell 2 (j + 3)), s (cell 3 j)⟩ : Quad) = diagonal s (j + 1) := by
  have places : j + 1 + 1 = j + 2 ∧ j + 1 + 2 = j + 3 ∧ j + 1 + 3 = j := by
    revert j
    decide
  rw [diagonal, places.1, places.2.1, places.2.2]

theorem turned_diagonal (s : State) (j : Fin 4) :
    (⟨(diagonal s (j - 1 + 1)).a, (diagonal s (j - 2 + 1)).b, (diagonal s (j - 3 + 1)).c,
      (diagonal s (j + 1)).d⟩ : Quad) = column s j := by
  have places : j - 1 + 1 = j ∧ j - 2 + 1 + 1 = j ∧ j - 3 + 1 + 2 = j ∧ j + 1 + 3 = j := by
    revert j
    decide
  simp only [diagonal, column, places]

theorem roundPair_doubles (lawful : simd.Lawful word) {state : Rows V} {s : State}
    (represents : Represents word state s) :
    ∃ next, simd.roundPair state = .ok next ∧ Represents word next (doubleRound s) := by
  obtain ⟨mixed, mixes, columns⟩ := round_quarters lawful state
  obtain ⟨turned, turns, shuffled⟩ := shuffle_turns lawful mixed
  obtain ⟨mixed', mixes', diagonals⟩ := round_quarters lawful turned
  obtain ⟨next, turnsBack, unshuffled⟩ := unshuffle_turns lawful mixed'
  refine ⟨next, by simp only [roundPair, mixes, turns, mixes', turnsBack, ok_bind], fun j => ?_⟩
  have inColumns (j : Fin 4) : quad word mixed j = column (columnRound s) j := by
    rw [columns, represents, column_columnRound]
  have inDiagonals (j : Fin 4) : quad word mixed' j = diagonal (doubleRound s) (j + 1) := by
    have turnedColumn : quad word turned j = diagonal (columnRound s) (j + 1) := by
      rw [shuffled, ← turned_column]
      congr 1
      · exact congrArg Quad.a (inColumns (j + 1))
      · exact congrArg Quad.b (inColumns (j + 2))
      · exact congrArg Quad.c (inColumns (j + 3))
      · exact congrArg Quad.d (inColumns j)
    rw [diagonals, turnedColumn, doubleRound, diagonal_diagonalRound]
  rw [unshuffled, ← turned_diagonal]
  congr 1
  · exact congrArg Quad.a (inDiagonals (j - 1))
  · exact congrArg Quad.b (inDiagonals (j - 2))
  · exact congrArg Quad.c (inDiagonals (j - 3))
  · exact congrArg Quad.d (inDiagonals j)

theorem roundPairs_double (lawful : simd.Lawful word) (n : Nat) {state : Rows V} {s : State}
    (represents : Represents word state s) :
    ∃ next, simd.roundPairs n state = .ok next ∧ Represents word next (doubleRound^[n] s) := by
  induction n generalizing state s with
  | zero => exact ⟨state, rfl, represents⟩
  | succ n ih =>
    obtain ⟨middle, doubles, doubled⟩ := roundPair_doubles lawful represents
    obtain ⟨next, others, rest⟩ := ih doubled
    refine ⟨next, ?_, rest⟩
    rw [roundPairs, doubles, ok_bind, others]

theorem initial_represents (lawful : simd.Lawful word) (key : U8Array 32) (nonce : U8Array 16) :
    Represents word
      ⟨simd.new 0x61707865 0x3320646e 0x79622d32 0x6b206574, simd.loadLe ⟨key.val.take 16, by simp⟩,
        simd.loadLe ⟨key.val.drop 16, by simp⟩, simd.loadLe nonce⟩ (initial key.val nonce.val) := by
  intro j
  have bound := j.isLt
  rw [quad, lawful.new, lawful.loadLe, lawful.loadLe, lawful.loadLe, column]
  have places : (cell 1 j).val = 4 + j ∧ (cell 2 j).val = 8 + j ∧ (cell 3 j).val = 12 + j := ⟨rfl, rfl, rfl⟩
  obtain ⟨second, third, fourth⟩ := places
  have four : 4 * j.val + 4 - 4 * j.val = 4 := by omega
  congr 1
  · fin_cases j <;> rfl
  · rw [initial, second, if_neg (by omega), if_pos (by omega), wordAt, leWord, sub, List.drop_take, List.take_take,
      four, Nat.add_sub_cancel_left, Nat.min_eq_left (by omega)]
  · have index : 4 * (8 + j.val - 4) = 16 + 4 * j.val := by omega
    rw [initial, third, if_neg (by omega), if_pos (by omega), wordAt, leWord, sub, List.drop_drop, four, index]
  · rw [initial, fourth, if_neg (by omega), if_neg (by omega), wordAt, leWord, sub, four, Nat.add_sub_cancel_left]

/-- Over any lawful vectors this is HChaCha20. -/
theorem hchachaReal_eq (lawful : simd.Lawful word) (key : U8Array 32) (nonce : U8Array 16) :
    ∃ out, simd.hchachaReal key nonce = .ok out ∧ out.val = hchacha20 key.val nonce.val := by
  obtain ⟨next, ok, represents⟩ := roundPairs_double lawful 10 (initial_represents lawful key nonce)
  have first : word next.r0 = fun j => doubleRound^[10] (initial key.val nonce.val) (cell 0 j) :=
    funext fun j => congrArg Quad.a (represents j)
  have last : word next.r3 = fun j => doubleRound^[10] (initial key.val nonce.val) (cell 3 j) :=
    funext fun j => congrArg Quad.d (represents j)
  refine ⟨⟨(simd.storeLe next.r0).val ++ (simd.storeLe next.r3).val, by simp⟩, ?_, ?_⟩
  · rw [hchachaReal, ok]
    rfl
  · generalize made : doubleRound^[10] (initial key.val nonce.val) = s at first last
    calc (simd.storeLe next.r0).val ++ (simd.storeLe next.r3).val
        = leWordBytes (fun j => s (cell 0 j)) ++ leWordBytes (fun j => s (cell 3 j)) := by
          rw [lawful.storeLe, lawful.storeLe, first, last]
      _ = hchacha20 key.val nonce.val := by
          have rows : List.finRange 4 = [0, 1, 2, 3] := rfl
          simp only [hchacha20, made, leWordBytes, wordBytes, rows, List.flatMap_cons, List.flatMap_nil,
            List.append_nil, List.append_assoc]
          rfl

end U32x4

/-- The vectors that the build selects, and whether the processor can shuffle bytes. -/
inductive Target where
  | sse2 (ssse3Detected : Bool)
  | fallback

def hchacha (target : Target) (key : U8Array 32) (nonce : U8Array 16) : Exec (U8Array 32) :=
  match target with
  | .sse2 true => (SimdX86.u32x4 SimdX86.SSSE3Machine).hchachaReal key nonce
  | .sse2 false => (SimdX86.u32x4 SimdX86.SSE2Machine).hchachaReal key nonce
  | .fallback => SimdFallback.u32x4.hchachaReal key nonce

/-- On every machine the result is that of HChaCha20. -/
theorem hchacha_is_reference (key : U8Array 32) (nonce : U8Array 16) :
    ∃ out : U8Array 32, out.val = hchacha20 key.val nonce.val ∧
      (∀ m : SimdX86.Machine, (SimdX86.u32x4 m).hchachaReal key nonce = .ok out) ∧
      SimdFallback.u32x4.hchachaReal key nonce = .ok out ∧
      ∀ target, hchacha target key nonce = .ok out := by
  obtain ⟨out, ok, reference⟩ := U32x4.hchachaReal_eq SimdFallback.u32x4_lawful key nonce
  have x86 (m : SimdX86.Machine) : (SimdX86.u32x4 m).hchachaReal key nonce = .ok out := by
    obtain ⟨other, ok', reference'⟩ := U32x4.hchachaReal_eq (SimdX86.u32x4_lawful m) key nonce
    rw [ok', Subtype.ext (reference'.trans reference.symm)]
  refine ⟨out, reference, x86, ok, fun target => ?_⟩
  cases target with
  | sse2 ssse3Detected =>
    cases ssse3Detected with
    | true => exact x86 SimdX86.SSSE3Machine
    | false => exact x86 SimdX86.SSE2Machine
  | fallback => exact ok

end Titun
