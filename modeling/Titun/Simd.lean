import Titun.Basic
import Titun.Lib.Lanes

/-! Vectors of four words: the two implementations that the build selects from, and what the code
over them relies on. The x86 intrinsics are written as their documentation gives them. -/
namespace Titun

open Endian Lanes

def unreachable {α : Type} : Exec α := .error .assertion

/-- What the code sees of `u32x4`, together with a `Machine`. -/
structure U32x4 (V : Type) where
  new : BitVec 32 → BitVec 32 → BitVec 32 → BitVec 32 → V
  loadLe : U8Array 16 → V
  storeLe : V → U8Array 16
  rotateLeftConst : V → Nat → Exec V
  shuffleLeft : V → Nat → Exec V
  shuffleRight : V → Nat → Exec V
  add : V → V → V
  xor : V → V → V

def leWord (bytes : Bytes) (i : Nat) : BitVec 32 := BitVec.ofNat 32 (ofLeBytes (sub bytes (4 * i) (4 * i + 4)))

/-- `to_le_bytes` of every word. -/
def leWordBytes (words : Fin 4 → BitVec 32) : Bytes := (List.finRange 4).flatMap fun i => leBytes 4 (words i).toNat

theorem leWordBytes_length (words : Fin 4 → BitVec 32) : (leWordBytes words).length = 16 := by
  simp [leWordBytes, List.length_flatMap]

/-- The operations of `u32x4` do to the words of a vector what their names say. -/
structure U32x4.Lawful {V : Type} (simd : U32x4 V) (word : V → Fin 4 → BitVec 32) : Prop where
  new : ∀ a b c d, word (simd.new a b c d) = ![a, b, c, d]
  loadLe : ∀ bytes i, word (simd.loadLe bytes) i = leWord bytes.val i
  storeLe : ∀ v, (simd.storeLe v).val = leWordBytes (word v)
  rotateLeft : ∀ v, ∀ amt, 0 < amt → amt < 32 → ∃ u, simd.rotateLeftConst v amt = .ok u ∧
    ∀ i, word u i = (word v i).rotateLeft amt
  shuffleLeft : ∀ v, ∀ amt : Fin 4, 0 < amt → ∃ u, simd.shuffleLeft v amt = .ok u ∧
    ∀ i, word u i = word v (i + amt)
  shuffleRight : ∀ v, ∀ amt : Fin 4, 0 < amt → ∃ u, simd.shuffleRight v amt = .ok u ∧
    ∀ i, word u i = word v (i - amt)
  add : ∀ u v i, word (simd.add u v) i = word u i + word v i
  xor : ∀ u v i, word (simd.xor u v) i = word u i ^^^ word v i

namespace SimdX86

abbrev M128i := BitVec 128

def setrEpi32 (a b c d : BitVec 32) : M128i := ofLanes 128 32 fun i => [a, b, c, d].getD i 0

/-- The first argument is the last byte. -/
def setEpi8 (bytes : List (BitVec 8)) : M128i := ofLanes 128 8 fun i => bytes.reverse.getD i 0

def loaduSi128 (addr : U8Array 16) : M128i := ofLanes 128 8 fun i => (addr.val.getD i 0).toBitVec

def storeuSi128 (a : M128i) : U8Array 16 :=
  ⟨(List.range 16).map fun i => UInt8.ofBitVec (lane 8 a i), by simp⟩

/-- A byte whose index has its top bit set is cleared. -/
def shuffleEpi8 (a b : M128i) : M128i :=
  ofLanes 128 8 fun i =>
    if (lane 8 b i).getLsbD 7 then 0 else lane 8 a (lane 4 (lane 8 b i) 0).toNat

def selector (imm i : Nat) : Nat := imm / 4 ^ i % 4

def shufflehiEpi16 (a : M128i) (imm : Nat) : M128i :=
  ofLanes 128 16 fun i => if i < 4 then lane 16 a i else lane 16 a (4 + selector imm (i - 4))

def shuffleloEpi16 (a : M128i) (imm : Nat) : M128i :=
  ofLanes 128 16 fun i => if i < 4 then lane 16 a (selector imm i) else lane 16 a i

def shuffleEpi32 (a : M128i) (imm : Nat) : M128i := ofLanes 128 32 fun i => lane 32 a (selector imm i)

/-- Shifting by more than 31 clears a word, as `<<<` does. -/
def slliEpi32 (a : M128i) (imm : Nat) : M128i := ofLanes 128 32 fun i => lane 32 a i <<< imm

def srliEpi32 (a : M128i) (imm : Nat) : M128i := ofLanes 128 32 fun i => lane 32 a i >>> imm

def addEpi32 (a b : M128i) : M128i := ofLanes 128 32 fun i => lane 32 a i + lane 32 b i

/-- `trait Machine` of `simd_x86`. -/
structure Machine where
  hasSsse3 : Bool := false
  hasSse41 : Bool := false

def SSE2Machine : Machine := {}

def SSSE3Machine : Machine := { hasSsse3 := true }

def shuffle16 (v : M128i) (x : List (BitVec 8)) : M128i := shuffleEpi8 v (setEpi8 x.reverse)

def mmShuffleRev (w x y z : Nat) : Nat := z <<< 6 ||| y <<< 4 ||| x <<< 2 ||| w

def rotateLeftAny (v : M128i) (amt : Nat) : Exec M128i :=
  if amt = 0 then .ok v
  else if amt ≤ 31 then .ok (slliEpi32 v amt ||| srliEpi32 v (32 - amt))
  else unreachable

def rotateLeft16 (v : M128i) (m : Machine) : M128i :=
  if m.hasSsse3 then shuffle16 v [2, 3, 0, 1, 6, 7, 4, 5, 10, 11, 8, 9, 14, 15, 12, 13]
  else shuffleloEpi16 (shufflehiEpi16 v 0b10_11_00_01) 0b10_11_00_01

def rotateLeft8 (v : M128i) (m : Machine) : Exec M128i :=
  if m.hasSsse3 then .ok (shuffle16 v [3, 0, 1, 2, 7, 4, 5, 6, 11, 8, 9, 10, 15, 12, 13, 14])
  else rotateLeftAny v 8

def rotateLeft24 (v : M128i) (m : Machine) : Exec M128i :=
  if m.hasSsse3 then .ok (shuffle16 v [1, 2, 3, 0, 5, 6, 7, 4, 9, 10, 11, 8, 13, 14, 15, 12])
  else rotateLeftAny v 24

def rotateLeftConst (m : Machine) (v : M128i) (amt : Nat) : Exec M128i :=
  if amt = 16 then .ok (rotateLeft16 v m)
  else if amt = 8 then rotateLeft8 v m
  else if amt = 24 then rotateLeft24 v m
  else rotateLeftAny v amt

def shuffleLeft (v : M128i) (amt : Nat) : Exec M128i :=
  if amt = 1 then .ok (shuffleEpi32 v (mmShuffleRev 1 2 3 0))
  else if amt = 2 then .ok (shuffleEpi32 v (mmShuffleRev 2 3 0 1))
  else if amt = 3 then .ok (shuffleEpi32 v (mmShuffleRev 3 0 1 2))
  else unreachable

def u32x4 (m : Machine) : U32x4 M128i where
  new := setrEpi32
  loadLe := loaduSi128
  storeLe := storeuSi128
  rotateLeftConst := rotateLeftConst m
  shuffleLeft := shuffleLeft
  shuffleRight v amt := shuffleLeft v (4 - amt)
  add := addEpi32
  xor a b := a ^^^ b

def words (v : M128i) (i : Fin 4) : BitVec 32 := lane 32 v i

theorem words_ofLanes (f : Nat → BitVec 32) (i : Fin 4) : words (ofLanes 128 32 f) i = f i := by
  have bound := i.isLt
  exact lane_ofLanes (by omega)

theorem words_loaduSi128 (addr : U8Array 16) (i : Fin 4) : words (loaduSi128 addr) i = leWord addr.val i := by
  have bound := i.isLt
  apply eq_of_lanes (show 32 = 8 * 4 from rfl)
  intro j inside
  have size : (sub addr.val (4 * i) (4 * i + 4)).length = 4 := by
    rw [sub, List.length_take, List.length_drop, U8Array.length_val]
    omega
  rw [words, lane_lane rfl inside, loaduSi128, lane_ofLanes (by omega), leWord,
    lane_ofLeBytes (by omega) (by omega)]
  simp [sub, List.getD_eq_getElem?_getD, List.getElem?_eq_getElem (show 4 * i.val + j < addr.val.length by
    rw [U8Array.length_val]; omega)]

theorem storeuSi128_bytes (a : M128i) : (storeuSi128 a).val = leWordBytes (words a) := by
  have word (i : Fin 4) : leBytes 4 (words a i).toNat =
      (List.range 4).map fun j => UInt8.ofBitVec (lane 8 a (4 * i + j)) := by
    rw [leBytes_toNat]
    apply List.map_congr_left
    intro j member
    rw [words, lane_lane rfl (List.mem_range.mp member)]
  simp only [leWordBytes, word]
  rfl

theorem lane_shuffle16 (v : M128i) {x : List (BitVec 8)} {i : Nat} (inside : i < 16)
    (index : (x.getD i 0).getLsbD 7 = false) :
    lane 8 (shuffle16 v x) i = lane 8 v (lane 4 (x.getD i 0) 0).toNat := by
  have table : lane 8 (setEpi8 x.reverse) i = x.getD i 0 := by
    rw [setEpi8, List.reverse_reverse, lane_ofLanes (by omega)]
  rw [shuffle16, shuffleEpi8, lane_ofLanes (by omega), table, index]
  rfl

/-- Shuffling bytes within words by a table that turns each of them by `r` bytes rotates the words. -/
theorem words_shuffle16 (v : M128i) {x : List (BitVec 8)} {r : Nat} (amount : r < 4)
    (table : ∀ i < 4, ∀ j < 4, (x.getD (4 * i + j) 0).getLsbD 7 = false ∧
      (lane 4 (x.getD (4 * i + j) 0) 0).toNat = 4 * i + (j + (4 - r)) % 4) (i : Fin 4) :
    words (shuffle16 v x) i = (words v i).rotateLeft (8 * r) := by
  have bound := i.isLt
  apply eq_of_lanes (show 32 = 8 * 4 from rfl)
  intro j inside
  obtain ⟨index, target⟩ := table i bound j inside
  rw [lane_rotateLeft rfl amount inside, words, words, lane_lane rfl inside, lane_shuffle16 v (by omega) index,
    target, lane_lane (show 32 = 8 * 4 from rfl) (Nat.mod_lt _ (by omega))]

theorem lane_shufflehiEpi16 (v : M128i) (imm : Nat) (inside : i < 8) :
    lane 16 (shufflehiEpi16 v imm) i = if i < 4 then lane 16 v i else lane 16 v (4 + selector imm (i - 4)) := by
  rw [shufflehiEpi16, lane_ofLanes (by omega)]

theorem lane_shuffleloEpi16 (v : M128i) (imm : Nat) (inside : i < 8) :
    lane 16 (shuffleloEpi16 v imm) i = if i < 4 then lane 16 v (selector imm i) else lane 16 v i := by
  rw [shuffleloEpi16, lane_ofLanes (by omega)]

theorem lane_swapped (v : M128i) (inside : i < 8) :
    lane 16 (shuffleloEpi16 (shufflehiEpi16 v 0b10_11_00_01) 0b10_11_00_01) i =
      lane 16 v (2 * (i / 2) + (i + 1) % 2) := by
  have swapped : ∀ i < 8, (if i < 4 then selector 0b10_11_00_01 i else 4 + selector 0b10_11_00_01 (i - 4)) =
      2 * (i / 2) + (i + 1) % 2 ∧ (i < 4 → selector 0b10_11_00_01 i < 4) := by decide
  obtain ⟨swap, below⟩ := swapped i inside
  rw [lane_shuffleloEpi16 _ _ inside]
  by_cases lower : i < 4
  · have first := below lower
    rw [if_pos lower] at swap ⊢
    rw [lane_shufflehiEpi16 _ _ (by omega), if_pos first, swap]
  · rw [if_neg lower] at swap ⊢
    rw [lane_shufflehiEpi16 _ _ inside, if_neg lower, swap]

theorem words_shuffleEpi16 (v : M128i) (i : Fin 4) :
    words (shuffleloEpi16 (shufflehiEpi16 v 0b10_11_00_01) 0b10_11_00_01) i = (words v i).rotateLeft 16 := by
  have bound := i.isLt
  have size : 32 = 16 * 2 := rfl
  apply eq_of_lanes size
  intro j inside
  have turned := lane_rotateLeft (v := words v i) size (show 1 < 2 by decide) inside
  rw [Nat.mul_one] at turned
  rw [turned, words, words, lane_lane size inside, lane_swapped v (by omega), lane_lane size (Nat.mod_lt _ (by omega))]
  congr 1
  omega

theorem rotateLeftAny_words (v : M128i) {amt : Nat} (some : 0 < amt) (less : amt < 32) :
    ∃ u, rotateLeftAny v amt = .ok u ∧ ∀ i, words u i = (words v i).rotateLeft amt := by
  refine ⟨slliEpi32 v amt ||| srliEpi32 v (32 - amt), ?_, fun i => ?_⟩
  · rw [rotateLeftAny, if_neg (by omega), if_pos (by omega)]
  · have split : words (slliEpi32 v amt ||| srliEpi32 v (32 - amt)) i =
        words (slliEpi32 v amt) i ||| words (srliEpi32 v (32 - amt)) i := lane_or _ _
    rw [split, slliEpi32, srliEpi32, words_ofLanes, words_ofLanes, BitVec.rotateLeft_def, Nat.mod_eq_of_lt less]
    rfl

theorem rotateLeftConst_words (m : Machine) (v : M128i) {amt : Nat} (some : 0 < amt) (less : amt < 32) :
    ∃ u, rotateLeftConst m v amt = .ok u ∧ ∀ i, words u i = (words v i).rotateLeft amt := by
  rw [rotateLeftConst, rotateLeft16, rotateLeft8, rotateLeft24]
  split_ifs with sixteen ssse3 eight ssse3 twentyFour ssse3
  · subst sixteen
    exact ⟨_, rfl, words_shuffle16 v (r := 2) (by decide) (by decide)⟩
  · subst sixteen
    exact ⟨_, rfl, words_shuffleEpi16 v⟩
  · subst eight
    exact ⟨_, rfl, words_shuffle16 v (r := 1) (by decide) (by decide)⟩
  · subst eight
    exact rotateLeftAny_words v some less
  · subst twentyFour
    exact ⟨_, rfl, words_shuffle16 v (r := 3) (by decide) (by decide)⟩
  · subst twentyFour
    exact rotateLeftAny_words v some less
  · exact rotateLeftAny_words v some less

theorem shuffleLeft_words (v : M128i) (amt : Fin 4) (some : 0 < amt) :
    ∃ u, shuffleLeft v amt = .ok u ∧ ∀ i, words u i = words v (i + amt) := by
  have selected (imm : Nat) (turn : Fin 4) (turns : ∀ i : Fin 4, selector imm i = (i + turn : Fin 4)) (i : Fin 4) :
      words (shuffleEpi32 v imm) i = words v (i + turn) := by
    rw [shuffleEpi32, words_ofLanes, turns, words]
  rcases (by omega : amt = 1 ∨ amt = 2 ∨ amt = 3) with rfl | rfl | rfl
  · exact ⟨_, rfl, selected _ 1 (by decide)⟩
  · exact ⟨_, rfl, selected _ 2 (by decide)⟩
  · exact ⟨_, rfl, selected _ 3 (by decide)⟩

theorem words_addEpi32 (a b : M128i) (i : Fin 4) : words (addEpi32 a b) i = words a i + words b i := by
  rw [addEpi32, words_ofLanes]
  rfl

theorem words_setrEpi32 (a b c d : BitVec 32) : words (setrEpi32 a b c d) = ![a, b, c, d] := by
  funext i
  rw [setrEpi32, words_ofLanes]
  fin_cases i <;> rfl

theorem shuffleRight_words (v : M128i) (amt : Fin 4) (some : 0 < amt) :
    ∃ u, shuffleLeft v (4 - amt) = .ok u ∧ ∀ i, words u i = words v (i - amt) := by
  have negated : ∀ amt : Fin 4, 0 < amt → 0 < -amt ∧ (-amt).val = 4 - amt.val := by decide
  obtain ⟨positive, rest⟩ := negated amt some
  obtain ⟨u, ok, turned⟩ := shuffleLeft_words v (-amt) positive
  rw [rest] at ok
  refine ⟨u, ok, fun i => ?_⟩
  rw [turned, sub_eq_add_neg]

/-- The vectors of x86 are four words, whether or not bytes are shuffled. -/
theorem u32x4_lawful (m : Machine) : (u32x4 m).Lawful words where
  new := words_setrEpi32
  loadLe := words_loaduSi128
  storeLe := storeuSi128_bytes
  rotateLeft v _ := rotateLeftConst_words m v
  shuffleLeft := shuffleLeft_words
  shuffleRight := shuffleRight_words
  add := words_addEpi32
  xor _ _ _ := lane_xor _ _

end SimdX86

namespace SimdFallback

def rotateLeftConst (v : Vector (BitVec 32) 4) (amt : Nat) : Vector (BitVec 32) 4 :=
  #v[v[0].rotateLeft amt, v[1].rotateLeft amt, v[2].rotateLeft amt, v[3].rotateLeft amt]

def shuffleLeft (v : Vector (BitVec 32) 4) (amt : Nat) : Exec (Vector (BitVec 32) 4) :=
  if amt = 1 then .ok #v[v[1], v[2], v[3], v[0]]
  else if amt = 2 then .ok #v[v[2], v[3], v[0], v[1]]
  else if amt = 3 then .ok #v[v[3], v[0], v[1], v[2]]
  else unreachable

def u32x4 : U32x4 (Vector (BitVec 32) 4) where
  new a b c d := #v[a, b, c, d]
  loadLe addr := Vector.ofFn fun i : Fin 4 => leWord addr.val i
  storeLe v := ⟨leWordBytes fun i => v[i], leWordBytes_length _⟩
  rotateLeftConst v amt := .ok (rotateLeftConst v amt)
  shuffleLeft := shuffleLeft
  shuffleRight v amt := shuffleLeft v (4 - amt)
  add u v := #v[u[0] + v[0], u[1] + v[1], u[2] + v[2], u[3] + v[3]]
  xor u v := #v[u[0] ^^^ v[0], u[1] ^^^ v[1], u[2] ^^^ v[2], u[3] ^^^ v[3]]

theorem u32x4_lawful : u32x4.Lawful fun v i => v[i] where
  new a b c d := by
    funext i
    fin_cases i <;> rfl
  loadLe bytes i := by
    rw [u32x4]
    exact Vector.getElem_ofFn i.isLt
  storeLe v := rfl
  rotateLeft v amt _ _ := by
    refine ⟨_, rfl, fun i => ?_⟩
    fin_cases i <;> rfl
  shuffleLeft v amt some := by
    rcases (by omega : amt = 1 ∨ amt = 2 ∨ amt = 3) with rfl | rfl | rfl <;>
      refine ⟨_, rfl, fun i => ?_⟩ <;> fin_cases i <;> rfl
  shuffleRight v amt some := by
    rcases (by omega : amt = 1 ∨ amt = 2 ∨ amt = 3) with rfl | rfl | rfl <;>
      refine ⟨_, rfl, fun i => ?_⟩ <;> fin_cases i <;> rfl
  add u v i := by fin_cases i <;> rfl
  xor u v i := by fin_cases i <;> rfl

end SimdFallback

end Titun
