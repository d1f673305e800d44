import Mathlib.Tactic
import Titun.Lib.Endian

/-! The rounds of ChaCha20 on a state of sixteen words, and HChaCha20. -/
namespace ChaCha20

open Endian

abbrev Word := BitVec 32

abbrev State := Fin 16 → Word

structure Quad where
  a : Word
  b : Word
  c : Word
  d : Word

def quarter (q : Quad) : Quad :=
  let a := q.a + q.b
  let d := (q.d ^^^ a).rotateLeft 16
  let c := q.c + d
  let b := (q.b ^^^ c).rotateLeft 12
  let a := a + b
  let d := (d ^^^ a).rotateLeft 8
  let c := c + d
  let b := (b ^^^ c).rotateLeft 7
  ⟨a, b, c, d⟩

/-- A quarter round on the words at four places. -/
def quarterRound (x y z w : Fin 16) (s : State) : State :=
  let q := quarter ⟨s x, s y, s z, s w⟩
  Function.update (Function.update (Function.update (Function.update s x q.a) y q.b) z q.c) w q.d

def columnRound (s : State) : State :=
  quarterRound 3 7 11 15 (quarterRound 2 6 10 14 (quarterRound 1 5 9 13 (quarterRound 0 4 8 12 s)))

def diagonalRound (s : State) : State :=
  quarterRound 3 4 9 14 (quarterRound 2 7 8 13 (quarterRound 1 6 11 12 (quarterRound 0 5 10 15 s)))

def doubleRound (s : State) : State := diagonalRound (columnRound s)

def wordAt (bytes : List UInt8) (i : Nat) : Word := BitVec.ofNat 32 (ofLeBytes ((bytes.drop (4 * i)).take 4))

def wordBytes (w : Word) : List UInt8 := leBytes 4 w.toNat

/-- The words of "expand 32-byte k", the key, and the first 16 bytes of the nonce. -/
def initial (key nonce : List UInt8) : State := fun i =>
  if i.val < 4 then [0x61707865, 0x3320646e, 0x79622d32, 0x6b206574].getD i.val 0
  else if i.val < 12 then wordAt key (i.val - 4)
  else wordAt nonce (i.val - 12)

/-- The first and the last row after ten double rounds, to which the initial state is not added. -/
def hchacha20 (key nonce : List UInt8) : List UInt8 :=
  let s := doubleRound^[10] (initial key nonce)
  ([0, 1, 2, 3, 12, 13, 14, 15] : List (Fin 16)).flatMap fun i => wordBytes (s i)

example : hchacha20 ((List.range 32).map UInt8.ofNat)
    [0, 0, 0, 9, 0, 0, 0, 0x4a, 0, 0, 0, 0, 0x31, 0x41, 0x59, 0x27] =
    [0x82, 0x41, 0x3b, 0x42, 0x27, 0xb2, 0x7b, 0xfe, 0xd3, 0x0e, 0x42, 0x50, 0x8a, 0x87, 0x7d, 0x73,
      0xa0, 0xf9, 0xe4, 0xd5, 0x8a, 0x74, 0xa8, 0x53, 0xc1, 0x2e, 0xc4, 0x13, 0x26, 0xd3, 0xec, 0xdc] := by
  decide +kernel

def cell (r j : Fin 4) : Fin 16 := ⟨4 * r.val + j.val, by omega⟩

def column (s : State) (j : Fin 4) : Quad := ⟨s (cell 0 j), s (cell 1 j), s (cell 2 j), s (cell 3 j)⟩

def diagonal (s : State) (j : Fin 4) : Quad :=
  ⟨s (cell 0 j), s (cell 1 (j + 1)), s (cell 2 (j + 2)), s (cell 3 (j + 3))⟩

theorem column_columnRound (s : State) (j : Fin 4) : column (columnRound s) j = quarter (column s j) := by
  fin_cases j <;> rfl

theorem diagonal_diagonalRound (s : State) (j : Fin 4) : diagonal (diagonalRound s) j = quarter (diagonal s j) := by
  fin_cases j <;> rfl

end ChaCha20
