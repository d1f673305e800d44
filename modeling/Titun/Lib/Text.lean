import Mathlib.Data.Nat.Digits.Lemmas
import Mathlib.Tactic

/-! Text as bytes: decimal numbers, hexadecimal strings and splitting at a separator, with their
round trips. -/
namespace Text

def lit (s : String) : List UInt8 := s.toList.map fun ch => ch.toNat.toUInt8

/-- What stands before the first separator, and what after it if there is one. -/
def splitOnce (sep : UInt8) : List UInt8 → List UInt8 × Option (List UInt8)
  | [] => ([], none)
  | b :: rest =>
    if b = sep then ([], some rest)
    else ((b :: (splitOnce sep rest).1), (splitOnce sep rest).2)

theorem splitOnce_eq {sep : UInt8} {before after : List UInt8} (absent : sep ∉ before) :
    splitOnce sep (before ++ sep :: after) = (before, some after) := by
  induction before with
  | nil => simp [splitOnce]
  | cons b rest ih =>
    obtain ⟨apart, absent⟩ := not_or.mp (List.mem_cons.not.mp absent)
    rw [List.cons_append, splitOnce, if_neg (Ne.symm apart), ih absent]

theorem splitOnce_some {sep : UInt8} {s before after : List UInt8} :
    splitOnce sep s = (before, some after) ↔ sep ∉ before ∧ s = before ++ sep :: after := by
  constructor
  · intro split
    induction s generalizing before with
    | nil => cases split
    | cons b rest ih =>
      by_cases here : b = sep
      · rw [splitOnce, if_pos here] at split
        obtain ⟨rfl, same⟩ := Prod.mk.inj split
        obtain rfl := Option.some.inj same
        exact ⟨by simp, by simp [here]⟩
      · rw [splitOnce, if_neg here] at split
        obtain ⟨rfl, same⟩ := Prod.mk.inj split
        obtain ⟨absent, eq⟩ := ih (Prod.ext rfl same)
        refine ⟨?_, by rw [List.cons_append, ← eq]⟩
        rw [List.mem_cons, not_or]
        exact ⟨Ne.symm here, absent⟩
  · rintro ⟨absent, rfl⟩
    exact splitOnce_eq absent

theorem splitOnce_none {sep : UInt8} {s : List UInt8} (absent : sep ∉ s) : splitOnce sep s = (s, none) := by
  induction s with
  | nil => rfl
  | cons b s ih =>
    obtain ⟨apart, absent⟩ := not_or.mp (List.mem_cons.not.mp absent)
    rw [splitOnce, if_neg (Ne.symm apart), ih absent]

/-- Printable ASCII. -/
def Printable (b : UInt8) : Prop := 32 ≤ b.toNat ∧ b.toNat < 127

instance : DecidablePred Printable := fun b => inferInstanceAs (Decidable (32 ≤ b.toNat ∧ b.toNat < 127))

section Decimal

def isDigit (b : UInt8) : Bool := 48 ≤ b.toNat ∧ b.toNat ≤ 57

def digitByte (d : Nat) : UInt8 := (48 + d).toUInt8

/-- A number in decimal notation, without leading zeros. -/
def decimal (n : Nat) : List UInt8 :=
  if n = 0 then [digitByte 0] else ((Nat.digits 10 n).map digitByte).reverse

def digitsValue (s : List UInt8) : Nat := s.foldl (fun n b => 10 * n + (b.toNat - 48)) 0

/-- Unsigned numbers below a bound: digits, of which there is one at least, after an optional plus
sign. -/
def parseNat (bound : Nat) (s : List UInt8) : Option Nat :=
  let digits := if s.head? = some 43 then s.tail else s
  if digits ≠ [] ∧ digits.all isDigit ∧ digitsValue digits < bound then some (digitsValue digits) else none

theorem digitByte_toNat {d : Nat} (small : d < 10) : (digitByte d).toNat = 48 + d := by
  simp only [digitByte, Nat.toUInt8_eq, UInt8.toNat_ofNat']
  omega

theorem digitsValue_digits {l : List Nat} (small : ∀ d ∈ l, d < 10) :
    digitsValue (l.map digitByte).reverse = Nat.ofDigits 10 l := by
  induction l with
  | nil => rfl
  | cons d l ih =>
    have head := digitByte_toNat (small d List.mem_cons_self)
    have rest := ih fun e isIn => small e (List.mem_cons_of_mem _ isIn)
    rw [digitsValue] at rest
    simp only [digitsValue, List.map_cons, List.reverse_cons, List.foldl_append, rest, List.foldl_cons,
      List.foldl_nil, head, Nat.ofDigits_cons]
    omega

theorem decimal_digits (n : Nat) : ∀ b ∈ decimal n, isDigit b := by
  intro b isIn
  unfold decimal at isIn
  split_ifs at isIn with zero
  · rw [List.mem_singleton.mp isIn]
    decide
  · obtain ⟨d, isDigit_, rfl⟩ := List.mem_map.mp (List.mem_reverse.mp isIn)
    have small := Nat.digits_lt_base (b := 10) (by omega) isDigit_
    simp only [isDigit, digitByte_toNat small]
    exact decide_eq_true (by omega)

theorem not_mem_decimal {b : UInt8} (n : Nat) (other : isDigit b = false) : b ∉ decimal n := by
  intro isIn
  exact absurd (decimal_digits n b isIn) (by simp [other])

theorem decimal_printable (n : Nat) : ∀ b ∈ decimal n, Printable b := by
  intro b isIn
  have digit := decimal_digits n b isIn
  simp only [isDigit, decide_eq_true_eq] at digit
  exact ⟨by omega, by omega⟩

theorem decimal_ne_nil (n : Nat) : decimal n ≠ [] := by
  unfold decimal
  split_ifs with zero
  · simp
  · simpa using Nat.digits_ne_nil_iff_ne_zero.mpr zero

theorem digitsValue_decimal (n : Nat) : digitsValue (decimal n) = n := by
  unfold decimal
  split_ifs with zero
  · subst zero
    decide
  · rw [digitsValue_digits fun d isIn => Nat.digits_lt_base (by omega) isIn, Nat.ofDigits_digits]

theorem parseNat_decimal {bound n : Nat} (small : n < bound) : parseNat bound (decimal n) = some n := by
  have digits := decimal_digits n
  have unsigned : (decimal n).head? ≠ some 43 := by
    intro plus
    have bad := digits 43 (List.mem_of_mem_head? plus)
    exact absurd bad (by decide)
  simp only [parseNat, if_neg unsigned, digitsValue_decimal]
  rw [if_pos ⟨decimal_ne_nil n, List.all_eq_true.mpr digits, small⟩]

theorem parseNat_lt {bound : Nat} (parsed : parseNat bound s = some n) : n < bound := by
  unfold parseNat at parsed
  generalize (if s.head? = some 43 then s.tail else s) = digits at parsed
  dsimp only at parsed
  split_ifs at parsed with ok
  obtain rfl := Option.some.inj parsed
  exact ok.2.2

def Numeral (s : List UInt8) (n : Nat) : Prop :=
  ∃ digits, (s = digits ∨ s = 43 :: digits) ∧ digits ≠ [] ∧ (∀ b ∈ digits, isDigit b) ∧ digitsValue digits = n

theorem parseNat_eq_some {bound : Nat} : parseNat bound s = some n ↔ Numeral s n ∧ n < bound := by
  constructor
  · intro parsed
    refine ⟨?_, parseNat_lt parsed⟩
    unfold parseNat at parsed
    generalize stripped : (if s.head? = some 43 then s.tail else s) = digits at parsed
    dsimp only at parsed
    split_ifs at parsed with ok
    refine ⟨digits, ?_, ok.1, List.all_eq_true.mp ok.2.1, Option.some.inj parsed⟩
    split_ifs at stripped with plus
    · exact .inr (by rw [← stripped, List.cons_head?_tail plus])
    · exact .inl stripped
  · rintro ⟨⟨digits, written, some, all, rfl⟩, small⟩
    have stripped : (if s.head? = Option.some 43 then s.tail else s) = digits := by
      rcases written with rfl | rfl
      · have unsigned : s.head? ≠ Option.some 43 := by
          intro plus
          exact absurd (all 43 (List.mem_of_mem_head? plus)) (by decide)
        exact if_neg unsigned
      · exact if_pos rfl
    unfold parseNat
    dsimp only
    rw [stripped, if_pos ⟨some, List.all_eq_true.mpr all, small⟩]

theorem decimal_numeral (n : Nat) : Numeral (decimal n) n :=
  (parseNat_eq_some.mp (parseNat_decimal n.lt_succ_self)).1

theorem decimal_length {n k : Nat} (small : n < 10 ^ k) (pos : 0 < k) : (decimal n).length ≤ k := by
  unfold decimal
  split_ifs with zero
  · exact pos
  · rw [List.length_reverse, List.length_map]
    exact (Nat.digits_length_le_iff (by omega) n).mpr small

end Decimal

section Hex

def hexDigit (d : Nat) : UInt8 := if d < 10 then (48 + d).toUInt8 else (87 + d).toUInt8

def hexValue (b : UInt8) : Option Nat :=
  if 48 ≤ b.toNat ∧ b.toNat ≤ 57 then some (b.toNat - 48)
  else if 97 ≤ b.toNat ∧ b.toNat ≤ 102 then some (b.toNat - 87)
  else if 65 ≤ b.toNat ∧ b.toNat ≤ 70 then some (b.toNat - 55)
  else none

/-- Two lower-case digits for each byte. -/
def hexEncode (s : List UInt8) : List UInt8 :=
  s.flatMap fun b => [hexDigit (b.toNat / 16), hexDigit (b.toNat % 16)]

def hexDecode : List UInt8 → Option (List UInt8)
  | [] => some []
  | [_] => none
  | hi :: lo :: rest => do
    let hi ← hexValue hi
    let lo ← hexValue lo
    let rest ← hexDecode rest
    return (16 * hi + lo).toUInt8 :: rest

theorem hexValue_hexDigit {d : Nat} (small : d < 16) : hexValue (hexDigit d) = some d := by
  interval_cases d <;> decide

theorem hexDecode_hexEncode (s : List UInt8) : hexDecode (hexEncode s) = some s := by
  induction s with
  | nil => rfl
  | cons b s ih =>
    have below := b.toNat_lt
    have value : 16 * (b.toNat / 16) + b.toNat % 16 = b.toNat := Nat.div_add_mod _ _
    have step : hexEncode (b :: s) = hexDigit (b.toNat / 16) :: hexDigit (b.toNat % 16) :: hexEncode s := rfl
    rw [step, hexDecode, hexValue_hexDigit (by omega), hexValue_hexDigit (by omega), ih]
    change some ((16 * (b.toNat / 16) + b.toNat % 16).toUInt8 :: s) = some (b :: s)
    rw [value, Nat.toUInt8_eq, UInt8.ofNat_toNat]

theorem hexEncode_length (s : List UInt8) : (hexEncode s).length = 2 * s.length := by
  simp [hexEncode, List.length_flatMap, Nat.mul_comm]

theorem hexEncode_mem {s : List UInt8} (isIn : b ∈ hexEncode s) : (hexValue b).isSome := by
  obtain ⟨a, _, isDigit⟩ := List.mem_flatMap.mp isIn
  have below := a.toNat_lt
  simp only [List.mem_cons, List.not_mem_nil, or_false] at isDigit
  rcases isDigit with rfl | rfl <;> rw [hexValue_hexDigit (by omega)] <;> rfl

theorem hexEncode_printable (s : List UInt8) : ∀ b ∈ hexEncode s, Printable b := by
  intro b isIn
  have digit := hexEncode_mem isIn
  unfold hexValue at digit
  split_ifs at digit with lower upper other
  · exact ⟨by omega, by omega⟩
  · exact ⟨by omega, by omega⟩
  · exact ⟨by omega, by omega⟩
  · cases digit

theorem hexDecode_length {s t : List UInt8} (decoded : hexDecode s = some t) : s.length = 2 * t.length := by
  induction s using hexDecode.induct generalizing t with
  | case1 =>
    obtain rfl := Option.some.inj decoded
    rfl
  | case2 => cases decoded
  | case3 hi lo rest ih =>
    simp only [hexDecode, Option.bind_eq_bind, Option.bind_eq_some_iff] at decoded
    obtain ⟨_, _, _, _, t', isRest, same⟩ := decoded
    obtain rfl := Option.some.inj same
    simp [ih isRest]
    omega

theorem hexDecode_digits {s t : List UInt8} (decoded : hexDecode s = some t) :
    ∀ b ∈ s, (hexValue b).isSome := by
  induction s using hexDecode.induct generalizing t with
  | case1 => exact nofun
  | case2 => cases decoded
  | case3 hi lo rest ih =>
    simp only [hexDecode, Option.bind_eq_bind, Option.bind_eq_some_iff] at decoded
    obtain ⟨_, isHi, _, isLo, t', isRest, _⟩ := decoded
    intro b isIn
    rcases List.mem_cons.mp isIn with rfl | isIn
    · exact Option.isSome_of_eq_some isHi
    · rcases List.mem_cons.mp isIn with rfl | isIn
      · exact Option.isSome_of_eq_some isLo
      · exact ih isRest b isIn

end Hex

end Text
