import Titun.Lib.Toml

/-! Configuration files in the format of `wg`, rewritten as TOML. -/
namespace Titun

open Lines

/-- The values of a TOML document. Inline tables, and values of other kinds, are given by their text. -/
inductive TomlValue where
  | string (s : Text)
  | integer (n : Nat)
  | array (strings : List Text)
  | table (text : Text)
  | other (text : Text)
  deriving DecidableEq

/-- What is used of the `toml` crate: `toString` and `arrayToString` write a string and an array of
strings, `value` reads what follows a `=` on a line. -/
structure TomlCrate where
  toString : Text → Text
  arrayToString : List Text → Text
  value : Text → Option TomlValue

def needTransformLines : List Text → Bool
  | [] => true
  | l :: rest =>
    let l := trim l
    if l = "[Peer]".toList then true
    else if l.head? = some '#' ∨ l.head? = some '[' then needTransformLines rest
    else if '"' ∈ l ∨ '[' ∈ l then false
    else needTransformLines rest

def needTransform (input : Text) : Bool := needTransformLines (lines input)

namespace TomlCrate

variable (toml : TomlCrate)

def transformValue (value : Text) : Text :=
  let value := trim value
  if ',' ∈ value then toml.arrayToString ((value.splitOn ',').map trim)
  else if value.all Char.isDigit then value
  else toml.toString value

/-- What is written for a line `k = v`, and for others that are no header. -/
def transformPair (l : Text) : Text :=
  match l.dropWhile (· != '=') with
  | _ :: v => trim (l.takeWhile (· != '=')) ++ " = ".toList ++ toml.transformValue v ++ ['\n']
  | [] => l ++ ['\n']

def transformLine (l : Text) : Text :=
  let trimmed := trim l
  if trimmed = [] ∨ "[Interface]".toList <+: trimmed ∨ trimmed.head? = some '#' then l ++ ['\n']
  else if "[Peer]".toList <+: trimmed then "[[Peer]]\n".toList
  else toml.transformPair l

def maybeTransform (input : Text) : Text :=
  if needTransform input then (lines input).flatMap toml.transformLine else input

/-- Strings and arrays of strings are written on one line, and read back. Numbers are read in decimal
notation. -/
structure Lawful : Prop where
  stringLine : ∀ s, (toml.toString s).all Toml.isNonEol
  arrayLine : ∀ l, (toml.arrayToString l).all Toml.isNonEol
  string : ∀ s, toml.value (' ' :: toml.toString s) = some (.string s)
  array : ∀ l, toml.value (' ' :: toml.arrayToString l) = some (.array l)
  integer : ∀ n < 2 ^ 63, toml.value (' ' :: Nat.toDigits 10 n) = some (.integer n)

open Toml

variable {toml}

def asElement : Header → Header
  | .table name => if name = "Peer".toList then .element name else .table name
  | .element name => .element name

def rewrite (toml : TomlCrate) : Item Text → Item Text :=
  Item.map asElement fun value => ' ' :: toml.transformValue value

theorem isWhitespace_of_blank (blank : isBlank ch) : isWhitespace ch := by
  rcases of_decide_eq_true blank with rfl | rfl <;> rfl

theorem not_whitespace_of_bare (bare : isBare ch) : isWhitespace ch = false := by
  have range := bare_range bare
  simp only [isWhitespace, decide_eq_false_iff_not]
  omega

theorem all_whitespace {a : Text} (blank : a.all isBlank) : a.all isWhitespace :=
  List.all_eq_true.mpr fun ch isIn => isWhitespace_of_blank (List.all_eq_true.mp blank ch isIn)

theorem trim_blank {a : Text} (blank : a.all isBlank) (s : Text) : trim (a ++ s) = trim s := by
  have surrounded := strip_surrounded (b := []) (all_whitespace blank) rfl s
  rwa [List.append_nil] at surrounded

theorem trim_cons (visible : isWhitespace ch = false) (s : Text) :
    trim (ch :: s) = ch :: s.rdropWhile isWhitespace := strip_cons visible s

theorem transformValue_printable (lawful : toml.Lawful) (value : Text) :
    (toml.transformValue value).all isNonEol := by
  unfold transformValue
  dsimp only
  split_ifs with comma digits
  · exact lawful.arrayLine _
  · apply List.all_eq_true.mpr
    intro ch isIn
    have digit := List.all_eq_true.mp digits ch isIn
    apply isNonEol_of_bare
    simp [isBare, Char.isAlphanum, digit]
  · exact lawful.stringLine _

/-- A header and what follows it: a `=` can only be in the comment, and the comment goes on with what
is written for a value. -/
theorem transformPair_header (lawful : toml.Lawful) {a inside after : Text} (blank : a.all isBlank)
    (absent : '=' ∉ inside) (ends : ending after) :
    ∃ b after', b.all isBlank ∧ ending after' ∧
      toml.transformPair (a ++ '[' :: (inside ++ ']' :: after)) = b ++ '[' :: (inside ++ ']' :: after') ++ ['\n'] := by
  obtain ⟨gap, gapBlank, parts⟩ := ending_iff.mp ends
  have left := not_mem_blank (d := '=') blank rfl
  have right := not_mem_blank (d := '=') gapBlank rfl
  by_cases equals : '=' ∈ after
  · rcases parts with rfl | ⟨comment, printable, rfl⟩
    · exact absurd equals right
    · have isIn : '=' ∈ comment := by simpa [right] using equals
      obtain ⟨first, value, rfl, firstAbsent⟩ := List.eq_append_cons_of_mem isIn
      have before : '=' ∉ a ++ '[' :: (inside ++ ']' :: gap ++ '#' :: first) := by
        simp [left, right, absent, firstAbsent]
      have split : a ++ '[' :: (inside ++ ']' :: (gap ++ '#' :: (first ++ '=' :: value)))
          = (a ++ '[' :: (inside ++ ']' :: gap ++ '#' :: first)) ++ '=' :: value := by simp
      have shorter : (first.rdropWhile isWhitespace).all isNonEol := by
        apply List.all_eq_true.mpr
        intro ch member
        have prior := (List.rdropWhile_prefix isWhitespace first).subset member
        exact List.all_eq_true.mp printable ch (by simp [prior])
      refine ⟨[], gap ++ '#' :: (first.rdropWhile isWhitespace ++ " = ".toList ++ toml.transformValue value),
        rfl, ?_, ?_⟩
      · apply ending_iff.mpr
        refine ⟨gap, gapBlank, .inr ⟨_, ?_, rfl⟩⟩
        rw [List.all_append, List.all_append, shorter, transformValue_printable lawful]
        rfl
      · rw [split, transformPair, dropWhile_ne before, takeWhile_ne before]
        dsimp only
        rw [trim_blank blank, trim_cons (by decide), rdropWhile_append_cons (by decide)]
        simp
  · have none : (a ++ '[' :: (inside ++ ']' :: after)).dropWhile (· != '=') = [] := by
      apply List.dropWhile_eq_nil_iff.mpr
      intro ch isIn
      apply bne_iff_ne.mpr
      rintro rfl
      simp [left, absent, equals] at isIn
    refine ⟨a, after, blank, ends, ?_⟩
    rw [transformPair, none]

theorem transformLine_other {l s : Text} (trimmed : trim l = ch :: s) (noComment : ch ≠ '#')
    (noInterface : ¬ "[Interface]".toList <+: ch :: s) (noPeer : ¬ "[Peer]".toList <+: ch :: s) :
    toml.transformLine l = toml.transformPair l := by
  unfold transformLine
  dsimp only
  rw [trimmed, if_neg, if_neg noPeer]
  rintro (empty | starts | comment)
  · cases empty
  · exact noInterface starts
  · exact noComment (Option.some.inj comment)

theorem trim_bracket {before : Text} (blank : before.all isBlank) (text after : Text) :
    trim (before ++ '[' :: (text ++ ']' :: after)) = '[' :: (text ++ ']' :: after.rdropWhile isWhitespace) := by
  rw [trim_blank blank, trim_cons (by decide), rdropWhile_append_cons (by decide)]

theorem header_printable {before text after : Text} (blank : before.all isBlank) (inside : text.all isNonEol)
    (ends : ending after) : (before ++ '[' :: (text ++ ']' :: after)).all isNonEol := by
  simp [List.all_append, nonEol_of_blank blank, inside, ending_nonEol ends, isNonEol]

theorem transformLine_reads (lawful : toml.Lawful) (reads : Reads l i)
    (spelled : i = .header (.table "Peer".toList) → "[Peer]".toList <+: trim l) :
    ∃ l', toml.transformLine l = l' ++ ['\n'] ∧ l'.all isNonEol ∧ Reads l' (toml.rewrite i) := by
  cases reads with
  | space ends =>
    have printable := ending_nonEol ends
    obtain ⟨a, blank, parts⟩ := ending_iff.mp ends
    refine ⟨l, ?_, printable, .space ends⟩
    unfold transformLine
    dsimp only
    apply if_pos
    rcases parts with rfl | ⟨comment, _, rfl⟩
    · left
      have none := trim_blank blank []
      rwa [List.append_nil] at none
    · right; right
      rw [trim_blank blank, trim_cons (by decide)]
      rfl
  | table before blank inside ends =>
    rename_i text name after
    have trimmed := trim_bracket blank text after
    by_cases interface : "[Interface]".toList <+: trim (before ++ '[' :: (text ++ ']' :: after))
    · refine ⟨before ++ '[' :: (text ++ ']' :: after), if_pos (.inr (.inl interface)),
        header_printable blank inside.nonEol ends, ?_⟩
      rw [rewrite, Item.map, asElement, if_neg]
      · exact .table before blank inside ends
      · rintro rfl
        have both := List.prefix_of_prefix_length_le (spelled rfl) interface (by decide)
        exact absurd both (by decide)
    · rw [trimmed] at interface spelled
      by_cases peer : "[Peer]".toList <+: '[' :: (text ++ ']' :: after.rdropWhile isWhitespace)
      · have isPeer : name = "Peer".toList := by
          obtain ⟨rest, same⟩ := peer
          have tail := (List.cons.inj same).2
          have texts : "Peer".toList = text := by
            have left := takeWhile_ne (s := "Peer".toList) (d := ']') (by decide) rest
            have right := takeWhile_ne (inside.not_mem (d := ']') rfl rfl) (after.rdropWhile isWhitespace)
            rw [← left, ← right]
            exact congrArg _ tail
          rw [← inside.strip, ← texts]
          decide
        refine ⟨"[[Peer]]".toList, ?_, by decide, ?_⟩
        · unfold transformLine
          dsimp only
          rw [trimmed, if_neg, if_pos peer]
          · rfl
          · rintro (empty | starts | comment)
            · cases empty
            · exact interface starts
            · exact absurd comment (by simp)
        · rw [rewrite, Item.map, asElement, if_pos isPeer, isPeer]
          have inside : Inside "Peer".toList "Peer".toList := ⟨by decide, [], [], rfl, rfl, rfl⟩
          have ends : ending [] := rfl
          exact .element [] rfl inside ends
      · obtain ⟨b, after', gap, ends', written⟩ :=
          transformPair_header lawful blank (inside.not_mem (d := '=') rfl rfl) ends
        refine ⟨b ++ '[' :: (text ++ ']' :: after'), ?_, header_printable gap inside.nonEol ends', ?_⟩
        · rw [transformLine_other trimmed (by decide) interface peer, written]
        · have other : name ≠ "Peer".toList := fun isPeer => peer (spelled (isPeer ▸ rfl))
          rw [rewrite, Item.map, asElement, if_neg other]
          exact .table b gap inside ends'
  | element before blank inside ends =>
    rename_i text name after
    have double (b after : Text) : b ++ '[' :: '[' :: (text ++ ']' :: ']' :: after)
        = b ++ '[' :: (('[' :: text ++ [']']) ++ ']' :: after) := by simp
    have absent : '=' ∉ '[' :: text ++ [']'] := by simp [inside.not_mem (d := '=') rfl rfl]
    have printable : ('[' :: text ++ [']']).all isNonEol := by simp [inside.nonEol, isNonEol]
    obtain ⟨b, after', gap, ends', written⟩ := transformPair_header lawful blank absent ends
    rw [double] at *
    refine ⟨b ++ '[' :: (('[' :: text ++ [']']) ++ ']' :: after'), ?_, header_printable gap printable ends', ?_⟩
    · rw [transformLine_other (trim_bracket blank _ after) (by decide), written]
      · simp
      · simp
    · rw [← double]
      exact .element b gap inside ends'
  | pair before gap blank bare blankGap value =>
    rename_i key
    have absent : '=' ∉ before ++ key ++ gap := by
      have left := not_mem_blank (d := '=') blank rfl
      have right := not_mem_blank (d := '=') blankGap rfl
      simp [left, right, bare.not_mem (d := '=') rfl]
    have keyVisible : ∀ ch ∈ key, isWhitespace ch = false := by
      intro ch isIn
      exact not_whitespace_of_bare (List.all_eq_true.mp bare.2 ch isIn)
    have trimmed : trim (before ++ key ++ gap) = key := by
      have surrounded := strip_surrounded (all_whitespace blank) (all_whitespace blankGap) key
      exact surrounded.trans (strip_self keyVisible)
    refine ⟨key ++ " = ".toList ++ toml.transformValue value, ?_, ?_, ?_⟩
    · obtain ⟨ch, rest, rfl⟩ := List.exists_cons_of_ne_nil bare.1
      have first : isBare ch := List.all_eq_true.mp bare.2 ch List.mem_cons_self
      have noBracket : ch ≠ '[' := ne_of_bare first rfl
      have whole : trim (before ++ ch :: rest ++ gap ++ '=' :: value)
          = ch :: (rest ++ gap ++ '=' :: value).rdropWhile isWhitespace := by
        have shape : before ++ ch :: rest ++ gap ++ '=' :: value = before ++ ch :: (rest ++ gap ++ '=' :: value) := by simp
        rw [shape, trim_blank blank, trim_cons (not_whitespace_of_bare first)]
      rw [transformLine_other whole (ne_of_bare first rfl), transformPair, dropWhile_ne absent,
        takeWhile_ne absent, trimmed]
      · intro starts
        exact noBracket (List.cons_prefix_cons.mp starts).1.symm
      · intro starts
        exact noBracket (List.cons_prefix_cons.mp starts).1.symm
    · rw [List.all_append, List.all_append, bare.nonEol, transformValue_printable lawful]
      rfl
    · have shape : key ++ " = ".toList ++ toml.transformValue value
          = [] ++ key ++ [' '] ++ '=' :: (' ' :: toml.transformValue value) := by simp
      rw [shape]
      exact .pair [] [' '] rfl bare rfl _

theorem maybeTransform_lines (lawful : toml.Lawful) (needed : needTransform text = true)
    (reads : List.Forall₂ Reads (lines text) content)
    (spelled : ∀ l ∈ lines text, Reads l (.header (.table "Peer".toList)) → "[Peer]".toList <+: trim l) :
    List.Forall₂ Reads (lines (toml.maybeTransform text)) (content.map toml.rewrite) := by
  have each : ∃ ls, (lines text).flatMap toml.transformLine = unlines ls ∧ (∀ l ∈ ls, OneLine l) ∧
      List.Forall₂ Reads ls (content.map toml.rewrite) := by
    clear needed
    generalize lines text = ls at reads spelled
    induction reads with
    | nil => exact ⟨[], rfl, by simp, .nil⟩
    | cons head tail ih =>
      rename_i l i ls content
      obtain ⟨others, written, one, rest⟩ := ih fun m isIn => spelled m (List.mem_cons_of_mem _ isIn)
      obtain ⟨l', line, printable, reads'⟩ :=
        transformLine_reads lawful head fun isPeer => spelled l List.mem_cons_self (isPeer ▸ head)
      refine ⟨l' :: others, ?_, ?_, .cons reads' rest⟩
      · rw [List.flatMap_cons, line, written]
        rfl
      · intro m isIn
        rcases List.mem_cons.mp isIn with rfl | isIn
        · exact oneLine_of_nonEol printable
        · exact one m isIn
  obtain ⟨ls, written, one, rest⟩ := each
  rw [maybeTransform, if_pos needed, written, lines_unlines one]
  exact rest

section Basic

def escape (ch : Char) : Text :=
  if ch = '"' ∨ ch = '\\' then ['\\', ch]
  else if isNonEol ch then [ch]
  else ['\\', 'u', '0', '0', Nat.digitChar (ch.toNat / 16), Nat.digitChar (ch.toNat % 16)]

def quote (s : Text) : Text := '"' :: s.flatMap escape ++ ['"']

def hexValue (ch : Char) : Nat := if ch.isDigit then ch.toNat - 48 else ch.toNat - 87

/-- A basic string after its first quote, and what follows its last. -/
def unquote : Text → Option (Text × Text)
  | [] => none
  | '"' :: rest => some ([], rest)
  | '\\' :: 'u' :: '0' :: '0' :: a :: b :: s =>
    (unquote s).map (Prod.map (Char.ofNat (16 * hexValue a + hexValue b) :: ·) id)
  | '\\' :: ch :: s => (unquote s).map (Prod.map (ch :: ·) id)
  | ch :: s => (unquote s).map (Prod.map (ch :: ·) id)

def unquoteAll : Nat → Text → Option (List Text × Text)
  | fuel + 1, '"' :: s =>
    match unquote s with
    | some (first, ',' :: ' ' :: rest) => (unquoteAll fuel rest).map (Prod.map (first :: ·) id)
    | some (last, ']' :: rest) => some ([last], rest)
    | _ => none
  | _ + 1, ']' :: rest => some ([], rest)
  | _, _ => none

def quoteAll : List Text → Text
  | [] => [']']
  | [s] => quote s ++ [']']
  | s :: t :: l => quote s ++ ',' :: ' ' :: quoteAll (t :: l)

def basicValue (text : Text) : Option TomlValue :=
  match text.dropWhile isBlank with
  | '"' :: s => (unquote s).bind fun (t, rest) => if ending rest then some (.string t) else none
  | '\'' :: s =>
    match s.dropWhile (· != '\'') with
    | _ :: rest => if ending rest then some (.string (s.takeWhile (· != '\''))) else none
    | [] => none
  | '[' :: s => (unquoteAll (s.length + 1) s).bind fun (l, rest) => if ending rest then some (.array l) else none
  | s =>
    let digits := s.takeWhile Char.isDigit
    let n := Nat.ofDigitChars 10 digits 0
    if digits = Nat.toDigits 10 n ∧ n < 2 ^ 63 ∧ ending (s.dropWhile Char.isDigit) then some (.integer n) else none

def basic : TomlCrate where
  toString := quote
  arrayToString l := '[' :: quoteAll l
  value := basicValue

theorem hexValue_digitChar : ∀ n < 16, hexValue (Nat.digitChar n) = n := by decide

theorem unquote_plain (noQuote : ch ≠ '"') (noEscape : ch ≠ '\\') (s : Text) :
    unquote (ch :: s) = (unquote s).map (Prod.map (ch :: ·) id) := by
  rw [unquote]
  · exact noQuote
  · exact fun _ _ _ isEscape => absurd isEscape noEscape
  · exact fun _ _ isEscape => absurd isEscape noEscape

theorem unquote_quoted (s rest : Text) : unquote (s.flatMap escape ++ '"' :: rest) = some (s, rest) := by
  induction s with
  | nil => rfl
  | cons ch s ih =>
    rw [List.flatMap_cons, List.append_assoc, escape]
    split_ifs with marked printable
    · rcases marked with rfl | rfl
      · change (unquote (s.flatMap escape ++ '"' :: rest)).map _ = _
        rw [ih]
        rfl
      · change (unquote (s.flatMap escape ++ '"' :: rest)).map _ = _
        rw [ih]
        rfl
    · obtain ⟨noQuote, noEscape⟩ := not_or.mp marked
      change unquote (ch :: (s.flatMap escape ++ '"' :: rest)) = _
      rw [unquote_plain noQuote noEscape, ih]
      rfl
    · have control : ch.toNat < 0x20 := by
        simp only [isNonEol, decide_eq_true_eq, not_or, not_le] at printable
        exact printable.2
      have value : 16 * hexValue (Nat.digitChar (ch.toNat / 16)) + hexValue (Nat.digitChar (ch.toNat % 16))
          = ch.toNat := by
        rw [hexValue_digitChar _ (by omega), hexValue_digitChar _ (by omega)]
        omega
      change (unquote (s.flatMap escape ++ '"' :: rest)).map _ = _
      rw [value, Char.ofNat_toNat, ih]
      rfl

theorem unquoteAll_quoteAll (l : List Text) (long : l.length < fuel) (rest : Text) :
    unquoteAll fuel (quoteAll l ++ rest) = some (l, rest) := by
  induction l generalizing fuel with
  | nil =>
    obtain ⟨fuel, rfl⟩ := Nat.exists_eq_add_one_of_ne_zero (Nat.ne_zero_of_lt long)
    rfl
  | cons s l ih =>
    obtain ⟨fuel, rfl⟩ := Nat.exists_eq_add_one_of_ne_zero (Nat.ne_zero_of_lt long)
    have shorter : l.length < fuel := by simpa using long
    cases l with
    | nil =>
      have shape : quoteAll [s] ++ rest = '"' :: (s.flatMap escape ++ '"' :: ']' :: rest) := by simp [quoteAll, quote]
      rw [shape, unquoteAll, unquote_quoted]
      rfl
    | cons t l =>
      have shape : quoteAll (s :: t :: l) ++ rest
          = '"' :: (s.flatMap escape ++ '"' :: ',' :: ' ' :: (quoteAll (t :: l) ++ rest)) := by simp [quoteAll, quote]
      rw [shape, unquoteAll, unquote_quoted]
      change (unquoteAll fuel (quoteAll (t :: l) ++ rest)).map _ = _
      rw [ih shorter]
      rfl

theorem quote_printable (s : Text) : (quote s).all isNonEol := by
  have each : ∀ ch, (escape ch).all isNonEol := by
    intro ch
    unfold escape
    split_ifs with marked printable
    · rcases marked with rfl | rfl <;> decide
    · simp [printable]
    · have digit : ∀ n < 16, isNonEol (Nat.digitChar n) := by decide
      have control : ch.toNat < 0x20 := by
        simp only [isNonEol, decide_eq_true_eq, not_or, not_le] at printable
        exact printable.2
      simp only [List.all_cons, digit (ch.toNat / 16) (by omega), digit (ch.toNat % 16) (by omega)]
      rfl
  have all : (s.flatMap escape).all isNonEol := by
    rw [List.all_flatMap]
    exact List.all_eq_true.mpr fun ch _ => each ch
  rw [quote, List.all_append, List.all_cons, all]
  rfl

theorem quoteAll_printable (l : List Text) : (quoteAll l).all isNonEol := by
  induction l with
  | nil => rfl
  | cons s l ih =>
    cases l with
    | nil =>
      rw [quoteAll, List.all_append, quote_printable]
      rfl
    | cons t l =>
      rw [quoteAll, List.all_append, quote_printable, List.all_cons, List.all_cons, ih]
      rfl

theorem length_quoteAll (l : List Text) : l.length ≤ (quoteAll l).length := by
  induction l with
  | nil => exact Nat.zero_le _
  | cons s l ih =>
    cases l with
    | nil => simp [quoteAll]
    | cons t l =>
      simp only [quoteAll, List.length_append, List.length_cons] at ih ⊢
      omega

theorem basic_lawful : basic.Lawful := by
  constructor
  · exact quote_printable
  · intro l
    change ('[' :: quoteAll l).all isNonEol
    rw [List.all_cons, quoteAll_printable]
    rfl
  · intro s
    change basicValue (' ' :: '"' :: (s.flatMap escape ++ ['"'])) = _
    have read := unquote_quoted s []
    simp [basicValue, isBlank, read, ending]
  · intro l
    change basicValue (' ' :: '[' :: quoteAll l) = _
    have read := unquoteAll_quoteAll l (Nat.lt_succ_of_le (length_quoteAll l)) []
    rw [List.append_nil] at read
    simp [basicValue, isBlank, read, ending]
  · intro n small
    change basicValue (' ' :: Nat.toDigits 10 n) = _
    have digits : ∀ ch ∈ Nat.toDigits 10 n, ch.isDigit := fun ch isIn =>
      Nat.isDigit_of_mem_toDigits (by omega) (by omega) isIn
    have whole : (Nat.toDigits 10 n).takeWhile Char.isDigit = Nat.toDigits 10 n :=
      List.takeWhile_eq_self_iff.mpr digits
    have none : (Nat.toDigits 10 n).dropWhile Char.isDigit = [] := List.dropWhile_eq_nil_iff.mpr digits
    have value : Nat.ofDigitChars 10 (Nat.toDigits 10 n) 0 = n := Nat.ofDigitChars_ten_toDigits
    obtain ⟨ch, rest, split⟩ := List.exists_cons_of_ne_nil (Nat.toDigits_ne_nil (n := n) (b := 10))
    have first : isBare ch := by
      have digit := digits ch (split ▸ List.mem_cons_self)
      simp [isBare, Char.isAlphanum, digit]
    have unblank : (' ' :: Nat.toDigits 10 n).dropWhile isBlank = Nat.toDigits 10 n := by
      change (Nat.toDigits 10 n).dropWhile isBlank = _
      rw [split]
      exact List.dropWhile_cons_of_neg (by simp [not_blank_of_bare first])
    unfold basicValue
    rw [unblank]
    split
    · rename_i isQuote
      exact absurd (List.cons.inj (split.symm.trans isQuote)).1 (ne_of_bare first rfl)
    · rename_i isQuote
      exact absurd (List.cons.inj (split.symm.trans isQuote)).1 (ne_of_bare first rfl)
    · rename_i isBracket
      exact absurd (List.cons.inj (split.symm.trans isBracket)).1 (ne_of_bare first rfl)
    · dsimp only
      rw [whole, none, value, if_pos ⟨rfl, small, rfl⟩]

end Basic

end TomlCrate

end Titun
