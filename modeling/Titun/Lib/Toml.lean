import Mathlib
import Titun.Lib.Lines

/-! TOML documents of one level: pairs, tables and arrays of tables under bare keys, each on a line of
its own. How the text after a `=` is read is left open. -/
namespace Toml

open Lines

def isBlank (c : Char) : Bool := c = ' ' ∨ c = '\t'

/-- What a comment may hold. -/
def isNonEol (c : Char) : Bool := c = '\t' ∨ 0x20 ≤ c.toNat

def isBare (c : Char) : Bool := c.isAlphanum ∨ c = '_' ∨ c = '-'

def BareKey (key : Text) : Prop := key ≠ [] ∧ key.all isBare

instance : DecidablePred BareKey := fun key => inferInstanceAs (Decidable (key ≠ [] ∧ key.all isBare))

/-- Blanks, and a comment perhaps. -/
def ending (s : Text) : Bool :=
  match s.dropWhile isBlank with
  | [] => true
  | c :: comment => c = '#' ∧ comment.all isNonEol

/-- What begins a table, or an element of an array of tables. -/
inductive Header where
  | table (name : Text)
  | element (name : Text)
  deriving DecidableEq

inductive Item (V : Type) where
  | space
  | header (h : Header)
  | pair (key : Text) (value : V)
  deriving DecidableEq

/-- The name that a header gives, and what follows the first bracket after it. -/
def header (s : Text) : Option (Text × Text) :=
  let name := strip isBlank (s.takeWhile (· != ']'))
  match s.dropWhile (· != ']') with
  | _ :: after => if BareKey name then some (name, after) else none
  | [] => none

/-- A line without the blanks before it. -/
def unindented : Text → Option (Item Text)
  | '[' :: '[' :: s =>
    match header s with
    | some (name, ']' :: after) => if ending after then some (.header (.element name)) else none
    | _ => none
  | '[' :: s =>
    match header s with
    | some (name, after) => if ending after then some (.header (.table name)) else none
    | none => none
  | s =>
    if ending s then some .space
    else
      let key := strip isBlank (s.takeWhile (· != '='))
      match s.dropWhile (· != '=') with
      | _ :: value => if BareKey key then some (.pair key value) else none
      | [] => none

/-- A line, with the text after the `=` as it stands. -/
def line (l : Text) : Option (Item Text) := unindented (l.dropWhile isBlank)

structure Section (V : Type) where
  header : Header
  pairs : List (Text × V)
  deriving DecidableEq

/-- The pairs before the first header, and what follows each header. -/
structure Document (V : Type) where
  root : List (Text × V)
  sections : List (Section V)
  deriving DecidableEq

variable {V W : Type}

def document : List (Item V) → Document V
  | [] => ⟨[], []⟩
  | .space :: items => document items
  | .pair key value :: items => ⟨(key, value) :: (document items).root, (document items).sections⟩
  | .header h :: items => ⟨[], ⟨h, (document items).root⟩ :: (document items).sections⟩

def Item.read (value : Text → Option V) : Item Text → Option (Item V)
  | .space => some .space
  | .header h => some (.header h)
  | .pair key text => (value text).map (.pair key)

def Item.tableName : Item V → Option Text
  | .header (.table name) => some name
  | _ => none

def Item.map (rename : Header → Header) (f : V → W) : Item V → Item W
  | .space => .space
  | .header h => .header (rename h)
  | .pair key value => .pair key (f value)

/-- The lines of a text, each of which has to be one of a document. -/
def items (value : Text → Option V) (text : Text) : Option (List (Item V)) :=
  (lines text).mapM fun l => (line l).bind (Item.read value)

namespace Document

def tables (doc : Document V) : List Text :=
  doc.sections.filterMap fun s => match s.header with | .table name => some name | .element _ => none

def elements (doc : Document V) : List Text :=
  doc.sections.filterMap fun s => match s.header with | .table _ => none | .element name => some name

/-- No key is given twice, and no name is used for two things. -/
structure Valid (doc : Document V) : Prop where
  root : (doc.root.map Prod.fst).Nodup
  pairs : ∀ s ∈ doc.sections, (s.pairs.map Prod.fst).Nodup
  tables : doc.tables.Nodup
  apart : ∀ name ∈ doc.tables, name ∉ doc.elements
  outside : ∀ name ∈ doc.tables ++ doc.elements, name ∉ doc.root.map Prod.fst

instance (doc : Document V) : Decidable doc.Valid :=
  decidable_of_iff ((doc.root.map Prod.fst).Nodup ∧ (∀ s ∈ doc.sections, (s.pairs.map Prod.fst).Nodup) ∧
      doc.tables.Nodup ∧ (∀ name ∈ doc.tables, name ∉ doc.elements) ∧
      ∀ name ∈ doc.tables ++ doc.elements, name ∉ doc.root.map Prod.fst)
    ⟨fun ⟨a, b, c, d, e⟩ => ⟨a, b, c, d, e⟩, fun ⟨a, b, c, d, e⟩ => ⟨a, b, c, d, e⟩⟩

def map (rename : Header → Header) (f : V → W) (doc : Document V) : Document W :=
  ⟨doc.root.map (Prod.map id f), doc.sections.map fun s => ⟨rename s.header, s.pairs.map (Prod.map id f)⟩⟩

theorem mem_tables {doc : Document V} : name ∈ doc.tables ↔ ∃ s ∈ doc.sections, s.header = .table name := by
  simp only [tables, List.mem_filterMap]
  constructor
  · rintro ⟨s, isIn, found⟩
    refine ⟨s, isIn, ?_⟩
    split at found
    · rename_i header
      exact Option.some.inj found ▸ header
    · cases found
  · rintro ⟨s, isIn, header⟩
    exact ⟨s, isIn, by rw [header]⟩

theorem mem_elements {doc : Document V} : name ∈ doc.elements ↔ ∃ s ∈ doc.sections, s.header = .element name := by
  simp only [elements, List.mem_filterMap]
  constructor
  · rintro ⟨s, isIn, found⟩
    refine ⟨s, isIn, ?_⟩
    split at found
    · cases found
    · rename_i header
      exact Option.some.inj found ▸ header
  · rintro ⟨s, isIn, header⟩
    exact ⟨s, isIn, by rw [header]⟩

end Document

/-- The document that a text is, if it is a valid one of one level. -/
def read (value : Text → Option V) (text : Text) : Option (Document V) :=
  (items value text).bind fun items => if (document items).Valid then some (document items) else none

structure Inside (text name : Text) : Prop where
  bare : BareKey name
  surrounded : ∃ b c : Text, b.all isBlank ∧ c.all isBlank ∧ text = b ++ name ++ c

/-- The same lines, as a grammar. -/
inductive Reads : Text → Item Text → Prop
  | space (ends : ending l) : Reads l .space
  | table (before : Text) (blank : before.all isBlank) (inside : Inside text name) (ends : ending after) :
      Reads (before ++ '[' :: (text ++ ']' :: after)) (.header (.table name))
  | element (before : Text) (blank : before.all isBlank) (inside : Inside text name) (ends : ending after) :
      Reads (before ++ '[' :: '[' :: (text ++ ']' :: ']' :: after)) (.header (.element name))
  | pair (before gap : Text) (blank : before.all isBlank) (bare : BareKey key) (blankGap : gap.all isBlank)
      (value : Text) : Reads (before ++ key ++ gap ++ '=' :: value) (.pair key value)

section Grammar

theorem bare_range (bare : isBare ch) : 0x2D ≤ ch.toNat ∧ ch.toNat ≤ 0x7A := by
  have range (c : Char) (alphanum : c.isAlphanum) : 0x2D ≤ c.toNat ∧ c.toNat ≤ 0x7A := by
    simp only [Char.isAlphanum, Char.isAlpha, Char.isUpper, Char.isLower, Char.isDigit, Bool.or_eq_true,
      decide_eq_true_eq, Bool.and_eq_true, ge_iff_le, UInt32.le_iff_toNat_le, Char.reduceVal,
      UInt32.reduceToNat] at alphanum
    change 0x2D ≤ c.val.toNat ∧ c.val.toNat ≤ 0x7A
    omega
  rcases of_decide_eq_true bare with alphanum | rfl | rfl
  · exact range ch alphanum
  · decide
  · decide

theorem not_blank_of_bare (bare : isBare ch) : isBlank ch = false := by
  by_contra blank
  have cases := of_decide_eq_true (Bool.not_eq_false _ ▸ blank)
  rcases cases with rfl | rfl <;> exact absurd bare (by decide)

theorem ne_of_bare (bare : isBare ch) (other : isBare d = false) : ch ≠ d := by
  rintro rfl
  exact absurd bare (by simp [other])

theorem ne_of_blank (blank : isBlank ch) (other : isBlank d = false) : ch ≠ d := by
  rintro rfl
  exact absurd blank (by simp [other])

theorem BareKey.not_mem (bare : BareKey key) (other : isBare d = false) : d ∉ key :=
  fun isIn => ne_of_bare (List.all_eq_true.mp bare.2 d isIn) other rfl

theorem not_mem_blank {s : Text} (blank : s.all isBlank) (other : isBlank d = false) : d ∉ s :=
  fun isIn => ne_of_blank (List.all_eq_true.mp blank d isIn) other rfl

theorem BareKey.strip (bare : BareKey key) : strip isBlank key = key :=
  strip_self fun ch isIn => not_blank_of_bare (List.all_eq_true.mp bare.2 ch isIn)

theorem takeWhile_ne {s : Text} (absent : d ∉ s) (rest : Text) : (s ++ d :: rest).takeWhile (· != d) = s := by
  rw [List.takeWhile_append_of_pos]
  · simp
  · intro ch isIn
    exact bne_iff_ne.mpr fun same => absent (same ▸ isIn)

theorem dropWhile_ne {s : Text} (absent : d ∉ s) (rest : Text) :
    (s ++ d :: rest).dropWhile (· != d) = d :: rest := by
  rw [List.dropWhile_append_of_pos]
  · simp
  · intro ch isIn
    exact bne_iff_ne.mpr fun same => absent (same ▸ isIn)

theorem dropWhile_ne_cons {s : Text} (found : s.dropWhile (· != d) = ch :: rest) :
    s = s.takeWhile (· != d) ++ d :: rest ∧ d ∉ s.takeWhile (· != d) := by
  have nonempty : s.dropWhile (· != d) ≠ [] := found ▸ List.cons_ne_nil _ _
  have first := List.head_dropWhile_not (· != d) nonempty
  have same : ch = d := by simpa [found] using first
  constructor
  · conv_lhs => rw [← List.takeWhile_append_dropWhile (p := (· != d)) (l := s), found, same]
  · intro isIn
    simpa using List.mem_takeWhile_imp isIn

namespace Inside

theorem strip (inside : Inside text name) : strip isBlank text = name := by
  obtain ⟨b, c, left, right, rfl⟩ := inside.surrounded
  exact (strip_surrounded left right name).trans inside.bare.strip

theorem not_mem (inside : Inside text name) (noBlank : isBlank d = false) (noBare : isBare d = false) :
    d ∉ text := by
  obtain ⟨b, c, left, right, rfl⟩ := inside.surrounded
  simp [not_mem_blank left noBlank, not_mem_blank right noBlank, inside.bare.not_mem noBare]

theorem ne_nil (inside : Inside text name) : text ≠ [] := by
  obtain ⟨b, c, left, right, rfl⟩ := inside.surrounded
  simp [inside.bare.1]

end Inside

theorem header_eq_some {s : Text} :
    header s = some (name, after) ↔ ∃ text, Inside text name ∧ s = text ++ ']' :: after := by
  unfold header
  constructor
  · intro found
    dsimp only at found
    cases rest : s.dropWhile (· != ']') with
    | nil =>
      rw [rest] at found
      cases found
    | cons ch tail =>
      rw [rest] at found
      dsimp only at found
      split_ifs at found with bare
      obtain ⟨rfl, rfl⟩ := Prod.mk.inj (Option.some.inj found)
      obtain ⟨split, _⟩ := dropWhile_ne_cons rest
      exact ⟨s.takeWhile (· != ']'), ⟨bare, strip_parts isBlank _⟩, split⟩
  · rintro ⟨text, inside, rfl⟩
    have absent : ']' ∉ text := inside.not_mem rfl rfl
    rw [takeWhile_ne absent, dropWhile_ne absent]
    dsimp only
    rw [inside.strip, if_pos inside.bare]

theorem ending_blank {a : Text} (blank : a.all isBlank) (s : Text) : ending (a ++ s) = ending s := by
  rw [ending, dropWhile_all_append blank]
  rfl

theorem ending_iff : ending s ↔ ∃ a : Text, a.all isBlank ∧
    (s = a ∨ ∃ comment : Text, comment.all isNonEol ∧ s = a ++ '#' :: comment) := by
  constructor
  · intro ends
    obtain ⟨a, blank, parts⟩ : ∃ a : Text, a.all isBlank ∧ s = a ++ s.dropWhile isBlank :=
      ⟨s.takeWhile isBlank, by simp, List.takeWhile_append_dropWhile.symm⟩
    unfold ending at ends
    refine ⟨a, blank, ?_⟩
    cases rest : s.dropWhile isBlank with
    | nil =>
      left
      rw [rest, List.append_nil] at parts
      exact parts
    | cons ch comment =>
      right
      rw [rest] at ends parts
      obtain ⟨rfl, printable⟩ := of_decide_eq_true ends
      exact ⟨comment, printable, parts⟩
  · rintro ⟨a, blank, rfl | ⟨comment, printable, rfl⟩⟩
    · have same := ending_blank blank []
      rwa [List.append_nil] at same
    · rw [ending_blank blank]
      simp_all [ending, isBlank]

theorem isNonEol_of_blank (blank : isBlank ch) : isNonEol ch := by
  rcases of_decide_eq_true blank with rfl | rfl <;> rfl

theorem isNonEol_of_bare (bare : isBare ch) : isNonEol ch := by
  have range := bare_range bare
  exact decide_eq_true (.inr (by omega))

theorem nonEol_of_blank {s : Text} (blank : s.all isBlank) : s.all isNonEol :=
  List.all_eq_true.mpr fun ch isIn => isNonEol_of_blank (List.all_eq_true.mp blank ch isIn)

theorem BareKey.nonEol (bare : BareKey key) : key.all isNonEol :=
  List.all_eq_true.mpr fun ch isIn => isNonEol_of_bare (List.all_eq_true.mp bare.2 ch isIn)

theorem Inside.nonEol (inside : Inside text name) : text.all isNonEol := by
  obtain ⟨b, c, left, right, rfl⟩ := inside.surrounded
  simp [List.all_append, nonEol_of_blank left, nonEol_of_blank right, inside.bare.nonEol]

theorem ending_nonEol (ends : ending s) : s.all isNonEol := by
  obtain ⟨a, blank, parts⟩ := ending_iff.mp ends
  have left := nonEol_of_blank blank
  rcases parts with rfl | ⟨comment, printable, rfl⟩
  · exact left
  · simp [List.all_append, left, printable, isNonEol]

theorem oneLine_of_nonEol {s : Text} (printable : s.all isNonEol) : OneLine s := by
  constructor
  · intro isIn
    exact absurd (List.all_eq_true.mp printable _ isIn) (by decide)
  · intro isIn
    exact absurd (List.all_eq_true.mp printable _ isIn) (by decide)

theorem reads_of_unindented {a : Text} (blank : a.all isBlank) (found : unindented s = some i) :
    Reads (a ++ s) i := by
  unfold unindented at found
  split at found
  · rename_i s
    split at found
    · rename_i name after headed
      split_ifs at found with ends
      obtain rfl := Option.some.inj found
      obtain ⟨text, inside, rfl⟩ := header_eq_some.mp headed
      exact .element a blank inside ends
    · cases found
  · rename_i s _
    split at found
    · rename_i name after headed
      split_ifs at found with ends
      obtain rfl := Option.some.inj found
      obtain ⟨text, inside, rfl⟩ := header_eq_some.mp headed
      exact .table a blank inside ends
    · cases found
  · split_ifs at found with ends
    · obtain rfl := Option.some.inj found
      exact .space ((ending_blank blank s).trans ends)
    · dsimp only at found
      split at found
      · rename_i ch value rest
        split_ifs at found with bare
        obtain rfl := Option.some.inj found
        obtain ⟨split, _⟩ := dropWhile_ne_cons rest
        obtain ⟨b, c, left, right, parts⟩ := strip_parts isBlank (s.takeWhile (· != '='))
        generalize strip isBlank (s.takeWhile (· != '=')) = key at parts bare ⊢
        have reads := Reads.pair (a ++ b) c (by simp [blank, left]) bare right value
        rw [split, parts]
        simpa using reads
      · cases found

theorem unindented_other (other : s.head? ≠ some '[') : unindented s =
    if ending s then some .space
    else
      match s.dropWhile (· != '=') with
      | _ :: value =>
        if BareKey (strip isBlank (s.takeWhile (· != '='))) then
          some (.pair (strip isBlank (s.takeWhile (· != '='))) value)
        else none
      | [] => none := by
  unfold unindented
  split
  · simp at other
  · simp at other
  · rfl

theorem line_blank {a : Text} (blank : a.all isBlank) (s : Text) : line (a ++ s) = line s := by
  rw [line, dropWhile_all_append blank]
  rfl

theorem line_eq_some : line l = some i ↔ Reads l i := by
  constructor
  · intro found
    have reads := reads_of_unindented (a := l.takeWhile isBlank) (by simp) found
    rwa [List.takeWhile_append_dropWhile] at reads
  · intro reads
    cases reads with
    | space ends =>
      have first : ending (l.dropWhile isBlank) := by
        rw [ending, List.dropWhile_idempotent]
        exact ends
      rw [line, unindented_other, if_pos first]
      intro bracket
      obtain ⟨s, rest⟩ : ∃ s, l.dropWhile isBlank = '[' :: s := by
        cases rest : l.dropWhile isBlank with
        | nil => simp [rest] at bracket
        | cons ch s => exact ⟨s, by simp_all⟩
      simp [ending, rest] at ends
    | table before blank inside ends =>
      rename_i text name after
      have headed : header (text ++ ']' :: after) = some (name, after) := header_eq_some.mpr ⟨text, inside, rfl⟩
      have single : ∀ s, text ++ ']' :: after ≠ '[' :: s := by
        intro s twice
        obtain ⟨ch, rest, rfl⟩ := List.exists_cons_of_ne_nil inside.ne_nil
        obtain rfl := (List.cons.inj twice).1
        exact inside.not_mem (d := '[') rfl rfl List.mem_cons_self
      rw [line_blank blank]
      show unindented ('[' :: (text ++ ']' :: after)) = _
      unfold unindented
      split
      · rename_i s twice
        exact absurd (List.cons.inj twice).2 (single s)
      · rename_i s _ once
        obtain rfl := (List.cons.inj once).2
        rw [headed]
        dsimp only
        rw [if_pos ends]
      · rename_i none
        exact absurd rfl (none _)
    | element before blank inside ends =>
      rename_i text name after
      have headed : header (text ++ ']' :: ']' :: after) = some (name, ']' :: after) :=
        header_eq_some.mpr ⟨text, inside, rfl⟩
      rw [line_blank blank]
      show unindented ('[' :: '[' :: (text ++ ']' :: ']' :: after)) = _
      simp only [unindented, headed]
      rw [if_pos ends]
    | pair before gap blank bare blankGap value =>
      rename_i key
      have absent : '=' ∉ key ++ gap := by
        rw [List.mem_append, not_or]
        exact ⟨bare.not_mem rfl, not_mem_blank blankGap rfl⟩
      obtain ⟨ch, rest, rfl⟩ := List.exists_cons_of_ne_nil bare.1
      have first : isBare ch := by
        have all := bare.2
        simp_all
      have stripped : strip isBlank (ch :: rest ++ gap) = ch :: rest := by
        have surrounded := strip_surrounded (a := []) (p := isBlank) rfl blankGap (ch :: rest)
        exact surrounded.trans bare.strip
      have goesOn : ending (ch :: rest ++ gap ++ '=' :: value) = false := by
        have apart := ne_of_bare first (d := '#') rfl
        simp [ending, not_blank_of_bare first, apart]
      have keep : (ch :: rest ++ gap ++ '=' :: value).dropWhile isBlank = ch :: rest ++ gap ++ '=' :: value := by
        simp [not_blank_of_bare first]
      rw [List.append_assoc, List.append_assoc, line_blank blank, ← List.append_assoc, line, keep,
        unindented_other, goesOn, dropWhile_ne absent, takeWhile_ne absent, stripped]
      · simp [bare]
      · simp [ne_of_bare first (d := '[') rfl]

theorem mem_of_reads (reads : List.Forall₂ Reads ls content) (isIn : l ∈ ls) (isLine : Reads l i) :
    i ∈ content := by
  induction reads with
  | nil => cases isIn
  | cons head tail ih =>
    rcases List.mem_cons.mp isIn with rfl | isIn
    · have same := (line_eq_some.mpr head).symm.trans (line_eq_some.mpr isLine)
      rw [Option.some.inj same]
      exact List.mem_cons_self
    · exact List.mem_cons_of_mem _ (ih isIn)

/-- The items of a text that has the grammar, as far as its values can be read. -/
theorem items_of_reads {value : Text → Option V} (reads : List.Forall₂ Reads (lines text) content) :
    items value text = content.mapM (Item.read value) := by
  unfold items
  generalize lines text = ls at reads
  induction reads with
  | nil => rfl
  | cons head _ ih => rw [List.mapM_cons, List.mapM_cons, ih, line_eq_some.mpr head, Option.bind_some]

theorem items_eq {content : List (Item Text)} {value : Text → Option V} {g : Item Text → Item Text} {f : Item Text → Item V}
    (reads : List.Forall₂ Reads (lines text) (content.map g))
    (each : ∀ i ∈ content, Item.read value (g i) = some (f i)) : items value text = some (content.map f) := by
  rw [items_of_reads reads]
  clear reads
  induction content with
  | nil => rfl
  | cons i content ih =>
    have rest := ih fun j isIn => each j (List.mem_cons_of_mem _ isIn)
    rw [List.map_cons, List.mapM_cons, each i List.mem_cons_self, rest]
    rfl

theorem reads_of_items {value : Text → Option V} (read : items value text = some got) :
    ∃ content, List.Forall₂ Reads (lines text) content ∧ content.mapM (Item.read value) = some got := by
  unfold items at read
  generalize lines text = ls at read
  induction ls generalizing got with
  | nil => exact ⟨[], .nil, read⟩
  | cons l ls ih =>
    rw [List.mapM_cons] at read
    obtain ⟨i, first, read⟩ := Option.bind_eq_some_iff.mp read
    obtain ⟨rest, others, read⟩ := Option.bind_eq_some_iff.mp read
    obtain ⟨raw, isLine, value⟩ := Option.bind_eq_some_iff.mp first
    obtain ⟨content, reads, values⟩ := ih others
    refine ⟨raw :: content, .cons (line_eq_some.mp isLine) reads, ?_⟩
    rw [List.mapM_cons, value, values]
    exact read

end Grammar

theorem header_mem {content : List (Item V)} (isIn : s ∈ (document content).sections) :
    .header s.header ∈ content := by
  induction content with
  | nil => cases isIn
  | cons i content ih =>
    cases i with
    | space => exact List.mem_cons_of_mem _ (ih isIn)
    | pair key value => exact List.mem_cons_of_mem _ (ih isIn)
    | header h =>
      rcases List.mem_cons.mp isIn with rfl | isIn
      · exact List.mem_cons_self
      · exact List.mem_cons_of_mem _ (ih isIn)

theorem mem_sections_of_header {content : List (Item V)} (isIn : .header h ∈ content) :
    ∃ s ∈ (document content).sections, s.header = h := by
  induction content with
  | nil => cases isIn
  | cons i content ih =>
    rcases List.mem_cons.mp isIn with rfl | isIn
    · exact ⟨_, List.mem_cons_self, rfl⟩
    · obtain ⟨s, listed, same⟩ := ih isIn
      refine ⟨s, ?_, same⟩
      cases i with
      | space => exact listed
      | header other => exact List.mem_cons_of_mem _ listed
      | pair key value => exact listed

theorem document_map (rename : Header → Header) (f : V → W) (content : List (Item V)) :
    document (content.map (Item.map rename f)) = (document content).map rename f := by
  induction content with
  | nil => rfl
  | cons i content ih =>
    cases i with
    | space => exact ih
    | header h => simp [Item.map, document, ih, Document.map]
    | pair key value => simp [Item.map, document, ih, Document.map]

end Toml
