import Titun.Transform

/-! What is made of a configuration file in the format of `wg`. -/
namespace Titun

open Lines Toml TomlCrate

/-- What a value means: a list, a number or a string. -/
def wgValue (value : Text) : TomlValue :=
  let value := trim value
  if ',' ∈ value then .array ((value.splitOn ',').map trim)
  else if value.all Char.isDigit then .integer (Nat.ofDigitChars 10 value 0)
  else .string value

/-- A configuration in the format of `wg`, by its lines: blank lines and comments, the headers
`[Interface]` and `[Peer]`, which a comment may follow, and pairs. -/
structure WgConfig (text : Text) (content : List (Item Text)) : Prop where
  reads : List.Forall₂ Reads (lines text) content
  headers : ∀ h, .header h ∈ content → h = .table "Interface".toList ∨ h = .table "Peer".toList
  /-- Within the brackets stands the name alone. -/
  exact : ∀ l ∈ lines text, ∀ name, Reads l (.header (.table name)) → '[' :: name ++ [']'] <+: trim l
  /-- Some line is a header of a peer and no more. Before it, only headers and comments have a double quote
  or a bracket. -/
  peer : ∃ before l after, lines text = before ++ l :: after ∧ trim l = "[Peer]".toList ∧
    ∀ m ∈ before, '"' ∈ m ∨ '[' ∈ m → (trim m).head? = some '#' ∨ (trim m).head? = some '['
  keys : ∀ k v, .pair k v ∈ content → k.all Char.isAlphanum ∧ trim v ≠ []
  numbers : ∀ k v, .pair k v ∈ content → (trim v).all Char.isDigit → ∃ n < 2 ^ 63, trim v = Nat.toDigits 10 n
  interfaceOnce : (document content).tables.count "Interface".toList ≤ 1
  keysOnce : ∀ s ∈ (document content).sections, (s.pairs.map Prod.fst).Nodup
  rootOnce : ((document content).root.map Prod.fst).Nodup

/-- No key before the first header is named like a section. -/
def NamesApart (content : List (Item Text)) : Prop :=
  ∀ name ∈ (document content).tables, name ∉ (document content).root.map Prod.fst

theorem needTransformLines_peer {before after : List Text} {l : Text} (isPeer : trim l = "[Peer]".toList)
    (plain : ∀ m ∈ before, '"' ∈ m ∨ '[' ∈ m → (trim m).head? = some '#' ∨ (trim m).head? = some '[') :
    needTransformLines (before ++ l :: after) = true := by
  induction before with
  | nil =>
    rw [List.nil_append, needTransformLines]
    exact if_pos isPeer
  | cons m before ih =>
    have rest := ih fun other isIn => plain other (List.mem_cons_of_mem _ isIn)
    rw [List.cons_append, needTransformLines]
    split_ifs with here skipped decisive
    · rfl
    · exact rest
    · have marked : '"' ∈ m ∨ '[' ∈ m := decisive.imp mem_of_mem_strip mem_of_mem_strip
      exact absurd (plain m List.mem_cons_self marked) skipped
    · exact rest

theorem value_transformValue {toml : TomlCrate} (lawful : toml.Lawful) {value : Text}
    (number : (trim value).all Char.isDigit → ∃ n < 2 ^ 63, trim value = Nat.toDigits 10 n) :
    toml.value (' ' :: toml.transformValue value) = some (wgValue value) := by
  unfold transformValue wgValue
  dsimp only
  split_ifs with comma digits
  · exact lawful.array _
  · obtain ⟨n, small, decimal⟩ := number digits
    rw [decimal, Nat.ofDigitChars_ten_toDigits]
    exact lawful.integer n small
  · exact lawful.string _

theorem tables_asElement (f : Text → TomlValue) (doc : Document Text) :
    (doc.map asElement f).tables = doc.tables.filter (· ≠ "Peer".toList) := by
  unfold Document.tables Document.map asElement
  generalize "Peer".toList = peer
  rw [List.filterMap_map, List.filter_filterMap]
  congr 1
  funext s
  cases header : s.header with
  | table name =>
    by_cases isPeer : name = peer
    · simp [header, isPeer, Option.filter]
    · simp [header, isPeer, Option.filter]
  | element name => simp [header]

theorem WgConfig.valid (config : WgConfig text content) (apart : NamesApart content) :
    ((document content).map asElement wgValue).Valid := by
  have headers : ∀ s ∈ (document content).sections,
      s.header = .table "Interface".toList ∨ s.header = .table "Peer".toList :=
    fun s isIn => config.headers s.header (header_mem isIn)
  have names : ∀ name ∈ (document content).tables, name = "Interface".toList ∨ name = "Peer".toList := by
    intro name isIn
    obtain ⟨s, isIn, header⟩ := Document.mem_tables.mp isIn
    have known := headers s isIn
    rw [header] at known
    exact known.imp Header.table.inj Header.table.inj
  have elements : ∀ name ∈ ((document content).map asElement wgValue).elements,
      name = "Peer".toList ∧ name ∈ (document content).tables := by
    intro name isIn
    obtain ⟨mapped, isIn, header⟩ := Document.mem_elements.mp isIn
    obtain ⟨s, listed, rfl⟩ := List.mem_map.mp isIn
    rcases headers s listed with interface | peer
    · simp [interface, asElement] at header
    · have same : name = "Peer".toList := by simpa [peer, asElement, eq_comm] using header
      exact ⟨same, Document.mem_tables.mpr ⟨s, listed, same ▸ peer⟩⟩
  have keys (l : List (Text × Text)) : (l.map (Prod.map id wgValue)).map Prod.fst = l.map Prod.fst := by simp
  constructor
  · rw [Document.map, keys]
    exact config.rootOnce
  · intro mapped isIn
    obtain ⟨s, listed, rfl⟩ := List.mem_map.mp isIn
    rw [keys]
    exact config.keysOnce s listed
  · rw [tables_asElement, List.nodup_iff_count_le_one]
    intro name
    by_cases interface : name = "Interface".toList
    · exact ((List.filter_sublist).count_le name).trans (interface ▸ config.interfaceOnce)
    · rw [List.count_eq_zero.mpr]
      · exact Nat.zero_le 1
      · intro isIn
        obtain ⟨isIn, other⟩ := List.mem_filter.mp isIn
        rcases names name isIn with same | same
        · exact interface same
        · exact of_decide_eq_true other same
  · intro name isTable isElement
    rw [tables_asElement] at isTable
    exact of_decide_eq_true (List.mem_filter.mp isTable).2 (elements name isElement).1
  · intro name isIn
    rw [Document.map, keys]
    rcases List.mem_append.mp isIn with isTable | isElement
    · rw [tables_asElement] at isTable
      exact apart name (List.mem_filter.mp isTable).1
    · exact apart name (elements name isElement).2

theorem WgConfig.items {toml : TomlCrate} (lawful : toml.Lawful) (config : WgConfig text content) :
    items toml.value (toml.maybeTransform text) = some (content.map (Item.map asElement wgValue)) := by
  obtain ⟨before, l, after, split, isPeer, plain⟩ := config.peer
  have needed : needTransform text = true := by
    rw [needTransform, split]
    exact needTransformLines_peer isPeer plain
  have spelled : ∀ l ∈ lines text, Reads l (.header (.table "Peer".toList)) → "[Peer]".toList <+: trim l :=
    fun l isIn header => config.exact l isIn _ header
  apply items_eq (maybeTransform_lines lawful needed config.reads spelled)
  intro i isIn
  cases i with
  | space => rfl
  | header h => rfl
  | pair key value =>
    have read := value_transformValue lawful (config.numbers key value isIn)
    simp [rewrite, Item.map, Item.read, read]

/-- The rewritten text is the TOML document with the same sections and what their values mean. -/
theorem wg_config_keeps_meaning (toml : TomlCrate) (lawful : toml.Lawful) (text : Text)
    (content : List (Item Text)) (config : WgConfig text content) (apart : NamesApart content) :
    Toml.read toml.value (toml.maybeTransform text) = some ((document content).map asElement wgValue) := by
  unfold Toml.read
  rw [config.items lawful, Option.bind_some, document_map, if_pos (config.valid apart)]

theorem reads_of_lines (each : (lines text).map line = content.map some) :
    List.Forall₂ Reads (lines text) content := by
  generalize lines text = ls at each
  induction ls generalizing content with
  | nil =>
    cases content with
    | nil => exact .nil
    | cons i content => cases each
  | cons l ls ih =>
    cases content with
    | nil => cases each
    | cons i content =>
      obtain ⟨first, rest⟩ := List.cons.inj each
      exact .cons (line_eq_some.mp first) (ih rest)

theorem exact_of_lines (each : ∀ l ∈ lines text, ∀ i ∈ line l, ∀ name ∈ i.tableName, '[' :: name ++ [']'] <+: trim l) :
    ∀ l ∈ lines text, ∀ name, Reads l (.header (.table name)) → '[' :: name ++ [']'] <+: trim l := by
  intro l isIn name reads
  exact each l isIn _ (line_eq_some.mpr reads) name rfl

def sampleWg : Text := "# Home.\n[Interface]\nListenPort = 7\n[Peer]\nAllowedIPs = 10.0.0.1/32, ::1\nEndpoint = [::1]:7\n".toList

def sampleWgContent : List (Item Text) :=
  [.space, .header (.table "Interface".toList), .pair "ListenPort".toList " 7".toList,
    .header (.table "Peer".toList), .pair "AllowedIPs".toList " 10.0.0.1/32, ::1".toList,
    .pair "Endpoint".toList " [::1]:7".toList]

theorem sampleWg_config : WgConfig sampleWg sampleWgContent := by
  constructor
  · exact reads_of_lines (by decide +kernel)
  · intro h isIn
    simp only [sampleWgContent, List.mem_cons, reduceCtorEq, Item.header.injEq, List.not_mem_nil, or_false,
      false_or] at isIn
    exact isIn
  · exact exact_of_lines (by decide +kernel)
  · refine ⟨(lines sampleWg).take 3, "[Peer]".toList, (lines sampleWg).drop 4, ?_, ?_, ?_⟩
    · decide +kernel
    · decide +kernel
    · decide +kernel
  · intro k v isIn
    simp only [sampleWgContent, List.mem_cons, reduceCtorEq, Item.pair.injEq, List.not_mem_nil, or_false,
      false_or] at isIn
    rcases isIn with ⟨rfl, rfl⟩ | ⟨rfl, rfl⟩ | ⟨rfl, rfl⟩
    · decide +kernel
    · decide +kernel
    · decide +kernel
  · intro k v isIn digits
    simp only [sampleWgContent, List.mem_cons, reduceCtorEq, Item.pair.injEq, List.not_mem_nil, or_false,
      false_or] at isIn
    rcases isIn with ⟨rfl, rfl⟩ | ⟨rfl, rfl⟩ | ⟨rfl, rfl⟩
    · exact ⟨7, by decide, by decide +kernel⟩
    · exact absurd digits (by decide +kernel)
    · exact absurd digits (by decide +kernel)
  · decide +kernel
  · decide +kernel
  · decide +kernel

theorem wg_config_keeps_meaning_sample :
    Toml.read basic.value (basic.maybeTransform sampleWg) = some
      ⟨[], [⟨.table "Interface".toList, [("ListenPort".toList, .integer 7)]⟩,
        ⟨.element "Peer".toList, [("AllowedIPs".toList, .array ["10.0.0.1/32".toList, "::1".toList]),
          ("Endpoint".toList, .string "[::1]:7".toList)]⟩]⟩ := by
  have kept := wg_config_keeps_meaning basic basic_lawful sampleWg sampleWgContent sampleWg_config
    (by unfold NamesApart; decide +kernel)
  rw [kept]
  decide +kernel

def sampleShadow : Text := "Peer = x\n[Peer]\n".toList

def sampleShadowContent : List (Item Text) := [.pair "Peer".toList " x".toList, .header (.table "Peer".toList)]

theorem sampleShadow_config : WgConfig sampleShadow sampleShadowContent := by
  constructor
  · exact reads_of_lines (by decide +kernel)
  · intro h isIn
    simp only [sampleShadowContent, List.mem_cons, reduceCtorEq, Item.header.injEq, List.not_mem_nil, or_false,
      false_or] at isIn
    exact .inr isIn
  · exact exact_of_lines (by decide +kernel)
  · refine ⟨["Peer = x".toList], "[Peer]".toList, [], ?_, ?_, ?_⟩
    · decide +kernel
    · decide +kernel
    · decide +kernel
  · intro k v isIn
    simp only [sampleShadowContent, List.mem_cons, reduceCtorEq, Item.pair.injEq, List.not_mem_nil, or_false] at isIn
    obtain ⟨rfl, rfl⟩ := isIn
    decide +kernel
  · intro k v isIn digits
    simp only [sampleShadowContent, List.mem_cons, reduceCtorEq, Item.pair.injEq, List.not_mem_nil, or_false] at isIn
    obtain ⟨rfl, rfl⟩ := isIn
    exact absurd digits (by decide +kernel)
  · decide +kernel
  · decide +kernel
  · decide +kernel

/-- A key before the first header may have the name of a section, which TOML does not allow. -/
theorem wg_config_shadowed_section : WgConfig sampleShadow sampleShadowContent ∧
    ∀ toml : TomlCrate, toml.Lawful → Toml.read toml.value (toml.maybeTransform sampleShadow) = none := by
  constructor
  · exact sampleShadow_config
  · intro toml lawful
    have invalid : ¬ (document (sampleShadowContent.map (Item.map asElement wgValue))).Valid := by decide +kernel
    unfold Toml.read
    rw [sampleShadow_config.items lawful, Option.bind_some, if_neg invalid]

end Titun
