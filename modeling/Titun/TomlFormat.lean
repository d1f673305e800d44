import Titun.Transform

/-! What is made of a configuration file that is TOML already. -/
namespace Titun

open Lines Toml TomlCrate

/-- A line with a double quote or a bracket that is no header and no comment. -/
def Decisive (l : Text) : Prop :=
  (trim l).head? ≠ some '#' ∧ (trim l).head? ≠ some '[' ∧ ('"' ∈ trim l ∨ '[' ∈ trim l)

/-- There is such a line, and no line before it is `[Peer]`. -/
def LooksLikeToml (ls : List Text) : Prop :=
  ∃ before l after, ls = before ++ l :: after ∧ (∀ m ∈ before, trim m ≠ "[Peer]".toList) ∧ Decisive l

/-- The values given for the private key in tables `[Interface]`. -/
def privateKeys {V : Type} (doc : Document V) : List V :=
  (doc.sections.filter (·.header = .table "Interface".toList)).flatMap fun s =>
    (s.pairs.filter fun (key, _) => key = "PrivateKey".toList ∨ key = "Key".toList).map Prod.snd

def inlineInterfaces {V : Type} (doc : Document V) : List V :=
  (doc.root.filter fun (key, _) => key = "Interface".toList).map Prod.snd

def isBase64 (ch : Char) : Bool := ch.isAlphanum ∨ ch = '+' ∨ ch = '/' ∨ ch = '='

/-- The private key is given, in the table of the interface or in an inline one, and is base64. -/
structure GivesKey (doc : Document TomlValue) : Prop where
  given : privateKeys doc ≠ [] ∨ inlineInterfaces doc ≠ []
  keys : ∀ v ∈ privateKeys doc, ∃ s, v = .string s ∧ s.all isBase64
  inline : ∀ v ∈ inlineInterfaces doc, ∃ t, v = .table t

/-- `toml::from_str` of a configuration, and what it makes of a document of one level. -/
structure ConfigReader (κ : Type) where
  fromStr : Text → Option κ
  deserialize : Document TomlValue → Option κ

/-- What is relied on: a text of one level is deserialised as its document. The private key is required and
`Peer` is an array. Strings begin with a quote, inline tables with a brace, and space around a number is
ignored. -/
structure ConfigReader.Lawful {κ : Type} (reader : ConfigReader κ) (toml : TomlCrate) : Prop where
  document : ∀ text content, items toml.value text = some content →
    reader.fromStr text = reader.deserialize (document content)
  key : ∀ doc config, reader.deserialize doc = some config → GivesKey doc
  peers : ∀ doc config, reader.deserialize doc = some config → "Peer".toList ∉ doc.tables
  quoted : ∀ text s, toml.value text = some (.string s) →
    (text.dropWhile isBlank).head? = some '"' ∨ (text.dropWhile isBlank).head? = some '\''
  braced : ∀ text t, toml.value text = some (.table t) → (text.dropWhile isBlank).head? = some '{'
  spaced : ∀ text v, toml.value text = some v → (trim text).all Char.isDigit →
    toml.value (' ' :: trim text) = some v

theorem looksLikeToml_cons {m : Text} {ls : List Text} :
    LooksLikeToml (m :: ls) ↔ Decisive m ∨ trim m ≠ "[Peer]".toList ∧ LooksLikeToml ls := by
  constructor
  · rintro ⟨before, l, after, split, noPeer, decisive⟩
    cases before with
    | nil =>
      obtain ⟨rfl, _⟩ := List.cons.inj split
      exact .inl decisive
    | cons first before =>
      obtain ⟨rfl, rest⟩ := List.cons.inj split
      right
      constructor
      · exact noPeer m List.mem_cons_self
      · exact ⟨before, l, after, rest, fun other isIn => noPeer other (List.mem_cons_of_mem _ isIn), decisive⟩
  · rintro (decisive | ⟨other, before, l, after, rfl, noPeer, decisive⟩)
    · exact ⟨[], m, ls, rfl, by simp, decisive⟩
    · refine ⟨m :: before, l, after, rfl, ?_, decisive⟩
      intro line isIn
      rcases List.mem_cons.mp isIn with rfl | isIn
      · exact other
      · exact noPeer line isIn

theorem needTransformLines_eq_false (ls : List Text) : needTransformLines ls = false ↔ LooksLikeToml ls := by
  induction ls with
  | nil =>
    constructor
    · intro needed
      cases needed
    · rintro ⟨before, l, after, split, _⟩
      simp at split
  | cons m ls ih =>
    rw [needTransformLines, looksLikeToml_cons]
    split_ifs with isPeer skipped decisive
    · simp [Decisive, isPeer]
    · have undecided : ¬ Decisive m := fun decisive => skipped.elim decisive.1 decisive.2.1
      rw [ih]
      exact ⟨fun rest => .inr ⟨isPeer, rest⟩, fun rest => (rest.resolve_left undecided).2⟩
    · obtain ⟨noComment, noBracket⟩ := not_or.mp skipped
      exact ⟨fun _ => .inl ⟨noComment, noBracket, decisive⟩, fun _ => rfl⟩
    · have undecided : ¬ Decisive m := fun has => decisive has.2.2
      rw [ih]
      exact ⟨fun rest => .inr ⟨isPeer, rest⟩, fun rest => (rest.resolve_left undecided).2⟩

theorem privateKeys_map {V W : Type} {rename : Header → Header} (f : V → W) (doc : Document V)
    (kept : ∀ h, rename h = .table "Interface".toList ↔ h = .table "Interface".toList) :
    privateKeys (doc.map rename f) = (privateKeys doc).map f := by
  have same : ((fun s : Section W => decide (s.header = .table "Interface".toList)) ∘ fun s : Section V =>
      ⟨rename s.header, s.pairs.map (Prod.map id f)⟩) = fun s => decide (s.header = .table "Interface".toList) := by
    funext s
    exact decide_eq_decide.mpr (kept s.header)
  unfold privateKeys Document.map
  rw [List.filter_map, same, List.flatMap_map, List.map_flatMap]
  congr 1
  funext s
  rw [List.filter_map, List.map_map, List.map_map]
  rfl

theorem inlineInterfaces_map {V W : Type} (rename : Header → Header) (f : V → W) (doc : Document V) :
    inlineInterfaces (doc.map rename f) = (inlineInterfaces doc).map f := by
  simp only [inlineInterfaces, Document.map, List.filter_map, List.map_map]
  rfl

def rewrittenValue (toml : TomlCrate) (text : Text) : TomlValue :=
  if ',' ∈ trim text then .array (((trim text).splitOn ',').map trim)
  else if (trim text).all Char.isDigit then (toml.value text).getD (.other text)
  else .string (trim text)

theorem value_rewritten {toml : TomlCrate} {reader : ConfigReader κ} (lawful : toml.Lawful)
    (documented : reader.Lawful toml) (readable : toml.value text = some v) :
    toml.value (' ' :: toml.transformValue text) = some (rewrittenValue toml text) := by
  unfold transformValue rewrittenValue
  dsimp only
  split_ifs with comma digits
  · exact lawful.array _
  · rw [documented.spaced text v readable digits, readable]
    rfl
  · exact lawful.string _

theorem trim_first {text : Text} (first : (text.dropWhile isBlank).head? = some ch)
    (visible : isWhitespace ch = false) : ∃ rest, trim text = ch :: rest := by
  obtain ⟨rest, split⟩ : ∃ rest, text.dropWhile isBlank = ch :: rest := by
    cases whole : text.dropWhile isBlank with
    | nil => simp [whole] at first
    | cons d rest =>
      rw [whole] at first
      exact ⟨rest, by rw [Option.some.inj first]⟩
  have parts : text = text.takeWhile isBlank ++ ch :: rest := by
    rw [← split, List.takeWhile_append_dropWhile]
  rw [parts, trim_blank (by simp), trim_cons visible]
  exact ⟨_, rfl⟩

/-- Where a value began with something that is neither a digit nor in base64, it becomes no such string. -/
theorem rewrittenValue_quoted {toml : TomlCrate} (begins : trim text = ch :: rest) (noDigit : ch.isDigit = false)
    (noBase64 : isBase64 ch = false) :
    (∀ t, rewrittenValue toml text ≠ .table t) ∧ ¬ ∃ s, rewrittenValue toml text = .string s ∧ s.all isBase64 := by
  have notDigits : ¬ (trim text).all Char.isDigit := by simp [begins, noDigit]
  unfold rewrittenValue
  split_ifs with comma
  · simp
  · constructor
    · simp
    · rintro ⟨s, same, base64⟩
      obtain rfl := TomlValue.string.inj same
      simp [begins, noBase64] at base64

theorem mapM_read {toml : TomlCrate} {raw : List (Item Text)} (read : raw.mapM (Item.read toml.value) = some content) :
    content = raw.map (Item.map id fun text => (toml.value text).getD (.other text)) ∧
      ∀ key text, .pair key text ∈ raw → ∃ v, toml.value text = some v := by
  induction raw generalizing content with
  | nil =>
    obtain rfl := Option.some.inj read
    simp
  | cons i raw ih =>
    rw [List.mapM_cons] at read
    obtain ⟨j, first, read⟩ := Option.bind_eq_some_iff.mp read
    obtain ⟨others, rest, read⟩ := Option.bind_eq_some_iff.mp read
    obtain rfl := Option.some.inj read
    obtain ⟨same, readable⟩ := ih rest
    cases i with
    | space =>
      obtain rfl := Option.some.inj first
      exact ⟨by rw [same]; rfl, by simpa using readable⟩
    | header h =>
      obtain rfl := Option.some.inj first
      exact ⟨by rw [same]; rfl, by simpa using readable⟩
    | pair key text =>
      obtain ⟨v, value, rfl⟩ := Option.map_eq_some_iff.mp first
      constructor
      · rw [same]
        simp [Item.map, value]
      · intro k t isIn
        rcases List.mem_cons.mp isIn with same | isIn
        · obtain ⟨rfl, rfl⟩ := Item.pair.inj same
          exact ⟨v, value⟩
        · exact readable k t isIn

theorem asElement_interface (h : Header) :
    asElement h = .table "Interface".toList ↔ h = .table "Interface".toList := by
  cases h with
  | table name =>
    rw [asElement]
    split_ifs with isPeer
    · subst isPeer
      decide
    · exact Iff.rfl
  | element name => exact Iff.rfl

/-- A document of one level that is taken for the other format is no configuration any more. -/
theorem rewritten_rejected {κ : Type} {toml : TomlCrate} {reader : ConfigReader κ} {config rewritten : κ}
    (lawful : toml.Lawful) (documented : reader.Lawful toml) (valid : reader.fromStr text = some config)
    (read : items toml.value text = some content) (needed : needTransform text = true) :
    reader.fromStr (toml.maybeTransform text) ≠ some rewritten := by
  intro accepted
  rw [documented.document text content read] at valid
  obtain ⟨raw, reads, values⟩ := reads_of_items read
  obtain ⟨rfl, readable⟩ := mapM_read values
  rw [document_map] at valid
  have noPeer : .header (.table "Peer".toList) ∉ raw := by
    intro isIn
    apply documented.peers _ _ valid
    obtain ⟨s, listed, header⟩ := mem_sections_of_header isIn
    exact Document.mem_tables.mpr ⟨_, List.mem_map.mpr ⟨s, listed, rfl⟩, header⟩
  have spelled : ∀ l ∈ lines text, Reads l (.header (.table "Peer".toList)) → "[Peer]".toList <+: trim l := by
    intro l isIn header
    exact absurd (mem_of_reads reads isIn header) noPeer
  have again : items toml.value (toml.maybeTransform text)
      = some (raw.map (Item.map asElement (rewrittenValue toml))) := by
    apply items_eq (maybeTransform_lines lawful needed reads spelled)
    intro i isIn
    cases i with
    | space => rfl
    | header h => rfl
    | pair key value =>
      obtain ⟨v, value⟩ := readable key value isIn
      simp [rewrite, Item.map, Item.read, value_rewritten lawful documented value]
  rw [documented.document _ _ again, document_map] at accepted
  have before := documented.key _ _ valid
  have after := documented.key _ _ accepted
  rcases before.given with given | given
  · have keysBefore := before.keys
    have keysAfter := after.keys
    have same : ∀ h : Header, id h = .table "Interface".toList ↔ h = .table "Interface".toList := fun _ => Iff.rfl
    rw [privateKeys_map _ _ same] at given keysBefore
    rw [privateKeys_map _ _ asElement_interface] at keysAfter
    obtain ⟨key, isIn⟩ := List.exists_mem_of_ne_nil (privateKeys (document raw)) fun none =>
      given (by rw [none]; rfl)
    obtain ⟨s, string, _⟩ := keysBefore _ (List.mem_map_of_mem isIn)
    have base64 := keysAfter _ (List.mem_map_of_mem isIn)
    have value : toml.value key = some (.string s) := by
      cases value : toml.value key with
      | none => simp [value] at string
      | some v => simpa [value] using string
    rcases documented.quoted key s value with quote | quote
    · obtain ⟨rest, begins⟩ := trim_first quote (by decide)
      exact (rewrittenValue_quoted begins (by decide) (by decide)).2 base64
    · obtain ⟨rest, begins⟩ := trim_first quote (by decide)
      exact (rewrittenValue_quoted begins (by decide) (by decide)).2 base64
  · have inlineBefore := before.inline
    have inlineAfter := after.inline
    rw [inlineInterfaces_map] at given inlineBefore inlineAfter
    obtain ⟨inline, isIn⟩ := List.exists_mem_of_ne_nil (inlineInterfaces (document raw)) fun none =>
      given (by rw [none]; rfl)
    obtain ⟨t, table⟩ := inlineBefore _ (List.mem_map_of_mem isIn)
    obtain ⟨t', tableAfter⟩ := inlineAfter _ (List.mem_map_of_mem isIn)
    have value : toml.value inline = some (.table t) := by
      cases value : toml.value inline with
      | none => simp [value] at table
      | some v => simpa [value] using table
    obtain ⟨rest, begins⟩ := trim_first (documented.braced inline t value) (by decide)
    exact (rewrittenValue_quoted begins (by decide) (by decide)).1 t' tableAfter

/-- A valid configuration is kept where a line shows that it is TOML before a line `[Peer]`. For documents
of one level this is exactly when. -/
theorem toml_kept_where_recognised {κ : Type} (toml : TomlCrate) (lawful : toml.Lawful) (reader : ConfigReader κ)
    (documented : reader.Lawful toml) (text : Text) (config : κ) (valid : reader.fromStr text = some config) :
    (LooksLikeToml (lines text) → reader.fromStr (toml.maybeTransform text) = some config) ∧
    ((items toml.value text).isSome →
      (reader.fromStr (toml.maybeTransform text) = some config ↔ LooksLikeToml (lines text))) := by
  have kept (looks : LooksLikeToml (lines text)) : reader.fromStr (toml.maybeTransform text) = some config := by
    have unneeded : needTransform text = false := (needTransformLines_eq_false _).mpr looks
    rw [maybeTransform, if_neg (by simp [unneeded])]
    exact valid
  refine ⟨kept, fun readable => ⟨?_, kept⟩⟩
  intro same
  obtain ⟨content, read⟩ := Option.isSome_iff_exists.mp readable
  apply (needTransformLines_eq_false _).mp
  apply Bool.eq_false_of_not_eq_true
  intro needed
  exact rewritten_rejected lawful documented valid read needed same

structure KeyConfig where
  privateKey : Text
  publicKeys : List Text
  deriving DecidableEq

def peerKey (peer : Section TomlValue) : Option Text :=
  match peer.pairs.lookup "PublicKey".toList with
  | some (.string key) => some key
  | _ => none

local instance lawfulText : LawfulBEq (List Char) := inferInstance

def keyDeserialize (doc : Document TomlValue) : Option KeyConfig :=
  if doc.Valid ∧ "Peer".toList ∉ doc.tables ∧ inlineInterfaces doc = [] then
    match privateKeys doc with
    | [.string key] =>
      let peers := doc.sections.filter fun s => s.header = .element "Peer".toList
      if key.all isBase64 then (peers.mapM peerKey).map (KeyConfig.mk key) else none
    | _ => none
  else none

def keyReader : ConfigReader KeyConfig where
  fromStr text := (items basic.value text).bind fun content => keyDeserialize (document content)
  deserialize := keyDeserialize

theorem keyDeserialize_some (found : keyDeserialize doc = some config) :
    "Peer".toList ∉ doc.tables ∧ inlineInterfaces doc = [] ∧ ∃ key, privateKeys doc = [.string key] ∧ key.all isBase64 := by
  unfold keyDeserialize at found
  split_ifs at found with shape
  split at found
  · rename_i key keys
    split_ifs at found with base64
    exact ⟨shape.2.1, shape.2.2, key, keys, base64⟩
  · cases found

theorem basicValue_string (found : basicValue text = some (.string s)) :
    (text.dropWhile isBlank).head? = some '"' ∨ (text.dropWhile isBlank).head? = some '\'' := by
  unfold basicValue at found
  split at found
  · rename_i first
    exact .inl (by rw [first]; rfl)
  · rename_i first
    exact .inr (by rw [first]; rfl)
  · obtain ⟨⟨l, rest⟩, _, value⟩ := Option.bind_eq_some_iff.mp found
    dsimp only at value
    split_ifs at value
    cases value
  · dsimp only at found
    split_ifs at found
    cases found

theorem basicValue_not_table : basicValue text ≠ some (.table t) := by
  intro found
  unfold basicValue at found
  split at found
  · obtain ⟨⟨l, rest⟩, _, value⟩ := Option.bind_eq_some_iff.mp found
    dsimp only at value
    split_ifs at value
    cases value
  · split at found
    · split_ifs at found
      cases found
    · cases found
  · obtain ⟨⟨l, rest⟩, _, value⟩ := Option.bind_eq_some_iff.mp found
    dsimp only at value
    split_ifs at value
    cases value
  · dsimp only at found
    split_ifs at found
    cases found

theorem basicValue_spaced (found : basicValue text = some v) (digits : (trim text).all Char.isDigit) :
    basicValue (' ' :: trim text) = some v := by
  have digit (ch : Char) (isIn : ch ∈ text) (visible : isWhitespace ch = false) : ch.isDigit :=
    List.all_eq_true.mp digits ch (mem_strip isIn visible)
  have member (ch : Char) (s : Text) (first : text.dropWhile isBlank = ch :: s) : ch ∈ text :=
    (List.dropWhile_suffix isBlank).subset (first ▸ List.mem_cons_self)
  unfold basicValue at found
  split at found
  · rename_i first
    exact absurd (digit '"' (member _ _ first) (by decide)) (by decide)
  · rename_i first
    exact absurd (digit '\'' (member _ _ first) (by decide)) (by decide)
  · rename_i first
    exact absurd (digit '[' (member _ _ first) (by decide)) (by decide)
  · dsimp only at found
    split_ifs at found with number
    obtain rfl := Option.some.inj found
    obtain ⟨decimal, small, ends⟩ := number
    generalize Nat.ofDigitChars 10 ((text.dropWhile isBlank).takeWhile Char.isDigit) 0 = n at decimal small ⊢
    have parts : text = text.takeWhile isBlank ++ Nat.toDigits 10 n ++ (text.dropWhile isBlank).dropWhile Char.isDigit := by
      rw [← decimal, List.append_assoc, List.takeWhile_append_dropWhile, List.takeWhile_append_dropWhile]
    generalize (text.dropWhile isBlank).dropWhile Char.isDigit = rest at parts ends
    obtain ⟨gap, blank, rfl | ⟨comment, _, rfl⟩⟩ := ending_iff.mp ends
    · have trimmed : trim text = Nat.toDigits 10 n := by
        rw [parts]
        refine (strip_surrounded (all_whitespace (by simp)) (all_whitespace blank) _).trans (strip_self ?_)
        intro ch isIn
        have isDigit := Nat.isDigit_of_mem_toDigits (by omega) (by omega) isIn
        exact not_whitespace_of_bare (by simp [isBare, Char.isAlphanum, isDigit])
      rw [trimmed]
      exact basic_lawful.integer n small
    · exact absurd (digit '#' (by rw [parts]; simp) (by decide)) (by decide)

theorem keyReader_lawful : keyReader.Lawful basic := by
  constructor
  · intro text content read
    simp [keyReader, read]
  · intro doc config found
    obtain ⟨_, noInline, key, keys, base64⟩ := keyDeserialize_some found
    constructor
    · simp [keys]
    · simpa [keys] using base64
    · simp [noInline]
  · intro doc config found
    exact (keyDeserialize_some found).1
  · intro text s found
    exact basicValue_string found
  · intro text t found
    exact absurd found basicValue_not_table
  · intro text v found digits
    exact basicValue_spaced found digits

def samplePrivate : Text := "INZz5evbJBekyvtjRLHdnigrKeJ7HxOXR7lLm6yqMW4=".toList

def samplePublic : Text := "NGnPOc0pxlnOjQz5DDSBJsSM6rf2T1MjBduxmvKBLiU=".toList

def sampleToml : Text :=
  "[Interface]\nPrivateKey = \"".toList ++ samplePrivate ++ "\"\n[[Peer]]\nPublicKey = '".toList ++ samplePublic ++
    "'\n".toList

theorem toml_kept_where_recognised_sample :
    keyReader.fromStr (basic.maybeTransform sampleToml) = some ⟨samplePrivate, [samplePublic]⟩ := by
  have looks : LooksLikeToml (lines sampleToml) := (needTransformLines_eq_false _).mp (by decide +kernel)
  exact (toml_kept_where_recognised basic basic_lawful keyReader keyReader_lawful sampleToml _
    (by decide +kernel)).1 looks

def sampleLiteral : Text :=
  "[Interface]\nPrivateKey = '".toList ++ samplePrivate ++ "'\n[[Peer]]\nPublicKey = '".toList ++ samplePublic ++
    "'\n".toList

/-- With literal strings alone nothing shows that a file is TOML, and its keys get quotes of their own. -/
theorem toml_literal_strings_lost :
    keyReader.fromStr sampleLiteral = some ⟨samplePrivate, [samplePublic]⟩ ∧
      basic.maybeTransform sampleLiteral =
        "[Interface]\nPrivateKey = \"'".toList ++ samplePrivate ++ "'\"\n[[Peer]]\nPublicKey = \"'".toList ++
          samplePublic ++ "'\"\n".toList ∧
      keyReader.fromStr (basic.maybeTransform sampleLiteral) = none := by
  decide +kernel

end Titun
