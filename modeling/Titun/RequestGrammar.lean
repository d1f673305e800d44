import Titun.IpcGrammar

/-! The parser of requests accepts the grammar of requests. -/
namespace Titun

open Text Transition

/-- 64 hexadecimal digits. -/
structure HexKey (v : Line) (key : U8Array 32) : Prop where
  length : v.length = 64
  digits : ∀ b ∈ v, (hexValue b).isSome
  decoded : hexDecode v = some key.val

inductive BoolText : Line → Bool → Prop where
  | yes : BoolText (lit "true") true
  | no : BoolText (lit "false") false

/-- An address and a prefix length that is valid for its family. -/
def AllowedIpText (t : AddrText) (v : Line) (ip : AllowedIp) : Prop :=
  ∃ addr len, 47 ∉ addr ∧ v = addr ++ 47 :: len ∧ t.parseIp addr = some ip.1 ∧ Numeral len ip.2 ∧
    ValidIp ip

theorem decodeKey_eq_ok {v : Line} {invalid : String} {key : U8Array 32} :
    decodeKey v invalid = .ok key ↔ HexKey v key := by
  constructor
  · intro decoded
    unfold decodeKey at decoded
    cases bytes : hexDecode v with
    | none =>
      rw [bytes] at decoded
      cases decoded
    | some b =>
      rw [bytes] at decoded
      dsimp only at decoded
      split_ifs at decoded with length
      obtain rfl := Except.ok.inj decoded
      exact ⟨by rw [hexDecode_length bytes, length], hexDecode_digits bytes, bytes⟩
  · rintro ⟨_, _, bytes⟩
    rw [decodeKey, bytes]
    exact dif_pos key.property

theorem parseBool_eq_ok {v : Line} {b : Bool} : parseBool v = .ok b ↔ BoolText v b := by
  constructor
  · intro parsed
    unfold parseBool at parsed
    split_ifs at parsed with yes no
    · obtain rfl := Except.ok.inj parsed
      subst yes
      exact .yes
    · obtain rfl := Except.ok.inj parsed
      subst no
      exact .no
  · intro text
    cases text <;> decide

theorem parseUInt_eq_ok {v : Line} {n : BitVec w} : parseUInt w v = .ok n ↔ Numeral v n.toNat := by
  constructor
  · intro parsed
    unfold parseUInt at parsed
    cases number : parseNat (2 ^ w) v with
    | none =>
      rw [number] at parsed
      cases parsed
    | some m =>
      rw [number] at parsed
      obtain rfl := Except.ok.inj parsed
      obtain ⟨numeral, small⟩ := parseNat_eq_some.mp number
      rw [BitVec.toNat_ofNat, Nat.mod_eq_of_lt small]
      exact numeral
  · intro numeral
    rw [parseUInt, parseNat_eq_some.mpr ⟨numeral, n.isLt⟩]
    exact congrArg Except.ok (BitVec.eq_of_toNat_eq (Nat.mod_eq_of_lt n.isLt))

theorem parseAllowedIp_eq_ok (t : AddrText) {v : Line} {ip : AllowedIp} :
    parseAllowedIp t v = .ok ip ↔ AllowedIpText t v ip := by
  constructor
  · intro parsed
    unfold parseAllowedIp at parsed
    cases parts : splitOnce 47 v with
    | mk addr len =>
      rw [parts] at parsed
      cases len with
      | none => cases parsed
      | some len =>
        obtain ⟨absent, rfl⟩ := splitOnce_some.mp parts
        obtain ⟨a, found, parsed⟩ := bind_eq_ok.mp parsed
        obtain ⟨n, number, parsed⟩ := bind_eq_ok.mp parsed
        dsimp only at parsed
        split_ifs at parsed with long
        · cases parsed
        obtain rfl := Except.ok.inj parsed
        refine ⟨addr, len, absent, rfl, ?_, parseUInt_eq_ok.mp number, not_lt.mp long⟩
        unfold decodeAddress at found
        split at found
        next same =>
          obtain rfl := Except.ok.inj found
          exact same
        next => cases found
  · rintro ⟨addr, len, absent, rfl, found, numeral, short⟩
    have small : ip.2 < 2 ^ 32 := by
      have width : ip.1.width ≤ 128 := by cases ip.1 <;> simp [IpAddr.width]
      exact lt_of_le_of_lt (short.trans width) (by decide)
    have number : parseUInt 32 len = .ok (BitVec.ofNat 32 ip.2) := by
      rw [parseUInt_eq_ok, BitVec.toNat_ofNat, Nat.mod_eq_of_lt small]
      exact numeral
    have value : (BitVec.ofNat 32 ip.2).toNat = ip.2 := Nat.mod_eq_of_lt small
    have fits : ¬(BitVec.ofNat 32 ip.2).toNat > ip.1.width := by
      rw [value]
      exact not_lt.mpr short
    rw [parseAllowedIp, splitOnce_eq absent]
    dsimp only
    rw [found, number]
    exact (if_neg fits).trans (congrArg (fun n => Except.ok (ip.1, n)) value)

/-- A line of a request before the peers, and what it sets. -/
inductive SetsInterface : WgSetCommand → Line → WgSetCommand → Prop where
  | privateKey (text : HexKey v key) :
      SetsInterface c (keyValue "private_key" v) { c with privateKey := some key }
  | fwmark (n : BitVec 32) (text : Numeral v n.toNat) :
      SetsInterface c (keyValue "fwmark" v) { c with fwmark := some n }
  | listenPort (n : BitVec 16) (text : Numeral v n.toNat) :
      SetsInterface c (keyValue "listen_port" v) { c with listenPort := some n }
  | replacePeers (text : BoolText v b) :
      SetsInterface c (keyValue "replace_peers" v) { c with replacePeers := b }

/-- A line of a request in the block of a peer, and what it sets. -/
inductive SetsPeer (t : AddrText) : WgSetPeerCommand → Line → WgSetPeerCommand → Prop where
  | remove (text : BoolText v b) : SetsPeer t p (keyValue "remove" v) { p with remove := b }
  | presharedKey (text : HexKey v key) :
      SetsPeer t p (keyValue "preshared_key" v) { p with presharedKey := some key }
  | endpoint (text : t.parseSocket v = some a) :
      SetsPeer t p (keyValue "endpoint" v) { p with endpoint := some a }
  | persistentKeepaliveInterval (n : BitVec 16) (text : Numeral v n.toNat) :
      SetsPeer t p (keyValue "persistent_keepalive_interval" v) { p with persistentKeepaliveInterval := some n }
  | replaceAllowedIps (text : BoolText v b) :
      SetsPeer t p (keyValue "replace_allowed_ips" v) { p with replaceAllowedIps := b }
  | allowedIp (text : AllowedIpText t v ip) :
      SetsPeer t p (keyValue "allowed_ip" v) { p with allowedIps := insert ip p.allowedIps }

theorem decodeAddress_eq_ok {found : Option α} : decodeAddress found = .ok a ↔ found = some a := by
  cases found with
  | none => exact ⟨nofun, nofun⟩
  | some b => exact ⟨fun same => congrArg some (Except.ok.inj same), fun same => congrArg Except.ok (Option.some.inj same)⟩

theorem field_eq_ok {x : Except ParseError α} {g : α → β} :
    (do let a ← x; return some (g a)) = Except.ok (some b) ↔ ∃ a, x = .ok a ∧ g a = b := by
  constructor
  · intro set
    obtain ⟨a, parsed, set⟩ := bind_eq_ok.mp set
    exact ⟨a, parsed, Option.some.inj (Except.ok.inj set)⟩
  · rintro ⟨a, parsed, rfl⟩
    exact bind_eq_ok.mpr ⟨a, parsed, rfl⟩

theorem field_ne_none {x : Except ParseError α} {g : α → β} :
    (do let a ← x; return some (g a)) ≠ Except.ok none := by
  cases x <;> exact nofun

/-- The lines with a key, unless they look like the start of a block. -/
theorem pair_keyValue {k : String} (name : 61 ∉ lit k) (other : startsWith (keyValue k v) "public_key" = false) :
    Format.Pair (keyValue k v) (lit k) v :=
  ⟨List.append_ne_nil_of_right_ne_nil _ (List.cons_ne_nil _ _), other, splitOnce_eq name⟩

theorem keyValue_of_pair {line k v : Line} (pair : Format.Pair line k v) : line = k ++ 61 :: v :=
  (splitOnce_some.mp pair.2.2).2

theorem setsInterface_iff (t : AddrText) {c next : WgSetCommand} {line : Line} :
    (setFormat t).InterfaceLine c line next ↔ SetsInterface c line next := by
  constructor
  · rintro ⟨k, v, pair, applied⟩
    obtain rfl := keyValue_of_pair pair
    change WgSetCommand.apply k v c = _ at applied
    unfold WgSetCommand.apply at applied
    split_ifs at applied with h1 h2 h3 h4
    · obtain ⟨key, decoded, rfl⟩ := field_eq_ok.mp applied
      subst h1
      exact .privateKey (decodeKey_eq_ok.mp decoded)
    · obtain ⟨n, parsed, rfl⟩ := field_eq_ok.mp applied
      subst h2
      exact .fwmark n (parseUInt_eq_ok.mp parsed)
    · obtain ⟨n, parsed, rfl⟩ := field_eq_ok.mp applied
      subst h3
      exact .listenPort n (parseUInt_eq_ok.mp parsed)
    · obtain ⟨b, parsed, rfl⟩ := field_eq_ok.mp applied
      subst h4
      exact .replacePeers (parseBool_eq_ok.mp parsed)
  · intro sets
    cases sets with
    | privateKey text =>
      refine ⟨_, _, pair_keyValue (by decide) rfl, ?_⟩
      exact field_eq_ok.mpr ⟨_, decodeKey_eq_ok.mpr text, rfl⟩
    | fwmark n text =>
      refine ⟨_, _, pair_keyValue (by decide) rfl, ?_⟩
      exact field_eq_ok.mpr ⟨_, parseUInt_eq_ok.mpr text, rfl⟩
    | listenPort n text =>
      refine ⟨_, _, pair_keyValue (by decide) rfl, ?_⟩
      exact field_eq_ok.mpr ⟨_, parseUInt_eq_ok.mpr text, rfl⟩
    | replacePeers text =>
      refine ⟨_, _, pair_keyValue (by decide) rfl, ?_⟩
      exact field_eq_ok.mpr ⟨_, parseBool_eq_ok.mpr text, rfl⟩

theorem setsPeer_iff (t : AddrText) {p next : WgSetPeerCommand} {line : Line} :
    (setFormat t).PeerLine p line next ↔ SetsPeer t p line next := by
  constructor
  · rintro ⟨k, v, pair, applied⟩
    obtain rfl := keyValue_of_pair pair
    replace applied : WgSetPeerCommand.apply t k v p = _ := Except.ok.inj applied
    unfold WgSetPeerCommand.apply at applied
    split_ifs at applied with h1 h2 h3 h4 h5 h6
    · obtain ⟨b, parsed, rfl⟩ := field_eq_ok.mp applied
      subst h1
      exact .remove (parseBool_eq_ok.mp parsed)
    · obtain ⟨key, decoded, rfl⟩ := field_eq_ok.mp applied
      subst h2
      exact .presharedKey (decodeKey_eq_ok.mp decoded)
    · obtain ⟨a, found, rfl⟩ := field_eq_ok.mp applied
      subst h3
      exact .endpoint (decodeAddress_eq_ok.mp found)
    · obtain ⟨n, parsed, rfl⟩ := field_eq_ok.mp applied
      subst h4
      exact .persistentKeepaliveInterval n (parseUInt_eq_ok.mp parsed)
    · obtain ⟨b, parsed, rfl⟩ := field_eq_ok.mp applied
      subst h5
      exact .replaceAllowedIps (parseBool_eq_ok.mp parsed)
    · obtain ⟨ip, parsed, rfl⟩ := field_eq_ok.mp applied
      subst h6
      exact .allowedIp ((parseAllowedIp_eq_ok t).mp parsed)
    · cases applied
  · intro sets
    cases sets with
    | remove text =>
      refine ⟨_, _, pair_keyValue (by decide) rfl, congrArg Except.ok ?_⟩
      exact field_eq_ok.mpr ⟨_, parseBool_eq_ok.mpr text, rfl⟩
    | presharedKey text =>
      refine ⟨_, _, pair_keyValue (by decide) rfl, congrArg Except.ok ?_⟩
      exact field_eq_ok.mpr ⟨_, decodeKey_eq_ok.mpr text, rfl⟩
    | endpoint text =>
      refine ⟨_, _, pair_keyValue (by decide) rfl, congrArg Except.ok ?_⟩
      exact field_eq_ok.mpr ⟨_, decodeAddress_eq_ok.mpr text, rfl⟩
    | persistentKeepaliveInterval n text =>
      refine ⟨_, _, pair_keyValue (by decide) rfl, congrArg Except.ok ?_⟩
      exact field_eq_ok.mpr ⟨_, parseUInt_eq_ok.mpr text, rfl⟩
    | replaceAllowedIps text =>
      refine ⟨_, _, pair_keyValue (by decide) rfl, congrArg Except.ok ?_⟩
      exact field_eq_ok.mpr ⟨_, parseBool_eq_ok.mpr text, rfl⟩
    | allowedIp text =>
      refine ⟨_, _, pair_keyValue (by decide) rfl, congrArg Except.ok ?_⟩
      exact field_eq_ok.mpr ⟨_, (parseAllowedIp_eq_ok t).mpr text, rfl⟩

theorem setFormat_lawful (t : AddrText) : (setFormat t).Lawful where
  peers := by
    intro k v p q ends
    replace ends : WgSetPeerCommand.apply t k v p = .ok none := Except.ok.inj ends
    apply congrArg Except.ok
    unfold WgSetPeerCommand.apply at ends ⊢
    split_ifs at ends ⊢
    all_goals first | exact absurd ends field_ne_none | rfl
  interface := by
    intro k v c d ends
    change WgSetCommand.apply k v c = .ok none at ends
    unfold WgSetCommand.apply at ends
    split_ifs at ends
    all_goals exact absurd ends field_ne_none
  goesOn _ := rfl

def PeerBlock (t : AddrText) (block : List Line) (peer : WgSetPeerCommand) : Prop :=
  ∃ v key body, block = keyValue "public_key" v :: body ∧ HexKey v key ∧ Run (SetsPeer t) (.new key) body peer

/-- A request to set something: lines for the interface, a block for each peer, and an empty line. -/
def SetRequest (t : AddrText) (l : List Line) (command : WgSetCommand) : Prop :=
  ∃ interface blocks rest settings peers, l = lit "set=1" :: (interface ++ blocks.flatten ++ [] :: rest) ∧
    Run SetsInterface .new interface settings ∧ List.Forall₂ (PeerBlock t) blocks peers ∧
    command = { settings with peers }

theorem block_iff (t : AddrText) {command next : WgSetCommand} {block : List Line} :
    (setFormat t).Block command block next ↔
      ∃ peer, PeerBlock t block peer ∧ next = { command with peers := command.peers ++ [peer] } := by
  constructor
  · rintro ⟨line, key, body, peer, rfl, parsed, run, rfl⟩
    obtain ⟨v, rfl, decoded⟩ := Format.parsePublicKey_eq_ok.mp parsed
    exact ⟨peer, ⟨v, key, body, rfl, decodeKey_eq_ok.mp decoded, run.mono fun _ _ _ => (setsPeer_iff t).mp⟩, rfl⟩
  · rintro ⟨peer, ⟨v, key, body, rfl, text, run⟩, rfl⟩
    exact ⟨_, key, body, peer, rfl, Format.parsePublicKey_eq_ok.mpr ⟨v, rfl, decodeKey_eq_ok.mpr text⟩,
      run.mono fun _ _ _ => (setsPeer_iff t).mpr, rfl⟩

theorem blocks_iff (t : AddrText) {command next : WgSetCommand} {blocks : List (List Line)} :
    Run (setFormat t).Block command blocks next ↔
      ∃ peers, List.Forall₂ (PeerBlock t) blocks peers ∧
        next = { command with peers := command.peers ++ peers } := by
  constructor
  · intro run
    induction run with
    | nil => exact ⟨[], .nil, by simp⟩
    | cons first _ ih =>
      obtain ⟨peer, block, rfl⟩ := (block_iff t).mp first
      obtain ⟨peers, blocks, rfl⟩ := ih
      exact ⟨peer :: peers, .cons block blocks, by simp⟩
  · rintro ⟨peers, blocks, rfl⟩
    induction blocks generalizing command with
    | nil => simpa using Run.nil
    | @cons block peer blocks peers first _ ih =>
      have rest := @ih { command with peers := command.peers ++ [peer] }
      rw [List.append_assoc] at rest
      exact .cons ((block_iff t).mpr ⟨peer, first, rfl⟩) rest

theorem ends_iff (t : AddrText) {bs : List (List Line)} {line : Line} :
    (setFormat t).Ends bs line ↔ line = [] := by
  constructor
  · rintro ⟨none, some⟩
    by_cases empty : bs = []
    · rcases none empty with rfl | ⟨k, v, _, ends⟩
      · rfl
      · have ends := ends .new
        change WgSetCommand.apply k v .new = .ok .none at ends
        unfold WgSetCommand.apply at ends
        split_ifs at ends
        all_goals exact absurd ends field_ne_none
    · exact List.isEmpty_iff.mp (some empty).2
  · rintro rfl
    exact ⟨fun _ => .inl rfl, fun _ => ⟨(setFormat t).foreign_nil, rfl⟩⟩

theorem SetsInterface.peers (sets : SetsInterface c line next) : next.peers = c.peers := by
  cases sets <;> rfl

/-- A stream begins with lines of a kind. -/
def Begins (p : List Line → Prop) (items : List Item) : Prop :=
  ∃ l rest, items = Format.lines l ++ rest ∧ p l

def GetRequest (l : List Line) : Prop := ∃ rest, l = lit "get=1" :: [] :: rest

theorem setRequest_iff (t : AddrText) {items : List Item} {command : WgSetCommand} :
    Begins (SetRequest t · command) (.ok (lit "set=1") :: items) ↔
      ∃ left, (setFormat t).readSections items .new = .ok (.ok (command, left)) := by
  have noPeers : ∀ {interface settings}, Run SetsInterface .new interface settings → settings.peers = [] := by
    intro interface settings run
    exact run.invariant (fun c => c.peers = []) (fun _ _ _ none sets => sets.peers.trans none) rfl
  rw [(setFormat t).readSections_iff (setFormat_lawful t)]
  constructor
  · rintro ⟨l, rest, same, interface, blocks, after, settings, peers, rfl, run, each, rfl⟩
    refine ⟨interface, blocks, [], Format.lines after ++ rest, settings, ?_,
      run.mono fun _ _ _ => (setsInterface_iff t).mpr, (blocks_iff t).mpr ⟨peers, each, ?_⟩, (ends_iff t).mpr rfl⟩
    · have tail := (List.cons.inj same).2
      rw [tail]
      simp [Format.lines]
    · rw [noPeers run, List.nil_append]
  · rintro ⟨interface, blocks, line, rest, settings, rfl, run, added, ends⟩
    obtain rfl := (ends_iff t).mp ends
    obtain ⟨peers, each, rfl⟩ := (blocks_iff t).mp added
    have run' : Run SetsInterface .new interface settings := run.mono fun _ _ _ => (setsInterface_iff t).mp
    refine ⟨lit "set=1" :: (interface ++ blocks.flatten ++ [[]]), rest, by simp [Format.lines],
      interface, blocks, [], settings, peers, rfl, run', each, ?_⟩
    rw [noPeers run', List.nil_append]

theorem parseCommand_set (t : AddrText) (items : List Item) :
    parseCommand t (.ok (lit "set=1") :: items) = (do
      let result ← (setFormat t).readSections items .new
      return result.map fun r => some (.set r.1)) :=
  (setFormat t).parseSections_map ⟨items, none⟩ .new fun command => some (WgIpcCommand.set command)

theorem parseCommand_other (t : AddrText) {line : Line} (rest : List Item) (notGet : line ≠ lit "get=1")
    (notSet : line ≠ lit "set=1") : ∃ e, parseCommand t (.ok line :: rest) = .ok (.error e) := by
  refine ⟨.bail (lit "Unexpected command " ++ line), ?_⟩
  change (if line = lit "get=1" then _ else if line = lit "set=1" then _ else _) = _
  rw [if_neg notGet, if_neg notSet]
  rfl

theorem Begins.get_head (get : Begins GetRequest (item :: items)) : item = .ok (lit "get=1") := by
  obtain ⟨_, _, same, _, rfl⟩ := get
  exact (List.cons.inj same).1

theorem Begins.set_head {t : AddrText} (set : Begins (SetRequest t · command) (item :: items)) :
    item = .ok (lit "set=1") := by
  obtain ⟨_, _, same, _, _, _, _, _, rfl, _⟩ := set
  exact (List.cons.inj same).1

theorem not_begins_nil {p : List Line → Prop} (some : ¬p []) : ¬Begins p [] := by
  rintro ⟨l, rest, same, isIn⟩
  obtain ⟨none, _⟩ := List.append_eq_nil_iff.mp same.symm
  rw [List.map_eq_nil_iff.mp none] at isIn
  exact some isIn

theorem not_getRequest_nil : ¬GetRequest [] := by
  rintro ⟨_, same⟩
  cases same

theorem not_setRequest_nil (t : AddrText) : ¬SetRequest t [] command := by
  rintro ⟨_, _, _, _, _, same, _⟩
  cases same

/-- What is returned for a stream, by what it begins with. -/
structure Accepts (t : AddrText) (items : List Item) (result : Except ParseError (Option WgIpcCommand)) : Prop where
  none : result = .ok none ↔ items = []
  get : result = .ok (some .get) ↔ Begins GetRequest items
  set : ∀ command, result = .ok (some (.set command)) ↔ Begins (SetRequest t · command) items

theorem accepts_nil (t : AddrText) : Accepts t [] (.ok none) where
  none := ⟨fun _ => rfl, fun _ => rfl⟩
  get := ⟨nofun, fun get => absurd get (not_begins_nil not_getRequest_nil)⟩
  set _ := ⟨nofun, fun set => absurd set (not_begins_nil (not_setRequest_nil t))⟩

theorem accepts_error (t : AddrText) (e : ParseError) {items : List Item} (notNone : items ≠ [])
    (notGet : ¬Begins GetRequest items) (notSet : ∀ command, ¬Begins (SetRequest t · command) items) :
    Accepts t items (.error e) where
  none := ⟨nofun, fun none => absurd none notNone⟩
  get := ⟨nofun, fun get => absurd get notGet⟩
  set command := ⟨nofun, fun set => absurd set (notSet command)⟩

theorem parseCommand_accepts_get (t : AddrText) (items : List Item) :
    ∃ result, parseCommand t (.ok (lit "get=1") :: items) = .ok result ∧
      Accepts t (.ok (lit "get=1") :: items) result := by
  have notSet : ∀ command, ¬Begins (SetRequest t · command) (.ok (lit "get=1") :: items) := by
    intro command set
    exact absurd (Except.ok.inj set.set_head) (by decide)
  have second : Begins GetRequest (.ok (lit "get=1") :: items) → items.head? = some (.ok []) := by
    rintro ⟨_, _, same, _, rfl⟩
    rw [(List.cons.inj same).2]
    rfl
  cases items with
  | nil => exact ⟨_, rfl, accepts_error t _ (List.cons_ne_nil _ _) (fun get => nomatch second get) notSet⟩
  | cons item rest =>
    cases item with
    | error e => exact ⟨_, rfl, accepts_error t _ (List.cons_ne_nil _ _) (fun get => nomatch second get) notSet⟩
    | ok line =>
      by_cases empty : line = []
      · subst empty
        have get : Begins GetRequest (.ok (lit "get=1") :: .ok [] :: rest) :=
          ⟨[lit "get=1", []], rest, rfl, [], rfl⟩
        exact ⟨_, rfl, ⟨nofun, nofun⟩, ⟨fun _ => get, fun _ => rfl⟩,
          fun command => ⟨nofun, fun set => absurd set (notSet command)⟩⟩
      · refine ⟨_, if_pos empty, accepts_error t _ (List.cons_ne_nil _ _) (fun get => ?_) notSet⟩
        exact empty (Except.ok.inj (Option.some.inj (second get)))

theorem parseCommand_accepts_set (t : AddrText) (items : List Item) :
    ∃ result, parseCommand t (.ok (lit "set=1") :: items) = .ok result ∧
      Accepts t (.ok (lit "set=1") :: items) result := by
  have notGet : ¬Begins GetRequest (.ok (lit "set=1") :: items) := by
    intro get
    exact absurd (Except.ok.inj get.get_head) (by decide)
  obtain ⟨result, read⟩ := (setFormat t).readSections_total (fun _ _ _ => ⟨_, rfl⟩) items .new
  have parsed := parseCommand_set t items
  rw [read] at parsed
  refine ⟨_, parsed, ?_⟩
  cases result with
  | error e =>
    refine accepts_error t e (List.cons_ne_nil _ _) notGet fun command set => ?_
    obtain ⟨_, other⟩ := (setRequest_iff t).mp set
    rw [read] at other
    cases other
  | ok r =>
    refine ⟨⟨nofun, nofun⟩, ⟨nofun, fun get => absurd get notGet⟩, fun command => ?_⟩
    rw [setRequest_iff, read]
    constructor
    · intro isSet
      cases isSet
      exact ⟨r.2, rfl⟩
    · rintro ⟨left, same⟩
      cases same
      rfl

/-- The parser of requests never panics, whatever the stream is. -/
theorem parseCommand_accepts (t : AddrText) (items : List Item) :
    ∃ result, parseCommand t items = .ok result ∧ Accepts t items result := by
  cases items with
  | nil => exact ⟨_, rfl, accepts_nil t⟩
  | cons item items =>
    cases item with
    | error e =>
      refine ⟨.error (.io e), rfl, accepts_error t _ (List.cons_ne_nil _ _) ?_ ?_⟩
      · intro get
        cases get.get_head
      · intro command set
        cases set.set_head
    | ok line =>
      by_cases get : line = lit "get=1"
      · subst get
        exact parseCommand_accepts_get t items
      · by_cases set : line = lit "set=1"
        · subst set
          exact parseCommand_accepts_set t items
        · obtain ⟨e, parsed⟩ := parseCommand_other t items get set
          refine ⟨_, parsed, accepts_error t e (List.cons_ne_nil _ _) ?_ ?_⟩
          · intro isGet
            exact get (Except.ok.inj isGet.get_head)
          · intro command isSet
            exact set (Except.ok.inj isSet.set_head)

theorem begins_lines {p : List Line → Prop} (extends_ : ∀ l rest, p l → p (l ++ rest)) {l : List Line} :
    Begins p (l.map .ok) ↔ p l := by
  constructor
  · rintro ⟨front, rest, same, isFront⟩
    obtain ⟨front', back, rfl, isSame, _⟩ := List.map_eq_append_iff.mp same
    obtain rfl := List.map_injective_iff.mpr (fun _ _ => Except.ok.inj) isSame
    exact extends_ front' back isFront
  · intro isIn
    exact ⟨l, [], (List.append_nil _).symm, isIn⟩

theorem GetRequest.append (l rest : List Line) (get : GetRequest l) : GetRequest (l ++ rest) := by
  obtain ⟨after, rfl⟩ := get
  exact ⟨after ++ rest, rfl⟩

theorem SetRequest.append (t : AddrText) (l rest : List Line) (set : SetRequest t l command) :
    SetRequest t (l ++ rest) command := by
  obtain ⟨interface, blocks, after, settings, peers, rfl, parts⟩ := set
  exact ⟨interface, blocks, after ++ rest, settings, peers, by simp, parts⟩

/-- The parser of requests never panics and accepts exactly its grammar. -/
theorem parse_command_grammar (t : AddrText) (l : List Line) :
    ∃ result, parseCommand t (l.map .ok) = .ok result ∧
      (result = .ok none ↔ l = []) ∧
      (result = .ok (some .get) ↔ ∃ rest, l = lit "get=1" :: [] :: rest) ∧
      (∀ command, result = .ok (some (.set command)) ↔ SetRequest t l command) ∧
      ((∃ e, result = .error e) ↔
        l ≠ [] ∧ (¬∃ rest, l = lit "get=1" :: [] :: rest) ∧ ∀ command, ¬SetRequest t l command) := by
  obtain ⟨result, parsed, accepts⟩ := parseCommand_accepts t (l.map .ok)
  have isNone : result = .ok none ↔ l = [] := accepts.none.trans List.map_eq_nil_iff
  have isGet : result = .ok (some .get) ↔ GetRequest l := accepts.get.trans (begins_lines GetRequest.append)
  have isSet : ∀ command, result = .ok (some (.set command)) ↔ SetRequest t l command := fun command =>
    (accepts.set command).trans (begins_lines (SetRequest.append t))
  refine ⟨result, parsed, isNone, isGet, isSet, ?_⟩
  constructor
  · rintro ⟨e, rfl⟩
    refine ⟨?_, ?_, ?_⟩
    · intro none
      cases isNone.mpr none
    · intro get
      cases isGet.mpr get
    · intro command set
      cases (isSet command).mpr set
  · rintro ⟨notNone, notGet, notSet⟩
    rcases result with e | _ | _ | command
    · exact ⟨e, rfl⟩
    · exact absurd (isNone.mp rfl) notNone
    · exact absurd (isGet.mp rfl) notGet
    · exact absurd ((isSet command).mp rfl) (notSet command)

end Titun
