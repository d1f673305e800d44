import Titun.RequestGrammar

/-! The lines of a response with the state, and what they say. -/
namespace Titun

open Text Transition

/-- A line of a response before the peers, and what it shows. -/
inductive ShowsInterface : WgStateOut → Line → WgStateOut → Prop where
  | privateKey (text : HexKey v key) :
      ShowsInterface s (keyValue "private_key" v) { s with privateKey := key }
  | fwmark (n : BitVec 32) (text : Numeral v n.toNat) :
      ShowsInterface s (keyValue "fwmark" v) { s with fwmark := n }
  | listenPort (n : BitVec 16) (text : Numeral v n.toNat) :
      ShowsInterface s (keyValue "listen_port" v) { s with listenPort := n }

/-- A time that `SystemTime` can hold. -/
def Representable (time : SystemTime) : Prop := time < 2 ^ 63 * NANOS_PER_SEC

/-- A line of a response in the block of a peer, and what it shows. -/
inductive ShowsPeer (t : AddrText) : PeerStateOut → Line → PeerStateOut → Prop where
  | lastHandshakeTimeSec (n : BitVec 64) (text : Numeral v n.toNat) (fits : Representable (secs n.toNat)) :
      ShowsPeer t p (keyValue "last_handshake_time_sec" v) { p with lastHandshakeTime := some (secs n.toNat) }
  | lastHandshakeTimeNsec (n : BitVec 64) (text : Numeral v n.toNat) (known : p.lastHandshakeTime = some time)
      (fits : Representable (time + n.toNat)) :
      ShowsPeer t p (keyValue "last_handshake_time_nsec" v) { p with lastHandshakeTime := some (time + n.toNat) }
  | rxBytes (n : BitVec 64) (text : Numeral v n.toNat) :
      ShowsPeer t p (keyValue "rx_bytes" v) { p with rxBytes := n }
  | txBytes (n : BitVec 64) (text : Numeral v n.toNat) :
      ShowsPeer t p (keyValue "tx_bytes" v) { p with txBytes := n }
  | presharedKey (text : HexKey v key) :
      ShowsPeer t p (keyValue "preshared_key" v) { p with presharedKey := some key }
  | endpoint (text : t.parseSocket v = some a) :
      ShowsPeer t p (keyValue "endpoint" v) { p with endpoint := some a }
  | persistentKeepaliveInterval (n : BitVec 16) (text : Numeral v n.toNat) :
      ShowsPeer t p (keyValue "persistent_keepalive_interval" v) { p with persistentKeepaliveInterval := n }
  | allowedIp (text : AllowedIpText t v ip) :
      ShowsPeer t p (keyValue "allowed_ip" v) { p with allowedIps := insert ip p.allowedIps }

def peerKeys : List String :=
  ["last_handshake_time_sec", "last_handshake_time_nsec", "rx_bytes", "tx_bytes", "preshared_key", "endpoint",
    "persistent_keepalive_interval", "allowed_ip"]

theorem addDuration_eq_ok {time later : SystemTime} :
    addDuration time n = .ok later ↔ Representable (time + n) ∧ later = time + n := by
  unfold addDuration Representable
  split_ifs with fits
  · exact ⟨fun same => ⟨fits, (Except.ok.inj same).symm⟩, fun same => congrArg Except.ok same.2.symm⟩
  · exact ⟨nofun, fun same => absurd same.1 fits⟩

theorem showsInterface_iff (t : AddrText) {s next : WgStateOut} {line : Line} :
    (stateFormat t).InterfaceLine s line next ↔ ShowsInterface s line next := by
  constructor
  · rintro ⟨k, v, pair, applied⟩
    obtain rfl := keyValue_of_pair pair
    change WgStateOut.apply k v s = _ at applied
    unfold WgStateOut.apply at applied
    split_ifs at applied with h1 h2 h3
    · obtain ⟨key, decoded, rfl⟩ := field_eq_ok.mp applied
      subst h1
      exact .privateKey (decodeKey_eq_ok.mp decoded)
    · obtain ⟨n, parsed, rfl⟩ := field_eq_ok.mp applied
      subst h2
      exact .fwmark n (parseUInt_eq_ok.mp parsed)
    · obtain ⟨n, parsed, rfl⟩ := field_eq_ok.mp applied
      subst h3
      exact .listenPort n (parseUInt_eq_ok.mp parsed)
    · cases applied
    · cases applied
  · intro shows
    cases shows with
    | privateKey text =>
      refine ⟨_, _, pair_keyValue (by decide) rfl, ?_⟩
      exact field_eq_ok.mpr ⟨_, decodeKey_eq_ok.mpr text, rfl⟩
    | fwmark n text =>
      refine ⟨_, _, pair_keyValue (by decide) rfl, ?_⟩
      exact field_eq_ok.mpr ⟨_, parseUInt_eq_ok.mpr text, rfl⟩
    | listenPort n text =>
      refine ⟨_, _, pair_keyValue (by decide) rfl, ?_⟩
      exact field_eq_ok.mpr ⟨_, parseUInt_eq_ok.mpr text, rfl⟩

theorem apply_sec (t : AddrText) (p : PeerStateOut) {n : BitVec 64} (parsed : parseUInt 64 v = .ok n) :
    PeerStateOut.apply t (lit "last_handshake_time_sec") v p = (do
      let time ← addDuration 0 (secs n.toNat)
      return .ok (some { p with lastHandshakeTime := some time })) := by
  unfold PeerStateOut.apply
  rw [if_pos rfl, parsed]

theorem apply_nsec (t : AddrText) {p : PeerStateOut} {n : BitVec 64} (parsed : parseUInt 64 v = .ok n)
    (known : p.lastHandshakeTime = some before) :
    PeerStateOut.apply t (lit "last_handshake_time_nsec") v p = (do
      let time ← addDuration before n.toNat
      return .ok (some { p with lastHandshakeTime := some time })) := by
  unfold PeerStateOut.apply
  rw [if_neg (by decide), if_pos rfl, parsed, known]

theorem showsPeer_iff (t : AddrText) {p next : PeerStateOut} {line : Line} :
    (stateFormat t).PeerLine p line next ↔ ShowsPeer t p line next := by
  constructor
  · rintro ⟨k, v, pair, applied⟩
    obtain rfl := keyValue_of_pair pair
    change PeerStateOut.apply t k v p = _ at applied
    unfold PeerStateOut.apply at applied
    split_ifs at applied with h1 h2 h3 h4 h5 h6 h7 h8
    · subst h1
      cases parsed : parseUInt 64 v with
      | error e =>
        rw [parsed] at applied
        cases applied
      | ok n =>
        rw [parsed] at applied
        obtain ⟨time, added, applied⟩ := bind_eq_ok.mp applied
        obtain rfl := Option.some.inj (Except.ok.inj (Except.ok.inj applied))
        obtain ⟨fits, rfl⟩ := addDuration_eq_ok.mp added
        rw [zero_add] at fits ⊢
        exact .lastHandshakeTimeSec n (parseUInt_eq_ok.mp parsed) fits
    · subst h2
      cases parsed : parseUInt 64 v with
      | error e =>
        rw [parsed] at applied
        cases applied
      | ok n =>
        rw [parsed] at applied
        cases known : p.lastHandshakeTime with
        | none =>
          rw [known] at applied
          cases applied
        | some before =>
          rw [known] at applied
          obtain ⟨time, added, applied⟩ := bind_eq_ok.mp applied
          obtain rfl := Option.some.inj (Except.ok.inj (Except.ok.inj applied))
          obtain ⟨fits, rfl⟩ := addDuration_eq_ok.mp added
          exact .lastHandshakeTimeNsec n (parseUInt_eq_ok.mp parsed) known fits
    · obtain ⟨n, parsed, rfl⟩ := field_eq_ok.mp (Except.ok.inj applied)
      subst h3
      exact .rxBytes n (parseUInt_eq_ok.mp parsed)
    · obtain ⟨n, parsed, rfl⟩ := field_eq_ok.mp (Except.ok.inj applied)
      subst h4
      exact .txBytes n (parseUInt_eq_ok.mp parsed)
    · obtain ⟨key, decoded, rfl⟩ := field_eq_ok.mp (Except.ok.inj applied)
      subst h5
      exact .presharedKey (decodeKey_eq_ok.mp decoded)
    · obtain ⟨a, found, rfl⟩ := field_eq_ok.mp (Except.ok.inj applied)
      subst h6
      exact .endpoint (decodeAddress_eq_ok.mp found)
    · obtain ⟨n, parsed, rfl⟩ := field_eq_ok.mp (Except.ok.inj applied)
      subst h7
      exact .persistentKeepaliveInterval n (parseUInt_eq_ok.mp parsed)
    · obtain ⟨ip, parsed, rfl⟩ := field_eq_ok.mp (Except.ok.inj applied)
      subst h8
      exact .allowedIp ((parseAllowedIp_eq_ok t).mp parsed)
    · exact absurd (Except.ok.inj (Except.ok.inj applied)) nofun
  · intro shows
    cases shows with
    | lastHandshakeTimeSec n text fits =>
      refine ⟨_, _, pair_keyValue (by decide) rfl, ?_⟩
      have added : addDuration 0 (secs n.toNat) = .ok (secs n.toNat : SystemTime) :=
        addDuration_eq_ok.mpr ⟨by rwa [zero_add], (zero_add _).symm⟩
      apply (apply_sec t p (parseUInt_eq_ok.mpr text)).trans
      exact bind_eq_ok.mpr ⟨_, added, rfl⟩
    | lastHandshakeTimeNsec n text known fits =>
      refine ⟨_, _, pair_keyValue (by decide) rfl, ?_⟩
      apply (apply_nsec t (parseUInt_eq_ok.mpr text) known).trans
      exact bind_eq_ok.mpr ⟨_, addDuration_eq_ok.mpr ⟨fits, rfl⟩, rfl⟩
    | rxBytes n text =>
      refine ⟨_, _, pair_keyValue (by decide) rfl, congrArg Except.ok ?_⟩
      exact field_eq_ok.mpr ⟨_, parseUInt_eq_ok.mpr text, rfl⟩
    | txBytes n text =>
      refine ⟨_, _, pair_keyValue (by decide) rfl, congrArg Except.ok ?_⟩
      exact field_eq_ok.mpr ⟨_, parseUInt_eq_ok.mpr text, rfl⟩
    | presharedKey text =>
      refine ⟨_, _, pair_keyValue (by decide) rfl, congrArg Except.ok ?_⟩
      exact field_eq_ok.mpr ⟨_, decodeKey_eq_ok.mpr text, rfl⟩
    | endpoint text =>
      refine ⟨_, _, pair_keyValue (by decide) rfl, congrArg Except.ok ?_⟩
      exact field_eq_ok.mpr ⟨_, decodeAddress_eq_ok.mpr text, rfl⟩
    | persistentKeepaliveInterval n text =>
      refine ⟨_, _, pair_keyValue (by decide) rfl, congrArg Except.ok ?_⟩
      exact field_eq_ok.mpr ⟨_, parseUInt_eq_ok.mpr text, rfl⟩
    | allowedIp text =>
      refine ⟨_, _, pair_keyValue (by decide) rfl, congrArg Except.ok ?_⟩
      exact field_eq_ok.mpr ⟨_, (parseAllowedIp_eq_ok t).mpr text, rfl⟩

theorem apply_none_iff (t : AddrText) {k v : Line} {p : PeerStateOut} :
    PeerStateOut.apply t k v p = .ok (.ok none) ↔ ∀ name ∈ peerKeys, k ≠ lit name := by
  constructor
  · intro unknown
    unfold PeerStateOut.apply at unknown
    split_ifs at unknown with h1 h2 h3 h4 h5 h6 h7 h8
    · exfalso
      split at unknown
      next => cases unknown
      next =>
        obtain ⟨_, _, same⟩ := bind_eq_ok.mp unknown
        cases same
    · exfalso
      split at unknown
      next => cases unknown
      next =>
        split at unknown
        next => cases unknown
        next =>
          obtain ⟨_, _, same⟩ := bind_eq_ok.mp unknown
          cases same
    · exact absurd (Except.ok.inj unknown) field_ne_none
    · exact absurd (Except.ok.inj unknown) field_ne_none
    · exact absurd (Except.ok.inj unknown) field_ne_none
    · exact absurd (Except.ok.inj unknown) field_ne_none
    · exact absurd (Except.ok.inj unknown) field_ne_none
    · exact absurd (Except.ok.inj unknown) field_ne_none
    · simp only [peerKeys, List.forall_mem_cons]
      exact ⟨h1, h2, h3, h4, h5, h6, h7, h8, nofun⟩
  · intro unknown
    simp only [peerKeys, List.forall_mem_cons] at unknown
    obtain ⟨h1, h2, h3, h4, h5, h6, h7, h8, _⟩ := unknown
    unfold PeerStateOut.apply
    rw [if_neg h1, if_neg h2, if_neg h3, if_neg h4, if_neg h5, if_neg h6, if_neg h7, if_neg h8]
    rfl

/-- The two keys after which no peer can follow. -/
theorem interface_none_iff {k v : Line} {s : WgStateOut} :
    s.apply k v = .ok none ↔ k = lit "errno" ∨ k = lit "protocol_version" := by
  constructor
  · intro ends
    unfold WgStateOut.apply at ends
    split_ifs at ends with h1 h2 h3 h4 h5
    · exact absurd ends field_ne_none
    · exact absurd ends field_ne_none
    · exact absurd ends field_ne_none
    · exact .inl h4
    · exact .inr h5
  · rintro (rfl | rfl) <;> rfl

theorem stateFormat_lawful (t : AddrText) : (stateFormat t).Lawful where
  peers _ _ _ _ ends := (apply_none_iff t).mpr ((apply_none_iff t).mp ends)
  interface _ _ _ _ ends := interface_none_iff.mpr (interface_none_iff.mp ends)
  goesOn _ := rfl

theorem parseGetResponse_state (t : AddrText) {line : Line} (rest : List Item)
    (notErrno : startsWith line "errno=" = false) :
    parseGetResponse t (.ok line :: rest) = (do
      let result ← (stateFormat t).readSections (.ok line :: rest) .new
      return result.map fun r => .ok r.1) := by
  have peeked : (Peekable.new (.ok line :: rest)).tryPeek = (.ok (some line), ⟨rest, some (.ok line)⟩) := rfl
  rw [parseGetResponse, peeked]
  dsimp only
  rw [notErrno]
  exact (stateFormat t).parseSections_map ⟨rest, some (.ok line)⟩ .new fun state => Except.ok state

theorem parseGetResponse_read (t : AddrText) {l : List Line} {state : WgStateOut} :
    parseGetResponse t (l.map .ok) = .ok (.ok (.ok state)) ↔
      (∀ line ∈ l.head?, startsWith line "errno=" = false) ∧
        ∃ left, (stateFormat t).readSections (Format.lines l) .new = .ok (.ok (state, left)) := by
  cases l with
  | nil => exact ⟨nofun, fun ⟨_, _, read⟩ => nomatch read⟩
  | cons line l =>
    cases errno : startsWith line "errno=" with
    | true =>
      have peeked : (Peekable.new (.ok line :: l.map .ok)).tryPeek =
          (.ok (some line), ⟨l.map .ok, some (.ok line)⟩) := rfl
      constructor
      · intro parsed
        rw [List.map_cons, parseGetResponse, peeked] at parsed
        dsimp only at parsed
        rw [if_pos errno] at parsed
        split at parsed
        next => cases parsed
        next v _ =>
          have value := Except.ok.inj parsed
          cases number : parseInt32 v <;> rw [number] at value <;> cases value
      · rintro ⟨other, _⟩
        cases errno.symm.trans (other line rfl)
    | false =>
      rw [List.map_cons, parseGetResponse_state t _ errno]
      constructor
      · intro parsed
        obtain ⟨result, read, same⟩ := bind_eq_ok.mp parsed
        cases result with
        | error e => cases same
        | ok r =>
          obtain rfl := Except.ok.inj (Except.ok.inj (Except.ok.inj same))
          exact ⟨fun other isFirst => Option.some.inj isFirst ▸ errno, r.2, read⟩
      · rintro ⟨_, left, read⟩
        exact bind_eq_ok.mpr ⟨_, read, rfl⟩

def PeerStateBlock (t : AddrText) (block : List Line) (peer : PeerStateOut) : Prop :=
  ∃ v key body, block = keyValue "public_key" v :: body ∧ HexKey v key ∧ Run (ShowsPeer t) (.new key) body peer

theorem stateBlock_iff (t : AddrText) {state next : WgStateOut} {block : List Line} :
    (stateFormat t).Block state block next ↔
      ∃ peer, PeerStateBlock t block peer ∧ next = { state with peers := state.peers ++ [peer] } := by
  constructor
  · rintro ⟨line, key, body, peer, rfl, parsed, run, rfl⟩
    obtain ⟨v, rfl, decoded⟩ := Format.parsePublicKey_eq_ok.mp parsed
    exact ⟨peer, ⟨v, key, body, rfl, decodeKey_eq_ok.mp decoded, run.mono fun _ _ _ => (showsPeer_iff t).mp⟩, rfl⟩
  · rintro ⟨peer, ⟨v, key, body, rfl, text, run⟩, rfl⟩
    exact ⟨_, key, body, peer, rfl, Format.parsePublicKey_eq_ok.mpr ⟨v, rfl, decodeKey_eq_ok.mpr text⟩,
      run.mono fun _ _ _ => (showsPeer_iff t).mpr, rfl⟩

theorem stateBlocks_iff (t : AddrText) {state next : WgStateOut} {blocks : List (List Line)} :
    Run (stateFormat t).Block state blocks next ↔
      ∃ peers, List.Forall₂ (PeerStateBlock t) blocks peers ∧
        next = { state with peers := state.peers ++ peers } := by
  constructor
  · intro run
    induction run with
    | nil => exact ⟨[], .nil, by simp⟩
    | cons first _ ih =>
      obtain ⟨peer, block, rfl⟩ := (stateBlock_iff t).mp first
      obtain ⟨peers, blocks, rfl⟩ := ih
      exact ⟨peer :: peers, .cons block blocks, by simp⟩
  · rintro ⟨peers, blocks, rfl⟩
    induction blocks generalizing state with
    | nil => simpa using Run.nil
    | @cons block peer blocks peers first _ ih =>
      have rest := @ih { state with peers := state.peers ++ [peer] }
      rw [List.append_assoc] at rest
      exact .cons ((stateBlock_iff t).mpr ⟨peer, first, rfl⟩) rest

theorem ShowsInterface.peers (shows : ShowsInterface s line next) : next.peers = s.peers := by
  cases shows <;> rfl

/-- A state is returned if the lines up to one that ends them show it. -/
theorem parseGetResponse_eq_ok (t : AddrText) {l : List Line} {state : WgStateOut} :
    parseGetResponse t (l.map .ok) = .ok (.ok (.ok state)) ↔
      (∀ line ∈ l.head?, startsWith line "errno=" = false) ∧
        ∃ interface blocks line rest settings peers, l = interface ++ blocks.flatten ++ line :: rest ∧
          Run ShowsInterface .new interface settings ∧ List.Forall₂ (PeerStateBlock t) blocks peers ∧
          state = { settings with peers } ∧ (stateFormat t).Ends blocks line := by
  have noPeers : ∀ {interface settings}, Run ShowsInterface .new interface settings → settings.peers = [] := by
    intro interface settings run
    exact run.invariant (fun s => s.peers = []) (fun _ _ _ none shows => shows.peers.trans none) rfl
  rw [parseGetResponse_read, (stateFormat t).readSections_iff (stateFormat_lawful t)]
  apply and_congr_right
  intro _
  constructor
  · rintro ⟨interface, blocks, line, _, settings, same, run, added, ends⟩
    obtain ⟨rest, rfl, rfl⟩ := Format.lines_split same
    obtain ⟨peers, shown, rfl⟩ := (stateBlocks_iff t).mp added
    have run' : Run ShowsInterface .new interface settings := run.mono fun _ _ _ => (showsInterface_iff t).mp
    refine ⟨interface, blocks, line, rest, settings, peers, rfl, run', shown, ?_, ends⟩
    rw [noPeers run', List.nil_append]
  · rintro ⟨interface, blocks, line, rest, settings, peers, rfl, run, shown, rfl, ends⟩
    refine ⟨interface, blocks, line, Format.lines rest, settings, by simp [Format.lines],
      run.mono fun _ _ _ => (showsInterface_iff t).mpr, (stateBlocks_iff t).mpr ⟨peers, shown, ?_⟩, ends⟩
    rw [noPeers run, List.nil_append]

end Titun
