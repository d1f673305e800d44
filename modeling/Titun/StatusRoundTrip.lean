import Titun.IpcWrite
import Titun.ResponseGrammar

/-! A status that is written is read back. -/
namespace Titun

open Text Transition

def NoFlowInfo : SocketAddr → Prop
  | .v4 _ _ => True
  | .v6 a => a.flowinfo = 0

/-- What the standard library promises of addresses as text. -/
structure AddrText.Lawful (t : AddrText) : Prop where
  ip : ∀ a, t.parseIp (t.ip a) = some a
  ipText : ∀ a, (t.ip a).length ≤ 39 ∧ ∀ b ∈ t.ip a, Printable b ∧ b ≠ 47
  socket : ∀ a, NoFlowInfo a → t.parseSocket (t.socket a) = some a
  socketText : ∀ a, (t.socket a).length ≤ 58 ∧ ∀ b ∈ t.socket a, Printable b

/-- What the codec promises of printable lines that are not too long. -/
def DecodesLines (codec : Nat → Bytes → List Item) : Prop :=
  ∀ limit l, (∀ line ∈ l, line.length ≤ limit ∧ ∀ b ∈ line, Printable b) → codec limit (unlines l) = l.map .ok

/-- Valid prefix lengths, no flow info, and a time from the epoch on that `SystemTime` can hold. -/
structure PeerStateOut.Valid (p : PeerStateOut) : Prop where
  allowedIps : ∀ ip ∈ p.allowedIps, ValidIp ip
  endpoint : ∀ a, p.endpoint = some a → NoFlowInfo a
  lastHandshakeTime : ∀ time, p.lastHandshakeTime = some time → 0 ≤ time ∧ Representable time

section Values

/-- A line that the reader takes. -/
def Short (line : Line) : Prop := line.length ≤ 128 ∧ ∀ b ∈ line, Printable b

theorem keyValue_short {k : String} {v : Line} (key : (lit k).length ≤ 30 ∧ ∀ b ∈ lit k, Printable b)
    (value : v.length ≤ 97 ∧ ∀ b ∈ v, Printable b) : Short (keyValue k v) := by
  constructor
  · have length : (keyValue k v).length = (lit k).length + (v.length + 1) := by simp [keyValue]
    omega
  · intro b isIn
    rcases List.mem_append.mp isIn with isKey | isRest
    · exact key.2 b isKey
    · rcases List.mem_cons.mp isRest with rfl | isValue
      · exact ⟨by decide, by decide⟩
      · exact value.2 b isValue

theorem hexKey_encode (key : U8Array 32) : HexKey (hexEncode key.val) key where
  length := by rw [hexEncode_length, key.property]
  digits _ isIn := hexEncode_mem isIn
  decoded := hexDecode_hexEncode _

theorem hexKey_short (key : U8Array 32) :
    (hexEncode key.val).length ≤ 97 ∧ ∀ b ∈ hexEncode key.val, Printable b :=
  ⟨by rw [hexEncode_length, key.property]; decide, hexEncode_printable _⟩

theorem decimal_short {n : Nat} (small : n < 2 ^ 64) :
    (decimal n).length ≤ 97 ∧ ∀ b ∈ decimal n, Printable b := by
  have below : n < 10 ^ 20 := lt_trans small (by decide)
  exact ⟨(decimal_length below (by decide)).trans (by decide), decimal_printable n⟩

theorem allowedIp_text {t : AddrText} (lawful : t.Lawful) {ip : AllowedIp} (valid : ValidIp ip) :
    AllowedIpText t (t.ip ip.1 ++ 47 :: decimal ip.2) ip := by
  refine ⟨t.ip ip.1, decimal ip.2, ?_, rfl, lawful.ip ip.1, decimal_numeral ip.2, valid⟩
  intro slash
  exact ((lawful.ipText ip.1).2 47 slash).2 rfl

theorem allowedIp_short {t : AddrText} (lawful : t.Lawful) {ip : AllowedIp} (valid : ValidIp ip) :
    (t.ip ip.1 ++ 47 :: decimal ip.2).length ≤ 97 ∧ ∀ b ∈ t.ip ip.1 ++ 47 :: decimal ip.2, Printable b := by
  obtain ⟨length, text⟩ := lawful.ipText ip.1
  have width : ip.1.width ≤ 128 := by cases ip.1 <;> simp [IpAddr.width]
  have small : ip.2 < 10 ^ 3 := lt_of_le_of_lt (LE.le.trans valid width) (by decide)
  have digits := decimal_length small (by decide)
  constructor
  · rw [List.length_append, List.length_cons]
    omega
  · intro b isIn
    rcases List.mem_append.mp isIn with isAddr | isRest
    · exact (text b isAddr).1
    · rcases List.mem_cons.mp isRest with rfl | isLength
      · exact ⟨by decide, by decide⟩
      · exact decimal_printable _ b isLength

end Values

section Peers

variable {t : AddrText}

theorem run_one {step : σ → Line → σ → Prop} (one : step s line next) : Run step s [line] next :=
  .cons one .nil

theorem run_presharedKey (p : PeerStateOut) (psk : Option (U8Array 32)) (unset : p.presharedKey = none) :
    Run (ShowsPeer t) p (psk.toList.map fun psk => keyValue "preshared_key" (hexEncode psk.val))
      { p with presharedKey := psk } := by
  cases psk with
  | none =>
    have same : { p with presharedKey := none } = p := by rw [← unset]
    rw [same]
    exact .nil
  | some psk => exact run_one (.presharedKey (hexKey_encode psk))

theorem run_allowedIps (lawful : t.Lawful) (p : PeerStateOut) {ips : List AllowedIp}
    (valid : ∀ ip ∈ ips, ValidIp ip) :
    Run (ShowsPeer t) p (ips.map fun a => keyValue "allowed_ip" (t.ip a.1 ++ 47 :: decimal a.2))
      { p with allowedIps := p.allowedIps ∪ ips.toFinset } := by
  induction ips generalizing p with
  | nil =>
    have same : p.allowedIps ∪ [].toFinset = p.allowedIps := by simp
    rw [same]
    exact .nil
  | cons ip ips ih =>
    have first := allowedIp_text lawful (valid ip List.mem_cons_self)
    have rest := ih { p with allowedIps := insert ip p.allowedIps } fun a isIn =>
      valid a (List.mem_cons_of_mem _ isIn)
    have same : insert ip p.allowedIps ∪ ips.toFinset = p.allowedIps ∪ (ip :: ips).toFinset := by
      ext a
      simp
    dsimp only at rest
    rw [same] at rest
    exact .cons (.allowedIp first) rest

theorem run_endpoint (lawful : t.Lawful) (p : PeerStateOut) {endpoint : Option SocketAddr}
    (unset : p.endpoint = none) (valid : ∀ a, endpoint = some a → NoFlowInfo a) :
    Run (ShowsPeer t) p (endpoint.toList.map fun e => keyValue "endpoint" (t.socket e))
      { p with endpoint } := by
  cases endpoint with
  | none =>
    have same : { p with endpoint := none } = p := by rw [← unset]
    rw [same]
    exact .nil
  | some e => exact run_one (.endpoint (lawful.socket e (valid e rfl)))

theorem shows_sec (p : PeerStateOut) {n : Nat} (small : n < 2 ^ 64) (fits : Representable (secs n)) :
    ShowsPeer t p (keyValue "last_handshake_time_sec" (decimal n)) { p with lastHandshakeTime := some (secs n) } := by
  have value : (BitVec.ofNat 64 n).toNat = n := Nat.mod_eq_of_lt small
  have text : Numeral (decimal n) (BitVec.ofNat 64 n).toNat := by
    rw [value]
    exact decimal_numeral n
  have shown := ShowsPeer.lastHandshakeTimeSec (t := t) (p := p) (BitVec.ofNat 64 n) text (by rwa [value])
  rwa [value] at shown

theorem shows_nsec {p : PeerStateOut} {time : SystemTime} {n : Nat} (small : n < 2 ^ 64)
    (known : p.lastHandshakeTime = some time) (fits : Representable (time + n)) :
    ShowsPeer t p (keyValue "last_handshake_time_nsec" (decimal n))
      { p with lastHandshakeTime := some (time + n) } := by
  have value : (BitVec.ofNat 64 n).toNat = n := Nat.mod_eq_of_lt small
  have text : Numeral (decimal n) (BitVec.ofNat 64 n).toNat := by
    rw [value]
    exact decimal_numeral n
  have shown := ShowsPeer.lastHandshakeTimeNsec (t := t) (BitVec.ofNat 64 n) text known (by rwa [value])
  rwa [value] at shown

theorem run_handshakeTime (p : PeerStateOut) {time : Option SystemTime} (unset : p.lastHandshakeTime = none)
    (valid : ∀ at_, time = some at_ → 0 ≤ at_ ∧ Representable at_) :
    ∃ l, handshakeTimeLines time = .ok l ∧ (∀ line ∈ l, Short line) ∧
      Run (ShowsPeer t) p l { p with lastHandshakeTime := time } := by
  cases time with
  | none =>
    have same : { p with lastHandshakeTime := none } = p := by rw [← unset]
    refine ⟨[], rfl, nofun, ?_⟩
    rw [same]
    exact .nil
  | some time =>
    obtain ⟨positive, fits⟩ := valid time rfl
    obtain ⟨d, rfl⟩ := Int.eq_ofNat_of_zero_le positive
    have bound : d < 2 ^ 63 * NANOS_PER_SEC := by
      unfold Representable at fits
      exact_mod_cast fits
    have secsBound : d / NANOS_PER_SEC < 2 ^ 64 := by
      apply Nat.div_lt_of_lt_mul
      unfold NANOS_PER_SEC at bound ⊢
      omega
    have nanosBound : d % NANOS_PER_SEC < 2 ^ 64 := lt_trans (Nat.mod_lt _ (by decide)) (by decide)
    have parts : secs (d / NANOS_PER_SEC) + d % NANOS_PER_SEC = d := by
      rw [secs, Nat.mul_comm]
      exact Nat.div_add_mod _ _
    have toNat : (d : SystemTime).toNat = d := Int.toNat_natCast d
    refine ⟨[keyValue "last_handshake_time_sec" (decimal (d / NANOS_PER_SEC)),
      keyValue "last_handshake_time_nsec" (decimal (d % NANOS_PER_SEC))], ?_, ?_, ?_⟩
    · rw [handshakeTimeLines, durationSinceEpoch, if_pos positive, toNat]
      rfl
    · intro line isIn
      simp only [List.mem_cons, List.not_mem_nil, or_false] at isIn
      rcases isIn with rfl | rfl
      · exact keyValue_short (by decide +kernel) (decimal_short secsBound)
      · exact keyValue_short (by decide +kernel) (decimal_short nanosBound)
    · have inSecs : Representable (secs (d / NANOS_PER_SEC)) :=
        lt_of_le_of_lt (Int.ofNat_le.mpr (by omega)) fits
      have sum : (secs (d / NANOS_PER_SEC) : SystemTime) + (d % NANOS_PER_SEC : Nat) = d := by
        exact_mod_cast parts
      have inTime : Representable ((secs (d / NANOS_PER_SEC) : SystemTime) + (d % NANOS_PER_SEC : Nat)) := sum.symm ▸ fits
      have second := shows_nsec (t := t) (p := { p with lastHandshakeTime := some (secs (d / NANOS_PER_SEC) : Nat) })
        nanosBound rfl inTime
      rw [sum] at second
      exact .cons (shows_sec p secsBound inSecs) (.cons second .nil)

theorem shows_keepalive (p : PeerStateOut) (n : BitVec 16) :
    ShowsPeer t p (keyValue "persistent_keepalive_interval" (decimal n.toNat))
      { p with persistentKeepaliveInterval := n } :=
  .persistentKeepaliveInterval n (decimal_numeral _)

theorem untimedLines_short (lawful : t.Lawful) {p : PeerStateOut} (valid : p.Valid) :
    ∀ line ∈ p.untimedLines t, Short line := by
  intro line isIn
  simp only [PeerStateOut.untimedLines, List.mem_append, List.mem_map, List.mem_cons,
    List.not_mem_nil, or_false] at isIn
  rcases isIn with (((⟨psk, _, rfl⟩ | ⟨ip, isIp, rfl⟩) | rfl) | ⟨e, _, rfl⟩) | rfl | rfl
  · exact keyValue_short (by decide +kernel) (hexKey_short psk)
  · exact keyValue_short (by decide +kernel) (allowedIp_short lawful (valid.allowedIps ip (mem_iterAllowedIps.mp isIp)))
  · exact keyValue_short (by decide +kernel) (decimal_short (lt_trans (BitVec.isLt _) (by decide)))
  · have text := lawful.socketText e
    exact keyValue_short (by decide +kernel) ⟨text.1.trans (by decide), text.2⟩
  · exact keyValue_short (by decide +kernel) (decimal_short (BitVec.isLt _))
  · exact keyValue_short (by decide +kernel) (decimal_short (BitVec.isLt _))

theorem run_untimedLines (lawful : t.Lawful) {p : PeerStateOut} (valid : p.Valid) :
    Run (ShowsPeer t) (.new p.publicKey) (p.untimedLines t) { p with lastHandshakeTime := none } := by
  have first := run_presharedKey (t := t) (.new p.publicKey) p.presharedKey rfl
  have second := run_allowedIps lawful { PeerStateOut.new p.publicKey with presharedKey := p.presharedKey }
    fun ip isIn => valid.allowedIps ip (mem_iterAllowedIps.mp isIn)
  have all : (PeerStateOut.new p.publicKey).allowedIps ∪ (iterAllowedIps p.allowedIps).toFinset = p.allowedIps := by
    ext ip
    simp [PeerStateOut.new]
  have third := run_one (shows_keepalive (t := t) { PeerStateOut.new p.publicKey with
    presharedKey := p.presharedKey, allowedIps := p.allowedIps } p.persistentKeepaliveInterval)
  have fourth := run_endpoint lawful { PeerStateOut.new p.publicKey with
    presharedKey := p.presharedKey, allowedIps := p.allowedIps,
    persistentKeepaliveInterval := p.persistentKeepaliveInterval } rfl valid.endpoint
  dsimp only at second
  rw [all] at second
  refine (((first.append second).append third).append fourth).append
    (.cons (.rxBytes p.rxBytes (decimal_numeral _)) (.cons ?_ .nil))
  exact .txBytes p.txBytes (decimal_numeral _)

theorem written_block (lawful : t.Lawful) {p : PeerStateOut} (valid : p.Valid) :
    ∃ block, p.lines t = .ok block ∧ PeerStateBlock t block p ∧ ∀ line ∈ block, Short line := by
  obtain ⟨time, written, short, run⟩ :=
    run_handshakeTime (t := t) { p with lastHandshakeTime := none } rfl valid.lastHandshakeTime
  refine ⟨keyValue "public_key" (hexEncode p.publicKey.val) :: (p.untimedLines t ++ time), ?_, ?_, ?_⟩
  · rw [PeerStateOut.lines, written]
    rfl
  · exact ⟨_, p.publicKey, _, rfl, hexKey_encode _, (run_untimedLines lawful valid).append run⟩
  · intro line isIn
    rcases List.mem_cons.mp isIn with rfl | isIn
    · exact keyValue_short (by decide +kernel) (hexKey_short _)
    · rcases List.mem_append.mp isIn with isIn | isIn
      · exact untimedLines_short lawful valid line isIn
      · exact short line isIn

theorem written_blocks (lawful : t.Lawful) {peers : List PeerStateOut} (valid : ∀ p ∈ peers, p.Valid) :
    ∃ blocks, (peers.mapM fun p => p.lines t) = .ok blocks ∧ List.Forall₂ (PeerStateBlock t) blocks peers ∧
      ∀ line ∈ blocks.flatten, Short line := by
  induction peers with
  | nil => exact ⟨[], rfl, .nil, nofun⟩
  | cons p peers ih =>
    obtain ⟨block, lines, shown, short⟩ := written_block lawful (valid p List.mem_cons_self)
    obtain ⟨blocks, rest, shows, shorts⟩ := ih fun q isIn => valid q (List.mem_cons_of_mem _ isIn)
    refine ⟨block :: blocks, ?_, .cons shown shows, ?_⟩
    · rw [List.mapM_cons, lines, rest]
      rfl
    · intro line isIn
      rcases List.mem_append.mp (List.flatten_cons ▸ isIn) with isIn | isIn
      · exact short line isIn
      · exact shorts line isIn

end Peers

theorem interfaceLines_short (state : WgStateOut) : ∀ line ∈ state.interfaceLines, Short line := by
  intro line isIn
  simp only [WgStateOut.interfaceLines, List.mem_append, List.mem_cons, List.not_mem_nil, or_false] at isIn
  rcases isIn with (rfl | rfl) | isIn
  · exact keyValue_short (by decide +kernel) (hexKey_short _)
  · exact keyValue_short (by decide +kernel) (decimal_short (lt_trans (BitVec.isLt _) (by decide)))
  · split_ifs at isIn
    · rw [List.mem_singleton.mp isIn]
      exact keyValue_short (by decide +kernel) (decimal_short (lt_trans (BitVec.isLt _) (by decide)))
    · cases isIn

/-- A mark of zero is not written, and is what is read without one. -/
theorem run_interfaceLines (state : WgStateOut) :
    Run ShowsInterface .new state.interfaceLines { state with peers := [] } := by
  have first : Run ShowsInterface .new [keyValue "private_key" (hexEncode state.privateKey.val),
      keyValue "listen_port" (decimal state.listenPort.toNat)]
      { WgStateOut.new with privateKey := state.privateKey, listenPort := state.listenPort } := by
    apply Run.cons (.privateKey (hexKey_encode _))
    exact .cons (.listenPort state.listenPort (decimal_numeral _)) .nil
  apply first.append
  split_ifs with marked
  · exact .cons (.fwmark state.fwmark (decimal_numeral _)) .nil
  · have zero : state.fwmark = 0 := not_not.mp marked
    rw [zero]
    exact .nil

theorem errno_ends (t : AddrText) (blocks : List (List Line)) :
    (stateFormat t).Ends blocks (keyValue "errno" (lit "0")) := by
  have pair : Format.Pair (keyValue "errno" (lit "0")) (lit "errno") (lit "0") := pair_keyValue (by decide) rfl
  constructor
  · intro _
    exact .inr ⟨_, _, pair, fun _ => rfl⟩
  · intro _
    exact ⟨fun _ _ => rfl, rfl⟩

/-- What the daemon writes of its state is read back as the same state. -/
theorem wg_state_round_trip (t : AddrText) (lawful : t.Lawful) (codec : Nat → Bytes → List Item)
    (decodes : DecodesLines codec) (state : WgStateOut) (valid : ∀ p ∈ state.peers, p.Valid) :
    ∃ lines, writeWgState t .new state = .ok ⟨unlines lines, []⟩ ∧
      (∀ line ∈ lines, 10 ∉ line ∧ line.length ≤ 128) ∧
      parseGetResponseIo t codec (unlines lines) = .ok (.ok (.ok state)) := by
  obtain ⟨blocks, written, shown, short⟩ := written_blocks lawful valid
  let lines := state.interfaceLines ++ blocks.flatten ++ [keyValue "errno" (lit "0"), []]
  have each : ∀ line ∈ lines, Short line := by
    intro line isIn
    rcases List.mem_append.mp isIn with isIn | isIn
    · rcases List.mem_append.mp isIn with isIn | isIn
      · exact interfaceLines_short state line isIn
      · exact short line isIn
    · simp only [List.mem_cons, List.not_mem_nil, or_false] at isIn
      rcases isIn with rfl | rfl
      · exact keyValue_short (by decide +kernel) (by decide +kernel)
      · exact ⟨by decide, nofun⟩
  refine ⟨lines, ?_, ?_, ?_⟩
  · rw [writeWgState, WgStateOut.lines, written, ok_bind, pure_eq_ok, ok_bind, BufWriter.flush_eq,
      BufWriter.written_writeln]
    rfl
  · intro line isIn
    refine ⟨?_, (each line isIn).1⟩
    intro newline
    exact absurd ((each line isIn).2 10 newline) (by decide)
  · rw [parseGetResponseIo, decodes 128 lines each]
    refine (parseGetResponse_eq_ok t).mpr ⟨?_, state.interfaceLines, blocks, _, _, _, state.peers, rfl,
      run_interfaceLines state, shown, rfl, errno_ends t blocks⟩
    intro line isFirst
    obtain rfl := Option.some.inj isFirst
    rfl

section Sample

/-- An IPv4 address as the standard library writes it. -/
def dotted (a : BitVec 32) : Line :=
  decimal (a.toNat / 2 ^ 24) ++ 46 :: (decimal (a.toNat / 2 ^ 16 % 256) ++
    46 :: (decimal (a.toNat / 2 ^ 8 % 256) ++ 46 :: decimal (a.toNat % 256)))

def parseDotted (s : Line) : Option (BitVec 32) := do
  let s3 := splitOnce 46 s
  let s2 := splitOnce 46 (← s3.2)
  let s1 := splitOnce 46 (← s2.2)
  let a3 ← parseNat 256 s3.1
  let a2 ← parseNat 256 s2.1
  let a1 ← parseNat 256 s1.1
  let a0 ← parseNat 256 (← s1.2)
  return BitVec.ofNat 32 (a3 * 2 ^ 24 + a2 * 2 ^ 16 + a1 * 2 ^ 8 + a0)

theorem parseDotted_dotted (a : BitVec 32) : parseDotted (dotted a) = some a := by
  have bound := a.isLt
  have split : ∀ n rest, splitOnce 46 (decimal n ++ 46 :: rest) = (decimal n, some rest) := by
    intro n rest
    exact splitOnce_eq (not_mem_decimal n rfl)
  have value : BitVec.ofNat 32 (a.toNat / 2 ^ 24 * 2 ^ 24 + a.toNat / 2 ^ 16 % 256 * 2 ^ 16 +
      a.toNat / 2 ^ 8 % 256 * 2 ^ 8 + a.toNat % 256) = a := by
    apply BitVec.eq_of_toNat_eq
    rw [BitVec.toNat_ofNat]
    omega
  have high : parseNat 256 (decimal (a.toNat / 2 ^ 24)) = some (a.toNat / 2 ^ 24) := parseNat_decimal (by omega)
  have low : ∀ n, parseNat 256 (decimal (n % 256)) = some (n % 256) := fun n => parseNat_decimal (Nat.mod_lt n (by decide))
  simp only [parseDotted, dotted, split, Option.bind_eq_bind, Option.bind_some, high, low, Option.pure_def, value]

theorem dotted_text (a : BitVec 32) :
    (dotted a).length ≤ 15 ∧ (∀ b ∈ dotted a, Printable b ∧ b ≠ 47) ∧ 58 ∉ dotted a ∧ 46 ∈ dotted a := by
  have bound := a.isLt
  have octet : ∀ n < 256, (decimal n).length ≤ 3 := fun n small => decimal_length (lt_trans small (by decide)) (by decide)
  have h3 := octet (a.toNat / 2 ^ 24) (by omega)
  have h2 := octet (a.toNat / 2 ^ 16 % 256) (Nat.mod_lt _ (by decide))
  have h1 := octet (a.toNat / 2 ^ 8 % 256) (Nat.mod_lt _ (by decide))
  have h0 := octet (a.toNat % 256) (Nat.mod_lt _ (by decide))
  have mem : ∀ b ∈ dotted a, b = 46 ∨ ∃ n, b ∈ decimal n := by
    intro b isIn
    simp only [dotted, List.mem_append, List.mem_cons] at isIn
    rcases isIn with isIn | rfl | isIn | rfl | isIn | rfl | isIn
    · exact .inr ⟨_, isIn⟩
    · exact .inl rfl
    · exact .inr ⟨_, isIn⟩
    · exact .inl rfl
    · exact .inr ⟨_, isIn⟩
    · exact .inl rfl
    · exact .inr ⟨_, isIn⟩
  refine ⟨?_, ?_, ?_, by simp [dotted]⟩
  · simp only [dotted, List.length_append, List.length_cons]
    omega
  · intro b isIn
    rcases mem b isIn with rfl | ⟨n, isDecimal⟩
    · exact ⟨by decide, by decide⟩
    · refine ⟨decimal_printable n b isDecimal, ?_⟩
      rintro rfl
      exact not_mem_decimal n rfl isDecimal
  · intro isIn
    rcases mem 58 isIn with same | ⟨n, isDecimal⟩
    · exact absurd same (by decide)
    · exact not_mem_decimal n rfl isDecimal

/-- IPv4 as the standard library has it, and some text for IPv6. -/
def sampleText : AddrText where
  ip
    | .v4 a => dotted a
    | .v6 a => decimal a.toNat
  parseIp s :=
    if 46 ∈ s then (parseDotted s).map .v4 else (parseNat (2 ^ 128) s).map fun n => .v6 (BitVec.ofNat 128 n)
  socket
    | .v4 a port => dotted a ++ 58 :: decimal port.toNat
    | .v6 a => decimal a.ip.toNat ++ 37 :: (decimal a.scopeId.toNat ++ 37 :: decimal a.port.toNat)
  parseSocket s :=
    match splitOnce 58 s with
    | (a, some port) => do return .v4 (← parseDotted a) (BitVec.ofNat 16 (← parseNat (2 ^ 16) port))
    | (s, none) => do
      let ip := splitOnce 37 s
      let scopeId := splitOnce 37 (← ip.2)
      let port ← scopeId.2
      return .v6 ⟨BitVec.ofNat 128 (← parseNat (2 ^ 128) ip.1), BitVec.ofNat 16 (← parseNat (2 ^ 16) port), 0,
        BitVec.ofNat 32 (← parseNat (2 ^ 32) scopeId.1)⟩

theorem parseNat_toNat (n : BitVec w) : parseNat (2 ^ w) (decimal n.toNat) = some n.toNat := parseNat_decimal n.isLt

theorem ofNat_toNat_self (n : BitVec w) : BitVec.ofNat w n.toNat = n :=
  BitVec.eq_of_toNat_eq (Nat.mod_eq_of_lt n.isLt)

theorem sampleText_lawful : sampleText.Lawful where
  ip a := by
    cases a with
    | v4 a =>
      change (if 46 ∈ dotted a then (parseDotted (dotted a)).map IpAddr.v4 else _) = _
      rw [if_pos (dotted_text a).2.2.2, parseDotted_dotted]
      rfl
    | v6 a =>
      change (if 46 ∈ decimal a.toNat then _ else (parseNat (2 ^ 128) (decimal a.toNat)).map _) = _
      rw [if_neg (not_mem_decimal _ rfl), parseNat_toNat]
      exact congrArg (fun a => some (IpAddr.v6 a)) (ofNat_toNat_self a)
  ipText a := by
    cases a with
    | v4 a =>
      obtain ⟨length, text, _⟩ := dotted_text a
      exact ⟨length.trans (by decide), text⟩
    | v6 a =>
      refine ⟨decimal_length (lt_trans a.isLt (by decide)) (by decide), fun b isIn => ⟨decimal_printable _ b isIn, ?_⟩⟩
      rintro rfl
      exact not_mem_decimal _ rfl isIn
  socket a noFlow := by
    cases a with
    | v4 a port =>
      change (match splitOnce 58 (dotted a ++ 58 :: decimal port.toNat) with | (a, some port) => _ | (s, none) => _) = _
      rw [splitOnce_eq (dotted_text a).2.2.1]
      dsimp only
      rw [parseDotted_dotted, parseNat_toNat]
      exact congrArg (fun port => some (SocketAddr.v4 a port)) (ofNat_toNat_self port)
    | v6 a =>
      obtain ⟨ip, port, flowinfo, scopeId⟩ := a
      obtain rfl : flowinfo = 0 := noFlow
      have noColon : 58 ∉ decimal ip.toNat ++ 37 :: (decimal scopeId.toNat ++ 37 :: decimal port.toNat) := by
        have digits : ∀ n, 58 ∉ decimal n := fun n => not_mem_decimal n rfl
        simp [digits]
      have percent : ∀ n, 37 ∉ decimal n := fun n => not_mem_decimal n rfl
      change (match splitOnce 58 (decimal ip.toNat ++ 37 :: (decimal scopeId.toNat ++ 37 :: decimal port.toNat)) with
        | (a, some port) => _ | (s, none) => _) = _
      rw [splitOnce_none noColon]
      simp only [splitOnce_eq (percent _), Option.bind_eq_bind, Option.bind_some, parseNat_toNat, ofNat_toNat_self,
        Option.pure_def]
  socketText a := by
    cases a with
    | v4 a port =>
      obtain ⟨length, text, _⟩ := dotted_text a
      have digits : (decimal port.toNat).length ≤ 5 := decimal_length (lt_trans port.isLt (by decide)) (by decide)
      constructor
      · change (dotted a ++ 58 :: decimal port.toNat).length ≤ 58
        rw [List.length_append, List.length_cons]
        omega
      · intro b isIn
        rcases List.mem_append.mp isIn with isIn | isIn
        · exact (text b isIn).1
        · rcases List.mem_cons.mp isIn with rfl | isIn
          · exact ⟨by decide, by decide⟩
          · exact decimal_printable _ b isIn
    | v6 a =>
      have ip : (decimal a.ip.toNat).length ≤ 39 := decimal_length (lt_trans a.ip.isLt (by decide)) (by decide)
      have scope : (decimal a.scopeId.toNat).length ≤ 10 :=
        decimal_length (lt_trans a.scopeId.isLt (by decide)) (by decide)
      have port : (decimal a.port.toNat).length ≤ 5 := decimal_length (lt_trans a.port.isLt (by decide)) (by decide)
      constructor
      · change (decimal a.ip.toNat ++ 37 :: (decimal a.scopeId.toNat ++ 37 :: decimal a.port.toNat)).length ≤ 58
        simp only [List.length_append, List.length_cons]
        omega
      · intro b isIn
        rcases List.mem_append.mp isIn with isIn | isIn
        · exact decimal_printable _ b isIn
        · rcases List.mem_cons.mp isIn with rfl | isIn
          · exact ⟨by decide, by decide⟩
          · rcases List.mem_append.mp isIn with isIn | isIn
            · exact decimal_printable _ b isIn
            · rcases List.mem_cons.mp isIn with rfl | isIn
              · exact ⟨by decide, by decide⟩
              · exact decimal_printable _ b isIn

theorem decodeLines_line {limit : Nat} {line : Line} (start rest : Bytes) (short : (start ++ line).length ≤ limit)
    (apart : 10 ∉ line) :
    decodeLines limit start (line ++ 10 :: rest) = .ok (start ++ line) :: decodeLines limit [] rest := by
  induction line generalizing start with
  | nil => simpa [decodeLines] using short
  | cons b line ih =>
    obtain ⟨other, apart⟩ := not_or.mp (List.mem_cons.not.mp apart)
    have same : start ++ [b] ++ line = start ++ b :: line := by simp
    rw [← same] at short ⊢
    rw [List.cons_append, decodeLines, if_neg (Ne.symm other), ih _ short apart]

theorem sampleCodec_decodes : DecodesLines sampleCodec := by
  intro limit l short
  induction l with
  | nil => rfl
  | cons line l ih =>
    have apart : 10 ∉ line := by
      intro newline
      exact absurd ((short line List.mem_cons_self).2 10 newline) (by decide)
    have first := decodeLines_line [] (unlines l) (short line List.mem_cons_self).1 apart
    have same : unlines (line :: l) = line ++ 10 :: unlines l := by simp [unlines]
    rw [sampleCodec, same, first, List.map_cons]
    exact congrArg _ (ih fun other isIn => short other (List.mem_cons_of_mem _ isIn))

def samplePeerOut : PeerStateOut where
  publicKey := zeros 32
  presharedKey := some (zeros 32)
  endpoint := some (.v4 0x7f000001 51820)
  lastHandshakeTime := some 1590000000123456789
  rxBytes := 1
  txBytes := 2
  persistentKeepaliveInterval := 25
  allowedIps := {(.v4 0x0a000000, 8)}

def sampleStateOut : WgStateOut where
  privateKey := zeros 32
  listenPort := 51820
  fwmark := 0
  peers := [samplePeerOut]

theorem wg_state_round_trip_sample :
    ∃ lines, writeWgState sampleText .new sampleStateOut = .ok ⟨unlines lines, []⟩ ∧
      (∀ line ∈ lines, 10 ∉ line ∧ line.length ≤ 128) ∧
      parseGetResponseIo sampleText sampleCodec (unlines lines) = .ok (.ok (.ok sampleStateOut)) := by
  apply wg_state_round_trip sampleText sampleText_lawful sampleCodec sampleCodec_decodes
  intro p isIn
  rw [List.mem_singleton.mp isIn]
  refine ⟨?_, ?_, ?_⟩
  · intro ip isIp
    rw [Finset.mem_singleton.mp isIp]
    exact (by decide : (8 : Nat) ≤ 32)
  · intro a same
    obtain rfl := Option.some.inj same
    trivial
  · intro time same
    obtain rfl := Option.some.inj same
    exact ⟨by decide, show (_ : Int) < 2 ^ 63 * NANOS_PER_SEC by decide⟩

end Sample

end Titun
