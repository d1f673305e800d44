import Titun.Crypto

/-! Handshake messages generation and parsing. The ephemeral keys and the time that
the source generates inside are arguments. -/
namespace Titun

def PROLOGUE : Bytes := "WireGuard v1 zx2c4 Jason@zx2c4.com".toUTF8.toList
def LABEL_MAC1 : Bytes := "mac1----".toUTF8.toList

def HANDSHAKE_INIT_LEN : Nat := 148
def HANDSHAKE_RESP_LEN : Nat := 92
/-- 50 micro seconds. -/
def TIMESTAMP_PRECISION : Nat := 50000

/-- `Option<NonZeroU16>` holds these. -/
abbrev NonZeroU16 := { n : BitVec 16 // n ≠ 0 }

def NonZeroU16.new (n : BitVec 16) : Option NonZeroU16 := if h : n ≠ 0 then some ⟨n, h⟩ else none

/-- Config info about a WireGuard peer. -/
structure PeerInfo where
  publicKey : X25519Pubkey
  psk : Option (U8Array 32)
  endpoint : Option SocketAddrV6
  allowedIps : Finset AllowedIp
  keepalive : Option NonZeroU16
  roaming : Bool
  deriving DecidableEq

/-- Config info about a WireGuard interface. -/
structure WgInfo where
  key : X25519Key
  fwmark : BitVec 32
  port : BitVec 16
  deriving DecidableEq

variable {HS : Type} (c : Crypto HS)

def WgInfo.pubkey (info : WgInfo) : X25519Pubkey := c.publicKey info.key

/-- WireGuard `MAC` function. -/
def mac (key data : Bytes) : U8Array 16 := c.blake2s 16 key data

/-- WireGuard `HASH` function. -/
def hash (x1 x2 : Bytes) : U8Array 32 := c.blake2s 32 [] (x1 ++ x2)

/-- The key under which `mac1` of messages to the owner of a public key is computed. -/
def mac1Key (publicKey : X25519Pubkey) : Bytes := (hash c LABEL_MAC1 publicKey.val).val

/-- The timestamp is truncated to avoid being a timing oracle for other attacks. -/
def truncateTimestamp (t : TAI64N) : TAI64N :=
  { t with nanos := t.nanos / TIMESTAMP_PRECISION * TIMESTAMP_PRECISION }

/-- A message body with its `mac1`, and zeros where `mac2` goes. -/
def appendMac1 (publicKey : X25519Pubkey) (body : U8Array n) : U8Array (n + 32) :=
  ⟨body.val ++ (mac c (mac1Key c publicKey) body.val).val ++ (zeros 16).val, by simp⟩

/-- Generate handshake initiation message. -/
def initiate (wg : WgInfo) (peer : PeerInfo) (selfIndex : WgId) (ephemeral : X25519Key)
    (now : TAI64N) : Option (U8Array HANDSHAKE_INIT_LEN × HS) := do
  let hs := c.hsNew true PROLOGUE wg.key (some peer.publicKey)
  let hs := c.pushPsk hs (peer.psk.getD (zeros 32))
  let (noise, hs) ← c.writeMessage hs ephemeral (truncateTimestamp now).toBytes.val 108
  let body : U8Array 116 := ⟨[1, 0, 0, 0] ++ selfIndex.val ++ noise.val, by simp⟩
  return (appendMac1 c peer.publicKey body, hs)

structure InitProcessResult (HS : Type) where
  peerId : WgId
  timestamp : TAI64N
  handshakeState : HS
  deriving DecidableEq

def responderState (key : X25519Key) : HS := c.hsNew false PROLOGUE key none

/-- Process a handshake initiation message. -/
def processInitiation (wg : WgInfo) (msg : Bytes) : Exec (Option (InitProcessResult HS)) := do
  assert (msg.length = HANDSHAKE_INIT_LEN)
  if sub msg 0 4 ≠ [1, 0, 0, 0] then return none
  let peerIndex ← sliceArray msg 4 4
  match c.readMessage (responderState c wg.key) (sub msg 8 116) 12 with
  | none => return none
  | some (timestamp, hs) =>
    match TAI64N.ofBytes timestamp with
    | none => return none
    | some timestamp => return some ⟨peerIndex, timestamp, hs⟩

/-- Generate handshake response message, advancing the handshake state. -/
def responde (result : InitProcessResult HS) (selfId : WgId) (ephemeral : X25519Key) :
    Exec (Option (U8Array HANDSHAKE_RESP_LEN × HS)) := do
  match c.writeMessage result.handshakeState ephemeral [] 48 with
  | none => return none
  | some (noise, hs) =>
    let rs ← unwrap (c.getRs hs)
    let body : U8Array 60 := ⟨[2, 0, 0, 0] ++ selfId.val ++ result.peerId.val ++ noise.val,
      by simp⟩
    return some (appendMac1 c rs body, hs)

/-- Process handshake response message. Returns peer index and the advanced handshake state. -/
def processResponse (hs : HS) (msg : Bytes) : Exec (Option (WgId × HS)) := do
  assert (msg.length = HANDSHAKE_RESP_LEN)
  if sub msg 0 4 ≠ [2, 0, 0, 0] then return none
  let peerIndex ← sliceArray msg 4 4
  match c.readMessage hs (sub msg 12 60) 0 with
  | none => return none
  | some (_, hs) => return some (peerIndex, hs)

/-- Verify `mac1` of a message. -/
def verifyMac1 (wg : WgInfo) (msg : Bytes) : Exec Bool := do
  -- Below 32 the subtraction wraps around and `split_at` is out of range.
  if msg.length < 32 then .error .sliceOutOfRange
  let mac1Pos := msg.length - 32
  let mac1 ← sliceArray msg mac1Pos 16
  return constantTimeEq16 (mac c (mac1Key c (wg.pubkey c)) (msg.take mac1Pos)) mac1

theorem verifyMac1_ok (wg : WgInfo) {msg : Bytes} (long : 32 ≤ msg.length) :
    ∃ valid, verifyMac1 c wg msg = .ok valid := by
  obtain ⟨mac1, slice, _⟩ := sliceArray_eq msg (msg.length - 32) 16 (by omega)
  exact ⟨_, by simp [verifyMac1, Nat.not_lt.mpr long, slice]; rfl⟩

theorem processInitiation_ok (wg : WgInfo) {msg : Bytes} (len : msg.length = HANDSHAKE_INIT_LEN) :
    ∃ result, processInitiation c wg msg = .ok result := by
  obtain ⟨id, slice, _⟩ := sliceArray_eq msg 4 4 (by rw [len]; decide)
  by_cases header : sub msg 0 4 = [1, 0, 0, 0]
  · simp only [processInitiation, len, decide_true, assert_true, ok_bind, header, slice]
    cases c.readMessage (responderState c wg.key) (sub msg 8 116) 12 with
    | none => exact ⟨none, rfl⟩
    | some opened =>
      simp only
      cases TAI64N.ofBytes opened.1 with
      | none => exact ⟨none, rfl⟩
      | some timestamp => exact ⟨_, rfl⟩
  · exact ⟨none, by simp [processInitiation, len, header]⟩

theorem processInitiation_some {wg : WgInfo} {msg : Bytes} {r : InitProcessResult HS}
    (opened : processInitiation c wg msg = .ok (some r)) :
    ∃ timestamp, c.readMessage (responderState c wg.key) (sub msg 8 116) 12 =
      some (timestamp, r.handshakeState) ∧ TAI64N.ofBytes timestamp = some r.timestamp := by
  obtain ⟨_, _, opened⟩ := bind_eq_ok.mp opened
  by_cases header : sub msg 0 4 = [1, 0, 0, 0]
  · simp only [header, ne_eq, not_true, if_false] at opened
    obtain ⟨id, _, opened⟩ := bind_eq_ok.mp opened
    cases read : c.readMessage (responderState c wg.key) (sub msg 8 116) 12 with
    | none => simp [read] at opened
    | some result =>
      obtain ⟨bytes, hs⟩ := result
      cases parsed : TAI64N.ofBytes bytes with
      | none => simp [read, parsed] at opened
      | some timestamp =>
        simp only [read, parsed, pure_eq_ok, Except.ok.injEq, Option.some.injEq] at opened
        subst opened
        exact ⟨bytes, rfl, parsed⟩
  · simp [header] at opened

theorem processResponse_ok (hs : HS) {msg : Bytes} (len : msg.length = HANDSHAKE_RESP_LEN) :
    ∃ result, processResponse c hs msg = .ok result := by
  obtain ⟨id, slice, _⟩ := sliceArray_eq msg 4 4 (by rw [len]; decide)
  by_cases header : sub msg 0 4 = [2, 0, 0, 0]
  · simp only [processResponse, len, decide_true, assert_true, ok_bind, header, slice]
    cases c.readMessage hs (sub msg 12 60) 0 with
    | none => exact ⟨none, rfl⟩
    | some opened => exact ⟨_, rfl⟩
  · exact ⟨none, by simp [processResponse, len, header]⟩

theorem processResponse_some {hs : HS} {msg : Bytes} {r : WgId × HS}
    (opened : processResponse c hs msg = .ok (some r)) :
    ∃ out, c.readMessage hs (sub msg 12 60) 0 = some (out, r.2) := by
  obtain ⟨_, _, opened⟩ := bind_eq_ok.mp opened
  by_cases header : sub msg 0 4 = [2, 0, 0, 0]
  · simp only [header, ne_eq, not_true, if_false] at opened
    obtain ⟨id, _, opened⟩ := bind_eq_ok.mp opened
    cases read : c.readMessage hs (sub msg 12 60) 0 with
    | none => simp [read] at opened
    | some result =>
      simp only [read, pure_eq_ok, Except.ok.injEq, Option.some.injEq] at opened
      subst opened
      exact ⟨result.1, rfl⟩
  · simp [header] at opened

end Titun
