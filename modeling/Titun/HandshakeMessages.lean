import Titun.Cookie
import Titun.Noise
import Titun.PeerState

/-! What the messages of a handshake consist of, and that each side reads what the other wrote. -/
namespace Titun

open Endian

theorem TAI64N.ofBytes_toBytes {t : TAI64N} (seconds : t.secs < 2 ^ 64) (nanos : t.nanos < 10 ^ 9) :
    TAI64N.ofBytes t.toBytes = some t := by
  have high : ofBeBytes (t.toBytes.val.take 8) = t.secs := by
    simp only [toBytes]
    rw [List.take_left' (by simp), ofBeBytes, List.reverse_reverse]
    exact ofLeBytes_leBytes_of_lt (by simpa using seconds)
  have low : ofBeBytes (t.toBytes.val.drop 8) = t.nanos := by
    simp only [toBytes]
    rw [List.drop_left' (by simp), ofBeBytes, List.reverse_reverse]
    exact ofLeBytes_leBytes_of_lt (by omega)
  simp only [ofBytes, high, low]
  rw [if_pos (by omega)]

theorem sub_middle {p x y z : Bytes} (split : p = x ++ (y ++ z)) (starts : start = x.length)
    (stops : stop = start + y.length) : sub p start stop = y := by
  subst split starts stops
  simp [sub]

theorem sliceArray_append {p x z : Bytes} {a : U8Array n} (split : p = x ++ (a.val ++ z))
    (starts : start = x.length) : sliceArray p start n = .ok a := by
  have inside : start + n ≤ p.length := by
    subst split starts
    simp
  obtain ⟨b, slice, value⟩ := sliceArray_eq p start n inside
  rw [slice]
  exact congrArg Except.ok (Subtype.ext (value.trans (sub_middle split starts (by simp))))

theorem constantTimeEq16_self (a : U8Array 16) : constantTimeEq16 a a = true := by
  have zero (bytes : Bytes) :
      (List.zipWith (fun x y => x ^^^ y) bytes bytes).foldl (fun tmp x => tmp ||| x) 0 = 0 := by
    induction bytes with
    | nil => rfl
    | cons b bytes ih => simpa using ih
  rw [constantTimeEq16, zero]
  rfl

section Mac

variable {HS : Type} (c : Crypto HS)

def withMac1 (publicKey : X25519Pubkey) (body : Bytes) : Bytes :=
  body ++ (mac c (mac1Key c publicKey) body).val

theorem cookieSign_eq {m : U8Array (n + 16)} {body : Bytes} (size : n = body.length + 16)
    (built : m.val = withMac1 c publicKey body ++ (zeros 16).val) (cookie : Option Cookie) :
    ∃ mac2 : U8Array 16, (cookieSign c m cookie).val = withMac1 c publicKey body ++ mac2.val := by
  cases cookie with
  | none => exact ⟨zeros 16, built⟩
  | some cookie =>
    have kept : m.val.take n = withMac1 c publicKey body := by
      rw [built, List.take_left' (by simp [withMac1, size])]
    simp only [cookieSign, kept]
    exact ⟨_, rfl⟩

/-- The owner of the public key finds `mac1` valid, whatever `mac2` is. -/
theorem verifyMac1_withMac1 (wg : WgInfo) (body : Bytes) (mac2 : U8Array 16) :
    verifyMac1 c wg (withMac1 c (wg.pubkey c) body ++ mac2.val) = .ok true := by
  have position : (withMac1 c (wg.pubkey c) body ++ mac2.val).length - 32 = body.length := by
    simp [withMac1]
  have long : ¬ (withMac1 c (wg.pubkey c) body ++ mac2.val).length < 32 := by
    simp [withMac1]
  have mac1 : sliceArray (withMac1 c (wg.pubkey c) body ++ mac2.val) body.length 16 =
      .ok (mac c (mac1Key c (wg.pubkey c)) body) :=
    sliceArray_append (x := body) (z := mac2.val) (by simp [withMac1]) rfl
  have front : (withMac1 c (wg.pubkey c) body ++ mac2.val).take body.length = body := by
    rw [withMac1, List.append_assoc, List.take_left' rfl]
  simp only [verifyMac1, if_neg long, position, mac1, front, ok_bind, pure_eq_ok,
    constantTimeEq16_self]

end Mac

section Agreement

variable {HS : Type} (c : Crypto HS)

theorem initiate_eq {wg : WgInfo} {peer : PeerInfo} {selfIndex : WgId} {ephemeral : X25519Key}
    {now : TAI64N} {msg : U8Array HANDSHAKE_INIT_LEN} {hs : HS}
    (initiated : initiate c wg peer selfIndex ephemeral now = some (msg, hs)) :
    ∃ noise : U8Array 108,
      c.writeMessage (initiatorState c wg.key peer.publicKey (peer.psk.getD (zeros 32))) ephemeral
        (truncateTimestamp now).toBytes.val 108 = some (noise, hs) ∧
      msg.val = withMac1 c peer.publicKey ([1, 0, 0, 0] ++ (selfIndex.val ++ noise.val)) ++
        (zeros 16).val := by
  simp only [initiate] at initiated
  obtain ⟨⟨noise, written⟩, write, built⟩ := Option.bind_eq_some_iff.mp initiated
  obtain ⟨rfl, rfl⟩ := Prod.mk.inj (Option.some.inj built)
  exact ⟨noise, write, by simp [withMac1, appendMac1]⟩

theorem KeepsRoles.initiated (roles : KeepsRoles c) {wg : WgInfo} {peer : PeerInfo} {index : WgId}
    {ephemeral : X25519Key} {now : TAI64N} {msg : U8Array HANDSHAKE_INIT_LEN} {hs : HS}
    (initiated : initiate c wg peer index ephemeral now = some (msg, hs)) : c.getIsInitiator hs = true := by
  obtain ⟨noise, write, _⟩ := initiate_eq c initiated
  exact (roles.write write).trans (roles.pushPsk.trans roles.new)

theorem responde_eq {r : InitProcessResult HS} {selfId : WgId} {ephemeral : X25519Key}
    {msg : U8Array HANDSHAKE_RESP_LEN} {hs : HS}
    (responded : responde c r selfId ephemeral = .ok (some (msg, hs))) :
    ∃ (noise : U8Array 48) (rs : X25519Pubkey),
      c.writeMessage r.handshakeState ephemeral [] 48 = some (noise, hs) ∧ c.getRs hs = some rs ∧
      msg.val = withMac1 c rs ([2, 0, 0, 0] ++ (selfId.val ++ (r.peerId.val ++ noise.val))) ++
        (zeros 16).val := by
  simp only [responde] at responded
  cases write : c.writeMessage r.handshakeState ephemeral [] 48 with
  | none => simp [write] at responded
  | some result =>
    obtain ⟨noise, written⟩ := result
    simp only [write] at responded
    obtain ⟨rs, known, built⟩ := bind_eq_ok.mp responded
    obtain ⟨rfl, rfl⟩ := Prod.mk.inj (Option.some.inj (Except.ok.inj built))
    exact ⟨noise, rs, rfl, unwrap_eq_ok.mp known, by simp [withMac1, appendMac1]⟩

/-- Responding succeeds where the noise library writes a message to a peer that it knows. -/
theorem responde_of_written {r : InitProcessResult HS} {selfId : WgId} {ephemeral : X25519Key}
    {noise : U8Array 48} {hs : HS}
    (written : c.writeMessage r.handshakeState ephemeral [] 48 = some (noise, hs))
    (known : c.getRs hs = some rs) : ∃ msg, responde c r selfId ephemeral = .ok (some (msg, hs)) :=
  ⟨_, by simp only [responde, written, known, unwrap_some, ok_bind, pure_eq_ok]; rfl⟩

theorem truncateTimestamp_valid {t : TAI64N} (nanos : t.nanos < 10 ^ 9) :
    (truncateTimestamp t).nanos < 10 ^ 9 :=
  (Nat.div_mul_le_self _ _).trans_lt nanos

/-- A signed initiation is processed by the owner of the key that it is for. -/
theorem processInitiation_of_read {wg : WgInfo} {publicKey : X25519Pubkey} {index : WgId}
    {noise : U8Array 108} {mac2 : U8Array 16} {t : TAI64N} {hs : HS}
    (read : c.readMessage (responderState c wg.key) noise.val 12 = some (t.toBytes, hs))
    (seconds : t.secs < 2 ^ 64) (nanos : t.nanos < 10 ^ 9) :
    processInitiation c wg (withMac1 c publicKey ([1, 0, 0, 0] ++ (index.val ++ noise.val)) ++ mac2.val) =
      .ok (some ⟨index, t, hs⟩) := by
  generalize made : withMac1 c publicKey ([1, 0, 0, 0] ++ (index.val ++ noise.val)) ++ mac2.val = msg
  generalize mac : (mac c (mac1Key c publicKey) ([1, 0, 0, 0] ++ (index.val ++ noise.val))).val = mac1 at made
  have split : [1, 0, 0, 0] ++ (index.val ++ (noise.val ++ (mac1 ++ mac2.val))) = msg := by
    rw [← made, ← mac]
    simp [withMac1]
  have size : mac1.length = 16 := by simp [← mac]
  have header : sub msg 0 4 = [1, 0, 0, 0] := sub_middle (x := []) split.symm rfl rfl
  have id : sliceArray msg 4 4 = .ok index := sliceArray_append split.symm rfl
  have body : sub msg 8 116 = noise.val :=
    sub_middle (x := [1, 0, 0, 0] ++ index.val) (z := mac1 ++ mac2.val) (by simp [← split]) (by simp) (by simp)
  have len : msg.length = HANDSHAKE_INIT_LEN := by simp [← split, size, HANDSHAKE_INIT_LEN]
  simp only [processInitiation, len, header, id, body, read, decide_true, assert_true, ok_bind,
    TAI64N.ofBytes_toBytes seconds nanos]
  rfl

theorem processResponse_eq {hs : HS} {publicKey : X25519Pubkey} {index other : WgId} {noise : U8Array 48}
    {mac2 : U8Array 16} :
    processResponse c hs
        (withMac1 c publicKey ([2, 0, 0, 0] ++ (index.val ++ (other.val ++ noise.val))) ++ mac2.val) =
      .ok ((c.readMessage hs noise.val 0).map fun opened => (index, opened.2)) := by
  generalize made : withMac1 c publicKey ([2, 0, 0, 0] ++ (index.val ++ (other.val ++ noise.val))) ++ mac2.val = msg
  generalize mac : (mac c (mac1Key c publicKey)
    ([2, 0, 0, 0] ++ (index.val ++ (other.val ++ noise.val)))).val = mac1 at made
  have split : [2, 0, 0, 0] ++ (index.val ++ (other.val ++ (noise.val ++ (mac1 ++ mac2.val)))) = msg := by
    rw [← made, ← mac]
    simp [withMac1]
  have size : mac1.length = 16 := by simp [← mac]
  have header : sub msg 0 4 = [2, 0, 0, 0] := sub_middle (x := []) split.symm rfl rfl
  have id : sliceArray msg 4 4 = .ok index := sliceArray_append split.symm rfl
  have body : sub msg 12 60 = noise.val :=
    sub_middle (x := [2, 0, 0, 0] ++ (index.val ++ other.val)) (z := mac1 ++ mac2.val) (by simp [← split])
      (by simp) (by simp)
  have len : msg.length = HANDSHAKE_RESP_LEN := by simp [← split, size, HANDSHAKE_RESP_LEN]
  simp only [processResponse, len, header, id, body, decide_true, assert_true, ok_bind]
  cases c.readMessage hs noise.val 0 <;> rfl

/-- A signed initiation from the owner of one key to the owner of another: its index, its time and the
handshake state that its sender keeps. -/
structure Initiation (keyI keyR : X25519Key) (psk : U8Array 32) (bytes : Bytes) (index : WgId) (t : TAI64N)
    (hs : HS) : Prop where
  built : ∃ (noise : U8Array 108) (ephemeral : X25519Key) (mac2 : U8Array 16),
    c.writeMessage (initiatorState c keyI (c.publicKey keyR) psk) ephemeral t.toBytes.val 108 =
      some (noise, hs) ∧
    bytes = withMac1 c (c.publicKey keyR) ([1, 0, 0, 0] ++ (index.val ++ noise.val)) ++ mac2.val
  seconds : t.secs < 2 ^ 64
  nanos : t.nanos < 10 ^ 9

/-- A signed response that opens with a pending handshake of the owner of a key. -/
structure Answer (keyI : X25519Key) (h : Handshake HS) (bytes : Bytes) : Prop where
  built : ∃ (index : WgId) (noise : U8Array 48) (mac2 : U8Array 16) (out : U8Array 0) (last : HS),
    c.readMessage h.hs noise.val 0 = some (out, last) ∧
    bytes = withMac1 c (c.publicKey keyI) ([2, 0, 0, 0] ++ (index.val ++ (h.selfId.val ++ noise.val))) ++
      mac2.val

namespace Initiation

variable {c} {keyI keyR : X25519Key} {psk : U8Array 32} {bytes : Bytes} {index : WgId} {t : TAI64N} {hs : HS}

theorem of_initiate {wg : WgInfo} {peer : PeerInfo} {ephemeral : X25519Key} {now : TAI64N}
    {msg : U8Array HANDSHAKE_INIT_LEN} (initiated : initiate c wg peer index ephemeral now = some (msg, hs))
    (key : peer.publicKey = c.publicKey keyR) (seconds : now.secs < 2 ^ 64) (nanos : now.nanos < 10 ^ 9)
    (cookie : Option Cookie) : Initiation c wg.key keyR (peer.psk.getD (zeros 32))
      (cookieSign c msg cookie).val index (truncateTimestamp now) hs := by
  obtain ⟨noise, write, built⟩ := initiate_eq c initiated
  obtain ⟨mac2, signed⟩ := cookieSign_eq c (by simp) built cookie
  rw [key] at write signed
  exact ⟨⟨noise, ephemeral, mac2, write, signed⟩, seconds, truncateTimestamp_valid nanos⟩

theorem length (initiation : Initiation c keyI keyR psk bytes index t hs) :
    bytes.length = HANDSHAKE_INIT_LEN := by
  obtain ⟨noise, _, mac2, _, rfl⟩ := initiation.built
  simp [withMac1, HANDSHAKE_INIT_LEN]

theorem type (initiation : Initiation c keyI keyR psk bytes index t hs) : bytes.getD 0 0 = 1 := by
  obtain ⟨noise, _, mac2, _, rfl⟩ := initiation.built
  simp [withMac1]

theorem mac1 (initiation : Initiation c keyI keyR psk bytes index t hs) {wg : WgInfo} (own : wg.key = keyR) :
    verifyMac1 c wg bytes = .ok true := by
  obtain ⟨noise, _, mac2, _, rfl⟩ := initiation.built
  subst own
  exact verifyMac1_withMac1 c wg _ mac2

theorem opens (initiation : Initiation c keyI keyR psk bytes index t hs) (noise : Noise c) {wg : WgInfo}
    (own : wg.key = keyR) : ∃ opened, processInitiation c wg bytes = .ok (some ⟨index, t, opened⟩) ∧
      c.getRs opened = some (c.publicKey keyI) ∧ Read c keyI keyR psk hs opened := by
  obtain ⟨first, ephemeral, mac2, write, rfl⟩ := initiation.built
  subst own
  obtain ⟨opened, read, known⟩ := noise.readsFirst write
  refine ⟨opened, ?_, known, t.toBytes, first, ephemeral, write, read⟩
  exact processInitiation_of_read c read initiation.seconds initiation.nanos

end Initiation

namespace Answer

variable {c} {keyI : X25519Key} {h : Handshake HS} {bytes : Bytes}

theorem of_responde (noise : Noise c) {keyR : X25519Key} {psk : U8Array 32} {r : InitProcessResult HS}
    (read : Read c keyI keyR psk h.hs r.handshakeState) (index : r.peerId = h.selfId) {selfId : WgId}
    {ephemeral : X25519Key} {response : U8Array HANDSHAKE_RESP_LEN} {hsR : HS}
    (responded : responde c { r with handshakeState := c.pushPsk r.handshakeState psk } selfId ephemeral =
      .ok (some (response, hsR))) (cookie : Option Cookie) :
    Answer c keyI h (cookieSign c response cookie).val := by
  obtain ⟨second, rs, write, remote, built⟩ := responde_eq c responded
  have exchange := read.exchange write
  obtain rfl : rs = c.publicKey keyI := Option.some.inj (remote.symm.trans (noise.remoteKey exchange))
  obtain ⟨mac2, signed⟩ := cookieSign_eq c (by simp) built cookie
  obtain ⟨out, last, opens, _⟩ := noise.readsSecond exchange
  exact ⟨selfId, second, mac2, out, last, opens, by rw [signed, ← index]⟩

theorem length (answer : Answer c keyI h bytes) : bytes.length = HANDSHAKE_RESP_LEN := by
  obtain ⟨_, noise, mac2, _, _, _, rfl⟩ := answer.built
  simp [withMac1, HANDSHAKE_RESP_LEN]

theorem type (answer : Answer c keyI h bytes) : bytes.getD 0 0 = 2 := by
  obtain ⟨_, noise, mac2, _, _, _, rfl⟩ := answer.built
  simp [withMac1]

theorem mac1 (answer : Answer c keyI h bytes) {wg : WgInfo} (own : wg.key = keyI) :
    verifyMac1 c wg bytes = .ok true := by
  obtain ⟨_, noise, mac2, _, _, _, rfl⟩ := answer.built
  subst own
  exact verifyMac1_withMac1 c wg _ mac2

theorem index (answer : Answer c keyI h bytes) : sliceArray bytes 8 4 = .ok h.selfId := by
  obtain ⟨own, noise, mac2, _, _, _, rfl⟩ := answer.built
  refine sliceArray_append (x := [2, 0, 0, 0] ++ own.val) (z := noise.val ++
    ((mac c (mac1Key c (c.publicKey keyI)) ([2, 0, 0, 0] ++ (own.val ++ (h.selfId.val ++ noise.val)))).val ++
      mac2.val)) ?_ (by simp)
  simp [withMac1]

theorem opens (answer : Answer c keyI h bytes) :
    ∃ peerId last, processResponse c h.hs bytes = .ok (some (peerId, last)) := by
  obtain ⟨own, noise, mac2, _, last, read, rfl⟩ := answer.built
  refine ⟨own, last, ?_⟩
  rw [processResponse_eq, read]
  rfl

end Answer

end Agreement

end Titun
