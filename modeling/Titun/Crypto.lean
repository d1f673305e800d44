import Titun.Types

/-! Cryptography. The primitives are libraries outside the repository and appear as
parameters; the wrappers around them are the repository's. -/
namespace Titun

open Endian

/-- The libraries: blake2s, libsodium's AEAD and curve, and the noise handshake
state `HS` of the pattern IKpsk2. Outputs have the lengths the libraries fix. -/
structure Crypto (HS : Type) where
  /-- `Params::new().hash_length(len).key(key).hash(data)`, unkeyed when `key` is empty. -/
  blake2s : (len : Nat) → (key data : Bytes) → U8Array len
  /-- `scalarmult_base`. -/
  publicKey : X25519Key → X25519Pubkey
  /-- `crypto_aead_chacha20poly1305_ietf_encrypt`. -/
  aeadEncrypt : (m ad : Bytes) → (nonce : U8Array 12) → (k : U8Array 32) → U8Array (m.length + 16)
  /-- `crypto_aead_chacha20poly1305_ietf_decrypt`. -/
  aeadDecrypt : (ct ad : Bytes) → (nonce : U8Array 12) → (k : U8Array 32) →
    Option (U8Array (ct.length - 16))
  /-- `hchacha` of `crypto/xchacha20poly1305.rs`; nothing here depends on its value. -/
  hchacha : (key : U8Array 32) → (nonce : U8Array 16) → U8Array 32
  /-- `HandshakeStateBuilder::build_handshake_state`, with the remote key where it is set. -/
  hsNew : (isInitiator : Bool) → (prologue : Bytes) → (s : X25519Key) →
    (rs : Option X25519Pubkey) → HS
  pushPsk : HS → U8Array 32 → HS
  /-- `write_message` with the ephemeral key it generates; fills a buffer of `outLen` bytes. -/
  writeMessage : HS → (ephemeral : X25519Key) → (payload : Bytes) → (outLen : Nat) →
    Option (U8Array outLen × HS)
  /-- `read_message` into a buffer of `outLen` bytes. -/
  readMessage : HS → (data : Bytes) → (outLen : Nat) → Option (U8Array outLen × HS)
  getRs : HS → Option X25519Pubkey
  /-- `get_ciphers`, with both keys extracted. -/
  getCiphers : HS → SecretKey × SecretKey
  getIsInitiator : HS → Bool

def zeros (n : Nat) : U8Array n := ⟨List.replicate n 0, by simp⟩

theorem tagged_length (m : Bytes) : (m ++ List.replicate 16 0).length = m.length + 16 := by
  simp

theorem untagged_length (ct : Bytes) : (ct.take (ct.length - 16)).length = ct.length - 16 := by
  simp

/-- Libraries without secrets, on which the model can be evaluated: a tag is 16 zero
bytes, and a handshake message shows the responder's key in its first bytes. -/
def Crypto.transparent : Crypto X25519Key where
  blake2s len _ _ := zeros len
  publicKey k := k
  aeadEncrypt m _ _ _ := ⟨m ++ List.replicate 16 0, tagged_length m⟩
  aeadDecrypt ct _ _ _ :=
    if ct.drop (ct.length - 16) = List.replicate 16 0 then some ⟨ct.take (ct.length - 16), untagged_length ct⟩
    else none
  hchacha key _ := key
  hsNew isInitiator _ s rs := if isInitiator then rs.getD (zeros 32) else s
  pushPsk hs _ := hs
  writeMessage hs _ payload outLen :=
    some (⟨(hs.val ++ payload ++ List.replicate outLen 0).take outLen, by simp; omega⟩, hs)
  readMessage hs data outLen := if data.take 32 = hs.val then some (zeros outLen, hs) else none
  getRs _ := some (zeros 32)
  getCiphers _ := (zeros 32, zeros 32)
  getIsInitiator _ := false

/-- The 12-byte nonce made of four zero bytes and the counter, least significant byte first. -/
def nonceBytes (nonce : BitVec 64) : U8Array 12 :=
  ⟨List.replicate 4 0 ++ leBytes 8 nonce.toNat, by simp⟩

theorem nonceBytes_injective (h : nonceBytes a = nonceBytes b) : a = b := by
  have bytes := congrArg Subtype.val h
  simp only [nonceBytes, List.append_cancel_left_eq] at bytes
  exact BitVec.eq_of_toNat_eq (leBytes_injective a.isLt b.isLt bytes)

namespace ChaCha20Poly1305

variable {HS : Type} (c : Crypto HS)

/-- The output buffer of every caller is 16 bytes longer than the plaintext, as asserted. -/
def encrypt (k : SecretKey) (nonce : BitVec 64) (ad plaintext : Bytes) :
    U8Array (plaintext.length + 16) :=
  c.aeadEncrypt plaintext ad (nonceBytes nonce) k

def decrypt (k : SecretKey) (nonce : BitVec 64) (ad ciphertext : Bytes) :
    Option (U8Array (ciphertext.length - 16)) :=
  c.aeadDecrypt ciphertext ad (nonceBytes nonce) k

end ChaCha20Poly1305

namespace XChaCha20Poly1305

variable {HS : Type} (c : Crypto HS)

/-- The key and nonce that `encrypt` and `decrypt` pass on to ChaCha20-Poly1305. -/
def realKey (key : U8Array 32) (nonce : U8Array 24) : U8Array 32 :=
  c.hchacha key ⟨nonce.val.take 16, by simp [nonce.property]⟩

def realNonce (nonce : U8Array 24) : U8Array 12 :=
  ⟨List.replicate 4 0 ++ nonce.val.drop 16, by simp [nonce.property]⟩

def encrypt (key : U8Array 32) (nonce : U8Array 24) (ad p : Bytes) : U8Array (p.length + 16) :=
  c.aeadEncrypt p ad (realNonce nonce) (realKey c key nonce)

def decrypt (key : U8Array 32) (nonce : U8Array 24) (ad ct : Bytes) :
    Option (U8Array (ct.length - 16)) :=
  c.aeadDecrypt ct ad (realNonce nonce) (realKey c key nonce)

end XChaCha20Poly1305

/-- `constant_time_eq_16`, in its portable form. -/
def constantTimeEq16 (a b : U8Array 16) : Bool :=
  (List.zipWith (fun x y => x ^^^ y) a.val b.val).foldl (fun tmp x => tmp ||| x) 0 == 0

end Titun
