import Titun.Crypto

/-! Cookie reply messages generation and parsing. The nonce that the source generates
inside is an argument. -/
namespace Titun

def LABEL_COOKIE : Bytes := "cookie--".toUTF8.toList

variable {HS : Type} (c : Crypto HS)

def calcCookie (secret remoteAddr : Bytes) : Cookie := c.blake2s 16 secret remoteAddr

/-- The key under which cookies from the owner of a public key are encrypted. -/
def cookieKey (pubkey : X25519Pubkey) : U8Array 32 := c.blake2s 32 [] (LABEL_COOKIE ++ pubkey.val)

def cookieReply (pubkey : X25519Pubkey) (cookie : Cookie) (peerIndex : WgId) (mac1 : U8Array 16)
    (nonce : U8Array 24) : U8Array 64 :=
  ⟨[3, 0, 0, 0] ++ peerIndex.val ++ nonce.val ++
    (XChaCha20Poly1305.encrypt c (cookieKey c pubkey) nonce mac1.val cookie.val).val, by simp⟩

def processCookieReply (peerPubkey : X25519Pubkey) (mac1 : U8Array 16) (msg : Bytes) :
    Exec (Option Cookie) := do
  if msg.length ≠ 64 then return none
  if msg.take 4 ≠ [3, 0, 0, 0] then return none
  let nonce ← sliceArray msg 8 24
  let ciphertext ← sliceArray msg 32 32
  match XChaCha20Poly1305.decrypt c (cookieKey c peerPubkey) nonce mac1.val ciphertext.val with
  | none => return none
  | some cookie => return some ⟨cookie.val, by simp⟩

/-- Extract `mac1` from a message, which is at least 32 bytes long at every call. -/
def getMac1 (m : Bytes) : Exec (U8Array 16) := do
  if m.length < 32 then .error .sliceOutOfRange
  sliceArray m (m.length - 32) 16

/-- Fills in `mac2`, the last 16 bytes. -/
def cookieSign (m : U8Array (n + 16)) (cookie : Option Cookie) : U8Array (n + 16) :=
  match cookie with
  | none => m
  | some cookie => ⟨m.val.take n ++ (c.blake2s 16 cookie.val (m.val.take n)).val, by simp⟩

def cookieVerify (m : Bytes) (cookie : Cookie) : Exec Bool := do
  if m.length < 16 then return false
  let mac2 ← sliceArray m (m.length - 16) 16
  return constantTimeEq16 (c.blake2s 16 cookie.val (m.take (m.length - 16))) mac2

theorem getMac1_ok {m : Bytes} (long : 32 ≤ m.length) : ∃ mac1, getMac1 m = .ok mac1 := by
  obtain ⟨mac1, slice, _⟩ := sliceArray_eq m (m.length - 32) 16 (by omega)
  exact ⟨mac1, by simp [getMac1, Nat.not_lt.mpr long, slice]⟩

theorem cookieVerify_ok (m : Bytes) (cookie : Cookie) : ∃ valid, cookieVerify c m cookie = .ok valid := by
  by_cases short : m.length < 16
  · exact ⟨false, by simp [cookieVerify, short]⟩
  · obtain ⟨mac2, slice, _⟩ := sliceArray_eq m (m.length - 16) 16 (by omega)
    exact ⟨_, by simp [cookieVerify, short, slice]; rfl⟩

theorem processCookieReply_some {peerPubkey : X25519Pubkey} {mac1 : U8Array 16} {msg : Bytes}
    {cookie : Cookie} (opened : processCookieReply c peerPubkey mac1 msg = .ok (some cookie)) :
    ∃ nonce ct, sliceArray msg 8 24 = .ok nonce ∧ sliceArray msg 32 32 = .ok ct ∧
      (XChaCha20Poly1305.decrypt c (cookieKey c peerPubkey) nonce mac1.val ct.val).isSome := by
  by_cases len : msg.length = 64
  swap
  · simp [processCookieReply, len] at opened
  by_cases header : msg.take 4 = [3, 0, 0, 0]
  swap
  · simp [processCookieReply, len, header] at opened
  simp only [processCookieReply, len, header, ne_eq, not_true, if_false] at opened
  obtain ⟨nonce, nonceSlice, opened⟩ := bind_eq_ok.mp opened
  obtain ⟨ct, ctSlice, opened⟩ := bind_eq_ok.mp opened
  refine ⟨nonce, ct, nonceSlice, ctSlice, ?_⟩
  cases plain : XChaCha20Poly1305.decrypt c (cookieKey c peerPubkey) nonce mac1.val ct.val with
  | none => simp [plain] at opened
  | some _ => rfl

theorem processCookieReply_ok (peerPubkey : X25519Pubkey) (mac1 : U8Array 16) (msg : Bytes) :
    ∃ result, processCookieReply c peerPubkey mac1 msg = .ok result := by
  by_cases len : msg.length = 64
  swap
  · exact ⟨none, by simp [processCookieReply, len]⟩
  by_cases header : msg.take 4 = [3, 0, 0, 0]
  swap
  · exact ⟨none, by simp [processCookieReply, len, header]⟩
  obtain ⟨nonce, nonceSlice, _⟩ := sliceArray_eq msg 8 24 (by omega)
  obtain ⟨ct, ctSlice, _⟩ := sliceArray_eq msg 32 32 (by omega)
  simp only [processCookieReply, len, header, ne_eq, not_true, if_false, nonceSlice, ctSlice, ok_bind]
  cases XChaCha20Poly1305.decrypt c (cookieKey c peerPubkey) nonce mac1.val ct.val with
  | none => exact ⟨none, rfl⟩
  | some cookie => exact ⟨_, rfl⟩

end Titun
