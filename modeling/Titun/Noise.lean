import Titun.Handshake

/-! What the noise library promises, and a library without secrets that keeps the promises, on
which handshakes can be evaluated. -/
namespace Titun

section Promises

variable {HS : Type} (c : Crypto HS)

/-- The initiator's handshake state before the first message. -/
def initiatorState (key : X25519Key) (responder : X25519Pubkey) (psk : U8Array 32) : HS :=
  c.pushPsk (c.hsNew true PROLOGUE key (some responder)) psk

/-- Both messages of a handshake have been written, by the owners of two keys. -/
structure Exchange (keyI keyR : X25519Key) (pskI pskR : U8Array 32) (hsI hsR : HS)
    (second : U8Array 48) : Prop where
  written : ∃ (payload : U8Array 12) (first : U8Array 108) (opened : HS) (ephemeralI ephemeralR : X25519Key),
    c.writeMessage (initiatorState c keyI (c.publicKey keyR) pskI) ephemeralI payload.val 108 =
      some (first, hsI) ∧
    c.readMessage (responderState c keyR) first.val 12 = some (payload, opened) ∧
    c.writeMessage (c.pushPsk opened pskR) ephemeralR [] 48 = some (second, hsR)

/-- The first message of a handshake has been written and read. -/
structure Read (keyI keyR : X25519Key) (pskI : U8Array 32) (hsI opened : HS) : Prop where
  passed : ∃ (payload : U8Array 12) (first : U8Array 108) (ephemeral : X25519Key),
    c.writeMessage (initiatorState c keyI (c.publicKey keyR) pskI) ephemeral payload.val 108 =
      some (first, hsI) ∧
    c.readMessage (responderState c keyR) first.val 12 = some (payload, opened)

variable {c} in
theorem Read.exchange (read : Read c keyI keyR pskI hsI opened)
    (write : c.writeMessage (c.pushPsk opened pskR) ephemeral [] 48 = some (second, hsR)) :
    Exchange c keyI keyR pskI pskR hsI hsR second := by
  obtain ⟨payload, first, ephemeralI, wrote, reads⟩ := read.passed
  exact ⟨payload, first, opened, ephemeralI, ephemeral, wrote, reads, write⟩

/-- What the noise library promises of the pattern IKpsk2: reading undoes writing for the right
keys and the right pre-shared key, another pre-shared key is refused, each side knows its role
and the other side's key, and both get the same two ciphers in the same order. -/
structure Noise : Prop where
  readsFirst : ∀ {keyI keyR psk ephemeral} {payload : U8Array 12} {first hsI},
    c.writeMessage (initiatorState c keyI (c.publicKey keyR) psk) ephemeral payload.val 108 =
      some (first, hsI) →
    ∃ hsR, c.readMessage (responderState c keyR) first.val 12 = some (payload, hsR) ∧
      c.getRs hsR = some (c.publicKey keyI)
  remoteKey : ∀ {keyI keyR pskI pskR hsI hsR second},
    Exchange c keyI keyR pskI pskR hsI hsR second → c.getRs hsR = some (c.publicKey keyI)
  responder : ∀ {keyI keyR pskI pskR hsI hsR second},
    Exchange c keyI keyR pskI pskR hsI hsR second → c.getIsInitiator hsR = false
  readsSecond : ∀ {keyI keyR psk hsI hsR second}, Exchange c keyI keyR psk psk hsI hsR second →
    ∃ out last, c.readMessage hsI second.val 0 = some (out, last) ∧ c.getIsInitiator last = true ∧
      c.getCiphers last = c.getCiphers hsR
  refusesPsk : ∀ {keyI keyR pskI pskR hsI hsR second}, pskI ≠ pskR →
    Exchange c keyI keyR pskI pskR hsI hsR second → c.readMessage hsI second.val 0 = none

/-- Whoever has read the first message can write the second. -/
structure Replies : Prop where
  writesSecond : ∀ {keyI keyR pskI hsI opened pskR ephemeral}, Read c keyI keyR pskI hsI opened →
    (c.writeMessage (c.pushPsk opened pskR) ephemeral [] 48).isSome = true

/-- The role of a handshake state is fixed from the start. -/
structure KeepsRoles : Prop where
  new : ∀ {role prologue s rs}, c.getIsInitiator (c.hsNew role prologue s rs) = role
  pushPsk : ∀ {hs psk}, c.getIsInitiator (c.pushPsk hs psk) = c.getIsInitiator hs
  write : ∀ {hs ephemeral payload outLen out next},
    c.writeMessage hs ephemeral payload outLen = some (out, next) →
    c.getIsInitiator next = c.getIsInitiator hs
  read : ∀ {hs data outLen out next}, c.readMessage hs data outLen = some (out, next) →
    c.getIsInitiator next = c.getIsInitiator hs

variable {c} in
theorem KeepsRoles.opened (roles : KeepsRoles c) {wg : WgInfo} {msg : Bytes} {r : InitProcessResult HS}
    (opened : processInitiation c wg msg = .ok (some r)) : c.getIsInitiator r.handshakeState = false := by
  obtain ⟨_, read, _⟩ := processInitiation_some c opened
  exact (roles.read read).trans roles.new

end Promises

structure SymbolicHs where
  isInitiator : Bool
  s : X25519Key
  rs : Option X25519Pubkey
  psk : U8Array 32
  deriving DecidableEq

def fit (bytes : Bytes) (len : Nat) : U8Array len :=
  ⟨(bytes ++ List.replicate len 0).take len, by simp⟩

theorem fit_val {bytes : Bytes} (long : len ≤ bytes.length) : (fit bytes len).val = bytes.take len :=
  List.take_append_of_le_length long

/-- The first message shows both static keys and its payload, the second the pre-shared key. -/
def Crypto.symbolic : Crypto SymbolicHs where
  blake2s len _ _ := zeros len
  publicKey k := k
  aeadEncrypt m _ _ _ := ⟨m ++ List.replicate 16 0, tagged_length m⟩
  aeadDecrypt ct _ _ _ :=
    if ct.drop (ct.length - 16) = List.replicate 16 0 then some ⟨ct.take (ct.length - 16), untagged_length ct⟩
    else none
  hchacha key _ := key
  hsNew isInitiator _ s rs := ⟨isInitiator, s, rs, zeros 32⟩
  pushPsk hs psk := { hs with psk }
  writeMessage hs _ payload outLen :=
    if hs.isInitiator then
      some (fit (hs.s.val ++ ((hs.rs.getD (zeros 32)).val ++ (payload ++ List.replicate outLen 0))) outLen,
        hs)
    else some (fit (hs.psk.val ++ List.replicate outLen 0) outLen, hs)
  readMessage hs data outLen :=
    if hs.isInitiator then
      if data.take 32 = hs.psk.val then some (zeros outLen, hs) else none
    else if (data.drop 32).take 32 = hs.s.val then
      some (fit (data.drop 64) outLen, { hs with rs := some (fit data 32) })
    else none
  getRs hs := hs.rs
  getCiphers hs := if hs.isInitiator then (hs.s, hs.rs.getD (zeros 32)) else (hs.rs.getD (zeros 32), hs.s)
  getIsInitiator hs := hs.isInitiator

namespace SymbolicHs

theorem fit_take (a : U8Array n) (rest : Bytes) : fit (a.val ++ rest) n = a :=
  Subtype.ext (by rw [fit_val (by simp), List.take_left' a.property])

theorem writes (hs : SymbolicHs) (ephemeral : X25519Key) (payload : Bytes) (outLen : Nat) :
    ∃ out, Crypto.symbolic.writeMessage hs ephemeral payload outLen = some (out, hs) := by
  cases role : hs.isInitiator with
  | true => exact ⟨_, if_pos role⟩
  | false => exact ⟨_, if_neg (by simp [role])⟩

theorem first_read {keyI keyR : X25519Key} {psk : U8Array 32} {ephemeral : X25519Key}
    {payload : U8Array 12} {first : U8Array 108} {hsI : SymbolicHs}
    (write : Crypto.symbolic.writeMessage (initiatorState .symbolic keyI keyR psk) ephemeral payload.val
      108 = some (first, hsI)) :
    hsI = ⟨true, keyI, some keyR, psk⟩ ∧
    Crypto.symbolic.readMessage (responderState .symbolic keyR) first.val 12 =
      some (payload, ⟨false, keyR, some keyI, zeros 32⟩) := by
  obtain ⟨filled, rfl⟩ := Prod.mk.inj (Option.some.inj write)
  refine ⟨rfl, ?_⟩
  have shown : first.val = keyI.val ++ (keyR.val ++ (payload.val ++ List.replicate 32 0)) := by
    rw [← filled]
    refine (fit_val (by simp)).trans ?_
    change (keyI.val ++ (keyR.val ++ (payload.val ++ List.replicate 108 0))).take 108 = _
    simp [List.take_append, List.take_of_length_le]
  have own : (first.val.drop 32).take 32 = keyR.val := by
    rw [shown, List.drop_left' keyI.property, List.take_left' keyR.property]
  have body : first.val.drop 64 = payload.val ++ List.replicate 32 0 := by
    rw [shown, ← List.append_assoc, List.drop_left' (by simp)]
  change (if (first.val.drop 32).take 32 = keyR.val then
    some (fit (first.val.drop 64) 12, SymbolicHs.mk false keyR (some (fit first.val 32)) (zeros 32))
    else none) = _
  rw [if_pos own, body, fit_take, shown, fit_take]

theorem second_written {keyI keyR : X25519Key} {pskI pskR : U8Array 32} {hsI hsR : SymbolicHs}
    {second : U8Array 48} (exchange : Exchange .symbolic keyI keyR pskI pskR hsI hsR second) :
    hsI = ⟨true, keyI, some keyR, pskI⟩ ∧ hsR = ⟨false, keyR, some keyI, pskR⟩ ∧
      second.val.take 32 = pskR.val := by
  obtain ⟨payload, first, opened, _, _, write, read, writeSecond⟩ := exchange
  obtain ⟨initiator, reads⟩ := first_read write
  obtain ⟨_, rfl⟩ := Prod.mk.inj (Option.some.inj (reads.symm.trans read))
  obtain ⟨rfl, rfl⟩ := Prod.mk.inj (Option.some.inj writeSecond)
  refine ⟨initiator, rfl, ?_⟩
  change (fit (pskR.val ++ List.replicate 48 0) 48).val.take 32 = _
  rw [fit_val (by simp), List.take_take]
  exact List.take_left' pskR.property

end SymbolicHs

open SymbolicHs in
theorem Crypto.symbolic_noise : Noise Crypto.symbolic where
  readsFirst write := ⟨_, (first_read write).2, rfl⟩
  remoteKey exchange := by
    obtain ⟨_, rfl, _⟩ := second_written exchange
    rfl
  responder exchange := by
    obtain ⟨_, rfl, _⟩ := second_written exchange
    rfl
  readsSecond exchange := by
    obtain ⟨rfl, rfl, shown⟩ := second_written exchange
    exact ⟨zeros 0, _, if_pos shown, rfl, rfl⟩
  refusesPsk differ exchange := by
    obtain ⟨rfl, rfl, shown⟩ := second_written exchange
    exact if_neg fun same => differ (Subtype.ext (same.symm.trans shown))

theorem Crypto.symbolic_replies : Replies Crypto.symbolic where
  writesSecond {_ _ _ _ opened pskR ephemeral} _ := by
    obtain ⟨_, written⟩ := SymbolicHs.writes (Crypto.symbolic.pushPsk opened pskR) ephemeral [] 48
    rw [written]
    rfl

theorem Crypto.symbolic_roles : KeepsRoles Crypto.symbolic where
  new := rfl
  pushPsk := rfl
  write {hs ephemeral payload outLen _ _} write := by
    obtain ⟨_, same⟩ := SymbolicHs.writes hs ephemeral payload outLen
    obtain ⟨_, rfl⟩ := Prod.mk.inj (Option.some.inj (same.symm.trans write))
    rfl
  read {hs data outLen out next} read := by
    simp only [Crypto.symbolic] at read
    split_ifs at read <;> obtain ⟨_, rfl⟩ := Prod.mk.inj (Option.some.inj read) <;> rfl

end Titun
