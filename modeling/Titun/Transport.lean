import Titun.AntiReplay
import Titun.Crypto
import Titun.Ip

/-! A WireGuard transport session. Its atomics and its locked replay window are
fields; the tasks that set two of the flags after a delay are `expireHandshake` and `expire`. -/
namespace Titun

open Endian

def REKEY_AFTER_TIME : Nat := 120
def REJECT_AFTER_TIME : Nat := 180
def REKEY_TIMEOUT : Nat := 5
def KEEPALIVE_TIMEOUT : Nat := 10
def REKEY_ATTEMPT_TIME : Nat := 90

def REKEY_AFTER_MESSAGES : BitVec 64 := 0xfffffffffffeffff
def REJECT_AFTER_MESSAGES : BitVec 64 := 0xffffffffffffffef

structure Transport where
  selfId : WgId
  peerId : WgId
  isInitiator : Bool
  shouldHandshake : Bool
  hasReceived : Bool
  notTooOld : Bool
  created : Instant
  sendKey : SecretKey
  sendCounter : BitVec 64
  recvKey : SecretKey
  recvAr : AntiReplay
  deriving DecidableEq

namespace Transport

variable {HS : Type} (c : Crypto HS)

def newFromHs (now : Instant) (selfId peerId : WgId) (hs : HS) : Transport :=
  let (x, y) := c.getCiphers hs
  let (s, r) := if c.getIsInitiator hs then (x, y) else (y, x)
  { selfId, peerId
    isInitiator := c.getIsInitiator hs
    shouldHandshake := false
    hasReceived := false
    notTooOld := true
    created := now
    sendKey := s
    sendCounter := 0
    recvKey := r
    recvAr := AntiReplay.new }

/-- The first task of the session, and the time after which it runs. -/
def expireHandshake (t : Transport) : Transport := { t with shouldHandshake := true }

def handshakeAfter (t : Transport) : Nat :=
  secs (if t.isInitiator then REKEY_AFTER_TIME
    else REJECT_AFTER_TIME - KEEPALIVE_TIMEOUT - REKEY_TIMEOUT)

/-- The second task of the session, which runs after `REJECT_AFTER_TIME`. -/
def expire (t : Transport) : Transport := { t with notTooOld := false }

def getShouldSend (t : Transport) : Bool := (t.isInitiator || t.hasReceived) && t.notTooOld

/-- The message sealed under counter `ctr`. -/
def sealed (t : Transport) (ctr : BitVec 64) (msg : Bytes) : Bytes :=
  [4, 0, 0, 0] ++ t.peerId.val ++ leBytes 8 ctr.toNat ++
    (ChaCha20Poly1305.encrypt c t.sendKey ctr [] msg).val

/-- Returns the filled output buffer, unless the operation fails, and whether this
transport thinks we should rekey. -/
def encrypt (t : Transport) (msg : Bytes) : (Option Bytes × Bool) × Transport :=
  let ctr := t.sendCounter
  let t := { t with sendCounter := t.sendCounter + 1 }
  let shouldRekey := t.isInitiator && (t.shouldHandshake || decide (ctr ≥ REKEY_AFTER_MESSAGES))
  if ctr ≥ REJECT_AFTER_MESSAGES then ((none, shouldRekey), { t with notTooOld := false })
  else ((some (t.sealed c ctr msg), shouldRekey), t)

def counterOf (msg : Bytes) : BitVec 64 := BitVec.ofNat 64 (ofLeBytes (sub msg 8 16))

def payloadOf (msg : Bytes) : Bytes := msg.drop 16

/-- Returns whether this transport thinks we should rekey and the packet, maybe with padding. -/
def decrypt (t : Transport) (msg : Bytes) : Option (Bool × Bytes) × Transport :=
  if msg.length < 32 then (none, t)
  else if !t.notTooOld then (none, t)
  else if sub msg 0 4 ≠ [4, 0, 0, 0] then (none, t)
  else
    let counter := counterOf msg
    if counter ≥ REJECT_AFTER_MESSAGES then (none, t)
    else match ChaCha20Poly1305.decrypt c t.recvKey counter [] (payloadOf msg) with
      | none => (none, t)
      | some out =>
        let (ok, recvAr) := t.recvAr.checkAndUpdate counter
        let t := { t with recvAr }
        if !ok then (none, t)
        else if !t.isInitiator then (some (t.shouldHandshake, out.val), { t with hasReceived := true })
        else (some (false, out.val), t)

/-- What the header of a message must satisfy before it is opened. -/
def Admissible (t : Transport) (msg : Bytes) : Prop :=
  32 ≤ msg.length ∧ t.notTooOld = true ∧ sub msg 0 4 = [4, 0, 0, 0] ∧
    counterOf msg < REJECT_AFTER_MESSAGES

instance (t : Transport) (msg : Bytes) : Decidable (t.Admissible msg) :=
  inferInstanceAs (Decidable (_ ∧ _))

def accept (t : Transport) (counter : BitVec 64) : Transport :=
  { t with
    recvAr := t.recvAr.update counter
    hasReceived := t.hasReceived || !t.isInitiator }

/-- A message is accepted if it is admissible, opens, and passes the replay window;
otherwise the session is left as it was. -/
theorem decrypt_eq (t : Transport) (msg : Bytes) :
    t.decrypt c msg =
      match ChaCha20Poly1305.decrypt c t.recvKey (counterOf msg) [] (payloadOf msg) with
      | none => (none, t)
      | some out =>
        if t.Admissible msg ∧ t.recvAr.check (counterOf msg) = true then
          (some (!t.isInitiator && t.shouldHandshake, out.val), t.accept (counterOf msg))
        else (none, t) := by
  have rejected : counterOf msg ≥ REJECT_AFTER_MESSAGES ↔ ¬ counterOf msg < REJECT_AFTER_MESSAGES :=
    BitVec.not_lt.symm
  simp only [decrypt, AntiReplay.checkAndUpdate_eq, rejected, Admissible]
  cases opened : ChaCha20Poly1305.decrypt c t.recvKey (counterOf msg) [] (payloadOf msg) with
  | none => split_ifs <;> rfl
  | some out =>
    by_cases long : 32 ≤ msg.length
    swap
    · simp [long]
    by_cases young : t.notTooOld = true
    swap
    · simp [long, young]
    by_cases header : sub msg 0 4 = [4, 0, 0, 0]
    swap
    · simp [long, young, header]
    by_cases inRange : counterOf msg < REJECT_AFTER_MESSAGES
    swap
    · simp [long, young, header, inRange]
    by_cases passed : t.recvAr.check (counterOf msg) = true
    swap
    · simp only [Nat.not_lt.mpr long, young, header, inRange, passed]
      cases t
      simp_all
    · by_cases initiator : t.isInitiator = true <;>
        simp [long, young, header, inRange, passed, accept, initiator]

theorem decrypt_eq_some {t : Transport} {msg : Bytes} (accepted : (t.decrypt c msg).1 = some (h, out)) :
    t.Admissible msg ∧ t.recvAr.check (counterOf msg) = true ∧
    (∃ plain, ChaCha20Poly1305.decrypt c t.recvKey (counterOf msg) [] (payloadOf msg) = some plain ∧
      plain.val = out) ∧
    (t.decrypt c msg).2 = t.accept (counterOf msg) := by
  rw [decrypt_eq] at accepted ⊢
  cases opened : ChaCha20Poly1305.decrypt c t.recvKey (counterOf msg) [] (payloadOf msg) with
  | none => simp [opened] at accepted
  | some plain =>
    simp only [opened] at accepted ⊢
    split_ifs at accepted ⊢ with passes
    exact ⟨passes.1, passes.2, ⟨plain, rfl, (Prod.mk.inj (Option.some.inj accepted)).2⟩, rfl⟩

theorem decrypt_eq_none {t : Transport} {msg : Bytes} (refused : (t.decrypt c msg).1 = none) :
    (t.decrypt c msg).2 = t := by
  rw [decrypt_eq] at refused ⊢
  cases opened : ChaCha20Poly1305.decrypt c t.recvKey (counterOf msg) [] (payloadOf msg) with
  | none => rfl
  | some plain =>
    simp only [opened] at refused ⊢
    split_ifs at refused ⊢
    rfl

theorem decrypt_state (t : Transport) (msg : Bytes) :
    (t.decrypt c msg).2 = t ∨ (t.decrypt c msg).2 = t.accept (counterOf msg) := by
  cases result : (t.decrypt c msg).1 with
  | none => exact .inl (decrypt_eq_none c result)
  | some r => exact .inr (decrypt_eq_some c (show _ = some (r.1, r.2) from result)).2.2.2

theorem decrypt_unopened {t : Transport} {msg : Bytes}
    (unopened : ChaCha20Poly1305.decrypt c t.recvKey (counterOf msg) [] (payloadOf msg) = none) :
    t.decrypt c msg = (none, t) := by
  rw [decrypt_eq, unopened]

theorem decrypt_replayed {t : Transport} {msg : Bytes}
    (replayed : t.recvAr.check (counterOf msg) = false) : t.decrypt c msg = (none, t) := by
  rw [decrypt_eq, replayed]
  split <;> simp

section sealed

variable (t : Transport) (ctr : BitVec 64) (msg : Bytes)

@[simp] theorem sealed_length : (t.sealed c ctr msg).length = msg.length + 32 := by
  have id := t.peerId.property
  have body := (ChaCha20Poly1305.encrypt c t.sendKey ctr [] msg).property
  simp only [sealed, List.length_append, List.length_cons, List.length_nil, leBytes_length]
  omega

@[simp] theorem sealed_header : sub (t.sealed c ctr msg) 0 4 = [4, 0, 0, 0] := by
  simp [sealed, sub]

@[simp] theorem counterOf_sealed : counterOf (t.sealed c ctr msg) = ctr := by
  have id := t.peerId.property
  have field : sub (t.sealed c ctr msg) 8 16 = leBytes 8 ctr.toNat := by
    simp only [sealed, sub, List.append_assoc]
    rw [List.drop_append, List.drop_append, List.drop_of_length_le (by simp),
      List.drop_of_length_le (by simp [id])]
    simp [id]
  rw [counterOf, field, ofLeBytes_leBytes_of_lt ctr.isLt, BitVec.ofNat_toNat, BitVec.setWidth_eq]

@[simp] theorem payloadOf_sealed :
    payloadOf (t.sealed c ctr msg) = (ChaCha20Poly1305.encrypt c t.sendKey ctr [] msg).val := by
  have id := t.peerId.property
  simp only [payloadOf, sealed]
  rw [List.drop_append_of_le_length (by simp [id])]
  rw [List.drop_of_length_le (by simp [id]), List.nil_append]

end sealed

theorem encrypt_eq_some {t : Transport} {msg out : Bytes} (ok : (t.encrypt c msg).1.1 = some out) :
    t.sendCounter < REJECT_AFTER_MESSAGES ∧ out = t.sealed c t.sendCounter msg ∧
      (t.encrypt c msg).2 = { t with sendCounter := t.sendCounter + 1 } := by
  simp only [encrypt] at ok ⊢
  split_ifs at ok ⊢ with rejected
  exact ⟨BitVec.not_le.mp rejected, (Option.some.inj ok).symm, rfl⟩

theorem encrypt_eq_none {t : Transport} {msg : Bytes} (failed : (t.encrypt c msg).1.1 = none) :
    REJECT_AFTER_MESSAGES ≤ t.sendCounter ∧
      (t.encrypt c msg).2 = { t with sendCounter := t.sendCounter + 1, notTooOld := false } := by
  simp only [encrypt] at failed ⊢
  split_ifs at failed ⊢ with rejected
  exact ⟨rejected, rfl⟩

end Transport

end Titun
