import Titun.HandshakeMessages

/-! Both sides of a handshake agree: each reads what the other wrote, and their sessions fit
together. -/
namespace Titun

section Agreement

variable {HS : Type} (c : Crypto HS)

/-- Handshake wire agreement. The signed initiation passes the responder's checks and yields the
initiator's id, key and time; the signed response passes the initiator's checks and yields the
responder's id where both have the same pre-shared key, and the sessions of the two sides then fit
together; with another pre-shared key the response is refused. -/
theorem handshake_agreement (noise : Noise c) (wgI wgR : WgInfo) (peer : PeerInfo)
    (key : peer.publicKey = wgR.pubkey c) (idI idR : WgId) (ephemeralI ephemeralR : X25519Key)
    {now : TAI64N} (seconds : now.secs < 2 ^ 64) (nanos : now.nanos < 10 ^ 9)
    (cookieI cookieR : Option Cookie) {initiation : U8Array HANDSHAKE_INIT_LEN} {hsI : HS}
    (initiated : initiate c wgI peer idI ephemeralI now = some (initiation, hsI)) :
    verifyMac1 c wgR (cookieSign c initiation cookieI).val = .ok true ∧
    ∃ r, processInitiation c wgR (cookieSign c initiation cookieI).val = .ok (some r) ∧
      r.peerId = idI ∧ r.timestamp = truncateTimestamp now ∧
      c.getRs r.handshakeState = some (wgI.pubkey c) ∧
      ∀ (pskR : Option (U8Array 32)) (response : U8Array HANDSHAKE_RESP_LEN) (hsR : HS),
        responde c { r with handshakeState := c.pushPsk r.handshakeState (pskR.getD (zeros 32)) } idR
          ephemeralR = .ok (some (response, hsR)) →
        verifyMac1 c wgI (cookieSign c response cookieR).val = .ok true ∧
        (peer.psk.getD (zeros 32) = pskR.getD (zeros 32) → ∃ last,
          processResponse c hsI (cookieSign c response cookieR).val = .ok (some (idR, last)) ∧
          ∀ nowI nowR,
            (Transport.newFromHs c nowI idI idR last).sendKey =
              (Transport.newFromHs c nowR idR r.peerId hsR).recvKey ∧
            (Transport.newFromHs c nowI idI idR last).recvKey =
              (Transport.newFromHs c nowR idR r.peerId hsR).sendKey ∧
            (Transport.newFromHs c nowI idI idR last).peerId =
              (Transport.newFromHs c nowR idR r.peerId hsR).selfId ∧
            (Transport.newFromHs c nowR idR r.peerId hsR).peerId =
              (Transport.newFromHs c nowI idI idR last).selfId) ∧
        (peer.psk.getD (zeros 32) ≠ pskR.getD (zeros 32) →
          processResponse c hsI (cookieSign c response cookieR).val = .ok none) := by
  obtain ⟨first, write, built⟩ := initiate_eq c initiated
  obtain ⟨mac2, signed⟩ := cookieSign_eq c (by simp) built cookieI
  rw [key] at write signed
  obtain ⟨opened, read, known⟩ := noise.readsFirst write
  refine ⟨signed ▸ verifyMac1_withMac1 c wgR _ mac2, ⟨idI, truncateTimestamp now, opened⟩, ?_, rfl,
    rfl, known, ?_⟩
  · rw [signed]
    exact processInitiation_of_read c read seconds (truncateTimestamp_valid nanos)
  · intro pskR response hsR responded
    obtain ⟨second, rs, writeSecond, remote, builtSecond⟩ := responde_eq c responded
    have exchange : Exchange c wgI.key wgR.key (peer.psk.getD (zeros 32)) (pskR.getD (zeros 32)) hsI hsR
        second := ⟨_, first, opened, ephemeralI, ephemeralR, write, read, writeSecond⟩
    obtain rfl : rs = wgI.pubkey c := Option.some.inj (remote.symm.trans (noise.remoteKey exchange))
    obtain ⟨mac2R, signedSecond⟩ := cookieSign_eq c (by simp) builtSecond cookieR
    have answered : processResponse c hsI (cookieSign c response cookieR).val =
        .ok ((c.readMessage hsI second.val 0).map fun opened => (idR, opened.2)) := by
      rw [signedSecond]
      exact processResponse_eq c
    refine ⟨signedSecond ▸ verifyMac1_withMac1 c wgI _ mac2R, fun same => ?_, fun differ => ?_⟩
    · rw [← same] at exchange
      obtain ⟨out, last, readSecond, initiator, ciphers⟩ := noise.readsSecond exchange
      refine ⟨last, ?_, fun nowI nowR => ?_⟩
      · rw [answered, readSecond]
        rfl
      · simp [Transport.newFromHs, initiator, noise.responder exchange, ciphers]
    · rw [answered, noise.refusesPsk differ exchange]
      rfl

end Agreement

def sampleKeys : X25519Key × X25519Key := (fit [1] 32, fit [2] 32)

theorem handshake_agreement_symbolic : ∃ initiation hsI r,
    initiate .symbolic ⟨sampleKeys.1, 0, 0⟩ ⟨sampleKeys.2, none, none, ∅, none, true⟩ (zeros 4) (zeros 32)
      ⟨0, 0⟩ = some (initiation, hsI) ∧
    processInitiation .symbolic ⟨sampleKeys.2, 0, 0⟩ (cookieSign .symbolic initiation none).val =
      .ok (some r) ∧
    ∃ response hsR last, responde .symbolic
        { r with handshakeState := Crypto.symbolic.pushPsk r.handshakeState (zeros 32) } (fit [1] 4)
        (zeros 32) = .ok (some (response, hsR)) ∧
      processResponse .symbolic hsI (cookieSign .symbolic response none).val =
        .ok (some (fit [1] 4, last)) ∧
      (Transport.newFromHs .symbolic 0 (zeros 4) (fit [1] 4) last).sendKey =
        (Transport.newFromHs .symbolic 0 (fit [1] 4) r.peerId hsR).recvKey := by
  obtain ⟨initiation, hsI, initiated⟩ : ∃ initiation hsI,
      initiate .symbolic ⟨sampleKeys.1, 0, 0⟩ ⟨sampleKeys.2, none, none, ∅, none, true⟩ (zeros 4) (zeros 32)
        ⟨0, 0⟩ = some (initiation, hsI) := ⟨_, _, rfl⟩
  obtain ⟨_, r, processed, _, _, known, answers⟩ := handshake_agreement .symbolic Crypto.symbolic_noise
    ⟨sampleKeys.1, 0, 0⟩ ⟨sampleKeys.2, 0, 0⟩ ⟨sampleKeys.2, none, none, ∅, none, true⟩ rfl (zeros 4)
    (fit [1] 4) (zeros 32) (zeros 32) (by decide) (by decide) none none initiated
  obtain ⟨response, hsR, responded⟩ : ∃ response hsR, responde .symbolic
      { r with handshakeState := Crypto.symbolic.pushPsk r.handshakeState (zeros 32) } (fit [1] 4)
      (zeros 32) = .ok (some (response, hsR)) := by
    obtain ⟨noise, written⟩ := SymbolicHs.writes
      (Crypto.symbolic.pushPsk r.handshakeState (zeros 32)) (zeros 32) [] 48
    obtain ⟨response, responded⟩ := responde_of_written .symbolic
      (r := { r with handshakeState := Crypto.symbolic.pushPsk r.handshakeState (zeros 32) }) written known
    exact ⟨response, _, responded⟩
  obtain ⟨_, agrees, _⟩ := answers none response hsR responded
  obtain ⟨last, completed, fits⟩ := agrees rfl
  exact ⟨initiation, hsI, r, initiated, processed, response, hsR, last, responded, completed, (fits 0 0).1⟩

end Titun
