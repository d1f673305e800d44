import Titun.CookieMemory
import Titun.Schedule

/-! A cookie comes back: the message after a cookie reply is served by a side that is under load. -/
namespace Titun

variable {HS : Type} (c : Crypto HS)

section Promises

/-- Opening undoes sealing, for the same key, nonce and associated data. -/
def XChaCha20Poly1305.OpensSealed : Prop :=
  ∀ (key : U8Array 32) (nonce : U8Array 24) (ad p : Bytes), ∃ plain,
    decrypt c key nonce ad (encrypt c key nonce ad p).val = some plain ∧ plain.val = p

/-- A handshake state keeps the key of the other side. -/
structure KeepsRemote : Prop where
  pushPsk : ∀ hs psk, c.getRs (c.pushPsk hs psk) = c.getRs hs
  write : ∀ {hs ephemeral payload outLen out next}, c.writeMessage hs ephemeral payload outLen = some (out, next) →
    c.getRs next = c.getRs hs

end Promises

section Replies

variable {c}

theorem processCookieReply_cookieReply (opens : XChaCha20Poly1305.OpensSealed c) (pubkey : X25519Pubkey)
    (cookie : Cookie) (index : WgId) (mac1 : U8Array 16) (nonce : U8Array 24) :
    processCookieReply c pubkey mac1 (cookieReply c pubkey cookie index mac1 nonce).val = .ok (some cookie) := by
  obtain ⟨plain, opened, value⟩ := opens (cookieKey c pubkey) nonce mac1.val cookie.val
  generalize made : (cookieReply c pubkey cookie index mac1 nonce).val = msg
  have parts : [3, 0, 0, 0] ++ index.val ++ nonce.val ++
      (XChaCha20Poly1305.encrypt c (cookieKey c pubkey) nonce mac1.val cookie.val).val = msg := made
  have length : msg.length = 64 := by
    rw [← made]
    exact U8Array.length_val _
  have header : msg.take 4 = [3, 0, 0, 0] := by
    rw [← parts, List.append_assoc, List.append_assoc]
    rfl
  have nonceSlice : sliceArray msg 8 24 = .ok nonce :=
    sliceArray_append (x := [3, 0, 0, 0] ++ index.val) (by rw [← parts, List.append_assoc]) (by simp)
  let ciphertext : U8Array 32 :=
    ⟨(XChaCha20Poly1305.encrypt c (cookieKey c pubkey) nonce mac1.val cookie.val).val, by simp⟩
  have ctSlice : sliceArray msg 32 32 = .ok ciphertext :=
    sliceArray_append (x := [3, 0, 0, 0] ++ index.val ++ nonce.val) (z := []) (by rw [← parts, List.append_nil])
      (by simp)
  have result : XChaCha20Poly1305.decrypt c (cookieKey c pubkey) nonce mac1.val ciphertext.val = some plain := opened
  simp only [processCookieReply, length, header, ne_eq, not_true, if_false, nonceSlice, ctSlice, ok_bind, result]
  exact congrArg (fun x => Except.ok (some x)) (Subtype.ext value)

theorem cookieReply_index (pubkey : X25519Pubkey) (cookie : Cookie) (index : WgId) (mac1 : U8Array 16)
    (nonce : U8Array 24) : sliceArray (cookieReply c pubkey cookie index mac1 nonce).val 4 4 = .ok index := by
  apply sliceArray_append (x := [3, 0, 0, 0]) (z := nonce.val ++
    (XChaCha20Poly1305.encrypt c (cookieKey c pubkey) nonce mac1.val cookie.val).val)
  · exact (List.append_assoc _ _ _).trans (List.append_assoc _ _ _)
  · rfl

end Replies

namespace Signed

variable {c} {publicKey : X25519Pubkey} {cookie : Option Cookie} {index : WgId} {m : Bytes}

theorem shape (signed : Signed c publicKey cookie index m) :
    m.getD 0 0 = 1 ∧ m.length = HANDSHAKE_INIT_LEN ∨ m.getD 0 0 = 2 ∧ m.length = HANDSHAKE_RESP_LEN := by
  obtain ⟨type, rest, kind, rfl⟩ := signed
  rcases kind with ⟨rfl, size⟩ | ⟨rfl, size⟩
  · refine .inl ⟨rfl, ?_⟩
    simp [withMac1, size, HANDSHAKE_INIT_LEN]
  · refine .inr ⟨rfl, ?_⟩
    simp [withMac1, size, HANDSHAKE_RESP_LEN]

theorem index_eq (signed : Signed c publicKey cookie index m) : sliceArray m 4 4 = .ok index := by
  obtain ⟨type, rest, _, rfl⟩ := signed
  apply sliceArray_append (x := [type, 0, 0, 0])
  · rw [withMac1, List.append_assoc, List.append_assoc, List.append_assoc]
  · rfl

theorem verifies (signed : Signed c publicKey cookie index m) {wg : WgInfo} (same : wg.pubkey c = publicKey) :
    verifyMac1 c wg m = .ok true := by
  obtain ⟨type, rest, _, rfl⟩ := signed
  rw [← same]
  exact verifyMac1_withMac1 c wg _ _

theorem cookieVerifies {cookie : Cookie} (signed : Signed c publicKey (some cookie) index m) :
    cookieVerify c m cookie = .ok true := by
  obtain ⟨type, rest, _, made⟩ := signed
  generalize withMac1 c publicKey ([type, 0, 0, 0] ++ (index.val ++ rest)) = data at made
  have long : ¬m.length < 16 := by
    rw [made]
    simp
  have position : m.length - 16 = data.length := by
    rw [made]
    simp
  have last : sliceArray m data.length 16 = .ok (mac2 c (some cookie) data) :=
    sliceArray_append (z := []) (by rw [made, List.append_nil]) rfl
  have front : m.take data.length = data := by
    rw [made, List.take_left' rfl]
  simp only [cookieVerify, if_neg long, position, last, front, ok_bind]
  exact congrArg Except.ok (constantTimeEq16_self _)

end Signed

namespace WgState

variable {c} {wg : WgState HS} {env : Env} {m : Bytes} {a : SocketAddrV6}

def handshakeLen (m : Bytes) : Nat := if m.getD 0 0 = 1 then HANDSHAKE_INIT_LEN else HANDSHAKE_RESP_LEN

theorem checkMessage_rejects (size : m.length = len) (valid : verifyMac1 c wg.info m = .ok true)
    (load : (wg.checkHandshakeLoad env).1 = true)
    (rejects : cookieVerify c m (calcCookie c wg.cookieSecret.val a.octets) = .ok false)
    (indexed : sliceArray m 4 4 = .ok index) (mac1Of : getMac1 m = .ok mac1) :
    wg.checkMessage c env m a len = .ok (.reply (cookieReply c (wg.info.pubkey c)
      (calcCookie c wg.cookieSecret.val a.octets) index mac1 env.nonce), (wg.checkHandshakeLoad env).2) := by
  obtain ⟨underLoad, loadMonitor, check⟩ := checkHandshakeLoad_eq wg env
  rw [check] at load ⊢
  obtain rfl : underLoad = true := load
  simp only [checkMessage, size, ne_eq, not_true, if_false, valid, ok_bind, Bool.not_true, Bool.false_eq_true, check,
    if_true, rejects, Bool.not_false, indexed, mac1Of]
  rfl

theorem checkMessage_serves (size : m.length = len) (valid : verifyMac1 c wg.info m = .ok true)
    (verifies : cookieVerify c m (calcCookie c wg.cookieSecret.val a.octets) = .ok true) :
    wg.checkMessage c env m a len = .ok (.pass, (wg.checkHandshakeLoad env).2) := by
  obtain ⟨underLoad, loadMonitor, check⟩ := checkHandshakeLoad_eq wg env
  rw [check]
  simp only [checkMessage, size, ne_eq, not_true, if_false, valid, ok_bind, Bool.not_true, Bool.false_eq_true, check]
  cases underLoad with
  | false => rfl
  | true =>
    simp only [verifies, if_true]
    rfl

/-- Under load, a cookie reply is all that a message without a valid `mac2` gets. -/
theorem udpProcessing_rejects (signed : Signed c publicKey cookie index m)
    (valid : verifyMac1 c wg.info m = .ok true) (load : (wg.checkHandshakeLoad env).1 = true)
    (rejects : cookieVerify c m (calcCookie c wg.cookieSecret.val a.octets) = .ok false)
    (mac1Of : getMac1 m = .ok mac1) :
    wg.udpProcessing c env m a = .ok ((wg.checkHandshakeLoad env).2, [.sendTo (cookieReply c (wg.info.pubkey c)
      (calcCookie c wg.cookieSecret.val a.octets) index mac1 env.nonce).val a]) := by
  have whole : m.take BUFSIZE = m := by
    apply List.take_of_length_le
    rcases signed.shape with ⟨_, size⟩ | ⟨_, size⟩ <;> rw [size] <;> decide
  rcases signed.shape with ⟨type, size⟩ | ⟨type, size⟩
  · have long : ¬m.length < 12 := by
      rw [size]
      decide
    simp only [udpProcessing, whole, if_neg long, type, if_true, udpProcessHandshakeInit,
      checkMessage_rejects size valid load rejects signed.index_eq mac1Of, ok_bind, pure_eq_ok]
  · have long : ¬m.length < 12 := by
      rw [size]
      decide
    have response : ¬(2 : UInt8) = 1 := by decide
    simp only [udpProcessing, whole, if_neg long, type, if_neg response, if_true, udpProcessHandshakeResp,
      checkMessage_rejects size valid load rejects signed.index_eq mac1Of, ok_bind, pure_eq_ok]

end WgState

section Answering

variable {c}

theorem WgState.receive_accepts {wg next : WgState HS} (ok : wg.receive c env datagram addr = .ok (next, task))
    (member : .accept p source r peer ∈ task) :
    ∃ rs, c.getRs r.handshakeState = some rs ∧ wg.pubkeyMap.get rs = some peer := by
  have nothing {middle : WgState HS} (ok : (Except.ok (middle, []) : Exec _) = .ok (next, task)) : False := by
    obtain ⟨_, rfl⟩ := Prod.mk.inj (Except.ok.inj ok)
    cases member
  have other {middle : WgState HS} {sec : Section HS} (ok : (Except.ok (middle, [sec]) : Exec _) = .ok (next, task))
      (differs : .accept p source r peer ≠ sec) : False := by
    obtain ⟨_, rfl⟩ := Prod.mk.inj (Except.ok.inj ok)
    exact differs (List.mem_singleton.mp member)
  simp only [receive] at ok
  generalize datagram.take BUFSIZE = p' at ok
  split_ifs at ok with short one two three four long
  · exact (nothing ok).elim
  · obtain ⟨checked, loadMonitor, check, _⟩ :=
      checkMessage_spec c wg env p' addr (show 32 ≤ HANDSHAKE_INIT_LEN by decide)
    rw [check, ok_bind] at ok
    cases checked with
    | drop => exact (nothing ok).elim
    | reply msg => exact (nothing ok).elim
    | pass =>
      obtain ⟨result, processed, ok⟩ := bind_eq_ok.mp ok
      cases result with
      | none => exact (nothing ok).elim
      | some opened =>
        obtain ⟨rs, known, ok⟩ := bind_eq_ok.mp ok
        cases found : findPeerByPubkey { wg with loadMonitor } rs with
        | none =>
          rw [found] at ok
          exact (nothing ok).elim
        | some listed =>
          rw [found] at ok
          obtain ⟨_, rfl⟩ := Prod.mk.inj (Except.ok.inj ok)
          obtain ⟨rfl, rfl, rfl, rfl⟩ := Section.accept.inj (List.mem_singleton.mp member)
          exact ⟨rs, unwrap_eq_ok.mp known, found⟩
  · obtain ⟨checked, loadMonitor, check, _⟩ :=
      checkMessage_spec c wg env p' addr (show 32 ≤ HANDSHAKE_RESP_LEN by decide)
    rw [check, ok_bind] at ok
    cases checked with
    | drop => exact (nothing ok).elim
    | reply msg => exact (nothing ok).elim
    | pass =>
      obtain ⟨index, _, ok⟩ := bind_eq_ok.mp ok
      split at ok
      · exact (nothing ok).elim
      · exact (other ok (by simp)).elim
  · obtain ⟨index, _, ok⟩ := bind_eq_ok.mp ok
    split at ok
    · exact (nothing ok).elim
    · exact (other ok (by simp)).elim
  · exact (nothing ok).elim
  · obtain ⟨index, _, ok⟩ := bind_eq_ok.mp ok
    split at ok
    · exact (nothing ok).elim
    · exact (other ok (by simp)).elim
  · exact (nothing ok).elim

theorem Op.begin_accepts_known {op : Op} {wg next : WgState HS} (ok : op.begin c env wg = .ok (next, task))
    (member : .accept p source r peer ∈ task) :
    ∃ rs, c.getRs r.handshakeState = some rs ∧ wg.pubkeyMap.get rs = some peer := by
  rcases begin_plain c ok member with ⟨bytes, addr, rfl⟩ | ⟨order, key, rfl⟩ | ⟨reads, _⟩
  · exact WgState.receive_accepts ok member
  · obtain ⟨_, rfl⟩ := begin_does c ok
    simp at member
  · exact absurd trivial reads

end Answering

namespace Program

/-- The step makes a handshake message for a peer, and sends it. -/
inductive Sends (s : Program HS) (l : Label) (ref : PeerRef) (m : Bytes) : Prop where
  | initiation {loop : ResendLoop} {wg : WgState HS} {outputs : List Output} {target : SocketAddrV6} :
    l.event = .start (.resend loop) → loop.peer = ref → s.wg.resendIteration c l.env loop = .ok (wg, outputs) →
      .sendTo m target ∈ outputs → Sends s l ref m
  | response {p : Bytes} {addr : SocketAddrV6} {r : InitProcessResult HS} {rest : List (Section HS)}
    {wg : WgState HS} {outputs : List Output} {target : SocketAddrV6} :
    l.event = .proceed → s.tasks l.task = .accept p addr r ref :: rest →
      s.wg.acceptInitiation c l.env p addr r ref = .ok (wg, outputs) → .sendTo m target ∈ outputs →
      Sends s l ref m

/-- The step takes a cookie from a peer. -/
def Learns (s : Program HS) (l : Label) (ref : PeerRef) (cookie : Cookie) : Prop :=
  l.event = .proceed ∧ ∃ p rest, s.tasks l.task = .cookie p ref :: rest ∧ s.wg.LearnsCookie c p ref cookie

/-- The map of public keys leads to peers with these keys, and so did the initiations that are opened. -/
structure Faithful (s : Program HS) : Prop where
  sound : s.Sound
  listed : ∀ pk ref, s.wg.pubkeyMap.get pk = some ref → (s.wg.peers ref).info.publicKey = pk
  answering : ∀ i p addr r peer, .accept p addr r peer ∈ s.tasks i →
    c.getRs r.handshakeState = some (s.wg.peers peer).info.publicKey

theorem start_faithful (info : WgInfo) (secret : U8Array 32) (mtu : BitVec 32) (now : Instant) :
    Faithful c (start info secret mtu now) where
  sound := start_sound info secret mtu now
  listed := by simp [start, WgState.new]
  answering := by simp [start]

variable {c} {s next : Program HS} {l : Label}

theorem Step.remembers (step : Step c s l next) (known : ref < s.wg.nextPeer) :
    (next.wg.peers ref).info.publicKey = (s.wg.peers ref).info.publicKey ∧
    ((∀ m, ¬ s.Sends c l ref m) → (next.wg.peers ref).lastMac1 = (s.wg.peers ref).lastMac1) ∧
    ((∀ cookie, ¬ s.Learns c l ref cookie) → (next.wg.peers ref).cookie = (s.wg.peers ref).cookie) := by
  have all (recalls : (s.wg.peers ref).Recalls (next.wg.peers ref)) :
      (next.wg.peers ref).info.publicKey = (s.wg.peers ref).info.publicKey ∧
      ((∀ m, ¬ s.Sends c l ref m) → (next.wg.peers ref).lastMac1 = (s.wg.peers ref).lastMac1) ∧
      ((∀ cookie, ¬ s.Learns c l ref cookie) → (next.wg.peers ref).cookie = (s.wg.peers ref).cookie) :=
    ⟨recalls.publicKey, fun _ => recalls.lastMac1, fun _ => recalls.cookie⟩
  cases step with
  | @start i op env wg task idle enabled ok =>
    rcases Op.begin_recalls c ok with ⟨loop, outputs, rfl, resent⟩ | recalls
    · rcases WgState.resendIteration_recalls c resent with ⟨_, recalls⟩ | ⟨m, target, mac1, _, _, rfl, recalls⟩
      · exact all (recalls ref)
      · by_cases same : ref = loop.peer
        · subst same
          have own := recalls.here
          refine ⟨own.publicKey, fun silent => ?_, fun _ => own.cookie⟩
          exact absurd (.initiation rfl rfl resent List.mem_cons_self) (silent m)
        · exact all (recalls.elsewhere same)
    · exact all (recalls ref)
  | @proceed i sec rest more env wg head free ok =>
    rcases Section.run_recalls c ok with
      ⟨p, addr, r, peer, outputs, rfl, accepted⟩ | ⟨p, peer, rfl, accepted⟩ | ⟨pk, rfl, rfl⟩ | recalls
    · rcases WgState.acceptInitiation_recalls c accepted with
        ⟨_, recalls⟩ | ⟨m, psk, noise, hs, rs, mac1, _, _, _, _, rfl, recalls⟩
      · exact all (recalls ref)
      · by_cases same : ref = peer
        · subst same
          have own := recalls.here
          refine ⟨own.publicKey, fun silent => ?_, fun _ => own.cookie⟩
          exact absurd (.response rfl head accepted List.mem_cons_self) (silent m)
        · exact all (recalls.elsewhere same)
    · rcases WgState.acceptCookieReply_recalls c accepted with ⟨_, recalls⟩ | ⟨cookie, learns, recalls⟩
      · exact all (recalls ref)
      · by_cases same : ref = peer
        · subst same
          have own := recalls.here
          refine ⟨own.publicKey, fun _ => own.lastMac1, fun deaf => ?_⟩
          exact absurd ⟨rfl, p, rest, head, learns⟩ (deaf cookie)
        · exact all (recalls.elsewhere same)
    · apply all
      unfold WgState.addPeer
      split_ifs
      · exact .refl _
      · have apart : ref ≠ s.wg.nextPeer := known.ne
        simp only [Function.update_of_ne apart]
        exact .refl _
    · exact all (recalls ref)

theorem Step.learns (step : Step c s l next) (learns : s.Learns c l ref cookie) :
    (next.wg.peers ref).cookie = some (cookie, l.env.now) := by
  obtain ⟨proceeds, p, tail, head, mac1, remembered, opens⟩ := learns
  cases step with
  | start idle enabled ok => cases proceeds
  | proceed first free ok =>
    obtain ⟨rfl, rfl⟩ := List.cons.inj (head.symm.trans first)
    obtain ⟨_, accepted, ok⟩ := bind_eq_ok.mp ok
    obtain ⟨rfl, _⟩ := Prod.mk.inj (Except.ok.inj ok)
    rcases WgState.acceptCookieReply_recalls c accepted with ⟨deaf, _⟩ | ⟨other, ⟨mac1', same, opens'⟩, recalls⟩
    · exact absurd ⟨mac1, remembered, opens⟩ (deaf cookie)
    · obtain rfl := Option.some.inj (remembered.symm.trans same)
      obtain rfl := Option.some.inj (Except.ok.inj (opens.symm.trans opens'))
      exact recalls.here.cookie

theorem Faithful.step (faithful : s.Faithful c) (step : Step c s l next) : next.Faithful c := by
  obtain ⟨sound, more⟩ := step.sound c faithful.sound
  have key {peer : PeerRef} (known : peer < s.wg.nextPeer) :
      (next.wg.peers peer).info.publicKey = (s.wg.peers peer).info.publicKey := (step.remembers known).1
  have kept (pk : X25519Pubkey) (peer : PeerRef) (found : s.wg.pubkeyMap.get pk = some peer) :
      (next.wg.peers peer).info.publicKey = pk :=
    (key (faithful.sound.wg.keys pk peer found)).trans (faithful.listed pk peer found)
  have waits {i : Nat} {p : Bytes} {addr : SocketAddrV6} {r : InitProcessResult HS} {peer : PeerRef}
      (member : .accept p addr r peer ∈ s.tasks i) :
      c.getRs r.handshakeState = some (next.wg.peers peer).info.publicKey := by
    rw [key ((faithful.sound.tasks i _ member).1 peer rfl)]
    exact faithful.answering i p addr r peer member
  cases step with
  | @start i op env wg task idle enabled ok =>
    refine ⟨sound, ?_, ?_⟩
    · intro pk peer found
      have same : wg.pubkeyMap = s.wg.pubkeyMap := (Op.begin_keeps c ok).2.1
      exact kept pk peer (same ▸ found)
    · intro j p addr r peer member
      rcases mem_update member with ⟨_, new⟩ | ⟨_, old⟩
      · obtain ⟨rs, known, found⟩ := Op.begin_accepts_known ok new
        rw [known, kept rs peer found]
      · exact waits old
  | @proceed i sec rest later env wg head free ok =>
    refine ⟨sound, ?_, ?_⟩
    · intro pk peer found
      rcases Section.run_becomes c ok with ⟨_, _, _, becomes⟩ | ⟨k, _, rfl⟩ | ⟨k, _, rfl | rfl⟩ | ⟨k, _, rfl⟩
      · exact kept pk peer (becomes.pubkeyMap ▸ found)
      · unfold WgState.addPeer at found ⊢
        split_ifs at found ⊢
        · exact faithful.listed pk peer found
        · rw [HashMap.get_insert] at found
          split_ifs at found with same
          · subst same
            obtain rfl := Option.some.inj found
            simp [PeerState.new]
          · have apart : peer ≠ s.wg.nextPeer := (faithful.sound.wg.keys pk peer found).ne
            simp only [Function.update_of_ne apart]
            exact faithful.listed pk peer found
      · exact kept pk peer found
      · rw [HashMap.get_remove] at found
        split_ifs at found
        exact kept pk peer found
      · exact kept pk peer found
    · intro j p addr r peer member
      rcases mem_update member with ⟨_, new⟩ | ⟨_, old⟩
      · rcases List.mem_append.mp new with leads | old
        · cases Section.run_leads c ok _ leads
        · exact waits (head ▸ List.mem_cons_of_mem _ old)
      · exact waits old

theorem Sends.signed (remote : KeepsRemote c) (faithful : s.Faithful c) (step : Step c s l next)
    (sends : s.Sends c l ref m) : ref < s.wg.nextPeer ∧
      Signed c (s.wg.peers ref).info.publicKey ((s.wg.peers ref).getCookie l.env.now) l.env.id m ∧
      ∃ mac1, getMac1 m = .ok mac1 ∧ (next.wg.peers ref).lastMac1 = some mac1 := by
  cases sends with
  | initiation starts same resent sent =>
    subst same
    cases step with
    | proceed head free ok => cases starts
    | start idle enabled ok =>
      cases starts
      obtain ⟨⟨_, _⟩, again, ok⟩ := bind_eq_ok.mp ok
      obtain ⟨rfl, _⟩ := Prod.mk.inj (Except.ok.inj ok)
      obtain ⟨rfl, rfl⟩ := Prod.mk.inj (Except.ok.inj (again.symm.trans resent))
      refine ⟨faithful.sound.wg.loops _ enabled.1, ?_⟩
      rcases WgState.resendIteration_recalls c resent with ⟨rfl, _⟩ | ⟨m', target, mac1, signed, mac1Of, rfl, recalls⟩
      · cases sent
      · cases List.mem_singleton.mp sent
        exact ⟨signed, mac1, mac1Of, recalls.here.lastMac1⟩
  | @response p addr r rest wg outputs target proceeds waits accepted sent =>
    cases step with
    | start idle enabled ok => cases proceeds
    | proceed head free ok =>
      obtain ⟨rfl, rfl⟩ := List.cons.inj (waits.symm.trans head)
      have member : .accept p addr r ref ∈ s.tasks _ := waits ▸ List.mem_cons_self
      obtain ⟨⟨_, _⟩, again, ok⟩ := bind_eq_ok.mp ok
      obtain ⟨rfl, _⟩ := Prod.mk.inj (Except.ok.inj ok)
      obtain ⟨rfl, rfl⟩ := Prod.mk.inj (Except.ok.inj (again.symm.trans accepted))
      refine ⟨(faithful.sound.tasks _ _ member).1 ref rfl, ?_⟩
      rcases WgState.acceptInitiation_recalls c accepted with
        ⟨rfl, _⟩ | ⟨m', psk, noise, hs, rs, mac1, written, known, signed, mac1Of, rfl, recalls⟩
      · cases sent
      · cases List.mem_singleton.mp sent
        have same : rs = (s.wg.peers ref).info.publicKey := by
          have before := faithful.answering _ p addr r ref member
          rw [remote.write written, remote.pushPsk, before] at known
          exact (Option.some.inj known).symm
        exact ⟨same ▸ signed, mac1, mac1Of, recalls.here.lastMac1⟩

variable (c) in
/-- A step that sends a peer no handshake message. -/
def Silent (ref : PeerRef) (s : Program HS) (l : Label) (next : Program HS) : Prop :=
  Step c s l next ∧ ∀ m, ¬ s.Sends c l ref m

variable (c) in
/-- Moreover, no cookie but this one is taken from the peer, and no clock goes back. -/
def Unreplaced (ref : PeerRef) (cookie : Cookie) (since : Instant) (s : Program HS) (l : Label)
    (next : Program HS) : Prop :=
  Silent c ref s l next ∧ ∀ other, s.Learns c l ref other → other = cookie ∧ since ≤ l.env.now

variable (c) in
/-- The peer is there, has this key and was last sent a message with this `mac1`. -/
structure Sent (ref : PeerRef) (publicKey : X25519Pubkey) (mac1 : U8Array 16) (s : Program HS) : Prop where
  faithful : s.Faithful c
  known : ref < s.wg.nextPeer
  publicKey : (s.wg.peers ref).info.publicKey = publicKey
  lastMac1 : (s.wg.peers ref).lastMac1 = some mac1

theorem Sent.silent (sent : s.Sent c ref pk mac1) (silent : Silent c ref s l next) : next.Sent c ref pk mac1 := by
  obtain ⟨step, nothing⟩ := silent
  obtain ⟨key, keeps, _⟩ := step.remembers sent.known
  constructor
  · exact sent.faithful.step step
  · exact sent.known.trans_le (step.sound c sent.faithful.sound).2
  · exact key.trans sent.publicKey
  · exact (keeps nothing).trans sent.lastMac1

variable (c) in
/-- The peer is there, has this key and gave this cookie not before some time. -/
structure Holds (ref : PeerRef) (publicKey : X25519Pubkey) (cookie : Cookie) (since : Instant) (s : Program HS) :
    Prop where
  faithful : s.Faithful c
  known : ref < s.wg.nextPeer
  publicKey : (s.wg.peers ref).info.publicKey = publicKey
  cookie : ∃ received, since ≤ received ∧ (s.wg.peers ref).cookie = some (cookie, received)

theorem Holds.unreplaced (holds : s.Holds c ref pk given since)
    (unreplaced : Unreplaced c ref given since s l next) : next.Holds c ref pk given since := by
  obtain ⟨⟨step, _⟩, only⟩ := unreplaced
  obtain ⟨key, _, keeps⟩ := step.remembers holds.known
  constructor
  · exact holds.faithful.step step
  · exact holds.known.trans_le (step.sound c holds.faithful.sound).2
  · exact key.trans holds.publicKey
  · by_cases learns : ∃ other, s.Learns c l ref other
    · obtain ⟨other, learns⟩ := learns
      obtain ⟨rfl, later⟩ := only other learns
      exact ⟨l.env.now, later, step.learns learns⟩
    · obtain ⟨received, later, cookie⟩ := holds.cookie
      exact ⟨received, later, (keeps (not_exists.mp learns)).trans cookie⟩

theorem Holds.getCookie (holds : s.Holds c ref pk given since) (recent : now - since < secs 120) :
    (s.wg.peers ref).getCookie now = some given := by
  obtain ⟨received, later, cookie⟩ := holds.cookie
  have young : ¬now - received ≥ secs 120 := not_le.mpr ((Nat.sub_le_sub_left later now).trans_lt recent)
  simp only [PeerState.getCookie, cookie, if_neg young]

variable (c) in
/-- A task takes in a datagram, and opens it some time later. -/
def TakesIn (ref : PeerRef) (bytes : Bytes) (opened : Env) (s last : Program HS) : Prop :=
  ∃ i source got labels middle later, Step c s ⟨i, .start (.datagram bytes source), got⟩ middle ∧
    Transition.Run (fun s l next => Silent c ref s l next ∧ l.task ≠ i) middle labels later ∧
    Step c later ⟨i, .proceed, opened⟩ last

theorem cookieReply_isCookieReply (pubkey : X25519Pubkey) (cookie : Cookie) (index : WgId) (mac1 : U8Array 16)
    (nonce : U8Array 24) : IsCookieReply (cookieReply c pubkey cookie index mac1 nonce).val := by
  have size := (cookieReply c pubkey cookie index mac1 nonce).property
  constructor
  · apply List.take_of_length_le
    rw [size]
    decide
  · rw [size]
    decide
  · rfl

theorem begin_cookie {wg : WgState HS} {env : Env} (reply : IsCookieReply p) (indexed : sliceArray p 4 4 = .ok index)
    (found : wg.idMap.get index = some ref) (source : SocketAddrV6) :
    (Op.datagram p source).begin c env wg = .ok (wg, [.cookie p ref]) := by
  have long : ¬p.length < 12 := Nat.not_lt.mpr reply.long
  have notFirst : ¬(3 : UInt8) = 1 := by decide
  have notSecond : ¬(3 : UInt8) = 2 := by decide
  have lookup : wg.findPeerById index = some ref := found
  simp only [Op.begin, WgState.receive, reply.whole, if_neg long, reply.type, if_neg notFirst, if_neg notSecond,
    if_true, indexed, ok_bind, lookup, pure_eq_ok]

theorem TakesIn.opens (takesIn : TakesIn c ref p opened s last) (sent : s.Sent c ref publicKey mac1)
    (reply : IsCookieReply p) (indexed : sliceArray p 4 4 = .ok index) (found : s.wg.idMap.get index = some ref) :
    ∃ later i, Step c later ⟨i, .proceed, opened⟩ last ∧ later.tasks i = [.cookie p ref] ∧
      later.Sent c ref publicKey mac1 := by
  obtain ⟨i, source, seen, labels, middle, later, starts, waits, ends⟩ := takesIn
  have queued : middle.tasks i = [.cookie p ref] := by
    cases starts with
    | start idle enabled ok =>
      rw [begin_cookie reply indexed found] at ok
      obtain ⟨rfl, rfl⟩ := Prod.mk.inj (Except.ok.inj ok)
      exact Function.update_self ..
  have received : middle.Sent c ref publicKey mac1 := by
    apply sent.silent ⟨starts, ?_⟩
    intro m sends
    cases sends with
    | initiation starts => cases starts
    | response proceeds => cases proceeds
  have stays : later.tasks i = [.cookie p ref] ∧ later.Sent c ref publicKey mac1 := by
    apply waits.invariant (fun t => t.tasks i = [.cookie p ref] ∧ t.Sent c ref publicKey mac1) ?_ ⟨queued, received⟩
    rintro _ _ _ ⟨same, sent⟩ ⟨silent, apart⟩
    exact ⟨(silent.1.idle apart.symm).trans same, sent.silent silent⟩
  exact ⟨later, i, ends, stays⟩

end Program

open Program in
/-- The cookie reply to a message carries its sender id. Once it has come back, the cookie is stored, and
while no other one replaces it, the next message is served under load as well. -/
theorem cookie_round_trip (opens : XChaCha20Poly1305.OpensSealed c) (remote : KeepsRemote c) {info : WgInfo}
    {secret : U8Array 32} {mtu : BitVec 32} {now : Instant} {s sent : Program HS} {l : Label} {ref : PeerRef}
    {m : Bytes} {other : WgState HS} {env : Env} {a : SocketAddrV6}
    (run : Transition.Run (Step c) (start info secret mtu now) labels s)
    (step : Step c s l sent) (sends : s.Sends c l ref m)
    (isOther : (s.wg.peers ref).info.publicKey = other.info.pubkey c)
    (load : (other.checkHandshakeLoad env).1 = true) (valid : verifyMac1 c other.info m = .ok true)
    (rejects : cookieVerify c m (calcCookie c other.cookieSecret.val a.octets) = .ok false) :
    ∃ (index : WgId) (reply : U8Array 64) (after : WgState HS), sliceArray m 4 4 = .ok index ∧
      sliceArray reply.val 4 4 = .ok index ∧
      other.udpProcessing c env m a = .ok (after, [.sendTo reply.val a]) ∧
      ∀ {labels : List Label} {s got : Program HS} {opened : Env},
        Transition.Run (Silent c ref) sent labels s → s.wg.idMap.get index = some ref →
        TakesIn c ref reply.val opened s got →
        (got.wg.peers ref).cookie = some (calcCookie c other.cookieSecret.val a.octets, opened.now) ∧
        ∀ {labels : List Label} {s next : Program HS} {l : Label} {m : Bytes} {other' : WgState HS} {env : Env}
          {a' : SocketAddrV6},
          Transition.Run (Unreplaced c ref (calcCookie c other.cookieSecret.val a.octets) opened.now) got labels s →
          Step c s l next → s.Sends c l ref m → l.env.now - opened.now < secs 120 →
          other'.cookieSecret = other.cookieSecret → other'.info.pubkey c = other.info.pubkey c → a'.ip = a.ip →
          verifyMac1 c other'.info m = .ok true ∧
          cookieVerify c m (calcCookie c other'.cookieSecret.val a'.octets) = .ok true ∧
          other'.checkMessage c env m a' (WgState.handshakeLen m) =
            .ok (.pass, (other'.checkHandshakeLoad env).2) := by
  have faithful : s.Faithful c :=
    run.invariant (Faithful c) (fun _ _ _ faithful step => faithful.step step) (start_faithful c info secret mtu now)
  obtain ⟨known, signed, mac1, mac1Of, remembered⟩ := sends.signed remote faithful step
  have first : sent.Sent c ref (other.info.pubkey c) mac1 := by
    constructor
    · exact faithful.step step
    · exact known.trans_le (step.sound c faithful.sound).2
    · exact (step.remembers known).1.trans isOther
    · exact remembered
  refine ⟨l.env.id, cookieReply c (other.info.pubkey c) (calcCookie c other.cookieSecret.val a.octets) l.env.id mac1
    env.nonce, (other.checkHandshakeLoad env).2, signed.index_eq, cookieReply_index _ _ _ _ _,
    WgState.udpProcessing_rejects signed valid load rejects mac1Of, ?_⟩
  intro labels s got opened silent found takesIn
  have atReceipt : s.Sent c ref (other.info.pubkey c) mac1 :=
    silent.invariant (Sent c ref (other.info.pubkey c) mac1) (fun _ _ _ sent step => sent.silent step) first
  obtain ⟨later, i, ends, waiting, atEnd⟩ := takesIn.opens atReceipt (cookieReply_isCookieReply _ _ _ _ _)
    (cookieReply_index _ _ _ _ _) found
  have learns : later.Learns c ⟨i, .proceed, opened⟩ ref (calcCookie c other.cookieSecret.val a.octets) := by
    refine ⟨rfl, _, [], waiting, mac1, atEnd.lastMac1, ?_⟩
    rw [atEnd.publicKey]
    exact processCookieReply_cookieReply opens _ _ _ _ _
  have stored := ends.learns learns
  refine ⟨stored, ?_⟩
  have holds : got.Holds c ref (other.info.pubkey c) (calcCookie c other.cookieSecret.val a.octets) opened.now := by
    constructor
    · exact atEnd.faithful.step ends
    · exact atEnd.known.trans_le (ends.sound c atEnd.faithful.sound).2
    · exact (ends.remembers atEnd.known).1.trans atEnd.publicKey
    · exact ⟨opened.now, le_refl _, stored⟩
  intro labels s next l m other' env a' unreplaced step sends recent sameSecret samePubkey sameIp
  have last := unreplaced.invariant
    (Holds c ref (other.info.pubkey c) (calcCookie c other.cookieSecret.val a.octets) opened.now)
    (fun _ _ _ holds step => holds.unreplaced step) holds
  obtain ⟨_, signed, _⟩ := sends.signed remote last.faithful step
  rw [last.publicKey, last.getCookie recent] at signed
  have octets : a'.octets = a.octets := by
    rw [SocketAddrV6.octets, SocketAddrV6.octets, sameIp]
  have mac1Valid := signed.verifies samePubkey
  have mac2Valid : cookieVerify c m (calcCookie c other'.cookieSecret.val a'.octets) = .ok true := by
    rw [sameSecret, octets]
    exact signed.cookieVerifies
  refine ⟨mac1Valid, mac2Valid, ?_⟩
  apply WgState.checkMessage_serves ?_ mac1Valid mac2Valid
  unfold WgState.handshakeLen
  rcases signed.shape with ⟨type, size⟩ | ⟨type, size⟩
  · rw [if_pos type, size]
  · rw [if_neg (by rw [type]; decide), size]

section Samples

/-- A library without secrets whose hashes add up their inputs. -/
def Crypto.tallying : Crypto SymbolicHs :=
  { Crypto.symbolic with
    blake2s := fun len key data => ⟨List.replicate len ((key ++ data).foldl (· + ·) 0), List.length_replicate⟩ }

theorem Crypto.tallying_opensSealed : XChaCha20Poly1305.OpensSealed Crypto.tallying := by
  intro key nonce ad p
  have sealing : (XChaCha20Poly1305.encrypt Crypto.tallying key nonce ad p).val = p ++ List.replicate 16 0 := rfl
  have size : (p ++ List.replicate 16 (0 : UInt8)).length - 16 = p.length := by simp
  generalize XChaCha20Poly1305.encrypt Crypto.tallying key nonce ad p = ct at sealing
  have tag : ct.val.drop (ct.val.length - 16) = List.replicate 16 0 := by
    rw [sealing, size, List.drop_left' rfl]
  refine ⟨⟨ct.val.take (ct.val.length - 16), by simp⟩, dif_pos tag, ?_⟩
  change ct.val.take (ct.val.length - 16) = p
  rw [sealing, size, List.take_left' rfl]

theorem Crypto.tallying_keepsRemote : KeepsRemote Crypto.tallying where
  pushPsk _ _ := rfl
  write {hs ephemeral payload outLen _ _} write := by
    obtain ⟨_, same⟩ := SymbolicHs.writes hs ephemeral payload outLen
    obtain ⟨_, rfl⟩ := Prod.mk.inj (Option.some.inj (same.symm.trans write))
    rfl

def onlySent {σ : Type} : Exec (σ × List Output) → Option (Bytes × SocketAddrV6)
  | .ok (_, [.sendTo m target]) => some (m, target)
  | _ => none

theorem onlySent_eq {σ : Type} {x : Exec (σ × List Output)} (sent : onlySent x = some (m, target)) :
    ∃ after, x = .ok (after, [.sendTo m target]) := by
  unfold onlySent at sent
  split at sent
  · obtain ⟨rfl, rfl⟩ := Prod.mk.inj (Option.some.inj sent)
    exact ⟨_, rfl⟩
  · cases sent

open Program

def sampleSender : Program SymbolicHs := start ⟨WgState.samplePubkey 1, 0, 0⟩ (zeros 32) 1280 0

def sampleLoaded : WgState SymbolicHs :=
  { (WgState.new ⟨zeros 32, 0, 0⟩ (WgState.samplePubkey 1) 1280 0 : WgState SymbolicHs) with
    loadMonitor := ⟨250, 0, 0, true⟩ }

def sampleResend : Label := starts 0 (.resend ⟨0, 0⟩)

def sampleReady : List Label := sampleSetup ++ sampleInitiating.take 4

/-- A message is sent for a peer with an id, and the other side, under load, puts it off. -/
structure PutOff (other : WgState SymbolicHs) (a : SocketAddrV6) (ref : PeerRef) (m : Bytes) (index : WgId)
    (reply : Bytes) (sent : Program SymbolicHs) : Prop where
  sends : ∃ info secret mtu now labels s l,
    Transition.Run (Step Crypto.tallying) (start info secret mtu now) labels s ∧ Step Crypto.tallying s l sent ∧
      s.Sends Crypto.tallying l ref m ∧ (s.wg.peers ref).info.publicKey = other.info.pubkey Crypto.tallying
  valid : verifyMac1 Crypto.tallying other.info m = .ok true
  rejects : cookieVerify Crypto.tallying m (calcCookie Crypto.tallying other.cookieSecret.val a.octets) = .ok false
  index : sliceArray m 4 4 = .ok index
  replies : ∃ env after, (other.checkHandshakeLoad env).1 = true ∧
    other.udpProcessing Crypto.tallying env m a = .ok (after, [.sendTo reply a])

def sampleSend (ready : List Label) : Option (Program SymbolicHs × Bytes) :=
  (sampleSender.follow Crypto.tallying 1 ready).bind fun s =>
  (s.act Crypto.tallying 1 sampleResend).bind fun sent =>
  (onlySent (s.wg.resendIteration Crypto.tallying sampleEnv ⟨0, 0⟩)).bind fun first =>
  if (s.wg.peers 0).info.publicKey = zeros 32 then some (sent, first.1) else none

def sampleReply (a : SocketAddrV6) (m : Bytes) : Option Bytes :=
  (onlySent (sampleLoaded.udpProcessing Crypto.tallying sampleEnv m a)).bind fun second =>
  if verifyMac1 Crypto.tallying sampleLoaded.info m = .ok true ∧
      cookieVerify Crypto.tallying m (calcCookie Crypto.tallying sampleLoaded.cookieSecret.val a.octets) = .ok false ∧
      sliceArray m 4 4 = .ok (zeros 4) ∧ second.2 = a then some second.1
  else none

theorem putOff_of_sampleReply {ready : List Label} (sends : sampleSend ready = some (sent, m))
    (replies : sampleReply a m = some reply) :
    PutOff sampleLoaded a 0 m (zeros 4) reply sent ∧ sent.Within 1 := by
  obtain ⟨s, follows, sends⟩ := Option.bind_eq_some_iff.mp sends
  obtain ⟨_, acts, sends⟩ := Option.bind_eq_some_iff.mp sends
  obtain ⟨⟨_, target⟩, resends, sends⟩ := Option.bind_eq_some_iff.mp sends
  split_ifs at sends with isOther
  obtain ⟨rfl, rfl⟩ := Prod.mk.inj (Option.some.inj sends)
  obtain ⟨⟨_, back⟩, answers, replies⟩ := Option.bind_eq_some_iff.mp replies
  split_ifs at replies with checked
  obtain ⟨valid, rejects, index, same⟩ := checked
  obtain rfl := Option.some.inj replies
  obtain rfl : back = a := same
  obtain ⟨wg, resent⟩ := onlySent_eq resends
  obtain ⟨after, replied⟩ := onlySent_eq answers
  obtain ⟨run, within⟩ := run_of_follow Crypto.tallying start_within follows
  obtain ⟨step, _, within⟩ := step_of_act Crypto.tallying within acts
  refine ⟨⟨?_, valid, rejects, index, sampleEnv, after, by decide, replied⟩, within⟩
  refine ⟨_, _, _, _, ready, s, sampleResend, run.mono fun _ _ _ step => step.1, step, ?_, isOther⟩
  exact .initiation rfl rfl resent List.mem_cons_self

def answersNothing (s : Program SymbolicHs) : Bool :=
  (s.tasks 0).all fun sec => match sec with
    | .accept .. => false
    | _ => true

theorem silent_of_answersNothing (ref : PeerRef) {s next : Program SymbolicHs} {event : Event} {env : Env}
    (step : Step Crypto.tallying s ⟨0, event, env⟩ next) (nothing : answersNothing s = true)
    (other : ∀ loop, event = .start (.resend loop) → loop.peer ≠ ref) :
    Silent Crypto.tallying ref s ⟨0, event, env⟩ next := by
  refine ⟨step, fun m sends => ?_⟩
  cases sends with
  | initiation starts same => exact other _ starts same
  | response proceeds waits =>
    have first := List.all_eq_true.mp nothing _ (waits ▸ List.mem_cons_self)
    cases first

def sampleTakeIn (reply : Bytes) (s : Program SymbolicHs) : Option (Program SymbolicHs) :=
  (s.act Crypto.tallying 1 (starts 0 (.datagram reply WgState.sampleAddr))).bind fun middle =>
  if answersNothing s ∧ answersNothing middle then middle.act Crypto.tallying 1 (proceeds 0) else none

theorem sampleTakeIn_eq (ref : PeerRef) {s last : Program SymbolicHs} (takes : sampleTakeIn reply s = some last)
    (within : s.Within 1) :
    TakesIn Crypto.tallying ref reply sampleEnv s last ∧ last.Within 1 ∧
      ∃ labels, Transition.Run (Silent Crypto.tallying ref) s labels last := by
  obtain ⟨middle, starts, takes⟩ := Option.bind_eq_some_iff.mp takes
  split_ifs at takes with nothing
  obtain ⟨first, _, within⟩ := step_of_act Crypto.tallying within starts
  obtain ⟨second, _, within⟩ := step_of_act Crypto.tallying within takes
  have one := silent_of_answersNothing ref first nothing.1 nofun
  have two := silent_of_answersNothing ref second nothing.2 nofun
  exact ⟨⟨0, _, _, [], middle, middle, first, .nil, second⟩, within, _, .cons one (.cons two .nil)⟩

/-- Another peer has a resend loop as well, which draws the same id. -/
def sampleOther : List Label :=
  [starts 0 (.config (.addPeer (WgState.samplePubkey 2))), proceeds 0,
    starts 0 (.config (.setPeer { sampleConfiguration with publicKey := WgState.samplePubkey 2 })), proceeds 0,
    ⟨0, .start (.timer 1 .persistentKeepalive), { sampleEnv with now := secs 5 }⟩, proceeds 0, proceeds 0, proceeds 0]

theorem cookie_round_trip_served : ∃ (got : Program SymbolicHs) (m : Bytes),
    (got.wg.peers 0).cookie.isSome = true ∧ cookieVerify Crypto.tallying m
      (calcCookie Crypto.tallying sampleLoaded.cookieSecret.val (SocketAddrV6.mk 1 0 0 0).octets) = .ok true := by
  have followed : ((sampleSend sampleReady).bind fun sent => (sampleReply ⟨1, 0, 0, 0⟩ sent.2).bind fun reply =>
      (sampleTakeIn reply sent.1).bind fun got => (got.act Crypto.tallying 1 sampleResend).bind fun _ =>
      (onlySent (got.wg.resendIteration Crypto.tallying sampleEnv ⟨0, 0⟩)).map fun _ =>
      sent.1.wg.idMap.get (zeros 4)) = some (some 0) := by decide +kernel
  obtain ⟨⟨sent, m⟩, sends, followed⟩ := Option.bind_eq_some_iff.mp followed
  obtain ⟨reply, replies, followed⟩ := Option.bind_eq_some_iff.mp followed
  obtain ⟨got, takes, followed⟩ := Option.bind_eq_some_iff.mp followed
  obtain ⟨next, acts, followed⟩ := Option.bind_eq_some_iff.mp followed
  obtain ⟨⟨m', target⟩, resends, entry⟩ := Option.map_eq_some_iff.mp followed
  obtain ⟨putOff, within⟩ := putOff_of_sampleReply sends replies
  obtain ⟨takesIn, within, _⟩ := sampleTakeIn_eq 0 takes within
  obtain ⟨step', _⟩ := step_of_act Crypto.tallying within acts
  obtain ⟨wg, resent⟩ := onlySent_eq resends
  obtain ⟨info, secret, mtu, now, labels, s, l, run, step, sends, isOther⟩ := putOff.sends
  obtain ⟨env, after, load, replied⟩ := putOff.replies
  obtain ⟨index, reply', after', indexed, _, replied', returns⟩ := cookie_round_trip Crypto.tallying
    Crypto.tallying_opensSealed Crypto.tallying_keepsRemote run step sends isOther load putOff.valid putOff.rejects
  have sameReply : reply'.val = reply := by
    have outputs := congrArg Prod.snd (Except.ok.inj (replied'.symm.trans replied))
    exact (Output.sendTo.inj (List.cons.inj outputs).1).1
  obtain rfl : index = zeros 4 := Except.ok.inj (indexed.symm.trans putOff.index)
  obtain ⟨stored, served⟩ := returns .nil entry (sameReply ▸ takesIn)
  have passes : _ ∧ _ ∧ sampleLoaded.checkMessage Crypto.tallying sampleEnv m' ⟨1, 0, 0, 0⟩ _ = _ :=
    served .nil step' (.initiation rfl rfl resent List.mem_cons_self) (by decide) rfl rfl rfl
  obtain ⟨_, verifies, _⟩ := passes
  refine ⟨got, m', ?_, verifies⟩
  rw [stored]
  rfl

/-- The same message, replayed from another address, gets another cookie reply, and its cookie replaces
the first one; and another handshake that has drawn the same id gets the cookie reply. -/
theorem cookie_not_kept :
    (∃ (a a' : SocketAddrV6) (m m' reply reply' : Bytes) (index : WgId) (sent got last next : Program SymbolicHs)
      (labels : List Label) (l : Label), a ≠ a' ∧
      PutOff sampleLoaded a 0 m index reply sent ∧ PutOff sampleLoaded a' 0 m index reply' sent ∧
      sent.wg.idMap.get index = some 0 ∧ index ∈ (sent.wg.peers 0).ownedIds ∧
      TakesIn Crypto.tallying 0 reply sampleEnv sent got ∧
      Transition.Run (Silent Crypto.tallying 0) got labels last ∧ Step Crypto.tallying last l next ∧
      last.Sends Crypto.tallying l 0 m' ∧ l.env.now - sampleEnv.now < secs 120 ∧
      cookieVerify Crypto.tallying m'
        (calcCookie Crypto.tallying sampleLoaded.cookieSecret.val a.octets) = .ok false) ∧
    ∃ (a : SocketAddrV6) (m reply : Bytes) (index : WgId) (sent last got : Program SymbolicHs) (labels : List Label),
      PutOff sampleLoaded a 0 m index reply sent ∧ Transition.Run (Silent Crypto.tallying 0) sent labels last ∧
      index ∈ (last.wg.peers 0).ownedIds ∧ TakesIn Crypto.tallying 0 reply sampleEnv last got ∧
      (got.wg.peers 0).cookie = none := by
  constructor
  · have followed : ((sampleSend sampleReady).bind fun sent => (sampleReply ⟨1, 0, 0, 0⟩ sent.2).bind fun reply =>
        (sampleReply ⟨2, 0, 0, 0⟩ sent.2).bind fun reply' => (sampleTakeIn reply sent.1).bind fun got =>
        (sampleTakeIn reply' got).bind fun last => (last.act Crypto.tallying 1 sampleResend).bind fun _ =>
        (onlySent (last.wg.resendIteration Crypto.tallying sampleEnv ⟨0, 0⟩)).map fun second =>
        (sent.1.wg.idMap.get (zeros 4), decide (zeros 4 ∈ (sent.1.wg.peers 0).ownedIds),
          cookieVerify Crypto.tallying second.1
            (calcCookie Crypto.tallying sampleLoaded.cookieSecret.val (SocketAddrV6.mk 1 0 0 0).octets))) =
        some (some 0, true, .ok false) := by decide +kernel
    obtain ⟨⟨sent, m⟩, sends, followed⟩ := Option.bind_eq_some_iff.mp followed
    obtain ⟨reply, replies, followed⟩ := Option.bind_eq_some_iff.mp followed
    obtain ⟨reply', replies', followed⟩ := Option.bind_eq_some_iff.mp followed
    obtain ⟨got, takes, followed⟩ := Option.bind_eq_some_iff.mp followed
    obtain ⟨last, takes', followed⟩ := Option.bind_eq_some_iff.mp followed
    obtain ⟨next, acts, followed⟩ := Option.bind_eq_some_iff.mp followed
    obtain ⟨⟨m', target⟩, resends, seen⟩ := Option.map_eq_some_iff.mp followed
    simp only [Prod.mk.injEq, decide_eq_true_eq] at seen
    obtain ⟨entry, owned, fails⟩ := seen
    obtain ⟨putOff, within⟩ := putOff_of_sampleReply sends replies
    obtain ⟨putOff', _⟩ := putOff_of_sampleReply sends replies'
    obtain ⟨takesIn, within, _⟩ := sampleTakeIn_eq 0 takes within
    obtain ⟨_, within, labels, silent⟩ := sampleTakeIn_eq 0 takes' within
    obtain ⟨step, _⟩ := step_of_act Crypto.tallying within acts
    obtain ⟨wg, resent⟩ := onlySent_eq resends
    exact ⟨⟨1, 0, 0, 0⟩, ⟨2, 0, 0, 0⟩, m, m', reply, reply', zeros 4, sent, got, last, next, labels, sampleResend,
      by decide, putOff, putOff', entry, owned, takesIn, silent, step,
      .initiation rfl rfl resent List.mem_cons_self, by decide, fails⟩
  · have followed : ((sampleSend (sampleReady ++ sampleOther)).bind fun sent =>
        (sampleReply ⟨1, 0, 0, 0⟩ sent.2).bind fun reply =>
        (if answersNothing sent.1 then sent.1.act Crypto.tallying 1 (starts 0 (.resend ⟨1, 1⟩)) else none).bind fun last =>
        (sampleTakeIn reply last).map fun got =>
        (decide (zeros 4 ∈ (last.wg.peers 0).ownedIds), (got.wg.peers 0).cookie)) = some (true, none) := by
      decide +kernel
    obtain ⟨⟨sent, m⟩, sends, followed⟩ := Option.bind_eq_some_iff.mp followed
    obtain ⟨reply, replies, followed⟩ := Option.bind_eq_some_iff.mp followed
    obtain ⟨last, acts, followed⟩ := Option.bind_eq_some_iff.mp followed
    obtain ⟨got, takes, seen⟩ := Option.map_eq_some_iff.mp followed
    obtain ⟨owned, unknown⟩ := Prod.mk.inj seen
    split_ifs at acts with nothing
    obtain ⟨putOff, within⟩ := putOff_of_sampleReply sends replies
    obtain ⟨step, _, within⟩ := step_of_act Crypto.tallying within acts
    have silent := silent_of_answersNothing 0 step nothing (by
      intro loop same
      cases same
      decide)
    obtain ⟨takesIn, _, _⟩ := sampleTakeIn_eq 0 takes within
    exact ⟨⟨1, 0, 0, 0⟩, m, reply, zeros 4, sent, last, got, _, putOff, .cons silent .nil, of_decide_eq_true owned,
      takesIn, unknown⟩

end Samples

end Titun
