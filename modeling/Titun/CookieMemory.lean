import Titun.HandshakeMessages
import Titun.Acquisitions

/-! What a peer remembers for cookies, the last `mac1` and the cookie that it got, changes only where a
handshake message is sent and where a cookie reply opens. -/
namespace Titun

variable {HS : Type} (c : Crypto HS)

section Messages

def mac2 (cookie : Option Cookie) (data : Bytes) : U8Array 16 :=
  match cookie with
  | none => zeros 16
  | some cookie => c.blake2s 16 cookie.val data

theorem cookieSign_mac2 {m : U8Array (n + 16)} {body : Bytes} (size : n = body.length + 16)
    (built : m.val = withMac1 c publicKey body ++ (zeros 16).val) (cookie : Option Cookie) :
    (cookieSign c m cookie).val = withMac1 c publicKey body ++ (mac2 c cookie (withMac1 c publicKey body)).val := by
  cases cookie with
  | none => exact built
  | some cookie =>
    have kept : m.val.take n = withMac1 c publicKey body := by
      rw [built, List.take_left' (by simp [withMac1, size])]
    simp only [cookieSign, kept]
    rfl

theorem getMac1_withMac1 (publicKey : X25519Pubkey) (body : Bytes) (mac2 : U8Array 16) :
    getMac1 (withMac1 c publicKey body ++ mac2.val) = .ok (mac c (mac1Key c publicKey) body) := by
  have position : (withMac1 c publicKey body ++ mac2.val).length - 32 = body.length := by
    simp [withMac1]
  have long : ¬(withMac1 c publicKey body ++ mac2.val).length < 32 := by
    simp [withMac1]
  have mac1 : sliceArray (withMac1 c publicKey body ++ mac2.val) body.length 16 =
      .ok (mac c (mac1Key c publicKey) body) :=
    sliceArray_append (x := body) (z := mac2.val) (by simp [withMac1]) rfl
  simp only [getMac1, if_neg long, position, mac1]

/-- The lengths of what follows the sender id in an initiation and in a response, before `mac1`. -/
def BodyLength (type : UInt8) (len : Nat) : Prop := type = 1 ∧ len = 108 ∨ type = 2 ∧ len = 52

/-- A handshake message to the owner of a public key, signed with a cookie if there is one. -/
def Signed (publicKey : X25519Pubkey) (cookie : Option Cookie) (id : WgId) (m : Bytes) : Prop :=
  ∃ (type : UInt8) (rest : Bytes), BodyLength type rest.length ∧
    m = withMac1 c publicKey ([type, 0, 0, 0] ++ (id.val ++ rest)) ++
      (mac2 c cookie (withMac1 c publicKey ([type, 0, 0, 0] ++ (id.val ++ rest)))).val

variable {c}

theorem Signed.initiation {wg : WgInfo} {peer : PeerInfo} {msg : U8Array HANDSHAKE_INIT_LEN} {hs : HS}
    (initiated : initiate c wg peer selfId ephemeral now = some (msg, hs)) (cookie : Option Cookie) :
    Signed c peer.publicKey cookie selfId (cookieSign c msg cookie).val := by
  obtain ⟨noise, _, built⟩ := initiate_eq c initiated
  exact ⟨1, noise.val, .inl ⟨rfl, noise.property⟩, cookieSign_mac2 c (by simp) built cookie⟩

theorem Signed.response {r : InitProcessResult HS} {msg : U8Array HANDSHAKE_RESP_LEN} {hs : HS}
    (responded : responde c r selfId ephemeral = .ok (some (msg, hs))) (cookie : Option Cookie) :
    ∃ noise rs, c.writeMessage r.handshakeState ephemeral [] 48 = some (noise, hs) ∧ c.getRs hs = some rs ∧
      Signed c rs cookie selfId (cookieSign c msg cookie).val := by
  obtain ⟨noise, rs, written, known, built⟩ := responde_eq c responded
  refine ⟨noise, rs, written, known, 2, r.peerId.val ++ noise.val, .inr ⟨rfl, by simp⟩, ?_⟩
  exact cookieSign_mac2 c (by simp) built cookie

end Messages

namespace PeerState

/-- The public key, the last `mac1` and the cookie stay. -/
structure Recalls (p q : PeerState HS) : Prop where
  publicKey : q.info.publicKey = p.info.publicKey
  lastMac1 : q.lastMac1 = p.lastMac1
  cookie : q.cookie = p.cookie

namespace Recalls

variable {p q r : PeerState HS}

theorem refl (p : PeerState HS) : p.Recalls p := ⟨rfl, rfl, rfl⟩

theorem trans (first : p.Recalls q) (second : q.Recalls r) : p.Recalls r where
  publicKey := second.publicKey.trans first.publicKey
  lastMac1 := second.lastMac1.trans first.lastMac1
  cookie := second.cookie.trans first.cookie

end Recalls

end PeerState

namespace WgState

def Recalls (wg next : WgState HS) : Prop := ∀ ref, (wg.peers ref).Recalls (next.peers ref)

namespace Recalls

variable {wg middle next : WgState HS}

theorem refl (wg : WgState HS) : wg.Recalls wg := fun _ => .refl _

theorem trans (first : wg.Recalls middle) (second : middle.Recalls next) : wg.Recalls next :=
  fun ref => (first ref).trans (second ref)

theorem of_peers (same : next.peers = wg.peers) : wg.Recalls next := by
  intro ref
  rw [same]
  exact .refl _

theorem update (peer : PeerRef) {p q : PeerState HS} (recalls : p.Recalls q) :
    (wg.setPeerState peer p).Recalls (wg.setPeerState peer q) := by
  intro ref
  by_cases here : ref = peer
  · subst here
    simpa [WgState.setPeerState] using recalls
  · simpa [WgState.setPeerState, here] using PeerState.Recalls.refl (wg.peers ref)

theorem setPeerState {q : PeerState HS} (recalls : (wg.peers peer).Recalls q) :
    wg.Recalls (wg.setPeerState peer q) := by
  have updated : (wg.setPeerState peer (wg.peers peer)).Recalls (wg.setPeerState peer q) := update peer recalls
  rwa [WgState.setPeerState, Function.update_eq_self] at updated

theorem here {q : PeerState HS} (recalls : (wg.setPeerState peer q).Recalls next) : q.Recalls (next.peers peer) := by
  simpa [WgState.setPeerState] using recalls peer

theorem elsewhere {q : PeerState HS} (recalls : (wg.setPeerState peer q).Recalls next) (apart : ref ≠ peer) :
    (wg.peers ref).Recalls (next.peers ref) := by
  simpa [WgState.setPeerState, apart] using recalls ref

theorem dropGuards (recalls : wg.Recalls next) (env : Env) (ids : List WgId) :
    wg.Recalls (next.dropGuards env ids) := by
  obtain ⟨_, _, eq⟩ := dropGuards_eq next env ids
  rw [eq]
  exact recalls

end Recalls

variable {wg next : WgState HS}

theorem clearPeer_recalls (wg : WgState HS) (env : Env) (peer : PeerRef) : wg.Recalls (wg.clearPeer env peer) :=
  (Recalls.setPeerState (q := (wg.peers peer).clear.2) ⟨rfl, rfl, rfl⟩).dropGuards env _

theorem verifyResponse_recalls (ok : wg.verifyResponse c p selfId peer = .ok (verified, next)) : wg.Recalls next := by
  have counted : wg.Recalls (wg.setPeerState peer ((wg.peers peer).countRecv p.length)) :=
    .setPeerState ⟨rfl, rfl, rfl⟩
  simp only [verifyResponse] at ok
  split at ok
  · obtain ⟨_, rfl⟩ := Prod.mk.inj (Except.ok.inj ok)
    exact counted
  · split_ifs at ok
    · obtain ⟨_, rfl⟩ := Prod.mk.inj (Except.ok.inj ok)
      exact counted
    · obtain ⟨result, _, ok⟩ := bind_eq_ok.mp ok
      cases result with
      | none =>
        obtain ⟨_, rfl⟩ := Prod.mk.inj (Except.ok.inj ok)
        exact counted
      | some result =>
        obtain ⟨_, rfl⟩ := Prod.mk.inj (Except.ok.inj ok)
        exact counted

theorem finishSession_recalls (ok : wg.finishSession c env addr peerId hs peer = .ok (next, outputs)) :
    wg.Recalls next := by
  obtain ⟨h, u, q, _, leaves, rfl⟩ := finishSession_cases c ok
  apply Recalls.dropGuards
  refine .setPeerState ⟨?_, leaves.lastMac1, leaves.cookie⟩
  rw [leaves.info]
  rfl

theorem decideTransport_recalls (wg : WgState HS) (env : Env) (p : Bytes) (addr : SocketAddrV6) (selfId : WgId)
    (peer : PeerRef) : wg.Recalls (wg.decideTransport c env p addr selfId peer).2 := by
  rcases decideTransport_cases c wg env p addr selfId peer with ⟨_, _, _, _, _, _, decided⟩ | ⟨_, decided⟩
  · rw [decided]
    exact .setPeerState ⟨rfl, rfl, rfl⟩
  · rw [decided]
    exact .setPeerState ⟨rfl, rfl, rfl⟩

theorem doHandshake_recalls (wg : WgState HS) (env : Env) (peer : PeerRef) :
    wg.Recalls (wg.doHandshake env peer) := by
  unfold doHandshake
  dsimp only
  split_ifs
  · exact .refl wg
  · exact .refl wg
  · exact Recalls.setPeerState ⟨rfl, rfl, rfl⟩

theorem sendOrEnqueue_recalls (wg : WgState HS) (env : Env) (peer : PeerRef) (packet : Bytes) :
    wg.Recalls (wg.sendOrEnqueue c env peer packet).2 := by
  unfold sendOrEnqueue
  dsimp only
  split
  · exact .refl wg
  · split
    · split
      · exact .setPeerState ⟨rfl, rfl, rfl⟩
      · exact .setPeerState ⟨rfl, rfl, rfl⟩
    · exact .setPeerState ⟨rfl, rfl, rfl⟩

theorem doKeepalive1_recalls (wg : WgState HS) (env : Env) (peer : PeerRef) :
    wg.Recalls (wg.doKeepalive1 c env peer).2 := by
  unfold doKeepalive1
  dsimp only
  split
  · exact .refl wg
  · split
    · exact .refl wg
    · split
      · exact .setPeerState ⟨rfl, rfl, rfl⟩
      · exact .setPeerState ⟨rfl, rfl, rfl⟩

theorem setPeerInfo_recalls (env : Env) (p : PeerState HS) (command : SetPeerCommand) :
    p.Recalls (setPeerInfo env p command).2 := by
  have keyed : p.Recalls (setPsk p command.presharedKey).2 := by
    unfold setPsk
    split_ifs <;> exact ⟨rfl, rfl, rfl⟩
  have pinned : (setPsk p command.presharedKey).2.Recalls
      (pinEndpoint (setPsk p command.presharedKey).2 command.endpoint) := by
    cases command.endpoint <;> exact ⟨rfl, rfl, rfl⟩
  obtain ⟨keepalive, persistentKeepalive, set, _⟩ :=
    setKeepalive_eq (pinEndpoint (setPsk p command.presharedKey).2 command.endpoint) env.now command.keepalive
  refine (keyed.trans pinned).trans ?_
  rw [setPeerInfo]
  dsimp only
  rw [set]
  exact ⟨rfl, rfl, rfl⟩

theorem dropDisplaced_recalls {peers after : PeerRef → PeerState HS}
    (ok : dropDisplaced peer peers displaced = .ok after) (ref : PeerRef) : (peers ref).Recalls (after ref) := by
  induction displaced generalizing peers with
  | nil =>
    obtain rfl := Except.ok.inj ok
    exact .refl _
  | cons head rest ih =>
    obtain ⟨old, ip⟩ := head
    simp only [dropDisplaced] at ok
    by_cases own : old = peer
    · rw [if_pos own] at ok
      cases ok
    rw [if_neg own] at ok
    obtain ⟨_, _, ok⟩ := bind_eq_ok.mp ok
    refine .trans ?_ (ih ok)
    by_cases here : ref = old
    · subst here
      rw [Function.update_self]
      exact ⟨rfl, rfl, rfl⟩
    · rw [Function.update_of_ne here]
      exact .refl _

theorem configure_recalls (ok : wg.configure env peer command = .ok next) : wg.Recalls next := by
  simp only [configure] at ok
  obtain ⟨⟨displaced, rt, allowedIps⟩, _, ok⟩ := bind_eq_ok.mp ok
  obtain ⟨peers, dropped, ok⟩ := bind_eq_ok.mp ok
  obtain rfl := Except.ok.inj ok
  have set := setPeerInfo_recalls env (wg.peers peer) command
  have informed : wg.Recalls ((wg.setPeerState peer (setPeerInfo env (wg.peers peer) command).2).dropGuards env
      (setPeerInfo env (wg.peers peer) command).1) := (Recalls.setPeerState set).dropGuards env _
  refine (informed.trans (.setPeerState ?_)).trans fun ref => dropDisplaced_recalls dropped ref
  obtain ⟨_, _, eq⟩ := dropGuards_eq (wg.setPeerState peer (setPeerInfo env (wg.peers peer) command).2) env
    (setPeerInfo env (wg.peers peer) command).1
  rw [eq]
  simp only [setPeerState, Function.update_self]
  exact ⟨rfl, rfl, rfl⟩

theorem detach_recalls (ok : wg.detach env peer = .ok next) : wg.Recalls next := by
  obtain ⟨_, _, ok⟩ := bind_eq_ok.mp ok
  obtain rfl := Except.ok.inj ok
  exact clearPeer_recalls wg env peer

theorem acceptInitiation_recalls (ok : wg.acceptInitiation c env p addr r peer = .ok (next, outputs)) :
    outputs = [] ∧ wg.Recalls next ∨
    ∃ m psk noise hs rs mac1, c.writeMessage (c.pushPsk r.handshakeState psk) env.ephemeral [] 48 = some (noise, hs) ∧
      c.getRs hs = some rs ∧ Signed c rs ((wg.peers peer).getCookie env.now) env.id m ∧ getMac1 m = .ok mac1 ∧
      outputs = [.sendTo m addr] ∧
      (wg.setPeerState peer { wg.peers peer with lastMac1 := some mac1 }).Recalls next := by
  rcases acceptInitiation_cases c ok with ⟨_, rfl, _, rfl⟩ | ⟨response, hs, mac1, q, _, responded, mac1Of, rfl, leaves, rfl⟩
  · exact .inl ⟨rfl, .setPeerState ⟨rfl, rfl, rfl⟩⟩
  · obtain ⟨noise, rs, written, known, built⟩ := responde_eq c responded
    have signed := cookieSign_mac2 c (by simp) built ((wg.peers peer).getCookie env.now)
    refine .inr ⟨_, _, noise, hs, rs, mac1, written, known,
      ⟨2, r.peerId.val ++ noise.val, .inr ⟨rfl, by simp⟩, signed⟩, ?_, rfl, ?_⟩
    · rw [signed, getMac1_withMac1, ← getMac1_withMac1 c rs _ (zeros 16), ← built]
      exact mac1Of
    · apply Recalls.dropGuards
      refine .update peer ⟨?_, leaves.lastMac1, leaves.cookie⟩
      rw [leaves.info]
      rfl

theorem resendIteration_recalls (ok : wg.resendIteration c env loop = .ok (next, outputs)) :
    outputs = [] ∧ wg.Recalls next ∨
    ∃ m target mac1,
      Signed c (wg.peers loop.peer).info.publicKey ((wg.peers loop.peer).getCookie env.now) env.id m ∧
      getMac1 m = .ok mac1 ∧ outputs = [.sendTo m target] ∧
      (wg.setPeerState loop.peer { wg.peers loop.peer with lastMac1 := some mac1 }).Recalls next := by
  simp only [resendIteration] at ok
  obtain ⟨⟨middle, sent⟩, resent, ok⟩ := bind_eq_ok.mp ok
  have same : next.peers = middle.peers ∧ outputs = sent := by
    split_ifs at ok
    · obtain ⟨rfl, rfl⟩ := Prod.mk.inj (Except.ok.inj ok)
      exact ⟨rfl, rfl⟩
    · obtain ⟨rfl, rfl⟩ := Prod.mk.inj (Except.ok.inj ok)
      exact ⟨rfl, rfl⟩
  obtain ⟨peers, rfl⟩ := same
  have last : middle.Recalls next := .of_peers peers
  simp only [resendInitiation] at resent
  split at resent
  · obtain ⟨rfl, rfl⟩ := Prod.mk.inj (Except.ok.inj resent)
    exact .inl ⟨rfl, last⟩
  · split at resent
    · obtain ⟨rfl, rfl⟩ := Prod.mk.inj (Except.ok.inj resent)
      refine .inl ⟨rfl, .trans ?_ last⟩
      have inserted : wg.Recalls (wg.insertId env.id loop.peer) := .of_peers rfl
      exact inserted.dropGuards env [env.id]
    · rename_i initiated
      obtain ⟨mac1, mac1Of, resent⟩ := bind_eq_ok.mp resent
      obtain ⟨rfl, rfl⟩ := Prod.mk.inj (Except.ok.inj resent)
      refine .inr ⟨_, _, mac1, Signed.initiation initiated _, mac1Of, rfl, .trans ?_ last⟩
      apply Recalls.dropGuards
      exact .update loop.peer ⟨rfl, rfl, rfl⟩

/-- A cookie is taken out of a cookie reply. -/
def LearnsCookie (wg : WgState HS) (p : Bytes) (peer : PeerRef) (cookie : Cookie) : Prop :=
  ∃ mac1, (wg.peers peer).lastMac1 = some mac1 ∧
    processCookieReply c (wg.peers peer).info.publicKey mac1 p = .ok (some cookie)

theorem acceptCookieReply_recalls (ok : wg.acceptCookieReply c env p peer = .ok next) :
    (∀ cookie, ¬ wg.LearnsCookie c p peer cookie) ∧ wg.Recalls next ∨
    ∃ cookie, wg.LearnsCookie c p peer cookie ∧
      (wg.setPeerState peer { wg.peers peer with cookie := some (cookie, env.now) }).Recalls next := by
  simp only [acceptCookieReply] at ok
  have counted : ((wg.peers peer).countRecv p.length).lastMac1 = (wg.peers peer).lastMac1 := rfl
  rw [counted] at ok
  cases remembered : (wg.peers peer).lastMac1 with
  | none =>
    rw [remembered] at ok
    obtain rfl := Except.ok.inj ok
    refine .inl ⟨?_, .setPeerState ⟨rfl, rfl, rfl⟩⟩
    rintro cookie ⟨mac1, other, _⟩
    cases remembered.symm.trans other
  | some mac1 =>
    rw [remembered] at ok
    obtain ⟨result, opened, ok⟩ := bind_eq_ok.mp ok
    cases result with
    | none =>
      obtain rfl := Except.ok.inj ok
      refine .inl ⟨?_, .setPeerState ⟨rfl, rfl, rfl⟩⟩
      rintro cookie ⟨other, same, opens⟩
      obtain rfl := Option.some.inj (remembered.symm.trans same)
      cases opened.symm.trans opens
    | some cookie =>
      obtain rfl := Except.ok.inj ok
      exact .inr ⟨cookie, ⟨mac1, remembered, opened⟩, .update peer ⟨rfl, remembered.symm, rfl⟩⟩

end WgState

namespace Section

open WgState

variable {wg next : WgState HS} {more : List (Section HS)}

/-- Three sections change what a peer remembers. -/
theorem run_recalls {sec : Section HS} (ok : sec.run c env wg = .ok (next, more)) :
    (∃ p addr r peer outputs, sec = accept p addr r peer ∧
      wg.acceptInitiation c env p addr r peer = .ok (next, outputs)) ∨
    (∃ p peer, sec = cookie p peer ∧ wg.acceptCookieReply c env p peer = .ok next) ∨
    (∃ pk, sec = addPeer pk ∧ next = (wg.addPeer env pk).2) ∨ wg.Recalls next := by
  have recalls (other : wg.Recalls next) : (∃ p addr r peer outputs, sec = accept p addr r peer ∧
      wg.acceptInitiation c env p addr r peer = .ok (next, outputs)) ∨
    (∃ p peer, sec = cookie p peer ∧ wg.acceptCookieReply c env p peer = .ok next) ∨
    (∃ pk, sec = addPeer pk ∧ next = (wg.addPeer env pk).2) ∨ wg.Recalls next := .inr (.inr (.inr other))
  cases sec with
  | accept p addr r peer =>
    obtain ⟨⟨_, outputs⟩, accepted, ok⟩ := bind_eq_ok.mp ok
    obtain ⟨rfl, rfl⟩ := Prod.mk.inj (Except.ok.inj ok)
    exact .inl ⟨p, addr, r, peer, outputs, rfl, accepted⟩
  | verify p addr selfId peer =>
    obtain ⟨⟨verified, _⟩, verifies, ok⟩ := bind_eq_ok.mp ok
    apply recalls
    cases verified with
    | none =>
      obtain ⟨rfl, _⟩ := Prod.mk.inj (Except.ok.inj ok)
      exact verifyResponse_recalls c verifies
    | some result =>
      obtain ⟨rfl, _⟩ := Prod.mk.inj (Except.ok.inj ok)
      exact verifyResponse_recalls c verifies
  | insertId selfId peer =>
    obtain ⟨rfl, _⟩ := Prod.mk.inj (Except.ok.inj ok)
    exact recalls (.of_peers rfl)
  | finish p addr selfId peerId hs peer =>
    obtain ⟨⟨_, _⟩, finished, ok⟩ := bind_eq_ok.mp ok
    obtain ⟨rfl, _⟩ := Prod.mk.inj (Except.ok.inj ok)
    exact recalls (finishSession_recalls c finished)
  | cookie p peer =>
    obtain ⟨_, accepted, ok⟩ := bind_eq_ok.mp ok
    obtain ⟨rfl, _⟩ := Prod.mk.inj (Except.ok.inj ok)
    exact .inr (.inl ⟨p, peer, rfl, accepted⟩)
  | decide p addr selfId peer =>
    obtain ⟨rfl, _⟩ := Prod.mk.inj (Except.ok.inj ok)
    exact recalls (decideTransport_recalls c wg env p addr selfId peer)
  | setEndpoint addr peer =>
    obtain ⟨q, set, ok⟩ := bind_eq_ok.mp ok
    obtain ⟨rfl, _⟩ := Prod.mk.inj (Except.ok.inj ok)
    obtain ⟨_, rfl⟩ := PeerState.setEndpoint_roamed set
    exact recalls (.setPeerState ⟨rfl, rfl, rfl⟩)
  | doHandshake peer =>
    obtain ⟨rfl, _⟩ := Prod.mk.inj (Except.ok.inj ok)
    exact recalls (doHandshake_recalls wg env peer)
  | send packet peer =>
    obtain ⟨rfl, _⟩ := Prod.mk.inj (Except.ok.inj ok)
    exact recalls (sendOrEnqueue_recalls c wg env peer packet)
  | keepalive peer =>
    obtain ⟨rfl, _⟩ := Prod.mk.inj (Except.ok.inj ok)
    exact recalls (doKeepalive1_recalls c wg env peer)
  | rearm peer | dropScope peer =>
    obtain ⟨rfl, _⟩ := Prod.mk.inj (Except.ok.inj ok)
    exact recalls (.setPeerState ⟨rfl, rfl, rfl⟩)
  | dropHandshake peer =>
    obtain ⟨rfl, _⟩ := Prod.mk.inj (Except.ok.inj ok)
    have dropped : wg.Recalls (wg.setPeerState peer { wg.peers peer with handshake := none }) :=
      .setPeerState ⟨rfl, rfl, rfl⟩
    exact recalls (dropped.dropGuards env _)
  | clear peer =>
    obtain ⟨rfl, _⟩ := Prod.mk.inj (Except.ok.inj ok)
    exact recalls (clearPeer_recalls wg env peer)
  | addPeer pk =>
    obtain ⟨rfl, _⟩ := Prod.mk.inj (Except.ok.inj ok)
    exact .inr (.inr (.inl ⟨pk, rfl, rfl⟩))
  | configure command peer =>
    obtain ⟨_, configured, ok⟩ := bind_eq_ok.mp ok
    obtain ⟨rfl, _⟩ := Prod.mk.inj (Except.ok.inj ok)
    exact recalls (configure_recalls configured)
  | unlist pk =>
    apply recalls
    simp only [run] at ok
    split at ok
    · obtain ⟨rfl, _⟩ := Prod.mk.inj (Except.ok.inj ok)
      exact .refl wg
    · obtain ⟨rfl, _⟩ := Prod.mk.inj (Except.ok.inj ok)
      exact .of_peers rfl
  | detach peer =>
    obtain ⟨_, detached, ok⟩ := bind_eq_ok.mp ok
    obtain ⟨rfl, _⟩ := Prod.mk.inj (Except.ok.inj ok)
    exact recalls (detach_recalls detached)
  | storeKey key =>
    obtain ⟨rfl, _⟩ := Prod.mk.inj (Except.ok.inj ok)
    exact recalls (.of_peers rfl)

end Section

open WgState in
theorem Op.begin_recalls {op : Op} {wg next : WgState HS} (ok : op.begin c env wg = .ok (next, task)) :
    (∃ loop outputs, op = .resend loop ∧ wg.resendIteration c env loop = .ok (next, outputs)) ∨ wg.Recalls next := by
  have same (other : next = wg) : wg.Recalls next := .of_peers (congrArg WgState.peers other)
  have does := begin_does c ok
  cases op with
  | config op => cases op <;> exact .inr (same does.1)
  | setKey order key => exact .inr (same does.1)
  | packet padded => exact .inr (same does.1)
  | datagram bytes addr =>
    obtain ⟨⟨loadMonitor, rfl⟩, _⟩ := does
    exact .inr (.of_peers rfl)
  | timer peer kind =>
    obtain ⟨rfl, _⟩ := Prod.mk.inj (Except.ok.inj ok)
    apply Or.inr
    cases kind <;> exact .setPeerState ⟨rfl, rfl, rfl⟩
  | resend loop =>
    obtain ⟨⟨_, outputs⟩, resent, ok⟩ := bind_eq_ok.mp ok
    obtain ⟨rfl, _⟩ := Prod.mk.inj (Except.ok.inj ok)
    exact .inl ⟨loop, outputs, rfl, resent⟩
  | session peer i task =>
    obtain ⟨rfl, _⟩ := Prod.mk.inj (Except.ok.inj ok)
    exact .inr (.setPeerState ⟨rfl, rfl, rfl⟩)
  | removeDeferred id =>
    obtain ⟨_, rfl⟩ := does
    exact .inr (.of_peers rfl)
  | setPort newPort prepared =>
    obtain ⟨rfl, _⟩ := Prod.mk.inj (Except.ok.inj ok)
    apply Or.inr
    apply Recalls.of_peers
    unfold WgState.setPort
    cases prepared with
    | error e => split_ifs <;> rfl
    | ok bound =>
      dsimp only
      cases wg.socketChannel <;> split_ifs <;> rfl
  | setFwmark newFwmark marked =>
    obtain ⟨rfl, _⟩ := Prod.mk.inj (Except.ok.inj ok)
    apply Or.inr
    apply Recalls.of_peers
    unfold WgState.setFwmark
    split_ifs
    · rfl
    · cases marked <;> rfl
  | takeSocket =>
    simp only [Op.begin] at ok
    split at ok
    · obtain ⟨rfl, _⟩ := Prod.mk.inj (Except.ok.inj ok)
      exact .inr (.of_peers rfl)
    · obtain ⟨rfl, _⟩ := Prod.mk.inj (Except.ok.inj ok)
      exact .inr (.refl _)
  | cancelLoop loop | startRx | updateCookieSecret secret | updateMtu mtu =>
    obtain ⟨rfl, _⟩ := Prod.mk.inj (Except.ok.inj ok)
    exact .inr (.of_peers rfl)

end Titun
