import Titun.PacketQueue
import Titun.SessionTable

/-! What the critical sections do to the sessions of the peers, and to the timer that waits for an answer. -/
namespace Titun

open PeerState

variable {HS : Type} (c : Crypto HS)

theorem Transport.encrypt_lives (t : Transport) (msg : Bytes) : t.Lives (t.encrypt c msg).2 := by
  refine ⟨t.origin_encrypt c msg, ?_, ?_⟩
  · unfold encrypt
    dsimp only
    split_ifs <;> rfl
  · unfold encrypt
    dsimp only
    split_ifs
    · simp
    · exact id

theorem Transport.Lives.refl (t : Transport) : t.Lives t := ⟨rfl, rfl, id⟩

theorem Transport.Lives.trans {t u v : Transport} (first : t.Lives u) (second : u.Lives v) : t.Lives v where
  origin := second.origin.trans first.origin
  received := second.received.trans first.received
  old young := first.old (second.old young)

theorem Transport.run_lives (task : SessionTask) (t : Transport) : t.Lives (task.run t) := by
  refine ⟨origin_run task t, ?_, ?_⟩
  · cases task <;> rfl
  · cases task with
    | expireHandshake => exact id
    | expire => simp [SessionTask.run, expire]

namespace PeerState

/-- The sessions and the timer for answers stay. -/
structure Undisturbed (p q : PeerState HS) : Prop where
  transports : q.transports = p.transports
  rekeyNoRecv : q.rekeyNoRecv = p.rekeyNoRecv

theorem Undisturbed.refl (p : PeerState HS) : p.Undisturbed p := ⟨rfl, rfl⟩

theorem Undisturbed.trans {p q r : PeerState HS} (first : p.Undisturbed q) (second : q.Undisturbed r) :
    p.Undisturbed r where
  transports := second.transports.trans first.transports
  rekeyNoRecv := second.rekeyNoRecv.trans first.rekeyNoRecv

/-- The sessions and the timer are as after `clear`. -/
structure Cleared (p q : PeerState HS) : Prop where
  transports : q.transports = .empty
  rekeyNoRecv : q.rekeyNoRecv = p.clear.2.rekeyNoRecv

theorem Cleared.undisturbed {p q r : PeerState HS} (cleared : p.Cleared q) (still : q.Undisturbed r) : p.Cleared r where
  transports := still.transports.trans cleared.transports
  rekeyNoRecv := still.rekeyNoRecv.trans cleared.rekeyNoRecv

end PeerState

namespace WgState

variable {wg middle next : WgState HS}

/-- No peer is disturbed. -/
def Undisturbed (wg next : WgState HS) : Prop := ∀ ref, (wg.peers ref).Undisturbed (next.peers ref)

theorem Undisturbed.refl (wg : WgState HS) : wg.Undisturbed wg := fun _ => .refl _

theorem Undisturbed.of_peers (same : next.peers = wg.peers) : wg.Undisturbed next := by
  intro ref
  rw [same]
  exact .refl _

theorem Undisturbed.of_update {p : PeerState HS} (peers : next.peers = Function.update wg.peers peer p)
    (still : (wg.peers peer).Undisturbed p) : wg.Undisturbed next := by
  intro ref
  rw [peers]
  by_cases here : ref = peer
  · subst here
    rw [Function.update_self]
    exact still
  · rw [Function.update_of_ne here]
    exact .refl _

theorem Undisturbed.setPeerState {p : PeerState HS} (still : (wg.peers peer).Undisturbed p) :
    wg.Undisturbed (wg.setPeerState peer p) := .of_update rfl still

/-- Only one peer is disturbed, and it is cleared. -/
def Clears (peer : PeerRef) (wg next : WgState HS) : Prop :=
  (wg.peers peer).Cleared (next.peers peer) ∧ ∀ ref, ref ≠ peer → (wg.peers ref).Undisturbed (next.peers ref)

theorem Clears.of_update {p : PeerState HS} (peers : next.peers = Function.update wg.peers peer p)
    (cleared : (wg.peers peer).Cleared p) : Clears peer wg next := by
  constructor
  · rw [peers, Function.update_self]
    exact cleared
  · intro ref apart
    rw [peers, Function.update_of_ne apart]
    exact .refl _

theorem verifyResponse_undisturbed (ok : wg.verifyResponse c p selfId peer = .ok (verified, next)) :
    wg.Undisturbed next := by
  have counted : wg.Undisturbed (wg.setPeerState peer ((wg.peers peer).countRecv p.length)) := .of_update rfl ⟨rfl, rfl⟩
  simp only [verifyResponse] at ok
  split at ok
  · obtain ⟨_, rfl⟩ := Prod.mk.inj (Except.ok.inj ok)
    exact counted
  · split_ifs at ok
    · obtain ⟨_, rfl⟩ := Prod.mk.inj (Except.ok.inj ok)
      exact counted
    · obtain ⟨result, _, ok⟩ := bind_eq_ok.mp ok
      cases result with
      | none =>
        obtain ⟨_, rfl⟩ := Prod.mk.inj (Except.ok.inj ok)
        exact counted
      | some result =>
        obtain ⟨_, rfl⟩ := Prod.mk.inj (Except.ok.inj ok)
        exact counted

theorem acceptCookieReply_undisturbed (ok : wg.acceptCookieReply c env p peer = .ok next) : wg.Undisturbed next := by
  simp only [acceptCookieReply] at ok
  split at ok
  · obtain rfl := Except.ok.inj ok
    exact .of_update rfl ⟨rfl, rfl⟩
  · obtain ⟨result, _, ok⟩ := bind_eq_ok.mp ok
    cases result with
    | none =>
      obtain rfl := Except.ok.inj ok
      exact .of_update rfl ⟨rfl, rfl⟩
    | some cookie =>
      obtain rfl := Except.ok.inj ok
      exact .of_update rfl ⟨rfl, rfl⟩

theorem doHandshake_undisturbed (wg : WgState HS) (env : Env) (peer : PeerRef) :
    wg.Undisturbed (wg.doHandshake env peer) := by
  unfold doHandshake
  dsimp only
  split_ifs
  · exact .of_peers rfl
  · exact .of_peers rfl
  · exact .of_update rfl ⟨rfl, rfl⟩

theorem resendIteration_undisturbed (ok : wg.resendIteration c env loop = .ok (next, outputs)) :
    wg.Undisturbed next := by
  obtain ⟨⟨middle, _⟩, resent, ok⟩ := bind_eq_ok.mp ok
  have sent : wg.Undisturbed middle := by
    simp only [resendInitiation] at resent
    split at resent
    · obtain ⟨rfl, _⟩ := Prod.mk.inj (Except.ok.inj resent)
      exact .of_peers rfl
    · split at resent
      · obtain ⟨rfl, _⟩ := Prod.mk.inj (Except.ok.inj resent)
        exact .of_peers (dropGuards_peers _ env [env.id])
      · obtain ⟨_, _, resent⟩ := bind_eq_ok.mp resent
        obtain ⟨rfl, _⟩ := Prod.mk.inj (Except.ok.inj resent)
        exact .of_update (dropGuards_peers ..) ⟨rfl, rfl⟩
  dsimp only at ok
  split_ifs at ok
  · obtain ⟨rfl, _⟩ := Prod.mk.inj (Except.ok.inj ok)
    exact sent
  · obtain ⟨rfl, _⟩ := Prod.mk.inj (Except.ok.inj ok)
    exact sent

theorem clearPeer_clears (wg : WgState HS) (env : Env) (peer : PeerRef) : Clears peer wg (wg.clearPeer env peer) :=
  .of_update (dropGuards_peers ..) ⟨rfl, rfl⟩

theorem detach_clears (ok : wg.detach env peer = .ok next) : Clears peer wg next := by
  obtain ⟨rt, _, ok⟩ := bind_eq_ok.mp ok
  obtain rfl := Except.ok.inj ok
  exact clearPeer_clears wg env peer

theorem dropDisplaced_undisturbed {peers after : PeerRef → PeerState HS}
    (ok : dropDisplaced peer peers displaced = .ok after) (ref : PeerRef) : (peers ref).Undisturbed (after ref) := by
  induction displaced generalizing peers with
  | nil =>
    obtain rfl := Except.ok.inj ok
    exact .refl _
  | cons head rest ih =>
    obtain ⟨old, ip⟩ := head
    simp only [dropDisplaced] at ok
    split_ifs at ok
    · cases ok
    obtain ⟨_, _, ok⟩ := bind_eq_ok.mp ok
    apply PeerState.Undisturbed.trans ?_ (ih ok)
    by_cases here : ref = old
    · subst here
      rw [Function.update_self]
      exact ⟨rfl, rfl⟩
    · rw [Function.update_of_ne here]
      exact .refl _

theorem setPeerInfo_disturbs (env : Env) (p : PeerState HS) (command : SetPeerCommand) :
    p.info.psk = command.presharedKey ∧ p.Undisturbed (setPeerInfo env p command).2 ∨
    p.info.psk ≠ command.presharedKey ∧ p.Cleared (setPeerInfo env p command).2 := by
  obtain ⟨keepalive, persistentKeepalive, set, _⟩ :=
    setKeepalive_eq (pinEndpoint (setPsk p command.presharedKey).2 command.endpoint) env.now command.keepalive
  have informed : (setPsk p command.presharedKey).2.Undisturbed (setPeerInfo env p command).2 := by
    simp only [setPeerInfo, set]
    cases command.endpoint <;> exact ⟨rfl, rfl⟩
  by_cases same : p.info.psk = command.presharedKey
  · have unchanged : setPsk p command.presharedKey = ([], p) := by
      rw [setPsk, if_neg (not_not.mpr same)]
    rw [unchanged] at informed
    exact .inl ⟨same, informed⟩
  · have cleared : p.Cleared (setPsk p command.presharedKey).2 := by
      rw [setPsk, if_pos same]
      exact ⟨rfl, rfl⟩
    exact .inr ⟨same, cleared.undisturbed informed⟩

theorem configure_sessions (ok : wg.configure env peer command = .ok next) :
    (wg.peers peer).info.psk = command.presharedKey ∧ wg.Undisturbed next ∨
    (wg.peers peer).info.psk ≠ command.presharedKey ∧ Clears peer wg next := by
  simp only [configure] at ok
  obtain ⟨⟨displaced, rt, allowedIps⟩, _, ok⟩ := bind_eq_ok.mp ok
  obtain ⟨peers, dropped, ok⟩ := bind_eq_ok.mp ok
  obtain rfl := Except.ok.inj ok
  have later := dropDisplaced_undisturbed dropped
  dsimp only [setPeerState] at later
  have others (ref : PeerRef) (apart : ref ≠ peer) : (wg.peers ref).Undisturbed (peers ref) := by
    simpa only [Function.update_of_ne apart, dropGuards_peers] using later ref
  have own := later peer
  rw [Function.update_self] at own
  have allowed : (setPeerInfo env (wg.peers peer) command).2.Undisturbed (peers peer) :=
    ⟨own.transports, own.rekeyNoRecv⟩
  rcases setPeerInfo_disturbs env (wg.peers peer) command with ⟨same, still⟩ | ⟨changed, cleared⟩
  · refine .inl ⟨same, ?_⟩
    intro ref
    by_cases here : ref = peer
    · subst here
      exact still.trans allowed
    · exact others ref here
  · exact .inr ⟨changed, cleared.undisturbed allowed, others⟩

theorem acceptInitiation_sessions (ok : wg.acceptInitiation c env p addr r peer = .ok (next, outputs)) :
    outputs = [] ∧ wg.Undisturbed next ∨
    ∃ noise hs psk out q, c.writeMessage (c.pushPsk r.handshakeState psk) env.ephemeral [] 48 = some (noise, hs) ∧
      outputs = [out] ∧ next.peers = Function.update wg.peers peer q ∧
      q.rekeyNoRecv = (wg.peers peer).rekeyNoRecv ∧
      q.transports = ((wg.peers peer).transports.pushFront (.newFromHs c env.now env.id r.peerId hs)).2 := by
  rcases acceptInitiation_cases c ok with ⟨_, rfl, _, rfl⟩ | ⟨response, hs, mac1, q, _, responded, _, rfl, leaves, rfl⟩
  · exact .inl ⟨rfl, .of_update rfl ⟨rfl, rfl⟩⟩
  · obtain ⟨noise, _, written, _, _⟩ := responde_eq c responded
    exact .inr ⟨noise, hs, _, _, q, written, rfl, dropGuards_peers .., leaves.rekeyNoRecv, leaves.transports⟩

theorem finishSession_sessions (ok : wg.finishSession c env addr peerId hs peer = .ok (next, outputs)) :
    ∃ h q u, (wg.peers peer).handshake = some h ∧ next.peers = Function.update wg.peers peer q ∧
      (Transport.newFromHs c env.now h.selfId peerId hs).Lives u ∧ u.notTooOld = true ∧
      q.transports.val = u :: (wg.peers peer).transports.val.take 2 ∧
      (∀ out ∈ outputs, (Transport.newFromHs c env.now h.selfId peerId hs).Seals c out) ∧
      (outputs = [] ∧ q.rekeyNoRecv = (wg.peers peer).rekeyNoRecv ∨ outputs ≠ [] ∧
        q.rekeyNoRecv = (wg.peers peer).rekeyNoRecv.adjustAndActivateIfNotActivated env.now
          (KEEPALIVE_TIMEOUT + REKEY_TIMEOUT)) := by
  obtain ⟨h, u, q, pending, leaves, rfl⟩ := finishSession_cases c ok
  obtain ⟨sendCounter, rfl⟩ := leaves.counts
  refine ⟨h, q, { Transport.newFromHs c env.now h.selfId peerId hs with sendCounter }, pending, dropGuards_peers ..,
    ⟨rfl, rfl, id⟩, rfl, ?_, ?_, leaves.rekeyNoRecv⟩
  · exact (congrArg Subtype.val leaves.transports).trans (ArrayVec.pushFront_take ..)
  · intro output member
    obtain ⟨ctr, packet, rfl⟩ := leaves.sealed output member
    exact ⟨ctr, packet, addr, rfl⟩

theorem sendOrEnqueue_sessions (wg : WgState HS) (env : Env) (peer : PeerRef) (packet : Bytes) :
    (wg.sendOrEnqueue c env peer packet).1.2 = [] ∧ wg.Undisturbed (wg.sendOrEnqueue c env peer packet).2 ∨
    ∃ t q, (wg.peers peer).findTransportToSend = some t ∧
      (wg.sendOrEnqueue c env peer packet).2.peers = Function.update wg.peers peer q ∧
      q.transports = (wg.peers peer).transports.replaceFirst Transport.getShouldSend (t.encrypt c packet).2 ∧
      (∀ out ∈ (wg.sendOrEnqueue c env peer packet).1.2, t.Seals c out) ∧
      ((wg.sendOrEnqueue c env peer packet).1.2 = [] ∧ q.rekeyNoRecv = (wg.peers peer).rekeyNoRecv ∨
        (wg.sendOrEnqueue c env peer packet).1.2 ≠ [] ∧
        q.rekeyNoRecv = (wg.peers peer).rekeyNoRecv.adjustAndActivateIfNotActivated env.now
          (KEEPALIVE_TIMEOUT + REKEY_TIMEOUT)) := by
  unfold sendOrEnqueue
  cases endpoint : (wg.peers peer).getEndpoint with
  | none =>
    simp only [endpoint]
    exact .inl ⟨trivial, .refl wg⟩
  | some addr =>
    cases session : (wg.peers peer).findTransportToSend with
    | none =>
      simp only [endpoint, session]
      exact .inl ⟨trivial, .of_update rfl ⟨rfl, rfl⟩⟩
    | some t =>
      simp only [endpoint, session]
      cases result : (t.encrypt c packet).1.1 with
      | none => exact .inr ⟨t, _, rfl, rfl, rfl, nofun, .inl ⟨rfl, rfl⟩⟩
      | some out =>
        obtain ⟨_, rfl, _⟩ := Transport.encrypt_eq_some c result
        refine .inr ⟨t, _, rfl, rfl, rfl, ?_, .inr ⟨nofun, rfl⟩⟩
        intro sent member
        rw [List.mem_singleton.mp member]
        exact ⟨t.sendCounter, packet, addr, rfl⟩

theorem doKeepalive1_sessions (wg : WgState HS) (env : Env) (peer : PeerRef) :
    (wg.doKeepalive1 c env peer).1.2 = [] ∧ wg.Undisturbed (wg.doKeepalive1 c env peer).2 ∨
    ∃ t q, (wg.peers peer).findTransportToSend = some t ∧
      (wg.doKeepalive1 c env peer).2.peers = Function.update wg.peers peer q ∧
      q.transports = (wg.peers peer).transports.replaceFirst Transport.getShouldSend (t.encrypt c []).2 ∧
      (∀ out ∈ (wg.doKeepalive1 c env peer).1.2, t.Seals c out) ∧ q.rekeyNoRecv = (wg.peers peer).rekeyNoRecv := by
  unfold doKeepalive1
  cases endpoint : (wg.peers peer).getEndpoint with
  | none =>
    simp only [endpoint]
    exact .inl ⟨trivial, .refl wg⟩
  | some addr =>
    cases session : (wg.peers peer).findTransportToSend with
    | none =>
      simp only [endpoint, session]
      exact .inl ⟨trivial, .refl wg⟩
    | some t =>
      simp only [endpoint, session]
      cases result : (t.encrypt c []).1.1 with
      | none => exact .inr ⟨t, _, rfl, rfl, rfl, nofun, rfl⟩
      | some out =>
        obtain ⟨_, rfl, _⟩ := Transport.encrypt_eq_some c result
        refine .inr ⟨t, _, rfl, rfl, rfl, ?_, rfl⟩
        intro sent member
        rw [List.mem_singleton.mp member]
        exact ⟨t.sendCounter, [], addr, rfl⟩

end WgState

def PeerState.sessionNumber (p : PeerState HS) (count : Nat) (pred : Transport → Bool) : Nat :=
  count - 1 - p.transports.val.findIdx pred

namespace Section

/-- What a section does on the sessions of a peer. -/
def sessionEvents (env : Env) (wg : WgState HS) (ref : PeerRef) (count : Nat) : Section HS → List SessionEvent
  | accept p addr r peer =>
    if peer = ref then
      match wg.acceptInitiation c env p addr r ref with
      | .ok (next, _ :: _) => ((next.peers ref).transports.val.take 1).map (.established count false)
      | _ => []
    else []
  | finish _ addr _ peerId hs peer =>
    if peer = ref then
      match (wg.peers ref).handshake, wg.finishSession c env addr peerId hs ref with
      | some h, .ok (_, outputs) =>
        .established count true (.newFromHs c env.now h.selfId peerId hs) :: outputs.map (.sealed count false)
      | _, _ => []
    else []
  | decide p _ selfId peer =>
    if peer = ref then
      match (wg.peers ref).findTransportById selfId with
      | none => []
      | some t =>
        if (t.decrypt c p).1.isSome then [.accepted ((wg.peers ref).sessionNumber count fun t => t.selfId = selfId)]
        else []
    else []
  | send packet peer =>
    if peer = ref then
      (wg.sendOrEnqueue c env ref packet).1.2.map
        (.sealed ((wg.peers ref).sessionNumber count Transport.getShouldSend) true)
    else []
  | keepalive peer =>
    if peer = ref then
      (wg.doKeepalive1 c env ref).1.2.map (.sealed ((wg.peers ref).sessionNumber count Transport.getShouldSend) true)
    else []
  | _ => []

end Section

namespace SessionStep

variable {c} {p q : PeerState HS}

theorem of_undisturbed (still : p.Undisturbed q) (count : Nat) :
    SessionStep c count p.transports.val [] q.transports.val := by
  rw [still.transports]
  exact .keep

theorem of_cleared (cleared : p.Cleared q) (count : Nat) : SessionStep c count p.transports.val [] q.transports.val := by
  rw [cleared.transports]
  exact .drop

theorem of_found {t u : Transport} {outputs : List Output} (found : p.findTransportToSend = some t)
    (replaced : q.transports = p.transports.replaceFirst Transport.getShouldSend u) (lives : t.Lives u)
    (seals : ∀ out ∈ outputs, t.Seals c out) (count : Nat) :
    SessionStep c count p.transports.val (outputs.map (.sealed (p.sessionNumber count Transport.getShouldSend) true))
      q.transports.val := by
  obtain ⟨front, back, split, next, place⟩ := ArrayVec.replaceFirst_place found u
  rw [replaced, next, sessionNumber, ← place, split]
  exact .live lives fun out member => ⟨List.find?_some found, seals out member⟩

theorem of_task (p : PeerState HS) (i : Nat) (task : SessionTask) (count : Nat) :
    SessionStep c count p.transports.val [] (p.transports.modify i task.run).val := by
  change SessionStep c count p.transports.val [] (p.transports.val.modify i task.run)
  by_cases inside : i < p.transports.val.length
  · rw [List.modify_eq_take_cons_drop inside]
    conv =>
      arg 3
      rw [← List.take_append_drop i p.transports.val, List.drop_eq_getElem_cons inside]
    have lives := Transport.run_lives task p.transports.val[i]
    exact .live lives (List.forall_mem_nil _)
  · rw [List.modify_eq_self (not_lt.mp inside)]
    exact .keep

end SessionStep

namespace WgState

variable {c} {wg next : WgState HS}

theorem Undisturbed.sessions (still : wg.Undisturbed next) (ref : PeerRef) (count : Nat) :
    SessionStep c count (wg.peers ref).transports.val [] (next.peers ref).transports.val := .of_undisturbed (still ref) count

theorem Clears.sessions (clears : Clears peer wg next) (ref : PeerRef) (count : Nat) :
    SessionStep c count (wg.peers ref).transports.val [] (next.peers ref).transports.val := by
  by_cases here : ref = peer
  · subst here
    exact .of_cleared clears.1 count
  · exact .of_undisturbed (clears.2 ref here) count

end WgState

namespace Section

open WgState

variable {c} {wg next : WgState HS} {sec : Section HS} {ref : PeerRef}

theorem accept_sessions (roles : KeepsRoles c) (responds : c.getIsInitiator r.handshakeState = false)
    (ok : wg.acceptInitiation c env p addr r peer = .ok (next, outputs)) (count : Nat) :
    SessionStep c count (wg.peers ref).transports.val ((accept p addr r peer).sessionEvents c env wg ref count)
      (next.peers ref).transports.val := by
  by_cases here : peer = ref
  swap
  · have nothing : (accept p addr r peer).sessionEvents c env wg ref count = [] := if_neg here
    rw [nothing]
    rcases acceptInitiation_sessions c ok with ⟨_, still⟩ | ⟨_, _, _, _, q, _, _, peers, _⟩
    · exact still.sessions ref count
    · rw [peers, Function.update_of_ne (Ne.symm here)]
      exact .keep
  subst here
  rcases acceptInitiation_sessions c ok with ⟨rfl, still⟩ | ⟨noise, hs, psk, out, q, written, rfl, peers, _, pushed⟩
  · simp only [sessionEvents, if_true, ok]
    exact still.sessions peer count
  · have front : (next.peers peer).transports.val = Transport.newFromHs c env.now env.id r.peerId hs ::
        (wg.peers peer).transports.val.take 2 := by
      rw [peers, Function.update_self, pushed]
      exact ArrayVec.pushFront_take ..
    simp only [sessionEvents, if_true, ok, front]
    refine .establish rfl ?_ (nofun : ∀ out ∈ ([] : List Output), _) (.refl _)
    intro isInitiator
    have role : c.getIsInitiator hs = false := (roles.write written).trans (roles.pushPsk.trans responds)
    cases role.symm.trans isInitiator

theorem finish_sessions (ok : wg.finishSession c env addr peerId hs peer = .ok (next, outputs)) (count : Nat) :
    SessionStep c count (wg.peers ref).transports.val
      ((finish p addr selfId peerId hs peer).sessionEvents c env wg ref count) (next.peers ref).transports.val := by
  obtain ⟨h, q, u, pending, peers, lives, _, sessions, seals, _⟩ := finishSession_sessions c ok
  by_cases here : peer = ref
  · subst here
    simp only [sessionEvents, if_true, ok, pending, peers, Function.update_self, sessions]
    exact .establish rfl (fun _ => rfl) (fun out member => ⟨rfl, seals out member⟩) lives
  · have nothing : (finish p addr selfId peerId hs peer).sessionEvents c env wg ref count = [] := if_neg here
    rw [nothing, peers, Function.update_of_ne (Ne.symm here)]
    exact .keep

theorem decide_sessions (env : Env) (wg : WgState HS) (p : Bytes) (addr : SocketAddrV6) (selfId : WgId) (peer : PeerRef)
    (count : Nat) : SessionStep c count (wg.peers ref).transports.val
      ((decide p addr selfId peer).sessionEvents c env wg ref count)
      ((wg.decideTransport c env p addr selfId peer).2.peers ref).transports.val := by
  by_cases here : peer = ref
  swap
  · have nothing : (decide p addr selfId peer).sessionEvents c env wg ref count = [] := if_neg here
    rw [nothing]
    rcases decideTransport_cases c wg env p addr selfId peer with ⟨_, _, _, _, _, _, decided⟩ | ⟨_, decided⟩
    · rw [decided, setPeerState]
      dsimp only
      rw [Function.update_of_ne (Ne.symm here)]
      exact .keep
    · rw [decided, setPeerState]
      dsimp only
      rw [Function.update_of_ne (Ne.symm here)]
      exact .keep
  subst here
  rcases decideTransport_cases c wg env p addr selfId peer with
    ⟨t, h, plain, session, opens, _, decided⟩ | ⟨refused, decided⟩
  · rw [decided, setPeerState]
    dsimp only
    rw [Function.update_self]
    simp only [sessionEvents, if_true, session, opens, Option.isSome_some]
    obtain ⟨front, back, split, next, place⟩ := ArrayVec.replaceFirst_place session (t.accept (Transport.counterOf p))
    obtain ⟨⟨_, young, _⟩, _⟩ := Transport.decrypt_eq_some c opens
    have replaced :
        (WgState.received (wg.peers peer) env p.length selfId (t.accept (Transport.counterOf p)) plain).transports =
        (wg.peers peer).transports.replaceFirst (fun t => t.selfId = selfId) (t.accept (Transport.counterOf p)) := rfl
    rw [replaced, next, sessionNumber, ← place, split]
    exact .accept young rfl
  · rw [decided, setPeerState]
    dsimp only
    rw [Function.update_self]
    have nothing : (decide p addr selfId peer).sessionEvents c env wg peer count = [] := by
      simp only [sessionEvents, if_true]
      cases session : (wg.peers peer).findTransportById selfId with
      | none => rfl
      | some t => simp [refused t session]
    rw [nothing]
    exact .keep

theorem send_sessions (env : Env) (wg : WgState HS) (packet : Bytes) (peer : PeerRef) (count : Nat) :
    SessionStep c count (wg.peers ref).transports.val ((send packet peer).sessionEvents c env wg ref count)
      ((wg.sendOrEnqueue c env peer packet).2.peers ref).transports.val := by
  by_cases here : peer = ref
  · subst here
    have sends : (send packet peer).sessionEvents c env wg peer count = (wg.sendOrEnqueue c env peer packet).1.2.map
        (.sealed ((wg.peers peer).sessionNumber count Transport.getShouldSend) true) := if_pos rfl
    rw [sends]
    rcases sendOrEnqueue_sessions c wg env peer packet with ⟨nothing, still⟩ | ⟨t, q, found, peers, replaced, seals, _⟩
    · rw [nothing]
      exact still.sessions peer count
    · rw [peers, Function.update_self]
      exact .of_found found replaced (t.encrypt_lives c packet) seals count
  · have nothing : (send packet peer).sessionEvents c env wg ref count = [] := if_neg here
    rw [nothing]
    rcases sendOrEnqueue_sessions c wg env peer packet with ⟨_, still⟩ | ⟨t, q, _, peers, _⟩
    · exact still.sessions ref count
    · rw [peers, Function.update_of_ne (Ne.symm here)]
      exact .keep

theorem keepalive_sessions (env : Env) (wg : WgState HS) (peer : PeerRef) (count : Nat) :
    SessionStep c count (wg.peers ref).transports.val ((keepalive peer).sessionEvents c env wg ref count)
      ((wg.doKeepalive1 c env peer).2.peers ref).transports.val := by
  by_cases here : peer = ref
  · subst here
    have sends : (keepalive peer).sessionEvents c env wg peer count = (wg.doKeepalive1 c env peer).1.2.map
        (.sealed ((wg.peers peer).sessionNumber count Transport.getShouldSend) true) := if_pos rfl
    rw [sends]
    rcases doKeepalive1_sessions c wg env peer with ⟨nothing, still⟩ | ⟨t, q, found, peers, replaced, seals, _⟩
    · rw [nothing]
      exact still.sessions peer count
    · rw [peers, Function.update_self]
      exact .of_found found replaced (t.encrypt_lives c []) seals count
  · have nothing : (keepalive peer).sessionEvents c env wg ref count = [] := if_neg here
    rw [nothing]
    rcases doKeepalive1_sessions c wg env peer with ⟨_, still⟩ | ⟨t, q, _, peers, _⟩
    · exact still.sessions ref count
    · rw [peers, Function.update_of_ne (Ne.symm here)]
      exact .keep

/-- Every section does such steps to the sessions of a peer. -/
theorem run_sessions (roles : KeepsRoles c) (responds : sec.AsResponder c) (ok : sec.run c env wg = .ok (next, more))
    (ref : PeerRef) (count : Nat) :
    SessionStep c count (wg.peers ref).transports.val (sec.sessionEvents c env wg ref count)
      (next.peers ref).transports.val := by
  cases sec with
  | accept p addr r peer =>
    obtain ⟨⟨_, _⟩, accepted, ok⟩ := bind_eq_ok.mp ok
    obtain ⟨rfl, rfl⟩ := Prod.mk.inj (Except.ok.inj ok)
    exact accept_sessions roles responds accepted count
  | verify p addr selfId peer =>
    obtain ⟨⟨verified, _⟩, verifies, ok⟩ := bind_eq_ok.mp ok
    have still := verifyResponse_undisturbed c verifies
    cases verified <;> obtain ⟨rfl, rfl⟩ := Prod.mk.inj (Except.ok.inj ok) <;> exact still.sessions ref count
  | finish p addr selfId peerId hs peer =>
    obtain ⟨⟨_, _⟩, finished, ok⟩ := bind_eq_ok.mp ok
    obtain ⟨rfl, rfl⟩ := Prod.mk.inj (Except.ok.inj ok)
    exact finish_sessions finished count
  | cookie p peer =>
    obtain ⟨_, accepted, ok⟩ := bind_eq_ok.mp ok
    obtain ⟨rfl, rfl⟩ := Prod.mk.inj (Except.ok.inj ok)
    exact (acceptCookieReply_undisturbed c accepted).sessions ref count
  | decide p addr selfId peer =>
    obtain ⟨rfl, rfl⟩ := Prod.mk.inj (Except.ok.inj ok)
    exact decide_sessions env wg p addr selfId peer count
  | send packet peer =>
    obtain ⟨rfl, rfl⟩ := Prod.mk.inj (Except.ok.inj ok)
    exact send_sessions env wg packet peer count
  | keepalive peer =>
    obtain ⟨rfl, rfl⟩ := Prod.mk.inj (Except.ok.inj ok)
    exact keepalive_sessions env wg peer count
  | setEndpoint addr peer =>
    obtain ⟨q, set, ok⟩ := bind_eq_ok.mp ok
    obtain ⟨rfl, rfl⟩ := Prod.mk.inj (Except.ok.inj ok)
    obtain ⟨_, rfl⟩ := setEndpoint_roamed set
    have still : wg.Undisturbed (wg.setPeerState peer ((wg.peers peer).roamed addr)) := .of_update rfl ⟨rfl, rfl⟩
    exact still.sessions ref count
  | insertId selfId peer =>
    obtain ⟨rfl, rfl⟩ := Prod.mk.inj (Except.ok.inj ok)
    exact .keep
  | doHandshake peer =>
    obtain ⟨rfl, rfl⟩ := Prod.mk.inj (Except.ok.inj ok)
    exact (doHandshake_undisturbed wg env peer).sessions ref count
  | rearm peer | dropScope peer =>
    obtain ⟨rfl, rfl⟩ := Prod.mk.inj (Except.ok.inj ok)
    apply Undisturbed.sessions
    apply Undisturbed.setPeerState
    exact ⟨rfl, rfl⟩
  | dropHandshake peer =>
    obtain ⟨rfl, rfl⟩ := Prod.mk.inj (Except.ok.inj ok)
    apply Undisturbed.sessions
    refine .of_update (WgState.dropGuards_peers ..) ?_
    exact ⟨rfl, rfl⟩
  | clear peer =>
    obtain ⟨rfl, rfl⟩ := Prod.mk.inj (Except.ok.inj ok)
    exact (clearPeer_clears wg env peer).sessions ref count
  | addPeer publicKey =>
    obtain ⟨rfl, rfl⟩ := Prod.mk.inj (Except.ok.inj ok)
    unfold WgState.addPeer
    split_ifs
    · exact .keep
    · dsimp only
      by_cases here : ref = wg.nextPeer
      · subst here
        rw [Function.update_self]
        exact .drop
      · rw [Function.update_of_ne here]
        exact .keep
  | configure command peer =>
    obtain ⟨_, configured, ok⟩ := bind_eq_ok.mp ok
    obtain ⟨rfl, rfl⟩ := Prod.mk.inj (Except.ok.inj ok)
    rcases configure_sessions configured with ⟨_, still⟩ | ⟨_, clears⟩
    · exact still.sessions ref count
    · exact clears.sessions ref count
  | unlist publicKey =>
    simp only [run] at ok
    split at ok <;> obtain ⟨rfl, rfl⟩ := Prod.mk.inj (Except.ok.inj ok) <;> exact .keep
  | detach peer =>
    obtain ⟨_, detached, ok⟩ := bind_eq_ok.mp ok
    obtain ⟨rfl, rfl⟩ := Prod.mk.inj (Except.ok.inj ok)
    exact (detach_clears detached).sessions ref count
  | storeKey key =>
    obtain ⟨rfl, rfl⟩ := Prod.mk.inj (Except.ok.inj ok)
    exact .keep

end Section

/-- Starting an operation makes no session, and neither seals nor accepts anything. -/
theorem Op.begin_sessions {c : Crypto HS} {op : Op} {wg next : WgState HS}
    (ok : op.begin c env wg = .ok (next, task)) (ref : PeerRef) (count : Nat) :
    SessionStep c count (wg.peers ref).transports.val [] (next.peers ref).transports.val := by
  have does := begin_does c ok
  have still {middle : WgState HS} (ok : (Except.ok (middle, []) : Exec _) = .ok (next, task))
      (same : middle.peers = wg.peers) : wg.Undisturbed next := by
    obtain ⟨rfl, rfl⟩ := Prod.mk.inj (Except.ok.inj ok)
    exact .of_peers same
  have set {peer : PeerRef} {p : PeerState HS} (sessions : SessionStep c count (wg.peers peer).transports.val []
      p.transports.val) : SessionStep c count (wg.peers ref).transports.val []
      ((wg.setPeerState peer p).peers ref).transports.val := by
    rw [WgState.setPeerState]
    dsimp only
    by_cases here : ref = peer
    · subst here
      rwa [Function.update_self]
    · rw [Function.update_of_ne here]
      exact .keep
  cases op with
  | config op =>
    cases op <;> obtain ⟨rfl, _⟩ := does <;> exact .keep
  | setKey order key | packet padded =>
    obtain ⟨rfl, _⟩ := does
    exact .keep
  | datagram bytes addr =>
    obtain ⟨⟨_, rfl⟩, _⟩ := does
    exact .keep
  | timer peer kind =>
    obtain ⟨rfl, _⟩ := Prod.mk.inj (Except.ok.inj ok)
    apply set
    cases kind <;> exact .keep
  | resend loop =>
    obtain ⟨⟨_, _⟩, resent, ok⟩ := bind_eq_ok.mp ok
    obtain ⟨rfl, _⟩ := Prod.mk.inj (Except.ok.inj ok)
    exact (WgState.resendIteration_undisturbed c resent).sessions ref count
  | session peer i task =>
    obtain ⟨rfl, _⟩ := Prod.mk.inj (Except.ok.inj ok)
    exact set (.of_task _ i task count)
  | setPort newPort prepared =>
    simp only [Op.begin, WgState.setPort] at ok
    by_cases same : newPort = wg.info.port
    · rw [if_pos same] at ok
      exact (still ok rfl).sessions ref count
    · rw [if_neg same] at ok
      cases prepared with
      | error e => exact (still ok rfl).sessions ref count
      | ok bound => cases channel : wg.socketChannel <;> rw [channel] at ok <;> exact (still ok rfl).sessions ref count
  | setFwmark newFwmark marked =>
    simp only [Op.begin, WgState.setFwmark] at ok
    split_ifs at ok
    · exact (still ok rfl).sessions ref count
    · cases marked <;> exact (still ok rfl).sessions ref count
  | takeSocket =>
    simp only [Op.begin] at ok
    split at ok <;> exact (still ok rfl).sessions ref count
  | removeDeferred id | cancelLoop loop | startRx | updateCookieSecret secret | updateMtu mtu =>
    exact (still ok rfl).sessions ref count

end Titun
