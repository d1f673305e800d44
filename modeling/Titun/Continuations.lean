import Titun.SectionEffects

/-! Which sections an operation starts with, and which ones a section leads to. -/
namespace Titun

variable {HS : Type} (c : Crypto HS)

namespace Section

/-- The heads of handlers, with what each has found out. -/
inductive Opens (wg : WgState HS) : Section HS → Prop where
  | accept {p : Bytes} {addr : SocketAddrV6} {r : InitProcessResult HS} {rs : X25519Pubkey} {peer : PeerRef} :
    processInitiation c wg.info p = .ok (some r) → wg.pubkeyMap.get rs = some peer →
      Opens wg (accept p addr r peer)
  | verify {p : Bytes} {addr : SocketAddrV6} {selfId : WgId} {peer : PeerRef} :
    sliceArray p 8 4 = .ok selfId → wg.idMap.get selfId = some peer → Opens wg (verify p addr selfId peer)
  | cookie {p : Bytes} {selfId : WgId} {peer : PeerRef} :
    IsCookieReply p → wg.idMap.get selfId = some peer → Opens wg (cookie p peer)
  | decide {p : Bytes} {addr : SocketAddrV6} {selfId : WgId} {peer : PeerRef} :
    wg.idMap.get selfId = some peer → Opens wg (decide p addr selfId peer)
  | send {packet : Bytes} {dst : IpAddr} {peer : PeerRef} :
    wg.rt.longestMatch dst = some peer → Opens wg (send packet peer)
  | addPeer {pk : X25519Pubkey} : Opens wg (addPeer pk)
  | configure {command : SetPeerCommand} {peer : PeerRef} :
    wg.pubkeyMap.get command.publicKey = some peer → Opens wg (configure command peer)
  | unlist {pk : X25519Pubkey} : Opens wg (unlist pk)
  | storeKey {key : X25519Key} : Opens wg (storeKey key)
  | doHandshake {peer : PeerRef} : Opens wg (doHandshake peer)
  | keepalive {peer : PeerRef} : Opens wg (keepalive peer)
  | rearm {peer : PeerRef} : Opens wg (rearm peer)
  | dropScope {peer : PeerRef} : Opens wg (dropScope peer)
  | dropHandshake {peer : PeerRef} : Opens wg (dropHandshake peer)
  | clear {peer : PeerRef} : Opens wg (clear peer)

inductive Leads (wg : WgState HS) : Section HS → Section HS → Prop where
  | insertId {p : Bytes} {addr : SocketAddrV6} {selfId : WgId} {peer : PeerRef} :
    Leads wg (verify p addr selfId peer) (insertId selfId peer)
  | finish {p : Bytes} {addr : SocketAddrV6} {selfId peerId : WgId} {hs : HS} {peer : PeerRef} :
    Leads wg (verify p addr selfId peer) (finish p addr selfId peerId hs peer)
  | doHandshake {sec : Section HS} {peer : PeerRef} : Leads wg sec (doHandshake peer)
  | setEndpoint {p : Bytes} {addr : SocketAddrV6} {selfId : WgId} {peer : PeerRef} :
    (wg.peers peer).info.roaming = true → Leads wg (decide p addr selfId peer) (setEndpoint addr peer)
  | detach {pk : X25519Pubkey} {peer : PeerRef} : Leads wg (unlist pk) (detach peer)

theorem run_leads {sec : Section HS} {wg next : WgState HS} (ok : sec.run c env wg = .ok (next, more)) :
    ∀ later ∈ more, Leads wg sec later := by
  have does := run_does c ok
  intro later member
  cases sec with
  | accept p addr r peer | insertId selfId peer | finish p addr selfId peerId hs peer | setEndpoint addr peer
  | cookie p peer | doHandshake peer | rearm peer | dropScope peer | dropHandshake peer | clear peer
  | addPeer pk | configure command peer | detach peer | storeKey key =>
    obtain ⟨rfl, _⟩ := does
    cases member
  | verify p addr selfId peer =>
    obtain ⟨_, rfl | ⟨_, _, _, _, _, _, rfl⟩⟩ := does
    · cases member
    · simp only [List.mem_cons, List.not_mem_nil, or_false] at member
      rcases member with rfl | rfl
      · exact .insertId
      · exact .finish
  | decide p addr selfId peer =>
    rcases does.2 later member with rfl | ⟨rfl, roaming⟩
    · exact .doHandshake
    · exact .setEndpoint roaming
  | send packet peer | keepalive peer =>
    rw [does.2 later member]
    exact .doHandshake
  | unlist pk =>
    obtain ⟨rfl, _⟩ | ⟨_, _, rfl, _⟩ := does
    · cases member
    · rw [List.mem_singleton.mp member]
      exact .detach

end Section

theorem Op.begin_opens {op : Op} {wg next : WgState HS} (ok : op.begin c env wg = .ok (next, task)) :
    ∀ sec ∈ task, sec.Opens c wg := by
  have does := begin_does c ok
  intro sec member
  cases op with
  | config op =>
    cases op with
    | addPeer pk =>
      obtain ⟨_, rfl⟩ := does
      rw [List.mem_singleton.mp member]
      exact .addPeer
    | removePeer pk =>
      obtain ⟨_, rfl⟩ := does
      rw [List.mem_singleton.mp member]
      exact .unlist
    | setPeer command =>
      obtain ⟨_, rfl | ⟨peer, found, rfl⟩⟩ := does
      · cases member
      · rw [List.mem_singleton.mp member]
        exact .configure found
    | removeAllPeers order =>
      obtain ⟨_, rfl⟩ := does
      obtain ⟨pk, _, rfl⟩ := List.mem_map.mp member
      exact .unlist
  | setKey order key =>
    obtain ⟨_, rfl⟩ := does
    rcases List.mem_append.mp member with clears | stores
    · obtain ⟨peer, _, rfl⟩ := List.mem_map.mp clears
      exact .clear
    · rw [List.mem_singleton.mp stores]
      exact .storeKey
  | datagram bytes addr =>
    obtain ⟨_, received⟩ := does
    cases received with
    | nothing => cases member
    | accept _ processed found =>
      rw [List.mem_singleton.mp member]
      exact .accept processed found
    | verify _ index found =>
      rw [List.mem_singleton.mp member]
      exact .verify index found
    | cookie reply found =>
      rw [List.mem_singleton.mp member]
      exact .cookie reply found
    | decide found =>
      rw [List.mem_singleton.mp member]
      exact .decide found
  | packet padded =>
    obtain ⟨_, rfl | ⟨_, _, peer, route, rfl⟩⟩ := does
    · cases member
    · rw [List.mem_singleton.mp member]
      exact .send route
  | timer peer kind =>
    obtain ⟨_, rfl | rfl⟩ := does
    · cases member
    · cases kind <;> simp only [TimerKind.sections, List.mem_cons, List.not_mem_nil, or_false] at member
      case persistentKeepalive | stopHandshake => rcases member with rfl | rfl <;> constructor
      all_goals
        subst member
        constructor
  | resend loop | removeDeferred id | setPort newPort prepared | setFwmark newFwmark marked | cancelLoop loop
  | session peer i task | startRx | takeSocket | updateCookieSecret secret | updateMtu mtu =>
    obtain ⟨rfl, _⟩ := does
    cases member

/-- Only datagrams and `set_key` lead to sections under a lock of `info` that is held on. -/
theorem Op.begin_plain {op : Op} {wg next : WgState HS} (ok : op.begin c env wg = .ok (next, task))
    (member : sec ∈ task) :
    (∃ bytes addr, op = .datagram bytes addr) ∨ (∃ order key, op = .setKey order key) ∨
      ¬ sec.ReadsInfo ∧ ¬ sec.WritesInfo := by
  have does := begin_does c ok
  have plain {other : Section HS} (same : sec = other) (free : ¬ other.ReadsInfo ∧ ¬ other.WritesInfo) :
      (∃ bytes addr, op = .datagram bytes addr) ∨ (∃ order key, op = .setKey order key) ∨
        ¬ sec.ReadsInfo ∧ ¬ sec.WritesInfo := .inr (.inr (same ▸ free))
  cases op with
  | datagram bytes addr => exact .inl ⟨bytes, addr, rfl⟩
  | setKey order key => exact .inr (.inl ⟨order, key, rfl⟩)
  | config op =>
    cases op with
    | addPeer pk | removePeer pk =>
      obtain ⟨_, rfl⟩ := does
      exact plain (List.mem_singleton.mp member) ⟨id, id⟩
    | setPeer command =>
      obtain ⟨_, rfl | ⟨peer, _, rfl⟩⟩ := does
      · cases member
      · exact plain (List.mem_singleton.mp member) ⟨id, id⟩
    | removeAllPeers order =>
      obtain ⟨_, rfl⟩ := does
      obtain ⟨pk, _, same⟩ := List.mem_map.mp member
      exact plain same.symm ⟨id, id⟩
  | packet padded =>
    obtain ⟨_, rfl | ⟨_, _, peer, _, rfl⟩⟩ := does
    · cases member
    · exact plain (List.mem_singleton.mp member) ⟨id, id⟩
  | timer peer kind =>
    obtain ⟨_, rfl | rfl⟩ := does
    · cases member
    · cases kind <;> simp only [TimerKind.sections, List.mem_cons, List.not_mem_nil, or_false] at member
      case persistentKeepalive | stopHandshake =>
        rcases member with same | same <;> exact plain same ⟨id, id⟩
      all_goals exact plain member ⟨id, id⟩
  | resend loop | removeDeferred id | setPort newPort prepared | setFwmark newFwmark marked | cancelLoop loop
  | session peer i task | startRx | takeSocket | updateCookieSecret secret | updateMtu mtu =>
    obtain ⟨rfl, _⟩ := does
    cases member

end Titun
