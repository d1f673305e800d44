import Titun.Continuations
import Titun.References

/-! A peer gets a handshake or a session in three ways only: it accepts an initiation, completes a
response, or initiates a handshake. -/
namespace Titun

variable {HS : Type} (c : Crypto HS)

namespace PeerState

/-- A peer gets neither a handshake nor a session. -/
def Keeps (p q : PeerState HS) : Prop :=
  (q.handshake = none ∨ q.handshake = p.handshake) ∧ q.sessions ⊆ p.sessions

/-- There is neither a pending handshake nor a session. -/
def Blank (p : PeerState HS) : Prop := p.handshake = none ∧ p.sessions = []

namespace Keeps

variable {p q r : PeerState HS}

theorem of_calm (calm : p.Calm q) : p.Keeps q :=
  ⟨.inr calm.handshake, fun _ member => calm.sessions ▸ member⟩

theorem of_blank (blank : q.Blank) : p.Keeps q := ⟨.inl blank.1, by simp [blank.2]⟩

theorem blank (keeps : p.Keeps q) (blank : p.Blank) : q.Blank := by
  obtain ⟨handshake, sessions⟩ := keeps
  refine ⟨?_, List.subset_nil.mp (blank.2 ▸ sessions)⟩
  rcases handshake with gone | same
  · exact gone
  · exact same.trans blank.1

end Keeps

theorem new_blank (pk : X25519Pubkey) (now : Instant) : (PeerState.new pk now : PeerState HS).Blank :=
  ⟨rfl, rfl⟩

theorem clear_blank (p : PeerState HS) : p.clear.2.Blank := ⟨rfl, rfl⟩

theorem Blank.ownedIds {p : PeerState HS} (blank : p.Blank) : p.ownedIds = [] := by
  rw [ownedIds_eq, handshakeIds, blank.1, blank.2]
  rfl

end PeerState

namespace WgState

/-- A public key leads to the peer. -/
def Listed (wg : WgState HS) (ref : PeerRef) : Prop := ∃ pk, wg.pubkeyMap.get pk = some ref

variable {wg next : WgState HS} {peer : PeerRef} {p : PeerState HS}

theorem Becomes.keeps (becomes : Becomes peer p reg wg next) (keeps : (wg.peers peer).Keeps p)
    (ref : PeerRef) : (wg.peers ref).Keeps (next.peers ref) := by
  by_cases here : ref = peer
  · rw [here, becomes.self]
    exact keeps
  · exact .of_calm (becomes.others ref here)

theorem Quiet.keeps (quiet : Quiet peer wg next) (ref : PeerRef) :
    (wg.peers ref).Keeps (next.peers ref) := .of_calm (quiet.calm ref)

theorem Cleared.keeps (cleared : Cleared wg env peer next) (ref : PeerRef) :
    (wg.peers ref).Keeps (next.peers ref) := Becomes.keeps cleared (.of_blank (PeerState.clear_blank _)) ref

theorem Configured.keeps {q : PeerState HS} (configured : Configured command p q dropped) : p.Keeps q := by
  by_cases same : p.info.psk = command.presharedKey
  · obtain ⟨handshake, sessions, _⟩ := configured.kept same
    exact ⟨.inr handshake, fun _ member => sessions ▸ member⟩
  · obtain ⟨handshake, sessions, _⟩ := configured.rekeyed same
    exact .of_blank ⟨handshake, sessions⟩

theorem addPeer_keeps (wg : WgState HS) (env : Env) (pk : X25519Pubkey) (ref : PeerRef) :
    (wg.peers ref).Keeps ((wg.addPeer env pk).2.peers ref) := by
  unfold addPeer
  split_ifs
  · exact .of_calm (.refl _)
  · by_cases here : ref = wg.nextPeer
    · simpa [here] using PeerState.Keeps.of_blank (PeerState.new_blank pk env.now)
    · simpa [here] using PeerState.Keeps.of_calm (.refl (wg.peers ref))

theorem addPeer_listed {env : Env} {pk : X25519Pubkey} (listed : (wg.addPeer env pk).2.Listed ref) :
    wg.Listed ref ∨ ref = wg.nextPeer ∧ ((wg.addPeer env pk).2.peers ref).Blank := by
  unfold addPeer at listed ⊢
  split_ifs at listed ⊢
  · exact .inl listed
  · obtain ⟨k, found⟩ := listed
    rw [HashMap.get_insert] at found
    split_ifs at found
    · obtain rfl := Option.some.inj found
      exact .inr ⟨rfl, by simpa using PeerState.new_blank pk env.now⟩
    · exact .inl ⟨k, found⟩

end WgState

namespace Section

open WgState

/-- The only sections after which a peer can have a new handshake or session. -/
theorem run_keeps {sec : Section HS} (ok : sec.run c env wg = .ok (next, more)) :
    (∀ ref, (wg.peers ref).Keeps (next.peers ref)) ∨
    (∃ p addr r peer, sec = accept p addr r peer ∧ wg.Answers c env r peer ∧
      wg.Accepted c env addr r peer next) ∨
    ∃ p addr selfId peerId hs peer, sec = finish p addr selfId peerId hs peer ∧
      wg.Finished c env addr peerId hs peer next := by
  have does := run_does c ok
  cases sec with
  | accept p addr r peer =>
    obtain ⟨_, ⟨_, calm⟩ | ⟨answers, accepted⟩⟩ := does
    · exact .inl calm.keeps
    · exact .inr (.inl ⟨p, addr, r, peer, rfl, answers, accepted⟩)
  | finish p addr selfId peerId hs peer =>
    exact .inr (.inr ⟨p, addr, selfId, peerId, hs, peer, rfl, does.2⟩)
  | verify p addr selfId peer | decide p addr selfId peer => exact .inl does.1.keeps
  | send packet peer | keepalive peer => exact .inl does.1.keeps
  | insertId selfId peer => exact .inl (does.2.keeps (.of_calm (.refl _)))
  | setEndpoint addr peer => exact .inl (does.2.2.keeps ⟨.inr rfl, List.Subset.refl _⟩)
  | cookie p peer | doHandshake peer | rearm peer | dropScope peer => exact .inl does.2.keeps
  | dropHandshake peer => exact .inl (does.2.keeps ⟨.inl rfl, List.Subset.refl _⟩)
  | clear peer => exact .inl does.2.1.keeps
  | addPeer pk =>
    obtain ⟨_, rfl⟩ := does
    exact .inl (addPeer_keeps wg env pk)
  | configure command peer =>
    obtain ⟨_, q, dropped, configured, becomes⟩ := does
    exact .inl (becomes.keeps configured.keeps)
  | unlist pk =>
    obtain ⟨_, _, rfl⟩ | ⟨peer, _, _, rfl⟩ := does <;> exact .inl fun ref => .of_calm (.refl _)
  | detach peer => exact .inl does.2.keeps
  | storeKey key =>
    obtain ⟨_, rfl⟩ := does
    exact .inl fun ref => .of_calm (.refl _)

/-- All but three sections leave the map of public keys and the key alone. -/
theorem run_becomes {sec : Section HS} (ok : sec.run c env wg = .ok (next, more)) :
    (∃ peer p reg, Becomes peer p reg { wg with rt := next.rt } next) ∨
    (∃ pk, sec = addPeer pk ∧ next = (wg.addPeer env pk).2) ∨
    (∃ pk, sec = unlist pk ∧ (next = wg ∨ next = { wg with pubkeyMap := wg.pubkeyMap.remove pk })) ∨
    ∃ key, sec = storeKey key ∧ next = { wg with info := { wg.info with key } } := by
  have does := run_does c ok
  have same {peer : PeerRef} {p : PeerState HS} {reg : Registry WgId PeerRef}
      (becomes : Becomes peer p reg wg next) :
      ∃ peer p reg, Becomes peer p reg { wg with rt := next.rt } next :=
    ⟨peer, p, reg, { becomes with rt := rfl }⟩
  have quiet {peer : PeerRef} (quiet : Quiet peer wg next) :
      ∃ peer p reg, Becomes peer p reg { wg with rt := next.rt } next := by
    obtain ⟨_, _, becomes⟩ := quiet
    exact same becomes
  cases sec with
  | accept p addr r peer =>
    obtain ⟨_, ⟨_, calm⟩ | ⟨_, _, _, _, _, _, _, becomes⟩⟩ := does
    · exact .inl (quiet calm)
    · exact .inl (same becomes)
  | finish p addr selfId peerId hs peer =>
    obtain ⟨_, _, _, _, _, _, becomes⟩ := does
    exact .inl (same becomes)
  | verify p addr selfId peer | decide p addr selfId peer => exact .inl (quiet does.1)
  | send packet peer | keepalive peer => exact .inl (quiet does.1)
  | insertId selfId peer => exact .inl (same does.2)
  | setEndpoint addr peer => exact .inl (same does.2.2)
  | cookie p peer | doHandshake peer | rearm peer | dropScope peer => exact .inl (quiet does.2)
  | dropHandshake peer => exact .inl (same does.2)
  | clear peer => exact .inl ⟨peer, _, _, does.2.1⟩
  | addPeer pk => exact .inr (.inl ⟨pk, rfl, does.2⟩)
  | configure command peer =>
    obtain ⟨_, q, dropped, _, becomes⟩ := does
    exact .inl ⟨peer, _, _, becomes⟩
  | unlist pk =>
    obtain ⟨_, _, same⟩ | ⟨_, _, _, removed⟩ := does
    · exact .inr (.inr (.inl ⟨pk, rfl, .inl same⟩))
    · exact .inr (.inr (.inl ⟨pk, rfl, .inr removed⟩))
  | detach peer => exact .inl ⟨peer, _, _, does.2⟩
  | storeKey key => exact .inr (.inr (.inr ⟨key, rfl, does.2⟩))

theorem run_listed {sec : Section HS} (ok : sec.run c env wg = .ok (next, more))
    (listed : next.Listed ref) : wg.Listed ref ∨ ref = wg.nextPeer ∧ (next.peers ref).Blank := by
  rcases run_becomes c ok with ⟨_, _, _, becomes⟩ | ⟨pk, _, rfl⟩ | ⟨pk, _, rfl | rfl⟩ | ⟨key, _, rfl⟩
  · obtain ⟨pk, found⟩ := listed
    exact .inl ⟨pk, by rwa [becomes.pubkeyMap] at found⟩
  · exact addPeer_listed listed
  · exact .inl listed
  · obtain ⟨k, found⟩ := listed
    rw [HashMap.get_remove] at found
    split_ifs at found
    exact .inl ⟨k, found⟩
  · exact .inl listed

theorem run_key {sec : Section HS} (ok : sec.run c env wg = .ok (next, more)) :
    next.info.key = wg.info.key ∨
      ∃ key, sec = storeKey key ∧ next = { wg with info := { wg.info with key } } := by
  rcases run_becomes c ok with ⟨_, _, _, becomes⟩ | ⟨pk, _, rfl⟩ | ⟨pk, _, rfl | rfl⟩ | stored
  · exact .inl becomes.key
  · unfold WgState.addPeer
    split_ifs <;> exact .inl rfl
  · exact .inl rfl
  · exact .inl rfl
  · exact .inr stored

/-- What a section leads to holds no lock of `info` that the section does not hold. -/
theorem run_locks {sec : Section HS} (ok : sec.run c env wg = .ok (next, more)) :
    ∀ later ∈ more, (later.ReadsInfo → sec.ReadsInfo) ∧ ¬ later.WritesInfo := by
  intro later member
  cases run_leads c ok later member with
  | insertId | finish => exact ⟨fun _ => trivial, id⟩
  | doHandshake | setEndpoint _ | detach => exact ⟨False.elim, id⟩

end Section

section Start

open WgState

theorem Op.begin_keeps {op : Op} {wg next : WgState HS} (ok : op.begin c env wg = .ok (next, task)) :
    next.info.key = wg.info.key ∧ next.pubkeyMap = wg.pubkeyMap ∧
    ((∀ ref, (wg.peers ref).Keeps (next.peers ref)) ∨
      ∃ loop, op = .resend loop ∧ wg.Initiates c env loop.peer ∧ wg.Initiated c env loop.peer next) := by
  have does := begin_does c ok
  have same (eq : next = wg) : next.info.key = wg.info.key ∧ next.pubkeyMap = wg.pubkeyMap ∧
      ((∀ ref, (wg.peers ref).Keeps (next.peers ref)) ∨
        ∃ loop, op = .resend loop ∧ wg.Initiates c env loop.peer ∧ wg.Initiated c env loop.peer next) := by
    subst eq
    exact ⟨rfl, rfl, .inl fun ref => .of_calm (.refl _)⟩
  have quiet {peer : PeerRef} (quiet : Quiet peer wg next) :
      next.info.key = wg.info.key ∧ next.pubkeyMap = wg.pubkeyMap ∧
      ((∀ ref, (wg.peers ref).Keeps (next.peers ref)) ∨
        ∃ loop, op = .resend loop ∧ wg.Initiates c env loop.peer ∧ wg.Initiated c env loop.peer next) := by
    obtain ⟨p, calm, becomes⟩ := quiet
    exact ⟨becomes.key, becomes.pubkeyMap, .inl (Quiet.keeps ⟨p, calm, becomes⟩)⟩
  cases op with
  | config op => cases op <;> exact same does.1
  | setKey order key => exact same does.1
  | datagram bytes addr =>
    obtain ⟨⟨loadMonitor, rfl⟩, _⟩ := does
    exact ⟨rfl, rfl, .inl fun ref => .of_calm (.refl _)⟩
  | packet padded => exact same does.1
  | timer peer kind => exact quiet does.1
  | resend loop =>
    obtain ⟨_, ⟨_, reg, becomes, _⟩ | ⟨initiates, initiated⟩⟩ := does
    · exact ⟨becomes.key, becomes.pubkeyMap, .inl (becomes.keeps (.of_calm (.refl _)))⟩
    · have becomes := initiated.choose_spec.choose_spec.choose_spec.2.2.2.2
      exact ⟨becomes.key, becomes.pubkeyMap, .inr ⟨loop, rfl, initiates, initiated⟩⟩
  | removeDeferred id =>
    obtain ⟨_, rfl⟩ := does
    exact ⟨rfl, rfl, .inl fun ref => .of_calm (.refl _)⟩
  | setPort newPort prepared | setFwmark newFwmark marked | cancelLoop loop | session peer i task | startRx
  | takeSocket | updateCookieSecret secret | updateMtu mtu =>
    obtain ⟨_, ⟨peer, calm⟩, _⟩ := does
    exact quiet calm

end Start

end Titun
