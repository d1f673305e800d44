import Titun.Acquisitions
import Titun.DaemonEvolution

/-! While operations run one at a time, every route leads to a peer that is listed, but for those that a
removal has still to take out of the tables. -/
namespace Titun

variable {HS : Type} (c : Crypto HS)

open WgState

namespace WgState

variable {wg next : WgState HS}

theorem verifyResponse_sameRouting (ok : wg.verifyResponse c p selfId peer = .ok (verified, next)) :
    SameRouting wg next := by
  have counted : SameRouting wg (wg.setPeerState peer ((wg.peers peer).countRecv p.length)) :=
    .setPeerState rfl rfl
  simp only [verifyResponse] at ok
  split at ok
  · obtain ⟨_, rfl⟩ := Prod.mk.inj (Except.ok.inj ok)
    exact counted
  · split_ifs at ok
    · obtain ⟨_, rfl⟩ := Prod.mk.inj (Except.ok.inj ok)
      exact counted
    · obtain ⟨result, _, ok⟩ := bind_eq_ok.mp ok
      cases result <;>
      · obtain ⟨_, rfl⟩ := Prod.mk.inj (Except.ok.inj ok)
        exact counted

theorem acceptCookieReply_sameRouting (ok : wg.acceptCookieReply c env p peer = .ok next) : SameRouting wg next := by
  simp only [acceptCookieReply] at ok
  split at ok
  · obtain rfl := Except.ok.inj ok
    exact .setPeerState rfl rfl
  · obtain ⟨result, _, ok⟩ := bind_eq_ok.mp ok
    cases result <;>
    · obtain rfl := Except.ok.inj ok
      exact .setPeerState rfl rfl

theorem acceptInitiation_sameRouting (ok : wg.acceptInitiation c env p addr r peer = .ok (next, outputs)) :
    SameRouting wg next := by
  rcases acceptInitiation_cases c ok with ⟨_, _, _, rfl⟩ | ⟨_, _, _, q, _, _, _, _, leaves, rfl⟩
  · exact .setPeerState rfl rfl
  · have changed : SameRouting wg (wg.setPeerState peer q) := by
      apply SameRouting.setPeerState <;> rw [leaves.info] <;> rfl
    apply (changed.trans (.dropGuards _ env _)).trans
    exact ⟨rfl, rfl, rfl, fun _ => rfl, fun _ => rfl⟩

theorem finishSession_sameRouting (ok : wg.finishSession c env addr peerId hs peer = .ok (next, outputs)) :
    SameRouting wg next := by
  obtain ⟨_, _, q, _, leaves, rfl⟩ := finishSession_cases c ok
  have changed : SameRouting wg (wg.setPeerState peer q) := by
    apply SameRouting.setPeerState <;> rw [leaves.info] <;> rfl
  exact changed.trans (.dropGuards _ env _)

theorem decideTransport_sameRouting (wg : WgState HS) (env : Env) (p : Bytes) (addr : SocketAddrV6) (selfId : WgId)
    (peer : PeerRef) : SameRouting wg (wg.decideTransport c env p addr selfId peer).2 := by
  rcases decideTransport_cases c wg env p addr selfId peer with ⟨_, _, _, _, _, _, decided⟩ | ⟨_, decided⟩
  · rw [decided]
    exact .setPeerState rfl rfl
  · rw [decided]
    exact .setPeerState rfl rfl

end WgState

/-- The sections that change which peer is listed or owns what. -/
def Section.Reroutes : Section HS → Prop
  | addPeer _ | configure _ _ | unlist _ | detach _ => True
  | _ => False

theorem Section.run_sameRouting {sec : Section HS} {wg next : WgState HS} (keeps : ¬ sec.Reroutes)
    (ok : sec.run c env wg = .ok (next, more)) : SameRouting wg next := by
  cases sec with
  | accept p addr r peer =>
    obtain ⟨⟨_, _⟩, accepted, ok⟩ := bind_eq_ok.mp ok
    obtain ⟨rfl, _⟩ := Prod.mk.inj (Except.ok.inj ok)
    exact acceptInitiation_sameRouting c accepted
  | verify p addr selfId peer =>
    obtain ⟨⟨verified, _⟩, verifies, ok⟩ := bind_eq_ok.mp ok
    cases verified <;>
    · obtain ⟨rfl, _⟩ := Prod.mk.inj (Except.ok.inj ok)
      exact verifyResponse_sameRouting c verifies
  | finish p addr selfId peerId hs peer =>
    obtain ⟨⟨_, _⟩, finished, ok⟩ := bind_eq_ok.mp ok
    obtain ⟨rfl, _⟩ := Prod.mk.inj (Except.ok.inj ok)
    exact finishSession_sameRouting c finished
  | cookie p peer =>
    obtain ⟨_, accepted, ok⟩ := bind_eq_ok.mp ok
    obtain ⟨rfl, _⟩ := Prod.mk.inj (Except.ok.inj ok)
    exact acceptCookieReply_sameRouting c accepted
  | setEndpoint addr peer =>
    obtain ⟨q, set, ok⟩ := bind_eq_ok.mp ok
    obtain ⟨rfl, _⟩ := Prod.mk.inj (Except.ok.inj ok)
    rw [setEndpoint_eq set]
    exact .setPeerState rfl rfl
  | dropHandshake peer =>
    obtain ⟨rfl, _⟩ := Prod.mk.inj (Except.ok.inj ok)
    have changed : SameRouting wg (wg.setPeerState peer { wg.peers peer with handshake := none }) :=
      .setPeerState rfl rfl
    exact changed.trans (.dropGuards _ env _)
  | decide p addr selfId peer =>
    obtain ⟨rfl, _⟩ := Prod.mk.inj (Except.ok.inj ok)
    exact decideTransport_sameRouting c wg env p addr selfId peer
  | doHandshake peer =>
    obtain ⟨rfl, _⟩ := Prod.mk.inj (Except.ok.inj ok)
    exact (doHandshake_touches wg env peer).routing
  | send packet peer =>
    obtain ⟨rfl, _⟩ := Prod.mk.inj (Except.ok.inj ok)
    exact (sendOrEnqueue_touches c wg env peer packet).routing
  | keepalive peer =>
    obtain ⟨rfl, _⟩ := Prod.mk.inj (Except.ok.inj ok)
    exact (doKeepalive1_touches c wg env peer).routing
  | rearm peer | dropScope peer =>
    obtain ⟨rfl, _⟩ := Prod.mk.inj (Except.ok.inj ok)
    exact .setPeerState rfl rfl
  | clear peer =>
    obtain ⟨rfl, _⟩ := Prod.mk.inj (Except.ok.inj ok)
    exact .clearPeer wg env peer
  | insertId selfId peer | storeKey key =>
    obtain ⟨rfl, _⟩ := Prod.mk.inj (Except.ok.inj ok)
    exact ⟨rfl, rfl, rfl, fun _ => rfl, fun _ => rfl⟩
  | addPeer _ | configure _ _ | unlist _ | detach _ => exact absurd trivial keeps

theorem Op.begin_sameRouting {op : Op} {wg next : WgState HS} (ok : op.begin c env wg = .ok (next, task)) :
    SameRouting wg next := by
  have calm {next : WgState HS} (rt : next.rt = wg.rt) (pubkeyMap : next.pubkeyMap = wg.pubkeyMap)
      (nextPeer : next.nextPeer = wg.nextPeer) (peers : next.peers = wg.peers) : SameRouting wg next :=
    ⟨rt, pubkeyMap, nextPeer, fun ref => by rw [peers], fun ref => by rw [peers]⟩
  cases op with
  | config op =>
    cases op <;>
    · obtain ⟨rfl, _⟩ := Op.begin_does c ok
      exact .refl _
  | setKey order key | packet padded =>
    obtain ⟨rfl, _⟩ := Op.begin_does c ok
    exact .refl _
  | datagram bytes addr =>
    obtain ⟨⟨_, rfl⟩, _⟩ := Op.begin_does c ok
    exact calm rfl rfl rfl rfl
  | removeDeferred id =>
    obtain ⟨_, rfl⟩ := Op.begin_does c ok
    exact calm rfl rfl rfl rfl
  | setPort newPort prepared =>
    obtain ⟨rfl, _⟩ := Prod.mk.inj (Except.ok.inj ok)
    exact (Daemon.setPort_touches wg newPort prepared).routing
  | setFwmark newFwmark marked =>
    obtain ⟨rfl, _⟩ := Prod.mk.inj (Except.ok.inj ok)
    exact (Daemon.setFwmark_touches wg newFwmark marked).routing
  | timer peer kind =>
    obtain ⟨rfl, _⟩ := Prod.mk.inj (Except.ok.inj ok)
    cases kind <;> exact .setPeerState rfl rfl
  | resend loop =>
    obtain ⟨⟨_, _⟩, resent, ok⟩ := bind_eq_ok.mp ok
    obtain ⟨rfl, _⟩ := Prod.mk.inj (Except.ok.inj ok)
    exact (resendIteration_touches c resent fun _ => rfl).routing
  | session peer i task =>
    obtain ⟨rfl, _⟩ := Prod.mk.inj (Except.ok.inj ok)
    exact (modifySession_touches wg peer i task).routing
  | takeSocket =>
    simp only [Op.begin] at ok
    split at ok <;>
    · obtain ⟨rfl, _⟩ := Prod.mk.inj (Except.ok.inj ok)
      exact calm rfl rfl rfl rfl
  | cancelLoop loop | startRx | updateCookieSecret secret | updateMtu mtu =>
    obtain ⟨rfl, _⟩ := Prod.mk.inj (Except.ok.inj ok)
    exact calm rfl rfl rfl rfl

/-- An operation starts with one section at most, unless it visits all peers or a timer fires. -/
theorem Op.begin_lone {op : Op} {wg next : WgState HS} (ok : op.begin c env wg = .ok (next, task)) :
    task.length ≤ 1 ∨ (∃ pks : List X25519Pubkey, task = pks.map .unlist) ∨
      (∃ (peers : List PeerRef) (key : X25519Key), task = peers.map .clear ++ [.storeKey key]) ∨
      ∃ (kind : TimerKind) (peer : PeerRef), task = kind.sections peer := by
  cases op with
  | config op =>
    cases op with
    | addPeer pk | removePeer pk =>
      obtain ⟨_, rfl⟩ := Op.begin_does c ok
      exact .inl le_rfl
    | setPeer command =>
      obtain ⟨_, rfl | ⟨_, _, rfl⟩⟩ := Op.begin_does c ok
      · exact .inl (Nat.zero_le 1)
      · exact .inl le_rfl
    | removeAllPeers order =>
      obtain ⟨_, rfl⟩ := Op.begin_does c ok
      exact .inr (.inl ⟨_, rfl⟩)
  | setKey order key =>
    obtain ⟨_, rfl⟩ := Op.begin_does c ok
    exact .inr (.inr (.inl ⟨_, key, rfl⟩))
  | datagram bytes addr =>
    obtain ⟨_, received⟩ := Op.begin_does c ok
    cases received <;> exact .inl (by simp)
  | packet padded =>
    obtain ⟨_, rfl | ⟨_, _, _, _, rfl⟩⟩ := Op.begin_does c ok
    · exact .inl (Nat.zero_le 1)
    · exact .inl le_rfl
  | timer peer kind =>
    obtain ⟨_, rfl | rfl⟩ := Op.begin_does c ok
    · exact .inl (Nat.zero_le 1)
    · exact .inr (.inr (.inr ⟨kind, peer, rfl⟩))
  | _ =>
    obtain ⟨rfl, _⟩ := Op.begin_does c ok
    exact .inl (Nat.zero_le 1)

theorem Op.begin_configures {op : Op} {wg next : WgState HS} (ok : op.begin c env wg = .ok (next, task))
    (member : .configure command peer ∈ task) :
    task = [.configure command peer] ∧ wg.pubkeyMap.get command.publicKey = some peer := by
  constructor
  · rcases Op.begin_lone c ok with short | ⟨pks, rfl⟩ | ⟨peers, key, rfl⟩ | ⟨kind, ref, rfl⟩
    · obtain ⟨sec, rfl⟩ := List.length_eq_one_iff.mp (short.antisymm (List.length_pos_of_mem member))
      rw [List.mem_singleton.mp member]
    · simp at member
    · simp at member
    · cases kind <;> simp [TimerKind.sections] at member
  · cases Op.begin_opens c ok _ member with
    | configure found => exact found

namespace Program

/-- An operation starts once the one before it has ended. -/
def OneAtATime (s : Program HS) (l : Label) : Prop := ∀ op, l.event = .start op → ∀ i, s.tasks i = []

/-- One operation is under way at most. -/
def Sequential (s : Program HS) : Prop := ∀ i j, s.tasks i ≠ [] → s.tasks j ≠ [] → i = j

variable {c} {s next : Program HS}

namespace Sequential

theorem others_idle (sequential : s.Sequential) (head : s.tasks i = sec :: rest) (apart : j ≠ i) : s.tasks j = [] := by
  by_contra busy
  exact apart (sequential j i busy (by simp [head]))

theorem mem_proceeded (sequential : s.Sequential) (head : s.tasks i = sec :: rest)
    (member : later ∈ Function.update s.tasks i (more ++ rest) j) : j = i ∧ (later ∈ more ∨ later ∈ rest) := by
  rcases mem_update member with ⟨here, new⟩ | ⟨apart, old⟩
  · exact ⟨here, List.mem_append.mp new⟩
  · rw [sequential.others_idle head apart] at old
    cases old

end Sequential

theorem mem_started {task : List (Section HS)} (idle : ∀ i, s.tasks i = [])
    (member : sec ∈ Function.update s.tasks i task j) : j = i ∧ sec ∈ task := by
  rcases mem_update member with here | ⟨_, old⟩
  · exact here
  · rw [idle j] at old
    cases old

theorem Sequential.step (sequential : s.Sequential) (alone : s.OneAtATime l) (step : Step c s l next) :
    next.Sequential := by
  intro j k first second
  obtain ⟨sec, isFirst⟩ := List.exists_mem_of_ne_nil _ first
  obtain ⟨sec', isSecond⟩ := List.exists_mem_of_ne_nil _ second
  cases step with
  | start idle enabled ok =>
    exact (mem_started (alone _ rfl) isFirst).1.trans (mem_started (alone _ rfl) isSecond).1.symm
  | proceed head free ok =>
    exact (sequential.mem_proceeded head isFirst).1.trans (sequential.mem_proceeded head isSecond).1.symm

/-- The routes agree with who owns what, or will once a peer that is not listed any more is detached. -/
inductive Routing (s : Program HS) : Prop where
  | settled {o : Ownership} : Refines s.wg o → (∀ i ref, .detach ref ∉ s.tasks i) → Routing s
  | detaching {wg : WgState HS} {o : Ownership} {pk : X25519Pubkey} {ref : PeerRef} {i : Nat}
    {rest : List (Section HS)} :
    Refines wg o → wg.pubkeyMap.get pk = some ref → s.wg = { wg with pubkeyMap := wg.pubkeyMap.remove pk } →
      s.tasks i = .detach ref :: rest → (∀ other, .detach other ∉ rest) → Routing s

/-- Operations run one at a time, the routes agree with who owns what, and peers are configured that are
listed. -/
structure Routed (s : Program HS) : Prop where
  sound : s.Sound
  sequential : s.Sequential
  routing : s.Routing
  configuring : ∀ i command peer, .configure command peer ∈ s.tasks i →
    s.tasks i = [.configure command peer] ∧ s.wg.pubkeyMap.get command.publicKey = some peer

theorem start_routed (info : WgInfo) (secret : U8Array 32) (mtu : BitVec 32) (now : Instant) :
    Routed (start info secret mtu now : Program HS) where
  sound := start_sound info secret mtu now
  sequential := by simp [Sequential, start]
  routing := .settled (new_refines info secret mtu now) (by simp [start])
  configuring := by simp [start]

namespace Routed

/-- While nothing is under way, every route leads to a peer that is listed. -/
theorem listed (routed : s.Routed) (idle : ∀ i, s.tasks i = []) (route : s.wg.rt.get ip = some ref) :
    s.wg.Listed ref := by
  cases routed.routing with
  | settled refines _ =>
    obtain ⟨pk, _, found⟩ := refines.owner_of_route route
    exact ⟨pk, found⟩
  | detaching _ _ _ head _ =>
    rw [idle] at head
    cases head

theorem started {op : Op} {wg : WgState HS} (routed : s.Routed) (idle : ∀ i, s.tasks i = [])
    (ok : op.begin c env s.wg = .ok (wg, task)) : Routing ⟨wg, Function.update s.tasks i task⟩ := by
  cases routed.routing with
  | settled refines _ =>
    apply Routing.settled (refines.frame (Op.begin_sameRouting c ok))
    intro j ref member
    cases Op.begin_opens c ok _ (mem_started idle member).2
  | detaching _ _ _ head _ =>
    rw [idle] at head
    cases head

/-- The rest of a removal does what `remove_peer` does as a whole. -/
theorem detached {wg before : WgState HS} {o : Ownership} (refines : Refines before o)
    (found : before.pubkeyMap.get pk = some ref)
    (ok : WgState.detach { before with pubkeyMap := before.pubkeyMap.remove pk } env ref = .ok wg) :
    ∃ o, Refines wg o := by
  obtain ⟨_, next, removes, after, _⟩ := refines.removePeer env pk
  rw [WgState.removePeer, found] at removes
  simp only [ok, ok_bind] at removes
  obtain ⟨_, rfl⟩ := Prod.mk.inj (Except.ok.inj removes)
  exact ⟨_, after⟩

theorem proceeded {sec : Section HS} {wg : WgState HS} (routed : s.Routed) (head : s.tasks i = sec :: rest)
    (ok : sec.run c env s.wg = .ok (wg, more)) : Routing ⟨wg, Function.update s.tasks i (more ++ rest)⟩ := by
  cases routed.routing with
  | settled refines none =>
    have others (ref : PeerRef) : .detach ref ∉ rest := by
      intro member
      exact none i ref (head ▸ List.mem_cons_of_mem _ member)
    have settles {o : Ownership} (refines : Refines wg o) (nothing : ∀ ref, .detach ref ∉ more) :
        Routing ⟨wg, Function.update s.tasks i (more ++ rest)⟩ := by
      apply Routing.settled refines
      intro j ref member
      rcases (routed.sequential.mem_proceeded head member).2 with new | old
      · exact nothing ref new
      · exact others ref old
    by_cases reroutes : sec.Reroutes
    · cases sec with
      | addPeer pk =>
        obtain ⟨rfl, rfl⟩ := Prod.mk.inj (Except.ok.inj ok)
        exact settles (refines.addPeer env pk) (by simp)
      | configure command peer =>
        obtain ⟨_, configured, ok⟩ := bind_eq_ok.mp ok
        obtain ⟨rfl, rfl⟩ := Prod.mk.inj (Except.ok.inj ok)
        have member : .configure command peer ∈ s.tasks i := head ▸ List.mem_cons_self
        obtain ⟨_, found⟩ := routed.configuring i command peer member
        have valid := (routed.sound.tasks i _ member).2 command peer rfl
        obtain ⟨_, next, sets, after⟩ := refines.setPeer env valid
        simp only [WgState.setPeer, findPeerByPubkey, found, configured, ok_bind] at sets
        obtain ⟨_, rfl⟩ := Prod.mk.inj (Except.ok.inj sets)
        exact settles after (by simp)
      | unlist pk =>
        simp only [Section.run] at ok
        split at ok
        · obtain ⟨rfl, rfl⟩ := Prod.mk.inj (Except.ok.inj ok)
          exact settles refines (by simp)
        · rename_i ref found
          obtain ⟨rfl, rfl⟩ := Prod.mk.inj (Except.ok.inj ok)
          exact .detaching refines found rfl (Function.update_self ..) others
      | detach peer => exact absurd (head ▸ List.mem_cons_self) (none i peer)
      | _ => cases reroutes
    · apply settles (refines.frame (Section.run_sameRouting c reroutes ok))
      intro ref member
      cases Section.run_leads c ok _ member
      exact reroutes trivial
  | @detaching before o pk ref j remaining refines found same waits others =>
    obtain rfl : j = i := routed.sequential j i (by simp [waits]) (by simp [head])
    obtain ⟨rfl, rfl⟩ := List.cons.inj (waits.symm.trans head)
    obtain ⟨_, detaches, ok⟩ := bind_eq_ok.mp ok
    obtain ⟨rfl, rfl⟩ := Prod.mk.inj (Except.ok.inj ok)
    rw [same] at detaches
    obtain ⟨_, after⟩ := detached refines found detaches
    apply Routing.settled after
    intro k other member
    rcases (routed.sequential.mem_proceeded head member).2 with new | old
    · cases new
    · exact others other old

theorem step (routed : s.Routed) (alone : s.OneAtATime l) (step : Step c s l next) : next.Routed := by
  refine ⟨(step.sound c routed.sound).1, routed.sequential.step alone step, ?_, ?_⟩
  · cases step with
    | start idle enabled ok => exact routed.started (alone _ rfl) ok
    | proceed head free ok => exact routed.proceeded head ok
  · intro j command peer member
    cases step with
    | start idle enabled ok =>
      obtain ⟨rfl, new⟩ := mem_started (alone _ rfl) member
      obtain ⟨only, found⟩ := Op.begin_configures c ok new
      rw [(Op.begin_sameRouting c ok).pubkeyMap]
      exact ⟨(Function.update_self ..).trans only, found⟩
    | proceed head free ok =>
      obtain ⟨rfl, new | old⟩ := routed.sequential.mem_proceeded head member
      · cases Section.run_leads c ok _ new
      · obtain ⟨only, _⟩ := routed.configuring j command peer (head ▸ List.mem_cons_of_mem _ old)
        obtain ⟨_, rfl⟩ := List.cons.inj (head.symm.trans only)
        cases old

end Routed

end Program

end Titun
