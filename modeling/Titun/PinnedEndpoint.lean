import Titun.Continuations
import Titun.References
import Titun.Schedule

/-! An endpoint that was configured stays, whatever comes in from elsewhere; a task that has seen the
peer roam finds it roaming still, unless the endpoint is configured in between. -/
namespace Titun

variable {HS : Type} (c : Crypto HS)

open WgState

namespace PeerState

/-- Whether a peer roams stays the same, and so does its endpoint where it does not roam. -/
def Stays (p q : PeerState HS) : Prop :=
  q.info.roaming = p.info.roaming ∧ (p.info.roaming = false → q.info.endpoint = p.info.endpoint)

theorem Stays.of_calm {p q : PeerState HS} (calm : p.Calm q) : p.Stays q :=
  ⟨calm.roaming, fun _ => calm.endpoint⟩

theorem Stays.of_info {p q : PeerState HS} (info : q.info = p.info) : p.Stays q :=
  ⟨by rw [info], fun _ => by rw [info]⟩

theorem Stays.of_roamed {p q : PeerState HS} (info : q.info = (p.roamed addr).info) : p.Stays q := by
  refine ⟨by rw [info]; rfl, fun fixed => ?_⟩
  rw [info]
  exact if_neg (by simp [fixed])

end PeerState

theorem WgState.Becomes.stays {wg next : WgState HS} {p : PeerState HS} (becomes : Becomes peer p reg wg next)
    (self : ref = peer → (wg.peers peer).Stays p) : (wg.peers ref).Stays (next.peers ref) := by
  by_cases here : ref = peer
  · subst here
    rw [becomes.self]
    exact self rfl
  · exact .of_calm (becomes.others ref here)

theorem WgState.Quiet.stays {wg next : WgState HS} (quiet : Quiet peer wg next) (ref : PeerRef) :
    (wg.peers ref).Stays (next.peers ref) := .of_calm (quiet.calm ref)

namespace Section

def Pins (peer : PeerRef) : Section HS → Prop
  | configure command ref => ref = peer ∧ command.endpoint.isSome = true
  | _ => False

/-- Nothing but `set_peer` with an endpoint makes a peer roam or not. -/
theorem run_stays {sec : Section HS} {wg next : WgState HS} (unpinned : ¬ sec.Pins ref)
    (added : ref < wg.nextPeer) (ok : sec.run c env wg = .ok (next, more)) :
    (wg.peers ref).Stays (next.peers ref) := by
  have does := run_does c ok
  cases sec with
  | accept p addr r peer =>
    obtain ⟨_, ⟨_, calm⟩ | ⟨_, _, _, q, _, _, establishes, becomes⟩⟩ := does
    · exact calm.stays ref
    · exact becomes.stays fun _ => .of_roamed establishes.info
  | finish p addr selfId peerId hs peer =>
    obtain ⟨_, _, q, _, _, establishes, becomes⟩ := does
    exact becomes.stays fun _ => .of_roamed establishes.info
  | verify p addr selfId peer | decide p addr selfId peer => exact does.1.stays ref
  | send packet peer | keepalive peer => exact does.1.stays ref
  | insertId selfId peer => exact does.2.stays fun _ => .of_info rfl
  | setEndpoint addr peer => exact does.2.2.stays fun _ => .of_roamed rfl
  | cookie p peer | doHandshake peer | rearm peer | dropScope peer => exact does.2.stays ref
  | dropHandshake peer => exact does.2.stays fun _ => .of_info rfl
  | clear peer => exact does.2.1.stays fun _ => .of_info rfl
  | addPeer pk =>
    obtain ⟨_, rfl⟩ := does
    unfold WgState.addPeer
    split_ifs
    · exact .of_info rfl
    · exact .of_info (by simp [added.ne])
  | configure command peer =>
    obtain ⟨_, q, dropped, configured, becomes⟩ := does
    refine becomes.stays fun here => ?_
    cases endpoint : command.endpoint with
    | some e => exact absurd ⟨here.symm, by rw [endpoint]; rfl⟩ unpinned
    | none =>
      obtain ⟨same, roaming⟩ := configured.unpinned endpoint
      exact ⟨roaming, fun _ => same⟩
  | unlist pk => obtain ⟨_, _, rfl⟩ | ⟨_, _, _, rfl⟩ := does <;> exact .of_info rfl
  | detach peer => exact does.2.stays fun _ => .of_info rfl
  | storeKey key =>
    obtain ⟨_, rfl⟩ := does
    exact .of_info rfl

theorem run_pins {wg next : WgState HS} (given : command.endpoint = some e)
    (ok : (configure command peer).run c env wg = .ok (next, more)) :
    (next.peers peer).info.endpoint = some (mapIpv4ToIpv6 e) ∧ (next.peers peer).info.roaming = false := by
  obtain ⟨_, q, dropped, configured, becomes⟩ := run_does c ok
  rw [becomes.self]
  exact configured.pinned e given

theorem setEndpoint_asserts {wg : WgState HS} (fixed : (wg.peers peer).info.roaming = false) (env : Env) :
    (setEndpoint addr peer).run c env wg = .error .assertion := by
  simp [run, PeerState.setEndpoint, fixed, assert]

theorem setEndpoint_sets {wg : WgState HS} (roaming : (wg.peers peer).info.roaming = true) (env : Env) :
    ∃ next, (setEndpoint addr peer).run c env wg = .ok (next, []) ∧
      (next.peers peer).info.endpoint = some addr := by
  refine ⟨_, by simp [run, PeerState.setEndpoint, roaming]; rfl, ?_⟩
  simp [setPeerState]

end Section

theorem Op.begin_stays {op : Op} {wg next : WgState HS} (ok : op.begin c env wg = .ok (next, task))
    (ref : PeerRef) : (wg.peers ref).Stays (next.peers ref) := by
  have does := begin_does c ok
  cases op with
  | config op =>
    cases op <;>
    · obtain ⟨rfl, _⟩ := does
      exact .of_info rfl
  | setKey order key | packet padded =>
    obtain ⟨rfl, _⟩ := does
    exact .of_info rfl
  | datagram bytes addr =>
    obtain ⟨⟨loadMonitor, rfl⟩, _⟩ := does
    exact .of_info rfl
  | timer peer kind => exact does.1.stays ref
  | resend loop =>
    obtain ⟨_, ⟨_, _, becomes, _⟩ | ⟨_, _, _, q, _, info, _, _, becomes⟩⟩ := does
    · exact becomes.stays fun _ => .of_info rfl
    · exact becomes.stays fun _ => .of_info info
  | removeDeferred id =>
    obtain ⟨_, rfl⟩ := does
    exact .of_info rfl
  | setPort newPort prepared | setFwmark newFwmark marked | cancelLoop loop | session peer i task | startRx
  | takeSocket | updateCookieSecret secret | updateMtu mtu =>
    obtain ⟨_, ⟨peer, calm⟩, _⟩ := does
    exact calm.stays ref

namespace Program

/-- The step is the part of `set_peer` that gives the peer an endpoint. -/
def Pins (s : Program HS) (l : Label) (peer : PeerRef) : Prop :=
  l.event = .proceed ∧ ∃ sec rest, s.tasks l.task = sec :: rest ∧ sec.Pins peer

/-- No peer is given an endpoint while a task is about to let the endpoint follow a packet. -/
def Undisturbed (s : Program HS) (l : Label) : Prop :=
  ∀ i addr peer, .setEndpoint addr peer ∈ s.tasks i → ¬ s.Pins l peer

theorem Step.stays {s next : Program HS} {l : Label} (step : Step c s l next) (unpinned : ¬ s.Pins l ref)
    (added : ref < s.wg.nextPeer) : (s.wg.peers ref).Stays (next.wg.peers ref) := by
  cases step with
  | start idle enabled ok => exact Op.begin_stays c ok ref
  | proceed head free ok => exact Section.run_stays c (fun pins => unpinned ⟨rfl, _, _, head, pins⟩) added ok

structure Roaming (s : Program HS) : Prop where
  sound : s.Sound
  roaming : ∀ i addr peer, .setEndpoint addr peer ∈ s.tasks i → (s.wg.peers peer).info.roaming = true

theorem start_roaming (info : WgInfo) (secret : U8Array 32) (mtu : BitVec 32) (now : Instant) :
    Roaming (start info secret mtu now : Program HS) :=
  ⟨start_sound info secret mtu now, by simp [start]⟩

variable {c} in
theorem Roaming.step {s next : Program HS} {l : Label} (roams : s.Roaming) (undisturbed : s.Undisturbed l)
    (step : Step c s l next) : next.Roaming := by
  have kept {i : Nat} {addr : SocketAddrV6} {peer : PeerRef} (member : .setEndpoint addr peer ∈ s.tasks i) :
      (next.wg.peers peer).info.roaming = true := by
    have added : peer < s.wg.nextPeer := (roams.sound.tasks i _ member).1 peer rfl
    rw [(step.stays c (undisturbed i addr peer member) added).1]
    exact roams.roaming i addr peer member
  refine ⟨(step.sound c roams.sound).1, fun i addr peer member => ?_⟩
  cases step with
  | start idle enabled ok =>
    rcases mem_update member with ⟨_, new⟩ | ⟨_, old⟩
    · cases Op.begin_opens c ok _ new
    · exact kept old
  | @proceed j sec rest more env wg head free ok =>
    rcases mem_update member with ⟨_, new⟩ | ⟨_, old⟩
    · rcases List.mem_append.mp new with leads | stays
      · cases Section.run_leads c ok _ leads with
        | setEndpoint roaming =>
          have calm := (Section.run_does c ok).1.calm peer
          exact calm.roaming.trans roaming
      · exact kept (i := j) (head ▸ List.mem_cons_of_mem _ stays)
    · exact kept old

theorem Step.disturbed {s next : Program HS} {l : Label} (step : Step c s l next)
    (disturbed : ¬ s.Undisturbed l) :
    ∃ i addr peer, .setEndpoint addr peer ∈ next.tasks i ∧
      ∀ env, (Section.setEndpoint addr peer).run c env next.wg = .error .assertion := by
  simp only [Undisturbed, not_forall, not_not] at disturbed
  obtain ⟨i, addr, peer, member, proceeds, sec, rest, head, pins⟩ := disturbed
  cases sec with
  | configure command ref =>
    obtain ⟨rfl, given⟩ := pins
    obtain ⟨e, given⟩ := Option.isSome_iff_exists.mp given
    cases step with
    | start idle enabled ok => cases proceeds
    | @proceed j sec rest more env wg task free ok =>
      obtain ⟨rfl, rfl⟩ := List.cons.inj (task.symm.trans head)
      refine ⟨i, addr, ref, ?_, fun env => Section.setEndpoint_asserts c (Section.run_pins c given ok).2 env⟩
      change _ ∈ Function.update s.tasks j (more ++ rest) i
      by_cases here : i = j
      · subst here
        rw [task] at member
        rw [Function.update_self]
        exact List.mem_append_right _ ((List.mem_cons.mp member).resolve_left (by simp))
      · rw [Function.update_of_ne here]
        exact member
  | _ => cases pins

/-- Where no peer is given an endpoint while a task is about to let the endpoint follow a packet, the
assertion in `set_endpoint` never fails, and the first step that does give one makes it fail. In every
run, a configured endpoint stays until the next one is configured. -/
theorem pinned_endpoint_stays {info : WgInfo} {secret : U8Array 32} {mtu : BitVec 32} {now : Instant} :
    (∀ labels s, Transition.Run (fun s l next => Step c s l next ∧ s.Undisturbed l)
        (start info secret mtu now) labels s →
      (∀ i addr peer, .setEndpoint addr peer ∈ s.tasks i → ∀ env,
        ∃ next, (Section.setEndpoint addr peer).run c env s.wg = .ok (next, []) ∧
          (next.peers peer).info.endpoint = some addr) ∧
      ∀ l next, Step c s l next → ¬ s.Undisturbed l →
        ∃ i addr peer, .setEndpoint addr peer ∈ next.tasks i ∧
          ∀ env, (Section.setEndpoint addr peer).run c env next.wg = .error .assertion) ∧
    ∀ labels s i env command peer e rest next later last,
      Transition.Run (Step c) (start info secret mtu now) labels s →
      s.tasks i = .configure command peer :: rest → command.endpoint = some e →
      Step c s ⟨i, .proceed, env⟩ next →
      Transition.Run (fun s l next => Step c s l next ∧ ¬ s.Pins l peer) next later last →
      (last.wg.peers peer).info.endpoint = some (mapIpv4ToIpv6 e) ∧
        (last.wg.peers peer).info.roaming = false := by
  refine ⟨fun labels s run => ?_, fun labels s i env command peer e rest next later last before head given
    configured after => ?_⟩
  · have roams : s.Roaming := run.invariant Roaming (fun _ _ _ roams step => roams.step step.2 step.1)
      (start_roaming info secret mtu now)
    refine ⟨fun i addr peer member env => ?_, fun l next step => step.disturbed c⟩
    exact Section.setEndpoint_sets c (roams.roaming i addr peer member) env
  · have sound := before.invariant Sound (fun _ _ _ sound step => (step.sound c sound).1)
      (start_sound info secret mtu now)
    have pinned : (next.wg.peers peer).info.endpoint = some (mapIpv4ToIpv6 e) ∧
        (next.wg.peers peer).info.roaming = false := by
      cases configured with
      | proceed task free ok =>
        obtain ⟨rfl, rfl⟩ := List.cons.inj (task.symm.trans head)
        exact Section.run_pins c given ok
    have added : peer < s.wg.nextPeer :=
      (sound.tasks i _ (head ▸ List.mem_cons_self)).1 peer rfl
    obtain ⟨soundNext, more⟩ := configured.sound c sound
    refine (after.invariant (fun t => t.Sound ∧ peer < t.wg.nextPeer ∧
      (t.wg.peers peer).info.endpoint = some (mapIpv4ToIpv6 e) ∧
      (t.wg.peers peer).info.roaming = false) ?_ ⟨soundNext, added.trans_le more, pinned⟩).2.2
    rintro t l after ⟨sound, added, endpoint, fixed⟩ ⟨step, unpinned⟩
    obtain ⟨soundAfter, more⟩ := step.sound c sound
    obtain ⟨roaming, stays⟩ := step.stays c unpinned added
    exact ⟨soundAfter, added.trans_le more, (stays fixed).trans endpoint, roaming.trans fixed⟩

def sampleAcceptance : Section X25519Key :=
  .accept ([1, 0, 0, 0] ++ List.replicate 144 0) ⟨0, 0, 0, 0⟩ ⟨zeros 4, ⟨0, 0⟩, zeros 32⟩ 0

theorem pinned_endpoint_stays_elsewhere :
    ∃ last : Program X25519Key, (last.wg.peers 0).transports.val.length = 1 ∧
      (last.wg.peers 0).info.endpoint = some ⟨1, 2, 0, 0⟩ := by
  have followed : ((sampleProgram.follow Crypto.transparent 1 (sampleSetup.take 3)).bind fun s =>
      (s.act Crypto.transparent 1 (proceeds 0)).bind fun next =>
      (next.act Crypto.transparent 1 (starts 0 (.datagram ([1, 0, 0, 0] ++ List.replicate 144 0)
        ⟨0, 0, 0, 0⟩))).bind fun middle => (middle.act Crypto.transparent 1 (proceeds 0)).map fun last =>
      (s.tasks 0, middle.tasks 0, (last.wg.peers 0).transports.val.length)) =
    some ([.configure sampleConfiguration 0], [sampleAcceptance], 1) := by decide +kernel
  obtain ⟨s, follows, followed⟩ := Option.bind_eq_some_iff.mp followed
  obtain ⟨next, configures, followed⟩ := Option.bind_eq_some_iff.mp followed
  obtain ⟨middle, starting, followed⟩ := Option.bind_eq_some_iff.mp followed
  obtain ⟨last, accepts, seen⟩ := Option.map_eq_some_iff.mp followed
  obtain ⟨configuring, seen⟩ := Prod.mk.inj seen
  obtain ⟨accepting, sessions⟩ := Prod.mk.inj seen
  obtain ⟨run, within⟩ := run_of_follow Crypto.transparent start_within follows
  obtain ⟨configured, _, within⟩ := step_of_act Crypto.transparent within configures
  obtain ⟨started, _, within⟩ := step_of_act Crypto.transparent within starting
  obtain ⟨accepted, _, _⟩ := step_of_act Crypto.transparent within accepts
  refine ⟨last, sessions, ((pinned_endpoint_stays Crypto.transparent).2 _ s 0 _ _ 0 _ _ next _ last
    (run.mono fun _ _ _ step => step.1) configuring rfl configured
    (.cons ⟨started, fun pins => by cases pins.1⟩ (.cons ⟨accepted, ?_⟩ .nil))).1⟩
  rintro ⟨_, sec, rest, head, pins⟩
  obtain ⟨rfl, _⟩ := List.cons.inj (accepting.symm.trans head)
  exact pins

def sampleRoaming : List Label :=
  [starts 0 (.config (.addPeer (zeros 32))), proceeds 0,
    starts 0 (.datagram ([1, 0, 0, 0] ++ List.replicate 144 0) ⟨0, 0, 0, 0⟩), proceeds 0,
    starts 0 (.datagram ([4, 0, 0, 0] ++ List.replicate 28 0) ⟨1, 0, 0, 0⟩), proceeds 0]

/-- The endpoint is configured between the decision to let it follow a packet and the assertion. -/
theorem roaming_assertion_fails :
    ∃ labels s, Transition.Run (Step Crypto.transparent) (start ⟨zeros 32, 0, 0⟩ (zeros 32) 1280 0) labels s ∧
      s.tasks 0 = [.setEndpoint ⟨1, 0, 0, 0⟩ 0] ∧
      ∀ env, (Section.setEndpoint ⟨1, 0, 0, 0⟩ 0).run Crypto.transparent env s.wg = .error .assertion := by
  have followed : (sampleProgram.follow Crypto.transparent 2 (sampleRoaming ++
      [starts 1 (.config (.setPeer sampleConfiguration)), proceeds 1])).map
        (fun s => (s.tasks 0, (s.wg.peers 0).info.roaming)) =
      some ([.setEndpoint ⟨1, 0, 0, 0⟩ 0], false) := by decide +kernel
  obtain ⟨s, follows, seen⟩ := Option.map_eq_some_iff.mp followed
  obtain ⟨tasks, fixed⟩ := Prod.mk.inj seen
  obtain ⟨run, _⟩ := run_of_follow Crypto.transparent start_within follows
  exact ⟨_, s, run.mono fun _ _ _ step => step.1, tasks,
    Section.setEndpoint_asserts Crypto.transparent fixed⟩

end Program

end Titun
