import Titun.IdEntries
import Titun.Schedule

/-! A response is verified under one lock of its peer and completed under another. What it was
verified against is still pending then, unless another task takes it away in between. -/
namespace Titun

variable {HS : Type} (c : Crypto HS)

open WgState

/-- The response verifies against the handshake that is pending. -/
def WgState.Verified (wg : WgState HS) (p : Bytes) (selfId peerId : WgId) (hs : HS) (peer : PeerRef) :
    Prop :=
  ∃ h, (wg.peers peer).handshake = some ⟨selfId, h⟩ ∧ processResponse c h p = .ok (some (peerId, hs))

theorem WgState.Becomes.handshake {wg next : WgState HS} {p : PeerState HS}
    (becomes : Becomes peer p reg wg next) (self : ref = peer → p.handshake = (wg.peers peer).handshake) :
    (next.peers ref).handshake = (wg.peers ref).handshake := by
  by_cases here : ref = peer
  · subst here
    rw [becomes.self]
    exact self rfl
  · exact (becomes.others ref here).handshake

namespace Section

/-- The section comes once a response is verified. -/
def Responds : Section HS → Prop
  | insertId .. | finish .. => True
  | _ => False

def Indexed : Section HS → Prop
  | verify p _ selfId _ | finish p _ selfId _ _ _ => sliceArray p 8 4 = .ok selfId
  | _ => True

/-- The section takes away the pending handshake of the peer. -/
def Unsettles (env : Env) (wg : WgState HS) (peer : PeerRef) : Section HS → Prop
  | accept _ _ r ref => ref = peer ∧ wg.Answers c env r ref
  | finish _ _ _ _ _ ref | dropHandshake ref | clear ref | detach ref => ref = peer
  | configure command ref => ref = peer ∧ (wg.peers ref).info.psk ≠ command.presharedKey
  | _ => False

theorem run_settled {sec : Section HS} {wg next : WgState HS} (settled : ¬ sec.Unsettles c env wg ref)
    (added : ref < wg.nextPeer) (ok : sec.run c env wg = .ok (next, more)) :
    (next.peers ref).handshake = (wg.peers ref).handshake := by
  have does := run_does c ok
  cases sec with
  | accept p addr r peer =>
    obtain ⟨_, ⟨_, calm⟩ | ⟨answers, _, _, q, _, _, _, becomes⟩⟩ := does
    · exact (calm.calm ref).handshake
    · exact becomes.handshake fun here => absurd ⟨here.symm, answers⟩ settled
  | finish p addr selfId peerId hs peer =>
    obtain ⟨_, _, q, _, _, _, becomes⟩ := does
    exact becomes.handshake fun here => absurd here.symm settled
  | verify p addr selfId peer | decide p addr selfId peer => exact (does.1.calm ref).handshake
  | send packet peer | keepalive peer => exact (does.1.calm ref).handshake
  | insertId selfId peer => exact does.2.handshake fun _ => rfl
  | setEndpoint addr peer => exact does.2.2.handshake fun _ => rfl
  | cookie p peer | doHandshake peer | rearm peer | dropScope peer => exact (does.2.calm ref).handshake
  | dropHandshake peer => exact does.2.handshake fun here => absurd here.symm settled
  | clear peer => exact does.2.1.handshake fun here => absurd here.symm settled
  | addPeer pk =>
    obtain ⟨_, rfl⟩ := does
    unfold WgState.addPeer
    split_ifs
    · rfl
    · simp [added.ne]
  | configure command peer =>
    obtain ⟨_, q, dropped, configured, becomes⟩ := does
    refine becomes.handshake fun here => (configured.kept ?_).1
    by_contra changed
    exact settled ⟨here.symm, changed⟩
  | unlist pk => obtain ⟨_, _, rfl⟩ | ⟨_, _, _, rfl⟩ := does <;> rfl
  | detach peer => exact does.2.handshake fun here => absurd here.symm settled
  | storeKey key =>
    obtain ⟨_, rfl⟩ := does
    rfl

theorem run_unsettled {sec : Section HS} {wg next : WgState HS} (unsettles : sec.Unsettles c env wg ref)
    (ok : sec.run c env wg = .ok (next, more)) : (next.peers ref).handshake = none := by
  have does := run_does c ok
  cases sec with
  | accept p addr r peer =>
    obtain ⟨rfl, answers⟩ := unsettles
    obtain ⟨_, ⟨none, _⟩ | ⟨_, _, _, q, _, _, establishes, becomes⟩⟩ := does
    · exact absurd answers none
    · rw [becomes.self]
      exact establishes.handshake
  | finish p addr selfId peerId hs peer =>
    obtain rfl : peer = ref := unsettles
    obtain ⟨_, _, q, _, _, establishes, becomes⟩ := does
    rw [becomes.self]
    exact establishes.handshake
  | dropHandshake peer =>
    obtain rfl : peer = ref := unsettles
    rw [does.2.self]
  | clear peer =>
    obtain rfl : peer = ref := unsettles
    rw [does.2.1.self]
    rfl
  | detach peer =>
    obtain rfl : peer = ref := unsettles
    rw [does.2.self]
    rfl
  | configure command peer =>
    obtain ⟨rfl, changed⟩ := unsettles
    obtain ⟨_, q, dropped, configured, becomes⟩ := does
    rw [becomes.self]
    exact (configured.rekeyed changed).1
  | _ => cases unsettles

theorem run_responds {sec : Section HS} {wg next : WgState HS} (ok : sec.run c env wg = .ok (next, more)) :
    (∀ later ∈ more, ¬ later.Responds) ∨ ∃ p addr selfId peer peerId hs, sec = verify p addr selfId peer ∧
      next.Verified c p selfId peerId hs peer ∧
      more = [insertId selfId peer, finish p addr selfId peerId hs peer] := by
  by_cases verifies : ∃ p addr selfId peer, sec = verify p addr selfId peer
  · obtain ⟨p, addr, selfId, peer, rfl⟩ := verifies
    obtain ⟨calm, rfl | ⟨⟨_, h⟩, peerId, hs, pending, rfl, processed, rfl⟩⟩ := run_does c ok
    · exact .inl (by simp)
    · exact .inr ⟨p, addr, _, peer, peerId, hs, rfl,
        ⟨h, (calm.calm peer).handshake.trans pending, processed⟩, rfl⟩
  · refine .inl fun later member => ?_
    cases run_leads c ok later member with
    | insertId | finish => exact absurd ⟨_, _, _, _, rfl⟩ verifies
    | doHandshake | setEndpoint _ | detach => exact id

theorem Opens.opening {sec : Section HS} {wg : WgState HS} (opens : sec.Opens c wg) :
    sec.Indexed ∧ ¬ sec.Responds := by
  cases opens with
  | verify index _ => exact ⟨index, id⟩
  | _ => exact ⟨trivial, id⟩

theorem Leads.indexed {sec later : Section HS} {wg : WgState HS} (leads : Leads wg sec later)
    (indexed : sec.Indexed) : later.Indexed := by
  cases leads with
  | finish => exact indexed
  | _ => trivial

end Section

def Op.Unsettles (env : Env) (wg : WgState HS) (peer : PeerRef) : Op → Prop
  | .resend loop => loop.peer = peer ∧ wg.Initiates c env loop.peer
  | _ => False

theorem Op.begin_settled {op : Op} {wg next : WgState HS} (settled : ¬ op.Unsettles c env wg ref)
    (ok : op.begin c env wg = .ok (next, task)) :
    (next.peers ref).handshake = (wg.peers ref).handshake := by
  have does := begin_does c ok
  cases op with
  | config op =>
    cases op <;>
    · obtain ⟨rfl, _⟩ := does
      rfl
  | setKey order key | packet padded =>
    obtain ⟨rfl, _⟩ := does
    rfl
  | datagram bytes addr =>
    obtain ⟨⟨loadMonitor, rfl⟩, _⟩ := does
    rfl
  | timer peer kind => exact (does.1.calm ref).handshake
  | resend loop =>
    obtain ⟨_, ⟨_, _, becomes, _⟩ | ⟨initiates, _, _, q, _, _, _, _, becomes⟩⟩ := does
    · exact becomes.handshake fun _ => rfl
    · exact becomes.handshake fun here => absurd ⟨here.symm, initiates⟩ settled
  | removeDeferred id =>
    obtain ⟨_, rfl⟩ := does
    rfl
  | setPort newPort prepared | setFwmark newFwmark marked | cancelLoop loop | session peer i task | startRx
  | takeSocket | updateCookieSecret secret | updateMtu mtu =>
    obtain ⟨_, ⟨peer, calm⟩, _⟩ := does
    exact (calm.calm ref).handshake

namespace Program

/-- A task completes a response at most once, and what the response was verified against is pending. -/
inductive Responding (wg : WgState HS) : List (Section HS) → Prop where
  | idle {task : List (Section HS)} : (∀ sec ∈ task, ¬ sec.Responds) → Responding wg task
  | finish {p : Bytes} {addr : SocketAddrV6} {selfId peerId : WgId} {hs : HS} {peer : PeerRef}
      {rest : List (Section HS)} :
    wg.Verified c p selfId peerId hs peer → (∀ sec ∈ rest, ¬ sec.Responds) →
      Responding wg (.finish p addr selfId peerId hs peer :: rest)
  | insert {p : Bytes} {addr : SocketAddrV6} {selfId peerId : WgId} {hs : HS} {peer : PeerRef}
      {rest : List (Section HS)} :
    wg.Verified c p selfId peerId hs peer → (∀ sec ∈ rest, ¬ sec.Responds) →
      Responding wg (.insertId selfId peer :: .finish p addr selfId peerId hs peer :: rest)

variable {c} in
theorem Responding.verified {wg : WgState HS} {task : List (Section HS)} (responding : Responding c wg task)
    (member : .finish p addr selfId peerId hs peer ∈ task) : wg.Verified c p selfId peerId hs peer := by
  cases responding with
  | idle none => exact absurd trivial (none _ member)
  | finish verified none =>
    rcases List.mem_cons.mp member with same | later
    · cases same
      exact verified
    · exact absurd trivial (none _ later)
  | insert verified none =>
    simp only [List.mem_cons, reduceCtorEq, false_or] at member
    rcases member with same | later
    · cases same
      exact verified
    · exact absurd trivial (none _ later)

variable {c} in
theorem Responding.mono {wg next : WgState HS} {task : List (Section HS)} (responding : Responding c wg task)
    (kept : ∀ p addr selfId peerId hs peer, .finish p addr selfId peerId hs peer ∈ task →
      (next.peers peer).handshake = (wg.peers peer).handshake) : Responding c next task := by
  cases responding with
  | idle none => exact .idle none
  | finish verified none =>
    obtain ⟨h, pending, processed⟩ := verified
    exact .finish ⟨h, (kept _ _ _ _ _ _ List.mem_cons_self).trans pending, processed⟩ none
  | insert verified none =>
    obtain ⟨h, pending, processed⟩ := verified
    exact .insert ⟨h, (kept _ _ _ _ _ _ (List.mem_cons_of_mem _ List.mem_cons_self)).trans pending, processed⟩ none

def Unsettles (s : Program HS) (l : Label) (peer : PeerRef) : Prop :=
  match l.event with
  | .start op => op.Unsettles c l.env s.wg peer
  | .proceed => ∃ sec rest, s.tasks l.task = sec :: rest ∧ sec.Unsettles c l.env s.wg peer

/-- A verified response of the task waits for the lock of the peer. -/
def Awaits (s : Program HS) (i : Nat) (peer : PeerRef) : Prop :=
  ∃ p addr selfId peerId hs, .finish p addr selfId peerId hs peer ∈ s.tasks i

/-- The step takes away no handshake for which a verified response of another task waits. -/
def Settled (s : Program HS) (l : Label) : Prop :=
  ∀ i peer, i ≠ l.task → s.Awaits i peer → ¬ s.Unsettles c l peer

theorem Step.handshake {s next : Program HS} {l : Label} (step : Step c s l next)
    (settled : ¬ s.Unsettles c l ref) (added : ref < s.wg.nextPeer) :
    (next.wg.peers ref).handshake = (s.wg.peers ref).handshake := by
  cases step with
  | start idle enabled ok => exact Op.begin_settled c settled ok
  | proceed head free ok =>
    exact Section.run_settled c (fun unsettles => settled ⟨_, _, head, unsettles⟩) added ok

structure Completing (s : Program HS) : Prop where
  sound : s.Sound
  tidy : s.wg.Tidy
  indexed : ∀ i, ∀ sec ∈ s.tasks i, sec.Indexed
  responding : ∀ i, Responding c s.wg (s.tasks i)

theorem start_completing (info : WgInfo) (secret : U8Array 32) (mtu : BitVec 32) (now : Instant) :
    Completing c (start info secret mtu now) where
  sound := start_sound info secret mtu now
  tidy := start_tidy info secret mtu now
  indexed := by simp [start]
  responding _ := .idle (by simp [start])

namespace Completing

variable {c} {s next : Program HS}

theorem restores (completing : s.Completing c) (l : Label) : s.Restores l := by
  intro _ id peer rest head
  have responding := completing.responding l.task
  rw [head] at responding
  cases responding with
  | idle none => exact absurd trivial (none _ List.mem_cons_self)
  | insert verified _ =>
    obtain ⟨h, pending, _⟩ := verified
    rw [PeerState.ownedIds, PeerState.handshakeIds, pending]
    exact List.mem_cons_self

theorem added (completing : s.Completing c) (member : .finish p addr selfId peerId hs peer ∈ s.tasks i) :
    peer < s.wg.nextPeer := (completing.sound.tasks i _ member).1 peer rfl

theorem others (completing : s.Completing c) (settled : s.Settled c l) (step : Step c s l next)
    (apart : i ≠ l.task) : Responding c next.wg (s.tasks i) :=
  (completing.responding i).mono fun _ _ _ _ _ peer member =>
    step.handshake c (settled i peer apart ⟨_, _, _, _, _, member⟩) (completing.added member)

theorem step (completing : s.Completing c) (settled : s.Settled c l) (step : Step c s l next) :
    next.Completing c := by
  have others {i : Nat} := completing.others (i := i) settled step
  refine ⟨(step.sound c completing.sound).1, step.tidy c completing.tidy completing.sound
    (completing.restores l), ?_, ?_⟩
  · cases step with
    | start idle enabled ok =>
      intro i sec member
      rcases mem_update member with ⟨_, new⟩ | ⟨_, old⟩
      · exact (Op.begin_opens c ok sec new).opening.1
      · exact completing.indexed i sec old
    | @proceed i head rest more env wg task free ok =>
      have mine : ∀ sec ∈ head :: rest, sec.Indexed := task ▸ completing.indexed i
      intro j sec member
      rcases mem_update member with ⟨_, new⟩ | ⟨_, old⟩
      · rcases List.mem_append.mp new with leads | stays
        · exact (Section.run_leads c ok sec leads).indexed (mine head List.mem_cons_self)
        · exact mine sec (List.mem_cons_of_mem _ stays)
      · exact completing.indexed j sec old
  · cases step with
    | @start i op env wg task idle enabled ok =>
      intro j
      change Responding c wg (Function.update s.tasks i task j)
      by_cases here : j = i
      · rw [here, Function.update_self]
        exact .idle fun sec member => (Op.begin_opens c ok sec member).opening.2
      · rw [Function.update_of_ne here]
        exact others here
    | @proceed i head rest more env wg task free ok =>
      intro j
      change Responding c wg (Function.update s.tasks i (more ++ rest) j)
      by_cases here : j = i
      swap
      · rw [Function.update_of_ne here]
        exact others here
      rw [here, Function.update_self]
      have responding := completing.responding i
      rw [task] at responding
      cases responding with
      | idle none =>
        have rests : ∀ sec ∈ rest, ¬ sec.Responds := fun sec member => none sec (List.mem_cons_of_mem _ member)
        rcases Section.run_responds c ok with leads | ⟨p, addr, selfId, peer, peerId, hs, rfl, verified, rfl⟩
        · refine .idle fun sec member => ?_
          rcases List.mem_append.mp member with new | old
          · exact leads sec new
          · exact rests sec old
        · exact .insert verified rests
      | finish _ rests =>
        obtain ⟨rfl, _⟩ := Section.run_does c ok
        exact .idle rests
      | insert verified rests =>
        obtain ⟨rfl, becomes⟩ := Section.run_does c ok
        obtain ⟨h, pending, processed⟩ := verified
        exact .finish ⟨h, (becomes.handshake fun _ => rfl).trans pending, processed⟩ rests

theorem waits (completing : s.Completing c) (settled : s.Settled c l) (step : Step c s l next)
    (here : .finish p addr selfId peerId hs peer ∈ s.tasks i)
    (there : .finish p addr selfId peerId hs peer ∈ next.tasks i) :
    (next.wg.peers peer).handshake = (s.wg.peers peer).handshake := by
  refine step.handshake c (fun unsettles => ?_) (completing.added here)
  by_cases apart : i = l.task
  swap
  · exact settled i peer apart ⟨_, _, _, _, _, here⟩ unsettles
  subst apart
  cases step with
  | start idle enabled ok =>
    rw [idle] at here
    cases here
  | @proceed i head rest more env wg task free ok =>
    have responding := completing.responding i
    change _ ∈ Function.update s.tasks i (more ++ rest) i at there
    rw [Function.update_self] at there
    change _ ∈ s.tasks i at here
    rw [task] at responding here
    cases responding with
    | idle none => exact none _ here trivial
    | finish _ rests =>
      obtain ⟨rfl, _⟩ := Section.run_does c ok
      exact rests _ there trivial
    | insert _ _ =>
      obtain ⟨_, _, same, unsettles⟩ := unsettles
      obtain ⟨rfl, _⟩ := List.cons.inj (task.symm.trans same)
      exact unsettles

end Completing

theorem Section.finish_unwraps {wg : WgState HS} (none : (wg.peers peer).handshake = none) (env : Env) :
    (Section.finish p addr selfId peerId hs peer).run c env wg = .error .unwrapNone := by
  simp [Section.run, finishSession, none, unwrap]

/-- Where a step takes away the handshake that a response was verified against, the response can only
panic, or complete another handshake. -/
theorem Step.unsettled {s next : Program HS} {l : Label} (step : Step c s l next)
    (unsettled : ¬ s.Settled c l) :
    ∃ i p addr selfId peerId hs peer, .finish p addr selfId peerId hs peer ∈ next.tasks i ∧
      ((∀ env, (Section.finish p addr selfId peerId hs peer).run c env next.wg = .error .unwrapNone) ∨
        ∃ h, (next.wg.peers peer).handshake = some ⟨l.env.id, h⟩) := by
  simp only [Settled, not_forall, not_not] at unsettled
  obtain ⟨i, peer, apart, ⟨p, addr, selfId, peerId, hs, member⟩, unsettles⟩ := unsettled
  refine ⟨i, p, addr, selfId, peerId, hs, peer, step.idle apart ▸ member, ?_⟩
  cases step with
  | @start i op env wg task idle enabled ok =>
    have does := Op.begin_does c ok
    cases op with
    | resend loop =>
      obtain ⟨rfl, initiates⟩ := unsettles
      obtain ⟨_, ⟨none, _⟩ | ⟨_, _, h, q, _, _, handshake, _, becomes⟩⟩ := does
      · exact absurd initiates none
      · exact .inr ⟨h, becomes.self ▸ handshake⟩
    | _ => cases unsettles
  | proceed head free ok =>
    obtain ⟨sec, rest, same, unsettles⟩ := unsettles
    obtain ⟨rfl, rfl⟩ := List.cons.inj (head.symm.trans same)
    exact .inl (Section.finish_unwraps c (Section.run_unsettled c unsettles ok))

/-- Where no step takes away a handshake for which a verified response of another task waits, each
response is completed against the handshake that it was verified against: that handshake stays pending,
and becomes a session with the receiver index of the response and the keys of the handshake. The
first step that does take one away leaves a response that panics or completes another handshake. -/
theorem response_completed_as_verified {info : WgInfo} {secret : U8Array 32} {mtu : BitVec 32} {now : Instant}
    {s : Program HS}
    (run : Transition.Run (fun s l next => Step c s l next ∧ s.Settled c l) (start info secret mtu now) labels s) :
    (∀ id ref, s.wg.idMap.get id = some ref → id ∈ (s.wg.peers ref).ownedIds ∨ id ∈ s.wg.deferred) ∧
    (∀ i p addr selfId peerId hs peer, .finish p addr selfId peerId hs peer ∈ s.tasks i →
      sliceArray p 8 4 = .ok selfId ∧
      (∃ h, (s.wg.peers peer).handshake = some ⟨selfId, h⟩ ∧
        processResponse c h p = .ok (some (peerId, hs))) ∧
      (∀ later last, Transition.Run (fun s l next => Step c s l next ∧ s.Settled c l ∧
          .finish p addr selfId peerId hs peer ∈ next.tasks i) s later last →
        (last.wg.peers peer).handshake = (s.wg.peers peer).handshake) ∧
      ∀ env next more, (Section.finish p addr selfId peerId hs peer).run c env s.wg = .ok (next, more) →
        ∃ kept gone, (next.peers peer).sessions = Transport.newFromHs c env.now selfId peerId hs :: kept ∧
          (s.wg.peers peer).sessions = kept ++ gone) ∧
    ∀ l next, Step c s l next → ¬ s.Settled c l →
      ∃ i p addr selfId peerId hs peer, .finish p addr selfId peerId hs peer ∈ next.tasks i ∧
        ((∀ env, (Section.finish p addr selfId peerId hs peer).run c env next.wg = .error .unwrapNone) ∨
          ∃ h, (next.wg.peers peer).handshake = some ⟨l.env.id, h⟩) := by
  have completing : s.Completing c := run.invariant (Completing c)
    (fun _ _ _ completing step => completing.step step.2 step.1) (start_completing c info secret mtu now)
  refine ⟨completing.tidy, fun i p addr selfId peerId hs peer member => ?_, fun l next step => step.unsettled c⟩
  have verified := (completing.responding i).verified member
  refine ⟨completing.indexed i _ member, verified, fun later last waiting => ?_, fun env next more ok => ?_⟩
  · refine (waiting.invariant (fun t => t.Completing c ∧ .finish p addr selfId peerId hs peer ∈ t.tasks i ∧
      (t.wg.peers peer).handshake = (s.wg.peers peer).handshake) ?_ ⟨completing, member, rfl⟩).2.2
    rintro t l next ⟨completing, here, same⟩ ⟨step, settled, there⟩
    exact ⟨completing.step settled step, there, (completing.waits settled step here there).trans same⟩
  · obtain ⟨h, pending, _⟩ := verified
    obtain ⟨_, h', q, evicted, pending', establishes, becomes⟩ := Section.run_does c ok
    obtain rfl := Option.some.inj (pending.symm.trans pending')
    obtain ⟨kept, gone, sessions, split, _⟩ := establishes.sessions
    exact ⟨kept, gone, becomes.self ▸ sessions, split⟩

theorem settled_of_within {s : Program HS} {l : Label} (within : s.Within 1) (inside : l.task < 1) :
    s.Settled c l := by
  rintro i peer apart ⟨p, addr, selfId, peerId, hs, member⟩
  rw [within i (by omega)] at member
  cases member

def sampleResponse : Section X25519Key :=
  .finish ([2, 0, 0, 0] ++ List.replicate 88 0) ⟨0, 0, 0, 0⟩ (zeros 4) (zeros 4) (zeros 32) 0

theorem response_completed_as_verified_alone :
    ∃ s : Program X25519Key, sampleResponse ∈ s.tasks 0 ∧
      ∃ h, (s.wg.peers 0).handshake = some ⟨zeros 4, h⟩ := by
  have followed : (sampleProgram.follow Crypto.transparent 1 (sampleSetup ++ sampleInitiating ++
      sampleVerifying)).map (fun s => s.tasks 0) = some [.insertId (zeros 4) 0, sampleResponse] := by
    decide +kernel
  obtain ⟨s, follows, tasks⟩ := Option.map_eq_some_iff.mp followed
  obtain ⟨run, _⟩ := run_of_follow Crypto.transparent start_within follows
  have waits : sampleResponse ∈ s.tasks 0 := by simp [tasks]
  obtain ⟨_, completes, _⟩ := response_completed_as_verified Crypto.transparent
    (run.mono fun _ _ _ step => ⟨step.1, settled_of_within _ step.2.1 step.2.2⟩)
  obtain ⟨_, ⟨h, pending, _⟩, _⟩ := completes 0 _ _ _ _ _ _ waits
  exact ⟨s, waits, h, pending⟩

/-- The timer that stops a handshake fires between the verification of a response and its completion. -/
theorem response_panics :
    ∃ labels s, Transition.Run (Step Crypto.transparent) (start ⟨zeros 32, 0, 0⟩ (zeros 32) 1280 0) labels s ∧
      s.tasks 0 = [sampleResponse] ∧
      ∀ env, sampleResponse.run Crypto.transparent env s.wg = .error .unwrapNone := by
  have followed : (sampleProgram.follow Crypto.transparent 2 (sampleSetup ++ sampleInitiating ++
      sampleVerifying ++ [⟨1, .start (.timer 0 .stopHandshake), { sampleEnv with now := secs 100 }⟩,
        proceeds 1, proceeds 1, proceeds 0])).map (fun s => (s.tasks 0, (s.wg.peers 0).handshake)) =
      some ([sampleResponse], none) := by decide +kernel
  obtain ⟨s, follows, seen⟩ := Option.map_eq_some_iff.mp followed
  obtain ⟨tasks, gone⟩ := Prod.mk.inj seen
  obtain ⟨run, _⟩ := run_of_follow Crypto.transparent start_within follows
  exact ⟨_, s, run.mono fun _ _ _ step => step.1, tasks,
    Section.finish_unwraps Crypto.transparent gone⟩

end Program

end Titun
