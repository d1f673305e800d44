import Titun.Acquisitions
import Titun.SessionSteps

/-! Whether there is still a session to send on after a handshake has made a new one. -/
namespace Titun

open PeerState Transition

variable {HS : Type} (c : Crypto HS)

/-- One of the two most recent sessions can be sent on. -/
def PeerState.RecentlyUsable (p : PeerState HS) : Prop := ∃ t ∈ p.transports.val.take 2, t.getShouldSend = true

namespace WgState

variable {c} {wg next : WgState HS}

/-- A session that an initiation makes is not sent on yet, and the two most recent ones stay. -/
theorem acceptInitiation_usable (roles : KeepsRoles c) (responds : c.getIsInitiator r.handshakeState = false)
    (ok : wg.acceptInitiation c env p addr r peer = .ok (next, [sent])) :
    (next.peers peer).Usable ↔ (wg.peers peer).RecentlyUsable := by
  rcases acceptInitiation_sessions c ok with ⟨nothing, _⟩ | ⟨noise, hs, psk, out, q, written, _, peers, _, pushed⟩
  · cases nothing
  have sessions : (next.peers peer).transports.val = Transport.newFromHs c env.now env.id r.peerId hs ::
      (wg.peers peer).transports.val.take 2 := by
    rw [peers, Function.update_self, pushed]
    exact ArrayVec.pushFront_take ..
  have role : c.getIsInitiator hs = false := (roles.write written).trans (roles.pushPsk.trans responds)
  have unconfirmed : (Transport.newFromHs c env.now env.id r.peerId hs).getShouldSend = false := by
    simp [Transport.getShouldSend, Transport.newFromHs, role]
  rw [usable_iff, sessions, RecentlyUsable]
  constructor
  · rintro ⟨t, member, usable⟩
    rcases List.mem_cons.mp member with rfl | old
    · cases unconfirmed.symm.trans usable
    · exact ⟨t, old, usable⟩
  · rintro ⟨t, member, usable⟩
    exact ⟨t, List.mem_cons_of_mem _ member, usable⟩

theorem finishSession_usable (initiates : c.getIsInitiator hs = true)
    (ok : wg.finishSession c env addr peerId hs peer = .ok (next, outputs)) : (next.peers peer).Usable := by
  obtain ⟨h, q, u, _, peers, lives, young, sessions, _⟩ := finishSession_sessions c ok
  rw [peers, Function.update_self, usable_iff, sessions]
  refine ⟨u, List.mem_cons_self, ?_⟩
  have role : u.isInitiator = true := (Transport.origin_eq lives.origin).2.2.trans initiates
  rw [Transport.getShouldSend, role, young]
  rfl

end WgState

namespace Section

/-- A response that is finished is to an initiation of this side. -/
def AsInitiator : Section HS → Prop
  | finish _ _ _ _ hs _ => c.getIsInitiator hs = true
  | _ => True

/-- An initiation of a peer is answered. -/
def Answers (env : Env) (wg : WgState HS) (ref : PeerRef) : Section HS → Prop
  | accept p addr r peer => peer = ref ∧ ∃ next response, wg.acceptInitiation c env p addr r peer = .ok (next, [response])
  | _ => False

/-- A handshake that this side has started is finished. -/
def Finishes (ref : PeerRef) : Section HS → Prop
  | finish _ _ _ _ _ peer => peer = ref
  | _ => False

end Section

namespace Program

def Answers (s : Program HS) (l : Label) (ref : PeerRef) : Prop :=
  ∃ sec, s.running l = some sec ∧ sec.Answers c l.env s.wg ref

def Finishes (s : Program HS) (l : Label) (ref : PeerRef) : Prop := ∃ sec, s.running l = some sec ∧ sec.Finishes ref

/-- Handshake states have the roles in which they were made. -/
structure InRole (s : Program HS) : Prop where
  responds : ∀ i, ∀ sec ∈ s.tasks i, sec.AsResponder c
  initiates : ∀ i, ∀ sec ∈ s.tasks i, sec.AsInitiator c
  pending : ∀ ref h, (s.wg.peers ref).handshake = some h → c.getIsInitiator h.hs = true

variable {c} {s next : Program HS} {l : Label}

theorem start_inRole (info : WgInfo) (secret : U8Array 32) (mtu : BitVec 32) (now : Instant) :
    (start info secret mtu now).InRole c where
  responds _ _ member := by cases member
  initiates _ _ member := by cases member
  pending ref h pending := by simp [start, WgState.new, PeerState.new] at pending

theorem InRole.step (roles : KeepsRoles c) (inRole : s.InRole c) (step : Step c s l next) : next.InRole c := by
  have keeps {p q : PeerState HS} (keeps : p.Keeps q) (old : ∀ h, p.handshake = some h → c.getIsInitiator h.hs = true) :
      ∀ h, q.handshake = some h → c.getIsInitiator h.hs = true := by
    intro h pending
    rcases keeps.1 with gone | same
    · cases gone.symm.trans pending
    · exact old h (same.symm.trans pending)
  have blank {p : PeerState HS} (gone : p.handshake = none) : ∀ h, p.handshake = some h → c.getIsInitiator h.hs = true := by
    intro h pending
    cases gone.symm.trans pending
  refine ⟨step.asResponder roles inRole.responds, ?_, ?_⟩
  · intro j sec member
    cases step with
    | start idle enabled ok =>
      rcases mem_update member with ⟨_, new⟩ | ⟨_, old⟩
      · cases Op.begin_opens c ok sec new <;> trivial
      · exact inRole.initiates j sec old
    | @proceed i head' rest more env wg head free ok =>
      rcases mem_update member with ⟨_, new⟩ | ⟨_, old⟩
      · rcases List.mem_append.mp new with leads | rest
        · have does := Section.run_does c ok
          cases Section.run_leads c ok sec leads with
          | insertId | doHandshake | setEndpoint roaming | detach => trivial
          | finish =>
            obtain ⟨_, rfl | ⟨h, peerId, hs, pending, _, processed, rfl⟩⟩ := does
            · cases leads
            · simp only [List.mem_cons, List.not_mem_nil, or_false, reduceCtorEq, false_or] at leads
              obtain ⟨_, read⟩ := processResponse_some c processed
              obtain ⟨_, _, _, _, rfl, _⟩ := Section.finish.inj leads
              exact (roles.read read).trans (inRole.pending _ h pending)
        · exact inRole.initiates _ sec (by rw [head]; exact List.mem_cons_of_mem _ rest)
      · exact inRole.initiates j sec old
  · intro ref
    cases step with
    | start idle enabled ok =>
      obtain ⟨_, _, kept | ⟨loop, _, _, msg, hs, q, initiated, _, handshake, _, becomes⟩⟩ := Op.begin_keeps c ok
      · exact keeps (kept ref) (inRole.pending ref)
      · by_cases here : ref = loop.peer
        · subst here
          intro h pending
          rw [becomes.self, handshake] at pending
          obtain rfl := Option.some.inj pending
          exact roles.initiated c initiated
        · exact keeps (.of_calm (becomes.others ref here)) (inRole.pending ref)
    | proceed head free ok =>
      rcases Section.run_keeps c ok with kept | ⟨_, _, _, peer, _, _, _, _, q, _, _, establishes, becomes⟩ |
        ⟨_, _, _, _, _, peer, _, _, q, _, _, establishes, becomes⟩
      · exact keeps (kept ref) (inRole.pending ref)
      · by_cases here : ref = peer
        · subst here
          exact becomes.self ▸ blank establishes.handshake
        · exact keeps (.of_calm (becomes.others ref here)) (inRole.pending ref)
      · by_cases here : ref = peer
        · subst here
          exact becomes.self ▸ blank establishes.handshake
        · exact keeps (.of_calm (becomes.others ref here)) (inRole.pending ref)

theorem InRole.usable (inRole : s.InRole c) (ref : PeerRef) (roles : KeepsRoles c) (step : Step c s l next) :
    (s.Answers c l ref → ((next.wg.peers ref).Usable ↔ (s.wg.peers ref).RecentlyUsable)) ∧
    (s.Finishes l ref → (next.wg.peers ref).Usable) := by
  constructor
  · rintro ⟨_, runs, answers⟩
    cases step with
    | start idle enabled ok => cases runs
    | @proceed i sec rest more env wg head free ok =>
      rw [running, head] at runs
      obtain rfl := Option.some.inj runs
      have responds := inRole.responds _ sec (by rw [head]; exact List.mem_cons_self)
      cases sec with
      | accept p addr r peer =>
        obtain ⟨rfl, after, response, accepted⟩ := answers
        obtain ⟨⟨_, _⟩, accepts, ok⟩ := bind_eq_ok.mp ok
        obtain ⟨rfl, rfl⟩ := Prod.mk.inj (Except.ok.inj ok)
        obtain ⟨rfl, rfl⟩ := Prod.mk.inj (Except.ok.inj (accepts.symm.trans accepted))
        exact WgState.acceptInitiation_usable roles responds accepted
      | _ => cases answers
  · rintro ⟨_, runs, finishes⟩
    cases step with
    | start idle enabled ok => cases runs
    | @proceed i sec rest more env wg head free ok =>
      rw [running, head] at runs
      obtain rfl := Option.some.inj runs
      have initiates := inRole.initiates _ sec (by rw [head]; exact List.mem_cons_self)
      cases sec with
      | finish p addr selfId peerId hs peer =>
        obtain rfl : peer = ref := finishes
        obtain ⟨⟨_, _⟩, finished, ok⟩ := bind_eq_ok.mp ok
        obtain ⟨rfl, rfl⟩ := Prod.mk.inj (Except.ok.inj ok)
        exact WgState.finishSession_usable initiates finished
      | _ => cases finishes

/-- Over every interleaving of operations, handshakes leave peers with a session to send on as long as none
is answered where the only such sessions are not among the two most recent ones, and no longer. -/
theorem handshakes_keep_usable (roles : KeepsRoles c) {info : WgInfo} {secret : U8Array 32} {mtu : BitVec 32}
    {now : Instant} {labels : List Label} {last : Program HS} :
    Run (fun s l next => Step c s l next ∧ ∀ ref, s.Answers c l ref ∨ s.Finishes l ref →
        (s.wg.peers ref).findTransportToSend.isSome = true → (next.wg.peers ref).findTransportToSend.isSome = true)
      (start info secret mtu now) labels last ↔
    Run (fun s l next => Step c s l next ∧ ∀ ref, s.Answers c l ref ∨ s.Finishes l ref →
        s.Finishes l ref ∨ (s.wg.peers ref).findTransportToSend = none ∨
          ∃ t ∈ (s.wg.peers ref).transports.val.take 2, t.getShouldSend = true)
      (start info secret mtu now) labels last := by
  constructor
  · intro run
    have sound := run.with_invariant (InRole c) (fun _ _ _ inRole step => inRole.step roles step.1)
      (start_inRole info secret mtu now)
    apply sound.mono
    rintro s l next ⟨⟨step, keeps⟩, inRole⟩
    refine ⟨step, ?_⟩
    intro ref completes
    rcases completes with answers | finishes
    · cases usable : (s.wg.peers ref).findTransportToSend with
      | none => exact .inr (.inl rfl)
      | some t =>
        have after := keeps ref (.inl answers) (by rw [usable]; rfl)
        exact .inr (.inr (((inRole.usable ref roles step).1 answers).mp after))
    · exact .inl finishes
  · intro run
    have sound := run.with_invariant (InRole c) (fun _ _ _ inRole step => inRole.step roles step.1)
      (start_inRole info secret mtu now)
    apply sound.mono
    rintro s l next ⟨⟨step, spares⟩, inRole⟩
    refine ⟨step, ?_⟩
    intro ref completes usable
    have does := inRole.usable ref roles step
    rcases completes with answers | finishes
    · rcases spares ref (.inl answers) with finishes | unusable | recent
      · exact does.2 finishes
      · rw [unusable] at usable
        cases usable
      · exact (does.1 answers).mpr recent
    · exact does.2 finishes

section Samples

def sampleAnswering (k : UInt8) : List Label :=
  let env := { sampleEnv with id := fit [k] 4 }
  [⟨0, .start (.datagram ([1, 0, 0, 0] ++ List.replicate 75 0 ++ [k] ++ List.replicate 68 0) ⟨0, 0, 0, 0⟩), env⟩,
    ⟨0, .proceed, env⟩]

def spares (s : Program HS) (l : Label) : Bool :=
  match s.running l with
  | some (.accept _ _ _ peer) => ((s.wg.peers peer).transports.val.take 2).any Transport.getShouldSend
  | _ => true

theorem recent_of_spares (sparing : s.spares l = true) (completes : s.Answers c l ref ∨ s.Finishes l ref) :
    s.Finishes l ref ∨ (s.wg.peers ref).findTransportToSend = none ∨
      ∃ t ∈ (s.wg.peers ref).transports.val.take 2, t.getShouldSend = true := by
  rcases completes with ⟨sec, runs, answers⟩ | finishes
  · rw [spares, runs] at sparing
    cases sec with
    | accept p addr r peer =>
      obtain ⟨rfl, _⟩ := answers
      exact .inr (.inr (List.any_eq_true.mp sparing))
    | _ => cases answers
  · exact .inl finishes

theorem handshakes_keep_usable_two :
    ∃ last, Run (fun s l next => Step Crypto.symbolic s l next ∧
        ∀ ref, s.Answers Crypto.symbolic l ref ∨ s.Finishes l ref → (s.wg.peers ref).findTransportToSend.isSome = true →
          (next.wg.peers ref).findTransportToSend.isSome = true)
      (start ⟨zeros 32, 0, 0⟩ (zeros 32) 1280 0) (Traffic.sampleSession ++ sampleAnswering 1 ++ sampleAnswering 2) last ∧
      (last.wg.peers 0).transports.val.map Transport.getShouldSend = [false, false, true] := by
  have followed : (((start ⟨zeros 32, 0, 0⟩ (zeros 32) 1280 0).followWith Crypto.symbolic spares 1
      (Traffic.sampleSession ++ sampleAnswering 1 ++ sampleAnswering 2)).map fun s =>
      (s.wg.peers 0).transports.val.map Transport.getShouldSend) = some [false, false, true] := by decide +kernel
  obtain ⟨last, follows, seen⟩ := Option.map_eq_some_iff.mp followed
  obtain ⟨run, _⟩ := run_of_followWith Crypto.symbolic start_within follows
  refine ⟨last, (handshakes_keep_usable Crypto.symbolic_roles).mpr ?_, seen⟩
  apply run.mono
  intro s l next step
  exact ⟨step.1, fun ref completes => recent_of_spares step.2.2 completes⟩

variable (c) in
def answering (s : Program HS) (l : Label) (ref : PeerRef) : Bool :=
  match s.running l with
  | some (.accept p addr r peer) => decide (peer = ref) && match s.wg.acceptInitiation c l.env p addr r peer with
    | .ok (_, [_]) => true
    | _ => false
  | _ => false

theorem answers_of_answering (answering : s.answering c l ref = true) : s.Answers c l ref := by
  unfold Program.answering at answering
  split at answering
  · rename_i p addr r peer runs
    obtain ⟨same, answered⟩ := Bool.and_eq_true_iff.mp answering
    split at answered
    · rename_i next response accepted
      exact ⟨_, runs, of_decide_eq_true same, next, response, accepted⟩
    · cases answered
  · cases answering

/-- A third initiation makes the session go, and there is none to send on. -/
theorem usable_session_evicted :
    ∃ labels s l next, Run (Step Crypto.symbolic) (start ⟨zeros 32, 0, 0⟩ (zeros 32) 1280 0) labels s ∧
      Step Crypto.symbolic s l next ∧ s.Answers Crypto.symbolic l 0 ∧
      (s.wg.peers 0).findTransportToSend.isSome = true ∧ (next.wg.peers 0).findTransportToSend.isSome = false := by
  have followed : (((start ⟨zeros 32, 0, 0⟩ (zeros 32) 1280 0).follow Crypto.symbolic 1 (Traffic.sampleSession ++
      sampleAnswering 1 ++ sampleAnswering 2 ++ (sampleAnswering 3).take 1)).map fun s =>
      (s.answering Crypto.symbolic ⟨0, .proceed, { sampleEnv with id := fit [3] 4 }⟩ 0,
        (s.wg.peers 0).findTransportToSend.isSome,
        (s.act Crypto.symbolic 1 ⟨0, .proceed, { sampleEnv with id := fit [3] 4 }⟩).map fun next =>
          (next.wg.peers 0).findTransportToSend.isSome)) = some (true, true, some false) := by decide +kernel
  obtain ⟨s, follows, seen⟩ := Option.map_eq_some_iff.mp followed
  obtain ⟨answering, usable, after⟩ : _ ∧ _ ∧ _ := by simpa only [Prod.mk.injEq] using seen
  obtain ⟨next, acts, unusable⟩ := Option.map_eq_some_iff.mp after
  obtain ⟨run, within⟩ := run_of_follow Crypto.symbolic start_within follows
  obtain ⟨step, _⟩ := step_of_act Crypto.symbolic within acts
  exact ⟨_, s, _, next, run.mono fun _ _ _ step => step.1, step, answers_of_answering answering, usable, unusable⟩

end Samples

end Program

end Titun
