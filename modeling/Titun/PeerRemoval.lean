import Titun.ResponseCompletion

/-! A peer that was removed stays blank and unlisted in the id map, unless a task that found it before
still accepts an initiation or sends one. -/
namespace Titun

variable {HS : Type} (c : Crypto HS)

open WgState

namespace Section

/-- The section answers an initiation of the peer. -/
def Gives (env : Env) (wg : WgState HS) (ref : PeerRef) : Section HS → Prop
  | accept _ _ r peer => peer = ref ∧ wg.Answers c env r peer
  | _ => False

/-- A blank peer gets something in one way only: a response finds nothing to complete. -/
theorem run_blank {sec : Section HS} {wg next : WgState HS} (blank : (wg.peers ref).Blank)
    (none : ¬ sec.Gives c env wg ref) (ok : sec.run c env wg = .ok (next, more)) :
    (next.peers ref).Blank := by
  rcases run_keeps c ok with keeps | ⟨p, addr, r, peer, rfl, answers, _, _, q, _, _, _, becomes⟩ |
    ⟨p, addr, selfId, peerId, hs, peer, rfl, h, q, _, pending, _, becomes⟩
  · exact (keeps ref).blank blank
  · have apart : ref ≠ peer := fun here => none ⟨here.symm, answers⟩
    exact (PeerState.Keeps.of_calm (becomes.others ref apart)).blank blank
  · have apart : ref ≠ peer := by
      rintro rfl
      cases blank.1.symm.trans pending
    exact (PeerState.Keeps.of_calm (becomes.others ref apart)).blank blank

theorem run_gives {sec : Section HS} {wg next : WgState HS} (gives : sec.Gives c env wg ref)
    (ok : sec.run c env wg = .ok (next, more)) :
    (next.peers ref).sessions ≠ [] ∧ next.idMap.get env.id = some ref := by
  cases sec with
  | accept p addr r peer =>
    obtain ⟨rfl, answers⟩ := gives
    obtain ⟨_, ⟨none, _⟩ | ⟨_, _, _, q, _, _, establishes, becomes⟩⟩ := run_does c ok
    · exact absurd answers none
    · obtain ⟨kept, _, sessions, _⟩ := establishes.sessions
      refine ⟨by simp [becomes.self, sessions], ?_⟩
      have entry : next.registry.get env.id = some peer := by
        rw [becomes.registry, Registry.get_insert, if_pos rfl]
      exact entry
  | _ => cases gives

end Section

def Op.Gives (env : Env) (wg : WgState HS) (ref : PeerRef) : Op → Prop
  | .resend loop => loop.peer = ref ∧ wg.Initiates c env loop.peer
  | _ => False

theorem Op.begin_blank {op : Op} {wg next : WgState HS} (blank : (wg.peers ref).Blank)
    (none : ¬ op.Gives c env wg ref) (ok : op.begin c env wg = .ok (next, task)) :
    (next.peers ref).Blank := by
  obtain ⟨_, _, keeps | ⟨loop, rfl, initiates, _, _, q, _, _, _, _, becomes⟩⟩ := Op.begin_keeps c ok
  · exact (keeps ref).blank blank
  · have apart : ref ≠ loop.peer := fun here => none ⟨here.symm, initiates⟩
    exact (PeerState.Keeps.of_calm (becomes.others ref apart)).blank blank

theorem Op.begin_gives {op : Op} {wg next : WgState HS} (gives : op.Gives c env wg ref)
    (ok : op.begin c env wg = .ok (next, task)) : (next.peers ref).handshake ≠ none := by
  cases op with
  | resend loop =>
    obtain ⟨rfl, initiates⟩ := gives
    obtain ⟨_, ⟨none, _⟩ | ⟨_, _, _, q, _, _, handshake, _, becomes⟩⟩ := begin_does c ok
    · exact absurd initiates none
    · rw [becomes.self, handshake]
      exact Option.some_ne_none _
  | _ => cases gives

namespace Program

/-- The step gives the peer a session or a handshake that it did not have in hand. -/
def Gives (s : Program HS) (l : Label) (ref : PeerRef) : Prop :=
  match l.event with
  | .start op => op.Gives c l.env s.wg ref
  | .proceed => ∃ sec rest, s.tasks l.task = sec :: rest ∧ sec.Gives c l.env s.wg ref

variable {c} in
theorem Step.blank {s next : Program HS} {l : Label} (step : Step c s l next) (blank : (s.wg.peers ref).Blank)
    (none : ¬ s.Gives c l ref) : (next.wg.peers ref).Blank := by
  cases step with
  | start idle enabled ok => exact Op.begin_blank c blank none ok
  | proceed head free ok => exact Section.run_blank c blank (fun gives => none ⟨_, _, head, gives⟩) ok

variable {c} in
theorem Step.gives {s next : Program HS} {l : Label} (step : Step c s l next) (gives : s.Gives c l ref) :
    ¬ (next.wg.peers ref).Blank := by
  cases step with
  | start idle enabled ok => exact fun blank => Op.begin_gives c gives ok blank.1
  | proceed head free ok =>
    obtain ⟨sec, rest, same, gives⟩ := gives
    obtain ⟨rfl, rfl⟩ := List.cons.inj (head.symm.trans same)
    exact fun blank => (Section.run_gives c gives ok).1 blank.2

end Program

end Titun
