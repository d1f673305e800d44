import Titun.CookieMemory
import Titun.SessionSteps

/-! Transport messages over runs: a session is sent on once it is confirmed, and is left alone once it is
too old. -/
namespace Titun

open Transition

variable {HS : Type} (c : Crypto HS)

def Output.IsTransport (out : Output) : Prop := ∃ msg addr, out = .sendTo msg addr ∧ msg.getD 0 0 = 4

def outputsOf (result : Exec (WgState HS × List Output)) : List Output :=
  match result with
  | .ok (_, outputs) => outputs
  | .error _ => []

/-- The datagrams that a section sends. -/
def Section.outputs (env : Env) (wg : WgState HS) : Section HS → List Output
  | accept p addr r peer => outputsOf (wg.acceptInitiation c env p addr r peer)
  | finish _ addr _ peerId hs peer => outputsOf (wg.finishSession c env addr peerId hs peer)
  | send packet peer => (wg.sendOrEnqueue c env peer packet).1.2
  | keepalive peer => (wg.doKeepalive1 c env peer).1.2
  | _ => []

/-- The cookie reply to a handshake message of the given length. -/
def WgState.putOff (wg : WgState HS) (env : Env) (p : Bytes) (addr : SocketAddrV6) (len : Nat) : List Output :=
  match wg.checkMessage c env p addr len with
  | .ok (.reply msg, _) => [.sendTo msg.val addr]
  | _ => []

/-- The datagrams that an operation sends before it comes to its first section. -/
def Op.outputs (env : Env) (wg : WgState HS) : Op → List Output
  | .datagram bytes addr =>
    let p := bytes.take BUFSIZE
    if p.length < 12 then []
    else if p.getD 0 0 = 1 then wg.putOff c env p addr HANDSHAKE_INIT_LEN
    else if p.getD 0 0 = 2 then wg.putOff c env p addr HANDSHAKE_RESP_LEN
    else []
  | .resend loop => outputsOf (wg.resendIteration c env loop)
  | _ => []

namespace Program

/-- The datagrams that a step sends. -/
def outputs (s : Program HS) (l : Label) : List Output :=
  match l.event with
  | .start op => op.outputs c l.env s.wg
  | .proceed => ((s.running l).map (Section.outputs c l.env s.wg)).getD []

/-- What a step does on the sessions of a peer. -/
def sessionEvents (s : Program HS) (l : Label) (ref : PeerRef) (count : Nat) : List SessionEvent :=
  ((s.running l).map (Section.sessionEvents c l.env s.wg ref count)).getD []

end Program

section Datagrams

variable {c} {wg : WgState HS}

theorem Signed.not_transport (signed : Signed c publicKey cookie index m) (addr : SocketAddrV6) :
    ¬ (Output.sendTo m addr).IsTransport := by
  rintro ⟨_, _, same, type⟩
  obtain ⟨rfl, _⟩ := Output.sendTo.inj same
  obtain ⟨kind, rest, length, rfl⟩ := signed
  have first : kind = 4 := by simpa [withMac1] using type
  rcases length with ⟨rfl, _⟩ | ⟨rfl, _⟩
  · cases first
  · cases first

theorem acceptInitiation_not_transport (member : out ∈ outputsOf (wg.acceptInitiation c env p addr r peer)) :
    ¬ out.IsTransport := by
  cases accepted : wg.acceptInitiation c env p addr r peer with
  | error e =>
    rw [accepted] at member
    cases member
  | ok result =>
    rw [accepted] at member
    obtain ⟨next, outputs⟩ := result
    rcases WgState.acceptInitiation_recalls c accepted with ⟨rfl, _⟩ | ⟨_, _, _, _, _, _, _, _, signed, _, rfl, _⟩
    · cases member
    · cases List.mem_singleton.mp member
      exact signed.not_transport addr

theorem resendIteration_not_transport (member : out ∈ outputsOf (wg.resendIteration c env loop)) :
    ¬ out.IsTransport := by
  cases resent : wg.resendIteration c env loop with
  | error e =>
    rw [resent] at member
    cases member
  | ok result =>
    rw [resent] at member
    obtain ⟨next, outputs⟩ := result
    rcases WgState.resendIteration_recalls c resent with ⟨rfl, _⟩ | ⟨_, target, _, signed, _, rfl, _⟩
    · cases member
    · cases List.mem_singleton.mp member
      exact signed.not_transport target

theorem putOff_not_transport (long : 32 ≤ len) (member : out ∈ wg.putOff c env p addr len) : ¬ out.IsTransport := by
  obtain ⟨checked, loadMonitor, check, _, replies⟩ := WgState.checkMessage_spec c wg env p addr long
  rw [WgState.putOff, check] at member
  cases checked with
  | drop | pass => cases member
  | reply msg =>
    cases List.mem_singleton.mp member
    obtain ⟨_, _, rfl⟩ := replies msg rfl
    rintro ⟨_, _, same, type⟩
    obtain ⟨rfl, _⟩ := Output.sendTo.inj same
    cases type

theorem Op.outputs_not_transport {op : Op} (member : out ∈ op.outputs c env wg) : ¬ out.IsTransport := by
  cases op with
  | datagram bytes addr =>
    simp only [Op.outputs] at member
    split_ifs at member
    · cases member
    · exact putOff_not_transport (by decide) member
    · exact putOff_not_transport (by decide) member
    · cases member
  | resend loop => exact resendIteration_not_transport member
  | _ => cases member

/-- Whatever transport message a section sends is sealed under a session of a peer. -/
theorem Section.outputs_sealed {sec : Section HS} {next : WgState HS} (ok : sec.run c env wg = .ok (next, more))
    (member : out ∈ sec.outputs c env wg) (transport : out.IsTransport) :
    ∃ ref, ∀ count, ∃ session chosen, .sealed session chosen out ∈ sec.sessionEvents c env wg ref count := by
  cases sec with
  | accept p addr r peer => exact absurd transport (acceptInitiation_not_transport member)
  | finish p addr selfId peerId hs peer =>
    obtain ⟨⟨_, outputs⟩, finished, ok⟩ := bind_eq_ok.mp ok
    obtain ⟨h, _, _, pending, _⟩ := WgState.finishSession_sessions c finished
    have sent : out ∈ outputs := by simpa only [Section.outputs, finished, outputsOf] using member
    refine ⟨peer, fun count => ⟨count, false, ?_⟩⟩
    simp only [sessionEvents, if_true, pending, finished]
    exact List.mem_cons_of_mem _ (List.mem_map_of_mem sent)
  | send packet peer | keepalive peer =>
    refine ⟨peer, fun count => ⟨(wg.peers peer).sessionNumber count Transport.getShouldSend, true, ?_⟩⟩
    simp only [sessionEvents, if_true]
    exact List.mem_map_of_mem member
  | _ => cases member

end Datagrams

/-- The program, and what has happened on the sessions of each peer. -/
structure Sessions (HS : Type) where
  program : Program HS
  history : PeerRef → List SessionEvent

namespace Sessions

def start (info : WgInfo) (cookieSecret : U8Array 32) (mtu : BitVec 32) (now : Instant) : Sessions HS :=
  ⟨.start info cookieSecret mtu now, fun _ => []⟩

def count (s : Sessions HS) (ref : PeerRef) : Nat := sessionCount (s.history ref)

def table (s : Sessions HS) (ref : PeerRef) : List Transport := (s.program.wg.peers ref).transports.val

/-- A step, and what it does on the sessions. -/
structure Step (s : Sessions HS) (l : Program.Label) (next : Sessions HS) : Prop where
  step : Program.Step c s.program l next.program
  history : ∀ ref, next.history ref = s.history ref ++ s.program.sessionEvents c l ref (s.count ref)

structure Sound (s : Sessions HS) : Prop where
  responds : ∀ i, ∀ sec ∈ s.program.tasks i, sec.AsResponder c
  numbered : ∀ ref, sessionNumbers (s.history ref) = List.range (s.count ref)
  recorded : ∀ ref, Countdown (Recorded (s.history ref)) (s.count ref) (s.table ref)
  confirmed : ∀ ref, Confirmed c (s.history ref)

variable {c} {s next last : Sessions HS} {l : Program.Label}

theorem start_sound {info : WgInfo} {secret : U8Array 32} {mtu : BitVec 32} {now : Instant} :
    (start info secret mtu now).Sound c where
  responds _ _ member := by cases member
  numbered _ := rfl
  recorded _ := .nil
  confirmed _ before session chosen out after split := by simp [start] at split

theorem Sound.steps (roles : KeepsRoles c) (sound : s.Sound c) (step : s.Step c l next) (ref : PeerRef) :
    SessionStep c (s.count ref) (s.table ref) (s.program.sessionEvents c l ref (s.count ref)) (next.table ref) := by
  obtain ⟨program, history⟩ := s
  obtain ⟨after, later⟩ := next
  cases step.step with
  | start idle enabled ok => exact Op.begin_sessions ok ref _
  | @proceed i sec rest more env wg head free ok =>
    have runs : program.running ⟨i, .proceed, env⟩ = some sec := by rw [Program.running, head]; rfl
    have responds := sound.responds i sec (by rw [head]; exact List.mem_cons_self)
    rw [Program.sessionEvents, runs]
    exact Section.run_sessions roles responds ok ref _

theorem Sound.step (roles : KeepsRoles c) (sound : s.Sound c) (step : s.Step c l next) : next.Sound c where
  responds := step.step.asResponder roles sound.responds
  numbered ref := by
    rw [count, step.history]
    exact (sound.steps roles step ref).numbered (sound.numbered ref)
  recorded ref := by
    rw [count, step.history]
    exact (sound.steps roles step ref).recorded (sound.recorded ref)
  confirmed ref := by
    rw [step.history]
    exact (sound.steps roles step ref).confirmed (sound.recorded ref) (sound.confirmed ref)

/-- A session that is too old is not used in any run from there. -/
theorem Sound.expired (roles : KeepsRoles c) (sound : s.Sound c) (run : Run (Step c) s labels last)
    (expired : Expired session (s.count ref) (s.table ref)) :
    ∃ events, last.history ref = s.history ref ++ events ∧ ∀ e ∈ events, ¬ e.Uses session := by
  induction run with
  | nil => exact ⟨[], (List.append_nil _).symm, nofun⟩
  | @cons s l next labels last one _ ih =>
    obtain ⟨still, unused⟩ := (sound.steps roles one ref).expired expired
    rw [← one.history] at still
    obtain ⟨events, later, silent⟩ := ih (sound.step roles one) still
    refine ⟨s.program.sessionEvents c l ref (s.count ref) ++ events, ?_, ?_⟩
    · rw [later, one.history, List.append_assoc]
    · intro e member
      rcases List.mem_append.mp member with now | then_
      · exact unused e now
      · exact silent e then_

theorem Sound.expires (sound : s.Sound c) (split : s.table ref = front ++ t :: back) (old : t.notTooOld = false) :
    Expired (s.count ref - 1 - front.length) (s.count ref) (s.table ref) := by
  have recorded := sound.recorded ref
  rw [split] at recorded ⊢
  constructor
  · exact (Nat.sub_le _ _).trans_lt (Nat.sub_one_lt_of_lt recorded.at_place.1)
  · refine recorded.only.mono ?_
    intro k u _ one here
    exact (one here).symm ▸ old

/-- Over every interleaving of operations, each transport message is sealed under a session that was started
on this side or on which a message was accepted before. A session that has become too old is not chosen for
sending, and nothing is accepted on it. -/
theorem sending_gated (roles : KeepsRoles c) {info : WgInfo} {secret : U8Array 32} {mtu : BitVec 32} {now : Instant}
    {labels : List Program.Label} {s : Sessions HS} (run : Run (Step c) (start info secret mtu now) labels s) :
    (∀ l next out, s.Step c l next → out ∈ s.program.outputs c l → out.IsTransport →
      ∃ ref session chosen, .sealed session chosen out ∈ s.program.sessionEvents c l ref (s.count ref)) ∧
    ∀ ref, sessionNumbers (s.history ref) = List.range (s.count ref) ∧
      Countdown (Recorded (s.history ref)) (s.count ref) (s.table ref) ∧
      (∀ before session chosen out after, s.history ref = before ++ .sealed session chosen out :: after →
        ∃ initiated made, .established session initiated made ∈ before ∧ made.Seals c out ∧
          (initiated = true ∨ .accepted session ∈ before)) ∧
      ∀ front t back, s.table ref = front ++ t :: back → t.notTooOld = false →
        ∀ later last, Run (Step c) s later last → ∃ events, last.history ref = s.history ref ++ events ∧
          ∀ e ∈ events, ¬ e.Uses (s.count ref - 1 - front.length) := by
  have sound : s.Sound c := run.invariant (Sound c) (fun _ _ _ sound step => sound.step roles step) start_sound
  constructor
  · intro l next out step member transport
    obtain ⟨program, history⟩ := s
    obtain ⟨after, later⟩ := next
    cases step.step with
    | start idle enabled ok => exact absurd transport (Op.outputs_not_transport member)
    | @proceed i sec rest more env wg head free ok =>
      have runs : program.running ⟨i, .proceed, env⟩ = some sec := by rw [Program.running, head]; rfl
      have sends : program.outputs c ⟨i, .proceed, env⟩ = sec.outputs c env program.wg := by
        rw [Program.outputs, runs]
        rfl
      obtain ⟨ref, recorded⟩ := sec.outputs_sealed ok (sends ▸ member) transport
      obtain ⟨session, chosen, among⟩ := recorded (sessionCount (history ref))
      refine ⟨ref, session, chosen, ?_⟩
      rw [Program.sessionEvents, runs]
      exact among
  · intro ref
    refine ⟨sound.numbered ref, sound.recorded ref, sound.confirmed ref, ?_⟩
    intro front t back split old later last onward
    exact sound.expired roles onward (sound.expires split old)

theorem run_of_program {s last : Program HS} (run : Run (Program.Step c) s labels last)
    (history : PeerRef → List SessionEvent) : ∃ later, Run (Step c) ⟨s, history⟩ labels ⟨last, later⟩ := by
  induction run generalizing history with
  | nil => exact ⟨history, .nil⟩
  | @cons s l next labels last one _ ih =>
    obtain ⟨later, rest⟩ :=
      ih fun ref => history ref ++ s.sessionEvents c l ref (sessionCount (history ref))
    exact ⟨later, .cons ⟨one, fun _ => rfl⟩ rest⟩

def sampleExpiring : List Program.Label :=
  Traffic.sampleSession ++ [⟨0, .start (.session 0 0 .expire), { sampleEnv with now := secs 180 }⟩]

theorem sending_gated_expired :
    ∃ t s, Run (Step Crypto.symbolic) (start ⟨zeros 32, 0, 0⟩ (zeros 32) 1280 0) sampleExpiring s ∧
      s.table 0 = [t] ∧ t.notTooOld = false ∧
      (∀ before session chosen out after, s.history 0 = before ++ .sealed session chosen out :: after →
        ∃ initiated made, .established session initiated made ∈ before ∧ made.Seals Crypto.symbolic out ∧
          (initiated = true ∨ .accepted session ∈ before)) ∧
      ∀ later last, Run (Step Crypto.symbolic) s later last → ∃ events, last.history 0 = s.history 0 ++ events ∧
        ∀ e ∈ events, ¬ e.Uses (s.count 0 - 1) := by
  have followed : (((Program.start ⟨zeros 32, 0, 0⟩ (zeros 32) 1280 0).follow Crypto.symbolic 1 sampleExpiring).map
      fun s => (s.wg.peers 0).transports.val.map (·.notTooOld)) = some [false] := by decide +kernel
  obtain ⟨program, follows, seen⟩ := Option.map_eq_some_iff.mp followed
  obtain ⟨t, table, old⟩ := List.map_eq_singleton_iff.mp seen
  obtain ⟨run, _⟩ := Program.run_of_follow Crypto.symbolic Program.start_within follows
  obtain ⟨history, sessions⟩ := run_of_program (run.mono fun _ _ _ step => step.1) fun _ => []
  obtain ⟨_, gated⟩ := sending_gated Crypto.symbolic_roles sessions
  obtain ⟨_, _, confirmed, expired⟩ := gated 0
  exact ⟨t, ⟨program, history⟩, sessions, table, old, confirmed, expired [] t [] table old⟩

end Sessions

end Titun
