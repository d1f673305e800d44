import Titun.SectionEffects
import Titun.Lib.Countdown

/-! The sessions of a peer, numbered in the order in which handshakes made them, and what is sealed and
accepted on them. -/
namespace Titun

variable {HS : Type} (c : Crypto HS)

/-- What becomes of the sessions of a peer. -/
inductive SessionEvent where
  /-- A handshake, started on this side or not, made the session. -/
  | established (session : Nat) (initiated : Bool) (made : Transport)
  /-- A message was accepted on the session. -/
  | accepted (session : Nat)
  /-- A datagram was sealed under the session, which `find_transport_to_send` chose or not. -/
  | sealed (session : Nat) (chosen : Bool) (out : Output)
  deriving DecidableEq

def SessionEvent.isEstablished : SessionEvent → Bool
  | established .. => true
  | _ => false

def sessionCount (history : List SessionEvent) : Nat := history.countP SessionEvent.isEstablished

def sessionNumbers (history : List SessionEvent) : List Nat :=
  history.filterMap fun
    | .established session .. => some session
    | _ => none

namespace Transport

/-- A datagram carries what a session sealed. -/
def Seals (t : Transport) (out : Output) : Prop := ∃ ctr packet addr, out = .sendTo (t.sealed c ctr packet) addr

theorem origin_eq {t u : Transport} (same : u.origin = t.origin) :
    u.peerId = t.peerId ∧ u.sendKey = t.sendKey ∧ u.isInitiator = t.isInitiator := by
  have peerId := congrArg Transport.peerId same
  have sendKey := congrArg Transport.sendKey same
  have isInitiator := congrArg Transport.isInitiator same
  exact ⟨peerId, sendKey, isInitiator⟩

theorem Seals.origin {t u : Transport} (seals : t.Seals c out) (same : u.origin = t.origin) : u.Seals c out := by
  obtain ⟨ctr, packet, addr, rfl⟩ := seals
  obtain ⟨peerId, sendKey, _⟩ := origin_eq same
  refine ⟨ctr, packet, addr, ?_⟩
  rw [sealed, sealed, peerId, sendKey]

/-- A session lives on without a message being accepted. -/
structure Lives (t u : Transport) : Prop where
  origin : u.origin = t.origin
  received : u.hasReceived = t.hasReceived
  old : u.notTooOld = true → t.notTooOld = true

end Transport

/-- What one step does to the sessions. -/
inductive SessionStep (count : Nat) : List Transport → List SessionEvent → List Transport → Prop where
  | keep : SessionStep count ts [] ts
  | drop : SessionStep count ts [] []
  /-- The new session may be sent on at once if the handshake was started on this side. -/
  | establish {t u : Transport} {initiated : Bool} {outputs : List Output} : t.hasReceived = false →
      (t.isInitiator = true → initiated = true) → (∀ out ∈ outputs, initiated = true ∧ t.Seals c out) → t.Lives u →
      SessionStep count ts (.established count initiated t :: outputs.map (.sealed count false)) (u :: ts.take 2)
  | live {t u : Transport} {outputs : List Output} {front back : List Transport} :
      t.Lives u → (∀ out ∈ outputs, t.getShouldSend = true ∧ t.Seals c out) →
      SessionStep count (front ++ t :: back) (outputs.map (.sealed (count - 1 - front.length) true))
        (front ++ u :: back)
  | accept {t u : Transport} {front back : List Transport} : t.notTooOld = true → u.origin = t.origin →
      SessionStep count (front ++ t :: back) [.accepted (count - 1 - front.length)] (front ++ u :: back)

section Confirmation

/-- What a history says about a session. -/
structure Recorded (history : List SessionEvent) (session : Nat) (t : Transport) : Prop where
  established : ∃ initiated made, .established session initiated made ∈ history ∧ t.origin = made.origin ∧
    (t.isInitiator = true → initiated = true)
  accepted : t.hasReceived = true → .accepted session ∈ history

/-- The session was established before, and was started on this side or confirmed. -/
def Covered (before : List SessionEvent) (session : Nat) (out : Output) : Prop :=
  ∃ initiated made, .established session initiated made ∈ before ∧ made.Seals c out ∧
    (initiated = true ∨ .accepted session ∈ before)

/-- Whatever was sealed was covered. -/
def Confirmed (history : List SessionEvent) : Prop :=
  ∀ before session chosen out after, history = before ++ .sealed session chosen out :: after → Covered c before session out

variable {c}

theorem Recorded.append (recorded : Recorded history session t) (more : List SessionEvent) :
    Recorded (history ++ more) session t := by
  obtain ⟨initiated, made, member, same, role⟩ := recorded.established
  constructor
  · exact ⟨initiated, made, List.mem_append_left _ member, same, role⟩
  · intro received
    exact List.mem_append_left _ (recorded.accepted received)

theorem Recorded.lives (recorded : Recorded history session t) (lives : t.Lives u) : Recorded history session u := by
  obtain ⟨initiated, made, member, same, role⟩ := recorded.established
  constructor
  · refine ⟨initiated, made, member, lives.origin.trans same, ?_⟩
    intro isInitiator
    exact role ((Transport.origin_eq lives.origin).2.2.symm.trans isInitiator)
  · intro received
    exact recorded.accepted (lives.received.symm.trans received)

theorem sessionCount_accepted (history : List SessionEvent) (session : Nat) :
    sessionCount (history ++ [.accepted session]) = sessionCount history := by
  simp [sessionCount, SessionEvent.isEstablished]

theorem sessionCount_append_sealed (history : List SessionEvent) (session : Nat) (chosen : Bool) (outputs : List Output) :
    sessionCount (history ++ outputs.map (.sealed session chosen)) = sessionCount history := by
  have none_established : ∀ e ∈ outputs.map (SessionEvent.sealed session chosen), ¬ e.isEstablished = true := by
    simp [SessionEvent.isEstablished]
  rw [sessionCount, List.countP_append, List.countP_eq_zero.mpr none_established, Nat.add_zero, sessionCount]

theorem sessionCount_establish (history : List SessionEvent) (session : Nat) (initiated : Bool) (t : Transport)
    (outputs : List Output) : sessionCount (history ++ .established session initiated t ::
      outputs.map (.sealed session false)) = sessionCount history + 1 := by
  rw [List.append_cons, sessionCount_append_sealed]
  simp [sessionCount, SessionEvent.isEstablished]

theorem sessionNumbers_sealed (session : Nat) (chosen : Bool) (outputs : List Output) :
    sessionNumbers (outputs.map (.sealed session chosen)) = [] := by
  simp [sessionNumbers]

theorem SessionStep.numbered (step : SessionStep c (sessionCount history) ts events later)
    (numbered : sessionNumbers history = List.range (sessionCount history)) :
    sessionNumbers (history ++ events) = List.range (sessionCount (history ++ events)) := by
  rw [sessionNumbers, List.filterMap_append]
  change sessionNumbers history ++ sessionNumbers events = _
  rw [numbered]
  cases step with
  | keep | drop => simp [sessionNumbers]
  | @establish _ t u initiated outputs unconfirmed role sent lives =>
    have made : sessionNumbers (.established (sessionCount history) initiated t ::
        outputs.map (.sealed (sessionCount history) false)) = [sessionCount history] :=
      congrArg (sessionCount history :: ·) (sessionNumbers_sealed _ _ outputs)
    rw [made, sessionCount_establish, List.range_succ]
  | live lives sent => rw [sessionNumbers_sealed, sessionCount_append_sealed, List.append_nil]
  | accept young same =>
    rw [sessionCount_accepted]
    exact List.append_nil _

theorem SessionStep.recorded (step : SessionStep c (sessionCount history) ts events later)
    (recorded : Countdown (Recorded history) (sessionCount history) ts) :
    Countdown (Recorded (history ++ events)) (sessionCount (history ++ events)) later := by
  have still (more : List SessionEvent) : Countdown (Recorded (history ++ more)) (sessionCount history) ts :=
    recorded.mono fun _ _ _ one => one.append more
  cases step with
  | keep => simpa using recorded
  | drop => exact .nil
  | @establish _ t u initiated outputs unconfirmed role sent lives =>
    rw [sessionCount_establish]
    have made : Recorded (history ++ .established (sessionCount history) initiated t ::
        outputs.map (.sealed (sessionCount history) false)) (sessionCount history) t := by
      refine ⟨⟨initiated, t, by simp, rfl, role⟩, ?_⟩
      intro received
      cases unconfirmed.symm.trans received
    exact .cons (made.lives lives) ((still _).take 2)
  | @live t u outputs front back lives sent =>
    rw [sessionCount_append_sealed]
    have here := recorded.at_place.2
    exact (still _).replace ((here.lives lives).append _)
  | @accept t u front back young same =>
    rw [sessionCount_accepted]
    obtain ⟨initiated, made, member, origin, role⟩ := recorded.at_place.2.established
    refine (still _).replace ⟨⟨initiated, made, List.mem_append_left _ member, same.trans origin, ?_⟩, fun _ => by simp⟩
    intro isInitiator
    exact role ((Transport.origin_eq same).2.2.symm.trans isInitiator)

theorem SessionStep.covered (step : SessionStep c (sessionCount history) ts events later)
    (recorded : Countdown (Recorded history) (sessionCount history) ts)
    (split : events = before ++ .sealed session chosen out :: after) : Covered c (history ++ before) session out := by
  have sealing {outputs : List Output} {n : Nat} {chose : Bool} {xs ys : List SessionEvent}
      (split : outputs.map (SessionEvent.sealed n chose) = xs ++ .sealed session chosen out :: ys) :
      session = n ∧ out ∈ outputs := by
    have member : SessionEvent.sealed session chosen out ∈ outputs.map (SessionEvent.sealed n chose) := by
      simp [split]
    obtain ⟨sent, among, same⟩ := List.mem_map.mp member
    cases same
    exact ⟨rfl, among⟩
  cases step with
  | keep | drop => simp at split
  | @establish _ t u initiated outputs unconfirmed role sent lives =>
    cases before with
    | nil => simp at split
    | cons head rest =>
      obtain ⟨rfl, flushed⟩ := List.cons.inj split
      obtain ⟨rfl, among⟩ := sealing flushed
      obtain ⟨started, seals⟩ := sent out among
      exact ⟨initiated, t, by simp, seals, .inl started⟩
  | @live t u outputs front back lives sent =>
    obtain ⟨rfl, among⟩ := sealing split
    obtain ⟨chooses, seals⟩ := sent out among
    obtain ⟨⟨initiated, made, member, same, role⟩, accepted⟩ := recorded.at_place.2
    refine ⟨initiated, made, List.mem_append_left _ member, seals.origin c same.symm, ?_⟩
    simp only [Transport.getShouldSend, Bool.and_eq_true, Bool.or_eq_true] at chooses
    rcases chooses.1 with isInitiator | received
    · exact .inl (role isInitiator)
    · exact .inr (List.mem_append_left _ (accepted received))
  | accept young same =>
    cases before with
    | nil => simp at split
    | cons head rest => simp at split

theorem SessionStep.confirmed (step : SessionStep c (sessionCount history) ts events later)
    (recorded : Countdown (Recorded history) (sessionCount history) ts) (confirmed : Confirmed c history) :
    Confirmed c (history ++ events) := by
  intro before session chosen out after split
  rcases List.append_eq_append_iff.mp split with ⟨new, rfl, later⟩ | ⟨old, rfl, later⟩
  · exact step.covered recorded later
  · cases old with
    | nil =>
      have first : events = [] ++ .sealed session chosen out :: after := later.symm
      simpa using step.covered recorded first
    | cons head rest =>
      obtain ⟨rfl, _⟩ := List.cons.inj later
      exact confirmed before session chosen out rest rfl

end Confirmation

section Expiry

variable {c}

/-- A session that is there has become too old. -/
structure Expired (session count : Nat) (ts : List Transport) : Prop where
  past : session < count
  old : Countdown (fun n t => n = session → t.notTooOld = false) count ts

/-- A use of a session that asks whether it is too old. -/
def SessionEvent.Uses (session : Nat) : SessionEvent → Prop
  | established .. => False
  | accepted n => n = session
  | sealed n chosen _ => n = session ∧ chosen = true

theorem SessionStep.expired (step : SessionStep c (sessionCount history) ts events later)
    (expired : Expired session (sessionCount history) ts) :
    Expired session (sessionCount (history ++ events)) later ∧ ∀ e ∈ events, ¬ e.Uses session := by
  obtain ⟨past, old⟩ := expired
  cases step with
  | keep => simpa using Expired.mk past old
  | drop => exact ⟨⟨by simpa using past, .nil⟩, by simp⟩
  | @establish _ t u initiated outputs unconfirmed role sent lives =>
    rw [sessionCount_establish]
    refine ⟨⟨past.trans (Nat.lt_succ_self _), .cons ?_ (old.take 2)⟩, ?_⟩
    · intro same
      exact absurd same past.ne'
    · simp [SessionEvent.Uses]
  | @live t u outputs front back lives sent =>
    rw [sessionCount_append_sealed]
    obtain ⟨_, here⟩ := old.at_place
    refine ⟨⟨past, old.replace ?_⟩, ?_⟩
    · intro same
      have aged := here same
      cases young : u.notTooOld with
      | false => rfl
      | true => cases aged.symm.trans (lives.old young)
    · intro e member uses
      obtain ⟨out, among, rfl⟩ := List.mem_map.mp member
      have chooses := (sent out among).1
      rw [Transport.getShouldSend, here uses.1, Bool.and_false] at chooses
      cases chooses
  | @accept t u front back young same =>
    obtain ⟨_, here⟩ := old.at_place
    have other : sessionCount history - 1 - front.length ≠ session := by
      intro same
      cases (here same).symm.trans young
    rw [sessionCount_accepted]
    refine ⟨⟨past, ?_⟩, ?_⟩
    · exact old.replace fun same => absurd same other
    · simpa [SessionEvent.Uses] using other

end Expiry

end Titun
