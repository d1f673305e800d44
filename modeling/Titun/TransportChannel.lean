import Titun.Transport

/-! Two sessions with matching keys, one sending and one receiving, and between them
a network that may do anything with datagrams short of opening ciphertexts nobody sealed. -/
namespace Titun.Channel

open Transport Endian

/-- A successful `encrypt` call of the sender. -/
structure Sent where
  counter : BitVec 64
  msg : Bytes
  datagram : Bytes

/-- A datagram that the receiver accepted, with the packet it returned. -/
structure Accepted where
  datagram : Bytes
  packet : Bytes

structure State where
  a : Transport
  b : Transport
  calls : Nat
  sent : List Sent
  arrived : List Bytes
  accepted : List Accepted

inductive Side where
  | a
  | b

inductive Event where
  | encrypt (msg : Bytes)
  | arrive (datagram : Bytes)
  | encryptBack (msg : Bytes)
  | arriveBack (datagram : Bytes)
  | expireHandshake (side : Side)
  | expire (side : Side)

variable {HS : Type} (c : Crypto HS)

def start (a b : Transport) : State := ⟨a, b, 0, [], [], []⟩

def step (s : State) : Event → State
  | .encrypt msg =>
    let ((out, _), a) := s.a.encrypt c msg
    let sent := match out with
      | some datagram => s.sent ++ [⟨s.a.sendCounter, msg, datagram⟩]
      | none => s.sent
    { s with a, sent, calls := s.calls + 1 }
  | .arrive datagram =>
    let (result, b) := s.b.decrypt c datagram
    let accepted := match result with
      | some (_, packet) => s.accepted ++ [⟨datagram, packet⟩]
      | none => s.accepted
    { s with b, accepted, arrived := s.arrived ++ [datagram] }
  | .encryptBack msg => { s with b := (s.b.encrypt c msg).2 }
  | .arriveBack datagram => { s with a := (s.a.decrypt c datagram).2 }
  | .expireHandshake .a => { s with a := s.a.expireHandshake }
  | .expireHandshake .b => { s with b := s.b.expireHandshake }
  | .expire .a => { s with a := s.a.expire }
  | .expire .b => { s with b := s.b.expire }

def exec (s : State) (events : List Event) : State := events.foldl (step c) s

/-- The assumption on the library: whatever opens under the receiver's key and a
counter was sealed by the sender under that counter, and opens to what was sealed. -/
def OnlySealedOpens (s : State) : List Event → Prop
  | [] => True
  | event :: events =>
    (∀ datagram, event = .arrive datagram →
      ∀ plain, ChaCha20Poly1305.decrypt c s.b.recvKey (counterOf datagram) [] (payloadOf datagram) =
        some plain →
        ∃ call ∈ s.sent, call.counter = counterOf datagram ∧ call.msg = plain.val ∧
          payloadOf call.datagram = payloadOf datagram) ∧
    OnlySealedOpens (step c s event) events

/-- The library opens what it sealed. -/
def OpensSealed : Prop := ∀ k nonce msg,
  (ChaCha20Poly1305.decrypt c k nonce [] (ChaCha20Poly1305.encrypt c k nonce [] msg).val).map
    Subtype.val = some msg

/-- Whether the window of accepted counters still admits a counter. -/
def InWindow (s : State) (counter : BitVec 64) : Prop :=
  ReplayWindow.largest (s.accepted.map fun r => (counterOf r.datagram).toNat) - counter.toNat ≤ WINDOW_SIZE

instance : Decidable (InWindow s counter) := inferInstanceAs (Decidable (_ ≤ _))

structure Inv (s : State) : Prop where
  keys : s.a.sendKey = s.b.recvKey
  seals : ∀ call ∈ s.sent, call.counter < REJECT_AFTER_MESSAGES ∧
    call.datagram = s.a.sealed c call.counter call.msg
  window : s.b.recvAr.Represents (s.accepted.map fun r => counterOf r.datagram)
  distinct : (s.accepted.map fun r => counterOf r.datagram).Nodup
  origin : ∀ r ∈ s.accepted, ∃ call ∈ s.sent, call.counter = counterOf r.datagram ∧
    call.msg = r.packet ∧ payloadOf call.datagram = payloadOf r.datagram
  arrived : ∀ r ∈ s.accepted, r.datagram ∈ s.arrived ∧ 16 ≤ r.datagram.length
  counter : s.a.sendCounter = BitVec.ofNat 64 s.calls
  unwrapped : s.calls ≤ 2 ^ 64 → (s.sent.map Sent.counter).Nodup ∧
    ∀ call ∈ s.sent, call.counter.toNat < s.calls

theorem opens_sealed (opens : OpensSealed c) {a b : Transport} (keys : a.sendKey = b.recvKey)
    (ctr : BitVec 64) (msg : Bytes) :
    ∃ plain, ChaCha20Poly1305.decrypt c b.recvKey (counterOf (a.sealed c ctr msg)) []
      (payloadOf (a.sealed c ctr msg)) = some plain ∧ plain.val = msg := by
  have opened := opens a.sendKey ctr msg
  rw [← payloadOf_sealed, keys] at opened
  rw [counterOf_sealed]
  exact Option.map_eq_some_iff.mp opened

theorem sealed_congr {t u : Transport} (id : t.peerId = u.peerId) (key : t.sendKey = u.sendKey)
    (ctr : BitVec 64) (msg : Bytes) : t.sealed c ctr msg = u.sealed c ctr msg := by
  simp only [sealed, id, key]

theorem encrypt_frame (t : Transport) (msg : Bytes) :
    (t.encrypt c msg).2.peerId = t.peerId ∧ (t.encrypt c msg).2.sendKey = t.sendKey ∧
    (t.encrypt c msg).2.recvKey = t.recvKey ∧ (t.encrypt c msg).2.recvAr = t.recvAr ∧
    (t.encrypt c msg).2.sendCounter = t.sendCounter + 1 := by
  simp only [encrypt]
  split_ifs <;> exact ⟨rfl, rfl, rfl, rfl, rfl⟩

theorem decrypt_frame (t : Transport) (msg : Bytes) :
    (t.decrypt c msg).2.peerId = t.peerId ∧ (t.decrypt c msg).2.sendKey = t.sendKey ∧
    (t.decrypt c msg).2.recvKey = t.recvKey ∧ (t.decrypt c msg).2.sendCounter = t.sendCounter := by
  rcases decrypt_state c t msg with same | accepted
  · simp [same]
  · simp [accepted, accept]

theorem start_inv {a b : Transport} (keys : a.sendKey = b.recvKey) (counter : a.sendCounter = 0)
    (window : b.recvAr = AntiReplay.new) : Inv c (start a b) where
  keys := keys
  seals := fun _ member => by cases member
  window := by simpa [start, window] using AntiReplay.new_represents
  distinct := List.nodup_nil
  origin := fun _ member => by cases member
  arrived := fun _ member => by cases member
  counter := counter
  unwrapped := fun _ => ⟨List.nodup_nil, fun _ member => by cases member⟩

theorem Inv.frame {s : State} (inv : Inv c s) {a b : Transport}
    (id : a.peerId = s.a.peerId) (sendKey : a.sendKey = s.a.sendKey)
    (counter : a.sendCounter = s.a.sendCounter) (recvKey : b.recvKey = s.b.recvKey)
    (recvAr : b.recvAr = s.b.recvAr) : Inv c { s with a, b } where
  keys := sendKey.trans (inv.keys.trans recvKey.symm)
  seals := fun call member =>
    ⟨(inv.seals call member).1, (inv.seals call member).2.trans (sealed_congr c id.symm sendKey.symm _ _)⟩
  window := by simpa [recvAr] using inv.window
  distinct := inv.distinct
  origin := inv.origin
  arrived := inv.arrived
  counter := counter.trans inv.counter
  unwrapped := inv.unwrapped

theorem Inv.encrypt {s : State} (inv : Inv c s) (msg : Bytes) : Inv c (step c s (.encrypt msg)) := by
  obtain ⟨id, sendKey, _, _, counter⟩ := encrypt_frame c s.a msg
  have next : s.a.sendCounter + 1 = BitVec.ofNat 64 (s.calls + 1) := by
    rw [inv.counter, BitVec.ofNat_add]
    rfl
  cases out : (s.a.encrypt c msg).1.1 with
  | none =>
    simp only [step, out]
    exact
      { keys := sendKey.trans inv.keys
        seals := fun call member => ⟨(inv.seals call member).1,
          (inv.seals call member).2.trans (sealed_congr c id.symm sendKey.symm _ _)⟩
        window := inv.window
        distinct := inv.distinct
        origin := inv.origin
        arrived := inv.arrived
        counter := counter.trans next
        unwrapped := fun few =>
          have fewer : s.calls ≤ 2 ^ 64 := Nat.le_of_succ_le few
          ⟨(inv.unwrapped fewer).1, fun call member =>
            Nat.lt_succ_of_lt ((inv.unwrapped fewer).2 call member)⟩ }
  | some datagram =>
    obtain ⟨below, built, _⟩ := encrypt_eq_some c out
    simp only [step, out]
    refine
      { keys := sendKey.trans inv.keys
        seals := fun call member => ?_
        window := inv.window
        distinct := inv.distinct
        origin := fun r member => ?_
        arrived := inv.arrived
        counter := counter.trans next
        unwrapped := fun few => ?_ }
    · rw [sealed_congr c id sendKey]
      rcases List.mem_append.mp member with old | new
      · exact inv.seals call old
      · rw [List.mem_singleton.mp new]
        exact ⟨below, built⟩
    · obtain ⟨call, member, same⟩ := inv.origin r member
      exact ⟨call, List.mem_append_left _ member, same⟩
    · have fits : s.calls < 2 ^ 64 := by simpa using few
      obtain ⟨distinct, bound⟩ := inv.unwrapped (by omega)
      have now : s.a.sendCounter.toNat = s.calls := by
        rw [inv.counter, BitVec.toNat_ofNat, Nat.mod_eq_of_lt fits]
      constructor
      · rw [List.map_append, List.nodup_append]
        refine ⟨distinct, by simp, fun x old y new => ?_⟩
        obtain ⟨call, member, rfl⟩ := List.mem_map.mp old
        have latest : y = s.a.sendCounter := by simpa using new
        intro same
        have := bound call member
        rw [same, latest] at this
        omega
      · intro call member
        rcases List.mem_append.mp member with old | new
        · exact Nat.lt_succ_of_lt (bound call old)
        · rw [List.mem_singleton.mp new]
          simp only [now]
          omega

theorem Inv.arrive {s : State} (inv : Inv c s) {datagram : Bytes}
    (honest : ∀ plain, ChaCha20Poly1305.decrypt c s.b.recvKey (counterOf datagram) []
      (payloadOf datagram) = some plain →
      ∃ call ∈ s.sent, call.counter = counterOf datagram ∧ call.msg = plain.val ∧
        payloadOf call.datagram = payloadOf datagram) :
    Inv c (step c s (.arrive datagram)) := by
  obtain ⟨_, _, recvKey, _⟩ := decrypt_frame c s.b datagram
  cases result : (s.b.decrypt c datagram).1 with
  | none =>
    simp only [step, result, decrypt_eq_none c result]
    exact
      { keys := inv.keys
        seals := inv.seals
        window := inv.window
        distinct := inv.distinct
        origin := inv.origin
        arrived := fun r member =>
          ⟨List.mem_append_left _ (inv.arrived r member).1, (inv.arrived r member).2⟩
        counter := inv.counter
        unwrapped := inv.unwrapped }
  | some r =>
    obtain ⟨h, packet⟩ := r
    obtain ⟨admissible, passed, ⟨plain, opened, content⟩, next⟩ := decrypt_eq_some c result
    obtain ⟨call, member, sameCounter, sameMsg, samePayload⟩ := honest plain opened
    have unseen := ((inv.window.check_iff (counterOf datagram)).mp passed).1
    simp only [step, result]
    refine
      { keys := inv.keys.trans recvKey.symm
        seals := inv.seals
        window := ?_
        distinct := ?_
        origin := fun r member => ?_
        arrived := fun r member => ?_
        counter := inv.counter
        unwrapped := inv.unwrapped }
    · rw [next, List.map_append]
      exact inv.window.update passed
    · rw [List.map_append, List.nodup_append]
      refine ⟨inv.distinct, by simp, fun x old y new => ?_⟩
      have latest : y = counterOf datagram := by simpa using new
      rintro rfl
      rw [latest] at old
      exact unseen (List.mem_map_of_mem old)
    · rcases List.mem_append.mp member with old | new
      · exact inv.origin r old
      · rw [List.mem_singleton.mp new]
        exact ⟨call, by assumption, sameCounter, sameMsg.trans content, samePayload⟩
    · rcases List.mem_append.mp member with old | new
      · exact ⟨List.mem_append_left _ (inv.arrived r old).1, (inv.arrived r old).2⟩
      · rw [List.mem_singleton.mp new]
        exact ⟨by simp, le_trans (by decide) admissible.1⟩

theorem Inv.step {s : State} (inv : Inv c s) (event : Event) (events : List Event)
    (honest : OnlySealedOpens c s (event :: events)) : Inv c (Channel.step c s event) := by
  cases event with
  | encrypt msg => exact inv.encrypt c msg
  | arrive datagram => exact inv.arrive c (honest.1 datagram rfl)
  | encryptBack msg =>
    obtain ⟨_, _, recvKey, recvAr, _⟩ := encrypt_frame c s.b msg
    exact inv.frame c rfl rfl rfl recvKey recvAr
  | arriveBack datagram =>
    obtain ⟨id, sendKey, _, counter⟩ := decrypt_frame c s.a datagram
    exact inv.frame c id sendKey counter rfl rfl
  | expireHandshake side => cases side <;> exact inv.frame c rfl rfl rfl rfl rfl
  | expire side => cases side <;> exact inv.frame c rfl rfl rfl rfl rfl

theorem exec_inv {s : State} (inv : Inv c s) {events : List Event}
    (honest : OnlySealedOpens c s events) : Inv c (exec c s events) := by
  induction events generalizing s with
  | nil => exact inv
  | cons event events ih => exact ih (inv.step c event events honest) honest.2

theorem Inv.subperm {s : State} (inv : Inv c s) :
    (s.accepted.map fun r => (counterOf r.datagram, r.packet)).Subperm
      (s.sent.map fun call => (call.counter, call.msg)) := by
  apply List.subperm_of_subset
  · apply List.Nodup.of_map Prod.fst
    simpa [List.map_map, Function.comp_def] using inv.distinct
  · intro pair member
    obtain ⟨r, accepted, rfl⟩ := List.mem_map.mp member
    obtain ⟨call, sent, counter, msg, _⟩ := inv.origin r accepted
    exact List.mem_map.mpr ⟨call, sent, by rw [counter, msg]⟩

theorem Inv.available {s : State} (inv : Inv c s) (opens : OpensSealed c) {call : Sent}
    (sent : call ∈ s.sent) (young : s.b.notTooOld = true) (inWindow : InWindow s call.counter)
    (unused : ∀ r ∈ s.accepted, counterOf r.datagram ≠ call.counter) :
    ∃ h, (s.b.decrypt c call.datagram).1 = some (h, call.msg) := by
  obtain ⟨below, built⟩ := inv.seals call sent
  have passed : s.b.recvAr.check call.counter = true := by
    rw [inv.window.check_iff, ReplayWindow.accepts_iff]
    refine ⟨fun member => ?_, by simpa [InWindow, List.map_map, Function.comp_def] using inWindow⟩
    obtain ⟨_, isCounter, same⟩ := List.mem_map.mp member
    obtain ⟨r, accepted, rfl⟩ := List.mem_map.mp isCounter
    exact unused r accepted (BitVec.eq_of_toNat_eq same)
  have admissible : s.b.Admissible (s.a.sealed c call.counter call.msg) :=
    ⟨by simp, young, by simp, by simpa using below⟩
  obtain ⟨plain, opened, content⟩ := opens_sealed c opens inv.keys call.counter call.msg
  rw [built, decrypt_eq, opened]
  simp only [admissible, counterOf_sealed, passed, and_self, if_true, content]
  exact ⟨_, rfl⟩

theorem drop_eq_of_fields {d e : Bytes} (hd : 16 ≤ d.length) (he : 16 ≤ e.length)
    (counter : counterOf d = counterOf e) (payload : payloadOf d = payloadOf e) :
    d.drop 8 = e.drop 8 := by
  have field : ∀ p : Bytes, 16 ≤ p.length → (sub p 8 16).length = 8 := fun p long => by
    simp only [sub, List.length_take, List.length_drop]
    omega
  have bound : ∀ p : Bytes, 16 ≤ p.length → ofLeBytes (sub p 8 16) < 2 ^ 64 := fun p long => by
    simpa [field p long] using ofLeBytes_lt (sub p 8 16)
  have split : ∀ p : Bytes, p.drop 8 = sub p 8 16 ++ payloadOf p := fun p => by
    simpa [sub, payloadOf] using (List.take_append_drop 8 (p.drop 8)).symm
  have number := congrArg BitVec.toNat counter
  simp only [counterOf, BitVec.toNat_ofNat, Nat.mod_eq_of_lt (bound d hd),
    Nat.mod_eq_of_lt (bound e he)] at number
  rw [split d, split e, payload, ofLeBytes_injective ((field d hd).trans (field e he).symm) number]

/-- Before the counter wraps, a counter is used up only by a copy of the sender's datagram. -/
theorem Inv.unused {s : State} (inv : Inv c s) (few : s.calls ≤ 2 ^ 64) {call : Sent}
    (sent : call ∈ s.sent) (first : ∀ d ∈ s.arrived, d.drop 8 ≠ call.datagram.drop 8) :
    ∀ r ∈ s.accepted, counterOf r.datagram ≠ call.counter := by
  intro r accepted same
  obtain ⟨other, otherSent, counter, _, payload⟩ := inv.origin r accepted
  have one : other = call :=
    List.inj_on_of_nodup_map (inv.unwrapped few).1 otherSent sent (counter.trans same)
  subst one
  obtain ⟨arrived, long⟩ := inv.arrived r accepted
  have longer : 16 ≤ other.datagram.length := by
    rw [(inv.seals other sent).2, sealed_length]
    omega
  have fields : counterOf r.datagram = counterOf other.datagram := by
    rw [same, (inv.seals other sent).2, counterOf_sealed]
  exact first r.datagram arrived (drop_eq_of_fields long longer fields payload.symm)

/-- A datagram of the sender would be accepted now. -/
def Acceptable (s : State) (call : Sent) : Prop :=
  ∃ h, (s.b.decrypt c call.datagram).1 = some (h, call.msg)

/-- The channel delivers what was sent at most once, and a datagram is lost only to the
network, to expiry, to the window, or to an accepted copy under the same counter. Refused
datagrams leave no trace. -/
theorem channel_at_most_once (opens : OpensSealed c) {a b : Transport}
    (keys : a.sendKey = b.recvKey) (counter : a.sendCounter = 0)
    (window : b.recvAr = AntiReplay.new) (events : List Event)
    (honest : OnlySealedOpens c (start a b) events) :
    let s := exec c (start a b) events
    (s.accepted.map fun r => (counterOf r.datagram, r.packet)).Subperm
      (s.sent.map fun call => (call.counter, call.msg)) ∧
    (∀ call ∈ s.sent, s.b.notTooOld = true → InWindow s call.counter →
      (∀ r ∈ s.accepted, counterOf r.datagram ≠ call.counter) → Acceptable c s call) ∧
    (s.calls ≤ 2 ^ 64 → ∀ call ∈ s.sent, s.b.notTooOld = true → InWindow s call.counter →
      (∀ d ∈ s.arrived, d.drop 8 ≠ call.datagram.drop 8) → Acceptable c s call) ∧
    ∀ datagram, (s.b.decrypt c datagram).1 = none → (s.b.decrypt c datagram).2 = s.b := by
  have inv := exec_inv c (start_inv c keys counter window) honest
  refine ⟨inv.subperm c, fun call sent young inWindow unused => ?_,
    fun few call sent young inWindow first => ?_, fun _ => decrypt_eq_none c⟩
  · exact inv.available c opens sent young inWindow unused
  · exact inv.available c opens sent young inWindow (inv.unused c few sent first)

def sampleSession (self peer : UInt8) : Transport :=
  newFromHs Crypto.transparent 0 ⟨[0, 0, 0, self], rfl⟩ ⟨[0, 0, 0, peer], rfl⟩
    (zeros 32)

def sampleCall : Sent := ⟨0, [], (sampleSession 1 2).sealed Crypto.transparent 0 []⟩

/-- The datagram of `sampleCall` with another receiver index, which `decrypt` does not look at. -/
def redirected : Bytes := [4, 0, 0, 0, 9, 9, 9, 9] ++ sampleCall.datagram.drop 8

def redirectedRun : List Event := [.encrypt [], .arrive redirected]

theorem transparent_opensSealed : OpensSealed Crypto.transparent := by
  intro k nonce msg
  simp [ChaCha20Poly1305.decrypt, ChaCha20Poly1305.encrypt, Crypto.transparent]

theorem redirectedRun_honest :
    OnlySealedOpens Crypto.transparent (start (sampleSession 1 2) (sampleSession 2 1)) redirectedRun := by
  refine ⟨fun _ absurd => (nomatch absurd), fun datagram arrives plain _ => ?_, trivial⟩
  cases arrives
  refine ⟨sampleCall, .head _, by decide, ?_, by decide⟩
  have empty : plain.val.length = 0 := plain.property
  exact (List.length_eq_zero_iff.mp empty).symm

theorem channel_at_most_once_redirected :
    let s := exec Crypto.transparent (start (sampleSession 1 2) (sampleSession 2 1)) redirectedRun
    (s.accepted.map fun r => (counterOf r.datagram, r.packet)).Subperm
      (s.sent.map fun call => (call.counter, call.msg)) :=
  (channel_at_most_once Crypto.transparent transparent_opensSealed rfl rfl rfl redirectedRun
    redirectedRun_honest).1

/-- A datagram that never arrived unmodified can be refused: an accepted copy with another
receiver index has used up its counter. -/
theorem first_arrival_refused :
    ¬ ∀ {HS : Type} (c : Crypto HS) (a b : Transport) (events : List Event),
      OpensSealed c → a.sendKey = b.recvKey → a.sendCounter = 0 → b.recvAr = AntiReplay.new →
      OnlySealedOpens c (start a b) events →
      ∀ call ∈ (exec c (start a b) events).sent,
        call.datagram ∉ (exec c (start a b) events).arrived →
        (exec c (start a b) events).b.notTooOld = true →
        InWindow (exec c (start a b) events) call.counter →
        Acceptable c (exec c (start a b) events) call := by
  intro claim
  obtain ⟨h, accepted⟩ := claim Crypto.transparent (sampleSession 1 2) (sampleSession 2 1)
    redirectedRun transparent_opensSealed rfl rfl rfl redirectedRun_honest sampleCall (.head _)
    (by decide) rfl (by decide)
  have refused : ((exec Crypto.transparent (start (sampleSession 1 2) (sampleSession 2 1))
    redirectedRun).b.decrypt Crypto.transparent sampleCall.datagram).1 = none := by decide
  rw [refused] at accepted
  cases accepted

end Titun.Channel
