import Titun.Transport
import Titun.Lib.Threads
import Titun.Lib.Transition

/-! Concurrent senders on one transport, each atomic operation of the gate and of
`encrypt` being a step of its own. -/
namespace Titun.Senders

open Transport

/-- Where a sender stands between its atomic operations. -/
inductive Place where
  | idle
  | gated
  | fetched (c : BitVec 64)
  deriving DecidableEq

structure State (n : Nat) where
  t : Transport
  place : Fin n → Place
  /-- The counter and the datagram of every successful encryption. -/
  sealed : List (BitVec 64 × Bytes)

inductive Label (n : Nat) where
  | gate (i : Fin n)
  | fetchAdd (i : Fin n)
  | finish (i : Fin n) (msg : Bytes)
  | expireHandshake
  | expire
  | decrypt (datagram : Bytes)

variable {HS : Type} (c : Crypto HS)

def start (n : Nat) (t : Transport) : State n := ⟨t, fun _ => .idle, []⟩

def State.move (s : State n) (i : Fin n) (p : Place) : State n :=
  { s with place := Function.update s.place i p }

/-- The rest of `encrypt` after it has fetched `ctr`. -/
def State.finish (s : State n) (ctr : BitVec 64) (msg : Bytes) : State n :=
  if ctr ≥ REJECT_AFTER_MESSAGES then { s with t := { s.t with notTooOld := false } }
  else { s with sealed := s.sealed ++ [(ctr, s.t.sealed c ctr msg)] }

inductive Step : State n → Label n → State n → Prop where
  | gate (idle : s.place i = .idle) :
    Step s (.gate i) (s.move i (if s.t.getShouldSend then .gated else .idle))
  | fetchAdd (gated : s.place i = .gated) :
    Step s (.fetchAdd i)
      ({ s with t := { s.t with sendCounter := s.t.sendCounter + 1 } }.move i (.fetched s.t.sendCounter))
  | finish (fetched : s.place i = .fetched ctr) :
    Step s (.finish i msg) ((s.finish c ctr msg).move i .idle)
  | expireHandshake : Step s .expireHandshake { s with t := s.t.expireHandshake }
  | expire : Step s .expire { s with t := s.t.expire }
  | decrypt : Step s (.decrypt datagram) { s with t := (s.t.decrypt c datagram).2 }

/-- A sender that is not interrupted does what `encrypt` does. -/
theorem encrypt_steps {s : State n} (gated : s.place i = .gated) (msg : Bytes) :
    ∃ next, Transition.Run (Step c) s [.fetchAdd i, .finish i msg] next ∧
      next.t = (s.t.encrypt c msg).2 ∧
      next.sealed = s.sealed ++
        ((s.t.encrypt c msg).1.1.map fun datagram => (s.t.sendCounter, datagram)).toList := by
  refine ⟨_, .cons (.fetchAdd gated) (.cons (.finish (Function.update_self ..)) .nil), ?_⟩
  by_cases rejected : s.t.sendCounter ≥ REJECT_AFTER_MESSAGES
  · simp [State.finish, State.move, encrypt, rejected]
  · simp [State.finish, State.move, encrypt, rejected, Transport.sealed]

/-- A sender that has passed the gate and has not fetched a counter yet. -/
def IsGated (p : Place) : Prop := p = .gated

instance : DecidablePred IsGated := fun p => inferInstanceAs (Decidable (p = .gated))

/-- A sender that is about to store `notTooOld = false`. -/
def IsFailing : Place → Prop
  | .fetched ctr => REJECT_AFTER_MESSAGES ≤ ctr
  | _ => False

instance : DecidablePred IsFailing
  | .idle | .gated => inferInstanceAs (Decidable False)
  | .fetched ctr => inferInstanceAs (Decidable (REJECT_AFTER_MESSAGES ≤ ctr))

@[simp] theorem isGated_iff : IsGated p ↔ p = .gated := Iff.rfl

@[simp] theorem not_isFailing_idle : ¬ IsFailing .idle := id

@[simp] theorem not_isFailing_gated : ¬ IsFailing .gated := id

@[simp] theorem isFailing_fetched : IsFailing (.fetched ctr) ↔ REJECT_AFTER_MESSAGES ≤ ctr := Iff.rfl

/-- The first counter value that is not sealed under. -/
def limit : Nat := REJECT_AFTER_MESSAGES.toNat

/-- After `fetches` increments of the counter, each fetch beyond the limit belongs to one
sender: past the gate nobody enters any more, and inside it there is room for `n`. -/
structure Inv (s : State n) (fetches : Nat) : Prop where
  counter : s.t.sendCounter = BitVec.ofNat 64 fetches
  room : fetches - limit + Threads.count IsGated s.place ≤ n
  young : s.t.notTooOld = true → fetches - limit ≤ Threads.count IsFailing s.place
  fresh : ∀ ctr, (∃ i, s.place i = .fetched ctr) ∨ ctr ∈ s.sealed.map Prod.fst → ctr.toNat < fetches
  separate : ∀ i ctr, s.place i = .fetched ctr → ctr ∉ s.sealed.map Prod.fst ∧
    ∀ j, s.place j = .fetched ctr → j = i
  distinct : (s.sealed.map Prod.fst).Nodup
  below : ∀ x ∈ s.sealed, x.1 < REJECT_AFTER_MESSAGES

theorem start_inv {t : Transport} (counter : t.sendCounter = 0) : Inv (start n t) 0 where
  counter := counter
  room := by simp [start, Threads.count, IsGated, limit]
  young := fun _ => by simp
  fresh := by simp [start]
  separate := by simp [start]
  distinct := List.nodup_nil
  below := fun _ member => by cases member

theorem Inv.frame {s : State n} (inv : Inv s fetches) {t : Transport}
    (counter : t.sendCounter = s.t.sendCounter)
    (young : t.notTooOld = true → s.t.notTooOld = true) : Inv { s with t } fetches where
  counter := counter.trans inv.counter
  room := inv.room
  young := fun h => inv.young (young h)
  fresh := inv.fresh
  separate := inv.separate
  distinct := inv.distinct
  below := inv.below

theorem place_move (s : State n) (i : Fin n) (p : Place) :
    (s.move i p).place = Function.update s.place i p := rfl

theorem Inv.release {s : State n} (inv : Inv s fetches) {i : Fin n} {p : Place}
    (holds : ∀ ctr, p ≠ .fetched ctr)
    (room : fetches - limit + Threads.count IsGated (s.move i p).place ≤ n)
    (young : s.t.notTooOld = true → fetches - limit ≤ Threads.count IsFailing (s.move i p).place) :
    Inv (s.move i p) fetches := by
  have old : ∀ j ctr, (s.move i p).place j = .fetched ctr → s.place j = .fetched ctr := by
    intro j ctr fetched
    by_cases same : j = i
    · rw [place_move, same, Function.update_self] at fetched
      exact absurd fetched (holds ctr)
    · rwa [place_move, Function.update_of_ne same] at fetched
  exact
    { counter := inv.counter
      room := room
      young := young
      fresh := fun ctr used => inv.fresh ctr (used.imp_left fun ⟨j, fetched⟩ => ⟨j, old j ctr fetched⟩)
      separate := fun j ctr fetched => ⟨(inv.separate j ctr (old j ctr fetched)).1,
        fun k other => (inv.separate j ctr (old j ctr fetched)).2 k (old k ctr other)⟩
      distinct := inv.distinct
      below := inv.below }

theorem Inv.gate {s : State n} (inv : Inv s fetches) {i : Fin n} (idle : s.place i = .idle) :
    Inv (s.move i (if s.t.getShouldSend then .gated else .idle)) fetches := by
  have gated := Threads.count_update IsGated s.place i
    (if s.t.getShouldSend then .gated else .idle)
  have failing := Threads.count_update IsFailing s.place i
    (if s.t.getShouldSend then .gated else .idle)
  have space := Threads.count_add_count_lt IsGated IsFailing s.place i
    (by rintro _ rfl; exact id) (by simp [idle]) (by simp [idle])
  have room := inv.room
  rw [Fintype.card_fin] at space
  rw [← place_move] at gated failing
  by_cases passes : s.t.getShouldSend = true
  · have young : s.t.notTooOld = true := (Bool.and_eq_true _ _ ▸ passes).2
    have few := inv.young young
    rw [if_pos passes, idle] at gated failing
    rw [if_pos passes]
    simp at gated failing
    exact inv.release (by simp) (by omega) (fun _ => by omega)
  · rw [if_neg passes, idle] at gated failing
    rw [if_neg passes]
    simp at gated failing
    exact inv.release (by simp) (by omega) (fun h => by have := inv.young h; omega)

theorem limit_eq : limit = 2 ^ 64 - 17 := rfl

theorem Inv.fetchAdd {s : State n} (few : n ≤ 17) (inv : Inv s fetches) {i : Fin n}
    (here : s.place i = .gated) :
    Inv ({ s with t := { s.t with sendCounter := s.t.sendCounter + 1 } }.move i
      (.fetched s.t.sendCounter)) (fetches + 1) := by
  have gated := Threads.count_update IsGated s.place i (.fetched s.t.sendCounter)
  have failing := Threads.count_update IsFailing s.place i (.fetched s.t.sendCounter)
  have present := Threads.count_pos IsGated s.place i here
  have room := inv.room
  have fits : fetches < 2 ^ 64 := by
    have := limit_eq
    omega
  have value : s.t.sendCounter.toNat = fetches := by
    rw [inv.counter, BitVec.toNat_ofNat, Nat.mod_eq_of_lt fits]
  have beyond : REJECT_AFTER_MESSAGES ≤ s.t.sendCounter ↔ limit ≤ fetches := by
    rw [← value]
    exact BitVec.le_def
  rw [here] at gated failing
  simp [beyond] at gated failing
  have unused : ∀ ctr, ctr.toNat < fetches → ctr ≠ s.t.sendCounter := by
    rintro ctr before rfl
    omega
  have others : ∀ j ctr, j ≠ i → Function.update s.place i (.fetched s.t.sendCounter) j = .fetched ctr →
      s.place j = .fetched ctr := by
    intro j ctr other fetched
    rwa [Function.update_of_ne other] at fetched
  refine
    { counter := ?_
      room := ?_
      young := fun young => ?_
      fresh := ?_
      separate := ?_
      distinct := inv.distinct
      below := inv.below }
  · simp only [State.move, inv.counter, BitVec.ofNat_add]
    rfl
  · simp only [State.move]
    omega
  · have := inv.young young
    simp only [State.move]
    split_ifs at failing <;> omega
  · rintro ctr (⟨j, fetched⟩ | used)
    · by_cases same : j = i
      · simp only [State.move, same, Function.update_self, Place.fetched.injEq] at fetched
        rw [← fetched, value]
        exact Nat.lt_succ_self _
      · exact Nat.lt_succ_of_lt (inv.fresh ctr (.inl ⟨j, others j ctr same fetched⟩))
    · exact Nat.lt_succ_of_lt (inv.fresh ctr (.inr used))
  · intro j ctr fetched
    by_cases same : j = i
    · simp only [State.move, same, Function.update_self, Place.fetched.injEq] at fetched
      subst fetched
      refine ⟨fun used => unused _ (inv.fresh _ (.inr used)) rfl, fun k again => ?_⟩
      by_contra other
      exact unused _ (inv.fresh _ (.inl ⟨k, others k _ (same ▸ other) again⟩)) rfl
    · have before := others j ctr same fetched
      refine ⟨(inv.separate j ctr before).1, fun k again => ?_⟩
      by_cases mine : k = i
      · simp only [State.move, mine, Function.update_self, Place.fetched.injEq] at again
        exact absurd again.symm (unused ctr (inv.fresh ctr (.inl ⟨j, before⟩)))
      · exact (inv.separate j ctr before).2 k (others k ctr mine again)

theorem Inv.seal {s : State n} (inv : Inv s fetches) {ctr : BitVec 64} (datagram : Bytes)
    (before : ctr.toNat < fetches) (unheld : ∀ j, s.place j ≠ .fetched ctr)
    (unsealed : ctr ∉ s.sealed.map Prod.fst) (below : ctr < REJECT_AFTER_MESSAGES) :
    Inv { s with sealed := s.sealed ++ [(ctr, datagram)] } fetches where
  counter := inv.counter
  room := inv.room
  young := inv.young
  fresh := by
    rintro used (held | member)
    · exact inv.fresh used (.inl held)
    · rcases List.mem_append.mp (List.map_append ▸ member) with old | new
      · exact inv.fresh used (.inr old)
      · rw [List.mem_singleton.mp new]
        exact before
  separate := by
    intro j held place
    refine ⟨fun member => ?_, (inv.separate j held place).2⟩
    rcases List.mem_append.mp (List.map_append ▸ member) with old | new
    · exact (inv.separate j held place).1 old
    · rw [List.mem_singleton.mp new] at place
      exact unheld j place
  distinct := by
    rw [List.map_append, List.nodup_append]
    refine ⟨inv.distinct, by simp, fun x old y new => ?_⟩
    rw [List.mem_singleton.mp new]
    rintro rfl
    exact unsealed old
  below := by
    intro x member
    rcases List.mem_append.mp member with old | new
    · exact inv.below x old
    · rw [List.mem_singleton.mp new]
      exact below

theorem Inv.finish {s : State n} (inv : Inv s fetches) {i : Fin n} {ctr : BitVec 64} (msg : Bytes)
    (here : s.place i = .fetched ctr) : Inv ((s.finish c ctr msg).move i .idle) fetches := by
  have gated := Threads.count_update IsGated s.place i .idle
  have failing := Threads.count_update IsFailing s.place i .idle
  have room := inv.room
  rw [here] at gated failing
  simp at gated failing
  by_cases rejected : ctr ≥ REJECT_AFTER_MESSAGES
  · rw [State.finish, if_pos rejected]
    have failed : Inv { s with t := { s.t with notTooOld := false } } fetches :=
      inv.frame rfl (fun old => by cases old)
    exact failed.release (by simp) (by simp only [State.move]; omega) (fun old => by cases old)
  · rw [State.finish, if_neg rejected]
    have notFailing : ¬ REJECT_AFTER_MESSAGES ≤ ctr := rejected
    rw [if_neg notFailing] at failing
    have released : Inv (s.move i .idle) fetches := by
      refine inv.release (by simp) (by simp only [State.move]; omega) (fun young => ?_)
      have := inv.young young
      simp only [State.move]
      omega
    refine released.seal (s.t.sealed c ctr msg) (inv.fresh ctr (.inl ⟨i, here⟩)) (fun j held => ?_)
      (inv.separate i ctr here).1 (BitVec.not_le.mp rejected)
    by_cases same : j = i
    · simp [State.move, same] at held
    · simp only [State.move, Function.update_of_ne same] at held
      exact same ((inv.separate i ctr here).2 j held)

theorem Inv.step {s : State n} (few : n ≤ 17) (inv : Inv s fetches) (step : Step c s label next) :
    ∃ fetches', Inv next fetches' := by
  cases step with
  | gate idle => exact ⟨_, inv.gate idle⟩
  | fetchAdd gated => exact ⟨_, inv.fetchAdd few gated⟩
  | finish fetched => exact ⟨_, inv.finish c _ fetched⟩
  | expireHandshake => exact ⟨_, inv.frame rfl id⟩
  | expire => exact ⟨_, inv.frame rfl (fun old => by cases old)⟩
  | decrypt =>
    rename_i datagram
    refine ⟨_, inv.frame ?_ ?_⟩
    all_goals rcases decrypt_state c s.t datagram with same | accepted
    · rw [same]
    · rw [accepted]
      rfl
    · rw [same]
      exact id
    · rw [accepted]
      exact id

/-- No two encryptions that succeed use the same counter, whatever the interleaving. -/
theorem nonces_unique (few : n ≤ 17) (now : Instant) (selfId peerId : WgId) (hs : HS)
    (run : Transition.Run (Step c) (start n (newFromHs c now selfId peerId hs)) labels last) :
    (last.sealed.map Prod.fst).Nodup ∧ ∀ x ∈ last.sealed, x.1 < REJECT_AFTER_MESSAGES := by
  obtain ⟨_, inv⟩ := run.invariant (fun s => ∃ fetches, Inv s fetches)
    (fun s label next ⟨_, inv⟩ step => inv.step c few step) ⟨0, start_inv rfl⟩
  exact ⟨inv.distinct, inv.below⟩

def initiating : Crypto X25519Key := { Crypto.transparent with getIsInitiator := fun _ => true }

def crossingStart : State 17 := start 17 (newFromHs initiating 0 (zeros 4) (zeros 4) (zeros 32))

def crossing : List (Label 17) :=
  [.gate 0, .gate 1, .fetchAdd 1, .fetchAdd 0, .finish 0 [], .finish 1 []]

theorem nonces_unique_crossing : ∃ last, Transition.Run (Step initiating) crossingStart crossing last ∧
    last.sealed.map Prod.fst = [1, 0] ∧ (last.sealed.map Prod.fst).Nodup ∧
    ∀ x ∈ last.sealed, x.1 < REJECT_AFTER_MESSAGES := by
  have run : Transition.Run (Step initiating) crossingStart crossing _ :=
    .cons (.gate rfl) (.cons (.gate rfl) (.cons (.fetchAdd rfl) (.cons (.fetchAdd rfl)
      (.cons (.finish rfl) (.cons (.finish rfl) .nil)))))
  exact ⟨_, run, by decide, nonces_unique initiating (by decide) 0 _ _ (zeros 32) run⟩

end Titun.Senders
