import Titun.RingThreads

/-! The registered rings: a reader that waits for the event of a ring, and a writer that sets it. -/
namespace Titun

open SharedMemory Transition

/-- A call of one of the registered rings. -/
inductive RegisterCall where
  | read (buf : Bytes)
  | write (packet : Bytes)

inductive RegisterReply where
  /-- The loop goes on. -/
  | again
  | received (result : Except RingError Nat) (buf : Bytes)
  | written (result : Except RingError Nat)

abbrev RegisterProg := Prog opInterface Panic RegisterReply

def readAgain : Except RingError Nat × Bytes → RegisterProg
  | (.error .wouldBlock, _) =>
    .access RingOp.waitEvent fun _ => .access (RingOp.storeAlertable 0) fun _ => .done .again
  | (result, buf) => .done (.received result buf)

def readTurnAgain (buf : Bytes) : RegisterProg := .access (RingOp.read buf) readAgain

def readFirst : Except RingError Nat × Bytes → RegisterProg
  | (.error .wouldBlock, buf) => .access (RingOp.storeAlertable 1) fun _ => readTurnAgain buf
  | (result, buf) => .done (.received result buf)

/-- A turn of the loop of `TunRegisterRings::read`. -/
def readTurn (buf : Bytes) : RegisterProg := .access (RingOp.read buf) readFirst

def notify (len : Nat) (alertable : BitVec 32) : RegisterProg :=
  if alertable ≠ 0 then .access RingOp.setEvent fun _ => .done (.written (.ok len)) else .done (.written (.ok len))

def writeResult : Except RingError Nat → RegisterProg
  | .error .wouldBlock => .done (.written (.ok 0))
  | .error e => .done (.written (.error e))
  | .ok len => .access RingOp.loadAlertable (notify len)

def RegisterCall.code : RegisterCall → RegisterProg
  | .read buf => readTurn buf
  | .write packet => .access (RingOp.write packet) writeResult

/-- One thread reads, the other writes packets that are not refused for their length. -/
def RingEnd.Registers : RingEnd → RegisterCall → Prop
  | .reader, .read _ => True
  | .writer, .write packet => packet.length < 0x10000
  | _, _ => False

theorem readAgain_within (o : Except RingError Nat × Bytes) : (readAgain o).Within RingEnd.reader.Allowed := by
  unfold readAgain
  split
  · exact ⟨trivial, fun _ => ⟨trivial, fun _ => trivial⟩⟩
  · trivial

theorem readFirst_within (o : Except RingError Nat × Bytes) : (readFirst o).Within RingEnd.reader.Allowed := by
  unfold readFirst
  split
  · exact ⟨trivial, fun _ => ⟨trivial, readAgain_within⟩⟩
  · trivial

theorem writeResult_within (result : Except RingError Nat) : (writeResult result).Within RingEnd.writer.Allowed := by
  unfold writeResult
  split
  · trivial
  · trivial
  · refine ⟨trivial, fun alertable => ?_⟩
    unfold notify
    split
    · exact ⟨trivial, fun _ => trivial⟩
    · trivial

theorem RingEnd.Registers.within {t : RingEnd} {c : RegisterCall} (registers : t.Registers c) :
    c.code.Within t.Allowed := by
  cases t with
  | reader =>
    cases c with
    | read buf => exact ⟨trivial, readFirst_within⟩
    | write packet => exact registers.elim
  | writer =>
    cases c with
    | read buf => exact registers.elim
    | write packet => exact ⟨registers, writeResult_within⟩

/-- A writer that has stored a packet and is about to look whether to set the event, or to set it. -/
inductive Notifies : Option RegisterProg → Prop
  | loads : Notifies (some (.access RingOp.loadAlertable (notify len)))
  | sets : Notifies (some (.access RingOp.setEvent fun _ => .done (.written (.ok len))))

/-- Where a writer is. -/
inductive Writing : Option RegisterProg → Prop
  | idle : Writing none
  | writes : Writing (some (.access (RingOp.write packet) writeResult))
  | notifies : Notifies thread → Writing thread
  | ends : Writing (some (.done reply))

/-- Where a reader is: once it is alertable and has found nothing it is notified of what comes. -/
inductive Reading (q : PacketQueue) (writer : Option RegisterProg) : Option RegisterProg → Prop
  | idle : Reading q writer none
  | first : Reading q writer (some (readTurn buf))
  | arms : Reading q writer (some (.access (RingOp.storeAlertable 1) fun _ => readTurnAgain buf))
  | second : q.alertable ≠ 0 → Reading q writer (some (readTurnAgain buf))
  | waits : q.alertable ≠ 0 → (q.packets = [] ∨ q.signalled = true ∨ Notifies writer) → Reading q writer
      (some (.access RingOp.waitEvent fun _ => .access (RingOp.storeAlertable 0) fun _ => .done .again))
  | disarms : Reading q writer (some (.access (RingOp.storeAlertable 0) fun _ => .done .again))
  | ends : Reading q writer (some (.done reply))

structure WakeInv (g : Config opInterface Panic RegisterReply PacketQueue RingEnd) : Prop where
  writer : Writing (g.threads .writer)
  reader : Reading g.memory (g.threads .writer) (g.threads .reader)

variable {g g' : Config opInterface Panic RegisterReply PacketQueue RingEnd}

theorem Reading.again (o : Except RingError Nat × Bytes) {q : PacketQueue} {writer : Option RegisterProg}
    (alertable : q.alertable ≠ 0) (empty : o.1 = .error .wouldBlock → q.packets = []) :
    Reading q writer (some (readAgain o)) := by
  unfold readAgain
  split
  case h_1 => exact .waits alertable (.inl (empty rfl))
  case h_2 => exact .ends

theorem Reading.noticed {q q' : PacketQueue} {writer writer' reader : Option RegisterProg}
    (reading : Reading q writer reader)
    (same : q'.alertable = q.alertable)
    (noticed : q.alertable ≠ 0 → q.packets = [] ∨ q.signalled = true ∨ Notifies writer →
      q'.packets = [] ∨ q'.signalled = true ∨ Notifies writer') : Reading q' writer' reader := by
  cases reading with
  | idle => exact .idle
  | first => exact .first
  | arms => exact .arms
  | second alertable => exact .second (by rwa [same])
  | waits alertable relies => exact .waits (by rwa [same]) (noticed alertable relies)
  | disarms => exact .disarms
  | ends => exact .ends

theorem Writing.turn {a : RingOp} {next : a.Reply → RegisterProg} {reply : a.Reply} {q q' : PacketQueue}
    (writing : Writing (some (.access a next))) (performed : PacketQueue.perform a q = some (reply, q')) :
    Writing (some (next reply)) ∧ q'.alertable = q.alertable ∧
    (q.alertable ≠ 0 → q.packets = [] ∨ q.signalled = true ∨ Notifies (some (.access a next)) →
      q'.packets = [] ∨ q'.signalled = true ∨ Notifies (some (next reply))) := by
  cases writing with
  | @writes packet =>
    have turn : q.write packet = (reply, q') := Option.some.inj performed
    rw [PacketQueue.write] at turn
    split_ifs at turn with full
    · cases turn
      refine ⟨.ends, rfl, ?_⟩
      rintro _ (empty | set | notifies)
      · exact .inl empty
      · exact .inr (.inl set)
      · cases notifies
    · cases turn
      exact ⟨.notifies .loads, rfl, fun _ _ => .inr (.inr .loads)⟩
  | notifies notifies =>
    cases notifies with
    | @loads len =>
      cases performed
      by_cases alertable : q.alertable = 0
      · have ends : notify len q.alertable = .done (.written (.ok len)) := if_neg (not_not.mpr alertable)
        refine ⟨?_, rfl, fun set => absurd alertable set⟩
        rw [ends]
        exact .ends
      · have sets : notify len q.alertable = .access RingOp.setEvent fun _ => .done (.written (.ok len)) :=
          if_pos alertable
        rw [sets]
        exact ⟨.notifies .sets, rfl, fun _ _ => .inr (.inr .sets)⟩
    | sets =>
      cases performed
      exact ⟨.ends, rfl, fun _ _ => .inr (.inl rfl)⟩

theorem Reading.turn {a : RingOp} {next : a.Reply → RegisterProg} {reply : a.Reply} {q q' : PacketQueue}
    {writer : Option RegisterProg} (reading : Reading q writer (some (.access a next)))
    (performed : PacketQueue.perform a q = some (reply, q')) : Reading q' writer (some (next reply)) := by
  cases reading with
  | first =>
    unfold readFirst
    split
    · exact .arms
    · exact .ends
  | arms =>
    cases performed
    exact .second (show (1 : BitVec 32) ≠ 0 by decide)
  | @second buf alertable =>
    have turn : q.read buf = (reply, q') := Option.some.inj performed
    rw [PacketQueue.read] at turn
    cases queue : q.packets with
    | nil =>
      rw [queue] at turn
      cases turn
      exact .again _ alertable fun _ => queue
    | cons p rest =>
      rw [queue] at turn
      cases turn
      exact .ends
  | waits => exact .disarms
  | disarms => exact .ends

theorem WakeInv.step {l : RingEnd × Event RegisterCall RegisterReply} (inv : WakeInv g)
    (step : QueueStep RegisterCall.code RingEnd.Registers g l g') : WakeInv g' := by
  obtain ⟨t, e⟩ := l
  obtain ⟨writer, reader⟩ := inv
  have apart : RingEnd.reader ≠ .writer := by decide
  cases t with
  | writer =>
    have turned (thread : Option RegisterProg) (q : PacketQueue) (writing : Writing thread)
        (reading : Reading q thread (g.threads .reader)) : WakeInv ⟨q, Function.update g.threads .writer thread⟩ := by
      constructor
      · simpa only [Function.update_self] using writing
      · simpa only [Function.update_self, Function.update_of_ne apart] using reading
    cases step with
    | @call _ c free registers =>
      cases c with
      | read buf => exact registers.elim
      | write packet =>
        apply turned _ _ .writes
        apply reader.noticed rfl
        rintro _ (empty | set | notifies)
        · exact .inl empty
        · exact .inr (.inl set)
        · rw [free] at notifies
          cases notifies
    | access busy performed =>
      rw [busy] at writer reader
      obtain ⟨writing, same, noticed⟩ := writer.turn performed
      exact turned _ _ writing (reader.noticed same noticed)
    | ret ended =>
      apply turned _ _ .idle
      apply reader.noticed rfl
      rintro _ (empty | set | notifies)
      · exact .inl empty
      · exact .inr (.inl set)
      · rw [ended] at notifies
        cases notifies
  | reader =>
    have turned (thread : Option RegisterProg) (q : PacketQueue) (reading : Reading q (g.threads .writer) thread) :
        WakeInv ⟨q, Function.update g.threads .reader thread⟩ := by
      constructor
      · simpa only [Function.update_of_ne apart.symm] using writer
      · simpa only [Function.update_self, Function.update_of_ne apart.symm] using reading
    cases step with
    | @call _ c free registers =>
      cases c with
      | read buf => exact turned _ _ .first
      | write packet => exact registers.elim
    | access busy performed =>
      rw [busy] at reader
      exact turned _ _ (reader.turn performed)
    | ret ended => exact turned _ _ .idle

theorem WakeInv.run {labels : List (RingEnd × Event RegisterCall RegisterReply)}
    (run : Run (QueueStep RegisterCall.code RingEnd.Registers) ⟨.new, fun _ => none⟩ labels g) : WakeInv g := by
  apply run.invariant WakeInv
  · intro g l next inv step
    exact inv.step step
  · exact ⟨.idle, .idle⟩

variable {f : Config ringInterface Panic RegisterReply SharedRing RingEnd} {φ : RingEnd → RingPhase}

theorem expand_sets {p : RegisterProg} {m : SharedRing} (notifies : Notifies (some p)) (alertable : m.alertable ≠ 0) :
    ∃ reply last, (p.expand RingOp.code).run SharedRing.perform m = some (.ok (reply, last)) ∧
      last.signalled = true := by
  have set : SharedRing.perform .setEvent m = some ((), { m with signalled := true }) := rfl
  cases notifies with
  | @loads len =>
    have loaded : SharedRing.perform .loadAlertable m = some (m.alertable, m) := rfl
    have sets : notify len m.alertable = .access RingOp.setEvent fun _ => .done (.written (.ok len)) := if_pos alertable
    refine ⟨.written (.ok len), { m with signalled := true }, ?_, rfl⟩
    rw [Prog.expand, RingOp.code, Prog.bind, Prog.run_access loaded, Prog.bind, sets]
    exact Prog.run_access set
  | @sets len => exact ⟨.written (.ok len), { m with signalled := true }, Prog.run_access set, rfl⟩

/-- A writer that is to notify sets the event as soon as it runs. -/
theorem notifies_sets (coupled : ringSimulation.Coupled f g φ) (notifies : Notifies (g.threads .writer))
    (alertable : g.memory.alertable ≠ 0) : ∃ p reply m, f.threads .writer = some p ∧
      p.run SharedRing.perform f.memory = some (.ok (reply, m)) ∧ m.signalled = true := by
  obtain ⟨φ, coupled, settled, _⟩ := coupled.settle .writer
  have place := coupled.rel.writer
  rw [← coupled.rel.alertable] at alertable
  generalize f.threads .writer = thread at settled
  generalize g.threads .writer = p at settled notifies
  generalize φ .writer = phase at settled place
  cases settled with
  | idle => cases notifies
  | done => cases notifies
  | before within =>
    obtain ⟨reply, last, ran, set⟩ := expand_sets notifies alertable
    cases notifies with
    | loads =>
      cases place with
      | loadAlertable => exact ⟨_, reply, last, rfl, ran, set⟩
    | sets =>
      cases place with
      | setEvent => exact ⟨_, reply, last, rfl, ran, set⟩
  | after within continues =>
    cases place with
    | @full packet h gone short seen space =>
      obtain ⟨reply, last, ran, set⟩ := expand_sets notifies alertable
      have tail : SharedRing.perform .loadTail f.memory = some (f.memory.ring.tail, f.memory) := rfl
      have between : writeBetween packet h f.memory.ring.tail = .done (.error .wouldBlock) :=
        TunRing.writeBetween_full seen short space
      refine ⟨_, reply, last, rfl, ?_, set⟩
      rw [Prog.run_access tail]
      dsimp only
      rw [between, Prog.bind, continues]
      exact ran

/-- No wake-up is lost: a reader that waits for the event of a ring that holds packets will get it, as it is set already
or as the writer, if only it goes on, sets it before its call returns. -/
theorem no_lost_wakeup {labels : List (RingEnd × Event RegisterCall RegisterReply)}
    {next : Unit → RingProg RegisterReply}
    (run : Run (RingStep RegisterCall.code RingEnd.Registers) ⟨.new, fun _ => none⟩ labels f)
    (waits : f.threads .reader = some (.access RingAccess.waitEvent next)) :
    f.memory.ring.head = f.memory.ring.tail ∨ f.memory.signalled = true ∨
    ∃ p reply m, f.threads .writer = some p ∧ p.run SharedRing.perform f.memory = some (.ok (reply, m)) ∧
      m.signalled = true := by
  obtain ⟨_, g, φ, ran, _, coupled⟩ := ring_refines (fun _ _ registers => registers.within) run
  have reader := (WakeInv.run ran).reader
  obtain ⟨φ, coupled, settled, _⟩ := coupled.settle .reader
  have place := coupled.rel.reader
  rw [waits] at settled
  generalize g.threads .reader = thread at settled reader
  generalize φ .reader = phase at settled place
  cases settled with
  | before within =>
    cases place with
    | waitEvent =>
      cases reader with
      | waits alertable relies =>
        rcases relies with empty | set | notifies
        · have holds := coupled.rel.holds
          exact .inl (holds.empty_iff.mpr empty)
        · exact .inr (.inl (coupled.rel.signalled.trans set))
        · exact .inr (.inr (notifies_sets coupled notifies alertable))
  | after => cases place

theorem no_lost_wakeup_stored : ∃ labels f next,
    Run (RingStep RegisterCall.code RingEnd.Registers) ⟨.new, fun _ => none⟩ labels f ∧
    f.threads .reader = some (.access RingAccess.waitEvent next) ∧ f.memory.ring.head ≠ f.memory.ring.tail ∧
    f.memory.signalled = false ∧ ∃ p reply m, f.threads .writer = some p ∧
      p.run SharedRing.perform f.memory = some (.ok (reply, m)) ∧ m.signalled = true := by
  obtain ⟨r, sends, holds⟩ := sample_written
  have written : TunRing.new.write [1, 2, 3] = .ok (.ok 3, r) := by
    obtain ⟨⟨result, s⟩, written, replied⟩ := bind_eq_ok.mp sends
    cases replied
    exact written
  have empty (v : BitVec 32) : (readCode sampleBuffer).run SharedRing.perform ⟨.new, v, false⟩ =
      some (.ok ((.error .wouldBlock, sampleBuffer), ⟨.new, v, false⟩)) := by
    rw [readCode_run, TunRing.read_empty TunRing.new_holds]
    rfl
  have stored : (writeCode [1, 2, 3]).run SharedRing.perform ⟨.new, 1, false⟩ = some (.ok (.ok 3, ⟨r, 1, false⟩)) := by
    rw [writeCode_run, written]
    rfl
  have goes (α : Type) (p : RingProg α) (t : RingEnd) (rest : RingProg RegisterReply) (k : α → RingProg RegisterReply)
      (m n : SharedRing) (a : α) (threads : RingEnd → Option (RingProg RegisterReply)) (code : rest = p.bind k)
      (ran : p.run SharedRing.perform m = some (.ok (a, n))) :
      ∃ labels, Run (RingStep RegisterCall.code RingEnd.Registers)
        ⟨m, Function.update threads t (some rest)⟩ labels ⟨n, Function.update threads t (some (k a))⟩ := by
    obtain ⟨labels, _, run⟩ : ∃ labels, visible labels = [] ∧ Run (RingStep RegisterCall.code RingEnd.Registers)
        ⟨m, Function.update threads t (some rest)⟩ labels _ := run_bind ran (by rw [Function.update_self, code])
    rw [Function.update_idem] at run
    exact ⟨labels, run⟩
  have reads : RingStep RegisterCall.code RingEnd.Registers ⟨.new, fun _ => none⟩
    (.reader, .call (.read sampleBuffer)) _ :=
    .call rfl trivial
  obtain ⟨_, first⟩ := goes _ (readCode sampleBuffer) .reader _ (fun o => (readFirst o).expand RingOp.code) _ _ _
    (fun _ => none) rfl (empty 0)
  obtain ⟨_, arms⟩ := goes Unit (RingOp.storeAlertable 1).code .reader _
    (fun _ => (readTurnAgain sampleBuffer).expand RingOp.code) ⟨.new, 0, false⟩ ⟨.new, 1, false⟩ ()
    (fun _ => none) rfl rfl
  obtain ⟨_, second⟩ := goes _ (readCode sampleBuffer) .reader _ (fun o => (readAgain o).expand RingOp.code) _ _ _
    (fun _ => none) rfl (empty 1)
  have writes : RingStep RegisterCall.code RingEnd.Registers ⟨⟨.new, 1, false⟩, Function.update (fun _ => none) .reader
      (some ((readAgain (.error .wouldBlock, sampleBuffer)).expand RingOp.code))⟩
      (.writer, .call (.write [1, 2, 3])) _ :=
    .call rfl (show 3 < 0x10000 by decide)
  obtain ⟨_, stores⟩ := goes _ (writeCode [1, 2, 3]) .writer _
    (fun result => (writeResult result).expand RingOp.code) _ _ _
    (Function.update (fun _ => none) .reader (some ((readAgain (.error .wouldBlock, sampleBuffer)).expand RingOp.code)))
    rfl stored
  have run := (((Run.cons reads first).append arms).append second).append (Run.cons writes stores)
  have apart : r.head ≠ r.tail := fun meet => List.cons_ne_nil _ _ (holds.empty_iff.mp meet)
  refine ⟨_, _, _, run, rfl, apart, rfl, ?_⟩
  rcases no_lost_wakeup run rfl with meet | set | notified
  · exact absurd meet apart
  · cases set
  · exact notified

end Titun
