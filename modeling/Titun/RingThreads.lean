import Titun.RingSharing

/-! A reader and a writer at the two ends of a ring, one access at a time. -/
namespace Titun

open CircularLog Endian SharedMemory Transition

def SharedRing.new : SharedRing := ⟨.new, 0, false⟩

def PacketQueue.new : PacketQueue := ⟨[], 0, false⟩

section Threads

variable {D β : Type} {code : D → Prog opInterface Panic β} {may : RingEnd → D → Prop}

/-- Threads that run the code of operations on a ring access by access. -/
def RingStep (code : D → Prog opInterface Panic β) (may : RingEnd → D → Prop) :
    Config ringInterface Panic β SharedRing RingEnd → RingEnd × Event D β →
      Config ringInterface Panic β SharedRing RingEnd → Prop :=
  Step SharedRing.perform (fun d => (code d).expand RingOp.code) may

/-- Threads whose operations take effect at once. -/
def QueueStep (code : D → Prog opInterface Panic β) (may : RingEnd → D → Prop) :
    Config opInterface Panic β PacketQueue RingEnd → RingEnd × Event D β →
      Config opInterface Panic β PacketQueue RingEnd → Prop :=
  Step PacketQueue.perform code may

variable {labels : List (RingEnd × Event D β)} {f : Config ringInterface Panic β SharedRing RingEnd}
variable {g : Config opInterface Panic β PacketQueue RingEnd} {φ : RingEnd → RingPhase}

/-- What is seen of the threads could be seen if operations took effect at once. -/
theorem ring_refines (only : ∀ t d, may t d → (code d).Within t.Allowed)
    (run : Run (RingStep code may) ⟨.new, fun _ => none⟩ labels f) :
    ∃ labels' g φ, Run (QueueStep code may) ⟨.new, fun _ => none⟩ labels' g ∧ visible labels' = visible labels ∧
      ringSimulation.Coupled f g φ := by
  apply ringSimulation.refines only _ run
  exact ⟨rfl, rfl, TunRing.new_holds, .out, .out⟩

theorem storing (coupled : ringSimulation.Coupled f g φ) {i : Nat} {b : UInt8} {next : Unit → RingProg β}
    (busy : f.threads .writer = some (.access (RingAccess.storeByte i b) next)) :
    ∃ p written rest, p.length < 0x10000 ∧ usedBytes g.memory.packets + (4 + roundUp4 p.length) < TUN_RING_CAPACITY ∧
      (packetRecord p).content = written ++ b :: rest ∧ i = f.memory.ring.tail.toNat + written.length := by
  obtain ⟨φ, coupled, settled, _⟩ := coupled.settle .writer
  have writer := coupled.rel.writer
  rw [busy] at settled
  generalize φ .writer = phase at settled writer
  generalize g.threads .writer = q at settled
  cases settled with
  | before =>
    cases writer with
    | stores short room content stored => exact ⟨_, _, _, short, room, content, rfl⟩
  | after => cases writer

theorem loading (coupled : ringSimulation.Coupled f g φ) {j : Nat} {next : UInt8 → RingProg β}
    (busy : f.threads .reader = some (.access (RingAccess.loadByte j) next)) :
    ∃ p more, g.memory.packets = p :: more ∧ f.memory.ring.head.toNat ≤ j ∧
      j < f.memory.ring.head.toNat + (4 + p.length) := by
  obtain ⟨φ, coupled, settled, _⟩ := coupled.settle .reader
  have reader := coupled.rel.reader
  rw [busy] at settled
  generalize φ .reader = phase at settled reader
  generalize g.threads .reader = q at settled
  cases settled with
  | before =>
    cases reader with
    | @length p got rest buf b seen more t queue older content =>
      have size := congrArg List.length content
      rw [leBytes_length, List.length_append, List.length_cons] at size
      exact ⟨p, seen ++ more, queue, Nat.le_add_right .., by omega⟩
    | @packet p got rest buf b more queue content =>
      have size := congrArg List.length content
      rw [List.length_take, List.length_append, List.length_cons] at size
      exact ⟨p, more, queue, by omega, by omega⟩
  | after => cases reader

/-- However the accesses of the two threads fall between each other, neither thread panics or leaves the ring, and
they never get to access one byte at a time when one of them writes it. -/
theorem ring_race_free (only : ∀ t d, may t d → (code d).Within t.Allowed)
    (run : Run (RingStep code may) ⟨.new, fun _ => none⟩ labels f) :
    (∀ t e, f.threads t ≠ some (.fail e)) ∧
    (∀ i b next, f.threads .writer = some (.access (RingAccess.storeByte i b) next) → i < TUN_RING_CAPACITY + 0x10000) ∧
    (∀ j next, f.threads .reader = some (.access (RingAccess.loadByte j) next) → j < TUN_RING_CAPACITY + 0x10000) ∧
    ∀ i b next j more, f.threads .writer = some (.access (RingAccess.storeByte i b) next) →
      f.threads .reader = some (.access (RingAccess.loadByte j) more) → i ≠ j := by
  obtain ⟨_, g, φ, _, _, coupled⟩ := ring_refines only run
  have holds := coupled.rel.holds
  have inHead := holds.head
  have alignedHead := holds.aligned
  obtain ⟨inTail, alignedTail⟩ := holds.tail_bounds
  rw [TunRing.capacity_eq] at inHead inTail
  refine ⟨coupled.not_fail, ?_, ?_, ?_⟩
  · intro i b next busy
    obtain ⟨p, written, rest, short, _, content, rfl⟩ := storing coupled busy
    have inside := (store_inside holds short content).2
    rwa [f.memory.ring.data.property] at inside
  · intro j next busy
    obtain ⟨p, more, queue, _, before⟩ := loading coupled busy
    have short := holds.short p (by rw [queue]; exact List.mem_cons_self)
    rw [TunRing.capacity_eq]
    omega
  · rintro i b next j more writes reads rfl
    obtain ⟨p, written, rest, short, room, content, place⟩ := storing coupled writes
    obtain ⟨q, later, queue, after, before⟩ := loading coupled reads
    have inSpace := (store_inside holds short content).1
    have fits := le_roundUp4 q.length
    have used : usedBytes g.memory.packets = 4 + roundUp4 q.length + usedBytes later := by
      rw [queue, TunRing.usedBytes_cons]
    have apart := positions_disjoint f.memory.ring.head.toNat
      (show 0 + (4 + roundUp4 q.length) ≤ usedBytes g.memory.packets by omega) holds.room (Nat.le_of_lt room)
    rw [← holds.tail, Nat.add_zero, Nat.mod_eq_of_lt holds.head] at apart
    omega

end Threads

section Calls

def RingCall.code : RingCall → Prog opInterface Panic RingReply
  | .read buf => .access (RingOp.read buf) fun o => .done (.received o.1 o.2)
  | .write packet => .access (RingOp.write packet) fun result => .done (.written result)

/-- One thread reads, into buffers that have room for every packet. The other writes packets that are not
refused for their length. -/
def RingEnd.Calls : RingEnd → RingCall → Prop
  | .reader, .read buf => (RingCall.read buf).Valid
  | .writer, .write packet => (RingCall.write packet).Valid
  | _, _ => False

theorem RingEnd.Calls.within {t : RingEnd} {c : RingCall} (calls : t.Calls c) : c.code.Within t.Allowed := by
  cases t with
  | reader =>
    cases c with
    | read buf => exact ⟨trivial, fun _ => trivial⟩
    | write packet => exact calls.elim
  | writer =>
    cases c with
    | read buf => exact calls.elim
    | write packet => exact ⟨calls, fun _ => trivial⟩

/-- What has taken effect and is not yet returned. -/
def unreturned (call : Option RingCall) : Option (Prog opInterface Panic RingReply) → List (RingCall × RingReply)
  | some (.done reply) => (call.map fun c => (c, reply)).toList
  | _ => []

/-- The calls of a thread that have taken effect. -/
def effected (past : List (RingCall × RingReply) × Option RingCall)
    (thread : Option (Prog opInterface Panic RingReply)) :
    List (RingCall × RingReply) := past.1 ++ unreturned past.2 thread

/-- Where a thread is that calls. -/
inductive Calling : RingEnd → Option RingCall → Option (Prog opInterface Panic RingReply) → Prop
  | idle : Calling t none none
  | reading : 65535 ≤ buf.length →
      Calling .reader (some (.read buf)) (some (.access (RingOp.read buf) fun o => .done (.received o.1 o.2)))
  | writing : packet.length < 0x10000 →
      Calling .writer (some (.write packet))
        (some (.access (RingOp.write packet) fun result => .done (.written result)))
  | ended : Calling t (some c) (some (.done reply))

theorem Calling.begun {t : RingEnd} {c : RingCall} (calls : t.Calls c) : Calling t (some c) (some c.code) := by
  cases t with
  | reader =>
    cases c with
    | read buf => exact .reading calls
    | write packet => exact calls.elim
  | writer =>
    cases c with
    | read buf => exact calls.elim
    | write packet => exact .writing calls

variable {seen : List (RingEnd × (RingCall ⊕ RingReply))}
  {g g' : Config opInterface Panic RingReply PacketQueue RingEnd}

/-- The packets that were sent and not yet received are in the queue. -/
structure QueueInv (seen : List (RingEnd × (RingCall ⊕ RingReply)))
    (g : Config opInterface Panic RingReply PacketQueue RingEnd) : Prop where
  calling : ∀ t, Calling t (recorded t seen).2 (g.threads t)
  short : ∀ p ∈ g.memory.packets, p.length < 0x10000
  order : sentPackets (effected (recorded .writer seen) (g.threads .writer)) =
    receivedPackets (effected (recorded .reader seen) (g.threads .reader)) ++ g.memory.packets

theorem recorded_other {t other : RingEnd} (apart : other ≠ t) (e : RingCall ⊕ RingReply) :
    recorded other (seen ++ [(t, e)]) = recorded other seen := by
  rw [recorded_concat]
  cases e <;> exact if_neg (Ne.symm apart)

theorem sentPackets_append (xs ys : List (RingCall × RingReply)) :
    sentPackets (xs ++ ys) = sentPackets xs ++ sentPackets ys := List.flatMap_append

theorem receivedPackets_append (xs ys : List (RingCall × RingReply)) :
    receivedPackets (xs ++ ys) = receivedPackets xs ++ receivedPackets ys := List.flatMap_append

theorem QueueInv.of_turn {t : RingEnd} {thread : Option (Prog opInterface Panic RingReply)}
    {later : List (RingEnd × (RingCall ⊕ RingReply))} {q : PacketQueue} (added : List (RingCall × RingReply))
    (inv : QueueInv seen g) (others : ∀ other, other ≠ t → recorded other later = recorded other seen)
    (calling : Calling t (recorded t later).2 thread)
    (grows : effected (recorded t later) thread = effected (recorded t seen) (g.threads t) ++ added)
    (short : ∀ p ∈ q.packets, p.length < 0x10000)
    (order : if t = .writer then g.memory.packets ++ sentPackets added = q.packets
      else g.memory.packets = receivedPackets added ++ q.packets) :
    QueueInv later ⟨q, Function.update g.threads t thread⟩ := by
  constructor
  · intro other
    by_cases same : other = t
    · subst same
      simpa only [Function.update_self] using calling
    · simpa only [others other same, Function.update_of_ne same] using inv.calling other
  · exact short
  · have before := inv.order
    cases t with
    | reader =>
      have order : g.memory.packets = receivedPackets added ++ q.packets := order
      have apart : RingEnd.writer ≠ .reader := by decide
      simp only [Function.update_self, Function.update_of_ne apart, others _ apart, grows, receivedPackets_append,
        before, order, List.append_assoc]
    | writer =>
      have order : g.memory.packets ++ sentPackets added = q.packets := order
      have apart : RingEnd.reader ≠ .writer := by decide
      simp only [Function.update_self, Function.update_of_ne apart, others _ apart, grows, sentPackets_append, before,
        ← order, List.append_assoc]

theorem unreturned_code (call : Option RingCall) (c : RingCall) : unreturned call (some c.code) = [] := by
  cases c <;> rfl

theorem QueueInv.step {l : RingEnd × Event RingCall RingReply} (inv : QueueInv seen g)
    (step : QueueStep RingCall.code RingEnd.Calls g l g') : QueueInv (seen ++ visible [l]) g' := by
  obtain ⟨t, e⟩ := l
  have calling := inv.calling t
  cases step with
  | @call _ c free calls =>
    have now : recorded t (seen ++ [(t, .inl c)]) = ((recorded t seen).1, some c) := by
      rw [recorded_concat]
      exact if_pos rfl
    refine inv.of_turn [] (fun other apart => recorded_other apart _) ?_ ?_ inv.short ?_
    · exact now ▸ .begun calls
    · change effected (recorded t (seen ++ [(t, .inl c)])) _ = _
      rw [now, effected, effected, free, unreturned_code]
      simp [unreturned]
    · split_ifs
      · exact List.append_nil _
      · rfl
  | @access _ a next reply q busy accessed =>
    have same : seen ++ visible [(t, (Event.access : Event RingCall RingReply))] = seen := List.append_nil _
    rw [same]
    rw [busy] at calling
    generalize last : (recorded t seen).2 = call at calling
    cases calling with
    | @reading buf large =>
      have turn : g.memory.read buf = (reply, q) := Option.some.inj accessed
      rw [PacketQueue.read] at turn
      cases queue : g.memory.packets with
      | nil =>
        rw [queue] at turn
        cases turn
        refine inv.of_turn [(.read buf, .received (.error .wouldBlock) buf)] (fun _ _ => rfl) ?_ ?_ inv.short rfl
        · rw [last]
          exact .ended
        · rw [effected, effected, busy, last]
          simp [unreturned]
      | cons p rest =>
        rw [queue] at turn
        cases turn
        have short := inv.short p (by rw [queue]; exact List.mem_cons_self)
        have whole : min p.length buf.length = p.length := by omega
        have received : receivedPackets [(.read buf, .received (.ok (min p.length buf.length))
            (p.take (min p.length buf.length) ++ buf.drop (min p.length buf.length)))] = [p] := by
          rw [whole, List.take_length]
          simp [receivedPackets, receivedBy]
        refine inv.of_turn [_] (fun _ _ => rfl) ?_ ?_ ?_ (queue.trans (congrArg (· ++ rest) received.symm))
        · rw [last]
          exact .ended
        · rw [effected, effected, busy, last]
          simp [unreturned]
        · intro other member
          exact inv.short other (by rw [queue]; exact List.mem_cons_of_mem _ member)
    | @writing p small =>
      have turn : g.memory.write p = (reply, q) := Option.some.inj accessed
      rw [PacketQueue.write] at turn
      split_ifs at turn with full
      · cases turn
        refine inv.of_turn [(.write p, .written (.error .wouldBlock))] (fun _ _ => rfl) ?_ ?_ inv.short
          (List.append_nil _)
        · rw [last]
          exact .ended
        · rw [effected, effected, busy, last]
          simp [unreturned]
      · cases turn
        refine inv.of_turn [(.write p, .written (.ok p.length))] (fun _ _ => rfl) ?_ ?_ ?_ rfl
        · rw [last]
          exact .ended
        · rw [effected, effected, busy, last]
          simp [unreturned]
        · intro other member
          rcases List.mem_append.mp member with old | new
          · exact inv.short other old
          · obtain rfl := List.mem_singleton.mp new
            exact small
  | @ret _ reply ended =>
    rw [ended] at calling
    generalize last : (recorded t seen).2 = call at calling
    cases calling with
    | @ended _ c _ =>
      have now : recorded t (seen ++ [(t, .inr reply)]) = ((recorded t seen).1 ++ [(c, reply)], none) := by
        rw [recorded_concat, record, if_pos rfl, last]
        rfl
      refine inv.of_turn [] (fun other apart => recorded_other apart _) ?_ ?_ inv.short ?_
      · exact now ▸ .idle
      · change effected (recorded t (seen ++ [(t, .inr reply)])) _ = _
        rw [now, effected, effected, ended, last]
        rfl
      · split_ifs
        · exact List.append_nil _
        · rfl

theorem QueueInv.run {labels : List (RingEnd × Event RingCall RingReply)}
    (run : Run (QueueStep RingCall.code RingEnd.Calls) ⟨.new, fun _ => none⟩ labels g) :
    QueueInv (visible labels) g := by
  have initial : QueueInv (visible []) ⟨.new, fun _ => none⟩ :=
    ⟨fun _ => .idle, fun _ member => (List.not_mem_nil member).elim, rfl⟩
  refine run.history (fun past g => QueueInv (visible past) g) ?_ initial
  intro past g l next inv step
  rw [visible_append]
  exact inv.step step

theorem unreturned_short (call : Option RingCall) (thread : Option (Prog opInterface Panic RingReply)) :
    (unreturned call thread).length ≤ 1 := by
  unfold unreturned
  split
  · exact Option.length_toList_le
  · exact Nat.zero_le _

theorem sentPackets_length (calls : List (RingCall × RingReply)) : (sentPackets calls).length ≤ calls.length := by
  induction calls with
  | nil => exact Nat.le_refl _
  | cons c calls ih =>
    have one : (sentBy c).length ≤ 1 := by
      unfold sentBy
      split <;> simp
    rw [sentPackets, List.flatMap_cons, List.length_append, List.length_cons]
    exact (Nat.add_le_add one ih).trans_eq (Nat.add_comm ..)

theorem receivedPackets_length (calls : List (RingCall × RingReply)) :
    (receivedPackets calls).length ≤ calls.length := by
  induction calls with
  | nil => exact Nat.le_refl _
  | cons c calls ih =>
    have one : (receivedBy c).length ≤ 1 := by
      unfold receivedBy
      split <;> simp
    rw [receivedPackets, List.flatMap_cons, List.length_append, List.length_cons]
    exact (Nat.add_le_add one ih).trans_eq (Nat.add_comm ..)

/-- However the accesses of a reader and a writer fall between each other, where buffers have room for every packet and
packets lengths below `0x10000`: what is seen of their calls could be seen if every call took effect at once, and the
packets that were received are those that were sent, whole and in order, but for the packets that the ring stores and
the calls that did not return. -/
theorem ring_linearizable {labels : List (RingEnd × Event RingCall RingReply)}
    {f : Config ringInterface Panic RingReply SharedRing RingEnd}
    (run : Run (RingStep RingCall.code RingEnd.Calls) ⟨.new, fun _ => none⟩ labels f) :
    (∃ labels' g, Run (QueueStep RingCall.code RingEnd.Calls) ⟨.new, fun _ => none⟩ labels' g ∧
      visible labels' = visible labels) ∧
    ∃ stored sending receiving, f.memory.ring.Holds stored ∧
      sentPackets (recorded .writer (visible labels)).1 ++ sending =
        receivedPackets (recorded .reader (visible labels)).1 ++ receiving ++ stored ∧
      sending.length ≤ 1 ∧ (f.threads .writer = none → sending = []) ∧
      receiving.length ≤ 1 ∧ (f.threads .reader = none → receiving = []) := by
  obtain ⟨labels', g, φ, ran, same, coupled⟩ := ring_refines (fun _ _ calls => calls.within) run
  have inv := QueueInv.run ran
  have order := inv.order
  rw [same, effected, effected, sentPackets_append, receivedPackets_append] at order
  refine ⟨⟨labels', g, ran, same⟩, g.memory.packets, _, _, coupled.rel.holds, order, ?_, ?_, ?_, ?_⟩
  · exact (sentPackets_length _).trans (unreturned_short ..)
  · intro free
    rw [coupled.idle free]
    rfl
  · exact (receivedPackets_length _).trans (unreturned_short ..)
  · intro free
    rw [coupled.idle free]
    rfl

theorem call_alone {t : RingEnd} {c : RingCall} {reply : RingReply} {r : TunRing} {m : SharedRing}
    {threads : RingEnd → Option (RingProg RingReply)} (calls : t.Calls c) (free : threads t = none)
    (called : m.ring.call c = .ok (reply, r)) : ∃ labels, visible labels = [(t, .inl c), (t, .inr reply)] ∧
      Run (RingStep RingCall.code RingEnd.Calls) ⟨m, threads⟩ labels ⟨{ m with ring := r }, threads⟩ := by
  cases c with
  | read buf =>
    obtain ⟨⟨result, filled, r⟩, read, replied⟩ := bind_eq_ok.mp called
    cases replied
    have ran : (readCode buf).run SharedRing.perform m = some (.ok ((result, filled), { m with ring := r })) := by
      rw [readCode_run, read]
      rfl
    exact run_call free calls rfl ran rfl
  | write packet =>
    obtain ⟨⟨result, r⟩, written, replied⟩ := bind_eq_ok.mp called
    cases replied
    have ran : (writeCode packet).run SharedRing.perform m = some (.ok (result, { m with ring := r })) := by
      rw [writeCode_run, written]
      rfl
    exact run_call free calls rfl ran rfl

section Samples

theorem sample_written : ∃ r : TunRing,
    TunRing.new.call (.write [1, 2, 3]) = .ok (.written (.ok 3), r) ∧ r.Holds [[1, 2, 3]] := by
  have written := TunRing.write_packet TunRing.new_holds (show ([1, 2, 3] : Bytes).length < 0x10000 by decide)
  rw [if_neg (by decide)] at written
  obtain ⟨r, written, holds⟩ := written
  refine ⟨r, ?_, holds⟩
  rw [TunRing.call, written]
  rfl

def sampleBuffer : Bytes := List.replicate 65535 0

theorem sampleBuffer_large : 65535 ≤ sampleBuffer.length := Nat.le_of_eq (List.length_replicate ..).symm

theorem ring_linearizable_packet : ∃ labels f,
    Run (RingStep RingCall.code RingEnd.Calls) ⟨.new, fun _ => none⟩ labels f ∧
    receivedPackets (recorded .reader (visible labels)).1 = [[1, 2, 3]] ∧
    ∃ stored sending receiving, f.memory.ring.Holds stored ∧
      sentPackets (recorded .writer (visible labels)).1 ++ sending =
        receivedPackets (recorded .reader (visible labels)).1 ++ receiving ++ stored := by
  obtain ⟨r, sends, holds⟩ := sample_written
  obtain ⟨s, read, _⟩ := TunRing.read_packet holds sampleBuffer_large
  have receives : r.call (.read sampleBuffer) = .ok (.received (.ok 3) ([1, 2, 3] ++ sampleBuffer.drop 3), s) := by
    rw [TunRing.call, read]
    rfl
  obtain ⟨first, sent, writes⟩ : ∃ labels, visible labels = _ ∧
    Run (RingStep RingCall.code RingEnd.Calls) ⟨.new, fun _ => none⟩ labels ⟨⟨r, 0, false⟩, _⟩ :=
    call_alone (t := .writer) (c := .write [1, 2, 3]) (show 3 < 0x10000 by decide) rfl sends
  obtain ⟨second, received, reads⟩ : ∃ labels, visible labels = _ ∧
    Run (RingStep RingCall.code RingEnd.Calls) ⟨⟨r, 0, false⟩, fun _ => none⟩ labels ⟨⟨s, 0, false⟩, _⟩ :=
    call_alone (t := .reader) (c := .read _) sampleBuffer_large rfl receives
  have run := writes.append reads
  obtain ⟨stored, sending, receiving, holds, order, _⟩ := (ring_linearizable run).2
  refine ⟨first ++ second, _, run, ?_, stored, sending, receiving, holds, order⟩
  rw [visible_append, sent, received]
  rfl

def loadBoth : RingProg (BitVec 32 × BitVec 32) :=
  .access RingAccess.loadHead fun head => .access RingAccess.loadTail fun tail => .done (head, tail)

theorem ring_race_free_packets : ∃ labels f i b next j more,
    Run (RingStep RingCall.code RingEnd.Calls) ⟨.new, fun _ => none⟩ labels f ∧
    f.threads .writer = some (.access (RingAccess.storeByte i b) next) ∧
    f.threads .reader = some (.access (RingAccess.loadByte j) more) ∧ i ≠ j := by
  obtain ⟨r, sends, holds⟩ := sample_written
  obtain ⟨first, _, writes⟩ : ∃ labels, visible labels = _ ∧
    Run (RingStep RingCall.code RingEnd.Calls) ⟨.new, fun _ => none⟩ labels ⟨⟨r, 0, false⟩, _⟩ :=
    call_alone (t := .writer) (c := .write [1, 2, 3]) (show 3 < 0x10000 by decide) rfl sends
  have stores : writeBetween [4] r.head r.tail = .access (RingAccess.storeByte r.tail.toNat 1) _ :=
    TunRing.writeBetween_room holds (by decide) (by decide)
  have loads : readBetween sampleBuffer r.head r.tail = .access (RingAccess.loadByte r.head.toNat) _ :=
    TunRing.readBetween_packet holds sampleBuffer
  have begins (t : RingEnd) (c : RingCall) (threads : RingEnd → Option (RingProg RingReply))
      (k : BitVec 32 × BitVec 32 → RingProg RingReply) (free : threads t = none) (calls : t.Calls c)
      (code : c.code.expand RingOp.code = loadBoth.bind k) :
      ∃ labels, Run (RingStep RingCall.code RingEnd.Calls) ⟨⟨r, 0, false⟩, threads⟩ labels
        ⟨⟨r, 0, false⟩, Function.update threads t (some (k (r.head, r.tail)))⟩ := by
    have ran : loadBoth.run SharedRing.perform ⟨r, 0, false⟩ = some (.ok ((r.head, r.tail), ⟨r, 0, false⟩)) := rfl
    obtain ⟨labels, _, run⟩ : ∃ labels, visible labels = [] ∧ Run (RingStep RingCall.code RingEnd.Calls)
        ⟨⟨r, 0, false⟩, Function.update threads t (some (c.code.expand RingOp.code))⟩ labels _ :=
      run_bind ran ((Function.update_self ..).trans (congrArg some code))
    rw [Function.update_idem] at run
    exact ⟨_, .cons (.call free calls) run⟩
  obtain ⟨second, reads⟩ := begins .reader (.read sampleBuffer) (fun _ => none)
    (fun o => (readBetween sampleBuffer o.1 o.2).bind fun o => .done (.received o.1 o.2)) rfl sampleBuffer_large rfl
  obtain ⟨third, sends⟩ := begins .writer (.write [4]) (Function.update (fun _ => none) .reader
    (some ((readBetween sampleBuffer r.head r.tail).bind fun o => .done (.received o.1 o.2))))
    (fun o => (writeBetween [4] o.1 o.2).bind fun result => .done (.written result)) rfl
      (show 1 < 0x10000 by decide) rfl
  have run := (writes.append reads).append sends
  rw [stores, loads] at run
  refine ⟨_, _, r.tail.toNat, 1, _, r.head.toNat, _, run, rfl, rfl, ?_⟩
  exact (ring_race_free (fun _ _ calls => calls.within) run).2.2.2 _ _ _ _ _ rfl rfl

end Samples

end Calls

end Titun
