import Titun.RingCode

/-! A ring shared by a thread that reads and a thread that writes is a queue of packets. -/
namespace Titun

open CircularLog Endian SharedMemory

/-- What the two ends of a ring do. -/
inductive RingOp where
  | read (buf : Bytes)
  | write (packet : Bytes)
  | loadAlertable
  | storeAlertable (v : BitVec 32)
  | setEvent
  | waitEvent

abbrev RingOp.Reply : RingOp → Type
  | read _ => Except RingError Nat × Bytes
  | write _ => Except RingError Nat
  | loadAlertable => BitVec 32
  | storeAlertable _ | setEvent | waitEvent => Unit

abbrev opInterface : Interface := ⟨RingOp, RingOp.Reply⟩

def RingOp.code : (op : RingOp) → RingProg op.Reply
  | read buf => readCode buf
  | write packet => writeCode packet
  | loadAlertable => .access RingAccess.loadAlertable .done
  | storeAlertable v => .access (RingAccess.storeAlertable v) .done
  | setEvent => .access RingAccess.setEvent .done
  | waitEvent => .access RingAccess.waitEvent .done

/-- What a ring is for. -/
structure PacketQueue where
  packets : List Bytes
  alertable : BitVec 32
  signalled : Bool

def PacketQueue.read (q : PacketQueue) (buf : Bytes) : (Except RingError Nat × Bytes) × PacketQueue :=
  match q.packets with
  | [] => ((.error .wouldBlock, buf), q)
  | p :: rest =>
    let copyLen := min p.length buf.length
    ((.ok copyLen, p.take copyLen ++ buf.drop copyLen), { q with packets := rest })

def PacketQueue.write (q : PacketQueue) (p : Bytes) : Except RingError Nat × PacketQueue :=
  if TUN_RING_CAPACITY ≤ usedBytes q.packets + (4 + roundUp4 p.length) then (.error .wouldBlock, q)
  else (.ok p.length, { q with packets := q.packets ++ [p] })

def PacketQueue.perform : (op : RingOp) → PacketQueue → Option (op.Reply × PacketQueue)
  | .read buf, q => some (q.read buf)
  | .write p, q => some (q.write p)
  | .loadAlertable, q => some (q.alertable, q)
  | .storeAlertable v, q => some ((), { q with alertable := v })
  | .setEvent, q => some ((), { q with signalled := true })
  | .waitEvent, q => if q.signalled then some ((), { q with signalled := false }) else none

inductive RingEnd where
  | reader
  | writer
  deriving DecidableEq

/-- One thread reads, and one writes packets of lengths below `0x10000`; `write` refuses longer ones before
it accesses anything. -/
def RingEnd.Allowed : RingEnd → RingOp → Prop
  | .reader, .read _ | .reader, .storeAlertable _ | .reader, .waitEvent => True
  | .writer, .write packet => packet.length < 0x10000
  | .writer, .loadAlertable | .writer, .setEvent => True
  | _, _ => False

abbrev RingPhase := Phase opInterface ringInterface Panic

namespace TunRing

variable {r : TunRing} {packets : List Bytes}

def headAfter (r : TunRing) (len : Nat) : BitVec 32 := (r.head + 4 + align4 (BitVec.ofNat 32 len)) % capacity32

def tailAfter (r : TunRing) (len : Nat) : BitVec 32 := (r.tail + 4 + align4 (BitVec.ofNat 32 len)) % capacity32

theorem headAfter_toNat (holds : r.Holds packets) {len : Nat} (short : len < 0x10000) :
    (r.headAfter len).toNat = (r.head.toNat + (4 + roundUp4 len)) % TUN_RING_CAPACITY := by
  have same : (BitVec.ofNat 32 len).toNat = len := Nat.mod_eq_of_lt (by omega)
  rw [headAfter, newHead_toNat holds.head (by rwa [same]), same]

theorem tailAfter_toNat (holds : r.Holds packets) {len : Nat} (short : len < 0x10000) :
    (r.tailAfter len).toNat = (r.tail.toNat + (4 + roundUp4 len)) % TUN_RING_CAPACITY := by
  have same : (BitVec.ofNat 32 len).toNat = len := Nat.mod_eq_of_lt (by omega)
  rw [tailAfter, newHead_toNat holds.tail_bounds.1 (by rwa [same]), same]

theorem Holds.advance {p : Bytes} (holds : r.Holds (p :: packets)) :
    { r with head := r.headAfter p.length }.Holds packets := by
  have moved := headAfter_toNat holds (holds.short p List.mem_cons_self)
  obtain ⟨head, aligned, tail, room, stores, shorts⟩ := holds
  rw [usedBytes_cons] at tail room
  constructor
  · simp only [moved]
    exact Nat.mod_lt _ (by decide)
  · simp only [moved, capacity_eq, roundUp4]
    omega
  · simp only [moved]
    rw [tail, Nat.mod_add_mod, Nat.add_assoc r.head.toNat]
  · omega
  · simp only [moved]
    exact stores.2
  · exact fun q member => shorts q (List.mem_cons_of_mem _ member)

theorem stores_prefix {mem : Bytes} {pos : Nat} {front back : List (Record UInt8)}
    (stores : Stores TUN_RING_CAPACITY mem pos (front ++ back)) : Stores TUN_RING_CAPACITY mem pos front := by
  induction front generalizing pos with
  | nil => trivial
  | cons first front ih => exact ⟨stores.1, ih stores.2⟩

theorem usedBytes_append (front back : List Bytes) : usedBytes (front ++ back) = usedBytes front + usedBytes back := by
  rw [usedBytes, List.map_append, size_append]
  rfl

/-- An older tail leaves out the packets that came later. -/
theorem Holds.older {t : BitVec 32} {front back : List Bytes} (holds : r.Holds (front ++ back))
    (older : t.toNat = (r.head.toNat + usedBytes front) % TUN_RING_CAPACITY) : { r with tail := t }.Holds front := by
  obtain ⟨head, aligned, _, room, stores, shorts⟩ := holds
  rw [usedBytes_append] at room
  rw [List.map_append] at stores
  constructor
  · exact head
  · exact aligned
  · exact older
  · omega
  · exact stores_prefix stores
  · exact fun q member => shorts q (List.mem_append_left _ member)

theorem Holds.stored (holds : r.Holds packets) {i n : Nat} (b : UInt8)
    (room : usedBytes packets + n ≤ TUN_RING_CAPACITY)
    (after : r.tail.toNat ≤ i) (before : i < r.tail.toNat + n) :
    { r with data := ⟨r.data.val.set i b, by simp⟩ }.Holds packets := by
  obtain ⟨head, aligned, tail, inside, stores, shorts⟩ := holds
  have start : (r.head.toNat + 0) % TUN_RING_CAPACITY = r.head.toNat := Nat.mod_eq_of_lt head
  rw [tail] at after before
  constructor
  · exact head
  · exact aligned
  · exact tail
  · exact inside
  · rw [← start] at stores
    have kept := stores.set_behind b (Nat.le_of_eq (Nat.zero_add _)) inside room after before
    rwa [start] at kept
  · exact shorts

/-- A packet that is stored behind the others belongs to them once the tail moves. -/
theorem Holds.publish {p : Bytes} (holds : r.Holds packets) (short : p.length < 0x10000)
    (room : usedBytes packets + (4 + roundUp4 p.length) < TUN_RING_CAPACITY)
    (stored : slice r.data.val r.tail.toNat (packetRecord p).content.length = (packetRecord p).content) :
    { r with tail := r.tailAfter p.length }.Holds (packets ++ [p]) := by
  have moved := tailAfter_toNat holds short
  have written : usedBytes (packets ++ [p]) = usedBytes packets + (4 + roundUp4 p.length) := usedBytes_concat _ _
  obtain ⟨head, aligned, tail, inside, stores, shorts⟩ := holds
  constructor
  · exact head
  · exact aligned
  · simp only [moved]
    rw [tail, Nat.mod_add_mod, written, Nat.add_assoc]
  · rw [written]
    exact room
  · rw [List.map_append]
    apply stores.concat head
    rw [← usedBytes, ← tail]
    exact stored
  · intro q member
    rcases List.mem_append.mp member with old | new
    · exact shorts q old
    · obtain rfl := List.mem_singleton.mp new
      exact short

theorem writeBetween_full (holds : r.Holds packets) {p : Bytes} (short : p.length < 0x10000)
    (full : TUN_RING_CAPACITY ≤ usedBytes packets + (4 + roundUp4 p.length)) :
    writeBetween p r.head r.tail = .done (.error .wouldBlock) := by
  have inside := holds.tail_bounds.1
  have headUnmod := holds.headUnmod
  have len : (BitVec.ofNat 32 p.length).toNat = p.length := Nat.mod_eq_of_lt (by omega)
  have newTail := unmod_toNat inside (show (BitVec.ofNat 32 p.length).toNat < 0x10000 by rwa [len])
  rw [len] at newTail
  have notBeyond : ¬r.tail ≥ capacity32 := not_le.mpr inside
  have reaches : r.tail + 4 + align4 (BitVec.ofNat 32 p.length) ≥
      if r.head > r.tail then r.head else r.head + capacity32 := by
    change BitVec.toNat _ ≤ BitVec.toNat _
    rw [newTail]
    omega
  simp only [writeBetween, if_neg notBeyond, if_pos reaches]

theorem storeBytes_append (start : Nat) (k : RingProg α) (front back : Bytes) :
    storeBytes start k (front ++ back) = storeBytes start (storeBytes (start + front.length) k back) front := by
  induction front generalizing start with
  | nil => rfl
  | cons b front ih =>
    rw [List.cons_append, storeBytes, storeBytes, List.length_cons]
    simp only [ih, Nat.add_assoc, Nat.add_comm 1]

theorem writeBetween_room (holds : r.Holds packets) {p : Bytes} (short : p.length < 0x10000)
    (room : usedBytes packets + (4 + roundUp4 p.length) < TUN_RING_CAPACITY) : writeBetween p r.head r.tail =
      storeBytes r.tail.toNat (writeEnd (r.tailAfter p.length) p.length) (packetRecord p).content := by
  have inside := holds.tail_bounds.1
  have headUnmod := holds.headUnmod
  have len : (BitVec.ofNat 32 p.length).toNat = p.length := Nat.mod_eq_of_lt (by omega)
  have newTail := unmod_toNat inside (show (BitVec.ofNat 32 p.length).toNat < 0x10000 by rwa [len])
  rw [len] at newTail
  have notBeyond : ¬r.tail ≥ capacity32 := not_le.mpr inside
  have below : ¬r.tail + 4 + align4 (BitVec.ofNat 32 p.length) ≥
      if r.head > r.tail then r.head else r.head + capacity32 := by
    change ¬BitVec.toNat _ ≤ BitVec.toNat _
    rw [newTail]
    omega
  have lengthSize : (leBytes 4 p.length).length = 4 := leBytes_length _ _
  rw [capacity_eq] at inside
  have lengthFits : r.tail.toNat + (leBytes 4 p.length).length ≤ TUN_RING_CAPACITY + 0x10000 := by
    rw [lengthSize, capacity_eq]
    omega
  have packetFits : r.tail.toNat + 4 + p.length ≤ TUN_RING_CAPACITY + 0x10000 := by
    have aligned := holds.tail_bounds.2
    rw [capacity_eq]
    omega
  simp only [writeBetween, if_neg notBeyond, if_neg below, len, storeSlice, if_pos lengthFits, if_pos packetFits]
  rw [packetRecord, storeBytes_append, lengthSize]
  rfl

theorem readBetween_empty (holds : r.Holds []) (buf : Bytes) :
    readBetween buf r.head r.tail = .done (.error .wouldBlock, buf) := if_pos (holds.empty_iff.mpr rfl)

theorem readBetween_packet {p : Bytes} (holds : r.Holds (p :: packets)) (buf : Bytes) :
    readBetween buf r.head r.tail = loadBytes r.head.toNat (readPacket buf r.head r.tail) 4 [] := by
  have apart : r.head ≠ r.tail := fun meet => List.cons_ne_nil _ _ (holds.empty_iff.mp meet)
  have notBeyond : ¬r.head ≥ capacity32 := not_le.mpr holds.head
  have fits : r.head.toNat + 4 ≤ TUN_RING_CAPACITY + 0x10000 := by
    have inside := holds.head
    omega
  rw [readBetween, if_neg apart, if_neg notBeyond, loadSlice, if_pos fits]

theorem readPacket_packet {p : Bytes} (holds : r.Holds (p :: packets)) (buf : Bytes) :
    readPacket buf r.head r.tail (leBytes 4 p.length) = loadBytes (r.head.toNat + 4)
      (readEnd buf (r.headAfter p.length) (min p.length buf.length)) (min p.length buf.length) [] := by
  have short := holds.short p List.mem_cons_self
  have tailUnmod := holds.tailUnmod
  have inside := holds.head
  have len : (BitVec.ofNat 32 p.length).toNat = p.length := Nat.mod_eq_of_lt (by omega)
  have small : (BitVec.ofNat 32 p.length).toNat < 0x10000 := by rwa [len]
  have newHead := unmod_toNat inside small
  rw [len] at newHead
  have notLong : ¬BitVec.ofNat 32 p.length ≥ 0x10000#32 := not_le.mpr small
  have notPast : ¬r.head + 4 + align4 (BitVec.ofNat 32 p.length) >
      if r.head > r.tail then r.tail + capacity32 else r.tail := by
    change ¬BitVec.toNat _ < BitVec.toNat _
    rw [newHead, tailUnmod, usedBytes_cons]
    omega
  have fits : r.head.toNat + 4 + min p.length buf.length ≤ TUN_RING_CAPACITY + 0x10000 := by
    have aligned := holds.aligned
    rw [capacity_eq] at inside ⊢
    omega
  rw [readPacket, ofLeBytes_leBytes_of_lt (lt_trans short (by decide))]
  simp only [if_neg notLong, if_neg notPast, len, loadSlice, if_pos fits]
  rfl

end TunRing

/-- Where a writer is, of a ring with these packets. -/
inductive WriterAt (r : TunRing) (packets : List Bytes) : RingPhase → Prop
  | out : WriterAt r packets .out
  | left : WriterAt r packets (.after op reply (.done reply))
  | loadAlertable : WriterAt r packets (.before .loadAlertable (.access RingAccess.loadAlertable .done))
  | setEvent : WriterAt r packets (.before .setEvent (.access RingAccess.setEvent .done))
  | begins {p : Bytes} : p.length < 0x10000 →
      WriterAt r packets (.before (.write p) (.access RingAccess.loadHead fun head => writeFrom p head))
  /-- The head may have moved since. -/
  | room {p : Bytes} {h : BitVec 32} {gone : List Bytes} : p.length < 0x10000 →
      { r with head := h }.Holds (gone ++ packets) →
      usedBytes (gone ++ packets) + (4 + roundUp4 p.length) < TUN_RING_CAPACITY →
      WriterAt r packets (.before (.write p) (.access RingAccess.loadTail fun tail => writeBetween p h tail))
  | full {p : Bytes} {h : BitVec 32} {gone : List Bytes} : p.length < 0x10000 →
      { r with head := h }.Holds (gone ++ packets) →
      TUN_RING_CAPACITY ≤ usedBytes (gone ++ packets) + (4 + roundUp4 p.length) →
      WriterAt r packets
        (.after (.write p) (.error .wouldBlock) (.access RingAccess.loadTail fun tail => writeBetween p h tail))
  | stores {p written rest : Bytes} {b : UInt8} : p.length < 0x10000 →
      usedBytes packets + (4 + roundUp4 p.length) < TUN_RING_CAPACITY →
      (packetRecord p).content = written ++ b :: rest → slice r.data.val r.tail.toNat written.length = written →
      WriterAt r packets (.before (.write p) (.access (RingAccess.storeByte (r.tail.toNat + written.length) b)
        fun _ => storeBytes (r.tail.toNat + written.length + 1) (writeEnd (r.tailAfter p.length) p.length) rest))
  | ends {p : Bytes} : p.length < 0x10000 → usedBytes packets + (4 + roundUp4 p.length) < TUN_RING_CAPACITY →
      slice r.data.val r.tail.toNat (packetRecord p).content.length = (packetRecord p).content →
      WriterAt r packets (.before (.write p) (writeEnd (r.tailAfter p.length) p.length))

/-- Where a reader is, of a ring with these packets. -/
inductive ReaderAt (r : TunRing) (packets : List Bytes) : RingPhase → Prop
  | out : ReaderAt r packets .out
  | left : ReaderAt r packets (.after op reply (.done reply))
  | storeAlertable : ReaderAt r packets (.before (.storeAlertable v) (.access (RingAccess.storeAlertable v) .done))
  | waitEvent : ReaderAt r packets (.before .waitEvent (.access RingAccess.waitEvent .done))
  | begins : ReaderAt r packets (.before (.read buf) (.access RingAccess.loadHead fun head => readFrom buf head))
  | hasHead :
      ReaderAt r packets (.before (.read buf) (.access RingAccess.loadTail fun tail => readBetween buf r.head tail))
  /-- The tail may have moved since. -/
  | length {p got rest buf : Bytes} {b : UInt8} {seen more : List Bytes} {t : BitVec 32} :
      packets = (p :: seen) ++ more →
      t.toNat = (r.head.toNat + usedBytes (p :: seen)) % TUN_RING_CAPACITY → leBytes 4 p.length = got ++ b :: rest →
      ReaderAt r packets (.before (.read buf) (.access (RingAccess.loadByte (r.head.toNat + got.length)) fun b =>
        loadBytes (r.head.toNat + got.length + 1) (readPacket buf r.head t) rest.length (got ++ [b])))
  | packet {p got rest buf : Bytes} {b : UInt8} {more : List Bytes} : packets = p :: more →
      p.take (min p.length buf.length) = got ++ b :: rest →
      ReaderAt r packets (.before (.read buf) (.access (RingAccess.loadByte (r.head.toNat + 4 + got.length)) fun b =>
        loadBytes (r.head.toNat + 4 + got.length + 1) (readEnd buf (r.headAfter p.length) (min p.length buf.length))
          rest.length (got ++ [b])))
  | ends {p buf : Bytes} {more : List Bytes} : packets = p :: more → ReaderAt r packets (.before (.read buf)
      (readEnd buf (r.headAfter p.length) (min p.length buf.length) (p.take (min p.length buf.length))))

variable {r r' : TunRing} {packets : List Bytes} {phase : RingPhase}

/-- What a writer does is not disturbed by a packet that is read. -/
theorem WriterAt.read_past {p : Bytes} {h : BitVec 32} (writer : WriterAt r (p :: packets) phase) :
    WriterAt { r with head := h } packets phase := by
  cases writer with
  | out => exact .out
  | left => exact .left
  | loadAlertable => exact .loadAlertable
  | setEvent => exact .setEvent
  | begins short => exact .begins short
  | @room p h gone short seen space =>
    rw [List.append_cons] at seen space
    exact .room short seen space
  | @full p h gone short seen space =>
    rw [List.append_cons] at seen space
    exact .full short seen space
  | stores short space content stored =>
    rw [TunRing.usedBytes_cons] at space
    exact .stores (r := { r with head := h }) short (by omega) content stored
  | ends short space stored =>
    rw [TunRing.usedBytes_cons] at space
    exact .ends (r := { r with head := h }) short (by omega) stored

/-- What a reader does depends on nothing that a writer does but its packets. -/
theorem ReaderAt.written (reader : ReaderAt r packets phase) (same : r'.head = r.head) (added : List Bytes) :
    ReaderAt r' (packets ++ added) phase := by
  have after (len : Nat) : r.headAfter len = r'.headAfter len := by rw [TunRing.headAfter, TunRing.headAfter, same]
  cases reader with
  | out => exact .out
  | left => exact .left
  | storeAlertable => exact .storeAlertable
  | waitEvent => exact .waitEvent
  | begins => exact .begins
  | hasHead =>
    rw [← same]
    exact .hasHead
  | length queue older content =>
    rw [← same] at older ⊢
    exact .length (by rw [queue, List.append_assoc]) older content
  | packet queue content =>
    rw [← same, after]
    exact .packet (congrArg (· ++ added) queue) content
  | ends queue =>
    rw [after]
    exact .ends (congrArg (· ++ added) queue)

theorem ReaderAt.stored (reader : ReaderAt r packets phase) (same : r'.head = r.head) : ReaderAt r' packets phase := by
  have written := reader.written same []
  rwa [List.append_nil] at written

theorem WriterAt.storing {p written rest : Bytes} (short : p.length < 0x10000)
    (room : usedBytes packets + (4 + roundUp4 p.length) < TUN_RING_CAPACITY)
    (content : (packetRecord p).content = written ++ rest)
    (stored : slice r.data.val r.tail.toNat written.length = written) : WriterAt r packets
      (.before (.write p)
        (storeBytes (r.tail.toNat + written.length) (writeEnd (r.tailAfter p.length) p.length) rest)) := by
  cases rest with
  | nil =>
    rw [List.append_nil] at content
    rw [← content] at stored
    exact .ends short room stored
  | cons b rest => exact .stores short room content stored

theorem ReaderAt.loadsPacket {p got rest buf : Bytes} {more : List Bytes} (queue : packets = p :: more)
    (content : p.take (min p.length buf.length) = got ++ rest) : ReaderAt r packets (.before (.read buf)
      (loadBytes (r.head.toNat + 4 + got.length) (readEnd buf (r.headAfter p.length) (min p.length buf.length))
        rest.length got)) := by
  cases rest with
  | nil =>
    rw [List.append_nil] at content
    subst content
    exact .ends queue
  | cons b rest => exact .packet queue content

theorem ReaderAt.loadsLength {p got rest buf : Bytes} {seen more : List Bytes} {t : BitVec 32} (holds : r.Holds packets)
    (queue : packets = (p :: seen) ++ more)
    (older : t.toNat = (r.head.toNat + usedBytes (p :: seen)) % TUN_RING_CAPACITY)
    (content : leBytes 4 p.length = got ++ rest) : ReaderAt r packets
      (.before (.read buf) (loadBytes (r.head.toNat + got.length) (readPacket buf r.head t) rest.length got)) := by
  cases rest with
  | nil =>
    rw [List.append_nil] at content
    subst content
    rw [queue] at holds
    have between : readPacket buf r.head t (leBytes 4 p.length) = loadBytes (r.head.toNat + 4)
        (readEnd buf (r.headAfter p.length) (min p.length buf.length)) (min p.length buf.length) [] :=
      TunRing.readPacket_packet (holds.older older) buf
    have loads : ReaderAt r packets _ := .loadsPacket queue (List.nil_append (p.take (min p.length buf.length))).symm
    have size : (p.take (min p.length buf.length)).length = min p.length buf.length := by simp
    rw [size] at loads
    rw [List.length_nil, loadBytes, between]
    exact loads
  | cons b rest => exact .length queue older content

theorem store_inside {p written rest : Bytes} {b : UInt8} (holds : r.Holds packets) (short : p.length < 0x10000)
    (content : (packetRecord p).content = written ++ b :: rest) :
    written.length < 4 + roundUp4 p.length ∧ r.tail.toNat + written.length < r.data.val.length := by
  have memory : r.data.val.length = 196608 := r.data.property
  have fits : (packetRecord p).content.length ≤ 4 + roundUp4 p.length := (packetRecord p).fits
  have size : (packetRecord p).content.length = 4 + p.length := by
    rw [packetRecord, List.length_append, leBytes_length]
  have inside : r.tail.toNat < 131072 := holds.tail_bounds.1
  have aligned := holds.tail_bounds.2
  rw [content, List.length_append, List.length_cons] at fits size
  omega

theorem first_stored {p : Bytes} {more : List Bytes} (holds : r.Holds (p :: more)) :
    slice r.data.val r.head.toNat (leBytes 4 p.length).length = leBytes 4 p.length ∧
    slice r.data.val (r.head.toNat + 4) p.length = p := by
  have parts := slice_parts holds.stores.1
  rwa [leBytes_length] at parts

theorem getElem?_append_cons (got rest : Bytes) (b : UInt8) : (got ++ b :: rest)[got.length]? = some b := by
  rw [List.getElem?_append_right (Nat.le_refl _), Nat.sub_self]
  rfl

/-- A ring is a queue where its ends are in the middle of calls. -/
structure RingRel (m : SharedRing) (q : PacketQueue) (φ : RingEnd → RingPhase) : Prop where
  alertable : m.alertable = q.alertable
  signalled : m.signalled = q.signalled
  holds : m.ring.Holds q.packets
  writer : WriterAt m.ring q.packets (φ .writer)
  reader : ReaderAt m.ring q.packets (φ .reader)

namespace RingRel

variable {m m' : SharedRing} {q q' : PacketQueue} {φ : RingEnd → RingPhase} {phase : RingPhase}

theorem writer_moves (alertable : m'.alertable = q'.alertable) (signalled : m'.signalled = q'.signalled)
    (holds : m'.ring.Holds q'.packets) (writer : WriterAt m'.ring q'.packets phase)
    (reader : ReaderAt m'.ring q'.packets (φ .reader)) : RingRel m' q' (Function.update φ .writer phase) := by
  constructor
  · exact alertable
  · exact signalled
  · exact holds
  · rwa [Function.update_self]
  · rwa [Function.update_of_ne (by decide)]

theorem reader_moves (alertable : m'.alertable = q'.alertable) (signalled : m'.signalled = q'.signalled)
    (holds : m'.ring.Holds q'.packets) (writer : WriterAt m'.ring q'.packets (φ .writer))
    (reader : ReaderAt m'.ring q'.packets phase) : RingRel m' q' (Function.update φ .reader phase) := by
  constructor
  · exact alertable
  · exact signalled
  · exact holds
  · rwa [Function.update_of_ne (by decide)]
  · rwa [Function.update_self]

theorem enter {t : RingEnd} {op : RingOp} (rel : RingRel m q φ) (allowed : t.Allowed op) :
    RingRel m q (Function.update φ t (.before op op.code)) := by
  cases t with
  | reader =>
    apply reader_moves rel.alertable rel.signalled rel.holds rel.writer
    cases op with
    | read buf => exact .begins
    | storeAlertable v => exact .storeAlertable
    | waitEvent => exact .waitEvent
    | write | loadAlertable | setEvent => exact allowed.elim
  | writer =>
    apply writer_moves rel.alertable rel.signalled rel.holds _ rel.reader
    cases op with
    | write p =>
      have code : (RingOp.write p).code = .access RingAccess.loadHead fun head => writeFrom p head :=
        if_neg (not_le.mpr allowed)
      rw [code]
      exact .begins allowed
    | loadAlertable => exact .loadAlertable
    | setEvent => exact .setEvent
    | read | storeAlertable | waitEvent => exact allowed.elim

theorem starts {t : RingEnd} {op : RingOp} {rest : RingProg op.Reply} (rel : RingRel m q φ)
    (place : φ t = .before op rest) : ∃ x next, rest = .access x next := by
  cases t with
  | reader =>
    have reader := rel.reader
    rw [place] at reader
    cases reader <;> exact ⟨_, _, rfl⟩
  | writer =>
    have writer := rel.writer
    rw [place] at writer
    cases writer <;> exact ⟨_, _, rfl⟩

theorem writer_before {op : RingOp} {x : RingAccess} {next : x.Reply → RingProg op.Reply} {y : x.Reply}
    (rel : RingRel m q φ) (place : φ .writer = .before op (.access x next))
    (performed : SharedRing.perform x m = some (y, m')) :
    RingRel m' q (Function.update φ .writer (.before op (next y))) ∨
    ∃ reply q', PacketQueue.perform op q = some (reply, q') ∧
      RingRel m' q' (Function.update φ .writer (.after op reply (next y))) := by
  have writer := rel.writer
  rw [place] at writer
  cases writer with
  | loadAlertable =>
    cases performed
    refine .inr ⟨_, q, rfl, ?_⟩
    rw [← rel.alertable]
    exact writer_moves rel.alertable rel.signalled rel.holds .left rel.reader
  | setEvent =>
    cases performed
    exact .inr ⟨_, _, rfl, writer_moves rel.alertable rfl rel.holds .left rel.reader⟩
  | @begins p short =>
    cases performed
    by_cases full : TUN_RING_CAPACITY ≤ usedBytes q.packets + (4 + roundUp4 p.length)
    · refine .inr ⟨_, q, congrArg some (if_pos full), ?_⟩
      have nothing : m.ring.Holds ([] ++ q.packets) := rel.holds
      exact writer_moves rel.alertable rel.signalled rel.holds (.full short nothing full) rel.reader
    · have nothing : m.ring.Holds ([] ++ q.packets) := rel.holds
      exact .inl (writer_moves rel.alertable rel.signalled rel.holds (.room short nothing (not_le.mp full)) rel.reader)
  | @room p h gone short seen space =>
    cases performed
    have between : writeBetween p h m.ring.tail =
        storeBytes m.ring.tail.toNat (writeEnd (m.ring.tailAfter p.length) p.length) (packetRecord p).content :=
      TunRing.writeBetween_room seen short space
    rw [TunRing.usedBytes_append] at space
    refine .inl (writer_moves rel.alertable rel.signalled rel.holds ?_ rel.reader)
    dsimp only
    rw [between]
    exact .storing short (by omega) (List.nil_append _).symm (List.take_zero)
  | @stores p written rest b short space content stored =>
    cases performed
    obtain ⟨inSpace, inData⟩ := store_inside rel.holds short content
    have kept := rel.holds.stored b (Nat.le_of_lt space) (Nat.le_add_right _ written.length) (by omega)
    have further : slice (m.ring.data.val.set (m.ring.tail.toNat + written.length) b) m.ring.tail.toNat
        (written ++ [b]).length = written ++ [b] := slice_set_next b stored inData
    have writer : WriterAt { m.ring with data := ⟨m.ring.data.val.set (m.ring.tail.toNat + written.length) b, by simp⟩ }
        q.packets _ := .storing short space (by rw [content, List.append_cons]) further
    rw [List.length_append, ← Nat.add_assoc] at writer
    exact .inl (writer_moves rel.alertable rel.signalled kept writer (rel.reader.stored (by rfl)))
  | @ends p short space stored =>
    cases performed
    have room : ¬TUN_RING_CAPACITY ≤ usedBytes q.packets + (4 + roundUp4 p.length) := not_le.mpr space
    refine .inr ⟨_, _, congrArg some (if_neg room), ?_⟩
    exact writer_moves rel.alertable rel.signalled (rel.holds.publish short space stored) .left
      (rel.reader.written (by rfl) [p])

theorem reader_before {op : RingOp} {x : RingAccess} {next : x.Reply → RingProg op.Reply} {y : x.Reply}
    (rel : RingRel m q φ) (place : φ .reader = .before op (.access x next))
    (performed : SharedRing.perform x m = some (y, m')) :
    RingRel m' q (Function.update φ .reader (.before op (next y))) ∨
    ∃ reply q', PacketQueue.perform op q = some (reply, q') ∧
      RingRel m' q' (Function.update φ .reader (.after op reply (next y))) := by
  have reader := rel.reader
  rw [place] at reader
  cases reader with
  | storeAlertable =>
    cases performed
    exact .inr ⟨_, _, rfl, reader_moves rfl rel.signalled rel.holds rel.writer .left⟩
  | waitEvent =>
    have signalled := rel.signalled
    simp only [SharedRing.perform] at performed
    split_ifs at performed with set
    cases performed
    rw [signalled] at set
    exact .inr ⟨_, _, if_pos set, reader_moves rel.alertable rfl rel.holds rel.writer .left⟩
  | begins =>
    cases performed
    exact .inl (reader_moves rel.alertable rel.signalled rel.holds rel.writer .hasHead)
  | @hasHead buf =>
    cases performed
    cases queue : q.packets with
    | nil =>
      have empty : m.ring.Holds [] := by
        rw [← queue]
        exact rel.holds
      have nothing : q.read buf = ((.error .wouldBlock, buf), q) := by rw [PacketQueue.read, queue]
      refine .inr ⟨_, q, congrArg some nothing, ?_⟩
      dsimp only
      rw [TunRing.readBetween_empty empty]
      exact reader_moves rel.alertable rel.signalled rel.holds rel.writer .left
    | cons p more =>
      have first : m.ring.Holds (p :: more) := by
        rw [← queue]
        exact rel.holds
      have whole : q.packets = (p :: more) ++ [] := by rw [queue, List.append_nil]
      have content : leBytes 4 p.length = [] ++ leBytes 4 p.length := rfl
      refine .inl (reader_moves rel.alertable rel.signalled rel.holds rel.writer ?_)
      dsimp only
      rw [TunRing.readBetween_packet first]
      have loads : ReaderAt m.ring q.packets (.before (.read buf) _) := .loadsLength rel.holds whole first.tail content
      rwa [leBytes_length] at loads
  | @length p got rest buf b seen more t queue older content =>
    have holds := rel.holds
    rw [queue] at holds
    have inside : got.length < (leBytes 4 p.length).length := by rw [content]; simp
    have isStored : m.ring.data.val[m.ring.head.toNat + got.length]? = some b := by
      rw [getElem?_of_slice (first_stored holds).1 inside, content]
      exact getElem?_append_cons got rest b
    simp only [SharedRing.perform, isStored] at performed
    cases performed
    have loads : ReaderAt m.ring q.packets (.before (.read buf) _) :=
      .loadsLength rel.holds queue older (content.trans (List.append_cons ..))
    rw [List.length_append, ← Nat.add_assoc] at loads
    exact .inl (reader_moves rel.alertable rel.signalled rel.holds rel.writer loads)
  | @packet p got rest buf b more queue content =>
    have holds := rel.holds
    rw [queue] at holds
    have isStored : m.ring.data.val[m.ring.head.toNat + 4 + got.length]? = some b := by
      have inside := congrArg List.length content
      rw [List.length_take, List.length_append, List.length_cons] at inside
      have front : got.length < min p.length buf.length := by omega
      rw [getElem?_of_slice (first_stored holds).2 (by omega), ← List.getElem?_take_of_lt front, content]
      exact getElem?_append_cons got rest b
    simp only [SharedRing.perform, isStored] at performed
    cases performed
    have loads : ReaderAt m.ring q.packets _ := .loadsPacket queue (content.trans (List.append_cons ..))
    rw [List.length_append, ← Nat.add_assoc] at loads
    exact .inl (reader_moves rel.alertable rel.signalled rel.holds rel.writer loads)
  | @ends p buf more queue =>
    cases performed
    have taken : q.read buf = ((.ok (min p.length buf.length), p.take (min p.length buf.length) ++
        buf.drop (min p.length buf.length)), { q with packets := more }) := by rw [PacketQueue.read, queue]
    have holds := rel.holds
    have writer := rel.writer
    rw [queue] at holds writer
    refine .inr ⟨_, _, congrArg some taken, ?_⟩
    exact reader_moves rel.alertable rel.signalled holds.advance writer.read_past .left

theorem before {t : RingEnd} {op : RingOp} {x : RingAccess} {next : x.Reply → RingProg op.Reply} {y : x.Reply}
    (rel : RingRel m q φ) (place : φ t = .before op (.access x next))
    (performed : SharedRing.perform x m = some (y, m')) :
    RingRel m' q (Function.update φ t (.before op (next y))) ∨
    ∃ reply q', PacketQueue.perform op q = some (reply, q') ∧
      RingRel m' q' (Function.update φ t (.after op reply (next y))) := by
  cases t with
  | reader => exact rel.reader_before place performed
  | writer => exact rel.writer_before place performed

/-- Only a writer that found the ring full goes on after the call took effect. -/
theorem after {t : RingEnd} {op : RingOp} {reply : op.Reply} {x : RingAccess} {next : x.Reply → RingProg op.Reply}
    {y : x.Reply} (rel : RingRel m q φ) (place : φ t = .after op reply (.access x next))
    (performed : SharedRing.perform x m = some (y, m')) :
    RingRel m' q (Function.update φ t (.after op reply (next y))) := by
  cases t with
  | reader =>
    have reader := rel.reader
    rw [place] at reader
    cases reader
  | writer =>
    have writer := rel.writer
    rw [place] at writer
    cases writer with
    | @full p h gone short seen space =>
      cases performed
      have between : writeBetween p h m.ring.tail = .done (.error .wouldBlock) :=
        TunRing.writeBetween_full seen short space
      dsimp only
      rw [between]
      exact writer_moves rel.alertable rel.signalled rel.holds .left rel.reader

theorem leave {t : RingEnd} {op : RingOp} {reply r : op.Reply} (rel : RingRel m q φ)
    (place : φ t = .after op reply (.done r)) :
    r = reply ∧ RingRel m q (Function.update φ t .out) := by
  cases t with
  | reader =>
    have reader := rel.reader
    rw [place] at reader
    cases reader
    exact ⟨rfl, reader_moves rel.alertable rel.signalled rel.holds rel.writer .out⟩
  | writer =>
    have writer := rel.writer
    rw [place] at writer
    cases writer
    exact ⟨rfl, writer_moves rel.alertable rel.signalled rel.holds .out rel.reader⟩

theorem safe {t : RingEnd} {op : RingOp} {reply : op.Reply} {e : Panic} (rel : RingRel m q φ) :
    φ t ≠ .after op reply (.fail e) := by
  intro place
  cases t with
  | reader =>
    have reader := rel.reader
    rw [place] at reader
    cases reader
  | writer =>
    have writer := rel.writer
    rw [place] at writer
    cases writer

end RingRel

/-- The code of the calls, where one thread reads and one writes, simulates a queue. -/
def ringSimulation : Simulation (I := opInterface) (J := ringInterface)
    SharedRing.perform PacketQueue.perform RingOp.code RingEnd.Allowed where
  Rel := RingRel
  enter rel _ allowed := rel.enter allowed
  starts rel place := rel.starts place
  before rel place performed := rel.before place performed
  after rel place performed := rel.after place performed
  leave rel place := rel.leave place
  safe rel := rel.safe

end Titun
