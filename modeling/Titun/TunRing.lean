import Titun.Crypto
import Titun.Lib.CircularLog
import Titun.Lib.Endian

/-! The rings that the Windows driver and the program share. -/
namespace Titun

open CircularLog Endian

def TUN_RING_CAPACITY : Nat := 128 * 1024

def capacity32 : BitVec 32 := BitVec.ofNat 32 TUN_RING_CAPACITY

inductive RingError where
  | wouldBlock
  | invalidData
  | invalidInput
  deriving DecidableEq

structure TunRing where
  head : BitVec 32
  tail : BitVec 32
  data : U8Array (TUN_RING_CAPACITY + 0x10000)

def align4 (len : BitVec 32) : BitVec 32 := (len + 3#32) &&& ~~~3#32

def copyIntoSlice (x : U8Array n) (start : Nat) (src : Bytes) : Exec (U8Array n) :=
  if inside : start + src.length ≤ n then
    .ok ⟨overwrite x.val start src, by rw [overwrite_length (by rwa [x.property]), x.property]⟩
  else .error .sliceOutOfRange

namespace TunRing

def new : TunRing := ⟨0, 0, zeros _⟩

/-- Fills the front of `buf` and returns how much. -/
def read (r : TunRing) (buf : Bytes) : Exec (Except RingError Nat × Bytes × TunRing) :=
  if r.head = r.tail then return (.error .wouldBlock, buf, r)
  else if r.head ≥ capacity32 then return (.error .invalidData, buf, r)
  else do
    let lenBytes ← sliceArray r.data.val r.head.toNat 4
    let len := BitVec.ofNat 32 (ofLeBytes lenBytes.val)
    if len ≥ 0x10000#32 then return (.error .invalidData, buf, r)
    else
      let newHeadUnmod := r.head + 4 + align4 len
      let tailUnmod := if r.head > r.tail then r.tail + capacity32 else r.tail
      if newHeadUnmod > tailUnmod then return (.error .invalidData, buf, r)
      else
        let copyLen := min len.toNat buf.length
        let packet ← sliceArray r.data.val (r.head.toNat + 4) copyLen
        let newHead := newHeadUnmod % capacity32
        return (.ok copyLen, packet.val ++ buf.drop copyLen, { r with head := newHead })

def write (r : TunRing) (buf : Bytes) : Exec (Except RingError Nat × TunRing) :=
  let len := buf.length
  if len ≥ 0x10000 then return (.error .invalidInput, r)
  else if r.tail ≥ capacity32 then return (.error .invalidData, r)
  else
    let headUnmod := if r.head > r.tail then r.head else r.head + capacity32
    let newTailUnmod := r.tail + 4 + align4 (BitVec.ofNat 32 len)
    if newTailUnmod ≥ headUnmod then return (.error .wouldBlock, r)
    else do
      let newTail := newTailUnmod % capacity32
      let data ← copyIntoSlice r.data r.tail.toNat (leBytes 4 (BitVec.ofNat 32 len).toNat)
      let data ← copyIntoSlice data (r.tail.toNat + 4) buf
      return (.ok len, { r with data, tail := newTail })

end TunRing

def roundUp4 (n : Nat) : Nat := (n + 3) / 4 * 4

theorem le_roundUp4 (n : Nat) : n ≤ roundUp4 n := by
  unfold roundUp4
  omega

theorem align4_toNat {len : BitVec 32} (small : len.toNat < 0x10000) : (align4 len).toNat = roundUp4 len.toNat := by
  have shifts : align4 len = ((len + 3#32) >>> 2) <<< 2 := by
    unfold align4
    generalize len + 3#32 = x
    ext i inside
    simp only [BitVec.getElem_and, BitVec.getElem_not, BitVec.getElem_shiftLeft]
    interval_cases i <;> simp
  rw [shifts, BitVec.toNat_shiftLeft, BitVec.toNat_ushiftRight, BitVec.toNat_add, Nat.shiftLeft_eq,
    Nat.shiftRight_eq_div_pow]
  have sum : (len.toNat + (3#32).toNat) % 2 ^ 32 = len.toNat + 3 := Nat.mod_eq_of_lt (by simp; omega)
  rw [sum, roundUp4, Nat.mod_eq_of_lt (by omega)]

/-- A packet as it is stored, after its length. -/
def packetRecord (p : Bytes) : Record UInt8 where
  content := leBytes 4 p.length ++ p
  span := 4 + roundUp4 p.length
  fits := by
    rw [List.length_append, leBytes_length]
    exact Nat.add_le_add_left (le_roundUp4 _) 4

/-- The bytes that packets use. -/
def usedBytes (packets : List Bytes) : Nat := size (packets.map packetRecord)

/-- The packets that a ring holds, in order. -/
structure TunRing.Holds (r : TunRing) (packets : List Bytes) : Prop where
  head : r.head.toNat < TUN_RING_CAPACITY
  aligned : 4 ∣ r.head.toNat
  tail : r.tail.toNat = (r.head.toNat + usedBytes packets) % TUN_RING_CAPACITY
  room : usedBytes packets < TUN_RING_CAPACITY
  stores : Stores TUN_RING_CAPACITY r.data.val r.head.toNat (packets.map packetRecord)
  short : ∀ p ∈ packets, p.length < 0x10000

namespace TunRing

variable {r : TunRing} {packets : List Bytes}

theorem new_holds : new.Holds [] where
  head := by decide
  aligned := by decide
  tail := by decide
  room := by decide
  stores := trivial
  short := nofun

theorem capacity_eq : TUN_RING_CAPACITY = 131072 := rfl

theorem usedBytes_cons (p : Bytes) (packets : List Bytes) :
    usedBytes (p :: packets) = 4 + roundUp4 p.length + usedBytes packets := size_cons _ _

theorem usedBytes_concat (packets : List Bytes) (p : Bytes) :
    usedBytes (packets ++ [p]) = usedBytes packets + (4 + roundUp4 p.length) := by
  rw [usedBytes, List.map_append, size_append]
  rfl

theorem usedBytes_aligned (packets : List Bytes) : 4 ∣ usedBytes packets := by
  induction packets with
  | nil => exact ⟨0, rfl⟩
  | cons p packets ih =>
    rw [usedBytes_cons, roundUp4]
    omega

theorem roundUp4_lt {n : Nat} (small : n < 0x10000) : roundUp4 n ≤ 0x10000 := by
  unfold roundUp4
  omega

theorem Holds.tail_bounds (holds : r.Holds packets) : r.tail.toNat < TUN_RING_CAPACITY ∧ 4 ∣ r.tail.toNat := by
  rw [holds.tail]
  refine ⟨Nat.mod_lt _ (by decide), ?_⟩
  exact (Nat.dvd_mod_iff (by decide)).mpr (Nat.dvd_add holds.aligned (usedBytes_aligned packets))

theorem Holds.empty_iff (holds : r.Holds packets) : r.head = r.tail ↔ packets = [] := by
  obtain ⟨head, _, tail, room, _, _⟩ := holds
  constructor
  · intro meet
    cases packets with
    | nil => rfl
    | cons p packets =>
      rw [usedBytes_cons, capacity_eq] at room
      rw [← meet, usedBytes_cons, capacity_eq] at tail
      rw [capacity_eq] at head
      omega
  · rintro rfl
    apply BitVec.eq_of_toNat_eq
    rw [tail]
    exact (Nat.mod_eq_of_lt head).symm

theorem unmod_toNat {x len : BitVec 32} (inside : x.toNat < TUN_RING_CAPACITY) (small : len.toNat < 0x10000) :
    (x + 4 + align4 len).toNat = x.toNat + (4 + roundUp4 len.toNat) := by
  have aligned := align4_toNat small
  have bound := roundUp4_lt small
  rw [capacity_eq] at inside
  have first : (x + 4).toNat = x.toNat + 4 := by
    rw [BitVec.toNat_add]
    exact Nat.mod_eq_of_lt (by simp; omega)
  rw [BitVec.toNat_add, first, aligned, Nat.mod_eq_of_lt (by omega), Nat.add_assoc]

theorem add_capacity_toNat {x : BitVec 32} (inside : x.toNat < TUN_RING_CAPACITY) :
    (x + capacity32).toNat = x.toNat + TUN_RING_CAPACITY := by
  rw [BitVec.toNat_add]
  apply Nat.mod_eq_of_lt
  have constant : capacity32.toNat = 131072 := rfl
  rw [capacity_eq] at inside
  omega

/-- The tail, on the side of the head where the packets are. -/
theorem Holds.tailUnmod (holds : r.Holds packets) :
    (if r.head > r.tail then r.tail + capacity32 else r.tail).toNat = r.head.toNat + usedBytes packets := by
  have inside := holds.tail_bounds.1
  obtain ⟨head, _, tail, room, _, _⟩ := holds
  have wraps := add_capacity_toNat inside
  split_ifs with order
  · rw [wraps]
    have order : r.tail.toNat < r.head.toNat := order
    rw [capacity_eq] at *
    omega
  · have order : ¬r.tail.toNat < r.head.toNat := order
    rw [capacity_eq] at *
    omega

/-- The head, on the side of the tail where there is room. -/
theorem Holds.headUnmod (holds : r.Holds packets) :
    (if r.head > r.tail then r.head else r.head + capacity32).toNat + usedBytes packets =
      r.tail.toNat + TUN_RING_CAPACITY := by
  have inside := holds.tail_bounds.1
  obtain ⟨head, _, tail, room, _, _⟩ := holds
  have wraps := add_capacity_toNat head
  split_ifs with order
  · have order : r.tail.toNat < r.head.toNat := order
    rw [capacity_eq] at *
    omega
  · rw [wraps]
    have order : ¬r.tail.toNat < r.head.toNat := order
    rw [capacity_eq] at *
    omega

theorem read_empty (holds : r.Holds []) (buf : Bytes) : r.read buf = .ok (.error .wouldBlock, buf, r) :=
  if_pos (holds.empty_iff.mpr rfl)

theorem sliceArray_slice {mem content : Bytes} {start n : Nat} (stored : slice mem start n = content)
    (inside : start + n ≤ mem.length) : ∃ a : U8Array n, sliceArray mem start n = .ok a ∧ a.val = content := by
  obtain ⟨a, read, value⟩ := sliceArray_eq mem start n inside
  refine ⟨a, read, ?_⟩
  rw [value, sub, Nat.add_sub_cancel_left]
  exact stored

theorem copyIntoSlice_eq (x : U8Array n) (start : Nat) (src : Bytes) (inside : start + src.length ≤ n) :
    ∃ y, copyIntoSlice x start src = .ok y ∧ y.val = overwrite x.val start src :=
  ⟨_, dif_pos inside, rfl⟩

theorem newHead_toNat {x len : BitVec 32} (inside : x.toNat < TUN_RING_CAPACITY) (small : len.toNat < 0x10000) :
    ((x + 4 + align4 len) % capacity32).toNat = (x.toNat + (4 + roundUp4 len.toNat)) % TUN_RING_CAPACITY := by
  rw [BitVec.toNat_umod, unmod_toNat inside small]
  rfl

theorem read_packet (holds : r.Holds (p :: packets)) {buf : Bytes} (large : 65535 ≤ buf.length) :
    ∃ next, r.read buf = .ok (.ok p.length, p ++ buf.drop p.length, next) ∧ next.Holds packets := by
  have short := holds.short p List.mem_cons_self
  have apart : r.head ≠ r.tail := fun meet => List.cons_ne_nil _ _ (holds.empty_iff.mp meet)
  have tailUnmod := holds.tailUnmod
  obtain ⟨head, aligned, tail, room, stores, shorts⟩ := holds
  obtain ⟨first, rest⟩ := stores
  obtain ⟨isLength, isPacket⟩ := slice_parts first
  rw [leBytes_length] at isLength isPacket
  have memory : r.data.val.length = 196608 := r.data.property
  have inHead : r.head.toNat < 131072 := head
  obtain ⟨lenBytes, readLength, lengthValue⟩ := sliceArray_slice isLength (by omega)
  have length : ofLeBytes lenBytes.val = p.length := by
    rw [lengthValue]
    exact ofLeBytes_leBytes_of_lt (lt_trans short (by decide))
  have len : (BitVec.ofNat 32 p.length).toNat = p.length := Nat.mod_eq_of_lt (by omega)
  have small : (BitVec.ofNat 32 p.length).toNat < 0x10000 := by rwa [len]
  have newHead := unmod_toNat head small
  have moved := newHead_toNat head small
  rw [len] at newHead moved
  have notBeyond : ¬r.head ≥ capacity32 := not_le.mpr head
  have notLong : ¬BitVec.ofNat 32 p.length ≥ 0x10000#32 := not_le.mpr small
  have notPast : ¬r.head + 4 + align4 (BitVec.ofNat 32 p.length) >
      if r.head > r.tail then r.tail + capacity32 else r.tail := by
    intro past
    have past : (if r.head > r.tail then r.tail + capacity32 else r.tail).toNat <
      (r.head + 4 + align4 (BitVec.ofNat 32 p.length)).toNat := past
    rw [newHead, tailUnmod, usedBytes_cons] at past
    omega
  have all : min (BitVec.ofNat 32 p.length).toNat buf.length = p.length := by
    rw [len]
    omega
  have isCopied : slice r.data.val (r.head.toNat + 4) (min (BitVec.ofNat 32 (ofLeBytes lenBytes.val)).toNat buf.length) =
      p := by
    rw [length, all]
    exact isPacket
  obtain ⟨packet, readPacket, packetValue⟩ := sliceArray_slice isCopied (by
    rw [length, all]
    omega)
  refine ⟨{ r with head := (r.head + 4 + align4 (BitVec.ofNat 32 p.length)) % capacity32 }, ?_, ?_⟩
  · simp only [read, if_neg apart, if_neg notBeyond, readLength, ok_bind, readPacket, packetValue, length, all,
      if_neg notLong, if_neg notPast, pure_eq_ok]
  · rw [usedBytes_cons] at tail room
    refine ⟨?_, ?_, ?_, by omega, ?_, fun q isIn => shorts q (List.mem_cons_of_mem _ isIn)⟩
    · change ((r.head + 4 + align4 _) % capacity32).toNat < _
      rw [moved]
      exact Nat.mod_lt _ (by decide)
    · change 4 ∣ ((r.head + 4 + align4 _) % capacity32).toNat
      rw [moved, capacity_eq, roundUp4]
      omega
    · change r.tail.toNat = (((r.head + 4 + align4 _) % capacity32).toNat + _) % _
      rw [moved, tail, Nat.mod_add_mod, Nat.add_assoc r.head.toNat]
    · change Stores _ _ ((r.head + 4 + align4 _) % capacity32).toNat _
      rw [moved]
      exact rest

theorem write_packet (holds : r.Holds packets) {p : Bytes} (short : p.length < 0x10000) :
    if TUN_RING_CAPACITY ≤ usedBytes packets + (4 + roundUp4 p.length) then
      r.write p = .ok (.error .wouldBlock, r)
    else ∃ next, r.write p = .ok (.ok p.length, next) ∧ next.Holds (packets ++ [p]) := by
  obtain ⟨inside, alignedTail⟩ := holds.tail_bounds
  have headUnmod := holds.headUnmod
  have len : (BitVec.ofNat 32 p.length).toNat = p.length := Nat.mod_eq_of_lt (by omega)
  have small : (BitVec.ofNat 32 p.length).toNat < 0x10000 := by rwa [len]
  have newTail := unmod_toNat inside small
  have moved := newHead_toNat inside small
  rw [len] at newTail moved
  have notLong : ¬p.length ≥ 0x10000 := not_le.mpr short
  have notBeyond : ¬r.tail ≥ capacity32 := not_le.mpr inside
  have full_iff : r.tail + 4 + align4 (BitVec.ofNat 32 p.length) ≥
      (if r.head > r.tail then r.head else r.head + capacity32) ↔
        TUN_RING_CAPACITY ≤ usedBytes packets + (4 + roundUp4 p.length) := by
    change (if r.head > r.tail then r.head else r.head + capacity32).toNat ≤ _ ↔ _
    rw [newTail]
    omega
  split_ifs with full
  · simp only [write, if_neg notLong, if_neg notBeyond, if_pos (full_iff.mpr full), pure_eq_ok]
  · obtain ⟨head, aligned, tail, room, stores, shorts⟩ := holds
    have memory : r.data.val.length = 196608 := r.data.property
    have inTail : r.tail.toNat < 131072 := inside
    have lengthSize : (leBytes 4 p.length).length = 4 := leBytes_length _ _
    obtain ⟨marked, writeLength, markedValue⟩ := copyIntoSlice_eq r.data r.tail.toNat (leBytes 4 p.length) (by
      rw [lengthSize, capacity_eq]
      omega)
    obtain ⟨data, writePacket, dataValue⟩ := copyIntoSlice_eq marked (r.tail.toNat + 4) p (by
      rw [capacity_eq]
      omega)
    have whole : data.val = overwrite r.data.val r.tail.toNat (packetRecord p).content := by
      have parts := overwrite_append p (show r.tail.toNat + (leBytes 4 p.length).length ≤ r.data.val.length by omega)
      rw [dataValue, markedValue]
      rw [lengthSize] at parts
      exact parts
    refine ⟨{ r with data, tail := (r.tail + 4 + align4 (BitVec.ofNat 32 p.length)) % capacity32 }, ?_, ?_⟩
    · simp only [write, if_neg notLong, if_neg notBeyond, if_neg (mt full_iff.mp full), len, writeLength, ok_bind,
        writePacket, pure_eq_ok]
    · have written : usedBytes (packets ++ [p]) = usedBytes packets + (4 + roundUp4 p.length) := usedBytes_concat _ _
      refine ⟨head, aligned, ?_, by omega, ?_, ?_⟩
      · change ((r.tail + 4 + align4 _) % capacity32).toNat = _
        rw [moved, tail, Nat.mod_add_mod, written, Nat.add_assoc]
      · rw [List.map_append, whole, tail]
        apply stores.write head room (by rw [not_le] at full; exact full.le)
        rw [← usedBytes, ← tail, packetRecord, List.length_append, lengthSize]
        omega
      · intro q isIn
        rcases List.mem_append.mp isIn with old | isNew
        · exact shorts q old
        · rw [List.mem_singleton.mp isNew]
          exact short

end TunRing

inductive RingCall where
  | write (packet : Bytes)
  | read (buf : Bytes)

/-- What is returned, and the buffer of a `read` afterwards. -/
inductive RingReply where
  | written (result : Except RingError Nat)
  | received (result : Except RingError Nat) (buf : Bytes)

/-- Packets have lengths below `0x10000`, and buffers have room for every packet. -/
def RingCall.Valid : RingCall → Prop
  | .write packet => packet.length < 0x10000
  | .read buf => 65535 ≤ buf.length

def RingReply.result : RingReply → Except RingError Nat
  | .written result => result
  | .received result _ => result

def TunRing.call (r : TunRing) : RingCall → Exec (RingReply × TunRing)
  | .write packet => do
    let (result, r) ← r.write packet
    return (.written result, r)
  | .read buf => do
    let (result, buf, r) ← r.read buf
    return (.received result buf, r)

/-- Calls one after the other, with what they return. -/
def TunRing.calls (r : TunRing) : List RingCall → Exec (List (RingCall × RingReply) × TunRing)
  | [] => return ([], r)
  | c :: cs => do
    let (reply, r) ← r.call c
    let (trace, r) ← r.calls cs
    return ((c, reply) :: trace, r)

/-- The packet of a successful `write`. -/
def sentBy : RingCall × RingReply → List Bytes
  | (.write packet, .written (.ok _)) => [packet]
  | _ => []

/-- The packet of a successful `read`. -/
def receivedBy : RingCall × RingReply → List Bytes
  | (.read _, .received (.ok len) buf) => [buf.take len]
  | _ => []

def sentPackets (trace : List (RingCall × RingReply)) : List Bytes := trace.flatMap sentBy

def receivedPackets (trace : List (RingCall × RingReply)) : List Bytes := trace.flatMap receivedBy

/-- What a ring is for: the packets that were sent and are not yet received are stored in it. -/
structure TunRing.Fifo (r : TunRing) (trace : List (RingCall × RingReply)) (stored : List Bytes) : Prop where
  order : sentPackets trace = receivedPackets trace ++ stored
  data : ∀ e ∈ trace, e.2.result ≠ .error .invalidData
  head : r.head.toNat < TUN_RING_CAPACITY ∧ 4 ∣ r.head.toNat
  tail : r.tail.toNat < TUN_RING_CAPACITY ∧ 4 ∣ r.tail.toNat
  empty : ∀ buf, 65535 ≤ buf.length →
    ((∃ after, r.read buf = .ok (.error .wouldBlock, after)) ↔ stored = [])
  full : ∀ packet, packet.length < 0x10000 →
    ((∃ after, r.write packet = .ok (.error .wouldBlock, after)) ↔
      TUN_RING_CAPACITY ≤ usedBytes stored + 4 + roundUp4 packet.length)
  refused : ∀ packet after, packet.length < 0x10000 → r.write packet = .ok (.error .wouldBlock, after) → after = r

namespace TunRing

variable {r : TunRing} {packets : List Bytes}

theorem call_holds (holds : r.Holds packets) {c : RingCall} (valid : c.Valid) :
    ∃ reply next after, r.call c = .ok (reply, next) ∧ next.Holds after ∧
      packets ++ sentBy (c, reply) = receivedBy (c, reply) ++ after ∧ reply.result ≠ .error .invalidData := by
  cases c with
  | write p =>
    have written := write_packet holds valid
    split_ifs at written
    · refine ⟨.written (.error .wouldBlock), r, packets, ?_, holds, List.append_nil _, nofun⟩
      rw [call, written]
      rfl
    · obtain ⟨next, written, stored⟩ := written
      refine ⟨.written (.ok p.length), next, packets ++ [p], ?_, stored, rfl, nofun⟩
      rw [call, written]
      rfl
  | read buf =>
    cases packets with
    | nil =>
      refine ⟨.received (.error .wouldBlock) buf, r, [], ?_, holds, rfl, nofun⟩
      rw [call, read_empty holds]
      rfl
    | cons p packets =>
      obtain ⟨next, taken, stored⟩ := read_packet holds valid
      refine ⟨.received (.ok p.length) (p ++ buf.drop p.length), next, packets, ?_, stored, ?_, nofun⟩
      · rw [call, taken]
        rfl
      · have copied : (p ++ buf.drop p.length).take p.length = p := List.take_left' rfl
        change (p :: packets) ++ [] = [(p ++ buf.drop p.length).take p.length] ++ packets
        rw [copied, List.append_nil]
        rfl

theorem calls_hold (holds : r.Holds packets) {cs : List RingCall} (valid : ∀ c ∈ cs, c.Valid) :
    ∃ trace next after, r.calls cs = .ok (trace, next) ∧ next.Holds after ∧
      packets ++ sentPackets trace = receivedPackets trace ++ after ∧
      ∀ e ∈ trace, e.2.result ≠ .error .invalidData := by
  induction cs generalizing r packets with
  | nil => exact ⟨[], r, packets, rfl, holds, List.append_nil _, nofun⟩
  | cons c cs ih =>
    obtain ⟨first, rest⟩ := List.forall_mem_cons.mp valid
    obtain ⟨reply, next, between, called, holds, moved, valid⟩ := call_holds holds first
    obtain ⟨trace, last, after, ran, holds, order, each⟩ := ih holds rest
    refine ⟨(c, reply) :: trace, last, after, ?_, holds, ?_, List.forall_mem_cons.mpr ⟨valid, each⟩⟩
    · rw [calls, called, ok_bind]
      dsimp only
      rw [ran]
      rfl
    · calc packets ++ sentPackets ((c, reply) :: trace)
        _ = (packets ++ sentBy (c, reply)) ++ sentPackets trace := by
          rw [sentPackets, List.flatMap_cons, List.append_assoc]
          rfl
        _ = receivedBy (c, reply) ++ (between ++ sentPackets trace) := by rw [moved, List.append_assoc]
        _ = receivedBy (c, reply) ++ (receivedPackets trace ++ after) := by rw [order]
        _ = receivedPackets ((c, reply) :: trace) ++ after := by
          rw [receivedPackets, receivedPackets, List.flatMap_cons, List.append_assoc]

theorem Holds.read_wouldBlock_iff (holds : r.Holds packets) {buf : Bytes} (large : 65535 ≤ buf.length) :
    (∃ after, r.read buf = .ok (.error .wouldBlock, after)) ↔ packets = [] := by
  constructor
  · rintro ⟨after, blocked⟩
    cases packets with
    | nil => rfl
    | cons p packets =>
      obtain ⟨next, taken, _⟩ := read_packet holds large
      rw [taken] at blocked
      nomatch blocked
  · rintro rfl
    exact ⟨_, read_empty holds buf⟩

theorem Holds.write_wouldBlock_iff (holds : r.Holds packets) {p : Bytes} (short : p.length < 0x10000) (after : TunRing) :
    r.write p = .ok (.error .wouldBlock, after) ↔
      TUN_RING_CAPACITY ≤ usedBytes packets + 4 + roundUp4 p.length ∧ after = r := by
  have written := write_packet holds short
  rw [Nat.add_assoc]
  split_ifs at written with full
  · rw [written]
    constructor
    · intro same
      cases same
      exact ⟨full, rfl⟩
    · rintro ⟨_, rfl⟩
      rfl
  · obtain ⟨next, written, _⟩ := written
    rw [written]
    exact ⟨nofun, fun blocked => absurd blocked.1 full⟩

end TunRing

/-- Every run of a ring from zeros is that of a bounded FIFO. -/
theorem tun_ring_is_fifo (cs : List RingCall) (valid : ∀ c ∈ cs, c.Valid) :
    ∃ trace r stored, TunRing.new.calls cs = .ok (trace, r) ∧ r.Fifo trace stored := by
  obtain ⟨trace, r, stored, ran, holds, order, data⟩ := TunRing.calls_hold TunRing.new_holds valid
  refine ⟨trace, r, stored, ran, ?_⟩
  constructor
  · exact order
  · exact data
  · exact ⟨holds.head, holds.aligned⟩
  · exact holds.tail_bounds
  · intro buf large
    exact holds.read_wouldBlock_iff large
  · intro packet short
    constructor
    · rintro ⟨after, blocked⟩
      exact ((holds.write_wouldBlock_iff short after).mp blocked).1
    · intro full
      exact ⟨r, (holds.write_wouldBlock_iff short r).mpr ⟨full, rfl⟩⟩
  · intro packet after short blocked
    exact ((holds.write_wouldBlock_iff short after).mp blocked).2

theorem tun_ring_is_fifo_sample : ∃ trace r stored,
    TunRing.new.calls [.write [1, 2, 3], .write [], .read (List.replicate 65535 0)] = .ok (trace, r) ∧
      r.Fifo trace stored := by
  apply tun_ring_is_fifo
  intro c isIn
  rcases List.mem_cons.mp isIn with rfl | isIn
  · exact (by decide : 3 < 0x10000)
  rcases List.mem_cons.mp isIn with rfl | isIn
  · exact (by decide : 0 < 0x10000)
  · rw [List.mem_singleton.mp isIn]
    exact (List.length_replicate (n := 65535)).ge

end Titun
