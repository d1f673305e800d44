import Titun.TunRing

/-! The calls of a ring whose other side writes what it likes. Every operation on u32 is
checked for overflow, as in a debug build. -/
namespace Titun

open Endian

inductive CheckedPanic where
  | overflow
  | panic (p : Panic)

abbrev Checked := Except CheckedPanic

/-- What can only panic in the ways it does in every build. -/
def unchecked : Exec α → Checked α
  | .ok a => .ok a
  | .error p => .error (.panic p)

def add32 (a b : BitVec 32) : Checked (BitVec 32) := if a.toNat + b.toNat < 2 ^ 32 then .ok (a + b) else .error .overflow

def align4Checked (len : BitVec 32) : Checked (BitVec 32) := do
  let sum ← add32 len 3#32
  return sum &&& ~~~3#32

namespace TunRing

def tailUnmodChecked (r : TunRing) : Checked (BitVec 32) :=
  if r.head > r.tail then add32 r.tail capacity32 else return r.tail

def headUnmodChecked (r : TunRing) : Checked (BitVec 32) :=
  if r.head > r.tail then return r.head else add32 r.head capacity32

def readChecked (r : TunRing) (buf : Bytes) : Checked (Except RingError Nat × Bytes × TunRing) :=
  if r.head = r.tail then return (.error .wouldBlock, buf, r)
  else if r.head ≥ capacity32 then return (.error .invalidData, buf, r)
  else do
    let lenBytes ← unchecked (sliceArray r.data.val r.head.toNat 4)
    let len := BitVec.ofNat 32 (ofLeBytes lenBytes.val)
    if len ≥ 0x10000#32 then return (.error .invalidData, buf, r)
    else do
      let start ← add32 r.head 4
      let aligned ← align4Checked len
      let newHeadUnmod ← add32 start aligned
      let tailUnmod ← r.tailUnmodChecked
      if newHeadUnmod > tailUnmod then return (.error .invalidData, buf, r)
      else do
        let copyLen := min len.toNat buf.length
        let packet ← unchecked (sliceArray r.data.val (r.head.toNat + 4) copyLen)
        let newHead := newHeadUnmod % capacity32
        return (.ok copyLen, packet.val ++ buf.drop copyLen, { r with head := newHead })

def writeChecked (r : TunRing) (buf : Bytes) : Checked (Except RingError Nat × TunRing) :=
  let len := buf.length
  if len ≥ 0x10000 then return (.error .invalidInput, r)
  else if r.tail ≥ capacity32 then return (.error .invalidData, r)
  else do
    let headUnmod ← r.headUnmodChecked
    let start ← add32 r.tail 4
    let aligned ← align4Checked (BitVec.ofNat 32 len)
    let newTailUnmod ← add32 start aligned
    if newTailUnmod ≥ headUnmod then return (.error .wouldBlock, r)
    else do
      let newTail := newTailUnmod % capacity32
      let data ← unchecked (copyIntoSlice r.data r.tail.toNat (leBytes 4 (BitVec.ofNat 32 len).toNat))
      let data ← unchecked (copyIntoSlice data (r.tail.toNat + 4) buf)
      return (.ok len, { r with data, tail := newTail })

end TunRing

@[simp] theorem checked_bind (a : α) (f : α → Checked β) : (Except.ok a : Checked α) >>= f = f a := rfl

/-- An index as its owner keeps it. -/
structure OwnIndex (x : BitVec 32) : Prop where
  inside : x.toNat < TUN_RING_CAPACITY
  aligned : 4 ∣ x.toNat

theorem add32_ok {a b : BitVec 32} (fits : a.toNat + b.toNat < 2 ^ 32) : add32 a b = .ok (a + b) := if_pos fits

theorem align4Checked_ok {len : BitVec 32} (small : len.toNat < 0x10000) : align4Checked len = .ok (align4 len) := by
  have fits : len.toNat + (3#32).toNat < 2 ^ 32 := by
    simp
    omega
  rw [align4Checked, add32_ok fits]
  rfl

theorem add32_packet_ok {x len : BitVec 32} (own : OwnIndex x) (small : len.toNat < 0x10000) :
    add32 x 4 = .ok (x + 4) ∧ add32 (x + 4) (align4 len) = .ok (x + 4 + align4 len) := by
  have inside : x.toNat < 131072 := own.inside
  have four : (4 : BitVec 32).toNat = 4 := rfl
  have first : (x + 4).toNat = x.toNat + 4 := by
    rw [BitVec.toNat_add, four]
    exact Nat.mod_eq_of_lt (by omega)
  have bound := TunRing.roundUp4_lt small
  constructor
  · apply add32_ok
    rw [four]
    omega
  · apply add32_ok
    rw [first, align4_toNat small]
    omega

theorem OwnIndex.le_last {x : BitVec 32} (own : OwnIndex x) : x.toNat ≤ 131068 := by
  have inside : x.toNat < 131072 := own.inside
  have aligned := own.aligned
  omega

theorem OwnIndex.next {x len : BitVec 32} (own : OwnIndex x) (small : len.toNat < 0x10000) :
    OwnIndex ((x + 4 + align4 len) % capacity32) := by
  have aligned := own.aligned
  constructor
  · rw [TunRing.newHead_toNat own.inside small]
    exact Nat.mod_lt _ (by decide)
  · rw [TunRing.newHead_toNat own.inside small, TunRing.capacity_eq, roundUp4]
    omega

theorem add32_capacity_ok {x own : BitVec 32} (kept : OwnIndex own) (below : x ≤ own) :
    add32 x capacity32 = .ok (x + capacity32) := by
  have inside : own.toNat < 131072 := kept.inside
  have constant : capacity32.toNat = 131072 := rfl
  have below : x.toNat ≤ own.toNat := below
  apply add32_ok
  omega

namespace TunRing

/-- Whatever the other side has written, a read stays inside the data and keeps our index. -/
theorem read_tolerates (r : TunRing) (buf : Bytes) (own : OwnIndex r.head) :
    ∃ result filled next, r.readChecked buf = .ok (result, filled, next) ∧ r.read buf = .ok (result, filled, next) ∧
      OwnIndex next.head ∧ next.tail = r.tail ∧ next.data = r.data ∧ ∀ e, result = .error e → next = r := by
  have memory : r.data.val.length = 196608 := r.data.property
  have inside : r.head.toNat ≤ 131068 := own.le_last
  by_cases meet : r.head = r.tail
  · refine ⟨.error .wouldBlock, buf, r, if_pos meet, if_pos meet, own, rfl, rfl, ?_⟩
    intro _ _
    rfl
  have notBeyond : ¬r.head ≥ capacity32 := not_le.mpr own.inside
  obtain ⟨lenBytes, readLength, _⟩ := sliceArray_eq r.data.val r.head.toNat 4 (by omega)
  by_cases long : BitVec.ofNat 32 (ofLeBytes lenBytes.val) ≥ 0x10000#32
  · refine ⟨.error .invalidData, buf, r, ?_, ?_, own, rfl, rfl, ?_⟩
    · simp only [readChecked, if_neg meet, if_neg notBeyond, readLength, unchecked, checked_bind, if_pos long]
      rfl
    · simp only [read, if_neg meet, if_neg notBeyond, readLength, ok_bind, if_pos long, pure_eq_ok]
    · intro _ _
      rfl
  have small : (BitVec.ofNat 32 (ofLeBytes lenBytes.val)).toNat < 0x10000 := not_le.mp long
  obtain ⟨start, aligned⟩ := add32_packet_ok own small
  have tailUnmod : r.tailUnmodChecked = .ok (if r.head > r.tail then r.tail + capacity32 else r.tail) := by
    unfold tailUnmodChecked
    split
    case isTrue below => exact add32_capacity_ok own (BitVec.le_of_lt below)
    case isFalse => rfl
  by_cases past : r.head + 4 + align4 (BitVec.ofNat 32 (ofLeBytes lenBytes.val)) >
      if r.head > r.tail then r.tail + capacity32 else r.tail
  · refine ⟨.error .invalidData, buf, r, ?_, ?_, own, rfl, rfl, ?_⟩
    · simp only [readChecked, if_neg meet, if_neg notBeyond, readLength, unchecked, checked_bind, if_neg long, start,
        align4Checked_ok small, aligned, tailUnmod, if_pos past]
      rfl
    · simp only [read, if_neg meet, if_neg notBeyond, readLength, ok_bind, if_neg long, if_pos past, pure_eq_ok]
    · intro _ _
      rfl
  obtain ⟨packet, readPacket, _⟩ := sliceArray_eq r.data.val (r.head.toNat + 4)
    (min (BitVec.ofNat 32 (ofLeBytes lenBytes.val)).toNat buf.length) (by omega)
  refine ⟨.ok (min (BitVec.ofNat 32 (ofLeBytes lenBytes.val)).toNat buf.length),
    packet.val ++ buf.drop (min (BitVec.ofNat 32 (ofLeBytes lenBytes.val)).toNat buf.length),
    { r with head := (r.head + 4 + align4 (BitVec.ofNat 32 (ofLeBytes lenBytes.val))) % capacity32 },
    ?_, ?_, own.next small, rfl, rfl, ?_⟩
  · simp only [readChecked, if_neg meet, if_neg notBeyond, readLength, unchecked, checked_bind, if_neg long, start,
      align4Checked_ok small, aligned, tailUnmod, if_neg past, readPacket]
    rfl
  · simp only [read, if_neg meet, if_neg notBeyond, readLength, ok_bind, if_neg long, if_neg past, readPacket,
      pure_eq_ok]
  · intro _ failed
    cases failed

theorem write_tolerates (r : TunRing) (buf : Bytes) (own : OwnIndex r.tail) :
    ∃ result next, r.writeChecked buf = .ok (result, next) ∧ r.write buf = .ok (result, next) ∧
      OwnIndex next.tail ∧ next.head = r.head ∧ ∀ e, result = .error e → next = r := by
  have inside : r.tail.toNat ≤ 131068 := own.le_last
  by_cases long : buf.length ≥ 0x10000
  · refine ⟨.error .invalidInput, r, if_pos long, if_pos long, own, rfl, ?_⟩
    intro _ _
    rfl
  have notBeyond : ¬r.tail ≥ capacity32 := not_le.mpr own.inside
  have len : (BitVec.ofNat 32 buf.length).toNat = buf.length := Nat.mod_eq_of_lt (by omega)
  have small : (BitVec.ofNat 32 buf.length).toNat < 0x10000 := by omega
  obtain ⟨start, aligned⟩ := add32_packet_ok own small
  have headUnmod : r.headUnmodChecked = .ok (if r.head > r.tail then r.head else r.head + capacity32) := by
    unfold headUnmodChecked
    split
    case isTrue => rfl
    case isFalse below => exact add32_capacity_ok own (BitVec.not_lt.mp below)
  by_cases full : r.tail + 4 + align4 (BitVec.ofNat 32 buf.length) ≥
      if r.head > r.tail then r.head else r.head + capacity32
  · refine ⟨.error .wouldBlock, r, ?_, ?_, own, rfl, ?_⟩
    · simp only [writeChecked, if_neg long, if_neg notBeyond, headUnmod, checked_bind, start, align4Checked_ok small,
        aligned, if_pos full]
      rfl
    · simp only [write, if_neg long, if_neg notBeyond, if_pos full, pure_eq_ok]
    · intro _ _
      rfl
  obtain ⟨marked, writeLength, _⟩ := copyIntoSlice_eq r.data r.tail.toNat
    (leBytes 4 (BitVec.ofNat 32 buf.length).toNat) (by
      rw [leBytes_length, capacity_eq]
      omega)
  obtain ⟨data, writePacket, _⟩ := copyIntoSlice_eq marked (r.tail.toNat + 4) buf (by
    rw [capacity_eq]
    omega)
  refine ⟨.ok buf.length, { r with data, tail := (r.tail + 4 + align4 (BitVec.ofNat 32 buf.length)) % capacity32 },
    ?_, ?_, own.next small, rfl, ?_⟩
  · simp only [writeChecked, if_neg long, if_neg notBeyond, headUnmod, checked_bind, start, align4Checked_ok small,
      aligned, if_neg full, writeLength, unchecked, writePacket]
    rfl
  · simp only [write, if_neg long, if_neg notBeyond, if_neg full, writeLength, ok_bind, writePacket, pure_eq_ok]
  · intro _ failed
    cases failed

end TunRing

/-- Whatever the other side has written to its index and to the ring, neither call panics, our index
stays where a packet may begin, and an error changes nothing. -/
theorem ring_tolerates_counterpart (r : TunRing) (buf : Bytes) :
    (OwnIndex r.head → ∃ result filled next, r.readChecked buf = .ok (result, filled, next) ∧
      r.read buf = .ok (result, filled, next) ∧ OwnIndex next.head ∧ next.tail = r.tail ∧ next.data = r.data ∧
      ∀ e, result = .error e → next = r) ∧
    (OwnIndex r.tail → ∃ result next, r.writeChecked buf = .ok (result, next) ∧ r.write buf = .ok (result, next) ∧
      OwnIndex next.tail ∧ next.head = r.head ∧ ∀ e, result = .error e → next = r) := by
  constructor
  · exact r.read_tolerates buf
  · exact r.write_tolerates buf

theorem ring_tolerates_highest_index : ∃ result next,
    (TunRing.mk (BitVec.allOnes 32) 131068 (zeros _)).write [1, 2, 3] = .ok (result, next) ∧ OwnIndex next.tail := by
  have own : OwnIndex 131068 := ⟨by decide, by decide⟩
  obtain ⟨result, next, _, written, kept, _⟩ :=
    (ring_tolerates_counterpart ⟨BitVec.allOnes 32, 131068, zeros _⟩ [1, 2, 3]).2 own
  exact ⟨result, next, written, kept⟩

end Titun
