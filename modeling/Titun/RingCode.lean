import Titun.RingSafety
import Titun.Lib.SharedMemory

/-! The calls of a ring as programs that access it one atomic load or store, or one byte, at a time, and the
calls of the registered rings on top of them. -/
namespace Titun

open CircularLog Endian SharedMemory

/-- A ring with its event `tail_moved`. -/
structure SharedRing where
  ring : TunRing
  alertable : BitVec 32
  signalled : Bool

inductive RingAccess where
  | loadHead
  | loadTail
  | storeHead (v : BitVec 32)
  | storeTail (v : BitVec 32)
  | loadByte (i : Nat)
  | storeByte (i : Nat) (b : UInt8)
  | loadAlertable
  | storeAlertable (v : BitVec 32)
  | setEvent
  | waitEvent

abbrev RingAccess.Reply : RingAccess → Type
  | loadHead | loadTail | loadAlertable => BitVec 32
  | loadByte _ => UInt8
  | storeHead _ | storeTail _ | storeByte _ _ | storeAlertable _ | setEvent | waitEvent => Unit

abbrev ringInterface : Interface := ⟨RingAccess, RingAccess.Reply⟩

/-- One access. A wait ends when the event is set, and resets it. -/
def SharedRing.perform : (a : RingAccess) → SharedRing → Option (a.Reply × SharedRing)
  | .loadHead, m => some (m.ring.head, m)
  | .loadTail, m => some (m.ring.tail, m)
  | .storeHead v, m => some ((), { m with ring.head := v })
  | .storeTail v, m => some ((), { m with ring.tail := v })
  | .loadByte i, m => m.ring.data.val[i]?.map fun b => (b, m)
  | .storeByte i b, m => some ((), { m with ring.data := ⟨m.ring.data.val.set i b, by simp⟩ })
  | .loadAlertable, m => some (m.alertable, m)
  | .storeAlertable v, m => some ((), { m with alertable := v })
  | .setEvent, m => some ((), { m with signalled := true })
  | .waitEvent, m => if m.signalled then some ((), { m with signalled := false }) else none

abbrev RingProg (α : Type) := Prog ringInterface Panic α

/-- Loads `n` bytes. -/
def loadBytes (start : Nat) (k : Bytes → RingProg α) : Nat → Bytes → RingProg α
  | 0, got => k got
  | n + 1, got => .access (RingAccess.loadByte start) fun (b : UInt8) => loadBytes (start + 1) k n (got ++ [b])

def storeBytes (start : Nat) (k : RingProg α) : Bytes → RingProg α
  | [] => k
  | b :: bs => .access (RingAccess.storeByte start b) fun _ => storeBytes (start + 1) k bs

/-- `&data[start..][..n]` is read. -/
def loadSlice (start n : Nat) (k : Bytes → RingProg α) : RingProg α :=
  if start + n ≤ TUN_RING_CAPACITY + 0x10000 then loadBytes start k n [] else .fail .sliceOutOfRange

/-- `data[start..][..src.len()].copy_from_slice(src)`. -/
def storeSlice (start : Nat) (src : Bytes) (k : RingProg α) : RingProg α :=
  if start + src.length ≤ TUN_RING_CAPACITY + 0x10000 then storeBytes start k src else .fail .sliceOutOfRange

/-- `TunRing::read` once the packet is copied. -/
def readEnd (buf : Bytes) (newHead : BitVec 32) (copyLen : Nat) (packet : Bytes) :
    RingProg (Except RingError Nat × Bytes) :=
  .access (RingAccess.storeHead newHead) fun _ => .done (.ok copyLen, packet ++ buf.drop copyLen)

/-- `TunRing::read` once the length is read. -/
def readPacket (buf : Bytes) (head tail : BitVec 32) (lenBytes : Bytes) : RingProg (Except RingError Nat × Bytes) :=
  let len := BitVec.ofNat 32 (ofLeBytes lenBytes)
  if len ≥ 0x10000#32 then .done (.error .invalidData, buf)
  else
    let newHeadUnmod := head + 4 + align4 len
    let tailUnmod := if head > tail then tail + capacity32 else tail
    if newHeadUnmod > tailUnmod then .done (.error .invalidData, buf)
    else
      let copyLen := min len.toNat buf.length
      loadSlice (head.toNat + 4) copyLen (readEnd buf (newHeadUnmod % capacity32) copyLen)

/-- `TunRing::read` once `head` and `tail` are loaded. -/
def readBetween (buf : Bytes) (head tail : BitVec 32) : RingProg (Except RingError Nat × Bytes) :=
  if head = tail then .done (.error .wouldBlock, buf)
  else if head ≥ capacity32 then .done (.error .invalidData, buf)
  else loadSlice head.toNat 4 (readPacket buf head tail)

def readFrom (buf : Bytes) (head : BitVec 32) : RingProg (Except RingError Nat × Bytes) :=
  .access RingAccess.loadTail fun tail => readBetween buf head tail

def readCode (buf : Bytes) : RingProg (Except RingError Nat × Bytes) :=
  .access RingAccess.loadHead fun head => readFrom buf head

/-- `TunRing::write` once the packet is stored. -/
def writeEnd (newTail : BitVec 32) (len : Nat) : RingProg (Except RingError Nat) :=
  .access (RingAccess.storeTail newTail) fun _ => .done (.ok len)

/-- `TunRing::write` once `head` and `tail` are loaded. -/
def writeBetween (buf : Bytes) (head tail : BitVec 32) : RingProg (Except RingError Nat) :=
  let len := buf.length
  if tail ≥ capacity32 then .done (.error .invalidData)
  else
    let headUnmod := if head > tail then head else head + capacity32
    let newTailUnmod := tail + 4 + align4 (BitVec.ofNat 32 len)
    if newTailUnmod ≥ headUnmod then .done (.error .wouldBlock)
    else
      let newTail := newTailUnmod % capacity32
      storeSlice tail.toNat (leBytes 4 (BitVec.ofNat 32 len).toNat)
        (storeSlice (tail.toNat + 4) buf (writeEnd newTail len))

def writeFrom (buf : Bytes) (head : BitVec 32) : RingProg (Except RingError Nat) :=
  .access RingAccess.loadTail fun tail => writeBetween buf head tail

def writeCode (buf : Bytes) : RingProg (Except RingError Nat) :=
  if buf.length ≥ 0x10000 then .done (.error .invalidInput)
  else .access RingAccess.loadHead fun head => writeFrom buf head

section Alone

variable {m : SharedRing}

theorem loadBytes_run (k : Bytes → RingProg α) {start n : Nat} {got : Bytes}
    (inside : start + n ≤ m.ring.data.val.length) : (loadBytes start k n got).run SharedRing.perform m =
      (k (got ++ slice m.ring.data.val start n)).run SharedRing.perform m := by
  induction n generalizing start got with
  | zero => simp [loadBytes, slice]
  | succ n ih =>
    have here : start < m.ring.data.val.length := by omega
    have first : slice m.ring.data.val start (n + 1) =
        m.ring.data.val[start] :: slice m.ring.data.val (start + 1) n := by
      rw [slice, List.drop_eq_getElem_cons here, List.take_succ_cons]
      rfl
    have loaded : SharedRing.perform (.loadByte start) m = some (m.ring.data.val[start], m) := by
      rw [SharedRing.perform, List.getElem?_eq_getElem here]
      rfl
    rw [loadBytes, Prog.run_access loaded, ih (by omega), first, List.append_assoc]
    rfl

theorem storeBytes_run (k : RingProg α) {start : Nat} {src : Bytes} {data : U8Array (TUN_RING_CAPACITY + 0x10000)}
    (inside : start + src.length ≤ m.ring.data.val.length) (stored : data.val = overwrite m.ring.data.val start src) :
    (storeBytes start k src).run SharedRing.perform m = k.run SharedRing.perform { m with ring.data := data } := by
  induction src generalizing start m with
  | nil =>
    have same : data = m.ring.data := by
      apply Subtype.ext
      rw [stored]
      simp [overwrite]
    rw [same]
    rfl
  | cons b src ih =>
    rw [List.length_cons] at inside
    have first : m.ring.data.val.set start b = overwrite m.ring.data.val start [b] := by
      rw [List.set_eq_take_append_cons_drop, if_pos (by omega)]
      rfl
    have performed : SharedRing.perform (.storeByte start b) m =
        some ((), { m with ring.data := ⟨m.ring.data.val.set start b, by simp⟩ }) := rfl
    rw [storeBytes, Prog.run_access performed]
    apply ih
    · simp only [List.length_set]
      omega
    · have both := overwrite_append src
        (show start + [b].length ≤ m.ring.data.val.length by rw [List.length_singleton]; omega)
      rw [← first] at both
      exact stored.trans both.symm

theorem loadSlice_run (k : Bytes → RingProg α) (start n : Nat) : (loadSlice start n k).run SharedRing.perform m =
    match sliceArray m.ring.data.val start n with
    | .ok bytes => (k bytes.val).run SharedRing.perform m
    | .error e => some (.error e) := by
  have memory : m.ring.data.val.length = TUN_RING_CAPACITY + 0x10000 := m.ring.data.property
  unfold loadSlice sliceArray
  split_ifs with inside outside
  · rw [loadBytes_run k (by rwa [memory])]
    simp [slice, sub]
  · exact absurd (by rwa [memory]) outside
  · exact absurd (by rwa [memory] at *) inside
  · rfl

theorem storeSlice_run (k : RingProg α) (start : Nat) (src : Bytes) :
    (storeSlice start src k).run SharedRing.perform m =
    match copyIntoSlice m.ring.data start src with
    | .ok data => k.run SharedRing.perform { m with ring.data := data }
    | .error e => some (.error e) := by
  have memory : m.ring.data.val.length = TUN_RING_CAPACITY + 0x10000 := m.ring.data.property
  unfold storeSlice copyIntoSlice
  split_ifs with inside
  · exact storeBytes_run k (by rwa [memory]) rfl
  · rfl

theorem readCode_run (m : SharedRing) (buf : Bytes) : (readCode buf).run SharedRing.perform m =
    some ((m.ring.read buf).map fun o => ((o.1, o.2.1), { m with ring := o.2.2 })) := by
  have head : SharedRing.perform .loadHead m = some (m.ring.head, m) := rfl
  have tail : SharedRing.perform .loadTail m = some (m.ring.tail, m) := rfl
  rw [readCode, Prog.run_access head, readFrom, Prog.run_access tail]
  unfold readBetween TunRing.read
  by_cases empty : m.ring.head = m.ring.tail
  · rw [if_pos empty, if_pos empty]
    rfl
  by_cases beyond : m.ring.head ≥ capacity32
  · rw [if_neg empty, if_neg empty, if_pos beyond, if_pos beyond]
    rfl
  rw [if_neg empty, if_neg empty, if_neg beyond, if_neg beyond, loadSlice_run]
  cases sliceArray m.ring.data.val m.ring.head.toNat 4 with
  | error e => rfl
  | ok lenBytes =>
    simp only [ok_bind, readPacket]
    generalize (if m.ring.head > m.ring.tail then m.ring.tail + capacity32 else m.ring.tail) = tailUnmod
    split_ifs
    · rfl
    · rfl
    · rw [loadSlice_run]
      cases sliceArray m.ring.data.val (m.ring.head.toNat + 4) _ with
      | error e => rfl
      | ok packet => rfl

theorem writeCode_run (m : SharedRing) (buf : Bytes) : (writeCode buf).run SharedRing.perform m =
    some ((m.ring.write buf).map fun o => (o.1, { m with ring := o.2 })) := by
  have head : SharedRing.perform .loadHead m = some (m.ring.head, m) := rfl
  have tail : SharedRing.perform .loadTail m = some (m.ring.tail, m) := rfl
  unfold writeCode TunRing.write
  by_cases long : buf.length ≥ 0x10000
  · simp only [if_pos long]
    rfl
  simp only [if_neg long]
  rw [Prog.run_access head, writeFrom, Prog.run_access tail]
  unfold writeBetween
  by_cases beyond : m.ring.tail ≥ capacity32
  · simp only [if_pos beyond]
    rfl
  simp only [if_neg beyond]
  generalize (if m.ring.head > m.ring.tail then m.ring.head else m.ring.head + capacity32) = headUnmod
  split_ifs
  · rfl
  · rw [storeSlice_run]
    cases copyIntoSlice m.ring.data m.ring.tail.toNat (leBytes 4 (BitVec.ofNat 32 buf.length).toNat) with
    | error e => rfl
    | ok marked =>
      simp only [ok_bind]
      rw [storeSlice_run]
      cases copyIntoSlice marked (m.ring.tail.toNat + 4) buf with
      | error e => rfl
      | ok data => rfl

end Alone

end Titun
