import Titun.IpcParse

/-! The responses of the configuration protocol, as they are written. -/
namespace Titun

open Text

/-- Where responses are written: what has been passed on, and what is kept until a flush. -/
structure BufWriter where
  sent : Bytes
  buffered : Bytes

namespace BufWriter

def CAPACITY : Nat := 4096

def new : BufWriter := ⟨[], []⟩

def flush (w : BufWriter) : BufWriter := ⟨w.sent ++ w.buffered, []⟩

def writeAll (w : BufWriter) (data : Bytes) : BufWriter :=
  let w := if w.buffered.length + data.length > CAPACITY then w.flush else w
  if data.length ≥ CAPACITY then { w with sent := w.sent ++ data }
  else { w with buffered := w.buffered ++ data }

def writeln (w : BufWriter) (line : Line) : BufWriter := w.writeAll (line ++ [10])

def written (w : BufWriter) : Bytes := w.sent ++ w.buffered

@[simp] theorem written_new : new.written = [] := rfl

@[simp] theorem written_flush (w : BufWriter) : w.flush.written = w.written := List.append_nil _

theorem flush_eq (w : BufWriter) : w.flush = ⟨w.written, []⟩ := rfl

/-- What is written comes after what was written before, whether or not it is kept. -/
@[simp] theorem written_writeAll (w : BufWriter) (data : Bytes) : (w.writeAll data).written = w.written ++ data := by
  have room : ∀ w : BufWriter, (w.buffered = [] ∨ data.length < CAPACITY) →
      BufWriter.written (if data.length ≥ CAPACITY then { w with sent := w.sent ++ data }
        else { w with buffered := w.buffered ++ data }) = w.written ++ data := by
    intro w empty
    split_ifs with long
    · rcases empty with empty | short
      · simp [written, empty]
      · exact absurd long (not_le.mpr short)
    · simp [written]
  unfold writeAll
  by_cases full : w.buffered.length + data.length > CAPACITY
  · rw [if_pos full]
    exact (room w.flush (.inl rfl)).trans (by rw [written_flush])
  · rw [if_neg full]
    apply room w
    by_cases long : data.length < CAPACITY
    · exact .inr long
    · exact .inl (List.eq_nil_of_length_eq_zero (by omega))

end BufWriter

/-- Lines, each with its newline. -/
def unlines (l : List Line) : Bytes := l.flatMap (· ++ [10])

theorem BufWriter.written_writeln (w : BufWriter) (l : List Line) :
    (l.foldl writeln w).written = w.written ++ unlines l := by
  induction l generalizing w with
  | nil => simp [unlines]
  | cons line l ih =>
    have one : (w.writeln line).written = w.written ++ (line ++ [10]) := w.written_writeAll _
    rw [List.foldl_cons, ih, one, List.append_assoc]
    rfl

section Status

variable (t : AddrText)

/-- `t.duration_since(SystemTime::UNIX_EPOCH).unwrap()`. -/
def durationSinceEpoch (time : SystemTime) : Exec Nat :=
  if 0 ≤ time then .ok time.toNat else .error .unwrapNone

/-- The two lines of a time. -/
def handshakeTimeLines : Option SystemTime → Exec (List Line)
  | none => return []
  | some time => do
    let d ← durationSinceEpoch time
    return [keyValue "last_handshake_time_sec" (decimal (d / NANOS_PER_SEC)),
      keyValue "last_handshake_time_nsec" (decimal (d % NANOS_PER_SEC))]

/-- What stands before the time in the block of a peer. -/
def PeerStateOut.untimedLines (p : PeerStateOut) : List Line :=
  p.presharedKey.toList.map (fun psk => keyValue "preshared_key" (hexEncode psk.val)) ++
    (iterAllowedIps p.allowedIps).map (fun a => keyValue "allowed_ip" (t.ip a.1 ++ 47 :: decimal a.2)) ++
    [keyValue "persistent_keepalive_interval" (decimal p.persistentKeepaliveInterval.toNat)] ++
    p.endpoint.toList.map (fun e => keyValue "endpoint" (t.socket e)) ++
    [keyValue "rx_bytes" (decimal p.rxBytes.toNat), keyValue "tx_bytes" (decimal p.txBytes.toNat)]

def PeerStateOut.lines (p : PeerStateOut) : Exec (List Line) := do
  let time ← handshakeTimeLines p.lastHandshakeTime
  return keyValue "public_key" (hexEncode p.publicKey.val) :: (p.untimedLines t ++ time)

/-- The lines that `write_wg_state` writes before the peers. -/
def WgStateOut.interfaceLines (state : WgStateOut) : List Line :=
  [keyValue "private_key" (hexEncode state.privateKey.val), keyValue "listen_port" (decimal state.listenPort.toNat)] ++
    if state.fwmark ≠ 0 then [keyValue "fwmark" (decimal state.fwmark.toNat)] else []

/-- What is shown of a state. -/
def WgStateOut.lines (state : WgStateOut) : Exec (List Line) := do
  let peers ← state.peers.mapM fun p => p.lines t
  return state.interfaceLines ++ peers.flatten

def writeWgState (w : BufWriter) (state : WgStateOut) : Exec BufWriter := do
  let lines ← state.lines t
  return ((lines ++ [keyValue "errno" (lit "0"), []]).foldl BufWriter.writeln w).flush

end Status

def displayInt (n : Int) : Line := if n < 0 then 45 :: decimal n.natAbs else decimal n.natAbs

def writeError (w : BufWriter) (errno : Int) : BufWriter :=
  ((w.writeln (keyValue "errno" (displayInt errno))).writeln []).flush

end Titun
