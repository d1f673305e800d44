import Titun.Types

/-! Monitors the frequency of handshake messages with a token bucket. Arithmetic wraps
around, as it does in the release build that is shipped. -/
namespace Titun

def CAP_RATIO : BitVec 64 := 4

structure LoadMonitor where
  /-- How many messages are allowed every second. -/
  freq : BitVec 32
  /-- Scaled to 10^9, to match timer precision. -/
  bucket : BitVec 64
  lastCheck : Instant
  underLoad : Bool
  deriving DecidableEq

namespace LoadMonitor

def nanosPerSec : BitVec 64 := BitVec.ofNat 64 NANOS_PER_SEC

def cap (freq : BitVec 32) : BitVec 64 := CAP_RATIO * freq.setWidth 64 * nanosPerSec

def new (freq : BitVec 32) (now : Instant) : LoadMonitor := ⟨freq, cap freq, now, false⟩

/-- What the time passed adds to the bucket. -/
def bucketAdd (freq : BitVec 32) (passed : Nat) : BitVec 64 :=
  BitVec.ofNat 64 (passed / NANOS_PER_SEC) * freq.setWidth 64 * nanosPerSec +
    BitVec.ofNat 64 (passed % NANOS_PER_SEC) * freq.setWidth 64

/-- Call this when receiving a message. Returns whether we are under load. -/
def check (m : LoadMonitor) (now : Instant) : Bool × LoadMonitor :=
  let cap := cap m.freq
  let total := m.bucket + bucketAdd m.freq (now - m.lastCheck)
  let filled := if total < cap then total else cap
  let bucket := if filled ≥ nanosPerSec then filled - nanosPerSec else 0
  let underLoad := if m.underLoad then !decide (bucket ≥ 7 * cap / 8) else decide (bucket ≤ 3 * cap / 4)
  (underLoad, { m with bucket, lastCheck := now, underLoad })

end LoadMonitor

end Titun
