import Titun.WgState
import Titun.Lib.TokenBucket

/-! What the load monitor's answers say about the times at which handshake messages arrived,
and how long it may be left alone before its arithmetic overflows. -/
namespace Titun

namespace LoadMonitor

/-- The result of an operation on u64 where overflow is checked for. -/
def u64 (n : Nat) : Option Nat := if n < 2 ^ 64 then some n else none

/-- `check` in a build with overflow checks, where an operation that overflows panics. -/
def checked (m : LoadMonitor) (now : Instant) : Option (Bool × LoadMonitor) := do
  let freq := m.freq.toNat
  let depth ← u64 ( CAP_RATIO.toNat * freq)
  let cap ← u64 (depth * NANOS_PER_SEC)
  let passed := now - m.lastCheck
  let perSec ← u64 (passed / NANOS_PER_SEC * freq)
  let whole ← u64 (perSec * NANOS_PER_SEC)
  let rest ← u64 (passed % NANOS_PER_SEC * freq)
  let bucketAdd ← u64 (whole + rest)
  let total ← u64 (m.bucket.toNat + bucketAdd)
  let bucket := min cap total - NANOS_PER_SEC
  let underLoad ←
    if m.underLoad then (u64 (7 * cap)).map fun mark => !decide (bucket ≥ mark / 8)
    else (u64 (3 * cap)).map fun mark => decide (bucket ≤ mark / 4)
  some (underLoad, { m with bucket := BitVec.ofNat 64 bucket, lastCheck := now, underLoad })

/-- The bucket before the charge. -/
def refilled (m : LoadMonitor) (now : Instant) : BitVec 64 :=
  let total := m.bucket + bucketAdd m.freq (now - m.lastCheck)
  if total < cap m.freq then total else cap m.freq

/-- The monitor after `n` checks, made at `t 1, …, t n`; it is created at `t 0`. -/
def after (freq : BitVec 32) (t : Nat → Instant) : Nat → LoadMonitor
  | 0 => .new freq (t 0)
  | n + 1 => ((after freq t n).check (t (n + 1))).2

/-- What check `n` returns. -/
def answer (freq : BitVec 32) (t : Nat → Instant) : Nat → Bool
  | 0 => false
  | n + 1 => ((after freq t n).check (t (n + 1))).1

/-- No operation of the first `n` checks overflows. -/
def Fits (freq : BitVec 32) (t : Nat → Instant) (n : Nat) : Prop :=
  ∀ k < n, ((after freq t k).checked (t (k + 1))).isSome

theorem isSome_u64_bind {f : Nat → Option β} : ((u64 n).bind f).isSome ↔ n < 2 ^ 64 ∧ (f n).isSome := by
  unfold u64
  split <;> simp_all

theorem toNat_ratio : CAP_RATIO.toNat = 4 := rfl

theorem toNat_nanosPerSec : nanosPerSec.toNat = NANOS_PER_SEC := by
  simp [nanosPerSec, NANOS_PER_SEC]

theorem toNat_cap (freq : BitVec 32) : (cap freq).toNat = 4 * (freq.toNat * NANOS_PER_SEC) := by
  have widened : (freq.setWidth 64).toNat = freq.toNat := BitVec.toNat_setWidth_of_le (by decide)
  have deep : 4 * freq.toNat < 2 ^ 64 := by omega
  have small : 4 * freq.toNat * NANOS_PER_SEC < 2 ^ 64 := by
    have := freq.isLt
    simp only [NANOS_PER_SEC]
    omega
  rw [cap, BitVec.toNat_mul, BitVec.toNat_mul, widened, toNat_ratio, toNat_nanosPerSec,
    Nat.mod_eq_of_lt deep, Nat.mod_eq_of_lt small, Nat.mul_assoc]

theorem freq_mul_passed (freq passed : Nat) : freq * passed =
    passed / NANOS_PER_SEC * freq * NANOS_PER_SEC + passed % NANOS_PER_SEC * freq := by
  conv_lhs => rw [← Nat.div_add_mod passed NANOS_PER_SEC]
  ring

theorem bucketAdd_eq (freq : BitVec 32) (passed : Nat) : bucketAdd freq passed = BitVec.ofNat 64 (freq.toNat * passed) := by
  have widened : freq.setWidth 64 = BitVec.ofNat 64 freq.toNat := by
    apply BitVec.eq_of_toNat_eq
    simp
  rw [freq_mul_passed, BitVec.ofNat_add, BitVec.ofNat_mul, BitVec.ofNat_mul, BitVec.ofNat_mul, bucketAdd, widened,
    nanosPerSec]

theorem total_fits_iff {perSec rest bucket rate : Nat} (small : rate < 2 ^ 32) :
    (4 * rate < 2 ^ 64 ∧ 4 * rate * NANOS_PER_SEC < 2 ^ 64 ∧ perSec < 2 ^ 64 ∧ perSec * NANOS_PER_SEC < 2 ^ 64 ∧
      rest < 2 ^ 64 ∧ perSec * NANOS_PER_SEC + rest < 2 ^ 64 ∧ bucket + (perSec * NANOS_PER_SEC + rest) < 2 ^ 64 ∧ p) ↔
    bucket + (perSec * NANOS_PER_SEC + rest) < 2 ^ 64 ∧ p := by
  simp only [NANOS_PER_SEC]
  constructor
  · rintro ⟨_, _, _, _, _, _, total, mark⟩
    exact ⟨total, mark⟩
  · rintro ⟨total, mark⟩
    exact ⟨by omega, by omega, by omega, by omega, by omega, by omega, total, mark⟩

/-- Nothing overflows unless the bucket does before it is capped, or the capacity when the mark is taken from it. -/
theorem checked_isSome_iff (m : LoadMonitor) (now : Instant) : (m.checked now).isSome ↔
    m.bucket.toNat + m.freq.toNat * (now - m.lastCheck) < 2 ^ 64 ∧
      (if m.underLoad then 7 else 3) * (cap m.freq).toNat < 2 ^ 64 := by
  rw [toNat_cap, ← Nat.mul_assoc 4, freq_mul_passed]
  cases loaded : m.underLoad <;>
    simp only [checked, toNat_ratio, loaded, Option.bind_eq_bind, isSome_u64_bind, if_true, if_false, Bool.false_eq_true,
      Option.bind_map, Function.comp_apply, Option.isSome_some, and_true, total_fits_iff m.freq.isLt]

theorem toNat_refilled {m : LoadMonitor} (fits : m.bucket.toNat + m.freq.toNat * (now - m.lastCheck) < 2 ^ 64) :
    (refilled m now).toNat = min (cap m.freq).toNat (m.bucket.toNat + m.freq.toNat * (now - m.lastCheck)) := by
  have total : (m.bucket + bucketAdd m.freq (now - m.lastCheck)).toNat =
      m.bucket.toNat + m.freq.toNat * (now - m.lastCheck) := by
    rw [bucketAdd_eq, BitVec.toNat_add, BitVec.toNat_ofNat, Nat.add_mod_mod, Nat.mod_eq_of_lt fits]
  unfold refilled
  simp only [BitVec.lt_def, total]
  split <;> omega

theorem check_snd (m : LoadMonitor) (now : Instant) : (m.check now).2 =
    ⟨m.freq, if refilled m now ≥ nanosPerSec then refilled m now - nanosPerSec else 0, now, (m.check now).1⟩ := rfl

theorem check_bucket (m : LoadMonitor) (now : Instant) :
    (m.check now).2.bucket.toNat = (refilled m now).toNat - NANOS_PER_SEC := by
  rw [check_snd]
  dsimp only
  split
  case isTrue enough =>
    rw [BitVec.toNat_sub_of_le enough, toNat_nanosPerSec]
  case isFalse less =>
    rw [ge_iff_le, BitVec.le_def, toNat_nanosPerSec] at less
    simp
    omega

theorem toNat_mark (times parts : BitVec 64) {freq : BitVec 32} (fits : times.toNat * (cap freq).toNat < 2 ^ 64) :
    (times * cap freq / parts).toNat = times.toNat * (cap freq).toNat / parts.toNat := by
  rw [BitVec.toNat_udiv, BitVec.toNat_mul, Nat.mod_eq_of_lt fits]

/-- The answer where nothing overflows: the marks are at three quarters and at seven eighths of the capacity. -/
theorem check_answer {m : LoadMonitor} (fits : (m.checked now).isSome) : (m.check now).1 =
    if m.underLoad then decide (2 * (m.check now).2.bucket.toNat < 7 * (m.freq.toNat * NANOS_PER_SEC))
    else decide ((m.check now).2.bucket.toNat ≤ 3 * (m.freq.toNat * NANOS_PER_SEC)) := by
  have answered : (m.check now).1 = if m.underLoad then !decide ((m.check now).2.bucket ≥ 7 * cap m.freq / 8)
      else decide ((m.check now).2.bucket ≤ 3 * cap m.freq / 4) := rfl
  have mark := ((checked_isSome_iff m now).mp fits).2
  rw [answered]
  generalize (m.check now).2.bucket = bucket
  cases loaded : m.underLoad with
  | true =>
    have small : (7 : BitVec 64).toNat * (cap m.freq).toNat < 2 ^ 64 := by simpa [loaded] using mark
    have high := toNat_mark 7 8 small
    have seven : (7 : BitVec 64).toNat = 7 := by simp
    have eight : (8 : BitVec 64).toNat = 8 := by simp
    rw [if_pos rfl, if_pos rfl, ← decide_not]
    apply decide_eq_decide.mpr
    rw [ge_iff_le, BitVec.le_def, high, toNat_cap, seven, eight, NANOS_PER_SEC]
    omega
  | false =>
    have small : (3 : BitVec 64).toNat * (cap m.freq).toNat < 2 ^ 64 := by simpa [loaded] using mark
    have low := toNat_mark 3 4 small
    have three : (3 : BitVec 64).toNat = 3 := by simp
    have four : (4 : BitVec 64).toNat = 4 := by simp
    rw [if_neg (by decide), if_neg (by decide)]
    apply decide_eq_decide.mpr
    rw [BitVec.le_def, low, toNat_cap, three, four]
    omega

@[simp] theorem check_freq (m : LoadMonitor) (now : Instant) : (m.check now).2.freq = m.freq := by
  rw [check_snd]

@[simp] theorem check_lastCheck (m : LoadMonitor) (now : Instant) : (m.check now).2.lastCheck = now := by
  rw [check_snd]

@[simp] theorem check_underLoad (m : LoadMonitor) (now : Instant) : (m.check now).2.underLoad = (m.check now).1 := by
  rw [check_snd]

/-! ### A run of checks -/

@[simp] theorem after_freq (freq : BitVec 32) (t : Nat → Instant) (n : Nat) : (after freq t n).freq = freq := by
  induction n with
  | zero => rfl
  | succ n ih => rw [after, check_freq, ih]

@[simp] theorem after_lastCheck (freq : BitVec 32) (t : Nat → Instant) (n : Nat) :
    (after freq t n).lastCheck = t n := by
  cases n with
  | zero => rfl
  | succ n => rw [after, check_lastCheck]

@[simp] theorem after_underLoad (freq : BitVec 32) (t : Nat → Instant) (n : Nat) :
    (after freq t n).underLoad = answer freq t n := by
  cases n with
  | zero => rfl
  | succ n => rw [after, check_underLoad, answer]

def level (freq : BitVec 32) (t : Nat → Instant) : Nat → Int :=
  TokenBucket.level (4 * (freq.toNat * NANOS_PER_SEC)) NANOS_PER_SEC fun k => freq.toNat * t k

theorem Fits.of_le {freq : BitVec 32} (fits : Fits freq t n) (less : k ≤ n) : Fits freq t k := by
  intro i before
  exact fits i (before.trans_le less)

theorem cast_charge (filled charge : Nat) : ((filled - charge : Nat) : Int) = max (filled - charge : Int) 0 := by
  omega

/-- While nothing overflows, the bucket of the monitor is a token bucket. -/
theorem bucket_eq_level {freq : BitVec 32} (ordered : Monotone t) (fits : Fits freq t n) :
    ((after freq t n).bucket.toNat : Int) = level freq t n := by
  induction n with
  | zero =>
    have full : (after freq t 0).bucket = cap freq := rfl
    rw [full, toNat_cap]
    push_cast
    rfl
  | succ n ih =>
    have before := ih (fits.of_le (Nat.le_succ n))
    have later : t n ≤ t (n + 1) := ordered (Nat.le_succ n)
    have room := ((checked_isSome_iff _ _).mp (fits n (Nat.lt_succ_self n))).1
    rw [after, check_bucket, toNat_refilled room, after_freq, after_lastCheck, toNat_cap, level, TokenBucket.level,
      ← level, ← before]
    have worth : (freq.toNat : Int) * t (n + 1) - freq.toNat * t n = (freq.toNat * (t (n + 1) - t n) : Nat) := by
      rw [Nat.cast_mul, Nat.cast_sub later]
      ring
    have full : 4 * ((freq.toNat : Int) * NANOS_PER_SEC) = (4 * (freq.toNat * NANOS_PER_SEC) : Nat) := by
      push_cast
      rfl
    rw [worth, full, ← Nat.cast_add, ← Nat.cast_min, cast_charge]

def burst (freq : BitVec 32) : Int := freq.toNat * NANOS_PER_SEC

theorem answer_succ {freq : BitVec 32} (ordered : Monotone t) (fits : Fits freq t (n + 1)) : answer freq t (n + 1) =
    if answer freq t n then decide (2 * level freq t (n + 1) < 7 * burst freq)
    else decide (level freq t (n + 1) ≤ 3 * burst freq) := by
  have bucket := bucket_eq_level ordered fits
  rw [answer, check_answer (fits n (Nat.lt_succ_self n)), ← bucket, after_underLoad, after_freq, after, burst]
  norm_cast

theorem burst_pos {freq : BitVec 32} (rate : 2 ≤ freq.toNat) : 2 * NANOS_PER_SEC ≤ burst freq := by
  have := Int.mul_le_mul_of_nonneg_right (Int.ofNat_le.mpr rate) (Int.natCast_nonneg NANOS_PER_SEC)
  simpa [burst] using this

theorem quiet_iff {freq : BitVec 32} (rate : 2 ≤ freq.toNat) (ordered : Monotone t) (fits : Fits freq t last)
    (n : Nat) (inside : n ≤ last + 1) :
    (∀ i < n, answer freq t i = false) ↔ ∀ i < n, 3 * burst freq < level freq t i := by
  induction n with
  | zero => simp
  | succ n ih =>
    rw [Nat.forall_lt_succ_right, Nat.forall_lt_succ_right, ih (by omega)]
    apply and_congr_right
    intro above
    have quiet := (ih (by omega)).mpr above
    cases n with
    | zero =>
      have full : level freq t 0 = 4 * burst freq := rfl
      have positive := burst_pos rate
      simp only [NANOS_PER_SEC] at positive
      simp only [answer, full, true_iff]
      omega
    | succ n =>
      rw [answer_succ ordered (fits.of_le (by omega)), quiet n (Nat.lt_succ_self n)]
      simp

theorem isLeast_iff {P : Nat → Prop} :
    IsLeast {k | k ≤ last ∧ P k} n ↔ n ≤ last ∧ P n ∧ ∀ i < n, ¬ P i := by
  constructor
  · rintro ⟨⟨inside, holds⟩, least⟩
    refine ⟨inside, holds, ?_⟩
    intro i before earlier
    exact absurd (least ⟨before.le.trans inside, earlier⟩) (Nat.not_le_of_lt before)
  · rintro ⟨inside, holds, first⟩
    refine ⟨⟨inside, holds⟩, ?_⟩
    rintro i ⟨_, earlier⟩
    by_contra before
    exact first i (Nat.lt_of_not_le before) earlier

/-- A duration in seconds. -/
def seconds (duration : Nat) : ℚ := duration / NANOS_PER_SEC

/-- Some window that ends with check `n` holds a second's worth of messages more than it should. -/
def Crowded (freq : BitVec 32) (t : Nat → Instant) (n : Nat) : Prop :=
  ∃ i, 1 ≤ i ∧ i ≤ n ∧ (freq.toNat : ℚ) ≤ (n - i + 1) - freq.toNat * seconds (t n - t i)

/-- How many of the first `last` checks are made from `a` to `b`. -/
def arrivals (t : Nat → Instant) (last : Nat) (a b : Instant) : Nat :=
  ((Finset.Icc 1 last).filter fun k => a ≤ t k ∧ t k ≤ b).card

/-- What is missing from the bucket of the monitor, if it never runs empty. -/
def deficit (freq : BitVec 32) (t : Nat → Instant) : Nat → Int :=
  TokenBucket.deficit NANOS_PER_SEC fun k => freq.toNat * t k

theorem inflow_monotone (freq : BitVec 32) {t : Nat → Instant} (ordered : Monotone t) :
    Monotone fun k => (freq.toNat : Int) * t k := by
  intro i j less
  exact Int.mul_le_mul_of_nonneg_left (Int.ofNat_le.mpr (ordered less)) (Int.natCast_nonneg _)

/-- The messages of a window against what it is worth, in seconds and scaled to match the timer's precision. -/
theorem window_iff {freq : BitVec 32} {t : Nat → Instant} {i n : Nat} (ordered : Monotone t) (inside : i ≤ n) :
    (freq.toNat : ℚ) ≤ (n - i + 1) - freq.toNat * seconds (t n - t i) ↔
      burst freq ≤ (n - i + 1) • (NANOS_PER_SEC : Int) - (freq.toNat * t n - freq.toNat * t i) := by
  have nanos : (0 : ℚ) < NANOS_PER_SEC := by norm_num [NANOS_PER_SEC]
  have scaled : ((n - i + 1 : ℚ) - freq.toNat * seconds (t n - t i)) * NANOS_PER_SEC =
      (((n - i + 1) • (NANOS_PER_SEC : Int) - (freq.toNat * t n - freq.toNat * t i) : Int) : ℚ) := by
    rw [seconds, Nat.cast_sub (ordered inside)]
    push_cast [nsmul_eq_mul, Nat.cast_sub inside]
    field_simp
  have target : (freq.toNat : ℚ) * NANOS_PER_SEC = ((burst freq : Int) : ℚ) := by
    simp [burst]
  rw [← mul_le_mul_iff_left₀ nanos, scaled, target, Int.cast_le]

theorem crowded_iff {freq : BitVec 32} (rate : 2 ≤ freq.toNat) (ordered : Monotone t) (n : Nat) :
    Crowded freq t n ↔ burst freq ≤ deficit freq t n := by
  cases n with
  | zero =>
    have positive := burst_pos rate
    have empty : deficit freq t 0 = 0 := rfl
    simp only [NANOS_PER_SEC] at positive
    rw [empty]
    constructor
    · rintro ⟨i, one, none, _⟩
      omega
    · intro few
      omega
  | succ n =>
    rw [deficit, TokenBucket.le_deficit_iff (inflow_monotone freq ordered)]
    apply exists_congr
    intro i
    apply and_congr_right
    intro _
    apply and_congr_right
    intro inside
    exact window_iff ordered inside

theorem answer_of_quiet {freq : BitVec 32} (rate : 2 ≤ freq.toNat) (ordered : Monotone t) (fits : Fits freq t last)
    (inside : n ≤ last) (quiet : ∀ i < n, answer freq t i = false) :
    answer freq t n = true ↔ level freq t n ≤ 3 * burst freq := by
  have until_now := quiet_iff rate ordered fits (n + 1) (by omega)
  rw [Nat.forall_lt_succ_right, Nat.forall_lt_succ_right, ← quiet_iff rate ordered fits n (by omega)] at until_now
  have now : answer freq t n = false ↔ 3 * burst freq < level freq t n := and_congr_right_iff.mp until_now quiet
  rw [← not_iff_not, Bool.not_eq_true, now, not_le]

/-- The first message that is flagged is the first to end a crowded window. -/
theorem flagged_first_iff {freq : BitVec 32} (rate : 2 ≤ freq.toNat) (ordered : Monotone t) (fits : Fits freq t last)
    (inside : n ≤ last) : (answer freq t n = true ∧ ∀ i < n, ¬answer freq t i = true) ↔
      Crowded freq t n ∧ ∀ i < n, ¬Crowded freq t i := by
  have positive := burst_pos rate
  have charge : (0 : Int) ≤ NANOS_PER_SEC := Int.natCast_nonneg _
  have room : burst freq + NANOS_PER_SEC ≤ 4 * burst freq := by omega
  have three : 4 * burst freq - burst freq = 3 * burst freq := by omega
  have first : (level freq t n ≤ 4 * burst freq - burst freq ∧ ∀ i < n, 4 * burst freq - burst freq < level freq t i) ↔
      burst freq ≤ deficit freq t n ∧ ∀ i < n, deficit freq t i < burst freq :=
    TokenBucket.first_mark_iff (by omega) room charge (inflow_monotone freq ordered) n
  rw [three] at first
  simp only [crowded_iff rate ordered, not_le, Bool.not_eq_true]
  rw [← first]
  constructor
  · rintro ⟨flagged, quiet⟩
    exact ⟨(answer_of_quiet rate ordered fits inside quiet).mp flagged,
      (quiet_iff rate ordered fits n (by omega)).mp quiet⟩
  · rintro ⟨low, above⟩
    have quiet := (quiet_iff rate ordered fits n (by omega)).mpr above
    exact ⟨(answer_of_quiet rate ordered fits inside quiet).mpr low, quiet⟩

theorem arrivals_of_crowded {freq : BitVec 32} (ordered : Monotone t) (inside : n ≤ last) (crowded : Crowded freq t n) :
    ∃ a d, (freq.toNat : ℚ) + freq.toNat * seconds d ≤ arrivals t last a (a + d) := by
  obtain ⟨i, one, before, many⟩ := crowded
  refine ⟨t i, t n - t i, ?_⟩
  have window : Finset.Icc i n ⊆ (Finset.Icc 1 last).filter fun k => t i ≤ t k ∧ t k ≤ t i + (t n - t i) := by
    intro k member
    have later := ordered before
    obtain ⟨low, high⟩ := Finset.mem_Icc.mp member
    rw [Finset.mem_filter, Finset.mem_Icc, Nat.add_sub_cancel' later]
    exact ⟨⟨by omega, by omega⟩, ordered low, ordered high⟩
  have counted : ((n - i + 1 : Nat) : ℚ) ≤ arrivals t last (t i) (t i + (t n - t i)) := by
    have card := Finset.card_le_card window
    rw [Nat.card_Icc] at card
    apply Nat.cast_le.mpr
    exact le_trans (by omega) card
  rw [Nat.cast_add, Nat.cast_sub before, Nat.cast_one] at counted
  linarith

theorem recovery_iff {freq : BitVec 32} (ordered : Monotone t) (fits : Fits freq t (n + 1))
    (loaded : answer freq t n = true) :
    answer freq t (n + 1) = false ↔ 7 / 8 * ((cap freq).toNat : ℚ) ≤ (after freq t (n + 1)).bucket.toNat := by
  have bucket : (((after freq t (n + 1)).bucket.toNat : Int) : ℚ) = level freq t (n + 1) :=
    congrArg Int.cast (bucket_eq_level ordered fits)
  have capacity : ((cap freq).toNat : ℚ) = 4 * burst freq := by
    rw [toNat_cap, burst]
    push_cast
    rfl
  have low : answer freq t (n + 1) = false ↔ 7 * burst freq ≤ 2 * level freq t (n + 1) := by
    rw [answer_succ ordered fits, loaded, if_pos rfl, decide_eq_false_iff_not, not_lt]
  rw [Int.cast_natCast] at bucket
  rw [low, capacity, bucket]
  constructor
  · intro enough
    have exact : (7 * burst freq : ℚ) ≤ 2 * level freq t (n + 1) := by exact_mod_cast enough
    linarith
  · intro enough
    have exact : (7 * burst freq : ℚ) ≤ 2 * level freq t (n + 1) := by linarith
    exact_mod_cast exact

theorem answer_of_gap {freq : BitVec 32} (rate : 2 ≤ freq.toNat) (ordered : Monotone t) (fits : Fits freq t (n + 1))
    (gap : 7 / 2 + 1 / (freq.toNat : ℚ) ≤ seconds (t (n + 1) - t n)) : answer freq t (n + 1) = false := by
  have positive := burst_pos rate
  have later : t n ≤ t (n + 1) := ordered (Nat.le_succ n)
  have worth : (7 * burst freq + 2 * NANOS_PER_SEC : Int) ≤ 2 * (freq.toNat * t (n + 1) - freq.toNat * t n) := by
    have some_rate : (0 : ℚ) < freq.toNat := by
      apply Nat.cast_pos.mpr
      omega
    have nanos : (0 : ℚ) < NANOS_PER_SEC := by norm_num [NANOS_PER_SEC]
    rw [seconds, le_div_iff₀ nanos, Nat.cast_sub later] at gap
    have scaled := mul_le_mul_of_nonneg_left gap some_rate.le
    have cleared : (freq.toNat : ℚ) * ((7 / 2 + 1 / (freq.toNat : ℚ)) * NANOS_PER_SEC) =
        7 / 2 * (freq.toNat * NANOS_PER_SEC) + NANOS_PER_SEC := by
      field_simp
    rw [cleared] at scaled
    have rational : (7 * (freq.toNat * NANOS_PER_SEC) + 2 * NANOS_PER_SEC : ℚ) ≤
        2 * (freq.toNat * t (n + 1) - freq.toNat * t n) := by
      linarith
    rw [burst]
    exact_mod_cast rational
  have half : 2 * (7 * (freq.toNat * 500000000) : Int) = 7 * burst freq := by
    simp only [burst, NANOS_PER_SEC]
    omega
  have room : (7 * (freq.toNat * 500000000) : Int) + NANOS_PER_SEC ≤ 4 * burst freq := by
    omega
  have nonneg : 0 ≤ 4 * burst freq := by omega
  have before : 0 ≤ level freq t n := TokenBucket.level_nonneg nonneg n
  have refill : (7 * (freq.toNat * 500000000) : Int) + NANOS_PER_SEC ≤ freq.toNat * t (n + 1) - freq.toNat * t n := by
    omega
  have enough : (7 * (freq.toNat * 500000000) : Int) ≤ level freq t (n + 1) :=
    TokenBucket.le_level_of_refill room before refill
  rw [answer_succ ordered fits]
  split
  · rw [decide_eq_false_iff_not]
    omega
  · rw [decide_eq_false_iff_not]
    simp only [NANOS_PER_SEC] at positive
    omega

/-- Two conditions that agree right after a point where the first has not held since `m` are first met together. -/
theorem first_after_iff {A B : Nat → Prop} (start : ¬A m)
    (step : ∀ k, m ≤ k → k < last → ¬A k → (A (k + 1) ↔ B (k + 1))) (n : Nat) :
    IsLeast {k | k ≤ last ∧ m < k ∧ A k} n ↔ IsLeast {k | k ≤ last ∧ m < k ∧ B k} n := by
  have here (k : Nat) (within : k ≤ last) (quiet : ∀ i < k, ¬(m < i ∧ A i)) : m < k ∧ A k ↔ m < k ∧ B k := by
    apply and_congr_right
    intro since
    obtain ⟨j, rfl⟩ : ∃ j, k = j + 1 := ⟨k - 1, by omega⟩
    have before : ¬A j := by
      obtain rfl | since : m = j ∨ m < j := by omega
      · exact start
      · exact fun holds => quiet j (Nat.lt_succ_self j) ⟨since, holds⟩
    exact step j (by omega) (by omega) before
  have quiet_iff (k : Nat) (within : k ≤ last + 1) : (∀ i < k, ¬(m < i ∧ A i)) ↔ ∀ i < k, ¬(m < i ∧ B i) := by
    induction k with
    | zero => simp
    | succ k ih =>
      rw [Nat.forall_lt_succ_right, Nat.forall_lt_succ_right, ← ih (by omega)]
      apply and_congr_right
      intro quiet
      rw [here k (by omega) quiet]
  rw [isLeast_iff, isLeast_iff]
  apply and_congr_right
  intro inside
  rw [← quiet_iff n (by omega)]
  apply and_congr_left
  intro quiet
  exact here n inside quiet

/-- The monitor flags the first message that ends a crowded window, recovers once the bucket is
back at seven eighths, and its bucket stays between nothing and the capacity. -/
theorem answers_follow_traffic (freq : BitVec 32) (t : Nat → Instant) (last : Nat) (rate : 2 ≤ freq.toNat)
    (ordered : Monotone t) (fits : Fits freq t last) :
    (∀ n, IsLeast {k | k ≤ last ∧ answer freq t k = true} n ↔ IsLeast {k | k ≤ last ∧ Crowded freq t k} n) ∧
    ((∀ a d, (arrivals t last a (a + d) : ℚ) < freq.toNat + freq.toNat * seconds d) →
      ∀ n ≤ last, answer freq t n = false) ∧
    (∀ m ≤ last, answer freq t m = true → ∀ n,
      IsLeast {k | k ≤ last ∧ m < k ∧ answer freq t k = false} n ↔
        IsLeast {k | k ≤ last ∧ m < k ∧ 7 / 8 * ((cap freq).toNat : ℚ) ≤ (after freq t k).bucket.toNat} n) ∧
    (∀ n < last, 7 / 2 + 1 / (freq.toNat : ℚ) ≤ seconds (t (n + 1) - t n) → answer freq t (n + 1) = false) ∧
    (∀ n ≤ last, (after freq t n).bucket.toNat ≤ (cap freq).toNat) ∧
    ∀ n < last, ((after freq t (n + 1)).bucket.toNat : Int) =
      max (min ((cap freq).toNat : Int) ((after freq t n).bucket.toNat + freq.toNat * (t (n + 1) - t n : Nat)) -
        NANOS_PER_SEC) 0 := by
  have positive := burst_pos rate
  have nonneg : 0 ≤ 4 * burst freq := by omega
  have flagged_first (n : Nat) : IsLeast {k | k ≤ last ∧ answer freq t k = true} n ↔
      IsLeast {k | k ≤ last ∧ Crowded freq t k} n := by
    rw [isLeast_iff, isLeast_iff]
    apply and_congr_right
    intro inside
    exact flagged_first_iff rate ordered fits inside
  refine ⟨flagged_first, ?_, ?_, ?_, ?_, ?_⟩
  · intro sparse n inside
    by_contra flagged
    rw [Bool.not_eq_false] at flagged
    -- the first message flagged ends a crowded window, which holds too many arrivals
    have some_flagged : ∃ k, k ≤ last ∧ answer freq t k = true := ⟨n, inside, flagged⟩
    obtain ⟨first, least⟩ : ∃ first, IsLeast {k | k ≤ last ∧ answer freq t k = true} first :=
      ⟨Nat.find some_flagged, Nat.find_spec some_flagged, fun k earlier => Nat.find_min' some_flagged earlier⟩
    obtain ⟨within, crowded⟩ := ((flagged_first first).mp least).1
    obtain ⟨a, d, many⟩ := arrivals_of_crowded ordered within crowded
    exact absurd (sparse a d) (not_lt.mpr many)
  · intro m inside loaded n
    apply first_after_iff
    · rw [loaded]
      decide
    · intro k since before still
      rw [Bool.not_eq_false] at still
      exact recovery_iff ordered (fits.of_le before) still
  · intro n before gap
    exact answer_of_gap rate ordered (fits.of_le before) gap
  · intro n inside
    have most : level freq t n ≤ 4 * burst freq := TokenBucket.level_le_cap nonneg (Int.natCast_nonneg _) n
    rw [← bucket_eq_level ordered (fits.of_le inside)] at most
    rw [toNat_cap]
    unfold burst at most
    exact_mod_cast most
  · intro n before
    have room := ((checked_isSome_iff _ _).mp (fits n before)).1
    rw [after, check_bucket, toNat_refilled room, after_freq, after_lastCheck, cast_charge, Nat.cast_min,
      Nat.cast_add, Nat.cast_mul]

/-- Two messages a second are allowed: two at once are flagged, and five seconds later all is well. -/
theorem answers_follow_two_per_second :
    IsLeast {k | k ≤ 3 ∧ Crowded 2 (fun k => if k ≤ 2 then 0 else secs 5) k} 2 := by
  have ordered : Monotone fun k => if k ≤ 2 then (0 : Instant) else secs 5 := by
    intro i j less
    dsimp only
    split_ifs <;> first | exact le_rfl | exact Nat.zero_le _ | omega
  have fits : Fits 2 (fun k => if k ≤ 2 then 0 else secs 5) 3 := by
    unfold Fits
    decide +kernel
  apply ((answers_follow_traffic 2 _ 3 (by decide) ordered fits).1 2).mp
  rw [isLeast_iff]
  decide +kernel

/-- The products of the first `n` checks fit in u64; each is the largest of a chain of factors. -/
def ProductsFit (freq : BitVec 32) (t : Nat → Instant) (n : Nat) : Prop :=
  ∀ k < n, CAP_RATIO.toNat * freq.toNat * NANOS_PER_SEC < 2 ^ 64 ∧
    (t (k + 1) - t k) / NANOS_PER_SEC * freq.toNat * NANOS_PER_SEC < 2 ^ 64 ∧
    (t (k + 1) - t k) % NANOS_PER_SEC * freq.toNat < 2 ^ 64 ∧
    (if answer freq t k then 7 else 3) * (cap freq).toNat < 2 ^ 64

def distantMessages (k : Nat) : Instant := if k ≤ 1 then 0 else 73786972298838207

theorem distantMessages_monotone : Monotone distantMessages := by
  intro i j less
  unfold distantMessages
  split_ifs
  · exact le_rfl
  · exact Nat.zero_le _
  · omega
  · exact le_rfl

theorem not_crowded_of_few {freq : BitVec 32} {t : Nat → Instant} (few : n < freq.toNat) : ¬Crowded freq t n := by
  rintro ⟨i, one, inside, many⟩
  have passed : 0 ≤ (freq.toNat : ℚ) * seconds (t n - t i) := by
    unfold seconds
    positivity
  have counted : (n : ℚ) < freq.toNat := Nat.cast_lt.mpr few
  have first : (1 : ℚ) ≤ i := Nat.one_le_cast.mpr one
  linarith

/-- The products alone may fit: the refill after a long pause does, but not its sum with the bucket,
which wraps around, and a lone message is flagged. -/
theorem lone_message_flagged : ¬∀ (freq : BitVec 32) (t : Nat → Instant) (last : Nat), 2 ≤ freq.toNat →
    Monotone t → ProductsFit freq t last →
    ∀ n, IsLeast {k | k ≤ last ∧ answer freq t k = true} n ↔ IsLeast {k | k ≤ last ∧ Crowded freq t k} n := by
  intro exact
  have fit : ProductsFit 250 distantMessages 2 := by
    unfold ProductsFit
    decide +kernel
  have flagged : IsLeast {k | k ≤ 2 ∧ answer 250 distantMessages k = true} 2 := by
    rw [isLeast_iff]
    decide +kernel
  have crowded := ((exact 250 distantMessages 2 (by decide) distantMessages_monotone fit 2).mp flagged).1.2
  exact not_crowded_of_few (by decide) crowded

/-! ### How long the monitor may be left alone -/

/-- The next check is exact unless the monitor has been left alone for too long. -/
theorem refill_exact_iff (t : Nat → Instant) (n : Nat) (now : Instant) :
    (((after HANDSHAKES_PER_SEC t n).checked now).isSome ∧ (refilled (after HANDSHAKES_PER_SEC t n) now).toNat =
      min (cap HANDSHAKES_PER_SEC).toNat
        ((after HANDSHAKES_PER_SEC t n).bucket.toNat + (now - t n) * HANDSHAKES_PER_SEC.toNat)) ↔
    (after HANDSHAKES_PER_SEC t n).bucket.toNat + (now - t n) * HANDSHAKES_PER_SEC.toNat < 2 ^ 64 := by
  have mark : (if (after HANDSHAKES_PER_SEC t n).underLoad then 7 else 3) * (cap HANDSHAKES_PER_SEC).toNat < 2 ^ 64 := by
    have capacity : (cap HANDSHAKES_PER_SEC).toNat = 1000000000000 := by decide
    rw [capacity]
    split <;> omega
  have fits_iff := checked_isSome_iff (after HANDSHAKES_PER_SEC t n) now
  have exact := @toNat_refilled now (after HANDSHAKES_PER_SEC t n)
  rw [after_freq, after_lastCheck, Nat.mul_comm HANDSHAKES_PER_SEC.toNat] at fits_iff exact
  constructor
  · rintro ⟨fits, _⟩
    exact (fits_iff.mp fits).1
  · intro room
    exact ⟨fits_iff.mpr ⟨room, mark⟩, exact room⟩

/-- After the 73786976294838207 ns from its first check to the next, the bucket of a monitor wraps around. -/
theorem idle_monitor_overflows : ¬∀ (t : Nat → Instant) (n : Nat) (now : Instant), Monotone t → t n ≤ now →
    ((after HANDSHAKES_PER_SEC t n).checked now).isSome ∧ (refilled (after HANDSHAKES_PER_SEC t n) now).toNat =
      min (cap HANDSHAKES_PER_SEC).toNat
        ((after HANDSHAKES_PER_SEC t n).bucket.toNat + (now - t n) * HANDSHAKES_PER_SEC.toNat) := by
  intro exact
  have idle := exact (fun _ => 0) 1 73786976294838207 monotone_const (Nat.zero_le _)
  revert idle
  decide +kernel

end LoadMonitor

end Titun
