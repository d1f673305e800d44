import Titun.Types
import Titun.Lib.Gaps

/-! The addresses that DNS traffic is blocked to, which are all but the configured servers. -/
namespace Titun

local instance bitVecLinearOrder : LinearOrder (BitVec n) where
  le_refl a := BitVec.le_refl a
  le_trans a b c := BitVec.le_trans
  lt_iff_le_not_ge a b := by
    simp only [BitVec.le_def, BitVec.lt_def]
    omega
  le_antisymm a b := BitVec.le_antisymm
  le_total a b := by
    simp only [BitVec.le_def]
    omega
  toDecidableLE := inferInstance

local instance bitVecOrderTop : OrderTop (BitVec n) where
  top := BitVec.allOnes n
  le_top a := by
    rw [BitVec.le_def, BitVec.toNat_allOnes]
    exact Nat.le_pred_of_lt a.isLt

def checkedSub (a b : BitVec n) : Option (BitVec n) := if b ≤ a then some (a - b) else none

def checkedAdd (a b : BitVec n) : Option (BitVec n) := if a.toNat + b.toNat < 2 ^ n then some (a + b) else none

/-- The loop of `get_block_ranges_v4` and of `get_block_ranges_v6`, for addresses of `n` bits. -/
def blockRangesFrom (wrap : BitVec n → IpAddr) (result : List (IpAddr × IpAddr)) (previous : BitVec n) :
    List (BitVec n) → Option (List (IpAddr × IpAddr))
  | [] => some (result ++ [(wrap previous, wrap (BitVec.allOnes n))])
  | server :: servers => do
    let result ←
      if previous < server then
        (checkedSub server 1).map fun last => result ++ [(wrap previous, wrap last)]
      else some result
    if server = BitVec.allOnes n then some result
    else do
      let previous ← checkedAdd server 1
      blockRangesFrom wrap result previous servers

def getBlockRangesV4 (dnsServers : List (BitVec 32)) : Option (List (IpAddr × IpAddr)) :=
  blockRangesFrom .v4 [] 0 dnsServers

def getBlockRangesV6 (dnsServers : List (BitVec 128)) : Option (List (IpAddr × IpAddr)) :=
  blockRangesFrom .v6 [] 0 dnsServers

def addrV4 : IpAddr → Option (BitVec 32)
  | .v4 a => some a
  | .v6 _ => none

def addrV6 : IpAddr → Option (BitVec 128)
  | .v4 _ => none
  | .v6 a => some a

def dnsServersV4 (dns : List IpAddr) : List (BitVec 32) :=
  Gaps.dedup ((dns.filterMap addrV4).mergeSort (· ≤ ·))

def dnsServersV6 (dns : List IpAddr) : List (BitVec 128) :=
  Gaps.dedup ((dns.filterMap addrV6).mergeSort (· ≤ ·))

/-- The ranges that `network_config` blocks, once there is a server. -/
def blockedRanges (dns : List IpAddr) : Option (List (IpAddr × IpAddr)) := do
  let rangesV4 ← getBlockRangesV4 (dnsServersV4 dns)
  let rangesV6 ← getBlockRangesV6 (dnsServersV6 dns)
  some (rangesV4 ++ rangesV6)

/-- A list of increasing, non-empty ranges, which hold every address but those of the servers. -/
structure LeavesOut (servers : List (BitVec n)) (ranges : List (BitVec n × BitVec n)) : Prop where
  nonempty : ∀ range ∈ ranges, range.1 ≤ range.2
  increasing : ranges.Pairwise fun a b => a.2 < b.1
  covers : ∀ addr, (∃ range ∈ ranges, range.1 ≤ addr ∧ addr ≤ range.2) ↔ addr ∉ servers

/-- The address lies in the range. -/
def InRange (addr : IpAddr) : IpAddr × IpAddr → Prop
  | (.v4 first, .v4 last) => ∃ a, addr = .v4 a ∧ first ≤ a ∧ a ≤ last
  | (.v6 first, .v6 last) => ∃ a, addr = .v6 a ∧ first ≤ a ∧ a ≤ last
  | _ => False

theorem covBy_of_toNat {a b : BitVec n} (next : a.toNat + 1 = b.toNat) : a ⋖ b := by
  constructor
  · rw [BitVec.lt_def]
    omega
  · intro c
    simp only [BitVec.lt_def]
    omega

theorem checkedSub_one {a server : BitVec n} (less : a < server) :
    ∃ last, checkedSub server 1 = some last ∧ last ⋖ server := by
  have positive : 0 < server.toNat := Nat.zero_lt_of_lt (BitVec.lt_def.mp less)
  have one : (1 : BitVec n).toNat = 1 := by
    have small : 1 < 2 ^ n := by have := server.isLt; omega
    simp [Nat.mod_eq_of_lt small]
  have enough : 1 ≤ server := by
    rw [BitVec.le_def, one]
    exact positive
  refine ⟨server - 1, if_pos enough, covBy_of_toNat ?_⟩
  rw [BitVec.toNat_sub_of_le enough, one]
  omega

theorem checkedAdd_one {server : BitVec n} (less : server ≠ BitVec.allOnes n) :
    ∃ next, checkedAdd server 1 = some next ∧ server ⋖ next := by
  have below : server.toNat + 1 < 2 ^ n := by
    have different : server.toNat ≠ 2 ^ n - 1 := by
      rw [← BitVec.toNat_allOnes]
      exact fun same => less (BitVec.eq_of_toNat_eq same)
    have := server.isLt
    omega
  have one : (1 : BitVec n).toNat = 1 := by
    have small : 1 < 2 ^ n := by omega
    simp [Nat.mod_eq_of_lt small]
  rw [← one] at below
  refine ⟨server + 1, if_pos below, covBy_of_toNat ?_⟩
  rw [BitVec.toNat_add_of_lt below, one]

theorem blockRangesFrom_spec (wrap : BitVec n → IpAddr) (result : List (IpAddr × IpAddr)) (previous : BitVec n)
    (servers : List (BitVec n)) (from_previous : ∀ server ∈ servers, previous ≤ server)
    (sorted : servers.Pairwise (· < ·)) :
    ∃ ranges, blockRangesFrom wrap result previous servers =
        some (result ++ ranges.map fun range => (wrap range.1, wrap range.2)) ∧
      Gaps.Complement previous servers ranges := by
  induction servers generalizing result previous with
  | nil => exact ⟨[(previous, ⊤)], rfl, .nil previous⟩
  | cons server servers ih =>
    obtain ⟨larger, sorted⟩ := List.pairwise_cons.mp sorted
    have least : ∀ other ∈ server :: servers, server ≤ other := by
      intro other member
      obtain rfl | member := List.mem_cons.mp member
      · exact le_rfl
      · exact (larger other member).le
    -- what the loop adds once the gap before this server is closed
    have after (result : List (IpAddr × IpAddr)) : ∃ ranges,
        (if server = BitVec.allOnes n then some result
          else (checkedAdd server 1).bind fun previous => blockRangesFrom wrap result previous servers) =
          some (result ++ ranges.map fun range => (wrap range.1, wrap range.2)) ∧
        Gaps.Complement server (server :: servers) ranges := by
      split
      case isTrue top =>
        have none : servers = [] := by
          apply List.eq_nil_iff_forall_not_mem.mpr
          intro s member
          exact absurd (larger s member) (not_lt.mpr (top ▸ le_top))
        subst none top
        exact ⟨[], by simp, .top⟩
      case isFalse other =>
        obtain ⟨next, added, covers⟩ := checkedAdd_one other
        obtain ⟨ranges, rest, complement⟩ := ih result next (fun s member => covers.ge_of_gt (larger s member)) sorted
        exact ⟨ranges, by rw [added]; exact rest, complement.skip covers⟩
    obtain first | gap := (from_previous server List.mem_cons_self).eq_or_lt
    · obtain ⟨ranges, rest, complement⟩ := after result
      have closed : ¬previous < server := not_lt.mpr first.ge
      refine ⟨ranges, ?_, first ▸ complement⟩
      rw [blockRangesFrom, if_neg closed]
      exact rest
    · obtain ⟨last, subtracted, covers⟩ := checkedSub_one gap
      obtain ⟨ranges, rest, complement⟩ := after (result ++ [(wrap previous, wrap last)])
      refine ⟨(previous, last) :: ranges, ?_, complement.gap covers (covers.le_of_lt gap) least⟩
      rw [blockRangesFrom, if_pos gap, subtracted]
      rw [List.append_assoc] at rest
      exact rest

theorem blockRangesFrom_zero (wrap : BitVec n → IpAddr) {servers : List (BitVec n)} (sorted : servers.Pairwise (· < ·)) :
    ∃ ranges, blockRangesFrom wrap [] 0 servers = some (ranges.map fun range => (wrap range.1, wrap range.2)) ∧
      LeavesOut servers ranges := by
  have zero_le (addr : BitVec n) : 0 ≤ addr := by
    rw [BitVec.le_def]
    simp
  obtain ⟨ranges, result, complement⟩ := blockRangesFrom_spec wrap [] 0 servers (fun server _ => zero_le server) sorted
  refine ⟨ranges, result, complement.nonempty, complement.increasing, ?_⟩
  intro addr
  exact complement.covers addr (zero_le addr)

/-- The block ranges are the complement of the servers, and finding them neither underflows nor overflows. -/
theorem block_ranges_complement (serversV4 : List (BitVec 32)) (serversV6 : List (BitVec 128))
    (sortedV4 : serversV4.Pairwise (· < ·)) (sortedV6 : serversV6.Pairwise (· < ·)) :
    (∃ ranges, getBlockRangesV4 serversV4 = some (ranges.map fun range => (.v4 range.1, .v4 range.2)) ∧
      LeavesOut serversV4 ranges) ∧
    ∃ ranges, getBlockRangesV6 serversV6 = some (ranges.map fun range => (.v6 range.1, .v6 range.2)) ∧
      LeavesOut serversV6 ranges := by
  constructor
  · exact blockRangesFrom_zero .v4 sortedV4
  · exact blockRangesFrom_zero .v6 sortedV6

theorem block_ranges_complement_ends :
    (∃ ranges, getBlockRangesV4 [0, 1, 9] = some (ranges.map fun range => (.v4 range.1, .v4 range.2)) ∧
      LeavesOut [0, 1, 9] ranges) ∧
    ∃ ranges, getBlockRangesV6 [BitVec.allOnes 128] = some (ranges.map fun range => (.v6 range.1, .v6 range.2)) ∧
      LeavesOut [BitVec.allOnes 128] ranges :=
  block_ranges_complement [0, 1, 9] [BitVec.allOnes 128] (by decide) (by simp)

theorem sorted_dedup (addrs : List (BitVec n)) : (Gaps.dedup (addrs.mergeSort (· ≤ ·))).Pairwise (· < ·) := by
  apply Gaps.dedup_increasing
  have sorted : (addrs.mergeSort fun a b => decide (a ≤ b)).Pairwise fun a b => decide (a ≤ b) = true := by
    apply List.pairwise_mergeSort
    · simpa using fun a b c => le_trans
    · simpa using le_total
  simpa using sorted

theorem mem_dnsServersV4 (dns : List IpAddr) (addr : BitVec 32) : addr ∈ dnsServersV4 dns ↔ .v4 addr ∈ dns := by
  rw [dnsServersV4, Gaps.mem_dedup, List.mem_mergeSort, List.mem_filterMap]
  constructor
  · rintro ⟨server, member, same⟩
    cases server with
    | v4 a => exact Option.some.inj same ▸ member
    | v6 a => cases same
  · intro member
    exact ⟨.v4 addr, member, rfl⟩

theorem mem_dnsServersV6 (dns : List IpAddr) (addr : BitVec 128) : addr ∈ dnsServersV6 dns ↔ .v6 addr ∈ dns := by
  rw [dnsServersV6, Gaps.mem_dedup, List.mem_mergeSort, List.mem_filterMap]
  constructor
  · rintro ⟨server, member, same⟩
    cases server with
    | v4 a => cases same
    | v6 a => exact Option.some.inj same ▸ member
  · intro member
    exact ⟨.v6 addr, member, rfl⟩

/-- DNS traffic is blocked to exactly the addresses that are not configured. -/
theorem dns_blocked_iff (dns : List IpAddr) : ∃ ranges, blockedRanges dns = some ranges ∧
    ∀ addr, (∃ range ∈ ranges, InRange addr range) ↔ addr ∉ dns := by
  obtain ⟨rangesV4, resultV4, leftV4⟩ := blockRangesFrom_zero .v4 (sorted_dedup (dns.filterMap addrV4))
  obtain ⟨rangesV6, resultV6, leftV6⟩ := blockRangesFrom_zero .v6 (sorted_dedup (dns.filterMap addrV6))
  refine ⟨rangesV4.map (fun range => (.v4 range.1, .v4 range.2)) ++
    rangesV6.map (fun range => (.v6 range.1, .v6 range.2)), ?_, ?_⟩
  · rw [blockedRanges, getBlockRangesV4, getBlockRangesV6, dnsServersV4, dnsServersV6, resultV4, resultV6]
    rfl
  · intro addr
    cases addr with
    | v4 a =>
      rw [← mem_dnsServersV4, dnsServersV4, ← leftV4.covers a]
      simp [InRange, or_and_right, exists_or]
    | v6 a =>
      rw [← mem_dnsServersV6, dnsServersV6, ← leftV6.covers a]
      simp [InRange, or_and_right, exists_or]

end Titun
