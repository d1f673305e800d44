import Titun.WgState

/-! The routing tables as one map from prefixes to peers, and what the loops over allowed
IPs do to it. -/
namespace Titun

open PrefixMap PrefixBits

/-- The prefix length is valid for the address family. -/
def ValidIp (ip : AllowedIp) : Prop := ip.2 ≤ ip.1.width

def prefixOf (addr : IpAddr) (len : Nat) : AllowedIp := maskedIp (addr, len)

@[simp] theorem maskedIp_maskedIp (ip : AllowedIp) : maskedIp (maskedIp ip) = maskedIp ip := by
  obtain ⟨addr, len⟩ := ip
  cases addr <;> simp [maskedIp, masked_idem]

theorem maskedIp_valid {ip : AllowedIp} (valid : ValidIp ip) : ValidIp (maskedIp ip) := by
  obtain ⟨addr, len⟩ := ip
  cases addr <;> exact valid

namespace RoutingTables

/-- The peer that a masked prefix is routed to. -/
def get (rt : RoutingTables) : AllowedIp → Option PeerRef
  | (.v4 a, m) => rt.rt4.get ⟨a, m⟩
  | (.v6 a, m) => rt.rt6.get ⟨a, m⟩

structure Wf (rt : RoutingTables) : Prop where
  rt4 : rt.rt4.Wf
  rt6 : rt.rt6.Wf

theorem new_wf : new.Wf := ⟨IpLookupTable.new_wf, IpLookupTable.new_wf⟩

@[simp] theorem get_new (ip : AllowedIp) : new.get ip = none := by
  obtain ⟨addr, len⟩ := ip
  cases addr <;> rfl

theorem key_of_masked {a : BitVec w} (isMasked : masked a len = a) : Key.of a len = ⟨a, len⟩ := by
  rw [Key.of, ← masked_eq, isMasked]

/-- Inserting a masked prefix returns its old owner and rebinds nothing else. -/
theorem insert_spec {rt : RoutingTables} (wf : rt.Wf) {ip : AllowedIp} (valid : ValidIp ip)
    (isMasked : maskedIp ip = ip) (peer : PeerRef) :
    ∃ next, rt.insert ip peer = .ok (rt.get ip, next) ∧ next.Wf ∧
      next.get = Function.update rt.get ip (some peer) := by
  obtain ⟨addr, len⟩ := ip
  cases addr with
  | v4 a =>
    have key : Key.of a len = ⟨a, len⟩ := key_of_masked (IpAddr.v4.inj (congrArg Prod.fst isMasked))
    obtain ⟨rt4, ok, nextWf, nextGet⟩ := IpLookupTable.insert_spec wf.rt4 a valid peer
    refine ⟨{ rt with rt4 }, ?_, ⟨nextWf, wf.rt6⟩, ?_⟩
    · simp only [insert, ok, key, ok_bind, pure_eq_ok, get]
    · funext ip
      obtain ⟨other, n⟩ := ip
      cases other with
      | v4 b =>
        simp only [get, nextGet, PrefixMap.insert, key, Function.update_apply, Key.mk.injEq,
          Prod.mk.injEq, IpAddr.v4.injEq]
      | v6 b => simp [get]
  | v6 a =>
    have key : Key.of a len = ⟨a, len⟩ := key_of_masked (IpAddr.v6.inj (congrArg Prod.fst isMasked))
    obtain ⟨rt6, ok, nextWf, nextGet⟩ := IpLookupTable.insert_spec wf.rt6 a valid peer
    refine ⟨{ rt with rt6 }, ?_, ⟨wf.rt4, nextWf⟩, ?_⟩
    · simp only [insert, ok, key, ok_bind, pure_eq_ok, get]
    · funext ip
      obtain ⟨other, n⟩ := ip
      cases other with
      | v4 b => simp [get]
      | v6 b =>
        simp only [get, nextGet, PrefixMap.insert, key, Function.update_apply, Key.mk.injEq,
          Prod.mk.injEq, IpAddr.v6.injEq]

theorem remove_spec {rt : RoutingTables} (wf : rt.Wf) {ip : AllowedIp} (valid : ValidIp ip)
    (isMasked : maskedIp ip = ip) :
    ∃ next, rt.remove ip = .ok next ∧ next.Wf ∧ next.get = Function.update rt.get ip none := by
  obtain ⟨addr, len⟩ := ip
  cases addr with
  | v4 a =>
    have key : Key.of a len = ⟨a, len⟩ := key_of_masked (IpAddr.v4.inj (congrArg Prod.fst isMasked))
    obtain ⟨rt4, ok, nextWf, nextGet⟩ := IpLookupTable.remove_spec wf.rt4 a valid
    refine ⟨{ rt with rt4 }, ?_, ⟨nextWf, wf.rt6⟩, ?_⟩
    · simp only [remove, ok, ok_bind, pure_eq_ok]
    · funext ip
      obtain ⟨other, n⟩ := ip
      cases other with
      | v4 b =>
        simp only [get, nextGet, PrefixMap.remove, key, Function.update_apply, Key.mk.injEq,
          Prod.mk.injEq, IpAddr.v4.injEq]
      | v6 b => simp [get]
  | v6 a =>
    have key : Key.of a len = ⟨a, len⟩ := key_of_masked (IpAddr.v6.inj (congrArg Prod.fst isMasked))
    obtain ⟨rt6, ok, nextWf, nextGet⟩ := IpLookupTable.remove_spec wf.rt6 a valid
    refine ⟨{ rt with rt6 }, ?_, ⟨wf.rt4, nextWf⟩, ?_⟩
    · simp only [remove, ok, ok_bind, pure_eq_ok]
    · funext ip
      obtain ⟨other, n⟩ := ip
      cases other with
      | v4 b => simp [get]
      | v6 b =>
        simp only [get, nextGet, PrefixMap.remove, key, Function.update_apply, Key.mk.injEq,
          Prod.mk.injEq, IpAddr.v6.injEq]

theorem longestMatch_eq_some {rt : RoutingTables} (wf : rt.Wf) {addr : IpAddr} :
    rt.longestMatch addr = some peer ↔ ∃ n ≤ addr.width, rt.get (prefixOf addr n) = some peer ∧
      ∀ k ≤ addr.width, n < k → rt.get (prefixOf addr k) = none := by
  cases addr with
  | v4 a =>
    simp only [longestMatch, IpLookupTable.longestMatch_spec wf.rt4, ← isLongest_iff, IsLongest,
      prefixOf, maskedIp, get, masked_eq, Key.of, IpAddr.width]
  | v6 a =>
    simp only [longestMatch, IpLookupTable.longestMatch_spec wf.rt6, ← isLongest_iff, IsLongest,
      prefixOf, maskedIp, get, masked_eq, Key.of, IpAddr.width]

/-- Prefixes of valid length with the remaining bits zeroed. -/
def Canonical (ips : List AllowedIp) : Prop := ∀ ip ∈ ips, ValidIp ip ∧ maskedIp ip = ip

theorem removeAll_spec {rt : RoutingTables} (wf : rt.Wf) (ips : List AllowedIp)
    (canonical : Canonical ips) :
    ∃ next, rt.removeAll ips = .ok next ∧ next.Wf ∧
      ∀ ip, next.get ip = if ip ∈ ips then none else rt.get ip := by
  induction ips generalizing rt with
  | nil => exact ⟨rt, rfl, wf, by simp⟩
  | cons head rest ih =>
    obtain ⟨valid, isMasked⟩ := canonical head List.mem_cons_self
    obtain ⟨one, ok, oneWf, oneGet⟩ := remove_spec wf valid isMasked
    obtain ⟨next, restOk, nextWf, nextGet⟩ :=
      ih oneWf fun ip member => canonical ip (List.mem_cons_of_mem _ member)
    refine ⟨next, by simp [removeAll, ok, restOk], nextWf, fun ip => ?_⟩
    rw [nextGet, oneGet]
    by_cases here : ip = head <;> simp [here]

/-- The old owners of prefixes, where there are any. -/
def owners (get : AllowedIp → Option PeerRef) (ips : List AllowedIp) : List (PeerRef × AllowedIp) :=
  ips.flatMap fun ip => ((get ip).map (·, ip)).toList

theorem mem_owners {get : AllowedIp → Option PeerRef} :
    (old, ip) ∈ owners get ips ↔ ip ∈ ips ∧ get ip = some old := by
  simp only [owners, List.mem_flatMap, Option.mem_toList, Option.map_eq_some_iff, Prod.mk.injEq]
  constructor
  · rintro ⟨_, member, _, owner, rfl, rfl⟩
    exact ⟨member, owner⟩
  · rintro ⟨member, owner⟩
    exact ⟨ip, member, old, owner, rfl, rfl⟩

theorem owners_congr {get get' : AllowedIp → Option PeerRef} {ips : List AllowedIp}
    (same : ∀ ip ∈ ips, get ip = get' ip) : owners get ips = owners get' ips := by
  simp only [owners]
  exact List.flatMap_congr fun ip member => by rw [same ip member]

theorem insertAll_spec {rt : RoutingTables} (wf : rt.Wf) (peer : PeerRef) (ips : List AllowedIp)
    (canonical : Canonical ips) (distinct : ips.Nodup) :
    ∃ next, rt.insertAll peer ips = .ok (owners rt.get ips, next) ∧ next.Wf ∧
      ∀ ip, next.get ip = if ip ∈ ips then some peer else rt.get ip := by
  induction ips generalizing rt with
  | nil => exact ⟨rt, rfl, wf, by simp⟩
  | cons head rest ih =>
    obtain ⟨valid, isMasked⟩ := canonical head List.mem_cons_self
    obtain ⟨fresh, distinct⟩ := List.nodup_cons.mp distinct
    obtain ⟨one, ok, oneWf, oneGet⟩ := insert_spec wf valid isMasked peer
    obtain ⟨next, restOk, nextWf, nextGet⟩ :=
      ih oneWf (fun ip member => canonical ip (List.mem_cons_of_mem _ member)) distinct
    have untouched : owners one.get rest = owners rt.get rest := owners_congr fun ip member => by
      rw [oneGet, Function.update_of_ne]
      rintro rfl
      exact fresh member
    refine ⟨next, ?_, nextWf, fun ip => ?_⟩
    · simp only [insertAll, ok, ok_bind, restOk, untouched]
      rfl
    · rw [nextGet, oneGet]
      by_cases here : ip = head <;> simp [here]

/-- Append mode inserts the prefixes that are not there yet, and adds all to the set. -/
theorem appendAll_eq (rt : RoutingTables) (peer : PeerRef) {ips : List AllowedIp}
    (distinct : ips.Nodup) (allowedIps : Finset AllowedIp) :
    rt.appendAll peer allowedIps ips =
      (rt.insertAll peer (ips.filter (· ∉ allowedIps))).map
        fun r => (r.1, r.2, allowedIps ∪ ips.toFinset) := by
  induction ips generalizing rt allowedIps with
  | nil => simp [appendAll, insertAll, Except.map]
  | cons head rest ih =>
    obtain ⟨fresh, distinct⟩ := List.nodup_cons.mp distinct
    by_cases known : head ∈ allowedIps
    · have same : allowedIps ∪ (head :: rest).toFinset = allowedIps ∪ rest.toFinset := by
        rw [List.toFinset_cons, Finset.union_insert, Finset.insert_eq_self.mpr]
        exact Finset.mem_union_left _ known
      simp only [appendAll, known, if_true, ih _ distinct, same, not_true, decide_false,
        List.filter_cons, Bool.false_eq_true, if_false]
    · have others : rest.filter (· ∉ Insert.insert head allowedIps) = rest.filter (· ∉ allowedIps) :=
        List.filter_congr fun ip member => by
          have apart : ip ≠ head := fun same => fresh (same ▸ member)
          simp [apart]
      have same : Insert.insert head allowedIps ∪ rest.toFinset = allowedIps ∪ (head :: rest).toFinset := by
        rw [List.toFinset_cons, Finset.union_insert, Finset.insert_union]
      simp only [appendAll, known, if_false, not_false_eq_true, decide_true, List.filter_cons, if_true,
        insertAll, ih _ distinct, others, same]
      cases rt.insert head peer with
      | error e => rfl
      | ok r =>
        simp only [ok_bind]
        cases r.2.insertAll peer (rest.filter (· ∉ allowedIps)) <;> rfl

theorem owners_nodup (get : AllowedIp → Option PeerRef) {ips : List AllowedIp}
    (distinct : ips.Nodup) : ((owners get ips).map Prod.snd).Nodup := by
  suffices sublist : ((owners get ips).map Prod.snd).Sublist ips from sublist.nodup distinct
  clear distinct
  induction ips with
  | nil => exact List.Sublist.refl _
  | cons head rest ih =>
    simp only [owners, List.flatMap_cons, List.map_append] at ih ⊢
    cases get head with
    | none => exact .cons _ ih
    | some owner => exact .cons_cons _ ih

end RoutingTables

open RoutingTables

theorem canonical_iterAllowedIps {s : Finset AllowedIp} :
    Canonical (iterAllowedIps s) ↔ ∀ ip ∈ s, ValidIp ip ∧ maskedIp ip = ip := by
  simp [Canonical]

/-- In both modes the peer gets what is new to it; in replace mode it also loses what the
command leaves out. -/
theorem WgState.setRoutes_spec {rt : RoutingTables} (wf : rt.Wf) (peer0 : PeerRef)
    {old new : Finset AllowedIp} (oldCanonical : ∀ ip ∈ old, ValidIp ip ∧ maskedIp ip = ip)
    (newCanonical : ∀ ip ∈ new, ValidIp ip ∧ maskedIp ip = ip) (replace : Bool) :
    ∃ displaced next, setRoutes rt peer0 old new replace =
        .ok (displaced, next, if replace then new else old ∪ new) ∧ next.Wf ∧
      (∀ owner ip, (owner, ip) ∈ displaced ↔ ip ∈ new ∧ ip ∉ old ∧ rt.get ip = some owner) ∧
      (displaced.map Prod.snd).Nodup ∧
      ∀ ip, next.get ip = if ip ∈ new ∧ ip ∉ old then some peer0
        else if replace ∧ ip ∈ old ∧ ip ∉ new then none else rt.get ip := by
  cases replace with
  | true =>
    obtain ⟨one, removed, oneWf, oneGet⟩ := removeAll_spec wf (iterAllowedIps (old \ new))
      (canonical_iterAllowedIps.mpr fun ip member => oldCanonical ip (Finset.mem_sdiff.mp member).1)
    obtain ⟨next, inserted, nextWf, nextGet⟩ :=
      insertAll_spec oneWf peer0 (iterAllowedIps (new \ old))
        (canonical_iterAllowedIps.mpr fun ip member => newCanonical ip (Finset.mem_sdiff.mp member).1)
        (iterAllowedIps_nodup _)
    refine ⟨owners one.get (iterAllowedIps (new \ old)), next, by simp [setRoutes, removed, inserted],
      nextWf, fun owner ip => ?_, owners_nodup _ (iterAllowedIps_nodup _), fun ip => ?_⟩
    · simp only [mem_owners, mem_iterAllowedIps, Finset.mem_sdiff, oneGet]
      constructor
      · rintro ⟨⟨inNew, notOld⟩, owned⟩
        exact ⟨inNew, notOld, by simpa [notOld] using owned⟩
      · rintro ⟨inNew, notOld, owned⟩
        exact ⟨⟨inNew, notOld⟩, by simpa [notOld] using owned⟩
    · simp only [nextGet, oneGet, mem_iterAllowedIps, Finset.mem_sdiff, true_and]
  | false =>
    obtain ⟨next, inserted, nextWf, nextGet⟩ :=
      insertAll_spec wf peer0 ((iterAllowedIps new).filter (· ∉ old))
        (fun ip member => newCanonical ip (mem_iterAllowedIps.mp (List.mem_of_mem_filter member)))
        ((iterAllowedIps_nodup _).filter _)
    refine ⟨owners rt.get ((iterAllowedIps new).filter (· ∉ old)), next, ?_, nextWf,
      fun owner ip => ?_,
      owners_nodup _ ((iterAllowedIps_nodup _).filter _), fun ip => ?_⟩
    · have whole : (iterAllowedIps new).toFinset = new := by
        ext ip
        simp
      simp only [setRoutes, Bool.false_eq_true, if_false, appendAll_eq _ _ (iterAllowedIps_nodup _),
        inserted, Except.map, whole]
    · simp [mem_owners, and_assoc]
    · simp [nextGet]

def PeerState.withAllowedIps {HS : Type} (p : PeerState HS) (allowedIps : Finset AllowedIp) :
    PeerState HS := { p with info := { p.info with allowedIps } }

/-- Every displaced prefix is taken from its old owner, and nothing else changes. -/
theorem WgState.dropDisplaced_spec {HS : Type} (peer0 : PeerRef) (peers : PeerRef → PeerState HS)
    {displaced : List (PeerRef × AllowedIp)} (distinct : (displaced.map Prod.snd).Nodup)
    (others : ∀ x ∈ displaced, x.1 ≠ peer0)
    (owned : ∀ x ∈ displaced, x.2 ∈ (peers x.1).info.allowedIps) :
    dropDisplaced peer0 peers displaced = .ok fun ref =>
      (peers ref).withAllowedIps ((peers ref).info.allowedIps.filter fun ip => (ref, ip) ∉ displaced) := by
  induction displaced generalizing peers with
  | nil => simp [dropDisplaced, PeerState.withAllowedIps]
  | cons head rest ih =>
    obtain ⟨old, ip⟩ := head
    obtain ⟨fresh, distinct⟩ := List.nodup_cons.mp distinct
    have apart : old ≠ peer0 := others (old, ip) List.mem_cons_self
    have present : ip ∈ (peers old).info.allowedIps := owned (old, ip) List.mem_cons_self
    have kept : ∀ x ∈ rest, x.2 ∈ (Function.update peers old
        ((peers old).withAllowedIps ((peers old).info.allowedIps.erase ip)) x.1).info.allowedIps := by
      intro x member
      have other : x.2 ≠ ip := by
        rintro rfl
        exact fresh (List.mem_map.mpr ⟨x, member, rfl⟩)
      have before := owned x (List.mem_cons_of_mem _ member)
      by_cases here : x.1 = old
      · rw [here] at before ⊢
        rw [Function.update_self]
        exact Finset.mem_erase.mpr ⟨other, before⟩
      · rwa [Function.update_of_ne here]
    have step := ih _ distinct (fun x member => others x (List.mem_cons_of_mem _ member)) kept
    simp only [dropDisplaced, apart, if_false, present, decide_true, assert_true, ok_bind]
    refine step.trans (congrArg _ (funext fun ref => ?_))
    by_cases here : ref = old
    · subst here
      rw [Function.update_self]
      change (peers ref).withAllowedIps _ = (peers ref).withAllowedIps _
      congr 1
      ext other
      simp [PeerState.withAllowedIps]
      tauto
    · rw [Function.update_of_ne here]
      simp [here]

end Titun
