import Titun.Lib.Assignment
import Titun.Reload

/-! What lists of commands do to a state in which every prefix has an owner. -/
namespace Titun

open Assignment

/-- A command claims masked prefixes for its peer. -/
def SetPeerCommand.claim (command : SetPeerCommand) : Claim AllowedIp X25519Pubkey where
  owner := command.publicKey
  keys := command.allowedIps.image maskedIp
  replace := command.replaceAllowedIps

theorem Ownership.setPeer_eq {o : Ownership} {command : SetPeerCommand} (known : command.publicKey ∈ o.peers) :
    o.setPeer command = { o with own := give o.own command.claim } := if_pos known

namespace WgState

variable {HS : Type}

theorem setPeerInfo_withAllowedIps (env : Env) (p : PeerState HS) (ips : Finset AllowedIp)
    (command : SetPeerCommand) : (setPeerInfo env (p.withAllowedIps ips) command).2 =
      (setPeerInfo env p command).2.withAllowedIps ips := by
  have psk : (setPsk (p.withAllowedIps ips) command.presharedKey).2 =
      (setPsk p command.presharedKey).2.withAllowedIps ips := by
    have info : (p.withAllowedIps ips).info.psk = p.info.psk := rfl
    unfold setPsk
    rw [info]
    split_ifs <;> rfl
  have endpoint (p : PeerState HS) : pinEndpoint (p.withAllowedIps ips) command.endpoint =
      (pinEndpoint p command.endpoint).withAllowedIps ips := by
    cases command.endpoint <;> rfl
  have keepalive (p : PeerState HS) : setKeepalive (p.withAllowedIps ips) env.now command.keepalive =
      (setKeepalive p env.now command.keepalive).withAllowedIps ips := by
    cases command.keepalive with
    | none => rfl
    | some interval =>
      have info : (p.withAllowedIps ips).info.keepalive = p.info.keepalive := rfl
      unfold setKeepalive
      dsimp only
      rw [info]
      split_ifs <;> rfl
  simp only [setPeerInfo, psk, endpoint, keepalive]

/-- What a command leaves of a peer: an endpoint pins it, a changed pre-shared key clears it. -/
theorem setPeerInfo_info (env : Env) (p : PeerState HS) (command : SetPeerCommand) :
    (setPeerInfo env p command).2.info = { p.info with
      psk := command.presharedKey
      endpoint := command.endpoint.elim p.info.endpoint (some <| mapIpv4ToIpv6 ·)
      roaming := command.endpoint.isNone && p.info.roaming
      keepalive := command.keepalive.elim p.info.keepalive NonZeroU16.new } := by
  have psk : (setPsk p command.presharedKey).2.info = { p.info with psk := command.presharedKey } := by
    unfold setPsk
    split_ifs with changed
    · rfl
    · rw [← not_not.mp changed]
  have endpoint (p : PeerState HS) : (pinEndpoint p command.endpoint).info = { p.info with
      endpoint := command.endpoint.elim p.info.endpoint (some <| mapIpv4ToIpv6 ·)
      roaming := command.endpoint.isNone && p.info.roaming } := by
    cases command.endpoint <;> rfl
  have keepalive (p : PeerState HS) : (setKeepalive p env.now command.keepalive).info = { p.info with
      keepalive := command.keepalive.elim p.info.keepalive NonZeroU16.new } := by
    cases command.keepalive with
    | none => rfl
    | some interval =>
      by_cases changed : p.info.keepalive ≠ NonZeroU16.new interval
      · rw [setKeepalive, if_pos changed]
        rfl
      · rw [setKeepalive, if_neg changed, Option.elim_some, ← not_not.mp changed]
  simp only [setPeerInfo, keepalive, endpoint, psk]

theorem setPeerInfo_sessions (env : Env) {p : PeerState HS} {command : SetPeerCommand}
    (same : p.info.psk = command.presharedKey) :
    (setPeerInfo env p command).2.transports = p.transports ∧
      (setPeerInfo env p command).2.handshake = p.handshake := by
  obtain ⟨_, _, _, _, _, info, _⟩ := setPeerInfo_eq env p command
  have unchanged : setPsk p command.presharedKey = ([], p) := if_neg (not_not.mpr same)
  rw [info, unchanged]
  exact ⟨rfl, rfl⟩

def UpToIps (p q : PeerState HS) : Prop := ∃ ips, q = p.withAllowedIps ips

theorem UpToIps.refl (p : PeerState HS) : UpToIps p p := ⟨p.info.allowedIps, rfl⟩

theorem UpToIps.trans {p q r : PeerState HS} (first : UpToIps p q) (second : UpToIps q r) : UpToIps p r := by
  obtain ⟨_, rfl⟩ := first
  obtain ⟨ips, rfl⟩ := second
  exact ⟨ips, rfl⟩

theorem UpToIps.setPeerInfo {p q : PeerState HS} (same : UpToIps p q) (env : Env) (command : SetPeerCommand) :
    UpToIps (WgState.setPeerInfo env p command).2 (WgState.setPeerInfo env q command).2 := by
  obtain ⟨ips, rfl⟩ := same
  exact ⟨ips, setPeerInfo_withAllowedIps env p ips command⟩

theorem configure_info {wg next : WgState HS} (ok : wg.configure env peer0 command = .ok next) :
    next.info = wg.info := by
  obtain ⟨_, _, guards⟩ := dropGuards_eq
    (wg.setPeerState peer0 (setPeerInfo env (wg.peers peer0) command).2) env
    (setPeerInfo env (wg.peers peer0) command).1
  simp only [configure, guards] at ok
  obtain ⟨_, _, ok⟩ := bind_eq_ok.mp ok
  obtain ⟨_, _, ok⟩ := bind_eq_ok.mp ok
  obtain rfl := Except.ok.inj ok
  rfl

/-- One command after the other, as long as they succeed. -/
def setPeers (wg : WgState HS) (env : Env) : List SetPeerCommand → Exec (Except String Unit × WgState HS)
  | [] => return (.ok (), wg)
  | command :: commands => do
    match ← wg.setPeer env command with
    | (.error e, wg) => return (.error e, wg)
    | (.ok (), wg) => wg.setPeers env commands

/-- What commands for different peers do. -/
structure Sets (wg : WgState HS) (env : Env) (o : Ownership) (commands : List SetPeerCommand)
    (next : WgState HS) : Prop where
  refines : Refines next ⟨o.peers, settle o.own (commands.map SetPeerCommand.claim)⟩
  info : next.info = wg.info
  pubkeyMap : next.pubkeyMap = wg.pubkeyMap
  set : ∀ command ∈ commands, ∀ ref, wg.pubkeyMap.get command.publicKey = some ref →
    UpToIps (setPeerInfo env (wg.peers ref) command).2 (next.peers ref)
  kept : ∀ pk ref, wg.pubkeyMap.get pk = some ref → (∀ command ∈ commands, command.publicKey ≠ pk) →
    UpToIps (wg.peers ref) (next.peers ref)

/-- One command does what it says to its peer and takes prefixes from others. -/
theorem Refines.setPeer_spec {wg : WgState HS} {o : Ownership} (refines : Refines wg o) (env : Env)
    {command : SetPeerCommand} (valid : ∀ ip ∈ command.allowedIps, ValidIp ip)
    (known : command.publicKey ∈ o.peers) :
    ∃ next, wg.setPeer env command = .ok (.ok (), next) ∧
      Refines next ⟨o.peers, give o.own command.claim⟩ ∧ next.info = wg.info ∧
      next.pubkeyMap = wg.pubkeyMap ∧
      ∀ pk ref, wg.pubkeyMap.get pk = some ref →
        UpToIps (if pk = command.publicKey then (setPeerInfo env (wg.peers ref) command).2 else wg.peers ref)
          (next.peers ref) := by
  obtain ⟨peer0, found⟩ := Option.isSome_iff_exists.mp ((refines.peers _).mpr known)
  obtain ⟨displaced, next, ok, configures⟩ := refines.configure env valid found
  obtain ⟨result, next', ok', nextRefines⟩ := refines.setPeer env valid
  have set : wg.setPeer env command = .ok (.ok (), next) := by
    simp [WgState.setPeer, findPeerByPubkey, found, ok]
  obtain ⟨rfl, rfl⟩ := Prod.mk.inj (Except.ok.inj (set.symm.trans ok'))
  rw [Ownership.setPeer_eq known] at nextRefines
  refine ⟨next, set, nextRefines, configure_info ok, configures.pubkeyMap, fun pk ref isKey => ?_⟩
  by_cases here : pk = command.publicKey
  · subst here
    obtain rfl := Option.some.inj (isKey.symm.trans found)
    rw [if_pos rfl, configures.own]
    exact ⟨_, rfl⟩
  · have apart : ref ≠ peer0 := by
      rintro rfl
      exact here (refines.injective isKey found)
    rw [if_neg here, configures.others ref apart]
    exact ⟨_, rfl⟩

theorem Refines.setPeers_spec {wg : WgState HS} {o : Ownership} (refines : Refines wg o) (env : Env)
    {commands : List SetPeerCommand} (valid : ∀ command ∈ commands, ∀ ip ∈ command.allowedIps, ValidIp ip)
    (distinct : commands.Pairwise fun a b => a.publicKey ≠ b.publicKey)
    (known : ∀ command ∈ commands, command.publicKey ∈ o.peers) :
    ∃ next, wg.setPeers env commands = .ok (.ok (), next) ∧ Sets wg env o commands next := by
  induction commands generalizing wg o with
  | nil => exact ⟨wg, rfl, refines, rfl, rfl, by simp, fun _ _ _ _ => .refl _⟩
  | cons command rest ih =>
    obtain ⟨others, distinct⟩ := List.pairwise_cons.mp distinct
    obtain ⟨middle, ok, middleRefines, info, pubkeyMap, peers⟩ := refines.setPeer_spec env
      (valid command List.mem_cons_self) (known command List.mem_cons_self)
    obtain ⟨next, restOk, sets⟩ := ih middleRefines
      (fun command isIn => valid command (List.mem_cons_of_mem _ isIn)) distinct
      fun command isIn => known command (List.mem_cons_of_mem _ isIn)
    refine ⟨next, by simp [setPeers, ok, restOk],
      { refines := sets.refines
        info := sets.info.trans info
        pubkeyMap := sets.pubkeyMap.trans pubkeyMap
        set := fun other isIn ref isKey => ?_
        kept := fun pk ref isKey untouched => ?_ }⟩
    · have first := peers other.publicKey ref isKey
      rcases List.mem_cons.mp isIn with rfl | later
      · rw [if_pos rfl] at first
        refine first.trans (sets.kept other.publicKey ref (pubkeyMap ▸ isKey) fun c later => ?_)
        exact (others c later).symm
      · rw [if_neg (others other later).symm] at first
        exact (first.setPeerInfo env other).trans (sets.set other later ref (pubkeyMap ▸ isKey))
    · have first := peers pk ref isKey
      rw [if_neg (untouched command List.mem_cons_self).symm] at first
      refine first.trans (sets.kept pk ref (pubkeyMap ▸ isKey) fun c later => ?_)
      exact untouched c (List.mem_cons_of_mem _ later)

structure Adds (wg : WgState HS) (env : Env) (o : Ownership) (commands : List SetPeerCommand)
    (next : WgState HS) : Prop where
  refines : Refines next
    ⟨o.peers ∪ (commands.map SetPeerCommand.publicKey).toFinset,
      settle o.own (commands.map SetPeerCommand.claim)⟩
  info : next.info = wg.info
  old : ∀ pk ref, wg.pubkeyMap.get pk = some ref →
    next.pubkeyMap.get pk = some ref ∧ UpToIps (wg.peers ref) (next.peers ref)
  added : ∀ command ∈ commands, ∃ ref, next.pubkeyMap.get command.publicKey = some ref ∧
    UpToIps (setPeerInfo env (.new command.publicKey env.now) command).2 (next.peers ref)

theorem Refines.addPeerWith_spec {wg : WgState HS} {o : Ownership} (refines : Refines wg o) (env : Env)
    {command : SetPeerCommand} (valid : ∀ ip ∈ command.allowedIps, ValidIp ip)
    (unknown : command.publicKey ∉ o.peers) :
    ∃ next, wg.addPeerWith env command = .ok (.ok (), next) ∧ Adds wg env o [command] next := by
  have absent : wg.pubkeyMap.get command.publicKey = none := by
    rw [← Option.not_isSome_iff_eq_none, refines.peers]
    exact unknown
  have addedRefines := refines.addPeer env command.publicKey
  obtain ⟨added, isAdded⟩ : ∃ added, added = (wg.addPeer env command.publicKey).2 := ⟨_, rfl⟩
  have adds : wg.addPeer env command.publicKey = (.ok (), added) := by
    rw [isAdded]
    simp [WgState.addPeer, absent]
  have added_eq : added = { wg with
      peers := Function.update wg.peers wg.nextPeer (.new command.publicKey env.now)
      nextPeer := wg.nextPeer + 1
      pubkeyMap := wg.pubkeyMap.insert command.publicKey wg.nextPeer } := by
    rw [isAdded]
    simp [WgState.addPeer, absent]
  rw [← isAdded] at addedRefines
  have peers_eq : o.peers ∪ ([command].map SetPeerCommand.publicKey).toFinset =
      insert command.publicKey o.peers := by
    rw [Finset.union_comm]
    rfl
  obtain ⟨next, ok, nextRefines, info, pubkeyMap, peers⟩ := addedRefines.setPeer_spec env valid
    (Finset.mem_insert_self _ _)
  refine ⟨next, by simp [WgState.addPeerWith, adds, ok],
    { refines := ?_
      info := ?_
      old := fun pk ref isKey => ?_
      added := fun c isIn => ?_ }⟩
  · rw [peers_eq]
    exact nextRefines
  · rw [info, added_eq]
  · have apart : pk ≠ command.publicKey := by
      rintro rfl
      rw [absent] at isKey
      cases isKey
    have kept : added.pubkeyMap.get pk = some ref := by
      rw [added_eq, HashMap.get_insert, if_neg apart]
      exact isKey
    have same := peers pk ref kept
    rw [if_neg apart, added_eq] at same
    dsimp only at same
    rw [Function.update_of_ne (Nat.ne_of_lt (refines.key pk ref isKey).2)] at same
    exact ⟨pubkeyMap ▸ kept, same⟩
  · obtain rfl := List.mem_singleton.mp isIn
    have isKey : added.pubkeyMap.get c.publicKey = some wg.nextPeer := by
      rw [added_eq, HashMap.get_insert, if_pos rfl]
    have same := peers _ _ isKey
    rw [if_pos rfl, added_eq] at same
    dsimp only at same
    rw [Function.update_self] at same
    exact ⟨wg.nextPeer, pubkeyMap ▸ isKey, same⟩

theorem Refines.addPeers_spec {wg : WgState HS} {o : Ownership} (refines : Refines wg o) (env : Env)
    {commands : List SetPeerCommand} (valid : ∀ command ∈ commands, ∀ ip ∈ command.allowedIps, ValidIp ip)
    (distinct : commands.Pairwise fun a b => a.publicKey ≠ b.publicKey)
    (unknown : ∀ command ∈ commands, command.publicKey ∉ o.peers) :
    ∃ next, wg.addPeers env commands = .ok (.ok (), next) ∧ Adds wg env o commands next := by
  induction commands generalizing wg o with
  | nil =>
    exact ⟨wg, rfl, by simpa using refines, rfl, fun _ _ isKey => ⟨isKey, .refl _⟩, by simp⟩
  | cons command rest ih =>
    obtain ⟨others, distinct⟩ := List.pairwise_cons.mp distinct
    obtain ⟨middle, ok, first⟩ := refines.addPeerWith_spec env (valid command List.mem_cons_self)
      (unknown command List.mem_cons_self)
    obtain ⟨next, restOk, adds⟩ := ih first.refines
      (fun command isIn => valid command (List.mem_cons_of_mem _ isIn)) distinct (by
        intro c isIn
        have old := unknown c (List.mem_cons_of_mem _ isIn)
        have apart := (others c isIn).symm
        simp [old, apart])
    refine ⟨next, by simp [WgState.addPeers, ok, restOk],
      { refines := by simpa [Finset.union_assoc] using adds.refines
        info := adds.info.trans first.info
        old := fun pk ref isKey => ?_
        added := fun c isIn => ?_ }⟩
    · obtain ⟨kept, same⟩ := first.old pk ref isKey
      obtain ⟨keptAgain, sameAgain⟩ := adds.old pk ref kept
      exact ⟨keptAgain, same.trans sameAgain⟩
    · rcases List.mem_cons.mp isIn with rfl | later
      · obtain ⟨ref, isKey, same⟩ := first.added c List.mem_cons_self
        obtain ⟨kept, sameAgain⟩ := adds.old _ ref isKey
        exact ⟨ref, kept, same.trans sameAgain⟩
      · exact adds.added c later

end WgState

end Titun
