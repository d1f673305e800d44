import Titun.Reconfiguration

/-! What a reload does to a state in which every prefix has an owner. -/
namespace Titun

open Assignment

section Collect

variable {α : Type} {key : α → X25519Pubkey}

theorem get_collect {l : List α} (distinct : (l.map key).Nodup) :
    (collect key l).get k = some a ↔ a ∈ l ∧ key a = k := by
  induction l using List.reverseRecOn with
  | nil => simp [collect]
  | append_singleton l last ih =>
    rw [List.map_append, List.nodup_append] at distinct
    obtain ⟨distinct, _, apart⟩ := distinct
    have unfolds : collect key (l ++ [last]) = (collect key l).insert (key last) last := by
      simp [collect]
    rw [unfolds, HashMap.get_insert]
    by_cases here : k = key last
    · rw [if_pos here]
      constructor
      · intro same
        obtain rfl := Option.some.inj same
        exact ⟨by simp, here.symm⟩
      · rintro ⟨member, isKey⟩
        rcases List.mem_append.mp member with old | new
        · have different := apart (key a) (List.mem_map_of_mem old) (key last) (by simp)
          exact absurd (isKey.trans here) different
        · rw [List.mem_singleton.mp new]
    · rw [if_neg here, ih distinct]
      constructor
      · rintro ⟨member, isKey⟩
        exact ⟨List.mem_append_left _ member, isKey⟩
      · rintro ⟨member, isKey⟩
        rcases List.mem_append.mp member with old | new
        · exact ⟨old, isKey⟩
        · rw [List.mem_singleton.mp new] at isKey
          exact absurd isKey.symm here

theorem mem_keys {m : HashMap X25519Pubkey α} : k ∈ m.keys ↔ (m.get k).isSome := by
  rw [Finmap.mem_keys, HashMap.get, Finmap.lookup_isSome]

end Collect

theorem iterKeys_sorted (s : Finset X25519Pubkey) :
    (iterKeys s).Pairwise fun a b => keyNumber a < keyNumber b := by
  apply ((Finset.pairwise_sort s KeyLe).and (iterKeys_nodup s)).imp
  rintro a b ⟨le, apart⟩
  exact Nat.lt_of_le_of_ne le fun same => apart (keyNumber_injective same)

theorem sorted_commands {f : X25519Pubkey → Option SetPeerCommand}
    (keyed : ∀ pk command, f pk = some command → command.publicKey = pk) (s : Finset X25519Pubkey) :
    ((iterKeys s).filterMap f).Pairwise fun a b => keyNumber a.publicKey < keyNumber b.publicKey := by
  apply (iterKeys_sorted s).filterMap f
  intro a b less command isCommand command' isCommand'
  rw [keyed a command isCommand, keyed b command' isCommand']
  exact less

namespace WgState

variable {HS : Type}

theorem clearPeers_spec (wg : WgState HS) (env : Env) (refs : List PeerRef) :
    SameRouting wg (refs.foldl (fun wg ref => wg.clearPeer env ref) wg) ∧
      (refs.foldl (fun wg ref => wg.clearPeer env ref) wg).info = wg.info ∧
      ∀ ref, ((refs.foldl (fun wg ref => wg.clearPeer env ref) wg).peers ref).info = (wg.peers ref).info := by
  induction refs generalizing wg with
  | nil => exact ⟨.refl wg, rfl, fun _ => rfl⟩
  | cons head rest ih =>
    obtain ⟨routing, info, peers⟩ := ih (wg.clearPeer env head)
    obtain ⟨idMap, deferred, guards⟩ := dropGuards_eq (wg.setPeerState head (wg.peers head).clear.2) env
      (wg.peers head).clear.1
    have cleared : wg.clearPeer env head =
        { wg.setPeerState head (wg.peers head).clear.2 with idMap, deferred } := guards
    refine ⟨(SameRouting.clearPeer wg env head).trans routing, info.trans (by rw [cleared]; rfl), ?_⟩
    intro ref
    rw [List.foldl_cons, peers, cleared]
    dsimp only [setPeerState]
    by_cases here : ref = head
    · subst here
      rw [Function.update_self]
      rfl
    · rw [Function.update_of_ne here]

/-- What changes to the interface leave alone: routing, what peers are configured with, and
without a new key everything about peers. -/
structure Rekeys (wg next : WgState HS) (newKey : X25519Key) : Prop where
  routing : SameRouting wg next
  peerInfo : ∀ ref, (next.peers ref).info = (wg.peers ref).info
  sameKey : wg.info.key = newKey → next.peers = wg.peers

theorem setKey_spec (wg : WgState HS) (env : Env) (order : List X25519Pubkey) (key : X25519Key) :
    SameRouting wg (wg.setKey env order key) ∧
      (wg.setKey env order key).info = { wg.info with key } ∧
      ∀ ref, ((wg.setKey env order key).peers ref).info = (wg.peers ref).info := by
  obtain ⟨routing, info, peers⟩ := clearPeers_spec wg env (order.filterMap wg.pubkeyMap.get)
  refine ⟨⟨routing.rt, routing.pubkeyMap, routing.nextPeer, routing.publicKey, routing.allowedIps⟩, ?_, peers⟩
  simp only [setKey, info]

theorem setFwmark_spec (wg : WgState HS) (newFwmark : BitVec 32) :
    SameRouting wg (wg.setFwmark newFwmark (.ok ())).2 ∧
      (wg.setFwmark newFwmark (.ok ())).2.info = { wg.info with fwmark := newFwmark } ∧
      (wg.setFwmark newFwmark (.ok ())).2.peers = wg.peers := by
  by_cases same : wg.info.fwmark = newFwmark
  · have unchanged : wg.setFwmark newFwmark (.ok ()) = (.ok (), wg) := if_pos same
    rw [unchanged, ← same]
    exact ⟨.refl wg, rfl, rfl⟩
  · rw [setFwmark, if_neg same]
    exact ⟨⟨rfl, rfl, rfl, fun _ => rfl, fun _ => rfl⟩, rfl, rfl⟩

/-- The port that is recorded when `set_port` succeeds. -/
def portAfter (port newPort bound : BitVec 16) : BitVec 16 :=
  if newPort = port then port else if newPort = 0 then bound else newPort

theorem setPort_spec (wg : WgState HS) (newPort bound : BitVec 16) :
    SameRouting wg (wg.setPort newPort (.ok bound)).2 ∧
      (wg.setPort newPort (.ok bound)).2.info = { wg.info with port := portAfter wg.info.port newPort bound } ∧
      (wg.setPort newPort (.ok bound)).2.peers = wg.peers := by
  by_cases same : newPort = wg.info.port
  · have unchanged : wg.setPort newPort (.ok bound) = (.ok (), wg) := if_pos same
    rw [unchanged, portAfter, if_pos same]
    exact ⟨.refl wg, rfl, rfl⟩
  · rw [Handover.setPort_eq wg newPort bound same]
    have port : portAfter wg.info.port newPort bound = if newPort = 0 then bound else newPort := if_neg same
    rw [port]
    unfold Handover.handOver
    cases wg.socketChannel with
    | none => exact ⟨⟨rfl, rfl, rfl, fun _ => rfl, fun _ => rfl⟩, rfl, rfl⟩
    | some pending => exact ⟨⟨rfl, rfl, rfl, fun _ => rfl, fun _ => rfl⟩, rfl, rfl⟩

theorem reloadInterface_spec (wg : WgState HS) (env : Env) (clock : SystemTime)
    (order : List X25519Pubkey) (new : InterfaceConfig) (bound : BitVec 16) :
    Rekeys wg (wg.reloadInterface env order ⟨.ok bound, .ok ()⟩ (wg.getState env.now clock order) new)
        new.privateKey ∧
      (wg.reloadInterface env order ⟨.ok bound, .ok ()⟩ (wg.getState env.now clock order) new).info =
        ⟨new.privateKey, new.fwmark.getD 0, portAfter wg.info.port (new.listenPort.getD 0) bound⟩ := by
  obtain ⟨keyed, keyed_eq⟩ : ∃ keyed, keyed =
    if new.privateKey ≠ wg.info.key then wg.setKey env order new.privateKey else wg := ⟨_, rfl⟩
  have keyedSpec : Rekeys wg keyed new.privateKey ∧ keyed.info = { wg.info with key := new.privateKey } := by
    rw [keyed_eq]
    split_ifs with changed
    · obtain ⟨routing, info, peers⟩ := setKey_spec wg env order new.privateKey
      exact ⟨⟨routing, peers, fun same => absurd same.symm changed⟩, info⟩
    · have same := not_not.mp changed
      exact ⟨⟨.refl wg, fun _ => rfl, fun _ => rfl⟩, by rw [same]⟩
  obtain ⟨marked, marked_eq⟩ : ∃ marked, marked =
    if new.fwmark.getD 0 ≠ wg.info.fwmark then (keyed.setFwmark (new.fwmark.getD 0) (.ok ())).2 else keyed :=
    ⟨_, rfl⟩
  have markedSpec : SameRouting keyed marked ∧ marked.info = { keyed.info with fwmark := new.fwmark.getD 0 } ∧
      marked.peers = keyed.peers := by
    rw [marked_eq]
    split_ifs with changed
    · exact setFwmark_spec keyed _
    · have same := not_not.mp changed
      refine ⟨.refl keyed, ?_, rfl⟩
      rw [keyedSpec.2, same]
  obtain ⟨next, next_eq⟩ : ∃ next, next =
    if wg.info.port ≠ new.listenPort.getD 0 then (marked.setPort (new.listenPort.getD 0) (.ok bound)).2
    else marked := ⟨_, rfl⟩
  have nextSpec : SameRouting marked next ∧
      next.info = { marked.info with port := portAfter wg.info.port (new.listenPort.getD 0) bound } ∧
      next.peers = marked.peers := by
    have port : marked.info.port = wg.info.port := by rw [markedSpec.2.1, keyedSpec.2]
    rw [next_eq]
    split_ifs with changed
    · have spec := setPort_spec marked (new.listenPort.getD 0) bound
      rw [port] at spec
      exact spec
    · have same := not_not.mp changed
      refine ⟨.refl marked, ?_, rfl⟩
      rw [portAfter, if_pos same.symm, ← port]
  have result : wg.reloadInterface env order ⟨.ok bound, .ok ()⟩ (wg.getState env.now clock order) new = next := by
    rw [next_eq, marked_eq, keyed_eq]
    rfl
  have info : next.info =
      ⟨new.privateKey, new.fwmark.getD 0, portAfter wg.info.port (new.listenPort.getD 0) bound⟩ := by
    rw [nextSpec.2.1, markedSpec.2.1, keyedSpec.2]
  have peers : next.peers = keyed.peers := nextSpec.2.2.trans markedSpec.2.2
  rw [result]
  refine ⟨⟨(keyedSpec.1.routing.trans markedSpec.1).trans nextSpec.1, ?_, ?_⟩, info⟩
  · intro ref
    rw [peers]
    exact keyedSpec.1.peerInfo ref
  · intro same
    rw [peers]
    exact keyedSpec.1.sameKey same

theorem removePeer_others {wg next : WgState HS} (env : Env) (pk : X25519Pubkey)
    (ok : wg.removePeer env pk = .ok (removed, next)) :
    next.info = wg.info ∧ ∀ ref, wg.pubkeyMap.get pk ≠ some ref → next.peers ref = wg.peers ref := by
  cases found : wg.pubkeyMap.get pk with
  | none =>
    simp only [removePeer, found] at ok
    obtain ⟨_, rfl⟩ := Prod.mk.inj (Except.ok.inj ok)
    exact ⟨rfl, fun _ _ => rfl⟩
  | some ref =>
    simp only [removePeer, found] at ok
    obtain ⟨detached, isDetached, ok⟩ := bind_eq_ok.mp ok
    obtain ⟨_, rfl⟩ := Prod.mk.inj (Except.ok.inj ok)
    obtain ⟨rt, _, isDetached⟩ := bind_eq_ok.mp isDetached
    obtain rfl := Except.ok.inj isDetached
    obtain ⟨idMap, deferred, guards⟩ := dropGuards_eq
      ({ wg with pubkeyMap := wg.pubkeyMap.remove pk }.setPeerState ref (wg.peers ref).clear.2) env
      (wg.peers ref).clear.1
    have cleared : WgState.clearPeer { wg with pubkeyMap := wg.pubkeyMap.remove pk } env ref =
      { WgState.setPeerState { wg with pubkeyMap := wg.pubkeyMap.remove pk } ref (wg.peers ref).clear.2 with
        idMap, deferred } := guards
    rw [cleared]
    refine ⟨rfl, fun other apart => ?_⟩
    have apart : other ≠ ref := fun same => apart (by rw [same])
    exact Function.update_of_ne apart _ _

/-- What removing peers does. -/
structure Removes (wg : WgState HS) (o : Ownership) (pks : List X25519Pubkey) (next : WgState HS)
    (o' : Ownership) : Prop where
  refines : Refines next o'
  info : next.info = wg.info
  peers : ∀ pk, pk ∈ o'.peers ↔ pk ∈ o.peers ∧ pk ∉ pks
  own : ∀ ip pk, o'.own ip = some pk ↔ o.own ip = some pk ∧ pk ∉ pks
  kept : ∀ pk ref, wg.pubkeyMap.get pk = some ref → pk ∉ pks →
    next.pubkeyMap.get pk = some ref ∧ next.peers ref = wg.peers ref

theorem Refines.removePeers_spec {wg : WgState HS} {o : Ownership} (refines : Refines wg o) (env : Env)
    (pks : List X25519Pubkey) :
    ∃ next o', wg.removeAllPeers env pks = .ok next ∧ Removes wg o pks next o' := by
  induction pks generalizing wg o with
  | nil => exact ⟨wg, o, rfl, refines, rfl, by simp, by simp, fun _ _ isKey _ => ⟨isKey, rfl⟩⟩
  | cons pk pks ih =>
    obtain ⟨_, middle, ok, middleRefines, map⟩ := refines.removePeer env pk
    obtain ⟨info, others⟩ := removePeer_others env pk ok
    obtain ⟨next, o', restOk, rest⟩ := ih middleRefines
    refine ⟨next, o', by simp [WgState.removeAllPeers, ok, restOk],
      { refines := rest.refines
        info := rest.info.trans info
        peers := fun k => ?_
        own := fun ip k => ?_
        kept := fun k ref isKey kept => ?_ }⟩
    · rw [rest.peers, Ownership.removePeer, Finset.mem_erase, List.mem_cons, not_or]
      tauto
    · rw [rest.own, Ownership.removePeer]
      by_cases mine : o.own ip = some pk
      · simp only [mine, if_true, List.mem_cons, not_or, Option.some.injEq]
        constructor
        · rintro ⟨absurd, _⟩
          cases absurd
        · rintro ⟨rfl, different, _⟩
          exact absurd rfl different
      · simp only [mine, if_false, List.mem_cons, not_or]
        refine and_congr_right fun owner => ⟨fun later => ⟨?_, later⟩, And.right⟩
        rintro rfl
        exact mine owner
    · obtain ⟨apart, later⟩ := not_or.mp (List.mem_cons.not.mp kept)
      have stays : middle.pubkeyMap.get k = some ref := by
        rw [map, if_neg apart]
        exact isKey
      obtain ⟨staysAgain, same⟩ := rest.kept k ref stays later
      refine ⟨staysAgain, same.trans (others ref fun gone => ?_)⟩
      exact apart (refines.injective isKey gone)

/-- A peer as a configuration that may be compared with another. -/
def shownAs (p : PeerState HS) (new : PeerConfig) : PeerConfig := (p.out 0 0).toConfig new.trueEndpoint

/-- Reload does not touch the configuration of a peer that it shows already. -/
def Unchanged (wg : WgState HS) (p : PeerConfig) : Prop :=
  ∃ ref, wg.pubkeyMap.get p.publicKey = some ref ∧ p = shownAs (wg.peers ref) p

/-- The order in which reload sets peers up: those that exist first. -/
def Before (wg : WgState HS) (a b : X25519Pubkey) : Prop :=
  (wg.pubkeyMap.get a).isSome ∧ wg.pubkeyMap.get b = none ∨
    ((wg.pubkeyMap.get a).isSome ↔ (wg.pubkeyMap.get b).isSome) ∧ keyNumber a < keyNumber b

theorem Before.asymm {wg : WgState HS} (a b : X25519Pubkey) (before : Before wg a b) : ¬ Before wg b a := by
  rcases before with ⟨known, unknown⟩ | ⟨same, less⟩
  · rintro (⟨known', _⟩ | ⟨same', _⟩)
    · simp [unknown] at known'
    · simp [unknown, known] at same'
  · rintro (⟨known', unknown'⟩ | ⟨_, less'⟩)
    · simp [unknown', known'] at same
    · exact Nat.lt_asymm less less'

def change (existingMap : HashMap X25519Pubkey PeerStateOut) (newMap : HashMap X25519Pubkey PeerConfig)
    (pk : X25519Pubkey) : Option SetPeerCommand := do
  let new ← newMap.get pk
  let existing ← existingMap.get pk
  if new ≠ existing.toConfig new.trueEndpoint then some new.modification else none

theorem change_eq_some : change existingMap newMap pk = some command ↔
    ∃ new existing, newMap.get pk = some new ∧ existingMap.get pk = some existing ∧
      new ≠ existing.toConfig new.trueEndpoint ∧ command = new.modification := by
  unfold change
  cases newMap.get pk <;> cases existingMap.get pk <;> simp [eq_comm]

/-- The loop sets peers up with the commands for what changes, and leaves the new peers. -/
theorem modifyPeers_eq {wg next : WgState HS} {env : Env} {existingMap : HashMap X25519Pubkey PeerStateOut}
    {newMap : HashMap X25519Pubkey PeerConfig} {pks : List X25519Pubkey} (distinct : pks.Nodup)
    (both : ∀ pk ∈ pks, (newMap.get pk).isSome ∧ (existingMap.get pk).isSome)
    (ok : wg.setPeers env (pks.filterMap (change existingMap newMap)) = .ok (.ok (), next)) :
    ∃ left, wg.modifyPeers env existingMap newMap pks = .ok (.ok left, next) ∧
      ∀ k, left.get k = if k ∈ pks then none else newMap.get k := by
  induction pks generalizing wg existingMap newMap with
  | nil =>
    obtain ⟨_, rfl⟩ := Prod.mk.inj (Except.ok.inj ok)
    exact ⟨newMap, rfl, by simp⟩
  | cons pk pks ih =>
    obtain ⟨notIn, distinct⟩ := List.nodup_cons.mp distinct
    obtain ⟨hasNew, hasExisting⟩ := both pk List.mem_cons_self
    obtain ⟨new, isNew⟩ := Option.isSome_iff_exists.mp hasNew
    obtain ⟨existing, isExisting⟩ := Option.isSome_iff_exists.mp hasExisting
    have apart : ∀ k ∈ pks, k ≠ pk := fun k isIn same => notIn (same ▸ isIn)
    have laterChange : pks.filterMap (change (existingMap.remove pk) (newMap.remove pk)) =
        pks.filterMap (change existingMap newMap) := by
      apply List.filterMap_congr
      intro k isIn
      simp only [change, HashMap.get_remove, if_neg (apart k isIn)]
    have laterBoth : ∀ k ∈ pks, ((newMap.remove pk).get k).isSome ∧ ((existingMap.remove pk).get k).isSome := by
      intro k isIn
      simp only [HashMap.get_remove, if_neg (apart k isIn)]
      exact both k (List.mem_cons_of_mem _ isIn)
    have laterLeft (left : HashMap X25519Pubkey PeerConfig)
        (rest : ∀ k, left.get k = if k ∈ pks then none else (newMap.remove pk).get k) :
        ∀ k, left.get k = if k ∈ pk :: pks then none else newMap.get k := by
      intro k
      rw [rest, HashMap.get_remove]
      by_cases here : k = pk <;> simp [here]
    by_cases same : new ≠ existing.toConfig new.trueEndpoint
    · have first : change existingMap newMap pk = some new.modification := by
        simp [change, isNew, isExisting, same]
      rw [List.filterMap_cons_some first] at ok
      obtain ⟨⟨result, middle⟩, set, ok⟩ := bind_eq_ok.mp ok
      cases result with
      | error e =>
        obtain ⟨absurd, _⟩ := Prod.mk.inj (Except.ok.inj ok)
        cases absurd
      | ok u =>
        obtain ⟨left, later, rest⟩ := ih distinct laterBoth (laterChange.symm ▸ ok)
        have changed : wg.modifyPeer env existing new = .ok (.ok u, middle) := by
          rw [modifyPeer, if_pos same, set]
        refine ⟨left, ?_, laterLeft left rest⟩
        simp [modifyPeers, isNew, isExisting, changed, later]
    · have first : change existingMap newMap pk = none := by
        simp only [change, isNew, isExisting, Option.bind_eq_bind, Option.bind_some]
        exact if_neg same
      have skipped : wg.modifyPeer env existing new = .ok (.ok (), wg) := by
        rw [modifyPeer, if_neg same]
        rfl
      rw [List.filterMap_cons_none first] at ok
      obtain ⟨left, later, rest⟩ := ih distinct laterBoth (laterChange.symm ▸ ok)
      refine ⟨left, ?_, laterLeft left rest⟩
      simp [modifyPeers, isNew, isExisting, skipped, later]

theorem Refines.getState_keys {wg : WgState HS} {o : Ownership} (refines : Refines wg o) (now : Instant)
    (clock : SystemTime) {order : List X25519Pubkey} (all : HashMap.IterOrder wg.pubkeyMap order) :
    (wg.getState now clock order).peers.map PeerStateOut.publicKey = order := by
  have listed : ∀ pk ∈ order, (wg.pubkeyMap.get pk).isSome := fun pk isIn => (all.2 pk).mp isIn
  clear all
  simp only [getState, List.map_map]
  induction order with
  | nil => rfl
  | cons pk order ih =>
    obtain ⟨ref, isKey⟩ := Option.isSome_iff_exists.mp (listed pk List.mem_cons_self)
    rw [List.filterMap_cons_some isKey, List.map_cons, ih fun k isIn => listed k (List.mem_cons_of_mem _ isIn)]
    congr 1
    exact (refines.key pk ref isKey).1

theorem Refines.mem_getState {wg : WgState HS} {o : Ownership} (refines : Refines wg o) (now : Instant)
    (clock : SystemTime) {order : List X25519Pubkey} (all : HashMap.IterOrder wg.pubkeyMap order) :
    (e ∈ (wg.getState now clock order).peers ∧ e.publicKey = pk) ↔
      ∃ ref, wg.pubkeyMap.get pk = some ref ∧ e = (wg.peers ref).out now clock := by
  simp only [getState, List.mem_map, List.mem_filterMap]
  constructor
  · rintro ⟨⟨ref, ⟨k, _, isKey⟩, rfl⟩, rfl⟩
    refine ⟨ref, ?_, rfl⟩
    rw [← isKey]
    congr 1
    exact (refines.key k ref isKey).1
  · rintro ⟨ref, isKey, rfl⟩
    have listed := (all.2 pk).mpr (by simp [isKey])
    exact ⟨⟨ref, ⟨pk, listed, isKey⟩, rfl⟩, (refines.key pk ref isKey).1⟩

end WgState

theorem verifyPeers_eq_ok {seen : Finset X25519Pubkey} {routes : Finset AllowedIp} {peers : List PeerConfig} :
    (∃ warned, verifyPeers seen routes peers = .ok warned) ↔
      (peers.map PeerConfig.publicKey).Nodup ∧ ∀ p ∈ peers, p.publicKey ∉ seen := by
  induction peers generalizing seen routes with
  | nil => simp [verifyPeers]
  | cons p peers ih =>
    by_cases known : p.publicKey ∈ seen
    · simp [verifyPeers, known]
    · have rest := @ih (insert p.publicKey seen) (repeatedRoutes routes (iterAllowedIps p.allowedIps)).2
      have unfolds : (∃ warned, verifyPeers seen routes (p :: peers) = .ok warned) ↔
          ∃ warned, verifyPeers (insert p.publicKey seen)
            (repeatedRoutes routes (iterAllowedIps p.allowedIps)).2 peers = .ok warned := by
        rw [verifyPeers, if_neg known]
        dsimp only
        cases verifyPeers (insert p.publicKey seen)
          (repeatedRoutes routes (iterAllowedIps p.allowedIps)).2 peers <;> simp [Except.map]
      rw [unfolds, rest]
      simp only [List.map_cons, List.nodup_cons, List.mem_map, List.mem_cons, Finset.mem_insert, not_or,
        forall_eq_or_imp, not_exists, not_and]
      constructor
      · rintro ⟨distinct, fresh⟩
        exact ⟨⟨fun q isIn => (fresh q isIn).1, distinct⟩, known, fun q isIn => (fresh q isIn).2⟩
      · rintro ⟨⟨apart, distinct⟩, _, fresh⟩
        exact ⟨distinct, fun q isIn => ⟨apart q isIn, fresh q isIn⟩⟩

theorem Config.Accepted.distinct {config : Config} (accepted : config.Accepted) :
    (config.peers.map PeerConfig.publicKey).Nodup := (verifyPeers_eq_ok.mp accepted.verified).1

theorem Config.Accepted.unique {config : Config} (accepted : config.Accepted) (isIn : p ∈ config.peers)
    (isIn' : q ∈ config.peers) (same : p.publicKey = q.publicKey) : p = q :=
  List.inj_on_of_nodup_map accepted.distinct isIn isIn' same

def Config.keys (config : Config) : Finset X25519Pubkey := (config.peers.map PeerConfig.publicKey).toFinset

theorem Config.mem_keys {config : Config} : pk ∈ config.keys ↔ ∃ p ∈ config.peers, p.publicKey = pk := by
  simp [Config.keys]

/-- A peer is configured with a prefix. -/
def PeerConfig.Lists (p : PeerConfig) (ip : AllowedIp) : Prop := ip ∈ p.allowedIps.image maskedIp

namespace WgState

variable {HS : Type}

/-- The command with which reload sets up a peer. -/
def commandFor (wg : WgState HS) (p : PeerConfig) : SetPeerCommand :=
  if (wg.pubkeyMap.get p.publicKey).isSome then p.modification else p.addition

@[simp] theorem commandFor_publicKey (wg : WgState HS) (p : PeerConfig) :
    (commandFor wg p).publicKey = p.publicKey := by
  unfold commandFor
  split_ifs <;> rfl

theorem commandFor_allowedIps (wg : WgState HS) (p : PeerConfig) :
    (commandFor wg p).allowedIps = p.allowedIps := by
  unfold commandFor
  split_ifs <;> rfl

/-- The commands of a reload, in their order. -/
structure Plan (wg : WgState HS) (config : Config) (commands : List SetPeerCommand) : Prop where
  sorted : commands.Pairwise fun a b => Before wg a.publicKey b.publicKey
  mem : ∀ command, command ∈ commands ↔ ∃ p ∈ config.peers, ¬ Unchanged wg p ∧ command = commandFor wg p

section Plan

variable {wg : WgState HS} {config : Config} {commands : List SetPeerCommand} {own : AllowedIp → Option X25519Pubkey}

/-- Of the peers that are set up, the last one that lists a prefix gets it. -/
theorem Plan.latest (plan : Plan wg config commands) (isIn : p ∈ config.peers) (changes : ¬ Unchanged wg p)
    (lists : p.Lists ip)
    (last : ∀ q ∈ config.peers, ¬ Unchanged wg q → q.Lists ip → q = p ∨ Before wg q.publicKey p.publicKey) :
    settle own (commands.map SetPeerCommand.claim) ip = some p.publicKey := by
  have member : (commandFor wg p).claim ∈ commands.map SetPeerCommand.claim :=
    List.mem_map_of_mem ((plan.mem _).mpr ⟨p, isIn, changes, rfl⟩)
  have listed : ip ∈ (commandFor wg p).claim.keys := by
    rw [SetPeerCommand.claim, commandFor_allowedIps]
    exact lists
  have settled := settle_greatest own (Before wg) Before.asymm (List.pairwise_map.mpr plan.sorted)
    member listed (by
      intro claim isClaim listed'
      obtain ⟨command, isCommand, rfl⟩ := List.mem_map.mp isClaim
      obtain ⟨q, isIn', changes', rfl⟩ := (plan.mem command).mp isCommand
      rw [SetPeerCommand.claim, commandFor_allowedIps] at listed'
      rcases last q isIn' changes' listed' with rfl | before
      · exact .inl rfl
      · exact .inr (by simpa [SetPeerCommand.claim] using before))
  simpa [SetPeerCommand.claim] using settled

/-- A prefix that no peer lists that is set up stays with its owner, unless that is one of them. -/
theorem Plan.rest (plan : Plan wg config commands) (accepted : config.Accepted)
    (owned : ∀ pk, own ip = some pk → (wg.pubkeyMap.get pk).isSome ∧ pk ∈ config.keys)
    (unlisted : ∀ p ∈ config.peers, ¬ Unchanged wg p → ¬ p.Lists ip) :
    settle own (commands.map SetPeerCommand.claim) ip = some pk ↔
      own ip = some pk ∧ ∃ p ∈ config.peers, p.publicKey = pk ∧ Unchanged wg p := by
  have unclaimed : ∀ c ∈ commands.map SetPeerCommand.claim, ip ∉ c.keys := by
    intro claim isClaim listed
    obtain ⟨command, isCommand, rfl⟩ := List.mem_map.mp isClaim
    obtain ⟨q, isIn, changes, rfl⟩ := (plan.mem command).mp isCommand
    rw [SetPeerCommand.claim, commandFor_allowedIps] at listed
    exact unlisted q isIn changes listed
  cases owner : own ip with
  | none => simp [settle_kept own unclaimed (by simp [owner]), owner]
  | some k =>
    obtain ⟨known, configured⟩ := owned k owner
    obtain ⟨p, isIn, rfl⟩ := Config.mem_keys.mp configured
    by_cases same : Unchanged wg p
    · have kept := settle_kept own unclaimed (by
        intro claim isClaim mine
        obtain ⟨command, isCommand, rfl⟩ := List.mem_map.mp isClaim
        obtain ⟨q, isIn', changes, rfl⟩ := (plan.mem command).mp isCommand
        rw [owner, SetPeerCommand.claim, commandFor_publicKey, Option.some.injEq] at mine
        exact changes (accepted.unique isIn isIn' mine ▸ same))
      rw [kept, owner]
      constructor
      · intro mine
        exact ⟨mine, p, isIn, Option.some.inj mine, same⟩
      · exact And.left
    · have replaced : (commandFor wg p).claim.replace := by
        rw [SetPeerCommand.claim, commandFor, if_pos known]
        rfl
      have dropped := settle_dropped own unclaimed
        (List.mem_map_of_mem ((plan.mem _).mpr ⟨p, isIn, same, rfl⟩)) replaced
        (by simp [owner, SetPeerCommand.claim])
      rw [dropped]
      constructor
      · intro absurd
        cases absurd
      · rintro ⟨mine, q, isIn', isKey, same'⟩
        rw [← Option.some.inj mine] at isKey
        exact absurd (accepted.unique isIn' isIn isKey ▸ same') same

end Plan

/-- What a reload does. `middle` is the state after the changes to the interface. -/
structure Reloaded (wg : WgState HS) (env : Env) (o : Ownership) (config : Config) (middle next : WgState HS)
    (own : AllowedIp → Option X25519Pubkey) : Prop where
  rekeys : Rekeys wg middle config.interface.privateKey
  info : next.info = middle.info
  refines : Refines next ⟨config.keys, own⟩
  latest : ∀ p ∈ config.peers, ¬ Unchanged wg p → ∀ ip, p.Lists ip →
    (∀ q ∈ config.peers, ¬ Unchanged wg q → q.Lists ip → q = p ∨ Before wg q.publicKey p.publicKey) →
    own ip = some p.publicKey
  rest : ∀ ip, (∀ p ∈ config.peers, ¬ Unchanged wg p → ¬ p.Lists ip) → ∀ pk,
    own ip = some pk ↔ o.own ip = some pk ∧ ∃ p ∈ config.peers, p.publicKey = pk ∧ Unchanged wg p
  unchanged : ∀ p ∈ config.peers, ∀ ref, wg.pubkeyMap.get p.publicKey = some ref →
    p = shownAs (wg.peers ref) p →
    next.pubkeyMap.get p.publicKey = some ref ∧ UpToIps (middle.peers ref) (next.peers ref)
  modified : ∀ p ∈ config.peers, ∀ ref, wg.pubkeyMap.get p.publicKey = some ref →
    p ≠ shownAs (wg.peers ref) p →
    next.pubkeyMap.get p.publicKey = some ref ∧
      UpToIps (setPeerInfo env (middle.peers ref) p.modification).2 (next.peers ref)
  added : ∀ p ∈ config.peers, wg.pubkeyMap.get p.publicKey = none →
    ∃ ref, next.pubkeyMap.get p.publicKey = some ref ∧
      UpToIps (setPeerInfo env (.new p.publicKey env.now) p.addition).2 (next.peers ref)

theorem mem_modifications {wg : WgState HS} {config : Config}
    {existingMap : HashMap X25519Pubkey PeerStateOut} {newMap : HashMap X25519Pubkey PeerConfig}
    {both : Finset X25519Pubkey} {now : Instant} {clock : SystemTime}
    (getExisting : ∀ pk e, existingMap.get pk = some e ↔
      ∃ ref, wg.pubkeyMap.get pk = some ref ∧ e = (wg.peers ref).out now clock)
    (getNew : ∀ pk p, newMap.get pk = some p ↔ p ∈ config.peers ∧ p.publicKey = pk)
    (isBoth : ∀ pk, pk ∈ both ↔ (wg.pubkeyMap.get pk).isSome ∧ pk ∈ config.keys) :
    command ∈ (iterKeys both).filterMap (change existingMap newMap) ↔
      ∃ p ∈ config.peers, ∃ ref, wg.pubkeyMap.get p.publicKey = some ref ∧
        p ≠ shownAs (wg.peers ref) p ∧ command = p.modification := by
  simp only [List.mem_filterMap, mem_iterKeys, change_eq_some]
  constructor
  · rintro ⟨pk, _, p, e, isNew, isExisting, changed, rfl⟩
    obtain ⟨isIn, rfl⟩ := (getNew pk p).mp isNew
    obtain ⟨ref, isKey, rfl⟩ := (getExisting _ e).mp isExisting
    exact ⟨p, isIn, ref, isKey, changed, rfl⟩
  · rintro ⟨p, isIn, ref, isKey, changed, rfl⟩
    refine ⟨p.publicKey, (isBoth _).mpr ⟨by simp [isKey], Config.mem_keys.mpr ⟨p, isIn, rfl⟩⟩, p, _,
      (getNew _ p).mpr ⟨isIn, rfl⟩, (getExisting _ _).mpr ⟨ref, isKey, rfl⟩, changed, rfl⟩

theorem mem_additions {wg : WgState HS} {config : Config} {newMap left : HashMap X25519Pubkey PeerConfig}
    {both : Finset X25519Pubkey} (getNew : ∀ pk p, newMap.get pk = some p ↔ p ∈ config.peers ∧ p.publicKey = pk)
    (isBoth : ∀ pk, pk ∈ both ↔ (wg.pubkeyMap.get pk).isSome ∧ pk ∈ config.keys)
    (rest : ∀ k, left.get k = if k ∈ iterKeys both then none else newMap.get k) :
    command ∈ (iterValues left).map PeerConfig.addition ↔
      ∃ p ∈ config.peers, wg.pubkeyMap.get p.publicKey = none ∧ command = p.addition := by
  simp only [iterValues, List.mem_map, List.mem_filterMap, mem_iterKeys, mem_keys]
  constructor
  · rintro ⟨p, ⟨pk, _, isLeft⟩, rfl⟩
    rw [rest] at isLeft
    split_ifs at isLeft with inBoth
    obtain ⟨isIn, rfl⟩ := (getNew pk p).mp isLeft
    refine ⟨p, isIn, ?_, rfl⟩
    have configured : p.publicKey ∈ config.keys := Config.mem_keys.mpr ⟨p, isIn, rfl⟩
    rw [mem_iterKeys, isBoth] at inBoth
    rw [← Option.not_isSome_iff_eq_none]
    exact fun known => inBoth ⟨known, configured⟩
  · rintro ⟨p, isIn, absent, rfl⟩
    have outside : p.publicKey ∉ iterKeys both := by
      rw [mem_iterKeys, isBoth, absent]
      simp
    have isLeft : left.get p.publicKey = some p := by
      rw [rest, if_neg outside]
      exact (getNew _ p).mpr ⟨isIn, rfl⟩
    exact ⟨p, ⟨p.publicKey, by simp [isLeft], isLeft⟩, rfl⟩

/-- The phases of a reload, between the states `middle`, `removed` and `modified`. -/
structure Phases (wg : WgState HS) (env : Env) (o : Ownership) (config : Config) (middle next : WgState HS)
    (o1 : Ownership) (modifications additions : List SetPeerCommand) : Prop where
  rekeys : Rekeys wg middle config.interface.privateKey
  chain : ∃ pks removed modified, Removes middle o pks removed o1 ∧ Sets removed env o1 modifications modified ∧
    Adds modified env ⟨o1.peers, settle o1.own (modifications.map SetPeerCommand.claim)⟩ additions next ∧
    ∀ pk ∈ config.keys, pk ∉ pks
  peers : ∀ pk, pk ∈ o1.peers ↔ pk ∈ o.peers ∧ pk ∈ config.keys
  modified : ∀ command, command ∈ modifications ↔
    ∃ p ∈ config.peers, ∃ ref, wg.pubkeyMap.get p.publicKey = some ref ∧
      p ≠ shownAs (wg.peers ref) p ∧ command = p.modification
  added : ∀ command, command ∈ additions ↔
    ∃ p ∈ config.peers, wg.pubkeyMap.get p.publicKey = none ∧ command = p.addition
  modifiedSorted : modifications.Pairwise fun a b => keyNumber a.publicKey < keyNumber b.publicKey
  addedSorted : additions.Pairwise fun a b => keyNumber a.publicKey < keyNumber b.publicKey

theorem Refines.reload_phases {wg : WgState HS} {o : Ownership} (refines : Refines wg o) (env : Env)
    (clock : SystemTime) {order : List X25519Pubkey} (all : HashMap.IterOrder wg.pubkeyMap order)
    (bound : BitVec 16) {config : Config} (accepted : config.Accepted) :
    ∃ middle next o1 modifications additions,
      wg.reload env clock order ⟨.ok bound, .ok ()⟩ config = .ok (.ok (), next) ∧
      Phases wg env o config middle next o1 modifications additions ∧
      middle.info = ⟨config.interface.privateKey, config.interface.fwmark.getD 0,
        portAfter wg.info.port (config.interface.listenPort.getD 0) bound⟩ := by
  let current := wg.getState env.now clock order
  let existingMap := collect PeerStateOut.publicKey current.peers
  let newMap := collect PeerConfig.publicKey config.peers
  let existing := (current.peers.map PeerStateOut.publicKey).toFinset
  have keys := refines.getState_keys env.now clock all
  have isExisting (pk : X25519Pubkey) : pk ∈ existing ↔ pk ∈ o.peers := by
    rw [← refines.peers, ← all.2]
    simp only [existing, current, keys, List.mem_toFinset]
  have getExisting (pk : X25519Pubkey) (e : PeerStateOut) : existingMap.get pk = some e ↔
      ∃ ref, wg.pubkeyMap.get pk = some ref ∧ e = (wg.peers ref).out env.now clock :=
    (get_collect (keys ▸ all.1)).trans (refines.mem_getState env.now clock all)
  have getNew (pk : X25519Pubkey) (p : PeerConfig) : newMap.get pk = some p ↔
      p ∈ config.peers ∧ p.publicKey = pk := get_collect accepted.distinct
  obtain ⟨rekeys, info⟩ := reloadInterface_spec wg env clock order config.interface bound
  generalize isMiddle : wg.reloadInterface env order ⟨.ok bound, .ok ()⟩ (wg.getState env.now clock order)
    config.interface = middle at rekeys info
  have middleRefines := refines.frame rekeys.routing
  obtain ⟨removed, o1, removeOk, removes⟩ :=
    middleRefines.removePeers_spec env (iterKeys (existing \ config.keys))
  have kept (pk : X25519Pubkey) : pk ∈ o1.peers ↔ pk ∈ o.peers ∧ pk ∈ config.keys := by
    rw [removes.peers, mem_iterKeys, Finset.mem_sdiff, isExisting]
    tauto
  have isBoth (pk : X25519Pubkey) :
      pk ∈ existing ∩ config.keys ↔ (wg.pubkeyMap.get pk).isSome ∧ pk ∈ config.keys := by
    rw [Finset.mem_inter, isExisting, refines.peers]
  obtain ⟨modifications, isModifications⟩ : ∃ modifications, modifications =
    (iterKeys (existing ∩ config.keys)).filterMap (change existingMap newMap) := ⟨_, rfl⟩
  have memModifications (command : SetPeerCommand) : command ∈ modifications ↔
      ∃ p ∈ config.peers, ∃ ref, wg.pubkeyMap.get p.publicKey = some ref ∧
        p ≠ shownAs (wg.peers ref) p ∧ command = p.modification :=
    isModifications ▸ mem_modifications getExisting getNew isBoth
  have modificationsSorted : modifications.Pairwise fun a b => keyNumber a.publicKey < keyNumber b.publicKey := by
    rw [isModifications]
    apply sorted_commands
    intro pk command isCommand
    obtain ⟨p, _, isNew, _, _, rfl⟩ := change_eq_some.mp isCommand
    exact ((getNew pk p).mp isNew).2
  have validModifications : ∀ command ∈ modifications, ∀ ip ∈ command.allowedIps, ValidIp ip := by
    intro command isCommand
    obtain ⟨p, isIn, _, _, _, rfl⟩ := (memModifications command).mp isCommand
    exact accepted.valid p isIn
  have knownModifications : ∀ command ∈ modifications, command.publicKey ∈ o1.peers := by
    intro command isCommand
    obtain ⟨p, isIn, ref, isKey, _, rfl⟩ := (memModifications command).mp isCommand
    have known : p.publicKey ∈ o.peers := (refines.peers _).mp (by simp [isKey])
    exact (kept _).mpr ⟨known, Config.mem_keys.mpr ⟨p, isIn, rfl⟩⟩
  obtain ⟨modified, modifyOk, sets⟩ := removes.refines.setPeers_spec env validModifications
    (modificationsSorted.imp fun less same => Nat.ne_of_lt less (congrArg keyNumber same))
    knownModifications
  have haveBoth : ∀ pk ∈ iterKeys (existing ∩ config.keys),
      (newMap.get pk).isSome ∧ (existingMap.get pk).isSome := by
    intro pk isIn
    obtain ⟨known, configured⟩ := (isBoth pk).mp (mem_iterKeys.mp isIn)
    obtain ⟨ref, isKey⟩ := Option.isSome_iff_exists.mp known
    obtain ⟨p, isIn, isPeer⟩ := Config.mem_keys.mp configured
    rw [(getNew pk p).mpr ⟨isIn, isPeer⟩, (getExisting pk _).mpr ⟨ref, isKey, rfl⟩]
    exact ⟨rfl, rfl⟩
  obtain ⟨left, loopOk, isLeft⟩ :=
    modifyPeers_eq (iterKeys_nodup _) haveBoth (isModifications ▸ modifyOk)
  obtain ⟨additions, isAdditions⟩ : ∃ additions, additions = (iterValues left).map PeerConfig.addition :=
    ⟨_, rfl⟩
  have memAdditions (command : SetPeerCommand) : command ∈ additions ↔
      ∃ p ∈ config.peers, wg.pubkeyMap.get p.publicKey = none ∧ command = p.addition :=
    isAdditions ▸ mem_additions getNew isBoth isLeft
  have additionsSorted : additions.Pairwise fun a b => keyNumber a.publicKey < keyNumber b.publicKey := by
    rw [isAdditions, iterValues, List.map_filterMap]
    apply sorted_commands
    intro pk command isCommand
    obtain ⟨p, isNew, rfl⟩ := Option.map_eq_some_iff.mp isCommand
    rw [isLeft] at isNew
    split_ifs at isNew
    exact ((getNew pk p).mp isNew).2
  have validAdditions : ∀ command ∈ additions, ∀ ip ∈ command.allowedIps, ValidIp ip := by
    intro command isCommand
    obtain ⟨p, isIn, _, rfl⟩ := (memAdditions command).mp isCommand
    exact accepted.valid p isIn
  have unknownAdditions : ∀ command ∈ additions, command.publicKey ∉ o1.peers := by
    intro command isCommand
    obtain ⟨p, isIn, absent, rfl⟩ := (memAdditions command).mp isCommand
    intro known
    have present := (refines.peers _).mpr ((kept _).mp known).1
    simp [PeerConfig.addition, absent] at present
  obtain ⟨next, addOk, adds⟩ := sets.refines.addPeers_spec env validAdditions
    (additionsSorted.imp fun less same => Nat.ne_of_lt less (congrArg keyNumber same))
    unknownAdditions
  refine ⟨middle, next, o1, modifications, additions, ?_,
    { rekeys
      chain := ⟨_, removed, modified, removes, sets, adds, fun pk isIn => ?_⟩
      peers := kept
      modified := memModifications
      added := memAdditions
      modifiedSorted := modificationsSorted
      addedSorted := additionsSorted }, info⟩
  · rw [isAdditions] at addOk
    rw [← isMiddle] at removeOk
    change ((wg.reloadInterface env order ⟨.ok bound, .ok ()⟩ current config.interface).removeAllPeers env
      (iterKeys (existing \ config.keys)) >>= _) = _
    rw [removeOk, ok_bind]
    change (removed.modifyPeers env existingMap newMap (iterKeys (existing ∩ config.keys)) >>= _) = _
    rw [loopOk, ok_bind]
    exact addOk
  · rw [mem_iterKeys, Finset.mem_sdiff]
    exact fun outside => outside.2 isIn

theorem Phases.plan {wg middle next : WgState HS} {o o1 : Ownership}
    (phases : Phases wg env o config middle next o1 modifications additions) :
    Plan wg config (modifications ++ additions) where
  sorted := by
    apply List.pairwise_append.mpr
    refine ⟨phases.modifiedSorted.imp_of_mem ?_, phases.addedSorted.imp_of_mem ?_, ?_⟩
    · intro a b isA isB less
      obtain ⟨p, _, _, isKey, _, rfl⟩ := (phases.modified a).mp isA
      obtain ⟨q, _, _, isKey', _, rfl⟩ := (phases.modified b).mp isB
      exact .inr ⟨by simp [PeerConfig.modification, isKey, isKey'], less⟩
    · intro a b isA isB less
      obtain ⟨p, _, absent, rfl⟩ := (phases.added a).mp isA
      obtain ⟨q, _, absent', rfl⟩ := (phases.added b).mp isB
      exact .inr ⟨by simp [PeerConfig.addition, absent, absent'], less⟩
    · intro a isA b isB
      obtain ⟨p, _, _, isKey, _, rfl⟩ := (phases.modified a).mp isA
      obtain ⟨q, _, absent', rfl⟩ := (phases.added b).mp isB
      exact .inl ⟨by simp [PeerConfig.modification, isKey], absent'⟩
  mem := by
    intro command
    rw [List.mem_append, phases.modified, phases.added]
    constructor
    · rintro (⟨p, isIn, ref, isKey, changed, rfl⟩ | ⟨p, isIn, absent, rfl⟩)
      · refine ⟨p, isIn, ?_, by simp [commandFor, isKey]⟩
        rintro ⟨ref', isKey', same⟩
        rw [isKey, Option.some.injEq] at isKey'
        exact changed (isKey' ▸ same)
      · refine ⟨p, isIn, ?_, by simp [commandFor, absent]⟩
        rintro ⟨_, isKey, _⟩
        rw [absent] at isKey
        cases isKey
    · rintro ⟨p, isIn, changes, rfl⟩
      cases found : wg.pubkeyMap.get p.publicKey with
      | none => exact .inr ⟨p, isIn, found, by simp [commandFor, found]⟩
      | some ref => exact .inl ⟨p, isIn, ref, found, fun same => changes ⟨ref, found, same⟩,
          by simp [commandFor, found]⟩

theorem Refines.reload_spec {wg : WgState HS} {o : Ownership} (refines : Refines wg o) (env : Env)
    (clock : SystemTime) {order : List X25519Pubkey} (all : HashMap.IterOrder wg.pubkeyMap order)
    (bound : BitVec 16) {config : Config} (accepted : config.Accepted) :
    ∃ middle next own, wg.reload env clock order ⟨.ok bound, .ok ()⟩ config = .ok (.ok (), next) ∧
      Reloaded wg env o config middle next own ∧
      next.info = ⟨config.interface.privateKey, config.interface.fwmark.getD 0,
        portAfter wg.info.port (config.interface.listenPort.getD 0) bound⟩ := by
  obtain ⟨middle, next, o1, modifications, additions, ok, phases, info⟩ :=
    refines.reload_phases env clock all bound accepted
  have plan := phases.plan
  obtain ⟨pks, removed, modified, removes, sets, adds, configured⟩ := phases.chain
  have sameMap := phases.rekeys.routing.pubkeyMap
  have nextInfo : next.info = middle.info := adds.info.trans (sets.info.trans removes.info)
  have nextRefines := adds.refines
  dsimp only at nextRefines
  rw [← settle_append, ← List.map_append] at nextRefines
  have peers : o1.peers ∪ (additions.map SetPeerCommand.publicKey).toFinset = config.keys := by
    ext pk
    simp only [Finset.mem_union, phases.peers, List.mem_toFinset, List.mem_map, phases.added]
    constructor
    · rintro (⟨_, isIn⟩ | ⟨_, ⟨p, isIn, _, rfl⟩, rfl⟩)
      · exact isIn
      · exact Config.mem_keys.mpr ⟨p, isIn, rfl⟩
    · intro isIn
      obtain ⟨p, isPeer, rfl⟩ := Config.mem_keys.mp isIn
      cases found : wg.pubkeyMap.get p.publicKey with
      | none => exact .inr ⟨_, ⟨p, isPeer, found, rfl⟩, rfl⟩
      | some ref => exact .inl ⟨(refines.peers _).mp (by simp [found]), isIn⟩
  -- A peer that both have keeps its reference until the commands for existing peers are carried out.
  have stays (p : PeerConfig) (isIn : p ∈ config.peers) (ref : PeerRef)
      (isKey : wg.pubkeyMap.get p.publicKey = some ref) :
      removed.pubkeyMap.get p.publicKey = some ref ∧ removed.peers ref = middle.peers ref :=
    removes.kept _ ref (sameMap ▸ isKey) (configured _ (Config.mem_keys.mpr ⟨p, isIn, rfl⟩))
  refine ⟨middle, next, settle o1.own ((modifications ++ additions).map SetPeerCommand.claim), ok,
    { rekeys := phases.rekeys
      info := nextInfo
      refines := peers ▸ nextRefines
      latest := fun p isIn changes ip lists last => plan.latest isIn changes lists last
      rest := fun ip unlisted pk => ?_
      unchanged := fun p isIn ref isKey same => ?_
      modified := fun p isIn ref isKey changed => ?_
      added := fun p isIn absent => ?_ }, nextInfo.trans info⟩
  · have owned : ∀ pk, o1.own ip = some pk → (wg.pubkeyMap.get pk).isSome ∧ pk ∈ config.keys := by
      intro pk owner
      obtain ⟨known, isIn⟩ := (phases.peers pk).mp (removes.refines.owned ip pk owner).1
      exact ⟨(refines.peers pk).mpr known, isIn⟩
    rw [plan.rest accepted owned unlisted, removes.own]
    constructor
    · rintro ⟨⟨owner, _⟩, isPeer⟩
      exact ⟨owner, isPeer⟩
    · rintro ⟨owner, p, isIn, rfl, same⟩
      exact ⟨⟨owner, configured _ (Config.mem_keys.mpr ⟨p, isIn, rfl⟩)⟩, p, isIn, rfl, same⟩
  · obtain ⟨isRemoved, peer⟩ := stays p isIn ref isKey
    have untouched : ∀ command ∈ modifications, command.publicKey ≠ p.publicKey := by
      intro command isCommand isSame
      obtain ⟨q, isIn', ref', isKey', changed, rfl⟩ := (phases.modified command).mp isCommand
      obtain rfl := accepted.unique isIn' isIn isSame
      rw [isKey, Option.some.injEq] at isKey'
      exact changed (isKey' ▸ same)
    have first := sets.kept _ ref isRemoved untouched
    obtain ⟨isNext, second⟩ := adds.old _ ref (sets.pubkeyMap ▸ isRemoved)
    exact ⟨isNext, peer ▸ first.trans second⟩
  · obtain ⟨isRemoved, peer⟩ := stays p isIn ref isKey
    have first := sets.set p.modification ((phases.modified _).mpr ⟨p, isIn, ref, isKey, changed, rfl⟩)
      ref isRemoved
    obtain ⟨isNext, second⟩ := adds.old _ ref (sets.pubkeyMap ▸ isRemoved)
    exact ⟨isNext, peer ▸ first.trans second⟩
  · exact adds.added p.addition ((phases.added _).mpr ⟨p, isIn, absent, rfl⟩)

def endpointAfter (wg : WgState HS) (p : PeerConfig) : Option SocketAddr :=
  match p.endpoint with
  | some e => some (unmapIpv4FromIpv6 (mapIpv4ToIpv6 e))
  | none => (wg.pubkeyMap.get p.publicKey).bind fun ref =>
    (wg.peers ref).info.endpoint.map unmapIpv4FromIpv6

/-- After a reload every configured peer is there, with its attributes. -/
structure Shown (wg next : WgState HS) (own : AllowedIp → Option X25519Pubkey) (p : PeerConfig)
    (ref : PeerRef) : Prop where
  isKey : next.pubkeyMap.get p.publicKey = some ref
  publicKey : (next.peers ref).info.publicKey = p.publicKey
  psk : (next.peers ref).info.psk = p.presharedKey
  keepalive : (next.peers ref).info.keepalive = p.keepalive
  endpoint : (next.peers ref).info.endpoint.map unmapIpv4FromIpv6 = endpointAfter wg p
  allowedIps : ∀ ip, ip ∈ (next.peers ref).info.allowedIps ↔ own ip = some p.publicKey

theorem eq_shownAs {p : PeerConfig} {q : PeerState HS} : p = shownAs q p ↔
    p.publicKey = q.info.publicKey ∧ p.presharedKey = q.info.psk ∧
      p.endpoint = q.info.endpoint.map unmapIpv4FromIpv6 ∧ p.allowedIps = q.info.allowedIps ∧
      p.keepalive = q.info.keepalive := by
  obtain ⟨publicKey, presharedKey, endpoint, trueEndpoint, allowedIps, keepalive⟩ := p
  simp only [shownAs, PeerStateOut.toConfig, PeerState.out, PeerConfig.mk.injEq, nonZero_of_elim, true_and]

theorem Reloaded.shown {wg middle next : WgState HS} {o : Ownership} {config : Config}
    (reloaded : Reloaded wg env o config middle next own) (isIn : p ∈ config.peers) :
    ∃ ref, Shown wg next own p ref := by
  have attributes (ref : PeerRef) (isKey : next.pubkeyMap.get p.publicKey = some ref)
      (psk : (next.peers ref).info.psk = p.presharedKey)
      (keepalive : (next.peers ref).info.keepalive = p.keepalive)
      (endpoint : (next.peers ref).info.endpoint.map unmapIpv4FromIpv6 = endpointAfter wg p) :
      Shown wg next own p ref :=
    ⟨isKey, (reloaded.refines.key _ ref isKey).1, psk, keepalive, endpoint,
      reloaded.refines.allowed _ ref isKey⟩
  cases found : wg.pubkeyMap.get p.publicKey with
  | none =>
    obtain ⟨ref, isKey, ips, peer⟩ := reloaded.added p isIn found
    refine ⟨ref, attributes ref isKey ?_ ?_ ?_⟩ <;>
      simp only [peer, PeerState.withAllowedIps, setPeerInfo_info, PeerConfig.addition, PeerState.new]
    · cases p.keepalive with
      | none => rfl
      | some k => exact dif_pos k.property
    · unfold endpointAfter
      cases p.endpoint with
      | none => simp [found]
      | some e => rfl
  | some ref =>
    have same := reloaded.rekeys.peerInfo ref
    by_cases shows : p = shownAs (wg.peers ref) p
    · obtain ⟨isKey, ips, peer⟩ := reloaded.unchanged p isIn ref found shows
      obtain ⟨_, psk, endpoint, _, keepalive⟩ := eq_shownAs.mp shows
      refine ⟨ref, attributes ref isKey ?_ ?_ ?_⟩ <;>
        simp only [peer, PeerState.withAllowedIps, same]
      · exact psk.symm
      · exact keepalive.symm
      · unfold endpointAfter
        cases configured : p.endpoint with
        | none => simp [found]
        | some e =>
          rw [configured] at endpoint
          obtain ⟨a, stored, rfl⟩ := Option.map_eq_some_iff.mp endpoint.symm
          simp [stored, unmap_map_unmap]
    · obtain ⟨isKey, ips, peer⟩ := reloaded.modified p isIn ref found shows
      refine ⟨ref, attributes ref isKey ?_ ?_ ?_⟩ <;>
        simp only [peer, PeerState.withAllowedIps, setPeerInfo_info, same, PeerConfig.modification]
      · cases p.keepalive with
        | none => rfl
        | some k => exact dif_pos k.property
      · unfold endpointAfter
        cases p.endpoint with
        | none => simp [found]
        | some e => rfl

/-- The sessions of a peer that keeps its pre-shared key survive, unless the key changes. -/
theorem Reloaded.sessions {wg middle next : WgState HS} {o : Ownership} {config : Config}
    (reloaded : Reloaded wg env o config middle next own) (sameKey : wg.info.key = config.interface.privateKey)
    (isIn : p ∈ config.peers) (isKey : wg.pubkeyMap.get p.publicKey = some ref)
    (samePsk : (wg.peers ref).info.psk = p.presharedKey) :
    next.pubkeyMap.get p.publicKey = some ref ∧ (next.peers ref).transports = (wg.peers ref).transports ∧
      (next.peers ref).handshake = (wg.peers ref).handshake := by
  have peers := reloaded.rekeys.sameKey sameKey
  by_cases shows : p = shownAs (wg.peers ref) p
  · obtain ⟨isNext, ips, peer⟩ := reloaded.unchanged p isIn ref isKey shows
    rw [peer, peers]
    exact ⟨isNext, rfl, rfl⟩
  · obtain ⟨isNext, ips, peer⟩ := reloaded.modified p isIn ref isKey shows
    rw [peer, peers]
    exact ⟨isNext, setPeerInfo_sessions env samePsk⟩

end WgState

end Titun
