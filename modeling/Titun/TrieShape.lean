import Titun.IpLookupTable

/-! A trie has no freedom of shape: what it binds determines every node. -/
namespace Titun

open PrefixBits PrefixMap

variable {α : Type}

/-- What `self_check` reports. -/
inductive TrieFault (w : Nat) where
  | invalidLen (len : Nat)
  | unmasked (k : BitVec w) (len : Nat)
  | oneChild
  | parentLen (parentLen len : Nat)
  | wrongPosition
  | notPrefix (parentK k : BitVec w)
  deriving DecidableEq, Repr

namespace TrieNode

/-- What `self_check_as_child` tests of a child before it goes on with `self_check`. -/
def checkAsChild (parentK : BitVec w) (parentLen : Nat) (rightChild : Bool) : TrieNode w α → Except (TrieFault w) Unit
  | nil => .ok ()
  | node k len _ _ _ =>
    if parentLen ≥ len then .error (.parentLen parentLen len)
    else if decide (k &&& nextBitMask1 parentLen ≠ 0) ≠ rightChild then .error .wrongPosition
    else if k &&& toMask parentLen ≠ parentK then .error (.notPrefix parentK k)
    else .ok ()

def selfCheck : TrieNode w α → Except (TrieFault w) Unit
  | nil => .ok ()
  | node k len left right value => do
    if len > w then .error (.invalidLen len)
    else if k &&& toMask len ≠ k then .error (.unmasked k len)
    else if value.isNone ∧ (left.isNone ∨ right.isNone) then .error .oneChild
    else
      left.checkAsChild k len false
      left.selfCheck
      right.checkAsChild k len true
      right.selfCheck

theorem checkAsChild_iff {t : TrieNode w α} {k : BitVec w} (masked : k &&& highMask len = k) :
    t.checkAsChild k len side = .ok () ↔ ChildOf k len side t := by
  cases t with
  | nil => simp [checkAsChild, ChildOf]
  | node k' len' left right value =>
    have agree : k' &&& highMask len = k ↔ SamePrefix len k' k := by
      rw [← and_highMask_eq_iff, masked]
    simp only [checkAsChild, ChildOf, toMask_eq, nextBitMask1_eq, and_probe_ne_zero_iff, ne_eq]
    split_ifs with short position apart
    · simp only [false_iff, not_and]
      intro longer
      omega
    · simp_all
    · simp_all
    · simp_all

/-- `self_check` tests exactly the invariant. -/
theorem selfCheck_iff {t : TrieNode w α} : t.selfCheck = .ok () ↔ t.Wf := by
  induction t with
  | nil => simp [selfCheck, Wf]
  | node k len left right value ihl ihr =>
    have sequence (a b : Except (TrieFault w) Unit) : (a >>= fun _ => b) = .ok () ↔ a = .ok () ∧ b = .ok () := by
      cases a <;> simp [bind, Except.bind]
    rw [selfCheck, Wf, toMask_eq]
    split_ifs with long unmasked lone
    · simp only [false_iff]
      intro wf
      omega
    · simp only [false_iff]
      intro wf
      exact unmasked wf.2.1
    · simp only [false_iff]
      intro wf
      obtain ⟨leftSome, rightSome⟩ := wf.2.2.1 (Option.isNone_iff_eq_none.mp lone.1)
      exact lone.2.elim (fun none => leftSome (isNone_iff.mp none)) fun none => rightSome (isNone_iff.mp none)
    · have masked : k &&& highMask len = k := not_not.mp unmasked
      rw [sequence, sequence, sequence, checkAsChild_iff masked, checkAsChild_iff masked, ihl, ihr]
      have full : value = none → left ≠ nil ∧ right ≠ nil := by
        intro empty
        have both := not_and.mp lone (Option.isNone_iff_eq_none.mpr empty)
        rw [not_or, isNone_iff, isNone_iff] at both
        exact both
      constructor
      · rintro ⟨leftChild, leftWf, rightChild, rightWf⟩
        exact ⟨by omega, masked, full, ⟨leftChild, leftWf⟩, rightChild, rightWf⟩
      · rintro ⟨_, _, _, ⟨leftChild, leftWf⟩, rightChild, rightWf⟩
        exact ⟨leftChild, leftWf, rightChild, rightWf⟩

theorem Wf.exists_get {t : TrieNode w α} (wf : t.Wf) (some : t ≠ nil) : ∃ key v, t.get key = .some v := by
  induction t with
  | nil => exact absurd rfl some
  | node k len left right value ihl _ =>
    obtain ⟨_, _, full, ⟨leftChild, leftWf⟩, rightChild, rightWf⟩ := wf
    cases value with
    | some v => exact ⟨⟨k, len⟩, v, by simp [get]⟩
    | none =>
      obtain ⟨key, v, bound⟩ := ihl leftWf (full rfl).1
      obtain ⟨below, bit, _⟩ := leftWf.get_child leftChild bound
      exact ⟨key, v, (get_left rightWf rightChild below bit).trans bound⟩

theorem Wf.get_eq_none_iff {t : TrieNode w α} (wf : t.Wf) : (∀ key, t.get key = none) ↔ t = nil := by
  constructor
  · intro empty
    by_contra some
    obtain ⟨key, v, bound⟩ := wf.exists_get some
    exact absurd bound (by simp [empty])
  · rintro rfl key
    rfl

/-- No prefix longer than the key of a node is a prefix of all that is bound in it. -/
theorem Wf.reach {k base : BitVec w} {left right : TrieNode w α} {value : Option α}
    (wf : (node k len left right value).Wf)
    (shared : ∀ key v, (node k len left right value).get key = some v → m ≤ key.len ∧ SamePrefix m key.bits base) :
    m ≤ len := by
  obtain ⟨_, _, full, ⟨leftChild, leftWf⟩, rightChild, rightWf⟩ := wf
  cases value with
  | some v => exact (shared ⟨k, len⟩ v (by simp [get])).1
  | none =>
    obtain ⟨leftSome, rightSome⟩ := full rfl
    obtain ⟨leftKey, u, leftBound⟩ := leftWf.exists_get leftSome
    obtain ⟨rightKey, v, rightBound⟩ := rightWf.exists_get rightSome
    obtain ⟨leftBelow, leftBit, _⟩ := leftWf.get_child leftChild leftBound
    obtain ⟨rightBelow, rightBit, _⟩ := rightWf.get_child rightChild rightBound
    have leftShared := (shared leftKey u ((get_left rightWf rightChild leftBelow leftBit).trans leftBound)).2
    have rightShared := (shared rightKey v ((get_right leftWf leftChild rightBelow rightBit).trans rightBound)).2
    by_contra longer
    have same := (leftShared.trans rightShared.symm) len (by omega)
    rw [leftBit, rightBit] at same
    cases same

theorem Wf.child_congr {k : BitVec w} {left right left' right' : TrieNode w α} {value value' : Option α}
    (wf : (node k len left right value).Wf) (other : (node k len left' right' value').Wf)
    (same : (node k len left right value).get = (node k len left' right' value').get) :
    left.get = left'.get ∧ right.get = right'.get := by
  obtain ⟨_, _, _, ⟨leftChild, leftWf⟩, rightChild, rightWf⟩ := wf
  obtain ⟨_, _, _, ⟨leftChild', leftWf'⟩, rightChild', rightWf'⟩ := other
  constructor
  · funext key
    by_cases inside : len < key.len ∧ key.bits.getMsbD len = false
    · have whole := congrFun same key
      rwa [get_left rightWf rightChild inside.1 inside.2, get_left rightWf' rightChild' inside.1 inside.2] at whole
    · have outside : ∀ k, ¬ (len < key.len ∧ key.bits.getMsbD len = false ∧ SamePrefix len key.bits k) :=
        fun k placed => inside ⟨placed.1, placed.2.1⟩
      rw [leftWf.get_child_none leftChild (outside k), leftWf'.get_child_none leftChild' (outside k)]
  · funext key
    by_cases inside : len < key.len ∧ key.bits.getMsbD len = true
    · have whole := congrFun same key
      rwa [get_right leftWf leftChild inside.1 inside.2, get_right leftWf' leftChild' inside.1 inside.2] at whole
    · have outside : ∀ k, ¬ (len < key.len ∧ key.bits.getMsbD len = true ∧ SamePrefix len key.bits k) :=
        fun k placed => inside ⟨placed.1, placed.2.1⟩
      rw [rightWf.get_child_none rightChild (outside k), rightWf'.get_child_none rightChild' (outside k)]

/-- What is bound determines the trie. -/
theorem Wf.eq_of_get {t u : TrieNode w α} (wf : t.Wf) (other : u.Wf) (same : t.get = u.get) : t = u := by
  induction t generalizing u with
  | nil => exact (other.get_eq_none_iff.mp fun key => (congrFun same key).symm).symm
  | node k len left right value ihl ihr =>
    cases u with
    | nil => exact absurd (wf.get_eq_none_iff.mp fun key => congrFun same key) (by simp)
    | node k' len' left' right' value' =>
      -- The key is the longest prefix of all that is bound.
      have here : ∀ key v, (node k len left right value).get key = some v →
          len ≤ key.len ∧ SamePrefix len key.bits k := by
        intro key v bound
        obtain ⟨le, _, agree, _⟩ := wf.get_prefix bound
        exact ⟨le, agree⟩
      have there : ∀ key v, (node k len left right value).get key = some v →
          len' ≤ key.len ∧ SamePrefix len' key.bits k' := by
        intro key v bound
        obtain ⟨le, _, agree, _⟩ := other.get_prefix (same ▸ bound)
        exact ⟨le, agree⟩
      obtain rfl : len = len' := by
        apply Nat.le_antisymm
        · exact other.reach fun key v bound => here key v (same ▸ bound)
        · exact wf.reach there
      obtain ⟨key, v, bound⟩ := wf.exists_get (by simp)
      have agree : SamePrefix len k k' := (here key v bound).2.symm.trans (there key v bound).2
      obtain rfl : k = k' := agree.eq_of_masked wf.2.1 other.2.1
      obtain ⟨leftSame, rightSame⟩ := wf.child_congr other same
      obtain rfl := ihl wf.2.2.2.1.2 other.2.2.2.1.2 leftSame
      obtain rfl := ihr wf.2.2.2.2.2 other.2.2.2.2.2 rightSame
      have values := congrFun same ⟨k, len⟩
      simp only [get, if_true] at values
      rw [values]

end TrieNode

namespace IpLookupTable

def isEmpty (table : IpLookupTable w α) : Bool := table.root.isNone

def selfCheck (table : IpLookupTable w α) : Except (TrieFault w) Unit := table.root.selfCheck

theorem isEmpty_iff {table : IpLookupTable w α} (wf : table.Wf) :
    table.isEmpty = true ↔ table.get = PrefixMap.empty := by
  rw [isEmpty, TrieNode.isNone_iff, ← TrieNode.Wf.get_eq_none_iff wf]
  exact ⟨fun none => funext none, fun same key => congrFun same key⟩

theorem Wf.eq_of_get {table other : IpLookupTable w α} (wf : table.Wf) (otherWf : other.Wf)
    (same : table.get = other.get) : table = other := by
  cases table
  cases other
  exact congrArg mk (TrieNode.Wf.eq_of_get wf otherWf same)

end IpLookupTable

/-- Any calls leave a trie that passes its check. It is empty exactly when nothing is bound, and any other
calls that leave the same bindings leave the same trie. -/
theorem trie_shape_canonical (ops : List (TableOp w α)) (bounded : ∀ op ∈ ops, op.prefixLen ≤ w) :
    ∃ outs table, IpLookupTable.new.run ops = .ok (outs, table) ∧ table.selfCheck = .ok () ∧
      (table.isEmpty = true ↔ (mapRun PrefixMap.empty ops).2 = PrefixMap.empty) ∧
      ∀ others : List (TableOp w α), (∀ op ∈ others, op.prefixLen ≤ w) →
        (mapRun PrefixMap.empty others).2 = (mapRun PrefixMap.empty ops).2 →
        ∃ outs', IpLookupTable.new.run others = .ok (outs', table) := by
  obtain ⟨table, run, wf, map⟩ := IpLookupTable.run_spec IpLookupTable.new_wf bounded
  rw [IpLookupTable.get_new] at map
  refine ⟨_, table, run, TrieNode.selfCheck_iff.mpr wf, ?_, ?_⟩
  · rw [IpLookupTable.isEmpty_iff wf, map]
  · intro others otherBounded same
    obtain ⟨other, otherRun, otherWf, otherMap⟩ := IpLookupTable.run_spec IpLookupTable.new_wf otherBounded
    rw [IpLookupTable.get_new] at otherMap
    obtain rfl := wf.eq_of_get otherWf (map.trans (same.symm.trans otherMap.symm))
    exact ⟨_, otherRun⟩

theorem trie_shape_canonical_ipv4 :
    (IpLookupTable.new.run [.insert 0x0a000000#32 8 (1 : Nat), .insert 0x0b000000 8 2, .remove 0x0b000000 8]).map Prod.snd
      = (IpLookupTable.new.run [.insert 0x0aff00ff 8 1]).map Prod.snd := by
  obtain ⟨outs, table, run, _, _, unique⟩ :=
    trie_shape_canonical [.insert 0x0a000000#32 8 (1 : Nat), .insert 0x0b000000 8 2, .remove 0x0b000000 8] (by decide)
  have sameBindings : (mapRun PrefixMap.empty [.insert 0x0aff00ff#32 8 (1 : Nat)]).2
      = (mapRun PrefixMap.empty [.insert 0x0a000000#32 8 (1 : Nat), .insert 0x0b000000 8 2, .remove 0x0b000000 8]).2 := by
    have key : Key.of 0x0aff00ff#32 8 = Key.of 0x0a000000 8 := by decide
    have apart : Key.of 0x0b000000#32 8 ≠ Key.of 0x0a000000 8 := by decide
    simp only [mapRun, mapApply, PrefixMap.insert, PrefixMap.remove, key, Function.update_idem]
    apply Eq.symm
    apply Function.update_eq_self_iff.mpr
    exact (Function.update_of_ne apart (some 1) PrefixMap.empty).symm
  obtain ⟨outs', run'⟩ := unique [.insert 0x0aff00ff 8 1] (by decide) sameBindings
  rw [run, run']
  rfl

end Titun
