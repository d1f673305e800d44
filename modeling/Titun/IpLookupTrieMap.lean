import Titun.IpLookupTrie

/-! The trie stores a partial map from prefixes. Each operation has one lemma
that says what it does to the map, to well-formedness and to the place of the
node below its parent. -/
namespace Titun

open PrefixBits PrefixMap

theorem toMask_eq (n : Nat) : (toMask n : BitVec w) = highMask n := by
  unfold toMask
  split
  next h => subst h; exact highMask_zero.symm
  next h => rfl

theorem nextBitMask1_eq (n : Nat) : (nextBitMask1 n : BitVec w) = probe n := rfl

theorem commonPrefixLen_eq (k1 k2 : BitVec w) (len1 len2 : Nat) :
    commonPrefixLen k1 len1 k2 len2 = min (min len1 len2) (agreement k1 k2) := rfl

theorem masked_eq (a : BitVec w) (n : Nat) : masked a n = a &&& highMask n := by
  rw [masked, toMask_eq]

theorem masked_idem (a : BitVec w) (n : Nat) : masked (masked a n) n = masked a n := by
  simp [masked_eq]

namespace TrieNode

variable {α : Type}

/-- The binding of a prefix in a trie, wherever in the trie it is. -/
def get : TrieNode w α → PrefixMap w α
  | nil, _ => none
  | node k len left right value, key =>
    if key = ⟨k, len⟩ then value else (left.get key).or (right.get key)

/-- A node lies on side `side` of a parent with key `k` and length `len`. -/
def ChildOf (k : BitVec w) (len : Nat) (side : Bool) : TrieNode w α → Prop
  | nil => True
  | node k' len' _ _ _ => len < len' ∧ k'.getMsbD len = side ∧ SamePrefix len k' k

/-- What `self_check` tests at every node. -/
def Wf : TrieNode w α → Prop
  | nil => True
  | node k len left right value =>
    len ≤ w ∧ k &&& highMask len = k ∧ (value = none → left ≠ nil ∧ right ≠ nil) ∧
    (ChildOf k len false left ∧ left.Wf) ∧ ChildOf k len true right ∧ right.Wf

theorem isNone_iff {t : TrieNode w α} : t.isNone = true ↔ t = nil := by
  cases t <;> simp [isNone]

theorem Wf.get_prefix {k : BitVec w} {left right : TrieNode w α} {value : Option α} {key : Key w}
    (wf : (node k len left right value).Wf)
    (bound : (node k len left right value).get key = some v) :
    len ≤ key.len ∧ key.len ≤ w ∧ SamePrefix len key.bits k ∧
      key.bits &&& highMask key.len = key.bits := by
  generalize whole : node k len left right value = t at wf bound
  induction t generalizing k len left right value with
  | nil => cases whole
  | node k' len' left' right' value' ihl ihr =>
    obtain ⟨rfl, rfl, rfl, rfl, rfl⟩ := node.inj whole
    obtain ⟨bounded, masked, _, ⟨leftChild, leftWf⟩, rightChild, rightWf⟩ := wf
    by_cases here : key = ⟨k, len⟩
    · subst here
      exact ⟨Nat.le_refl _, bounded, SamePrefix.refl _ _, masked⟩
    · simp only [get, if_neg here, Option.or_eq_some_iff] at bound
      rcases bound with inLeft | ⟨_, inRight⟩
      · cases left with
        | nil => cases inLeft
        | node =>
          obtain ⟨longer, _, same⟩ := leftChild
          obtain ⟨le, leW, agree, keyMasked⟩ := ihl rfl leftWf inLeft
          exact ⟨by omega, leW, (agree.mono (by omega)).trans same, keyMasked⟩
      · cases right with
        | nil => cases inRight
        | node =>
          obtain ⟨longer, _, same⟩ := rightChild
          obtain ⟨le, leW, agree, keyMasked⟩ := ihr rfl rightWf inRight
          exact ⟨by omega, leW, (agree.mono (by omega)).trans same, keyMasked⟩

theorem Wf.get_child {t : TrieNode w α} {key : Key w} (wf : t.Wf) (child : ChildOf k len side t)
    (bound : t.get key = some v) :
    len < key.len ∧ key.bits.getMsbD len = side ∧ SamePrefix len key.bits k := by
  cases t with
  | nil => cases bound
  | node =>
    obtain ⟨longer, onSide, same⟩ := child
    obtain ⟨le, _, agree, _⟩ := wf.get_prefix bound
    exact ⟨by omega, (agree len longer).trans onSide, (agree.mono (by omega)).trans same⟩

theorem Wf.get_child_none {t : TrieNode w α} {key : Key w} (wf : t.Wf)
    (child : ChildOf k len side t)
    (apart : ¬ (len < key.len ∧ key.bits.getMsbD len = side ∧ SamePrefix len key.bits k)) :
    t.get key = none := by
  cases bound : t.get key with
  | none => rfl
  | some v => exact absurd (wf.get_child child bound) apart

section children

variable {k : BitVec w} {left right : TrieNode w α} {value : Option α} {key : Key w}

theorem get_right (leftWf : left.Wf) (leftChild : ChildOf k len false left) (below : len < key.len)
    (bit : key.bits.getMsbD len = true) :
    (node k len left right value).get key = right.get key := by
  have apart : key ≠ ⟨k, len⟩ := by rintro rfl; exact Nat.lt_irrefl _ below
  have outside : left.get key = none := leftWf.get_child_none leftChild (by simp [bit])
  simp [get, apart, outside]

theorem get_left (rightWf : right.Wf) (rightChild : ChildOf k len true right) (below : len < key.len)
    (bit : key.bits.getMsbD len = false) :
    (node k len left right value).get key = left.get key := by
  have apart : key ≠ ⟨k, len⟩ := by rintro rfl; exact Nat.lt_irrefl _ below
  have outside : right.get key = none := rightWf.get_child_none rightChild (by simp [bit])
  simp [get, apart, outside]

theorem get_update_right (leftWf : left.Wf) (leftChild : ChildOf k len false left)
    (below : len < key.len) (bit : key.bits.getMsbD len = true)
    (map : right'.get = Function.update right.get key r) :
    (node k len left right' value).get =
      Function.update (node k len left right value).get key r := by
  funext other
  by_cases same : other = key
  · subst same
    rw [get_right leftWf leftChild below bit, map]
    simp
  · simp [get, map, same]

theorem get_update_left (rightWf : right.Wf) (rightChild : ChildOf k len true right)
    (below : len < key.len) (bit : key.bits.getMsbD len = false)
    (map : left'.get = Function.update left.get key r) :
    (node k len left' right value).get =
      Function.update (node k len left right value).get key r := by
  funext other
  by_cases same : other = key
  · subst same
    rw [get_left rightWf rightChild below bit, map]
    simp
  · simp [get, map, same]

theorem get_update_self (r : Option α) :
    (node k len left right r).get =
      Function.update (node k len left right value).get ⟨k, len⟩ r := by
  funext other
  by_cases same : other = ⟨k, len⟩ <;> simp [get, same]

end children

@[simp] theorem get_leaf (k : BitVec w) (len : Nat) (v : α) :
    (leaf k len v).get = Function.update (fun _ => none) ⟨k, len⟩ (some v) := by
  funext key
  by_cases here : key = ⟨k, len⟩ <;> simp [leaf, get, here]

theorem leaf_wf {k : BitVec w} (bounded : len ≤ w) (masked : k &&& highMask len = k) (v : α) :
    (leaf k len v).Wf := by
  simp [leaf, Wf, ChildOf, bounded, masked]

/-- Where an inserted key that does not extend the node's key parts from it. -/
theorem commonPrefixLen_spec {selfK k : BitVec w} (bounded : kLen ≤ w)
    (apart : ¬ (selfLen ≤ kLen ∧ SamePrefix selfLen selfK k)) :
    commonPrefixLen selfK selfLen k kLen < selfLen ∧
    commonPrefixLen selfK selfLen k kLen ≤ kLen ∧
    SamePrefix (commonPrefixLen selfK selfLen k kLen) selfK k ∧
    (commonPrefixLen selfK selfLen k kLen = kLen ∨
      selfK.getMsbD (commonPrefixLen selfK selfLen k kLen) ≠
        k.getMsbD (commonPrefixLen selfK selfLen k kLen)) := by
  have agree := samePrefix_agreement selfK k
  rw [commonPrefixLen_eq]
  by_cases same : selfK = k
  · subst same
    have shorter : kLen < selfLen := by
      by_contra long
      exact apart ⟨by omega, SamePrefix.refl _ _⟩
    rw [agreement_self]
    exact ⟨by omega, by omega, SamePrefix.refl _ _, Or.inl (by omega)⟩
  · have differ := getMsbD_agreement same
    have limit : ¬ (selfLen ≤ kLen ∧ selfLen ≤ agreement selfK k) := fun ⟨le, reach⟩ =>
      apart ⟨le, agree.mono reach⟩
    refine ⟨by omega, by omega, agree.mono (by omega), ?_⟩
    by_cases reach : kLen ≤ agreement selfK k
    · exact Or.inl (by omega)
    · right
      rw [show min (min selfLen kLen) (agreement selfK k) = agreement selfK k by omega]
      exact differ

section split

variable {selfK k : BitVec w} {left right : TrieNode w α} {value : Option α}

theorem split_get (wf : (node selfK selfLen left right value).Wf) (bounded : kLen ≤ w)
    (maskedK : k &&& highMask kLen = k) (apart : ¬ (selfLen ≤ kLen ∧ SamePrefix selfLen selfK k)) :
    (split selfK selfLen (node selfK selfLen left right value) k kLen v).get =
      Function.update (node selfK selfLen left right value).get ⟨k, kLen⟩ (some v) := by
  obtain ⟨shorter, le, agree, parting⟩ := commonPrefixLen_spec bounded apart
  simp only [split, toMask_eq]
  generalize commonPrefixLen selfK selfLen k kLen = c at *
  generalize old : node selfK selfLen left right value = self at *
  have absent : self.get ⟨k, kLen⟩ = none := by
    cases h : self.get ⟨k, kLen⟩ with
    | none => rfl
    | some u =>
      subst old
      obtain ⟨long, _, same, _⟩ := wf.get_prefix h
      exact absurd ⟨long, same.symm⟩ apart
  have parentAbsent (bits : BitVec w) : self.get ⟨bits, c⟩ = none := by
    cases h : self.get ⟨bits, c⟩ with
    | none => rfl
    | some u =>
      subst old
      have long := (wf.get_prefix h).1
      simp only at long
      omega
  funext key
  by_cases atEnd : kLen = c
  · subst atEnd
    have newK : selfK &&& highMask kLen = k := by
      rw [and_highMask_eq_iff.mpr agree, maskedK]
    by_cases here : key = ⟨k, kLen⟩ <;> split_ifs <;> simp_all [get]
  · by_cases here : key = ⟨k, kLen⟩
    · subst here
      split_ifs <;> simp_all [get]
    · by_cases above : key = ⟨selfK &&& highMask c, c⟩
      · subst above
        split_ifs <;> simp_all [get]
      · split_ifs <;> simp_all [get]

theorem split_wf (wf : (node selfK selfLen left right value).Wf) (bounded : kLen ≤ w)
    (maskedK : k &&& highMask kLen = k) (apart : ¬ (selfLen ≤ kLen ∧ SamePrefix selfLen selfK k)) :
    (split selfK selfLen (node selfK selfLen left right value) k kLen v).Wf := by
  obtain ⟨shorter, le, agree, parting⟩ := commonPrefixLen_spec bounded apart
  simp only [split, toMask_eq, nextBitMask1_eq, and_probe_ne_zero_iff]
  generalize commonPrefixLen selfK selfLen k kLen = c at *
  have newSelf : SamePrefix c selfK (selfK &&& highMask c) :=
    (samePrefix_and_highMask selfK (Nat.le_refl c)).symm
  have newMasked : selfK &&& highMask c &&& highMask c = selfK &&& highMask c := by simp
  have newLeaf : SamePrefix c k (selfK &&& highMask c) := agree.symm.trans newSelf
  have leafWf : (leaf k kLen v).Wf := leaf_wf bounded maskedK v
  by_cases atEnd : kLen = c
  · by_cases bit : selfK.getMsbD c = true
    · simp only [atEnd, bit, ne_eq, not_true_eq_false, if_false, if_true]
      exact ⟨by omega, newMasked, by simp, ⟨trivial, trivial⟩, ⟨shorter, bit, newSelf⟩, wf⟩
    · simp only [Bool.not_eq_true] at bit
      simp only [atEnd, bit, ne_eq, not_true_eq_false, if_false, Bool.false_eq_true]
      exact ⟨by omega, newMasked, by simp, ⟨⟨shorter, bit, newSelf⟩, wf⟩, trivial, trivial⟩
  · have longer : c < kLen := by omega
    have differ : selfK.getMsbD c ≠ k.getMsbD c := parting.resolve_left (Ne.symm atEnd)
    by_cases bit : selfK.getMsbD c = true
    · have other : k.getMsbD c = false := by simpa [bit] using differ
      simp only [atEnd, bit, ne_eq, not_false_eq_true, if_true]
      exact ⟨by omega, newMasked, by simp [leaf], ⟨⟨longer, other, newLeaf⟩, leafWf⟩,
        ⟨shorter, bit, newSelf⟩, wf⟩
    · simp only [Bool.not_eq_true] at bit
      have other : k.getMsbD c = true := by simpa [bit] using differ
      simp only [atEnd, bit, ne_eq, not_false_eq_true, if_true, Bool.false_eq_true, if_false]
      exact ⟨by omega, newMasked, by simp [leaf], ⟨⟨shorter, bit, newSelf⟩, wf⟩,
        ⟨longer, other, newLeaf⟩, leafWf⟩

theorem split_childOf {self : TrieNode w α} (bounded : kLen ≤ w)
    (apart : ¬ (selfLen ≤ kLen ∧ SamePrefix selfLen selfK k))
    (selfChild : len < selfLen ∧ selfK.getMsbD len = side ∧ SamePrefix len selfK parentK)
    (keyChild : len < kLen ∧ k.getMsbD len = side ∧ SamePrefix len k parentK) :
    ChildOf parentK len side (split selfK selfLen self k kLen v) := by
  obtain ⟨shorter, le, agree, parting⟩ := commonPrefixLen_spec bounded apart
  obtain ⟨below, onSide, same⟩ := selfChild
  obtain ⟨keyBelow, keySide, keySame⟩ := keyChild
  have deep : len < commonPrefixLen selfK selfLen k kLen := by
    by_contra high
    rcases parting with atEnd | differ
    · omega
    · by_cases here : commonPrefixLen selfK selfLen k kLen = len
      · rw [here] at differ
        exact differ (onSide.trans keySide.symm)
      · exact differ ((same _ (by omega)).trans (keySame _ (by omega)).symm)
  have newSame : SamePrefix (commonPrefixLen selfK selfLen k kLen)
      (selfK &&& toMask (commonPrefixLen selfK selfLen k kLen)) selfK := by
    rw [toMask_eq]; exact samePrefix_and_highMask selfK (Nat.le_refl _)
  have placed : len < commonPrefixLen selfK selfLen k kLen ∧
      (selfK &&& toMask (commonPrefixLen selfK selfLen k kLen)).getMsbD len = side ∧
      SamePrefix len (selfK &&& toMask (commonPrefixLen selfK selfLen k kLen)) parentK :=
    ⟨deep, (newSame len deep).trans onSide, (newSame.mono (by omega)).trans same⟩
  simp only [split]
  split_ifs <;> exact placed

theorem split_ne_nil {self : TrieNode w α} : split selfK selfLen self k kLen v ≠ nil := by
  simp only [split]
  split_ifs <;> simp

end split

/-- Inserting a masked key rebinds exactly that key. -/
theorem insert_spec {t : TrieNode w α} {k : BitVec w} (wf : t.Wf) (bounded : kLen ≤ w)
    (maskedK : k &&& highMask kLen = k) :
    (t.insert k kLen v).1 = t.get ⟨k, kLen⟩ ∧
    (t.insert k kLen v).2.get = Function.update t.get ⟨k, kLen⟩ (some v) ∧
    (t.insert k kLen v).2.Wf ∧ (t.insert k kLen v).2 ≠ nil ∧
    ∀ parentK len side, ChildOf parentK len side t →
      len < kLen ∧ k.getMsbD len = side ∧ SamePrefix len k parentK →
      ChildOf parentK len side (t.insert k kLen v).2 := by
  induction t with
  | nil =>
    refine ⟨rfl, get_leaf k kLen v, leaf_wf bounded maskedK v, by simp [insert, leaf], ?_⟩
    exact fun _ _ _ _ placed => placed
  | node selfK selfLen left right value ihl ihr =>
    have whole := wf
    obtain ⟨selfBounded, selfMasked, full, ⟨leftChild, leftWf⟩, rightChild, rightWf⟩ := wf
    simp only [insert, toMask_eq, nextBitMask1_eq, and_highMask_eq_iff, and_probe_ne_zero_iff]
    by_cases here : selfLen = kLen ∧ SamePrefix selfLen selfK k
    · obtain ⟨rfl, same⟩ := here
      obtain rfl : selfK = k := same.eq_of_masked selfMasked maskedK
      simp only [SamePrefix.refl, and_self, if_true]
      exact ⟨by simp [get], get_update_self _, ⟨selfBounded, selfMasked, by simp,
        ⟨leftChild, leftWf⟩, rightChild, rightWf⟩, by simp, fun _ _ _ placed _ => placed⟩
    rw [if_neg here]
    by_cases below : kLen > selfLen ∧ SamePrefix selfLen k selfK
    · rw [if_pos below]
      by_cases bit : k.getMsbD selfLen = true
      · rw [if_pos bit]
        obtain ⟨old, map, newWf, present, place⟩ := ihr rightWf
        have newChild := place selfK selfLen true rightChild ⟨below.1, bit, below.2⟩
        exact ⟨old.trans (get_right leftWf leftChild below.1 bit).symm,
          get_update_right leftWf leftChild below.1 bit map,
          ⟨selfBounded, selfMasked, fun empty => ⟨(full empty).1, present⟩,
            ⟨leftChild, leftWf⟩, newChild, newWf⟩, by simp, fun _ _ _ placed _ => placed⟩
      · rw [if_neg bit]
        rw [Bool.not_eq_true] at bit
        obtain ⟨old, map, newWf, present, place⟩ := ihl leftWf
        have newChild := place selfK selfLen false leftChild ⟨below.1, bit, below.2⟩
        exact ⟨old.trans (get_left rightWf rightChild below.1 bit).symm,
          get_update_left rightWf rightChild below.1 bit map,
          ⟨selfBounded, selfMasked, fun empty => ⟨present, (full empty).2⟩,
            ⟨newChild, newWf⟩, rightChild, rightWf⟩, by simp, fun _ _ _ placed _ => placed⟩
    · rw [if_neg below]
      have apart : ¬ (selfLen ≤ kLen ∧ SamePrefix selfLen selfK k) := by
        rintro ⟨le, same⟩
        by_cases eq : selfLen = kLen
        · exact here ⟨eq, same⟩
        · exact below ⟨by omega, same.symm⟩
      refine ⟨?_, split_get whole bounded maskedK apart, split_wf whole bounded maskedK apart,
        split_ne_nil, fun _ _ _ => split_childOf bounded apart⟩
      cases bound : (node selfK selfLen left right value).get ⟨k, kLen⟩ with
      | none => rfl
      | some u =>
        obtain ⟨le, _, same, _⟩ := whole.get_prefix bound
        exact absurd ⟨le, same.symm⟩ apart

section collapse

variable {k : BitVec w} {left right : TrieNode w α} {value : Option α}

theorem collapse_get (leftWf : left.Wf) (leftChild : ChildOf k len false left)
    (rightWf : right.Wf) (rightChild : ChildOf k len true right) :
    (collapse k len left right value).get = (node k len left right value).get := by
  have leftAbsent : left.get ⟨k, len⟩ = none := leftWf.get_child_none leftChild (by simp)
  have rightAbsent : right.get ⟨k, len⟩ = none := rightWf.get_child_none rightChild (by simp)
  simp only [collapse]
  split_ifs with empty noLeft noRight
  · rw [Option.isNone_iff_eq_none] at empty
    rw [isNone_iff] at noLeft
    subst empty noLeft
    funext key
    by_cases here : key = ⟨k, len⟩ <;> simp [get, here, rightAbsent]
  · rw [Option.isNone_iff_eq_none] at empty
    rw [isNone_iff] at noRight
    subst empty noRight
    funext key
    by_cases here : key = ⟨k, len⟩ <;> simp [get, here, leftAbsent]
  · rfl
  · rfl

theorem collapse_wf (bounded : len ≤ w) (maskedK : k &&& highMask len = k)
    (leftWf : left.Wf) (leftChild : ChildOf k len false left)
    (rightWf : right.Wf) (rightChild : ChildOf k len true right) :
    (collapse k len left right value).Wf := by
  simp only [collapse]
  split_ifs with empty noLeft noRight
  · exact rightWf
  · exact leftWf
  · rw [isNone_iff] at noLeft noRight
    exact ⟨bounded, maskedK, fun _ => ⟨noLeft, noRight⟩, ⟨leftChild, leftWf⟩, rightChild, rightWf⟩
  · rw [Option.isNone_iff_eq_none] at empty
    exact ⟨bounded, maskedK, fun none => absurd none empty, ⟨leftChild, leftWf⟩, rightChild, rightWf⟩

theorem ChildOf.up {t : TrieNode w α} (child : ChildOf k len side t)
    (placed : parentLen < len ∧ k.getMsbD parentLen = parentSide ∧ SamePrefix parentLen k parentK) :
    ChildOf parentK parentLen parentSide t := by
  cases t with
  | nil => trivial
  | node =>
    obtain ⟨below, _, same⟩ := child
    obtain ⟨parentBelow, onSide, parentSame⟩ := placed
    exact ⟨by omega, (same _ parentBelow).trans onSide, (same.mono (by omega)).trans parentSame⟩

theorem collapse_childOf (leftChild : ChildOf k len false left) (rightChild : ChildOf k len true right)
    (placed : parentLen < len ∧ k.getMsbD parentLen = side ∧ SamePrefix parentLen k parentK) :
    ChildOf parentK parentLen side (collapse k len left right value) := by
  simp only [collapse]
  split_ifs
  · exact rightChild.up placed
  · exact leftChild.up placed
  · exact placed
  · exact placed

end collapse

/-- Removing a key unbinds exactly that key; the key need not be masked. -/
theorem remove_spec {t : TrieNode w α} {k : BitVec w} (wf : t.Wf) (bounded : kLen ≤ w) :
    (t.remove k kLen).1 = t.get (Key.of k kLen) ∧
    (t.remove k kLen).2.get = Function.update t.get (Key.of k kLen) none ∧
    (t.remove k kLen).2.Wf ∧
    ∀ parentK len side, ChildOf parentK len side t → ChildOf parentK len side (t.remove k kLen).2 := by
  induction t with
  | nil =>
    refine ⟨rfl, ?_, trivial, fun _ _ _ child => child⟩
    funext key
    by_cases here : key = Key.of k kLen <;> simp [remove, get, here]
  | node selfK selfLen left right value ihl ihr =>
    have whole := wf
    obtain ⟨selfBounded, selfMasked, full, ⟨leftChild, leftWf⟩, rightChild, rightWf⟩ := wf
    simp only [remove, toMask_eq, nextBitMask1_eq, and_probe_ne_zero_iff]
    simp only [ne_eq, and_highMask_eq_iff]
    by_cases here : (highMask selfLen : BitVec w) = highMask kLen ∧ SamePrefix kLen selfK k
    · rw [if_pos here]
      obtain rfl : selfLen = kLen := highMask_injective selfBounded bounded here.1
      have at_self : Key.of k selfLen = ⟨selfK, selfLen⟩ := by
        rw [← Key.of_eq_of_iff.mpr here.2]
        simp [Key.of, selfMasked]
      rw [at_self]
      dsimp only
      exact ⟨by simp [get],
        (collapse_get leftWf leftChild rightWf rightChild).trans (get_update_self _),
        collapse_wf selfBounded selfMasked leftWf leftChild rightWf rightChild,
        fun _ _ _ placed => collapse_childOf leftChild rightChild placed⟩
    rw [if_neg here]
    by_cases missing : kLen ≤ selfLen ∨ ¬ SamePrefix selfLen k selfK
    · rw [if_pos missing]
      have unbound : (node selfK selfLen left right value).get (Key.of k kLen) = none := by
        cases bound : (node selfK selfLen left right value).get (Key.of k kLen) with
        | none => rfl
        | some u =>
          obtain ⟨le, _, same, _⟩ := whole.get_prefix bound
          have agree : SamePrefix selfLen k selfK :=
            (samePrefix_and_highMask k le).symm.trans same
          rcases missing with short | apart
          · obtain rfl : selfLen = kLen := Nat.le_antisymm le short
            exact absurd ⟨rfl, agree.symm⟩ here
          · exact absurd agree apart
      exact ⟨unbound.symm, (Function.update_eq_self_iff.mpr unbound.symm).symm, whole,
        fun _ _ _ child => child⟩
    · rw [if_neg missing]
      rw [not_or, Nat.not_le, not_not] at missing
      obtain ⟨below, agree⟩ := missing
      have keyBit : (Key.of k kLen).bits.getMsbD selfLen = k.getMsbD selfLen :=
        samePrefix_and_highMask k (show selfLen + 1 ≤ kLen by omega) selfLen (by omega)
      by_cases bit : k.getMsbD selfLen = true
      · rw [if_pos bit]
        obtain ⟨old, map, newWf, place⟩ := ihr rightWf
        have newChild := place selfK selfLen true rightChild
        exact ⟨old.trans (get_right leftWf leftChild below (keyBit.trans bit)).symm,
          (collapse_get leftWf leftChild newWf newChild).trans
            (get_update_right leftWf leftChild below (keyBit.trans bit) map),
          collapse_wf selfBounded selfMasked leftWf leftChild newWf newChild,
          fun _ _ _ placed => collapse_childOf leftChild newChild placed⟩
      · rw [if_neg bit]
        rw [Bool.not_eq_true] at bit
        obtain ⟨old, map, newWf, place⟩ := ihl leftWf
        have newChild := place selfK selfLen false leftChild
        exact ⟨old.trans (get_left rightWf rightChild below (keyBit.trans bit)).symm,
          (collapse_get newWf newChild rightWf rightChild).trans
            (get_update_left rightWf rightChild below (keyBit.trans bit) map),
          collapse_wf selfBounded selfMasked newWf newChild rightWf rightChild,
          fun _ _ _ placed => collapse_childOf newChild rightChild placed⟩

section lookup

variable {k a : BitVec w} {left right : TrieNode w α} {value : Option α}

theorem longest_outside (wf : (node k len left right value).Wf) (outside : ¬ SamePrefix len k a) :
    longest (node k len left right value).get a = none := by
  apply longest_eq_of_isLongest
  intro n _
  cases bound : (node k len left right value).get (Key.of a n) with
  | none => rfl
  | some v =>
    obtain ⟨le, _, same, _⟩ := wf.get_prefix bound
    exact absurd (same.symm.trans (samePrefix_and_highMask a le)) outside

/-- Below a node that covers the address, only the child on the side of the
address's next bit matters; the node's own value is the fallback. -/
theorem longest_node {child : TrieNode w α} (wf : (node k len left right value).Wf)
    (inside : SamePrefix len k a)
    (descends : ∀ n, len < n → (node k len left right value).get (Key.of a n) = child.get (Key.of a n))
    (childWf : child.Wf) (place : ChildOf k len side child) :
    longest (node k len left right value).get a = (longest child.get a).or value := by
  have bounded := wf.1
  have own : (node k len left right value).get (Key.of a len) = value := by
    have at_self : Key.of a len = ⟨k, len⟩ := by
      rw [← Key.of_eq_of_iff.mpr inside]
      simp [Key.of, wf.2.1]
    simp [get, at_self]
  have shorter (n : Nat) (lt : n < len) :
      (node k len left right value).get (Key.of a n) = none := by
    cases bound : (node k len left right value).get (Key.of a n) with
    | none => rfl
    | some v =>
      have le := (wf.get_prefix bound).1
      simp only [Key.of_len] at le
      omega
  have childShort (n : Nat) (le : n ≤ len) : child.get (Key.of a n) = none :=
    childWf.get_child_none place (by rintro ⟨lt, _⟩; simp only [Key.of_len] at lt; omega)
  rw [longest_eq_or bounded descends childShort shorter, own]

end lookup

/-- The descent finds the value of the longest prefix, or keeps the best one it came with. -/
theorem longestMatch_spec {t : TrieNode w α} (wf : t.Wf) (a : BitVec w) (best : Option α) :
    t.longestMatch a best = (longest t.get a).or best := by
  induction t generalizing best with
  | nil =>
    have absent : longest (nil : TrieNode w α).get a = none :=
      longest_eq_of_isLongest fun _ _ => rfl
    simp [longestMatch, absent]
  | node k len left right value ihl ihr =>
    have whole := wf
    obtain ⟨bounded, _, _, ⟨leftChild, leftWf⟩, rightChild, rightWf⟩ := wf
    simp only [longestMatch, toMask_eq, nextBitMask1_eq, and_probe_ne_zero_iff, and_highMask_eq_iff]
    by_cases inside : SamePrefix len k a
    swap
    · rw [if_neg inside, longest_outside whole inside, Option.none_or]
    rw [if_pos inside]
    have keep : (if value.isSome then value else best) = value.or best := by
      cases value <;> rfl
    have keyBit (n : Nat) (lt : len < n) : (Key.of a n).bits.getMsbD len = a.getMsbD len :=
      samePrefix_and_highMask a (Nat.succ_le_of_lt lt) len (Nat.lt_succ_self len)
    rw [keep]
    by_cases full : len = w
    · subst full
      rw [highMask_full, if_neg (by simp)]
      have bottom : longest (node k len left right value).get a = (none : Option α).or value := by
        have absent : longest (nil : TrieNode len α).get a = none :=
          longest_eq_of_isLongest fun _ _ => rfl
        rw [← absent]
        refine longest_node whole inside (fun n lt => ?_) trivial (show ChildOf k len true nil from trivial)
        cases bound : (node k len left right value).get (Key.of a n) with
        | none => rfl
        | some v =>
          have le := (whole.get_prefix bound).2.1
          simp only [Key.of_len] at le
          omega
      rw [bottom, Option.none_or]
    · have notFull : (highMask len : BitVec w) ≠ BitVec.allOnes w := by
        rw [← highMask_full]
        exact fun same => full (highMask_injective bounded (Nat.le_refl w) same)
      rw [if_pos notFull]
      by_cases bit : a.getMsbD len = true
      · rw [if_pos bit, ihr rightWf, ← Option.or_assoc, longest_node whole inside
          (fun n lt => get_right leftWf leftChild lt ((keyBit n lt).trans bit)) rightWf rightChild]
      · rw [if_neg bit]
        rw [Bool.not_eq_true] at bit
        rw [ihl leftWf, ← Option.or_assoc, longest_node whole inside
          (fun n lt => get_left rightWf rightChild lt ((keyBit n lt).trans bit)) leftWf leftChild]

end TrieNode

end Titun
