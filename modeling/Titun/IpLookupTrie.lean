import Titun.Basic
import Titun.Lib.PrefixMap
import Mathlib.Data.Finmap

/-! The Patricia trie of the routing tables and the linear-search table it is
tested against. Addresses are their integers, so `w` is 32 for IPv4 and 128 for IPv6. -/
namespace Titun

/-- An optional boxed node: `nil` stands for `None`. -/
inductive TrieNode (w : Nat) (α : Type) where
  | nil
  | node (k : BitVec w) (len : Nat) (left right : TrieNode w α) (value : Option α)
  deriving DecidableEq, Repr

def toMask (prefixLen : Nat) : BitVec w :=
  if prefixLen = 0 then 0 else BitVec.allOnes w <<< (w - prefixLen)

def nextBitMask1 (len : Nat) : BitVec w := (1#w).rotateRight 1 >>> len

def commonPrefixLen (k1 : BitVec w) (len1 : Nat) (k2 : BitVec w) (len2 : Nat) : Nat :=
  min (min len1 len2) (k1 ^^^ k2).clz.toNat

namespace TrieNode

def isNone : TrieNode w α → Bool
  | nil => true
  | node .. => false

def leaf (k : BitVec w) (len : Nat) (v : α) : TrieNode w α := node k len nil nil (some v)

/-- The node that takes the place of `self` when neither key is a prefix of the
other, or the inserted key is the shorter one. -/
def split (selfK : BitVec w) (selfLen : Nat) (oldSelf : TrieNode w α)
    (k : BitVec w) (kLen : Nat) (v : α) : TrieNode w α :=
  let commonLen := commonPrefixLen selfK selfLen k kLen
  let newK := selfK &&& toMask commonLen
  let oldSelfNextBitIsSet := selfK &&& nextBitMask1 commonLen ≠ 0
  if kLen ≠ commonLen then
    if oldSelfNextBitIsSet then node newK commonLen (leaf k kLen v) oldSelf none
    else node newK commonLen oldSelf (leaf k kLen v) none
  else
    if oldSelfNextBitIsSet then node newK commonLen nil oldSelf (some v)
    else node newK commonLen oldSelf nil (some v)

/-- At `nil` the source creates a valueless node for the key and inserts into it,
which replaces that value at once. -/
def insert (k : BitVec w) (kLen : Nat) (v : α) : TrieNode w α → Option α × TrieNode w α
  | nil => (none, leaf k kLen v)
  | node selfK selfLen left right value =>
    let selfMask := toMask selfLen
    if selfLen = kLen ∧ selfK &&& selfMask = k &&& selfMask then
      (value, node selfK selfLen left right (some v))
    else if kLen > selfLen ∧ k &&& selfMask = selfK &&& selfMask then
      if k &&& nextBitMask1 selfLen ≠ 0 then
        let (old, right) := right.insert k kLen v
        (old, node selfK selfLen left right value)
      else
        let (old, left) := left.insert k kLen v
        (old, node selfK selfLen left right value)
    else
      (none, split selfK selfLen (node selfK selfLen left right value) k kLen v)

/-- Return a child if the node is no longer necessary. -/
def collapse (k : BitVec w) (len : Nat) (left right : TrieNode w α) (value : Option α) :
    TrieNode w α :=
  if value.isNone then
    if left.isNone then right
    else if right.isNone then left
    else node k len left right value
  else node k len left right value

def remove (k : BitVec w) (kLen : Nat) : TrieNode w α → Option α × TrieNode w α
  | nil => (none, nil)
  | node selfK selfLen left right value =>
    let mask := toMask kLen
    let selfMask := toMask selfLen
    if selfMask = mask ∧ selfK &&& mask = k &&& mask then
      (value, collapse selfK selfLen left right none)
    else if kLen ≤ selfLen ∨ k &&& selfMask ≠ selfK &&& selfMask then
      (none, node selfK selfLen left right value)
    else if k &&& nextBitMask1 selfLen ≠ 0 then
      let (result, right) := right.remove k kLen
      (result, collapse selfK selfLen left right value)
    else
      let (result, left) := left.remove k kLen
      (result, collapse selfK selfLen left right value)

/-- The descent of `longest_match`, with the best value found so far. -/
def longestMatch (k : BitVec w) (currentBest : Option α) : TrieNode w α → Option α
  | nil => currentBest
  | node selfK selfLen left right value =>
    let nMask := toMask selfLen
    if selfK &&& nMask = k &&& nMask then
      let currentBest := if value.isSome then value else currentBest
      if nMask ≠ BitVec.allOnes w then
        if k &&& nextBitMask1 selfLen ≠ 0 then right.longestMatch k currentBest
        else left.longestMatch k currentBest
      else currentBest
    else currentBest

end TrieNode

def masked (a : BitVec w) (prefixLen : Nat) : BitVec w := a &&& toMask prefixLen

structure IpLookupTable (w : Nat) (α : Type) where
  root : TrieNode w α
  deriving DecidableEq, Repr

namespace IpLookupTable

def new : IpLookupTable w α := ⟨.nil⟩

def insert (table : IpLookupTable w α) (addr : BitVec w) (prefixLen : Nat) (t : α) :
    Exec (Option α × IpLookupTable w α) := do
  assert (prefixLen ≤ w)
  let (old, root) := table.root.insert (addr &&& toMask prefixLen) prefixLen t
  return (old, ⟨root⟩)

def remove (table : IpLookupTable w α) (addr : BitVec w) (prefixLen : Nat) :
    Exec (Option α × IpLookupTable w α) := do
  assert (prefixLen ≤ w)
  let (result, root) := table.root.remove addr prefixLen
  return (result, ⟨root⟩)

def longestMatch (table : IpLookupTable w α) (addr : BitVec w) : Option α :=
  table.root.longestMatch addr none

end IpLookupTable

/-- The table of `simple.rs`: a vector of hash tables sorted by prefix length. -/
structure SimpleTable (w : Nat) (α : Type) where
  vec : List (Nat × Finmap fun _ : BitVec w => α)

namespace SimpleTable

def new : SimpleTable w α := ⟨[]⟩

def maskWithPrefix (a : BitVec w) (prefixLen : Nat) : BitVec w :=
  if prefixLen = 0 then 0 else BitVec.allOnes w <<< (w - prefixLen) &&& a

/-- The binary search in the sorted vector and the insertion at the position it returns. -/
def insertVec (k : BitVec w) (prefixLen : Nat) (t : α) :
    List (Nat × Finmap fun _ : BitVec w => α) →
      Option α × List (Nat × Finmap fun _ : BitVec w => α)
  | [] => (none, [(prefixLen, Finmap.singleton k t)])
  | (len, table) :: rest =>
    if prefixLen < len then
      (none, (prefixLen, Finmap.singleton k t) :: (len, table) :: rest)
    else if prefixLen = len then
      (table.lookup k, (len, table.insert k t) :: rest)
    else
      let (old, rest) := insertVec k prefixLen t rest
      (old, (len, table) :: rest)

def removeVec (k : BitVec w) (prefixLen : Nat) :
    List (Nat × Finmap fun _ : BitVec w => α) →
      Option α × List (Nat × Finmap fun _ : BitVec w => α)
  | [] => (none, [])
  | (len, table) :: rest =>
    if prefixLen = len then
      let left := table.erase k
      (table.lookup k, if left.keys = ∅ then rest else (len, left) :: rest)
    else
      let (result, rest) := removeVec k prefixLen rest
      (result, (len, table) :: rest)

def insert (s : SimpleTable w α) (a : BitVec w) (prefixLen : Nat) (t : α) :
    Option α × SimpleTable w α :=
  let (old, vec) := insertVec (maskWithPrefix a prefixLen) prefixLen t s.vec
  (old, ⟨vec⟩)

def remove (s : SimpleTable w α) (a : BitVec w) (prefixLen : Nat) : Option α × SimpleTable w α :=
  let (result, vec) := removeVec (maskWithPrefix a prefixLen) prefixLen s.vec
  (result, ⟨vec⟩)

def longestMatch (s : SimpleTable w α) (a : BitVec w) : Option α :=
  s.vec.reverse.findSome? fun (len, table) => table.lookup (maskWithPrefix a len)

end SimpleTable

end Titun
