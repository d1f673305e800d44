import Titun.TrieShape

/-! The iterators of the routing tables: explicit stacks of nodes yet to be visited. -/
namespace Titun

open PrefixBits PrefixMap

variable {α : Type}

abbrev Route (w : Nat) (α : Type) := BitVec w × Nat × α

/-- A node out of its box. -/
structure Unboxed (w : Nat) (α : Type) where
  k : BitVec w
  len : Nat
  left : TrieNode w α
  right : TrieNode w α
  value : Option α

namespace TrieNode

def unbox : TrieNode w α → Option (Unboxed w α)
  | nil => none
  | node k len left right value => some ⟨k, len, left, right, value⟩

def size : TrieNode w α → Nat
  | nil => 0
  | node _ _ left right _ => 1 + left.size + right.size

end TrieNode

def Unboxed.size (n : Unboxed w α) : Nat := 1 + n.left.size + n.right.size

/-- The nodes below those on a stack, and the stack's own. -/
def pending (nodes : List (Unboxed w α)) : Nat := (nodes.map Unboxed.size).sum

theorem pending_extend (t : TrieNode w α) (nodes : List (Unboxed w α)) :
    pending (t.unbox.toList ++ nodes) = t.size + pending nodes := by
  cases t <;> simp [TrieNode.unbox, pending, TrieNode.size, Unboxed.size]

theorem pending_push (t : TrieNode w α) (nodes : List (Unboxed w α)) :
    pending (match t.unbox with | some n => n :: nodes | none => nodes) = t.size + pending nodes := by
  cases t <;> simp [TrieNode.unbox, pending, TrieNode.size, Unboxed.size]

/-- `Iter::next`, which borrows the nodes. The top of the stack comes first. -/
def Iter.next : List (Unboxed w α) → Option (Route w α × List (Unboxed w α))
  | [] => none
  | n :: nodes =>
    let pushed := match n.right.unbox with | some r => r :: nodes | none => nodes
    let pushed := match n.left.unbox with | some l => l :: pushed | none => pushed
    match n.value with
    | some t => some ((n.k, n.len, t), pushed)
    | none => Iter.next pushed
termination_by nodes => pending nodes
decreasing_by
  simp only [pending_push]
  simp only [pending, List.map_cons, List.sum_cons, Unboxed.size]
  omega

/-- `IntoIter::next`, which consumes them. -/
def IntoIter.next : List (Unboxed w α) → Option (Route w α × List (Unboxed w α))
  | [] => none
  | n :: nodes =>
    let extended := n.left.unbox.toList ++ (n.right.unbox.toList ++ nodes)
    match n.value with
    | some t => some ((n.k, n.len, t), extended)
    | none => IntoIter.next extended
termination_by nodes => pending nodes
decreasing_by
  simp only [pending_extend]
  simp only [pending, List.map_cons, List.sum_cons, Unboxed.size]
  omega

/-- Calling `next` until it returns `None` yields these items. -/
inductive Yields {σ ι : Type} (next : σ → Option (ι × σ)) : σ → List ι → Prop
  | done (none : next s = none) : Yields next s []
  | item (some : next s = some (i, s')) (rest : Yields next s' items) : Yields next s (i :: items)

namespace IpLookupTable

/-- The stack that both iterators begin with. -/
def iter (table : IpLookupTable w α) : List (Unboxed w α) := table.root.unbox.toList

def fromIter (items : List (Route w α)) : Exec (IpLookupTable w α) :=
  items.foldlM (fun t (a, l, v) => do
    let (_, t) ← t.insert a l v
    return t) new

end IpLookupTable

namespace TrieNode

/-- The bindings of a trie, the node before its children and the left child before the right. -/
def routes : TrieNode w α → List (Route w α)
  | nil => []
  | node k len left right value => (value.map fun t => (k, len, t)).toList ++ (left.routes ++ right.routes)

end TrieNode

def Unboxed.routes (n : Unboxed w α) : List (Route w α) :=
  (n.value.map fun t => (n.k, n.len, t)).toList ++ (n.left.routes ++ n.right.routes)

theorem routes_unbox (t : TrieNode w α) : t.unbox.toList.flatMap Unboxed.routes = t.routes := by
  cases t <;> simp [TrieNode.unbox, TrieNode.routes, Unboxed.routes]

theorem next_eq (nodes : List (Unboxed w α)) : Iter.next nodes = IntoIter.next nodes := by
  have push (t : TrieNode w α) (nodes : List (Unboxed w α)) :
      (match t.unbox with | some n => n :: nodes | none => nodes) = t.unbox.toList ++ nodes := by
    cases t <;> rfl
  induction nodes using IntoIter.next.induct with
  | case1 => rw [Iter.next, IntoIter.next]
  | case2 n nodes t value =>
    rw [Iter.next, IntoIter.next]
    simp only [push, value]
  | case3 n nodes extended value ih =>
    rw [Iter.next, IntoIter.next]
    simp only [push, value]
    exact ih

/-- What a call returns is the first route that is left, and the stack holds the others. -/
theorem next_spec (nodes : List (Unboxed w α)) :
    match IntoIter.next nodes with
    | none => nodes.flatMap Unboxed.routes = []
    | some (route, rest) => nodes.flatMap Unboxed.routes = route :: rest.flatMap Unboxed.routes := by
  induction nodes using IntoIter.next.induct with
  | case1 =>
    rw [IntoIter.next]
    rfl
  | case2 n nodes t value =>
    rw [IntoIter.next]
    simp only [value]
    simp [Unboxed.routes, value, routes_unbox]
  | case3 n nodes extended value ih =>
    have same : (n :: nodes).flatMap Unboxed.routes = extended.flatMap Unboxed.routes := by
      simp [extended, Unboxed.routes, value, routes_unbox]
    rw [IntoIter.next]
    simp only [value]
    rw [same]
    exact ih

theorem yields_routes (nodes : List (Unboxed w α)) : Yields IntoIter.next nodes (nodes.flatMap Unboxed.routes) := by
  generalize left : nodes.flatMap Unboxed.routes = items
  induction items generalizing nodes with
  | nil =>
    have step := next_spec nodes
    apply Yields.done
    cases next : IntoIter.next nodes with
    | none => rfl
    | some found =>
      rw [next, left] at step
      cases step
  | cons route items ih =>
    have step := next_spec nodes
    cases next : IntoIter.next nodes with
    | none =>
      rw [next, left] at step
      cases step
    | some found =>
      rw [next, left] at step
      obtain ⟨rfl, rest⟩ := List.cons.inj step
      exact .item next (ih found.2 rest.symm)

def Before (r s : Route w α) : Prop := r.1.toNat < s.1.toNat ∨ r.1 = s.1 ∧ r.2.1 < s.2.1

namespace TrieNode

theorem mem_routes {t : TrieNode w α} (wf : t.Wf) (a : BitVec w) (len : Nat) (v : α) :
    (a, len, v) ∈ t.routes ↔ t.get ⟨a, len⟩ = some v := by
  induction t with
  | nil => simp [routes, get]
  | node k selfLen left right value ihl ihr =>
    obtain ⟨_, _, _, ⟨leftChild, leftWf⟩, rightChild, rightWf⟩ := wf
    rw [routes, List.mem_append, List.mem_append, ihl leftWf, ihr rightWf, get]
    by_cases here : (⟨a, len⟩ : Key w) = ⟨k, selfLen⟩
    · obtain ⟨rfl, rfl⟩ := Key.mk.inj here
      have leftAbsent : left.get ⟨a, len⟩ = none := leftWf.get_child_none leftChild (by simp)
      have rightAbsent : right.get ⟨a, len⟩ = none := rightWf.get_child_none rightChild (by simp)
      simp [leftAbsent, rightAbsent, eq_comm]
    · have other : (a, len, v) ∉ (value.map fun t => (k, selfLen, t)).toList := by
        intro isIn
        obtain ⟨t, _, same⟩ := Option.map_eq_some_iff.mp (Option.mem_toList.mp isIn)
        obtain ⟨rfl, rest⟩ := Prod.mk.inj same
        obtain ⟨rfl, _⟩ := Prod.mk.inj rest
        exact here rfl
      rw [if_neg here, Option.or_eq_some_iff]
      constructor
      · rintro (isIn | inLeft | inRight)
        · exact absurd isIn other
        · exact .inl inLeft
        · obtain ⟨_, bit, _⟩ := rightWf.get_child rightChild inRight
          exact .inr ⟨leftWf.get_child_none leftChild (by simp [bit]), inRight⟩
      · rintro (inLeft | ⟨_, inRight⟩)
        · exact .inr (.inl inLeft)
        · exact .inr (.inr inRight)

theorem Wf.get_key {t : TrieNode w α} (wf : t.Wf) (bound : t.get key = some v) :
    key.len ≤ w ∧ key.bits &&& highMask key.len = key.bits := by
  cases t with
  | nil => cases bound
  | node => exact (wf.get_prefix bound).2.imp_right And.right

theorem routes_sorted {t : TrieNode w α} (wf : t.Wf) : t.routes.Pairwise Before := by
  induction t with
  | nil => exact .nil
  | node k len left right value ihl ihr =>
    obtain ⟨_, masked, _, ⟨leftChild, leftWf⟩, rightChild, rightWf⟩ := wf
    have below (side : Bool) (t : TrieNode w α) (child : ChildOf k len side t) (childWf : t.Wf) :
        ∀ r ∈ t.routes, len < r.2.1 ∧ r.1.getMsbD len = side ∧ SamePrefix len r.1 k := by
      rintro ⟨a, n, v⟩ isIn
      exact childWf.get_child child ((mem_routes childWf a n v).mp isIn)
    have inLeft := below false left leftChild leftWf
    have inRight := below true right rightChild rightWf
    rw [routes, List.pairwise_append, List.pairwise_append]
    refine ⟨?_, ⟨ihl leftWf, ihr rightWf, ?_⟩, ?_⟩
    · cases value with
      | none => exact .nil
      | some v => exact List.pairwise_singleton _ _
    · intro r isLeft s isRight
      obtain ⟨_, leftBit, leftSame⟩ := inLeft r isLeft
      obtain ⟨_, rightBit, rightSame⟩ := inRight s isRight
      exact .inl ((leftSame.trans rightSame.symm).toNat_lt leftBit rightBit)
    · intro own isOwn r isIn
      obtain ⟨t, _, rfl⟩ := Option.map_eq_some_iff.mp (Option.mem_toList.mp isOwn)
      obtain ⟨longer, same⟩ : len < r.2.1 ∧ SamePrefix len r.1 k := by
        rcases List.mem_append.mp isIn with isLeft | isRight
        · exact ⟨(inLeft r isLeft).1, (inLeft r isLeft).2.2⟩
        · exact ⟨(inRight r isRight).1, (inRight r isRight).2.2⟩
      rcases Nat.lt_or_eq_of_le (toNat_le_of_masked masked same) with less | equal
      · exact .inl less
      · exact .inr ⟨BitVec.eq_of_toNat_eq equal, longer⟩

end TrieNode

theorem mapRun_inserts {m : PrefixMap w α} (items : List (Route w α))
    (masked : ∀ r ∈ items, Key.of r.1 r.2.1 = ⟨r.1, r.2.1⟩)
    (distinct : items.Pairwise fun r s => (r.1, r.2.1) ≠ (s.1, s.2.1)) (a : BitVec w) (len : Nat) (v : α) :
    (mapRun m (items.map fun r => TableOp.insert r.1 r.2.1 r.2.2)).2 ⟨a, len⟩ = some v ↔
      (a, len, v) ∈ items ∨ (∀ u, (a, len, u) ∉ items) ∧ m ⟨a, len⟩ = some v := by
  induction items generalizing m with
  | nil => simp [mapRun]
  | cons r items ih =>
    obtain ⟨apart, distinct⟩ := List.pairwise_cons.mp distinct
    have rest := ih (m := PrefixMap.insert m r.1 r.2.1 r.2.2)
      (fun s isIn => masked s (List.mem_cons_of_mem _ isIn)) distinct
    have step : (mapRun m ((r :: items).map fun r => TableOp.insert r.1 r.2.1 r.2.2)).2
        = (mapRun (PrefixMap.insert m r.1 r.2.1 r.2.2) (items.map fun r => TableOp.insert r.1 r.2.1 r.2.2)).2 := rfl
    obtain ⟨b, n, u⟩ := r
    rw [step, rest, PrefixMap.insert, masked _ List.mem_cons_self]
    by_cases here : (a, len) = (b, n)
    · obtain ⟨rfl, rfl⟩ := Prod.mk.inj here
      have absent : ∀ t, (a, len, t) ∉ items := fun t isIn => apart _ isIn rfl
      simp [absent, eq_comm]
    · have other : (⟨a, len⟩ : Key w) ≠ ⟨b, n⟩ := by
        intro same
        obtain ⟨rfl, rfl⟩ := Key.mk.inj same
        exact here rfl
      have notFirst : ∀ t, (a, len, t) ≠ (b, n, u) := by
        rintro t same
        obtain ⟨rfl, tail⟩ := Prod.mk.inj same
        obtain ⟨rfl, _⟩ := Prod.mk.inj tail
        exact here rfl
      simp [Function.update_of_ne other, notFirst]

namespace IpLookupTable

theorem fromIter_eq {items : List (Route w α)} (bounded : ∀ r ∈ items, r.2.1 ≤ w) :
    ∃ table, fromIter items = .ok table ∧ table.Wf ∧
      table.get = (mapRun PrefixMap.empty (items.map fun r => TableOp.insert r.1 r.2.1 r.2.2)).2 := by
  have run (table : IpLookupTable w α) (wf : table.Wf) :
      ∃ last : IpLookupTable w α, items.foldlM (fun t (r : Route w α) => do
          let (_, t) ← t.insert r.1 r.2.1 r.2.2
          return t) table = .ok last ∧ last.Wf ∧
        last.get = (mapRun table.get (items.map fun r => TableOp.insert r.1 r.2.1 r.2.2)).2 := by
    induction items generalizing table with
    | nil => exact ⟨table, rfl, wf, rfl⟩
    | cons r items ih =>
      obtain ⟨next, inserted, nextWf, map⟩ := insert_spec wf r.1 (bounded r List.mem_cons_self) r.2.2
      obtain ⟨last, rest, lastWf, lastMap⟩ :=
        ih (fun s isIn => bounded s (List.mem_cons_of_mem _ isIn)) next nextWf
      refine ⟨last, ?_, lastWf, ?_⟩
      · rw [List.foldlM_cons, inserted]
        exact rest
      · rw [lastMap, map]
        rfl
  exact run new new_wf

end IpLookupTable

/-- Both iterators yield every binding once, in increasing order, and what they yield, collected in any
order, gives the same table. -/
theorem trie_iteration_complete (ops : List (TableOp w α)) (bounded : ∀ op ∈ ops, op.prefixLen ≤ w) :
    ∃ outs table items, IpLookupTable.new.run ops = .ok (outs, table) ∧
      table.get = (mapRun PrefixMap.empty ops).2 ∧
      Yields Iter.next table.iter items ∧ Yields IntoIter.next table.iter items ∧
      (∀ a len v, (a, len, v) ∈ items ↔ table.get ⟨a, len⟩ = some v) ∧
      items.Pairwise Before ∧ (∀ r ∈ items, masked r.1 r.2.1 = r.1 ∧ r.2.1 ≤ w) ∧
      ∀ others, others.Perm items → IpLookupTable.fromIter others = .ok table := by
  obtain ⟨table, run, wf, map⟩ := IpLookupTable.run_spec IpLookupTable.new_wf bounded
  have yields := yields_routes table.iter
  rw [IpLookupTable.iter, routes_unbox] at yields
  have borrowing : (Iter.next : List (Unboxed w α) → _) = IntoIter.next := funext next_eq
  have complete : ∀ a len v, (a, len, v) ∈ table.root.routes ↔ table.get ⟨a, len⟩ = some v :=
    TrieNode.mem_routes wf
  have keys : ∀ r ∈ table.root.routes, r.1 &&& highMask r.2.1 = r.1 ∧ r.2.1 ≤ w := by
    rintro ⟨a, len, v⟩ isIn
    obtain ⟨inside, isMasked⟩ := wf.get_key ((complete a len v).mp isIn)
    exact ⟨isMasked, inside⟩
  have sorted := TrieNode.routes_sorted wf
  refine ⟨_, table, table.root.routes, run, map, borrowing ▸ yields, yields, complete, sorted, ?_, ?_⟩
  · intro r isIn
    rw [masked_eq]
    exact keys r isIn
  · intro others perm
    obtain ⟨collected, collects, collectedWf, bindings⟩ :=
      IpLookupTable.fromIter_eq fun r isIn => (keys r (perm.mem_iff.mp isIn)).2
    have distinct : others.Pairwise fun r s => (r.1, r.2.1) ≠ (s.1, s.2.1) := by
      apply perm.symm.pairwise (sorted.imp _) fun apart => Ne.symm apart
      rintro ⟨a, n, u⟩ ⟨b, m, v⟩ before same
      obtain ⟨rfl, rfl⟩ := Prod.mk.inj same
      rcases before with less | ⟨_, less⟩
      · exact absurd less (Nat.lt_irrefl _)
      · exact absurd less (Nat.lt_irrefl _)
    have sameBindings : collected.get = table.get := by
      funext ⟨a, len⟩
      apply Option.ext
      intro v
      have masks : ∀ r ∈ others, Key.of r.1 r.2.1 = ⟨r.1, r.2.1⟩ := by
        intro r isIn
        rw [Key.of, (keys r (perm.mem_iff.mp isIn)).1]
      rw [bindings, mapRun_inserts others masks distinct, perm.mem_iff, complete]
      simp [PrefixMap.empty]
    rw [collects, collectedWf.eq_of_get wf sameBindings]

theorem trie_iteration_complete_ipv4 :
    ∃ outs table items,
      IpLookupTable.new.run [.insert 0x0a000000#32 24 (1 : Nat), .insert 0x0b000000 8 2, .insert 0x0a0000ff 32 3]
        = .ok (outs, table) ∧ Yields Iter.next table.iter items ∧
      items.Pairwise Before := by
  obtain ⟨outs, table, items, run, _, yields, _, _, sorted, _⟩ := trie_iteration_complete
    [.insert 0x0a000000#32 24 (1 : Nat), .insert 0x0b000000 8 2, .insert 0x0a0000ff 32 3] (by decide)
  exact ⟨outs, table, items, run, yields, sorted⟩

end Titun
