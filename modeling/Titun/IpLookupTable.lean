import Titun.IpLookupTrieMap

/-! Both lookup tables refine one map from masked prefixes: over any sequence of
insertions and removals they return what the map returns, and afterwards they find
the longest prefix of every address. -/
namespace Titun

open PrefixBits PrefixMap

variable {α : Type}

namespace IpLookupTable

/-- The bindings the table holds. -/
def get (table : IpLookupTable w α) : PrefixMap w α := table.root.get

def Wf (table : IpLookupTable w α) : Prop := table.root.Wf

theorem new_wf : (new : IpLookupTable w α).Wf := trivial

@[simp] theorem get_new : (new : IpLookupTable w α).get = PrefixMap.empty := rfl

theorem insert_spec {table : IpLookupTable w α} (wf : table.Wf) (a : BitVec w) (bounded : len ≤ w)
    (v : α) : ∃ next, table.insert a len v = .ok (table.get (Key.of a len), next) ∧ next.Wf ∧
      next.get = PrefixMap.insert table.get a len v := by
  obtain ⟨old, map, nextWf, _⟩ :=
    TrieNode.insert_spec (k := a &&& highMask len) (v := v) wf bounded (by simp)
  refine ⟨⟨(table.root.insert (a &&& highMask len) len v).2⟩, ?_, nextWf, map⟩
  simp only [insert, toMask_eq, bounded, decide_true, assert_true]
  rw [← show _ = table.get (Key.of a len) from old]
  rfl

theorem remove_spec {table : IpLookupTable w α} (wf : table.Wf) (a : BitVec w)
    (bounded : len ≤ w) : ∃ next, table.remove a len = .ok (table.get (Key.of a len), next) ∧
      next.Wf ∧ next.get = PrefixMap.remove table.get a len := by
  obtain ⟨old, map, nextWf, _⟩ := TrieNode.remove_spec (k := a) wf bounded
  refine ⟨⟨(table.root.remove a len).2⟩, ?_, nextWf, map⟩
  simp only [remove, bounded, decide_true, assert_true]
  rw [← show _ = table.get (Key.of a len) from old]
  rfl

theorem longestMatch_spec {table : IpLookupTable w α} (wf : table.Wf) (a : BitVec w) :
    table.longestMatch a = longest table.get a := by
  rw [longestMatch, TrieNode.longestMatch_spec wf, Option.or_none]
  rfl

end IpLookupTable

namespace SimpleTable

/-- The bindings of the vector. -/
def getVec : List (Nat × Finmap fun _ : BitVec w => α) → PrefixMap w α
  | [], _ => none
  | (len, table) :: rest, key => if key.len = len then table.lookup key.bits else getVec rest key

/-- The vector is sorted by prefix length, and no length exceeds the width. -/
def WfVec (vec : List (Nat × Finmap fun _ : BitVec w => α)) : Prop :=
  vec.Pairwise (fun x y => x.1 < y.1) ∧ ∀ entry ∈ vec, entry.1 ≤ w

theorem getVec_none {vec : List (Nat × Finmap fun _ : BitVec w => α)} {key : Key w}
    (absent : ∀ entry ∈ vec, entry.1 ≠ key.len) : getVec vec key = none := by
  induction vec with
  | nil => rfl
  | cons entry rest ih =>
    have head := absent entry (by simp)
    simp only [getVec, Ne.symm head, if_false]
    exact ih fun other member => absent other (by simp [member])

theorem lookup_singleton (k bits : BitVec w) (v : α) :
    (Finmap.singleton k v : Finmap fun _ : BitVec w => α).lookup bits =
      if bits = k then some v else none := by
  by_cases same : bits = k
  · subst same; simp
  · rw [if_neg same, Finmap.lookup_eq_none, Finmap.mem_singleton]
    exact same

theorem insertVec_spec {vec : List (Nat × Finmap fun _ : BitVec w => α)} (wf : WfVec vec)
    (k : BitVec w) (bounded : len ≤ w) (v : α) :
    (insertVec k len v vec).1 = getVec vec ⟨k, len⟩ ∧
    getVec (insertVec k len v vec).2 = Function.update (getVec vec) ⟨k, len⟩ (some v) ∧
    WfVec (insertVec k len v vec).2 ∧
    ∀ entry ∈ (insertVec k len v vec).2, entry.1 = len ∨ ∃ old ∈ vec, old.1 = entry.1 := by
  induction vec with
  | nil =>
    refine ⟨rfl, ?_, by simp [insertVec, WfVec, bounded], by simp [insertVec]⟩
    funext ⟨bits, n⟩
    by_cases sameLen : n = len <;> by_cases sameBits : bits = k <;>
      simp [insertVec, getVec, lookup_singleton, sameLen, sameBits]
  | cons head rest ih =>
    obtain ⟨headLen, table⟩ := head
    have whole := wf
    obtain ⟨sorted, lens⟩ := wf
    rw [List.pairwise_cons] at sorted
    obtain ⟨above, sortedRest⟩ := sorted
    have restWf : WfVec rest := ⟨sortedRest, fun entry member => lens entry (by simp [member])⟩
    simp only [insertVec]
    split_ifs with before here
    · have absent (bits : BitVec w) : getVec ((headLen, table) :: rest) ⟨bits, len⟩ = none := by
        apply getVec_none
        intro entry member
        rcases List.mem_cons.mp member with rfl | member
        · exact Nat.ne_of_gt before
        · exact Nat.ne_of_gt (before.trans (above entry member))
      refine ⟨(absent k).symm, ?_, ⟨?_, ?_⟩, ?_⟩
      · funext ⟨bits, n⟩
        by_cases sameLen : n = len
        · subst sameLen
          by_cases sameBits : bits = k
          · subst sameBits; simp [getVec]
          · rw [Function.update_of_ne (by simp [sameBits]), absent]
            simp [getVec, lookup_singleton, sameBits]
        · simp [getVec, sameLen]
      · refine List.pairwise_cons.mpr ⟨fun entry member => ?_, whole.1⟩
        rcases List.mem_cons.mp member with rfl | member
        · exact before
        · exact before.trans (above entry member)
      · intro entry member
        rcases List.mem_cons.mp member with rfl | member
        · exact bounded
        · exact lens entry member
      · intro entry member
        rcases List.mem_cons.mp member with rfl | member
        · exact Or.inl rfl
        · exact Or.inr ⟨entry, member, rfl⟩
    · subst here
      refine ⟨by simp [getVec], ?_, ⟨List.pairwise_cons.mpr ⟨above, sortedRest⟩, ?_⟩, ?_⟩
      · funext ⟨bits, n⟩
        by_cases sameLen : n = len
        · subst sameLen
          by_cases sameBits : bits = k
          · subst sameBits; simp [getVec]
          · simp [getVec, sameBits, Finmap.lookup_insert_of_ne]
        · simp [getVec, sameLen]
      · intro entry member
        rcases List.mem_cons.mp member with rfl | member
        · exact bounded
        · exact lens entry (by simp [member])
      · intro entry member
        rcases List.mem_cons.mp member with rfl | member
        · exact Or.inl rfl
        · exact Or.inr ⟨entry, by simp [member], rfl⟩
    · obtain ⟨old, map, newWf, origin⟩ := ih restWf
      refine ⟨by simp [getVec, here, old], ?_, ⟨List.pairwise_cons.mpr ⟨?_, newWf.1⟩, ?_⟩, ?_⟩
      · funext ⟨bits, n⟩
        by_cases sameLen : n = headLen
        · subst sameLen
          simp [getVec, Ne.symm here]
        · by_cases key : (⟨bits, n⟩ : Key w) = ⟨k, len⟩ <;> simp_all [getVec]
      · intro entry member
        rcases origin entry member with at_len | ⟨source, inRest, sameLen⟩
        · simp only [at_len]; omega
        · exact sameLen ▸ above source inRest
      · intro entry member
        rcases List.mem_cons.mp member with rfl | member
        · exact lens _ (by simp)
        · exact newWf.2 entry member
      · intro entry member
        rcases List.mem_cons.mp member with rfl | member
        · exact Or.inr ⟨_, by simp, rfl⟩
        · rcases origin entry member with at_len | ⟨source, inRest, sameLen⟩
          · exact Or.inl at_len
          · exact Or.inr ⟨source, by simp [inRest], sameLen⟩

theorem removeVec_spec {vec : List (Nat × Finmap fun _ : BitVec w => α)} (wf : WfVec vec)
    (k : BitVec w) (len : Nat) :
    (removeVec k len vec).1 = getVec vec ⟨k, len⟩ ∧
    getVec (removeVec k len vec).2 = Function.update (getVec vec) ⟨k, len⟩ none ∧
    WfVec (removeVec k len vec).2 ∧
    ∀ entry ∈ (removeVec k len vec).2, ∃ old ∈ vec, old.1 = entry.1 := by
  induction vec with
  | nil =>
    refine ⟨rfl, ?_, wf, by simp [removeVec]⟩
    funext key
    by_cases same : key = ⟨k, len⟩ <;> simp [removeVec, getVec, same]
  | cons head rest ih =>
    obtain ⟨headLen, table⟩ := head
    obtain ⟨sorted, lens⟩ := wf
    rw [List.pairwise_cons] at sorted
    obtain ⟨above, sortedRest⟩ := sorted
    have restWf : WfVec rest := ⟨sortedRest, fun entry member => lens entry (by simp [member])⟩
    simp only [removeVec]
    split_ifs with here last
    · subst here
      have restAbsent (bits : BitVec w) : getVec rest ⟨bits, len⟩ = none :=
        getVec_none fun entry member => Nat.ne_of_gt (above entry member)
      refine ⟨by simp [getVec], ?_, restWf, fun entry member => ⟨entry, by simp [member], rfl⟩⟩
      funext ⟨bits, n⟩
      by_cases sameLen : n = len
      · subst sameLen
        have gone : (table.erase k).lookup bits = none := by
          rw [Finmap.lookup_eq_none, ← Finmap.mem_keys, last]
          simp
        by_cases sameBits : bits = k
        · subst sameBits; simp [restAbsent]
        · rw [restAbsent, Function.update_of_ne (by simp [sameBits])]
          simpa [getVec, Finmap.lookup_erase_ne sameBits] using gone.symm
      · simp [getVec, sameLen]
    · subst here
      refine ⟨by simp [getVec], ?_, ⟨List.pairwise_cons.mpr ⟨above, sortedRest⟩, ?_⟩, ?_⟩
      · funext ⟨bits, n⟩
        by_cases sameLen : n = len
        · subst sameLen
          by_cases sameBits : bits = k
          · subst sameBits; simp [getVec]
          · simp [getVec, sameBits, Finmap.lookup_erase_ne]
        · simp [getVec, sameLen]
      · intro entry member
        rcases List.mem_cons.mp member with rfl | member
        · exact lens (len, table) (by simp)
        · exact lens entry (by simp [member])
      · intro entry member
        rcases List.mem_cons.mp member with rfl | member
        · exact ⟨(len, table), by simp, rfl⟩
        · exact ⟨entry, by simp [member], rfl⟩
    · obtain ⟨old, map, newWf, origin⟩ := ih restWf
      refine ⟨by simp [getVec, here, old], ?_, ⟨List.pairwise_cons.mpr ⟨?_, newWf.1⟩, ?_⟩, ?_⟩
      · funext ⟨bits, n⟩
        by_cases sameLen : n = headLen
        · subst sameLen
          simp [getVec, Ne.symm here]
        · by_cases key : (⟨bits, n⟩ : Key w) = ⟨k, len⟩ <;> simp_all [getVec]
      · intro entry member
        obtain ⟨source, inRest, sameLen⟩ := origin entry member
        exact sameLen ▸ above source inRest
      · intro entry member
        rcases List.mem_cons.mp member with rfl | member
        · exact lens _ (by simp)
        · exact newWf.2 entry member
      · intro entry member
        rcases List.mem_cons.mp member with rfl | member
        · exact ⟨_, by simp, rfl⟩
        · obtain ⟨source, inRest, sameLen⟩ := origin entry member
          exact ⟨source, by simp [inRest], sameLen⟩

theorem maskWithPrefix_eq (a : BitVec w) (n : Nat) : maskWithPrefix a n = a &&& highMask n := by
  unfold maskWithPrefix
  split
  next zero => subst zero; simp
  next => exact BitVec.and_comm ..

theorem longestVec {vec : List (Nat × Finmap fun _ : BitVec w => α)} (wf : WfVec vec)
    (a : BitVec w) :
    (vec.reverse.findSome? fun (len, table) => table.lookup (maskWithPrefix a len)) =
      longest (getVec vec) a := by
  induction vec with
  | nil =>
    have absent : IsLongest (getVec ([] : List (Nat × Finmap fun _ : BitVec w => α))) a none :=
      fun _ _ => rfl
    exact (longest_eq_of_isLongest absent).symm
  | cons head rest ih =>
    obtain ⟨headLen, table⟩ := head
    obtain ⟨sorted, lens⟩ := wf
    rw [List.pairwise_cons] at sorted
    obtain ⟨above, sortedRest⟩ := sorted
    have restWf : WfVec rest := ⟨sortedRest, fun entry member => lens entry (by simp [member])⟩
    have restShort (n : Nat) (le : n ≤ headLen) : getVec rest (Key.of a n) = none :=
      getVec_none fun entry member => by
        have := above entry member
        simp only [Key.of_len]
        omega
    rw [longest_eq_or (lens _ List.mem_cons_self) _ restShort, ← ih restWf]
    · have mask : table.lookup (maskWithPrefix a headLen) = table.lookup (a &&& highMask headLen) := by
        rw [maskWithPrefix_eq]
      simp only [List.reverse_cons, List.findSome?_append, List.findSome?_cons, List.findSome?_nil,
        getVec, Key.of, if_true, mask]
      cases table.lookup (a &&& highMask headLen) <;> rfl
    · intro n lt
      simp [getVec, Nat.ne_of_lt lt, restShort n (Nat.le_of_lt lt)]
    · intro n lt
      simp [getVec, Nat.ne_of_gt lt]

/-- The bindings the simple table holds. -/
def get (table : SimpleTable w α) : PrefixMap w α := getVec table.vec

def Wf (table : SimpleTable w α) : Prop := WfVec table.vec

theorem new_wf : (new : SimpleTable w α).Wf := by simp [new, Wf, WfVec]

@[simp] theorem get_new : (new : SimpleTable w α).get = PrefixMap.empty := rfl

theorem insert_spec {table : SimpleTable w α} (wf : table.Wf) (a : BitVec w) (bounded : len ≤ w)
    (v : α) : (table.insert a len v).1 = table.get (Key.of a len) ∧
      (table.insert a len v).2.Wf ∧
      (table.insert a len v).2.get = PrefixMap.insert table.get a len v := by
  obtain ⟨old, map, newWf, _⟩ := insertVec_spec wf (a &&& highMask len) bounded v
  simp only [insert, maskWithPrefix_eq]
  exact ⟨old, newWf, map⟩

theorem remove_spec {table : SimpleTable w α} (wf : table.Wf) (a : BitVec w) (len : Nat) :
    (table.remove a len).1 = table.get (Key.of a len) ∧ (table.remove a len).2.Wf ∧
      (table.remove a len).2.get = PrefixMap.remove table.get a len := by
  obtain ⟨old, map, newWf, _⟩ := removeVec_spec wf (a &&& highMask len) len
  simp only [remove, maskWithPrefix_eq]
  exact ⟨old, newWf, map⟩

theorem longestMatch_spec {table : SimpleTable w α} (wf : table.Wf) (a : BitVec w) :
    table.longestMatch a = longest table.get a := longestVec wf a

end SimpleTable

/-- A call on a lookup table. -/
inductive TableOp (w : Nat) (α : Type) where
  | insert (addr : BitVec w) (prefixLen : Nat) (t : α)
  | remove (addr : BitVec w) (prefixLen : Nat)
  deriving DecidableEq, Repr

def TableOp.prefixLen : TableOp w α → Nat
  | insert _ prefixLen _ => prefixLen
  | remove _ prefixLen => prefixLen

def IpLookupTable.apply (table : IpLookupTable w α) :
    TableOp w α → Exec (Option α × IpLookupTable w α)
  | .insert addr prefixLen t => table.insert addr prefixLen t
  | .remove addr prefixLen => table.remove addr prefixLen

/-- The values returned by a sequence of calls, and the table they leave. -/
def IpLookupTable.run (table : IpLookupTable w α) :
    List (TableOp w α) → Exec (List (Option α) × IpLookupTable w α)
  | [] => return ([], table)
  | op :: ops => do
    let (out, table) ← table.apply op
    let (outs, table) ← table.run ops
    return (out :: outs, table)

def SimpleTable.apply (table : SimpleTable w α) : TableOp w α → Option α × SimpleTable w α
  | .insert addr prefixLen t => table.insert addr prefixLen t
  | .remove addr prefixLen => table.remove addr prefixLen

def SimpleTable.run (table : SimpleTable w α) :
    List (TableOp w α) → List (Option α) × SimpleTable w α
  | [] => ([], table)
  | op :: ops =>
    let (out, table) := table.apply op
    let (outs, table) := table.run ops
    (out :: outs, table)

/-- The same calls on the abstract map: each returns the previous value of its key. -/
def mapApply (m : PrefixMap w α) : TableOp w α → Option α × PrefixMap w α
  | .insert addr prefixLen t => (m (Key.of addr prefixLen), PrefixMap.insert m addr prefixLen t)
  | .remove addr prefixLen => (m (Key.of addr prefixLen), PrefixMap.remove m addr prefixLen)

def mapRun (m : PrefixMap w α) : List (TableOp w α) → List (Option α) × PrefixMap w α
  | [] => ([], m)
  | op :: ops =>
    let (out, m) := mapApply m op
    let (outs, m) := mapRun m ops
    (out :: outs, m)

theorem IpLookupTable.apply_spec {table : IpLookupTable w α} (wf : table.Wf) {op : TableOp w α}
    (bounded : op.prefixLen ≤ w) :
    ∃ next, table.apply op = .ok ((mapApply table.get op).1, next) ∧ next.Wf ∧
      next.get = (mapApply table.get op).2 := by
  cases op with
  | insert addr prefixLen t => exact insert_spec wf addr bounded t
  | remove addr prefixLen => exact remove_spec wf addr bounded

theorem SimpleTable.apply_spec {table : SimpleTable w α} (wf : table.Wf) {op : TableOp w α}
    (bounded : op.prefixLen ≤ w) :
    (table.apply op).1 = (mapApply table.get op).1 ∧ (table.apply op).2.Wf ∧
      (table.apply op).2.get = (mapApply table.get op).2 := by
  cases op with
  | insert addr prefixLen t => exact insert_spec wf addr bounded t
  | remove addr prefixLen => exact remove_spec wf addr prefixLen

theorem IpLookupTable.run_spec {table : IpLookupTable w α} (wf : table.Wf) {ops : List (TableOp w α)}
    (bounded : ∀ op ∈ ops, op.prefixLen ≤ w) :
    ∃ last, table.run ops = .ok ((mapRun table.get ops).1, last) ∧ last.Wf ∧
      last.get = (mapRun table.get ops).2 := by
  induction ops generalizing table with
  | nil => exact ⟨table, rfl, wf, rfl⟩
  | cons op ops ih =>
    obtain ⟨next, step, nextWf, nextGet⟩ := apply_spec wf (bounded op (by simp))
    obtain ⟨last, rest, lastWf, lastGet⟩ := ih nextWf fun other member => bounded other (by simp [member])
    rw [nextGet] at rest lastGet
    refine ⟨last, ?_, lastWf, lastGet⟩
    simp only [run, step, bind, Except.bind, rest]
    rfl

theorem SimpleTable.run_spec {table : SimpleTable w α} (wf : table.Wf) {ops : List (TableOp w α)}
    (bounded : ∀ op ∈ ops, op.prefixLen ≤ w) :
    (table.run ops).1 = (mapRun table.get ops).1 ∧ (table.run ops).2.Wf ∧
      (table.run ops).2.get = (mapRun table.get ops).2 := by
  induction ops generalizing table with
  | nil => exact ⟨rfl, wf, rfl⟩
  | cons op ops ih =>
    obtain ⟨step, nextWf, nextGet⟩ := apply_spec wf (bounded op (by simp))
    obtain ⟨rest, lastWf, lastGet⟩ := ih nextWf fun other member => bounded other (by simp [member])
    rw [nextGet] at rest lastGet
    exact ⟨by simp [run, mapRun, step, rest], lastWf, lastGet⟩

/-- The trie, the simple table and the map cannot be told apart by calls with
lengths up to the width: all return the same values, and the longest prefix of any
address that the map binds is what both tables find. -/
theorem lookup_tables_refine_map (ops : List (TableOp w α)) (bounded : ∀ op ∈ ops, op.prefixLen ≤ w) :
    ∃ table, IpLookupTable.new.run ops = .ok ((mapRun PrefixMap.empty ops).1, table) ∧
      (SimpleTable.new.run ops).1 = (mapRun PrefixMap.empty ops).1 ∧
      ∀ addr, IsLongest (mapRun PrefixMap.empty ops).2 addr (table.longestMatch addr) ∧
        (SimpleTable.new.run ops).2.longestMatch addr = table.longestMatch addr := by
  obtain ⟨table, run, wf, map⟩ := IpLookupTable.run_spec IpLookupTable.new_wf bounded
  obtain ⟨outs, simpleWf, simpleMap⟩ := SimpleTable.run_spec SimpleTable.new_wf bounded
  rw [IpLookupTable.get_new] at run map
  rw [SimpleTable.get_new] at outs simpleMap
  refine ⟨table, run, outs, fun addr => ⟨?_, ?_⟩⟩
  · rw [isLongest_iff, IpLookupTable.longestMatch_spec wf, map]
  · rw [SimpleTable.longestMatch_spec simpleWf, IpLookupTable.longestMatch_spec wf, map, simpleMap]

theorem lookup_tables_refine_map_ipv4 :
    let ops : List (TableOp 32 Nat) :=
      [.insert 0x0a84b301 24 5, .insert 0x0a84b301 32 6, .insert 0 0 0, .remove 0x0a84b3ff 24]
    ∃ table, IpLookupTable.new.run ops = .ok ((mapRun PrefixMap.empty ops).1, table) ∧
      (SimpleTable.new.run ops).1 = (mapRun PrefixMap.empty ops).1 ∧
      ∀ addr, IsLongest (mapRun PrefixMap.empty ops).2 addr (table.longestMatch addr) ∧
        (SimpleTable.new.run ops).2.longestMatch addr = table.longestMatch addr :=
  lookup_tables_refine_map _ (by decide)

end Titun
