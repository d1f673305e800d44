import Titun.IpcParse
import Titun.Lib.Transition

/-! The lines that the parsers take in, as a grammar. -/
namespace Titun

open Text Transition

namespace Format

variable {C P : Type} (f : Format C P)

/-- A line that a parser reads as `k=v`. -/
def Pair (line k v : Line) : Prop :=
  line ≠ [] ∧ startsWith line "public_key" = false ∧ splitOnce 61 line = (k, some v)

/-- A line of the block of a peer, and what it changes. -/
def PeerLine (peer : P) (line : Line) (next : P) : Prop :=
  ∃ k v, Pair line k v ∧ f.applyPeer k v peer = .ok (.ok (some next))

/-- A line of the interface, and what it changes. -/
def InterfaceLine (command : C) (line : Line) (next : C) : Prop :=
  ∃ k v, Pair line k v ∧ f.applyInterface k v command = .ok (some next)

/-- The block of a peer, and the peer that it adds. -/
def Block (command : C) (block : List Line) (next : C) : Prop :=
  ∃ line key body peer, block = line :: body ∧ parsePublicKey line = .ok key ∧
    Run f.PeerLine (f.newPeer key) body peer ∧ next = f.push command peer

/-- A line that no block takes in. -/
def Foreign (line : Line) : Prop :=
  ∀ publicKeyLine peer, f.blockLine publicKeyLine line peer = .ok (.ok none)

/-- A line that ends everything where no peer has been read yet. -/
def EndsInterface (line : Line) : Prop :=
  line = [] ∨ ∃ k v, Pair line k v ∧ ∀ command, f.applyInterface k v command = .ok none

/-- Which keys are known does not depend on what has been read. -/
structure Lawful : Prop where
  peers : ∀ k v p q, f.applyPeer k v p = .ok (.ok none) → f.applyPeer k v q = .ok (.ok none)
  interface : ∀ k v c d, f.applyInterface k v c = .ok none → f.applyInterface k v d = .ok none
  goesOn : ∀ v, f.ends (lit "public_key" ++ 61 :: v) = false

theorem blockLine_some {publicKeyLine line : Line} {peer next : P} :
    f.blockLine publicKeyLine line peer = .ok (.ok (some next)) ↔ f.PeerLine peer line next := by
  constructor
  · intro taken
    unfold blockLine at taken
    split_ifs at taken with done
    · cases taken
    · obtain ⟨nonempty, other⟩ := not_or.mp (Bool.or_eq_true _ _ ▸ done)
      cases pair : splitOnce 61 line with
      | mk k value =>
        rw [pair] at taken
        cases value with
        | none => cases taken
        | some v =>
          have isPair : Pair line k v :=
            ⟨fun empty => nonempty (List.isEmpty_iff.mpr empty), Bool.eq_false_iff.mpr other, pair⟩
          exact ⟨k, v, isPair, taken⟩
  · rintro ⟨k, v, ⟨nonempty, other, pair⟩, taken⟩
    have isEmpty : line.isEmpty = false := List.isEmpty_eq_false_iff.mpr nonempty
    rw [blockLine, isEmpty, other, pair]
    exact taken

theorem foreign_of_blockLine (lawful : f.Lawful) {publicKeyLine line : Line} {peer : P}
    (closed : f.blockLine publicKeyLine line peer = .ok (.ok none)) : f.Foreign line := by
  intro otherLine other
  unfold blockLine at closed ⊢
  split_ifs at closed ⊢ with done
  · rfl
  · cases pair : splitOnce 61 line with
    | mk k value =>
      rw [pair] at closed
      cases value with
      | none => cases closed
      | some v => exact lawful.peers k v peer other closed

theorem Foreign.applyPeer {f : Format C P} (foreign : f.Foreign line) (pair : Pair line k v) (peer : P) :
    f.applyPeer k v peer = .ok (.ok none) := by
  obtain ⟨nonempty, other, split⟩ := pair
  have closed := foreign [] peer
  rw [blockLine, List.isEmpty_eq_false_iff.mpr nonempty, other, split] at closed
  exact closed

theorem foreign_nil : f.Foreign [] := fun _ _ => rfl

theorem parsePublicKey_eq_ok {line : Line} {key : X25519Pubkey} :
    parsePublicKey line = .ok key ↔
      ∃ v, line = lit "public_key" ++ 61 :: v ∧ decodeKey v "Invalid length public key" = .ok key := by
  constructor
  · intro parsed
    unfold parsePublicKey at parsed
    cases pair : splitOnce 61 line with
    | mk k value =>
      rw [pair] at parsed
      cases value with
      | none => cases parsed
      | some v =>
        dsimp only at parsed
        split_ifs at parsed with other
        obtain rfl := not_not.mp other
        exact ⟨v, (splitOnce_some.mp pair).2, parsed⟩
  · rintro ⟨v, rfl, decoded⟩
    rw [parsePublicKey, splitOnce_eq (by decide)]
    exact decoded

theorem foreign_public_key {line : Line} {key : X25519Pubkey} (parsed : parsePublicKey line = .ok key) :
    f.Foreign line := by
  obtain ⟨v, rfl, _⟩ := parsePublicKey_eq_ok.mp parsed
  exact fun _ _ => rfl

def lines (l : List Line) : List Item := l.map .ok

theorem readPeers_body {publicKeyLine : Line} {rest : List Item} {command : C} {peer last : P}
    (body : Run f.PeerLine peer block last) :
    f.readPeers publicKeyLine (lines block ++ rest) command peer =
      f.readPeers publicKeyLine rest command last := by
  induction body with
  | nil => rfl
  | cons taken _ ih =>
    simp only [lines, List.map_cons, List.cons_append, readPeers, f.blockLine_some.mpr taken, ok_bind]
    exact ih

theorem readPeers_of_blocks (lawful : f.Lawful) (publicKeyLine : Line) (rest : List Item) {line : Line}
    {command before last : C} {peer : P} (blocks : Run f.Block command bs last) (foreign : f.Foreign line)
    (ends : f.ends line) (pushed : command = f.push before peer) :
    f.readPeers publicKeyLine (lines bs.flatten ++ .ok line :: rest) before peer =
      .ok (.ok (last, .ok line :: rest)) := by
  induction blocks generalizing publicKeyLine before peer with
  | nil =>
    subst pushed
    simp [lines, readPeers, foreign publicKeyLine peer, ends]
  | cons first _ ih =>
    obtain ⟨keyLine, key, body, peer', rfl, parsed, run, rfl⟩ := first
    have continues : f.ends keyLine = false := by
      obtain ⟨v, rfl, _⟩ := parsePublicKey_eq_ok.mp parsed
      exact lawful.goesOn v
    subst pushed
    have read := ih keyLine rfl
    rw [← f.readPeers_body run] at read
    simpa [lines, readPeers, f.foreign_public_key parsed publicKeyLine peer, continues, parsed] using read

/-- What is read of the peers is blocks, and what follows is a line that ends them. -/
theorem blocks_of_readPeers (lawful : f.Lawful) {publicKeyLine : Line} {items : List Item}
    {command last : C} {peer : P}
    (read : f.readPeers publicKeyLine items command peer = .ok (.ok (last, left))) :
    ∃ body peer' bs line rest, items = lines (body ++ bs.flatten) ++ .ok line :: rest ∧
      Run f.PeerLine peer body peer' ∧ Run f.Block (f.push command peer') bs last ∧
      f.Foreign line ∧ f.ends line = true := by
  induction items generalizing publicKeyLine command peer with
  | nil => cases read
  | cons item items ih =>
    cases item with
    | error e => cases read
    | ok line =>
      rw [readPeers] at read
      obtain ⟨result, block, read⟩ := bind_eq_ok.mp read
      rcases result with e | _ | next
      · cases read
      · have foreign := f.foreign_of_blockLine lawful block
        dsimp only at read
        split_ifs at read with ends
        · obtain ⟨rfl, _⟩ := Prod.mk.inj (Except.ok.inj (Except.ok.inj read))
          exact ⟨[], peer, [], line, items, rfl, .nil, .nil, foreign, ends⟩
        · cases parsed : parsePublicKey line with
          | error e =>
            rw [parsed] at read
            cases read
          | ok key =>
            rw [parsed] at read
            obtain ⟨body, peer', bs, last', rest, rfl, run, blocks, foreign, ends⟩ := ih read
            refine ⟨[], peer, (line :: body) :: bs, last', rest, by simp [lines], .nil, ?_, foreign, ends⟩
            exact .cons ⟨line, key, body, peer', rfl, parsed, run, rfl⟩ blocks
      · obtain ⟨body, peer', bs, last', rest, rfl, run, blocks, closed⟩ := ih read
        exact ⟨line :: body, peer', bs, last', rest, rfl, .cons (f.blockLine_some.mp block) run, blocks, closed⟩

theorem readPeers_total (total : ∀ k v p, ∃ r, f.applyPeer k v p = .ok r) (publicKeyLine : Line)
    (items : List Item) (command : C) (peer : P) :
    ∃ r, f.readPeers publicKeyLine items command peer = .ok r := by
  induction items generalizing publicKeyLine command peer with
  | nil => exact ⟨_, rfl⟩
  | cons item items ih =>
    cases item with
    | error e => exact ⟨_, rfl⟩
    | ok line =>
      have block : ∃ r, f.blockLine publicKeyLine line peer = .ok r := by
        unfold blockLine
        split_ifs
        · exact ⟨_, rfl⟩
        · split
          · exact ⟨_, rfl⟩
          · exact total _ _ _
      obtain ⟨result, block⟩ := block
      rw [readPeers, block, ok_bind]
      rcases result with e | _ | next
      · exact ⟨_, rfl⟩
      · dsimp only
        split_ifs
        · exact ⟨_, rfl⟩
        · split
          · exact ⟨_, rfl⟩
          · exact ih _ _ _
      · exact ih _ _ _

theorem readSections_total (total : ∀ k v p, ∃ r, f.applyPeer k v p = .ok r) (items : List Item)
    (command : C) : ∃ r, f.readSections items command = .ok r := by
  induction items generalizing command with
  | nil => exact ⟨_, rfl⟩
  | cons item items ih =>
    cases item with
    | error e => exact ⟨_, rfl⟩
    | ok line =>
      rw [readSections]
      split_ifs
      · exact ⟨_, rfl⟩
      · split
        · exact ⟨_, rfl⟩
        · exact f.readPeers_total total _ _ _ _
      · split
        · exact ⟨_, rfl⟩
        · split
          · exact ⟨_, rfl⟩
          · exact ⟨_, rfl⟩
          · exact ih _

/-- What may follow the sections. -/
def Ends (bs : List (List Line)) (line : Line) : Prop :=
  (bs = [] → f.EndsInterface line) ∧ (bs ≠ [] → f.Foreign line ∧ f.ends line = true)

theorem readSections_interface {rest : List Item} {command last : C}
    (interface : Run f.InterfaceLine command l last) :
    f.readSections (lines l ++ rest) command = f.readSections rest last := by
  induction interface with
  | nil => rfl
  | cons taken _ ih =>
    obtain ⟨k, v, ⟨nonempty, other, pair⟩, applied⟩ := taken
    have isEmpty := List.isEmpty_eq_false_iff.mpr nonempty
    simp only [lines, List.map_cons, List.cons_append, readSections, isEmpty, other, pair, applied]
    exact ih

/-- The parser succeeds with what the lines of its grammar say, and on no other lines. -/
theorem readSections_iff (lawful : f.Lawful) {items : List Item} {command last : C} :
    (∃ left, f.readSections items command = .ok (.ok (last, left))) ↔
      ∃ interface bs line rest middle, items = lines (interface ++ bs.flatten) ++ .ok line :: rest ∧
        Run f.InterfaceLine command interface middle ∧ Run f.Block middle bs last ∧ f.Ends bs line := by
  constructor
  · rintro ⟨left, read⟩
    induction items generalizing command with
    | nil => cases read
    | cons item items ih =>
      cases item with
      | error e => cases read
      | ok line =>
        rw [readSections] at read
        split_ifs at read with done block
        · obtain rfl := List.isEmpty_iff.mp done
          obtain ⟨rfl, _⟩ := Prod.mk.inj (Except.ok.inj (Except.ok.inj read))
          exact ⟨[], [], [], items, command, rfl, .nil, .nil, fun _ => .inl rfl, fun some => (some rfl).elim⟩
        · cases parsed : parsePublicKey line with
          | error e =>
            rw [parsed] at read
            cases read
          | ok key =>
            rw [parsed] at read
            obtain ⟨body, peer, bs, last', rest, rfl, run, blocks, closed⟩ := f.blocks_of_readPeers lawful read
            have first : f.Block command (line :: body) (f.push command peer) :=
              ⟨line, key, body, peer, rfl, parsed, run, rfl⟩
            exact ⟨[], (line :: body) :: bs, last', rest, command, by simp [lines], .nil, .cons first blocks,
              fun none => (List.cons_ne_nil _ _ none).elim, fun _ => closed⟩
        · cases pair : splitOnce 61 line with
          | mk k value =>
            rw [pair] at read
            cases value with
            | none => cases read
            | some v =>
              have isPair : Pair line k v :=
                ⟨fun empty => done (List.isEmpty_iff.mpr empty), Bool.eq_false_iff.mpr block, pair⟩
              dsimp only at read
              cases applied : f.applyInterface k v command with
              | error e =>
                rw [applied] at read
                cases read
              | ok result =>
                rw [applied] at read
                cases result with
                | none =>
                  obtain ⟨rfl, _⟩ := Prod.mk.inj (Except.ok.inj (Except.ok.inj read))
                  have ends := fun other => lawful.interface k v command other applied
                  exact ⟨[], [], line, items, command, rfl, .nil, .nil, fun _ => .inr ⟨k, v, isPair, ends⟩,
                    fun some => (some rfl).elim⟩
                | some next =>
                  obtain ⟨interface, bs, last', rest, middle, rfl, run, closed⟩ := ih read
                  exact ⟨line :: interface, bs, last', rest, middle, rfl, .cons ⟨k, v, isPair, applied⟩ run, closed⟩
  · rintro ⟨interface, bs, line, rest, middle, rfl, run, blocks, ends⟩
    have start : f.readSections (lines (interface ++ bs.flatten) ++ .ok line :: rest) command =
        f.readSections (lines bs.flatten ++ .ok line :: rest) middle := by
      rw [← f.readSections_interface run]
      simp [lines]
    rw [start]
    cases blocks with
    | nil =>
      rcases ends.1 rfl with rfl | ⟨k, v, ⟨nonempty, other, pair⟩, applied⟩
      · exact ⟨_, rfl⟩
      · have isEmpty := List.isEmpty_eq_false_iff.mpr nonempty
        simp only [lines, List.flatten_nil, List.map_nil, List.nil_append, readSections, isEmpty, other, pair,
          applied]
        exact ⟨_, rfl⟩
    | cons first blocks =>
      obtain ⟨foreign, stops⟩ := ends.2 (List.cons_ne_nil _ _)
      obtain ⟨keyLine, key, body, peer, rfl, parsed, run, rfl⟩ := first
      have read := f.readPeers_of_blocks lawful keyLine rest blocks foreign stops rfl
      rw [← f.readPeers_body run] at read
      obtain ⟨v, rfl, _⟩ := parsePublicKey_eq_ok.mp parsed
      have block : startsWith (lit "public_key" ++ 61 :: v) "public_key" = true := rfl
      refine ⟨.ok line :: rest, ?_⟩
      simpa [lines, readSections, block, parsed] using read

theorem lines_split {l before : List Line} {line : Line} {rest : List Item}
    (split : lines l = lines before ++ .ok line :: rest) :
    ∃ after, l = before ++ line :: after ∧ rest = lines after := by
  obtain ⟨front, back, rfl, isFront, isBack⟩ := List.map_eq_append_iff.mp split
  obtain ⟨line', after, rfl, same, isRest⟩ := List.map_eq_cons_iff.mp isBack
  obtain rfl := Except.ok.inj same
  obtain rfl := List.map_injective_iff.mpr (fun _ _ => Except.ok.inj) isFront
  exact ⟨after, rfl, isRest.symm⟩

/-- A parser that peeks, for a caller that does not use what it leaves. -/
theorem parseSections_map (s : Peekable) (command : C) (g : C → α) :
    (do let (result, _) ← f.parseSections s command; return result.map g) =
      (do let result ← f.readSections s.items command; return result.map fun r => g r.1 : Exec _) := by
  rw [← f.parseSections_eq]
  cases f.parseSections s command with
  | error panic => rfl
  | ok result =>
    obtain ⟨result, left⟩ := result
    cases result <;> rfl

end Format

end Titun
