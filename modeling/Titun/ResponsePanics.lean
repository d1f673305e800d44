import Titun.ResponseGrammar

/-! The responses whose handshake times panic the parser. -/
namespace Titun

open Text Transition

namespace Format

variable {C P : Type} (f : Format C P)

def PanicLine (peer : P) (line : Line) : Prop := ∃ k v e, Pair line k v ∧ f.applyPeer k v peer = .error e

def PanicBlock (peer : P) (items : List Item) : Prop :=
  ∃ body last line rest, items = lines body ++ .ok line :: rest ∧ Run f.PeerLine peer body last ∧ f.PanicLine last line

def PanicBlocks (command : C) (items : List Item) : Prop :=
  ∃ bs last header key rest, items = lines bs.flatten ++ .ok header :: rest ∧ Run f.Block command bs last ∧
    parsePublicKey header = .ok key ∧ f.PanicBlock (f.newPeer key) rest

def PanicSections (command : C) (items : List Item) : Prop :=
  ∃ interface middle rest, items = lines interface ++ rest ∧ Run f.InterfaceLine command interface middle ∧
    f.PanicBlocks middle rest

theorem blockLine_error {publicKeyLine line : Line} {peer : P} :
    (∃ e, f.blockLine publicKeyLine line peer = .error e) ↔ f.PanicLine peer line := by
  constructor
  · rintro ⟨e, panics⟩
    unfold blockLine at panics
    split_ifs at panics with done
    · cases panics
    · obtain ⟨nonempty, other⟩ := not_or.mp (Bool.or_eq_true _ _ ▸ done)
      cases pair : splitOnce 61 line with
      | mk k value =>
        rw [pair] at panics
        cases value with
        | none => cases panics
        | some v =>
          have isPair : Pair line k v :=
            ⟨fun empty => nonempty (List.isEmpty_iff.mpr empty), Bool.eq_false_iff.mpr other, pair⟩
          exact ⟨k, v, e, isPair, panics⟩
  · rintro ⟨k, v, e, ⟨nonempty, other, pair⟩, panics⟩
    refine ⟨e, ?_⟩
    rw [blockLine, List.isEmpty_eq_false_iff.mpr nonempty, other, pair]
    exact panics

theorem PanicBlock.cons {f : Format C P} (taken : f.PeerLine peer line next) (panics : f.PanicBlock next items) :
    f.PanicBlock peer (.ok line :: items) := by
  obtain ⟨body, last, failing, rest, rfl, run, bad⟩ := panics
  exact ⟨line :: body, last, failing, rest, rfl, .cons taken run, bad⟩

theorem readPeers_of_panicBlock {publicKeyLine : Line} {items : List Item} {command : C} {peer : P}
    (panics : f.PanicBlock peer items) : ∃ e, f.readPeers publicKeyLine items command peer = .error e := by
  obtain ⟨body, last, line, rest, rfl, run, bad⟩ := panics
  obtain ⟨e, block⟩ := f.blockLine_error.mpr bad
  refine ⟨e, ?_⟩
  rw [f.readPeers_body run, readPeers, block]
  rfl

theorem readPeers_header (lawful : f.Lawful) {publicKeyLine header : Line} (rest : List Item) (command : C) (peer : P)
    (parsed : parsePublicKey header = .ok key) :
    f.readPeers publicKeyLine (.ok header :: rest) command peer =
      f.readPeers header rest (f.push command peer) (f.newPeer key) := by
  have continues : f.ends header = false := by
    obtain ⟨v, rfl, _⟩ := parsePublicKey_eq_ok.mp parsed
    exact lawful.goesOn v
  rw [readPeers, f.foreign_public_key parsed publicKeyLine peer, ok_bind]
  dsimp only
  rw [continues, parsed]
  rfl

theorem readPeers_of_panicBlocks (lawful : f.Lawful) {publicKeyLine : Line} {items : List Item} {command before : C}
    {peer : P} (panics : f.PanicBlocks command items) (pushed : command = f.push before peer) :
    ∃ e, f.readPeers publicKeyLine items before peer = .error e := by
  obtain ⟨bs, last, header, key, rest, rfl, blocks, parsed, bad⟩ := panics
  induction blocks generalizing publicKeyLine before peer with
  | nil =>
    change ∃ e, f.readPeers publicKeyLine (.ok header :: rest) before peer = .error e
    rw [f.readPeers_header lawful rest before peer parsed]
    exact f.readPeers_of_panicBlock bad
  | @cons _ _ _ bs _ first _ ih =>
    obtain ⟨keyLine, key', body, peer', rfl, parsed', run, rfl⟩ := first
    have split : lines ((keyLine :: body) :: bs).flatten ++ .ok header :: rest =
        .ok keyLine :: (lines body ++ (lines bs.flatten ++ .ok header :: rest)) := by
      simp [lines]
    rw [split, f.readPeers_header lawful _ before peer parsed', f.readPeers_body run, ← pushed]
    exact ih rfl

theorem PanicBlocks.of_header {f : Format C P} {command : C} {header : Line} {items : List Item}
    (parsed : parsePublicKey header = .ok key)
    (panics : f.PanicBlock (f.newPeer key) items ∨ ∃ body last rest, items = lines body ++ rest ∧
      Run f.PeerLine (f.newPeer key) body last ∧ f.PanicBlocks (f.push command last) rest) :
    f.PanicBlocks command (.ok header :: items) := by
  obtain inBlock | ⟨body, last, rest, rfl, run, bs, end_, header', key', rest', rfl, blocks, parsed', bad⟩ := panics
  · exact ⟨[], _, header, key, items, rfl, .nil, parsed, inBlock⟩
  · refine ⟨(header :: body) :: bs, end_, header', key', rest', by simp [lines], ?_, parsed', bad⟩
    exact .cons ⟨header, key, body, last, rfl, parsed, run, rfl⟩ blocks

theorem readPeers_error_iff (lawful : f.Lawful) (publicKeyLine : Line) (items : List Item) (command : C) (peer : P) :
    (∃ e, f.readPeers publicKeyLine items command peer = .error e) ↔
      f.PanicBlock peer items ∨ ∃ body last rest, items = lines body ++ rest ∧ Run f.PeerLine peer body last ∧
        f.PanicBlocks (f.push command last) rest := by
  constructor
  · rintro ⟨e, panics⟩
    induction items generalizing publicKeyLine command peer with
    | nil => cases panics
    | cons item items ih =>
      cases item with
      | error e => cases panics
      | ok line =>
        rw [readPeers] at panics
        cases block : f.blockLine publicKeyLine line peer with
        | error e =>
          left
          exact ⟨[], peer, line, items, rfl, .nil, f.blockLine_error.mp ⟨e, block⟩⟩
        | ok result =>
          rw [block, ok_bind] at panics
          rcases result with e | _ | next
          · cases panics
          · dsimp only at panics
            split_ifs at panics with ends
            · cases panics
            · cases parsed : parsePublicKey line with
              | error e =>
                rw [parsed] at panics
                cases panics
              | ok key =>
                rw [parsed] at panics
                right
                refine ⟨[], peer, .ok line :: items, rfl, .nil, ?_⟩
                exact .of_header parsed (ih _ _ _ panics)
          · have taken := f.blockLine_some.mp block
            obtain inBlock | ⟨body, last, rest, rfl, run, later⟩ := ih _ _ _ panics
            · left
              exact inBlock.cons taken
            · right
              exact ⟨line :: body, last, rest, rfl, .cons taken run, later⟩
  · rintro (inBlock | ⟨body, last, rest, rfl, run, later⟩)
    · exact f.readPeers_of_panicBlock inBlock
    · rw [f.readPeers_body run]
      exact f.readPeers_of_panicBlocks lawful later rfl

theorem readSections_header {header : Line} (rest : List Item) (command : C) (parsed : parsePublicKey header = .ok key) :
    f.readSections (.ok header :: rest) command = f.readPeers header rest command (f.newPeer key) := by
  obtain ⟨v, rfl, _⟩ := parsePublicKey_eq_ok.mp parsed
  have block : startsWith (lit "public_key" ++ 61 :: v) "public_key" = true := rfl
  have nonempty : (lit "public_key" ++ 61 :: v).isEmpty = false := rfl
  rw [readSections, nonempty, block, parsed]
  rfl

theorem readSections_of_panicBlocks (lawful : f.Lawful) {items : List Item} {command : C}
    (panics : f.PanicBlocks command items) : ∃ e, f.readSections items command = .error e := by
  obtain ⟨bs, last, header, key, rest, rfl, blocks, parsed, bad⟩ := panics
  cases blocks with
  | nil =>
    change ∃ e, f.readSections (.ok header :: rest) command = .error e
    rw [f.readSections_header rest command parsed]
    exact f.readPeers_of_panicBlock bad
  | @cons _ _ _ bs _ first blocks =>
    obtain ⟨keyLine, key', body, peer, rfl, parsed', run, rfl⟩ := first
    have split : lines ((keyLine :: body) :: bs).flatten ++ .ok header :: rest =
        .ok keyLine :: (lines body ++ (lines bs.flatten ++ .ok header :: rest)) := by
      simp [lines]
    rw [split, f.readSections_header _ command parsed', f.readPeers_body run]
    exact f.readPeers_of_panicBlocks lawful ⟨bs, last, header, key, rest, rfl, blocks, parsed, bad⟩ rfl

/-- Reading panics exactly where the grammar says that a line of a block does. -/
theorem readSections_error_iff (lawful : f.Lawful) (items : List Item) (command : C) :
    (∃ e, f.readSections items command = .error e) ↔ f.PanicSections command items := by
  constructor
  · rintro ⟨e, panics⟩
    induction items generalizing command with
    | nil => cases panics
    | cons item items ih =>
      cases item with
      | error e => cases panics
      | ok line =>
        rw [readSections] at panics
        split_ifs at panics with done block
        · cases panics
        · cases parsed : parsePublicKey line with
          | error e =>
            rw [parsed] at panics
            cases panics
          | ok key =>
            rw [parsed] at panics
            refine ⟨[], command, .ok line :: items, rfl, .nil, ?_⟩
            exact .of_header parsed ((f.readPeers_error_iff lawful _ _ _ _).mp ⟨e, panics⟩)
        · cases pair : splitOnce 61 line with
          | mk k value =>
            rw [pair] at panics
            cases value with
            | none => cases panics
            | some v =>
              have isPair : Pair line k v :=
                ⟨fun empty => done (List.isEmpty_iff.mpr empty), Bool.eq_false_iff.mpr block, pair⟩
              dsimp only at panics
              rcases applied : f.applyInterface k v command with e | _ | next <;> rw [applied] at panics
              · cases panics
              · cases panics
              · obtain ⟨interface, middle, rest, rfl, run, later⟩ := ih _ panics
                exact ⟨line :: interface, middle, rest, rfl, .cons ⟨k, v, isPair, applied⟩ run, later⟩
  · rintro ⟨interface, middle, rest, rfl, run, later⟩
    rw [f.readSections_interface run]
    exact f.readSections_of_panicBlocks lawful later

end Format

/-- A handshake time that `SystemTime` cannot hold. -/
inductive Overflows : PeerStateOut → Line → Prop where
  | lastHandshakeTimeSec (n : BitVec 64) (text : Numeral v n.toNat) (beyond : ¬Representable (secs n.toNat)) :
      Overflows p (keyValue "last_handshake_time_sec" v)
  | lastHandshakeTimeNsec (n : BitVec 64) (text : Numeral v n.toNat) (known : p.lastHandshakeTime = some time)
      (beyond : ¬Representable (time + n.toNat)) : Overflows p (keyValue "last_handshake_time_nsec" v)

/-- The lines read so far, of an interface and of the blocks of peers, lead to a time line that overflows. -/
def ReachesOverflow (t : AddrText) (stream : List Item) : Prop :=
  ∃ interface settings blocks peers v key body peer line rest,
    stream = Format.lines (interface ++ blocks.flatten ++ keyValue "public_key" v :: body) ++ .ok line :: rest ∧
      Run ShowsInterface .new interface settings ∧ List.Forall₂ (PeerStateBlock t) blocks peers ∧
      HexKey v key ∧ Run (ShowsPeer t) (.new key) body peer ∧ Overflows peer line

theorem addDuration_error {time : SystemTime} : (∃ e, addDuration time n = .error e) ↔ ¬Representable (time + n) := by
  unfold addDuration Representable
  split_ifs with fits
  · exact ⟨nofun, fun beyond => absurd fits beyond⟩
  · exact ⟨fun _ => fits, fun _ => ⟨_, rfl⟩⟩

theorem panicLine_iff (t : AddrText) {peer : PeerStateOut} {line : Line} :
    (stateFormat t).PanicLine peer line ↔ Overflows peer line := by
  constructor
  · rintro ⟨k, v, e, pair, panics⟩
    obtain rfl := keyValue_of_pair pair
    change PeerStateOut.apply t k v peer = _ at panics
    unfold PeerStateOut.apply at panics
    split_ifs at panics with isSec isNsec
    · subst isSec
      cases parsed : parseUInt 64 v with
      | error e =>
        rw [parsed] at panics
        cases panics
      | ok n =>
        rw [parsed] at panics
        dsimp only at panics
        cases added : addDuration 0 (secs n.toNat) with
        | ok time =>
          rw [added] at panics
          cases panics
        | error e =>
          have beyond := addDuration_error.mp ⟨e, added⟩
          rw [zero_add] at beyond
          exact .lastHandshakeTimeSec n (parseUInt_eq_ok.mp parsed) beyond
    · subst isNsec
      cases parsed : parseUInt 64 v with
      | error e =>
        rw [parsed] at panics
        cases panics
      | ok n =>
        rw [parsed] at panics
        dsimp only at panics
        cases known : peer.lastHandshakeTime with
        | none =>
          rw [known] at panics
          cases panics
        | some time =>
          rw [known] at panics
          dsimp only at panics
          cases added : addDuration time n.toNat with
          | ok time =>
            rw [added] at panics
            cases panics
          | error e =>
            exact .lastHandshakeTimeNsec n (parseUInt_eq_ok.mp parsed) known (addDuration_error.mp ⟨e, added⟩)
    all_goals cases panics
  · intro overflows
    cases overflows with
    | lastHandshakeTimeSec n text beyond =>
      have beyond : ¬Representable (0 + secs n.toNat) := by rwa [zero_add]
      obtain ⟨e, added⟩ := addDuration_error.mpr beyond
      refine ⟨_, _, e, pair_keyValue (by decide) rfl, ?_⟩
      apply (apply_sec t peer (parseUInt_eq_ok.mpr text)).trans
      rw [added]
      rfl
    | lastHandshakeTimeNsec n text known beyond =>
      obtain ⟨e, added⟩ := addDuration_error.mpr beyond
      refine ⟨_, _, e, pair_keyValue (by decide) rfl, ?_⟩
      apply (apply_nsec t (parseUInt_eq_ok.mpr text) known).trans
      rw [added]
      rfl

theorem panicSections_iff (t : AddrText) (stream : List Item) :
    (stateFormat t).PanicSections .new stream ↔ ReachesOverflow t stream := by
  constructor
  · rintro ⟨interface, settings, _, rfl, run, blocks, _, header, key, _, rfl, added, parsed, body, peer, line, rest,
      rfl, block, panics⟩
    obtain ⟨v, rfl, decoded⟩ := Format.parsePublicKey_eq_ok.mp parsed
    obtain ⟨peers, shown, _⟩ := (stateBlocks_iff t).mp added
    refine ⟨interface, settings, blocks, peers, v, key, body, peer, line, rest, ?_, ?_, shown,
      decodeKey_eq_ok.mp decoded, ?_, (panicLine_iff t).mp panics⟩
    · simp [Format.lines, keyValue]
    · exact run.mono fun _ _ _ => (showsInterface_iff t).mp
    · exact block.mono fun _ _ _ => (showsPeer_iff t).mp
  · rintro ⟨interface, settings, blocks, peers, v, key, body, peer, line, rest, rfl, run, shown, text, block, overflows⟩
    refine ⟨interface, settings, Format.lines (blocks.flatten ++ keyValue "public_key" v :: body) ++ .ok line :: rest,
      by simp [Format.lines], run.mono fun _ _ _ => (showsInterface_iff t).mpr, blocks, _, keyValue "public_key" v, key,
      Format.lines body ++ .ok line :: rest, by simp [Format.lines], (stateBlocks_iff t).mpr ⟨peers, shown, rfl⟩,
      Format.parsePublicKey_eq_ok.mpr ⟨v, rfl, decodeKey_eq_ok.mpr text⟩, body, peer, line, rest, rfl, ?_,
      (panicLine_iff t).mpr overflows⟩
    exact block.mono fun _ _ _ => (showsPeer_iff t).mpr

theorem readSections_errno (t : AddrText) {line : Line} (rest : List Item) (state : WgStateOut)
    (errno : startsWith line "errno=" = true) :
    (stateFormat t).readSections (.ok line :: rest) state = .ok (.ok (state, rest)) := by
  obtain ⟨v, rfl⟩ := List.isPrefixOf_iff_prefix.mp errno
  have name : 61 ∉ lit "errno" := by decide
  have split : splitOnce 61 (lit "errno=" ++ v) = (lit "errno", some v) := splitOnce_eq name
  have nonempty : (lit "errno=" ++ v).isEmpty = false := rfl
  have other : startsWith (lit "errno=" ++ v) "public_key" = false := rfl
  rw [Format.readSections, nonempty, other, split]
  rfl

theorem parseGetResponse_errno (t : AddrText) {line : Line} (rest : List Item) (errno : startsWith line "errno=" = true) :
    ∃ result, parseGetResponse t (.ok line :: rest) = .ok result := by
  have peeked : (Peekable.new (.ok line :: rest)).tryPeek = (.ok (some line), ⟨rest, some (.ok line)⟩) := rfl
  rw [parseGetResponse, peeked]
  dsimp only
  rw [if_pos errno]
  split
  · exact ⟨_, rfl⟩
  · exact ⟨_, rfl⟩

/-- The parser returns unless it reaches a time that overflows. -/
theorem parse_get_response_returns_iff (t : AddrText) (stream : List Item) :
    (∃ result, parseGetResponse t stream = .ok result) ↔ ¬ReachesOverflow t stream := by
  rw [← panicSections_iff, ← (stateFormat t).readSections_error_iff (stateFormat_lawful t)]
  cases stream with
  | nil => exact ⟨fun _ => nofun, fun _ => ⟨_, rfl⟩⟩
  | cons item rest =>
    cases item with
    | error e => exact ⟨fun _ => nofun, fun _ => ⟨_, rfl⟩⟩
    | ok line =>
      cases errno : startsWith line "errno=" with
      | true =>
        rw [readSections_errno t rest .new errno]
        exact ⟨fun _ => nofun, fun _ => parseGetResponse_errno t rest errno⟩
      | false =>
        rw [parseGetResponse_state t rest errno]
        cases (stateFormat t).readSections (.ok line :: rest) .new with
        | error e => exact ⟨nofun, fun returns => absurd ⟨e, rfl⟩ returns⟩
        | ok result => exact ⟨fun _ => nofun, fun _ => ⟨_, rfl⟩⟩

/-- A handshake 2^63 seconds after the epoch. -/
def distantHandshake : List Item :=
  [.ok (keyValue "public_key" (List.replicate 64 48)), .ok (keyValue "last_handshake_time_sec" (lit "9223372036854775808")),
    .ok []]

theorem distant_handshake_panics :
    ¬∀ (t : AddrText) (stream : List Item), ∃ result, parseGetResponse t stream = .ok result := by
  intro returns
  obtain ⟨result, parsed⟩ := returns noAddresses distantHandshake
  have panics : (stateFormat noAddresses).readSections distantHandshake .new = .error .unwrapNone := by
    decide +kernel
  have started : startsWith (keyValue "public_key" (List.replicate 64 48)) "errno=" = false := by
    decide
  rw [distantHandshake, parseGetResponse_state noAddresses _ started, ← distantHandshake, panics] at parsed
  cases parsed

end Titun
