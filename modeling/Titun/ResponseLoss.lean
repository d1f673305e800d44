import Titun.ResponseGrammar

/-! Which responses are read as a whole. -/
namespace Titun

open Text Transition

/-- A line that starts the block of a peer. -/
def StartsPeer (line : Line) : Prop := ∃ v, line = keyValue "public_key" v

/-- A line whose key is known in the block of a peer. -/
def KnownToPeer (line : Line) : Prop := ∃ k ∈ peerKeys, ∃ v, line = keyValue k v

/-- A line that is taken for the end of the response where no peer has been read. -/
def EndsHead (line : Line) : Prop := ∃ v, line = keyValue "errno" v ∨ line = keyValue "protocol_version" v

/-- The lines before the one that ends a response. -/
def response (l : List Line) : List Line := l.takeWhile (· ≠ [])

/-- The state shows every peer of the response with all lines of its block that are known. -/
def Lossless (t : AddrText) (l : List Line) (state : WgStateOut) : Prop :=
  ∃ interface blocks unread settings peers, l = interface ++ blocks.flatten ++ unread ∧
    Run ShowsInterface .new interface settings ∧ List.Forall₂ (PeerStateBlock t) blocks peers ∧
    state = { settings with peers } ∧
    ∀ line ∈ response unread, ¬StartsPeer line ∧ (blocks ≠ [] → ¬KnownToPeer line)

/-- Before the first peer nothing that ends the response stands before a peer, and in a block nothing
unknown stands before a peer or before a line that is known. -/
def Unbroken (l : List Line) : Prop :=
  ∀ before line after, response l = before ++ line :: after →
    ((∀ b ∈ before, ¬StartsPeer b) → EndsHead line → ∀ a ∈ after, ¬StartsPeer a) ∧
    ((∃ b ∈ before, StartsPeer b) → ¬StartsPeer line → ¬KnownToPeer line →
      ∀ a ∈ after, ¬StartsPeer a ∧ ¬KnownToPeer a)

theorem keyValue_key {k k' : String} (name : 61 ∉ lit k) (name' : 61 ∉ lit k')
    (same : keyValue k v = keyValue k' v') : lit k = lit k' := by
  have split := (splitOnce_eq name).symm.trans ((congrArg (splitOnce 61) same).trans (splitOnce_eq name'))
  exact (Prod.mk.inj split).1

theorem keyValue_ne_nil (k : String) (v : Line) : keyValue k v ≠ [] :=
  List.append_ne_nil_of_right_ne_nil _ (List.cons_ne_nil _ _)

theorem peerKeys_names : ∀ k ∈ peerKeys, 61 ∉ lit k ∧ lit k ≠ lit "public_key" ∧ lit k ≠ lit "errno" ∧
    lit k ≠ lit "protocol_version" := by
  decide

theorem peerKeys_pair {k : String} (isKey : k ∈ peerKeys) (v : Line) : Format.Pair (keyValue k v) (lit k) v := by
  have other : ∀ k ∈ peerKeys, startsWith (keyValue k v) "public_key" = false := by
    simp only [peerKeys, List.forall_mem_cons]
    exact ⟨rfl, rfl, rfl, rfl, rfl, rfl, rfl, rfl, List.forall_mem_nil _⟩
  exact pair_keyValue (peerKeys_names k isKey).1 (other k isKey)

theorem not_startsPeer {k : String} (name : 61 ∉ lit k) (other : lit k ≠ lit "public_key") :
    ¬StartsPeer (keyValue k v) := by
  rintro ⟨_, same⟩
  exact other (keyValue_key name (by decide) same)

theorem EndsHead.not_startsPeer (ends : EndsHead line) : ¬StartsPeer line := by
  rcases ends with ⟨v, rfl | rfl⟩
  · exact Titun.not_startsPeer (by decide) (by decide)
  · exact Titun.not_startsPeer (by decide) (by decide)

theorem EndsHead.not_known (ends : EndsHead line) : ¬KnownToPeer line := by
  rintro ⟨k, isKey, v, rfl⟩
  obtain ⟨name, _, notErrno, notVersion⟩ := peerKeys_names k isKey
  rcases ends with ⟨_, same | same⟩
  · exact notErrno (keyValue_key name (by decide) same)
  · exact notVersion (keyValue_key name (by decide) same)

theorem ShowsInterface.outside (shows : ShowsInterface s line next) :
    line ≠ [] ∧ ¬StartsPeer line ∧ ¬EndsHead line := by
  have each : ∀ k v, 61 ∉ lit k → lit k ≠ lit "public_key" → lit k ≠ lit "errno" → lit k ≠ lit "protocol_version" →
      keyValue k v ≠ [] ∧ ¬StartsPeer (keyValue k v) ∧ ¬EndsHead (keyValue k v) := by
    intro k v name notPeer notErrno notVersion
    refine ⟨keyValue_ne_nil k v, Titun.not_startsPeer name notPeer, ?_⟩
    rintro ⟨_, same | same⟩
    · exact notErrno (keyValue_key name (by decide) same)
    · exact notVersion (keyValue_key name (by decide) same)
  cases shows <;> exact each _ _ (by decide) (by decide) (by decide) (by decide)

theorem ShowsPeer.known (shows : ShowsPeer t p line next) : KnownToPeer line := by
  cases shows <;> exact ⟨_, by decide, _, rfl⟩

theorem StartsPeer.ne_nil (starts : StartsPeer line) : line ≠ [] := by
  obtain ⟨v, rfl⟩ := starts
  exact keyValue_ne_nil _ v

theorem KnownToPeer.ne_nil (known : KnownToPeer line) : line ≠ [] := by
  obtain ⟨k, _, v, rfl⟩ := known
  exact keyValue_ne_nil k v

theorem run_lines {step : σ → Line → σ → Prop} {p : Line → Prop} (each : ∀ s line next, step s line next → p line)
    (run : Run step s l last) : ∀ line ∈ l, p line := by
  induction run with
  | nil => exact nofun
  | cons one _ ih =>
    intro line isIn
    rcases List.mem_cons.mp isIn with rfl | isIn
    · exact each _ _ _ one
    · exact ih line isIn

theorem blocks_lines {t : AddrText} (blocks : List.Forall₂ (PeerStateBlock t) bs peers) :
    ∀ line ∈ bs.flatten, StartsPeer line ∨ KnownToPeer line := by
  induction blocks with
  | nil => exact nofun
  | cons first _ ih =>
    obtain ⟨v, key, body, rfl, _, run⟩ := first
    intro line isIn
    rw [List.flatten_cons, List.mem_append, List.mem_cons] at isIn
    rcases isIn with (rfl | isIn) | isIn
    · exact .inl ⟨v, rfl⟩
    · exact .inr (run_lines (fun _ _ _ shows => shows.known) run line isIn)
    · exact ih line isIn

theorem response_append {read : List Line} (some : ∀ line ∈ read, line ≠ []) (unread : List Line) :
    response (read ++ unread) = read ++ response unread :=
  List.takeWhile_append_of_pos fun line isIn => decide_eq_true (some line isIn)

theorem append_split {x y before after : List α} (split : x ++ y = before ++ a :: after) :
    (∃ m, x = before ++ a :: m ∧ after = m ++ y) ∨ ∃ m, before = x ++ m ∧ y = m ++ a :: after := by
  rcases List.append_eq_append_iff.mp split with ⟨m, rfl, rfl⟩ | ⟨m, rfl, same⟩
  · exact .inr ⟨m, rfl, rfl⟩
  · cases m with
    | nil => exact .inr ⟨[], by simp, same.symm⟩
    | cons b m =>
      obtain ⟨rfl, rfl⟩ := List.cons.inj same
      exact .inl ⟨m, rfl, rfl⟩

theorem nonempty_read {t : AddrText} (run : Run ShowsInterface start interface settings)
    (shown : List.Forall₂ (PeerStateBlock t) blocks peers) : ∀ line ∈ interface ++ blocks.flatten, line ≠ [] := by
  intro line isIn
  rcases List.mem_append.mp isIn with isIn | isIn
  · exact (run_lines (fun _ _ _ shows => ShowsInterface.outside shows) run line isIn).1
  · exact (blocks_lines shown line isIn).elim StartsPeer.ne_nil KnownToPeer.ne_nil

theorem unbroken_of_lossless (t : AddrText) {l : List Line} {state : WgStateOut}
    (lossless : Lossless t l state) : Unbroken l := by
  obtain ⟨interface, blocks, unread, settings, peers, rfl, run, shown, rfl, none⟩ := lossless
  have head := run_lines (fun _ _ _ shows => ShowsInterface.outside shows) run
  have body := blocks_lines shown
  intro before line after split
  rw [response_append (nonempty_read run shown)] at split
  rcases append_split split with ⟨m, read, rfl⟩ | ⟨m, rfl, left⟩
  · constructor
    · intro noPeer ends
      have isIn : line ∈ interface ++ blocks.flatten := by simp [read]
      rcases List.mem_append.mp isIn with isIn | isIn
      · exact absurd ends (head line isIn).2.2
      · exact ((body line isIn).elim ends.not_startsPeer ends.not_known).elim
    · rintro ⟨b, isBefore, starts⟩ notStart notKnown
      rcases append_split read with ⟨m', isHead, _⟩ | ⟨m', _, isBody⟩
      · exact absurd starts (head b (by simp [isHead, isBefore])).2.1
      · exact ((body line (by simp [isBody])).elim notStart notKnown).elim
  · constructor
    · intro _ _ a isAfter
      exact (none a (by simp [left, isAfter])).1
    · rintro ⟨b, isBefore, starts⟩ _ _ a isAfter
      have some : blocks ≠ [] := by
        rintro rfl
        rcases List.mem_append.mp isBefore with isRead | isLeft
        · rw [List.flatten_nil, List.append_nil] at isRead
          exact (head b isRead).2.1 starts
        · exact (none b (by simp [left, isLeft])).1 starts
      obtain ⟨notStart, notKnown⟩ := none a (by simp [left, isAfter])
      exact ⟨notStart, notKnown some⟩

theorem ends_cases (t : AddrText) (ends : (stateFormat t).Ends bs line) :
    line = [] ∨ (line ≠ [] ∧ ((bs = [] ∧ EndsHead line) ∨ (bs ≠ [] ∧ ¬StartsPeer line ∧ ¬KnownToPeer line))) := by
  by_cases empty : line = []
  · exact .inl empty
  · refine .inr ⟨empty, ?_⟩
    by_cases noPeer : bs = []
    · left
      rcases ends.1 noPeer with none | ⟨k, v, pair, stops⟩
      · exact absurd none empty
      · have isEnd : WgStateOut.apply k v .new = .ok none := stops .new
        obtain rfl := keyValue_of_pair pair
        rcases interface_none_iff.mp isEnd with rfl | rfl
        · exact ⟨noPeer, v, .inl rfl⟩
        · exact ⟨noPeer, v, .inr rfl⟩
    · right
      obtain ⟨foreign, stops⟩ := ends.2 noPeer
      refine ⟨noPeer, ?_, ?_⟩
      · rintro ⟨v, rfl⟩
        cases stops
      · rintro ⟨k, isKey, v, rfl⟩
        have unknown := foreign.applyPeer (peerKeys_pair isKey v) (.new (zeros 32))
        exact (apply_none_iff t).mp unknown k isKey rfl

/-- A response that is accepted is read without loss exactly if it is unbroken. -/
theorem parse_get_response_lossless_iff (t : AddrText) (l : List Line) (state : WgStateOut)
    (parsed : parseGetResponse t (l.map .ok) = .ok (.ok (.ok state))) :
    Lossless t l state ↔ Unbroken l := by
  constructor
  · exact unbroken_of_lossless t
  · intro unbroken
    obtain ⟨_, interface, blocks, line, rest, settings, peers, rfl, run, shown, rfl, ends⟩ :=
      (parseGetResponse_eq_ok t).mp parsed
    refine ⟨interface, blocks, line :: rest, settings, peers, rfl, run, shown, rfl, ?_⟩
    rcases ends_cases t ends with rfl | ⟨some, stops⟩
    · exact nofun
    · have first : response (line :: rest) = line :: response rest := List.takeWhile_cons_of_pos (decide_eq_true some)
      have split := response_append (nonempty_read run shown) (line :: rest)
      rw [first] at split ⊢
      obtain ⟨outside, inside⟩ := unbroken _ _ _ split
      have head := run_lines (fun _ _ _ shows => ShowsInterface.outside shows) run
      rcases stops with ⟨rfl, isEnd⟩ | ⟨noPeer, notStart, notKnown⟩
      · have none : ∀ b ∈ interface ++ [].flatten, ¬StartsPeer b := by
          intro b isIn
          rw [List.flatten_nil, List.append_nil] at isIn
          exact (head b isIn).2.1
        intro a isIn
        refine ⟨?_, fun some => (some rfl).elim⟩
        rcases List.mem_cons.mp isIn with rfl | isIn
        · exact isEnd.not_startsPeer
        · exact outside none isEnd a isIn
      · have start : ∃ b ∈ interface ++ blocks.flatten, StartsPeer b := by
          cases shown with
          | nil => exact absurd rfl noPeer
          | cons block _ =>
            obtain ⟨v, key, body, rfl, _⟩ := block
            exact ⟨keyValue "public_key" v, by simp, v, rfl⟩
        intro a isIn
        rcases List.mem_cons.mp isIn with rfl | isIn
        · exact ⟨notStart, fun _ => notKnown⟩
        · have last := inside start notStart notKnown a isIn
          exact ⟨last.1, fun _ => last.2⟩

def samplePublicKey : Line := keyValue "public_key" (hexEncode (zeros 32).val)

def sampleResponse : List Line := [samplePublicKey, keyValue "rx_bytes" (lit "5"), []]

theorem parse_get_response_lossless_iff_sample :
    Lossless noAddresses sampleResponse
      { WgStateOut.new with peers := [{ PeerStateOut.new (zeros 32) with rxBytes := 5 }] } := by
  have parsed : parseGetResponse noAddresses (sampleResponse.map .ok) =
      .ok (.ok (.ok { WgStateOut.new with peers := [{ PeerStateOut.new (zeros 32) with rxBytes := 5 }] })) :=
    (parseGetResponse_read noAddresses).mpr ⟨fun line isFirst => Option.some.inj isFirst ▸ rfl, _, rfl⟩
  apply (parse_get_response_lossless_iff noAddresses sampleResponse _ parsed).mpr
  intro before line after split
  have isIn : line ∈ [samplePublicKey, keyValue "rx_bytes" (lit "5")] := by
    change [samplePublicKey, keyValue "rx_bytes" (lit "5")] = _ at split
    simp [split]
  have known : StartsPeer line ∨ KnownToPeer line := by
    rcases List.mem_cons.mp isIn with rfl | isIn
    · exact .inl ⟨_, rfl⟩
    · rw [List.mem_singleton.mp isIn]
      exact .inr ⟨"rx_bytes", by decide, _, rfl⟩
  constructor
  · intro _ ends
    exact (known.elim ends.not_startsPeer ends.not_known).elim
  · intro _ notStart notKnown
    exact (known.elim notStart notKnown).elim

/-- A response in which a line that is unknown stands in the block of the first of two peers. -/
def brokenResponse : List Line :=
  [samplePublicKey, keyValue "protocol_version" (lit "1"), samplePublicKey, []]

/-- The second peer is lost. -/
theorem response_loses_peer :
    ¬∀ (t : AddrText) (l : List Line) (state : WgStateOut),
      parseGetResponse t (l.map .ok) = .ok (.ok (.ok state)) → Lossless t l state := by
  intro all
  have parsed : parseGetResponse noAddresses (brokenResponse.map .ok) =
      .ok (.ok (.ok { WgStateOut.new with peers := [.new (zeros 32)] })) :=
    (parseGetResponse_read noAddresses).mpr ⟨fun line isFirst => Option.some.inj isFirst ▸ rfl, _, rfl⟩
  have unbroken := unbroken_of_lossless noAddresses (all noAddresses brokenResponse _ parsed)
  have start : ∃ b ∈ [samplePublicKey], StartsPeer b := ⟨samplePublicKey, by simp, _, rfl⟩
  have ends : EndsHead (keyValue "protocol_version" (lit "1")) := ⟨_, .inr rfl⟩
  have inside := (unbroken [samplePublicKey] (keyValue "protocol_version" (lit "1")) [samplePublicKey] rfl).2
  exact (inside start ends.not_startsPeer ends.not_known samplePublicKey (by simp)).1 ⟨_, rfl⟩

end Titun
