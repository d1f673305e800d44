import Titun.Acquisitions
import Titun.Schedule

/-! After a change of the private key, every handshake and session of the listed peers comes from
the new key, however the tasks are interleaved. -/
namespace Titun

variable {HS : Type} (c : Crypto HS)

/-- A handshake state that a handshake with this private key goes through. -/
inductive Derived (key : X25519Key) : HS → Prop where
  | new {isInitiator : Bool} {rs : Option X25519Pubkey} :
    Derived key (c.hsNew isInitiator PROLOGUE key rs)
  | pushPsk {hs : HS} {psk : U8Array 32} : Derived key hs → Derived key (c.pushPsk hs psk)
  | write {hs next : HS} {ephemeral : X25519Key} {payload : Bytes} {len : Nat} {out : U8Array len} :
    Derived key hs → c.writeMessage hs ephemeral payload len = some (out, next) → Derived key next
  | read {hs next : HS} {data : Bytes} {len : Nat} {out : U8Array len} :
    Derived key hs → c.readMessage hs data len = some (out, next) → Derived key next

/-- A function that tells the private key of a handshake state. -/
structure Remembers (keyOf : HS → X25519Key) : Prop where
  new : ∀ isInitiator prologue key rs, keyOf (c.hsNew isInitiator prologue key rs) = key
  pushPsk : ∀ hs psk, keyOf (c.pushPsk hs psk) = keyOf hs
  write : ∀ {hs ephemeral payload len next} {out : U8Array len},
    c.writeMessage hs ephemeral payload len = some (out, next) → keyOf next = keyOf hs
  read : ∀ {hs data len next} {out : U8Array len},
    c.readMessage hs data len = some (out, next) → keyOf next = keyOf hs

/-- Where handshake states tell their key, they come from no other. -/
theorem Derived.key_eq {keyOf : HS → X25519Key} (remembers : Remembers c keyOf) {hs : HS}
    (derived : Derived c key hs) : keyOf hs = key := by
  induction derived with
  | new => exact remembers.new _ _ _ _
  | pushPsk _ ih => exact (remembers.pushPsk _ _).trans ih
  | write _ written ih => exact (remembers.write written).trans ih
  | read _ read ih => exact (remembers.read read).trans ih

theorem Derived.initiation {wg : WgInfo} {r : InitProcessResult HS}
    (processed : processInitiation c wg p = .ok (some r)) : Derived c wg.key r.handshakeState := by
  obtain ⟨_, read, _⟩ := processInitiation_some c processed
  exact .read .new read

theorem Derived.initiate {wg : WgInfo} {peer : PeerInfo} {hs : HS}
    (initiated : initiate c wg peer selfIndex ephemeral now = some (msg, hs)) : Derived c wg.key hs := by
  obtain ⟨_, written, _⟩ := initiate_eq c initiated
  exact .write (.pushPsk .new) written

theorem Derived.response {hs next : HS} (derived : Derived c key hs)
    (processed : processResponse c hs p = .ok (some (peerId, next))) : Derived c key next := by
  obtain ⟨_, read⟩ := processResponse_some c processed
  exact .read derived read

namespace PeerState

/-- The pending handshake and the sessions of a peer come from a private key. -/
structure Current (key : X25519Key) (p : PeerState HS) : Prop where
  handshake : ∀ h, p.handshake = some h → Derived c key h.hs
  sessions : ∀ t ∈ p.sessions, ∃ now selfId peerId hs, Derived c key hs ∧
    t = Transport.newFromHs c now selfId peerId hs

namespace Current

variable {c} {p q : PeerState HS}

theorem of_blank (blank : p.Blank) : p.Current c key :=
  ⟨fun h pending => (by cases blank.1.symm.trans pending), by simp [blank.2]⟩

theorem keeps (current : p.Current c key) (keeps : p.Keeps q) : q.Current c key := by
  refine ⟨fun h pending => ?_, fun t member => current.sessions t (keeps.2 member)⟩
  rcases keeps.1 with gone | same
  · cases gone.symm.trans pending
  · exact current.handshake h (same ▸ pending)

theorem establishes {addr : SocketAddrV6} {evicted : List WgId} {hs : HS} (current : p.Current c key)
    (derived : Derived c key hs)
    (establishes : WgState.Establishes addr (Transport.newFromHs c now selfId peerId hs) evicted p q) :
    q.Current c key := by
  obtain ⟨kept, gone, sessions, split, _⟩ := establishes.sessions
  refine ⟨fun h pending => (by cases establishes.handshake.symm.trans pending), fun t member => ?_⟩
  rw [sessions] at member
  rcases List.mem_cons.mp member with rfl | old
  · exact ⟨now, selfId, peerId, hs, derived, rfl⟩
  · exact current.sessions t (split ▸ List.mem_append_left _ old)

end Current

end PeerState

namespace Section

/-- What the handlers of handshakes have in hand comes from the key as well. -/
def Carries (wg : WgState HS) : Section HS → Prop
  | accept _ _ r _ => Derived c wg.info.key r.handshakeState
  | finish _ _ _ _ hs peer => wg.Listed peer → Derived c wg.info.key hs
  | _ => True

variable {c}

theorem Carries.of_free {sec : Section HS} (free : ¬ sec.ReadsInfo) (wg : WgState HS) :
    sec.Carries c wg := by
  cases sec with
  | accept | finish => exact absurd trivial free
  | _ => trivial

theorem Carries.mono {sec : Section HS} {wg next : WgState HS} (carries : sec.Carries c wg)
    (key : next.info.key = wg.info.key)
    (listed : ∀ ref, sec.peer? = some ref → next.Listed ref → wg.Listed ref) : sec.Carries c next := by
  cases sec with
  | accept p addr r peer =>
    change Derived c next.info.key _
    rw [key]
    exact carries
  | finish p addr selfId peerId hs peer =>
    intro isListed
    rw [key]
    exact carries (listed peer rfl isListed)
  | _ => trivial

theorem not_writes {sec : Section HS} (other : ∀ key, sec ≠ storeKey key) : ¬ sec.WritesInfo := by
  cases sec with
  | storeKey key => exact absurd rfl (other key)
  | _ => exact id

end Section

theorem Op.begin_locks {op : Op} {wg next : WgState HS} (ok : op.begin c env wg = .ok (next, task)) :
    ∀ sec ∈ task, (sec.ReadsInfo → ∃ bytes addr, op = .datagram bytes addr ∧
      ((bytes.take BUFSIZE).getD 0 0 = 1 ∨ (bytes.take BUFSIZE).getD 0 0 = 2)) ∧
    (∀ key, sec = .storeKey key → ∃ order, op = .setKey order key ∧ next = wg ∧
      task = ((order wg.pubkeyMap).filterMap wg.pubkeyMap.get).map .clear ++ [.storeKey key]) ∧
    sec.Carries c next := by
  intro sec member
  have does := begin_does c ok
  rcases begin_plain c ok member with ⟨bytes, addr, rfl⟩ | ⟨order, key, rfl⟩ | ⟨reads, writes⟩
  · obtain ⟨⟨loadMonitor, rfl⟩, received⟩ := does
    cases received with
    | nothing => cases member
    | accept type processed found =>
      rw [List.mem_singleton.mp member]
      exact ⟨fun _ => ⟨bytes, addr, rfl, .inl type⟩, by simp, .initiation c processed⟩
    | verify type index found =>
      rw [List.mem_singleton.mp member]
      exact ⟨fun _ => ⟨bytes, addr, rfl, .inr type⟩, by simp, trivial⟩
    | cookie _ found | decide found =>
      rw [List.mem_singleton.mp member]
      exact ⟨False.elim, by simp, trivial⟩
  · obtain ⟨rfl, rfl⟩ := does
    rcases List.mem_append.mp member with clears | stores
    · obtain ⟨peer, _, rfl⟩ := List.mem_map.mp clears
      exact ⟨False.elim, by simp, trivial⟩
    · rw [List.mem_singleton.mp stores]
      refine ⟨False.elim, fun key' same => ?_, trivial⟩
      obtain rfl := Section.storeKey.inj same
      exact ⟨order, rfl, rfl, rfl⟩
  · exact ⟨fun isReader => absurd isReader reads, fun key same => absurd (same ▸ trivial) writes,
      .of_free reads next⟩

namespace Program

/-- A task in the course of `set_key`: the peers that it has still to clear are the only listed ones
that own something, and no other task holds a lock of `info`. -/
structure Setting (s : Program HS) (i : Nat) (key : X25519Key) : Prop where
  task : ∃ refs : List PeerRef, s.tasks i = refs.map .clear ++ [.storeKey key] ∧
    ∀ ref, s.wg.Listed ref → ref ∈ refs ∨ (s.wg.peers ref).Blank
  alone : ∀ j, j ≠ i → ∀ sec ∈ s.tasks j, ¬ sec.WritesInfo ∧ ¬ sec.ReadsInfo

/-- Everything that listed peers own comes from the key, and so does what is in hand. -/
structure Keyed (s : Program HS) : Prop where
  sound : s.Sound
  current : ∀ ref, s.wg.Listed ref → (s.wg.peers ref).Current c s.wg.info.key
  carries : ∀ i, ∀ sec ∈ s.tasks i, sec.Carries c s.wg
  setting : ∀ i key, .storeKey key ∈ s.tasks i → s.Setting i key

theorem start_keyed (info : WgInfo) (secret : U8Array 32) (mtu : BitVec 32) (now : Instant) :
    Keyed c (start info secret mtu now) where
  sound := start_sound info secret mtu now
  current ref listed := by
    obtain ⟨pk, found⟩ := listed
    simp [start, WgState.new] at found
  carries := by simp [start]
  setting := by simp [start]

/-- The step is the end of `set_key`. -/
def StoresKey (s : Program HS) (l : Label) : Prop :=
  l.event = .proceed ∧ ∃ key rest, s.tasks l.task = .storeKey key :: rest

namespace Keyed

variable {c} {s : Program HS}

theorem alone (keyed : s.Keyed c) (stores : .storeKey key ∈ s.tasks i) (apart : j ≠ i)
    (member : sec ∈ s.tasks j) : ¬ sec.WritesInfo ∧ ¬ sec.ReadsInfo :=
  (keyed.setting i key stores).alone j apart sec member

theorem setting_head (keyed : s.Keyed c) (stores : .storeKey key ∈ s.tasks i)
    (head : s.tasks i = sec :: rest) :
    sec = .storeKey key ∧ rest = [] ∧ (∀ ref, s.wg.Listed ref → (s.wg.peers ref).Blank) ∨
    ∃ (peer : PeerRef) (refs : List PeerRef), sec = .clear peer ∧
      rest = refs.map .clear ++ [.storeKey key] ∧
      ∀ ref, s.wg.Listed ref → ref = peer ∨ ref ∈ refs ∨ (s.wg.peers ref).Blank := by
  obtain ⟨refs, task, left⟩ := (keyed.setting i key stores).task
  rw [head] at task
  cases refs with
  | nil =>
    obtain ⟨rfl, rfl⟩ := List.cons.inj task
    exact .inl ⟨rfl, rfl, fun ref listed => (left ref listed).resolve_left List.not_mem_nil⟩
  | cons peer refs =>
    obtain ⟨rfl, rfl⟩ := List.cons.inj task
    refine .inr ⟨peer, refs, rfl, rfl, fun ref listed => ?_⟩
    rw [← or_assoc, ← List.mem_cons]
    exact left ref listed

theorem started {next : WgState HS} (keyed : s.Keyed c) (idle : s.tasks i = [])
    (enabled : Enabled s env op) (ok : op.begin c env s.wg = .ok (next, task)) :
    Keyed c ⟨next, Function.update s.tasks i task⟩ := by
  obtain ⟨key, map, gains⟩ := Op.begin_keeps c ok
  have locks := Op.begin_locks c ok
  have listed {ref : PeerRef} (isListed : next.Listed ref) : s.wg.Listed ref := by
    rwa [WgState.Listed, map] at isListed
  refine ⟨(Step.sound c keyed.sound (.start idle enabled ok)).1, fun ref isListed => ?_, fun j sec member => ?_,
    fun j key' stores => ?_⟩
  · have current := keyed.current ref (listed isListed)
    rw [← key] at current
    rcases gains with keeps | ⟨loop, _, _, msg, hs, q, initiated, _, handshake, sessions, becomes⟩
    · exact current.keeps (keeps ref)
    · by_cases here : ref = loop.peer
      · subst here
        change (next.peers loop.peer).Current c next.info.key
        rw [becomes.self]
        refine ⟨fun h pending => ?_, fun t mine => current.sessions t (sessions ▸ mine)⟩
        obtain rfl := Option.some.inj (handshake.symm.trans pending)
        rw [key]
        exact .initiate c initiated
      · exact current.keeps (.of_calm (becomes.others ref here))
  · rcases mem_update member with ⟨_, new⟩ | ⟨_, old⟩
    · exact (locks sec new).2.2
    · exact (keyed.carries j sec old).mono key fun _ _ => listed
  · rcases mem_update stores with ⟨rfl, new⟩ | ⟨here, stored⟩
    · obtain ⟨order, rfl, rfl, rfl⟩ := (locks _ new).2.1 key' rfl
      refine ⟨⟨_, Function.update_self .., fun ref isListed => .inl ?_⟩, fun k apart sec member => ?_⟩
      · obtain ⟨pk, found⟩ := isListed
        have visited : pk ∈ order s.wg.pubkeyMap := (enabled.1.2 pk).mpr (by
          rw [show s.wg.pubkeyMap.get pk = some ref from found]
          rfl)
        exact List.mem_filterMap.mpr ⟨pk, visited, found⟩
      · rcases mem_update member with ⟨same, _⟩ | ⟨_, old⟩
        · exact absurd same apart
        · exact enabled.2 k sec old
    · have setting := keyed.setting j key' stored
      have readable : ¬ s.InfoReadable := fun readable => readable j _ stored trivial
      obtain ⟨refs, task', left⟩ := setting.task
      refine ⟨⟨refs, (Function.update_of_ne here ..).trans task', fun ref isListed => ?_⟩,
        fun k apart sec member => ?_⟩
      · refine (left ref (listed isListed)).imp_right fun blank => ?_
        rcases gains with keeps | ⟨loop, rfl, _⟩
        · exact (keeps ref).blank blank
        · exact absurd enabled.2.2 readable
      · rcases mem_update member with ⟨_, new⟩ | ⟨_, old⟩
        · obtain ⟨reads, writes, _⟩ := locks sec new
          refine ⟨Section.not_writes fun key same => ?_, fun isReader => ?_⟩
          · obtain ⟨order, rfl, _⟩ := writes key same
            exact (enabled.2 j _ stored).1 trivial
          · obtain ⟨bytes, addr, rfl, type⟩ := reads isReader
            exact readable (enabled type)
        · exact setting.alone k apart sec old

theorem proceeded {next : WgState HS} (keyed : s.Keyed c) (head : s.tasks i = sec :: rest)
    (free : Free s sec) (ok : sec.run c env s.wg = .ok (next, more)) :
    Keyed c ⟨next, Function.update s.tasks i (more ++ rest)⟩ := by
  have mine : ∀ later ∈ sec :: rest, later ∈ s.tasks i := fun later member => head ▸ member
  have does := Section.run_does c ok
  have locks := Section.run_locks c ok
  have step := Step.sound c keyed.sound (.proceed head free ok)
  refine ⟨step.1, fun ref isListed => ?_, fun j later member => ?_, fun j key stores => ?_⟩
  · rcases Section.run_listed c ok isListed with listed | ⟨_, blank⟩
    swap
    · exact .of_blank blank
    have current := keyed.current ref listed
    rcases Section.run_key c ok with key | ⟨key, rfl, rfl⟩
    · rw [← key] at current
      have carried := keyed.carries i sec (mine sec List.mem_cons_self)
      have known {q : PeerState HS} {reg : Registry WgId PeerRef} {peer : PeerRef}
          (becomes : WgState.Becomes peer q reg s.wg next)
          (self : ref = peer → q.Current c next.info.key) : (next.peers ref).Current c next.info.key := by
        by_cases here : ref = peer
        · rw [here, becomes.self]
          exact self here
        · exact current.keeps (.of_calm (becomes.others ref here))
      rcases Section.run_keeps c ok with keeps | ⟨p, addr, r, peer, rfl, _, noise, hs, q, evicted, written,
        establishes, becomes⟩ | ⟨p, addr, selfId, peerId, hs, peer, rfl, h, q, evicted, _, establishes, becomes⟩
      · exact current.keeps (keeps ref)
      · refine known becomes fun here => ?_
        subst here
        have derived : Derived c next.info.key r.handshakeState := key ▸ carried
        exact current.establishes (.write (.pushPsk derived) written) establishes
      · refine known becomes fun here => ?_
        subst here
        have derived : Derived c next.info.key hs := key ▸ carried listed
        exact current.establishes derived establishes
    · rcases keyed.setting_head (mine _ List.mem_cons_self) head with ⟨_, _, blank⟩ | ⟨_, _, same, _⟩
      · exact .of_blank (blank ref listed)
      · cases same
  · rcases Section.run_key c ok with key | ⟨key, rfl, rfl⟩
    · have carried {task : List (Section HS)} {k : Nat} (task_eq : s.tasks k = task)
          (isIn : later ∈ task) : later.Carries c next := by
        subst task_eq
        refine (keyed.carries k later isIn).mono key fun ref refers isListed => ?_
        rcases Section.run_listed c ok isListed with listed | ⟨isNew, _⟩
        · exact listed
        · exact absurd ((keyed.sound.tasks k later isIn).1 ref refers) (by rw [isNew]; exact lt_irrefl _)
      rcases mem_update member with ⟨_, new⟩ | ⟨_, old⟩
      · rcases List.mem_append.mp new with new | old
        · by_cases reads : later.ReadsInfo
          swap
          · exact .of_free reads next
          -- Only a response that was verified leads on to a section that holds the lock.
          cases sec with
          | verify p addr selfId peer =>
            obtain ⟨calm, rfl | ⟨h, peerId, hs, pending, _, processed, rfl⟩⟩ := does
            · cases new
            · simp only [List.mem_cons, List.not_mem_nil, or_false] at new
              rcases new with rfl | rfl
              · trivial
              · intro isListed
                rcases Section.run_listed c ok isListed with listed | ⟨isNew, _⟩
                · rw [key]
                  exact ((keyed.current peer listed).handshake h pending).response c processed
                · have added := (keyed.sound.tasks i _ (mine _ List.mem_cons_self)).1 peer rfl
                  exact absurd added (by rw [isNew]; exact lt_irrefl _)
          | accept p addr r peer | insertId selfId peer | finish p addr selfId peerId hs peer =>
            rw [does.1] at new
            cases new
          | _ => exact absurd ((locks later new).1 reads) id
        · exact carried head (List.mem_cons_of_mem _ old)
      · exact carried rfl old
    · have blank := keyed.setting_head (mine _ List.mem_cons_self) head
      rcases mem_update member with ⟨_, new⟩ | ⟨apart, old⟩
      · obtain ⟨_, rfl, _⟩ | ⟨_, _, same, _⟩ := blank
        · rw [does.1] at new
          cases new
        · cases same
      · exact .of_free (keyed.alone (mine _ List.mem_cons_self) apart old).2 _
  · rcases mem_update stores with ⟨rfl, new⟩ | ⟨here, stored⟩
    · have stored : .storeKey key ∈ rest :=
        (List.mem_append.mp new).resolve_left fun isNew => (locks _ isNew).2 trivial
      obtain ⟨_, rfl, _⟩ | ⟨peer, refs, rfl, rfl, left⟩ :=
        keyed.setting_head (mine _ (List.mem_cons_of_mem _ stored)) head
      · cases stored
      obtain ⟨rfl, cleared, _⟩ := does
      refine ⟨⟨refs, Function.update_self .., fun ref isListed => ?_⟩, fun k apart later member => ?_⟩
      · rcases Section.run_listed c ok isListed with listed | ⟨_, blank⟩
        · rcases left ref listed with rfl | remaining | blank
          · exact .inr (cleared.self ▸ PeerState.clear_blank _)
          · exact .inl remaining
          · exact .inr ((cleared.keeps ref).blank blank)
        · exact .inr blank
      · rcases mem_update member with ⟨same, _⟩ | ⟨_, old⟩
        · exact absurd same apart
        · exact keyed.alone (mine _ (List.mem_cons_of_mem _ stored)) apart old
    · have setting := keyed.setting j key stored
      obtain ⟨refs, task, left⟩ := setting.task
      have outside := setting.alone i (Ne.symm here)
      refine ⟨⟨refs, (Function.update_of_ne here ..).trans task, fun ref isListed => ?_⟩,
        fun k apart later member => ?_⟩
      · rcases Section.run_listed c ok isListed with listed | ⟨_, blank⟩
        · refine (left ref listed).imp_right fun blank => ?_
          rcases Section.run_keeps c ok with keeps | ⟨_, _, _, _, rfl, _⟩ | ⟨_, _, _, _, _, _, rfl, _⟩
          · exact (keeps ref).blank blank
          · exact absurd trivial (outside _ (mine _ List.mem_cons_self)).2
          · exact absurd trivial (outside _ (mine _ List.mem_cons_self)).2
        · exact .inr blank
      · rcases mem_update member with ⟨_, new⟩ | ⟨_, old⟩
        · rcases List.mem_append.mp new with new | old
          · obtain ⟨reads, writes⟩ := locks later new
            exact ⟨writes, fun isReader => (outside sec (mine _ List.mem_cons_self)).2 (reads isReader)⟩
          · exact outside later (mine _ (List.mem_cons_of_mem _ old))
        · exact setting.alone k apart later old

end Keyed

theorem Step.keyed {s next : Program HS} {l : Label} (keyed : s.Keyed c) (step : Step c s l next) :
    next.Keyed c := by
  cases step with
  | start idle enabled ok => exact keyed.started idle enabled ok
  | proceed head free ok => exact keyed.proceeded head free ok

theorem Step.key {s next : Program HS} {l : Label} (step : Step c s l next) (other : ¬ s.StoresKey l) :
    next.wg.info.key = s.wg.info.key := by
  cases step with
  | start idle enabled ok => exact (Op.begin_keeps c ok).1
  | proceed head free ok =>
    rcases Section.run_key c ok with key | ⟨key, rfl, _⟩
    · exact key
    · exact absurd ⟨rfl, key, _, head⟩ other

/-- Once `set_key` has stored a key, and until the next key is stored, every pending handshake and
every session of every listed peer is derived using that key, and from no other key where handshake
states tell theirs. -/
theorem sessions_of_current_key {info : WgInfo} {secret : U8Array 32} {mtu : BitVec 32} {now : Instant}
    {s next last : Program HS} {i : Nat} {key : X25519Key} {rest : List (Section HS)} {env : Env}
    (before : Transition.Run (Step c) (start info secret mtu now) labels s)
    (storing : s.tasks i = .storeKey key :: rest) (stored : Step c s ⟨i, .proceed, env⟩ next)
    (after : Transition.Run (fun s l next => Step c s l next ∧ ¬ s.StoresKey l) next later last) :
    last.wg.info.key = key ∧
    (∀ pk ref, last.wg.pubkeyMap.get pk = some ref → (last.wg.peers ref).Current c key) ∧
    ∀ keyOf, Remembers c keyOf → ∀ pk ref, last.wg.pubkeyMap.get pk = some ref →
      (∀ h, (last.wg.peers ref).handshake = some h → keyOf h.hs = key) ∧
      ∀ t ∈ (last.wg.peers ref).sessions, ∃ now selfId peerId hs, keyOf hs = key ∧
        t = Transport.newFromHs c now selfId peerId hs := by
  have keyed : next.Keyed c := Step.keyed c
    (before.invariant (Keyed c) (fun _ _ _ keyed step => step.keyed c keyed)
      (start_keyed c info secret mtu now)) stored
  have first : next.wg.info.key = key := by
    cases stored with
    | proceed head free ok =>
      obtain ⟨rfl, _⟩ := List.cons.inj (storing.symm.trans head)
      rw [(Section.run_does c ok).2]
  obtain ⟨keyedLast, keyLast⟩ := after.invariant (fun s => s.Keyed c ∧ s.wg.info.key = key)
    (fun _ _ _ inv step => ⟨step.1.keyed c inv.1, (step.1.key c step.2).trans inv.2⟩) ⟨keyed, first⟩
  have current : ∀ pk ref, last.wg.pubkeyMap.get pk = some ref → (last.wg.peers ref).Current c key :=
    fun pk ref found => keyLast ▸ keyedLast.current ref ⟨pk, found⟩
  refine ⟨keyLast, current, fun keyOf remembers pk ref found => ⟨fun h pending => ?_, fun t member => ?_⟩⟩
  · exact ((current pk ref found).handshake h pending).key_eq c remembers
  · obtain ⟨now, selfId, peerId, hs, derived, made⟩ := (current pk ref found).sessions t member
    exact ⟨now, selfId, peerId, hs, derived.key_eq c remembers, made⟩

theorem sessions_of_current_key_resent :
    ∃ last : Program X25519Key, (last.wg.peers 0).handshake.isSome = true ∧
      (last.wg.peers 0).Current Crypto.transparent (WgState.samplePubkey 1) := by
  have followed : ((sampleProgram.follow Crypto.transparent 2 (sampleSetup ++ sampleInitiating ++
      [starts 1 (.setKey (fun _ => [zeros 32]) (WgState.samplePubkey 1)), proceeds 1])).bind fun s =>
        (s.act Crypto.transparent 2 (proceeds 1)).bind fun next =>
        (next.act Crypto.transparent 2 (starts 0 (.resend ⟨0, 0⟩))).map fun last =>
        (s.tasks 1, last.wg.pubkeyMap.get (zeros 32), (last.wg.peers 0).handshake.isSome)) =
      some ([.storeKey (WgState.samplePubkey 1)], some 0, true) := by decide +kernel
  obtain ⟨s, before, followed⟩ := Option.bind_eq_some_iff.mp followed
  obtain ⟨next, stored, followed⟩ := Option.bind_eq_some_iff.mp followed
  obtain ⟨last, resent, seen⟩ := Option.map_eq_some_iff.mp followed
  obtain ⟨storing, seen⟩ := Prod.mk.inj seen
  obtain ⟨found, pending⟩ := Prod.mk.inj seen
  obtain ⟨run, within⟩ := run_of_follow Crypto.transparent start_within before
  obtain ⟨storeStep, _, within⟩ := step_of_act Crypto.transparent within stored
  obtain ⟨resendStep, _⟩ := step_of_act Crypto.transparent within resent
  obtain ⟨_, current, _⟩ := sessions_of_current_key Crypto.transparent
    (run.mono fun _ _ _ step => step.1) storing storeStep
    (.cons ⟨resendStep, fun stores => by cases stores.1⟩ .nil)
  exact ⟨last, pending, current _ 0 found⟩

end Program

end Titun
