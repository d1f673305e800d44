import Titun.IpcWrite
import Titun.ReloadOutcome
import Titun.RequestGrammar

/-! Serving a connection of the configuration protocol. -/
namespace Titun

open Text Transition

inductive ServeError where
  | parse (e : ParseError)
  /-- The interface no longer exists. -/
  | unavailable

/-- What is left when a connection has been served. -/
structure Served (HS : Type) where
  result : Except ServeError Unit
  writer : BufWriter
  wg : Option (WgState HS)

section Serve

variable {HS : Type} (t : AddrText) (codec : Nat → Bytes → List Item) (env : Env) (clock : SystemTime)
  (order : List X25519Pubkey) (calls : SystemCalls) (rawOsError : String → Option Int)

/-- A key that is given is set. -/
def WgState.applyKey (wg : WgState HS) : Option X25519Key → WgState HS
  | some key => wg.setKey env order key
  | none => wg

def WgState.applyReplacePeers (wg : WgState HS) (replacePeers : Bool) : Exec (WgState HS) :=
  if replacePeers then wg.removeAllPeers env order else return wg

/-- `process_wg_set`: the first error of a system call ends it. -/
def processWgSet (wg : WgState HS) (command : WgSetCommand) : Exec (Except String Unit × WgState HS) :=
  let wg := wg.applyKey env order command.privateKey
  match wg.installPort calls command.listenPort with
  | (.error e, wg) => return (.error e, wg)
  | (.ok (), wg) =>
    match wg.installFwmark calls command.fwmark with
    | (.error e, wg) => return (.error e, wg)
    | (.ok (), wg) => do
      let wg ← wg.applyReplacePeers env order command.replacePeers
      let wg ← wg.processPeers env command.peers
      return (.ok (), wg)

/-- The error number that a set request is answered with. -/
def errnoOf : Except String Unit → Exec Int
  | .ok () => return 0
  | .error e => unwrap (rawOsError e)

/-- `serve`, for a client that keeps reading. `stream` is all that it sends. -/
def serve (wg : Option (WgState HS)) (stream : Bytes) : Exec (Served HS) := do
  let w := BufWriter.new
  match ← parseCommandIo t codec (stream.take (1024 * 1024)) with
  | .ok none => return ⟨.ok (), w, wg⟩
  -- `write_error` is a future, which does nothing before it is polled. This one is dropped.
  | .error e => return ⟨.error (.parse e), w, wg⟩
  | .ok (some c) =>
    match wg with
    | none => return ⟨.error .unavailable, writeError w 6, none⟩
    | some wg =>
      match c with
      | .get => do
        let w ← writeWgState t w (wg.getState env.now clock order)
        return ⟨.ok (), w, some wg⟩
      | .set command => do
        let (result, wg) ← processWgSet env order calls wg command
        let errno ← errnoOf rawOsError result
        return ⟨.ok (), writeError w errno, some wg⟩

/-- The lines of a request that are read at most. -/
def received (stream : Bytes) : List Item := codec 128 (stream.take (1024 * 1024))

/-- A whole request has been applied. -/
def AppliesWhole (wg : WgState HS) (command : WgSetCommand) (next : WgState HS) : Prop :=
  ∃ ported marked cleared,
    (wg.applyKey env order command.privateKey).installPort calls command.listenPort = (.ok (), ported) ∧
    ported.installFwmark calls command.fwmark = (.ok (), marked) ∧
    marked.applyReplacePeers env order command.replacePeers = .ok cleared ∧
    cleared.processPeers env command.peers = .ok next

/-- The response that is an error number. -/
def errnoResponse (errno : Int) : Bytes := unlines [keyValue "errno" (displayInt errno), []]

/-- A stream of lines has been answered with one complete response. -/
structure Answered (wg : WgState HS) (items : List Item) (served : Served HS) : Prop where
  get : Begins GetRequest items → ∃ lines, (wg.getState env.now clock order).lines t = .ok lines ∧
    served.writer.sent = unlines (lines ++ [keyValue "errno" (lit "0"), []])
  set : ∀ command, Begins (SetRequest t · command) items → ∃ errno next, served.wg = some next ∧
    served.writer.sent = errnoResponse errno ∧ (errno = 0 ↔ AppliesWhole env order calls wg command next)
  other : ¬Begins GetRequest items → (∀ command, ¬Begins (SetRequest t · command) items) →
    ∃ errno, errno ≠ 0 ∧ served.writer.sent = errnoResponse errno

end Serve

/-- What the codec promises of a line, and of input that is too long for one. -/
def YieldsItems (codec : Nat → Bytes → List Item) : Prop :=
  ∀ limit stream, 10 ∈ stream ∨ limit < stream.length → codec limit stream ≠ []

/-- Errors of system calls have a number, which is not zero. -/
def SystemCalls.Numbered (calls : SystemCalls) (rawOsError : String → Option Int) : Prop :=
  ∀ e, calls.prepared = .error e ∨ calls.marked = .error e → ∃ code, rawOsError e = some code ∧ code ≠ 0

theorem sent_writeError (errno : Int) : (writeError .new errno).sent = errnoResponse errno := by
  have written := BufWriter.written_writeln .new [keyValue "errno" (displayInt errno), []]
  exact written

namespace WgState

variable {HS : Type}

theorem installPort_keeps (wg : WgState HS) (calls : SystemCalls) (port : Option (BitVec 16)) :
    SameRouting wg (wg.installPort calls port).2 ∧
      ∀ e, (wg.installPort calls port).1 = .error e → calls.prepared = .error e := by
  cases port with
  | none => exact ⟨.refl wg, nofun⟩
  | some port =>
    by_cases same : port = wg.info.port
    · have unchanged : wg.setPort port calls.prepared = (.ok (), wg) := if_pos same
      rw [installPort, unchanged]
      exact ⟨.refl wg, nofun⟩
    · cases prepared : calls.prepared with
      | error e =>
        have failed : wg.setPort port (.error e) = (.error e, wg) := if_neg same
        rw [installPort, prepared, failed]
        exact ⟨.refl wg, fun _ isError => congrArg Except.error (Except.error.inj isError)⟩
      | ok bound =>
        have set := setPort_spec wg port bound
        rw [installPort, prepared]
        refine ⟨set.1, ?_⟩
        rw [Handover.setPort_eq wg port bound same]
        exact nofun

theorem installFwmark_keeps (wg : WgState HS) (calls : SystemCalls) (fwmark : Option (BitVec 32)) :
    SameRouting wg (wg.installFwmark calls fwmark).2 ∧
      ∀ e, (wg.installFwmark calls fwmark).1 = .error e → calls.marked = .error e := by
  cases fwmark with
  | none =>
    refine ⟨.refl wg, ?_⟩
    intro e failed
    cases failed
  | some fwmark =>
    cases marked : calls.marked with
    | error e =>
      rw [installFwmark, marked, setFwmark]
      split_ifs
      · refine ⟨.refl wg, ?_⟩
        intro e failed
        cases failed
      · exact ⟨.refl wg, fun _ same => same⟩
    | ok =>
      rw [installFwmark, marked]
      refine ⟨(setFwmark_spec wg fwmark).1, ?_⟩
      rw [setFwmark]
      intro e failed
      split_ifs at failed

theorem applyKey_routing (wg : WgState HS) (env : Env) (order : List X25519Pubkey) (key : Option X25519Key) :
    SameRouting wg (wg.applyKey env order key) := by
  cases key with
  | none => exact .refl wg
  | some key => exact (setKey_spec wg env order key).1

theorem ensurePeer_eq (wg : WgState HS) (env : Env) (pk : X25519Pubkey) :
    wg.ensurePeer env pk = .ok (wg.addPeer env pk).2 := by
  by_cases known : (wg.pubkeyMap.get pk).isSome
  · simp [ensurePeer, peerExists, findPeerByPubkey, addPeer, known]
  · simp [ensurePeer, peerExists, findPeerByPubkey, addPeer, known, Except.toOption]

theorem Refines.processPeers_spec {wg : WgState HS} {o : Ownership} (refines : Refines wg o) (env : Env)
    {peers : List WgSetPeerCommand} (valid : ∀ p ∈ peers, ∀ ip ∈ p.allowedIps, ValidIp ip) :
    ∃ next, wg.processPeers env peers = .ok next := by
  induction peers generalizing wg o with
  | nil => exact ⟨wg, rfl⟩
  | cons p peers ih =>
    have later := fun q isIn => valid q (List.mem_cons_of_mem p isIn)
    have one : ∃ next o', wg.processPeer env p = .ok next ∧ Refines next o' := by
      by_cases remove : p.remove = true
      · obtain ⟨removed, next, ok, nextRefines, _⟩ := refines.removePeer env p.publicKey
        refine ⟨next, _, ?_, nextRefines⟩
        rw [processPeer, if_pos remove, ok]
        rfl
      · have addedRefines := refines.addPeer env p.publicKey
        have known : p.toSetPeer.publicKey ∈ (o.apply (.addPeer p.publicKey)).peers := Finset.mem_insert_self _ _
        obtain ⟨next, ok, nextRefines, _⟩ := addedRefines.setPeer_spec env (valid p List.mem_cons_self) known
        refine ⟨next, _, ?_, nextRefines⟩
        rw [processPeer, if_neg remove, ensurePeer_eq, ok_bind, ok]
        rfl
    obtain ⟨next, o', ok, nextRefines⟩ := one
    obtain ⟨last, rest⟩ := ih nextRefines later
    exact ⟨last, by rw [processPeers, ok, ok_bind, rest]⟩

theorem Refines.applyReplacePeers_spec {wg : WgState HS} {o : Ownership} (refines : Refines wg o) (env : Env)
    {order : List X25519Pubkey} (all : HashMap.IterOrder wg.pubkeyMap order) (replacePeers : Bool) :
    ∃ next o', wg.applyReplacePeers env order replacePeers = .ok next ∧ Refines next o' := by
  cases replacePeers with
  | false => exact ⟨wg, o, rfl, refines⟩
  | true =>
    have listed : ∀ pk ∈ o.peers, pk ∈ order := fun pk isIn => (all.2 pk).mpr ((refines.peers pk).mpr isIn)
    obtain ⟨next, ok, nextRefines⟩ := refines.removeAllPeers env listed
    exact ⟨next, _, ok, nextRefines⟩

theorem Refines.processWgSet_spec {wg : WgState HS} {o : Ownership} (refines : Refines wg o) (env : Env)
    {order : List X25519Pubkey} (all : HashMap.IterOrder wg.pubkeyMap order) (calls : SystemCalls)
    {command : WgSetCommand} (valid : ∀ p ∈ command.peers, ∀ ip ∈ p.allowedIps, ValidIp ip) :
    ∃ result next, processWgSet env order calls wg command = .ok (result, next) ∧
      (result = .ok () ↔ AppliesWhole env order calls wg command next) ∧
      ∀ e, result = .error e → calls.prepared = .error e ∨ calls.marked = .error e := by
  have keyed := applyKey_routing wg env order command.privateKey
  obtain ⟨portRouting, portFails⟩ := installPort_keeps (wg.applyKey env order command.privateKey) calls command.listenPort
  unfold processWgSet AppliesWhole
  dsimp only
  cases installed : (wg.applyKey env order command.privateKey).installPort calls command.listenPort with
  | mk portResult ported =>
    rw [installed] at portRouting portFails
    cases portResult with
    | error e => exact ⟨_, _, rfl, ⟨nofun, fun ⟨_, _, _, ok, _⟩ => nomatch ok⟩, fun e same => .inl (portFails e same)⟩
    | ok done =>
      cases done
      obtain ⟨markRouting, markFails⟩ := installFwmark_keeps ported calls command.fwmark
      dsimp only
      cases setMark : ported.installFwmark calls command.fwmark with
      | mk markResult marked =>
        rw [setMark] at markRouting markFails
        cases markResult with
        | error e =>
          refine ⟨.error e, marked, rfl, ⟨nofun, ?_⟩, fun e same => .inr (markFails e same)⟩
          rintro ⟨_, _, _, ok, fails, _⟩
          obtain rfl := (Prod.mk.inj ok).2
          cases setMark.symm.trans fails
        | ok done =>
          cases done
          have routing := (keyed.trans portRouting).trans markRouting
          obtain ⟨cleared, o', isCleared, clearedRefines⟩ :=
            (refines.frame routing).applyReplacePeers_spec env (routing.pubkeyMap ▸ all) command.replacePeers
          obtain ⟨next, processed⟩ := clearedRefines.processPeers_spec env valid
          refine ⟨.ok (), next, by simp only [isCleared, processed, ok_bind, pure_eq_ok], ?_, nofun⟩
          exact ⟨fun _ => ⟨ported, marked, cleared, rfl, setMark, isCleared, processed⟩, fun _ => rfl⟩

end WgState

section Lines

variable (t : AddrText)

theorem mapM_ok_iff {f : α → Exec β} {l : List α} :
    (∃ bs, l.mapM f = .ok bs) ↔ ∀ a ∈ l, ∃ b, f a = .ok b := by
  induction l with
  | nil => exact ⟨fun _ => nofun, fun _ => ⟨[], rfl⟩⟩
  | cons a l ih =>
    rw [List.forall_mem_cons, ← ih, List.mapM_cons]
    constructor
    · rintro ⟨bs, ok⟩
      obtain ⟨b, first, ok⟩ := bind_eq_ok.mp ok
      obtain ⟨rest, isRest, _⟩ := bind_eq_ok.mp ok
      exact ⟨⟨b, first⟩, rest, isRest⟩
    · rintro ⟨⟨b, first⟩, rest, isRest⟩
      exact ⟨b :: rest, by rw [first, isRest]; rfl⟩

theorem handshakeTimeLines_ok_iff {time : Option SystemTime} :
    (∃ l, handshakeTimeLines time = .ok l) ↔ ∀ at_, time = some at_ → 0 ≤ at_ := by
  cases time with
  | none => exact ⟨fun _ => nofun, fun _ => ⟨[], rfl⟩⟩
  | some time =>
    by_cases positive : 0 ≤ time
    · refine ⟨fun _ at_ same => Option.some.inj same ▸ positive, fun _ => ?_⟩
      rw [handshakeTimeLines, durationSinceEpoch, if_pos positive]
      exact ⟨_, rfl⟩
    · refine ⟨?_, fun all => absurd (all time rfl) positive⟩
      rw [handshakeTimeLines, durationSinceEpoch, if_neg positive]
      rintro ⟨_, ok⟩
      cases ok

theorem peerLines_ok_iff {p : PeerStateOut} :
    (∃ l, p.lines t = .ok l) ↔ ∀ time, p.lastHandshakeTime = some time → 0 ≤ time := by
  rw [← handshakeTimeLines_ok_iff]
  constructor
  · rintro ⟨_, ok⟩
    obtain ⟨l, times, _⟩ := bind_eq_ok.mp ok
    exact ⟨l, times⟩
  · rintro ⟨l, times⟩
    exact ⟨_, bind_eq_ok.mpr ⟨l, times, rfl⟩⟩

/-- A state is shown unless a time is before the epoch. -/
theorem stateLines_ok_iff {state : WgStateOut} :
    (∃ l, state.lines t = .ok l) ↔ ∀ p ∈ state.peers, ∀ time, p.lastHandshakeTime = some time → 0 ≤ time := by
  have each : (∃ blocks, (state.peers.mapM fun p => p.lines t) = .ok blocks) ↔
      ∀ p ∈ state.peers, ∀ time, p.lastHandshakeTime = some time → 0 ≤ time :=
    mapM_ok_iff.trans (forall₂_congr fun p _ => peerLines_ok_iff t)
  rw [← each]
  constructor
  · rintro ⟨_, ok⟩
    obtain ⟨blocks, peers, _⟩ := bind_eq_ok.mp ok
    exact ⟨blocks, peers⟩
  · rintro ⟨blocks, peers⟩
    exact ⟨_, bind_eq_ok.mpr ⟨blocks, peers, rfl⟩⟩

theorem sent_writeWgState {state : WgStateOut} (shown : state.lines t = .ok l) :
    ∃ w, writeWgState t .new state = .ok w ∧ w.sent = unlines (l ++ [keyValue "errno" (lit "0"), []]) := by
  refine ⟨_, bind_eq_ok.mpr ⟨l, shown, rfl⟩, ?_⟩
  exact BufWriter.written_writeln .new _

theorem SetRequest.valid {t : AddrText} {l : List Line} {command : WgSetCommand} (set : SetRequest t l command) :
    ∀ p ∈ command.peers, ∀ ip ∈ p.allowedIps, ValidIp ip := by
  obtain ⟨_, blocks, _, _, peers, -, -, each, rfl⟩ := set
  have one : ∀ p line next, (∀ ip ∈ p.allowedIps, ValidIp ip) → SetsPeer t p line next →
      ∀ ip ∈ next.allowedIps, ValidIp ip := by
    intro p line next valid sets
    cases sets with
    | allowedIp text =>
      obtain ⟨_, _, _, _, _, _, isValid⟩ := text
      intro ip isIn
      rcases Finset.mem_insert.mp isIn with rfl | isIn
      · exact isValid
      · exact valid ip isIn
    | _ => exact valid
  intro p isIn
  dsimp only at isIn
  induction each with
  | nil => cases isIn
  | cons first _ ih =>
    rcases List.mem_cons.mp isIn with rfl | later
    · obtain ⟨_, _, _, _, _, run⟩ := first
      exact run.invariant (fun p => ∀ ip ∈ p.allowedIps, ValidIp ip) one nofun
    · exact ih later

end Lines

theorem errnoResponse_ne_nil (errno : Int) : errnoResponse errno ≠ [] := by
  simp [errnoResponse, unlines]

section Answers

variable {HS : Type} (t : AddrText) {codec : Nat → Bytes → List Item} (env : Env) (clock : SystemTime)
  {order : List X25519Pubkey} {calls : SystemCalls} {rawOsError : String → Option Int} {wg : WgState HS}

theorem received_some (yields : YieldsItems codec) {stream : Bytes} (complete : 10 ∈ stream) :
    received codec stream ≠ [] := by
  apply yields
  by_cases short : stream.length ≤ 1024 * 1024
  · left
    rwa [List.take_of_length_le short]
  · right
    rw [List.length_take]
    omega

theorem serve_parsed {stream : Bytes} (result : Except ParseError (Option WgIpcCommand))
    (parsed : parseCommand t (received codec stream) = .ok result) :
    serve t codec env clock order calls rawOsError (some wg) stream = match result with
      | .ok none => .ok ⟨.ok (), .new, some wg⟩
      | .error e => .ok ⟨.error (.parse e), .new, some wg⟩
      | .ok (some .get) => do
        let w ← writeWgState t .new (wg.getState env.now clock order)
        return ⟨.ok (), w, some wg⟩
      | .ok (some (.set command)) => do
        let (result, wg) ← processWgSet env order calls wg command
        let errno ← errnoOf rawOsError result
        return ⟨.ok (), writeError .new errno, some wg⟩ := by
  have io : parseCommandIo t codec (stream.take (1024 * 1024)) = .ok result := parsed
  rw [serve, io, ok_bind]
  rcases result with e | _ | _ | command <;> rfl

theorem serve_get {stream : Bytes} (accepts : Accepts t (received codec stream) (.ok (some .get)))
    (parsed : parseCommand t (received codec stream) = .ok (.ok (some .get))) :
    (∃ served, serve t codec env clock order calls rawOsError (some wg) stream = .ok served ∧
      Answered t env clock order calls wg (received codec stream) served) ↔
      ∀ p ∈ (wg.getState env.now clock order).peers, ∀ time, p.lastHandshakeTime = some time → 0 ≤ time := by
  have get := accepts.get.mp rfl
  rw [serve_parsed t env clock (.ok (some .get)) parsed, ← stateLines_ok_iff t]
  constructor
  · rintro ⟨served, _, answered⟩
    obtain ⟨l, shown, _⟩ := answered.get get
    exact ⟨l, shown⟩
  · rintro ⟨l, shown⟩
    obtain ⟨w, written, sent⟩ := sent_writeWgState t shown
    refine ⟨_, bind_eq_ok.mpr ⟨w, written, rfl⟩, fun _ => ⟨l, shown, sent⟩, ?_, fun notGet => absurd get notGet⟩
    intro command set
    cases (accepts.set command).mpr set

theorem serve_set {o : Ownership} (refines : WgState.Refines wg o) (all : HashMap.IterOrder wg.pubkeyMap order)
    (numbered : calls.Numbered rawOsError) {stream : Bytes} {command : WgSetCommand}
    (accepts : Accepts t (received codec stream) (.ok (some (.set command))))
    (parsed : parseCommand t (received codec stream) = .ok (.ok (some (.set command)))) :
    ∃ served, serve t codec env clock order calls rawOsError (some wg) stream = .ok served ∧
      Answered t env clock order calls wg (received codec stream) served := by
  have set := (accepts.set command).mp rfl
  obtain ⟨_, _, _, isSet⟩ := set
  obtain ⟨result, next, processed, whole, fails⟩ := refines.processWgSet_spec env all calls isSet.valid
  obtain ⟨errno, isErrno, zero⟩ : ∃ errno, errnoOf rawOsError result = .ok errno ∧ (errno = 0 ↔ result = .ok ()) := by
    cases result with
    | ok => exact ⟨0, rfl, fun _ => rfl, fun _ => rfl⟩
    | error e =>
      obtain ⟨code, raw, nonzero⟩ := numbered e (fails e rfl)
      exact ⟨code, unwrap_eq_ok.mpr raw, fun zero => absurd zero nonzero, nofun⟩
  rw [serve_parsed t env clock (.ok (some (.set command))) parsed]
  refine ⟨⟨.ok (), writeError .new errno, some next⟩, ?_, ?_, ?_, ?_⟩
  · exact bind_eq_ok.mpr ⟨_, processed, bind_eq_ok.mpr ⟨errno, isErrno, rfl⟩⟩
  · intro get
    cases accepts.get.mpr get
  · intro other isOther
    cases (accepts.set other).mpr isOther
    exact ⟨errno, next, rfl, sent_writeError errno, zero.trans whole⟩
  · intro _ notSet
    exact absurd ((accepts.set command).mp rfl) (notSet command)

theorem serve_unanswered {stream : Bytes} {e : ParseError} (accepts : Accepts t (received codec stream) (.error e))
    (parsed : parseCommand t (received codec stream) = .ok (.error e)) :
    ¬∃ served, serve t codec env clock order calls rawOsError (some wg) stream = .ok served ∧
      Answered t env clock order calls wg (received codec stream) served := by
  rintro ⟨served, isServed, answered⟩
  rw [serve_parsed t env clock (.error e) parsed] at isServed
  obtain rfl := Except.ok.inj isServed
  have notGet : ¬Begins GetRequest (received codec stream) := by
    intro get
    cases accepts.get.mpr get
  have notSet : ∀ command, ¬Begins (SetRequest t · command) (received codec stream) := by
    intro command set
    cases (accepts.set command).mpr set
  obtain ⟨errno, _, sent⟩ := answered.other notGet notSet
  exact errnoResponse_ne_nil errno sent.symm

/-- A stream is answered exactly if it begins with a request, except that the time of a handshake
before the epoch cannot be shown. -/
theorem serve_answers_iff {o : Ownership} (refines : WgState.Refines wg o)
    (all : HashMap.IterOrder wg.pubkeyMap order) (numbered : calls.Numbered rawOsError)
    (yields : YieldsItems codec) {stream : Bytes} (complete : 10 ∈ stream) :
    (∃ served, serve t codec env clock order calls rawOsError (some wg) stream = .ok served ∧
      Answered t env clock order calls wg (received codec stream) served) ↔
      (Begins GetRequest (received codec stream) ∧
        ∀ p ∈ (wg.getState env.now clock order).peers, ∀ time, p.lastHandshakeTime = some time → 0 ≤ time) ∨
      ∃ command, Begins (SetRequest t · command) (received codec stream) := by
  obtain ⟨result, parsed, accepts⟩ := parseCommand_accepts t (received codec stream)
  rcases result with e | _ | _ | command
  · apply iff_of_false (serve_unanswered t env clock accepts parsed)
    rintro (⟨get, _⟩ | ⟨command, set⟩)
    · cases accepts.get.mpr get
    · cases (accepts.set command).mpr set
  · exact absurd (accepts.none.mp rfl) (received_some yields complete)
  · have notSet : ¬∃ command, Begins (SetRequest t · command) (received codec stream) := by
      rintro ⟨command, set⟩
      cases (accepts.set command).mpr set
    rw [serve_get t env clock accepts parsed, or_iff_left notSet]
    exact (and_iff_right (accepts.get.mp rfl)).symm
  · exact iff_of_true (serve_set t env clock refines all numbered accepts parsed)
      (.inr ⟨command, (accepts.set command).mp rfl⟩)

end Answers

theorem decodeLines_some {limit : Nat} {stream : Bytes} (line : Line)
    (input : 10 ∈ stream ∨ limit < (line ++ stream).length) : decodeLines limit line stream ≠ [] := by
  induction stream generalizing line with
  | nil =>
    have long : limit < line.length := by simpa using input
    have some : line ≠ [] := by
      rintro rfl
      cases long
    rw [decodeLines, if_neg some, if_pos long]
    exact List.cons_ne_nil _ _
  | cons b stream ih =>
    rw [decodeLines]
    split_ifs with newline
    · exact List.cons_ne_nil _ _
    · exact List.cons_ne_nil _ _
    · apply ih
      rcases input with isIn | long
      · exact .inl ((List.mem_cons.mp isIn).resolve_left (Ne.symm newline))
      · exact .inr (by simpa using long)

theorem sampleCodec_yields : YieldsItems sampleCodec := fun _ _ input => decodeLines_some [] (by simpa using input)

def sampleServed : WgState X25519Key := .new ⟨zeros 32, 0, 0⟩ (zeros 32) 1280 0

theorem sampleServed_order : HashMap.IterOrder sampleServed.pubkeyMap [] := by
  refine ⟨List.nodup_nil, fun pk => ?_⟩
  have none : sampleServed.pubkeyMap.get pk = none := HashMap.get_empty pk
  simp [none]

def noErrors : SystemCalls := ⟨.ok 1, .ok ()⟩

theorem noErrors_numbered : noErrors.Numbered fun _ => none := by
  rintro e (prepared | marked)
  · cases prepared
  · cases marked

theorem serve_answers_iff_get :
    ∃ served, serve noAddresses sampleCodec sampleEnv 0 [] noErrors (fun _ => none) (some sampleServed)
        (lit "get=1" ++ [10, 10]) = .ok served ∧
      Answered noAddresses sampleEnv 0 [] noErrors sampleServed (received sampleCodec (lit "get=1" ++ [10, 10])) served := by
  apply (serve_answers_iff noAddresses sampleEnv 0 (WgState.new_refines ⟨zeros 32, 0, 0⟩ (zeros 32) 1280 0)
    sampleServed_order noErrors_numbered sampleCodec_yields (by decide)).mpr
  left
  have lines : received sampleCodec (lit "get=1" ++ [10, 10]) = Format.lines [lit "get=1", []] := by decide
  exact ⟨⟨[lit "get=1", []], [], lines, [], rfl⟩, nofun⟩

/-- A line that is no request is not answered. -/
theorem request_unanswered :
    ¬∀ (t : AddrText) (codec : Nat → Bytes → List Item) (env : Env) (clock : SystemTime)
      (order : List X25519Pubkey) (calls : SystemCalls) (rawOsError : String → Option Int) (wg : WgState X25519Key)
      (o : Ownership) (stream : Bytes), WgState.Refines wg o → HashMap.IterOrder wg.pubkeyMap order →
      calls.Numbered rawOsError → YieldsItems codec → 10 ∈ stream →
      ∃ served, serve t codec env clock order calls rawOsError (some wg) stream = .ok served ∧
        Answered t env clock order calls wg (received codec stream) served := by
  intro all
  have answered := all noAddresses sampleCodec sampleEnv 0 [] noErrors (fun _ => none) sampleServed _
    (lit "get=2" ++ [10]) (WgState.new_refines ⟨zeros 32, 0, 0⟩ (zeros 32) 1280 0) sampleServed_order
    noErrors_numbered sampleCodec_yields (by decide)
  obtain ⟨result, parsed, accepts⟩ := parseCommand_accepts noAddresses (received sampleCodec (lit "get=2" ++ [10]))
  have rejected : parseCommand noAddresses (received sampleCodec (lit "get=2" ++ [10])) =
      .ok (.error (.bail (lit "Unexpected command " ++ lit "get=2"))) := rfl
  obtain rfl := Except.ok.inj (rejected.symm.trans parsed)
  exact serve_unanswered noAddresses sampleEnv 0 accepts rejected answered

end Titun
