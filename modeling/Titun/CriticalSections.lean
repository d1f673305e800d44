import Titun.Daemon

/-! The tasks of the daemon, interleaved: each holds a lock for one critical section and gives it
up before the next. -/
namespace Titun

/-- A critical section that a task comes to, with what the task has found out before. -/
inductive Section (HS : Type) where
  /-- `udp_process_handshake_init` with an opened initiation and its peer. -/
  | accept (p : Bytes) (addr : SocketAddrV6) (r : InitProcessResult HS) (peer : PeerRef)
  /-- `udp_process_handshake_resp` under the read lock of the peer. -/
  | verify (p : Bytes) (addr : SocketAddrV6) (selfId : WgId) (peer : PeerRef)
  | insertId (selfId : WgId) (peer : PeerRef)
  /-- `udp_process_handshake_resp` under the write lock of the peer. -/
  | finish (p : Bytes) (addr : SocketAddrV6) (selfId peerId : WgId) (hs : HS) (peer : PeerRef)
  | cookie (p : Bytes) (peer : PeerRef)
  /-- `udp_process_transport` under the read lock of the peer. -/
  | decide (p : Bytes) (addr : SocketAddrV6) (selfId : WgId) (peer : PeerRef)
  | setEndpoint (addr : SocketAddrV6) (peer : PeerRef)
  | doHandshake (peer : PeerRef)
  /-- `tun_packet_processing` with a padded packet. -/
  | send (packet : Bytes) (peer : PeerRef)
  | keepalive (peer : PeerRef)
  /-- The end of `persistent_keepalive`. -/
  | rearm (peer : PeerRef)
  /-- The two assignments of `stop_handshake`, each under a lock of its own. -/
  | dropScope (peer : PeerRef)
  | dropHandshake (peer : PeerRef)
  | clear (peer : PeerRef)
  | addPeer (publicKey : X25519Pubkey)
  /-- `set_peer` with its peer. -/
  | configure (command : SetPeerCommand) (peer : PeerRef)
  /-- `remove_peer` takes the peer out of the map. -/
  | unlist (publicKey : X25519Pubkey)
  | detach (peer : PeerRef)
  /-- The end of `set_key`. -/
  | storeKey (key : X25519Key)
  deriving DecidableEq

namespace Section

variable {HS : Type} (c : Crypto HS)

/-- What the section does to the state, and the sections that it leads to. -/
def run (env : Env) (wg : WgState HS) : Section HS → Exec (WgState HS × List (Section HS))
  | accept p addr r peer => do
    let (wg, _) ← wg.acceptInitiation c env p addr r peer
    return (wg, [])
  | verify p addr selfId peer => do
    let (verified, wg) ← wg.verifyResponse c p selfId peer
    match verified with
    | none => return (wg, [])
    | some (peerId, hs) => return (wg, [insertId selfId peer, finish p addr selfId peerId hs peer])
  | insertId selfId peer => return (wg.insertId selfId peer, [])
  | finish _ addr _ peerId hs peer => do
    let (wg, _) ← wg.finishSession c env addr peerId hs peer
    return (wg, [])
  | cookie p peer => do
    let wg ← wg.acceptCookieReply c env p peer
    return (wg, [])
  | decide p addr selfId peer =>
    let (decision, wg) := wg.decideTransport c env p addr selfId peer
    return (wg, (if decision.setEndpoint then [setEndpoint addr peer] else []) ++
      if decision.handshake then [doHandshake peer] else [])
  | setEndpoint addr peer => do
    let p ← (wg.peers peer).setEndpoint addr
    return (wg.setPeerState peer p, [])
  | doHandshake peer => return (wg.doHandshake env peer, [])
  | send packet peer =>
    let ((handshake, _), wg) := wg.sendOrEnqueue c env peer packet
    return (wg, if handshake then [doHandshake peer] else [])
  | keepalive peer =>
    let ((handshake, _), wg) := wg.doKeepalive1 c env peer
    return (wg, if handshake then [doHandshake peer] else [])
  | rearm peer =>
    let p := wg.peers peer
    return (wg.setPeerState peer { p with persistentKeepalive := p.rearmPersistentKeepalive env.now }, [])
  | dropScope peer =>
    return (wg.setPeerState peer { wg.peers peer with handshakeResendScope := none }, [])
  | dropHandshake peer =>
    let p := wg.peers peer
    return ((wg.setPeerState peer { p with handshake := none }).dropGuards env p.handshakeIds, [])
  | clear peer => return (wg.clearPeer env peer, [])
  | addPeer publicKey => return ((wg.addPeer env publicKey).2, [])
  | configure command peer => do
    let wg ← wg.configure env peer command
    return (wg, [])
  | unlist publicKey =>
    match wg.pubkeyMap.get publicKey with
    | none => return (wg, [])
    | some peer => return ({ wg with pubkeyMap := wg.pubkeyMap.remove publicKey }, [detach peer])
  | detach peer => do
    let wg ← wg.detach env peer
    return (wg, [])
  | storeKey key => return ({ wg with info := { wg.info with key } }, [])

def peer? : Section HS → Option PeerRef
  | accept _ _ _ peer | verify _ _ _ peer | insertId _ peer | finish _ _ _ _ _ peer | cookie _ peer
  | decide _ _ _ peer | setEndpoint _ peer | doHandshake peer | send _ peer | keepalive peer
  | rearm peer | dropScope peer | dropHandshake peer | clear peer | configure _ peer
  | detach peer => some peer
  | addPeer _ | unlist _ | storeKey _ => none

/-- The handlers of handshake messages hold a read lock of `info` until they end. -/
def ReadsInfo : Section HS → Prop
  | accept .. | verify .. | insertId .. | finish .. => True
  | _ => False

/-- `set_key` holds the write lock of `info` until it ends. -/
def WritesInfo : Section HS → Prop
  | storeKey _ => True
  | _ => False

end Section

section Start

variable {HS : Type} (c : Crypto HS)

open Section

/-- The head of the handler that a datagram is dispatched to, up to the lock of a peer. -/
def WgState.receive (wg : WgState HS) (env : Env) (datagram : Bytes) (addr : SocketAddrV6) :
    Exec (WgState HS × List (Section HS)) := do
  let p := datagram.take BUFSIZE
  if p.length < 12 then return (wg, [])
  let type := p.getD 0 0
  if type = 1 then
    let (checked, wg) ← wg.checkMessage c env p addr HANDSHAKE_INIT_LEN
    match checked with
    | .drop | .reply _ => return (wg, [])
    | .pass =>
      match ← processInitiation c wg.info p with
      | none => return (wg, [])
      | some r =>
        let rPubkey ← unwrap (c.getRs r.handshakeState)
        match wg.findPeerByPubkey rPubkey with
        | none => return (wg, [])
        | some peer => return (wg, [accept p addr r peer])
  else if type = 2 then
    let (checked, wg) ← wg.checkMessage c env p addr HANDSHAKE_RESP_LEN
    match checked with
    | .drop | .reply _ => return (wg, [])
    | .pass =>
      let selfId ← sliceArray p 8 4
      match wg.findPeerById selfId with
      | none => return (wg, [])
      | some peer => return (wg, [verify p addr selfId peer])
  else if type = 3 then
    let selfId ← sliceArray p 4 4
    match wg.findPeerById selfId with
    | none => return (wg, [])
    | some peer => return (wg, [cookie p peer])
  else if type = 4 then
    if p.length < 32 then return (wg, [])
    let selfId ← sliceArray p 4 4
    match wg.findPeerById selfId with
    | none => return (wg, [])
    | some peer => return (wg, [decide p addr selfId peer])
  else return (wg, [])

/-- The sections of the action of a timer. -/
def TimerKind.sections (peer : PeerRef) : TimerKind → List (Section HS)
  | .rekeyNoRecv => [doHandshake peer]
  | .keepalive => [Section.keepalive peer]
  | .persistentKeepalive => [Section.keepalive peer, rearm peer]
  | .stopHandshake => [dropScope peer, dropHandshake peer]
  | .clear => [Section.clear peer]

/-- What an operation does at once, and the sections that it then comes to. The contents of the
buffers of the tx task do not matter here, so a packet comes padded. -/
def Op.begin (env : Env) (wg : WgState HS) : Op → Exec (WgState HS × List (Section HS))
  | .config (.addPeer publicKey) => return (wg, [Section.addPeer publicKey])
  | .config (.setPeer command) =>
    match wg.findPeerByPubkey command.publicKey with
    | none => return (wg, [])
    | some peer => return (wg, [Section.configure command peer])
  | .config (.removePeer publicKey) => return (wg, [unlist publicKey])
  | .config (.removeAllPeers order) => return (wg, (order wg.pubkeyMap).map unlist)
  | .setKey order key =>
    return (wg, ((order wg.pubkeyMap).filterMap wg.pubkeyMap.get).map Section.clear ++ [storeKey key])
  | .setPort newPort prepared => return ((wg.setPort newPort prepared).2, [])
  | .setFwmark newFwmark marked => return ((wg.setFwmark newFwmark marked).2, [])
  | .datagram bytes addr => wg.receive c env bytes addr
  | .packet padded =>
    match parseIpPacket padded with
    | none => return (wg, [])
    | some (_, _, dst) =>
      match wg.findPeerByIp dst with
      | none => return (wg, [])
      | some peer => return (wg, [send padded peer])
  | .timer peer kind =>
    let p := wg.peers peer
    let (fires, handle) := (p.timer kind).poll env.now
    return (wg.setPeerState peer (p.setTimer handle kind), if fires then kind.sections peer else [])
  | .resend loop => do
    let (wg, _) ← wg.resendIteration c env loop
    return (wg, [])
  | .cancelLoop loop => return ({ wg with loops := wg.loops.erase loop }, [])
  | .session peer i task => return (wg.modifySession peer i task.run, [])
  | .removeDeferred id => return (wg.removeDeferred id, [])
  | .startRx => return ({ wg with socketChannel := some none }, [])
  | .takeSocket =>
    match wg.socketChannel with
    | some (some socket) => return ({ wg with socket, socketChannel := some none }, [])
    | _ => return (wg, [])
  | .updateCookieSecret cookieSecret => return ({ wg with cookieSecret }, [])
  | .updateMtu mtu => return ({ wg with mtu }, [])

end Start

/-- The shared state, and what each task has still to do. -/
structure Program (HS : Type) where
  wg : WgState HS
  tasks : Nat → List (Section HS)

namespace Program

variable {HS : Type}

def start (info : WgInfo) (cookieSecret : U8Array 32) (mtu : BitVec 32) (now : Instant) : Program HS :=
  ⟨.new info cookieSecret mtu now, fun _ => []⟩

/-- Something refers to a peer: a map, a table, or a task. -/
def Referenced (s : Program HS) (ref : PeerRef) : Prop :=
  Daemon.Alive s.wg ref ∨ ∃ i, ∃ sec ∈ s.tasks i, sec.peer? = some ref

/-- No task holds a lock of `info` that excludes reading it. -/
def InfoReadable (s : Program HS) : Prop := ∀ i, ∀ sec ∈ s.tasks i, ¬ sec.WritesInfo

def InfoWritable (s : Program HS) : Prop := ∀ i, ∀ sec ∈ s.tasks i, ¬ sec.WritesInfo ∧ ¬ sec.ReadsInfo

/-- `set_key` visits the peers in the map under its read lock. -/
def VisitsPubkeyMap (task : List (Section HS)) : Prop :=
  ∃ peer rest key, task = .clear peer :: rest ∧ .storeKey key ∈ rest

/-- An operation can start. -/
def Enabled (s : Program HS) (env : Env) : Op → Prop
  | .setKey order _ => HashMap.IterOrder s.wg.pubkeyMap (order s.wg.pubkeyMap) ∧ s.InfoWritable
  | .datagram bytes _ =>
    ((bytes.take BUFSIZE).getD 0 0 = 1 ∨ (bytes.take BUFSIZE).getD 0 0 = 2) → s.InfoReadable
  | .packet _ => True
  | .timer peer _ => s.Referenced peer
  | .resend loop => loop ∈ s.wg.loops ∧ s.Referenced loop.peer ∧ s.InfoReadable
  | .cancelLoop loop => loop ∈ s.wg.loops ∧
      (s.Referenced loop.peer → (s.wg.peers loop.peer).handshakeResendScope ≠ some loop.scope)
  | op => Daemon.Enabled s.wg env op

/-- A task gets the lock that its next section needs. -/
def Free (s : Program HS) : Section HS → Prop
  | .addPeer _ | .unlist _ => ∀ i, ¬ VisitsPubkeyMap (s.tasks i)
  | _ => True

inductive Event where
  /-- A task starts an operation. -/
  | start (op : Op)
  /-- A task runs its next section. -/
  | proceed

structure Label where
  task : Nat
  event : Event
  env : Env

variable (c : Crypto HS)

inductive Step (s : Program HS) : Label → Program HS → Prop where
  | start {i : Nat} {op : Op} {env : Env} {wg : WgState HS} {task : List (Section HS)} :
    s.tasks i = [] → Enabled s env op → op.begin c env s.wg = .ok (wg, task) →
      Step s ⟨i, .start op, env⟩ ⟨wg, Function.update s.tasks i task⟩
  | proceed {i : Nat} {sec : Section HS} {rest more : List (Section HS)} {env : Env} {wg : WgState HS} :
    s.tasks i = sec :: rest → Free s sec → sec.run c env s.wg = .ok (wg, more) →
      Step s ⟨i, .proceed, env⟩ ⟨wg, Function.update s.tasks i (more ++ rest)⟩

variable {c} in
theorem Step.idle {s next : Program HS} {l : Label} (step : Step c s l next) (apart : i ≠ l.task) :
    next.tasks i = s.tasks i := by
  cases step with
  | start idle enabled ok => exact Function.update_of_ne apart ..
  | proceed head free ok => exact Function.update_of_ne apart ..

theorem mem_update {tasks : Nat → List (Section HS)} {task : List (Section HS)} {sec : Section HS}
    (member : sec ∈ Function.update tasks i task j) : j = i ∧ sec ∈ task ∨ j ≠ i ∧ sec ∈ tasks j := by
  by_cases here : j = i
  · subst here
    rw [Function.update_self] at member
    exact .inl ⟨rfl, member⟩
  · rw [Function.update_of_ne here] at member
    exact .inr ⟨here, member⟩

end Program

end Titun
