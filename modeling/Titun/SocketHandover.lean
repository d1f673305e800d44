import Titun.IpcServer
import Titun.Lib.Transition

/-! How a new socket gets from `set_port` to the rx task, while requests change the port and
the mark one after the other. -/
namespace Titun

/-- The part of a configuration that is about the interface itself. -/
structure InterfaceConfig where
  privateKey : X25519Key
  listenPort : Option (BitVec 16)
  fwmark : Option (BitVec 32)

/-- What a request does to the socket. `set_port` first prepares a socket and then waits until
the channel has room for it. -/
inductive SocketAction where
  | setPort (newPort : BitVec 16)
  | handOver (socket : Socket)
  | setFwmark (newFwmark : BitVec 32)
  deriving DecidableEq

inductive Request where
  | set (command : WgSetCommand)
  | reload (interface : InterfaceConfig)

/-- `process_wg_set` sets the port and then the mark, `reload` the mark and then the port,
where they differ from the state it finds. -/
def Request.actions (info : WgInfo) : Request → List SocketAction
  | set command =>
    (command.listenPort.map .setPort).toList ++ (command.fwmark.map .setFwmark).toList
  | reload interface =>
    (if interface.fwmark.getD 0 ≠ info.fwmark then [.setFwmark (interface.fwmark.getD 0)] else []) ++
      (if info.port ≠ interface.listenPort.getD 0 then [.setPort (interface.listenPort.getD 0)] else [])

/-- The state, and what the request that holds `state_change_advisory` still has to do. -/
structure Handover (HS : Type) where
  wg : WgState HS
  todo : List SocketAction

namespace Handover

variable {HS : Type}

def start (info : WgInfo) (cookieSecret : U8Array 32) (mtu : BitVec 32) (now : Instant) : Handover HS :=
  ⟨.new info cookieSecret mtu now, []⟩

/-- The channel has no socket in it. -/
def ChannelEmpty (s : Handover HS) : Prop := ∀ socket, s.wg.socketChannel ≠ some (some socket)

instance (s : Handover HS) : Decidable s.ChannelEmpty :=
  match channel : s.wg.socketChannel with
  | some (some socket) => isFalse fun empty => empty socket channel
  | some none => isTrue (by simp [ChannelEmpty, channel])
  | none => isTrue (by simp [ChannelEmpty, channel])

inductive Event where
  /-- A request comes in. -/
  | request (r : Request)
  /-- The request takes its next action. A socket prepared for port zero gets the port `bound`. -/
  | act (bound : BitVec 16)
  /-- The rx task starts. -/
  | startRx
  /-- The rx task takes the socket out of its channel and installs it. -/
  | install
  /-- Something else happens. -/
  | other

/-- Where an operation leaves the socket and what was recorded about it alone. -/
structure SameSocket (wg next : WgState HS) : Prop where
  port : next.info.port = wg.info.port
  fwmark : next.info.fwmark = wg.info.fwmark
  socket : next.socket = wg.socket
  socketChannel : next.socketChannel = wg.socketChannel

/-- Sends a socket to the rx task, or installs it where there is none, and records its port: one step here,
though the rx task may already take the socket before its port is recorded. -/
def handOver (wg : WgState HS) (socket : Socket) : WgState HS :=
  let wg := match wg.socketChannel with
    | some _ => { wg with socketChannel := some (some socket) }
    | none => { wg with socket }
  { wg with info := { wg.info with port := socket.port } }

inductive Step : Handover HS → Event → Handover HS → Prop where
  | request (idle : s.todo = []) : Step s (.request r) { s with todo := r.actions s.wg.info }
  | samePort (next : s.todo = .setPort newPort :: rest) (same : newPort = s.wg.info.port) :
      Step s (.act bound) { s with todo := rest }
  | prepare (next : s.todo = .setPort newPort :: rest) (changed : newPort ≠ s.wg.info.port) :
      Step s (.act bound) { s with
        todo := .handOver ⟨if newPort = 0 then bound else newPort, s.wg.info.fwmark⟩ :: rest }
  | handOver (next : s.todo = .handOver socket :: rest) (room : s.ChannelEmpty) :
      Step s (.act bound) ⟨handOver s.wg socket, rest⟩
  | setFwmark (next : s.todo = .setFwmark newFwmark :: rest) :
      Step s (.act bound) ⟨(s.wg.setFwmark newFwmark (.ok ())).2, rest⟩
  | startRx (absent : s.wg.socketChannel = none) :
      Step s .startRx { s with wg := { s.wg with socketChannel := some none } }
  | install (sent : s.wg.socketChannel = some (some socket)) :
      Step s .install { s with wg := { s.wg with socket, socketChannel := some none } }
  | other {next : WgState HS} (same : SameSocket s.wg next) : Step s .other { s with wg := next }

/-- Preparing a socket and handing it over is what `set_port` does. -/
theorem setPort_eq (wg : WgState HS) (newPort bound : BitVec 16) (changed : newPort ≠ wg.info.port) :
    wg.setPort newPort (.ok bound) =
      (.ok (), handOver wg ⟨if newPort = 0 then bound else newPort, wg.info.fwmark⟩) := by
  cases channel : wg.socketChannel <;> simp [WgState.setPort, if_neg changed, handOver, channel]

/-- The socket has the port and the mark that were recorded. -/
def Agrees (socket : Socket) (info : WgInfo) : Prop := socket.port = info.port ∧ socket.fwmark = info.fwmark

instance (socket : Socket) (info : WgInfo) : Decidable (Agrees socket info) :=
  inferInstanceAs (Decidable (_ ∧ _))

/-- With nothing in the channel, the installed socket is as recorded. -/
def Consistent (s : Handover HS) : Prop := s.ChannelEmpty → Agrees s.wg.socket s.wg.info

/-- The mark changes while a socket is still on its way to the rx task. -/
def MarksEarly (s : Handover HS) (e : Event) : Prop :=
  (∃ bound, e = .act bound) ∧ ∃ newFwmark rest, s.todo = .setFwmark newFwmark :: rest ∧
    newFwmark ≠ s.wg.info.fwmark ∧ ¬ s.ChannelEmpty

/-- What every step keeps that marks no socket early. -/
structure Inv (s : Handover HS) : Prop where
  installed : s.Consistent
  sent : ∀ socket, s.wg.socketChannel = some (some socket) → Agrees socket s.wg.info
  prepared : ∀ socket rest, s.todo = .handOver socket :: rest → socket.fwmark = s.wg.info.fwmark
  later : ∀ action rest, s.todo = action :: rest → ∀ socket, .handOver socket ∉ rest

theorem Request.no_handOver (info : WgInfo) (r : Request) (socket : Socket) :
    .handOver socket ∉ r.actions info := by
  cases r with
  | set command =>
    simp only [Request.actions]
    cases command.listenPort <;> cases command.fwmark <;> simp
  | reload interface =>
    simp only [Request.actions]
    split_ifs <;> simp

theorem Inv.afterwards {s : Handover HS} {rest : List SocketAction} (inv : Inv s) (next : s.todo = action :: rest) :
    (∀ socket more, rest ≠ SocketAction.handOver socket :: more) ∧
      ∀ action' more, rest = action' :: more → ∀ socket, SocketAction.handOver socket ∉ more := by
  have none := inv.later action rest next
  refine ⟨fun socket more same => none socket ?_, fun action' more same socket member => none socket ?_⟩
  · rw [same]
    exact List.mem_cons_self
  · rw [same]
    exact List.mem_cons_of_mem _ member

theorem start_inv (info : WgInfo) (secret : U8Array 32) (mtu : BitVec 32) (now : Instant) :
    Inv (start info secret mtu now : Handover HS) where
  installed := fun _ => ⟨rfl, rfl⟩
  sent := fun _ sent => by cases sent
  prepared := fun _ _ next => by cases next
  later := fun _ _ next => by cases next

theorem Inv.handOver {s : Handover HS} (inv : Inv s) (next : s.todo = .handOver socket :: rest) :
    Inv ⟨Handover.handOver s.wg socket, rest⟩ := by
  have mark := inv.prepared socket rest next
  obtain ⟨unprepared, later⟩ := inv.afterwards next
  cases channel : s.wg.socketChannel with
  | none =>
    simp only [Handover.handOver, channel]
    exact ⟨fun _ => ⟨rfl, mark⟩, fun _ sent => (by cases sent),
      fun other more same => absurd same (unprepared other more), later⟩
  | some pending =>
    simp only [Handover.handOver, channel]
    refine ⟨fun empty => absurd rfl (empty socket), fun other sent => ?_,
      fun other more same => absurd same (unprepared other more), later⟩
    obtain rfl := Option.some.inj (Option.some.inj sent)
    exact ⟨rfl, mark⟩

theorem Inv.setFwmark {s : Handover HS} (inv : Inv s) (next : s.todo = .setFwmark newFwmark :: rest)
    (timely : newFwmark ≠ s.wg.info.fwmark → s.ChannelEmpty) :
    Inv ⟨(s.wg.setFwmark newFwmark (.ok ())).2, rest⟩ := by
  obtain ⟨unprepared, later⟩ := inv.afterwards next
  by_cases same : s.wg.info.fwmark = newFwmark
  · simp only [WgState.setFwmark, if_pos same]
    exact ⟨inv.installed, inv.sent, fun other more same => absurd same (unprepared other more), later⟩
  · have empty := timely (Ne.symm same)
    simp only [WgState.setFwmark, if_neg same]
    exact ⟨fun _ => ⟨(inv.installed empty).1, rfl⟩, fun socket sent => absurd sent (empty socket),
      fun other more same => absurd same (unprepared other more), later⟩

theorem Step.inv {s next : Handover HS} {e : Event} (step : Step s e next) (inv : Inv s)
    (timely : ¬ MarksEarly s e) : Inv next := by
  cases step with
  | @request _ r idle =>
    have none := Request.no_handOver s.wg.info r
    refine ⟨inv.installed, inv.sent, fun socket rest same => absurd ?_ (none socket),
      fun action rest same socket member => none socket ?_⟩
    · rw [show r.actions s.wg.info = _ from same]
      exact List.mem_cons_self
    · rw [show r.actions s.wg.info = _ from same]
      exact List.mem_cons_of_mem _ member
  | samePort next same =>
    obtain ⟨unprepared, later⟩ := inv.afterwards next
    exact ⟨inv.installed, inv.sent, fun other more same => absurd same (unprepared other more), later⟩
  | prepare next changed =>
    refine ⟨inv.installed, inv.sent, fun socket rest same => ?_, fun action rest same => ?_⟩
    · obtain ⟨same, _⟩ := List.cons.inj same
      rw [← SocketAction.handOver.inj same]
    · obtain ⟨_, rfl⟩ := List.cons.inj same
      exact inv.later _ _ next
  | handOver next room => exact inv.handOver next
  | setFwmark next =>
    refine inv.setFwmark next fun changed => ?_
    by_contra full
    exact timely ⟨⟨_, rfl⟩, _, _, next, changed, full⟩
  | startRx absent =>
    refine ⟨fun _ => inv.installed ?_, fun _ sent => (by cases sent), inv.prepared, inv.later⟩
    intro socket sent
    rw [absent] at sent
    cases sent
  | install sent =>
    exact ⟨fun _ => inv.sent _ sent, fun _ sent => (by cases sent), inv.prepared, inv.later⟩
  | other same =>
    obtain ⟨port, fwmark, socket, channel⟩ := same
    refine ⟨fun empty => ?_, fun pending sent => ?_, fun pending rest next => ?_, inv.later⟩
    · obtain ⟨samePort, sameMark⟩ := inv.installed fun pending sent => empty pending (channel.trans sent)
      exact ⟨socket ▸ samePort.trans port.symm, socket ▸ sameMark.trans fwmark.symm⟩
    · obtain ⟨samePort, sameMark⟩ := inv.sent pending (channel.symm.trans sent)
      exact ⟨samePort.trans port.symm, sameMark.trans fwmark.symm⟩
    · exact (inv.prepared pending rest next).trans fwmark.symm

theorem Inv.lost {s next last : Handover HS} (inv : Inv s) (early : MarksEarly s e)
    (step : Step s e next) (installs : Step next .install last) : ¬ last.Consistent := by
  obtain ⟨⟨bound, rfl⟩, newFwmark, rest, todo, changed, full⟩ := early
  obtain ⟨socket, sent⟩ : ∃ socket, s.wg.socketChannel = some (some socket) := by
    by_contra none
    exact full fun socket sent => none ⟨socket, sent⟩
  have marked : next.wg.socketChannel = some (some socket) ∧ next.wg.info.fwmark = newFwmark := by
    cases step with
    | samePort head => cases head.symm.trans todo
    | prepare head => cases head.symm.trans todo
    | handOver head => cases head.symm.trans todo
    | setFwmark head =>
      cases head.symm.trans todo
      rw [WgState.setFwmark, if_neg (Ne.symm changed)]
      exact ⟨sent, rfl⟩
  cases installs with
  | install sentNow =>
    intro consistent
    obtain ⟨_, mark⟩ := consistent fun _ sent => by cases sent
    obtain rfl := Option.some.inj (Option.some.inj (marked.1.symm.trans sentNow))
    exact changed (marked.2.symm.trans (mark.symm.trans (inv.sent socket sent).2))

/-- In every run of requests and of the rx task in which no mark is set while a socket is on its
way, every state with an empty channel has the socket that was recorded. The first mark that is
set too early leaves a socket without it once the socket arrives. -/
theorem socket_as_recorded {info : WgInfo} {secret : U8Array 32} {mtu : BitVec 32} {now : Instant}
    {s : Handover HS}
    (run : Transition.Run (fun s e next => Step s e next ∧ ¬ MarksEarly s e)
      (start info secret mtu now) events s) :
    s.Consistent ∧ ∀ e next last, MarksEarly s e → Step s e next → Step next .install last →
      ¬ last.Consistent := by
  have inv : Inv s := run.invariant Inv (fun _ _ _ inv step => step.1.inv inv step.2)
    (start_inv info secret mtu now)
  exact ⟨inv.installed, fun _ _ _ early step installs => inv.lost early step installs⟩

def sampleSet : Request := .set ⟨none, some 7, some 2, false, []⟩

def sampleSent : WgState X25519Key :=
  handOver { (WgState.new ⟨zeros 32, 0, 1⟩ (zeros 32) 1280 0 : WgState X25519Key) with
    socketChannel := some none } ⟨2, 0⟩

theorem sampleSent_run : Transition.Run (fun s e next => Step s e next ∧ ¬ MarksEarly s e)
    (start ⟨zeros 32, 0, 1⟩ (zeros 32) 1280 0) [.startRx, .request sampleSet, .act 0, .act 0]
    ⟨sampleSent, [.setFwmark 7]⟩ := by
  refine .cons ⟨.startRx rfl, ?_⟩ (.cons ⟨.request rfl, ?_⟩ (.cons ⟨.prepare rfl (by decide), ?_⟩
    (.cons ⟨.handOver rfl (by decide), ?_⟩ .nil)))
  all_goals rintro ⟨⟨_, event⟩, _, _, todo, _⟩
  · cases event
  · cases event
  · cases todo
  · cases todo

theorem socket_as_recorded_installed :
    Consistent ⟨{ sampleSent with socket := ⟨2, 0⟩, socketChannel := some none }, [.setFwmark 7]⟩ := by
  have installed := sampleSent_run.append
    (.cons ⟨.install rfl, by rintro ⟨⟨_, event⟩, _⟩; cases event⟩ .nil)
  exact (socket_as_recorded installed).1

/-- The mark is set on the old socket, and the new one arrives without it. -/
theorem mark_lost : ∃ events last, Transition.Run Step
      (start ⟨zeros 32, 0, 1⟩ (zeros 32) 1280 0 : Handover X25519Key) events last ∧
    last.todo = [] ∧ last.ChannelEmpty ∧ last.wg.socket = ⟨2, 0⟩ ∧
    last.wg.info.port = 2 ∧ last.wg.info.fwmark = 7 := by
  have sent := sampleSent_run.mono fun _ _ _ step => step.1
  have marked : Step ⟨sampleSent, [.setFwmark 7]⟩ (.act 0) ⟨(sampleSent.setFwmark 7 (.ok ())).2, []⟩ :=
    .setFwmark rfl
  exact ⟨_, _, sent.append (.cons marked (.cons (.install rfl) .nil)), rfl, by decide, rfl, rfl, rfl⟩

end Handover

end Titun
