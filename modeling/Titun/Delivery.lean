import Titun.Ledger
import Titun.SessionEviction

/-! What passes through the peers of a running daemon: nothing is sealed, accepted, sent or written twice. -/
namespace Titun

open Transition

variable {HS : Type} (c : Crypto HS)

namespace Transport

/-- The counters that the session can still seal under. -/
def sendBook (t : Transport) : Tickets.Book SecretKey (BitVec 64) where
  key := t.sendKey
  free n := t.notTooOld = true ∧ t.sendCounter ≤ n ∧ n < REJECT_AFTER_MESSAGES

/-- The counters that the session would accept. -/
def recvBook (t : Transport) : Tickets.Book SecretKey (BitVec 64) where
  key := t.recvKey
  free n := t.recvAr.check n = true

theorem Lapses.sendBook {t u : Transport} (lapses : u.Lapses t) : u.sendBook.Within t.sendBook := by
  refine ⟨lapses.sendKey, ?_⟩
  rintro n ⟨young, sent, inside⟩
  obtain ⟨before, same⟩ := lapses.counts young
  exact ⟨before, same ▸ sent, inside⟩

theorem Lapses.recvBook {t u : Transport} (lapses : u.Lapses t) : u.recvBook.Within t.recvBook := by
  refine ⟨lapses.recvKey, ?_⟩
  intro n free
  change u.recvAr.check n = true at free
  rwa [lapses.recvAr] at free

theorem counted_sendBook {t : Transport} (inside : t.sendCounter < REJECT_AFTER_MESSAGES) :
    ({ t with sendCounter := t.sendCounter + 1 } : Transport).sendBook.Within t.sendBook ∧
      ¬ ({ t with sendCounter := t.sendCounter + 1 } : Transport).sendBook.free t.sendCounter := by
  have next : (t.sendCounter + 1).toNat = t.sendCounter.toNat + 1 := by
    have bound : REJECT_AFTER_MESSAGES.toNat = 18446744073709551599 := rfl
    rw [BitVec.lt_def, bound] at inside
    rw [BitVec.toNat_add]
    exact Nat.mod_eq_of_lt (Nat.lt_of_le_of_lt (Nat.succ_le_of_lt inside) (by decide))
  constructor
  · refine ⟨rfl, ?_⟩
    rintro n ⟨young, sent, inside⟩
    refine ⟨young, ?_, inside⟩
    have sent : (t.sendCounter + 1).toNat ≤ n.toNat := sent
    rw [BitVec.le_def]
    omega
  · rintro ⟨_, sent, _⟩
    have sent : (t.sendCounter + 1).toNat ≤ t.sendCounter.toNat := sent
    omega

theorem accept_recvBook {t : Transport} (fresh : t.recvAr.check n = true) :
    (t.accept n).recvBook.Within t.recvBook ∧ ¬ (t.accept n).recvBook.free n := by
  have updated : (t.recvAr.checkAndUpdate n).2 = t.recvAr.update n := by
    rw [AntiReplay.checkAndUpdate_eq, if_pos fresh]
  constructor
  · refine ⟨rfl, ?_⟩
    intro m free
    by_contra refused
    have still := AntiReplay.check_stays_refused (Bool.eq_false_iff.mpr refused) n
    rw [updated] at still
    exact Bool.noConfusion (still.symm.trans free)
  · intro free
    have refused := AntiReplay.check_self t.recvAr n
    rw [updated] at refused
    exact Bool.noConfusion (refused.symm.trans free)

end Transport

namespace Transfer

def sendKey? : Transfer → Option SecretKey
  | established sendKey _ => some sendKey
  | _ => none

def recvKey? : Transfer → Option SecretKey
  | established _ recvKey => some recvKey
  | _ => none

/-- What is done with the counters for sealing. -/
def sending : Transfer → Tickets.Act SecretKey (BitVec 64)
  | established sendKey _ => .issue sendKey
  | sealed m => .use m.key m.counter
  | _ => .other

/-- What is done with the counters of what is accepted. -/
def receiving : Transfer → Tickets.Act SecretKey (BitVec 64)
  | established _ recvKey => .issue recvKey
  | opened m => .use m.key m.counter
  | _ => .other

theorem sending_issued (x : Transfer) : x.sending.issued? = x.sendKey? := by cases x <;> rfl

theorem sending_used (x : Transfer) : x.sending.used? = x.sealed?.map fun m => (m.key, m.counter) := by
  cases x <;> rfl

theorem receiving_issued (x : Transfer) : x.receiving.issued? = x.recvKey? := by cases x <;> rfl

theorem receiving_used (x : Transfer) : x.receiving.used? = x.opened?.map fun m => (m.key, m.counter) := by
  cases x <;> rfl

end Transfer

section Books

variable {books next : PeerRef → List (Tickets.Book SecretKey (BitVec 64))} {ref : PeerRef} {ts later : List Transport}

theorem books_same {book : Transport → Tickets.Book SecretKey (BitVec 64)} (own : books ref = ts.map book)
    (becomes : next ref = later.map book) (others : ∀ j, j ≠ ref → next j = books j)
    (same : later.map book = ts.map book) : next = books := by
  funext j
  by_cases here : j = ref
  · subst here
    rw [becomes, own, same]
  · exact others j here

theorem less_books {book : Transport → Tickets.Book SecretKey (BitVec 64)}
    (lapse : ∀ t u : Transport, u.Lapses t → (book u).Within (book t))
    (less : List.SublistForall₂ Transport.Lapses later ts) :
    List.SublistForall₂ Tickets.Book.Within (later.map book) (ts.map book) := by
  rw [List.sublistForall₂_map_left_iff, List.sublistForall₂_map_right_iff]
  induction less with
  | nil => exact .nil
  | cons lapses _ ih => exact .cons (lapse _ _ lapses) ih
  | cons_right _ ih => exact .cons_right ih

theorem lose_books {book : Transport → Tickets.Book SecretKey (BitVec 64)}
    (lapse : ∀ t u : Transport, u.Lapses t → (book u).Within (book t))
    (less : List.SublistForall₂ Transport.Lapses later ts) (own : books ref = ts.map book)
    (becomes : next ref = later.map book) (others : ∀ j, j ≠ ref → next j = books j) : Tickets.Moves books [] next := by
  apply Tickets.Moves.lose
  intro j
  by_cases here : j = ref
  · subst here
    rw [own, becomes]
    exact less_books lapse less
  · rw [others j here]
    exact refl _

/-- What passes through a peer uses the counters of its sessions for sealing. -/
theorem Conducts.sending (conducts : Conducts ts transfers later) (own : books ref = ts.map Transport.sendBook)
    (becomes : next ref = later.map Transport.sendBook) (others : ∀ j, j ≠ ref → next j = books j) :
    Tickets.Moves books (transfers.map fun x => (ref, x.sending)) next := by
  induction conducts generalizing books next with
  | lapse less => exact lose_books (fun _ _ lapses => lapses.sendBook) less own becomes others
  | @establish t ts => exact .issue (by rw [becomes, own, List.map_cons] : _ = t.sendBook :: _) others
  | @sends t plain front back young inside =>
    obtain ⟨within, gone⟩ := Transport.counted_sendBook inside
    rw [List.map_append, List.map_cons] at own becomes
    exact .use (t := t.sendBook) ⟨young, BitVec.le_refl _, inside⟩ within gone own becomes others
  | @opens t n plain front back fresh =>
    apply Tickets.Moves.other
    apply books_same own becomes others
    rw [List.map_append, List.map_append, List.map_cons, List.map_cons]
    rfl
  | arrive | write => exact .other (books_same own becomes others rfl)
  | @append ts xs middle ys later _ _ first second =>
    rw [List.map_append]
    refine .append (first own (Function.update_self ref (middle.map Transport.sendBook) books) ?_)
      (second ?_ becomes ?_)
    · intro j apart
      exact Function.update_of_ne apart ..
    · exact Function.update_self ..
    · intro j apart
      rw [others j apart, Function.update_of_ne apart]

/-- What passes through a peer uses the counters that its sessions accept. -/
theorem Conducts.receiving (conducts : Conducts ts transfers later) (own : books ref = ts.map Transport.recvBook)
    (becomes : next ref = later.map Transport.recvBook) (others : ∀ j, j ≠ ref → next j = books j) :
    Tickets.Moves books (transfers.map fun x => (ref, x.receiving)) next := by
  induction conducts generalizing books next with
  | lapse less => exact lose_books (fun _ _ lapses => lapses.recvBook) less own becomes others
  | @establish t ts => exact .issue (by rw [becomes, own, List.map_cons] : _ = t.recvBook :: _) others
  | @sends t plain front back young inside =>
    apply Tickets.Moves.other
    apply books_same own becomes others
    rw [List.map_append, List.map_append, List.map_cons, List.map_cons]
    rfl
  | @opens t n plain front back fresh =>
    obtain ⟨within, gone⟩ := Transport.accept_recvBook fresh
    rw [List.map_append, List.map_cons] at own becomes
    exact .use (t := t.recvBook) fresh within gone own becomes others
  | arrive | write => exact .other (books_same own becomes others rfl)
  | @append ts xs middle ys later _ _ first second =>
    rw [List.map_append]
    refine .append (first own (Function.update_self ref (middle.map Transport.recvBook) books) ?_)
      (second ?_ becomes ?_)
    · intro j apart
      exact Function.update_of_ne apart ..
    · exact Function.update_self ..
    · intro j apart
      rw [others j apart, Function.update_of_ne apart]

end Books

/-- The packet at the beginning of a plaintext, as long as its header says. -/
def completePacket (plain : Bytes) : Option Bytes :=
  match parseIpPacket plain with
  | none => none
  | some (len, _, _) => if len ≤ plain.length then some (plain.take len) else none

namespace Program

/-- What passes through a peer in a step. -/
def passing (s : Program HS) (l : Label) (ref : PeerRef) : List Transfer :=
  match s.running l with
  | none => []
  | some sec => if sec.peer? = some ref then sec.transfers c l.env s.wg else []

/-- What passes in a step, and through which peer. -/
def transfers (s : Program HS) (l : Label) : List (PeerRef × Transfer) :=
  match (s.running l).bind Section.peer? with
  | none => []
  | some ref => (s.passing c l ref).map fun x => (ref, x)

variable {c} {s next : Program HS} {l : Label}

theorem transfers_eq (s : Program HS) (l : Label) :
    ∃ ref, s.transfers c l = (s.passing c l ref).map (fun x => (ref, x)) ∧
      ∀ other, other ≠ ref → s.passing c l other = [] := by
  unfold transfers passing
  cases s.running l with
  | none => exact ⟨0, rfl, fun _ _ => rfl⟩
  | some sec =>
    simp only [Option.bind_some]
    cases about : sec.peer? with
    | none => exact ⟨0, by simp, by simp⟩
    | some ref => exact ⟨ref, rfl, fun other apart => if_neg (by simpa using apart.symm)⟩

theorem Step.deals (step : Step c s l next) (ref : PeerRef) :
    (s.wg.peers ref).Deals (s.passing c l ref) (next.wg.peers ref) := by
  unfold passing
  cases step with
  | start idle enabled ok => exact Op.begin_deals ok ref
  | @proceed i sec rest more env wg head free ok =>
    have runs : s.running ⟨i, .proceed, env⟩ = some sec := by rw [running, head]; rfl
    have settles := Section.run_settles ok
    rw [runs]
    dsimp only
    split_ifs with about
    · exact settles.own ref about
    · exact settles.others ref about

theorem complete_of_packetToWrite {wg : WgState HS} {plain packet : Bytes}
    (writes : wg.packetToWrite peer plain = some packet) :
    completePacket plain = some packet := by
  unfold WgState.packetToWrite at writes
  unfold completePacket
  cases parsed : parseIpPacket plain with
  | none =>
    rw [parsed] at writes
    cases writes
  | some header =>
    obtain ⟨len, src, dst⟩ := header
    simp only [parsed] at writes ⊢
    split_ifs at writes with spoofed long
    rwa [if_pos long]

/-- What is written in a step is in a message that is accepted in it. -/
theorem passing_written (s : Program HS) (l : Label) (ref : PeerRef) :
    ((s.passing c l ref).filterMap Transfer.written?).Sublist
      (((s.passing c l ref).filterMap Transfer.opened?).filterMap fun m => completePacket m.plain) := by
  have nothing (xs : List Transfer) (quiet : ∀ x ∈ xs, x.written? = none) :
      (xs.filterMap Transfer.written?).Sublist
        ((xs.filterMap Transfer.opened?).filterMap fun m => completePacket m.plain) := by
    rw [List.filterMap_eq_nil_iff.mpr quiet]
    exact List.nil_sublist _
  unfold passing
  cases s.running l with
  | none => exact .refl _
  | some sec =>
    dsimp only
    split_ifs
    swap
    · exact .refl _
    cases sec with
    | decide p addr selfId peer =>
      rcases WgState.decideTransport_cases c s.wg l.env p addr selfId peer with
        ⟨t, h, plain, session, opens, _, decided⟩ | ⟨refused, decided⟩
      · simp only [Section.transfers, session, opens, decided]
        cases writes : s.wg.packetToWrite peer plain with
        | none => exact nothing _ (by simp [Transfer.written?])
        | some packet =>
          have complete := complete_of_packetToWrite writes
          change [packet].Sublist
            ([(⟨t.recvKey, Transport.counterOf p, plain⟩ : Message)].filterMap fun m => completePacket m.plain)
          simp [complete]
      · simp only [Section.transfers, decided]
        cases session : (s.wg.peers peer).findTransportById selfId with
        | none => exact .refl _
        | some t => simp [refused t session]
    | accept p addr r peer =>
      apply nothing
      intro x member
      simp only [Section.transfers] at member
      split at member
      · obtain ⟨t, _, rfl⟩ := List.mem_map.mp member
        rfl
      · cases member
    | finish p addr selfId peerId hs peer =>
      apply nothing
      simp only [Section.transfers]
      split <;> simp [Transfer.written?]
    | send packet peer =>
      apply nothing
      simp only [Section.transfers]
      split <;> simp [Transfer.written?]
    | keepalive peer =>
      apply nothing
      simp only [Section.transfers]
      split <;> simp [Transfer.written?]
    | _ => exact .refl _

/-- Whatever transport message a step sends is among the messages that are sealed in it. -/
theorem Step.outputs_transfers {out : Output} (step : Step c s l next) (member : out ∈ s.outputs c l)
    (transport : out.IsTransport) :
    ∃ ref m, (ref, .sealed m) ∈ s.transfers c l ∧ ∃ peerId addr, out = .sendTo (m.datagram c peerId) addr := by
  cases step with
  | start idle enabled ok => exact absurd transport (Op.outputs_not_transport member)
  | @proceed i sec rest more env wg head free ok =>
    have runs : s.running ⟨i, .proceed, env⟩ = some sec := by rw [running, head]; rfl
    simp only [outputs, runs, Option.map_some, Option.getD_some] at member
    obtain ⟨about, m, sealed, sent⟩ := Section.outputs_transfers ok member transport
    obtain ⟨ref, about⟩ := Option.isSome_iff_exists.mp about
    refine ⟨ref, m, ?_, sent⟩
    simp only [transfers, passing, runs, Option.bind_some, about, if_true]
    exact List.mem_map_of_mem sealed

/-- The books of all sessions. -/
def books (s : Program HS) (book : Transport → Tickets.Book SecretKey (BitVec 64)) (ref : PeerRef) :
    List (Tickets.Book SecretKey (BitVec 64)) := (s.wg.peers ref).transports.val.map book

theorem Step.moves (step : Step c s l next) (book : Transport → Tickets.Book SecretKey (BitVec 64))
    (act : Transfer → Tickets.Act SecretKey (BitVec 64))
    (lapse : ∀ t u : Transport, u.Lapses t → (book u).Within (book t))
    (conducted : ∀ {ts later : List Transport} {transfers : List Transfer}
      {before after : PeerRef → List (Tickets.Book SecretKey (BitVec 64))} {ref : PeerRef},
      Conducts ts transfers later → before ref = ts.map book → after ref = later.map book →
      (∀ j, j ≠ ref → after j = before j) → Tickets.Moves before (transfers.map fun x => (ref, act x)) after) :
    Tickets.Moves (s.books book) ((s.transfers c l).map fun o => (o.1, act o.2)) (next.books book) := by
  obtain ⟨ref, passes, others⟩ := transfers_eq (c := c) s l
  have own : Tickets.Moves (s.books book) _ (Function.update (s.books book) ref (next.books book ref)) :=
    conducted (step.deals ref).sessions rfl (Function.update_self ..) fun j apart => Function.update_of_ne apart ..
  have lost : Tickets.Moves (Function.update (s.books book) ref (next.books book ref)) [] (next.books book) := by
    apply Tickets.Moves.lose
    intro j
    by_cases here : j = ref
    · subst here
      rw [Function.update_self]
      exact refl _
    · rw [Function.update_of_ne here]
      have deals := step.deals j
      rw [others j here] at deals
      exact less_books lapse deals.sessions.lapses
  rw [passes, List.map_map, ← List.append_nil (List.map _ _)]
  exact .append own lost

end Program

/-- The program, and what has passed through its peers. -/
structure Ledger (HS : Type) where
  program : Program HS
  log : List (PeerRef × Transfer)

namespace Ledger

def start (info : WgInfo) (cookieSecret : U8Array 32) (mtu : BitVec 32) (now : Instant) : Ledger HS :=
  ⟨.start info cookieSecret mtu now, []⟩

/-- A step, and what passes in it. -/
structure Step (s : Ledger HS) (l : Program.Label) (next : Ledger HS) : Prop where
  step : Program.Step c s.program l next.program
  log : next.log = s.log ++ s.program.transfers c l

/-- What has passed through one peer. -/
def through {β : Type} (s : Ledger HS) (ref : PeerRef) (pick : Transfer → Option β) : List β :=
  s.log.filterMap fun o => if o.1 = ref then pick o.2 else none

def all {β : Type} (s : Ledger HS) (pick : Transfer → Option β) : List β := s.log.filterMap fun o => pick o.2

variable {c} {s next : Ledger HS} {l : Program.Label}

theorem Step.through {β : Type} (step : s.Step c l next) (ref : PeerRef) (pick : Transfer → Option β) :
    next.through ref pick = s.through ref pick ++ (s.program.passing c l ref).filterMap pick := by
  obtain ⟨own, passes, others⟩ := Program.transfers_eq (c := c) s.program l
  have more : (s.program.transfers c l).filterMap (fun o => if o.1 = ref then pick o.2 else none) =
      (s.program.passing c l ref).filterMap pick := by
    rw [passes, List.filterMap_map]
    by_cases here : own = ref
    · subst here
      simp
    · rw [others ref (Ne.symm here)]
      simp [here]
  rw [Ledger.through, step.log, List.filterMap_append, more, Ledger.through]

/-- In every run of the daemon what has passed is what was done with the books. -/
theorem run_moves {info : WgInfo} {secret : U8Array 32} {mtu : BitVec 32} {now : Instant} {labels : List Program.Label}
    (run : Run (Step c) (start info secret mtu now) labels s) :
    Tickets.Moves (fun _ => []) (s.log.map fun o => (o.1, o.2.sending)) (s.program.books Transport.sendBook) ∧
    Tickets.Moves (fun _ => []) (s.log.map fun o => (o.1, o.2.receiving)) (s.program.books Transport.recvBook) := by
  refine run.invariant (fun s =>
    Tickets.Moves (fun _ => []) (s.log.map fun o => (o.1, o.2.sending)) (s.program.books Transport.sendBook) ∧
    Tickets.Moves (fun _ => []) (s.log.map fun o => (o.1, o.2.receiving)) (s.program.books Transport.recvBook)) ?_ ?_
  · rintro s l next ⟨sends, accepts⟩ step
    rw [step.log, List.map_append, List.map_append]
    constructor
    · exact sends.append (step.step.moves Transport.sendBook Transfer.sending (fun _ _ lapses => lapses.sendBook)
        fun conducts own becomes others => conducts.sending own becomes others)
    · exact accepts.append (step.step.moves Transport.recvBook Transfer.receiving (fun _ _ lapses => lapses.recvBook)
        fun conducts own becomes others => conducts.receiving own becomes others)
  · constructor
    · exact .lose fun _ => refl _
    · exact .lose fun _ => refl _

section Once

variable {info : WgInfo} {secret : U8Array 32} {mtu : BitVec 32} {now : Instant} {labels : List Program.Label}

/-- Over every interleaving of operations, no two messages are sealed under one key and counter as long as no
handshake yields a key again, and every transport message that a step sends is a message that was sealed. -/
theorem sealed_once (run : Run (Step c) (start info secret mtu now) labels s)
    (fresh : (s.all Transfer.sendKey?).Nodup) :
    ((s.all Transfer.sealed?).map fun m => (m.key, m.counter)).Nodup ∧
    ∀ l next, Step c s l next → ∀ out ∈ s.program.outputs c l, out.IsTransport →
      ∃ m ∈ next.all Transfer.sealed?, ∃ peerId addr, out = .sendTo (m.datagram c peerId) addr := by
  constructor
  · have once := (run_moves run).1.once
    simp only [Tickets.issued, Tickets.used, List.filterMap_map, Function.comp_def, Transfer.sending_issued,
      Transfer.sending_used] at once
    rw [all, List.map_filterMap]
    exact once fresh
  · intro l next step out member transport
    obtain ⟨ref, m, sealed, sent⟩ := step.step.outputs_transfers member transport
    refine ⟨m, ?_, sent⟩
    rw [all, step.log]
    exact List.mem_filterMap.mpr ⟨(ref, .sealed m), List.mem_append_right _ sealed, rfl⟩

/-- Over every interleaving of operations, no two messages are accepted under one key and counter, as long as no
handshake yields a key again. -/
theorem accepted_once (run : Run (Step c) (start info secret mtu now) labels s)
    (fresh : (s.all Transfer.recvKey?).Nodup) :
    ((s.all Transfer.opened?).map fun m => (m.key, m.counter)).Nodup := by
  have once := (run_moves run).2.once
  simp only [Tickets.issued, Tickets.used, List.filterMap_map, Function.comp_def, Transfer.receiving_issued,
    Transfer.receiving_used] at once
  rw [all, List.map_filterMap]
  exact once fresh

/-- Over every interleaving of operations, the packets that were sealed for a peer and those that are queued for it
are packets that came for it from the TUN device, each at most as often as it came. -/
theorem packets_sent_once (run : Run (Step c) (start info secret mtu now) labels s) (ref : PeerRef) :
    List.Subperm (s.through ref Transfer.departed? ++ (s.program.wg.peers ref).queue)
      (s.through ref Transfer.arrived?) := by
  refine run.invariant (fun s => List.Subperm (s.through ref Transfer.departed? ++ (s.program.wg.peers ref).queue)
    (s.through ref Transfer.arrived?)) ?_ (.refl _)
  intro s l next conserved step
  have deals := (step.step.deals ref).queue
  rw [step.through, step.through]
  have before : (↑(s.through ref Transfer.departed?) + ↑(s.program.wg.peers ref).queue : Multiset Bytes) ≤
      ↑(s.through ref Transfer.arrived?) := by
    rwa [Multiset.coe_add, Multiset.coe_le]
  have now : (↑(next.program.wg.peers ref).queue + ↑((s.program.passing c l ref).filterMap Transfer.departed?) :
      Multiset Bytes) ≤ ↑(s.program.wg.peers ref).queue +
        ↑((s.program.passing c l ref).filterMap Transfer.arrived?) := by
    rwa [Multiset.coe_add, Multiset.coe_add, Multiset.coe_le]
  rw [← Multiset.coe_le, ← Multiset.coe_add, ← Multiset.coe_add, ← Multiset.coe_add]
  calc (↑(s.through ref Transfer.departed?) + ↑((s.program.passing c l ref).filterMap Transfer.departed?) +
          ↑(next.program.wg.peers ref).queue : Multiset Bytes)
      = ↑(s.through ref Transfer.departed?) + (↑(next.program.wg.peers ref).queue +
          ↑((s.program.passing c l ref).filterMap Transfer.departed?)) := by
        rw [add_assoc, add_comm (↑((s.program.passing c l ref).filterMap Transfer.departed?) : Multiset Bytes)]
    _ ≤ ↑(s.through ref Transfer.departed?) + (↑(s.program.wg.peers ref).queue +
          ↑((s.program.passing c l ref).filterMap Transfer.arrived?)) := add_le_add_right now _
    _ ≤ ↑(s.through ref Transfer.arrived?) + ↑((s.program.passing c l ref).filterMap Transfer.arrived?) := by
        rw [← add_assoc]
        exact add_le_add_left before _

theorem written_opened (run : Run (Step c) (start info secret mtu now) labels s) (ref : PeerRef) :
    (s.through ref Transfer.written?).Sublist
      ((s.through ref Transfer.opened?).filterMap fun m => completePacket m.plain) := by
  refine run.invariant (fun s => (s.through ref Transfer.written?).Sublist
    ((s.through ref Transfer.opened?).filterMap fun m => completePacket m.plain)) ?_ (.refl _)
  intro s l next before step
  rw [step.through, step.through, List.filterMap_append]
  exact before.append (Program.passing_written s.program l ref)

end Once

theorem through_sublist {β : Type} (s : Ledger HS) (ref : PeerRef) (pick : Transfer → Option β) :
    (s.through ref pick).Sublist (s.all pick) := by
  have one : s.through ref pick = (s.log.filter fun o => o.1 = ref).filterMap fun o => pick o.2 := by
    rw [through, List.filterMap_filter]
    simp
  rw [one, all]
  exact List.filter_sublist.filterMap _

theorem subperm_filterMap {α β : Type} (f : α → Option β) {xs ys : List α} (among : List.Subperm xs ys) :
    List.Subperm (xs.filterMap f) (ys.filterMap f) := by
  obtain ⟨zs, perm, sub⟩ := among
  exact ⟨zs.filterMap f, perm.filterMap f, sub.filterMap f⟩

theorem departed_eq (s : Ledger HS) (ref : PeerRef) :
    (s.through ref Transfer.departed?).filterMap completePacket =
      (s.through ref Transfer.sealed?).filterMap fun m => completePacket m.plain := by
  have one (x : Transfer) : x.departed?.bind completePacket = x.sealed?.bind fun m => completePacket m.plain := by
    cases x with
    | sealed m =>
      by_cases empty : m.plain = []
      · simp only [Transfer.departed?, empty, if_true, Transfer.sealed?, Option.bind_some, Option.bind_none]
        rfl
      · simp only [Transfer.departed?, empty, if_false, Transfer.sealed?, Option.bind_some]
    | _ => rfl
  rw [through, through, List.filterMap_filterMap, List.filterMap_filterMap]
  congr 1
  funext o
  split_ifs
  · exact one o.2
  · rfl

/-- Of two daemons, over every interleaving of the operations of each and whatever happens to the datagrams: as long
as no handshake yields a key again and what `b` accepts from `a` was sealed by `a` for `b`, the packets that `b` writes
are, cut to the lengths in their headers, packets that came for `b` from the TUN device of `a`, each at most as often
as it came. -/
theorem delivered_once {a b : Ledger HS} {infoA infoB : WgInfo} {secretA secretB : U8Array 32} {mtuA mtuB : BitVec 32}
    {nowA nowB : Instant} {labelsA labelsB : List Program.Label}
    (runA : Run (Step c) (start infoA secretA mtuA nowA) labelsA a)
    (runB : Run (Step c) (start infoB secretB mtuB nowB) labelsB b) (atA atB : PeerRef)
    (fresh : (b.all Transfer.recvKey?).Nodup)
    (authentic : ∀ m ∈ b.through atB Transfer.opened?, m ∈ a.through atA Transfer.sealed?) :
    List.Subperm (b.through atB Transfer.written?) ((a.through atA Transfer.arrived?).filterMap completePacket) := by
  have once : (b.all Transfer.opened?).Nodup := (accepted_once runB fresh).of_map _
  have genuine : List.Subperm (b.through atB Transfer.opened?) (a.through atA Transfer.sealed?) :=
    List.subperm_of_subset (once.sublist (b.through_sublist atB Transfer.opened?)) authentic
  have sent : List.Subperm (a.through atA Transfer.departed?) (a.through atA Transfer.arrived?) :=
    (List.sublist_append_left _ _).subperm.trans (packets_sent_once runA atA)
  have carried := subperm_filterMap (fun m : Message => completePacket m.plain) genuine
  rw [← departed_eq] at carried
  exact (written_opened runB atB).subperm.trans (carried.trans (subperm_filterMap completePacket sent))

section Samples

variable (c)

def follow (n : Nat) (s : Ledger HS) : List Program.Label → Option (Ledger HS)
  | [] => some s
  | l :: labels => (s.program.act c n l).bind fun next => follow n ⟨next, s.log ++ s.program.transfers c l⟩ labels

theorem run_of_follow {s last : Ledger HS} (within : s.program.Within n) (follows : s.follow c n labels = some last) :
    Run (Step c) s labels last := by
  induction labels generalizing s with
  | nil =>
    obtain rfl := Option.some.inj follows
    exact .nil
  | cons l labels ih =>
    obtain ⟨next, acts, rest⟩ := Option.bind_eq_some_iff.mp follows
    obtain ⟨step, _, stays⟩ := Program.step_of_act c within acts
    exact .cons ⟨step, rfl⟩ (ih stays rest)

def samplePacket : Bytes := [0x45, 0, 0, 20] ++ List.replicate 16 0

def sampleReceiving : List Program.Label :=
  Traffic.sampleQueueing.take 4 ++ Program.sampleAnswering 1 ++
    [Program.starts 0 (.datagram ([4, 0, 0, 0, 1, 0, 0, 0] ++ List.replicate 8 0 ++ samplePacket ++ List.replicate 16 0)
      ⟨0, 0, 0, 0⟩), Program.proceeds 0]

theorem sample_logs :
    (∃ s, Run (Step Crypto.symbolic) (start ⟨zeros 32, 0, 0⟩ (zeros 32) 1280 0) Traffic.sampleSession s ∧ s.log =
      [(0, .arrived samplePacket), (0, .established (zeros 32) (zeros 32)), (0, .sealed ⟨zeros 32, 0, samplePacket⟩)]) ∧
    ∃ s, Run (Step Crypto.symbolic) (start ⟨zeros 32, 0, 0⟩ (zeros 32) 1280 0) sampleReceiving s ∧ s.log =
      [(0, .established (zeros 32) (zeros 32)), (0, .opened ⟨zeros 32, 0, samplePacket⟩),
        (0, .written samplePacket)] := by
  have sends : ((start ⟨zeros 32, 0, 0⟩ (zeros 32) 1280 0).follow Crypto.symbolic 1 Traffic.sampleSession).map log =
      some [(0, .arrived samplePacket), (0, .established (zeros 32) (zeros 32)),
        (0, .sealed ⟨zeros 32, 0, samplePacket⟩)] := by decide +kernel
  have receives : ((start ⟨zeros 32, 0, 0⟩ (zeros 32) 1280 0).follow Crypto.symbolic 1 sampleReceiving).map log =
      some [(0, .established (zeros 32) (zeros 32)), (0, .opened ⟨zeros 32, 0, samplePacket⟩),
        (0, .written samplePacket)] := by decide +kernel
  obtain ⟨s, sent, logged⟩ := Option.map_eq_some_iff.mp sends
  obtain ⟨r, received, noted⟩ := Option.map_eq_some_iff.mp receives
  exact ⟨⟨s, run_of_follow Crypto.symbolic Program.start_within sent, logged⟩,
    ⟨r, run_of_follow Crypto.symbolic Program.start_within received, noted⟩⟩

theorem sealed_once_packet :
    ∃ s, Run (Step Crypto.symbolic) (start ⟨zeros 32, 0, 0⟩ (zeros 32) 1280 0) Traffic.sampleSession s ∧
      s.all Transfer.sealed? = [⟨zeros 32, 0, samplePacket⟩] ∧
      ((s.all Transfer.sealed?).map fun m => (m.key, m.counter)).Nodup := by
  obtain ⟨s, run, log⟩ := sample_logs.1
  have keys : s.all Transfer.sendKey? = [zeros 32] := by rw [all, log]; rfl
  refine ⟨s, run, by rw [all, log]; rfl, (sealed_once run ?_).1⟩
  rw [keys]
  exact List.nodup_singleton _

theorem accepted_once_opened :
    ∃ s, Run (Step Crypto.symbolic) (start ⟨zeros 32, 0, 0⟩ (zeros 32) 1280 0) sampleReceiving s ∧
      s.all Transfer.opened? = [⟨zeros 32, 0, samplePacket⟩] ∧
      ((s.all Transfer.opened?).map fun m => (m.key, m.counter)).Nodup := by
  obtain ⟨s, run, log⟩ := sample_logs.2
  have keys : s.all Transfer.recvKey? = [zeros 32] := by rw [all, log]; rfl
  refine ⟨s, run, by rw [all, log]; rfl, accepted_once run ?_⟩
  rw [keys]
  exact List.nodup_singleton _

theorem packets_sent_once_sealed :
    ∃ s, Run (Step Crypto.symbolic) (start ⟨zeros 32, 0, 0⟩ (zeros 32) 1280 0) Traffic.sampleSession s ∧
      s.through 0 Transfer.departed? = [samplePacket] ∧
      List.Subperm (s.through 0 Transfer.departed? ++ (s.program.wg.peers 0).queue)
        (s.through 0 Transfer.arrived?) := by
  obtain ⟨s, run, log⟩ := sample_logs.1
  exact ⟨s, run, by rw [through, log]; rfl, packets_sent_once run 0⟩

theorem delivered_once_received :
    ∃ a b, Run (Step Crypto.symbolic) (start ⟨zeros 32, 0, 0⟩ (zeros 32) 1280 0) Traffic.sampleSession a ∧
      Run (Step Crypto.symbolic) (start ⟨zeros 32, 0, 0⟩ (zeros 32) 1280 0) sampleReceiving b ∧
      b.through 0 Transfer.written? = [samplePacket] ∧
      List.Subperm (b.through 0 Transfer.written?) ((a.through 0 Transfer.arrived?).filterMap completePacket) := by
  obtain ⟨⟨a, runA, sent⟩, ⟨b, runB, received⟩⟩ := sample_logs
  have keys : b.all Transfer.recvKey? = [zeros 32] := by rw [all, received]; rfl
  have sealed : a.through 0 Transfer.sealed? = [⟨zeros 32, 0, samplePacket⟩] := by rw [through, sent]; rfl
  have opened : b.through 0 Transfer.opened? = [⟨zeros 32, 0, samplePacket⟩] := by rw [through, received]; rfl
  refine ⟨a, b, runA, runB, by rw [through, received]; rfl, delivered_once runA runB 0 0 ?_ ?_⟩
  · rw [keys]
    exact List.nodup_singleton _
  · rw [sealed, opened]
    exact fun _ => id

end Samples

end Ledger

end Titun
