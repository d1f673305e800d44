import Titun.CookieRoundTrip

/-! A cookie reply that is delivered again, and how old a cookie may get. -/
namespace Titun

open Transition

variable {HS : Type} (c : Crypto HS)

namespace Program

/-- The step hands a cookie reply to a peer. -/
def Delivers (s : Program HS) (l : Label) (ref : PeerRef) (p : Bytes) : Prop :=
  l.event = .proceed ∧ ∃ rest, s.tasks l.task = .cookie p ref :: rest

/-- The step takes a cookie out of a reply. -/
def Takes (s : Program HS) (l : Label) (ref : PeerRef) (p : Bytes) (cookie : Cookie) : Prop :=
  s.Delivers l ref p ∧ s.wg.LearnsCookie c p ref cookie

/-- In the steps so far, the last cookie that was taken from a peer came with this reply at this time. -/
def LastTakes (start : Program HS) (past : List Label) (ref : PeerRef) (p : Bytes) (cookie : Cookie) (time : Instant)
    (s : Program HS) : Prop :=
  ∃ before l after u v, past = before ++ l :: after ∧ Run (Step c) start before u ∧ Step c u l v ∧
    u.Takes c l ref p cookie ∧ l.env.now = time ∧
    Run (fun s l next => Step c s l next ∧ ∀ other, ¬ s.Learns c l ref other) v after s

/-- Every cookie that is stored was the last one to be taken. -/
structure Dated (start : Program HS) (past : List Label) (s : Program HS) : Prop where
  run : Run (Step c) start past s
  cookie : ∀ ref cookie time, (s.wg.peers ref).cookie = some (cookie, time) →
    ∃ p, LastTakes c start past ref p cookie time s

variable {c} {first s next : Program HS} {l : Label}

theorem Takes.learns (takes : s.Takes c l ref p cookie) : s.Learns c l ref cookie := by
  obtain ⟨⟨proceeds, rest, head⟩, opens⟩ := takes
  exact ⟨proceeds, p, rest, head, opens⟩

theorem Learns.takes (learns : s.Learns c l ref cookie) : ∃ p, s.Takes c l ref p cookie := by
  obtain ⟨proceeds, p, rest, head, opens⟩ := learns
  exact ⟨p, ⟨proceeds, rest, head⟩, opens⟩

theorem LastTakes.snoc (taken : LastTakes c first past ref p cookie time s) (step : Step c s l next)
    (deaf : ∀ other, ¬ s.Learns c l ref other) : LastTakes c first (past ++ [l]) ref p cookie time next := by
  obtain ⟨before, taking, after, u, v, rfl, run, here, takes, at_, later⟩ := taken
  refine ⟨before, taking, after ++ [l], u, v, by simp, run, here, takes, at_, ?_⟩
  exact later.append (.cons ⟨step, deaf⟩ .nil)

theorem Step.cookie (step : Step c s l next) (deaf : ∀ cookie, ¬ s.Learns c l ref cookie)
    (stored : (next.wg.peers ref).cookie = some entry) : (s.wg.peers ref).cookie = some entry := by
  have same (recalls : (s.wg.peers ref).Recalls (next.wg.peers ref)) : (s.wg.peers ref).cookie = some entry :=
    recalls.cookie ▸ stored
  have signed {wg : WgState HS} {peer : PeerRef} {mac1 : Option (U8Array 16)}
      (recalls : (s.wg.setPeerState peer { s.wg.peers peer with lastMac1 := mac1 }).Recalls wg)
      (stored : (wg.peers ref).cookie = some entry) : (s.wg.peers ref).cookie = some entry := by
    by_cases here : ref = peer
    · subst here
      exact recalls.here.cookie ▸ stored
    · exact (recalls.elsewhere here).cookie ▸ stored
  cases step with
  | @start i op env wg task idle enabled ok =>
    rcases Op.begin_recalls c ok with ⟨loop, outputs, rfl, resent⟩ | recalls
    · rcases WgState.resendIteration_recalls c resent with ⟨_, recalls⟩ | ⟨_, _, _, _, _, _, recalls⟩
      · exact same (recalls ref)
      · exact signed recalls stored
    · exact same (recalls ref)
  | @proceed i sec rest more env wg head free ok =>
    rcases Section.run_recalls c ok with
      ⟨p, addr, r, peer, outputs, rfl, accepted⟩ | ⟨p, peer, rfl, accepted⟩ | ⟨pk, rfl, rfl⟩ | recalls
    · rcases WgState.acceptInitiation_recalls c accepted with
        ⟨_, recalls⟩ | ⟨_, _, _, _, _, _, _, _, _, _, _, recalls⟩
      · exact same (recalls ref)
      · exact signed recalls stored
    · rcases WgState.acceptCookieReply_recalls c accepted with ⟨_, recalls⟩ | ⟨cookie, learns, recalls⟩
      · exact same (recalls ref)
      · by_cases here : ref = peer
        · subst here
          exact absurd ⟨rfl, p, rest, head, learns⟩ (deaf cookie)
        · exact same (recalls.elsewhere here)
    · unfold WgState.addPeer at stored
      split_ifs at stored
      · exact stored
      · by_cases here : ref = s.wg.nextPeer
        · subst here
          simp [PeerState.new] at stored
        · simpa [here] using stored
    · exact same (recalls ref)

theorem Dated.step (dated : Dated c first past s) (step : Step c s l next) : Dated c first (past ++ [l]) next where
  run := dated.run.append (.cons step .nil)
  cookie ref cookie time stored := by
    by_cases learns : ∃ other, s.Learns c l ref other
    · obtain ⟨other, learns⟩ := learns
      obtain ⟨rfl, rfl⟩ := Prod.mk.inj (Option.some.inj ((step.learns learns).symm.trans stored))
      obtain ⟨p, takes⟩ := learns.takes
      exact ⟨p, past, l, [], s, next, rfl, dated.run, step, takes, rfl, .nil⟩
    · have deaf := not_exists.mp learns
      obtain ⟨p, taken⟩ := dated.cookie ref cookie time (step.cookie deaf stored)
      exact ⟨p, taken.snoc step deaf⟩

theorem start_dated (info : WgInfo) (secret : U8Array 32) (mtu : BitVec 32) (now : Instant) :
    Dated c (start info secret mtu now) [] (start info secret mtu now) where
  run := .nil
  cookie ref cookie time stored := by
    simp [start, WgState.new, PeerState.new] at stored

theorem Sends.cookie (sends : s.Sends c l ref m) :
    ∃ publicKey, Signed c publicKey ((s.wg.peers ref).getCookie l.env.now) l.env.id m := by
  cases sends with
  | initiation starts same resent sent =>
    subst same
    rcases WgState.resendIteration_recalls c resent with ⟨rfl, _⟩ | ⟨_, _, _, signed, _, rfl, _⟩
    · cases sent
    · cases List.mem_singleton.mp sent
      exact ⟨_, signed⟩
  | response proceeds waits accepted sent =>
    rcases WgState.acceptInitiation_recalls c accepted with ⟨rfl, _⟩ | ⟨_, _, _, _, rs, _, _, _, signed, _, rfl, _⟩
    · cases sent
    · cases List.mem_singleton.mp sent
      exact ⟨rs, signed⟩

/-- Only cookie replies are handed to a peer as such. -/
def CookieReplies (s : Program HS) : Prop := ∀ i p ref, .cookie p ref ∈ s.tasks i → IsCookieReply p

theorem CookieReplies.step (replies : s.CookieReplies) (step : Step c s l next) : next.CookieReplies := by
  intro j p ref member
  cases step with
  | start idle enabled ok =>
    rcases mem_update member with ⟨_, new⟩ | ⟨_, old⟩
    · cases Op.begin_opens c ok _ new with
      | cookie reply _ => exact reply
    · exact replies j p ref old
  | proceed head free ok =>
    rcases mem_update member with ⟨_, new⟩ | ⟨_, old⟩
    · rcases List.mem_append.mp new with leads | old
      · cases Section.run_leads c ok _ leads
      · exact replies _ p ref (head ▸ List.mem_cons_of_mem _ old)
    · exact replies j p ref old

theorem Takes.remembers (takes : s.Takes c l ref p cookie) (faithful : s.Faithful c) (step : Step c s l next) :
    ∃ mac1, processCookieReply c (s.wg.peers ref).info.publicKey mac1 p = .ok (some cookie) ∧
      next.Sent c ref (s.wg.peers ref).info.publicKey mac1 := by
  obtain ⟨⟨proceeds, rest, head⟩, mac1, remembered, opens⟩ := takes
  have known : ref < s.wg.nextPeer :=
    (faithful.sound.tasks l.task (.cookie p ref) (head ▸ List.mem_cons_self)).1 ref rfl
  have before : s.Sent c ref (s.wg.peers ref).info.publicKey mac1 := ⟨faithful, known, rfl, remembered⟩
  refine ⟨mac1, opens, before.silent ⟨step, ?_⟩⟩
  intro m sends
  cases sends with
  | initiation starts => cases proceeds.symm.trans starts
  | response _ waits => cases head.symm.trans waits

theorem Sent.run (sent : s.Sent c ref pk mac1) (silent : Run (Silent c ref) s labels next) :
    next.Sent c ref pk mac1 :=
  silent.invariant (Sent c ref pk mac1) (fun _ _ _ sent step => sent.silent step) sent

theorem Sent.learns (sent : s.Sent c ref pk mac1)
    (opens : processCookieReply c pk mac1 p = .ok (some cookie)) : s.wg.LearnsCookie c p ref cookie := by
  refine ⟨mac1, sent.lastMac1, ?_⟩
  rw [sent.publicKey]
  exact opens

end Program

theorem PeerState.getCookie_young {p : PeerState HS} (got : p.getCookie now = some given) :
    ∃ received, p.cookie = some (given, received) ∧ now < received + secs 120 := by
  unfold getCookie at got
  split at got
  · cases got
  · rename_i stored
    split_ifs at got with old
    obtain rfl := Option.some.inj got
    exact ⟨_, stored, lt_add_of_tsub_lt_left (not_le.mp old)⟩

open Program in
/-- A cookie reply that is delivered again is taken again, and its cookie is as good as new; so is one that
comes in again while its receiver id leads to the peer. What a message is signed with was taken less than
120 seconds before, for the last time. -/
theorem cookie_reply_renews {info : WgInfo} {secret : U8Array 32} {mtu : BitVec 32} {now : Instant}
    {s next : Program HS} {l : Label} {ref : PeerRef} (run : Run (Step c) (start info secret mtu now) past s)
    (step : Step c s l next) :
    (∀ {p cookie labels again later last}, s.Takes c l ref p cookie → Run (Silent c ref) next labels later →
      later.Delivers again ref p → Step c later again last →
      (last.wg.peers ref).cookie = some (cookie, again.env.now)) ∧
    (∀ {p cookie labels later index opened last}, s.Takes c l ref p cookie → Run (Silent c ref) next labels later →
      sliceArray p 4 4 = .ok index → later.wg.idMap.get index = some ref → TakesIn c ref p opened later last →
      (last.wg.peers ref).cookie = some (cookie, opened.now)) ∧
    ∀ {m}, s.Sends c l ref m → ∃ publicKey cookie?, Signed c publicKey cookie? l.env.id m ∧
      ∀ cookie ∈ cookie?, ∃ p time, LastTakes c (start info secret mtu now) past ref p cookie time s ∧
        l.env.now < time + secs 120 := by
  have faithful : s.Faithful c :=
    run.invariant (Faithful c) (fun _ _ _ faithful step => faithful.step step) (start_faithful c info secret mtu now)
  have dated : Dated c (start info secret mtu now) past s :=
    run.history (Dated c (start info secret mtu now)) (fun _ _ _ _ dated step => dated.step step)
      (start_dated info secret mtu now)
  have replies : s.CookieReplies :=
    run.invariant CookieReplies (fun _ _ _ replies step => replies.step step) (by simp [CookieReplies, start])
  refine ⟨?_, ?_, ?_⟩
  · intro p cookie labels again later last takes silent delivers redelivered
    obtain ⟨mac1, opens, sent⟩ := takes.remembers faithful step
    have still := sent.run silent
    obtain ⟨proceeds, rest, head⟩ := delivers
    apply redelivered.learns
    exact ⟨proceeds, p, rest, head, still.learns opens⟩
  · intro p cookie labels later index opened last takes silent indexed found takesIn
    obtain ⟨mac1, opens, sent⟩ := takes.remembers faithful step
    obtain ⟨⟨_, rest, head⟩, _⟩ := takes
    have reply : IsCookieReply p := replies l.task p ref (head ▸ List.mem_cons_self)
    obtain ⟨waiting, i, again, head, still⟩ := takesIn.opens (sent.run silent) reply indexed found
    apply again.learns
    exact ⟨rfl, p, [], head, still.learns opens⟩
  · intro m sends
    obtain ⟨publicKey, signed⟩ := sends.cookie
    refine ⟨publicKey, _, signed, ?_⟩
    intro given got
    obtain ⟨time, stored, young⟩ := PeerState.getCookie_young got
    obtain ⟨p, taken⟩ := dated.cookie ref given time stored
    exact ⟨p, time, taken, young⟩

section Samples

open Program

def Program.Label.atSecond (l : Label) (n : Nat) : Label := { l with env := { l.env with now := secs n } }

def sampleReplied : Option (List Label × Bytes) :=
  let labels := sampleSetup ++ (sampleInitiating.take 4).map (·.atSecond 5)
  (sampleSender.follow Crypto.tallying 1 labels).bind fun s =>
  (onlySent (s.wg.resendIteration Crypto.tallying (sampleResend.atSecond 5).env ⟨0, 0⟩)).bind fun first =>
  (sampleReply ⟨1, 0, 0, 0⟩ first.1).map fun reply =>
  (labels ++ [sampleResend.atSecond 5, (starts 0 (.datagram reply WgState.sampleAddr)).atSecond 6], reply)

def sampleCookie : Cookie :=
  calcCookie Crypto.tallying sampleLoaded.cookieSecret.val (SocketAddrV6.mk 1 0 0 0).octets

def takesSample (s : Program SymbolicHs) (reply : Bytes) : Bool :=
  decide (s.tasks 0 = [.cookie reply 0]) &&
    ((s.wg.peers 0).lastMac1.map fun mac1 =>
      processCookieReply Crypto.tallying (s.wg.peers 0).info.publicKey mac1 reply) = some (.ok (some sampleCookie))

theorem takes_of_takesSample {s : Program SymbolicHs} (takes : takesSample s reply = true) :
    s.Takes Crypto.tallying ((proceeds 0).atSecond n) 0 reply sampleCookie := by
  simp only [takesSample, Bool.and_eq_true, decide_eq_true_eq] at takes
  obtain ⟨head, opened⟩ := takes
  obtain ⟨mac1, remembered, opens⟩ := Option.map_eq_some_iff.mp opened
  exact ⟨⟨rfl, [], head⟩, mac1, remembered, opens⟩

/-- The same reply is taken in 94 seconds later, and the next message is made another 100 seconds later. -/
theorem sample_replay : ∃ (past : List Label) (reply m : Bytes) (s next later last after : Program SymbolicHs),
    Run (Step Crypto.tallying) sampleSender past s ∧
    s.Takes Crypto.tallying ((proceeds 0).atSecond 6) 0 reply sampleCookie ∧
    Step Crypto.tallying s ((proceeds 0).atSecond 6) next ∧
    Silent Crypto.tallying 0 next ((starts 0 (.datagram reply WgState.sampleAddr)).atSecond 100) later ∧
    later.Takes Crypto.tallying ((proceeds 0).atSecond 100) 0 reply sampleCookie ∧
    Step Crypto.tallying later ((proceeds 0).atSecond 100) last ∧
    (last.wg.peers 0).cookie ≠ (later.wg.peers 0).cookie ∧
    Step Crypto.tallying last (sampleResend.atSecond 200) after ∧
    last.Sends Crypto.tallying (sampleResend.atSecond 200) 0 m ∧
    (last.wg.peers 0).getCookie (secs 200) = some sampleCookie ∧
    (past ++ [(proceeds 0).atSecond 6, (starts 0 (.datagram reply WgState.sampleAddr)).atSecond 100,
      (proceeds 0).atSecond 100, sampleResend.atSecond 200]).Pairwise fun a b => a.env.now ≤ b.env.now := by
  have followed : (sampleReplied.bind fun replied => (sampleSender.follow Crypto.tallying 1 replied.1).bind fun s =>
      (s.act Crypto.tallying 1 ((proceeds 0).atSecond 6)).bind fun next =>
      (next.act Crypto.tallying 1 ((starts 0 (.datagram replied.2 WgState.sampleAddr)).atSecond 100)).bind fun later =>
      (later.act Crypto.tallying 1 ((proceeds 0).atSecond 100)).bind fun last =>
      (last.act Crypto.tallying 1 (sampleResend.atSecond 200)).bind fun _ =>
      (onlySent (last.wg.resendIteration Crypto.tallying (sampleResend.atSecond 200).env ⟨0, 0⟩)).map fun _ =>
      (takesSample s replied.2, answersNothing next, takesSample later replied.2,
        decide ((last.wg.peers 0).cookie ≠ (later.wg.peers 0).cookie),
        decide ((last.wg.peers 0).getCookie (secs 200) = some sampleCookie),
        decide ((replied.1 ++ [(proceeds 0).atSecond 6,
          (starts 0 (.datagram replied.2 WgState.sampleAddr)).atSecond 100,
          (proceeds 0).atSecond 100, sampleResend.atSecond 200]).Pairwise fun a b => a.env.now ≤ b.env.now))) =
      some (true, true, true, true, true, true) := by
    decide +kernel
  obtain ⟨⟨past, reply⟩, _, followed⟩ := Option.bind_eq_some_iff.mp followed
  obtain ⟨s, follows, followed⟩ := Option.bind_eq_some_iff.mp followed
  obtain ⟨next, takes, followed⟩ := Option.bind_eq_some_iff.mp followed
  obtain ⟨later, receives, followed⟩ := Option.bind_eq_some_iff.mp followed
  obtain ⟨last, retakes, followed⟩ := Option.bind_eq_some_iff.mp followed
  obtain ⟨after, acts, followed⟩ := Option.bind_eq_some_iff.mp followed
  obtain ⟨⟨m, target⟩, resends, seen⟩ := Option.map_eq_some_iff.mp followed
  simp only [Prod.mk.injEq, decide_eq_true_eq] at seen
  obtain ⟨first, nothing, again, changed, signs, inOrder⟩ := seen
  obtain ⟨run, within⟩ := run_of_follow Crypto.tallying start_within follows
  obtain ⟨step, _, within⟩ := step_of_act Crypto.tallying within takes
  obtain ⟨received, _, within⟩ := step_of_act Crypto.tallying within receives
  obtain ⟨restep, _, within⟩ := step_of_act Crypto.tallying within retakes
  obtain ⟨resend, _⟩ := step_of_act Crypto.tallying within acts
  obtain ⟨wg, resent⟩ := onlySent_eq resends
  exact ⟨past, reply, m, s, next, later, last, after, run.mono fun _ _ _ step => step.1, takes_of_takesSample first,
    step, silent_of_answersNothing 0 received nothing nofun, takes_of_takesSample again, restep, changed, resend,
    .initiation rfl rfl resent List.mem_cons_self, signs, inOrder⟩

theorem cookie_reply_renews_sample : ∃ last : Program SymbolicHs,
    (last.wg.peers 0).cookie = some (sampleCookie, secs 100) := by
  obtain ⟨past, reply, m, s, next, later, last, after, run, takes, step, silent, again, restep, _⟩ := sample_replay
  exact ⟨last, (cookie_reply_renews Crypto.tallying run step).1 takes (.cons silent .nil) again.1 restep⟩

/-- The age of the cookie changes, and it signs a message that is made more than 120 seconds after the reply was
received. -/
theorem cookie_reply_taken_twice :
    ∃ (past labels : List Label) (s next later last : Program SymbolicHs) (first again : Label) (p m : Bytes)
      (cookie : Cookie) (publicKey : X25519Pubkey),
      Run (Step Crypto.tallying) sampleSender past s ∧ s.Takes Crypto.tallying first 0 p cookie ∧
      Step Crypto.tallying s first next ∧ Run (Silent Crypto.tallying 0) next labels later ∧ later.Delivers again 0 p ∧
      Step Crypto.tallying later again last ∧ (last.wg.peers 0).cookie ≠ (later.wg.peers 0).cookie ∧
      ∃ (l : Label) (after : Program SymbolicHs), Step Crypto.tallying last l after ∧
        last.Sends Crypto.tallying l 0 m ∧ Signed Crypto.tallying publicKey (some cookie) l.env.id m ∧
        first.env.now + secs 120 < l.env.now ∧
        (past ++ first :: labels ++ [again, l]).Pairwise fun a b => a.env.now ≤ b.env.now := by
  obtain ⟨past, reply, m, s, next, later, last, after, run, takes, step, silent, again, restep, changed, resend, sends,
    signs, inOrder⟩ := sample_replay
  obtain ⟨publicKey, signed⟩ := sends.cookie
  refine ⟨past, _, s, next, later, last, _, _, reply, m, sampleCookie, publicKey, run, takes, step, .cons silent .nil,
    again.1, restep, changed, _, after, resend, sends, ?_, by decide, ?_⟩
  · rw [← signs]
    exact signed
  · simpa using inOrder

end Samples

end Titun
