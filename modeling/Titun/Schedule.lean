import Titun.CriticalSections

/-! Schedules of a few tasks, followed by evaluation. -/
namespace Titun.Program

variable {HS : Type} (c : Crypto HS)

def lists (wg : WgState HS) (peer : PeerRef) : Bool :=
  decide (∃ pk ∈ wg.pubkeyMap.keys, wg.pubkeyMap.get pk = some peer) ||
    decide (∃ id ∈ wg.idMap.keys, wg.idMap.get id = some peer)

theorem referenced_of_lists {s : Program HS} (listed : lists s.wg peer = true) : s.Referenced peer := by
  rcases Bool.or_eq_true_iff.mp listed with keys | ids
  · obtain ⟨pk, _, found⟩ := of_decide_eq_true keys
    exact .inl (.inl ⟨pk, found⟩)
  · obtain ⟨id, _, found⟩ := of_decide_eq_true ids
    exact .inl (.inr (.inl ⟨id, found⟩))

/-- No task but the first `n` has anything to do. -/
def Within (n : Nat) (s : Program HS) : Prop := ∀ i, n ≤ i → s.tasks i = []

instance (sec : Section HS) : Decidable sec.ReadsInfo := by
  cases sec <;> first | exact isTrue trivial | exact isFalse id

instance (sec : Section HS) : Decidable sec.WritesInfo := by
  cases sec <;> first | exact isTrue trivial | exact isFalse id

def awaits (n : Nat) (s : Program HS) (p : Section HS → Bool) : Bool :=
  (List.range n).any fun i => (s.tasks i).any p

theorem not_of_awaits {s : Program HS} {p : Section HS → Bool} (within : s.Within n)
    (none : s.awaits n p = false) (member : sec ∈ s.tasks i) : p sec = false := by
  rcases Nat.lt_or_ge i n with inside | outside
  · have idle := List.any_eq_false.mp none i (List.mem_range.mpr inside)
    simpa using List.any_eq_false.mp (by simpa using idle) sec member
  · rw [within i outside] at member
    cases member

/-- The operation can surely start. -/
def permits (n : Nat) (s : Program HS) (env : Env) : Op → Bool
  | .config (.addPeer _) | .config (.removePeer _) | .packet _ => true
  | .config (.setPeer command) => decide (∀ ip ∈ command.allowedIps, ip.2 ≤ ip.1.width)
  | .setKey order _ => decide ((order s.wg.pubkeyMap).Nodup) &&
      decide ((order s.wg.pubkeyMap).toFinset = s.wg.pubkeyMap.keys) &&
      !s.awaits n fun sec => decide sec.WritesInfo || decide sec.ReadsInfo
  | .datagram _ _ => !s.awaits n fun sec => decide sec.WritesInfo
  | .timer peer _ => lists s.wg peer
  | .resend loop => decide (loop ∈ s.wg.loops) && lists s.wg loop.peer &&
      !s.awaits n fun sec => decide sec.WritesInfo
  | .session peer i task =>
      (s.wg.peers peer).transports.val[i]?.any fun t => decide (t.created + task.delay t ≤ env.now)
  | .removeDeferred id => decide (id ∈ s.wg.deferred)
  | _ => false

theorem readable_of_awaits {s : Program HS} (within : s.Within n)
    (none : (!s.awaits n fun sec => decide sec.WritesInfo) = true) : s.InfoReadable := by
  intro i sec member
  have idle := not_of_awaits within (by simpa using none) member
  exact of_decide_eq_false idle

theorem enabled_of_permits {s : Program HS} (within : s.Within n) {op : Op}
    (permitted : s.permits n env op = true) : s.Enabled env op := by
  cases op with
  | config op =>
    cases op with
    | addPeer pk | removePeer pk => trivial
    | setPeer command => exact (of_decide_eq_true permitted : ∀ ip ∈ command.allowedIps, ip.2 ≤ ip.1.width)
    | removeAllPeers order => cases permitted
  | setKey order key =>
    simp only [permits, Bool.and_eq_true] at permitted
    obtain ⟨⟨distinct, keys⟩, none⟩ := permitted
    refine ⟨⟨of_decide_eq_true distinct, fun pk => ?_⟩, fun i sec member => ?_⟩
    · rw [← List.mem_toFinset, of_decide_eq_true keys, Finmap.mem_keys]
      exact Finmap.lookup_isSome.symm
    · have idle := not_of_awaits within (by simpa using none) member
      simpa using idle
  | packet bytes => trivial
  | datagram bytes addr => exact fun _ => readable_of_awaits within permitted
  | timer peer kind => exact referenced_of_lists permitted
  | resend loop =>
    simp only [permits, Bool.and_eq_true] at permitted
    obtain ⟨⟨running, listed⟩, none⟩ := permitted
    exact ⟨of_decide_eq_true running, referenced_of_lists listed, readable_of_awaits within none⟩
  | session peer i task =>
    obtain ⟨t, found, due⟩ := Option.any_eq_true _ _ |>.mp permitted
    exact ⟨t, found, of_decide_eq_true due⟩
  | removeDeferred id => exact (of_decide_eq_true permitted : id ∈ s.wg.deferred)
  | _ => cases permitted

def frees (n : Nat) (s : Program HS) : Bool := !s.awaits n fun sec => decide sec.WritesInfo

theorem free_of_frees {s : Program HS} (within : s.Within n) (freed : s.frees n = true)
    (sec : Section HS) : s.Free sec := by
  have visits (i : Nat) : ¬ VisitsPubkeyMap (s.tasks i) := by
    rintro ⟨peer, rest, key, task, stores⟩
    exact readable_of_awaits within freed i (.storeKey key) (task ▸ List.mem_cons_of_mem _ stores) trivial
  cases sec with
  | addPeer pk | unlist pk => exact visits
  | _ => trivial

/-- One step of the schedule, where it is surely possible. -/
def act (n : Nat) (s : Program HS) (l : Label) : Option (Program HS) :=
  if l.task < n then
    match l.event, s.tasks l.task with
    | .start op, [] =>
      if s.permits n l.env op then
        match op.begin c l.env s.wg with
        | .ok (wg, task) => some ⟨wg, Function.update s.tasks l.task task⟩
        | .error _ => none
      else none
    | .proceed, sec :: rest =>
      if s.frees n || sec.peer?.isSome || decide sec.WritesInfo then
        match sec.run c l.env s.wg with
        | .ok (wg, more) => some ⟨wg, Function.update s.tasks l.task (more ++ rest)⟩
        | .error _ => none
      else none
    | _, _ => none
  else none

/-- Follows a schedule as long as the steps pass a check. -/
def followWith (check : Program HS → Label → Bool) (n : Nat) (s : Program HS) :
    List Label → Option (Program HS)
  | [] => some s
  | l :: labels =>
    if check s l then (s.act c n l).bind fun next => next.followWith check n labels else none

def follow (n : Nat) (s : Program HS) (labels : List Label) : Option (Program HS) :=
  s.followWith c (fun _ _ => true) n labels

theorem Within.update {s : Program HS} (within : s.Within n) (inside : i < n) (wg : WgState HS)
    (task : List (Section HS)) : Within n ⟨wg, Function.update s.tasks i task⟩ := by
  intro j outside
  have apart : j ≠ i := by omega
  exact (Function.update_of_ne apart ..).trans (within j outside)

theorem step_of_act {s next : Program HS} (within : s.Within n) (acts : s.act c n l = some next) :
    Step c s l next ∧ l.task < n ∧ next.Within n := by
  obtain ⟨i, event, env⟩ := l
  simp only [act] at acts
  split_ifs at acts with inside
  cases event with
  | start op =>
    cases idle : s.tasks i with
    | cons sec rest => simp [idle] at acts
    | nil =>
      simp only [idle] at acts
      split_ifs at acts with permitted
      cases ok : op.begin c env s.wg with
      | error e => simp [ok] at acts
      | ok result =>
        simp only [ok] at acts
        obtain rfl := Option.some.inj acts
        exact ⟨.start idle (enabled_of_permits within permitted) ok, inside, within.update inside _ _⟩
  | proceed =>
    cases head : s.tasks i with
    | nil => simp [head] at acts
    | cons sec rest =>
      simp only [head] at acts
      split_ifs at acts with free
      cases ok : sec.run c env s.wg with
      | error e => simp [ok] at acts
      | ok result =>
        simp only [ok] at acts
        obtain rfl := Option.some.inj acts
        refine ⟨.proceed head ?_ ok, inside, within.update inside _ _⟩
        cases sec with
        | addPeer pk | unlist pk =>
          refine free_of_frees within ?_ _
          rcases Bool.or_eq_true_iff.mp free with freed | writes
          · simpa [Section.peer?] using freed
          · cases writes
        | _ => trivial

/-- What a schedule leads to is reached by a run of its tasks. -/
theorem run_of_followWith {check : Program HS → Label → Bool} {s last : Program HS} (within : s.Within n)
    (follows : s.followWith c check n labels = some last) :
    Transition.Run (fun s l next => Step c s l next ∧ (s.Within n ∧ l.task < n) ∧ check s l = true)
      s labels last ∧ last.Within n := by
  induction labels generalizing s with
  | nil =>
    obtain rfl := Option.some.inj follows
    exact ⟨.nil, within⟩
  | cons l labels ih =>
    simp only [followWith] at follows
    split_ifs at follows with checked
    obtain ⟨next, acts, rest⟩ := Option.bind_eq_some_iff.mp follows
    obtain ⟨step, inside, stays⟩ := step_of_act c within acts
    exact (ih stays rest).imp_left (.cons ⟨step, ⟨within, inside⟩, checked⟩)

theorem run_of_follow {s last : Program HS} (within : s.Within n) (follows : s.follow c n labels = some last) :
    Transition.Run (fun s l next => Step c s l next ∧ s.Within n ∧ l.task < n) s labels last ∧
      last.Within n :=
  (run_of_followWith c within follows).imp_left (.mono fun _ _ _ step => ⟨step.1, step.2.1⟩)

theorem start_within {info : WgInfo} {secret : U8Array 32} {mtu : BitVec 32} {now : Instant} :
    Within n (start info secret mtu now : Program HS) := fun _ _ => rfl

section Samples

instance : DecidableEq (List (Section X25519Key)) := inferInstance

def sampleProgram : Program X25519Key := start ⟨zeros 32, 0, 0⟩ (zeros 32) 1280 0

def starts (i : Nat) (op : Op) : Label := ⟨i, .start op, sampleEnv⟩

def proceeds (i : Nat) : Label := ⟨i, .proceed, sampleEnv⟩

def sampleConfiguration : SetPeerCommand :=
  ⟨zeros 32, none, some (.v6 ⟨1, 2, 0, 0⟩), some 1, false, ∅⟩

def sampleSetup : List Label :=
  [starts 0 (.config (.addPeer (zeros 32))), proceeds 0,
    starts 0 (.config (.setPeer sampleConfiguration)), proceeds 0]

/-- A timer starts a resend loop, which sends an initiation. -/
def sampleInitiating : List Label :=
  [⟨0, .start (.timer 0 .persistentKeepalive), { sampleEnv with now := secs 5 }⟩, proceeds 0, proceeds 0,
    proceeds 0, starts 0 (.resend ⟨0, 0⟩)]

/-- A response to it comes in and is verified. -/
def sampleVerifying : List Label :=
  [starts 0 (.datagram ([2, 0, 0, 0] ++ List.replicate 88 0) ⟨0, 0, 0, 0⟩), proceeds 0]

end Samples

end Titun.Program
