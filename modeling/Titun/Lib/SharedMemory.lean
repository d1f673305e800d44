import Mathlib.Logic.Function.Basic
import Titun.Lib.Transition

/-! Threads that share a memory and access it one access at a time, and operations that take effect at once. -/
namespace SharedMemory

open Transition

/-- The ways to access a memory, and what each replies. -/
structure Interface where
  Access : Type
  Reply : Access → Type

/-- A program that ends, fails, or goes on after an access. -/
inductive Prog (I : Interface) (ε α : Type) where
  | done (a : α)
  | fail (e : ε)
  | access (a : I.Access) (next : I.Reply a → Prog I ε α)

variable {I J : Interface} {ε α β σ τ D T : Type}

namespace Prog

def bind : Prog I ε α → (α → Prog I ε β) → Prog I ε β
  | done a, f => f a
  | fail e, _ => fail e
  | access a next, f => access a fun reply => (next reply).bind f

/-- A program with every access replaced by a program. -/
def expand (code : (a : I.Access) → Prog J ε (I.Reply a)) : Prog I ε α → Prog J ε α
  | done a => done a
  | fail e => fail e
  | access a next => (code a).bind fun reply => (next reply).expand code

/-- A program runs to its end where nothing else accesses the memory. -/
def run (perform : (a : I.Access) → σ → Option (I.Reply a × σ)) : Prog I ε α → σ → Option (Except ε (α × σ))
  | done a, m => some (.ok (a, m))
  | fail e, _ => some (.error e)
  | access a next, m => (perform a m).bind fun o => (next o.1).run perform o.2

theorem run_access {perform : (a : I.Access) → σ → Option (I.Reply a × σ)} {a : I.Access} {reply : I.Reply a}
    {next : I.Reply a → Prog I ε α}
    (performed : perform a m = some (reply, n)) : (access a next).run perform m = (next reply).run perform n := by
  rw [run, performed]
  rfl

/-- A program never fails, and makes only some accesses. -/
def Within (allowed : I.Access → Prop) : Prog I ε α → Prop
  | done _ => True
  | fail _ => False
  | access a next => allowed a ∧ ∀ reply, (next reply).Within allowed

end Prog

/-- A memory, and what is left of the call that each thread is in. -/
structure Config (I : Interface) (ε β σ T : Type) where
  memory : σ
  threads : T → Option (Prog I ε β)

inductive Event (D β : Type) where
  | call (d : D)
  | access
  | ret (b : β)

/-- What is seen of a run from outside: the calls and what they return. -/
def visible (labels : List (T × Event D β)) : List (T × (D ⊕ β)) :=
  labels.filterMap fun
    | (t, .call d) => some (t, .inl d)
    | (t, .ret b) => some (t, .inr b)
    | (_, .access) => none

theorem visible_append (xs ys : List (T × Event D β)) : visible (xs ++ ys) = visible xs ++ visible ys :=
  List.filterMap_append

variable [DecidableEq T]

/-- What a thread has called, with what was returned, and its last call if nothing was returned yet. -/
def record (t : T) (seen : List (D × β) × Option D) : T × (D ⊕ β) → List (D × β) × Option D
  | (t', .inl d) => if t' = t then (seen.1, some d) else seen
  | (t', .inr b) => if t' = t then (seen.1 ++ (seen.2.map fun d => (d, b)).toList, none) else seen

def recorded (t : T) (seen : List (T × (D ⊕ β))) : List (D × β) × Option D := seen.foldl (record t) ([], none)

theorem recorded_concat (t : T) (seen : List (T × (D ⊕ β))) (e : T × (D ⊕ β)) :
    recorded t (seen ++ [e]) = record t (recorded t seen) e := by
  rw [recorded, List.foldl_append]
  rfl

/-- Threads call, access the memory and return in any order. -/
inductive Step (perform : (a : I.Access) → σ → Option (I.Reply a × σ)) (code : D → Prog I ε β) (may : T → D → Prop) :
    Config I ε β σ T → T × Event D β → Config I ε β σ T → Prop
  | call {c : Config I ε β σ T} {t : T} {d : D} : c.threads t = none → may t d →
      Step perform code may c (t, .call d) ⟨c.memory, Function.update c.threads t (some (code d))⟩
  | access {c : Config I ε β σ T} {t : T} {a : I.Access} {next : I.Reply a → Prog I ε β} {reply : I.Reply a} {m : σ} :
      c.threads t = some (.access a next) → perform a c.memory = some (reply, m) →
      Step perform code may c (t, .access) ⟨m, Function.update c.threads t (some (next reply))⟩
  | ret {c : Config I ε β σ T} {t : T} {b : β} : c.threads t = some (.done b) →
      Step perform code may c (t, .ret b) ⟨c.memory, Function.update c.threads t none⟩

section Alone

variable {perform : (a : I.Access) → σ → Option (I.Reply a × σ)} {code : D → Prog I ε β} {may : T → D → Prop}
variable {threads : T → Option (Prog I ε β)} {t : T} {m n : σ}

theorem run_bind {p : Prog I ε α} {k : α → Prog I ε β} {a : α} (ran : p.run perform m = some (.ok (a, n)))
    (busy : threads t = some (p.bind k)) : ∃ labels, visible labels = [] ∧
      Run (Step perform code may) ⟨m, threads⟩ labels ⟨n, Function.update threads t (some (k a))⟩ := by
  induction p generalizing m threads with
  | done b =>
    cases ran
    have same : Function.update threads t (some (k a)) = threads := by
      rw [Function.update_eq_self_iff]
      exact busy.symm
    rw [same]
    exact ⟨[], rfl, .nil⟩
  | fail e => cases ran
  | access x next ih =>
    obtain ⟨⟨reply, m'⟩, performed, ran⟩ := Option.bind_eq_some_iff.mp ran
    obtain ⟨labels, unseen, rest⟩ := ih reply ran (Function.update_self t (some ((next reply).bind k)) threads)
    rw [Function.update_idem] at rest
    exact ⟨(t, .access) :: labels, unseen, .cons (.access busy performed) rest⟩

theorem run_call {p : Prog I ε α} {k : α → Prog I ε β} {a : α} {d : D} {b : β} (free : threads t = none)
    (granted : may t d)
    (starts : code d = p.bind k) (ran : p.run perform m = some (.ok (a, n))) (ends : k a = .done b) :
    ∃ labels, visible labels = [(t, .inl d), (t, .inr b)] ∧
      Run (Step perform code may) ⟨m, threads⟩ labels ⟨n, threads⟩ := by
  have busy : Function.update threads t (some (code d)) t = some (p.bind k) := by rw [Function.update_self, starts]
  obtain ⟨labels, unseen, through⟩ : ∃ labels, visible labels = [] ∧ Run (Step perform code may)
    ⟨m, Function.update threads t (some (code d))⟩ labels ⟨n, _⟩ := run_bind ran busy
  rw [Function.update_idem, ends] at through
  have last : Step perform code may ⟨n, Function.update threads t (some (.done b))⟩ (t, .ret b) ⟨n, threads⟩ := by
    have returns : Step perform code may ⟨n, Function.update threads t (some (.done b))⟩ (t, .ret b) ⟨n, _⟩ :=
      .ret (Function.update_self ..)
    have idle : Function.update threads t none = threads := Function.update_eq_self_iff.mpr free.symm
    dsimp only at returns
    rwa [Function.update_idem, idle] at returns
  refine ⟨(t, .call d) :: (labels ++ [(t, .ret b)]), ?_, .cons (.call free granted) (through.append (.cons last .nil))⟩
  change (t, Sum.inl d) :: visible (labels ++ [(t, .ret b)]) = _
  rw [visible_append, unseen]
  rfl

end Alone

/-- Where a thread is in an operation. -/
inductive Phase (I J : Interface) (ε : Type) where
  | out
  /-- The operation has not taken effect. -/
  | before (a : I.Access) (rest : Prog J ε (I.Reply a))
  | after (a : I.Access) (reply : I.Reply a) (rest : Prog J ε (I.Reply a))

/-- Operations whose code takes effect at one of its accesses. -/
structure Simulation (fine : (a : J.Access) → τ → Option (J.Reply a × τ))
    (coarse : (a : I.Access) → σ → Option (I.Reply a × σ))
    (code : (a : I.Access) → Prog J ε (I.Reply a)) (allowed : T → I.Access → Prop) where
  Rel : τ → σ → (T → Phase I J ε) → Prop
  enter : Rel m n φ → φ t = .out → allowed t a → Rel m n (Function.update φ t (.before a (code a)))
  starts : Rel m n φ → φ t = .before a rest → ∃ x next, rest = .access x next
  before : Rel m n φ → φ t = .before a (.access x next) → fine x m = some (y, m') →
    Rel m' n (Function.update φ t (.before a (next y))) ∨
    ∃ reply n', coarse a n = some (reply, n') ∧ Rel m' n' (Function.update φ t (.after a reply (next y)))
  after : Rel m n φ → φ t = .after a reply (.access x next) → fine x m = some (y, m') →
    Rel m' n (Function.update φ t (.after a reply (next y)))
  leave : Rel m n φ → φ t = .after a reply (.done r) → r = reply ∧ Rel m n (Function.update φ t .out)
  safe : Rel m n φ → φ t ≠ .after a reply (.fail e)

/-- How far a thread is in a program and in the program with every operation replaced by its code. -/
inductive Tracks (impl : (a : I.Access) → Prog J ε (I.Reply a)) (allowed : I.Access → Prop) :
    Phase I J ε → Option (Prog J ε β) → Option (Prog I ε β) → Prop
  | idle : Tracks impl allowed .out none none
  | out : p.Within allowed → Tracks impl allowed .out (some (p.expand impl)) (some p)
  | before : (Prog.access a next).Within allowed →
      Tracks impl allowed (.before a rest) (some (rest.bind fun reply => (next reply).expand impl))
        (some (.access a next))
  | after {k : I.Reply a → Prog J ε β} : p.Within allowed → k reply = p.expand impl →
      Tracks impl allowed (.after a reply rest) (some (rest.bind k)) (some p)

namespace Simulation

variable {fine : (a : J.Access) → τ → Option (J.Reply a × τ)} {coarse : (a : I.Access) → σ → Option (I.Reply a × σ)}
variable {impl : (a : I.Access) → Prog J ε (I.Reply a)} {allowed : T → I.Access → Prop}

/-- Two configurations where threads are equally far. -/
structure Coupled (sim : Simulation fine coarse impl allowed) (f : Config J ε β τ T) (g : Config I ε β σ T)
    (φ : T → Phase I J ε) : Prop where
  rel : sim.Rel f.memory g.memory φ
  threads : ∀ t, Tracks impl (allowed t) (φ t) (f.threads t) (g.threads t)

variable {sim : Simulation fine coarse impl allowed} {f : Config J ε β τ T} {g : Config I ε β σ T} {φ : T → Phase I J ε}

theorem Coupled.update {phase : Phase I J ε} (coupled : sim.Coupled f g φ) (t : T)
    (rel : sim.Rel m n (Function.update φ t phase)) (tracks : Tracks impl (allowed t) phase p q) :
    sim.Coupled ⟨m, Function.update f.threads t p⟩ ⟨n, Function.update g.threads t q⟩ (Function.update φ t phase) := by
  constructor
  · exact rel
  · intro other
    by_cases same : other = t
    · subst same
      simpa using tracks
    · simpa [same] using coupled.threads other

theorem Coupled.rephase {phase : Phase I J ε} (coupled : sim.Coupled f g φ) (t : T)
    (rel : sim.Rel f.memory g.memory (Function.update φ t phase))
    (tracks : Tracks impl (allowed t) phase (f.threads t) (g.threads t)) :
    sim.Coupled f g (Function.update φ t phase) := by
  have updated := coupled.update t rel tracks
  rwa [Function.update_eq_self, Function.update_eq_self] at updated

/-- What a thread does next where it is not in an operation that has ended or that it is about to begin. -/
inductive Settled (impl : (a : I.Access) → Prog J ε (I.Reply a)) (allowed : I.Access → Prop) :
    Phase I J ε → Option (Prog J ε β) → Option (Prog I ε β) → Prop
  | idle : Settled impl allowed .out none none
  | done : Settled impl allowed .out (some (.done b)) (some (.done b))
  | before : (Prog.access a next).Within allowed → Settled impl allowed (.before a (.access x rest))
      (some (.access x fun y => (rest y).bind fun reply => (next reply).expand impl)) (some (.access a next))
  | after {k : I.Reply a → Prog J ε β} : p.Within allowed → k reply = p.expand impl →
      Settled impl allowed (.after a reply (.access x rest)) (some (.access x fun y => (rest y).bind k)) (some p)

theorem Coupled.settle_out (coupled : sim.Coupled f g φ) (t : T) (out : φ t = .out) :
    ∃ φ', sim.Coupled f g φ' ∧ Settled impl (allowed t) (φ' t) (f.threads t) (g.threads t) ∧
      ∀ other, other ≠ t → φ' other = φ other := by
  have tracks := coupled.threads t
  rw [out] at tracks
  generalize ft : f.threads t = p at tracks
  generalize gt : g.threads t = q at tracks
  cases tracks with
  | idle =>
    refine ⟨φ, coupled, ?_, fun _ _ => rfl⟩
    rw [out]
    exact .idle
  | @out p within =>
    cases p with
    | done b =>
      refine ⟨φ, coupled, ?_, fun _ _ => rfl⟩
      rw [out]
      exact .done
    | fail e => exact within.elim
    | access a next =>
      have entered := sim.enter coupled.rel out within.1
      obtain ⟨x, rest, starts⟩ := sim.starts entered (Function.update_self t _ φ)
      refine ⟨_, coupled.rephase t entered ?_, ?_, fun other apart => Function.update_of_ne apart ..⟩
      · rw [ft, gt]
        exact .before within
      · rw [Function.update_self, Prog.expand, starts]
        exact .before within

theorem Coupled.settle (coupled : sim.Coupled f g φ) (t : T) :
    ∃ φ', sim.Coupled f g φ' ∧ Settled impl (allowed t) (φ' t) (f.threads t) (g.threads t) ∧
      ∀ other, other ≠ t → φ' other = φ other := by
  have tracks := coupled.threads t
  generalize place : φ t = phase at tracks
  cases phase with
  | out => exact coupled.settle_out t place
  | before a rest =>
    obtain ⟨x, next, rfl⟩ := sim.starts coupled.rel place
    refine ⟨φ, coupled, ?_, fun _ _ => rfl⟩
    rw [place]
    generalize f.threads t = p at tracks
    generalize g.threads t = q at tracks
    cases tracks with
    | before within => exact .before within
  | after a reply rest =>
    cases rest with
    | done r =>
      obtain ⟨rfl, left⟩ := sim.leave coupled.rel place
      have outside : Tracks impl (allowed t) .out (f.threads t) (g.threads t) := by
        generalize f.threads t = p at tracks
        generalize g.threads t = q at tracks
        cases tracks with
        | after within continues =>
          rw [Prog.bind, continues]
          exact .out within
      obtain ⟨φ', coupled, settled, others⟩ := (coupled.rephase t left outside).settle_out t (Function.update_self ..)
      exact ⟨φ', coupled, settled, fun other apart => (others other apart).trans (Function.update_of_ne apart ..)⟩
    | fail e => exact absurd place (sim.safe coupled.rel)
    | access x next =>
      refine ⟨φ, coupled, ?_, fun _ _ => rfl⟩
      rw [place]
      generalize f.threads t = p at tracks
      generalize g.threads t = q at tracks
      cases tracks with
      | after within continues => exact .after within continues

/-- Whatever a thread does is done by the program of operations that take effect at once, if it is seen at all. -/
theorem Coupled.step {code : D → Prog I ε β} {may : T → D → Prop} (coupled : sim.Coupled f g φ)
    (only : ∀ t d, may t d → (code d).Within (allowed t))
    (step : Step fine (fun d => (code d).expand impl) may f l f') :
    ∃ labels g' φ', Run (Step coarse code may) g labels g' ∧ visible labels = visible [l] ∧ sim.Coupled f' g' φ' := by
  obtain ⟨t, e⟩ := l
  obtain ⟨φ, coupled, settled, _⟩ := coupled.settle t
  generalize place : φ t = phase at settled
  generalize gt : g.threads t = q at settled
  cases step with
  | call free granted =>
    rw [free] at settled
    cases settled
    refine ⟨[(t, .call _)], _, Function.update φ t .out, .cons (.call gt granted) .nil, rfl,
      coupled.update t ?_ (.out (only t _ granted))⟩
    rw [← place, Function.update_eq_self]
    exact coupled.rel
  | ret ended =>
    rw [ended] at settled
    cases settled
    refine ⟨[(t, .ret _)], _, Function.update φ t .out, .cons (.ret gt) .nil, rfl, coupled.update t ?_ .idle⟩
    rw [← place, Function.update_eq_self]
    exact coupled.rel
  | access busy accessed =>
    rw [busy] at settled
    cases settled with
    | @before a next _ rest within =>
      rcases sim.before coupled.rel place accessed with rel | ⟨r, n, performed, rel⟩
      · have same := coupled.update t rel (.before within)
        rw [← gt, Function.update_eq_self] at same
        exact ⟨[], g, _, .nil, rfl, same⟩
      · exact ⟨[(t, .access)], _, _, .cons (.access gt performed) .nil, rfl, coupled.update t rel
          (.after (within.2 r) rfl)⟩
    | after within continues =>
      have same := coupled.update t (sim.after coupled.rel place accessed) (.after within continues)
      rw [← gt, Function.update_eq_self] at same
      exact ⟨[], g, _, .nil, rfl, same⟩

theorem Coupled.run {code : D → Prog I ε β} {may : T → D → Prop} (coupled : sim.Coupled f g φ)
    (only : ∀ t d, may t d → (code d).Within (allowed t))
    (run : Run (Step fine (fun d => (code d).expand impl) may) f labels f') :
    ∃ labels' g' φ', Run (Step coarse code may) g labels' g' ∧ visible labels' = visible labels ∧
      sim.Coupled f' g' φ' := by
  induction run generalizing g φ with
  | nil => exact ⟨[], g, φ, .nil, rfl, coupled⟩
  | cons step _ ih =>
    obtain ⟨first, g₁, φ₁, ran, seen, coupled⟩ := coupled.step only step
    obtain ⟨rest, g₂, φ₂, later, shown, coupled⟩ := ih coupled
    refine ⟨first ++ rest, g₂, φ₂, ran.append later, ?_, coupled⟩
    rw [visible_append, seen, shown, ← visible_append, List.singleton_append]

/-- What threads do with operations that take several accesses could be done, for whoever sees their calls, with
operations that take effect at once. -/
theorem refines (sim : Simulation fine coarse impl allowed) {code : D → Prog I ε β} {may : T → D → Prop}
    (only : ∀ t d, may t d → (code d).Within (allowed t)) (start : sim.Rel m n fun _ => .out)
    (run : Run (Step fine (fun d => (code d).expand impl) may) ⟨m, fun _ => none⟩ labels f) :
    ∃ labels' g φ, Run (Step coarse code may) ⟨n, fun _ => none⟩ labels' g ∧ visible labels' = visible labels ∧
      sim.Coupled f g φ := by
  have coupled : sim.Coupled ⟨m, fun _ => (none : Option (Prog J ε β))⟩ ⟨n, fun _ => none⟩ fun _ => .out :=
    ⟨start, fun _ => .idle⟩
  exact coupled.run only run

theorem Coupled.idle (coupled : sim.Coupled f g φ) {t : T} (free : f.threads t = none) : g.threads t = none := by
  obtain ⟨φ, _, settled, _⟩ := coupled.settle t
  rw [free] at settled
  generalize φ t = phase at settled
  generalize g.threads t = q at settled
  cases settled
  rfl

theorem Coupled.not_fail (coupled : sim.Coupled f g φ) (t : T) (e : ε) : f.threads t ≠ some (.fail e) := by
  intro failed
  obtain ⟨φ, _, settled, _⟩ := coupled.settle t
  rw [failed] at settled
  generalize φ t = phase at settled
  cases settled

end Simulation

end SharedMemory
