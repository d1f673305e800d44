import Mathlib.Tactic

/-! What every part of the model shares: bytes, slices that may be out of range,
and the ways in which the program can panic. -/
namespace Titun

/-- A panic ends the process through the panic hook, so it is the only outcome
besides a returned value. -/
inductive Panic where
  | assertion
  | sliceOutOfRange
  | unwrapNone
  | deadlock
  deriving DecidableEq, Repr

abbrev Exec := Except Panic

abbrev Bytes := List UInt8

/-- `[u8; n]`. -/
abbrev U8Array (n : Nat) := { b : Bytes // b.length = n }

@[simp] theorem U8Array.length_val (a : U8Array n) : a.val.length = n := a.property

def assert (p : Bool) : Exec Unit := if p then .ok () else .error .assertion

def unwrap : Option α → Exec α
  | some a => .ok a
  | none => .error .unwrapNone

/-- `&p[start..stop]`, where a length check makes it in range. -/
def sub (p : Bytes) (start stop : Nat) : Bytes := (p.drop start).take (stop - start)

/-- `&p[start..start + n]` of a slice whose length nothing promises, as an array. -/
def sliceArray (p : Bytes) (start n : Nat) : Exec (U8Array n) :=
  if inside : start + n ≤ p.length then .ok ⟨sub p start (start + n), by simp [sub]; omega⟩
  else .error .sliceOutOfRange

theorem sliceArray_eq (p : Bytes) (start n : Nat) (inside : start + n ≤ p.length) :
    ∃ a : U8Array n, sliceArray p start n = .ok a ∧ a.val = sub p start (start + n) := by
  rw [sliceArray, dif_pos inside]
  exact ⟨_, rfl, rfl⟩

@[simp] theorem pure_eq_ok (a : α) : (pure a : Exec α) = .ok a := rfl

@[simp] theorem ok_bind (a : α) (f : α → Exec β) : (Except.ok a : Exec α) >>= f = f a := rfl

@[simp] theorem error_bind (e : Panic) (f : α → Exec β) :
    (Except.error e : Exec α) >>= f = .error e := rfl

@[simp] theorem map_ok (f : α → β) (a : α) : f <$> (Except.ok a : Exec α) = .ok (f a) := rfl

theorem bind_eq_ok {x : Except ε α} {f : α → Except ε β} :
    x >>= f = .ok b ↔ ∃ a, x = .ok a ∧ f a = .ok b := by
  cases x with
  | error e => exact ⟨nofun, nofun⟩
  | ok a => exact ⟨fun bound => ⟨a, rfl, bound⟩, fun ⟨_, same, bound⟩ => Except.ok.inj same ▸ bound⟩

@[simp] theorem assert_true : assert true = .ok () := rfl

@[simp] theorem unwrap_some (a : α) : unwrap (some a) = .ok a := rfl

theorem unwrap_eq_ok {x : Option α} : unwrap x = .ok a ↔ x = some a := by
  cases x <;> simp [unwrap]

end Titun
