import BouchaudOS.Foundations.Outcome

/-!
# Checked arithmetic and indexing

In a build with checks, a subtraction below zero, a result that does not fit its type and an
index outside its slice stop the program. These are the operations that can fault; a
computation made of them is safe when each of them is on every path that reaches it.
-/

namespace BouchaudOS.Checked

inductive Fault
  | overflow
  | bounds
  | boundary
  deriving DecidableEq, Repr

variable {ε α β : Type}

def sub (a b : ℕ) : Outcome ε Fault ℕ := if b ≤ a then .ok (a - b) else .fault .overflow

/-- A result that is kept in `w` bits. -/
def fit (w a : ℕ) : Outcome ε Fault ℕ := if a < 2 ^ w then .ok a else .fault .overflow

def get (l : List α) (i : ℕ) : Outcome ε Fault α :=
  match l[i]? with
  | some a => .ok a
  | none => .fault .bounds

/-- The slice `l[i..j]`. -/
def range (l : List α) (i j : ℕ) : Outcome ε Fault (List α) :=
  if i ≤ j ∧ j ≤ l.length then .ok ((l.drop i).take (j - i)) else .fault .bounds

variable {l : List α} {a c w i j : ℕ}

theorem fit_of_lt (h : a < 2 ^ w) : (fit w a : Outcome ε Fault ℕ) = .ok a := if_pos h

theorem fit_eq_ok : (fit w a : Outcome ε Fault ℕ) = .ok c ↔ a < 2 ^ w ∧ c = a := by
  unfold fit
  split <;> simp_all [eq_comm]

theorem range_of_le (hij : i ≤ j) (hj : j ≤ l.length) :
    (range l i j : Outcome ε Fault (List α)) = .ok ((l.drop i).take (j - i)) := if_pos ⟨hij, hj⟩

/-- A computation that gives a value unless it faults. -/
abbrev Guarded (α : Type) := Outcome Empty Fault α

namespace Guarded

/-- As part of a computation that may report errors. -/
def lift : Guarded α → Outcome ε Fault α
  | .ok a => .ok a
  | .err e => nomatch e
  | .fault f => .fault f

instance : MonadLift (Outcome Empty Fault) (Outcome ε Fault) := ⟨lift⟩

variable {g : Guarded α}

@[simp] theorem lift_ok {a : α} : (lift (.ok a) : Outcome ε Fault α) = .ok a := rfl

@[simp] theorem monadLift_ok {a : α} : (liftM (.ok a : Guarded α) : Outcome ε Fault α) = .ok a := rfl

theorem safe_iff : g.Safe ↔ ∃ a, g = .ok a := by
  cases g with
  | ok a => simp
  | err e => cases e
  | fault f => simp

theorem safe_bind {f : α → Guarded β} : (g >>= f).Safe ↔ ∃ a, g = .ok a ∧ (f a).Safe := by
  cases g with
  | ok a => simp
  | err e => cases e
  | fault f => simp

theorem liftM_eq_ok {a : α} : (liftM g : Outcome ε Fault α) = .ok a ↔ g = .ok a := by
  cases g with
  | ok b => simp
  | err e => cases e
  | fault f => exact iff_of_false nofun nofun

end Guarded

end BouchaudOS.Checked
