import Mathlib.Algebra.Order.Ring.Int
import Mathlib.Data.List.Forall2
import Mathlib.Tactic.Linarith
import Mathlib.Tactic.Ring

/-!
# Checked arithmetic of machine integers

A machine integer type is an interval of integers.  The checked operations return
the mathematical result where the type can hold it, with division truncating
toward zero.
-/

namespace Disp.Library.MachineInt

/-- The values of a machine type. -/
structure IntRange where
  lo : Int
  hi : Int
  deriving DecidableEq, Repr

instance : Membership Int IntRange := ⟨fun range n => range.lo ≤ n ∧ n ≤ range.hi⟩

instance (n : Int) (range : IntRange) : Decidable (n ∈ range) :=
  inferInstanceAs (Decidable (range.lo ≤ n ∧ n ≤ range.hi))

theorem mem_def {n : Int} {range : IntRange} : n ∈ range ↔ range.lo ≤ n ∧ n ≤ range.hi :=
  Iff.rfl

def signedRange (bits : Nat) : IntRange := ⟨-(2 ^ (bits - 1)), 2 ^ (bits - 1) - 1⟩

def unsignedRange (bits : Nat) : IntRange := ⟨0, 2 ^ bits - 1⟩

inductive ArithOp
  | add
  | subtract
  | multiply
  | divide
  | remainder
  deriving DecidableEq, Repr

/-- The result `n`, if the type can hold it. -/
def IntRange.hold (range : IntRange) (n : Int) : Option Int :=
  if n ∈ range then some n else none

/-- The checked operations; dividing by zero has no result, and neither has the
remainder of the least value by minus one, whose quotient overflows. -/
def IntRange.checked (range : IntRange) : ArithOp → Int → Int → Option Int
  | .add, a, b => range.hold (a + b)
  | .subtract, a, b => range.hold (a - b)
  | .multiply, a, b => range.hold (a * b)
  | .divide, a, b => if b = 0 then none else range.hold (a.tdiv b)
  | .remainder, a, b => if b = 0 ∨ (a = range.lo ∧ b = -1) then none else range.hold (a.tmod b)

/-- The value of the type that is congruent to `n`. -/
def IntRange.wrap (range : IntRange) (n : Int) : Int :=
  range.lo + (n - range.lo) % (range.hi - range.lo + 1)

/-- The value of the type nearest to `n`. -/
def IntRange.saturate (range : IntRange) (n : Int) : Int := max range.lo (min n range.hi)

variable {range : IntRange} {n m : Int}

theorem IntRange.wrap_mem (h : range.lo ≤ range.hi) (n : Int) : range.wrap n ∈ range := by
  have hpos : 0 < range.hi - range.lo + 1 := by omega
  have hlt := Int.emod_lt_of_pos (n - range.lo) hpos
  have hnonneg := Int.emod_nonneg (n - range.lo) hpos.ne'
  rw [mem_def, IntRange.wrap]
  omega

/-- `wrap n` is the only value of the type congruent to `n`. -/
theorem IntRange.eq_wrap_iff (hm : m ∈ range) :
    m % (range.hi - range.lo + 1) = n % (range.hi - range.lo + 1) ↔ m = range.wrap n := by
  have hpart : (m - range.lo) % (range.hi - range.lo + 1) = m - range.lo :=
    Int.emod_eq_of_lt (by have := hm.1; omega) (by have := hm.2; omega)
  rw [← Int.emod_sub_cancel_right range.lo, hpart, IntRange.wrap]
  constructor <;> omega

theorem IntRange.saturate_mem (h : range.lo ≤ range.hi) (n : Int) : range.saturate n ∈ range := by
  rw [mem_def, IntRange.saturate]
  omega

theorem IntRange.saturate_nearest (hm : m ∈ range) (h : m ≠ range.saturate n) :
    (range.saturate n - n).natAbs < (m - n).natAbs := by
  rw [mem_def] at hm
  unfold IntRange.saturate at h ⊢
  omega

theorem IntRange.hold_eq_some (h : range.hold n = some m) : m = n ∧ m ∈ range := by
  unfold IntRange.hold at h
  split at h
  · cases h
    exact ⟨rfl, by assumption⟩
  · cases h

end Disp.Library.MachineInt
