import Mathlib.Algebra.Order.Group.Defs
import Mathlib.Algebra.Order.Monoid.Unbundled.Pow
import Mathlib.Logic.Function.Iterate

/-!
# Clamped steps

A value is clamped from above and then from below, so that the lower bound
wins if the bounds cross. A step clamps, adds a displacement and clamps again.
Steps by one and the same displacement go one way, so that only the last clamp
matters and many small steps are one big step.
-/

namespace CoffeeTable.Bounds

section Clamp

variable {α : Type*} [LinearOrder α]

def clamp (lo hi x : α) : α := max lo (min x hi)

variable {lo hi x y : α}

theorem le_clamp (lo hi x : α) : lo ≤ clamp lo hi x := le_max_left _ _

theorem clamp_le_max (lo hi x : α) : clamp lo hi x ≤ max lo hi :=
  max_le_max (le_refl lo) (min_le_right x hi)

theorem clamp_of_ge (h : hi ≤ x) : clamp lo hi x = max lo hi := by
  rw [clamp, min_eq_right h]

theorem clamp_of_le (h : x ≤ lo) : clamp lo hi x = lo :=
  max_eq_left ((min_le_left x hi).trans h)

theorem clamp_of_mem (hlo : lo ≤ x) (hhi : x ≤ max lo hi) : clamp lo hi x = x := by
  rcases le_total x hi with h | h
  · rw [clamp, min_eq_left h, max_eq_right hlo]
  · rw [clamp_of_ge h]
    exact le_antisymm (max_le hlo h) hhi

@[simp] theorem clamp_clamp (lo hi x : α) : clamp lo hi (clamp lo hi x) = clamp lo hi x :=
  clamp_of_mem (le_clamp lo hi x) (clamp_le_max lo hi x)

end Clamp

section Step

variable {α : Type*} [AddCommGroup α] [LinearOrder α] [IsOrderedAddMonoid α] {lo hi d x : α}

def clampedStep (lo hi d x : α) : α := clamp lo hi (clamp lo hi x + d)

theorem clamp_clamp_add_of_nonneg (hx : lo ≤ x) (hd : 0 ≤ d) :
    clamp lo hi (clamp lo hi x + d) = clamp lo hi (x + d) := by
  rcases le_total x hi with h | h
  · rw [clamp_of_mem hx (h.trans (le_max_right lo hi))]
  · have hhigh : hi ≤ max lo hi + d := (le_max_right lo hi).trans (le_add_of_nonneg_right hd)
    rw [clamp_of_ge h, clamp_of_ge hhigh, clamp_of_ge (h.trans (le_add_of_nonneg_right hd))]

theorem clamp_clamp_add_of_nonpos (hx : x ≤ max lo hi) (hd : d ≤ 0) :
    clamp lo hi (clamp lo hi x + d) = clamp lo hi (x + d) := by
  rcases le_total lo x with h | h
  · rw [clamp_of_mem h hx]
  · have hlow : lo + d ≤ lo := add_le_of_nonpos_right hd
    rw [clamp_of_le h, clamp_of_le hlow, clamp_of_le ((add_le_of_nonpos_right hd).trans h)]

/-- Clamping along the way changes nothing, as all steps go one way. -/
theorem clampedStep_iterate (lo hi d x : α) (n : ℕ) :
    (clampedStep lo hi d)^[n + 1] x = clampedStep lo hi ((n + 1) • d) x := by
  induction n with
  | zero =>
      rw [Nat.zero_add, one_nsmul]
      rfl
  | succ n ih =>
      have hsum : clamp lo hi x + (n + 1) • d + d = clamp lo hi x + (n + 1 + 1) • d := by
        rw [add_assoc, ← succ_nsmul]
      rw [Function.iterate_succ_apply', ih]
      simp only [clampedStep, clamp_clamp]
      rcases le_total 0 d with hd | hd
      · have hx : lo ≤ clamp lo hi x + (n + 1) • d :=
          (le_clamp lo hi x).trans (le_add_of_nonneg_right (nsmul_nonneg hd _))
        rw [clamp_clamp_add_of_nonneg hx hd, hsum]
      · have hx : clamp lo hi x + (n + 1) • d ≤ max lo hi :=
          (add_le_of_nonpos_right (nsmul_nonpos hd _)).trans (clamp_le_max lo hi x)
        rw [clamp_clamp_add_of_nonpos hx hd, hsum]

end Step

end CoffeeTable.Bounds
