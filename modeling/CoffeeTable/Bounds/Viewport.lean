import CoffeeTable.Bounds.Clamp
import Mathlib.Algebra.Order.Field.Basic
import Mathlib.Tactic.Linarith

/-!
# Revealing a point in a window

A window of some height stands at a position between zero and the room its
document leaves. Revealing a point moves the window so far that the point is
inside by a padding, and not at all if it is so already. At the ends of the
document the padding gives way, but the point is in the window. No shorter move
reveals the point.
-/

namespace CoffeeTable.Bounds

variable {α : Type*} [Field α] [LinearOrder α]

def reveal (padding height room top y : α) : α :=
  if top - padding < y then clamp 0 room (top - padding)
  else if y + height - padding < top then clamp 0 room (top + padding - height)
  else y

/-- The point is inside the window by the padding. -/
def Shows (padding height top y : α) : Prop := y + padding ≤ top ∧ top + padding ≤ y + height

/-- A window with room for its padding, somewhere in its document, and a point
of the document. -/
structure Viewed (padding height room top y : α) : Prop where
  padding_nonneg : 0 ≤ padding
  padding_le : padding + padding ≤ height
  nonneg : 0 ≤ y
  le_room : y ≤ room
  top_nonneg : 0 ≤ top
  top_le : top ≤ room + height

variable {padding height room top y : α}

theorem reveal_up (h : Viewed padding height room top y) (hup : top - padding < y) :
    reveal padding height room top y = max 0 (top - padding) := by
  have hle : top - padding ≤ room := hup.le.trans h.le_room
  rw [reveal, if_pos hup, clamp, min_eq_left hle]

variable [IsStrictOrderedRing α]

theorem reveal_down (h : Viewed padding height room top y) (hup : ¬ top - padding < y)
    (hdown : y + height - padding < top) :
    reveal padding height room top y = min (top + padding - height) room := by
  have hy := h.nonneg
  have hroom := h.le_room
  have hnonneg : 0 ≤ min (top + padding - height) room := le_min (by linarith) (by linarith)
  rw [reveal, if_neg hup, if_pos hdown, clamp, max_eq_right hnonneg]

/-- Where a point is revealed. -/
structure Revealed (padding height room top z : α) : Prop where
  nonneg : 0 ≤ z
  le_room : z ≤ room
  le_top : z ≤ top
  top_le : top ≤ z + height
  above : z + padding ≤ top ∨ z = 0
  below : top + padding ≤ z + height ∨ z = room

theorem revealed_reveal (h : Viewed padding height room top y) :
    Revealed padding height room top (reveal padding height room top y) := by
  obtain ⟨hpadding, hheight, hy, hroom, htop, hbottom⟩ := h
  by_cases hup : top - padding < y
  · rw [reveal_up ⟨hpadding, hheight, hy, hroom, htop, hbottom⟩ hup]
    rcases le_total 0 (top - padding) with hcase | hcase
    · rw [max_eq_right hcase]
      exact ⟨hcase, by linarith, by linarith, by linarith, Or.inl (by linarith),
        Or.inl (by linarith)⟩
    · rw [max_eq_left hcase]
      exact ⟨le_refl 0, by linarith, htop, by linarith, Or.inr rfl, Or.inl (by linarith)⟩
  · by_cases hdown : y + height - padding < top
    · rw [reveal_down ⟨hpadding, hheight, hy, hroom, htop, hbottom⟩ hup hdown]
      rcases le_total (top + padding - height) room with hcase | hcase
      · rw [min_eq_left hcase]
        exact ⟨by linarith, hcase, by linarith, by linarith, Or.inl (by linarith),
          Or.inl (by linarith)⟩
      · rw [min_eq_right hcase]
        exact ⟨by linarith, le_refl room, by linarith, hbottom, Or.inl (by linarith), Or.inr rfl⟩
    · rw [reveal, if_neg hup, if_neg hdown]
      exact ⟨hy, hroom, by linarith, by linarith, Or.inl (by linarith), Or.inl (by linarith)⟩

/-- No position that shows the point with its padding is nearer. -/
theorem abs_reveal_sub_le (h : Viewed padding height room top y) {z : α}
    (hshows : Shows padding height top z) :
    |reveal padding height room top y - y| ≤ |z - y| := by
  obtain ⟨habove, hbelow⟩ := hshows
  by_cases hup : top - padding < y
  · have hle : max 0 (top - padding) ≤ y := max_le h.nonneg hup.le
    have hz' : z ≤ max 0 (top - padding) := by
      have hpadded : z ≤ top - padding := by linarith
      exact hpadded.trans (le_max_right _ _)
    rw [reveal_up h hup, abs_sub_comm, abs_sub_comm z, abs_of_nonneg (by linarith),
      abs_of_nonneg (by linarith)]
    linarith
  · by_cases hdown : y + height - padding < top
    · have hz' : min (top + padding - height) room ≤ z :=
        (min_le_left _ _).trans (by linarith)
      have hle : y ≤ min (top + padding - height) room := le_min (by linarith) h.le_room
      rw [reveal_down h hup hdown, abs_of_nonneg (by linarith), abs_of_nonneg (by linarith)]
      linarith
    · rw [reveal, if_neg hup, if_neg hdown, sub_self, abs_zero]
      exact abs_nonneg _

end CoffeeTable.Bounds
