import Mathlib.Data.List.Basic
import Mathlib.Data.Int.Order.Basic
import Mathlib.Tactic.Ring

/-!
# Script strings and their slices

A script string is a finite sequence of 16-bit code units. Slices take
relative indexes: a negative one counts from the end, and every index is
clamped to the sequence. The two slices at one index always partition the
sequence, whatever the index is.
-/

namespace CoffeeTable.Ecma

abbrev CodeUnit := UInt16

abbrev JsString := List CodeUnit

/-- The code unit of a character of the basic plane. -/
def unit (c : Char) : CodeUnit := c.toNat.toUInt16

def lit (s : String) : JsString := s.toList.map unit

section Slices

variable {α : Type*}

/-- The clamped start of `slice` and `splice` on a sequence of length `len`. -/
def relativeIndex (len : ℕ) (i : ℤ) : ℕ :=
  if i < 0 then (len + i).toNat else min i.toNat len

theorem relativeIndex_of_nonneg {len : ℕ} {i : ℤ} (hi : 0 ≤ i) :
    relativeIndex len i = min i.toNat len := by
  simp [relativeIndex, not_lt.mpr hi]

theorem relativeIndex_of_neg {len : ℕ} {i : ℤ} (hi : i < 0) :
    relativeIndex len i = (len + i).toNat := by
  simp [relativeIndex, hi]

@[simp] theorem relativeIndex_natCast (len n : ℕ) : relativeIndex len (n : ℤ) = min n len := by
  simp [relativeIndex]

theorem relativeIndex_le (len : ℕ) (i : ℤ) : relativeIndex len i ≤ len := by
  unfold relativeIndex
  split <;> omega

def sliceTo (xs : List α) (stop : ℤ) : List α := xs.take (relativeIndex xs.length stop)

def sliceFrom (xs : List α) (start : ℤ) : List α := xs.drop (relativeIndex xs.length start)

@[simp] theorem sliceTo_append_sliceFrom (xs : List α) (i : ℤ) :
    sliceTo xs i ++ sliceFrom xs i = xs := List.take_append_drop _ _

@[simp] theorem sliceTo_natCast (xs : List α) (n : ℕ) : sliceTo xs (n : ℤ) = xs.take n := by
  simp [sliceTo, List.take_eq_take_iff]

@[simp] theorem sliceFrom_natCast (xs : List α) (n : ℕ) : sliceFrom xs (n : ℤ) = xs.drop n := by
  simp [sliceFrom, List.drop_eq_drop_iff]

theorem mem_of_mem_sliceTo {xs : List α} {i : ℤ} {x : α} (h : x ∈ sliceTo xs i) : x ∈ xs :=
  List.mem_of_mem_take h

theorem mem_of_mem_sliceFrom {xs : List α} {i : ℤ} {x : α} (h : x ∈ sliceFrom xs i) : x ∈ xs :=
  List.mem_of_mem_drop h

def splice (xs : List α) (start deleteCount : ℤ) (items : List α) : List α :=
  let i := relativeIndex xs.length start
  xs.take i ++ items ++ xs.drop (i + deleteCount.toNat)

@[simp] theorem splice_nil (start deleteCount : ℤ) (items : List α) :
    splice [] start deleteCount items = items := by
  simp [splice]

theorem mem_splice {xs items : List α} {start deleteCount : ℤ} {x : α}
    (h : x ∈ splice xs start deleteCount items) : x ∈ xs ∨ x ∈ items := by
  simp only [splice, List.mem_append] at h
  rcases h with (h | h) | h
  · exact Or.inl (List.mem_of_mem_take h)
  · exact Or.inr h
  · exact Or.inl (List.mem_of_mem_drop h)

theorem length_splice (xs items : List α) (start deleteCount : ℤ) :
    (splice xs start deleteCount items).length = relativeIndex xs.length start +
      items.length + (xs.length - (relativeIndex xs.length start + deleteCount.toNat)) := by
  have hle := relativeIndex_le xs.length start
  simp only [splice, List.length_append, List.length_take, List.length_drop]
  omega

theorem splice_append (before after items : List α) (deleteCount : ℤ) :
    splice (before ++ after) before.length deleteCount items =
      before ++ items ++ after.drop deleteCount.toNat := by
  simp [splice]

end Slices

end CoffeeTable.Ecma
