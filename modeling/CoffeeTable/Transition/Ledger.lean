import CoffeeTable.Transition.Run
import Mathlib.Data.List.Perm.Subperm

/-!
# What a run holds and what it is given

A state holds a list of things and an input may bring along some more. If no
step holds more afterwards than before it together with what its input brought,
the whole run obeys the same balance. The comparison is any preorder on lists
that a common tail respects: inclusion, where copies do not matter, or
inclusion up to order, where they do. Of a state that is read by keys, what is
given are writes, and a run leaves at each key the last value written there.
-/

namespace CoffeeTable.Transition

variable {σ ι α : Type*}

/-- What the inputs of a run bring along, each in the state in which it arrives. -/
def gathered (step : σ → ι → σ) (give : σ → ι → List α) : σ → List ι → List α
  | _, [] => []
  | s, i :: inputs => give s i ++ gathered step give (step s i) inputs

variable {step : σ → ι → σ} {give : σ → ι → List α} {hold : σ → List α} {I : σ → Prop}
  {P : σ → ι → Prop} {s : σ}

theorem mem_gathered {inputs : List ι} {a : α} (h : a ∈ gathered step give s inputs) :
    ∃ t i, i ∈ inputs ∧ a ∈ give t i := by
  induction inputs generalizing s with
  | nil => cases h
  | cons i inputs ih =>
      rcases List.mem_append.mp h with h | h
      · exact ⟨s, i, List.mem_cons_self, h⟩
      · obtain ⟨t, j, hj, ht⟩ := ih h
        exact ⟨t, j, List.mem_cons_of_mem _ hj, ht⟩

theorem gathered_append (xs ys : List ι) :
    gathered step give s (xs ++ ys) =
      gathered step give s xs ++ gathered step give (xs.foldl step s) ys := by
  induction xs generalizing s with
  | nil => rfl
  | cons i xs ih =>
      rw [List.cons_append, gathered, gathered, ih, List.append_assoc, List.foldl_cons]

theorem gathered_const (f : ι → List α) (inputs : List ι) :
    gathered step (fun _ i ↦ f i) s inputs = inputs.flatMap f := by
  induction inputs generalizing s with
  | nil => rfl
  | cons i inputs ih => rw [gathered, ih, List.flatMap_cons]

theorem along_of_gathered {p : α → Prop} {inputs : List ι}
    (h : ∀ a ∈ gathered step give s inputs, p a) :
    Along step (fun t i ↦ ∀ a ∈ give t i, p a) s inputs := by
  induction inputs generalizing s with
  | nil => trivial
  | cons i inputs ih =>
      obtain ⟨hgiven, hrest⟩ := List.forall_mem_append.mp h
      exact along_cons.mpr ⟨hgiven, ih hrest⟩

/-- The balance of a run whose steps keep the invariant `I`. -/
theorem held_of_along {le : List α → List α → Prop} (hrefl : ∀ xs, le xs xs)
    (htrans : ∀ {xs ys zs}, le xs ys → le ys zs → le xs zs)
    (happend : ∀ {xs ys} tail, le xs ys → le (xs ++ tail) (ys ++ tail))
    (hinv : ∀ s i, I s → I (step s i))
    (hstep : ∀ s i, I s → P s i → le (hold (step s i)) (hold s ++ give s i))
    (hI : I s) {inputs : List ι} (h : Along step P s inputs) :
    le (hold (inputs.foldl step s)) (hold s ++ gathered step give s inputs) := by
  induction inputs generalizing s with
  | nil =>
      rw [gathered, List.append_nil]
      exact hrefl _
  | cons i inputs ih =>
      rw [along_cons] at h
      apply htrans (ih (hinv s i hI) h.2)
      rw [gathered, ← List.append_assoc]
      apply happend
      exact hstep s i hI h.1

theorem held_subset (hinv : ∀ s i, I s → I (step s i))
    (hstep : ∀ s i, I s → P s i → hold (step s i) ⊆ hold s ++ give s i)
    (hI : I s) {inputs : List ι} (h : Along step P s inputs) :
    hold (inputs.foldl step s) ⊆ hold s ++ gathered step give s inputs := by
  apply held_of_along List.Subset.refl List.Subset.trans ?_ hinv
    hstep hI h
  intro xs ys tail hsub x hx
  rw [List.mem_append] at hx ⊢
  exact hx.imp_left fun hmem ↦ hsub hmem

theorem held_subperm (hinv : ∀ s i, I s → I (step s i))
    (hstep : ∀ s i, I s → P s i → (hold (step s i)).Subperm (hold s ++ give s i))
    (hI : I s) {inputs : List ι} (h : Along step P s inputs) :
    (hold (inputs.foldl step s)).Subperm (hold s ++ gathered step give s inputs) := by
  apply held_of_along List.Subperm.refl List.Subperm.trans ?_ hinv hstep hI h
  intro xs ys tail hsub
  exact hsub.append (List.Subperm.refl tail)

/-! ## Writes -/

section Overwrite

variable {κ ν : Type*} [DecidableEq κ]

/-- What is read at the keys after a list of writes. -/
def overwrite (f : κ → ν) (writes : List (κ × ν)) : κ → ν :=
  writes.foldl (fun f write ↦ Function.update f write.1 write.2) f

@[simp] theorem overwrite_nil (f : κ → ν) : overwrite f [] = f := rfl

@[simp] theorem overwrite_cons (f : κ → ν) (write : κ × ν) (writes : List (κ × ν)) :
    overwrite f (write :: writes) = overwrite (Function.update f write.1 write.2) writes := rfl

theorem overwrite_append (f : κ → ν) (xs ys : List (κ × ν)) :
    overwrite f (xs ++ ys) = overwrite (overwrite f xs) ys := List.foldl_append

theorem overwrite_of_notMem {writes : List (κ × ν)} {k : κ} (h : k ∉ writes.map Prod.fst)
    (f : κ → ν) : overwrite f writes k = f k := by
  induction writes generalizing f with
  | nil => rfl
  | cons write writes ih =>
      rw [List.map_cons, List.mem_cons, not_or] at h
      rw [overwrite_cons, ih h.2, Function.update_of_ne h.1]

theorem read_foldl {read : σ → κ → ν} {give : σ → ι → List (κ × ν)}
    (hstep : ∀ s i, read (step s i) = overwrite (read s) (give s i)) (s : σ) (inputs : List ι) :
    read (inputs.foldl step s) = overwrite (read s) (gathered step give s inputs) := by
  induction inputs generalizing s with
  | nil => rfl
  | cons i inputs ih => rw [List.foldl_cons, ih, hstep, gathered, overwrite_append]

end Overwrite

end CoffeeTable.Transition
