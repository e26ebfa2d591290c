import Mathlib.Data.List.Basic
import Mathlib.Order.Basic

/-!
# Runs of a total step function

A run folds a step function over a list of inputs. `Along` says that a
condition on state and input holds at every step of a run, `Throughout` that a
property holds in every state the run reaches, the first and the last
included. A property kept by the steps that meet a condition holds throughout
the runs along which the condition does; when the other steps destroy it, the
converse holds as well.
-/

namespace CoffeeTable.Transition

variable {σ ι : Type*} (step : σ → ι → σ)

/-- Each input meets the condition in the state in which it arrives. -/
def Along (P : σ → ι → Prop) : σ → List ι → Prop
  | _, [] => True
  | s, i :: inputs => P s i ∧ Along P (step s i) inputs

/-- Every state reached along the run has the property. -/
def Throughout (Q : σ → Prop) (s : σ) (inputs : List ι) : Prop :=
  ∀ pre, pre <+: inputs → Q (pre.foldl step s)

section Along

variable {step} {P P' : σ → ι → Prop} {s : σ}

instance Along.decidable [∀ s i, Decidable (P s i)] :
    (s : σ) → (inputs : List ι) → Decidable (Along step P s inputs)
  | _, [] => isTrue trivial
  | s, i :: inputs =>
      have := Along.decidable (step s i) inputs
      inferInstanceAs (Decidable (P s i ∧ Along step P (step s i) inputs))

@[simp] theorem along_nil : Along step P s [] := trivial

@[simp] theorem along_cons {i : ι} {inputs : List ι} :
    Along step P s (i :: inputs) ↔ P s i ∧ Along step P (step s i) inputs := Iff.rfl

theorem along_append {xs ys : List ι} :
    Along step P s (xs ++ ys) ↔ Along step P s xs ∧ Along step P (xs.foldl step s) ys := by
  induction xs generalizing s with
  | nil => simp
  | cons i xs ih => simp [ih, and_assoc]

theorem along_of_forall (h : ∀ s i, P s i) (s : σ) (inputs : List ι) :
    Along step P s inputs := by
  induction inputs generalizing s with
  | nil => trivial
  | cons i inputs ih => exact ⟨h s i, ih _⟩

theorem along_of_forall_mem {P : ι → Prop} {inputs : List ι} (h : ∀ i ∈ inputs, P i) (s : σ) :
    Along step (fun _ i ↦ P i) s inputs := by
  induction inputs generalizing s with
  | nil => trivial
  | cons i inputs ih =>
      rw [List.forall_mem_cons] at h
      exact ⟨h.1, ih h.2 _⟩

end Along

section Throughout

variable {step} {P : σ → ι → Prop} {Q : σ → Prop} {s : σ}

theorem throughout_nil : Throughout step Q s [] ↔ Q s := by
  simp [Throughout]

theorem throughout_cons {i : ι} {inputs : List ι} :
    Throughout step Q s (i :: inputs) ↔ Q s ∧ Throughout step Q (step s i) inputs := by
  constructor
  · intro h
    refine ⟨h [] (List.nil_prefix), fun pre hpre ↦ ?_⟩
    exact h (i :: pre) (List.cons_prefix_cons.mpr ⟨rfl, hpre⟩)
  · rintro ⟨hs, h⟩ pre hpre
    cases pre with
    | nil => exact hs
    | cons j pre =>
        obtain ⟨rfl, hrest⟩ := List.cons_prefix_cons.mp hpre
        exact h pre hrest

theorem Throughout.start {inputs : List ι} (h : Throughout step Q s inputs) : Q s :=
  h [] List.nil_prefix

theorem Throughout.last {inputs : List ι} (h : Throughout step Q s inputs) :
    Q (inputs.foldl step s) := h inputs (List.prefix_refl inputs)

/-- The run rule: what each admitted step keeps holds throughout. -/
theorem throughout_of_along (hstep : ∀ s i, Q s → P s i → Q (step s i)) {inputs : List ι}
    (hs : Q s) (h : Along step P s inputs) : Throughout step Q s inputs := by
  induction inputs generalizing s with
  | nil => exact throughout_nil.mpr hs
  | cons i inputs ih => exact throughout_cons.mpr ⟨hs, ih (hstep s i hs h.1) h.2⟩

theorem throughout_of_step (hstep : ∀ s i, Q s → Q (step s i)) (hs : Q s) (inputs : List ι) :
    Throughout step Q s inputs :=
  throughout_of_along (P := fun _ _ ↦ True) (fun s i hq _ ↦ hstep s i hq) hs
    (along_of_forall (fun _ _ ↦ trivial) s inputs)

/-- When exactly the admitted steps keep `Q`, it holds throughout a run if and
only if all its steps are admitted. The invariant `I` holds of every run. -/
theorem throughout_iff_along {I : σ → Prop} (hinv : ∀ s i, I s → I (step s i))
    (hstep : ∀ s i, I s → Q s → (Q (step s i) ↔ P s i)) {inputs : List ι}
    (hI : I s) (hs : Q s) : Throughout step Q s inputs ↔ Along step P s inputs := by
  induction inputs generalizing s with
  | nil => simp [throughout_nil, hs]
  | cons i inputs ih =>
      rw [throughout_cons, along_cons]
      constructor
      · rintro ⟨-, h⟩
        exact ⟨(hstep s i hI hs).mp h.start, (ih (hinv s i hI) h.start).mp h⟩
      · rintro ⟨hP, h⟩
        have hnext : Q (step s i) := (hstep s i hI hs).mpr hP
        exact ⟨hs, (ih (hinv s i hI) hnext).mpr h⟩

theorem Throughout.along (himp : ∀ s i, Q s → P s i) {inputs : List ι}
    (h : Throughout step Q s inputs) : Along step P s inputs := by
  induction inputs generalizing s with
  | nil => trivial
  | cons i inputs ih =>
      have hcons := throughout_cons.mp h
      exact ⟨himp s i hcons.1, ih hcons.2⟩

end Throughout

section Measure

variable {step} {β : Type*} [PartialOrder β] {I : σ → Prop} {P : σ → ι → Prop} {s : σ}

theorem measure_foldl_le (measure : σ → β) (hinv : ∀ s i, I s → I (step s i))
    (hle : ∀ s i, I s → measure (step s i) ≤ measure s) (hI : I s) (inputs : List ι) :
    measure (inputs.foldl step s) ≤ measure s := by
  induction inputs generalizing s with
  | nil => exact le_refl _
  | cons i inputs ih => exact (ih (hinv s i hI)).trans (hle s i hI)

/-- A measure that never grows is the same at the end exactly if every step keeps it. -/
theorem measure_eq_iff_along (measure : σ → β) (hinv : ∀ s i, I s → I (step s i))
    (hle : ∀ s i, I s → measure (step s i) ≤ measure s)
    (hkeep : ∀ s i, I s → (measure (step s i) = measure s ↔ P s i)) (hI : I s)
    (inputs : List ι) :
    measure (inputs.foldl step s) = measure s ↔ Along step P s inputs := by
  induction inputs generalizing s with
  | nil => simp
  | cons i inputs ih =>
      have hnext := hinv s i hI
      rw [List.foldl_cons, along_cons, ← hkeep s i hI, ← ih hnext]
      constructor
      · intro h
        have hfirst : measure (step s i) = measure s :=
          le_antisymm (hle s i hI) (h ▸ measure_foldl_le measure hinv hle hnext inputs)
        exact ⟨hfirst, h.trans hfirst.symm⟩
      · rintro ⟨hfirst, hrest⟩
        exact hrest.trans hfirst

end Measure

end CoffeeTable.Transition
