import Mathlib.Data.List.Basic

/-!
# Simulation by a step function that can fail

A concrete step function may fail; an abstract one is total. If every admitted
concrete step from related states succeeds and leads to related states, then
every admitted concrete run succeeds, up to each of its prefixes, in a state
related to the one the abstract run reaches. Of two total step functions, each
concrete step may be one abstract step or none, and a concrete run is then the
abstract run of the steps that count.
-/

namespace CoffeeTable.Transition

variable {ε σ τ ι : Type} (step : σ → ι → Except ε σ)

/-- Each input meets the condition in the state in which it arrives, as far as
the run succeeds. -/
def Admits (P : σ → ι → Prop) : σ → List ι → Prop
  | _, [] => True
  | s, i :: inputs => P s i ∧ ∀ t, step s i = .ok t → Admits P t inputs

variable {step} {P : σ → ι → Prop} {spec : τ → ι → τ} {R : σ → τ → Prop}

theorem foldlM_of_simulates
    (hstep : ∀ s a i, R s a → P s i → ∃ t, step s i = .ok t ∧ R t (spec a i))
    {s : σ} {a : τ} {inputs : List ι} (hR : R s a) (hadmits : Admits step P s inputs) :
    ∀ pre, pre <+: inputs →
      ∃ t, pre.foldlM step s = .ok t ∧ R t (pre.foldl spec a) := by
  induction inputs generalizing s a with
  | nil =>
      intro pre hpre
      obtain rfl := List.prefix_nil.mp hpre
      exact ⟨s, rfl, hR⟩
  | cons i inputs ih =>
      intro pre hpre
      cases pre with
      | nil => exact ⟨s, rfl, hR⟩
      | cons j pre =>
          obtain ⟨rfl, hrest⟩ := List.cons_prefix_cons.mp hpre
          obtain ⟨t, ht, hnext⟩ := hstep s a j hR hadmits.1
          obtain ⟨u, hu, hRu⟩ := ih hnext (hadmits.2 t ht) pre hrest
          refine ⟨u, ?_, hRu⟩
          rw [List.foldlM_cons, ht]
          exact hu

section Stuttering

variable {σ τ ι κ : Type*} (step : σ → ι → σ) (label : σ → ι → Option κ)

/-- The abstract steps that a run takes. -/
def labels : σ → List ι → List κ
  | _, [] => []
  | s, i :: inputs => (label s i).toList ++ labels (step s i) inputs

variable {step label} {I : σ → Prop} {abs : σ → τ} {next : τ → κ → τ}

/-- The stuttering rule. The invariant `I` holds of every concrete run. -/
theorem abs_foldl_eq (hinv : ∀ s i, I s → I (step s i))
    (hstep : ∀ s i, I s → abs (step s i) = (label s i).toList.foldl next (abs s))
    {s : σ} (hI : I s) (inputs : List ι) :
    abs (inputs.foldl step s) = (labels step label s inputs).foldl next (abs s) := by
  induction inputs generalizing s with
  | nil => rfl
  | cons i inputs ih =>
      rw [List.foldl_cons, ih (hinv s i hI), labels, List.foldl_append, hstep s i hI]

end Stuttering

end CoffeeTable.Transition
