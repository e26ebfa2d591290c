import Mathlib.Data.List.Basic

/-!
# Successive replacements

Replacing symbols by words one after another may replace symbols of a word
that was just put in. If no word has a symbol that is replaced later, the
replacements are one substitution, symbol by symbol.
-/

namespace CoffeeTable.Coding

variable {α : Type*} [DecidableEq α]

/-- All occurrences of a symbol are replaced by a word. -/
def replaceAll (text : List α) (symbol : α) (word : List α) : List α :=
  text.flatMap fun c ↦ if c = symbol then word else [c]

/-- The replacements of a table, from its head on. -/
def replaceEach (table : List (α × List α)) (text : List α) : List α :=
  table.foldl (fun text entry ↦ replaceAll text entry.1 entry.2) text

def substitute (table : List (α × List α)) (c : α) : List α := (table.lookup c).getD [c]

theorem substitute_cons (symbol : α) (word : List α) (table : List (α × List α)) (c : α) :
    substitute ((symbol, word) :: table) c = if c = symbol then word else substitute table c := by
  by_cases h : c = symbol
  · simp [substitute, h]
  · simp [substitute, List.lookup_cons, h, beq_eq_false_iff_ne.mpr h]

theorem substitute_of_notMem {table : List (α × List α)} {c : α} (h : c ∉ table.map Prod.fst) :
    substitute table c = [c] := by
  induction table with
  | nil => rfl
  | cons entry table ih =>
      rw [List.map_cons, List.mem_cons, not_or] at h
      rw [substitute_cons, if_neg h.1, ih h.2]

theorem flatMap_substitute_of_notMem {table : List (α × List α)} {word : List α}
    (h : ∀ entry ∈ table, entry.1 ∉ word) : word.flatMap (substitute table) = word := by
  have hself (c : α) (hc : c ∈ word) : substitute table c = [c] := by
    refine substitute_of_notMem fun hmem ↦ ?_
    obtain ⟨entry, hentry, rfl⟩ := List.mem_map.mp hmem
    exact h entry hentry hc
  rw [List.flatMap_congr hself]
  exact List.flatMap_singleton' word

/-- No word has a symbol that is replaced later: one substitution. -/
theorem replaceEach_eq_flatMap {table : List (α × List α)}
    (h : table.Pairwise fun entry later ↦ later.1 ∉ entry.2) (text : List α) :
    replaceEach table text = text.flatMap (substitute table) := by
  induction table generalizing text with
  | nil => exact (List.flatMap_singleton' text).symm
  | cons entry table ih =>
      obtain ⟨symbol, word⟩ := entry
      obtain ⟨hword, htable⟩ := List.pairwise_cons.mp h
      have hfirst : replaceEach ((symbol, word) :: table) text =
          replaceEach table (replaceAll text symbol word) := rfl
      rw [hfirst, ih htable, replaceAll, List.flatMap_assoc]
      congr 1
      funext c
      rw [substitute_cons]
      split_ifs
      · exact flatMap_substitute_of_notMem hword
      · exact List.flatMap_singleton _ _

end CoffeeTable.Coding
