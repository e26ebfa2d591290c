import Mathlib.Data.List.Basic

/-!
# Patterns

A pattern is tried from the front of a text and gives what can be left of it
behind a match. A text as a whole matches if nothing can be left. This agrees
with the language of the pattern, so that tests can be run and reasoned about.
-/

namespace CoffeeTable.Ecma

inductive Pattern (α : Type*) where
  | one (p : α → Bool)
  /-- A class repeated at least once. -/
  | plus (p : α → Bool)
  | seq (first second : Pattern α)
  | optional (pattern : Pattern α)

namespace Pattern

variable {α : Type*}

def plusRests (p : α → Bool) : List α → List (List α)
  | [] => []
  | c :: text => if p c then text :: plusRests p text else []

def rests : Pattern α → List α → List (List α)
  | one _, [] => []
  | one p, c :: text => if p c then [text] else []
  | plus p, text => plusRests p text
  | seq first second, text => (first.rests text).flatMap second.rests
  | optional pattern, text => text :: pattern.rests text

def Matches : Pattern α → List α → Prop
  | one p, word => ∃ c, p c ∧ word = [c]
  | plus p, word => word ≠ [] ∧ ∀ c ∈ word, p c
  | seq first second, word => ∃ u v, word = u ++ v ∧ first.Matches u ∧ second.Matches v
  | optional pattern, word => word = [] ∨ pattern.Matches word

/-- The test of an expression that is anchored at both ends. -/
def test (pattern : Pattern α) (text : List α) : Bool := (pattern.rests text).any List.isEmpty

theorem mem_plusRests_iff (p : α → Bool) (text rest : List α) :
    rest ∈ plusRests p text ↔
      ∃ word, text = word ++ rest ∧ word ≠ [] ∧ ∀ c ∈ word, p c := by
  induction text with
  | nil =>
      refine iff_of_false List.not_mem_nil ?_
      rintro ⟨word, hword, hne, -⟩
      exact hne (List.append_eq_nil_iff.mp hword.symm).1
  | cons c text ih =>
      rw [plusRests]
      by_cases hc : p c
      · rw [if_pos hc, List.mem_cons, ih]
        constructor
        · rintro (rfl | ⟨word, rfl, -, hall⟩)
          · exact ⟨[c], rfl, List.cons_ne_nil c [], by simpa using hc⟩
          · exact ⟨c :: word, rfl, List.cons_ne_nil c word, List.forall_mem_cons.mpr ⟨hc, hall⟩⟩
        · rintro ⟨word, hword, hne, hall⟩
          cases word with
          | nil => exact (hne rfl).elim
          | cons d word =>
              obtain ⟨-, htext⟩ := List.cons_eq_cons.mp hword
              cases word with
              | nil => exact Or.inl htext.symm
              | cons d' word =>
                  exact Or.inr ⟨d' :: word, htext, List.cons_ne_nil d' word,
                    (List.forall_mem_cons.mp hall).2⟩
      · rw [if_neg hc]
        refine iff_of_false List.not_mem_nil ?_
        rintro ⟨word, hword, hne, hall⟩
        cases word with
        | nil => exact hne rfl
        | cons d word =>
            obtain ⟨rfl, -⟩ := List.cons_eq_cons.mp hword
            exact hc (hall c List.mem_cons_self)

theorem mem_rests_iff (pattern : Pattern α) (text rest : List α) :
    rest ∈ pattern.rests text ↔ ∃ word, text = word ++ rest ∧ pattern.Matches word := by
  induction pattern generalizing text rest with
  | one p =>
      have hone : rest ∈ (one p).rests text ↔ ∃ c, p c ∧ text = c :: rest := by
        cases text with
        | nil => simp [rests]
        | cons c text =>
            by_cases hc : p c
            · simp only [rests, if_pos hc, List.mem_singleton, List.cons_eq_cons]
              exact ⟨fun h ↦ ⟨c, hc, rfl, h.symm⟩, fun ⟨_, _, _, h⟩ ↦ h.symm⟩
            · simp only [rests, if_neg hc, List.not_mem_nil, false_iff, List.cons_eq_cons]
              rintro ⟨d, hd, rfl, -⟩
              exact hc hd
      rw [hone]
      constructor
      · rintro ⟨c, hc, rfl⟩
        exact ⟨[c], rfl, c, hc, rfl⟩
      · rintro ⟨word, rfl, c, hc, rfl⟩
        exact ⟨c, hc, rfl⟩
  | plus p => exact mem_plusRests_iff p text rest
  | seq first second ihfirst ihsecond =>
      rw [rests, List.mem_flatMap]
      constructor
      · rintro ⟨middle, hfirst, hsecond⟩
        obtain ⟨u, rfl, hu⟩ := (ihfirst text middle).mp hfirst
        obtain ⟨v, rfl, hv⟩ := (ihsecond middle rest).mp hsecond
        exact ⟨u ++ v, (List.append_assoc u v rest).symm, u, v, rfl, hu, hv⟩
      · rintro ⟨word, rfl, u, v, rfl, hu, hv⟩
        refine ⟨v ++ rest, (ihfirst _ _).mpr ⟨u, List.append_assoc u v rest, hu⟩, ?_⟩
        exact (ihsecond _ _).mpr ⟨v, rfl, hv⟩
  | optional pattern ih =>
      rw [rests, List.mem_cons, ih]
      constructor
      · rintro (rfl | ⟨word, hword, hmatches⟩)
        · exact ⟨[], rfl, Or.inl rfl⟩
        · exact ⟨word, hword, Or.inr hmatches⟩
      · rintro ⟨word, hword, rfl | hmatches⟩
        · exact Or.inl hword.symm
        · exact Or.inr ⟨word, hword, hmatches⟩

theorem test_iff (pattern : Pattern α) (text : List α) :
    pattern.test text ↔ pattern.Matches text := by
  have hnil : pattern.test text ↔ [] ∈ pattern.rests text := by
    simp [test, List.any_eq_true]
  rw [hnil, mem_rests_iff]
  constructor
  · rintro ⟨word, rfl, hmatches⟩
    rwa [List.append_nil]
  · intro hmatches
    exact ⟨text, (List.append_nil text).symm, hmatches⟩

end Pattern

end CoffeeTable.Ecma
