import Mathlib.Data.List.Basic

/-!
# Prefix-free codes

If no word of a code begins another, each word can be split off the front of
any text. The words of a sequence of symbols then determine the sequence, also
in front of a symbol that is in no word.
-/

namespace CoffeeTable.Coding

variable {α β : Type*} {code : α → List β}

structure PrefixFree (code : α → List β) : Prop where
  ne_nil : ∀ a, code a ≠ []
  eq_of_prefix : ∀ a b, code a <+: code b → a = b

namespace PrefixFree

theorem append_inj (h : PrefixFree code) {a b : α} {s t : List β}
    (heq : code a ++ s = code b ++ t) : a = b ∧ s = t := by
  have heither : code a <+: code b ∨ code b <+: code a := by
    apply List.prefix_or_prefix_of_prefix (List.prefix_append (code a) s)
    rw [heq]
    exact List.prefix_append (code b) t
  have hab : a = b := by
    rcases heither with hleft | hright
    · exact h.eq_of_prefix a b hleft
    · exact (h.eq_of_prefix b a hright).symm
  subst hab
  exact ⟨rfl, List.append_cancel_left heq⟩

theorem flatMap_injective (h : PrefixFree code) : Function.Injective (List.flatMap code) := by
  intro xs ys heq
  induction xs generalizing ys with
  | nil =>
      cases ys with
      | nil => rfl
      | cons y ys =>
          rw [List.flatMap_nil, List.flatMap_cons] at heq
          exact (h.ne_nil y (List.append_eq_nil_iff.mp heq.symm).1).elim
  | cons x xs ih =>
      cases ys with
      | nil =>
          rw [List.flatMap_nil, List.flatMap_cons] at heq
          exact (h.ne_nil x (List.append_eq_nil_iff.mp heq).1).elim
      | cons y ys =>
          rw [List.flatMap_cons, List.flatMap_cons] at heq
          obtain ⟨rfl, hrest⟩ := h.append_inj heq
          rw [ih hrest]

end PrefixFree

/-- A symbol that is in neither text in front of it shows where both end. -/
theorem append_cons_inj_of_notMem {stop : β} {xs ys s t : List β} (hxs : stop ∉ xs)
    (hys : stop ∉ ys) (heq : xs ++ stop :: s = ys ++ stop :: t) : xs = ys ∧ s = t := by
  induction xs generalizing ys with
  | nil =>
      cases ys with
      | nil => exact ⟨rfl, (List.cons_eq_cons.mp heq).2⟩
      | cons y ys => exact (hys ((List.cons_eq_cons.mp heq).1 ▸ List.mem_cons_self)).elim
  | cons x xs ih =>
      rw [List.mem_cons, not_or] at hxs
      cases ys with
      | nil => exact (hxs.1 (List.cons_eq_cons.mp heq).1.symm).elim
      | cons y ys =>
          rw [List.mem_cons, not_or] at hys
          obtain ⟨rfl, hrest⟩ := List.cons_eq_cons.mp heq
          obtain ⟨rfl, hend⟩ := ih hxs.2 hys.2 hrest
          exact ⟨rfl, hend⟩

theorem PrefixFree.flatMap_append_cons (h : PrefixFree code) {stop : β}
    (hstop : ∀ a, stop ∉ code a) {xs ys : List α} {s t : List β}
    (heq : xs.flatMap code ++ stop :: s = ys.flatMap code ++ stop :: t) : xs = ys ∧ s = t := by
  have hnone (zs : List α) : stop ∉ zs.flatMap code := by
    rw [List.mem_flatMap]
    rintro ⟨a, -, ha⟩
    exact hstop a ha
  obtain ⟨hwords, hrest⟩ := append_cons_inj_of_notMem (hnone xs) (hnone ys) heq
  exact ⟨h.flatMap_injective hwords, hrest⟩

end CoffeeTable.Coding
