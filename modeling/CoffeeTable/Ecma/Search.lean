import Mathlib.Data.List.Infix

/-!
# Counting a word in a text

A text assembled from pieces contains a word as often as its pieces do, as
long as no occurrence can start in one piece and reach into the next. A piece
is apart from the word if no end of it could be such a start.
-/

namespace CoffeeTable.Ecma

variable {α : Type*}

def occurrences [DecidableEq α] (word : List α) : List α → ℕ
  | [] => 0
  | c :: cs => (if word <+: c :: cs then 1 else 0) + occurrences word cs

/-- No occurrence of the word starts in the piece, whatever follows it. -/
def Apart (word : List α) : List α → Prop
  | [] => True
  | c :: cs => ¬ c :: cs <+: word ∧ ¬ word <+: c :: cs ∧ Apart word cs

instance Apart.decidable [DecidableEq α] (word : List α) :
    (piece : List α) → Decidable (Apart word piece)
  | [] => isTrue trivial
  | c :: cs =>
      have := Apart.decidable word cs
      inferInstanceAs (Decidable (¬ c :: cs <+: word ∧ ¬ word <+: c :: cs ∧ Apart word cs))

theorem apart_of_notMem {first : α} {rest piece : List α} (h : first ∉ piece) :
    Apart (first :: rest) piece := by
  induction piece with
  | nil => trivial
  | cons c cs ih =>
      rw [List.mem_cons, not_or] at h
      refine ⟨fun hpre ↦ ?_, fun hpre ↦ ?_, ih h.2⟩
      · exact h.1 (List.cons_prefix_cons.mp hpre).1.symm
      · exact h.1 (List.cons_prefix_cons.mp hpre).1

theorem not_prefix_of_apart {word cs : List α} {c : α} (h : Apart word (c :: cs))
    (text : List α) : ¬ word <+: c :: cs ++ text := by
  obtain ⟨hpiece, hword, -⟩ := h
  intro hpre
  rcases List.prefix_or_prefix_of_prefix hpre (List.prefix_append (c :: cs) text) with
    hleft | hright
  · exact hword hleft
  · exact hpiece hright

theorem occurrences_append_of_apart [DecidableEq α] {word piece : List α} (h : Apart word piece)
    (text : List α) : occurrences word (piece ++ text) = occurrences word text := by
  induction piece with
  | nil => rfl
  | cons c cs ih =>
      have hno := not_prefix_of_apart h text
      rw [List.cons_append] at hno ⊢
      rw [occurrences, if_neg hno, ih h.2.2, Nat.zero_add]

theorem occurrences_word_append [DecidableEq α] {first : α} {rest : List α}
    (h : Apart (first :: rest) rest) (text : List α) :
    occurrences (first :: rest) (first :: rest ++ text) =
      occurrences (first :: rest) text + 1 := by
  have hpre : first :: rest <+: first :: (rest ++ text) := List.prefix_append (first :: rest) text
  rw [List.cons_append, occurrences, if_pos hpre, occurrences_append_of_apart h, Nat.add_comm]

/-- The text without the first occurrence of a word. -/
def remove [DecidableEq α] (word : List α) : List α → List α
  | [] => []
  | c :: cs => if word <+: c :: cs then (c :: cs).drop word.length else c :: remove word cs

theorem Apart.append {word xs ys : List α} (hxs : Apart word xs) (hys : Apart word ys) :
    Apart word (xs ++ ys) := by
  induction xs with
  | nil => exact hys
  | cons c cs ih =>
      refine ⟨fun hpre ↦ ?_, not_prefix_of_apart hxs ys, ih hxs.2.2⟩
      exact hxs.1 ((List.prefix_append (c :: cs) ys).trans hpre)

/-- What is apart from a word is apart from every longer one. -/
theorem Apart.append_word {word piece : List α} (h : Apart word piece) (more : List α) :
    Apart (word ++ more) piece := by
  induction piece with
  | nil => trivial
  | cons c cs ih =>
      obtain ⟨hpiece, hword, hcs⟩ := h
      refine ⟨fun hpre ↦ ?_, fun hpre ↦ ?_, ih hcs⟩
      · rcases List.prefix_or_prefix_of_prefix hpre (List.prefix_append word more) with
          hleft | hright
        · exact hpiece hleft
        · exact hword hright
      · exact hword ((List.prefix_append word more).trans hpre)

theorem occurrences_of_apart [DecidableEq α] {word piece : List α} (h : Apart word piece) :
    occurrences word piece = 0 := by
  have happend := occurrences_append_of_apart h []
  rwa [List.append_nil] at happend

theorem remove_append [DecidableEq α] {first : α} {rest piece : List α}
    (h : Apart (first :: rest) piece) (text : List α) :
    remove (first :: rest) (piece ++ (first :: rest ++ text)) = piece ++ text := by
  induction piece with
  | nil =>
      have hpre : first :: rest <+: first :: (rest ++ text) :=
        List.prefix_append (first :: rest) text
      rw [List.nil_append, List.cons_append, remove, if_pos hpre, ← List.cons_append,
        List.drop_left]
      rfl
  | cons c cs ih =>
      have hno := not_prefix_of_apart h (first :: rest ++ text)
      rw [List.cons_append] at hno ⊢
      rw [remove, if_neg hno, ih h.2.2, List.cons_append]

end CoffeeTable.Ecma
