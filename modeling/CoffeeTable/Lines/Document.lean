import Mathlib.Data.List.Basic
import Mathlib.Algebra.Order.BigOperators.Group.List
import Mathlib.Tactic.Ring

/-!
# Documents as lines and as flat text

A nonempty list of lines, joined by a separator, is one flat text. Choosing a
line splits that text into what stands above it, the line, and what stands
below it, each part closed by its own separators. A flat editor holds the text
and one offset; it is the meaning of an editor that works on lines.
-/

namespace CoffeeTable.Lines

variable {α : Type*}

def join (sep : α) (lines : List (List α)) : List α := [sep].intercalate lines

def above (sep : α) (before : List (List α)) : List α := before.flatMap (· ++ [sep])

def below (sep : α) (after : List (List α)) : List α := after.flatMap (sep :: ·)

@[simp] theorem above_nil (sep : α) : above sep [] = [] := rfl

@[simp] theorem below_nil (sep : α) : below sep [] = [] := rfl

@[simp] theorem below_cons (sep : α) (line : List α) (after : List (List α)) :
    below sep (line :: after) = sep :: line ++ below sep after := rfl

@[simp] theorem above_append (sep : α) (xs ys : List (List α)) :
    above sep (xs ++ ys) = above sep xs ++ above sep ys := List.flatMap_append

@[simp] theorem above_singleton (sep : α) (line : List α) :
    above sep [line] = line ++ [sep] := by simp [above]

theorem length_above (sep : α) (before : List (List α)) :
    (above sep before).length = (before.map (·.length + 1)).sum := by
  simp [above, List.length_flatMap]

theorem join_cons (sep : α) (line : List α) (after : List (List α)) :
    join sep (line :: after) = line ++ below sep after := by
  induction after generalizing line with
  | nil => simp [join]
  | cons next after ih =>
      have hnext : [sep].intercalate (next :: after) = next ++ below sep after := ih next
      simp only [join, List.intercalate_cons_cons, hnext, below_cons, List.append_assoc,
        List.cons_append, List.nil_append]

theorem join_split (sep : α) (before after : List (List α)) (line : List α) :
    join sep (before ++ line :: after) = above sep before ++ line ++ below sep after := by
  induction before with
  | nil => simp [join_cons]
  | cons first before ih =>
      have hne : before ++ line :: after ≠ [] := by simp
      have hfirst : join sep (first :: (before ++ line :: after)) =
          first ++ [sep] ++ join sep (before ++ line :: after) := by
        simp [join, List.intercalate_cons_of_ne_nil hne]
      rw [List.cons_append, hfirst, ih]
      simp [above, List.append_assoc]

theorem below_eq_cons_join (sep : α) {lines : List (List α)} (h : lines ≠ []) :
    below sep lines = sep :: join sep lines := by
  cases lines with
  | nil => exact (h rfl).elim
  | cons line after => rw [join_cons, below_cons, List.cons_append]

theorem join_append_nil (sep : α) {lines : List (List α)} (h : lines ≠ []) :
    join sep (lines ++ [[]]) = join sep lines ++ [sep] := by
  cases lines with
  | nil => exact (h rfl).elim
  | cons line after => simp [join_cons, below]

/-- Joining adds nothing but separators. -/
theorem filter_join [DecidableEq α] (sep : α) (lines : List (List α)) :
    (join sep lines).filter (· ≠ sep) = lines.flatten.filter (· ≠ sep) := by
  have hbelow (after : List (List α)) :
      (below sep after).filter (· ≠ sep) = after.flatten.filter (· ≠ sep) := by
    induction after with
    | nil => rfl
    | cons line after ih =>
        rw [below_cons, List.cons_append, List.filter_cons_of_neg (by simp), List.filter_append,
          ih, List.flatten_cons, List.filter_append]
  cases lines with
  | nil => rfl
  | cons line after =>
      rw [join_cons, List.filter_append, hbelow, List.flatten_cons, List.filter_append]

/-! ## Splitting a joined text -/

theorem sep_notMem_of_mem_splitOn [BEq α] [LawfulBEq α] {sep : α} {xs line : List α}
    (h : line ∈ xs.splitOn sep) : sep ∉ line := by
  induction xs generalizing line with
  | nil => simp_all
  | cons x xs ih =>
      obtain ⟨first, rest, hsplit⟩ := List.exists_cons_of_ne_nil (List.splitOn_ne_nil sep xs)
      rw [hsplit] at ih
      rw [List.splitOn_cons_eq_if_modifyHead, hsplit] at h
      split_ifs at h with hx
      · rcases List.mem_cons.mp h with rfl | h
        · exact List.not_mem_nil
        · exact ih h
      · rw [List.modifyHead_cons, List.mem_cons] at h
        rcases h with rfl | h
        · have hne : sep ≠ x := fun heq ↦ hx (by simp [heq])
          exact List.not_mem_cons_of_ne_of_not_mem hne (ih List.mem_cons_self)
        · exact ih (List.mem_cons_of_mem _ h)

/-- Splitting gives joined lines back exactly if there are lines and none of
them contains the separator. -/
theorem splitOn_join_iff [BEq α] [LawfulBEq α] (sep : α) (lines : List (List α)) :
    (join sep lines).splitOn sep = lines ↔ lines ≠ [] ∧ ∀ line ∈ lines, sep ∉ line := by
  constructor
  · intro h
    rw [← h]
    exact ⟨List.splitOn_ne_nil sep _, fun line hline ↦ sep_notMem_of_mem_splitOn hline⟩
  · rintro ⟨hne, hfree⟩
    exact List.splitOn_intercalate sep hfree hne

/-! ## Edits that only add text -/

theorem join_sublist_of_line (sep : α) (before after : List (List α)) {line grown : List α}
    (h : List.Sublist line grown) :
    List.Sublist (join sep (before ++ line :: after)) (join sep (before ++ grown :: after)) := by
  rw [join_split, join_split]
  exact ((List.Sublist.refl _).append h).append (List.Sublist.refl _)

/-- A line broken in two keeps its text; with an empty part this opens a new
line above or below the old one. -/
theorem join_sublist_of_break (sep : α) (before after : List (List α)) (left right : List α) :
    List.Sublist (join sep (before ++ (left ++ right) :: after))
      (join sep (before ++ left :: right :: after)) := by
  have hright : List.Sublist (right ++ below sep after) (sep :: (right ++ below sep after)) :=
    List.sublist_cons_self sep _
  rw [join_split, join_split, below_cons]
  simpa only [List.append_assoc, List.cons_append] using
    (List.Sublist.refl (above sep before ++ left)).append hright

/-! ## The flat editor -/

structure Flat (α : Type*) where
  text : List α
  offset : ℕ
  deriving DecidableEq

namespace Flat

def insert (f : Flat α) (xs : List α) : Flat α :=
  ⟨f.text.take f.offset ++ xs ++ f.text.drop f.offset, f.offset + xs.length⟩

def erase (f : Flat α) : Flat α :=
  ⟨f.text.take (f.offset - 1) ++ f.text.drop f.offset, f.offset - 1⟩

@[simp] theorem insert_nil (f : Flat α) : f.insert [] = f := by
  simp [insert]

theorem insert_split (pre post xs : List α) :
    insert ⟨pre ++ post, pre.length⟩ xs = ⟨pre ++ xs ++ post, pre.length + xs.length⟩ := by
  simp [insert]

theorem exists_split {f : Flat α} (h : f.offset ≤ f.text.length) :
    ∃ pre post, f = ⟨pre ++ post, pre.length⟩ := by
  refine ⟨f.text.take f.offset, f.text.drop f.offset, ?_⟩
  rw [List.take_append_drop, List.length_take, min_eq_left h]

theorem insert_insert {f : Flat α} (h : f.offset ≤ f.text.length) (xs ys : List α) :
    (f.insert xs).insert ys = f.insert (xs ++ ys) := by
  obtain ⟨pre, post, rfl⟩ := exists_split h
  have hsecond := insert_split (pre ++ xs) post ys
  rw [List.length_append] at hsecond
  rw [insert_split, hsecond, insert_split]
  simp [add_assoc]

/-- Erasing takes back the last thing inserted. -/
theorem erase_insert {f : Flat α} (h : f.offset ≤ f.text.length) (xs : List α) (x : α) :
    (f.insert (xs ++ [x])).erase = f.insert xs := by
  obtain ⟨pre, post, rfl⟩ := exists_split h
  rw [insert_split, insert_split, erase]
  have hpre : (pre ++ xs).length = pre.length + (xs ++ [x]).length - 1 := by simp
  have hall : (pre ++ (xs ++ [x])).length = pre.length + (xs ++ [x]).length := List.length_append
  rw [← hpre, ← hall, List.drop_left, List.length_append]
  congr 2
  rw [← List.append_assoc, List.append_assoc (pre ++ xs), ← List.length_append, List.take_left]

/-- The flat document of a chosen line whose part `left` precedes the cursor. -/
def ofLines (sep : α) (before : List (List α)) (left right : List α)
    (after : List (List α)) : Flat α :=
  ⟨join sep (before ++ (left ++ right) :: after), (above sep before).length + left.length⟩

theorem ofLines_eq (sep : α) (before : List (List α)) (left right : List α)
    (after : List (List α)) :
    ofLines sep before left right after =
      ⟨(above sep before ++ left) ++ (right ++ below sep after),
        (above sep before ++ left).length⟩ := by
  simp [ofLines, join_split]

theorem insert_ofLines (sep : α) (before : List (List α)) (left right xs : List α)
    (after : List (List α)) :
    (ofLines sep before left right after).insert xs =
      ofLines sep before (left ++ xs) right after := by
  rw [ofLines_eq, insert_split, ofLines_eq]
  simp [add_assoc]

theorem insert_sep_ofLines (sep : α) (before : List (List α)) (left right : List α)
    (after : List (List α)) :
    (ofLines sep before left right after).insert [sep] =
      ofLines sep (before ++ [left]) [] right after := by
  rw [ofLines_eq, insert_split, ofLines_eq]
  simp [add_assoc]

end Flat

end CoffeeTable.Lines
