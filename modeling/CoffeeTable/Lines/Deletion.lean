import CoffeeTable.Lines.Document

/-!
# Deleting a number of characters from a flat text

A positive count deletes after the offset, a negative one before it, and what
exceeds the text is ignored. A deletion that is long enough can be taken in
pieces: the part of the cursor line on the side it goes to, then one separator
and the line behind it, and so on.
-/

namespace CoffeeTable.Lines.Flat

variable {α : Type*}

def delete (f : Flat α) (count : ℤ) : Flat α :=
  let stop := (f.offset + count).toNat
  ⟨f.text.take (min f.offset stop) ++ f.text.drop (max f.offset stop), min f.offset stop⟩

@[simp] theorem delete_zero (f : Flat α) : f.delete 0 = f := by
  simp [delete]

theorem delete_neg_one (f : Flat α) : f.delete (-1) = f.erase := by
  have hstop : ((f.offset : ℤ) + -1).toNat = f.offset - 1 := by omega
  have hmin : min f.offset (f.offset - 1) = f.offset - 1 := by omega
  have hmax : max f.offset (f.offset - 1) = f.offset := by omega
  simp only [delete, erase, hstop, hmin, hmax]

theorem delete_before (pre cut post : List α) {count : ℤ} (h : count + cut.length ≤ 0) :
    delete ⟨(pre ++ cut) ++ post, (pre ++ cut).length⟩ count =
      delete ⟨pre ++ post, pre.length⟩ (count + cut.length) := by
  have hlength : (pre ++ cut).length = pre.length + cut.length := List.length_append
  have hstop : (((pre ++ cut).length : ℤ) + count).toNat =
      ((pre.length : ℤ) + (count + cut.length)).toNat := by
    rw [hlength]
    omega
  have hle : ((pre.length : ℤ) + (count + cut.length)).toNat ≤ pre.length := by omega
  simp only [delete, hstop]
  generalize ((pre.length : ℤ) + (count + cut.length)).toNat = stop at hle
  have hwide : stop ≤ (pre ++ cut).length := by omega
  rw [min_eq_right hle, max_eq_left hle, min_eq_right hwide, max_eq_left hwide,
    List.drop_left, List.drop_left, List.append_assoc, List.take_append_of_le_length hle,
    List.take_append_of_le_length hle]

theorem delete_after (pre cut post : List α) {count : ℤ} (h : cut.length ≤ count) :
    delete ⟨pre ++ (cut ++ post), pre.length⟩ count =
      delete ⟨pre ++ post, pre.length⟩ (count - cut.length) := by
  obtain ⟨rest, rfl⟩ : ∃ rest : ℕ, count = cut.length + rest :=
    ⟨(count - cut.length).toNat, by omega⟩
  have hwide : ((pre.length : ℤ) + (cut.length + rest)).toNat =
      pre.length + (cut.length + rest) := by omega
  have hstop : ((pre.length : ℤ) + (cut.length + rest - cut.length)).toNat =
      pre.length + rest := by omega
  simp only [delete, hwide, hstop]
  rw [min_eq_left (Nat.le_add_right _ _), min_eq_left (Nat.le_add_right _ _),
    max_eq_right (Nat.le_add_right _ _), max_eq_right (Nat.le_add_right _ _), List.take_left,
    List.take_left, List.drop_length_add_append, List.drop_length_add_append,
    List.drop_length_add_append]

/-! ## One line at a time -/

section Lines

variable (sep : α) (before : List (List α)) (left right : List α) (after : List (List α))

theorem delete_left (cut : List α) {count : ℤ} (h : count + cut.length ≤ 0) :
    (ofLines sep before (left ++ cut) right after).delete count =
      (ofLines sep before left right after).delete (count + cut.length) := by
  have hdelete := delete_before (above sep before ++ left) cut (right ++ below sep after) h
  rw [ofLines_eq, ofLines_eq]
  simpa only [List.append_assoc] using hdelete

theorem delete_right (cut : List α) {count : ℤ} (h : cut.length ≤ count) :
    (ofLines sep before left (cut ++ right) after).delete count =
      (ofLines sep before left right after).delete (count - cut.length) := by
  have hdelete := delete_after (above sep before ++ left) cut (right ++ below sep after) h
  rw [ofLines_eq, ofLines_eq]
  simpa only [List.append_assoc] using hdelete

/-- Between two columns of one line. -/
theorem delete_between (line : List α) {col stop : ℕ} (hcol : col ≤ line.length)
    (hstop : stop ≤ line.length) {count : ℤ} (hcount : count + col = stop) :
    (ofLines sep before (line.take col) (line.drop col) after).delete count =
      ofLines sep before (line.take (min col stop)) (line.drop (max col stop)) after := by
  rcases Nat.le_total stop col with hback | hforth
  · have hcut : line.take col = line.take stop ++ (line.take col).drop stop := by
      conv_lhs => rw [← List.take_append_drop stop (line.take col)]
      rw [List.take_take, min_eq_left hback]
    have hlength : (((line.take col).drop stop).length : ℤ) = -count := by
      rw [List.length_drop, List.length_take]
      omega
    rw [min_eq_right hback, max_eq_left hback, hcut, delete_left _ _ _ _ _ _ (by omega), hlength,
      add_neg_cancel, delete_zero]
  · have hcut : line.drop col = (line.drop col).take (stop - col) ++ line.drop stop := by
      conv_lhs => rw [← List.take_append_drop (stop - col) (line.drop col)]
      rw [List.drop_drop, Nat.add_sub_cancel' hforth]
    have hlength : (((line.drop col).take (stop - col)).length : ℤ) = count := by
      rw [List.length_take, List.length_drop]
      omega
    rw [min_eq_left hforth, max_eq_right hforth, hcut, delete_right _ _ _ _ _ _ (by omega),
      hlength, sub_self, delete_zero]

/-- Backwards over the separator that closes the line above. -/
theorem delete_start (previous : List α) {count : ℤ} (h : count < 0) :
    (ofLines sep (before ++ [previous]) [] right after).delete count =
      (ofLines sep before previous right after).delete (count + 1) := by
  have hone : count + [sep].length ≤ 0 := by
    rw [List.length_singleton]
    omega
  have hdelete := delete_before (above sep before ++ previous) [sep] (right ++ below sep after) hone
  rw [ofLines_eq, ofLines_eq]
  simpa using hdelete

/-- Forwards over the separator in front of the line below. -/
theorem delete_end (next : List α) {count : ℤ} (h : 0 < count) :
    (ofLines sep before left [] (next :: after)).delete count =
      (ofLines sep before left next after).delete (count - 1) := by
  have hone : [sep].length ≤ count := by
    rw [List.length_singleton]
    omega
  have hdelete := delete_after (above sep before ++ left) [sep] (next ++ below sep after) hone
  rw [ofLines_eq, ofLines_eq]
  simpa using hdelete

theorem delete_last {count : ℤ} (h : 0 ≤ count) :
    (ofLines sep before left [] []).delete count = ofLines sep before left [] [] := by
  rw [ofLines_eq, below_nil, List.append_nil, List.append_nil, delete]
  have hstop : (above sep before ++ left).length ≤
      (((above sep before ++ left).length : ℤ) + count).toNat := by omega
  simp only [min_eq_left hstop, max_eq_right hstop, List.take_length,
    List.drop_eq_nil_of_le hstop, List.append_nil]

end Lines

end CoffeeTable.Lines.Flat
